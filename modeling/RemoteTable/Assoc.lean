import Mathlib.Data.List.Nodup

/-! # Lists as finite maps

A list whose elements have a key and a value is a finite map when its keys are
distinct.  `Binds l k v` reads it as a relation, and the three edits an
implementation makes — replace an element by one with the same key, take an
element out, put one with a new key in, anywhere — are characterised by what
they do to `Binds`, with the map staying one (`Distinct`).

`put`, `remove` and `lookup` are the operations on a list that keeps its elements in the
order in which their keys came.
-/
namespace Assoc
variable {ε κ β : Type} (key : ε → κ) (val : ε → β)

/-- No two elements have the same key. -/
def Distinct (l : List ε) : Prop := (l.map key).Nodup

instance [DecidableEq κ] (l : List ε) : Decidable (Distinct key l) :=
  inferInstanceAs (Decidable (List.Nodup _))

/-- The list maps `k` to `v`. -/
def Binds (l : List ε) (k : κ) (v : β) : Prop := ∃ e ∈ l, key e = k ∧ val e = v

variable {key} {val} {l₁ l₂ : List ε} {e e' : ε}

theorem binds_middle {k : κ} {v : β} :
    Binds key val (l₁ ++ e :: l₂) k v ↔ (key e = k ∧ val e = v) ∨ Binds key val (l₁ ++ l₂) k v := by
  simp only [Binds, List.mem_append, List.mem_cons]
  constructor
  · rintro ⟨x, h | rfl | h, hx⟩
    · exact Or.inr ⟨x, Or.inl h, hx⟩
    · exact Or.inl hx
    · exact Or.inr ⟨x, Or.inr h, hx⟩
  · rintro (hx | ⟨x, h | h, hx⟩)
    · exact ⟨e, Or.inr (Or.inl rfl), hx⟩
    · exact ⟨x, Or.inl h, hx⟩
    · exact ⟨x, Or.inr (Or.inr h), hx⟩

/-- An element in the middle of a list with distinct keys. -/
theorem distinct_middle :
    Distinct key (l₁ ++ e :: l₂) ↔ key e ∉ (l₁ ++ l₂).map key ∧ Distinct key (l₁ ++ l₂) := by
  have hp : ((l₁ ++ e :: l₂).map key).Perm (key e :: (l₁ ++ l₂).map key) := by
    simp
  unfold Distinct
  rw [hp.nodup_iff, List.nodup_cons]

theorem not_binds_of_not_mem {l : List ε} {k : κ} (h : k ∉ l.map key) (v : β) :
    ¬ Binds key val l k v := by
  rintro ⟨x, hx, rfl, -⟩
  exact h (List.mem_map.mpr ⟨x, hx, rfl⟩)

/-- **A map has at most one value for a key.** -/
theorem Distinct.unique {l : List ε} (hd : Distinct key l) {k : κ} {v w : β}
    (hv : Binds key val l k v) (hw : Binds key val l k w) : v = w := by
  obtain ⟨x, hx, rfl, rfl⟩ := hv
  obtain ⟨y, hy, hxy, rfl⟩ := hw
  rw [List.inj_on_of_nodup_map hd hy hx hxy]

/-- **Replacing** an element by one with the same key. -/
theorem Distinct.replace [DecidableEq κ] (val : ε → β) (hd : Distinct key (l₁ ++ e :: l₂)) (hk : key e' = key e) :
    Distinct key (l₁ ++ e' :: l₂) ∧ ∀ k v, Binds key val (l₁ ++ e' :: l₂) k v ↔
      if k = key e then v = val e' else Binds key val (l₁ ++ e :: l₂) k v := by
  obtain ⟨hnot, hrest⟩ := distinct_middle.mp hd
  refine ⟨distinct_middle.mpr ⟨hk ▸ hnot, hrest⟩, fun k v => ?_⟩
  rw [binds_middle, binds_middle]
  split
  · rename_i h
    subst h
    simp [hk, not_binds_of_not_mem hnot v, eq_comm]
  · rename_i h
    simp [hk, Ne.symm h]

/-- **Taking out** an element. -/
theorem Distinct.erase (val : ε → β) (hd : Distinct key (l₁ ++ e :: l₂)) :
    Distinct key (l₁ ++ l₂) ∧ ∀ k v, Binds key val (l₁ ++ l₂) k v ↔
      k ≠ key e ∧ Binds key val (l₁ ++ e :: l₂) k v := by
  obtain ⟨hnot, hrest⟩ := distinct_middle.mp hd
  refine ⟨hrest, fun k v => ?_⟩
  rw [binds_middle]
  constructor
  · intro h
    refine ⟨?_, Or.inr h⟩
    rintro rfl
    exact not_binds_of_not_mem hnot v h
  · rintro ⟨hne, ⟨rfl, -⟩ | h⟩
    · exact absurd rfl hne
    · exact h

/-- **Putting in** an element with a new key. -/
theorem Distinct.insert [DecidableEq κ] (val : ε → β) (e : ε) (hd : Distinct key (l₁ ++ l₂))
    (hnew : key e ∉ (l₁ ++ l₂).map key) :
    Distinct key (l₁ ++ e :: l₂) ∧ ∀ k v, Binds key val (l₁ ++ e :: l₂) k v ↔
      if k = key e then v = val e else Binds key val (l₁ ++ l₂) k v := by
  refine ⟨distinct_middle.mpr ⟨hnew, hd⟩, fun k v => ?_⟩
  rw [binds_middle]
  split
  · rename_i h
    subst h
    simp [not_binds_of_not_mem hnew v, eq_comm]
  · rename_i h
    simp [Ne.symm h]

/-! ## Insertion order -/

section Order
variable [DecidableEq κ]

/-- An element replaces the one with its key, where that stands, or goes to the end. -/
def put (key : ε → κ) (e : ε) (l : List ε) : List ε :=
  if key e ∈ l.map key then l.map (fun x => if key x = key e then e else x) else l ++ [e]

/-- The elements with another key, in order. -/
def remove (key : ε → κ) (k : κ) (l : List ε) : List ε := l.filter fun x => key x ≠ k

/-- The first element with the key. -/
def lookup (key : ε → κ) (k : κ) (l : List ε) : Option ε := l.find? fun x => key x = k

theorem put_new {l : List ε} (h : key e ∉ l.map key) : put key e l = l ++ [e] := if_neg h

theorem remove_absent {l : List ε} {k : κ} (h : k ∉ l.map key) : remove key k l = l := by
  refine List.filter_eq_self.mpr fun x hx => decide_eq_true ?_
  rintro rfl
  exact h (List.mem_map.mpr ⟨x, hx, rfl⟩)

theorem lookup_absent {l : List ε} {k : κ} (h : k ∉ l.map key) : lookup key k l = none := by
  refine List.find?_eq_none.mpr fun x hx hk => ?_
  exact h (List.mem_map.mpr ⟨x, hx, of_decide_eq_true hk⟩)

/-- The element with a key stands out in a list with distinct keys. -/
theorem Distinct.put_middle (hd : Distinct key (l₁ ++ e :: l₂)) (hk : key e' = key e) :
    put key e' (l₁ ++ e :: l₂) = l₁ ++ e' :: l₂ := by
  have hnot := (distinct_middle.mp hd).1
  have hsame : ∀ x ∈ l₁ ++ l₂, (if key x = key e' then e' else x) = x := by
    intro x hx
    refine if_neg fun h => hnot (List.mem_map.mpr ⟨x, hx, h.trans hk⟩)
  rw [put, if_pos (by simp [hk]), List.map_append, List.map_cons, if_pos hk.symm,
    List.map_congr_left fun x hx => hsame x (List.mem_append_left _ hx),
    List.map_congr_left fun x hx => hsame x (List.mem_append_right _ hx)]
  simp

theorem Distinct.remove_middle (hd : Distinct key (l₁ ++ e :: l₂)) :
    remove key (key e) (l₁ ++ e :: l₂) = l₁ ++ l₂ := by
  have hnot := (distinct_middle.mp hd).1
  rw [remove, List.filter_append, List.filter_cons_of_neg (by simp), ← List.filter_append]
  exact remove_absent hnot

theorem Distinct.lookup_middle (hd : Distinct key (l₁ ++ e :: l₂)) :
    lookup key (key e) (l₁ ++ e :: l₂) = some e := by
  have hnot := (distinct_middle.mp hd).1
  refine List.find?_eq_some_iff_append.mpr ⟨by simp, l₁, l₂, rfl, fun x hx => ?_⟩
  rw [Bool.not_eq_true', decide_eq_false_iff_not]
  exact fun h => hnot (List.mem_map.mpr ⟨x, List.mem_append_left _ hx, h⟩)

end Order

end Assoc
