import Mathlib.Data.List.TakeWhile

/-! # Cutting a list at its first separators

`fields sep k t` cuts the list `t` at its first `k` separators, or at all of them if there
are fewer; the last field keeps the others.  Three facts describe the fields: how many there
are, that joining them gives the list back, and that only the last one may hold a separator.
-/
namespace Fields
variable {α : Type*} [DecidableEq α]

/-- What stands before the first separator and what stands behind it, if there is one. -/
def cut (sep : α) : List α → Option (List α × List α)
  | [] => none
  | c :: t => if c = sep then some ([], t) else (cut sep t).map fun p => (c :: p.1, p.2)

/-- The list cut at its first `k` separators. -/
def fields (sep : α) : Nat → List α → List (List α)
  | 0, t => [t]
  | k + 1, t =>
    match cut sep t with
    | none => [t]
    | some (a, b) => a :: fields sep k b

section Cut
variable {sep : α} {t a b : List α}

theorem cut_append (h : sep ∉ a) : cut sep (a ++ sep :: b) = some (a, b) := by
  induction a with
  | nil => simp [cut]
  | cons c a ih =>
    have hc : c ≠ sep := fun heq => h (heq ▸ List.mem_cons_self)
    rw [List.cons_append, cut, if_neg hc, ih fun hmem => h (List.mem_cons_of_mem _ hmem)]
    rfl

theorem cut_eq_none (h : sep ∉ t) : cut sep t = none := by
  induction t with
  | nil => rfl
  | cons c t ih =>
    have hc : c ≠ sep := fun heq => h (heq ▸ List.mem_cons_self)
    rw [cut, if_neg hc, ih fun hmem => h (List.mem_cons_of_mem _ hmem)]
    rfl

/-- A list with a separator is cut at the first one. -/
theorem exists_cut (h : sep ∈ t) :
    ∃ a b, t = a ++ sep :: b ∧ sep ∉ a ∧ cut sep t = some (a, b) := by
  obtain ⟨a, b, rfl, ha⟩ := List.eq_append_cons_of_mem h
  exact ⟨a, b, rfl, ha, cut_append ha⟩

end Cut

omit [DecidableEq α] in
/-- Where an element of joined lists comes from. -/
theorem mem_intercalate {sep x : α} {ls : List (List α)} (h : x ∈ [sep].intercalate ls) :
    x = sep ∨ ∃ l ∈ ls, x ∈ l := by
  induction ls with
  | nil => cases h
  | cons l ls ih =>
    by_cases hnil : ls = []
    · subst hnil
      rw [List.intercalate_singleton] at h
      exact Or.inr ⟨l, List.mem_cons_self, h⟩
    · rw [List.intercalate_cons_of_ne_nil hnil, List.mem_append, List.mem_append] at h
      rcases h with (hl | hsep) | hls
      · exact Or.inr ⟨l, List.mem_cons_self, hl⟩
      · exact Or.inl (List.mem_singleton.mp hsep)
      · rcases ih hls with rfl | ⟨l', hl', hx⟩
        · exact Or.inl rfl
        · exact Or.inr ⟨l', List.mem_cons_of_mem _ hl', hx⟩

section Fields
variable {sep : α} {k : Nat} {t a b : List α}

@[simp] theorem fields_zero : fields sep 0 t = [t] := rfl

theorem fields_of_notMem (h : sep ∉ t) : fields sep k t = [t] := by
  cases k with
  | zero => rfl
  | succ k => rw [fields, cut_eq_none h]

theorem fields_append (h : sep ∉ a) : fields sep (k + 1) (a ++ sep :: b) = a :: fields sep k b := by
  rw [fields, cut_append h]

theorem fields_ne_nil : fields sep k t ≠ [] := by
  cases k with
  | zero => simp
  | succ k =>
    by_cases h : sep ∈ t
    · obtain ⟨a, b, rfl, ha, -⟩ := exists_cut h
      simp [fields_append ha]
    · simp [fields_of_notMem h]

/-- One field more than the list was cut. -/
theorem length_fields (sep : α) (k : Nat) (t : List α) :
    (fields sep k t).length = 1 + min k (t.count sep) := by
  induction k generalizing t with
  | zero => simp
  | succ k ih =>
    by_cases h : sep ∈ t
    · obtain ⟨a, b, rfl, ha, -⟩ := exists_cut h
      rw [fields_append ha, List.length_cons, ih, List.count_append, List.count_cons_self,
        List.count_eq_zero.mpr ha]
      omega
    · simp [fields_of_notMem h, List.count_eq_zero.mpr h]

/-- **Joining the fields gives the list back.** -/
theorem intercalate_fields : [sep].intercalate (fields sep k t) = t := by
  induction k generalizing t with
  | zero => simp
  | succ k ih =>
    by_cases h : sep ∈ t
    · obtain ⟨a, b, rfl, ha, -⟩ := exists_cut h
      rw [fields_append ha, List.intercalate_cons_of_ne_nil fields_ne_nil, ih]
      simp
    · rw [fields_of_notMem h, List.intercalate_singleton]

/-- Only the last field may hold a separator. -/
theorem sep_notMem_of_mem_dropLast {f : List α} (h : f ∈ (fields sep k t).dropLast) : sep ∉ f := by
  induction k generalizing t with
  | zero => simp at h
  | succ k ih =>
    by_cases hsep : sep ∈ t
    · obtain ⟨a, b, rfl, ha, -⟩ := exists_cut hsep
      rw [fields_append ha, List.dropLast_cons_of_ne_nil fields_ne_nil] at h
      rcases List.mem_cons.mp h with rfl | h
      · exact ha
      · exact ih h
    · simp [fields_of_notMem hsep] at h

/-- The first field is what stands before the first separator. -/
theorem exists_fields_succ (sep : α) (k : Nat) (t : List α) :
    ∃ fs, fields sep (k + 1) t = t.takeWhile (· ≠ sep) :: fs := by
  by_cases hsep : sep ∈ t
  · obtain ⟨a, b, rfl, ha, -⟩ := exists_cut hsep
    have hall : ∀ x ∈ a, decide (x ≠ sep) = true := fun x hx =>
      decide_eq_true fun heq => ha (heq ▸ hx)
    refine ⟨fields sep k b, ?_⟩
    rw [fields_append ha, List.takeWhile_append_of_pos hall, List.takeWhile_cons_of_neg (by simp),
      List.append_nil]
  · have hall : t.takeWhile (· ≠ sep) = t :=
      List.takeWhile_eq_self_iff.mpr fun x hx => decide_eq_true fun heq => hsep (heq ▸ hx)
    exact ⟨[], by rw [fields_of_notMem hsep, hall]⟩

/-- The fields hold nothing that the list does not hold. -/
theorem mem_of_mem_fields {f : List α} (hf : f ∈ fields sep k t) {x : α} (hx : x ∈ f) : x ∈ t := by
  induction k generalizing t with
  | zero =>
    obtain rfl := List.mem_singleton.mp hf
    exact hx
  | succ k ih =>
    by_cases hsep : sep ∈ t
    · obtain ⟨a, b, rfl, ha, -⟩ := exists_cut hsep
      rw [fields_append ha] at hf
      rcases List.mem_cons.mp hf with rfl | hf
      · exact List.mem_append_left _ hx
      · exact List.mem_append_right _ (List.mem_cons_of_mem _ (ih hf))
    · rw [fields_of_notMem hsep] at hf
      obtain rfl := List.mem_singleton.mp hf
      exact hx

end Fields
end Fields
