import RemoteTable.Heap
import Mathlib.Algebra.Order.Ring.Nat
import Mathlib.Algebra.BigOperators.Group.Multiset.Basic
import Mathlib.Data.List.Nodup

/-! # Objects and who owns them

A memory has objects of any type at its addresses and remembers which of them have been
freed.  What it owns is the multiset of its live objects: two descriptions of a memory that add
up to this multiset are disjoint and leave nothing out, so a function that ends with the objects
its caller knows of has neither freed anything twice nor lost anything.

Each operation has one rule.  To read, an object has to be among those owned; to write or to
free, the owned ones have to be that object and a rest, which stays as it is (`write_owned`,
`free_owned`).
-/
namespace CMem

/-- Objects by address; `none` stands for one that has been freed. -/
structure Memory (Obj : Type) where
  objects : List (Option Obj)

namespace Memory
variable {Obj : Type}

/-- Nothing has been allocated. -/
def empty : Memory Obj := ⟨[]⟩

/-- As many allocations as there have been. -/
def size (m : Memory Obj) : Nat := m.objects.length

/-- The object that a pointer points at. -/
def read (m : Memory Obj) : Option Addr → Exec Obj
  | none => .error .nullDeref
  | some a =>
    match m.objects[a]? with
    | some (some o) => .ok o
    | some none => .error .useAfterFree
    | none => .error .wildPointer

/-- Replace the object that a pointer points at. -/
def write (m : Memory Obj) (p : Option Addr) (o : Obj) : Exec (Memory Obj) := do
  let _ ← m.read p
  return ⟨m.objects.set (p.getD 0) (some o)⟩

/-- `free`; of `NULL` it does nothing. -/
def free (m : Memory Obj) : Option Addr → Exec (Memory Obj)
  | none => .ok m
  | some a => do
    let _ ← m.read (some a)
    return ⟨m.objects.set a none⟩

/-- Allocate an object: its address, and the memory with it. -/
def alloc (m : Memory Obj) (o : Obj) : Addr × Memory Obj := (m.size, ⟨m.objects ++ [some o]⟩)

/-- The live objects with their addresses. -/
def owned (m : Memory Obj) : Multiset (Addr × Obj) :=
  ↑((List.range m.size).filterMap fun a => m.objects[a]?.join.map fun o => (a, o))

section Owned
variable {m m' : Memory Obj} {a b : Addr} {o o' : Obj} {rest : Multiset (Addr × Obj)}

theorem mem_owned : (a, o) ∈ m.owned ↔ m.objects[a]? = some (some o) := by
  simp only [owned, Multiset.mem_coe, List.mem_filterMap, List.mem_range, Option.map_eq_some_iff,
    Prod.mk.injEq]
  constructor
  · rintro ⟨b, _, o', ho, rfl, rfl⟩
    exact Option.join_eq_some_iff.mp ho
  · intro h
    have hlt : a < m.size := (List.getElem?_eq_some_iff.mp h).1
    exact ⟨a, hlt, o, by rw [h]; rfl, rfl, rfl⟩

theorem nodup_owned : m.owned.Nodup := by
  refine Multiset.coe_nodup.mpr (List.nodup_range.filterMap ?_)
  intro b c x hb hc
  obtain ⟨_, _, rfl⟩ := Option.map_eq_some_iff.mp hb
  obtain ⟨_, _, hx⟩ := Option.map_eq_some_iff.mp hc
  exact (congrArg Prod.fst hx).symm

/-- An address has one object. -/
theorem owned_unique (h : (a, o) ∈ m.owned) (h' : (a, o') ∈ m.owned) : o = o' :=
  Option.some.inj (Option.some.inj ((mem_owned.mp h).symm.trans (mem_owned.mp h')))

theorem lt_size_of_mem (h : (a, o) ∈ m.owned) : a < m.size :=
  (List.getElem?_eq_some_iff.mp (mem_owned.mp h)).1

/-- Nothing owns an address twice. -/
theorem ne_of_owned {x : Addr × Obj} (h : m.owned = {(a, o)} + rest) (hx : x ∈ rest) : x.1 ≠ a := by
  rintro rfl
  have hmem : x ∈ m.owned := by
    rw [h]
    exact Multiset.mem_add.mpr (Or.inr hx)
  have hself : (x.1, o) ∈ m.owned := by
    rw [h]
    exact Multiset.mem_add.mpr (Or.inl (Multiset.mem_singleton_self _))
  obtain rfl : o = x.2 := owned_unique hself hmem
  have hnodup : m.owned.Nodup := nodup_owned
  rw [h, Multiset.singleton_add] at hnodup
  exact (Multiset.nodup_cons.mp hnodup).1 hx

theorem card_owned_le (m : Memory Obj) : m.owned.card ≤ m.size := by
  have h := List.length_filterMap_le (fun a => m.objects[a]?.join.map fun o => (a, o)) (List.range m.size)
  rwa [List.length_range] at h

/-- What a memory owns, by what is at its addresses. -/
theorem owned_eq {s : Multiset (Addr × Obj)} (hs : s.Nodup)
    (h : ∀ a o, m.objects[a]? = some (some o) ↔ (a, o) ∈ s) : m.owned = s :=
  (Multiset.Nodup.ext nodup_owned hs).mpr fun x => mem_owned.trans (h x.1 x.2)

theorem read_of_mem (h : (a, o) ∈ m.owned) : m.read (some a) = .ok o := by
  simp only [read, mem_owned.mp h]

/-- **The rule of allocation**: there is one object more. -/
theorem alloc_owned (m : Memory Obj) (o : Obj) : (m.alloc o).2.owned = {(m.size, o)} + m.owned := by
  refine owned_eq ?_ fun a o' => ?_
  · refine Multiset.nodup_cons.mpr ⟨fun h => ?_, nodup_owned⟩
    exact Nat.lt_irrefl _ (lt_size_of_mem h)
  · rw [Multiset.mem_add, Multiset.mem_singleton, mem_owned, alloc, List.getElem?_append]
    split
    · rename_i hlt
      refine ⟨Or.inr, fun h => h.resolve_left fun heq => ?_⟩
      exact Nat.ne_of_lt hlt (congrArg Prod.fst heq)
    · rename_i hge
      rw [List.getElem?_eq_none (Nat.le_of_not_lt hge)]
      rcases Nat.eq_or_lt_of_le (Nat.le_of_not_lt hge) with heq | hlt
      · subst heq
        simp [size, eq_comm]
      · rw [List.getElem?_eq_none (by simp; omega)]
        simp only [reduceCtorEq, or_false, false_iff, Prod.mk.injEq, not_and]
        exact fun heq => absurd heq (Nat.ne_of_gt hlt)

/-- The objects at the other addresses stay when one is set. -/
theorem getElem?_set_of_owned (h : m.owned = {(a, o)} + rest) (x : Option Obj) (b : Addr) (o' : Obj) :
    (m.objects.set a x)[b]? = some (some o') ↔ (b = a ∧ x = some o') ∨ (b, o') ∈ rest := by
  have hself : (a, o) ∈ m.owned := by
    rw [h]
    exact Multiset.mem_add.mpr (Or.inl (Multiset.mem_singleton_self _))
  by_cases hb : b = a
  · subst hb
    have hnot : (b, o') ∉ rest := fun hmem => ne_of_owned h hmem rfl
    rw [List.getElem?_set_self (lt_size_of_mem hself)]
    simp [hnot]
  · rw [List.getElem?_set_ne (Ne.symm hb), ← mem_owned, h, Multiset.mem_add, Multiset.mem_singleton]
    simp [hb]

theorem nodup_rest (h : m.owned = {(a, o)} + rest) : rest.Nodup := by
  have hnodup : m.owned.Nodup := nodup_owned
  rw [h] at hnodup
  exact (Multiset.nodup_cons.mp hnodup).2

/-- **The rule of writing**: the object at the address becomes another one. -/
theorem write_owned (h : m.owned = {(a, o)} + rest) (o' : Obj) :
    ∃ m', m.write (some a) o' = .ok m' ∧ m'.size = m.size ∧ m'.owned = {(a, o')} + rest := by
  have hself : (a, o) ∈ m.owned := by
    rw [h]
    exact Multiset.mem_add.mpr (Or.inl (Multiset.mem_singleton_self _))
  refine ⟨_, by rw [write, read_of_mem hself]; rfl, List.length_set, owned_eq ?_ fun b o'' => ?_⟩
  · exact Multiset.nodup_cons.mpr ⟨fun hmem => ne_of_owned h hmem rfl, nodup_rest h⟩
  · refine (getElem?_set_of_owned h (some o') b o'').trans ?_
    rw [Multiset.mem_add, Multiset.mem_singleton, Prod.mk.injEq, Option.some.injEq, eq_comm (a := o')]

/-- **The rule of `free`**: the object is gone, and the rest is there. -/
theorem free_owned (h : m.owned = {(a, o)} + rest) :
    ∃ m', m.free (some a) = .ok m' ∧ m'.size = m.size ∧ m'.owned = rest := by
  have hself : (a, o) ∈ m.owned := by
    rw [h]
    exact Multiset.mem_add.mpr (Or.inl (Multiset.mem_singleton_self _))
  refine ⟨_, by rw [free, read_of_mem hself]; rfl, List.length_set, owned_eq (nodup_rest h) fun b o' => ?_⟩
  refine (getElem?_set_of_owned h none b o').trans ?_
  simp

end Owned
end Memory

/-! ## Several owners -/

section Owners
variable {α β : Type} {f : α → Multiset β} {l : List α} {i : Nat} {x : α}

/-- What one owner of a list has, and what the others have. -/
theorem sum_eraseIdx (f : α → Multiset β) (h : l[i]? = some x) :
    (l.map f).sum = f x + ((l.eraseIdx i).map f).sum := by
  obtain ⟨hi, rfl⟩ := List.getElem?_eq_some_iff.mp h
  have hsplit := (List.take_append_drop i l).symm
  rw [List.drop_eq_getElem_cons hi] at hsplit
  conv_lhs => rw [hsplit]
  rw [List.eraseIdx_eq_take_drop_succ, List.map_append, List.map_append, List.map_cons, List.sum_append,
    List.sum_append, List.sum_cons]
  ac_rfl

/-- The others keep theirs when one owner becomes another one. -/
theorem sum_set (f : α → Multiset β) (h : l[i]? = some x) (y : α) :
    ((l.set i y).map f).sum = f y + ((l.eraseIdx i).map f).sum := by
  have hset : (l.set i y)[i]? = some y := List.getElem?_set_self (List.getElem?_eq_some_iff.mp h).1
  rw [sum_eraseIdx f hset, List.eraseIdx_set_eq]

end Owners

/-! ## Programs -/

/-- A program that works on a memory. -/
abbrev Prog (Obj : Type) := StateT (Memory Obj) Exec

namespace Prog
variable {Obj α β γ : Type}

/-- Read through a pointer to objects of one kind. -/
def load (view : Obj → Option β) (p : Option Addr) : Prog Obj β := fun m => do
  let o ← m.read p
  match view o with
  | some b => .ok (b, m)
  | none => .error .wildPointer

/-- Write through a pointer. -/
def store (p : Option Addr) (o : Obj) : Prog Obj Unit := fun m => do
  let m ← m.write p o
  return ((), m)

/-- `free`. -/
def free (p : Option Addr) : Prog Obj Unit := fun m => do
  let m ← m.free p
  return ((), m)

/-- Allocate an object. -/
def new (o : Obj) : Prog Obj (Option Addr) := fun m => .ok (some (m.alloc o).1, (m.alloc o).2)

/-- How many allocations there have been: a loop that visits no object twice takes no more
rounds. -/
def allocations : Prog Obj Nat := fun m => .ok (m.size, m)

/-- The program returns, with a value and a memory of which `Q` holds. -/
def Ends (c : Prog Obj α) (m : Memory Obj) (Q : α → Memory Obj → Prop) : Prop :=
  ∃ a m', c m = .ok (a, m') ∧ Q a m'

/-- The program returns `a` and leaves the memory as it is. -/
def Returns (c : Prog Obj α) (m : Memory Obj) (a : α) : Prop := c m = .ok (a, m)

section Rules
variable {c : Prog Obj α} {f : α → Prog Obj β} {m : Memory Obj} {P : α → Memory Obj → Prop}
  {Q : β → Memory Obj → Prop} {x : α} {y : β} {a : Addr} {o : Obj} {rest : Multiset (Addr × Obj)}

/-- The rule of sequencing. -/
theorem Ends.bind (h : Ends c m P) (hf : ∀ a m', P a m' → Ends (f a) m' Q) : Ends (c >>= f) m Q := by
  obtain ⟨a, m₁, hc, ha⟩ := h
  obtain ⟨b, m₂, hb, hQ⟩ := hf a m₁ ha
  refine ⟨b, m₂, ?_, hQ⟩
  change (c m >>= fun r => f r.1 r.2) = _
  rw [hc, ok_bind, hb]

/-- The rule of consequence. -/
theorem Ends.mono {P' : α → Memory Obj → Prop} (h : Ends c m P) (himp : ∀ a m', P a m' → P' a m') :
    Ends c m P' := by
  obtain ⟨a, m', hc, ha⟩ := h
  exact ⟨a, m', hc, himp a m' ha⟩

theorem Ends.pure (h : Q y m) : Ends (Pure.pure y : Prog Obj β) m Q := ⟨y, m, rfl, h⟩

/-- What follows a program that only reads. -/
theorem Returns.bind_eq (h : Returns c m x) (f : α → Prog Obj β) : (c >>= f) m = f x m := by
  change (c m >>= fun r => f r.1 r.2) = _
  rw [h, ok_bind]

theorem Returns.bind (h : Returns c m x) (hf : Returns (f x) m y) : Returns (c >>= f) m y :=
  (h.bind_eq f).trans hf

theorem Returns.ends (h : Returns c m x) (hf : Ends (f x) m Q) : Ends (c >>= f) m Q := by
  unfold Ends
  rw [h.bind_eq f]
  exact hf

theorem returns_pure (x : α) (m : Memory Obj) : Returns (Pure.pure x) m x := rfl

/-- A computation that does not use the memory. -/
theorem returns_lift {e : Exec α} (h : e = .ok x) (m : Memory Obj) : Returns (liftM e : Prog Obj α) m x := by
  subst h
  rfl

theorem returns_allocations (m : Memory Obj) : Returns Prog.allocations m m.size := rfl

/-- The rule of reading. -/
theorem returns_load {view : Obj → Option α} (hmem : (a, o) ∈ m.owned) (hview : view o = some x) :
    Returns (Prog.load view (some a)) m x := by
  rw [Returns, Prog.load, Memory.read_of_mem hmem, ok_bind, hview]

/-- The rule of writing. -/
theorem ends_store (h : m.owned = {(a, o)} + rest) (o' : Obj) :
    Ends (store (some a) o') m fun _ m' => m'.size = m.size ∧ m'.owned = {(a, o')} + rest := by
  obtain ⟨m', hwrite, hm'⟩ := Memory.write_owned h o'
  exact ⟨(), m', by rw [store, hwrite]; rfl, hm'⟩

/-- The rule of `free`. -/
theorem ends_free (h : m.owned = {(a, o)} + rest) :
    Ends (free (some a)) m fun _ m' => m'.size = m.size ∧ m'.owned = rest := by
  obtain ⟨m', hfree, hm'⟩ := Memory.free_owned h
  exact ⟨(), m', by rw [Prog.free, hfree]; rfl, hm'⟩

/-- The rule of allocation. -/
theorem ends_new (m : Memory Obj) (o : Obj) :
    Ends (new o) m fun p m' => ∃ a, p = some a ∧ a = m.size ∧ m'.owned = {(a, o)} + m.owned :=
  ⟨_, _, rfl, _, rfl, rfl, Memory.alloc_owned m o⟩

end Rules
end Prog
end CMem
