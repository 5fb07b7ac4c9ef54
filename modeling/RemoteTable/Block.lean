import Mathlib.Data.List.TakeWhile
import RemoteTable.Exec

/-! # Blocks of bytes and C strings

A block returned by `malloc` is the list of its bytes.  A freshly allocated
block holds whatever the memory held before: `malloc` takes these bytes as an
argument, so "whatever the block contained at first" is a quantifier.  Reads and
writes are checked against the bounds of the block.

A C string is a block read up to its first NUL.  `strlen`, `strcmp` and `strdup`
walk the block and fault when they run off its end; on a terminated block each
is a function of `cstr`, the bytes before the first NUL.  Arrays of pointers are lists of slots,
checked in the same way.
-/
namespace CMem

/-- The bytes of an allocated block. -/
abbrev Block := List UInt8

/-- `malloc(size)`.  A negative `int` becomes a `size_t` of at least 2^63, which
is never granted; other sizes are assumed to be available. -/
def malloc (junk : Nat → UInt8) (size : Int) : Option Block :=
  if size < 0 then none else some ((List.range size.toNat).map junk)

/-- Dereference a pointer that may be `NULL`. -/
def deref {α : Type} : Option α → Exec α
  | some a => .ok a
  | none => .error .nullDeref

@[simp] theorem deref_some {α : Type} (a : α) : deref (some a) = .ok a := rfl

@[simp] theorem deref_none {α : Type} : deref (none : Option α) = .error .nullDeref := rfl

/-! ## Checked accesses -/

/-- Read `n` bytes at offset `off`, as `memcpy` does: no bytes can be read anywhere. -/
def slice (b : Block) (off n : Int) : Exec Block :=
  if n < 0 then .error .badSize
  else if n = 0 then .ok []
  else if 0 ≤ off ∧ off + n ≤ b.length then .ok ((b.drop off.toNat).take n.toNat)
  else .error .outOfBounds

/-- Write the bytes `src` at offset `off`. -/
def store (b : Block) (off : Nat) (src : List UInt8) : Exec Block :=
  if off + src.length ≤ b.length then .ok (b.take off ++ src ++ b.drop (off + src.length))
  else .error .outOfBounds

/-- `b[off]`. -/
def load (b : Block) (off : Nat) : Exec UInt8 :=
  match b[off]? with
  | some c => .ok c
  | none => .error .outOfBounds

/-- `realloc(b, size)`: the bytes of `b` that still fit, then whatever the memory
held. -/
def realloc (junk : Nat → UInt8) (b : Block) (size : Int) : Option Block :=
  (malloc junk size).map fun fresh => b.take size.toNat ++ fresh.drop b.length

theorem malloc_of_nonneg (junk : Nat → UInt8) {size : Int} (h : 0 ≤ size) :
    malloc junk size = some ((List.range size.toNat).map junk) := by
  unfold malloc
  rw [if_neg (by omega)]

theorem malloc_of_neg (junk : Nat → UInt8) {size : Int} (h : size < 0) :
    malloc junk size = none := by
  unfold malloc
  rw [if_pos h]

theorem slice_eq_ok {b c : Block} {off n : Int} :
    slice b off n = .ok c ↔
      0 ≤ n ∧ (n ≠ 0 → 0 ≤ off ∧ off + n ≤ b.length) ∧ c = (b.drop off.toNat).take n.toNat := by
  unfold slice
  by_cases hn : n < 0
  · rw [if_pos hn]
    simp only [reduceCtorEq, false_iff]
    intro h
    omega
  rw [if_neg hn]
  by_cases h0 : n = 0
  · subst h0
    simp [eq_comm]
  rw [if_neg h0]
  split
  · rename_i h
    simp [h, Int.not_lt.mp hn, eq_comm]
  · rename_i h
    simp only [reduceCtorEq, false_iff]
    exact fun hc => h (hc.2.1 h0)

/-- What lies inside the block can be read. -/
theorem slice_inside {b : Block} {off n : Int} (hn : 0 ≤ n) (hoff : 0 ≤ off) (hfits : off + n ≤ b.length) :
    slice b off n = .ok ((b.drop off.toNat).take n.toNat) :=
  slice_eq_ok.mpr ⟨hn, fun _ => ⟨hoff, hfits⟩, rfl⟩

theorem slice_append (pre mid post : Block) :
    slice (pre ++ mid ++ post) pre.length mid.length = .ok mid := by
  rw [slice_inside (by omega) (by omega) (by simp only [List.length_append]; omega)]
  simp

/-- A write between a prefix and a suffix replaces what stands between them. -/
theorem store_append (pre old post src : Block) (h : old.length = src.length) :
    store (pre ++ old ++ post) pre.length src = .ok (pre ++ src ++ post) := by
  unfold store
  rw [if_pos (by simp; omega)]
  simp [← h]

/-- A write at the front of a block. -/
theorem store_front (b src : Block) (h : src.length ≤ b.length) :
    store b 0 src = .ok (src ++ b.drop src.length) := by
  have hst := store_append [] (b.take src.length) (b.drop src.length) src (by simp [h])
  simpa using hst

/-- A write that covers a fresh block leaves nothing of what it held. -/
theorem store_fresh (junk : Nat → UInt8) (b : Block) :
    store ((List.range b.length).map junk) 0 b = .ok b := by
  have h := store_append [] ((List.range b.length).map junk) [] b (by simp)
  simpa using h

/-- **Allocate and overwrite**: the bytes copied are all the block holds. -/
theorem malloc_store (junk : Nat → UInt8) {size : Int} {b : Block} (h : (b.length : Int) = size) :
    ∃ dst, malloc junk size = some dst ∧ store dst 0 b = .ok b := by
  subst h
  refine ⟨_, malloc_of_nonneg junk (by omega), ?_⟩
  rw [Int.toNat_natCast]
  exact store_fresh junk b

theorem load_eq_ok {b : Block} {off : Nat} {c : UInt8} : load b off = .ok c ↔ b[off]? = some c := by
  unfold load
  split <;> simp_all

/-- The byte between a prefix and a suffix. -/
theorem load_append (pre : Block) (c : UInt8) (post : Block) :
    load (pre ++ c :: post) pre.length = .ok c := by
  rw [load_eq_ok]
  simp

/-- **A block being filled from the front**: `done` is written, `room` bytes are
still free. -/
def Filled (b : Block) (done : List UInt8) (room : Nat) : Prop :=
  ∃ free, b = done ++ free ∧ free.length = room

theorem filled_malloc (junk : Nat → UInt8) {size : Int} (h : 0 ≤ size) :
    ∃ b, malloc junk size = some b ∧ Filled b [] size.toNat :=
  ⟨_, malloc_of_nonneg junk h, _, rfl, by simp⟩

/-- The next write moves the border between what is written and what is free. -/
theorem Filled.store {b : Block} {done : List UInt8} {room : Nat} (h : Filled b done room)
    (src : List UInt8) (hs : src.length ≤ room) :
    ∃ b', store b done.length src = .ok b' ∧ Filled b' (done ++ src) (room - src.length) := by
  obtain ⟨free, rfl, rfl⟩ := h
  refine ⟨done ++ src ++ free.drop src.length, ?_, free.drop src.length, rfl, List.length_drop⟩
  have hst := store_append done (free.take src.length) (free.drop src.length) src (by simp [hs])
  rwa [List.append_assoc, List.take_append_drop] at hst

/-- A block filled to its end holds what was written. -/
theorem Filled.full {b : Block} {done : List UInt8} (h : Filled b done 0) : b = done := by
  obtain ⟨free, rfl, hf⟩ := h
  rw [List.length_eq_zero_iff.mp hf, List.append_nil]

/-! ## C strings -/

/-- The block holds a C string: some byte of it is NUL. -/
def Terminated (b : Block) : Prop := (0 : UInt8) ∈ b

instance (b : Block) : Decidable (Terminated b) := inferInstanceAs (Decidable (_ ∈ _))

/-- The bytes before the first NUL. -/
def cstr (b : Block) : List UInt8 := b.takeWhile (· ≠ 0)

/-- `strlen`. -/
def strlen : Block → Exec Nat
  | [] => .error .outOfBounds
  | c :: b => if c = 0 then .ok 0 else do
      let n ← strlen b
      return n + 1

/-- `strcmp`: the difference of the first bytes that differ, 0 when both strings
end together. -/
def strcmp : Block → Block → Exec Int
  | [], _ => .error .outOfBounds
  | _ :: _, [] => .error .outOfBounds
  | a :: as, b :: bs =>
      if a ≠ b then .ok (a.toNat - b.toNat)
      else if a = 0 then .ok 0
      else strcmp as bs

/-- `strdup`: a new block with the string and its NUL. -/
def strdup (b : Block) : Exec Block := do
  let n ← strlen b
  slice b 0 (n + 1)

theorem cstr_no_nul (b : Block) : (0 : UInt8) ∉ cstr b := by
  intro h
  have := List.mem_takeWhile_imp h
  simp at this

/-- A terminated block is its string, the NUL, and whatever follows. -/
theorem Terminated.split {b : Block} (h : Terminated b) : ∃ rest, b = cstr b ++ 0 :: rest := by
  induction b with
  | nil => simp [Terminated] at h
  | cons c b ih =>
    by_cases hc : c = 0
    · subst c
      exact ⟨b, by simp [cstr]⟩
    · have hb : Terminated b := by
        rcases List.mem_cons.mp h with h0 | h0
        · exact absurd h0.symm hc
        · exact h0
      obtain ⟨rest, hrest⟩ := ih hb
      refine ⟨rest, ?_⟩
      have hcons : cstr (c :: b) = c :: cstr b := by simp [cstr, hc]
      rw [hcons, List.cons_append, ← hrest]

@[simp] theorem cstr_append_nul {s : List UInt8} (hs : (0 : UInt8) ∉ s) (rest : Block) :
    cstr (s ++ 0 :: rest) = s := by
  unfold cstr
  rw [List.takeWhile_append_of_pos]
  · simp
  · intro c hc
    have hc0 : c ≠ 0 := fun h0 => hs (h0 ▸ hc)
    simpa using hc0

/-- A NUL behind a block ends its string at the latest. -/
theorem cstr_append (b rest : Block) : cstr (b ++ 0 :: rest) = cstr b := by
  by_cases h : Terminated b
  · obtain ⟨rest', hrest⟩ := h.split
    have hall : b ++ 0 :: rest = cstr b ++ 0 :: (rest' ++ 0 :: rest) := by
      conv_lhs => rw [hrest]
      simp
    rw [hall, cstr_append_nul (cstr_no_nul b)]
  · have hno : (0 : UInt8) ∉ b := h
    have hself : cstr b = b := List.takeWhile_eq_self_iff.mpr fun c hc => by
      simpa using fun h0 : c = 0 => hno (h0 ▸ hc)
    rw [cstr_append_nul hno, hself]

@[simp] theorem terminated_append_nul (s rest : Block) : Terminated (s ++ 0 :: rest) := by
  simp [Terminated]

theorem strlen_append_nul {s : List UInt8} (hs : (0 : UInt8) ∉ s) (rest : Block) :
    strlen (s ++ 0 :: rest) = .ok s.length := by
  induction s with
  | nil => simp [strlen]
  | cons c s ih =>
    have hc : c ≠ 0 := fun h0 => hs (h0 ▸ List.mem_cons_self)
    have hs' : (0 : UInt8) ∉ s := fun h0 => hs (List.mem_cons_of_mem _ h0)
    simp [strlen, hc, ih hs']

/-- **`strlen` is defined exactly on terminated blocks**, with the length of the
string. -/
theorem strlen_eq_ok {b : Block} {n : Nat} :
    strlen b = .ok n ↔ Terminated b ∧ n = (cstr b).length := by
  constructor
  · intro h
    have ht : Terminated b := by
      induction b generalizing n with
      | nil => simp [strlen] at h
      | cons c b ih =>
        unfold strlen at h
        split at h
        · rename_i hc
          exact List.mem_cons.mpr (Or.inl hc.symm)
        · obtain ⟨m, hm, -⟩ := bind_eq_ok.mp h
          exact List.mem_cons_of_mem _ (ih hm)
    obtain ⟨rest, hrest⟩ := ht.split
    rw [hrest, strlen_append_nul (cstr_no_nul b)] at h
    exact ⟨ht, (Except.ok.inj h).symm⟩
  · rintro ⟨ht, rfl⟩
    obtain ⟨rest, hrest⟩ := ht.split
    have h := strlen_append_nul (cstr_no_nul b) rest
    rwa [← hrest] at h

theorem Terminated.strlen {b : Block} (h : Terminated b) : strlen b = .ok (cstr b).length :=
  strlen_eq_ok.mpr ⟨h, rfl⟩

theorem Terminated.strdup {b : Block} (h : Terminated b) : strdup b = .ok (cstr b ++ [0]) := by
  obtain ⟨rest, hrest⟩ := h.split
  unfold CMem.strdup
  have hlen : b.length = (cstr b).length + 1 + rest.length := by
    conv_lhs => rw [hrest]
    simp
    omega
  rw [h.strlen, ok_bind, slice_inside (by omega) (by omega) (by omega)]
  have htake : b.take ((cstr b).length + 1) = cstr b ++ [0] := by
    have h' := congrArg (List.take ((cstr b).length + 1)) hrest
    rw [h', List.take_length_add_append]
    rfl
  simpa [Int.toNat_add] using htake

theorem strcmp_append_nul {s t : List UInt8} (hs : (0 : UInt8) ∉ s) (ht : (0 : UInt8) ∉ t)
    (u v : Block) : ∃ c, strcmp (s ++ 0 :: u) (t ++ 0 :: v) = .ok c ∧ (c = 0 ↔ s = t) := by
  induction s generalizing t with
  | nil =>
    cases t with
    | nil => exact ⟨0, by simp [strcmp], by simp⟩
    | cons d t =>
      have hd : (0 : UInt8) ≠ d := fun h0 => ht (h0 ▸ List.mem_cons_self)
      refine ⟨_, by simp [strcmp, hd]; rfl, ?_⟩
      have := fun h : d.toNat = 0 => hd (UInt8.toNat_inj.mp (by simpa using h.symm))
      simp only [List.nil_eq, reduceCtorEq, iff_false]
      intro h
      exact this (by simpa using h)
  | cons c s ih =>
    have hc : c ≠ 0 := fun h0 => hs (h0 ▸ List.mem_cons_self)
    have hs' : (0 : UInt8) ∉ s := fun h0 => hs (List.mem_cons_of_mem _ h0)
    cases t with
    | nil =>
      refine ⟨_, by simp [strcmp, hc]; rfl, ?_⟩
      have := fun h : c.toNat = 0 => hc (UInt8.toNat_inj.mp (by simpa using h))
      simp only [reduceCtorEq, iff_false]
      intro h
      exact this (by simpa using h)
    | cons d t =>
      have ht' : (0 : UInt8) ∉ t := fun h0 => ht (List.mem_cons_of_mem _ h0)
      by_cases hcd : c = d
      · subst d
        obtain ⟨r, hr, hiff⟩ := ih hs' ht'
        exact ⟨r, by simp [strcmp, hc, hr], by simp [hiff]⟩
      · refine ⟨_, by simp [strcmp, hcd]; rfl, ?_⟩
        have hne : c.toNat ≠ d.toNat := fun h => hcd (UInt8.toNat_inj.mp h)
        simp only [List.cons.injEq, hcd, false_and, iff_false]
        omega

/-- **`strcmp` decides equality of strings.** -/
theorem strcmp_terminated {a b : Block} (ha : Terminated a) (hb : Terminated b) :
    ∃ c, strcmp a b = .ok c ∧ (c = 0 ↔ cstr a = cstr b) := by
  obtain ⟨u, hu⟩ := ha.split
  obtain ⟨v, hv⟩ := hb.split
  have h := strcmp_append_nul (cstr_no_nul a) (cstr_no_nul b) u v
  rwa [← hu, ← hv] at h

/-! ## Arrays of pointers -/

/-- An allocated array of pointer slots; `none` is a slot not yet written. -/
abbrev Slots (α : Type) := List (Option α)

section Slots
variable {α : Type}

/-- `malloc(n * sizeof(void *))`. -/
def mallocSlots (n : Int) : Slots α := List.replicate n.toNat none

/-- `s[i] = a`. -/
def setSlot (s : Slots α) (i : Nat) (a : α) : Exec (Slots α) :=
  if i < s.length then .ok (s.set i (some a)) else .error .outOfBounds

/-- The pointers before the first `NULL`, as `for(r = 0; s[r] != NULL; r++)`
meets them. -/
def untilNull : Slots (Option α) → Exec (List α)
  | [] => .error .outOfBounds
  | none :: _ => .error .uninitialised
  | some none :: _ => .ok []
  | some (some a) :: s => do
    let l ← untilNull s
    return a :: l

/-- Writing the first slot that is still free. -/
theorem setSlot_append (done : Slots α) (free : Option α) (rest : Slots α) (a : α) :
    setSlot (done ++ free :: rest) done.length a = .ok (done ++ some a :: rest) := by
  simp [setSlot]

/-- An array filled with pointers and closed by `NULL` reads back as its pointers. -/
theorem untilNull_filled (l : List α) (rest : Slots (Option α)) :
    untilNull (l.map (fun a => some (some a)) ++ some none :: rest) = .ok l := by
  induction l with
  | nil => rfl
  | cons a l ih => simp [untilNull, ih]

end Slots

end CMem
