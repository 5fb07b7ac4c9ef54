import RemoteTable.Block

/-! # Memory that has not been written yet

A block of cells: each holds a byte, or nothing since the block was allocated.  Reading a cell
that holds nothing is a fault, and so is every access outside of the block.  A program that is
defined on cells therefore never reads what it has not written, and a block of cells that all
hold a byte has been written from end to end.
-/
namespace CMem

/-- The cells of an allocated block. -/
abbrev Cells := List (Option UInt8)

namespace Cells

/-- `malloc(size)`, as in `CMem.malloc`, but nothing is written yet. -/
def malloc (size : Int) : Option Cells :=
  if size < 0 then none else some (List.replicate size.toNat none)

/-- The bytes of cells that all hold one. -/
def initialised : Cells → Exec Block
  | [] => .ok []
  | none :: _ => .error .uninitialised
  | some c :: b => do
    let bytes ← initialised b
    return c :: bytes

/-- Read `n` bytes at offset `off`, as in `CMem.slice`. -/
def slice (b : Cells) (off n : Int) : Exec Block :=
  if n < 0 then .error .badSize
  else if n = 0 then .ok []
  else if 0 ≤ off ∧ off + n ≤ b.length then initialised ((b.drop off.toNat).take n.toNat)
  else .error .outOfBounds

/-- Write the bytes `src` at offset `off`. -/
def store (b : Cells) (off : Nat) (src : List UInt8) : Exec Cells :=
  if off + src.length ≤ b.length then
    .ok (b.take off ++ src.map some ++ b.drop (off + src.length))
  else .error .outOfBounds

/-- `strlen`. -/
def strlen : Cells → Exec Nat
  | [] => .error .outOfBounds
  | none :: _ => .error .uninitialised
  | some c :: b => if c = 0 then .ok 0 else do
      let n ← strlen b
      return n + 1

/-- `realloc(b, size)`: the cells that still fit, then cells that hold nothing. -/
def realloc (b : Cells) (size : Int) : Option Cells :=
  (malloc size).map fun fresh => b.take size.toNat ++ fresh.drop b.length

theorem malloc_of_nonneg {size : Int} (h : 0 ≤ size) :
    malloc size = some (List.replicate size.toNat none) := by
  unfold malloc
  rw [if_neg (by omega)]

@[simp] theorem initialised_map (s : List UInt8) : initialised (s.map some) = .ok s := by
  induction s with
  | nil => rfl
  | cons c s ih => simp [initialised, ih]

/-- Bytes that have been written are read back. -/
theorem slice_append (s : List UInt8) (post : Cells) :
    slice (s.map some ++ post) 0 s.length = .ok s := by
  have hbound : (0 : Int) + s.length ≤ (s.map some ++ post).length := by
    rw [List.length_append, List.length_map]
    omega
  rw [slice, if_neg (by omega)]
  by_cases hnil : s = []
  · simp [hnil]
  · have hpos := List.length_pos_iff.mpr hnil
    rw [if_neg (by omega), if_pos ⟨Int.le_refl 0, hbound⟩]
    simp

/-- A write between a prefix and a suffix replaces what stands between them. -/
theorem store_append (pre old post : Cells) (src : List UInt8) (h : old.length = src.length) :
    store (pre ++ old ++ post) pre.length src = .ok (pre ++ src.map some ++ post) := by
  unfold store
  rw [if_pos (by simp; omega)]
  simp [← h]

/-- A block that is being filled from the front: the bytes written, and the room that is left. -/
def filled (done : List UInt8) (room : Nat) : Cells := done.map some ++ List.replicate room none

/-- The next write moves the border between them. -/
theorem store_filled (done src : List UInt8) (room : Nat) (h : src.length ≤ room) :
    store (filled done room) done.length src = .ok (filled (done ++ src) (room - src.length)) := by
  obtain ⟨left, rfl⟩ := Nat.exists_eq_add_of_le h
  have hst := store_append (done.map some) (List.replicate src.length none)
    (List.replicate left none) src (by simp)
  rw [List.length_map] at hst
  rw [filled, List.replicate_add, ← List.append_assoc, hst, filled, Nat.add_sub_cancel_left]
  simp

theorem malloc_filled {size : Int} (h : 0 ≤ size) : malloc size = some (filled [] size.toNat) := by
  rw [malloc_of_nonneg h]
  rfl

theorem strlen_append_nul {s : List UInt8} (hs : (0 : UInt8) ∉ s) (rest : Cells) :
    strlen (s.map some ++ some 0 :: rest) = .ok s.length := by
  induction s with
  | nil => simp [strlen]
  | cons c s ih =>
    have hc : c ≠ 0 := fun h0 => hs (h0 ▸ List.mem_cons_self)
    have hs' : (0 : UInt8) ∉ s := fun h0 => hs (List.mem_cons_of_mem _ h0)
    simp [strlen, hc, ih hs']

/-- `strlen` on cells that all hold a byte. -/
theorem strlen_map {b : Block} (h : Terminated b) : strlen (b.map some) = .ok (cstr b).length := by
  obtain ⟨rest, hrest⟩ := h.split
  have hlen := strlen_append_nul (cstr_no_nul b) (rest.map some)
  rw [← List.map_cons, ← List.map_append, ← hrest] at hlen
  exact hlen

/-- A block that starts with bytes that fit is reallocated with them. -/
theorem realloc_append (s : List UInt8) (rest : Cells) {n : Nat} :
    ∃ free : Cells, realloc (s.map some ++ rest) ((s.length + n : Nat) : Int) =
      some (s.map some ++ free) ∧ free.length = n := by
  refine ⟨rest.take n ++ (List.replicate (s.length + n) none).drop (s.map some ++ rest).length,
    ?_, ?_⟩
  · rw [realloc, malloc_of_nonneg (by omega), Option.map_some, Int.toNat_natCast]
    have htake : (s.map some ++ rest).take (s.length + n) = s.map some ++ rest.take n := by
      have h : (s.map some ++ rest).take ((s.map some).length + n) = s.map some ++ rest.take n :=
        List.take_length_add_append n
      rwa [List.length_map] at h
    rw [htake, List.append_assoc]
  · simp
    omega

end Cells
end CMem
