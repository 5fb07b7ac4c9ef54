import RemoteTable.Block

/-! # Data blocks and entries

`data_t` and `entry_t` with the functions of `data.c` and `entry.c` that the
table and the skeleton call.  `NULL` is `none`; every constructor signals
failure with it, and no caller in the repository checks.

A `data_t` owns its block, an `entry_t` its key and value, a node its entry:
the table only ever stores copies (`strdup`, `data_dup`), so an entry is held by
value in the node it belongs to, and `data_destroy` and `entry_destroy` end the
life of a value that nothing else refers to.
-/
namespace RemoteTable
open CMem

/-- `struct data_t`: `datasize` bytes at `data`. -/
structure DataT where
  datasize : Int
  data : Option Block
  deriving DecidableEq, Repr

/-- `struct entry_t`: `key` is the block the key string was copied into. -/
structure EntryT where
  key : Block
  value : Option DataT
  deriving DecidableEq, Repr

/-- `data_create`. -/
def dataCreate (junk : Nat → UInt8) (size : Int) : Option DataT :=
  if size < 1 then none else some ⟨size, malloc junk size⟩

/-- `data_create2`. -/
def dataCreate2 (size : Int) (data : Option Block) : Option DataT :=
  if size < 1 ∨ data = none then none else some ⟨size, data⟩

/-- `data_dup`. -/
def dataDup (junk : Nat → UInt8) (data : Option DataT) : Exec (Option DataT) :=
  match data with
  | none => .ok none
  | some d =>
    match d.data with
    | none => .ok none
    | some src =>
      match dataCreate junk d.datasize with
      | none => .ok none
      | some temp => do
        let bytes ← slice src 0 d.datasize
        let dst ← deref temp.data
        let copy ← store dst 0 bytes
        return some { temp with data := some copy }

/-- `entry_create`. -/
def entryCreate (key : Block) (data : Option DataT) : EntryT := ⟨key, data⟩

namespace DataT

/-- A value fit to be stored: at least one byte, as many as an `int` counts, and a
block that holds them. -/
structure Valid (d : DataT) : Prop where
  size_pos : 1 ≤ d.datasize
  size_le : d.datasize ≤ intMax
  block : ∃ b, d.data = some b ∧ d.datasize ≤ b.length

/-- A value whose bytes can be read: their number is not negative, and its block
holds them. -/
structure Readable (d : DataT) : Prop where
  size_nonneg : 0 ≤ d.datasize
  block : ∃ b, d.data = some b ∧ d.datasize ≤ b.length

/-- The bytes of the value. -/
def bytes (d : DataT) : Block := (d.data.getD []).take d.datasize.toNat

/-- The value that consists of exactly these bytes. -/
def ofBytes (b : Block) : DataT := ⟨b.length, some b⟩

@[simp] theorem bytes_ofBytes (b : Block) : (ofBytes b).bytes = b := by
  simp [bytes, ofBytes]

theorem valid_ofBytes {b : Block} (hb : b ≠ []) (hle : (b.length : Int) ≤ intMax) :
    (ofBytes b).Valid where
  size_pos := by
    have := List.length_pos_iff.mpr hb
    simp only [ofBytes]
    omega
  size_le := hle
  block := ⟨b, rfl, Int.le_refl _⟩

theorem Valid.readable {d : DataT} (h : d.Valid) : d.Readable :=
  ⟨by have := h.size_pos; omega, h.block⟩

theorem Readable.length_bytes {d : DataT} (h : d.Readable) : (d.bytes.length : Int) = d.datasize := by
  obtain ⟨b, hb, hle⟩ := h.block
  have := h.size_nonneg
  simp only [bytes, hb, Option.getD_some, List.length_take]
  omega

theorem Valid.length_bytes {d : DataT} (h : d.Valid) : (d.bytes.length : Int) = d.datasize :=
  h.readable.length_bytes

/-- A copy of the value is as fit as the value. -/
theorem Valid.ofBytes {d : DataT} (h : d.Valid) : (ofBytes d.bytes).Valid where
  size_pos := by
    have := h.length_bytes
    have := h.size_pos
    simp only [DataT.ofBytes]
    omega
  size_le := by
    have := h.length_bytes
    have := h.size_le
    simp only [DataT.ofBytes]
    omega
  block := ⟨_, rfl, Int.le_refl _⟩

/-- Reading the whole value out of its block. -/
theorem Readable.slice {d : DataT} (h : d.Readable) :
    ∃ b, d.data = some b ∧ CMem.slice b 0 d.datasize = .ok d.bytes := by
  obtain ⟨b, hb, hle⟩ := h.block
  have := h.size_nonneg
  exact ⟨b, hb, slice_eq_ok.mpr ⟨by omega, fun _ => ⟨by omega, by omega⟩, by simp [bytes, hb]⟩⟩

end DataT

/-- **`data_dup` copies the value**: same bytes, a block of exactly that size, and
nothing of what the new block held before. -/
theorem dataDup_valid (junk : Nat → UInt8) {d : DataT} (h : d.Valid) :
    dataDup junk (some d) = .ok (some (DataT.ofBytes d.bytes)) := by
  obtain ⟨b, hb, hs⟩ := h.readable.slice
  have hpos := h.size_pos
  have hlen := h.length_bytes
  obtain ⟨dst, hmalloc, hstore⟩ := malloc_store junk hlen
  unfold dataDup dataCreate
  simp only [hb, if_neg (Int.not_lt.mpr hpos), hs, ok_bind, hmalloc, deref_some, hstore, pure_eq_ok]
  simp [DataT.ofBytes, hlen]

/-- A value of at least one byte, with a block that holds as many or with none. -/
structure DataT.Sized (d : DataT) : Prop where
  size_pos : 1 ≤ d.datasize
  size_le : d.datasize ≤ intMax
  block : ∀ b, d.data = some b → d.datasize ≤ b.length

/-- `data_dup` of such a value is defined. -/
theorem dataDup_sized (junk : Nat → UInt8) {d : DataT} (h : d.Sized) :
    ∃ v, dataDup junk (some d) = .ok v := by
  cases hb : d.data with
  | none => exact ⟨none, by simp [dataDup, hb]⟩
  | some b => exact ⟨_, dataDup_valid junk ⟨h.size_pos, h.size_le, b, hb, h.block b hb⟩⟩

@[simp] theorem dataDup_null (junk : Nat → UInt8) : dataDup junk none = .ok none := rfl

/-- An entry the table can hold: its key is a string and its value is there. -/
structure EntryT.Valid (e : EntryT) : Prop where
  key : Terminated e.key
  value : ∃ d, e.value = some d ∧ d.Valid

/-- An entry that holds a copy of a value, as `data_dup` makes it. -/
def EntryT.Stored (e : EntryT) : Prop :=
  ∃ bs, (DataT.ofBytes bs).Valid ∧ e.value = some (DataT.ofBytes bs)

/-- The key as a string. -/
def EntryT.keyStr (e : EntryT) : List UInt8 := cstr e.key

@[simp] theorem entryCreate_key (key : Block) (data : Option DataT) :
    (entryCreate key data).key = key := rfl

@[simp] theorem entryCreate_value (key : Block) (data : Option DataT) :
    (entryCreate key data).value = data := rfl

end RemoteTable
