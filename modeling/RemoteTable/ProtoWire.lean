import RemoteTable.Exec
import Mathlib.Algebra.Order.Ring.Nat

/-! # Records on the wire

The encoding that proto3 gives a message: its fields one after the other, each behind a tag
of number and wire type.  Numbers are varints, seven bits a byte with the least significant
ones first; a string of bytes stands behind its length.  Wire types other than these two are
rejected.
-/
namespace Proto3

/-! ## Varints -/

/-- The varint of `n` in at most `more + 1` bytes. -/
def varintLoop : Nat → Nat → List UInt8
  | 0, n => [UInt8.ofNat n]
  | more + 1, n =>
    if n < 128 then [UInt8.ofNat n] else UInt8.ofNat (n % 128 + 128) :: varintLoop more (n / 128)

/-- The varint of `n`; ten bytes hold 64 bits. -/
def varint (n : Nat) : List UInt8 := varintLoop 9 n

/-- Read a varint of at most `room` bytes: the number, and what is left. -/
def readVarintLoop : Nat → List UInt8 → Option (Nat × List UInt8)
  | 0, _ => none
  | _ + 1, [] => none
  | room + 1, c :: s =>
    if c.toNat < 128 then some (c.toNat, s)
    else (readVarintLoop room s).map fun r => (c.toNat - 128 + 128 * r.1, r.2)

/-- Read a varint. -/
def readVarint (s : List UInt8) : Option (Nat × List UInt8) := readVarintLoop 10 s

theorem readVarintLoop_varintLoop (more n : Nat) (h : n < 128 ^ (more + 1)) (rest : List UInt8) :
    readVarintLoop (more + 1) (varintLoop more n ++ rest) = some (n, rest) := by
  have hlast : ∀ m < 128, (UInt8.ofNat m).toNat = m := by
    intro m hm
    rw [UInt8.toNat_ofNat']
    omega
  induction more generalizing n with
  | zero =>
    rw [Nat.zero_add, Nat.pow_one] at h
    simp [varintLoop, readVarintLoop, hlast n h, h]
  | succ more ih =>
    rw [varintLoop]
    split
    · rename_i hsmall
      simp [readVarintLoop, hlast n hsmall, hsmall]
    · have hdiv : n / 128 < 128 ^ (more + 1) := by
        rw [Nat.div_lt_iff_lt_mul (by decide), ← Nat.pow_succ]
        exact h
      have hbyte : (UInt8.ofNat (n % 128 + 128)).toNat = n % 128 + 128 := by
        rw [UInt8.toNat_ofNat']
        omega
      rw [List.cons_append, readVarintLoop, hbyte, if_neg (by omega), ih (n / 128) hdiv]
      simp only [Option.map_some, Option.some.injEq, Prod.mk.injEq, and_true]
      omega

/-- **What is written is read back**, whatever follows it. -/
theorem readVarint_varint {n : Nat} (h : n < 2 ^ 64) (rest : List UInt8) :
    readVarint (varint n ++ rest) = some (n, rest) :=
  readVarintLoop_varintLoop 9 n (Nat.lt_of_lt_of_le h (by decide)) rest

theorem varint_ne_nil (n : Nat) : varint n ≠ [] := by
  unfold varint varintLoop
  split <;> exact List.cons_ne_nil _ _

/-! ## Fields -/

/-- The value of a field. -/
inductive Value
  | varint (n : Nat)
  | bytes (b : List UInt8)
  deriving DecidableEq

/-- The value fits the encoding. -/
def Value.Fits : Value → Prop
  | varint n => n < 2 ^ 64
  | bytes b => b.length < 2 ^ 64

/-- Field `num` with its tag. -/
def encodeField (num : Nat) : Value → List UInt8
  | .varint n => varint (num * 8) ++ varint n
  | .bytes b => varint (num * 8 + 2) ++ varint b.length ++ b

/-- The first field, and what is left. -/
def decodeField (s : List UInt8) : Option ((Nat × Value) × List UInt8) :=
  (readVarint s).bind fun tag =>
    (readVarint tag.2).bind fun r =>
      if tag.1 % 8 = 0 then some ((tag.1 / 8, .varint r.1), r.2)
      else if tag.1 % 8 = 2 ∧ r.1 ≤ r.2.length then
        some ((tag.1 / 8, .bytes (r.2.take r.1)), r.2.drop r.1)
      else none

/-- The fields of a record. -/
def encode (fields : List (Nat × Value)) : List UInt8 := fields.flatMap fun f => encodeField f.1 f.2

/-- At most `room` fields. -/
def decodeLoop : Nat → List UInt8 → Option (List (Nat × Value))
  | _, [] => some []
  | 0, _ :: _ => none
  | room + 1, c :: s =>
    (decodeField (c :: s)).bind fun f => (decodeLoop room f.2).map fun fields => f.1 :: fields

/-- The fields in these bytes, `none` where they are no record. -/
def decode (s : List UInt8) : Option (List (Nat × Value)) := decodeLoop s.length s

theorem encodeField_ne_nil (num : Nat) (v : Value) : encodeField num v ≠ [] := by
  cases v with
  | varint n => exact List.append_ne_nil_of_left_ne_nil (varint_ne_nil _) _
  | bytes b =>
    exact List.append_ne_nil_of_left_ne_nil
      (List.append_ne_nil_of_left_ne_nil (varint_ne_nil _) _) _

theorem decodeField_encodeField {num : Nat} (hnum : num < 2 ^ 32) {v : Value} (hv : v.Fits)
    (rest : List UInt8) : decodeField (encodeField num v ++ rest) = some ((num, v), rest) := by
  cases v with
  | varint n =>
    have hmod : num * 8 % 8 = 0 := by omega
    have hdiv : num * 8 / 8 = num := by omega
    rw [decodeField, encodeField, List.append_assoc, readVarint_varint (by omega), Option.bind_some,
      readVarint_varint hv, Option.bind_some, if_pos hmod, hdiv]
  | bytes b =>
    have hmod : (num * 8 + 2) % 8 = 2 := by omega
    have hdiv : (num * 8 + 2) / 8 = num := by omega
    rw [decodeField, encodeField, List.append_assoc, List.append_assoc, readVarint_varint (by omega),
      Option.bind_some, readVarint_varint hv, Option.bind_some, if_neg (by omega),
      if_pos ⟨hmod, by simp⟩, hdiv]
    simp

theorem decodeLoop_encode {fields : List (Nat × Value)}
    (h : ∀ f ∈ fields, f.1 < 2 ^ 32 ∧ f.2.Fits) {room : Nat} (hroom : fields.length ≤ room) :
    decodeLoop room (encode fields) = some fields := by
  induction fields generalizing room with
  | nil => cases room <;> rfl
  | cons f fields ih =>
    obtain ⟨⟨hnum, hv⟩, hrest⟩ := List.forall_mem_cons.mp h
    obtain ⟨more, rfl⟩ : ∃ more, room = more + 1 :=
      ⟨room - 1, by rw [List.length_cons] at hroom; omega⟩
    have hone := decodeField_encodeField hnum hv (encode fields)
    have hcons : encode (f :: fields) = encodeField f.1 f.2 ++ encode fields := by simp [encode]
    obtain ⟨c, s, hs⟩ := List.exists_cons_of_ne_nil
      (List.append_ne_nil_of_left_ne_nil (encodeField_ne_nil f.1 f.2) (encode fields))
    rw [hs] at hone
    rw [hcons, hs, decodeLoop, hone, Option.bind_some,
      ih hrest (Nat.le_of_succ_le_succ hroom), Option.map_some]

/-- **A record is read back as it was written.** -/
theorem decode_encode {fields : List (Nat × Value)} (h : ∀ f ∈ fields, f.1 < 2 ^ 32 ∧ f.2.Fits) :
    decode (encode fields) = some fields := by
  refine decodeLoop_encode h ?_
  clear h
  induction fields with
  | nil => exact Nat.le_refl 0
  | cons f fields ih =>
    have hpos := List.length_pos_iff.mpr (encodeField_ne_nil f.1 f.2)
    have hcons : (encode (f :: fields)).length =
        (encodeField f.1 f.2).length + (encode fields).length := by simp [encode]
    rw [hcons, List.length_cons]
    omega

end Proto3
