import RemoteTable.Block

/-! # Messages

`MessageT` as protobuf-c declares it (`sdmessage.pb-c.h`).  The enumerations are
open: a peer may send any `int` as an opcode or as a type, so both are integers
and the declared values are constants.

A buffer is a length and a pointer.  protobuf-c delivers exactly `len` bytes, and
an empty buffer as `NULL` (`Delivered`); the functions of this repository may
leave any other combination behind.
-/
namespace RemoteTable
open CMem

/-! ## `MessageT__Opcode` -/

def opSize : Int := 10
def opDel : Int := 20
def opGet : Int := 30
def opPut : Int := 40
def opGetKeys : Int := 50
def opPrint : Int := 60
def opStats : Int := 70
def opError : Int := 99

/-! ## `MessageT__CType` -/

def ctKey : Int := 10
def ctValue : Int := 20
def ctEntry : Int := 30
def ctKeys : Int := 40
def ctResult : Int := 50
def ctTable : Int := 60
def ctNone : Int := 70

/-- `ProtobufCBinaryData`. -/
structure BinaryData where
  len : Nat
  data : Option Block
  deriving DecidableEq, Repr

/-- `MessageT`. -/
structure MessageT where
  opcode : Int
  cType : Int
  buffer : BinaryData
  deriving DecidableEq, Repr

/-- A buffer as `message_t__unpack` delivers it: exactly `len` bytes, `NULL` when
there are none. -/
def BinaryData.Delivered (b : BinaryData) : Prop :=
  (b.data = none ∧ b.len = 0) ∨ ∃ bytes, bytes ≠ [] ∧ b.data = some bytes ∧ b.len = bytes.length

/-- What a peer receives of a buffer: the first `len` bytes of its block, when
the block has them. -/
def BinaryData.sent (b : BinaryData) : Exec Block :=
  match b.data with
  | some bytes => slice bytes 0 b.len
  | none => if b.len = 0 then .ok [] else .error .nullDeref

/-- A block sent as a whole. -/
theorem sent_all (bytes : Block) : BinaryData.sent ⟨bytes.length, some bytes⟩ = .ok bytes := by
  have h := slice_append [] bytes []
  simpa [BinaryData.sent] using h

/-- Conversion of an `int` to `size_t`. -/
def toSizeT (x : Int) : Nat := (x % 18446744073709551616).toNat

theorem toSizeT_of_nonneg {x : Int} (h : 0 ≤ x) (hle : x ≤ intMax) : (toSizeT x : Int) = x := by
  unfold toSizeT intMax at *
  omega

end RemoteTable
