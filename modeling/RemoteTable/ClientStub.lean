import RemoteTable.Message
import RemoteTable.Serialization

/-! # The client stub

What the stub does with a reply.  How a message gets to the client is protobuf-c's
business: `Carried` is what it promises, and nothing else is used of it.

`rtable_get_keys` hands out pointers into the buffer of the reply; here they are
offsets into it.
-/
namespace RemoteTable
open CMem

/-- What protobuf-c promises of a message it carries: the opcode, the type, and the
bytes of the buffer; an empty buffer arrives as `NULL`. -/
structure Carried (msg resp : MessageT) : Prop where
  opcode : resp.opcode = msg.opcode
  cType : resp.cType = msg.cType
  buffer : ∃ bytes, msg.buffer.sent = .ok bytes ∧
    resp.buffer = ⟨bytes.length, if bytes = [] then none else some bytes⟩

/-- The message that arrives when these bytes are sent. -/
def MessageT.carrying (msg : MessageT) (bytes : Block) : MessageT :=
  { msg with buffer := ⟨bytes.length, if bytes = [] then none else some bytes⟩ }

/-- What arrives is determined by the bytes sent. -/
theorem carried_iff {msg resp : MessageT} {bytes : Block} (hsent : msg.buffer.sent = .ok bytes) :
    Carried msg resp ↔ resp = msg.carrying bytes := by
  constructor
  · rintro ⟨hop, htype, bytes', hsent', hbuf⟩
    obtain rfl := Except.ok.inj (hsent.symm.trans hsent')
    cases resp
    cases hop
    cases htype
    cases hbuf
    rfl
  · rintro rfl
    exact ⟨rfl, rfl, bytes, hsent, rfl⟩

/-- `rtable_get` on the response. -/
def rtableGet (junk : Nat → UInt8) (resp : Option MessageT) : Exec (Option DataT) :=
  match resp with
  | none => .ok none
  | some resp =>
    if resp.opcode = opError then .ok none
    else bufferToData junk resp.buffer.data (toInt32 resp.buffer.len)

/-- `rtable_del` on the response. -/
def rtableDel (resp : Option MessageT) : Int :=
  match resp with
  | none => -1
  | some resp => if resp.opcode = opError then -1 else 0

/-- `rtable_size` on the response: the byte is read through a `uint8_t *`. -/
def rtableSize (resp : Option MessageT) : Exec Int :=
  match resp with
  | none => .ok (-1)
  | some resp => do
    let buf ← deref resp.buffer.data
    let c ← load buf 0
    return c.toNat

/-- `rtable_stats` on the response: the buffer is taken for a `struct statistics`. -/
def rtableStats (resp : Option MessageT) : Option Block :=
  match resp with
  | none => none
  | some resp => resp.buffer.data

/-- `rtable_print` on the response: the bytes that are printed. -/
def rtablePrint (resp : Option MessageT) : Exec (List UInt8) := do
  let rsp ← deref resp
  let buf ← deref rsp.buffer.data
  let n ← strlen buf
  slice buf 0 n

/-- The first loop of `rtable_get_keys`: count the NULs of `todo` bytes from `i` on. -/
def countNulsLoop (data : Option Block) : Nat → Nat → Int → Exec Int
  | 0, _, nkeys => .ok nkeys
  | todo + 1, i, nkeys => do
    let buf ← deref data
    let c ← load buf i
    let nkeys ← if c = 0 then intAdd nkeys 1 else .ok nkeys
    countNulsLoop data todo (i + 1) nkeys

/-- The second loop: `todo` more keys, the next one at `keyref`. -/
def collectKeysLoop (keys : Option Block) :
    Nat → Nat → Nat → Slots (Option Nat) → Exec (Slots (Option Nat))
  | 0, _, _, result => .ok result
  | todo + 1, i, keyref, result => do
    let result ← setSlot result i (some keyref)
    let buf ← deref keys
    let n ← strlen (buf.drop keyref)
    collectKeysLoop keys todo (i + 1) (keyref + (n + 1)) result

/-- `rtable_get_keys` on the response: the buffer it keeps and the array of
pointers into it. -/
def rtableGetKeys (resp : Option MessageT) : Exec (Option (Option Block × Slots (Option Nat))) :=
  match resp with
  | none => .ok none
  | some resp => do
    let nkeys ← countNulsLoop resp.buffer.data resp.buffer.len 0 0
    let slots ← intAdd nkeys 1
    let keys := resp.buffer.data
    let result ← collectKeysLoop keys nkeys.toNat 0 0 (mallocSlots slots)
    let result ← setSlot result nkeys.toNat none
    return some (keys, result)

/-- The string a pointer into the buffer points at. -/
def stringAt (keys : Option Block) (ptr : Nat) : Exec (List UInt8) := do
  let buf ← deref keys
  let n ← strlen (buf.drop ptr)
  slice buf ptr n

/-- The array holds pointers to exactly these strings, in order, and then `NULL`. -/
def PointsTo (keys : Option Block) (result : Slots (Option Nat)) (strs : List (List UInt8)) : Prop :=
  ∃ ptrs : List Nat, result = ptrs.map (fun p => some (some p)) ++ [some none] ∧
    ptrs.map (stringAt keys) = strs.map Except.ok

end RemoteTable
