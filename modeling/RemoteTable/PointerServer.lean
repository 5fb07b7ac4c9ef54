import RemoteTable.ConnectionRelease
import RemoteTable.Pointers

/-! # The server, pointer by pointer

Serialization, the printed table, `invoke` and a round of `dispatch_thread` on the memory of
`Pointers`.  The message is an object with a pointer to its bytes.

protobuf-c is not part of the program.  What it does with memory is assumed, and stated as
`messageUnpack` and `messageFreeUnpacked`: it unpacks a message into one block, and its bytes,
if there are any, into a second one; it keeps no other blocks; and it frees the blocks that the
message has when it is freed, whoever has allocated them.
-/
namespace RemoteTable.Pointers
open CMem

section Functions
variable (junk : Addr → Nat → UInt8)

/-! ## `serialization.c` -/

/-- `data_to_buffer`: the value returned, and what `*data_buf` is afterwards. -/
def dataToBuffer (data dataBuf : Option Addr) : Prog Object (Int × Option Addr) :=
  if data = none then return (-1, dataBuf)
  else do
    let d ← dataAt data
    let size := toInt32 (sizeofInt + d.datasize)
    let temp ← mallocBytes junk size
    if temp = none then return (-1, dataBuf)
    else
      storeAt temp 0 [toByte d.datasize]
      memcpy temp sizeofInt d.data 0 d.datasize
      return (size, temp)

/-- `buffer_to_entry`. -/
def bufferToEntry (entryBuf : Option Addr) (entryBufSize : Int) : Prog Object (Option Addr) :=
  if entryBuf = none ∨ entryBufSize = -1 then return none
  else do
    let buf ← bytesAt entryBuf
    let c ← load buf 0
    let ksize := charVal c
    let c ← load buf sizeofInt
    let dsize := charVal c
    let data ← mallocBytes junk dsize
    memcpy data 0 entryBuf (2 * sizeofInt + ksize) dsize
    let key ← mallocBytes junk ksize
    memcpy key 0 entryBuf (2 * sizeofInt) ksize
    let temp ← dataCreate2 dsize data
    entryCreate key temp

/-! ## The printed table -/

/-- The first loop of `list_to_string`. -/
def listCharsLoop : Nat → Int → Option Addr → Prog Object Int
  | _, nChars, none => return nChars
  | 0, _, some _ => throw .diverges
  | fuel + 1, nChars, some iter => do
    let node ← nodeAt (some iter)
    let e ← entryAt node.entry
    let k ← bytesAt e.key
    let n ← strlen k
    let d ← dataAt e.value
    listCharsLoop fuel (nChars + (n + 2 + d.datasize + 1)) node.next

/-- The second loop. -/
def listFillLoop (buf : Option Addr) : Nat → Nat → Option Addr → Prog Object Nat
  | _, ptr, none => return ptr
  | 0, _, some _ => throw .diverges
  | fuel + 1, ptr, some iter => do
    let node ← nodeAt (some iter)
    let e ← entryAt node.entry
    let k ← bytesAt e.key
    let nChars ← strlen k
    memcpy buf ptr e.key 0 nChars
    let ptr := ptr + nChars
    storeAt buf ptr [45]
    let ptr := ptr + 1
    storeAt buf ptr [62]
    let ptr := ptr + 1
    let d ← dataAt e.value
    memcpy buf ptr d.data 0 d.datasize
    let ptr := ptr + d.datasize.toNat
    storeAt buf ptr [32]
    listFillLoop buf fuel (ptr + 1) node.next

/-- `list_to_string`. -/
def listToString (list : Option Addr) : Prog Object (Option Addr) := do
  let l ← listAt list
  if l.head = none then
    let x ← mallocBytes junk 1
    storeAt x 0 [0]
    return x
  else
    let fuel ← Prog.allocations
    let nChars ← listCharsLoop fuel 0 l.head
    let buf ← mallocBytes junk (nChars + 1)
    let ptr ← listFillLoop buf fuel 0 l.head
    storeAt buf (ptr - 1) [10]
    storeAt buf ptr [0]
    return buf

/-- `strapp`: what `*str` is afterwards. -/
def strapp (str app : Option Addr) : Prog Object (Option Addr) := do
  let s ← bytesAt str
  let n ← strlen s
  let a ← bytesAt app
  let k ← strlen a
  let str ← reallocBytes junk str (n + k + 1)
  let s ← bytesAt str
  let n ← strlen s
  memcpy str n app 0 (k + 1)
  return str

/-- The loop of `table_to_string`. -/
def tableToStringLoop (listsPtr : Option Addr) : Nat → Nat → Option Addr → Prog Object (Option Addr)
  | 0, _, str => return str
  | todo + 1, i, str => do
    let s ← pointersAt listsPtr
    let list ← slotAt s i
    let temp ← listToString junk list
    let str ← strapp junk str temp
    Prog.free temp
    tableToStringLoop listsPtr todo (i + 1) str

/-- `table_to_string`. -/
def tableToString (table : Option Addr) : Prog Object (Option Addr) := do
  let t ← tableAt table
  let s ← pointersAt t.listsPtr
  let list ← slotAt s 0
  let str ← listToString junk list
  tableToStringLoop junk t.listsPtr (t.n.toNat - 1) 1 str

/-- `malloc(size)` where it may find no block. -/
def mallocIf (found : Bool) (size : Int) : Prog Object (Option Addr) :=
  if found then mallocBytes junk size else return none

/-! ## `invoke` -/

section Invoke
variable (env : Env) (table : Option Addr) (stats : Statistics) (msg : Option Addr)

/-- `OP_SIZE`: the pointer to the bytes of the request is overwritten. -/
def invokeSize : Prog Object Unit := do
  let c ← messageAt msg
  let data ← mallocBytes junk sizeofInt
  Prog.store msg (.message ⟨c.opcode + 1, ctResult, 4, data⟩)
  let size ← tableSize table
  storeAt data 0 [toByte size]

/-- `OP_DEL`. -/
def invokeDel : Prog Object Unit := do
  let c ← messageAt msg
  let code ← tableDel table c.data
  Prog.free c.data
  Prog.store msg (.message ⟨if code = -1 then opError else c.opcode + 1, ctNone, 0, none⟩)

/-- `OP_GET`. -/
def invokeGet : Prog Object Unit := do
  let c ← messageAt msg
  let temp ← tableGet junk table c.data
  if temp = none then
    Prog.free c.data
    Prog.store msg (.message ⟨opError, ctNone, 0, none⟩)
    dataDestroy temp
  else
    Prog.free c.data
    let (len, data) ← dataToBuffer junk temp c.data
    Prog.store msg (.message ⟨c.opcode + 1, ctValue, toSizeT len, data⟩)
    dataDestroy temp

/-- `OP_PUT`. -/
def invokePut : Prog Object Unit := do
  let c ← messageAt msg
  let temp ← bufferToEntry junk c.data (toInt32 c.len)
  let e ← entryAt temp
  let code ← tablePut junk table e.key e.value
  entryDestroy temp
  Prog.free c.data
  Prog.store msg (.message ⟨if code = -1 then opError else c.opcode + 1, ctNone, 0, none⟩)

/-- The first loop of `OP_GETKEYS` on what is left of the array. -/
def keyLengthsLoop : Slots (Option Addr) → Nat → Prog Object Nat
  | [], _ => throw .outOfBounds
  | none :: _, _ => throw .uninitialised
  | some none :: _, len => return len
  | some (some key) :: k, len => do
    let b ← bytesAt (some key)
    let n ← strlen b
    keyLengthsLoop k (len + (n + 1))

/-- The second loop. -/
def keyCopyLoop (buf : Option Addr) : Slots (Option Addr) → Nat → Prog Object Unit
  | [], _ => throw .outOfBounds
  | none :: _, _ => throw .uninitialised
  | some none :: _, _ => return ()
  | some (some key) :: k, l => do
    let b ← bytesAt (some key)
    let n ← strlen b
    memcpy buf l (some key) 0 (n + 1)
    let c ← bytesAt buf
    let step ← strlen (c.drop l)
    keyCopyLoop buf k (l + (step + 1))

/-- `OP_GETKEYS`: the pointer to the bytes of the request is overwritten. -/
def invokeGetKeys : Prog Object Unit := do
  let c ← messageAt msg
  let k ← tableGetKeys table
  let s ← pointersAt k
  let len ← keyLengthsLoop s 0
  let buf ← mallocBytes junk len
  keyCopyLoop buf s 0
  Prog.store msg (.message ⟨c.opcode + 1, ctKeys, len, buf⟩)
  tableFreeKeys k

/-- `OP_PRINT`: the pointer to the bytes of the request is overwritten. -/
def invokePrint : Prog Object Unit := do
  let c ← messageAt msg
  let data ← tableToString junk table
  let b ← bytesAt data
  let n ← strlen b
  Prog.store msg (.message ⟨c.opcode + 1, ctTable, n + 1, data⟩)

/-- `OP_STATS`: the pointer to the bytes of the request is overwritten. -/
def invokeStats : Prog Object Unit := do
  let c ← messageAt msg
  let data ← mallocIf junk env.statsBlock sizeofStatistics
  if data = none then
    Prog.store msg (.message ⟨opError, ctNone, 0, none⟩)
  else if env.readLock ≠ 0 then
    Prog.store msg (.message ⟨opError, ctNone, 0, data⟩)
  else
    storeAt data 0 (env.statsImage stats)
    if env.readUnlock ≠ 0 then
      Prog.store msg (.message ⟨opError, ctNone, 0, data⟩)
    else
      Prog.store msg (.message ⟨c.opcode + 1, ctResult, sizeofStatistics, data⟩)

/-- The branches on the opcode; the last one is `return -1`. -/
def dispatch (opCode : Int) : Prog Object Bool := do
  if opCode = opSize then
    invokeSize junk table msg
    return true
  else if opCode = opDel then
    invokeDel table msg
    return true
  else if opCode = opGet then
    invokeGet junk table msg
    return true
  else if opCode = opPut then
    invokePut junk table msg
    return true
  else if opCode = opGetKeys then
    invokeGetKeys junk table msg
    return true
  else if opCode = opPrint then
    invokePrint junk table msg
    return true
  else if opCode = opStats then
    invokeStats junk env stats msg
    return true
  else return false

/-- `invoke`: the value returned, and the statistics, which are static. -/
def invoke : Prog Object (Int × Statistics) := do
  let c ← messageAt msg
  let handled ← dispatch junk env table stats msg c.opcode
  if handled then statsTail env c.opcode stats
  else return (-1, stats)

end Invoke

/-! ## A round of `dispatch_thread` -/

/-- A block with these bytes, if there are any. -/
def newBytes : Option Block → Prog Object (Option Addr)
  | none => return none
  | some b => Prog.new (.bytes b)

/-- What is assumed of `message_t__unpack`: a block for the message and one for its bytes, if there
are any, or none where protobuf-c rejects what it is given. -/
def messageUnpack (pb : Protobuf) (body : Block) : Prog Object (Option Addr) :=
  match pb.unpack body with
  | none => return none
  | some content => do
    let data ← newBytes content.buffer.data
    Prog.new (.message ⟨content.opcode, content.cType, content.buffer.len, data⟩)

/-- What is assumed of `message_t__free_unpacked`: it frees the block of the bytes and that of the
message. -/
def messageFreeUnpacked (msg : Option Addr) : Prog Object Unit :=
  if msg = none then return ()
  else do
    let c ← messageAt msg
    Prog.free c.data
    Prog.free msg

/-- The message that a pointer points at, with its bytes. -/
def messageContent (msg : Option Addr) : Prog Object MessageT := do
  let c ← messageAt msg
  if c.data = none then return ⟨c.opcode, c.cType, ⟨c.len, none⟩⟩
  else
    let b ← bytesAt c.data
    return ⟨c.opcode, c.cType, ⟨c.len, some b⟩⟩

/-- `network_receive`.  The block of `read_all` is lost when that fails. -/
def networkReceive (pb : Protobuf) (r : Round) (sock : ClientSocket) :
    Prog Object (Option Addr × ClientSocket) := do
  let (len, buf, incoming) ← readAll r.reads r.blocks sock.incoming
  let data ← newBytes buf
  let sock := { sock with incoming := incoming }
  if len = -1 then return (none, sock.close)
  else
    let body ← slice (buf.getD []) 0 len
    let msg ← messageUnpack pb body
    Prog.free data
    return (msg, sock)

/-- `network_send`.  Without a block the message is lost; the block is lost when `write_all`
fails. -/
def networkSend (pb : Protobuf) (r : Round) (sock : ClientSocket) (msg : Option Addr) :
    Prog Object (Int × ClientSocket) := do
  let content ← messageContent msg
  let len := toInt32 (pb.packedSize content)
  let buf ← mallocIf junk r.sendBlock len
  if buf = none then return (-1, sock.close)
  else
    let body ← pb.pack content
    storeAt buf 0 body
    messageFreeUnpacked msg
    let b ← bytesAt buf
    let (code, _) ← writeAll r.writes b len
    if code = -1 then return (-1, sock.close)
    else
      Prog.free buf
      return (0, sock)

end Functions
end RemoteTable.Pointers
