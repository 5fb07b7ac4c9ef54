import RemoteTable.Serialization
import RemoteTable.Rendering
import RemoteTable.Stats

/-! # The skeleton

`invoke`, branch by branch.  A request is handled on the table and the statistics
of the server, in an environment that stands for everything else: the contents
of the blocks `malloc` hands out, the measured time, and the results of the lock
calls that the source checks.

`data_to_buffer` returns -1 on failure and leaves the pointer alone, which by then
points at the freed request: `freed` is a block of which nothing can be read.
-/
namespace RemoteTable
open CMem

/-- What `invoke` meets besides its arguments and the server's state: the blocks
`malloc` hands out, by order of allocation, whether it can hand out one for the
statistics, how a `struct statistics` is laid out in memory, the measured time,
and what the calls on `stats_mutex` return. -/
structure Env where
  junk : Nat → Nat → UInt8
  statsBlock : Bool
  statsImage : Statistics → Block
  length_statsImage : ∀ s, (statsImage s).length = sizeofStatistics
  ms : Rat
  readLock : Int
  readUnlock : Int
  writeLock : Int
  writeUnlock : Int

/-- An environment in which every call succeeds. -/
def Env.calm (junk : Nat → Nat → UInt8) : Env where
  junk := junk
  statsBlock := true
  statsImage := fun _ => List.replicate sizeofStatistics 0
  length_statsImage := fun _ => List.length_replicate
  ms := 0
  readLock := 0
  readUnlock := 0
  writeLock := 0
  writeUnlock := 0

/-- `g_table` and `stats`. -/
structure Server where
  gTable : TableT
  stats : Statistics

/-- The server after `table_skel_init`; the statistics are static, so they start at
zero. -/
def tableSkelInit (nLists : Int) : Server :=
  ⟨tableCreate nLists, ⟨0, 0, Vector.replicate 6 0⟩⟩

/-- A block that has been freed. -/
def freed : Block := []

/-- `OP_SIZE`: the number of entries is stored through a `uint8_t *`. -/
def invokeSize (env : Env) (t : TableT) (msg : MessageT) : Exec MessageT := do
  let data ← deref (malloc (env.junk 0) sizeofInt)
  let size ← tableSize t
  let data ← store data 0 [toByte size]
  return ⟨msg.opcode + 1, ctResult, ⟨4, some data⟩⟩

/-- `OP_DEL`. -/
def invokeDel (t : TableT) (msg : MessageT) : Exec (TableT × MessageT) := do
  let key ← deref msg.buffer.data
  let (code, t) ← tableDel t key
  let opcode := if code = -1 then opError else msg.opcode + 1
  return (t, ⟨opcode, ctNone, ⟨0, none⟩⟩)

/-- `OP_GET`. -/
def invokeGet (env : Env) (t : TableT) (msg : MessageT) : Exec MessageT := do
  let key ← deref msg.buffer.data
  match ← tableGet (env.junk 0) t key with
  | none => return ⟨opError, ctNone, ⟨0, none⟩⟩
  | some temp =>
    let (len, data) ← dataToBuffer (env.junk 1) (some temp)
    return ⟨msg.opcode + 1, ctValue, ⟨toSizeT len, data.or (some freed)⟩⟩

/-- `OP_PUT`. -/
def invokePut (env : Env) (t : TableT) (msg : MessageT) : Exec (TableT × MessageT) := do
  let temp ← bufferToEntry (env.junk 0) msg.buffer.data (toInt32 msg.buffer.len)
  let entry ← deref temp
  let (code, t) ← tablePut (env.junk 1) t entry.key entry.value
  let opcode := if code = -1 then opError else msg.opcode + 1
  return (t, ⟨opcode, ctNone, ⟨0, none⟩⟩)

/-- The first loop of `OP_GETKEYS`: the bytes of the keys, with their NULs. -/
def keyLengthsLoop : Slots (Option Block) → Nat → Exec Nat
  | [], _ => .error .outOfBounds
  | none :: _, _ => .error .uninitialised
  | some none :: _, len => .ok len
  | some (some key) :: k, len => do
    let n ← strlen key
    keyLengthsLoop k (len + (n + 1))

/-- The second loop: copy each key, `l` being the next byte to write. -/
def keyCopyLoop : Slots (Option Block) → Block → Nat → Exec Block
  | [], _, _ => .error .outOfBounds
  | none :: _, _, _ => .error .uninitialised
  | some none :: _, buf, _ => .ok buf
  | some (some key) :: k, buf, l => do
    let n ← strlen key
    let src ← slice key 0 (n + 1)
    let buf ← store buf l src
    let step ← strlen (buf.drop l)
    keyCopyLoop k buf (l + (step + 1))

/-- `OP_GETKEYS`.  The index `r` of its loops never passes that of `table_get_keys`. -/
def invokeGetKeys (env : Env) (t : TableT) (msg : MessageT) : Exec MessageT := do
  let k ← tableGetKeys t
  let len ← keyLengthsLoop k 0
  let buf ← deref (malloc (env.junk 0) len)
  let buf ← keyCopyLoop k buf 0
  return ⟨msg.opcode + 1, ctKeys, ⟨len, some buf⟩⟩

/-- `OP_PRINT`. -/
def invokePrint (env : Env) (t : TableT) (msg : MessageT) : Exec MessageT := do
  let data ← tableToString env.junk t
  let n ← strlen data
  return ⟨msg.opcode + 1, ctTable, ⟨n + 1, some data⟩⟩

/-- `OP_STATS`. -/
def invokeStats (env : Env) (stats : Statistics) (msg : MessageT) : Exec MessageT :=
  if env.statsBlock then do
    let data ← deref (malloc (env.junk 0) sizeofStatistics)
    if env.readLock ≠ 0 then
      return ⟨opError, ctNone, ⟨0, some data⟩⟩
    else
      let data ← store data 0 (env.statsImage stats)
      if env.readUnlock ≠ 0 then
        return ⟨opError, ctNone, ⟨0, some data⟩⟩
      else
        return ⟨msg.opcode + 1, ctResult, ⟨sizeofStatistics, some data⟩⟩
  else .ok ⟨opError, ctNone, ⟨0, none⟩⟩

/-- The branches on the opcode; `none` is the last one, `return -1`. -/
def dispatch (env : Env) (srv : Server) (msg : MessageT) : Exec (Option (Server × MessageT)) :=
  if msg.opcode = opSize then do
    let reply ← invokeSize env srv.gTable msg
    return some (srv, reply)
  else if msg.opcode = opDel then do
    let (t, reply) ← invokeDel srv.gTable msg
    return some ({ srv with gTable := t }, reply)
  else if msg.opcode = opGet then do
    let reply ← invokeGet env srv.gTable msg
    return some (srv, reply)
  else if msg.opcode = opPut then do
    let (t, reply) ← invokePut env srv.gTable msg
    return some ({ srv with gTable := t }, reply)
  else if msg.opcode = opGetKeys then do
    let reply ← invokeGetKeys env srv.gTable msg
    return some (srv, reply)
  else if msg.opcode = opPrint then do
    let reply ← invokePrint env srv.gTable msg
    return some (srv, reply)
  else if msg.opcode = opStats then do
    let reply ← invokeStats env srv.stats msg
    return some (srv, reply)
  else .ok none

/-- What follows the branches: the statistics of a request that is counted. -/
def statsTail (env : Env) (opCode : Int) (stats : Statistics) : Exec (Int × Statistics) :=
  if ¬ (opCode > 60 ∨ opCode < 10) then
    if env.writeLock ≠ 0 then .ok (-1, stats)
    else do
      let stats ← updateStats stats opCode env.ms
      if env.writeUnlock ≠ 0 then return (-1, stats)
      else return (0, stats)
  else .ok (0, stats)

/-- `invoke`: the value returned, the server afterwards and the message it has
become. -/
def invoke (env : Env) (srv : Server) (msg : MessageT) : Exec (Int × Server × MessageT) := do
  match ← dispatch env srv msg with
  | none => return (-1, srv, msg)
  | some (srv, reply) =>
    let (code, stats) ← statsTail env msg.opcode srv.stats
    return (code, { srv with stats := stats }, reply)

end RemoteTable
