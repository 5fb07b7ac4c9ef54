import RemoteTable.ConnectionRelease
import RemoteTable.KeyListing
import RemoteTable.ProtoWire
import RemoteTable.TableRuns

/-! # The calls of the stub

Each function of `client_stub.c` builds a request, gives it to `network_send_receive` and
takes its result from the response.  `network_send_receive` sends the request and then waits:
the server has to run in between, so the two halves of it are two functions here, and the
halves of a function of the stub are `request` and `answer`.

`rtable_stats` is not among the calls: what the statistics say depends on the clock.
-/
namespace RemoteTable
open CMem

/-! ## Requests -/

def opBad : Int := 0
def ctBad : Int := 0

/-- `message_t__init`. -/
def messageInit : MessageT := ⟨opBad, ctBad, ⟨0, none⟩⟩

/-- A call of the stub: the table function it is for, or `rtable_print`. -/
inductive RemoteOp
  | table (op : TableOp)
  | print

/-- The request of `rtable_put`. -/
def rtablePutRequest (junk : Nat → UInt8) (entry : Option EntryT) : Exec MessageT := do
  let (len, data) ← entryToBuffer junk entry
  return { messageInit with opcode := opPut, cType := ctEntry, buffer := ⟨toSizeT len, data⟩ }

/-- The requests of `rtable_get` and `rtable_del`: the key with its NUL. -/
def keyedRequest (opcode : Int) (key : Block) : Exec MessageT := do
  let n ← strlen key
  return { messageInit with opcode := opcode, cType := ctKey, buffer := ⟨n + 1, some key⟩ }

def rtableGetRequest (key : Block) : Exec MessageT := keyedRequest opGet key
def rtableDelRequest (key : Block) : Exec MessageT := keyedRequest opDel key

/-- The requests of the other functions: nothing but the opcode. -/
def bareRequest (opcode : Int) : MessageT :=
  { messageInit with opcode := opcode, cType := ctNone, buffer := ⟨0, none⟩ }

def rtableSizeRequest : MessageT := bareRequest opSize
def rtableGetKeysRequest : MessageT := bareRequest opGetKeys
def rtablePrintRequest : MessageT := bareRequest opPrint

/-- The request of a call. -/
def RemoteOp.request (junk : Nat → UInt8) : RemoteOp → Exec MessageT
  | table (.put k value) => rtablePutRequest junk (some ⟨k.block, some value⟩)
  | table (.get k) => rtableGetRequest k.block
  | table (.del k) => rtableDelRequest k.block
  | table .size => .ok rtableSizeRequest
  | table .getKeys => .ok rtableGetKeysRequest
  | print => .ok rtablePrintRequest

/-! ## Responses -/

/-- `rtable_put` on the response. -/
def rtablePut (resp : Option MessageT) : Int :=
  match resp with
  | none => -1
  | some resp => if resp.opcode = opError then -1 else 0

/-- The strings of `rtable_get_keys`, read up to the `NULL` as `main` does. -/
def readKeys (keys : Option Block) : Slots (Option Nat) → Exec (List (List UInt8))
  | [] => .error .outOfBounds
  | none :: _ => .error .uninitialised
  | some none :: _ => .ok []
  | some (some k) :: rest => do
    let key ← stringAt keys k
    let keys ← readKeys keys rest
    return key :: keys

/-- What a call returns, `keys` by the strings it points to and `text` by what it prints. -/
inductive RemoteAnswer
  | code (r : Int)
  | value (v : Option DataT)
  | size (n : Int)
  | keys (ks : List (List UInt8))
  | text (t : List UInt8)
  deriving DecidableEq

/-- The result of a call. -/
def RemoteOp.answer (junk : Nat → UInt8) (resp : Option MessageT) : RemoteOp → Exec RemoteAnswer
  | table (.put _ _) => .ok (.code (rtablePut resp))
  | table (.get _) => do
    let v ← rtableGet junk resp
    return .value v
  | table (.del _) => .ok (.code (rtableDel resp))
  | table .size => do
    let n ← rtableSize resp
    return .size n
  | table .getKeys => do
    let (keys, k) ← deref (← rtableGetKeys resp)
    let ks ← readKeys keys k
    return .keys ks
  | print => do
    let t ← rtablePrint resp
    return .text t

/-! ## The two halves of `network_send_receive` -/

/-- What a call meets: the blocks of the stub, the block and the calls that send the request,
and the calls and blocks that receive the response. -/
structure Exchange where
  junk : Nat → UInt8
  sendBlock : Bool
  sendJunk : Nat → UInt8
  writes : Calls
  reads : Calls
  blocks : Blocks

/-- Pack a message into a block and `write_all` it: its code and the bytes on the connection.
There may be no block, or the length may not be one. -/
def packAndWrite (pb : Protobuf) (sendBlock : Bool) (sendJunk : Nat → UInt8) (writes : Calls)
    (msg : MessageT) : Exec (Int × List UInt8) :=
  let len := toInt32 (pb.packedSize msg)
  match if sendBlock then malloc sendJunk len else none with
  | none => .ok (-1, [])
  | some buf => do
    let body ← pb.pack msg
    let buf ← store buf 0 body
    writeAll writes buf len

/-- `read_all` and unpack: the message, and what is left to read.  There is none when
`read_all` fails or protobuf-c rejects the bytes. -/
def readAndUnpack (pb : Protobuf) (reads : Calls) (blocks : Blocks) (s : Incoming) :
    Exec (Option MessageT × Incoming) := do
  let (len, buf, s) ← readAll reads blocks s
  if len = -1 then return (none, s)
  else
    let body ← slice (buf.getD []) 0 len
    return (pb.unpack body, s)

/-- The first half: its code is -1 where `network_send_receive` returns `NULL` before it
waits. -/
def Exchange.send (x : Exchange) (pb : Protobuf) (msg : MessageT) : Exec (Int × List UInt8) :=
  packAndWrite pb x.sendBlock x.sendJunk x.writes msg

/-- The second half. -/
def Exchange.receive (x : Exchange) (pb : Protobuf) (s : Incoming) :
    Exec (Option MessageT × Incoming) :=
  readAndUnpack pb x.reads x.blocks s

/-- `network_send` does the same, and closes the socket when it fails. -/
theorem networkSend_eq (pb : Protobuf) (r : Round) (sock : ClientSocket) (msg : MessageT) :
    networkSend pb r sock msg = do
      let (code, _) ← packAndWrite pb r.sendBlock r.sendJunk r.writes msg
      return if code = -1 then (-1, sock.close) else (0, sock) := by
  simp only [networkSend, packAndWrite]
  cases if r.sendBlock then malloc r.sendJunk (toInt32 (pb.packedSize msg)) else none with
  | none => rfl
  | some buf =>
    simp only [bind_assoc]
    congr 1
    funext body
    congr 1
    funext buf
    congr 1
    funext r
    split <;> rfl

/-- So does `network_receive`. -/
theorem networkReceive_eq (pb : Protobuf) (r : Round) (sock : ClientSocket) {m : MessageT} {s : Incoming}
    (h : readAndUnpack pb r.reads r.blocks sock.incoming = .ok (some m, s)) :
    networkReceive pb r sock = .ok (some m, { sock with incoming := s }) := by
  obtain ⟨⟨len, buf, s₁⟩, hread, h⟩ := bind_eq_ok.mp h
  rw [networkReceive, hread, ok_bind]
  by_cases hlen : len = -1
  · simp only [if_pos hlen] at h
    cases h
  · simp only [if_neg hlen] at h ⊢
    obtain ⟨body, hbody, h⟩ := bind_eq_ok.mp h
    obtain ⟨hm, rfl⟩ := Prod.mk.inj (Except.ok.inj h)
    rw [hbody, ok_bind, hm, pure_eq_ok]

theorem networkReceive_error (pb : Protobuf) (r : Round) (sock : ClientSocket) {f : Fault}
    (h : readAndUnpack pb r.reads r.blocks sock.incoming = .error f) :
    networkReceive pb r sock = .error f := by
  unfold readAndUnpack at h
  unfold networkReceive
  cases hread : readAll r.reads r.blocks sock.incoming with
  | error f' =>
    rw [hread, error_bind] at h
    rw [error_bind, Except.error.inj h]
  | ok res =>
    obtain ⟨len, buf, s⟩ := res
    rw [hread, ok_bind] at h
    rw [ok_bind]
    by_cases hlen : len = -1
    · simp only [if_pos hlen] at h
      cases h
    · simp only [if_neg hlen] at h ⊢
      cases hbody : slice (buf.getD []) 0 len with
      | error f' =>
        rw [hbody, error_bind] at h
        rw [error_bind, Except.error.inj h]
      | ok body =>
        rw [hbody, ok_bind] at h
        cases h

/-! ## What protobuf-c does -/

/-- The value of an enumeration is an `int`. -/
def MessageT.Enums (msg : MessageT) : Prop :=
  (intMin ≤ msg.opcode ∧ msg.opcode ≤ intMax) ∧ (intMin ≤ msg.cType ∧ msg.cType ≤ intMax)

/-- What protobuf-c promises: a message whose buffer can be read is packed into as many bytes
as were announced, and unpacking gives the message back. -/
structure Protobuf.RoundTrips (pb : Protobuf) : Prop where
  packs : ∀ {msg bytes}, msg.buffer.sent = .ok bytes → ∃ body, pb.pack msg = .ok body
  size : ∀ {msg body}, pb.pack msg = .ok body → body.length = pb.packedSize msg
  unpack : ∀ {msg body bytes}, msg.Enums → pb.pack msg = .ok body → (body.length : Int) ≤ intMax →
    msg.buffer.sent = .ok bytes → pb.unpack body = some (msg.carrying bytes)

section Proto
variable {msg : MessageT} {bytes : Block}

/-- The fields of `message_t` in `sdmessage.proto`; those that have their default value are
left out. -/
def MessageT.fields (msg : MessageT) (bytes : Block) : List (Nat × Proto3.Value) :=
  (if msg.opcode = opBad then [] else [(1, .varint (toSizeT msg.opcode))]) ++
    (if msg.cType = ctBad then [] else [(2, .varint (toSizeT msg.cType))]) ++
    if bytes = [] then [] else [(3, .bytes bytes)]

/-- A field that arrives; one with an unknown number is skipped. -/
def MessageT.setField (msg : MessageT) : Nat × Proto3.Value → Option MessageT
  | (1, .varint n) => some { msg with opcode := toInt32 n }
  | (2, .varint n) => some { msg with cType := toInt32 n }
  | (3, .bytes b) => some { msg with buffer := ⟨b.length, if b = [] then none else some b⟩ }
  | (num, _) => if num ∈ [1, 2, 3] then none else some msg

/-- `message_t` in proto3. -/
def proto3Message : Protobuf where
  unpack body := (Proto3.decode body).bind fun fields => fields.foldlM MessageT.setField messageInit
  packedSize msg :=
    match msg.buffer.sent with
    | .ok bytes => (Proto3.encode (msg.fields bytes)).length
    | .error _ => 0
  pack msg := do
    let bytes ← msg.buffer.sent
    return Proto3.encode (msg.fields bytes)

/-- An `int` travels in 64 bits and arrives as it was. -/
theorem toInt32_toSizeT {x : Int} (hlo : intMin ≤ x) (hhi : x ≤ intMax) : toInt32 (toSizeT x) = x := by
  unfold intMin intMax at *
  unfold toInt32 toSizeT
  rw [Int.bmod_def]
  split <;> omega

theorem length_le_encode {b : Block} {fields : List (Nat × Proto3.Value)}
    (h : (3, Proto3.Value.bytes b) ∈ fields) : b.length ≤ (Proto3.encode fields).length := by
  obtain ⟨pre, post, rfl⟩ := List.append_of_mem h
  simp only [Proto3.encode, Proto3.encodeField, List.flatMap_append, List.flatMap_cons,
    List.length_append]
  omega

theorem fields_fit (h : bytes.length < 2 ^ 64) :
    ∀ f ∈ msg.fields bytes, f.1 < 2 ^ 32 ∧ f.2.Fits := by
  have hbits : ∀ x, toSizeT x < 2 ^ 64 := by
    intro x
    unfold toSizeT
    omega
  unfold MessageT.fields
  simp only [List.forall_mem_append]
  refine ⟨⟨?_, ?_⟩, ?_⟩
  · split
    · exact fun _ hf => absurd hf List.not_mem_nil
    · exact List.forall_mem_singleton.mpr ⟨show 1 < 2 ^ 32 by decide, hbits msg.opcode⟩
  · split
    · exact fun _ hf => absurd hf List.not_mem_nil
    · exact List.forall_mem_singleton.mpr ⟨show 2 < 2 ^ 32 by decide, hbits msg.cType⟩
  · split
    · exact fun _ hf => absurd hf List.not_mem_nil
    · exact List.forall_mem_singleton.mpr ⟨show 3 < 2 ^ 32 by decide, h⟩

/-- The fields make the message. -/
theorem setField_fields (h : msg.Enums) :
    (msg.fields bytes).foldlM MessageT.setField messageInit = some (msg.carrying bytes) := by
  obtain ⟨⟨hlo, hhi⟩, hlo', hhi'⟩ := h
  have hop := toInt32_toSizeT hlo hhi
  have htype := toInt32_toSizeT hlo' hhi'
  unfold MessageT.fields
  by_cases h₁ : msg.opcode = opBad <;> by_cases h₂ : msg.cType = ctBad <;> by_cases h₃ : bytes = []
  all_goals simp [h₁, h₂, h₃, MessageT.setField, messageInit, MessageT.carrying, hop, htype]

/-- **The messages of `sdmessage.proto` survive proto3.** -/
theorem proto3Message_roundTrips : proto3Message.RoundTrips where
  packs := by
    intro msg bytes h
    exact ⟨_, by simp only [proto3Message, h]; rfl⟩
  size := by
    intro msg body h
    obtain ⟨bytes, hsent, h⟩ := bind_eq_ok.mp h
    obtain rfl := Except.ok.inj h
    simp only [proto3Message, hsent]
  unpack := by
    intro msg body bytes henums hpack hmax hsent
    obtain ⟨bytes', hsent', hpack⟩ := bind_eq_ok.mp hpack
    obtain rfl := Except.ok.inj (hsent.symm.trans hsent')
    obtain rfl := Except.ok.inj hpack
    have hfits : bytes.length < 2 ^ 64 := by
      by_cases hnil : bytes = []
      · rw [hnil]
        decide
      · have hle : bytes.length ≤ (Proto3.encode (msg.fields bytes)).length :=
          length_le_encode (by simp [MessageT.fields, hnil])
        unfold intMax at hmax
        omega
    simp only [proto3Message, Proto3.decode_encode (fields_fit hfits), Option.bind_some]
    exact setField_fields henums

end Proto

/-! ## A message on its way -/

/-- The calls do not fail, and the one on the header moves all of it. -/
structure Calls.Whole (calls : Calls) : Prop extends calls.Moves where
  whole : calls.headerSize = unsignedSize

/-- These bytes are the message as `write_all` sends it. -/
def Frame (pb : Protobuf) (msg : MessageT) (bytes : List UInt8) : Prop :=
  ∃ body, pb.pack msg = .ok body ∧ (body.length : Int) ≤ intMax ∧ bytes = htonl body.length ++ body

section Frame
variable {pb : Protobuf} {calls : Calls} {msg : MessageT}

/-- **What is sent is the message**, when sending does not fail. -/
theorem packAndWrite_frame (hpb : pb.RoundTrips) (hc : calls.Whole) {sendBlock : Bool}
    {junk : Nat → UInt8} {code : Int} {out : List UInt8}
    (h : packAndWrite pb sendBlock junk calls msg = .ok (code, out)) (hcode : code ≠ -1) :
    Frame pb msg out := by
  simp only [packAndWrite] at h
  split at h
  · exact absurd (Prod.mk.inj (Except.ok.inj h)).1.symm hcode
  · rename_i buf hbuf
    obtain ⟨body, hpack, h⟩ := bind_eq_ok.mp h
    obtain ⟨buf', hstore, h⟩ := bind_eq_ok.mp h
    have hsize := hpb.size hpack
    -- the block is as long as the length says, and the message fits into it
    obtain ⟨hnonneg, hlen⟩ : 0 ≤ toInt32 (pb.packedSize msg) ∧
        (buf.length : Int) = toInt32 (pb.packedSize msg) := by
      cases sendBlock with
      | false => cases hbuf
      | true =>
        rw [if_pos rfl] at hbuf
        unfold malloc at hbuf
        split at hbuf
        · cases hbuf
        · obtain rfl := Option.some.inj hbuf
          refine ⟨by omega, ?_⟩
          rw [List.length_map, List.length_range]
          omega
    have hrange := toInt32_range (pb.packedSize msg)
    have hfits : body.length ≤ buf.length := by
      unfold store at hstore
      split at hstore
      · omega
      · cases hstore
    have hmax : (body.length : Int) ≤ intMax := by omega
    have hint : toInt32 (pb.packedSize msg) = body.length := by
      rw [← hsize]
      exact toInt32_of_nonneg (by omega) hmax
    have hall : buf' = body := by
      rw [store_front buf body hfits] at hstore
      obtain rfl := Except.ok.inj hstore
      rw [List.drop_eq_nil_of_le (by omega), List.append_nil]
    rw [hint, hall, writeAll_eq hc.toMoves hmax, hc.whole] at h
    obtain ⟨-, rfl⟩ := Prod.mk.inj (Except.ok.inj h)
    exact ⟨body, hpack, hmax, rfl⟩

/-- A message whose length is an `int` is sent, when there is a block for it. -/
theorem packAndWrite_ok (hpb : pb.RoundTrips) (hc : calls.Whole) (junk : Nat → UInt8) {bytes : Block}
    (hsent : msg.buffer.sent = .ok bytes) (hmax : (pb.packedSize msg : Int) ≤ intMax) :
    ∃ code out, packAndWrite pb true junk calls msg = .ok (code, out) ∧ code ≠ -1 := by
  obtain ⟨body, hpack⟩ := hpb.packs hsent
  have hsize := hpb.size hpack
  have hint : toInt32 (pb.packedSize msg) = body.length := by
    rw [← hsize]
    exact toInt32_of_nonneg (by omega) (by omega)
  obtain ⟨buf, hbuf, hstore⟩ := malloc_store junk (b := body) rfl
  have hwrite := writeAll_eq hc.toMoves (show (body.length : Int) ≤ intMax by omega)
  refine ⟨body.length, (htonl body.length).take calls.headerSize ++ body, ?_, by omega⟩
  rw [packAndWrite, if_pos rfl, hint, hbuf]
  simp only [hpack, ok_bind, hstore, hwrite]

/-- **What is received is the message that was sent**, and nothing of what follows it is
touched. -/
theorem Frame.received {bytes : List UInt8} (hf : Frame pb msg bytes) (hpb : pb.RoundTrips)
    (hc : calls.Whole) (junk : Nat → Nat → UInt8) (rest : List UInt8) (tail : Tail) (henums : msg.Enums) {b : Block}
    (hsent : msg.buffer.sent = .ok b) :
    readAndUnpack pb calls (.granted junk) ⟨bytes ++ rest, tail⟩ =
      .ok (some (msg.carrying b), ⟨rest, tail⟩) := by
  obtain ⟨body, hpack, hmax, rfl⟩ := hf
  have hslice := slice_append [] body []
  rw [List.nil_append, List.append_nil, List.length_nil] at hslice
  rw [readAndUnpack, readAll_eq hc.toMoves hc.whole hmax junk, ok_bind]
  simp only [show (body.length : Int) ≠ -1 by omega, if_false, Option.getD_some]
  rw [show slice body 0 body.length = .ok body from hslice, ok_bind, pure_eq_ok,
    hpb.unpack henums hpack hmax hsent]

/-- Where nothing has been sent, nobody comes back from `read_all`. -/
theorem readAndUnpack_silent (hc : calls.Whole) (junk : Nat → Nat → UInt8) :
    readAndUnpack pb calls (.granted junk) ⟨[], .silent⟩ = .error .diverges := by
  obtain ⟨k, hk⟩ := hc.header_eq
  have hread : Incoming.read ⟨[], .silent⟩ calls.header unsignedSize = .error .diverges := by
    rw [hk, Incoming.read, if_neg (by decide), if_neg (by decide)]
    rfl
  obtain ⟨tmp, htmp⟩ : ∃ tmp, malloc (junk 0) unsignedSize = some tmp :=
    ⟨_, malloc_of_nonneg _ (by decide)⟩
  rw [readAndUnpack, readAll, Blocks.granted, if_pos rfl, htmp, deref_some, ok_bind, hread, error_bind,
    error_bind]

end Frame
end RemoteTable
