import RemoteTable.DispatchThreads
import RemoteTable.PrintedTable
import RemoteTable.ReplyValues
import RemoteTable.ServerRuns
import RemoteTable.StubCalls

/-! # What the calls answer

The map that the history of the calls prescribes is the one of the table functions; `print`
adds its texts.  A reply does not carry all of it: `MapAnswer.seen` is what a client gets,
and `MapAnswer.seen_eq_whole_iff` says when that is the whole answer.

`Gives` ties a reply of the server to the result of the call, whatever the stub's blocks held.
`Tracks.call` is the step of the refinement: a request that the server handles gives what the
history prescribes.
-/
namespace RemoteTable
open CMem

/-! ## What is prescribed -/

/-- The calls that are for a table function. -/
def tableCalls (hist : List RemoteOp) : List TableOp :=
  hist.filterMap fun
    | .table op => some op
    | .print => none

/-- The text of a list with these keys. -/
def keysText (hist : List TableOp) (ks : List Key) : List UInt8 :=
  if ks = [] then []
  else [32].intercalate (ks.map fun k => k.str ++ [45, 62] ++ (latest hist k).getD []) ++ [10]

/-- The answer of the map: that of a table function, or the text of each list. -/
inductive MapAnswer
  | table (r : TableAnswer)
  | texts (ts : List (List UInt8))

/-- The answer the history prescribes, the most recent call first.  The texts show the present
keys, list by list. -/
def RemoteOp.Prescribed (hist : List RemoteOp) (r : MapAnswer) : RemoteOp → Prop
  | table op => ∃ a, Answers (tableCalls hist) op a ∧ r = .table a
  | print => ∃ lists : List (List Key), Listing (tableCalls hist) lists.flatten ∧
      r = .texts (lists.map (keysText (tableCalls hist)))

namespace MapAnswer

/-- The whole answer. -/
def whole : MapAnswer → RemoteAnswer
  | table (.code c) => .code c
  | table (.value v) => .value v
  | table (.size n) => .size n
  | table (.keys ks) => .keys (ks.map cstr)
  | texts ts => .text ts.flatten

/-- What the reply leaves of it: the lowest byte of a size, and of the text of a list what
comes before its first NUL. -/
def seen : MapAnswer → RemoteAnswer
  | table (.code c) => .code c
  | table (.value v) => .value v
  | table (.size n) => .size (n % 256)
  | table (.keys ks) => .keys (ks.map cstr)
  | texts ts => .text (ts.flatMap cstr)

/-- A size of one byte, and texts without a NUL in them. -/
def Survives : MapAnswer → Prop
  | table (.size n) => 0 ≤ n ∧ n < 256
  | table (.code _) | table (.value _) | table (.keys _) => True
  | texts ts => ∀ t ∈ ts, (0 : UInt8) ∉ t

/-- **The client sees the whole answer exactly when the reply can carry it.** -/
theorem seen_eq_whole_iff (r : MapAnswer) : r.seen = r.whole ↔ r.Survives := by
  match r with
  | table (.code _) | table (.value _) | table (.keys _) => exact iff_of_true rfl trivial
  | table (.size n) =>
    rw [seen, whole, Survives, RemoteAnswer.size.injEq]
    omega
  | texts ts =>
    rw [seen, whole, Survives, RemoteAnswer.text.injEq]
    exact flatMap_cstr_eq_iff

end MapAnswer

/-- The arguments that survive the wire: short ASCII keys and values of at most 127 bytes for
`rtable_put`, and keys whose hash is an index of the table. -/
def RemoteOp.Sendable (n : Int) : RemoteOp → Prop
  | table (.put k value) =>
    (∀ c ∈ k.str, c.toNat < 128) ∧ k.str.length ≤ 126 ∧ value.Valid ∧ value.datasize ≤ 127
  | table (.get k) | table (.del k) => InRange n k.block
  | table .size | table .getKeys | print => True

/-! ## The request on its way -/

/-- The message that reaches the server. -/
def RemoteOp.message : RemoteOp → MessageT
  | table (.put k value) =>
    ⟨opPut, ctEntry, ⟨(wireEntry k.str value).length, some (wireEntry k.str value)⟩⟩
  | table (.get k) => ⟨opGet, ctKey, ⟨k.block.length, some k.block⟩⟩
  | table (.del k) => ⟨opDel, ctKey, ⟨k.block.length, some k.block⟩⟩
  | table .size => ⟨opSize, ctNone, ⟨0, none⟩⟩
  | table .getKeys => ⟨opGetKeys, ctNone, ⟨0, none⟩⟩
  | print => ⟨opPrint, ctNone, ⟨0, none⟩⟩

theorem Key.strlen_block (k : Key) : strlen k.block = .ok k.str.length := strlen_append_nul k.noNul []

theorem length_wireEntry {key : List UInt8} {d : DataT} (hd : d.Readable) :
    ((wireEntry key d).length : Int) = 2 * sizeofInt + (key.length + 1) + d.datasize := by
  have := hd.length_bytes
  simp only [wireEntry, List.length_append, List.length_cons, List.length_nil, sizeofInt]
  omega

/-- The `PUT` of a call is one a client builds. -/
theorem builtPut {n : Int} {k : Key} {value : DataT} (h : (RemoteOp.table (.put k value)).Sendable n) :
    BuiltPut (RemoteOp.table (.put k value)).message ⟨k.block, some value⟩ value := by
  obtain ⟨hascii, hshort, hvalid, hsmall⟩ := h
  have hkey : EntryT.keyStr ⟨k.block, some value⟩ = k.str := k.cstr_block
  have hterm : Terminated k.block := terminated_append_nul _ _
  have henc := entryToBuffer_eq (e := ⟨k.block, some value⟩) (fun _ => 0) hterm rfl hvalid.readable
    (by rw [hkey]; unfold sizeofInt intMax; omega)
  rw [hkey, ← length_wireEntry hvalid.readable] at henc
  have hlen : ((wireEntry k.str value).length : Int) = 2 * sizeofInt + (k.str.length + 1) + value.datasize :=
        length_wireEntry hvalid.readable
  have hsize := toSizeT_natCast (n := (wireEntry k.str value).length) rfl
    (by rw [hlen]; unfold sizeofInt intMax; omega)
  refine ⟨rfl, hterm, ?_, by rwa [hkey], rfl, hvalid.readable, hsmall, fun _ => 0, _, _, henc, ?_⟩
  · rw [hkey]
    exact fun c hc => ⟨fun h0 => k.noNul (h0 ▸ hc), hascii c hc⟩
  · rw [hsize]
    rfl

/-- **The request that a function of the stub builds.** -/
theorem RemoteOp.request_eq {n : Int} {op : RemoteOp} (h : op.Sendable n) (junk : Nat → UInt8) :
    op.request junk = .ok op.message := by
  match op, h with
  | .table (.put k value), ⟨_, hshort, hvalid, hsmall⟩ =>
    have hkey : EntryT.keyStr ⟨k.block, some value⟩ = k.str := k.cstr_block
    have henc := entryToBuffer_eq (e := ⟨k.block, some value⟩) junk (terminated_append_nul _ _) rfl
      hvalid.readable (by rw [hkey]; unfold sizeofInt intMax; omega)
    have hlen : ((wireEntry k.str value).length : Int) = 2 * sizeofInt + (k.str.length + 1) + value.datasize :=
        length_wireEntry hvalid.readable
    rw [hkey, ← hlen] at henc
    have hsize := toSizeT_natCast (n := (wireEntry k.str value).length) rfl
      (by rw [hlen]; unfold sizeofInt intMax; omega)
    simp only [request, rtablePutRequest, henc, ok_bind, hsize, pure_eq_ok, message]
  | .table (.get k), _ | .table (.del k), _ =>
    have hlen : k.block.length = k.str.length + 1 := by simp [Key.block]
    simp only [request, rtableGetRequest, rtableDelRequest, keyedRequest, k.strlen_block, ok_bind,
      pure_eq_ok, message, hlen]
  | .table .size, _ | .table .getKeys, _ | .print, _ => rfl

/-- The bytes of its buffer. -/
def RemoteOp.bytes (op : RemoteOp) : Block := op.message.buffer.data.getD []

/-- **It arrives as it was sent.** -/
theorem RemoteOp.message_sent (op : RemoteOp) :
    op.message.buffer.sent = .ok op.bytes ∧ op.message.carrying op.bytes = op.message := by
  match op with
  | .table (.put k value) =>
    have hne : wireEntry k.str value ≠ [] := List.cons_ne_nil _ _
    exact ⟨sent_all _, by simp [bytes, MessageT.carrying, message, hne]⟩
  | .table (.get k) | .table (.del k) =>
    have hne : k.block ≠ [] := by simp [Key.block]
    exact ⟨sent_all _, by simp [bytes, MessageT.carrying, message, hne]⟩
  | .table .size | .table .getKeys | .print => exact ⟨rfl, rfl⟩

theorem enums_mk {opcode cType : Int} {buffer : BinaryData}
    (h : (intMin ≤ opcode ∧ opcode ≤ intMax) ∧ intMin ≤ cType ∧ cType ≤ intMax) :
    MessageT.Enums ⟨opcode, cType, buffer⟩ := h

theorem RemoteOp.message_enums (op : RemoteOp) : op.message.Enums := by
  match op with
  | .table (.put k value) | .table (.get k) | .table (.del k) | .table .size | .table .getKeys | .print =>
    exact enums_mk (by decide)

/-- It is a request that is counted. -/
theorem RemoteOp.message_counted (op : RemoteOp) :
    op.message.opcode ∈ [opSize, opDel, opGet, opPut, opGetKeys, opPrint] := by
  match op with
  | .table (.put k value) | .table (.get k) | .table (.del k) | .table .size | .table .getKeys | .print =>
    simp only [message]
    decide

/-! ## The reply on its way back -/

/-- The reply can be sent, and from it the call has this result. -/
structure Gives (reply : MessageT) (op : RemoteOp) (a : RemoteAnswer) : Prop where
  enums : reply.Enums
  result : ∃ bytes, reply.buffer.sent = .ok bytes ∧
    ∀ junk, op.answer junk (some (reply.carrying bytes)) = .ok a

/-- The strings an array of pointers is read as. -/
theorem readKeys_of_pointsTo {keys : Option Block} {result : Slots (Option Nat)}
    {strs : List (List UInt8)} (h : PointsTo keys result strs) : readKeys keys result = .ok strs := by
  obtain ⟨ptrs, rfl, hstr⟩ := h
  induction ptrs generalizing strs with
  | nil =>
    obtain rfl : strs = [] := List.map_eq_nil_iff.mp hstr.symm
    rfl
  | cons p ptrs ih =>
    cases strs with
    | nil => cases hstr
    | cons s strs =>
      obtain ⟨hp, hrest⟩ := List.cons.inj hstr
      change readKeys keys (some (some p) :: (ptrs.map (fun p => some (some p)) ++ [some none])) = _
      rw [readKeys, hp, ok_bind, ih hrest, ok_bind, pure_eq_ok]

section Replies
variable {env : Env} {t t' : TableT} {buckets : Buckets} {msg reply : MessageT}

theorem invokeSize_gives (hs : Shape t buckets) (hop : msg.opcode = opSize)
    (h : invokeSize env t msg = .ok reply) :
    Gives reply (.table .size) (.size ((entries buckets).length % 256)) := by
  by_cases hle : ((entries buckets).length : Int) ≤ intMax
  · obtain rfl := Except.ok.inj ((invokeSize_eq hs hle).symm.trans h)
    rw [hop]
    refine ⟨enums_mk (by decide), _, sent_all (wireSize (env.junk 0) (entries buckets).length),
      fun junk => ?_⟩
    have hbyte : (((toByte (entries buckets).length).toNat : Nat) : Int) =
        (entries buckets).length % 256 := toNat_toByte _
    simp only [RemoteOp.answer, rtableSize, MessageT.carrying, wireSize, List.cons_ne_nil, if_false,
      deref_some, ok_bind, load, List.getElem?_cons_zero, pure_eq_ok, hbyte]
  · rw [invokeSize_overflow hs hle] at h
    cases h

theorem invokeGetKeys_gives (hs : Shape t buckets) (hop : msg.opcode = opGetKeys)
    (h : invokeGetKeys env t msg = .ok reply) :
    Gives reply (.table .getKeys) (.keys ((entries buckets).map EntryT.keyStr)) := by
  by_cases hlt : ((entries buckets).length : Int) < intMax
  · obtain rfl := Except.ok.inj ((invokeGetKeys_eq hs hlt).symm.trans h)
    rw [hop]
    refine ⟨enums_mk (by decide), _, sent_all (keyWire (entries buckets)), fun junk => ?_⟩
    have hbuf : (MessageT.carrying ⟨opGetKeys + 1, ctKeys,
        ⟨(keyWire (entries buckets)).length, some (keyWire (entries buckets))⟩⟩
        (keyWire (entries buckets))).buffer = ⟨(keyWire (entries buckets)).length,
          if keyWire (entries buckets) = [] then none else some (keyWire (entries buckets))⟩ := rfl
    obtain ⟨keys, result, hrun, hpoints⟩ := rtableGetKeys_eq (entries buckets) hlt hbuf
    simp only [RemoteOp.answer, hrun, ok_bind, deref_some, readKeys_of_pointsTo hpoints, pure_eq_ok]
  · rw [invokeGetKeys_overflow hs hlt] at h
    cases h

theorem invokePrint_gives (hs : Shape t buckets) (hv : EntriesValid buckets) (hn : 1 ≤ t.n)
    (hop : msg.opcode = opPrint) (h : invokePrint env t msg = .ok reply) :
    Gives reply .print (.text (printedTable buckets)) := by
  obtain rfl := Except.ok.inj ((invokePrint_eq hs hv hn).symm.trans h)
  have hsent := (tableString_terminated buckets).strdup
  rw [strdup, (tableString_terminated buckets).strlen, ok_bind, cstr_tableString] at hsent
  rw [hop]
  refine ⟨enums_mk (by decide), printedTable buckets ++ [0], hsent, fun junk => ?_⟩
  have hne : printedTable buckets ++ [0] ≠ [] := by simp
  have hlen := strlen_append_nul (printedTable_no_nul buckets) []
  have hslice := slice_append [] (printedTable buckets) [0]
  simp only [List.nil_append, List.length_nil] at hslice
  simp only [RemoteOp.answer, rtablePrint, MessageT.carrying, deref_some, ok_bind, if_neg hne, hlen]
  rw [show slice (printedTable buckets ++ [0]) 0 (printedTable buckets).length = _ from hslice]
  rfl

/-- The reply to a `GET` of a key that is absent. -/
theorem invokeGet_gives_none {k : Key} (hkey : msg.buffer.data = some k.block)
    (hget : ∀ junk, tableGet junk t k.block = .ok none) (h : invokeGet env t msg = .ok reply) :
    Gives reply (.table (.get k)) (.value none) := by
  obtain rfl := Except.ok.inj ((invokeGet_absent hkey (hget _)).symm.trans h)
  exact ⟨enums_mk (by decide), [], rfl, fun junk => rfl⟩

/-- The reply to a `GET` of a key with a value that survives the wire. -/
theorem invokeGet_gives {k : Key} {bs : Block} (hop : msg.opcode = opGet)
    (hkey : msg.buffer.data = some k.block) (hbs : (DataT.ofBytes bs).Valid)
    (hsmall : (bs.length : Int) ≤ 127)
    (hget : ∀ junk, tableGet junk t k.block = .ok (some (DataT.ofBytes bs)))
    (h : invokeGet env t msg = .ok reply) :
    Gives reply (.table (.get k)) (.value (some (DataT.ofBytes bs))) := by
  have hsize : (DataT.ofBytes bs).datasize ≤ 127 := hsmall
  have hfit : sizeofInt + (DataT.ofBytes bs).datasize ≤ intMax := by
    unfold sizeofInt intMax
    omega
  obtain rfl := Except.ok.inj ((invokeGet_present hkey hbs.readable (hget _) hfit).symm.trans h)
  rw [hop]
  refine ⟨enums_mk (by decide), _, sent_all (wireData (env.junk 1) (DataT.ofBytes bs)),
    fun junk => ?_⟩
  have hlen := length_wireData (env.junk 1) hbs.readable
  have hpos := hbs.size_pos
  obtain ⟨hlayout, hvalue, hfield⟩ := wireData_layout (env.junk 1) hbs.readable hsize
  have hne : wireData (env.junk 1) (DataT.ofBytes bs) ≠ [] := List.cons_ne_nil _ _
  have hint : toInt32 (wireData (env.junk 1) (DataT.ofBytes bs)).length ≠ -1 := by
    rw [hlen, toInt32_of_nonneg (by omega) hfit]
    omega
  have hok : opGet + 1 ≠ opError := by decide
  have hdata : dataCreate2 (DataT.ofBytes bs).datasize (some bs) = some (DataT.ofBytes bs) := by
    rw [dataCreate2, if_neg (by simp only [reduceCtorEq, or_false]; omega)]
    rfl
  simp only [RemoteOp.answer, rtableGet, MessageT.carrying, if_neg hok, if_neg hne,
    bufferToData_layout junk hlayout hint, hvalue, hfield, DataT.bytes_ofBytes, hdata, ok_bind,
    pure_eq_ok]

/-- The replies to `DEL` and `PUT`. -/
theorem bareReply_gives {op : RemoteOp} {c opcode : Int} (hc : c = 0 ∨ c = -1)
    (hok : 0 ≤ opcode ∧ opcode < opError) (hop : ∀ junk resp, op.answer junk (some resp) =
      .ok (.code (if resp.opcode = opError then -1 else 0))) :
    Gives ⟨if c = -1 then opError else opcode, ctNone, ⟨0, none⟩⟩ op (.code c) := by
  rcases hc with rfl | rfl
  · rw [if_neg (by decide)]
    have hrange : intMin ≤ opcode ∧ opcode ≤ intMax := by
      unfold opError at hok
      unfold intMin intMax
      omega
    refine ⟨enums_mk ⟨hrange, by decide⟩, [], rfl, fun junk => ?_⟩
    simp [hop, MessageT.carrying, Int.ne_of_lt hok.2]
  · rw [if_pos rfl]
    refine ⟨enums_mk (by decide), [], rfl, fun junk => ?_⟩
    simp [hop, MessageT.carrying]

end Replies

/-! ## One call -/

/-- The values in the history survive the wire. -/
theorem latest_small {n : Int} {hist : List RemoteOp} (h : ∀ op ∈ hist, op.Sendable n) {k : Key}
    {bs : Block} (hk : latest (tableCalls hist) k = some bs) : (bs.length : Int) ≤ 127 := by
  induction hist with
  | nil => cases hk
  | cons op hist ih =>
    obtain ⟨hop, hrest⟩ := List.forall_mem_cons.mp h
    match op, hop with
    | .print, _ | .table (.get _), _ | .table .size, _ | .table .getKeys, _ => exact ih hrest hk
    | .table (.put k' value), ⟨_, _, hvalid, hsmall⟩ =>
      have hstep : latest (.put k' value :: tableCalls hist) k = some bs := hk
      rw [latest] at hstep
      split at hstep
      · obtain rfl := Option.some.inj hstep
        rw [hvalid.length_bytes]
        exact hsmall
      · exact ih hrest hstep
    | .table (.del k'), _ =>
      have hstep : latest (.del k' :: tableCalls hist) k = some bs := hk
      rw [latest] at hstep
      split at hstep
      · cases hstep
      · exact ih hrest hstep

section Call
variable {t t' : TableT} {buckets : Buckets} {hist : List RemoteOp} {reply : MessageT}

/-- A longer history in which every key keeps its value. -/
theorem Tracks.congr {hist hist' : List TableOp} (ht : Tracks t buckets hist)
    (h : ∀ k, latest hist' k = latest hist k) : Tracks t buckets hist' :=
  ⟨ht.sound, fun k bs => by rw [h]; exact ht.content k bs⟩

/-- A table function that has returned has met its condition. -/
theorem Tracks.step_of_ok {hist : List TableOp} (ht : Tracks t buckets hist) {junk : Nat → UInt8}
    {op : TableOp} (hop : Admissible t.n op) {r : TableAnswer} (h : tableStep junk t op = .ok (r, t')) :
    Answers hist op r ∧ ∃ buckets', t'.n = t.n ∧ Tracks t' buckets' (op :: hist) := by
  by_cases hm : StepMeets hist t op
  · obtain ⟨r', t₁, buckets', hstep, hans, hn, ht'⟩ := ht.step junk hop hm
    obtain ⟨rfl, rfl⟩ := Prod.mk.inj (Except.ok.inj (hstep.symm.trans h))
    exact ⟨hans, buckets', hn, ht'⟩
  · obtain ⟨f, hf⟩ := ht.step_fault junk hop hm
    rw [hf] at h
    cases h

/-- The text of a list is that of its keys. -/
theorem Tracks.listText {hist : List TableOp} (ht : Tracks t buckets hist) {b : Nodes}
    (hb : b ∈ buckets) : listText b = keysText hist (b.map fun x => x.2.toKey) := by
  rw [RemoteTable.listText, keysText]
  by_cases hnil : b = []
  · simp [hnil]
  · rw [if_neg hnil, if_neg (by simpa using hnil), List.map_map]
    congr 2
    refine List.map_congr_left fun x hx => ?_
    have hmem : x.2 ∈ entries buckets :=
      List.mem_map.mpr ⟨x, List.mem_flatten.mpr ⟨b, hb, hx⟩, rfl⟩
    obtain ⟨bs, -, hval⟩ := ht.sound.stored x.2 hmem
    have hlatest : latest hist x.2.toKey = some bs := (ht.content _ bs).mpr ⟨x.2, hmem, rfl, hval⟩
    have hbytes : x.2.bytes = bs := by simp [EntryT.bytes, hval]
    rw [entryText, hbytes, Function.comp_apply, hlatest]
    rfl

/-- The printed table is what the texts of the keys, list by list, leave as strings. -/
theorem Tracks.printed {hist : List TableOp} (ht : Tracks t buckets hist) :
    printedTable buckets =
      ((buckets.map fun b => b.map fun x => x.2.toKey).map (keysText hist)).flatMap cstr := by
  rw [printedTable_eq, List.map_map]
  exact congrArg (List.flatMap cstr) (List.map_congr_left fun b hb => ht.listText hb)

/-- The keys of the lists are those of the entries. -/
theorem flatten_toKey (buckets : Buckets) :
    (buckets.map fun b => b.map fun x => x.2.toKey).flatten = (entries buckets).map EntryT.toKey := by
  simp [entries, List.map_flatten, Function.comp_def]

/-- **A request that the server handles gives what the history prescribes**, and the table
holds what the longer history prescribes. -/
theorem Tracks.call (ht : Tracks t buckets (tableCalls hist)) (hn : 1 ≤ t.n)
    (hhist : ∀ op ∈ hist, op.Sendable t.n) {op : RemoteOp} (hop : op.Sendable t.n) {q : Request}
    (hq : q.msg = op.message) (h : q.tableSection t = .ok (t', reply)) :
    ∃ r buckets', op.Prescribed hist r ∧ Gives reply op r.seen ∧ t'.n = t.n ∧
      Tracks t' buckets' (tableCalls (op :: hist)) := by
  have hs := ht.sound.rep.shape
  have hdisp := q.dispatch_eq ⟨t, ⟨0, 0, Vector.replicate 6 0⟩⟩
  rw [h, ok_bind] at hdisp
  -- a request that reads leaves the table as it is
  have hread : ∀ {x : Exec MessageT}, (do let reply ← x; return some ((⟨t, ⟨0, 0,
      Vector.replicate 6 0⟩⟩ : Server), reply)) = .ok (some (⟨t', ⟨0, 0, Vector.replicate 6 0⟩⟩, reply)) →
      x = .ok reply ∧ t' = t := by
    intro x hx
    obtain ⟨r, hr, hx⟩ := bind_eq_ok.mp hx
    obtain ⟨hsrv, rfl⟩ := Prod.mk.inj (Option.some.inj (Except.ok.inj hx))
    exact ⟨hr, (congrArg Server.gTable hsrv).symm⟩
  have hwrite : ∀ {x : Exec (TableT × MessageT)}, (do let r ← x; return some ((⟨r.1, ⟨0, 0,
      Vector.replicate 6 0⟩⟩ : Server), r.2)) = .ok (some (⟨t', ⟨0, 0, Vector.replicate 6 0⟩⟩, reply)) →
      x = .ok (t', reply) := by
    rintro x hx
    obtain ⟨⟨t₁, r⟩, hr, hx⟩ := bind_eq_ok.mp hx
    obtain ⟨hsrv, rfl⟩ := Prod.mk.inj (Option.some.inj (Except.ok.inj hx))
    obtain rfl := congrArg Server.gTable hsrv
    exact hr
  match op, hop with
  | .table (.put k value), hop =>
    have hput := hwrite ((dispatch_put (congrArg MessageT.opcode hq)).symm.trans hdisp)
    have hbuilt := builtPut hop
    have hkey : EntryT.toKey ⟨k.block, some value⟩ = k := Key.ext_str k.cstr_block
    have hpos := hop.2.2.1.size_pos
    have hdec := hbuilt.decoded (q.env.junk 0)
    rw [hkey, if_neg (by omega)] at hdec
    rw [hq, invokePut, hdec, ok_bind, deref_some, ok_bind] at hput
    obtain ⟨⟨c, t₁⟩, htable, hput⟩ := bind_eq_ok.mp hput
    obtain ⟨rfl, rfl⟩ := Prod.mk.inj (Except.ok.inj hput)
    have hrange := hbuilt.inRange hn
    rw [hkey] at hrange
    have hstep : tableStep (q.env.junk 1) t (.put k (.ofBytes value.bytes)) = .ok (.code c, t₁) := by
      simp only [tableStep, htable, ok_bind, pure_eq_ok]
    have hadm : Admissible t.n (.put k (.ofBytes value.bytes)) := ⟨hrange, hop.2.2.1.ofBytes⟩
    obtain ⟨hans, buckets', hn', ht'⟩ := ht.step_of_ok hadm hstep
    obtain rfl : c = 0 := TableAnswer.code.inj hans
    refine ⟨.table (.code 0), buckets', ⟨.code 0, rfl, rfl⟩, bareReply_gives (Or.inl rfl)
      (show 0 ≤ opPut + 1 ∧ opPut + 1 < opError by decide) fun _ _ => rfl, hn', ht'.congr fun k' => ?_⟩
    change latest (.put k value :: tableCalls hist) k' = _
    simp [latest]
  | .table (.del k), hop =>
    have hdel := hwrite ((dispatch_del (congrArg MessageT.opcode hq)).symm.trans hdisp)
    rw [hq, invokeDel, RemoteOp.message, deref_some, ok_bind] at hdel
    obtain ⟨⟨c, t₁⟩, htable, hdel⟩ := bind_eq_ok.mp hdel
    obtain ⟨rfl, rfl⟩ := Prod.mk.inj (Except.ok.inj hdel)
    have hstep : tableStep (fun _ => 0) t (.del k) = .ok (.code c, t₁) := by
      simp only [tableStep, htable, ok_bind, pure_eq_ok]
    have hadm : Admissible t.n (.del k) := hop
    obtain ⟨hans, buckets', hn', ht'⟩ := ht.step_of_ok hadm hstep
    have hc : c = 0 ∨ c = -1 := by
      have hcode : c = if (latest (tableCalls hist) k).isSome then 0 else -1 := TableAnswer.code.inj hans
      split at hcode
      · exact Or.inl hcode
      · exact Or.inr hcode
    exact ⟨.table (.code c), buckets', ⟨.code c, hans, rfl⟩, bareReply_gives hc
      (show 0 ≤ opDel + 1 ∧ opDel + 1 < opError by decide) fun _ _ => rfl, hn', ht'⟩
  | .table (.get k), hop =>
    obtain ⟨hget, rfl⟩ := hread ((dispatch_get (congrArg MessageT.opcode hq)).symm.trans hdisp)
    obtain ⟨i, b, hl⟩ := InRange.located hs hop
    rw [hq] at hget
    refine ⟨.table (.value ((latest (tableCalls hist) k).map .ofBytes)), buckets, ⟨_, rfl, rfl⟩, ?_, rfl,
      ht.congr fun _ => rfl⟩
    cases hv : latest (tableCalls hist) k with
    | none =>
      exact invokeGet_gives_none rfl (fun junk => ht.sound.get_absent hl junk
        (by simpa using ht.latest_none hv)) hget
    | some bs =>
      have hholds : Holds buckets k.str bs := (ht.content k bs).mp hv
      obtain ⟨e, he, -, hval⟩ := hholds
      obtain ⟨cs, hcs, hval'⟩ := ht.sound.stored e he
      obtain rfl : bs = cs := ofBytes_inj (Option.some.inj (hval.symm.trans hval'))
      exact invokeGet_gives rfl rfl hcs (latest_small hhist hv) (fun junk => ht.sound.get hl junk
        (by simpa using (ht.content k bs).mp hv)) hget
  | .table .size, _ =>
    obtain ⟨hsize, rfl⟩ := hread ((dispatch_size (congrArg MessageT.opcode hq)).symm.trans hdisp)
    refine ⟨_, buckets, ⟨_, ⟨_, ht.listing, rfl⟩, rfl⟩, ?_, rfl, ht.congr fun _ => rfl⟩
    simpa [MapAnswer.seen] using invokeSize_gives hs (congrArg MessageT.opcode hq) hsize
  | .table .getKeys, _ =>
    obtain ⟨hkeys, rfl⟩ := hread ((dispatch_getKeys (congrArg MessageT.opcode hq)).symm.trans hdisp)
    refine ⟨_, buckets, ⟨_, ⟨_, ht.listing, rfl⟩, rfl⟩, ?_, rfl, ht.congr fun _ => rfl⟩
    simpa [MapAnswer.seen, Function.comp_def, EntryT.toKey] using
      invokeGetKeys_gives hs (congrArg MessageT.opcode hq) hkeys
  | .print, _ =>
    obtain ⟨hprint, rfl⟩ := hread ((dispatch_print (congrArg MessageT.opcode hq)).symm.trans hdisp)
    have hv : EntriesValid buckets := by
      intro e he
      obtain ⟨j, b, hb, x, hx, rfl⟩ := mem_entries.mp he
      obtain ⟨bs, hbs, hval⟩ := ht.sound.stored x.2 he
      exact ⟨hs.terminated b (List.mem_of_getElem? hb) x hx, _, hval, hbs⟩
    refine ⟨_, buckets, ⟨buckets.map fun b => b.map fun x => x.2.toKey, ?_, rfl⟩, ?_, rfl,
      ht.congr fun _ => rfl⟩
    · rw [flatten_toKey]
      exact ht.listing
    · rw [MapAnswer.seen, ← ht.printed]
      exact invokePrint_gives hs hv hn (congrArg MessageT.opcode hq) hprint

end Call

/-! ## Many calls -/

/-- Every result in the list is what a client sees of the one that the calls before it prescribe;
`hist` has those before the list. -/
def Legal {Tid : Type} : List RemoteOp → List (Tid × RemoteOp × RemoteAnswer) → Prop
  | _, [] => True
  | hist, (_, op, a) :: rest => (∃ r, op.Prescribed hist r ∧ a = r.seen) ∧ Legal (op :: hist) rest

/-- A request that is answered has run its table function. -/
theorem Request.tableSection_of_invoke (q : Request) {srv srv' : Server} {code : Int}
    {reply : MessageT} (h : invoke q.env srv q.msg = .ok (code, srv', reply)) :
    q.tableSection srv.gTable = .ok (srv'.gTable, reply) := by
  cases htable : q.tableSection srv.gTable with
  | error f =>
    rw [q.invoke_fault htable] at h
    cases h
  | ok r =>
    obtain ⟨t, r⟩ := r
    obtain ⟨stats, hrun⟩ := q.invoke_eq htable
    obtain ⟨-, rfl, rfl⟩ : (0 : Int) = code ∧ _ = srv' ∧ r = reply := by
      simpa using Except.ok.inj (hrun.symm.trans h)
    rfl

/-- **The calls of a log give what the history prescribes**, when their requests are handled
one after the other. -/
theorem Tracks.calls {Tid : Type} {n : Int} (hn : 1 ≤ n) {log : List (Tid × Request × MessageT)}
    {ops : List (Tid × RemoteOp)}
    (hm : List.Forall₂ (fun e o => e.1 = o.1 ∧ e.2.1.msg = o.2.message) log ops)
    (hops : ∀ o ∈ ops, o.2.Sendable n) {srv srv' : Server} {buckets : Buckets} {hist : List RemoteOp}
    (hsize : srv.gTable.n = n) (hhist : ∀ op ∈ hist, op.Sendable n)
    (ht : Tracks srv.gTable buckets (tableCalls hist))
    (h : serve srv (log.map fun e => e.2.1) = .ok (srv', log.map fun e => e.2.2)) :
    ∃ order : List (Tid × RemoteOp × RemoteAnswer), Legal hist order ∧
      order.map (fun o => (o.1, o.2.1)) = ops ∧
      List.Forall₂ (fun e o => Gives e.2.2 o.2.1 o.2.2) log order := by
  induction hm generalizing srv buckets hist with
  | nil => exact ⟨[], trivial, rfl, .nil⟩
  | @cons e o log ops hhead _ ih =>
    obtain ⟨i, q, reply⟩ := e
    obtain ⟨j, op⟩ := o
    obtain ⟨rfl, hmsg⟩ := hhead
    obtain ⟨hop, hrest⟩ := List.forall_mem_cons.mp hops
    obtain ⟨⟨code, srv₁, r⟩, hinv, h⟩ := bind_eq_ok.mp h
    obtain ⟨⟨srv₂, rs⟩, hserve, h⟩ := bind_eq_ok.mp h
    obtain ⟨rfl, hreplies⟩ := Prod.mk.inj (Except.ok.inj h)
    obtain ⟨rfl, rfl⟩ := List.cons.inj hreplies
    obtain ⟨r, buckets', hpre, hgives, hsize', ht'⟩ := ht.call (by omega) (by rwa [hsize])
      (by rwa [hsize]) hmsg (q.tableSection_of_invoke hinv)
    obtain ⟨order, hlegal, hlabels, hall⟩ := ih hrest (hsize'.trans hsize)
      (List.forall_mem_cons.mpr ⟨hop, hhist⟩) ht' hserve
    exact ⟨(i, op, r.seen) :: order, ⟨⟨r, hpre, rfl⟩, hlegal⟩, by simp [hlabels], .cons hgives hall⟩

end RemoteTable
