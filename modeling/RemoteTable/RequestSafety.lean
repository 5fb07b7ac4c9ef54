import RemoteTable.SkeletonSpec
import RemoteTable.TableMap

/-! # Which requests are handled safely

A request is handled safely when `invoke` runs into no fault at all, and a
malformed one is answered with `OP_ERROR`.  The source checks none of what a
client sends: a `GET` or `DEL` must carry a string, a `PUT` two sizes that fit its
buffer and a string for a key, and the hash of the key must be an index of the
table.  `Servable` is the exact condition.
-/
namespace RemoteTable
open CMem

/-! ## The table functions on any key -/

section Table
variable {t : TableT} {buckets : Buckets} {key : Block}

/-- Every table function starts by indexing the array with the hash. -/
theorem lookup_outOfRange {α : Type} (hs : Shape t buckets) (hk : ¬ InRange t.n key)
    (rest : Int → ListT → Exec α) :
    ∃ f, (do let index ← getHashIndex key t.n; let list ← t.listAt index; rest index list) =
      .error f := by
  cases hhash : getHashIndex key t.n with
  | error f => exact ⟨f, rfl⟩
  | ok index =>
    have hout : index < 0 ∨ (buckets.length : Int) ≤ index := by
      by_contra h
      exact hk ⟨index, hhash, by omega, by rw [hs.n_eq]; omega⟩
    exact ⟨_, by rw [ok_bind, hs.listAt_error hout, error_bind]⟩

/-- The bucket of a key either has no entry for it or splits at the first one. -/
theorem Located.cases {i : Nat} {b : Nodes} (hs : Shape t buckets) (hl : Located t buckets key i b) :
    (KeyAbsent t key ∧ ∀ x ∈ b, ¬ HasKey (cstr key) x) ∨
      (¬ KeyAbsent t key ∧ ∃ pre a e post, b = pre ++ (a, e) :: post ∧
        (∀ x ∈ pre, ¬ HasKey (cstr key) x) ∧ HasKey (cstr key) (a, e)) := by
  rcases absent_or_split (cstr key) b with habs | ⟨pre, a, e, post, rfl, hpre, hke⟩
  · exact Or.inl ⟨(hl.keyAbsent_iff hs).mpr habs, habs⟩
  · refine Or.inr ⟨fun h => ?_, pre, a, e, post, rfl, hpre, hke⟩
    exact (hl.keyAbsent_iff hs).mp h (a, e) (by simp) hke

/-- `table_get`: nothing for an absent key, a copy of a stored value for a present
one. -/
theorem tableGet_cases (hs : Shape t buckets) (hv : EntriesValid buckets) (hk : InRange t.n key) :
    (KeyAbsent t key ∧ ∀ junk, tableGet junk t key = .ok none) ∨
      (¬ KeyAbsent t key ∧ ∃ bs, (DataT.ofBytes bs).Valid ∧
        ∀ junk, tableGet junk t key = .ok (some (DataT.ofBytes bs))) := by
  obtain ⟨i, b, hl⟩ := hk.located hs
  rcases hl.cases hs with ⟨habs, hnone⟩ | ⟨hpres, pre, a, e, post, rfl, hpre, hke⟩
  · exact Or.inl ⟨habs, fun junk => tableGet_absent junk hs hl hnone⟩
  · obtain ⟨d, hd, hvalid⟩ := ((hv.nodes (List.mem_of_getElem? hl.bucket)) (a, e) (by simp)).value
    refine Or.inr ⟨hpres, d.bytes, hvalid.ofBytes, fun junk => ?_⟩
    rw [tableGet_present junk hs hl hpre hke]
    exact (congrArg (dataDup junk) hd).trans (dataDup_valid junk hvalid)

theorem tableDel_defined (hr : Rep t buckets) (hk : InRange t.n key) : Defined (tableDel t key) := by
  obtain ⟨i, b, hl⟩ := hk.located hr.shape
  rcases hl.cases hr.shape with ⟨-, hnone⟩ | ⟨-, pre, a, e, post, rfl, hpre, hke⟩
  · exact ⟨_, tableDel_absent hr.shape hl hnone⟩
  · obtain ⟨t', hdel, -, -⟩ := tableDel_present hr hl hpre hke
    exact ⟨_, hdel⟩

/-- `table_put` of a value that can be copied is defined unless it must append
behind a freed tail. -/
theorem tablePut_defined_iff (junk : Nat → UInt8) {value v : Option DataT}
    (hdup : dataDup junk value = .ok v) (hr : Rep t buckets) (hk : InRange t.n key) :
    Defined (tablePut junk t key value) ↔ ¬ (KeyAbsent t key ∧ StaleTail t key) := by
  obtain ⟨i, b, hl⟩ := hk.located hr.shape
  rcases hl.cases hr.shape with ⟨habs, hnone⟩ | ⟨hpres, pre, a, e, post, rfl, hpre, hke⟩
  · by_cases hstale : StaleTail t key
    · rw [tablePut_stale junk hdup hr.shape hl hnone hstale]
      simp [habs, hstale]
    · obtain ⟨t', hput, -, -⟩ := tablePut_new junk hdup hr hl hnone hstale
      rw [hput]
      simp [hstale]
  · obtain ⟨t', hput, -, -⟩ := tablePut_present junk hdup hr hl hpre hke
    rw [hput]
    simp [hpres]

/-- What `table_put` stored is what `table_get` copies. -/
theorem tablePut_get (junk : Nat → UInt8) {value v : Option DataT}
    (hdup : dataDup junk value = .ok v) (hr : Rep t buckets) (hk : InRange t.n key)
    (hlive : ¬ (KeyAbsent t key ∧ StaleTail t key)) :
    ∃ t', tablePut junk t key value = .ok (0, t') ∧
      ∀ junk', tableGet junk' t' key = dataDup junk' v := by
  obtain ⟨i, b, hl⟩ := hk.located hr.shape
  have hi := (List.getElem?_eq_some_iff.mp hl.bucket).1
  rcases hl.cases hr.shape with ⟨habs, hnone⟩ | ⟨hpres, pre, a, e, post, rfl, hpre, hke⟩
  · obtain ⟨t', hput, hr', hn⟩ := tablePut_new junk hdup hr hl hnone fun h => hlive ⟨habs, h⟩
    refine ⟨t', hput, fun junk' => ?_⟩
    have hnew : HasKey (cstr key) (t.heap.size, newEntry key v) := by simp [HasKey]
    exact tableGet_present junk' hr'.shape ⟨by rw [hn]; exact hl.hash, List.getElem?_set_self hi⟩
      hnone hnew
  · obtain ⟨t', hput, hr', hn⟩ := tablePut_present junk hdup hr hl hpre hke
    refine ⟨t', hput, fun junk' => ?_⟩
    exact tableGet_present junk' hr'.shape ⟨by rw [hn]; exact hl.hash, List.getElem?_set_self hi⟩
      hpre (e := { e with value := v }) hke

end Table

/-! ## The branches on any request -/

/-- The buffer starts with a string whose hash is an index of the table. -/
def KeyRequest (t : TableT) (buffer : BinaryData) : Prop :=
  ∃ key, buffer.data = some key ∧ InRange t.n key

/-- The buffer holds an entry that `buffer_to_entry` can take apart, and whose key
`table_put` can store: it is a string, its hash is an index of the table, and it is
present or does not have to go behind a freed tail. -/
structure PutPayload (t : TableT) (bytes : Block) : Prop where
  length : toInt32 bytes.length ≠ -1
  layout : EntryLayout bytes
  inRange : InRange t.n (keyField bytes)
  live : ¬ (KeyAbsent t (keyField bytes) ∧ StaleTail t (keyField bytes))

/-- The buffer holds such an entry. -/
def PutRequest (t : TableT) (buffer : BinaryData) : Prop :=
  ∃ bytes, buffer.data = some bytes ∧ PutPayload t bytes

section Branches
variable {env : Env} {t : TableT} {buckets : Buckets} {msg : MessageT}

theorem invokeDel_defined_iff (hr : Rep t buckets) :
    Defined (invokeDel t msg) ↔ KeyRequest t msg.buffer := by
  cases hdata : msg.buffer.data with
  | none => simp [invokeDel, KeyRequest, hdata]
  | some key =>
    have hkey : KeyRequest t msg.buffer ↔ InRange t.n key := by simp [KeyRequest, hdata]
    rw [hkey, invokeDel, hdata, deref_some, ok_bind]
    refine (defined_bind_iff (by rintro ⟨_, _⟩; exact defined_ok _)).trans ?_
    by_cases hk : InRange t.n key
    · simp [hk, tableDel_defined hr hk]
    · obtain ⟨f, hf⟩ := lookup_outOfRange hr.shape hk _
      rw [tableDel, hf]
      simp [hk]

/-- The value a `GET` sends back is refused or encoded, never a fault. -/
theorem dataToBuffer_defined (junk : Nat → UInt8) {d : DataT} (hd : d.Valid) :
    Defined (dataToBuffer junk (some d)) := by
  by_cases hfit : sizeofInt + d.datasize ≤ intMax
  · exact ⟨_, dataToBuffer_eq junk hd.readable hfit⟩
  · exact ⟨_, dataToBuffer_large junk hd hfit⟩

theorem invokeGet_defined_iff (hs : Shape t buckets) (hv : EntriesValid buckets) :
    Defined (invokeGet env t msg) ↔ KeyRequest t msg.buffer := by
  cases hdata : msg.buffer.data with
  | none => simp [invokeGet, KeyRequest, hdata]
  | some key =>
    have hkey : KeyRequest t msg.buffer ↔ InRange t.n key := by simp [KeyRequest, hdata]
    rw [hkey, invokeGet, hdata, deref_some, ok_bind]
    by_cases hk : InRange t.n key
    · rcases tableGet_cases hs hv hk with ⟨-, hget⟩ | ⟨-, bs, hbs, hget⟩
      · simp [hget, hk]
      · obtain ⟨r, henc⟩ := dataToBuffer_defined (env.junk 1) hbs
        simp [hget, hk, henc]
    · obtain ⟨f, hf⟩ := lookup_outOfRange hs hk _
      rw [tableGet, hf]
      simp [hk]

/-- The value of a decoded entry can be copied, whether there is one or not. -/
theorem decodedEntry_dup (junk : Nat → UInt8) {bytes : Block} (h : EntryLayout bytes) :
    ∃ v, dataDup junk (decodedEntry bytes).value = .ok v := by
  have hlen := h.length_dataField
  have hle : dataSize bytes ≤ 127 := charVal_upper _
  unfold decodedEntry dataCreate2
  by_cases hpos : dataSize bytes < 1
  · exact ⟨none, by simp [hpos]⟩
  · have hvalid : DataT.Valid ⟨dataSize bytes, some (dataField bytes)⟩ :=
      ⟨by simp only; omega, by simp only [intMax]; omega, _, rfl, by simp only; omega⟩
    exact ⟨_, by simp only [hpos, reduceCtorEq, or_self, if_false, entryCreate_value];
                 exact dataDup_valid junk hvalid⟩

theorem invokePut_defined_iff (hr : Rep t buckets) (hd : msg.buffer.Delivered) :
    Defined (invokePut env t msg) ↔ PutRequest t msg.buffer := by
  rcases hd with ⟨hdata, hlen⟩ | ⟨bytes, -, hdata, hlen⟩
  · simp [invokePut, bufferToEntry, PutRequest, hdata]
  · have hput : PutRequest t msg.buffer ↔ PutPayload t bytes := by simp [PutRequest, hdata]
    rw [hput, invokePut, hdata, hlen]
    by_cases hsize : toInt32 bytes.length = -1
    · rw [bufferToEntry, if_pos hsize]
      simpa using fun h : PutPayload t bytes => h.length hsize
    by_cases hlayout : EntryLayout bytes
    · obtain ⟨v, hdup⟩ := decodedEntry_dup (env.junk 1) hlayout
      rw [bufferToEntry_layout (env.junk 0) hlayout hsize, ok_bind, deref_some, ok_bind]
      refine (defined_bind_iff (by rintro ⟨_, _⟩; exact defined_ok _)).trans ?_
      change Defined (tablePut (env.junk 1) t (keyField bytes) _) ↔ _
      by_cases hk : InRange t.n (keyField bytes)
      · rw [tablePut_defined_iff _ hdup hr hk]
        exact ⟨fun h => ⟨hsize, hlayout, hk, h⟩, fun h => h.live⟩
      · obtain ⟨f, hf⟩ := lookup_outOfRange hr.shape hk _
        rw [tablePut, hf]
        simpa using fun h : PutPayload t bytes => hk h.inRange
    · obtain ⟨f, hf⟩ := bufferToEntry_malformed (env.junk 0) hlayout hsize
      rw [hf, error_bind]
      simpa using fun h : PutPayload t bytes => hlayout h.layout

end Branches

/-! ## Requests -/

/-- A key request without a string, or a `PUT` whose sizes do not fit its buffer or
whose key is not a string. -/
def Malformed (msg : MessageT) : Prop :=
  ((msg.opcode = opGet ∨ msg.opcode = opDel) ∧
      ¬ ∃ key, msg.buffer.data = some key ∧ Terminated key) ∨
    (msg.opcode = opPut ∧ ¬ ∃ bytes, msg.buffer.data = some bytes ∧ EntryLayout bytes ∧
      Terminated (keyField bytes))

/-- **The request is handled safely**: `invoke` never faults, and it answers a
malformed request with an error. -/
def SafelyHandled (env : Env) (srv : Server) (msg : MessageT) : Prop :=
  ∃ code srv' reply, invoke env srv msg = .ok (code, srv', reply) ∧
    (Malformed msg → reply.opcode = opError)

/-- The requests the server can take, by opcode. -/
structure Servable (t : TableT) (buckets : Buckets) (msg : MessageT) : Prop where
  size : msg.opcode = opSize → ((entries buckets).length : Int) ≤ intMax
  del : msg.opcode = opDel → KeyRequest t msg.buffer
  get : msg.opcode = opGet → KeyRequest t msg.buffer
  put : msg.opcode = opPut → PutRequest t msg.buffer
  getKeys : msg.opcode = opGetKeys → ((entries buckets).length : Int) < intMax
  print : msg.opcode = opPrint → 1 ≤ t.n

/-- A request the server can take is not malformed. -/
theorem Servable.not_malformed {t : TableT} {buckets : Buckets} {msg : MessageT}
    (h : Servable t buckets msg) : ¬ Malformed msg := by
  rintro (⟨hop, hno⟩ | ⟨hop, hno⟩)
  · obtain ⟨key, hkey, index, hhash, -⟩ : KeyRequest t msg.buffer := hop.elim h.get h.del
    exact hno ⟨key, hkey, getHashIndex_terminated hhash⟩
  · obtain ⟨bytes, hbytes, hpay⟩ := h.put hop
    obtain ⟨index, hhash, -⟩ := hpay.inRange
    exact hno ⟨bytes, hbytes, hpay.layout, getHashIndex_terminated hhash⟩

/-- A message has one opcode. -/
theorem other_opcode {opcode a b : Int} {P : Prop} (h : opcode = a) (hne : a ≠ b) :
    opcode = b → P := fun h' => absurd (h.symm.trans h') hne

/-- The branch of a request is defined exactly when the server can take it. -/
theorem dispatch_defined_iff (env : Env) (srv : Server) {buckets : Buckets}
    (hr : Rep srv.gTable buckets) (hv : EntriesValid buckets) {msg : MessageT}
    (hd : msg.buffer.Delivered) :
    Defined (dispatch env srv msg) ↔ Servable srv.gTable buckets msg := by
  by_cases hop : Handled msg.opcode
  · simp only [Handled, List.mem_cons, List.not_mem_nil, or_false] at hop
    rcases hop with h | h | h | h | h | h | h
    · have hsize : Defined (invokeSize env srv.gTable msg) ↔
          ((entries buckets).length : Int) ≤ intMax := by
        by_cases hle : ((entries buckets).length : Int) ≤ intMax
        · simp [invokeSize_eq hr.shape hle, hle]
        · simp [invokeSize_overflow hr.shape hle, hle]
      rw [dispatch_size h]
      refine (defined_bind_iff fun _ => defined_ok _).trans
        (hsize.trans ⟨fun hle => ?_, fun hs => hs.size h⟩)
      refine ⟨fun _ => hle, ?_, ?_, ?_, ?_, ?_⟩ <;> exact other_opcode h (by decide)
    · rw [dispatch_del h]
      refine (defined_bind_iff (by rintro ⟨_, _⟩; exact defined_ok _)).trans
        ((invokeDel_defined_iff hr).trans ⟨fun hk => ?_, fun hs => hs.del h⟩)
      refine ⟨?_, fun _ => hk, ?_, ?_, ?_, ?_⟩ <;> exact other_opcode h (by decide)
    · rw [dispatch_get h]
      refine (defined_bind_iff fun _ => defined_ok _).trans
        ((invokeGet_defined_iff hr.shape hv).trans ⟨fun hk => ?_, fun hs => hs.get h⟩)
      refine ⟨?_, ?_, fun _ => hk, ?_, ?_, ?_⟩ <;> exact other_opcode h (by decide)
    · rw [dispatch_put h]
      refine (defined_bind_iff (by rintro ⟨_, _⟩; exact defined_ok _)).trans
        ((invokePut_defined_iff hr hd).trans ⟨fun hk => ?_, fun hs => hs.put h⟩)
      refine ⟨?_, ?_, ?_, fun _ => hk, ?_, ?_⟩ <;> exact other_opcode h (by decide)
    · have hkeys : Defined (invokeGetKeys env srv.gTable msg) ↔
          ((entries buckets).length : Int) < intMax := by
        by_cases hlt : ((entries buckets).length : Int) < intMax
        · simp [invokeGetKeys_eq hr.shape hlt, hlt]
        · simp [invokeGetKeys_overflow hr.shape hlt, hlt]
      rw [dispatch_getKeys h]
      refine (defined_bind_iff fun _ => defined_ok _).trans
        (hkeys.trans ⟨fun hlt => ?_, fun hs => hs.getKeys h⟩)
      refine ⟨?_, ?_, ?_, ?_, fun _ => hlt, ?_⟩ <;> exact other_opcode h (by decide)
    · have hprint : Defined (invokePrint env srv.gTable msg) ↔ 1 ≤ srv.gTable.n := by
        by_cases hn : 1 ≤ srv.gTable.n
        · simp [invokePrint_eq hr.shape hv hn, hn]
        · simp [invokePrint_empty hr.shape (Int.not_le.mp hn), hn]
      rw [dispatch_print h]
      refine (defined_bind_iff fun _ => defined_ok _).trans
        (hprint.trans ⟨fun hn => ?_, fun hs => hs.print h⟩)
      refine ⟨?_, ?_, ?_, ?_, ?_, fun _ => hn⟩ <;> exact other_opcode h (by decide)
    · rw [dispatch_stats h]
      refine (defined_bind_iff fun _ => defined_ok _).trans
        ⟨fun _ => ?_, fun _ => invokeStats_defined env srv.stats msg⟩
      refine ⟨?_, ?_, ?_, ?_, ?_, ?_⟩ <;> exact other_opcode h (by decide)
  · rw [dispatch_refused hop]
    simp only [Handled, List.mem_cons, List.not_mem_nil, or_false, not_or] at hop
    obtain ⟨h₁, h₂, h₃, h₄, h₅, h₆, -⟩ := hop
    exact ⟨fun _ => ⟨fun h => absurd h h₁, fun h => absurd h h₂, fun h => absurd h h₃,
      fun h => absurd h h₄, fun h => absurd h h₅, fun h => absurd h h₆⟩, fun _ => defined_ok _⟩

/-- **A request is handled safely exactly when the server can take it**: for every
table in good order, everything `malloc` hands out, and every message protobuf-c
delivers. -/
theorem invoke_safe_iff (env : Env) (srv : Server) (buckets : Buckets)
    (hr : Rep srv.gTable buckets) (hv : EntriesValid buckets) (msg : MessageT)
    (hd : msg.buffer.Delivered) :
    SafelyHandled env srv msg ↔ Servable srv.gTable buckets msg := by
  rw [← dispatch_defined_iff env srv hr hv hd]
  constructor
  · rintro ⟨code, srv', reply, hrun, -⟩
    cases hdisp : dispatch env srv msg with
    | ok r => exact defined_ok r
    | error f =>
      rw [invoke_of_fault hdisp] at hrun
      cases hrun
  · rintro ⟨r, hdisp⟩
    have hserv := (dispatch_defined_iff env srv hr hv hd).mp ⟨r, hdisp⟩
    cases r with
    | none => exact ⟨_, _, _, invoke_of_refused hdisp, fun h => absurd h hserv.not_malformed⟩
    | some r =>
      obtain ⟨code, stats, hrun⟩ := invoke_of_dispatch hdisp
      exact ⟨_, _, _, hrun, fun h => absurd h hserv.not_malformed⟩

/-- A `GET` of the key `a`. -/
def getRequestA : MessageT := ⟨opGet, ctKey, ⟨2, some [97, 0]⟩⟩

theorem getRequestA_servable : Servable (oneList [entryA]).gTable [[(0, entryA)]] getRequestA := by
  refine ⟨?_, ?_, fun _ => ⟨[97, 0], rfl, 0, by decide⟩, ?_, ?_, ?_⟩
  all_goals exact fun h => absurd h (by decide)

/-- The key is there. -/
theorem entryA_present : ¬ KeyAbsent (oneList [entryA]).gTable [97, 0] := by
  have hl : Located (oneList [entryA]).gTable [[(0, entryA)]] [97, 0] 0 [(0, entryA)] :=
    ⟨by decide, rfl⟩
  rw [hl.keyAbsent_iff oneList_entryA_rep.shape]
  exact fun h => h (0, entryA) List.mem_cons_self (by decide)

/-- The theorem at that request, to a table that has the key. -/
theorem invoke_safe_iff_present :
    SafelyHandled (.calm fun _ _ => 0) (oneList [entryA]) getRequestA :=
  (invoke_safe_iff _ _ [[(0, entryA)]] oneList_entryA_rep entryA_valid getRequestA
    (Or.inr ⟨[97, 0], by decide, rfl, rfl⟩)).mpr getRequestA_servable

/-- A `GET` with an empty buffer. -/
def emptyGet : MessageT := ⟨opGet, ctKey, ⟨0, none⟩⟩

/-- **An empty `GET` dereferences a null pointer**, although it is delivered like
any other request. -/
theorem emptyGet_not_safe :
    emptyGet.buffer.Delivered ∧ ¬ SafelyHandled (.calm fun _ _ => 0) (tableSkelInit 1) emptyGet := by
  refine ⟨Or.inl ⟨rfl, rfl⟩, ?_⟩
  rintro ⟨code, srv', reply, hrun, -⟩
  cases hrun

end RemoteTable
