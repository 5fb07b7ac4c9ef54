import RemoteTable.Skeleton

/-! # What the branches of the skeleton do

One lemma a branch: the reply it builds from the table's entries, or the fault it
runs into.  `invoke` adds the statistics, which never fault, so a request is
handled exactly when its branch is defined (`invoke_of_dispatch`).
-/
namespace RemoteTable
open CMem

section Tail
variable {env : Env} {srv srv' : Server} {msg reply : MessageT}

theorem statsTail_defined (env : Env) (opCode : Int) (stats : Statistics) :
    Defined (statsTail env opCode stats) := by
  unfold statsTail
  split
  · rename_i h
    split
    · exact defined_ok _
    · obtain ⟨s, hs⟩ := updateStats_defined stats (show opSize ≤ opCode by unfold opSize; omega)
        (show opCode ≤ opPrint by unfold opPrint; omega) env.ms
      rw [hs, ok_bind]
      split <;> exact defined_ok _
  · exact defined_ok _

/-- **The value `invoke` returns after a branch** is -1 only for a request that is counted, when
a call on the lock of the statistics fails. -/
theorem statsTail_code_eq {opCode code : Int} {stats stats' : Statistics}
    (h : statsTail env opCode stats = .ok (code, stats')) :
    code = if (opSize ≤ opCode ∧ opCode ≤ opPrint) ∧ (env.writeLock ≠ 0 ∨ env.writeUnlock ≠ 0)
      then -1 else 0 := by
  by_cases hcount : ¬ (opCode > 60 ∨ opCode < 10)
  · have hrange : opSize ≤ opCode ∧ opCode ≤ opPrint := by
      unfold opSize opPrint
      omega
    rw [statsTail, if_pos hcount] at h
    by_cases hlock : env.writeLock ≠ 0
    · rw [if_pos hlock] at h
      rw [if_pos ⟨hrange, Or.inl hlock⟩, ← (Prod.mk.inj (Except.ok.inj h)).1]
    · rw [if_neg hlock] at h
      obtain ⟨_, -, h⟩ := bind_eq_ok.mp h
      by_cases hunlock : env.writeUnlock ≠ 0
      · rw [if_pos hunlock] at h
        rw [if_pos ⟨hrange, Or.inr hunlock⟩, ← (Prod.mk.inj (Except.ok.inj h)).1]
      · rw [if_neg hunlock] at h
        rw [if_neg fun hfail => hfail.2.elim hlock hunlock, ← (Prod.mk.inj (Except.ok.inj h)).1]
  · have hrange : ¬ (opSize ≤ opCode ∧ opCode ≤ opPrint) := by
      unfold opSize opPrint
      omega
    rw [statsTail, if_neg hcount] at h
    rw [if_neg fun hfail => hrange hfail.1, ← (Prod.mk.inj (Except.ok.inj h)).1]

/-- **The tail changes the statistics only**: table and reply are those of the
branch. -/
theorem invoke_of_dispatch (h : dispatch env srv msg = .ok (some (srv', reply))) :
    ∃ code stats, invoke env srv msg = .ok (code, { srv' with stats := stats }, reply) := by
  obtain ⟨⟨code, stats⟩, htail⟩ := statsTail_defined env msg.opcode srv'.stats
  refine ⟨code, stats, ?_⟩
  rw [invoke, h, ok_bind]
  simp only [htail, ok_bind, pure_eq_ok]

theorem invoke_of_refused (h : dispatch env srv msg = .ok none) :
    invoke env srv msg = .ok (-1, srv, msg) := by
  rw [invoke, h, ok_bind, pure_eq_ok]

/-- **Inversion of a call that returns**: the request was refused, or its branch was
defined and the table is the branch's. -/
theorem invoke_eq_ok {code : Int} (h : invoke env srv msg = .ok (code, srv', reply)) :
    (srv' = srv ∧ reply = msg) ∨
      ∃ srv₁, dispatch env srv msg = .ok (some (srv₁, reply)) ∧ srv'.gTable = srv₁.gTable := by
  obtain ⟨r, hdisp, hrest⟩ := bind_eq_ok.mp h
  cases r with
  | none =>
    obtain ⟨-, rfl, rfl⟩ : (-1 : Int) = code ∧ srv = srv' ∧ msg = reply := by
      simpa using Except.ok.inj hrest
    exact Or.inl ⟨rfl, rfl⟩
  | some r =>
    obtain ⟨srv₁, r⟩ := r
    obtain ⟨⟨code', stats⟩, -, hret⟩ := bind_eq_ok.mp hrest
    obtain ⟨-, rfl, rfl⟩ : code' = code ∧ { srv₁ with stats := stats } = srv' ∧ r = reply := by
      simpa using Except.ok.inj hret
    exact Or.inr ⟨srv₁, hdisp, rfl⟩

theorem invoke_of_fault {f : Fault} (h : dispatch env srv msg = .error f) :
    invoke env srv msg = .error f := by
  rw [invoke, h, error_bind]

end Tail

/-! ## The branch of an opcode -/

section Dispatch
variable {env : Env} {srv : Server} {msg : MessageT}

theorem dispatch_size (h : msg.opcode = opSize) :
    dispatch env srv msg = do
      let reply ← invokeSize env srv.gTable msg
      return some (srv, reply) := by
  rw [dispatch, if_pos h]

theorem dispatch_del (h : msg.opcode = opDel) :
    dispatch env srv msg = do
      let (t, reply) ← invokeDel srv.gTable msg
      return some ({ srv with gTable := t }, reply) := by
  rw [dispatch, if_neg (by rw [h]; decide), if_pos h]

theorem dispatch_get (h : msg.opcode = opGet) :
    dispatch env srv msg = do
      let reply ← invokeGet env srv.gTable msg
      return some (srv, reply) := by
  rw [dispatch, if_neg (by rw [h]; decide), if_neg (by rw [h]; decide), if_pos h]

theorem dispatch_put (h : msg.opcode = opPut) :
    dispatch env srv msg = do
      let (t, reply) ← invokePut env srv.gTable msg
      return some ({ srv with gTable := t }, reply) := by
  rw [dispatch, if_neg (by rw [h]; decide), if_neg (by rw [h]; decide), if_neg (by rw [h]; decide),
    if_pos h]

theorem dispatch_getKeys (h : msg.opcode = opGetKeys) :
    dispatch env srv msg = do
      let reply ← invokeGetKeys env srv.gTable msg
      return some (srv, reply) := by
  rw [dispatch, if_neg (by rw [h]; decide), if_neg (by rw [h]; decide), if_neg (by rw [h]; decide),
    if_neg (by rw [h]; decide), if_pos h]

theorem dispatch_print (h : msg.opcode = opPrint) :
    dispatch env srv msg = do
      let reply ← invokePrint env srv.gTable msg
      return some (srv, reply) := by
  rw [dispatch, if_neg (by rw [h]; decide), if_neg (by rw [h]; decide), if_neg (by rw [h]; decide),
    if_neg (by rw [h]; decide), if_neg (by rw [h]; decide), if_pos h]

theorem dispatch_stats (h : msg.opcode = opStats) :
    dispatch env srv msg = do
      let reply ← invokeStats env srv.stats msg
      return some (srv, reply) := by
  rw [dispatch, if_neg (by rw [h]; decide), if_neg (by rw [h]; decide), if_neg (by rw [h]; decide),
    if_neg (by rw [h]; decide), if_neg (by rw [h]; decide), if_neg (by rw [h]; decide), if_pos h]

/-- The opcodes that have a branch. -/
def Handled (opcode : Int) : Prop :=
  opcode ∈ [opSize, opDel, opGet, opPut, opGetKeys, opPrint, opStats]

theorem dispatch_refused (h : ¬ Handled msg.opcode) : dispatch env srv msg = .ok none := by
  simp only [Handled, List.mem_cons, List.not_mem_nil, or_false, not_or] at h
  obtain ⟨h₁, h₂, h₃, h₄, h₅, h₆, h₇⟩ := h
  rw [dispatch, if_neg h₁, if_neg h₂, if_neg h₃, if_neg h₄, if_neg h₅, if_neg h₆, if_neg h₇]

/-- The branch a request is handled in, and what comes of it. -/
inductive Branch (env : Env) (srv : Server) (msg : MessageT) : Server → MessageT → Prop
  | size {reply : MessageT} (hop : msg.opcode = opSize)
      (h : invokeSize env srv.gTable msg = .ok reply) : Branch env srv msg srv reply
  | del {t : TableT} {reply : MessageT} (hop : msg.opcode = opDel)
      (h : invokeDel srv.gTable msg = .ok (t, reply)) : Branch env srv msg { srv with gTable := t } reply
  | get {reply : MessageT} (hop : msg.opcode = opGet)
      (h : invokeGet env srv.gTable msg = .ok reply) : Branch env srv msg srv reply
  | put {t : TableT} {reply : MessageT} (hop : msg.opcode = opPut)
      (h : invokePut env srv.gTable msg = .ok (t, reply)) :
      Branch env srv msg { srv with gTable := t } reply
  | getKeys {reply : MessageT} (hop : msg.opcode = opGetKeys)
      (h : invokeGetKeys env srv.gTable msg = .ok reply) : Branch env srv msg srv reply
  | print {reply : MessageT} (hop : msg.opcode = opPrint)
      (h : invokePrint env srv.gTable msg = .ok reply) : Branch env srv msg srv reply
  | stats {reply : MessageT} (hop : msg.opcode = opStats)
      (h : invokeStats env srv.stats msg = .ok reply) : Branch env srv msg srv reply

/-- **Inversion of the branches**: what comes of a request comes of its branch. -/
theorem dispatch_branch (hop : Handled msg.opcode) {r : Option (Server × MessageT)}
    (h : dispatch env srv msg = .ok r) :
    ∃ srv' reply, r = some (srv', reply) ∧ Branch env srv msg srv' reply := by
  have hread : ∀ {x : Exec MessageT}, (∀ {reply}, x = .ok reply → Branch env srv msg srv reply) →
      (do let reply ← x; return some (srv, reply)) = Except.ok r →
      ∃ srv' reply, r = some (srv', reply) ∧ Branch env srv msg srv' reply := by
    intro x hx hr
    obtain ⟨reply, hreply, hr⟩ := bind_eq_ok.mp hr
    exact ⟨srv, reply, (Except.ok.inj hr).symm, hx hreply⟩
  have hwrite : ∀ {x : Exec (TableT × MessageT)},
      (∀ {t reply}, x = .ok (t, reply) → Branch env srv msg { srv with gTable := t } reply) →
      (do let (t, reply) ← x; return some ({ srv with gTable := t }, reply)) = Except.ok r →
      ∃ srv' reply, r = some (srv', reply) ∧ Branch env srv msg srv' reply := by
    intro x hx hr
    obtain ⟨⟨t, reply⟩, hreply, hr⟩ := bind_eq_ok.mp hr
    exact ⟨_, reply, (Except.ok.inj hr).symm, hx hreply⟩
  simp only [Handled, List.mem_cons, List.not_mem_nil, or_false] at hop
  rcases hop with ho | ho | ho | ho | ho | ho | ho
  · exact hread (.size ho) (dispatch_size ho ▸ h)
  · exact hwrite (.del ho) (dispatch_del ho ▸ h)
  · exact hread (.get ho) (dispatch_get ho ▸ h)
  · exact hwrite (.put ho) (dispatch_put ho ▸ h)
  · exact hread (.getKeys ho) (dispatch_getKeys ho ▸ h)
  · exact hread (.print ho) (dispatch_print ho ▸ h)
  · exact hread (.stats ho) (dispatch_stats ho ▸ h)

/-- A request with a reply was handled in a branch. -/
theorem branch_of_dispatch {srv' : Server} {reply : MessageT}
    (h : dispatch env srv msg = .ok (some (srv', reply))) : Branch env srv msg srv' reply := by
  by_cases hop : Handled msg.opcode
  · obtain ⟨srv₁, reply₁, hr, hb⟩ := dispatch_branch hop h
    obtain ⟨rfl, rfl⟩ := Prod.mk.inj (Option.some.inj hr)
    exact hb
  · rw [dispatch_refused hop] at h
    cases h

/-- **What a branch does to the table**: nothing, except `DEL` and `PUT`. -/
theorem dispatch_table {srv' : Server} {reply : MessageT}
    (h : dispatch env srv msg = .ok (some (srv', reply))) :
    srv'.gTable = srv.gTable ∨
      (msg.opcode = opDel ∧ invokeDel srv.gTable msg = .ok (srv'.gTable, reply)) ∨
      (msg.opcode = opPut ∧ invokePut env srv.gTable msg = .ok (srv'.gTable, reply)) := by
  cases branch_of_dispatch h with
  | del hop hrun => exact Or.inr (Or.inl ⟨hop, hrun⟩)
  | put hop hrun => exact Or.inr (Or.inr ⟨hop, hrun⟩)
  | size | get | getKeys | print | stats => exact Or.inl rfl

end Dispatch

section Branches
variable {env : Env} {t : TableT} {buckets : Buckets} {msg : MessageT}

/-- The block of a `SIZE` reply: one byte written, three left as they were. -/
def wireSize (junk : Nat → UInt8) (n : Int) : Block := [toByte n, junk 1, junk 2, junk 3]

theorem invokeSize_eq (hs : Shape t buckets) (hle : ((entries buckets).length : Int) ≤ intMax) :
    invokeSize env t msg =
      .ok ⟨msg.opcode + 1, ctResult, ⟨4, some (wireSize (env.junk 0) (entries buckets).length)⟩⟩ := by
  have hblock : malloc (env.junk 0) sizeofInt =
      some [env.junk 0 0, env.junk 0 1, env.junk 0 2, env.junk 0 3] := by
    rw [malloc_of_nonneg _ (by decide)]
    rfl
  have hstore := store_append [] [env.junk 0 0] [env.junk 0 1, env.junk 0 2, env.junk 0 3]
    [toByte (entries buckets).length] rfl
  rw [invokeSize, hblock, deref_some, ok_bind, tableSize_eq hs, if_pos hle, ok_bind]
  exact congrArg (· >>= _) hstore

theorem invokeSize_overflow (hs : Shape t buckets) (hlt : ¬ ((entries buckets).length : Int) ≤ intMax) :
    invokeSize env t msg = .error .intOverflow := by
  rw [invokeSize, malloc_of_nonneg _ (by decide), deref_some, ok_bind, tableSize_eq hs, if_neg hlt,
    error_bind]

theorem invokeGet_absent {key : Block} (hkey : msg.buffer.data = some key)
    (hget : tableGet (env.junk 0) t key = .ok none) :
    invokeGet env t msg = .ok ⟨opError, ctNone, ⟨0, none⟩⟩ := by
  simp [invokeGet, hkey, hget]

/-- **`OP_GET` of a present key sends its value**, behind a header of four bytes. -/
theorem invokeGet_present {key : Block} {d : DataT} (hkey : msg.buffer.data = some key)
    (hd : d.Readable) (hget : tableGet (env.junk 0) t key = .ok (some d))
    (hfit : sizeofInt + d.datasize ≤ intMax) :
    invokeGet env t msg = .ok ⟨msg.opcode + 1, ctValue,
      ⟨(wireData (env.junk 1) d).length, some (wireData (env.junk 1) d)⟩⟩ := by
  have hnonneg := hd.size_nonneg
  have hbytes := hd.length_bytes
  have hlen : toSizeT (sizeofInt + d.datasize) = (wireData (env.junk 1) d).length := by
    have h := toSizeT_of_nonneg (show 0 ≤ sizeofInt + d.datasize by unfold sizeofInt; omega) hfit
    have hw : (wireData (env.junk 1) d).length = d.bytes.length + 4 := by simp [wireData]
    unfold sizeofInt at *
    omega
  simp [invokeGet, hkey, hget, dataToBuffer_eq (env.junk 1) hd hfit, hlen]

/-- A value too large to encode: the length is -1 as a `size_t`, and the pointer is
the freed request. -/
theorem invokeGet_large {key : Block} {d : DataT} (hkey : msg.buffer.data = some key)
    (hd : d.Valid) (hget : tableGet (env.junk 0) t key = .ok (some d))
    (hlarge : ¬ sizeofInt + d.datasize ≤ intMax) :
    invokeGet env t msg = .ok ⟨msg.opcode + 1, ctValue, ⟨toSizeT (-1), some freed⟩⟩ := by
  simp [invokeGet, hkey, hget, dataToBuffer_large (env.junk 1) hd hlarge]

/-- The keys of the entries, each with its NUL. -/
def keyWire (es : List EntryT) : Block := (es.map fun e => e.keyStr ++ [0]).flatten

@[simp] theorem keyWire_nil : keyWire [] = [] := rfl

@[simp] theorem keyWire_cons (e : EntryT) (es : List EntryT) :
    keyWire (e :: es) = e.keyStr ++ [0] ++ keyWire es := rfl

theorem keyLengthsLoop_eq (es : List EntryT) (len : Nat) :
    keyLengthsLoop (keySlots es ++ [some none]) len = .ok (len + (keyWire es).length) := by
  induction es generalizing len with
  | nil => rfl
  | cons e es ih =>
    have hlen := strlen_append_nul (cstr_no_nul e.key) []
    change keyLengthsLoop (some (some (e.keyStr ++ [0])) :: (keySlots es ++ [some none])) len = _
    rw [keyLengthsLoop, show e.keyStr = cstr e.key from rfl, hlen, ok_bind, ih]
    simp [EntryT.keyStr]
    omega

/-- **The second loop writes the keys** where its block is still free. -/
theorem keyCopyLoop_eq (es : List EntryT) {buf : Block} {done : List UInt8} {room : Nat}
    (hbuf : Filled buf done room) (hroom : (keyWire es).length ≤ room) :
    ∃ buf', keyCopyLoop (keySlots es ++ [some none]) buf done.length = .ok buf' ∧
      Filled buf' (done ++ keyWire es) (room - (keyWire es).length) := by
  induction es generalizing buf done room with
  | nil => exact ⟨buf, rfl, by simpa using hbuf⟩
  | cons e es ih =>
    have hno : (0 : UInt8) ∉ e.keyStr := cstr_no_nul e.key
    have hlen := strlen_append_nul hno []
    have hsrc := slice_append [] (e.keyStr ++ [0]) []
    rw [List.nil_append, List.append_nil, List.length_append] at hsrc
    rw [keyWire_cons, List.length_append] at hroom
    obtain ⟨b, hstore, hb⟩ := hbuf.store (e.keyStr ++ [0]) (by omega)
    have hstep : strlen (b.drop done.length) = .ok e.keyStr.length := by
      obtain ⟨free, rfl, -⟩ := hb
      rw [List.append_assoc, List.drop_left, List.append_assoc]
      exact strlen_append_nul hno free
    obtain ⟨buf', hrun, hb'⟩ := ih hb (by omega)
    refine ⟨buf', ?_, ?_⟩
    · change keyCopyLoop (some (some (e.keyStr ++ [0])) :: (keySlots es ++ [some none])) buf _ = _
      have hnext : done.length + (e.keyStr.length + 1) = (done ++ (e.keyStr ++ [0])).length := by simp
      rw [keyCopyLoop, hlen, ok_bind]
      rw [show slice (e.keyStr ++ [0]) 0 ((e.keyStr.length : Int) + 1) = .ok (e.keyStr ++ [0]) from hsrc,
        ok_bind, hstore, ok_bind, hstep, ok_bind, hnext, hrun]
    · rw [keyWire_cons, ← List.append_assoc, List.length_append, ← Nat.sub_sub]
      exact hb'

/-- **`OP_GETKEYS` sends the keys of all entries and nothing else.** -/
theorem invokeGetKeys_eq (hs : Shape t buckets) (hlt : ((entries buckets).length : Int) < intMax) :
    invokeGetKeys env t msg = .ok ⟨msg.opcode + 1, ctKeys,
      ⟨(keyWire (entries buckets)).length, some (keyWire (entries buckets))⟩⟩ := by
  set wire := keyWire (entries buckets) with hwire
  obtain ⟨buf, hbuf, hfree⟩ := filled_malloc (env.junk 0) (show (0 : Int) ≤ wire.length by omega)
  obtain ⟨buf', hrun, hb'⟩ := keyCopyLoop_eq (entries buckets) hfree (by rw [← hwire]; omega)
  rw [← hwire, Int.toNat_natCast, Nat.sub_self] at hb'
  obtain rfl := hb'.full
  have hlen : keyLengthsLoop (keySlots (entries buckets) ++ [some none]) 0 = .ok wire.length := by
    rw [keyLengthsLoop_eq, Nat.zero_add]
  rw [List.nil_append, List.length_nil] at hrun
  rw [invokeGetKeys, tableGetKeys_eq hs, if_pos hlt, ok_bind, hlen, ok_bind, hbuf, deref_some, ok_bind,
    hrun, ok_bind, pure_eq_ok]

theorem invokeGetKeys_overflow (hs : Shape t buckets)
    (hle : ¬ ((entries buckets).length : Int) < intMax) :
    invokeGetKeys env t msg = .error .intOverflow := by
  rw [invokeGetKeys, tableGetKeys_eq hs, if_neg hle, error_bind]

/-- **`OP_PRINT` sends the printed table as a C string.** -/
theorem invokePrint_eq (hs : Shape t buckets) (hv : EntriesValid buckets) (hn : 1 ≤ t.n) :
    invokePrint env t msg = .ok ⟨msg.opcode + 1, ctTable,
      ⟨(printedTable buckets).length + 1, some (tableString buckets)⟩⟩ := by
  rw [invokePrint, tableToString_eq env.junk hs hv hn, ok_bind, (tableString_terminated buckets).strlen,
    ok_bind, cstr_tableString, pure_eq_ok]

theorem invokePrint_empty (hs : Shape t buckets) (hn : t.n < 1) :
    invokePrint env t msg = .error .outOfBounds := by
  rw [invokePrint, tableToString_empty env.junk hs hn, error_bind]

theorem invokeStats_defined (env : Env) (stats : Statistics) (msg : MessageT) :
    Defined (invokeStats env stats msg) := by
  obtain ⟨data, hdata, hstore⟩ := malloc_store (env.junk 0)
    (congrArg Nat.cast (env.length_statsImage stats))
  unfold invokeStats
  split
  · rw [hdata, deref_some, ok_bind]
    split
    · exact defined_ok _
    · rw [hstore, ok_bind]
      split <;> exact defined_ok _
  · exact defined_ok _

end Branches

/-! ## A table of one list -/

/-- The server whose table has a single list with these entries. -/
def oneList (es : List EntryT) : Server where
  gTable := ⟨1, [if es = [] then ⟨none, none⟩ else ⟨some 0, some (es.length - 1)⟩], Heap.ofList es⟩
  stats := ⟨0, 0, Vector.replicate 6 0⟩

theorem oneList_shape {es : List EntryT} (hkeys : ∀ e ∈ es, Terminated e.key) :
    Shape (oneList es).gTable [es.mapIdx Prod.mk] where
  n_eq := rfl
  length_eq := rfl
  chain i list b hlist hb := by
    cases i with
    | zero =>
      obtain rfl := Option.some.inj hlist
      obtain rfl := Option.some.inj hb
      have h := Heap.ofList_chain es
      by_cases hnil : es = []
      · rwa [if_pos hnil] at h ⊢
      · rwa [if_neg hnil] at h ⊢
    | succ i => cases hlist
  terminated b hb x hx := by
    obtain rfl := List.mem_singleton.mp hb
    obtain ⟨i, hi, rfl⟩ := List.mem_mapIdx.mp hx
    exact hkeys _ (List.getElem_mem hi)

theorem entries_oneList (es : List EntryT) : entries [es.mapIdx Prod.mk] = es := by
  refine List.ext_getElem? fun i => ?_
  simp [entries, List.getElem?_mapIdx, Option.map_map, Function.comp_def]

theorem lastAddr_mapIdx {es : List EntryT} (hne : es ≠ []) :
    lastAddr none (es.mapIdx Prod.mk) = some (es.length - 1) := by
  rcases List.eq_nil_or_concat' es with rfl | ⟨es, e, rfl⟩
  · exact absurd rfl hne
  · rw [List.mapIdx_concat, lastAddr_snoc, List.length_append, List.length_singleton,
      Nat.add_sub_cancel]

/-- `tail` is the last node. -/
theorem oneList_tail {es : List EntryT} {i : Nat} {list : ListT} {b : Nodes}
    (hlist : (oneList es).gTable.listsPtr[i]? = some list) (hb : [es.mapIdx Prod.mk][i]? = some b)
    (hne : b ≠ []) : list.tail = lastAddr none b := by
  cases i with
  | zero =>
    obtain rfl := Option.some.inj hlist
    obtain rfl := Option.some.inj hb
    have hes : es ≠ [] := by
      rintro rfl
      exact hne rfl
    rw [if_neg hes, lastAddr_mapIdx hes]
  | succ i => cases hb

theorem oneList_rep {es : List EntryT} (hkeys : ∀ e ∈ es, Terminated e.key) :
    Rep (oneList es).gTable [es.mapIdx Prod.mk] where
  shape := oneList_shape hkeys
  tails _ _ _ hlist hb hne := Or.inl (oneList_tail hlist hb hne)
  apart i j b c hb hc hij := by
    -- there is no second list
    have hi : i < 1 := (List.getElem?_eq_some_iff.mp hb).1
    have hj : j < 1 := (List.getElem?_eq_some_iff.mp hc).1
    omega

/-- An entry with the key `a`. -/
def entryA : EntryT := ⟨[97, 0], some (.ofBytes [5])⟩

theorem oneList_entryA_rep : Rep (oneList [entryA]).gTable [[(0, entryA)]] :=
  oneList_rep (by decide)

theorem entryA_valid : EntriesValid [[(0, entryA)]] := by
  intro e he
  obtain rfl := List.mem_singleton.mp he
  exact ⟨by decide, .ofBytes [5], rfl, by decide, by decide, [5], rfl, by decide⟩

end RemoteTable
