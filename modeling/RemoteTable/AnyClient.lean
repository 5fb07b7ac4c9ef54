import RemoteTable.ReplyBytes
import RemoteTable.ServerRuns

/-! # What any client may send

The other clients of the server need not be ours.  A `PUT` may come without a value, and then the
key has none: a `GET` of it answers as if it were absent, and `list_to_string` dereferences a null
pointer, so a `PRINT` needs a value for every key.  For the rest, whatever `message_t__unpack`
makes of the bytes that arrive, a request that `invoke` comes back from keeps the table in good
order, and the bytes of its reply are there.
-/
namespace RemoteTable
open CMem

/-! ## A table that can be printed -/

section Valued
variable {t : TableT} {buckets : Buckets} {h : NodeHeap} {l : Nodes}

/-- The first loop of `list_to_string` reads the value of every node. -/
theorem listCharsLoop_valued {fuel : Nat} {nChars : Int} {iter : Option Addr} (hc : Chain h iter l)
    (hdef : Defined (listCharsLoop h fuel nChars iter)) : ∀ x ∈ l, x.2.value ≠ none := by
  induction l generalizing fuel nChars iter with
  | nil => exact fun _ hx => absurd hx List.not_mem_nil
  | cons x l ih =>
    obtain ⟨a, e⟩ := x
    obtain ⟨rfl, nx, hload, htail⟩ := hc
    cases fuel with
    | zero => exact absurd hdef (not_defined_error _)
    | succ fuel =>
      obtain ⟨r, hrun⟩ := hdef
      rw [listCharsLoop, hload, ok_bind] at hrun
      obtain ⟨n, -, hrun⟩ := bind_eq_ok.mp hrun
      obtain ⟨v, hv, hrun⟩ := bind_eq_ok.mp hrun
      refine List.forall_mem_cons.mpr ⟨fun hnone => ?_, ih htail ⟨r, hrun⟩⟩
      rw [show e.value = none from hnone] at hv
      cases hv

theorem listToString_valued {j : Nat → UInt8} {list : ListT} (hc : Chain h list.head l)
    (hdef : Defined (listToString j h list)) : ∀ x ∈ l, x.2.value ≠ none := by
  obtain ⟨r, hrun⟩ := hdef
  unfold listToString at hrun
  split at hrun
  · rename_i hnone
    rw [hnone] at hc
    cases l with
    | nil => exact fun _ hx => absurd hx List.not_mem_nil
    | cons x l => cases hc.1
  · rename_i a ha
    obtain ⟨n, hn, -⟩ := bind_eq_ok.mp hrun
    exact listCharsLoop_valued (ha ▸ hc) ⟨n, hn⟩

theorem tableToStringLoop_valued {j : Nat → Nat → UInt8} (hs : Shape t buckets) {todo i : Nat} {str : Block}
    (hi : i + todo = buckets.length) (hdef : Defined (tableToStringLoop j t todo i str)) :
    ∀ b ∈ buckets.drop i, ∀ x ∈ b, x.2.value ≠ none := by
  induction todo generalizing i str with
  | zero =>
    rw [List.drop_eq_nil_of_le (by omega)]
    exact fun _ hb => absurd hb List.not_mem_nil
  | succ todo ih =>
    obtain ⟨list, b, hat, -, hb, hc, -⟩ := hs.listAt (show i < buckets.length by omega)
    obtain ⟨r, hrun⟩ := hdef
    rw [tableToStringLoop, hat, ok_bind] at hrun
    obtain ⟨temp, htemp, hrun⟩ := bind_eq_ok.mp hrun
    obtain ⟨str', -, hrun⟩ := bind_eq_ok.mp hrun
    rw [drop_bucket hb]
    exact List.forall_mem_cons.mpr ⟨listToString_valued hc ⟨temp, htemp⟩, ih (by omega) ⟨r, hrun⟩⟩

/-- **A table that can be printed has a value for every key.** -/
theorem tableToString_valued {j : Nat → Nat → UInt8} (hs : Shape t buckets)
    (hdef : Defined (tableToString j t)) :
    1 ≤ t.n ∧ ∀ e ∈ entries buckets, e.value ≠ none := by
  have hn : 1 ≤ t.n := by
    by_contra hlt
    rw [tableToString_empty j hs (Int.not_le.mp hlt)] at hdef
    exact absurd hdef (not_defined_error _)
  have hlen := hs.n_eq
  refine ⟨hn, ?_⟩
  obtain ⟨list, b, hat, -, hb, hc, -⟩ := hs.listAt (show 0 < buckets.length by omega)
  obtain ⟨r, hrun⟩ := hdef
  rw [tableToString, show t.listAt 0 = _ from hat, ok_bind] at hrun
  obtain ⟨str, hstr, hrun⟩ := bind_eq_ok.mp hrun
  have hall : ∀ b ∈ buckets, ∀ x ∈ b, x.2.value ≠ none := by
    rw [← List.drop_zero (l := buckets), drop_bucket hb]
    exact List.forall_mem_cons.mpr ⟨listToString_valued hc ⟨str, hstr⟩,
      tableToStringLoop_valued hs (by omega) ⟨r, hrun⟩⟩
  intro e he
  obtain ⟨x, hx, rfl⟩ := List.mem_map.mp he
  obtain ⟨b, hb, hx⟩ := List.mem_flatten.mp hx
  exact hall b hb x hx

end Valued

/-! ## The table under requests of any client -/

/-- A value that came over a connection. -/
def FromWire (v : Option DataT) : Prop := ∀ d, v = some d → d.Valid ∧ d.datasize ≤ 127

/-- A table in good order, whose values came over a connection. -/
structure Orderly (t : TableT) (buckets : Buckets) : Prop where
  rep : Rep t buckets
  values : ∀ e ∈ entries buckets, FromWire e.value

section Table
variable {t t' : TableT} {buckets : Buckets} {key : Block}

theorem tableCreate_orderly {n : Int} (hn : 0 ≤ n) : Orderly (tableCreate n) (List.replicate n.toNat []) :=
  ⟨tableCreate_rep hn, fun e he => by simp [entries] at he⟩

/-- Where every key has a value, the entries can be printed. -/
theorem Orderly.valid (hk : Orderly t buckets) (hv : ∀ e ∈ entries buckets, e.value ≠ none) :
    EntriesValid buckets := by
  intro e he
  obtain ⟨j, b, hb, x, hx, rfl⟩ := mem_entries.mp he
  obtain ⟨d, hd⟩ := Option.ne_none_iff_exists'.mp (hv x.2 he)
  exact ⟨hk.rep.shape.terminated b (List.mem_of_getElem? hb) x hx, d, hd, (hk.values x.2 he d hd).1⟩

/-- A changed bucket, whose entries are ones it had or have a value from a connection. -/
theorem Orderly.setBucket (hk : Orderly t buckets) {i : Nat} {b b' : Nodes} (hb : buckets[i]? = some b)
    (hr : Rep t' (buckets.set i b')) (hnew : ∀ x ∈ b', x ∈ b ∨ FromWire x.2.value) :
    Orderly t' (buckets.set i b') := by
  refine ⟨hr, fun e he => ?_⟩
  obtain ⟨j, c, hc, x, hx, rfl⟩ := mem_entries.mp he
  by_cases hij : i = j
  · subst hij
    rw [List.getElem?_set_self (List.getElem?_eq_some_iff.mp hb).1] at hc
    obtain rfl := Option.some.inj hc
    rcases hnew x hx with hold | hwire
    · exact hk.values x.2 (mem_entries.mpr ⟨i, b, hb, x, hold, rfl⟩)
    · exact hwire
  · rw [List.getElem?_set_ne hij] at hc
    exact hk.values x.2 (mem_entries.mpr ⟨j, c, hc, x, hx, rfl⟩)

/-- `table_del` keeps the table. -/
theorem Orderly.del (hk : Orderly t buckets) (hrange : InRange t.n key) {code : Int}
    (hdel : tableDel t key = .ok (code, t')) : ∃ buckets', Orderly t' buckets' := by
  obtain ⟨i, b, hl⟩ := hrange.located hk.rep.shape
  rcases hl.cases hk.rep.shape with ⟨-, hnone⟩ | ⟨-, pre, a, e, post, rfl, hpre, hke⟩
  · rw [tableDel_absent hk.rep.shape hl hnone] at hdel
    obtain ⟨-, rfl⟩ := Prod.mk.inj (Except.ok.inj hdel)
    exact ⟨buckets, hk⟩
  · obtain ⟨t₁, hrun, hr, -⟩ := tableDel_present hk.rep hl hpre hke
    obtain ⟨-, rfl⟩ := Prod.mk.inj (Except.ok.inj (hrun.symm.trans hdel))
    refine ⟨_, hk.setBucket hl.bucket hr fun x hx => Or.inl ?_⟩
    rcases List.mem_append.mp hx with hx | hx
    · exact List.mem_append_left _ hx
    · exact List.mem_append_right _ (List.mem_cons_of_mem _ hx)

/-- `table_put` of what came over a connection keeps the table, with a value or without. -/
theorem Orderly.put (hk : Orderly t buckets) (hrange : InRange t.n key) {value : Option DataT}
    (hvalue : FromWire value) {junk : Nat → UInt8} {code : Int}
    (hput : tablePut junk t key value = .ok (code, t')) : ∃ buckets', Orderly t' buckets' := by
  obtain ⟨v, hdup, hv⟩ : ∃ v, dataDup junk value = .ok v ∧ FromWire v := by
    cases value with
    | none => exact ⟨none, dataDup_null junk, fun _ h => by cases h⟩
    | some d =>
      obtain ⟨hvalid, hsmall⟩ := hvalue d rfl
      refine ⟨_, dataDup_valid junk hvalid, ?_⟩
      rintro _ ⟨⟩
      exact ⟨hvalid.ofBytes, (le_of_eq hvalid.length_bytes).trans hsmall⟩
  have hlive := (tablePut_defined_iff junk hdup hk.rep hrange).mp ⟨_, hput⟩
  obtain ⟨i, b, hl⟩ := hrange.located hk.rep.shape
  rcases hl.cases hk.rep.shape with ⟨habs, hnone⟩ | ⟨-, pre, a, e, post, rfl, hpre, hke⟩
  · obtain ⟨t₁, hrun, hr, -⟩ := tablePut_new junk hdup hk.rep hl hnone fun h => hlive ⟨habs, h⟩
    obtain ⟨-, rfl⟩ := Prod.mk.inj (Except.ok.inj (hrun.symm.trans hput))
    refine ⟨_, hk.setBucket hl.bucket hr fun x hx => ?_⟩
    rcases List.mem_append.mp hx with hx | hx
    · exact Or.inl hx
    · obtain rfl := List.mem_singleton.mp hx
      exact Or.inr hv
  · obtain ⟨t₁, hrun, hr, -⟩ := tablePut_present junk hdup hk.rep hl hpre hke
    obtain ⟨-, rfl⟩ := Prod.mk.inj (Except.ok.inj (hrun.symm.trans hput))
    refine ⟨_, hk.setBucket hl.bucket hr fun x hx => ?_⟩
    rcases List.mem_append.mp hx with hx | hx
    · exact Or.inl (List.mem_append_left _ hx)
    · rcases List.mem_cons.mp hx with rfl | hx
      · exact Or.inr hv
      · exact Or.inl (List.mem_append_right _ (List.mem_cons_of_mem _ hx))

/-- `table_get`: nothing, or a copy of what came over a connection. -/
theorem Orderly.get (hk : Orderly t buckets) (hrange : InRange t.n key) :
    (∀ junk, tableGet junk t key = .ok none) ∨ ∃ bs, (DataT.ofBytes bs).Valid ∧ (bs.length : Int) ≤ 127 ∧
      ∀ junk, tableGet junk t key = .ok (some (DataT.ofBytes bs)) := by
  obtain ⟨i, b, hl⟩ := hrange.located hk.rep.shape
  rcases hl.cases hk.rep.shape with ⟨-, hnone⟩ | ⟨-, pre, a, e, post, rfl, hpre, hke⟩
  · exact Or.inl fun junk => tableGet_absent junk hk.rep.shape hl hnone
  · have hget := fun junk => tableGet_present junk hk.rep.shape hl hpre hke
    cases hvalue : e.value with
    | none => exact Or.inl fun junk => (hget junk).trans (by rw [hvalue, dataDup_null])
    | some d =>
      obtain ⟨hvalid, hsmall⟩ := hk.values e (mem_entries.mpr ⟨i, _, hl.bucket, (a, e), by simp, rfl⟩) d hvalue
      refine Or.inr ⟨d.bytes, hvalid.ofBytes, (le_of_eq hvalid.length_bytes).trans hsmall, fun junk => ?_⟩
      rw [hget, hvalue, dataDup_valid junk hvalid]

end Table

/-! ## One request -/

section Request
variable {env : Env} {srv srv' : Server} {t t' : TableT} {buckets : Buckets} {msg reply : MessageT}

/-- The entry that the server decodes has no value, or one of at most 127 bytes. -/
theorem fromWire_decoded {bytes : Block} (h : EntryLayout bytes) : FromWire (decodedEntry bytes).value := by
  have hfield := h.length_dataField
  have hsmall : dataSize bytes ≤ 127 := charVal_upper _
  intro d hd
  by_cases hpos : dataSize bytes < 1
  · simp [decodedEntry, dataCreate2, hpos] at hd
  · have hvalue : (decodedEntry bytes).value = some ⟨dataSize bytes, some (dataField bytes)⟩ := by
      simp only [decodedEntry, dataCreate2, hpos, reduceCtorEq, or_self, if_false, entryCreate_value]
    obtain rfl := Option.some.inj (hvalue.symm.trans hd)
    exact ⟨⟨Int.not_lt.mp hpos, Int.le_trans hsmall (by decide), _, rfl, le_of_eq hfield.symm⟩, hsmall⟩

theorem Orderly.invokeDel (hk : Orderly t buckets) (h : invokeDel t msg = .ok (t', reply)) :
    (∃ buckets', Orderly t' buckets') ∧ reply.buffer = ⟨0, none⟩ := by
  obtain ⟨key, hkey, hrange⟩ := (invokeDel_defined_iff hk.rep).mp ⟨_, h⟩
  rw [RemoteTable.invokeDel, hkey, deref_some, ok_bind] at h
  obtain ⟨⟨code, t₁⟩, hdel, h⟩ := bind_eq_ok.mp h
  obtain ⟨rfl, rfl⟩ := Prod.mk.inj (Except.ok.inj h)
  exact ⟨hk.del hrange hdel, rfl⟩

theorem Orderly.invokePut (hk : Orderly t buckets) (hd : msg.buffer.Delivered)
    (h : invokePut env t msg = .ok (t', reply)) :
    (∃ buckets', Orderly t' buckets') ∧ reply.buffer = ⟨0, none⟩ := by
  obtain ⟨bytes, hdata, hpay⟩ := (invokePut_defined_iff hk.rep hd).mp ⟨_, h⟩
  have hlen : msg.buffer.len = bytes.length := by
    rcases hd with ⟨hnone, -⟩ | ⟨b, -, hb, hlen⟩
    · rw [hnone] at hdata
      cases hdata
    · obtain rfl := Option.some.inj (hb.symm.trans hdata)
      exact hlen
  rw [RemoteTable.invokePut, hdata, hlen, bufferToEntry_layout (env.junk 0) hpay.layout hpay.length, ok_bind,
    deref_some, ok_bind] at h
  obtain ⟨⟨code, t₁⟩, hput, h⟩ := bind_eq_ok.mp h
  obtain ⟨rfl, rfl⟩ := Prod.mk.inj (Except.ok.inj h)
  exact ⟨hk.put hpay.inRange (fromWire_decoded hpay.layout) hput, rfl⟩

/-- A `GET` that is answered has a key that can be looked up. -/
theorem keyRequest_of_invokeGet (hs : Shape t buckets) (h : Defined (RemoteTable.invokeGet env t msg)) :
    KeyRequest t msg.buffer := by
  obtain ⟨reply, h⟩ := h
  cases hdata : msg.buffer.data with
  | none =>
    rw [RemoteTable.invokeGet, hdata] at h
    cases h
  | some key =>
    refine ⟨key, hdata, ?_⟩
    by_contra hrange
    obtain ⟨f, hf⟩ := lookup_outOfRange hs hrange _
    rw [RemoteTable.invokeGet, hdata, deref_some, ok_bind, tableGet, hf] at h
    cases h

/-- `GET` comes to no fault on a key that can be looked up, and its reply can be sent. -/
theorem Orderly.invokeGet (hk : Orderly t buckets) (env : Env) (hreq : KeyRequest t msg.buffer) :
    ∃ reply, invokeGet env t msg = .ok reply ∧ Defined reply.buffer.sent := by
  obtain ⟨key, hkey, hrange⟩ := hreq
  rcases hk.get hrange with hnone | ⟨bs, hbs, hsmall, hget⟩
  · exact ⟨_, invokeGet_absent hkey (hnone _), [], rfl⟩
  · have hfit : sizeofInt + (DataT.ofBytes bs).datasize ≤ intMax := by
      have hsize : (DataT.ofBytes bs).datasize = bs.length := rfl
      unfold sizeofInt intMax
      omega
    exact ⟨_, invokeGet_present hkey hbs.readable (hget _) hfit, _, sent_all _⟩

/-- `STATS` sends what it has copied, or nothing. -/
theorem invokeStats_replies {stats : Statistics} (h : invokeStats env stats msg = .ok reply) :
    Defined reply.buffer.sent := by
  have hempty : ∀ (opcode cType : Int) (data : Block),
      Defined (MessageT.mk opcode cType ⟨0, some data⟩).buffer.sent :=
    fun _ _ data => ⟨_, slice_inside le_rfl le_rfl (Int.natCast_nonneg _)⟩
  obtain ⟨data, hdata, hstore⟩ := malloc_store (env.junk 0)
    (congrArg Nat.cast (env.length_statsImage stats))
  rw [invokeStats] at h
  by_cases hblock : env.statsBlock
  · rw [if_pos hblock, hdata, deref_some, ok_bind] at h
    by_cases hlock : env.readLock ≠ 0
    · rw [if_pos hlock] at h
      obtain rfl := Except.ok.inj h
      exact hempty _ _ _
    · rw [if_neg hlock, hstore, ok_bind] at h
      by_cases hunlock : env.readUnlock ≠ 0
      · rw [if_pos hunlock] at h
        obtain rfl := Except.ok.inj h
        exact hempty _ _ _
      · rw [if_neg hunlock] at h
        obtain rfl := Except.ok.inj h
        have hsent := sent_all (env.statsImage stats)
        rw [env.length_statsImage] at hsent
        exact ⟨_, hsent⟩
  · rw [if_neg hblock] at h
    obtain rfl := Except.ok.inj h
    exact ⟨[], rfl⟩

/-- A message as it was delivered can be sent back. -/
theorem sent_of_delivered (hd : msg.buffer.Delivered) : Defined msg.buffer.sent := by
  obtain ⟨opcode, cType, len, data⟩ := msg
  rcases hd with ⟨hdata, hlen⟩ | ⟨bytes, -, hdata, hlen⟩
  · obtain rfl : data = none := hdata
    exact ⟨[], if_pos hlen⟩
  · obtain rfl : data = some bytes := hdata
    obtain rfl : len = bytes.length := hlen
    exact ⟨bytes, sent_all bytes⟩

/-- The requests the server can take, by opcode, when some keys may have no value. -/
structure Answerable (t : TableT) (buckets : Buckets) (msg : MessageT) : Prop extends
    Servable t buckets msg where
  valued : msg.opcode = opPrint → ∀ e ∈ entries buckets, e.value ≠ none

/-- **A request that can be taken is answered**: the table stays in good order, and the bytes of
the reply are there. -/
theorem Orderly.dispatch (hk : Orderly srv.gTable buckets) (env : Env) (hd : msg.buffer.Delivered)
    (hserv : Answerable srv.gTable buckets msg) :
    ∃ r, dispatch env srv msg = .ok r ∧ ∀ srv' reply, r = some (srv', reply) →
      (∃ buckets', Orderly srv'.gTable buckets') ∧ Defined reply.buffer.sent := by
  have hs := hk.rep.shape
  by_cases hop : Handled msg.opcode
  · simp only [Handled, List.mem_cons, List.not_mem_nil, or_false] at hop
    rcases hop with h | h | h | h | h | h | h
    · refine ⟨_, by rw [dispatch_size h, invokeSize_eq hs (hserv.size h), ok_bind]; rfl, ?_⟩
      rintro _ _ ⟨⟩
      exact ⟨⟨buckets, hk⟩, _, sent_all (wireSize (env.junk 0) _)⟩
    · obtain ⟨⟨t, reply⟩, hdel⟩ := (invokeDel_defined_iff hk.rep).mpr (hserv.del h)
      obtain ⟨hkept, hbuf⟩ := hk.invokeDel hdel
      refine ⟨_, by rw [dispatch_del h, hdel, ok_bind]; rfl, ?_⟩
      rintro _ _ ⟨⟩
      exact ⟨hkept, [], by rw [hbuf]; rfl⟩
    · obtain ⟨reply, hget, hsent⟩ := hk.invokeGet env (hserv.get h)
      refine ⟨_, by rw [dispatch_get h, hget, ok_bind]; rfl, ?_⟩
      rintro _ _ ⟨⟩
      exact ⟨⟨buckets, hk⟩, hsent⟩
    · obtain ⟨⟨t, reply⟩, hput⟩ : Defined (RemoteTable.invokePut env srv.gTable msg) :=
        (invokePut_defined_iff hk.rep hd).mpr (hserv.put h)
      obtain ⟨hkept, hbuf⟩ := hk.invokePut hd hput
      refine ⟨_, by rw [dispatch_put h, hput, ok_bind]; rfl, ?_⟩
      rintro _ _ ⟨⟩
      exact ⟨hkept, [], by rw [hbuf]; rfl⟩
    · refine ⟨_, by rw [dispatch_getKeys h, invokeGetKeys_eq hs (hserv.getKeys h), ok_bind]; rfl, ?_⟩
      rintro _ _ ⟨⟩
      exact ⟨⟨buckets, hk⟩, _, sent_all _⟩
    · have hv := hk.valid (hserv.valued h)
      have hprint : RemoteTable.dispatch env srv msg = _ := dispatch_print h
      rw [invokePrint_eq hs hv (hserv.print h), ok_bind] at hprint
      have hbytes : replyBytes env srv msg = _ := print_reply hs hv h (hserv.print h)
      rw [replyBytes_of_dispatch hprint] at hbytes
      refine ⟨_, hprint, ?_⟩
      rintro _ _ ⟨⟩
      exact ⟨⟨buckets, hk⟩, _, hbytes⟩
    · obtain ⟨reply, hstats⟩ := invokeStats_defined env srv.stats msg
      refine ⟨_, by rw [dispatch_stats h, hstats, ok_bind]; rfl, ?_⟩
      rintro _ _ ⟨⟩
      exact ⟨⟨buckets, hk⟩, invokeStats_replies hstats⟩
  · refine ⟨none, dispatch_refused hop, ?_⟩
    rintro _ _ ⟨⟩

/-- **The branch of a request comes to no fault** exactly when the server can take it. -/
theorem Orderly.dispatch_defined_iff (hk : Orderly srv.gTable buckets) (env : Env) (hd : msg.buffer.Delivered) :
    Defined (RemoteTable.dispatch env srv msg) ↔ Answerable srv.gTable buckets msg := by
  have hs := hk.rep.shape
  constructor
  · rintro ⟨r, h⟩
    refine ⟨⟨fun hop => ?_, fun hop => ?_, fun hop => ?_, fun hop => ?_, fun hop => ?_, fun hop => ?_⟩,
      fun hop => ?_⟩
    · by_contra hle
      rw [dispatch_size hop, invokeSize_overflow hs hle] at h
      cases h
    · rw [dispatch_del hop] at h
      obtain ⟨_, hdel, -⟩ := bind_eq_ok.mp h
      exact (invokeDel_defined_iff hk.rep).mp ⟨_, hdel⟩
    · rw [dispatch_get hop] at h
      obtain ⟨_, hget, -⟩ := bind_eq_ok.mp h
      exact keyRequest_of_invokeGet hs ⟨_, hget⟩
    · rw [dispatch_put hop] at h
      obtain ⟨_, hput, -⟩ := bind_eq_ok.mp h
      exact (invokePut_defined_iff hk.rep hd).mp ⟨_, hput⟩
    · by_contra hlt
      rw [dispatch_getKeys hop, invokeGetKeys_overflow hs hlt] at h
      cases h
    all_goals
      rw [dispatch_print hop] at h
      obtain ⟨_, hprint, -⟩ := bind_eq_ok.mp h
      obtain ⟨_, hstring, -⟩ := bind_eq_ok.mp hprint
      obtain ⟨hn, hv⟩ := tableToString_valued hs ⟨_, hstring⟩
    · exact hn
    · exact hv
  · intro hserv
    obtain ⟨r, hrun, -⟩ := hk.dispatch env hd hserv
    exact ⟨r, hrun⟩

/-- **`invoke` comes to no fault** exactly when the server can take the request. -/
theorem Orderly.invoke_defined_iff (hk : Orderly srv.gTable buckets) (env : Env) (hd : msg.buffer.Delivered) :
    Defined (invoke env srv msg) ↔ Answerable srv.gTable buckets msg := by
  rw [← hk.dispatch_defined_iff env hd]
  constructor
  · rintro ⟨r, hrun⟩
    obtain ⟨d, hdisp, -⟩ := bind_eq_ok.mp hrun
    exact ⟨d, hdisp⟩
  · rintro ⟨_ | ⟨srv₁, reply⟩, hdisp⟩
    · exact ⟨_, invoke_of_refused hdisp⟩
    · obtain ⟨code, stats, hrun⟩ := invoke_of_dispatch hdisp
      exact ⟨_, hrun⟩

/-- **A request keeps the table in good order, and its reply can be sent.** -/
theorem Orderly.invoke (hk : Orderly srv.gTable buckets) (hd : msg.buffer.Delivered) {code : Int}
    (h : invoke env srv msg = .ok (code, srv', reply)) :
    (∃ buckets', Orderly srv'.gTable buckets') ∧ Defined reply.buffer.sent := by
  rcases invoke_eq_ok h with ⟨rfl, rfl⟩ | ⟨srv₁, hdisp, ht⟩
  · exact ⟨⟨buckets, hk⟩, sent_of_delivered hd⟩
  · obtain ⟨r, hrun, hall⟩ := hk.dispatch env hd ((hk.dispatch_defined_iff env hd).mp ⟨_, hdisp⟩)
    obtain rfl := Except.ok.inj (hrun.symm.trans hdisp)
    rw [ht]
    exact hall srv₁ reply rfl

end Request
end RemoteTable
