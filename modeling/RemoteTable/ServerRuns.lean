import RemoteTable.RequestSafety
import RemoteTable.TableRuns

/-! # Runs of the server

A `PUT` travels as `entry_to_buffer` builds it.  Three constructors on its way into
the table signal failure with `NULL`, and no caller checks: an entry without bytes
loses its value in `data_create2`, and `table_put` stores the key with none.

`Reaches` are the states of a server that is sent no empty `PUT`, and none that has
to go behind a freed tail.  There the table is in good order (`Sound`), and a `PUT`
is visible as soon as it is answered.
-/
namespace RemoteTable
open CMem Assoc

/-- The message is a `PUT` as a client builds it from the entry: a short ASCII key
and a value of at most 127 bytes. -/
structure BuiltPut (msg : MessageT) (e : EntryT) (d : DataT) : Prop where
  opcode : msg.opcode = opPut
  terminated : Terminated e.key
  ascii : ∀ c ∈ e.keyStr, c ≠ 0 ∧ c.toNat < 128
  short : e.keyStr.length ≤ 126
  value : e.value = some d
  readable : d.Readable
  small : d.datasize ≤ 127
  encoded : ∃ junk size buf, entryToBuffer junk (some e) = .ok (size, some buf) ∧
    msg.buffer = ⟨toSizeT size, some buf⟩

/-- The condition on a `PUT`: it carries at least one byte, and its key is present
or does not go behind a freed tail. -/
def PutLives (t : TableT) (e : EntryT) (d : DataT) : Prop :=
  1 ≤ d.datasize ∧ ¬ (KeyAbsent t e.toKey.block ∧ StaleTail t e.toKey.block)

/-- A request of a run: any request that is not a `PUT`, or a `PUT` as a client
builds it. -/
def Sendable (msg : MessageT) : Prop := msg.opcode = opPut → ∃ e d, BuiltPut msg e d

/-- The states of a server with `n` lists, over all runs whose `PUT`s meet the
condition. -/
inductive Reaches (n : Int) : Server → Prop
  | init : Reaches n (tableSkelInit n)
  | step {srv srv' : Server} {env : Env} {msg reply : MessageT} {code : Int} :
      Reaches n srv → Sendable msg → (∀ e d, BuiltPut msg e d → PutLives srv.gTable e d) →
      invoke env srv msg = .ok (code, srv', reply) → Reaches n srv'

/-- Every entry the table holds has a value of at least one byte. -/
def AllValued (t : TableT) : Prop :=
  ∃ buckets, Shape t buckets ∧ ∀ e ∈ entries buckets, ∃ d, e.value = some d ∧ d.Valid

/-- **A `PUT` does what its answer says**: it is answered; without an error the table
right after it maps the key to the bytes; with an error it is what it was. -/
def PutTold (env : Env) (srv : Server) (msg : MessageT) (e : EntryT) (d : DataT) : Prop :=
  ∃ code srv' reply, invoke env srv msg = .ok (code, srv', reply) ∧
    (reply.opcode ≠ opError → ∀ junk,
      tableGet junk srv'.gTable e.toKey.block = .ok (some (DataT.ofBytes d.bytes))) ∧
    (reply.opcode = opError → srv'.gTable = srv.gTable)

/-! ## The branches that write -/

section Step
variable {env : Env} {t : TableT} {buckets : Buckets} {msg : MessageT} {e : EntryT} {d : DataT}

/-- What the server decodes from a `PUT` as a client builds it. -/
theorem BuiltPut.decoded (hb : BuiltPut msg e d) (junk : Nat → UInt8) :
    bufferToEntry junk msg.buffer.data (toInt32 msg.buffer.len) =
      .ok (some ⟨e.toKey.block, if d.datasize < 1 then none else some (DataT.ofBytes d.bytes)⟩) := by
  obtain ⟨junk', size, buf, hrun, hbuf⟩ := hb.encoded
  have hshort := hb.short
  have hsmall := hb.small
  have hnonneg := hb.readable.size_nonneg
  rw [entryToBuffer_eq junk' hb.terminated hb.value hb.readable
    (by unfold sizeofInt intMax; omega)] at hrun
  obtain ⟨rfl, hblock⟩ := Prod.mk.inj (Except.ok.inj hrun)
  obtain rfl := Option.some.inj hblock
  obtain ⟨hlayout, -⟩ := wireEntry_layout hb.readable hb.short hb.small
  have hlen := toSizeT_of_nonneg
    (show 0 ≤ 2 * sizeofInt + ((e.keyStr.length : Int) + 1) + d.datasize by unfold sizeofInt; omega)
    (by unfold sizeofInt intMax; omega)
  have hsize : toInt32 (toSizeT (2 * sizeofInt + ((e.keyStr.length : Int) + 1) + d.datasize)) ≠ -1 := by
    rw [hlen, toInt32_of_nonneg (by omega) (by unfold sizeofInt intMax; omega)]
    unfold sizeofInt
    omega
  rw [hbuf, bufferToEntry_layout junk hlayout hsize,
    decodedEntry_wireEntry hb.readable hb.short hb.small]
  rfl

/-- The hash of the key is an index of the table. -/
theorem BuiltPut.inRange (hb : BuiltPut msg e d) {n : Int} (hn : 1 ≤ n) : InRange n e.toKey.block :=
  inRange_ascii hb.ascii (by have := hb.short; unfold intMax; omega) hn

theorem BuiltPut.valid (hb : BuiltPut msg e d) (hpos : 1 ≤ d.datasize) : d.Valid :=
  ⟨hpos, Int.le_trans hb.small (by decide), hb.readable.block⟩

/-- The branch is defined unless it has to go behind a freed tail. -/
theorem BuiltPut.invokePut_defined_iff (hb : BuiltPut msg e d) (hr : Rep t buckets) (hn : 1 ≤ t.n)
    (env : Env) : Defined (invokePut env t msg) ↔
      ¬ (KeyAbsent t e.toKey.block ∧ StaleTail t e.toKey.block) := by
  obtain ⟨v, hdup⟩ : ∃ v, dataDup (env.junk 1)
      (if d.datasize < 1 then none else some (DataT.ofBytes d.bytes)) = .ok v := by
    by_cases hd : d.datasize < 1
    · exact ⟨none, by simp [hd]⟩
    · rw [if_neg hd]
      exact ⟨_, dataDup_valid _ (hb.valid (Int.not_lt.mp hd)).ofBytes⟩
  rw [invokePut, hb.decoded (env.junk 0), ok_bind, deref_some, ok_bind]
  exact (defined_bind_iff (by rintro ⟨_, _⟩; exact defined_ok _)).trans
    (tablePut_defined_iff _ hdup hr (hb.inRange hn))

/-- **A `PUT` that meets its condition stores its value**, in a table in good order
that stays so. -/
theorem Sound.invokePut (hs : Sound t buckets) (hn : 1 ≤ t.n) (hb : BuiltPut msg e d)
    (hl : PutLives t e d) (env : Env) :
    ∃ t' buckets', invokePut env t msg = .ok (t', ⟨msg.opcode + 1, ctNone, ⟨0, none⟩⟩) ∧
      Sound t' buckets' ∧ t'.n = t.n ∧
      ∀ junk, tableGet junk t' e.toKey.block = .ok (some (DataT.ofBytes d.bytes)) := by
  have hvalid := hb.valid hl.1
  have hrange := hb.inRange hn
  obtain ⟨i, b, hloc⟩ := hrange.located hs.rep.shape
  obtain ⟨t', buckets', hput, hs', hn', hh⟩ := hs.put hloc (env.junk 1) hvalid.ofBytes hl.2
  refine ⟨t', buckets', ?_, hs', hn', fun junk => ?_⟩
  · rw [RemoteTable.invokePut, hb.decoded (env.junk 0), ok_bind, deref_some, ok_bind,
      if_neg (Int.not_lt.mpr hl.1)]
    simp only [hput, ok_bind, pure_eq_ok]
    rfl
  · obtain ⟨i', b', hloc'⟩ := (hn' ▸ hrange).located hs'.rep.shape
    refine hs'.get hloc' junk ?_
    rw [hh, if_pos rfl, DataT.bytes_ofBytes]

/-- A `PUT` without bytes is acknowledged, and its key has no value. -/
theorem Sound.invokePut_empty (hs : Sound t buckets) (hn : 1 ≤ t.n) (hb : BuiltPut msg e d)
    (hd : d.datasize < 1)
    (hl : ¬ (KeyAbsent t e.toKey.block ∧ StaleTail t e.toKey.block)) (env : Env) :
    ∃ t', RemoteTable.invokePut env t msg = .ok (t', ⟨msg.opcode + 1, ctNone, ⟨0, none⟩⟩) ∧
      ∀ junk, tableGet junk t' e.toKey.block = .ok none := by
  obtain ⟨t', hput, hget⟩ := tablePut_get (env.junk 1) (dataDup_null _) hs.rep (hb.inRange hn) hl
  refine ⟨t', ?_, hget⟩
  rw [RemoteTable.invokePut, hb.decoded (env.junk 0), ok_bind, deref_some, ok_bind, if_pos hd]
  simp only [hput, ok_bind, pure_eq_ok]
  rfl

/-- **A `PUT` is told truly exactly when it meets its condition.** -/
theorem Sound.putTold_iff {srv : Server} (hs : Sound srv.gTable buckets) (hn : 1 ≤ srv.gTable.n)
    (hb : BuiltPut msg e d) (env : Env) : PutTold env srv msg e d ↔ PutLives srv.gTable e d := by
  have hdisp : dispatch env srv msg = _ := dispatch_put hb.opcode
  have hok : msg.opcode + 1 ≠ opError := by
    rw [hb.opcode]
    decide
  constructor
  · rintro ⟨code, srv', reply, hrun, hread, -⟩
    have hlive := (hb.invokePut_defined_iff hs.rep hn env).mp <| by
      cases hput : RemoteTable.invokePut env srv.gTable msg with
      | ok r => exact defined_ok r
      | error f =>
        rw [hput, error_bind] at hdisp
        rw [invoke_of_fault hdisp] at hrun
        cases hrun
    refine ⟨?_, hlive⟩
    by_contra hempty
    obtain ⟨t', hput, hget⟩ := hs.invokePut_empty hn hb (Int.not_le.mp hempty) hlive env
    rw [hput, ok_bind] at hdisp
    obtain ⟨code', stats, hrun'⟩ := invoke_of_dispatch hdisp
    rw [hrun'] at hrun
    obtain ⟨-, rfl, rfl⟩ : code' = code ∧ _ = srv' ∧ _ = reply := by
      simpa using Except.ok.inj hrun
    have hgot := hread hok fun _ => 0
    rw [hget] at hgot
    cases hgot
  · intro hl
    obtain ⟨t', buckets', hput, -, -, hget⟩ := hs.invokePut hn hb hl env
    rw [hput, ok_bind] at hdisp
    obtain ⟨code, stats, hrun⟩ := invoke_of_dispatch hdisp
    exact ⟨code, _, _, hrun, fun _ => hget, fun hop => absurd hop hok⟩

/-- A `DEL` that returns leaves the table in good order. -/
theorem Sound.invokeDel (hs : Sound t buckets) {t' : TableT} {reply : MessageT}
    (hrun : invokeDel t msg = .ok (t', reply)) : ∃ buckets', Sound t' buckets' ∧ t'.n = t.n := by
  obtain ⟨key, hkey, hrange⟩ := (invokeDel_defined_iff hs.rep).mp ⟨_, hrun⟩
  obtain ⟨i, b, hl⟩ := hrange.located hs.rep.shape
  rw [RemoteTable.invokeDel, hkey, deref_some, ok_bind] at hrun
  by_cases hpres : ∃ bs, Holds buckets (cstr key) bs
  · obtain ⟨bs, hbs⟩ := hpres
    obtain ⟨t₁, buckets', hdel, hs', hn, -⟩ := hs.del hl hbs
    rw [hdel, ok_bind] at hrun
    obtain ⟨rfl, -⟩ := Prod.mk.inj (Except.ok.inj hrun)
    exact ⟨buckets', hs', hn⟩
  · rw [hs.del_absent hl (not_exists.mp hpres), ok_bind] at hrun
    obtain ⟨rfl, -⟩ := Prod.mk.inj (Except.ok.inj hrun)
    exact ⟨buckets, hs, rfl⟩

end Step

/-! ## Runs -/

section Run
variable {n : Int} {srv srv' : Server} {buckets : Buckets} {env : Env} {msg reply : MessageT}
  {code : Int}

/-- **One request keeps the table in good order.** -/
theorem Sound.invoke (hs : Sound srv.gTable buckets) (hn : 1 ≤ srv.gTable.n) (hmsg : Sendable msg)
    (hput : ∀ e d, BuiltPut msg e d → PutLives srv.gTable e d)
    (hrun : invoke env srv msg = .ok (code, srv', reply)) :
    ∃ buckets', Sound srv'.gTable buckets' ∧ srv'.gTable.n = srv.gTable.n := by
  rcases invoke_eq_ok hrun with ⟨rfl, -⟩ | ⟨srv₁, hdisp, ht⟩
  · exact ⟨buckets, hs, rfl⟩
  · rw [ht]
    rcases dispatch_table hdisp with hkeep | ⟨-, hdel⟩ | ⟨hop, hputrun⟩
    · rw [hkeep]
      exact ⟨buckets, hs, rfl⟩
    · exact hs.invokeDel hdel
    · obtain ⟨e, d, hb⟩ := hmsg hop
      obtain ⟨t', buckets', hrun', hs', hn', -⟩ := hs.invokePut hn hb (hput e d hb) env
      obtain ⟨rfl, -⟩ := Prod.mk.inj (Except.ok.inj (hrun'.symm.trans hputrun))
      exact ⟨buckets', hs', hn'⟩

/-- The table of every state reached is in good order. -/
theorem Reaches.sound (hn : 1 ≤ n) (hr : Reaches n srv) :
    ∃ buckets, Sound srv.gTable buckets ∧ srv.gTable.n = n := by
  induction hr with
  | init => exact ⟨_, tableCreate_sound (by omega), rfl⟩
  | step _ hmsg hput hrun ih =>
    obtain ⟨buckets, hs, hsize⟩ := ih
    obtain ⟨buckets', hs', hsize'⟩ := hs.invoke (by omega) hmsg hput hrun
    exact ⟨buckets', hs', hsize'.trans hsize⟩

/-- **No key is without a value, and an acknowledged `PUT` is readable**: in every
state of every run whose `PUT`s carry a byte and do not go behind a freed tail, and
there for exactly the `PUT`s that do neither. -/
theorem put_told_iff (n : Int) (hn : 1 ≤ n) (srv : Server) (hr : Reaches n srv) :
    AllValued srv.gTable ∧ ∀ env msg e d, BuiltPut msg e d →
      (PutTold env srv msg e d ↔ PutLives srv.gTable e d) := by
  obtain ⟨buckets, hs, hsize⟩ := hr.sound hn
  refine ⟨⟨buckets, hs.rep.shape, fun e he => ?_⟩, fun env msg e d hb => ?_⟩
  · obtain ⟨bs, hbs, hval⟩ := hs.stored e he
    exact ⟨_, hval, hbs⟩
  · exact hs.putTold_iff (by omega) hb env

/-- A `PUT` of the key `a`. -/
def putRequestA : MessageT := ⟨opPut, ctEntry, ⟨11, some [2, 0, 0, 0, 1, 0, 0, 0, 97, 0, 5]⟩⟩

theorem putRequestA_built : BuiltPut putRequestA entryA (.ofBytes [5]) :=
  ⟨rfl, by decide, by simp [entryA, EntryT.keyStr, cstr], by decide, rfl, ⟨by decide, [5], rfl, by decide⟩,
    by decide, fun _ => 0, 11, _, rfl, rfl⟩

/-- It carries a byte, so all that can stop it is a freed tail. -/
theorem putRequestA_lives {t : TableT} {e : EntryT} {d : DataT} (ht : ¬ StaleTail t [97, 0])
    (hb : BuiltPut putRequestA e d) : PutLives t e d := by
  have hsize : toInt32 putRequestA.buffer.len ≠ -1 := by
    have hlen : toInt32 putRequestA.buffer.len = 11 := toInt32_of_nonneg (x := 11) (by decide) (by decide)
    rw [hlen]
    decide
  have hlayout : EntryLayout [2, 0, 0, 0, 1, 0, 0, 0, 97, 0, 5] := by decide
  have hdecoded := (bufferToEntry_layout (fun _ => 0) hlayout hsize).symm.trans (hb.decoded fun _ => 0)
  have hentry : (⟨[97, 0], some (.ofBytes [5])⟩ : EntryT) =
      ⟨e.toKey.block, if d.datasize < 1 then none else some (.ofBytes d.bytes)⟩ :=
    Option.some.inj (Except.ok.inj hdecoded)
  have hkey : [97, 0] = e.toKey.block := congrArg EntryT.key hentry
  have hvalue := congrArg EntryT.value hentry
  refine ⟨?_, fun h => ht (hkey ▸ h.2)⟩
  by_contra hempty
  rw [if_pos (by omega)] at hvalue
  cases hvalue

/-- A list without nodes gets its new node as the head. -/
theorem not_staleTail_headless {tail : Option Addr} {heap : NodeHeap} :
    ¬ StaleTail ⟨1, [⟨none, tail⟩], heap⟩ [97, 0] := by
  rintro ⟨index, list, a, hhash, hlist, hhead, -⟩
  obtain rfl : (0 : Int) = index := Except.ok.inj hhash
  obtain rfl : (⟨none, tail⟩ : ListT) = list := Except.ok.inj hlist
  exact hhead rfl

/-- The table that had the key and lost it: `tail` still points at the node. -/
def emptiedTable : TableT := ⟨1, [⟨none, some 0⟩], ⟨[none]⟩⟩

/-- A server comes to it by a `PUT` and a `DEL`. -/
theorem emptiedTable_reached : ∃ srv, Reaches 1 srv ∧ srv.gTable = emptiedTable := by
  have hput : dispatch (.calm fun _ _ => 0) (tableSkelInit 1) putRequestA =
      .ok (some ({ tableSkelInit 1 with gTable := (oneList [entryA]).gTable },
        ⟨opPut + 1, ctNone, ⟨0, none⟩⟩)) := rfl
  obtain ⟨code, stats, hrun⟩ := invoke_of_dispatch hput
  have hreach := Reaches.init.step (fun _ => ⟨_, _, putRequestA_built⟩)
    (fun _ _ => putRequestA_lives not_staleTail_headless) hrun
  have hdel : dispatch (.calm fun _ _ => 0) ⟨(oneList [entryA]).gTable, stats⟩
      ⟨opDel, ctKey, ⟨2, some [97, 0]⟩⟩ =
      .ok (some (⟨emptiedTable, stats⟩, ⟨opDel + 1, ctNone, ⟨0, none⟩⟩)) := rfl
  obtain ⟨code', stats', hrun'⟩ := invoke_of_dispatch hdel
  exact ⟨_, hreach.step (fun hop => absurd hop (by decide))
    (fun _ _ hb => absurd hb.opcode (by decide)) hrun', rfl⟩

/-- The theorem at that server: the key can be put again. -/
theorem put_told_iff_emptied :
    ∃ srv, srv.gTable = emptiedTable ∧ AllValued srv.gTable ∧
      PutTold (.calm fun _ _ => 0) srv putRequestA entryA (.ofBytes [5]) := by
  obtain ⟨srv, hreach, ht⟩ := emptiedTable_reached
  obtain ⟨hvalued, htold⟩ := put_told_iff 1 (by decide) srv hreach
  refine ⟨srv, ht, hvalued, (htold _ _ _ _ putRequestA_built).mpr (putRequestA_lives ?_ putRequestA_built)⟩
  rw [ht]
  exact not_staleTail_headless

/-- An entry without bytes. -/
def hollowEntry : EntryT := ⟨[97, 0], some ⟨0, some []⟩⟩

/-- The `PUT` a client builds from it. -/
def hollowPut : MessageT := ⟨opPut, ctEntry, ⟨10, some [2, 0, 0, 0, 0, 0, 0, 0, 97, 0]⟩⟩

/-- The table it leaves. -/
def hollowTable : TableT := ⟨1, [⟨some 0, some 0⟩], ⟨[some ⟨⟨[97, 0], none⟩, none⟩]⟩⟩

theorem hollowTable_not_valued : ¬ AllValued hollowTable := by
  rintro ⟨buckets, hs, hv⟩
  obtain ⟨list, b, -, hlist, hb, hc, -⟩ := hs.listAt (show 0 < buckets.length by rw [← hs.length_eq]; decide)
  obtain rfl := Option.some.inj hlist
  cases b with
  | nil => cases hc
  | cons x b =>
    obtain ⟨hx, nx, hload, -⟩ := hc
    obtain ⟨a, e⟩ := x
    obtain rfl : 0 = a := Option.some.inj hx
    obtain rfl : (⟨[97, 0], none⟩ : EntryT) = e := congrArg Cell.val (Except.ok.inj hload)
    obtain ⟨d, hd, -⟩ := hv ⟨[97, 0], none⟩
      (List.mem_map.mpr ⟨(0, ⟨[97, 0], none⟩), List.mem_flatten.mpr
        ⟨_, List.mem_of_getElem? hb, List.mem_cons_self⟩, rfl⟩)
    cases hd

/-- **A `PUT` of no bytes is acknowledged and leaves a key without a value.** -/
theorem hollowPut_not_told :
    BuiltPut hollowPut hollowEntry ⟨0, some []⟩ ∧
      ∃ code srv' reply, invoke (.calm fun _ _ => 0) (tableSkelInit 1) hollowPut =
          .ok (code, srv', reply) ∧ reply.opcode = opPut + 1 ∧ ¬ AllValued srv'.gTable ∧
        tableGet (fun _ => 0) srv'.gTable hollowEntry.key = .ok none := by
  have hdisp : dispatch (.calm fun _ _ => 0) (tableSkelInit 1) hollowPut =
      .ok (some ({ tableSkelInit 1 with gTable := hollowTable }, ⟨opPut + 1, ctNone, ⟨0, none⟩⟩)) := rfl
  obtain ⟨code, stats, hrun⟩ := invoke_of_dispatch hdisp
  have hascii : ∀ c ∈ hollowEntry.keyStr, c ≠ 0 ∧ c.toNat < 128 := by
    simp [hollowEntry, EntryT.keyStr, cstr]
  exact ⟨⟨rfl, by decide, hascii, by decide, rfl, ⟨by decide, [], rfl, by decide⟩, by decide,
    fun _ => 0, 10, _, rfl, rfl⟩, code, _, _, hrun, rfl, hollowTable_not_valued, rfl⟩

end Run

end RemoteTable
