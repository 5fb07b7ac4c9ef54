import RemoteTable.RequestSafety
import RemoteTable.ClientStub

/-! # What a request leaves behind, and what the client is told

Every branch of `invoke` turns the request into its own reply, so the opcode of a reply
is the outcome: `OP_ERROR`, or the opcode of the request plus one.  The two never
coincide.  Only `DEL` and `PUT` touch the table, and a `DEL` that finds nothing leaves it
alone.

The stub sees the reply and nothing else.  `rtable_del` makes -1 of `OP_ERROR`, which is
what `table_del` answered on the server.

A `DEL` gets no answer at all when the hash of its key is no index of the table: the search
starts outside the array.
-/
namespace RemoteTable
open CMem

/-- The requests that only read the table. -/
def ReadOnly (opcode : Int) : Prop := opcode ∈ [opSize, opGet, opGetKeys, opPrint, opStats]

/-- The reply says how its request went: an error, or the opcode of the request plus
one. -/
def Answered (msg reply : MessageT) : Prop :=
  reply.opcode = opError ∨ reply.opcode = msg.opcode + 1

/-! ## The opcodes of the replies -/

section Opcode
variable {env : Env} {t t' : TableT} {srv srv' : Server} {msg reply : MessageT}

theorem invokeSize_answered (h : invokeSize env t msg = .ok reply) : Answered msg reply := by
  obtain ⟨_, -, h⟩ := bind_eq_ok.mp h
  obtain ⟨_, -, h⟩ := bind_eq_ok.mp h
  obtain ⟨_, -, h⟩ := bind_eq_ok.mp h
  obtain rfl := Except.ok.inj h
  exact Or.inr rfl

/-- The branches that write answer by the code of the table function. -/
theorem answered_by_code {code : Int} :
    Answered msg ⟨if code = -1 then opError else msg.opcode + 1, ctNone, ⟨0, none⟩⟩ := by
  by_cases hcode : code = -1
  · exact Or.inl (if_pos hcode)
  · exact Or.inr (if_neg hcode)

theorem invokeDel_answered (h : invokeDel t msg = .ok (t', reply)) : Answered msg reply := by
  obtain ⟨_, -, h⟩ := bind_eq_ok.mp h
  obtain ⟨⟨_, _⟩, -, h⟩ := bind_eq_ok.mp h
  obtain ⟨-, rfl⟩ := Prod.mk.inj (Except.ok.inj h)
  exact answered_by_code

theorem invokePut_answered (h : invokePut env t msg = .ok (t', reply)) : Answered msg reply := by
  obtain ⟨_, -, h⟩ := bind_eq_ok.mp h
  obtain ⟨_, -, h⟩ := bind_eq_ok.mp h
  obtain ⟨⟨_, _⟩, -, h⟩ := bind_eq_ok.mp h
  obtain ⟨-, rfl⟩ := Prod.mk.inj (Except.ok.inj h)
  exact answered_by_code

theorem invokeGet_answered (h : invokeGet env t msg = .ok reply) : Answered msg reply := by
  obtain ⟨_, -, h⟩ := bind_eq_ok.mp h
  obtain ⟨found, -, h⟩ := bind_eq_ok.mp h
  cases found with
  | none =>
    obtain rfl := Except.ok.inj h
    exact Or.inl rfl
  | some temp =>
    obtain ⟨⟨_, _⟩, -, h⟩ := bind_eq_ok.mp h
    obtain rfl := Except.ok.inj h
    exact Or.inr rfl

theorem invokeGetKeys_answered (h : invokeGetKeys env t msg = .ok reply) : Answered msg reply := by
  obtain ⟨_, -, h⟩ := bind_eq_ok.mp h
  obtain ⟨_, -, h⟩ := bind_eq_ok.mp h
  obtain ⟨_, -, h⟩ := bind_eq_ok.mp h
  obtain ⟨_, -, h⟩ := bind_eq_ok.mp h
  obtain rfl := Except.ok.inj h
  exact Or.inr rfl

theorem invokePrint_answered (h : invokePrint env t msg = .ok reply) : Answered msg reply := by
  obtain ⟨_, -, h⟩ := bind_eq_ok.mp h
  obtain ⟨_, -, h⟩ := bind_eq_ok.mp h
  obtain rfl := Except.ok.inj h
  exact Or.inr rfl

theorem invokeStats_answered {stats : Statistics} (h : invokeStats env stats msg = .ok reply) :
    Answered msg reply := by
  by_cases hblock : env.statsBlock
  · rw [invokeStats, if_pos hblock] at h
    obtain ⟨_, -, h⟩ := bind_eq_ok.mp h
    by_cases hlock : env.readLock ≠ 0
    · rw [if_pos hlock] at h
      obtain rfl := Except.ok.inj h
      exact Or.inl rfl
    · rw [if_neg hlock] at h
      obtain ⟨_, -, h⟩ := bind_eq_ok.mp h
      by_cases hunlock : env.readUnlock ≠ 0
      · rw [if_pos hunlock] at h
        obtain rfl := Except.ok.inj h
        exact Or.inl rfl
      · rw [if_neg hunlock] at h
        obtain rfl := Except.ok.inj h
        exact Or.inr rfl
  · rw [invokeStats, if_neg hblock] at h
    obtain rfl := Except.ok.inj h
    exact Or.inl rfl

/-- **A request that has a branch gets a reply of that branch.** -/
theorem dispatch_answered (hop : Handled msg.opcode) {r : Option (Server × MessageT)}
    (h : dispatch env srv msg = .ok r) : ∃ srv' reply, r = some (srv', reply) ∧ Answered msg reply := by
  obtain ⟨srv', reply, hr, hb⟩ := dispatch_branch hop h
  refine ⟨srv', reply, hr, ?_⟩
  cases hb with
  | size _ hrun => exact invokeSize_answered hrun
  | del _ hrun => exact invokeDel_answered hrun
  | get _ hrun => exact invokeGet_answered hrun
  | put _ hrun => exact invokePut_answered hrun
  | getKeys _ hrun => exact invokeGetKeys_answered hrun
  | print _ hrun => exact invokePrint_answered hrun
  | stats _ hrun => exact invokeStats_answered hrun

/-- **No success can be taken for an error.** -/
theorem succ_ne_opError (hop : Handled msg.opcode) : msg.opcode + 1 ≠ opError := by
  simp only [Handled, List.mem_cons, List.not_mem_nil, or_false] at hop
  rcases hop with ho | ho | ho | ho | ho | ho | ho <;> rw [ho] <;> decide

/-- When the locks can be taken and released, the tail returns 0. -/
theorem statsTail_code (hlock : env.writeLock = 0) (hunlock : env.writeUnlock = 0) {opCode code : Int}
    {stats stats' : Statistics} (h : statsTail env opCode stats = .ok (code, stats')) : code = 0 := by
  rw [statsTail_code_eq h, if_neg]
  rintro ⟨-, hfail | hfail⟩
  · exact hfail hlock
  · exact hfail hunlock

end Opcode

/-! ## What the client is told -/

/-- **A `DEL` says whether its key was there**: it is answered, with an error exactly when
the key is absent; then the table is what it was.  From any response that carries the
reply, `rtable_del` makes the -1 of `table_del`. -/
def DelTold (env : Env) (srv : Server) (msg : MessageT) (key : Block) : Prop :=
  ∃ code srv' reply, invoke env srv msg = .ok (code, srv', reply) ∧
    (reply.opcode = opError ↔ KeyAbsent srv.gTable key) ∧
    (KeyAbsent srv.gTable key → srv'.gTable = srv.gTable) ∧
    ∀ resp, Carried reply resp →
      (rtableDel (some resp) = -1 ↔ ∃ t', tableDel srv.gTable key = .ok (-1, t'))

/-- The outcome of a request, on a server whose table represents the buckets. -/
structure Outcome (env : Env) (srv : Server) (buckets : Buckets) (msg : MessageT) : Prop where
  /-- A request the server can take is answered. -/
  defined : Rep srv.gTable buckets → EntriesValid buckets → msg.buffer.Delivered →
    Servable srv.gTable buckets msg → Defined (invoke env srv msg)
  /-- A request that only reads leaves the table as it was. -/
  readOnly : ReadOnly msg.opcode → ∀ {code srv' reply},
    invoke env srv msg = .ok (code, srv', reply) → srv'.gTable = srv.gTable
  /-- A `DEL` with a string for its key says whether that was there. -/
  del : msg.opcode = opDel → ∀ {key}, msg.buffer.data = some key → Terminated key →
    DelTold env srv msg key
  /-- A reply is an error or carries the opcode of the request plus one, never both. -/
  answered : Handled msg.opcode → msg.opcode + 1 ≠ opError ∧ ∀ {code srv' reply},
    invoke env srv msg = .ok (code, srv', reply) → Answered msg reply
  /-- Any other opcode changes nothing. -/
  refused : ¬ Handled msg.opcode → invoke env srv msg = .ok (-1, srv, msg)
  code : env.writeLock = 0 → env.writeUnlock = 0 → ∀ {code srv' reply},
    invoke env srv msg = .ok (code, srv', reply) → (code = -1 ↔ ¬ Handled msg.opcode)

/-- **The condition**: the hash of the key of a `DEL` is an index of the table. -/
def DelMeets (t : TableT) (msg : MessageT) : Prop :=
  msg.opcode = opDel → ∀ {key}, msg.buffer.data = some key → Terminated key → InRange t.n key

section Outcome
variable {env : Env} {srv srv' : Server} {buckets : Buckets} {msg reply : MessageT} {key : Block}

theorem rtableDel_eq_neg_one (resp : MessageT) :
    rtableDel (some resp) = -1 ↔ resp.opcode = opError := by
  by_cases h : resp.opcode = opError
  · simp [rtableDel, h]
  · simp [rtableDel, h]

/-- A `DEL` whose key has an index in the table. -/
theorem delTold_of_inRange (hs : Shape srv.gTable buckets) (hop : msg.opcode = opDel)
    (hkey : msg.buffer.data = some key) (hk : InRange srv.gTable.n key) : DelTold env srv msg key := by
  have hsucc : msg.opcode + 1 ≠ opError := by
    rw [hop]
    decide
  have hdisp : dispatch env srv msg = _ := dispatch_del hop
  rw [invokeDel, hkey, deref_some, ok_bind] at hdisp
  obtain ⟨i, b, hl⟩ := hk.located hs
  rcases hl.cases hs with ⟨habs, hnone⟩ | ⟨hpres, pre, a, e, post, rfl, hpre, hke⟩
  · have hdel := tableDel_absent hs hl hnone
    rw [hdel, ok_bind] at hdisp
    obtain ⟨code, stats, hrun⟩ := invoke_of_dispatch hdisp
    refine ⟨code, _, _, hrun, iff_of_true rfl habs, fun _ => rfl, fun resp hresp => ?_⟩
    rw [rtableDel_eq_neg_one, hresp.opcode]
    exact iff_of_true rfl ⟨_, hdel⟩
  · obtain ⟨list, heap, list', -, hdel, -⟩ := tableDel_removes hs hl hpre hke
    rw [hdel, ok_bind] at hdisp
    obtain ⟨code, stats, hrun⟩ := invoke_of_dispatch hdisp
    refine ⟨code, _, _, hrun, iff_of_false hsucc hpres, fun h => absurd h hpres, fun resp hresp => ?_⟩
    rw [rtableDel_eq_neg_one, hresp.opcode]
    refine iff_of_false hsucc ?_
    rintro ⟨t', ht'⟩
    cases hdel.symm.trans ht'

/-- A `DEL` that is answered has such a key. -/
theorem inRange_of_delTold (hs : Shape srv.gTable buckets) (hop : msg.opcode = opDel)
    (hkey : msg.buffer.data = some key) (h : DelTold env srv msg key) : InRange srv.gTable.n key := by
  obtain ⟨code, srv', reply, hrun, -⟩ := h
  by_contra hk
  obtain ⟨f, hf⟩ := lookup_outOfRange hs hk _
  have hdisp : dispatch env srv msg = .error f := by
    rw [dispatch_del hop, invokeDel, hkey, deref_some, ok_bind, tableDel, hf]
    rfl
  rw [invoke_of_fault hdisp] at hrun
  cases hrun

/-- A call that returns has passed through a branch, or was refused. -/
theorem invoke_cases {code : Int} (h : invoke env srv msg = .ok (code, srv', reply)) :
    (¬ Handled msg.opcode ∧ code = -1 ∧ srv' = srv ∧ reply = msg) ∨
      ∃ srv₁ stats, Handled msg.opcode ∧ dispatch env srv msg = .ok (some (srv₁, reply)) ∧
        statsTail env msg.opcode srv₁.stats = .ok (code, stats) ∧
        srv' = { srv₁ with stats := stats } ∧ Answered msg reply := by
  obtain ⟨r, hdisp, hrest⟩ := bind_eq_ok.mp h
  by_cases hop : Handled msg.opcode
  · obtain ⟨srv₁, reply₁, rfl, hans⟩ := dispatch_answered hop hdisp
    obtain ⟨⟨code₁, stats⟩, htail, hret⟩ := bind_eq_ok.mp hrest
    obtain ⟨rfl, rfl, rfl⟩ : code₁ = code ∧ { srv₁ with stats := stats } = srv' ∧ reply₁ = reply := by
      simpa using Except.ok.inj hret
    exact Or.inr ⟨srv₁, stats, hop, hdisp, htail, rfl, hans⟩
  · rw [dispatch_refused hop] at hdisp
    obtain rfl := Except.ok.inj hdisp
    obtain ⟨rfl, rfl, rfl⟩ : (-1 : Int) = code ∧ srv = srv' ∧ msg = reply := by
      simpa using Except.ok.inj hrest
    exact Or.inl ⟨hop, rfl, rfl, rfl⟩

/-- **Failed and read-only requests leave the table as it was, and the outcome reaches the
client**, for every table, every request that meets the condition and everything `invoke`
meets. -/
theorem request_outcome (env : Env) (srv : Server) (buckets : Buckets)
    (hs : Shape srv.gTable buckets) (msg : MessageT) (hmeets : DelMeets srv.gTable msg) :
    Outcome env srv buckets msg where
  defined hr hv hd hserv := by
    obtain ⟨r, hdisp⟩ := (dispatch_defined_iff env srv hr hv hd).mpr hserv
    cases r with
    | none => exact ⟨_, invoke_of_refused hdisp⟩
    | some r =>
      obtain ⟨code, stats, hrun⟩ := invoke_of_dispatch hdisp
      exact ⟨_, hrun⟩
  readOnly hro code srv' reply h := by
    rcases invoke_eq_ok h with ⟨rfl, -⟩ | ⟨srv₁, hdisp, ht⟩
    · rfl
    · simp only [ReadOnly, List.mem_cons, List.not_mem_nil, or_false] at hro
      rw [ht]
      rcases dispatch_table hdisp with hkeep | ⟨hop, -⟩ | ⟨hop, -⟩
      · exact hkeep
      · rw [hop] at hro
        simp [opSize, opDel, opGet, opGetKeys, opPrint, opStats] at hro
      · rw [hop] at hro
        simp [opSize, opPut, opGet, opGetKeys, opPrint, opStats] at hro
  del hop _ hkey hterm := delTold_of_inRange hs hop hkey (hmeets hop hkey hterm)
  answered hop := by
    refine ⟨succ_ne_opError hop, fun h => ?_⟩
    rcases invoke_cases h with ⟨hno, -⟩ | ⟨_, _, -, -, -, -, hans⟩
    · exact absurd hop hno
    · exact hans
  refused hop := invoke_of_refused (dispatch_refused hop)
  code hlock hunlock code srv' reply h := by
    rcases invoke_cases h with ⟨hno, hcode, -⟩ | ⟨srv₁, stats, hop, -, htail, -, -⟩
    · exact iff_of_true hcode hno
    · obtain rfl := statsTail_code hlock hunlock htail
      exact iff_of_false (by decide) (not_not.mpr hop)

/-- **A request has the outcome it should have exactly when it is no `DEL` of a key whose hash
is no index of the table.** -/
theorem request_outcome_iff (env : Env) (srv : Server) (buckets : Buckets)
    (hs : Shape srv.gTable buckets) (msg : MessageT) :
    Outcome env srv buckets msg ↔ DelMeets srv.gTable msg := by
  constructor
  · intro h hop key hkey hterm
    exact inRange_of_delTold hs hop hkey (h.del hop hkey hterm)
  · exact request_outcome env srv buckets hs msg

/-- A `DEL` of the key `a`. -/
def delRequestA : MessageT := ⟨opDel, ctKey, ⟨2, some [97, 0]⟩⟩

/-- The theorem at that request, to a table that has the key. -/
theorem request_outcome_iff_present :
    Outcome (.calm fun _ _ => 0) (oneList [entryA]) [[(0, entryA)]] delRequestA := by
  refine (request_outcome_iff _ _ _ oneList_entryA_rep.shape _).mpr fun _ key hkey _ => ?_
  obtain rfl := Option.some.inj hkey
  exact ⟨0, by decide⟩

/-- A `DEL` of the key of one byte 0xff. -/
def delRequest255 : MessageT := ⟨opDel, ctKey, ⟨2, some [255, 0]⟩⟩

/-- **It gets no answer from a table of two lists**: `table_del` looks for the list in front of
the array. -/
theorem delRequest255_not_answered :
    ¬ Outcome (.calm fun _ _ => 0) (tableSkelInit 2) [[], []] delRequest255 := by
  intro h
  obtain ⟨code, srv', reply, hrun, -⟩ := h.del rfl rfl (show Terminated [255, 0] by decide)
  cases hrun

end Outcome
end RemoteTable
