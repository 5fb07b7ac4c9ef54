import RemoteTable.AnyClient
import RemoteTable.FailingCalls
import RemoteTable.ServerMemory

/-! # Which runs of the server come to a fault

A run of the server goes wrong in three places only: `read_all` does not come back, `invoke` is
given a request that it cannot take as the table stands, or the length of a reply is cut to a
smaller `int`.  `RunMeets` says that no act of a run is one of them.  Whoever the clients are and
in whatever order the threads take their turns, a run comes to no fault exactly when this is so.
-/
namespace RemoteTable.Pointers
open CMem

/-! ## What an act has to meet -/

/-- The next call of a thread can be made: `read_all` comes back, the server can take the request,
or the reply fits its block. -/
def Thread.Meets (pb : Protobuf) (r : Round) (srv : Server) (t : Thread MessageT) : Prop :=
  match t.hand with
  | .empty => Defined (readAll r.reads r.blocks t.sock.incoming)
  | .request msg => ∃ buckets, Orderly srv.gTable buckets ∧ Answerable srv.gTable buckets msg
  | .answer msg => SendFits pb r msg
  | .returned => True

/-- The same for an act. -/
def Act.Meets (pb : Protobuf) (s : ServerState Server MessageT) : Act → Prop
  | .accept _ => True
  | .round i r => ∀ t, s.threads[i]? = some t → t.Meets pb r s.srv

/-- The same for every act of a run, in the state it is made in. -/
def RunMeets (pb : Protobuf) : List Act → ServerState Server MessageT → Prop
  | [], _ => True
  | a :: acts, s => a.Meets pb s ∧ ∀ s', (valueService pb).step s a = .ok s' → RunMeets pb acts s'

/-! ## What every state keeps -/

/-- The bytes of what a thread has in hand are there. -/
def Hand.Ready : Hand MessageT → Prop
  | .request msg => msg.buffer.Delivered
  | .answer msg => Defined msg.buffer.sent
  | .empty | .returned => True

/-- The table is in good order, and so is what the threads have in hand. -/
structure Ready (s : ServerState Server MessageT) : Prop where
  table : ∃ buckets, Orderly s.srv.gTable buckets
  hands : ∀ t ∈ s.threads, t.hand.Ready

section Step
variable {pb : Protobuf} {r : Round} {srv srv' : Server} {buckets : Buckets} {t t' : Thread MessageT}
  {s s' : ServerState Server MessageT} {a : Act} {acts : List Act}

/-- The next call of a thread comes to no fault exactly when it can be made. -/
theorem thread_defined_iff (hpb : pb.Promises) (hk : Orderly srv.gTable buckets) (ht : t.hand.Ready) :
    Defined ((valueService pb).thread r srv t) ↔ t.Meets pb r srv := by
  obtain ⟨sock, hand⟩ := t
  cases hand with
  | empty =>
    exact (defined_bind_iff (by rintro ⟨_, _⟩; exact defined_ok _)).trans networkReceive_defined_iff
  | request msg =>
    refine (defined_bind_iff (by rintro ⟨_, _, _⟩; exact defined_ok _)).trans ?_
    refine (hk.invoke_defined_iff r.env ht).trans ⟨fun h => ⟨buckets, hk, h⟩, ?_⟩
    rintro ⟨others, hothers, h⟩
    exact (hk.invoke_defined_iff r.env ht).mp ((hothers.invoke_defined_iff r.env ht).mpr h)
  | answer msg =>
    exact (defined_bind_iff (by rintro ⟨_, _⟩; exact defined_ok _)).trans (networkSend_defined_iff hpb ht)
  | returned => exact iff_of_true (defined_ok _) trivial

/-- **The next call of a thread** keeps the table, and has all it will need later. -/
theorem thread_ready (hpb : pb.Promises) (hk : Orderly srv.gTable buckets) (ht : t.hand.Ready)
    (h : (valueService pb).thread r srv t = .ok (srv', t')) :
    (∃ buckets', Orderly srv'.gTable buckets') ∧ t'.hand.Ready := by
  obtain ⟨sock, hand⟩ := t
  cases hand with
  | empty =>
    obtain ⟨⟨msg, sock'⟩, hrecv, hrun⟩ := bind_eq_ok.mp h
    obtain ⟨rfl, rfl⟩ := Prod.mk.inj (Except.ok.inj hrun)
    refine ⟨⟨buckets, hk⟩, ?_⟩
    rcases networkReceive_cases hrecv with ⟨rfl, -⟩ | ⟨body, -, rfl, -⟩
    · exact trivial
    · cases hunpack : pb.unpack body with
      | none => exact trivial
      | some msg => exact hpb.delivers hunpack
  | request msg =>
    obtain ⟨⟨code, srv₁, reply⟩, hinvoke, hrun⟩ := bind_eq_ok.mp h
    obtain ⟨rfl, rfl⟩ := Prod.mk.inj (Except.ok.inj hrun)
    obtain ⟨htable, hsent⟩ := hk.invoke ht hinvoke
    refine ⟨htable, ?_⟩
    by_cases hcode : code < 0
    · simp only [if_pos hcode]
      trivial
    · simp only [if_neg hcode]
      exact hsent
  | answer msg =>
    obtain ⟨⟨code, sock'⟩, -, hrun⟩ := bind_eq_ok.mp h
    obtain ⟨rfl, rfl⟩ := Prod.mk.inj (Except.ok.inj hrun)
    refine ⟨⟨buckets, hk⟩, ?_⟩
    by_cases hcode : code < 0
    · simp only [if_pos hcode]
      trivial
    · simp only [if_neg hcode]
      trivial
  | returned =>
    obtain ⟨rfl, rfl⟩ := Prod.mk.inj (Except.ok.inj h)
    exact ⟨⟨buckets, hk⟩, trivial⟩

/-- An act comes to no fault exactly when it can be made. -/
theorem step_defined_iff (hpb : pb.Promises) (hs : Ready s) :
    Defined ((valueService pb).step s a) ↔ a.Meets pb s := by
  obtain ⟨buckets, hk⟩ := hs.table
  cases a with
  | accept a => exact iff_of_true (defined_ok _) trivial
  | round i r =>
    simp only [Service.step, Act.Meets]
    cases hi : s.threads[i]? with
    | none => exact iff_of_true (defined_ok _) fun _ h => by cases h
    | some t =>
      refine (defined_bind_iff (by rintro ⟨_, _⟩; exact defined_ok _)).trans
        ((thread_defined_iff hpb hk (hs.hands t (List.mem_of_getElem? hi))).trans ⟨?_, fun h => h t rfl⟩)
      rintro h _ ⟨⟩
      exact h

/-- **An act keeps every state ready for the next one.** -/
theorem step_ready (hpb : pb.Promises) (hs : Ready s)
    (h : (valueService pb).step s a = .ok s') : Ready s' := by
  obtain ⟨buckets, hk⟩ := hs.table
  cases a with
  | accept a =>
    obtain rfl := Except.ok.inj h
    split
    · refine ⟨hs.table, fun t ht => ?_⟩
      rcases List.mem_append.mp ht with ht | ht
      · exact hs.hands t ht
      · obtain rfl := List.mem_singleton.mp ht
        trivial
    · exact hs
  | round i r =>
    simp only [Service.step] at h
    cases hi : s.threads[i]? with
    | none =>
      simp only [hi] at h
      obtain rfl := Except.ok.inj h
      exact hs
    | some t =>
      simp only [hi] at h
      obtain ⟨⟨srv', t'⟩, hthread, h⟩ := bind_eq_ok.mp h
      obtain rfl := Except.ok.inj h
      obtain ⟨htable, hhand⟩ := thread_ready hpb hk (hs.hands t (List.mem_of_getElem? hi)) hthread
      refine ⟨htable, fun u hu => ?_⟩
      rcases List.mem_or_eq_of_mem_set hu with hu | rfl
      · exact hs.hands u hu
      · exact hhand

/-- **A run** from a state that is ready comes to no fault exactly when each of its acts can be
made. -/
theorem run_defined_iff (hpb : pb.Promises) (hs : Ready s) :
    Defined ((valueService pb).run acts s) ↔ RunMeets pb acts s := by
  induction acts generalizing s with
  | nil => exact iff_of_true (defined_ok _) trivial
  | cons a acts ih =>
    have hstep := step_defined_iff (a := a) hpb hs
    cases hrun : (valueService pb).step s a with
    | error f =>
      rw [hrun] at hstep
      simp only [Service.run, RunMeets, hrun, error_bind]
      exact iff_of_false (not_defined_error _) fun h => not_defined_error _ (hstep.mpr h.1)
    | ok s₁ =>
      have hih := ih (step_ready hpb hs hrun)
      have hmeets := hstep.mp ⟨_, hrun⟩
      simp only [Service.run, RunMeets, hrun, ok_bind]
      refine hih.trans ⟨fun h => ⟨hmeets, ?_⟩, fun h => h.2 s₁ rfl⟩
      rintro _ ⟨⟩
      exact h

end Step

/-- **The server comes to a fault** exactly when `read_all` does not come back, the server cannot
take a request as the table stands, or a reply is too long for an `int`: for any clients, any
number of connections, and the threads in any order. -/
theorem server_faults_iff (pb : Protobuf) (hpb : pb.Promises) (nLists : Int) (hn : 0 ≤ nLists)
    (acts : List Act) :
    Defined ((valueService pb).run acts ⟨tableSkelInit nLists, []⟩) ↔
      RunMeets pb acts ⟨tableSkelInit nLists, []⟩ :=
  run_defined_iff hpb ⟨⟨_, tableCreate_orderly hn⟩, fun _ h => absurd h List.not_mem_nil⟩

/-- A `PUT` without a value, and a `PRINT`, both answered if they can be. -/
def valuelessActs : List Act :=
  .accept ⟨some [0, 0, 0, 0], true, true,
    ⟨[0, 0, 0, 16, 8, 40, 16, 30, 26, 10, 2, 0, 0, 0, 0, 0, 0, 0, 97, 0,
      0, 0, 0, 4, 8, 60, 16, 70], .silent⟩⟩ :: List.replicate 5 (.round 0 calmRound)

/-- The theorem at that run: everything goes well until the `PRINT` is to be answered. -/
theorem server_faults_iff_valueless :
    RunMeets proto3Message (valuelessActs.take 5) ⟨tableSkelInit 1, []⟩ ∧
      ¬ RunMeets proto3Message valuelessActs ⟨tableSkelInit 1, []⟩ := by
  constructor
  · refine (server_faults_iff proto3Message proto3Message_promises 1 (by decide) _).mp ?_
    have hrun : ((valueService proto3Message).run (valuelessActs.take 5)
        ⟨tableSkelInit 1, []⟩).toOption.isSome = true := by decide +kernel
    cases h : (valueService proto3Message).run (valuelessActs.take 5) ⟨tableSkelInit 1, []⟩ with
    | ok s => exact defined_ok s
    | error f =>
      rw [h] at hrun
      cases hrun
  · intro hmeets
    obtain ⟨s, hrun⟩ := (server_faults_iff proto3Message proto3Message_promises 1 (by decide) _).mpr hmeets
    have hfault : ((valueService proto3Message).run valuelessActs
        ⟨tableSkelInit 1, []⟩).toOption.isNone = true := by decide +kernel
    rw [hrun] at hfault
    cases hfault

/-! ## In memory -/

section Memory
variable {pb : Protobuf} {s : ServerState Server MessageT} {acts : List Act}

/-- `malloc` always hands out something. -/
theorem rejunked_exists : ∀ acts : List Act, ∃ acts', Rejunked acts acts'
  | [] => ⟨[], .nil⟩
  | _ :: acts => by
    obtain ⟨acts', h⟩ := rejunked_exists acts
    exact ⟨_, h.cons (fun _ _ => 0) (fun _ => 0)⟩

/-- No fault whatever `malloc` hands out, act by act or over the whole run. -/
theorem noFault_iff : NoFault pb acts s ↔
    ∀ acts', Rejunked acts acts' → Defined ((valueService pb).run acts' s) := by
  induction acts generalizing s with
  | nil =>
    refine iff_of_true trivial ?_
    rintro _ ⟨⟩
    exact defined_ok _
  | cons a acts ih =>
    constructor
    · intro hdef
      rintro _ (_ | ⟨j, k, hre⟩)
      obtain ⟨s', hstep, hrest⟩ := hdef j k
      rw [Service.run, hstep, ok_bind]
      exact ih.mp hrest _ hre
    · intro h j k
      have hcons : ∀ acts', Rejunked acts acts' →
          Defined ((valueService pb).run (a.withJunk j k :: acts') s) := fun acts' hre => h _ (hre.cons j k)
      cases hstep : (valueService pb).step s (a.withJunk j k) with
      | error f =>
        obtain ⟨acts', hre⟩ := rejunked_exists acts
        have hrun := hcons acts' hre
        rw [Service.run, hstep, error_bind] at hrun
        exact absurd hrun (not_defined_error _)
      | ok s' =>
        refine ⟨s', rfl, ih.mpr fun acts' hre => ?_⟩
        have hrun := hcons acts' hre
        rwa [Service.run, hstep, ok_bind] at hrun

end Memory

/-- **The server in memory comes to no fault** when its runs meet these conditions, whatever
`malloc` hands out, and leaves the blocks it is known to lose. -/
theorem server_in_memory (junk : Addr → Nat → UInt8) (pb : Protobuf) (hpb : pb.Promises) (nLists : Int)
    (hn : 0 ≤ nLists) (acts : List Act)
    (hmeets : ∀ acts', Rejunked acts acts' → RunMeets pb acts' ⟨tableSkelInit nLists, []⟩) :
    Prog.Ends (serveAndDestroy junk pb nLists acts) Memory.empty fun _ m =>
      ∃ (acts' : List Act) (s : ServerState Server MessageT), Rejunked acts acts' ∧
        (valueService pb).run acts' ⟨tableSkelInit nLists, []⟩ = .ok s ∧
        m.owned.card = blocksInHand s + lostByRun pb acts' ⟨tableSkelInit nLists, []⟩ := by
  have hdef : NoFault pb acts ⟨tableSkelInit nLists, []⟩ :=
    noFault_iff.mpr fun acts' hre => (server_faults_iff pb hpb nLists hn acts').mpr (hmeets acts' hre)
  refine (server_leaves junk pb nLists acts hn hdef).mono ?_
  rintro _ m ⟨acts', s, hre, hrun, -, hcard⟩
  exact ⟨acts', s, hre, hrun, hcard⟩

end RemoteTable.Pointers
