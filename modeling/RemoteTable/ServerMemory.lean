import RemoteTable.CallAnswers
import RemoteTable.RoundMirror

/-! # The memory of the server over whole runs

`network_main_loop` starts a thread for each connection, and the threads receive, handle and
send one after the other, in any order.  A `Service` is what a thread calls; `Service.run` is the
server with any of them.  `valueService` is the server of the model on values, and
`pointerService` the one on memory, with one memory for all threads.

`NoFault` is a run that comes to no fault on values, whatever `malloc` hands out.  On memory it
then comes to no fault either, so nothing is used after it was freed and nothing is freed twice;
every state is that on values; and what is allocated are the blocks of the table, those of the
messages that the threads have in hand, and the ones counted by `lostByRun`.
-/
namespace RemoteTable.Pointers
open CMem

/-! ## The server -/

/-- What a `dispatch_thread` has in hand; it may have returned. -/
inductive Hand (α : Type)
  | empty
  | request (msg : α)
  | answer (msg : α)
  | returned

/-- After `network_receive`. -/
def Hand.received {α : Type} : Option α → Hand α
  | none => .returned
  | some msg => .request msg

/-- A `dispatch_thread`. -/
structure Thread (α : Type) where
  sock : ClientSocket
  hand : Hand α

/-- A connection that `network_main_loop` has accepted: the block for its descriptor, if there is
one, whether `pthread_create` and `pthread_detach` succeed, and what the client sends. -/
structure Accepted where
  args : Option Block
  created : Bool
  detached : Bool
  incoming : Incoming

/-- What the threads call, on messages of type `α` and a server of type `σ`. -/
structure Service (m : Type → Type) (σ α : Type) where
  start : Accepted → m Bool
  receive : Round → ClientSocket → m (Option α × ClientSocket)
  invoke : Env → σ → α → m (Int × σ × α)
  send : Round → ClientSocket → α → m (Int × ClientSocket)

/-- The server and its threads. -/
structure ServerState (σ α : Type) where
  srv : σ
  threads : List (Thread α)

/-- A connection is accepted, or a thread makes its next call. -/
inductive Act
  | accept (a : Accepted)
  | round (i : Nat) (r : Round)

namespace Service
variable {m : Type → Type} [Monad m] {σ α : Type} (S : Service m σ α)

/-- The next call of a thread. -/
def thread (r : Round) (srv : σ) (t : Thread α) : m (σ × Thread α) :=
  match t.hand with
  | .empty => do
    let (msg, sock) ← S.receive r t.sock
    return (srv, ⟨sock, .received msg⟩)
  | .request msg => do
    let (code, srv, msg) ← S.invoke r.env srv msg
    return (srv, ⟨t.sock, if code < 0 then .returned else .answer msg⟩)
  | .answer msg => do
    let (code, sock) ← S.send r t.sock msg
    return (srv, ⟨sock, if code < 0 then .returned else .empty⟩)
  | .returned => return (srv, t)

/-- One step. -/
def step (s : ServerState σ α) : Act → m (ServerState σ α)
  | .accept a => do
    let started ← S.start a
    return if started then { s with threads := s.threads ++ [⟨⟨a.incoming, 0⟩, .empty⟩] } else s
  | .round i r =>
    match s.threads[i]? with
    | none => return s
    | some t => do
      let (srv, t) ← S.thread r s.srv t
      return ⟨srv, s.threads.set i t⟩

/-- As many steps as there are acts. -/
def run : List Act → ServerState σ α → m (ServerState σ α)
  | [], s => return s
  | a :: acts, s => do
    let s ← S.step s a
    run acts s

end Service

/-- The server on values. -/
def valueService (pb : Protobuf) : Service Exec Server MessageT where
  start a := .ok (a.args.isSome && a.created && a.detached)
  receive := RemoteTable.networkReceive pb
  invoke := RemoteTable.invoke
  send := RemoteTable.networkSend pb

/-- `network_main_loop` on a connection, and the start of `dispatch_thread`.  The block of the
descriptor is lost when there is no thread to free it, or when that returns before it does. -/
def startThread (a : Accepted) : Prog Object Bool :=
  match a.args with
  | none => return false
  | some fd => do
    let args ← Prog.new (.bytes fd)
    if ¬ a.created then return false
    else if ¬ a.detached then return false
    else
      Prog.free args
      return true

/-- The server on memory, with `g_table`. -/
def pointerService (junk : Addr → Nat → UInt8) (pb : Protobuf) (gTable : Option Addr) :
    Service (Prog Object) Statistics Addr where
  start := startThread
  receive := networkReceive pb
  invoke env stats msg := do
    let (code, stats) ← invoke junk env gTable stats (some msg)
    return (code, stats, msg)
  send r sock msg := networkSend junk pb r sock (some msg)

/-- The statistics at the start. -/
def noStatistics : Statistics := ⟨0, 0, Vector.replicate 6 0⟩

/-- `table_skel_init`, and the run of the server. -/
def serve (junk : Addr → Nat → UInt8) (pb : Protobuf) (nLists : Int) (acts : List Act) :
    Prog Object (Option Addr × ServerState Statistics Addr) := do
  let gTable ← tableCreate nLists
  let s ← (pointerService junk pb gTable).run acts ⟨noStatistics, []⟩
  return (gTable, s)

/-- The same, and `table_skel_destroy`. -/
def serveAndDestroy (junk : Addr → Nat → UInt8) (pb : Protobuf) (nLists : Int) (acts : List Act) :
    Prog Object (ServerState Statistics Addr) := do
  let (gTable, s) ← serve junk pb nLists acts
  tableDestroy gTable
  return s

/-! ## What is lost -/

/-- The blocks that the next call of a thread leaves behind: those of the call, and the message
when the thread returns with it in hand. -/
def lostByThread (pb : Protobuf) (r : Round) (srv : Server) (t : Thread MessageT) : Nat :=
  match t.hand with
  | .empty => lostByReceive r t.sock.incoming
  | .request msg =>
    match RemoteTable.invoke r.env srv msg with
    | .ok (code, _, reply) => lostByInvoke msg + if code < 0 then messageBlocks reply else 0
    | .error _ => 0
  | .answer msg => lostBySend pb r t.sock msg
  | .returned => 0

/-- The blocks that a step leaves behind. -/
def lostByAct (pb : Protobuf) (s : ServerState Server MessageT) : Act → Nat
  | .accept a => if a.args.isSome ∧ ¬ (a.created ∧ a.detached) then 1 else 0
  | .round i r =>
    match s.threads[i]? with
    | none => 0
    | some t => lostByThread pb r s.srv t

/-- The blocks that a run leaves behind. -/
def lostByRun (pb : Protobuf) : List Act → ServerState Server MessageT → Nat
  | [], _ => 0
  | a :: acts, s => lostByAct pb s a +
    match (valueService pb).step s a with
    | .ok s => lostByRun pb acts s
    | .error _ => 0

/-- The blocks of the messages that the threads have in hand. -/
def blocksInHand (s : ServerState Server MessageT) : Nat :=
  (s.threads.map fun t => match t.hand with
    | .request msg | .answer msg => messageBlocks msg
    | .empty | .returned => 0).sum

/-! ## Runs without a fault -/

/-- The same act with other contents of the blocks that `malloc` hands out. -/
def Act.withJunk (j : Nat → Nat → UInt8) (k : Nat → UInt8) : Act → Act
  | .accept a => .accept a
  | .round i r => .round i (roundJunk r j k)

/-- The same acts, each with some contents of the blocks. -/
inductive Rejunked : List Act → List Act → Prop
  | nil : Rejunked [] []
  | cons {a : Act} {acts acts' : List Act} (j : Nat → Nat → UInt8) (k : Nat → UInt8)
      (h : Rejunked acts acts') : Rejunked (a :: acts) (a.withJunk j k :: acts')

/-- **The run comes to no fault on values**, whatever `malloc` hands out. -/
def NoFault (pb : Protobuf) : List Act → ServerState Server MessageT → Prop
  | [], _ => True
  | a :: acts, s => ∀ j k, ∃ s', (valueService pb).step s (a.withJunk j k) = .ok s' ∧ NoFault pb acts s'

/-! ## Threads in blocks -/

/-- What a thread has in hand, in another form. -/
def Hand.map {α β : Type} (f : α → β) : Hand α → Hand β
  | empty => .empty
  | request msg => .request (f msg)
  | answer msg => .answer (f msg)
  | returned => .returned

def Thread.map {α β : Type} (f : α → β) (t : Thread α) : Thread β := ⟨t.sock, t.hand.map f⟩

/-- The objects of the message that a thread has in hand. -/
def Thread.cells (t : Thread MessageBlock) : Multiset (Addr × Object) :=
  match t.hand with
  | .request M | .answer M => M.cells
  | .empty | .returned => 0

/-- The objects of the messages that the threads have in hand. -/
def heldCells (ts : List (Thread MessageBlock)) : Multiset (Addr × Object) := (ts.map Thread.cells).sum

/-- **The server on memory stands where the one on values does**: the same statistics, the same
messages in the hands of the same threads, and a table that mirrors the one on values. -/
structure Stands (s : ServerState Server MessageT) (c : ServerState Statistics Addr) (buckets : Buckets)
    (T : TableBlock) (ts : List (Thread MessageBlock)) : Prop where
  mirrors : Mirrors s.srv.gTable buckets T
  stats : c.srv = s.srv.stats
  values : s.threads = ts.map (Thread.map MessageBlock.content)
  pointers : c.threads = ts.map (Thread.map MessageBlock.addr)

section Steps
variable {m : Memory Object} {rest : Multiset (Addr × Object)} {junk : Addr → Nat → UInt8}
  {pb : Protobuf} {r : Round} {srv : Server} {buckets : Buckets} {T : TableBlock}
  {t : Thread MessageBlock}

/-- What the next call of a thread leaves. -/
def Called (pb : Protobuf) (r : Round) (srv : Server) (T : TableBlock) (t : Thread MessageBlock)
    (rest : Multiset (Addr × Object)) (p : Statistics × Thread Addr) (m' : Memory Object) : Prop :=
  ∃ (j : Nat → Nat → UInt8) (k : Nat → UInt8) (srv' : Server) (buckets' : Buckets) (T' : TableBlock)
    (t' : Thread MessageBlock) (lost : Multiset (Addr × Object)),
    (valueService pb).thread (roundJunk r j k) srv (t.map MessageBlock.content) =
      .ok (srv', t'.map MessageBlock.content) ∧
    p = (srv'.stats, t'.map MessageBlock.addr) ∧ Mirrors srv'.gTable buckets' T' ∧ T'.addr = T.addr ∧
    lost.card = lostByThread pb (roundJunk r j k) srv (t.map MessageBlock.content) ∧
    m'.owned = T'.cells + (t'.cells + (lost + rest))

theorem thread_receive {sock : ClientSocket} (hm : Mirrors srv.gTable buckets T)
    (h : m.owned = T.cells + (Thread.cells ⟨sock, .empty⟩ + rest))
    (hdef : Defined (RemoteTable.networkReceive pb r sock)) :
    Prog.Ends ((pointerService junk pb (some T.addr)).thread r srv.stats ⟨sock, .empty⟩) m
      (Called pb r srv T ⟨sock, .empty⟩ rest) := by
  obtain ⟨⟨msg, sock'⟩, hrecv⟩ := hdef
  refine (networkReceive_ends hrecv m).bind ?_
  rintro _ m₁ ⟨M, lost, rfl, rfl, hlost, h₁⟩
  have hcells : m₁.owned = T.cells + (receivedCells M + (lost + rest)) := by
    rw [h₁, h, Thread.cells, zero_add]
    ac_rfl
  have hval : (valueService pb).thread r srv ⟨sock, .empty⟩ =
      .ok (srv, ⟨sock', .received (M.map MessageBlock.content)⟩) := by
    change (RemoteTable.networkReceive pb r sock >>= _) = _
    rw [hrecv]
    rfl
  cases M with
  | none =>
    exact .pure ⟨r.env.junk, r.sendJunk, srv, buckets, T, ⟨sock', .returned⟩, lost, hval, rfl, hm, rfl,
      hlost, hcells⟩
  | some M =>
    exact .pure ⟨r.env.junk, r.sendJunk, srv, buckets, T, ⟨sock', .request M⟩, lost, hval, rfl, hm, rfl,
      hlost, hcells⟩

theorem thread_invoke {sock : ClientSocket} {M : MessageBlock} (hm : Mirrors srv.gTable buckets T)
    (h : m.owned = T.cells + (M.cells + rest))
    (hdef : Defined (RemoteTable.invoke r.env srv M.content)) :
    Prog.Ends ((pointerService junk pb (some T.addr)).thread r srv.stats ⟨sock, .request M.addr⟩) m
      (Called pb r srv T ⟨sock, .request M⟩ rest) := by
  have hthread : (pointerService junk pb (some T.addr)).thread r srv.stats ⟨sock, .request M.addr⟩ =
      (do
        let (code, stats) ← invoke junk r.env (some T.addr) srv.stats (some M.addr)
        return (stats, ⟨sock, if code < 0 then .returned else .answer M.addr⟩)) := by
    simp only [Service.thread, pointerService, bind_assoc, pure_bind]
  rw [hthread]
  refine (invoke_ends hm h hdef).bind ?_
  rintro ⟨code, stats⟩ m₁ ⟨j, t', buckets', T', M', lost, hinvoke, hm', haddr, hmsg, hlost, h₁⟩
  have hval : (valueService pb).thread (roundJunk r j r.sendJunk) srv ⟨sock, .request M.content⟩ =
      .ok (⟨t', stats⟩, ⟨sock, if code < 0 then .returned else .answer M'.content⟩) := by
    change (RemoteTable.invoke (withJunk r.env j) srv M.content >>= _) = _
    rw [hinvoke]
    rfl
  have hcount : lostByThread pb (roundJunk r j r.sendJunk) srv ⟨sock, .request M.content⟩ =
      lostByInvoke M.content + if code < 0 then messageBlocks M'.content else 0 := by
    rw [lostByThread]
    simp only [roundJunk, hinvoke]
  by_cases hcode : code < 0
  · -- the thread returns, and nobody frees the message
    simp only [if_pos hcode] at hval hcount ⊢
    refine .pure ⟨j, r.sendJunk, ⟨t', stats⟩, buckets', T', ⟨sock, .returned⟩, M'.cells + lost, hval, rfl, hm',
      haddr, ?_, ?_⟩
    · rw [Multiset.card_add, card_messageCells, hlost, Nat.add_comm]
      exact hcount.symm
    · rw [h₁, Thread.cells, zero_add, add_assoc]
  · simp only [if_neg hcode] at hval hcount ⊢
    refine .pure ⟨j, r.sendJunk, ⟨t', stats⟩, buckets', T', ⟨sock, .answer M'⟩, lost, hval, ?_, hm', haddr,
      hlost.trans hcount.symm, h₁⟩
    rw [Thread.map, Hand.map, hmsg]

theorem thread_send {sock : ClientSocket} {M : MessageBlock} (hm : Mirrors srv.gTable buckets T)
    (h : m.owned = T.cells + (M.cells + rest))
    (hdef : ∀ k, Defined (RemoteTable.networkSend pb { r with sendJunk := k } sock M.content)) :
    Prog.Ends ((pointerService junk pb (some T.addr)).thread r srv.stats ⟨sock, .answer M.addr⟩) m
      (Called pb r srv T ⟨sock, .answer M⟩ rest) := by
  have h' : m.owned = M.cells + (T.cells + rest) := by
    rw [h]
    ac_rfl
  refine (networkSend_ends h' hdef).bind ?_
  rintro ⟨code, sock'⟩ m₁ ⟨k, lost, hsend, hlost, h₁⟩
  have hval : (valueService pb).thread (roundJunk r r.env.junk k) srv ⟨sock, .answer M.content⟩ =
      .ok (srv, ⟨sock', if code < 0 then .returned else .empty⟩) := by
    change (RemoteTable.networkSend pb { r with sendJunk := k } sock M.content >>= _) = _
    rw [hsend]
    rfl
  have hcells : m₁.owned = T.cells + (0 + (lost + rest)) := by
    rw [h₁]
    ac_rfl
  by_cases hcode : code < 0
  · simp only [if_pos hcode] at hval ⊢
    exact .pure ⟨r.env.junk, k, srv, buckets, T, ⟨sock', .returned⟩, lost, hval, rfl, hm, rfl, hlost, hcells⟩
  · simp only [if_neg hcode] at hval ⊢
    exact .pure ⟨r.env.junk, k, srv, buckets, T, ⟨sock', .empty⟩, lost, hval, rfl, hm, rfl, hlost, hcells⟩

/-- **A thread's next call**: where it is defined on values, whatever `malloc` hands out, it ends
in memory. -/
theorem thread_ends (hm : Mirrors srv.gTable buckets T) (h : m.owned = T.cells + (t.cells + rest))
    (hdef : ∀ j k, Defined ((valueService pb).thread (roundJunk r j k) srv (t.map MessageBlock.content))) :
    Prog.Ends ((pointerService junk pb (some T.addr)).thread r srv.stats (t.map MessageBlock.addr)) m
      (Called pb r srv T t rest) := by
  have hcall : ∀ {α β : Type} {x : Exec α} {f : α → Exec β}, Defined (x >>= f) → Defined x := by
    rintro α β x f ⟨_, hrun⟩
    obtain ⟨a, ha, -⟩ := bind_eq_ok.mp hrun
    exact ⟨a, ha⟩
  obtain ⟨sock, hand⟩ := t
  cases hand with
  | empty => exact thread_receive hm h (hcall (hdef r.env.junk r.sendJunk))
  | request M => exact thread_invoke hm h (hcall (hdef r.env.junk r.sendJunk))
  | answer M => exact thread_send hm h fun k => hcall (hdef r.env.junk k)
  | returned =>
    refine .pure ⟨r.env.junk, r.sendJunk, srv, buckets, T, ⟨sock, .returned⟩, 0, rfl, rfl, hm, rfl, rfl, ?_⟩
    rw [zero_add, h]

/-- The start of a thread, and the block that it may leave behind. -/
theorem startThread_ends (a : Accepted) (m : Memory Object) :
    Prog.Ends (startThread a) m fun started m' => started = (a.args.isSome && a.created && a.detached) ∧
      ∃ lost : Multiset (Addr × Object),
        lost.card = (if a.args.isSome ∧ ¬ (a.created ∧ a.detached) then 1 else 0) ∧
        m'.owned = lost + m.owned := by
  obtain ⟨args, created, detached, incoming⟩ := a
  cases args with
  | none => exact .pure ⟨rfl, 0, rfl, (zero_add _).symm⟩
  | some fd =>
    refine (Prog.ends_new m _).bind ?_
    rintro _ m₁ ⟨c, rfl, -, h₁⟩
    cases created with
    | false => exact .pure ⟨rfl, {(c, .bytes fd)}, rfl, h₁⟩
    | true =>
      cases detached with
      | false => exact .pure ⟨rfl, {(c, .bytes fd)}, rfl, h₁⟩
      | true =>
        refine (Prog.ends_free h₁).bind ?_
        rintro _ m₂ ⟨-, h₂⟩
        exact .pure ⟨rfl, 0, rfl, by rw [h₂, zero_add]⟩

end Steps

/-! ## The server in blocks -/

section Run
variable {m : Memory Object} {rest : Multiset (Addr × Object)} {junk : Addr → Nat → UInt8}
  {pb : Protobuf} {s : ServerState Server MessageT} {c : ServerState Statistics Addr} {buckets : Buckets}
  {T : TableBlock} {ts : List (Thread MessageBlock)}

/-- **One step**: where it is defined on values, whatever `malloc` hands out, it ends in memory,
and leaves the server where it stands on values. -/
theorem step_ends {a : Act} (hs : Stands s c buckets T ts)
    (h : m.owned = T.cells + (heldCells ts + rest))
    (hdef : ∀ j k, Defined ((valueService pb).step s (a.withJunk j k))) :
    Prog.Ends ((pointerService junk pb (some T.addr)).step c a) m fun c' m' =>
      ∃ (j : Nat → Nat → UInt8) (k : Nat → UInt8) (s' : ServerState Server MessageT) (buckets' : Buckets)
        (T' : TableBlock) (ts' : List (Thread MessageBlock)) (lost : Multiset (Addr × Object)),
        (valueService pb).step s (a.withJunk j k) = .ok s' ∧ Stands s' c' buckets' T' ts' ∧
        T'.addr = T.addr ∧ lost.card = lostByAct pb s (a.withJunk j k) ∧
        m'.owned = T'.cells + (heldCells ts' + (lost + rest)) := by
  cases a with
  | accept a =>
    refine (startThread_ends a m).bind ?_
    rintro _ m₁ ⟨rfl, lost, hlost, h₁⟩
    have hcells : m₁.owned = T.cells + (heldCells ts + (lost + rest)) := by
      rw [h₁, h]
      ac_rfl
    refine .pure ⟨fun _ _ => 0, fun _ => 0, _, buckets, T,
      if a.args.isSome && a.created && a.detached then ts ++ [⟨⟨a.incoming, 0⟩, .empty⟩] else ts, lost,
      rfl, ?_, rfl, hlost, ?_⟩
    · split
      · refine ⟨hs.mirrors, hs.stats, ?_, ?_⟩
        · rw [List.map_append, ← hs.values]
          rfl
        · rw [List.map_append, ← hs.pointers]
          rfl
      · exact hs
    · rw [hcells]
      split
      · rw [heldCells, heldCells, List.map_append, List.sum_append]
        simp [Thread.cells]
      · rfl
  | round i r =>
    have hvalue : s.threads[i]? = ts[i]?.map (Thread.map MessageBlock.content) := by
      rw [hs.values, List.getElem?_map]
    have hpointer : c.threads[i]? = ts[i]?.map (Thread.map MessageBlock.addr) := by
      rw [hs.pointers, List.getElem?_map]
    cases hi : ts[i]? with
    | none =>
      rw [hi, Option.map_none] at hvalue hpointer
      simp only [Service.step, hpointer]
      refine .pure ⟨fun _ _ => 0, fun _ => 0, s, buckets, T, ts, 0, ?_, hs, rfl, ?_, by rw [zero_add, h]⟩
      · simp only [Act.withJunk, hvalue, pure_eq_ok]
      · simp only [Act.withJunk, lostByAct, hvalue, Multiset.card_zero]
    | some t =>
      rw [hi, Option.map_some] at hvalue hpointer
      have hthread : ∀ j k, Defined ((valueService pb).thread (roundJunk r j k) s.srv
          (t.map MessageBlock.content)) := by
        intro j k
        obtain ⟨_, hrun⟩ := hdef j k
        simp only [Act.withJunk, Service.step, hvalue] at hrun
        obtain ⟨p, hp, -⟩ := bind_eq_ok.mp hrun
        exact ⟨p, hp⟩
      have hown : m.owned = T.cells + (t.cells + (((ts.eraseIdx i).map Thread.cells).sum + rest)) := by
        rw [h, heldCells, sum_eraseIdx Thread.cells hi]
        ac_rfl
      simp only [Service.step, hpointer, hs.stats]
      refine (thread_ends hs.mirrors hown hthread).bind ?_
      rintro _ m₁ ⟨j, k, srv', buckets', T', t', lost, hval, rfl, hm', haddr, hlost, h₁⟩
      refine .pure ⟨j, k, ⟨srv', s.threads.set i (t'.map MessageBlock.content)⟩, buckets', T', ts.set i t',
        lost, ?_, ⟨hm', rfl, ?_, ?_⟩, haddr, ?_, ?_⟩
      · simp only [Act.withJunk, hvalue, hval, ok_bind, pure_eq_ok]
      · rw [List.map_set, hs.values]
      · rw [List.map_set, hs.pointers]
      · simp only [Act.withJunk, lostByAct, hvalue, hlost]
      · rw [h₁, heldCells, sum_set Thread.cells hi]
        ac_rfl

/-- **A run**: by induction on the acts, every step leaves the server where it stands on values. -/
theorem run_ends {acts : List Act} (hs : Stands s c buckets T ts)
    (h : m.owned = T.cells + (heldCells ts + rest)) (hdef : NoFault pb acts s) :
    Prog.Ends ((pointerService junk pb (some T.addr)).run acts c) m fun c' m' =>
      ∃ (acts' : List Act) (s' : ServerState Server MessageT) (buckets' : Buckets) (T' : TableBlock)
        (ts' : List (Thread MessageBlock)) (lost : Multiset (Addr × Object)),
        Rejunked acts acts' ∧ (valueService pb).run acts' s = .ok s' ∧ Stands s' c' buckets' T' ts' ∧
        T'.addr = T.addr ∧ lost.card = lostByRun pb acts' s ∧
        m'.owned = T'.cells + (heldCells ts' + (lost + rest)) := by
  induction acts generalizing m s c buckets T ts rest with
  | nil =>
    refine .pure ⟨[], s, buckets, T, ts, 0, .nil, rfl, hs, rfl, rfl, ?_⟩
    rw [zero_add, h]
  | cons a acts ih =>
    refine (step_ends hs h fun j k => ?_).bind ?_
    · obtain ⟨s', hstep, -⟩ := hdef j k
      exact ⟨s', hstep⟩
    rintro c₁ m₁ ⟨j, k, s₁, buckets₁, T₁, ts₁, lost₁, hstep, hs₁, haddr₁, hlost₁, h₁⟩
    obtain ⟨s', hstep', hrest⟩ := hdef j k
    obtain rfl := Except.ok.inj (hstep.symm.trans hstep')
    rw [← haddr₁]
    refine (ih hs₁ h₁ hrest).mono ?_
    rintro c' m' ⟨acts', s', buckets', T', ts', lost, hre, hrun, hs', haddr, hlost, hm'⟩
    refine ⟨a.withJunk j k :: acts', s', buckets', T', ts', lost + lost₁, .cons j k hre, ?_, hs', haddr,
      ?_, ?_⟩
    · rw [Service.run, hstep, ok_bind]
      exact hrun
    · rw [Multiset.card_add, hlost, hlost₁, lostByRun, hstep, Nat.add_comm]
    · rw [hm']
      ac_rfl

end Run

/-! ## The whole server -/

theorem card_heldCells (ts : List (Thread MessageBlock)) {s : ServerState Server MessageT}
    (h : s.threads = ts.map (Thread.map MessageBlock.content)) : (heldCells ts).card = blocksInHand s := by
  rw [heldCells, blocksInHand, h, List.map_map]
  clear h
  induction ts with
  | nil => rfl
  | cons t ts ih =>
    obtain ⟨sock, hand⟩ := t
    rw [List.map_cons, List.map_cons, List.sum_cons, List.sum_cons, Multiset.card_add, ih]
    cases hand with
    | empty | returned => rfl
    | request M | answer M =>
      rw [Thread.cells, card_messageCells]
      rfl

/-- **The server in memory does what it does on values**: where a run comes to no fault on
values, whatever `malloc` hands out, it comes to none in memory.  It stands where it stands on
values, and allocated are the blocks of the table, those of the messages in the hands of the
threads, and as many lost ones as the run has lost. -/
theorem server_stands (junk : Addr → Nat → UInt8) (pb : Protobuf) (nLists : Int) (acts : List Act)
    (hn : 0 ≤ nLists) (hdef : NoFault pb acts ⟨tableSkelInit nLists, []⟩) :
    Prog.Ends (serve junk pb nLists acts) Memory.empty fun p m =>
      ∃ (acts' : List Act) (s : ServerState Server MessageT) (buckets : Buckets) (T : TableBlock)
        (ts : List (Thread MessageBlock)) (lost : Multiset (Addr × Object)),
        Rejunked acts acts' ∧ (valueService pb).run acts' ⟨tableSkelInit nLists, []⟩ = .ok s ∧
        p.1 = some T.addr ∧ Stands s p.2 buckets T ts ∧
        lost.card = lostByRun pb acts' ⟨tableSkelInit nLists, []⟩ ∧
        m.owned = T.cells + (heldCells ts + lost) := by
  refine (mirrors_create hn Memory.empty).bind ?_
  rintro _ m₁ ⟨T, rfl, hm, h₁⟩
  have hs : Stands ⟨tableSkelInit nLists, []⟩ ⟨noStatistics, []⟩ (List.replicate nLists.toNat []) T [] :=
    ⟨hm, rfl, rfl, rfl⟩
  have hown : m₁.owned = T.cells + (heldCells [] + 0) := h₁
  refine (run_ends hs hown hdef).bind ?_
  rintro c m₂ ⟨acts', s, buckets, T', ts, lost, hre, hrun, hs', haddr, hlost, h₂⟩
  refine .pure ⟨acts', s, buckets, T', ts, lost, hre, hrun, by rw [haddr], hs', hlost, ?_⟩
  rw [h₂, add_zero]

/-- protobuf-c on a connection that carries one request, and the answer to it, in a byte each. -/
def singleProtobuf (msg : MessageT) : Protobuf where
  unpack body := if body = [1] then some msg else none
  packedSize _ := 1
  pack _ := .ok [2]

/-- A connection on which it comes, and the three calls of its thread. -/
def singleActs : List Act :=
  [.accept ⟨some [0, 0, 0, 0], true, true, ⟨[0, 0, 0, 1, 1], .silent⟩⟩,
    .round 0 calmRound, .round 0 calmRound, .round 0 calmRound]

section Single
variable {msg : MessageT} {srv : Server}

/-- The request is answered, whatever `malloc` hands out. -/
def SingleAnswered (srv : Server) (msg : MessageT) : Prop :=
  ∀ j, ∃ srv' reply, RemoteTable.invoke (withJunk calmRound.env j) srv msg = .ok (0, srv', reply)

theorem single_receives (msg : MessageT) (srv : Server) (j : Nat → Nat → UInt8) (k : Nat → UInt8) :
    (valueService (singleProtobuf msg)).step ⟨srv, [⟨⟨⟨[0, 0, 0, 1, 1], .silent⟩, 0⟩, .empty⟩]⟩
      (.round 0 (roundJunk calmRound j k)) = .ok ⟨srv, [⟨⟨⟨[], .silent⟩, 0⟩, .request msg⟩]⟩ := rfl

theorem single_invokes (h : SingleAnswered srv msg) (sock : ClientSocket) (j : Nat → Nat → UInt8)
    (k : Nat → UInt8) :
    ∃ srv' reply, (valueService (singleProtobuf msg)).step ⟨srv, [⟨sock, .request msg⟩]⟩
      (.round 0 (roundJunk calmRound j k)) = .ok ⟨srv', [⟨sock, .answer reply⟩]⟩ := by
  obtain ⟨srv', reply, hinvoke⟩ := h j
  have hval : (valueService (singleProtobuf msg)).invoke (roundJunk calmRound j k).env srv msg =
      .ok (0, srv', reply) := hinvoke
  refine ⟨srv', reply, ?_⟩
  simp only [Service.step, List.getElem?_cons_zero, Service.thread, hval, ok_bind]
  rfl

/-- The answer is one byte. -/
theorem single_sends (msg : MessageT) (srv : Server) (sock : ClientSocket) (reply : MessageT)
    (j : Nat → Nat → UInt8) (k : Nat → UInt8) :
    (valueService (singleProtobuf msg)).step ⟨srv, [⟨sock, .answer reply⟩]⟩
      (.round 0 (roundJunk calmRound j k)) = .ok ⟨srv, [⟨sock, .empty⟩]⟩ := by
  have hlen : toInt32 ((singleProtobuf msg).packedSize reply) = 1 :=
    toInt32_of_nonneg (x := 1) (by decide) (by decide)
  have hmalloc : malloc k 1 = some [k 0] := rfl
  have hpack : (singleProtobuf msg).pack reply = .ok [2] := rfl
  have hstore : store [k 0] 0 [2] = .ok [2] := rfl
  have hwrite : writeAll calmRound.writes [2] 1 = .ok (1, [0, 0, 0, 1, 2]) := rfl
  have hsent : packAndWrite (singleProtobuf msg) true k calmRound.writes reply =
      .ok (1, [0, 0, 0, 1, 2]) := by
    simp only [packAndWrite, hlen, if_pos, hmalloc, hpack, ok_bind, hstore, hwrite]
  have hsend : RemoteTable.networkSend (singleProtobuf msg) (roundJunk calmRound j k) sock reply =
      .ok (0, sock) := by
    rw [networkSend_eq, show (roundJunk calmRound j k).sendBlock = true from rfl,
      show (roundJunk calmRound j k).sendJunk = k from rfl,
      show (roundJunk calmRound j k).writes = calmRound.writes from rfl, hsent]
    rfl
  have hthread : (valueService (singleProtobuf msg)).thread (roundJunk calmRound j k) srv
      ⟨sock, .answer reply⟩ = .ok (srv, ⟨sock, .empty⟩) := by
    simp only [Service.thread, valueService, hsend, ok_bind]
    rfl
  simp only [Service.step, List.getElem?_cons_zero, hthread, ok_bind]
  rfl

/-- No step of that run faults. -/
theorem single_noFault (h : SingleAnswered srv msg) : NoFault (singleProtobuf msg) singleActs ⟨srv, []⟩ := by
  refine fun _ _ => ⟨⟨srv, _⟩, rfl, fun j k => ⟨_, single_receives msg srv j k, fun j k => ?_⟩⟩
  obtain ⟨srv', reply, hinvoke⟩ := single_invokes h ⟨⟨[], .silent⟩, 0⟩ j k
  exact ⟨_, hinvoke, fun j k => ⟨_, single_sends msg srv' _ reply j k, trivial⟩⟩

end Single

/-- protobuf-c on a `GETKEYS` that carries a byte. -/
def wastefulProtobuf : Protobuf := singleProtobuf ⟨opGetKeys, ctNone, ⟨1, some [7]⟩⟩

theorem wasteful_answered : SingleAnswered (tableSkelInit 1) ⟨opGetKeys, ctNone, ⟨1, some [7]⟩⟩ :=
  fun _ => ⟨_, _, rfl⟩

/-- The theorem at that run. -/
theorem server_stands_wasteful :
    ∃ p m, serve (fun _ _ => 0) wastefulProtobuf 1 singleActs Memory.empty = .ok (p, m) ∧
      ∃ acts' s buckets T ts, Rejunked singleActs acts' ∧
        (valueService wastefulProtobuf).run acts' ⟨tableSkelInit 1, []⟩ = .ok s ∧
        Stands s p.2 buckets T ts := by
  obtain ⟨p, m, hrun, acts', s, buckets, T, ts, -, hre, hval, -, hs, -⟩ :=
    server_stands (fun _ _ => 0) wastefulProtobuf 1 singleActs (by decide)
      (single_noFault wasteful_answered)
  exact ⟨p, m, hrun, acts', s, buckets, T, ts, hre, hval, hs⟩

/-- **What the server leaves**: after `table_skel_destroy` the blocks of the messages in the
hands of the threads are still allocated, those that the run has lost, and no others. -/
theorem server_leaves (junk : Addr → Nat → UInt8) (pb : Protobuf) (nLists : Int) (acts : List Act)
    (hn : 0 ≤ nLists) (hdef : NoFault pb acts ⟨tableSkelInit nLists, []⟩) :
    Prog.Ends (serveAndDestroy junk pb nLists acts) Memory.empty fun c m =>
      ∃ (acts' : List Act) (s : ServerState Server MessageT), Rejunked acts acts' ∧
        (valueService pb).run acts' ⟨tableSkelInit nLists, []⟩ = .ok s ∧ c.srv = s.srv.stats ∧
        m.owned.card = blocksInHand s + lostByRun pb acts' ⟨tableSkelInit nLists, []⟩ := by
  refine (server_stands junk pb nLists acts hn hdef).bind ?_
  rintro ⟨_, c⟩ m₁ ⟨acts', s, buckets, T, ts, lost, hre, hrun, rfl, hs, hlost, h₁⟩
  refine (tableDestroy_ends h₁).bind fun _ m₂ h₂ => .pure ⟨acts', s, hre, hrun, hs.stats, ?_⟩
  rw [h₂, Multiset.card_add, card_heldCells ts hs.values, hlost]

/-- The theorem at the run with the `GETKEYS`. -/
theorem server_leaves_wasteful :
    ∃ c m, serveAndDestroy (fun _ _ => 0) wastefulProtobuf 1 singleActs Memory.empty = .ok (c, m) ∧
      ∃ acts' s, Rejunked singleActs acts' ∧
        m.owned.card = blocksInHand s + lostByRun wastefulProtobuf acts' ⟨tableSkelInit 1, []⟩ := by
  obtain ⟨c, m, hrun, acts', s, hre, -, -, hcard⟩ :=
    server_leaves (fun _ _ => 0) wastefulProtobuf 1 singleActs (by decide)
      (single_noFault wasteful_answered)
  exact ⟨c, m, hrun, acts', s, hre, hcard⟩

/-- The byte that the `GETKEYS` carried is never freed. -/
example : (serveAndDestroy (fun _ _ => 0) wastefulProtobuf 1 singleActs Memory.empty).toOption.map
    (fun r => r.2.owned.card) = some 1 := by decide +kernel

/-! ## Connections that are not given up -/

/-- The request that a step handles. -/
def handledBy (s : ServerState Server MessageT) : Act → List MessageT
  | .accept _ => []
  | .round i _ =>
    match s.threads[i]? with
    | some ⟨_, .request msg⟩ => [msg]
    | _ => []

/-- The requests that a run handles. -/
def handledRequests (pb : Protobuf) : List Act → ServerState Server MessageT → List MessageT
  | [], _ => []
  | a :: acts, s => handledBy s a ++
    match (valueService pb).step s a with
    | .ok s => handledRequests pb acts s
    | .error _ => []

/-- Every connection that was accepted has a thread, and none of them has returned. -/
def Serving (acts : List Act) (s : ServerState Server MessageT) : Prop :=
  (∀ a, Act.accept a ∈ acts → a.args.isSome → a.created ∧ a.detached) ∧
    ∀ t ∈ s.threads, t.hand ≠ .returned

section Serving
variable {pb : Protobuf} {r : Round} {srv srv' : Server} {t t' : Thread MessageT}
  {s s' : ServerState Server MessageT} {a : Act} {acts : List Act}

/-- A thread that has returned takes no more steps. -/
theorem thread_returned (h : (valueService pb).thread r srv t = .ok (srv', t'))
    (hhand : t.hand = .returned) : t'.hand = .returned := by
  obtain ⟨sock, hand⟩ := t
  obtain rfl : hand = .returned := hhand
  obtain ⟨-, rfl⟩ := Prod.mk.inj (Except.ok.inj h)
  rfl

/-- A thread that does not return loses what `invoke` loses, and nothing else. -/
theorem lostByThread_serving (h : (valueService pb).thread r srv t = .ok (srv', t'))
    (hhand : t'.hand ≠ .returned) :
    lostByThread pb r srv t = match t.hand with
      | .request msg => lostByInvoke msg
      | _ => 0 := by
  obtain ⟨sock, hand⟩ := t
  cases hand with
  | empty =>
    obtain ⟨⟨msg, sock'⟩, hrecv, hrun⟩ := bind_eq_ok.mp h
    obtain ⟨-, rfl⟩ := Prod.mk.inj (Except.ok.inj hrun)
    rcases networkReceive_cases hrecv with ⟨rfl, -⟩ | ⟨body, ⟨len, buf, hread, hlen, -⟩, -, -⟩
    · exact absurd rfl hhand
    · simp only [lostByThread, lostByReceive, hread]
      cases buf with
      | none => rfl
      | some b => exact if_neg hlen
  | request msg =>
    obtain ⟨⟨code, srv₁, reply⟩, hinvoke, hrun⟩ := bind_eq_ok.mp h
    obtain ⟨-, rfl⟩ := Prod.mk.inj (Except.ok.inj hrun)
    have hcode : ¬ code < 0 := fun hlt => hhand (if_pos hlt)
    have hval : RemoteTable.invoke r.env srv msg = .ok (code, srv₁, reply) := hinvoke
    simp only [lostByThread, hval, if_neg hcode, Nat.add_zero]
  | answer msg =>
    obtain ⟨⟨code, sock'⟩, hsend, hrun⟩ := bind_eq_ok.mp h
    obtain ⟨-, rfl⟩ := Prod.mk.inj (Except.ok.inj hrun)
    have hval : RemoteTable.networkSend pb r sock msg = .ok (code, sock') := hsend
    rcases networkSend_cases hval with ⟨rfl, -⟩ | ⟨rfl, -⟩
    · exact absurd rfl hhand
    · simp only [lostByThread, lostBySend, hval, if_true]
  | returned => rfl

/-- Where no thread has returned after a step, none had before it, and only `invoke` has lost
anything. -/
theorem step_serving (h : (valueService pb).step s a = .ok s') (hs : Serving [a] s') :
    (∀ t ∈ s.threads, t.hand ≠ .returned) ∧
      lostByAct pb s a = ((handledBy s a).map lostByInvoke).sum := by
  obtain ⟨hstarted, hserving⟩ := hs
  cases a with
  | accept a =>
    have hstarted := hstarted a List.mem_cons_self
    obtain rfl := Except.ok.inj h
    refine ⟨fun t ht => hserving t ?_, if_neg fun hlost => hlost.2 (hstarted hlost.1)⟩
    split
    · exact List.mem_append_left _ ht
    · exact ht
  | round i r =>
    simp only [lostByAct, handledBy]
    simp only [Service.step] at h
    cases hi : s.threads[i]? with
    | none =>
      simp only [hi] at h
      obtain rfl := Except.ok.inj h
      exact ⟨hserving, rfl⟩
    | some t =>
      simp only [hi] at h
      obtain ⟨⟨srv', t'⟩, hthread, h⟩ := bind_eq_ok.mp h
      obtain rfl := Except.ok.inj h
      have hlt := (List.getElem?_eq_some_iff.mp hi).1
      have hhand : t'.hand ≠ .returned := hserving t' (List.mem_of_getElem? (List.getElem?_set_self hlt))
      refine ⟨fun u hu => ?_, ?_⟩
      · obtain ⟨j, hj⟩ := List.getElem?_of_mem hu
        by_cases hij : i = j
        · subst hij
          obtain rfl := Option.some.inj (hi.symm.trans hj)
          exact fun hret => hhand (thread_returned hthread hret)
        · exact hserving u (List.mem_of_getElem? ((List.getElem?_set_ne hij).trans hj))
      · refine (lostByThread_serving hthread hhand).trans ?_
        obtain ⟨sock, hand⟩ := t
        cases hand <;> rfl

/-- **A run in which no connection is given up** loses what `invoke` loses, and nothing else. -/
theorem run_serving (h : (valueService pb).run acts s = .ok s') (hs : Serving acts s') :
    (∀ t ∈ s.threads, t.hand ≠ .returned) ∧
      lostByRun pb acts s = ((handledRequests pb acts s).map lostByInvoke).sum := by
  induction acts generalizing s with
  | nil =>
    obtain rfl := Except.ok.inj h
    exact ⟨hs.2, rfl⟩
  | cons a acts ih =>
    obtain ⟨s₁, hstep, hrun⟩ := bind_eq_ok.mp h
    obtain ⟨hfirst, hrest⟩ := ih hrun ⟨fun b hb => hs.1 b (List.mem_cons_of_mem _ hb), hs.2⟩
    have hone : Serving [a] s₁ :=
      ⟨fun b hb => hs.1 b (List.mem_singleton.mp hb ▸ List.mem_cons_self), hfirst⟩
    obtain ⟨hbefore, hlost⟩ := step_serving hstep hone
    refine ⟨hbefore, ?_⟩
    simp only [lostByRun, handledRequests, hstep, List.map_append, List.sum_append, hlost, hrest]

end Serving

/-- The request of a call of the stub loses nothing. -/
theorem lostByInvoke_message {n : Int} {op : RemoteOp} (h : op.Sendable n) : lostByInvoke op.message = 0 := by
  match op, h with
  | .table (.put k value), ⟨_, hshort, hvalid, hsmall⟩ =>
    obtain ⟨-, -, hsize, -⟩ := wireEntry_layout hvalid.readable hshort hsmall
    have hpos := hvalid.size_pos
    refine (lostByInvoke_put rfl rfl).trans (if_neg ?_)
    omega
  | .table (.get k), _ => exact lostByInvoke_keyed (Or.inr rfl)
  | .table (.del k), _ => exact lostByInvoke_keyed (Or.inl rfl)
  | .table .size, _ | .table .getKeys, _ | .print, _ => rfl

/-- **A server that gives up no connection** loses one block for each request that carries bytes
its branch does not expect, and for each `PUT` without a value.  The requests of the stub are
neither: after `table_skel_destroy` only the messages in the hands of the threads are left. -/
theorem stub_clients_lose_nothing (junk : Addr → Nat → UInt8) (pb : Protobuf) (nLists : Int)
    (acts : List Act) (hn : 0 ≤ nLists) (hdef : NoFault pb acts ⟨tableSkelInit nLists, []⟩) :
    Prog.Ends (serveAndDestroy junk pb nLists acts) Memory.empty fun _ m =>
      ∃ (acts' : List Act) (s : ServerState Server MessageT), Rejunked acts acts' ∧
        (valueService pb).run acts' ⟨tableSkelInit nLists, []⟩ = .ok s ∧
        (Serving acts' s →
          m.owned.card = blocksInHand s +
            ((handledRequests pb acts' ⟨tableSkelInit nLists, []⟩).map lostByInvoke).sum ∧
          ((∀ msg ∈ handledRequests pb acts' ⟨tableSkelInit nLists, []⟩, ∃ op : RemoteOp,
            op.Sendable nLists ∧ msg = op.message) → m.owned.card = blocksInHand s)) := by
  refine (server_leaves junk pb nLists acts hn hdef).mono ?_
  rintro c m ⟨acts', s, hre, hrun, -, hcard⟩
  refine ⟨acts', s, hre, hrun, fun hserving => ?_⟩
  rw [(run_serving hrun hserving).2] at hcard
  refine ⟨hcard, fun hstub => ?_⟩
  have hnone : ((handledRequests pb acts' ⟨tableSkelInit nLists, []⟩).map lostByInvoke).sum = 0 := by
    refine List.sum_eq_zero fun x hx => ?_
    obtain ⟨msg, hmsg, rfl⟩ := List.mem_map.mp hx
    obtain ⟨op, hop, rfl⟩ := hstub msg hmsg
    exact lostByInvoke_message hop
  rw [hcard, hnone, Nat.add_zero]

/-- The run with one request, whatever `malloc` hands out: it is the one that is handled, and in
the end the thread waits for the next. -/
theorem single_run {msg : MessageT} {srv : Server} (h : SingleAnswered srv msg) {acts : List Act}
    (hre : Rejunked singleActs acts) :
    ∃ srv', (valueService (singleProtobuf msg)).run acts ⟨srv, []⟩ =
        .ok ⟨srv', [⟨⟨⟨[], .silent⟩, 0⟩, .empty⟩]⟩ ∧
      (∀ a, Act.accept a ∈ acts → a.args.isSome → a.created ∧ a.detached) ∧
      handledRequests (singleProtobuf msg) acts ⟨srv, []⟩ = [msg] := by
  obtain _ | ⟨j₀, k₀, _ | ⟨j₁, k₁, _ | ⟨j₂, k₂, _ | ⟨j₃, k₃, _ | _⟩⟩⟩⟩ := hre
  obtain ⟨srv', reply, hinvoke⟩ := single_invokes h ⟨⟨[], .silent⟩, 0⟩ j₂ k₂
  have haccept : (valueService (singleProtobuf msg)).step ⟨srv, []⟩
      (.accept ⟨some [0, 0, 0, 0], true, true, ⟨[0, 0, 0, 1, 1], .silent⟩⟩) =
        .ok ⟨srv, [⟨⟨⟨[0, 0, 0, 1, 1], .silent⟩, 0⟩, .empty⟩]⟩ := rfl
  refine ⟨srv', ?_, ?_, ?_⟩
  · simp only [Act.withJunk, Service.run, haccept, single_receives, hinvoke, single_sends, ok_bind,
      pure_eq_ok]
  · intro a ha _
    simp only [Act.withJunk, List.mem_cons, Act.accept.injEq, reduceCtorEq, List.not_mem_nil,
      or_false] at ha
    subst ha
    exact ⟨rfl, rfl⟩
  · simp only [Act.withJunk, handledRequests, haccept, single_receives, hinvoke, single_sends, handledBy]
    rfl

/-- A call of `rtable_put`. -/
def putA : RemoteOp := .table (.put entryA.toKey (.ofBytes [5]))

theorem putA_sendable : putA.Sendable 1 :=
  ⟨List.forall_mem_singleton.mpr (by decide), by decide,
    DataT.valid_ofBytes (b := [5]) (by simp) (by simp [intMax]), by decide⟩

/-- The theorem at two runs with one request: that of a call of the stub leaves nothing, the
`GETKEYS` with a byte leaves that. -/
theorem stub_clients_lose_nothing_put :
    (∃ c m, serveAndDestroy (fun _ _ => 0) (singleProtobuf putA.message) 1 singleActs Memory.empty =
        .ok (c, m) ∧ m.owned.card = 0) ∧
      ∃ c m, serveAndDestroy (fun _ _ => 0) wastefulProtobuf 1 singleActs Memory.empty =
        .ok (c, m) ∧ m.owned.card = 1 := by
  have hput : SingleAnswered (tableSkelInit 1) putA.message := fun _ => ⟨_, _, rfl⟩
  constructor
  · obtain ⟨c, m, hrun, acts', s, hre, hval, hserving⟩ :=
      stub_clients_lose_nothing (fun _ _ => 0) (singleProtobuf putA.message) 1 singleActs (by decide)
        (single_noFault hput)
    obtain ⟨srv', hval', haccepts, hhandled⟩ := single_run hput hre
    obtain rfl := Except.ok.inj (hval.symm.trans hval')
    obtain ⟨-, hstub⟩ := hserving ⟨haccepts, by simp⟩
    refine ⟨c, m, hrun, hstub fun msg hmsg => ⟨putA, putA_sendable, ?_⟩⟩
    rw [hhandled] at hmsg
    exact List.mem_singleton.mp hmsg
  · obtain ⟨c, m, hrun, acts', s, hre, hval, hserving⟩ :=
      stub_clients_lose_nothing (fun _ _ => 0) wastefulProtobuf 1 singleActs (by decide)
        (single_noFault wasteful_answered)
    obtain ⟨srv', hval', haccepts, hhandled⟩ := single_run wasteful_answered hre
    obtain rfl := Except.ok.inj (hval.symm.trans hval')
    obtain ⟨hcard, -⟩ := hserving ⟨haccepts, by simp⟩
    refine ⟨c, m, hrun, hcard.trans ?_⟩
    rw [show handledRequests wastefulProtobuf acts' _ = _ from hhandled]
    rfl

end RemoteTable.Pointers
