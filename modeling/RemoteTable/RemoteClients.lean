import RemoteTable.CallAnswers
import RemoteTable.ServerDrains

/-! # Clients and server

Every client makes its calls one after the other, over a connection of its own, and every
connection has its thread on the server.  The requests and the responses travel as bytes: a
call writes its request, the thread reads it, runs `invoke` and writes the reply, and the call
comes back when it has read that.  Between any two of these steps others may take theirs.

The connections hold here: no `read` and no `write` fails, headers arrive whole, and `read_all`
gets its blocks (`Smooth`); bodies may be cut anywhere.  A step that faults, or in which a call
gives up, is not taken: its connection takes no more steps, and the other ones go on without
it.  What is in flight does not show how it was written, so a message is put on the connection
in one step.
-/
namespace RemoteTable
open CMem Transition

/-! ## What the calls meet -/

/-- No system call of the call fails, no header is cut, and `read_all` gets its blocks. -/
structure Exchange.Smooth (x : Exchange) : Prop where
  writes : x.writes.Whole
  reads : x.reads.Whole
  blocks : ∃ junk, x.blocks = .granted junk

/-- The same for a round of a thread; and the calls on `stats_mutex` succeed. -/
structure Round.Smooth (r : Round) : Prop where
  reads : r.reads.Whole
  blocks : ∃ junk, r.blocks = .granted junk
  writes : r.writes.Whole
  writeLock : r.env.writeLock = 0
  writeUnlock : r.env.writeUnlock = 0

/-- What the calls of the clients and the rounds of the threads meet, in order: connections that
hold, and a protobuf-c that keeps its promises. -/
structure World (Tid : Type) where
  pb : Protobuf
  exchange : Tid → Nat → Exchange
  round : Tid → Nat → Round
  roundTrips : pb.RoundTrips
  exchange_smooth : ∀ i k, (exchange i k).Smooth
  round_smooth : ∀ i k, (round i k).Smooth

/-- The message as a request that is counted, if it is one. -/
def Request.ofMessage (env : Env) (msg : MessageT) : Option Request :=
  if h : msg.opcode ∈ [opSize, opDel, opGet, opPut, opGetKeys, opPrint] ∧
      env.writeLock = 0 ∧ env.writeUnlock = 0 then
    some ⟨env, msg, h.1, h.2.1, h.2.2⟩
  else none

namespace World
variable {Tid : Type} (w : World Tid)

/-- The request of a call, as the thread receives it in this round. -/
def request (i : Tid) (k : Nat) (op : RemoteOp) : Request where
  env := (w.round i k).env
  msg := op.message
  counted := op.message_counted
  writeLock := (w.round_smooth i k).writeLock
  writeUnlock := (w.round_smooth i k).writeUnlock

theorem ofMessage_request (i : Tid) (k : Nat) (op : RemoteOp) :
    Request.ofMessage (w.round i k).env op.message = some (w.request i k op) :=
  dif_pos ⟨op.message_counted, (w.round_smooth i k).writeLock, (w.round_smooth i k).writeUnlock⟩

/-- The requests of these calls, from the `k`-th round on. -/
def requestsFrom (i : Tid) : Nat → List RemoteOp → List Request
  | _, [] => []
  | k, op :: ops => w.request i k op :: requestsFrom i (k + 1) ops

end World

/-! ## The machine -/

/-- A client: the calls it has still to make, the one it waits for, those that have come back,
and the bytes under way to the server and back. -/
structure Client where
  todo : List RemoteOp
  waiting : Option RemoteOp
  done : List (RemoteOp × RemoteAnswer)
  toServer : List UInt8
  toClient : List UInt8

/-- The clients and the server.  Requests reach the server as bytes only, so its inboxes stay
empty. -/
structure RemoteState (Tid V : Type) where
  client : Tid → Client
  server : DispatchState Tid V

/-- The steps of the clients and of the threads. -/
inductive RemoteEvent (Tid : Type)
  /-- A function of the stub, up to the wait for the response. -/
  | call (i : Tid)
  /-- `network_receive`, and the call of `invoke`. -/
  | receive (i : Tid)
  /-- A step of `invoke`. -/
  | run (i : Tid)
  /-- The return of `invoke`, and `network_send`. -/
  | send (i : Tid)
  /-- A wake-up in `pthread_cond_wait` for no reason. -/
  | wake (i : Tid) (l : LockId)
  /-- The response, and the return of the function of the stub. -/
  | answer (i : Tid)

namespace DispatchState
variable {Tid V : Type}

/-- The server with these requests to come. -/
def withInbox (inbox : Tid → List Request) (s : DispatchState Tid V) : DispatchState Tid V :=
  { s with conn := fun i => { s.conn i with inbox := inbox i } }

section WithInbox
variable (s : DispatchState Tid V) (inbox : Tid → List Request)

@[simp] theorem withInbox_sys : (s.withInbox inbox).sys = s.sys := rfl
@[simp] theorem withInbox_conn (i : Tid) :
    (s.withInbox inbox).conn i = { s.conn i with inbox := inbox i } := rfl
@[simp] theorem withInbox_gTable : (s.withInbox inbox).gTable = s.gTable := rfl
@[simp] theorem withInbox_stats : (s.withInbox inbox).stats = s.stats := rfl
@[simp] theorem withInbox_log : (s.withInbox inbox).log = s.log := rfl

end WithInbox
end DispatchState

namespace RemoteState
variable {Tid V : Type}

/-- Nothing has happened yet. -/
def start (srv : Server) (programs : Tid → List RemoteOp) : RemoteState Tid V where
  client := fun i => ⟨programs i, none, [], [], []⟩
  server := .start srv fun _ => []

variable [DecidableEq Tid]

/-- Client `i` becomes `c`. -/
def setClient (s : RemoteState Tid V) (i : Tid) (c : Client) : RemoteState Tid V :=
  { s with client := Function.update s.client i c }

/-- One step. -/
def step (w : World Tid) (split : Split V) (s : RemoteState Tid V) :
    RemoteEvent Tid → Option (RemoteState Tid V)
  | .call i =>
    let c := s.client i
    let x := w.exchange i c.done.length
    match c.waiting, c.todo with
    | none, op :: todo =>
      match op.request x.junk >>= x.send w.pb with
      | .ok (code, out) =>
        if code = -1 then none
        else some (s.setClient i
          { c with todo := todo, waiting := some op, toServer := c.toServer ++ out })
      | .error _ => none
    | _, _ => none
  | .receive i =>
    let c := s.client i
    let r := w.round i (s.server.conn i).sent.length
    match networkReceive w.pb r ⟨⟨c.toServer, .silent⟩, 0⟩ with
    | .ok (some msg, sock) =>
      (Request.ofMessage r.env msg).bind fun q =>
        ((s.server.withInbox (Function.update (fun _ => []) i [q])).step split (.receive i)).map
          fun server =>
            { s.setClient i { c with toServer := sock.incoming.bytes } with server := server }
    | _ => none
  | .run i => (s.server.step split (.run i)).map fun server => { s with server := server }
  | .send i =>
    let c := s.client i
    let r := w.round i (s.server.conn i).sent.length
    match (s.server.conn i).reply with
    | none => none
    | some reply =>
      match packAndWrite w.pb r.sendBlock r.sendJunk r.writes reply with
      | .ok (code, out) =>
        if code = -1 then none
        else (s.server.step split (.send i)).map fun server =>
          { s.setClient i { c with toClient := c.toClient ++ out } with server := server }
      | .error _ => none
  | .wake i l => (s.server.step split (.wake i l)).map fun server => { s with server := server }
  | .answer i =>
    let c := s.client i
    let x := w.exchange i c.done.length
    match c.waiting with
    | none => none
    | some op =>
      match x.receive w.pb ⟨c.toClient, .silent⟩ with
      | .ok (resp, rest) =>
        match op.answer x.junk resp with
        | .ok a => some (s.setClient i
            { c with waiting := none, done := c.done ++ [(op, a)], toClient := rest.bytes })
        | .error _ => none
      | .error _ => none

/-- Clients with these programs and a server with this table, under any interleaving. -/
def machine (w : World Tid) (split : Split V) (srv : Server) (programs : Tid → List RemoteOp) :
    Machine (RemoteState Tid V) (RemoteEvent Tid) where
  Init s := s = start srv programs
  step := step w split

end RemoteState

/-! ## The server does not see how its requests arrive -/

namespace DispatchState
variable {Tid V : Type} [DecidableEq Tid] {split : Split V} {s s' : DispatchState Tid V}
  {inbox : Tid → List Request} {i j : Tid} {q : Request} {rest : List Request}

theorem withInbox_setConn (s : DispatchState Tid V) (inbox : Tid → List Request) (i : Tid) (c : Conn V) :
    (s.setConn i c).withInbox inbox = (s.withInbox inbox).setConn i { c with inbox := inbox i } := by
  simp only [withInbox, setConn, DispatchState.mk.injEq, true_and, and_true]
  funext j
  by_cases hj : j = i
  · subst hj
    rw [Function.update_self, Function.update_self]
  · rw [Function.update_of_ne hj, Function.update_of_ne hj]

theorem effect_withInbox (s : DispatchState Tid V) (inbox : Tid → List Request) (i : Tid) (q : Request)
    (instr : Instr) :
    (s.withInbox inbox).effect split i q instr = (s.effect split i q instr).map (withInbox inbox) := by
  cases instr with
  | acquire l m | release l m => rfl
  | work wk =>
    cases wk with
    | copy => rfl
    | lookup =>
      simp only [effect, Option.map_some, withInbox_setConn]
      rfl
    | update =>
      simp only [effect, withInbox_conn, withInbox_gTable]
      cases (s.conn i).view with
      | none => rfl
      | some v =>
        cases hact : split.act q v s.gTable with
        | error f => simp only [hact, Option.map_none]
        | ok r =>
          have h := congrArg DispatchState.conn
            (withInbox_setConn s inbox i { s.conn i with view := some v, reply := some r.2 })
          simp only [hact, Option.map_some, Option.some.injEq]
          exact congrArg (fun conn => DispatchState.mk s.sys conn r.1 s.stats (s.log ++ [(i, q, r.2)])) h.symm
    | count =>
      simp only [effect, withInbox_stats]
      cases updateStats s.stats q.msg.opcode q.env.ms <;> rfl

/-- **What is still to come does not matter to a step**, unless the step receives it. -/
theorem step_withInbox (split : Split V) (s : DispatchState Tid V) (inbox : Tid → List Request) {e : DispatchEvent Tid}
    (he : ∀ i, e ≠ .receive i) :
    (s.withInbox inbox).step split e = (s.step split e).map (withInbox inbox) := by
  cases e with
  | receive i => exact absurd rfl (he i)
  | wake i l =>
    simp only [step, Option.map_map]
    rfl
  | run i =>
    simp only [step, withInbox_conn, withInbox_sys]
    split
    · rename_i q instr _ _ _
      rw [effect_withInbox]
      cases s.effect split i q instr with
      | none => rfl
      | some s₁ =>
        simp only [Option.map_some, Option.bind_some, Option.map_map]
        rfl
    · rfl
  | send i =>
    simp only [step, withInbox_conn, withInbox_sys]
    cases (s.conn i).reply with
    | none => rfl
    | some reply =>
      cases s.sys.todo i with
      | none => rfl
      | some path =>
        cases path with
        | cons instr path => rfl
        | nil =>
          have h := congrArg DispatchState.conn (withInbox_setConn s inbox i { s.conn i with
            job := none, view := none, reply := none, sent := (s.conn i).sent ++ [reply] })
          simp only [Option.map_map]
          congr 1
          funext sys
          exact congrArg (fun conn => DispatchState.mk sys conn s.gTable s.stats s.log) h.symm

/-- A thread receives the first of what is to come. -/
theorem step_receive (hin : inbox i = q :: rest)
    (h : (s.withInbox (Function.update (fun _ => []) i [q])).step split (.receive i) = some s') :
    (s.conn i).job = none ∧
      s'.conn = Function.update (fun j => { s.conn j with inbox := [] }) i
        { s.conn i with inbox := [], job := some q } ∧
      s'.log = s.log ∧
      (s.withInbox inbox).step split (.receive i) =
        some (s'.withInbox (Function.update inbox i rest)) := by
  simp only [step, withInbox, Function.update_self] at h
  split at h
  · rename_i q' rest' hjob hbox
    obtain ⟨rfl, rfl⟩ := List.cons.inj hbox
    obtain ⟨sys, hstart, rfl⟩ := Option.map_eq_some_iff.mp h
    have hsys : s.sys.step (.start i q.msg.opcode q.env.statsBlock) = some sys := hstart
    refine ⟨hjob, ?_, rfl, ?_⟩
    · simp only [setConn]
      funext j
      by_cases hj : j = i
      · subst hj
        rw [Function.update_self, Function.update_self]
      · rw [Function.update_of_ne hj, Function.update_of_ne hj, Function.update_of_ne hj]
    · simp only [step, withInbox, hin, hjob]
      rw [hsys]
      simp only [Option.map_some, setConn, Option.some.injEq, DispatchState.mk.injEq, true_and, and_true]
      funext j
      by_cases hj : j = i
      · subst hj
        rw [Function.update_self, Function.update_self, Function.update_self]
      · rw [Function.update_of_ne hj, Function.update_of_ne hj, Function.update_of_ne hj,
          Function.update_of_ne hj]
  · cases h

end DispatchState
end RemoteTable
