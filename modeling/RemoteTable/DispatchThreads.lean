import RemoteTable.SkeletonSpec
import RemoteTable.LockProgress

/-! # The threads of the server

`network_main_loop` starts a `dispatch_thread` for each connection.  A thread receives a
request, runs `invoke` on it and sends the reply, over and over.  Its steps interleave
with those of the other threads, between any two instructions of `invoke` and within
the calls on the locks.

The table function of a request runs in two steps, and other threads may run between
them: first it looks at the table, then it acts on what it saw (`Split`).  Nothing is
assumed about where the function is cut, and by itself a cut function is not what the
whole one is: only the locks make it so.
-/
namespace RemoteTable
open CMem Transition

/-! ## Requests -/

/-- A request that is counted, and what the server meets while it handles it.  `STATS` is not
counted, nor is an opcode that `invoke` refuses; and the calls on `stats_mutex` succeed. -/
structure Request where
  env : Env
  msg : MessageT
  counted : msg.opcode ∈ [opSize, opDel, opGet, opPut, opGetKeys, opPrint]
  writeLock : env.writeLock = 0
  writeUnlock : env.writeUnlock = 0

namespace Request
variable (q : Request)

/-- How the request locks the table. -/
def mode : Mode := if q.msg.opcode = opDel ∨ q.msg.opcode = opPut then .write else .read

/-- The path of the request through `invoke`. -/
def path : List Instr := invokePath q.msg.opcode q.env.statsBlock

/-- The table function of the request, with the reply it builds: what `invoke` does under
`table_mutex`. -/
def tableSection (t : TableT) : Exec (TableT × MessageT) := do
  match ← dispatch q.env ⟨t, ⟨0, 0, Vector.replicate 6 0⟩⟩ q.msg with
  | some (srv, reply) => return (srv.gTable, reply)
  | none => return (t, q.msg)

theorem opcode_range : opSize ≤ q.msg.opcode ∧ q.msg.opcode ≤ opPrint := by
  have h := q.counted
  simp only [List.mem_cons, List.not_mem_nil, or_false] at h
  unfold opSize opDel opGet opPut opGetKeys opPrint at *
  omega

/-- **Every request takes the same path**: the table, then the statistics. -/
theorem path_eq : q.path = [.acquire .table q.mode, .work .lookup, .work .update,
    .release .table q.mode, .acquire .stats .write, .work .count, .release .stats .write] := by
  have h := q.counted
  simp only [List.mem_cons, List.not_mem_nil, or_false] at h
  unfold path mode
  rcases h with h | h | h | h | h | h <;> rw [h] <;> rfl

/-- The branch of a request depends on the table alone. -/
theorem dispatch_eq (srv : Server) : dispatch q.env srv q.msg = do
    let (t, reply) ← q.tableSection srv.gTable
    return some ({ srv with gTable := t }, reply) := by
  have h := q.counted
  simp only [List.mem_cons, List.not_mem_nil, or_false] at h
  unfold tableSection
  rcases h with h | h | h | h | h | h
  · rw [dispatch_size h, dispatch_size h]
    cases invokeSize q.env srv.gTable q.msg <;> rfl
  · rw [dispatch_del h, dispatch_del h]
    cases invokeDel srv.gTable q.msg <;> rfl
  · rw [dispatch_get h, dispatch_get h]
    cases invokeGet q.env srv.gTable q.msg <;> rfl
  · rw [dispatch_put h, dispatch_put h]
    cases invokePut q.env srv.gTable q.msg <;> rfl
  · rw [dispatch_getKeys h, dispatch_getKeys h]
    cases invokeGetKeys q.env srv.gTable q.msg <;> rfl
  · rw [dispatch_print h, dispatch_print h]
    cases invokePrint q.env srv.gTable q.msg <;> rfl

/-- **A request that locks the table to read leaves it as it is.** -/
theorem tableSection_read {t t' : TableT} {reply : MessageT} (hm : q.mode = .read)
    (h : q.tableSection t = .ok (t', reply)) : t' = t := by
  have hwrite : ¬ (q.msg.opcode = opDel ∨ q.msg.opcode = opPut) := by
    intro hop
    rw [mode, if_pos hop] at hm
    cases hm
  have hdisp := q.dispatch_eq ⟨t, ⟨0, 0, Vector.replicate 6 0⟩⟩
  rw [h, ok_bind] at hdisp
  rcases dispatch_table hdisp with hkeep | ⟨hop, -⟩ | ⟨hop, -⟩
  · exact hkeep
  · exact absurd (Or.inl hop) hwrite
  · exact absurd (Or.inr hop) hwrite

/-- The statistics of a request are counted. -/
theorem updateStats_ok (stats : Statistics) :
    ∃ stats', updateStats stats q.msg.opcode q.env.ms = .ok stats' :=
  updateStats_defined stats q.opcode_range.1 q.opcode_range.2 q.env.ms

/-- **A request is handled as its table function is**, and `invoke` returns 0. -/
theorem invoke_eq {srv : Server} {t : TableT} {reply : MessageT}
    (h : q.tableSection srv.gTable = .ok (t, reply)) :
    ∃ stats, invoke q.env srv q.msg = .ok (0, ⟨t, stats⟩, reply) := by
  obtain ⟨stats, hstats⟩ := q.updateStats_ok srv.stats
  have hdisp : dispatch q.env srv q.msg = .ok (some (⟨t, srv.stats⟩, reply)) := by
    rw [q.dispatch_eq srv, h, ok_bind]
    rfl
  have hrange := q.opcode_range
  have htail : statsTail q.env q.msg.opcode srv.stats = .ok (0, stats) := by
    unfold statsTail
    rw [if_pos (by unfold opSize opPrint at hrange; omega), if_neg (not_not.mpr q.writeLock), hstats,
      ok_bind, if_neg (not_not.mpr q.writeUnlock), pure_eq_ok]
  refine ⟨stats, ?_⟩
  rw [invoke, hdisp, ok_bind]
  simp only [htail, ok_bind, pure_eq_ok]

theorem invoke_fault {srv : Server} {f : Fault} (h : q.tableSection srv.gTable = .error f) :
    invoke q.env srv q.msg = .error f := by
  refine invoke_of_fault ?_
  rw [q.dispatch_eq srv, h, error_bind]

end Request

/-- `invoke` on one request after the other: the server afterwards and the replies. -/
def serve (srv : Server) : List Request → Exec (Server × List MessageT)
  | [] => .ok (srv, [])
  | q :: qs => do
    let (_, srv, reply) ← invoke q.env srv q.msg
    let (srv, replies) ← serve srv qs
    return (srv, reply :: replies)

/-- One more request at the end. -/
theorem serve_append {q : Request} {qs : List Request} {srv srv' srv'' : Server} {code : Int}
    {replies : List MessageT} {reply : MessageT} (h : serve srv qs = .ok (srv', replies))
    (hq : invoke q.env srv' q.msg = .ok (code, srv'', reply)) :
    serve srv (qs ++ [q]) = .ok (srv'', replies ++ [reply]) := by
  induction qs generalizing srv replies with
  | nil =>
    obtain ⟨rfl, rfl⟩ := Prod.mk.inj (Except.ok.inj h)
    simp [serve, hq]
  | cons p qs ih =>
    obtain ⟨⟨code', srv₁, r⟩, hp, hrest⟩ := bind_eq_ok.mp h
    obtain ⟨⟨srv₂, rs⟩, hqs, hret⟩ := bind_eq_ok.mp hrest
    obtain ⟨rfl, rfl⟩ := Prod.mk.inj (Except.ok.inj hret)
    simp [serve, hp, ih hqs]

/-! ## The machine -/

/-- The table functions, each cut into a step that looks at the table and a step that
acts on what was seen. -/
structure Split (V : Type) where
  look : Request → TableT → V
  act : Request → V → TableT → Exec (TableT × MessageT)
  spec : ∀ q t, act q (look q t) t = q.tableSection t

/-- A connection, and the thread that serves it. -/
structure Conn (V : Type) where
  /-- The requests that are still to be received. -/
  inbox : List Request
  /-- The request in `invoke`. -/
  job : Option Request
  /-- What its lookup has seen. -/
  view : Option V
  /-- The reply, once it is built. -/
  reply : Option MessageT
  /-- The replies that have been sent. -/
  sent : List MessageT

/-- The server: its locks, its connections, its data, and the requests in the order in
which they acted on the table. -/
structure DispatchState (Tid V : Type) where
  sys : InvokeState Tid
  conn : Tid → Conn V
  gTable : TableT
  stats : Statistics
  log : List (Tid × Request × MessageT)

/-- The steps of the threads. -/
inductive DispatchEvent (Tid : Type)
  /-- `network_receive`, and the call of `invoke`. -/
  | receive (i : Tid)
  /-- A step of `invoke`. -/
  | run (i : Tid)
  /-- The return of `invoke`, and `network_send`. -/
  | send (i : Tid)
  /-- A wake-up in `pthread_cond_wait` on lock `l`, for no reason. -/
  | wake (i : Tid) (l : LockId)

namespace DispatchState
variable {Tid V : Type}

/-- The server with the requests its clients are going to send. -/
def start (srv : Server) (requests : Tid → List Request) : DispatchState Tid V where
  sys := .fresh Tid
  conn := fun i => ⟨requests i, none, none, none, []⟩
  gTable := srv.gTable
  stats := srv.stats
  log := []

variable [DecidableEq Tid]

/-- The connection of thread `i` becomes `c`. -/
def setConn (s : DispatchState Tid V) (i : Tid) (c : Conn V) : DispatchState Tid V :=
  { s with conn := Function.update s.conn i c }

/-- What an instruction does to the data.  There is no next state after a fault. -/
def effect (split : Split V) (s : DispatchState Tid V) (i : Tid) (q : Request) :
    Instr → Option (DispatchState Tid V)
  | .work .lookup => some (s.setConn i { s.conn i with view := some (split.look q s.gTable) })
  | .work .update =>
    match (s.conn i).view with
    | none => none
    | some v =>
      match split.act q v s.gTable with
      | .error _ => none
      | .ok (t, reply) =>
        some { s.setConn i { s.conn i with reply := some reply } with
          gTable := t, log := s.log ++ [(i, q, reply)] }
  | .work .count =>
    match updateStats s.stats q.msg.opcode q.env.ms with
    | .error _ => none
    | .ok stats => some { s with stats := stats }
  | .work .copy | .acquire _ _ | .release _ _ => some s

/-- One step of the server. -/
def step (split : Split V) (s : DispatchState Tid V) :
    DispatchEvent Tid → Option (DispatchState Tid V)
  | .receive i =>
    match (s.conn i).job, (s.conn i).inbox with
    | none, q :: rest =>
      (s.sys.step (.start i q.msg.opcode q.env.statsBlock)).map fun sys =>
        { s.setConn i { s.conn i with inbox := rest, job := some q } with sys := sys }
    | _, _ => none
  | .run i =>
    match (s.conn i).job, s.sys.todo i with
    | some q, some (instr :: _) =>
      (s.effect split i q instr).bind fun s' =>
        (s.sys.step (.run i)).map fun sys => { s' with sys := sys }
    | _, _ => none
  | .send i =>
    match (s.conn i).reply, s.sys.todo i with
    | some reply, some [] =>
      (s.sys.step (.run i)).map fun sys =>
        { s.setConn i { s.conn i with
            job := none, view := none, reply := none, sent := (s.conn i).sent ++ [reply] } with
          sys := sys }
    | _, _ => none
  | .wake i l => (s.sys.step (.wake i l)).map fun sys => { s with sys := sys }

/-- The server under any interleaving of its threads, from a given server and for given
requests. -/
def machine (split : Split V) (srv : Server) (requests : Tid → List Request) :
    Machine (DispatchState Tid V) (DispatchEvent Tid) where
  Init s := s = start srv requests
  step := step split

end DispatchState
end RemoteTable
