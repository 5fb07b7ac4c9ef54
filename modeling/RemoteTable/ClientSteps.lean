import RemoteTable.RemoteClients

/-! # Clients and their threads

A client and its thread are in step: at any moment the request of a call is on its way, or in
`invoke`, or its reply is on its way back, or there is no call.  So the server
could as well have had the requests of all programs before it from the start, and what is known
of it with these holds here.
-/
namespace RemoteTable
open CMem Transition Tally

/-- What belongs to one client. -/
def ofClient {Tid α : Type} [DecidableEq Tid] (i : Tid) (l : List (Tid × α)) : List α :=
  (l.filter fun e => e.1 = i).map Prod.snd

section OfClient
variable {Tid α β : Type} [DecidableEq Tid] {i j : Tid}

theorem ofClient_cons_self (a : α) (l : List (Tid × α)) : ofClient i ((i, a) :: l) = a :: ofClient i l := by
  simp [ofClient]

theorem ofClient_cons_other (h : j ≠ i) (a : α) (l : List (Tid × α)) :
    ofClient i ((j, a) :: l) = ofClient i l := by
  simp [ofClient, h]

/-- What corresponds, corresponds client by client. -/
theorem forall₂_ofClient {R : α → β → Prop} {l : List (Tid × α)} {l' : List (Tid × β)}
    (h : List.Forall₂ (fun e e' => e.1 = e'.1 ∧ R e.2 e'.2) l l') (i : Tid) :
    List.Forall₂ R (ofClient i l) (ofClient i l') := by
  induction h with
  | nil => exact .nil
  | @cons e e' l l' hhead _ ih =>
    obtain ⟨j, a⟩ := e
    obtain ⟨j', b⟩ := e'
    obtain ⟨rfl, hab⟩ := hhead
    by_cases hj : j = i
    · subst hj
      rw [ofClient_cons_self, ofClient_cons_self]
      exact .cons hab ih
    · rw [ofClient_cons_other hj, ofClient_cons_other hj]
      exact ih

end OfClient

/-! ## A client and its thread -/

section Client
variable {Tid V : Type} {w : World Tid} {i : Tid} {c : Client} {conn : Conn V} {op : RemoteOp}

/-- Where the call of a client is. -/
inductive Client.Stage (w : World Tid) (i : Tid) (c : Client) (conn : Conn V) : Prop
  | idle (hwait : c.waiting = none) (hout : c.toServer = []) (hin : c.toClient = [])
      (hjob : conn.job = none) (hsent : conn.sent.length = c.done.length) : Stage w i c conn
  | asked {op : RemoteOp} (hwait : c.waiting = some op) (hout : Frame w.pb op.message c.toServer)
      (hin : c.toClient = []) (hjob : conn.job = none) (hsent : conn.sent.length = c.done.length) :
      Stage w i c conn
  | served {op : RemoteOp} (hwait : c.waiting = some op) (hout : c.toServer = [])
      (hin : c.toClient = []) (hjob : conn.job = some (w.request i c.done.length op))
      (hsent : conn.sent.length = c.done.length) : Stage w i c conn
  | replied {op : RemoteOp} {replies : List MessageT} {reply : MessageT} (hwait : c.waiting = some op)
      (hout : c.toServer = []) (hin : Frame w.pb reply c.toClient) (hjob : conn.job = none)
      (hsent : conn.sent = replies ++ [reply]) (hlen : replies.length = c.done.length) :
      Stage w i c conn

/-- **The invariant of a client**: its calls are those that have come back, the one it waits
for and those to come; and those that have come back have what their replies give. -/
structure ClientInv (w : World Tid) (i : Tid) (program : List RemoteOp) (c : Client)
    (conn : Conn V) : Prop where
  stage : Client.Stage w i c conn
  program : c.done.map Prod.fst ++ c.waiting.toList ++ c.todo = program
  told : List.Forall₂ (fun reply d => Gives reply d.1 d.2) (conn.sent.take c.done.length) c.done

/-- How many requests the thread has received. -/
def received (conn : Conn V) : Nat := conn.sent.length + if conn.job.isSome then 1 else 0

theorem Gives.unique {reply : MessageT} {a b : RemoteAnswer} (h : Gives reply op a)
    (h' : Gives reply op b) : a = b := by
  obtain ⟨bytes, hsent, ha⟩ := h.result
  obtain ⟨bytes', hsent', hb⟩ := h'.result
  obtain rfl := Except.ok.inj (hsent.symm.trans hsent')
  exact Except.ok.inj ((ha fun _ => 0).symm.trans (hb fun _ => 0))

/-- **A request on its way is received**, and nothing else is there to be received. -/
theorem networkReceive_request {pb : Protobuf} (hpb : pb.RoundTrips) {r : Round} (hr : r.Smooth)
    {bytes : List UInt8} (h : Frame pb op.message bytes) :
    networkReceive pb r ⟨⟨bytes, .silent⟩, 0⟩ = .ok (some op.message, ⟨⟨[], .silent⟩, 0⟩) := by
  obtain ⟨junk, hblocks⟩ := hr.blocks
  refine networkReceive_eq pb r _ ?_
  have hframe := h.received hpb hr.reads junk [] .silent op.message_enums op.message_sent.1
  rw [List.append_nil, op.message_sent.2] at hframe
  rw [hblocks]
  exact hframe

/-- **A reply on its way comes back** with what it gives. -/
theorem receive_reply {pb : Protobuf} (hpb : pb.RoundTrips) {x : Exchange} (hx : x.Smooth)
    {bytes : List UInt8} {reply : MessageT} (h : Frame pb reply bytes) {a : RemoteAnswer}
    (hgives : Gives reply op a) : ∃ resp, x.receive pb ⟨bytes, .silent⟩ = .ok (resp, ⟨[], .silent⟩) ∧
      op.answer x.junk resp = .ok a := by
  obtain ⟨junk, hblocks⟩ := hx.blocks
  obtain ⟨b, hsent, hresult⟩ := hgives.result
  have hframe := h.received hpb hx.reads junk [] .silent hgives.enums hsent
  rw [List.append_nil] at hframe
  exact ⟨_, by rw [Exchange.receive, hblocks, hframe], hresult x.junk⟩

theorem ClientInv.start (w : World Tid) (i : Tid) (program : List RemoteOp) :
    ClientInv w i program ⟨program, none, [], [], []⟩ (⟨[], none, none, none, []⟩ : Conn V) :=
  ⟨.idle rfl rfl rfl rfl rfl, rfl, .nil⟩

/-- The invariant looks at the request under way and at the replies only. -/
theorem ClientInv.congr {program : List RemoteOp} {conn' : Conn V} (h : ClientInv w i program c conn)
    (hjob : conn'.job = conn.job) (hsent : conn'.sent = conn.sent) : ClientInv w i program c conn' := by
  refine ⟨?_, h.program, hsent ▸ h.told⟩
  cases h.stage with
  | idle hwait hout hin hj hs => exact .idle hwait hout hin (hjob.trans hj) (hsent ▸ hs)
  | asked hwait hout hin hj hs => exact .asked hwait hout hin (hjob.trans hj) (hsent ▸ hs)
  | served hwait hout hin hj hs => exact .served hwait hout hin (hjob.trans hj) (hsent ▸ hs)
  | replied hwait hout hin hj hs hl => exact .replied hwait hout hin (hjob.trans hj) (hsent.trans hs) hl

end Client

section Requests
variable {Tid : Type} (w : World Tid)

variable [DecidableEq Tid]

/-- **The calls behind the requests of a log**, when those of each client are the first of its
program. -/
theorem exists_calls (log : List (Tid × Request × MessageT)) (programs : Tid → List RemoteOp)
    (k : Tid → Nat) (h : ∀ i, (ofClient i log).map Prod.fst <+: w.requestsFrom i (k i) (programs i)) :
    ∃ ops : List (Tid × RemoteOp),
      List.Forall₂ (fun e o => e.1 = o.1 ∧ e.2.1.msg = o.2.message) log ops ∧
      ∀ i, ofClient i ops = (programs i).take (ofClient i log).length := by
  induction log generalizing programs k with
  | nil => exact ⟨[], .nil, fun i => by simp [ofClient]⟩
  | cons e log ih =>
    obtain ⟨i, q, reply⟩ := e
    have hi := h i
    rw [ofClient_cons_self, List.map_cons] at hi
    cases hprog : programs i with
    | nil =>
      rw [hprog] at hi
      exact absurd (List.prefix_nil.mp hi) (List.cons_ne_nil _ _)
    | cons op ops =>
      rw [hprog, World.requestsFrom, List.cons_prefix_cons] at hi
      obtain ⟨hq, hi⟩ := hi
      obtain ⟨calls, hcalls, htake⟩ := ih (Function.update programs i ops) (Function.update k i (k i + 1)) <| by
        intro j
        by_cases hj : j = i
        · subst hj
          rw [Function.update_self, Function.update_self]
          exact hi
        · rw [Function.update_of_ne hj, Function.update_of_ne hj]
          have hother := h j
          rwa [ofClient_cons_other (Ne.symm hj)] at hother
      refine ⟨(i, op) :: calls, .cons ⟨rfl, by rw [hq]; rfl⟩ hcalls, fun j => ?_⟩
      have hrest := htake j
      by_cases hj : j = i
      · subst hj
        rw [Function.update_self] at hrest
        rw [ofClient_cons_self, ofClient_cons_self, hprog, hrest]
        rfl
      · rw [Function.update_of_ne hj] at hrest
        rw [ofClient_cons_other (Ne.symm hj), ofClient_cons_other (Ne.symm hj), hrest]

end Requests

/-! ## What the server has before it -/

namespace RemoteState
variable {Tid V : Type} [DecidableEq Tid] {w : World Tid} {split : Split V} {n : Int}
  {programs : Tid → List RemoteOp} {s s' : RemoteState Tid V} {i : Tid}

/-- The requests that a thread has still to receive. -/
def toCome (w : World Tid) (programs : Tid → List RemoteOp) (server : DispatchState Tid V) (i : Tid) :
    List Request :=
  w.requestsFrom i (received (server.conn i)) ((programs i).drop (received (server.conn i)))

/-- The server, with the requests before it that the clients are going to make. -/
def foreseen (w : World Tid) (programs : Tid → List RemoteOp) (server : DispatchState Tid V) :
    DispatchState Tid V :=
  server.withInbox (toCome w programs server)

/-- The server for these clients. -/
abbrev serverMachine (w : World Tid) (split : Split V) (n : Int) (programs : Tid → List RemoteOp) :
    Machine (DispatchState Tid V) (DispatchEvent Tid) :=
  DispatchState.machine split (tableSkelInit n) fun i => w.requestsFrom i 0 (programs i)

/-- **What holds at any moment**: the server is in a state that it reaches with all requests
before it, and every client is in step with its thread. -/
structure Inv (w : World Tid) (split : Split V) (n : Int) (programs : Tid → List RemoteOp)
    (s : RemoteState Tid V) : Prop where
  server : (serverMachine w split n programs).Reachable (foreseen w programs s.server)
  clients : ∀ i, ClientInv w i (programs i) (s.client i) (s.server.conn i)

omit [DecidableEq Tid] in
/-- What is to come depends on what has been received. -/
theorem toCome_congr {server server' : DispatchState Tid V}
    (h : received (server'.conn i) = received (server.conn i)) :
    toCome w programs server' i = toCome w programs server i := by
  unfold toCome
  rw [h]

theorem start_inv : Inv w split n programs (start (tableSkelInit n) programs) where
  server := by
    refine .start ?_
    have hinbox : toCome w programs (.start (tableSkelInit n) fun _ => [] : DispatchState Tid V) =
        fun i => w.requestsFrom i 0 (programs i) := funext fun _ => rfl
    change foreseen w programs (.start (tableSkelInit n) fun _ => []) = _
    rw [foreseen, hinbox]
    rfl
  clients i := .start w i (programs i)

section Order
variable [Fintype Tid]

theorem Inv.serial (hs : Inv w split n programs s) :
    (foreseen w programs s.server).Serial split (tableSkelInit n) fun i =>
      w.requestsFrom i 0 (programs i) :=
  DispatchState.serial_of_reachable hs.server

/-- The replies of a thread, those sent and the one to be sent, are those in the log. -/
theorem Inv.replies (hs : Inv w split n programs s) (i : Tid) :
    (ofClient i s.server.log).map Prod.snd =
      (s.server.conn i).sent ++ (s.server.conn i).reply.toList :=
  (hs.serial.conns i).answers

/-- Where there is a reply to be sent there is a request. -/
theorem Inv.job_of_reply (hs : Inv w split n programs s) (h : (s.server.conn i).job = none) :
    (s.server.conn i).reply = none := by
  have hstage := (hs.serial.conns i).stage
  generalize (foreseen w programs s.server).sys.todo i = todo at hstage
  cases hstage with
  | idle _ hreply => exact hreply
  | busy hjob => exact absurd (h.symm.trans hjob) (Option.some_ne_none _).symm

/-- The calls that have come back are in the log, and at most the one under way besides. -/
theorem Inv.length_log (hs : Inv w split n programs s) (i : Tid) :
    (s.client i).done.length ≤ (ofClient i s.server.log).length ∧
      (ofClient i s.server.log).length ≤
        (s.client i).done.length + (s.client i).waiting.toList.length ∧
      (s.client i).done.length ≤ (s.server.conn i).sent.length := by
  have hlen := congrArg List.length (hs.replies i)
  rw [List.length_map, List.length_append] at hlen
  cases (hs.clients i).stage with
  | idle hwait _ _ hjob hsent =>
    rw [hs.job_of_reply hjob, Option.toList_none, List.length_nil] at hlen
    omega
  | asked hwait _ _ hjob hsent =>
    rw [hs.job_of_reply hjob, Option.toList_none, List.length_nil] at hlen
    omega
  | served hwait _ _ _ hsent =>
    have hone : (s.server.conn i).reply.toList.length ≤ 1 := by
      cases (s.server.conn i).reply <;> simp
    rw [hwait, Option.toList_some, List.length_singleton]
    omega
  | replied hwait _ _ hjob hsent hdone =>
    rw [hs.job_of_reply hjob, Option.toList_none, List.length_nil] at hlen
    have hsize := congrArg List.length hsent
    rw [List.length_append, List.length_singleton] at hsize
    rw [hwait, Option.toList_some, List.length_singleton]
    omega

/-- **The calls in the log, in their order, have the results that the history prescribes**, and
those of a client are the first of its program. -/
theorem Inv.order (hs : Inv w split n programs s) (hn : 1 ≤ n)
    (hops : ∀ i, ∀ op ∈ programs i, op.Sendable n) :
    ∃ order : List (Tid × RemoteOp × RemoteAnswer), Legal [] order ∧
      List.Forall₂ (fun e o => e.1 = o.1 ∧ Gives e.2.2 o.2.1 o.2.2) s.server.log order ∧
      ∀ i, (ofClient i order).map Prod.fst =
        (programs i).take (ofClient i s.server.log).length := by
  obtain ⟨ops, hops', htake⟩ := exists_calls w s.server.log programs (fun _ => 0) fun i =>
    ⟨_, by rw [← List.append_assoc]; exact (hs.serial.conns i).order⟩
  have hsend : ∀ o ∈ ops, o.2.Sendable n := by
    rintro ⟨i, op⟩ ho
    have hmem : op ∈ ofClient i ops := List.mem_map.mpr ⟨(i, op), by simp [ho], rfl⟩
    rw [htake] at hmem
    exact hops i op (List.mem_of_mem_take hmem)
  obtain ⟨stats, hreplay⟩ := hs.serial.replay
  have htracks : Tracks (tableSkelInit n).gTable (List.replicate n.toNat []) (tableCalls []) :=
    tableCreate_tracks (by omega)
  obtain ⟨order, hlegal, hlabels, hall⟩ := htracks.calls hn hops' hsend rfl (by simp) hreplay
  refine ⟨order, hlegal, ?_, fun i => ?_⟩
  · rw [← hlabels, List.forall₂_map_right_iff] at hops'
    exact List.Forall₂.mp (fun e o hl hg => ⟨hl.1, hg⟩) hops' hall
  · rw [← htake, ← hlabels]
    simp [ofClient, List.filter_map, Function.comp_def]

/-- The reply to the call that a client waits for gives it a result. -/
theorem Inv.gives (hs : Inv w split n programs s) (hn : 1 ≤ n)
    (hops : ∀ i, ∀ op ∈ programs i, op.Sendable n) {op : RemoteOp} {replies : List MessageT}
    {reply : MessageT} (hwait : (s.client i).waiting = some op)
    (hanswers : (s.server.conn i).sent ++ (s.server.conn i).reply.toList = replies ++ [reply])
    (hlen : replies.length = (s.client i).done.length) : ∃ a, Gives reply op a := by
  obtain ⟨order, -, hall, htake⟩ := hs.order hn hops
  have hreplies := hs.replies i
  rw [hanswers] at hreplies
  have hgives : List.Forall₂ (fun reply d => Gives reply d.1 d.2) (replies ++ [reply])
      (ofClient i order) := by
    rw [← hreplies, List.forall₂_map_left_iff]
    exact forall₂_ofClient hall i
  have hlast := List.forall₂_drop replies.length hgives
  rw [List.drop_left] at hlast
  -- the call at this place of the program is the one that waits
  have hcall : ((ofClient i order).drop replies.length).map Prod.fst = [op] := by
    have hsize : (ofClient i s.server.log).length = replies.length + 1 := by
      have h := congrArg List.length hreplies
      rwa [List.length_map, List.length_append, List.length_singleton] at h
    have hprog := (hs.clients i).program
    rw [hwait, Option.toList_some] at hprog
    have hdone : replies.length = ((s.client i).done.map Prod.fst).length := by
      rw [List.length_map, hlen]
    rw [List.map_drop, htake, hsize, ← hprog, hdone, List.append_assoc, List.drop_take, List.drop_left,
      Nat.add_sub_cancel_left]
    rfl
  cases hrest : (ofClient i order).drop replies.length with
  | nil =>
    rw [hrest] at hcall
    cases hcall
  | cons d rest =>
    rw [hrest] at hcall hlast
    obtain ⟨hop, -⟩ := List.cons.inj hcall
    cases hlast with
    | cons hd _ => exact ⟨d.2, hop ▸ hd⟩

end Order

/-! ## What is still to be paid -/

/-- The step is a wake-up for no reason. -/
def isWake : RemoteEvent Tid → Bool
  | .wake _ _ => true
  | .call _ | .receive _ | .run _ | .send _ | .answer _ => false

/-- As on the server, a wake-up for no reason gives three steps. -/
def gain (e : RemoteEvent Tid) : Nat := if isWake e then 3 else 0

/-- The steps that a client has still to take: two for a call. -/
def stepsLeft (c : Client) : Nat := 2 * c.todo.length + c.waiting.toList.length

/-- What has still to be paid, by the server and by the clients. -/
def rank [Fintype Tid] (w : World Tid) (programs : Tid → List RemoteOp) (s : RemoteState Tid V) : Nat :=
  (foreseen w programs s.server).rank + ∑ i, stepsLeft (s.client i)

/-- What every step is: clients and threads stay in step, what is ordered stays ordered, and
the step is paid for. -/
structure Advance [Fintype Tid] (w : World Tid) (split : Split V) (n : Int)
    (programs : Tid → List RemoteOp) (s : RemoteState Tid V) (e : RemoteEvent Tid)
    (s' : RemoteState Tid V) : Prop where
  inv : Inv w split n programs s'
  log : s.server.log <+: s'.server.log
  paid : rank w programs s' + 1 ≤ rank w programs s + gain e

section Paid
variable [Fintype Tid] {server : DispatchState Tid V} {c : Client}

/-- A step of the server, which changes at most the bytes of a client. -/
theorem Inv.paid_server (hs : Inv w split n programs s) {d : DispatchEvent Tid}
    (hstep : (foreseen w programs s.server).step split d = some (foreseen w programs s'.server))
    (hclients : ∀ j, stepsLeft (s'.client j) = stepsLeft (s.client j)) :
    rank w programs s' + 1 ≤ rank w programs s + DispatchState.gain d := by
  have hpaid := DispatchState.rank_step hs.server hstep
  simp only [rank, hclients]
  omega

/-- A step of a client alone. -/
theorem paid_client (hlt : stepsLeft c < stepsLeft (s.client i)) :
    rank w programs (s.setClient i c) + 1 ≤ rank w programs s := by
  have hsum : ∑ j, stepsLeft ((s.setClient i c).client j) < ∑ j, stepsLeft (s.client j) := by
    refine sum_lt_sum_of_move (c := 0) (i := i) ?_ fun j hj => ?_
    · simpa [setClient] using hlt
    · simp [setClient, hj]
  simp only [rank, setClient] at hsum ⊢
  omega

omit [Fintype Tid] in
/-- The bytes under way do not count. -/
theorem stepsLeft_setClient (htodo : c.todo = (s.client i).todo)
    (hwait : c.waiting = (s.client i).waiting) (j : Tid) :
    stepsLeft ((s.setClient i c).client j) = stepsLeft (s.client j) := by
  by_cases hj : j = i
  · subst hj
    simp [setClient, stepsLeft, htodo, hwait]
  · simp [setClient, hj]

end Paid

/-! ## One step -/

section Step
variable [Fintype Tid] {c : Client} {server : DispatchState Tid V}

omit [Fintype Tid] in
/-- A step that concerns one client and the server. -/
theorem Inv.update (hs : Inv w split n programs s)
    (hserver : (serverMachine w split n programs).Reachable (foreseen w programs server))
    (hi : ClientInv w i (programs i) c (server.conn i))
    (hother : ∀ j, j ≠ i → (server.conn j).job = (s.server.conn j).job ∧
      (server.conn j).sent = (s.server.conn j).sent) :
    Inv w split n programs { s.setClient i c with server := server } where
  server := hserver
  clients j := by
    simp only [setClient]
    by_cases hj : j = i
    · subst hj
      rw [Function.update_self]
      exact hi
    · rw [Function.update_of_ne hj]
      exact (hs.clients j).congr (hother j hj).1 (hother j hj).2

/-- A call is made. -/
theorem Inv.call (hs : Inv w split n programs s) (hops : ∀ i, ∀ op ∈ programs i, op.Sendable n)
    (h : s.step w split (.call i) = some s') : Advance w split n programs s (.call i) s' := by
  simp only [step] at h
  split at h
  · rename_i op todo hwait htodo
    have hprog := (hs.clients i).program
    rw [hwait, htodo, Option.toList_none, List.append_nil] at hprog
    have hsend : op.Sendable n := hops i op (by rw [← hprog]; simp)
    rw [RemoteOp.request_eq hsend, ok_bind] at h
    split at h
    · rename_i code out hrun
      split at h
      · cases h
      · rename_i hcode
        obtain rfl := Option.some.inj h
        have hframe := packAndWrite_frame w.roundTrips
          (w.exchange_smooth i (s.client i).done.length).writes hrun hcode
        have hpaid : stepsLeft { s.client i with todo := todo, waiting := some op, toServer := (s.client i).toServer ++ out } <
            stepsLeft (s.client i) := by
          simp only [stepsLeft, hwait, htodo, List.length_cons, Option.toList_none, Option.toList_some,
            List.length_nil]
          omega
        refine ⟨hs.update hs.server ⟨?_, ?_, (hs.clients i).told⟩ fun _ _ => ⟨rfl, rfl⟩,
          List.prefix_rfl, paid_client hpaid⟩
        · cases (hs.clients i).stage with
          | idle _ hout hin hjob hsent =>
            refine .asked rfl ?_ hin hjob hsent
            rw [hout, List.nil_append]
            exact hframe
          | asked hw | served hw | replied hw => exact absurd (hwait.symm.trans hw) (Option.some_ne_none _).symm
        · simpa using hprog
    · cases h
  · cases h

/-- A request is received. -/
theorem Inv.receive (hs : Inv w split n programs s)
    (h : s.step w split (.receive i) = some s') : Advance w split n programs s (.receive i) s' := by
  simp only [step] at h
  have hsmooth := w.round_smooth i (s.server.conn i).sent.length
  obtain ⟨junk, hblocks⟩ := hsmooth.blocks
  -- without a request on its way nobody comes back from `read_all`
  have hsilent : (s.client i).toServer ≠ [] := by
    intro hout
    rw [hout, networkReceive_error w.pb _ _ (by
      rw [hblocks]
      exact readAndUnpack_silent hsmooth.reads junk)] at h
    cases h
  cases (hs.clients i).stage with
  | idle _ hout | served _ hout | replied _ hout => exact absurd hout hsilent
  | @asked op hwait hout hin hjob hsent =>
    rw [networkReceive_request w.roundTrips hsmooth hout] at h
    simp only [World.ofMessage_request, Option.bind_some, hsent] at h
    obtain ⟨server, hstep, rfl⟩ := Option.map_eq_some_iff.mp h
    -- it is the next one that the server has before it
    have hprog := (hs.clients i).program
    rw [hwait, Option.toList_some, List.append_assoc] at hprog
    have hnext : toCome w programs s.server i =
        w.request i (s.client i).done.length op ::
          w.requestsFrom i ((s.client i).done.length + 1) (s.client i).todo := by
      have hdone : ((s.client i).done.map Prod.fst).length = (s.client i).done.length := List.length_map _
      have hdrop : (programs i).drop (s.client i).done.length = op :: (s.client i).todo := by
        rw [← hprog, ← hdone, List.drop_left]
        rfl
      simp only [toCome, received, hjob, hsent, Option.isSome_none, Bool.false_eq_true, if_false,
        Nat.add_zero, hdrop]
      rfl
    obtain ⟨-, hconn, hlog, hfore⟩ := DispatchState.step_receive hnext hstep
    have hself : server.conn i = { s.server.conn i with
        inbox := [], job := some (w.request i (s.client i).done.length op) } := by
      rw [hconn, Function.update_self]
    have hother : ∀ j, j ≠ i → (server.conn j).job = (s.server.conn j).job ∧
        (server.conn j).sent = (s.server.conn j).sent := by
      intro j hj
      rw [hconn, Function.update_of_ne hj]
      exact ⟨rfl, rfl⟩
    have hcome : toCome w programs server = Function.update (toCome w programs s.server) i
        (w.requestsFrom i ((s.client i).done.length + 1) (s.client i).todo) := by
      funext j
      by_cases hj : j = i
      · subst hj
        rw [Function.update_self]
        have hdrop : (programs j).drop ((s.client j).done.length + 1) = (s.client j).todo := by
          have hdone : ((s.client j).done.map Prod.fst ++ [op]).length = (s.client j).done.length + 1 := by
            rw [List.length_append, List.length_map, List.length_singleton]
          rw [← hprog, ← List.append_assoc, ← hdone, List.drop_left]
        simp only [toCome, received, hself, hsent, Option.isSome_some, if_true, hdrop]
      · rw [Function.update_of_ne hj]
        refine toCome_congr ?_
        rw [received, received, (hother j hj).1, (hother j hj).2]
    rw [← hcome] at hfore
    refine ⟨hs.update (hs.server.next (a := .receive i) hfore) ⟨?_, (hs.clients i).program, ?_⟩ hother,
      hlog ▸ List.prefix_rfl, hs.paid_server (d := .receive i) hfore fun j => ?_⟩
    · rw [hself]
      exact .served hwait rfl hin rfl hsent
    · rw [hself]
      exact (hs.clients i).told
    · exact stepsLeft_setClient (s := s) (c := { s.client i with toServer := [] }) rfl rfl j

/-- A step of the server that receives nothing and answers nothing. -/
theorem Inv.serverStep (hs : Inv w split n programs s) {d : DispatchEvent Tid}
    (hd : ∀ i, d ≠ .receive i) (hstep : s.server.step split d = some server)
    (hkeep : ∀ j, (server.conn j).job = (s.server.conn j).job ∧
      (server.conn j).sent = (s.server.conn j).sent) :
    Inv w split n programs { s with server := server } ∧
      rank w programs { s with server := server } + 1 ≤ rank w programs s + DispatchState.gain d := by
  have hcome : toCome w programs server = toCome w programs s.server := by
    funext j
    refine toCome_congr ?_
    rw [received, received, (hkeep j).1, (hkeep j).2]
  have hfore := DispatchState.step_withInbox split s.server (toCome w programs s.server) hd
  rw [hstep, Option.map_some, ← hcome] at hfore
  refine ⟨⟨hs.server.next (a := d) ?_, fun j => (hs.clients j).congr (hkeep j).1 (hkeep j).2⟩,
    hs.paid_server ?_ fun _ => rfl⟩
  · rw [foreseen, ← hcome]
    exact hfore
  · rw [foreseen, ← hcome]
    exact hfore

/-- A step of `invoke`. -/
theorem Inv.run (hs : Inv w split n programs s) (h : s.step w split (.run i) = some s') :
    Advance w split n programs s (.run i) s' := by
  obtain ⟨server, hstep, rfl⟩ := Option.map_eq_some_iff.mp h
  obtain ⟨hkeep, hlog⟩ : (∀ j, (server.conn j).job = (s.server.conn j).job ∧
      (server.conn j).sent = (s.server.conn j).sent) ∧ s.server.log <+: server.log := by
    simp only [DispatchState.step] at hstep
    split at hstep
    · obtain ⟨s₁, heffect, hstep⟩ := Option.bind_eq_some_iff.mp hstep
      obtain ⟨sys, -, rfl⟩ := Option.map_eq_some_iff.mp hstep
      obtain ⟨hconn, hlog⟩ := DispatchState.conn_effect heffect
      exact ⟨fun j => (hconn j).2, hlog⟩
    · cases hstep
  obtain ⟨hinv, hpaid⟩ := hs.serverStep (d := .run i) (fun _ h => by cases h) hstep hkeep
  exact ⟨hinv, hlog, hpaid⟩

/-- A wake-up. -/
theorem Inv.wake (hs : Inv w split n programs s) {l : LockId}
    (h : s.step w split (.wake i l) = some s') : Advance w split n programs s (.wake i l) s' := by
  obtain ⟨server, hstep, rfl⟩ := Option.map_eq_some_iff.mp h
  obtain ⟨sys, -, rfl⟩ := Option.map_eq_some_iff.mp hstep
  obtain ⟨hinv, hpaid⟩ := hs.serverStep (d := .wake i l) (fun _ h => by cases h) hstep fun _ => ⟨rfl, rfl⟩
  exact ⟨hinv, List.prefix_rfl, hpaid⟩

/-- A reply is sent. -/
theorem Inv.send (hs : Inv w split n programs s) (h : s.step w split (.send i) = some s') :
    Advance w split n programs s (.send i) s' := by
  simp only [step] at h
  split at h
  · cases h
  · rename_i reply hreply
    split at h
    · rename_i code out hrun
      split at h
      · cases h
      · rename_i hcode
        obtain ⟨server, hstep, rfl⟩ := Option.map_eq_some_iff.mp h
        have hframe := packAndWrite_frame w.roundTrips
          (w.round_smooth i (s.server.conn i).sent.length).writes hrun hcode
        have hjob : (s.server.conn i).job ≠ none := fun hnone => by
          rw [hs.job_of_reply hnone] at hreply
          cases hreply
        have hfore := DispatchState.step_withInbox split s.server (toCome w programs s.server)
          (e := .send i) (fun _ h => by cases h)
        rw [hstep, Option.map_some] at hfore
        obtain ⟨hconn, hlog⟩ : server.conn = Function.update s.server.conn i
            ⟨(s.server.conn i).inbox, none, none, none, (s.server.conn i).sent ++ [reply]⟩ ∧
            server.log = s.server.log := by
          simp only [DispatchState.step, hreply] at hstep
          split at hstep
          · obtain ⟨sys, -, rfl⟩ := Option.map_eq_some_iff.mp hstep
            rename_i hr _
            obtain rfl := Option.some.inj hr
            exact ⟨rfl, rfl⟩
          · cases hstep
        have hself : server.conn i =
            ⟨(s.server.conn i).inbox, none, none, none, (s.server.conn i).sent ++ [reply]⟩ := by
          rw [hconn, Function.update_self]
        have hother : ∀ j, j ≠ i → server.conn j = s.server.conn j := by
          intro j hj
          rw [hconn, Function.update_of_ne hj]
        have hcome : toCome w programs server = toCome w programs s.server := by
          funext j
          refine toCome_congr ?_
          by_cases hj : j = i
          · subst hj
            obtain ⟨q, hq⟩ := Option.ne_none_iff_exists'.mp hjob
            rw [received, received, hself, hq]
            simp
          · rw [hother j hj]
        rw [← hcome] at hfore
        have hfore' : (foreseen w programs s.server).step split (.send i) =
            some (foreseen w programs server) := by
          rw [foreseen, ← hcome]
          exact hfore
        refine ⟨hs.update (hs.server.next (a := .send i) hfore') ⟨?_, (hs.clients i).program, ?_⟩
          fun j hj => ?_, hlog ▸ List.prefix_rfl, hs.paid_server (d := .send i) hfore' fun j => ?_⟩
        · cases (hs.clients i).stage with
          | idle _ _ _ hnone | asked _ _ _ hnone | replied _ _ _ hnone => exact absurd hnone hjob
          | served hwait hout hin _ hsent =>
            rw [hself]
            refine .replied hwait hout ?_ rfl rfl hsent
            rw [hin, List.nil_append]
            exact hframe
        · rw [hself, List.take_append_of_le_length (hs.length_log i).2.2]
          exact (hs.clients i).told
        · rw [hother j hj]
          exact ⟨rfl, rfl⟩
        · exact stepsLeft_setClient (s := s) (c := { s.client i with toClient := (s.client i).toClient ++ out }) rfl rfl j
    · cases h

/-- A call comes back. -/
theorem Inv.answer (hs : Inv w split n programs s) (hn : 1 ≤ n)
    (hops : ∀ i, ∀ op ∈ programs i, op.Sendable n) (h : s.step w split (.answer i) = some s') :
    Advance w split n programs s (.answer i) s' := by
  simp only [step] at h
  have hsmooth := w.exchange_smooth i (s.client i).done.length
  obtain ⟨junk, hblocks⟩ := hsmooth.blocks
  split at h
  · cases h
  · rename_i op hwait
    -- without a reply on its way nobody comes back from `read_all`
    have hsilent : (s.client i).toClient ≠ [] := by
      intro hin
      rw [hin, Exchange.receive, hblocks, readAndUnpack_silent hsmooth.reads junk] at h
      cases h
    cases (hs.clients i).stage with
    | idle _ _ hin | asked _ _ hin | served _ _ hin => exact absurd hin hsilent
    | @replied op' replies reply hwait' hout hin hjob hsent hlen =>
      obtain rfl := Option.some.inj (hwait.symm.trans hwait')
      obtain ⟨a, hgives⟩ := hs.gives hn hops hwait
        (by rw [hs.job_of_reply hjob, Option.toList_none, List.append_nil, hsent]) hlen
      obtain ⟨resp, hresp, hresult⟩ := receive_reply w.roundTrips hsmooth hin hgives
      rw [hresp] at h
      simp only [hresult] at h
      obtain rfl := Option.some.inj h
      have hpaid : stepsLeft ⟨(s.client i).todo, none, (s.client i).done ++ [(op, a)],
          (s.client i).toServer, []⟩ < stepsLeft (s.client i) := by
        simp only [stepsLeft, hwait, Option.toList_none, Option.toList_some, List.length_nil,
          List.length_singleton]
        omega
      refine ⟨hs.update hs.server ⟨?_, ?_, ?_⟩ fun _ _ => ⟨rfl, rfl⟩, List.prefix_rfl,
        paid_client hpaid⟩
      · refine .idle rfl hout rfl hjob ?_
        rw [hsent, List.length_append, List.length_append, hlen]
        rfl
      · have hprog := (hs.clients i).program
        rw [hwait, Option.toList_some] at hprog
        simpa using hprog
      · have htold := (hs.clients i).told
        rw [hsent, ← hlen, List.take_left] at htold
        have hall : (s.server.conn i).sent.take ((s.client i).done ++ [(op, a)]).length =
            replies ++ [reply] := by
          rw [hsent, List.take_of_length_le]
          rw [List.length_append, List.length_append, hlen]
          rfl
        rw [hall]
        exact List.rel_append (R := fun reply (d : RemoteOp × RemoteAnswer) => Gives reply d.1 d.2) htold
          (.cons hgives .nil)

/-- **Every step is an advance.** -/
theorem Inv.step (hs : Inv w split n programs s) (hn : 1 ≤ n)
    (hops : ∀ i, ∀ op ∈ programs i, op.Sendable n) {e : RemoteEvent Tid}
    (h : s.step w split e = some s') : Advance w split n programs s e s' := by
  cases e with
  | call i => exact hs.call hops h
  | receive i => exact hs.receive h
  | run i => exact hs.run h
  | wake i l => exact hs.wake h
  | send i => exact hs.send h
  | answer i => exact hs.answer hn hops h

end Step

end RemoteState
end RemoteTable
