import RemoteTable.Framing
import RemoteTable.SkeletonSpec

/-! # How a connection is given up

A `dispatch_thread` that has taken over the socket of a client serves requests until
something fails, and then returns.  Nobody else closes the socket.

`network_receive` closes it when `read_all` fails, and `network_send` when it gets no block
or `write_all` fails.  Two more exits of the loop close nothing: bytes that protobuf-c
rejects, and requests that `invoke` refuses (`TurnsDown`).
-/
namespace RemoteTable
open CMem

/-- What is used of protobuf-c: how bytes become a message, `none` when they are none, and
for a message its size and the bytes that are written for it. -/
structure Protobuf where
  unpack : Block → Option MessageT
  packedSize : MessageT → Nat
  pack : MessageT → Exec Block

/-- What one round of the loop meets: the calls and the blocks of `read_all`, the server as
the other threads have left it and what else `invoke` meets, and the block and the calls of
`network_send`. -/
structure Round where
  reads : Calls
  blocks : Blocks
  env : Env
  srv : Server
  sendBlock : Bool
  sendJunk : Nat → UInt8
  writes : Calls

/-- The socket of the client: what is left to read, and how often it has been closed. -/
structure ClientSocket where
  incoming : Incoming
  closes : Nat
  deriving DecidableEq

/-- `close(client_socket)`. -/
def ClientSocket.close (sock : ClientSocket) : ClientSocket := { sock with closes := sock.closes + 1 }

section Thread
variable (pb : Protobuf) (r : Round)

/-- `network_receive`: the message, `none` for `NULL`. -/
def networkReceive (sock : ClientSocket) : Exec (Option MessageT × ClientSocket) := do
  let (len, buf, incoming) ← readAll r.reads r.blocks sock.incoming
  let sock := { sock with incoming := incoming }
  if len = -1 then return (none, sock.close)
  else
    let body ← slice (buf.getD []) 0 len
    return (pb.unpack body, sock)

/-- `network_send`. -/
def networkSend (sock : ClientSocket) (msg : MessageT) : Exec (Int × ClientSocket) :=
  let len := toInt32 (pb.packedSize msg)
  match if r.sendBlock then malloc r.sendJunk len else none with
  | none => .ok (-1, sock.close)
  | some buf => do
    let body ← pb.pack msg
    let buf ← store buf 0 body
    let (code, _) ← writeAll r.writes buf len
    if code = -1 then return (-1, sock.close)
    else return (0, sock)

/-- The loop of `dispatch_thread` for as many rounds: the socket when it returns, `none` if
it is still running. -/
def dispatchThread : List Round → ClientSocket → Exec (Option ClientSocket)
  | [], _ => .ok none
  | r :: rounds, sock => do
    let (msg, sock) ← networkReceive pb r sock
    match msg with
    | none => return some sock
    | some msg =>
      let (code, _, reply) ← invoke r.env r.srv msg
      if code < 0 then return some sock
      else
        let (code, sock) ← networkSend pb r sock reply
        if code < 0 then return some sock
        else dispatchThread rounds sock

end Thread

/-- **The connection is released**: when the thread returns, the socket it has taken over
has been closed, and only once. -/
def Released (pb : Protobuf) (rounds : List Round) (incoming : Incoming) : Prop :=
  ∀ sock, dispatchThread pb rounds ⟨incoming, 0⟩ = .ok (some sock) → sock.closes = 1

/-! ## The exits that close nothing -/

/-- A request that `invoke` refuses: no branch handles its opcode, or the write lock of the
statistics fails when it is to be counted. -/
def Refused (env : Env) (srv : Server) (msg : MessageT) : Prop :=
  ¬ Handled msg.opcode ∨
    (Defined (dispatch env srv msg) ∧ (opSize ≤ msg.opcode ∧ msg.opcode ≤ opPrint) ∧
      (env.writeLock ≠ 0 ∨ env.writeUnlock ≠ 0))

/-- `read_all` receives a body. -/
def Arrives (r : Round) (s : Incoming) (body : Block) (s' : Incoming) : Prop :=
  ∃ len buf, readAll r.reads r.blocks s = .ok (len, buf, s') ∧ len ≠ -1 ∧
    slice (buf.getD []) 0 len = .ok body

/-- A round goes through: a message arrives, `invoke` handles it, and the reply is sent. -/
def Completed (pb : Protobuf) (r : Round) (s s' : Incoming) : Prop :=
  ∃ body msg srv' reply, Arrives r s body s' ∧ pb.unpack body = some msg ∧
    invoke r.env r.srv msg = .ok (0, srv', reply) ∧
    networkSend pb r ⟨s', 0⟩ reply = .ok (0, ⟨s', 0⟩)

/-- **The thread turns a message down**: after rounds that go through, a body arrives that
protobuf-c rejects, or a request that `invoke` refuses. -/
inductive TurnsDown (pb : Protobuf) : List Round → Incoming → Prop
  | rejected {r : Round} {rounds : List Round} {s s' : Incoming} {body : Block} :
      Arrives r s body s' → pb.unpack body = none → TurnsDown pb (r :: rounds) s
  | refused {r : Round} {rounds : List Round} {s s' : Incoming} {body : Block} {msg : MessageT} :
      Arrives r s body s' → pb.unpack body = some msg → Refused r.env r.srv msg →
      TurnsDown pb (r :: rounds) s
  | later {r : Round} {rounds : List Round} {s s' : Incoming} :
      Completed pb r s s' → TurnsDown pb rounds s' → TurnsDown pb (r :: rounds) s

section Round
variable {pb : Protobuf} {r : Round} {sock sock' : ClientSocket} {s s' : Incoming} {body : Block}

/-- What `network_receive` does: it closes the socket and has nothing, or it has what
protobuf-c makes of a body and leaves the socket open. -/
theorem networkReceive_cases {m : Option MessageT} (h : networkReceive pb r sock = .ok (m, sock')) :
    (m = none ∧ sock'.closes = sock.closes + 1) ∨
      ∃ body, Arrives r sock.incoming body sock'.incoming ∧ m = pb.unpack body ∧
        sock'.closes = sock.closes := by
  obtain ⟨⟨len, buf, incoming⟩, hread, h⟩ := bind_eq_ok.mp h
  by_cases hlen : len = -1
  · simp only [if_pos hlen] at h
    obtain ⟨rfl, rfl⟩ := Prod.mk.inj (Except.ok.inj h)
    exact Or.inl ⟨rfl, rfl⟩
  · simp only [if_neg hlen] at h
    obtain ⟨body, hbody, h⟩ := bind_eq_ok.mp h
    obtain ⟨rfl, rfl⟩ := Prod.mk.inj (Except.ok.inj h)
    exact Or.inr ⟨body, ⟨len, buf, hread, hlen, hbody⟩, rfl, rfl⟩

theorem Arrives.receive (h : Arrives r s body s') (n : Nat) :
    networkReceive pb r ⟨s, n⟩ = .ok (pb.unpack body, ⟨s', n⟩) := by
  obtain ⟨len, buf, hread, hlen, hbody⟩ := h
  rw [networkReceive, hread, ok_bind]
  simp only [if_neg hlen, hbody, ok_bind, pure_eq_ok]

/-- What `network_send` does: it fails and closes the socket, or it succeeds and does not. -/
theorem networkSend_cases {msg : MessageT} {code : Int}
    (h : networkSend pb r sock msg = .ok (code, sock')) :
    (code = -1 ∧ sock' = sock.close) ∨ (code = 0 ∧ sock' = sock) := by
  simp only [networkSend] at h
  split at h
  · obtain ⟨rfl, rfl⟩ := Prod.mk.inj (Except.ok.inj h)
    exact Or.inl ⟨rfl, rfl⟩
  · obtain ⟨_, -, h⟩ := bind_eq_ok.mp h
    obtain ⟨_, -, h⟩ := bind_eq_ok.mp h
    obtain ⟨⟨code', _⟩, -, h⟩ := bind_eq_ok.mp h
    by_cases hcode : code' = -1
    · simp only [if_pos hcode] at h
      obtain ⟨rfl, rfl⟩ := Prod.mk.inj (Except.ok.inj h)
      exact Or.inl ⟨rfl, rfl⟩
    · simp only [if_neg hcode] at h
      obtain ⟨rfl, rfl⟩ := Prod.mk.inj (Except.ok.inj h)
      exact Or.inr ⟨rfl, rfl⟩

end Round

section Invoke
variable {env : Env} {srv srv' : Server} {msg reply : MessageT}

/-- **The code `invoke` returns**: 0, or -1 for a request that it refuses. -/
theorem invoke_code {code : Int} (h : invoke env srv msg = .ok (code, srv', reply)) :
    code = 0 ∨ (code = -1 ∧ Refused env srv msg) := by
  obtain ⟨found, hdisp, h⟩ := bind_eq_ok.mp h
  cases found with
  | none =>
    obtain ⟨rfl, -⟩ := Prod.mk.inj (Except.ok.inj h)
    refine Or.inr ⟨rfl, Or.inl fun hop => ?_⟩
    obtain ⟨_, _, hsome, -⟩ := dispatch_branch hop hdisp
    cases hsome
  | some found =>
    obtain ⟨srv₁, reply₁⟩ := found
    obtain ⟨⟨code₁, stats⟩, htail, h⟩ := bind_eq_ok.mp h
    obtain ⟨rfl, -⟩ := Prod.mk.inj (Except.ok.inj h)
    have hcode := statsTail_code_eq htail
    split at hcode
    · rename_i hfail
      exact Or.inr ⟨hcode, Or.inr ⟨⟨_, hdisp⟩, hfail⟩⟩
    · exact Or.inl hcode

theorem Refused.returns (h : Refused env srv msg) :
    ∃ srv' reply, invoke env srv msg = .ok (-1, srv', reply) := by
  by_cases hop : Handled msg.opcode
  · rcases h with h | ⟨⟨found, hdisp⟩, hfail⟩
    · exact absurd hop h
    · obtain ⟨srv₁, reply, rfl, -⟩ := dispatch_branch hop hdisp
      obtain ⟨⟨code, stats⟩, htail⟩ := statsTail_defined env msg.opcode srv₁.stats
      obtain rfl : code = -1 := (statsTail_code_eq htail).trans (if_pos hfail)
      refine ⟨{ srv₁ with stats := stats }, reply, ?_⟩
      rw [invoke, hdisp, ok_bind]
      simp only [htail, ok_bind, pure_eq_ok]
  · exact ⟨srv, msg, invoke_of_refused (dispatch_refused hop)⟩

end Invoke

/-! ## The thread -/

section Run
variable {pb : Protobuf} {rounds : List Round} {s : Incoming}

/-- A thread that turns a message down returns, and leaves the socket open. -/
theorem TurnsDown.leaves_open (h : TurnsDown pb rounds s) :
    ∃ sock, dispatchThread pb rounds ⟨s, 0⟩ = .ok (some sock) ∧ sock.closes = 0 := by
  induction h with
  | @rejected r rounds s s' body harr hnone =>
    refine ⟨⟨s', 0⟩, ?_, rfl⟩
    rw [dispatchThread, harr.receive, ok_bind, hnone]
    rfl
  | @refused r rounds s s' body msg harr hsome href =>
    obtain ⟨srv', reply, hinv⟩ := href.returns
    refine ⟨⟨s', 0⟩, ?_, rfl⟩
    rw [dispatchThread, harr.receive, ok_bind, hsome]
    simp only [hinv, ok_bind]
    rfl
  | later hdone _ ih =>
    obtain ⟨body, msg, srv', reply, harr, hsome, hinv, hsend⟩ := hdone
    obtain ⟨sock, hrun, hclosed⟩ := ih
    refine ⟨sock, ?_, hclosed⟩
    rw [dispatchThread, harr.receive, ok_bind, hsome]
    simp only [hinv, ok_bind, hsend]
    exact hrun

/-- One that does not closes the socket before it returns. -/
theorem closes_of_not_turnsDown (h : ¬ TurnsDown pb rounds s) {sock : ClientSocket}
    (hrun : dispatchThread pb rounds ⟨s, 0⟩ = .ok (some sock)) : sock.closes = 1 := by
  induction rounds generalizing s with
  | nil => cases hrun
  | cons r rounds ih =>
    obtain ⟨⟨m, sock₁⟩, hrecv, hrun⟩ := bind_eq_ok.mp hrun
    rcases networkReceive_cases hrecv with ⟨rfl, hclosed⟩ | ⟨body, harr, rfl, hopen⟩
    · obtain rfl := Option.some.inj (Except.ok.inj hrun)
      exact hclosed
    · -- the socket is still open, so the thread goes on with the message
      obtain ⟨s', n⟩ := sock₁
      obtain rfl : n = 0 := hopen
      cases hsome : pb.unpack body with
      | none => exact absurd (.rejected harr hsome) h
      | some msg =>
        rw [hsome] at hrun
        obtain ⟨⟨code, srv', reply⟩, hinv, hrun⟩ := bind_eq_ok.mp hrun
        rcases invoke_code hinv with rfl | ⟨-, href⟩
        · obtain ⟨⟨code, sock₂⟩, hsend, hrun⟩ := bind_eq_ok.mp hrun
          rcases networkSend_cases hsend with ⟨rfl, rfl⟩ | ⟨rfl, rfl⟩
          · obtain rfl := Option.some.inj (Except.ok.inj hrun)
            rfl
          · refine ih (fun hlater => h (.later ?_ hlater)) hrun
            exact ⟨body, msg, srv', reply, harr, hsome, hinv, hsend⟩
        · exact absurd (.refused harr hsome href) h

end Run

/-- **A connection is released exactly when its thread turns no message down**: for every
sequence of rounds, whatever they meet, and every stream. -/
theorem connection_released_iff (pb : Protobuf) (rounds : List Round) (incoming : Incoming) :
    Released pb rounds incoming ↔ ¬ TurnsDown pb rounds incoming := by
  constructor
  · intro h hdown
    obtain ⟨sock, hrun, hopen⟩ := hdown.leaves_open
    rw [h sock hrun] at hopen
    cases hopen
  · intro h sock hrun
    exact closes_of_not_turnsDown h hrun

/-- protobuf-c on the bytes of a request with the opcode `OP_ERROR`. -/
def errorProtobuf : Protobuf where
  unpack body := if body = [8, 99] then some ⟨opError, 0, ⟨0, none⟩⟩ else none
  packedSize _ := 2
  pack _ := .ok [8, 99]

/-- A round in which every call succeeds. -/
def calmRound : Round where
  reads := ⟨.moves 4, fun _ => .moves 2⟩
  blocks := .granted fun _ _ => 0
  env := .calm fun _ _ => 0
  srv := tableSkelInit 1
  sendBlock := true
  sendJunk _ := 0
  writes := ⟨.moves 4, fun _ => .moves 2⟩

/-- **A request that `invoke` refuses leaves the socket open.** -/
theorem refusedRequest_not_released :
    dispatchThread errorProtobuf [calmRound] ⟨⟨[0, 0, 0, 2, 8, 99], .silent⟩, 0⟩ =
        .ok (some ⟨⟨[], .silent⟩, 0⟩) ∧
      ¬ Released errorProtobuf [calmRound] ⟨[0, 0, 0, 2, 8, 99], .silent⟩ := by
  have hrun : dispatchThread errorProtobuf [calmRound] ⟨⟨[0, 0, 0, 2, 8, 99], .silent⟩, 0⟩ =
      .ok (some ⟨⟨[], .silent⟩, 0⟩) := by rfl
  refine ⟨hrun, fun hreleased => ?_⟩
  exact absurd (hreleased _ hrun) (by decide)

end RemoteTable
