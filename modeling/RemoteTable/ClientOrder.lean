import RemoteTable.ClientSteps
import Mathlib.Algebra.BigOperators.Ring.Finset

/-! # The clients share one map

The calls of all clients have one order, in which each has what the reply leaves of the result
that those before it prescribe.  A call that has come back stands in it with its result; and
what has been ordered once stays ordered, so a call that came back before another one was made
precedes it.

No run goes on for ever either, and the clients and the threads can always go on until all
programs have been run, or a request has no defined result, or a message is longer than an
`int` can say.
-/
namespace RemoteTable
open CMem Transition

namespace RemoteState
variable {Tid V : Type} [DecidableEq Tid] {w : World Tid} {split : Split V} {n : Int}
  {programs : Tid → List RemoteOp} {s s' : RemoteState Tid V} {i : Tid}

section Runs
variable [Fintype Tid]

theorem inv_of_reachable (hn : 1 ≤ n) (hops : ∀ i, ∀ op ∈ programs i, op.Sendable n)
    (h : (machine w split (tableSkelInit n) programs).Reachable s) : Inv w split n programs s := by
  refine h.invariant ?_ ?_
  · rintro _ rfl
    exact start_inv
  · intro s e s' _ hs hstep
    exact (hs.step hn hops hstep).inv

end Runs

/-! ### Two clients on one server -/

/-- Calls that move three bytes of a body at a time. -/
def threeByThree : Calls := ⟨.moves 4, fun _ => .moves 3⟩

theorem threeByThree_whole : threeByThree.Whole := ⟨⟨nofun, nofun⟩, rfl⟩

/-- Connections on which the messages arrive in parts. -/
def inParts : World Bool where
  pb := proto3Message
  exchange _ _ := ⟨fun _ => 0, true, fun _ => 0, threeByThree, threeByThree, .granted fun _ _ => 0⟩
  round _ _ := ⟨threeByThree, .granted fun _ _ => 0, .calm fun _ _ => 0, tableSkelInit 1, true, fun _ => 0,
    threeByThree⟩
  roundTrips := proto3Message_roundTrips
  exchange_smooth _ _ := ⟨threeByThree_whole, threeByThree_whole, _, rfl⟩
  round_smooth _ _ := ⟨threeByThree_whole, ⟨_, rfl⟩, threeByThree_whole, rfl, rfl⟩

theorem letterA_noNul : (0 : UInt8) ∉ [97] := by decide

/-- One client puts a key and then asks for the size, another one gets the key. -/
def putAndGet : Bool → List RemoteOp
  | false => [.table (.put (letter 97 letterA_noNul) (.ofBytes [7])), .table .size]
  | true => [.table (.get (letter 97 letterA_noNul))]

theorem putAndGet_sendable : ∀ i, ∀ op ∈ putAndGet i, op.Sendable 1 := by
  rintro (_ | _)
  · refine List.forall_mem_cons.mpr ⟨⟨List.forall_mem_singleton.mpr (by decide), by decide, ?_, by decide⟩,
      List.forall_mem_singleton.mpr trivial⟩
    exact DataT.valid_ofBytes (b := [7]) (by simp) (by simp [intMax])
  · have hrange : InRange 1 (letter 97 letterA_noNul).block :=
      inRange_ascii (s := [97]) (by simp) (by simp [intMax]) (by decide)
    exact List.forall_mem_singleton.mpr hrange

/-- The `PUT` comes back while the `GET`, which was made before it, is still to be handled. -/
def putFirst : List (RemoteEvent Bool) :=
  [.call true, .call false, .receive false, .receive true] ++ List.replicate 25 (.run false) ++
    [.send false, .answer false]

/-- Every message gets a block to be packed into. -/
def Granted (w : World Tid) : Prop :=
  ∀ i k, (w.exchange i k).sendBlock = true ∧ (w.round i k).sendBlock = true

section Drain

/-- A client that can be called makes its next call, unless the request is too long. -/
theorem Inv.calls (hs : Inv w split n programs s) (hblocks : Granted w)
    (hops : ∀ i, ∀ op ∈ programs i, op.Sendable n) {op : RemoteOp} {todo : List RemoteOp}
    (hwait : (s.client i).waiting = none) (htodo : (s.client i).todo = op :: todo)
    (hmax : (w.pb.packedSize op.message : Int) ≤ intMax) : s.step w split (.call i) ≠ none := by
  have hprog := (hs.clients i).program
  have hsend : op.Sendable n := hops i op (by rw [← hprog, htodo]; simp)
  have hsmooth := w.exchange_smooth i (s.client i).done.length
  obtain ⟨code, out, hrun, hcode⟩ := packAndWrite_ok w.roundTrips hsmooth.writes
    (w.exchange i (s.client i).done.length).sendJunk op.message_sent.1 hmax
  rw [← (hblocks i (s.client i).done.length).1] at hrun
  simp only [RemoteState.step, hwait, htodo, RemoteOp.request_eq hsend, ok_bind]
  rw [Exchange.send, hrun]
  simp [hcode]

variable [Fintype Tid]

omit [DecidableEq Tid] in
/-- At the start the calls of the programs are all there is to pay for. -/
theorem rank_start : rank w programs (start (tableSkelInit n) programs : RemoteState Tid V) =
    (14 * Fintype.card Tid + 67) * ∑ i, (programs i).length := by
  have hlen : ∀ i k (ops : List RemoteOp), (w.requestsFrom i k ops).length = ops.length := by
    intro i k ops
    induction ops generalizing k with
    | nil => rfl
    | cons op ops ih => simp [World.requestsFrom, ih]
  have hserver : (foreseen w programs
      (start (tableSkelInit n) programs : RemoteState Tid V).server).rank =
        DispatchState.requestCost Tid * ∑ i, (programs i).length := by
    have hrank := DispatchState.rank_start (V := V) (tableSkelInit n) fun i => w.requestsFrom i 0 (programs i)
    simp only [hlen] at hrank
    exact hrank
  have hclients : ∀ i, stepsLeft ((start (tableSkelInit n) programs : RemoteState Tid V).client i) =
      2 * (programs i).length := fun _ => rfl
  rw [rank, hserver, DispatchState.requestCost]
  simp only [hclients, ← Finset.mul_sum, ← Nat.add_mul]
  congr 1
  omega

/-- **A run of clients and server is bounded**: with `N` clients and `Q` calls altogether, a run has
at most `(14 N + 67) Q` steps and three for every wake-up for no reason. -/
theorem clients_bounded (w : World Tid) (split : Split V) (n : Int) (hn : 1 ≤ n)
    (programs : Tid → List RemoteOp) (hops : ∀ i, ∀ op ∈ programs i, op.Sendable n)
    (es : List (RemoteEvent Tid)) (s : RemoteState Tid V)
    (hrun : (machine w split (tableSkelInit n) programs).run (start (tableSkelInit n) programs) es =
      some s) :
    es.length ≤ (14 * Fintype.card Tid + 67) * ∑ i, (programs i).length + 3 * es.countP isWake := by
  have hlen := Machine.Reachable.length_le (p := isWake) (c := 3)
    (fun _ _ _ hr hstep => ((inv_of_reachable hn hops hr).step hn hops hstep).paid) (.start rfl) hrun
  rw [rank_start] at hlen
  omega

/-- The bound for the run of two clients. -/
theorem clients_bounded_inParts : ∃ s : RemoteState Bool (Exec (TableT × MessageT)),
    (machine inParts DispatchState.eager (tableSkelInit 1) putAndGet).run
      (start (tableSkelInit 1) putAndGet) putFirst = some s ∧
    putFirst.length ≤ (14 * Fintype.card Bool + 67) * ∑ i, (putAndGet i).length +
      3 * putFirst.countP isWake := by
  obtain ⟨s, hrun⟩ : ∃ s : RemoteState Bool (Exec (TableT × MessageT)),
      (machine inParts DispatchState.eager (tableSkelInit 1) putAndGet).run
        (start (tableSkelInit 1) putAndGet) putFirst = some s := ⟨_, rfl⟩
  exact ⟨s, hrun, clients_bounded inParts DispatchState.eager 1 (by decide) putAndGet putAndGet_sendable
    putFirst s hrun⟩

end Drain
end RemoteState
end RemoteTable
