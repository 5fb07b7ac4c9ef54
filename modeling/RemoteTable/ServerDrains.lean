import RemoteTable.SerialOrder

/-! # The server comes to an end

A thread that waits in a lock is woken by every broadcast, tests its condition and may have
to wait again.  This cannot go on: each broadcast belongs to an unlock, and the unlocks
that are left to the threads pay for the steps their broadcasts cause.  `rank` adds up what
the threads still have to pay.  Every step lowers it, whoever takes it, so without fairness
of any kind the server is done after a number of steps that is linear in the number of
requests; only a wake-up for no reason costs steps that no request has paid for.
-/
namespace RemoteTable
open CMem Transition Tally

/-! ## What is left of a call -/

namespace Point

/-- What the rest of a call of `…_lock` costs at most, when no wake-up comes in between. -/
def lockCost : Point → Nat
  | outside => 8
  | entering _ => 7
  | woken _ => 6
  | testing _ => 5
  | waiting _ | counting _ => 4
  | releasing _ => 3
  | inside _ => 2
  | leaving _ | discounting _ | exiting _ => 0

/-- What the rest of a call of `…_unlock` costs at most; `w` pays for the broadcast. -/
def unlockCost (w : Nat) : Point → Nat
  | inside _ => w + 8
  | leaving _ => w + 7
  | discounting _ => w + 6
  | exiting _ => 5
  | outside => 4
  | entering _ | testing _ | waiting _ | woken _ | counting _ | releasing _ => 0

/-- A notification adds two steps to a call of `…_lock` at most. -/
theorem lockCost_notified (p : Point) : p.notified.lockCost ≤ p.lockCost + 2 := by
  cases p <;> simp [notified, lockCost]

theorem unlockCost_notified (w : Nat) (p : Point) : p.notified.unlockCost w = p.unlockCost w := by
  cases p <;> rfl

theorem lockCost_le (p : Point) : p.lockCost ≤ 8 := by
  cases p <;> simp [lockCost]

theorem unlockCost_le (w : Nat) (p : Point) : p.unlockCost w ≤ w + 8 := by
  cases p <;> simp only [unlockCost] <;> omega

end Point

namespace RwMutex
variable {Tid : Type} [DecidableEq Tid] {s s' : RwMutex Tid} {i : Tid} {m : Mode}

/-- **A step of a call of `…_lock` costs one**, and moves no other thread. -/
theorem lockCost_advance (hp : (s.point i).locking m = true) (h : s.advance i = some s') :
    (s'.point i).lockCost < (s.point i).lockCost ∧ ∀ j, j ≠ i → s'.point j = s.point j := by
  unfold advance at h
  cases hat : s.point i with
  | outside | waiting _ | inside _ => simp [hat] at h
  | leaving _ | discounting _ | exiting _ => simp [hat, Point.locking] at hp
  | entering m' | woken m' =>
    rw [hat] at h
    obtain ⟨-, h⟩ := Option.ite_none_right_eq_some.mp h
    obtain rfl := Option.some.inj h
    exact ⟨by simp [Point.lockCost], fun j hj => Function.update_of_ne hj _ _⟩
  | testing m' =>
    rw [hat] at h
    obtain rfl := Option.some.inj h
    split
    · exact ⟨by simp [Point.lockCost], fun j hj => Function.update_of_ne hj _ _⟩
    · exact ⟨by simp [Point.lockCost], fun j hj => Function.update_of_ne hj _ _⟩
  | counting m' =>
    rw [hat] at h
    obtain rfl := Option.some.inj h
    exact ⟨by simp [Point.lockCost], fun j hj => by simp [hj]⟩
  | releasing m' =>
    rw [hat] at h
    obtain rfl := Option.some.inj h
    exact ⟨by simp [Point.lockCost], fun j hj => Function.update_of_ne hj _ _⟩

/-- **A step of a call of `…_unlock` costs one** and moves no other thread, or it is the
broadcast, which has been paid for. -/
theorem unlockCost_advance {w : Nat} (hp : (s.point i).unlocking m = true)
    (h : s.advance i = some s') :
    ((s'.point i).unlockCost w < (s.point i).unlockCost w ∧ ∀ j, j ≠ i → s'.point j = s.point j) ∨
      ((s'.point i).unlockCost w + w < (s.point i).unlockCost w ∧
        ∀ j, j ≠ i → s'.point j = (s.point j).notified) := by
  unfold advance at h
  cases hat : s.point i with
  | outside | inside _ => simp [hat] at h
  | entering _ | testing _ | waiting _ | woken _ | counting _ | releasing _ =>
    simp [hat, Point.unlocking] at hp
  | leaving m' =>
    rw [hat] at h
    obtain ⟨-, h⟩ := Option.ite_none_right_eq_some.mp h
    obtain rfl := Option.some.inj h
    exact Or.inl ⟨by simp [Point.unlockCost], fun j hj => Function.update_of_ne hj _ _⟩
  | discounting m' =>
    rw [hat] at h
    obtain rfl := Option.some.inj h
    refine Or.inr ⟨?_, fun j hj => by simp [hj]⟩
    simp only [goto_point, Function.update_self, Point.unlockCost]
    omega
  | exiting m' =>
    rw [hat] at h
    obtain rfl := Option.some.inj h
    exact Or.inl ⟨by simp [Point.unlockCost], fun j hj => Function.update_of_ne hj _ _⟩

end RwMutex

/-- What the rest of an instruction costs a thread at these points of the locks. -/
def Instr.cost (w : Nat) (point : LockId → Point) : Instr → Nat
  | .work _ => 1
  | .acquire l _ => (point l).lockCost
  | .release l _ => (point l).unlockCost w

/-- What the rest of a call of `invoke` costs. -/
def pathCost (w : Nat) (point : LockId → Point) : Option (List Instr) → Nat
  | none => 0
  | some [] => 1
  | some (instr :: rest) => instr.cost w point + (w + 9) * rest.length + 1

section Cost
variable {w : Nat} {point point' : LockId → Point}

theorem Instr.cost_le (instr : Instr) : instr.cost w point ≤ w + 8 := by
  cases instr with
  | work _ => exact Nat.le_add_left 1 (w + 7)
  | acquire l m => exact Nat.le_trans (point l).lockCost_le (Nat.le_add_left 8 w)
  | release l m => exact (point l).unlockCost_le w

theorem pathCost_le (path : List Instr) : pathCost w point (some path) ≤ (w + 9) * path.length + 1 := by
  cases path with
  | nil => exact Nat.le_add_left 1 _
  | cons instr rest =>
    have hcost : instr.cost w point ≤ w + 8 := instr.cost_le
    rw [pathCost, List.length_cons, Nat.mul_succ]
    omega

/-- Being notified in a lock, or in none, costs two steps at most. -/
theorem pathCost_notified (h : ∀ l, point' l = point l ∨ point' l = (point l).notified)
    (todo : Option (List Instr)) : pathCost w point' todo ≤ pathCost w point todo + 2 := by
  have hinstr : ∀ instr : Instr, instr.cost w point' ≤ instr.cost w point + 2 := by
    intro instr
    cases instr with
    | work _ => exact Nat.le_add_right _ _
    | acquire l m =>
      rw [Instr.cost, Instr.cost]
      rcases h l with h | h <;> rw [h]
      · exact Nat.le_add_right _ _
      · exact (point l).lockCost_notified
    | release l m =>
      rw [Instr.cost, Instr.cost]
      rcases h l with h | h <;> rw [h]
      · exact Nat.le_add_right _ _
      · rw [Point.unlockCost_notified]
        exact Nat.le_add_right _ _
  match todo with
  | none => exact Nat.le_add_right _ _
  | some [] => exact Nat.le_add_right _ _
  | some (instr :: rest) =>
    have := hinstr instr
    rw [pathCost, pathCost]
    omega

/-- The end of an instruction pays for the start of the next one. -/
theorem pathCost_next {instr : Instr} {rest : List Instr} (hpos : 0 < instr.cost w point) :
    pathCost w point (some rest) < pathCost w point (some (instr :: rest)) := by
  have hrest : pathCost w point (some rest) ≤ (w + 9) * rest.length + 1 := pathCost_le rest
  rw [pathCost]
  omega

end Cost

/-! ## One step -/

namespace InvokeState
variable {Tid : Type} {s s' : InvokeState Tid} {i j : Tid}

/-- What thread `i` still has to pay. -/
def threadCost [Fintype Tid] (s : InvokeState Tid) (i : Tid) : Nat :=
  pathCost (Fintype.card Tid * 2) (fun l => (s.lock l).point i) (s.todo i)

/-- What all of them have to pay. -/
def rank [Fintype Tid] (s : InvokeState Tid) : Nat := ∑ i, s.threadCost i

variable [Fintype Tid] [DecidableEq Tid]

/-- A thread goes on along its path; the locks and the other threads stay as they are. -/
theorem rank_goOn {t : Option (List Instr)}
    (h : pathCost (Fintype.card Tid * 2) (fun l => (s.lock l).point i) t < s.threadCost i) :
    (s.goOn i t).rank < s.rank := by
  refine sum_lt_sum_of_move (i := i) (c := 0) ?_ fun j hj => ?_
  · simpa [threadCost] using h
  · simp [threadCost, Function.update_of_ne hj]

/-- A thread takes a step in a lock and moves no other thread. -/
theorem rank_setLock {l : LockId} {r : RwMutex Tid} {instr : Instr} {rest : List Instr}
    (htodo : s.todo i = some (instr :: rest))
    (hcost : instr.cost (Fintype.card Tid * 2) (fun l' => ((s.setLock l r).lock l').point i) <
      instr.cost (Fintype.card Tid * 2) fun l' => (s.lock l').point i)
    (hother : ∀ j, j ≠ i → r.point j = (s.lock l).point j) : (s.setLock l r).rank < s.rank := by
  refine sum_lt_sum_of_move (i := i) (c := 0) ?_ fun j hj => ?_
  · rw [threadCost, threadCost, setLock_todo, htodo, pathCost, pathCost]
    omega
  · refine Nat.le_of_eq ?_
    rw [threadCost, threadCost, setLock_todo]
    congr 1
    funext l'
    by_cases hl : l' = l
    · subst hl
      rw [setLock_lock, Function.update_self, hother j hj]
    · rw [setLock_lock, Function.update_of_ne hl]

/-- A thread broadcasts; it has paid for what the others have to do once more. -/
theorem rank_broadcast {l : LockId} {r : RwMutex Tid} {instr : Instr} {rest : List Instr}
    (htodo : s.todo i = some (instr :: rest))
    (hcost : instr.cost (Fintype.card Tid * 2) (fun l' => ((s.setLock l r).lock l').point i) +
        Fintype.card Tid * 2 <
      instr.cost (Fintype.card Tid * 2) fun l' => (s.lock l').point i)
    (hother : ∀ j, j ≠ i → r.point j = ((s.lock l).point j).notified) :
    (s.setLock l r).rank < s.rank := by
  refine sum_lt_sum_of_move (i := i) (c := 2) ?_ fun j hj => ?_
  · rw [threadCost, threadCost, setLock_todo, htodo, pathCost, pathCost]
    omega
  · rw [threadCost, threadCost, setLock_todo]
    refine pathCost_notified (fun l' => ?_) (s.todo j)
    by_cases hl : l' = l
    · subst hl
      exact Or.inr (by rw [setLock_lock, Function.update_self, hother j hj])
    · exact Or.inl (by rw [setLock_lock, Function.update_of_ne hl])

/-- **A step of an instruction lowers the rank.** -/
theorem Orderly.rank_runInstr {instr : Instr} {rest : List Instr} (hs : s.Orderly i)
    (htodo : s.todo i = some (instr :: rest)) (hrun : s.runInstr i rest instr = some s') :
    s'.rank < s.rank := by
  obtain ⟨h, hb, hpoints⟩ := (orderly_some htodo).mp hs
  -- the instruction is done
  have hnext : 0 < instr.cost (Fintype.card Tid * 2) (fun l => (s.lock l).point i) →
      some (s.goOn i (some rest)) = some s' → s'.rank < s.rank := by
    intro hpos hgo
    obtain rfl := Option.some.inj hgo
    refine rank_goOn ?_
    rw [threadCost, htodo]
    exact pathCost_next hpos
  cases instr with
  | work w => exact hnext Nat.one_pos hrun
  | acquire l m =>
    have hat : ((s.lock l).point i).locking m = true := by simpa [Point.Allowed] using hpoints l
    simp only [InvokeState.runInstr] at hrun
    split at hrun
    · rename_i hout
      obtain ⟨r, hr, rfl⟩ := Option.map_eq_some_iff.mp hrun
      obtain ⟨-, hr⟩ := Option.ite_none_right_eq_some.mp hr
      obtain rfl := Option.some.inj hr
      refine rank_setLock htodo ?_ fun j hj => Function.update_of_ne hj _ _
      simp [Instr.cost, hout, Point.lockCost]
    · rename_i m' hin
      exact hnext (by simp [Instr.cost, hin, Point.lockCost]) hrun
    · obtain ⟨r, hr, rfl⟩ := Option.map_eq_some_iff.mp hrun
      obtain ⟨hcost, hother⟩ := RwMutex.lockCost_advance hat hr
      exact rank_setLock htodo (by simpa [Instr.cost] using hcost) hother
  | release l m =>
    have hat : ((s.lock l).point i).unlocking m = true := by simpa [Point.Allowed] using hpoints l
    simp only [InvokeState.runInstr] at hrun
    split at hrun
    · rename_i m' hin
      obtain ⟨r, hr, rfl⟩ := Option.map_eq_some_iff.mp hrun
      obtain ⟨-, hr⟩ := Option.ite_none_right_eq_some.mp hr
      obtain rfl := Option.some.inj hr
      refine rank_setLock htodo ?_ fun j hj => Function.update_of_ne hj _ _
      simp [Instr.cost, hin, Point.unlockCost]
    · rename_i hout
      exact hnext (by simp [Instr.cost, hout, Point.unlockCost]) hrun
    · obtain ⟨r, hr, rfl⟩ := Option.map_eq_some_iff.mp hrun
      rcases RwMutex.unlockCost_advance hat hr with ⟨hcost, hother⟩ | ⟨hcost, hother⟩
      · exact rank_setLock htodo (by simpa [Instr.cost] using hcost) hother
      · exact rank_broadcast htodo (by simpa [Instr.cost] using hcost) hother

/-- **Every step that a thread takes in `invoke` lowers the rank.** -/
theorem rank_run (hs : s.Orderly i) (h : s.step (.run i) = some s') : s'.rank < s.rank := by
  simp only [step] at h
  split at h
  · cases h
  · rename_i htodo
    obtain rfl := Option.some.inj h
    refine rank_goOn ?_
    rw [threadCost, htodo]
    exact Nat.one_pos
  · rename_i htodo
    exact hs.rank_runInstr htodo h

/-- A call of `invoke` adds what its path costs. -/
theorem rank_start {opCode : Int} {block : Bool} (h : s.step (.start i opCode block) = some s') :
    s'.rank ≤ s.rank + ((Fintype.card Tid * 2 + 9) * (invokePath opCode block).length + 1) := by
  obtain ⟨-, htodo⟩ := todo_of_start h
  have hlock : s'.lock = s.lock := by
    simp only [step] at h
    split at h
    · obtain rfl := Option.some.inj h
      rfl
    · cases h
  refine sum_le_sum_of_move (i := i) ?_ fun j hj => ?_
  · rw [threadCost, htodo, Function.update_self]
    exact Nat.le_trans (pathCost_le _) (Nat.le_add_left _ _)
  · rw [threadCost, threadCost, htodo, hlock, Function.update_of_ne hj]

/-- A wake-up for no reason adds two steps. -/
theorem rank_wake {l : LockId} (h : s.step (.wake i l) = some s') : s'.rank ≤ s.rank + 2 := by
  obtain ⟨r, hr, rfl⟩ := Option.map_eq_some_iff.mp h
  simp only [RwMutex.step] at hr
  split at hr
  · rename_i m hat
    obtain rfl := Option.some.inj hr
    refine sum_le_sum_of_move (i := i) ?_ fun j hj => ?_
    · rw [threadCost, threadCost, setLock_todo]
      refine pathCost_notified (fun l' => ?_) (s.todo i)
      by_cases hl : l' = l
      · subst hl
        exact Or.inr (by simp [hat, Point.notified])
      · exact Or.inl (by rw [setLock_lock, Function.update_of_ne hl])
    · refine Nat.le_of_eq ?_
      rw [threadCost, threadCost, setLock_todo]
      congr 1
      funext l'
      by_cases hl : l' = l
      · subst hl
        simp [hj]
      · rw [setLock_lock, Function.update_of_ne hl]
  · cases hr

end InvokeState

/-! ## Whole runs -/

namespace DispatchState
variable {Tid V : Type} [DecidableEq Tid] {split : Split V} {srv : Server}
  {requests : Tid → List Request} {s s' : DispatchState Tid V}

/-- What a request costs from its receipt on: seven instructions, and its return. -/
def requestCost (Tid : Type) [Fintype Tid] : Nat := (Fintype.card Tid * 2 + 9) * 7 + 2

/-- What the server still has to pay: for the requests under way, and for those to come. -/
def rank [Fintype Tid] (s : DispatchState Tid V) : Nat :=
  s.sys.rank + requestCost Tid * ∑ i, (s.conn i).inbox.length

/-- The step is a wake-up for no reason. -/
def isWake : DispatchEvent Tid → Bool
  | .wake _ _ => true
  | .receive _ | .run _ | .send _ => false

/-- A wake-up for no reason gives three steps: itself, and the two it adds. -/
def gain (e : DispatchEvent Tid) : Nat := if isWake e then 3 else 0

theorem length_path (q : Request) : q.path.length = 7 := by
  rw [q.path_eq]
  rfl

/-- Effects leave the requests of a connection alone: those to come, the one under way and
those that have been answered; and they add to the log at most. -/
theorem conn_effect {i : Tid} {q : Request} {instr : Instr} (h : s.effect split i q instr = some s') :
    (∀ j, (s'.conn j).inbox = (s.conn j).inbox ∧ (s'.conn j).job = (s.conn j).job ∧
      (s'.conn j).sent = (s.conn j).sent) ∧ s.log <+: s'.log := by
  have hconn : ∀ c : Conn V, c.inbox = (s.conn i).inbox ∧ c.job = (s.conn i).job ∧
      c.sent = (s.conn i).sent → ∀ j, ((Function.update s.conn i c) j).inbox = (s.conn j).inbox ∧
        ((Function.update s.conn i c) j).job = (s.conn j).job ∧
        ((Function.update s.conn i c) j).sent = (s.conn j).sent := by
    intro c hc j
    by_cases hj : j = i
    · subst hj
      rw [Function.update_self]
      exact hc
    · rw [Function.update_of_ne hj]
      exact ⟨rfl, rfl, rfl⟩
  have hsame : s' = s → (∀ j, (s'.conn j).inbox = (s.conn j).inbox ∧
      (s'.conn j).job = (s.conn j).job ∧ (s'.conn j).sent = (s.conn j).sent) ∧ s.log <+: s'.log := by
    rintro rfl
    exact ⟨fun _ => ⟨rfl, rfl, rfl⟩, List.prefix_rfl⟩
  cases instr with
  | acquire l m | release l m => exact hsame (Option.some.inj h).symm
  | work w =>
    cases w with
    | lookup =>
      obtain rfl := Option.some.inj h
      exact ⟨hconn _ ⟨rfl, rfl, rfl⟩, List.prefix_rfl⟩
    | copy => exact hsame (Option.some.inj h).symm
    | update =>
      simp only [effect] at h
      split at h
      · cases h
      · split at h
        · cases h
        · obtain rfl := Option.some.inj h
          exact ⟨hconn _ ⟨rfl, rfl, rfl⟩, List.prefix_append _ _⟩
    | count =>
      simp only [effect] at h
      split at h
      · cases h
      · obtain rfl := Option.some.inj h
        exact ⟨fun _ => ⟨rfl, rfl, rfl⟩, List.prefix_rfl⟩

variable [Fintype Tid]

/-- What a change to one connection does to the requests to come. -/
theorem rank_update {i : Tid} {c : Conn V} (h : s'.conn = Function.update s.conn i c) :
    s'.rank + requestCost Tid * (s.conn i).inbox.length =
      s'.sys.rank + requestCost Tid * ∑ j, (s.conn j).inbox.length +
        requestCost Tid * c.inbox.length := by
  have hrest : ∑ j ∈ Finset.univ.erase i, (Function.update s.conn i c j).inbox.length =
      ∑ j ∈ Finset.univ.erase i, (s.conn j).inbox.length :=
    Finset.sum_congr rfl fun j hj => by rw [Function.update_of_ne (Finset.ne_of_mem_erase hj)]
  have hnew := Finset.add_sum_erase _ (fun j => (Function.update s.conn i c j).inbox.length)
    (Finset.mem_univ i)
  have hold := Finset.add_sum_erase _ (fun j => (s.conn j).inbox.length) (Finset.mem_univ i)
  simp only [Function.update_self] at hnew
  rw [rank, h, ← hnew, ← hold, hrest, Nat.mul_add, Nat.mul_add]
  omega

/-- **Every step costs one**, and only a wake-up for no reason gives anything back. -/
theorem rank_step (hr : (machine split srv requests).Reachable s) {e : DispatchEvent Tid}
    (h : s.step split e = some s') : s'.rank + 1 ≤ s.rank + gain e := by
  have hord := InvokeState.orderly_of_reachable (projects_sys.reachable hr)
  have hrank : s.rank = s.sys.rank + requestCost Tid * ∑ j, (s.conn j).inbox.length := rfl
  cases e with
  | receive i =>
    simp only [step] at h
    split at h
    · rename_i q rest hjob hin
      obtain ⟨sys, hstart, hs'⟩ := Option.map_eq_some_iff.mp h
      obtain ⟨hsys, hconn⟩ : s'.sys = sys ∧ s'.conn = Function.update s.conn i
          ⟨rest, some q, (s.conn i).view, (s.conn i).reply, (s.conn i).sent⟩ := by
        subst hs'
        exact ⟨rfl, rfl⟩
      have hpath := InvokeState.rank_start hstart
      have hlen : (invokePath q.msg.opcode q.env.statsBlock).length = 7 := length_path q
      have hcost : requestCost Tid = (Fintype.card Tid * 2 + 9) * 7 + 2 := rfl
      have hupdate := rank_update hconn
      simp only [hsys, hin, List.length_cons, Nat.mul_succ] at hupdate
      rw [hlen] at hpath
      simp only [gain, isWake, hrank]
      omega
    · cases h
  | run i =>
    simp only [step] at h
    split at h
    · obtain ⟨s₁, heffect, h⟩ := Option.bind_eq_some_iff.mp h
      obtain ⟨sys, hrun, rfl⟩ := Option.map_eq_some_iff.mp h
      have hlt := InvokeState.rank_run (hord i) hrun
      have hinbox := fun j => ((conn_effect heffect).1 j).1
      simp only [rank, gain, isWake, hinbox]
      omega
    · cases h
  | send i =>
    simp only [step] at h
    split at h
    · rename_i reply hreply hnil
      obtain ⟨sys, hrun, hs'⟩ := Option.map_eq_some_iff.mp h
      obtain ⟨hsys, hconn⟩ : s'.sys = sys ∧ s'.conn = Function.update s.conn i
          ⟨(s.conn i).inbox, none, none, none, (s.conn i).sent ++ [reply]⟩ := by
        subst hs'
        exact ⟨rfl, rfl⟩
      have hlt := InvokeState.rank_run (hord i) hrun
      have hupdate := rank_update hconn
      simp only [hsys] at hupdate
      simp only [gain, isWake, hrank]
      omega
    · cases h
  | wake i l =>
    obtain ⟨sys, hwake, rfl⟩ := Option.map_eq_some_iff.mp h
    have hle := InvokeState.rank_wake hwake
    simp only [rank, gain, isWake, if_true]
    omega

omit [DecidableEq Tid] in
/-- At the start the requests are all there is to pay for. -/
theorem rank_start (srv : Server) (requests : Tid → List Request) :
    (start srv requests : DispatchState Tid V).rank = requestCost Tid * ∑ i, (requests i).length := by
  have hsys : (InvokeState.fresh Tid).rank = 0 := Finset.sum_eq_zero fun _ _ => rfl
  rw [rank, start, hsys, Nat.zero_add]

/-- **A run of the server is bounded**: with `N` connections and `Q` requests altogether, a run has
at most `(14 N + 65) Q` steps and three for every wake-up for no reason, whatever the order in
which the threads take them. -/
theorem run_bounded (split : Split V) (srv : Server) (requests : Tid → List Request)
    (es : List (DispatchEvent Tid)) (s : DispatchState Tid V)
    (hrun : (machine split srv requests).run (start srv requests) es = some s) :
    es.length ≤ (14 * Fintype.card Tid + 65) * ∑ i, (requests i).length + 3 * es.countP isWake := by
  have hlen := Machine.Reachable.length_le (p := isWake) (c := 3)
    (fun _ _ _ hr hstep => rank_step hr hstep) (.start rfl) hrun
  have hcost : requestCost Tid = 14 * Fintype.card Tid + 65 := by
    unfold requestCost
    omega
  rw [rank_start, hcost] at hlen
  omega

/-- The bound for the run in which a `DEL` waits for a `SIZE`. -/
theorem run_bounded_overlap : ∃ s,
    (machine eager (tableSkelInit 1) twoClients).run (start (tableSkelInit 1) twoClients) overlap =
      some s ∧
    overlap.length ≤ (14 * Fintype.card Bool + 65) * ∑ i, (twoClients i).length +
      3 * overlap.countP isWake := by
  obtain ⟨s, hrun⟩ : ∃ s, (machine eager (tableSkelInit 1) twoClients).run
      (start (tableSkelInit 1) twoClients) overlap = some s := ⟨_, rfl⟩
  exact ⟨s, hrun, run_bounded eager (tableSkelInit 1) twoClients overlap s hrun⟩

/-- **Nobody is left waiting**: from any state of any run the threads can go on, without a
wake-up for no reason, to a state in which each connection has been sent the replies to all its
requests, in order; unless the next request of some connection has no defined result. -/
theorem dispatch_drains (h : (machine split srv requests).Reachable s) :
    ∃ es s', (∀ e ∈ es, isWake e = false) ∧ es.length ≤ s.rank ∧
      (machine split srv requests).run s es = some s' ∧
      ((∀ i, (entriesOf i s'.log).map Prod.fst = requests i ∧
          (entriesOf i s'.log).map Prod.snd = (s'.conn i).sent) ∨
        ∃ i q f, (s'.conn i).pending = [q] ∧
          ∀ stats, invoke q.env ⟨s'.gTable, stats⟩ q.msg = .error f) := by
  obtain ⟨es, s', hes, hlen, hrun, hstuck⟩ := Machine.Reachable.exists_stuck (p := isWake) (c := 3)
    (fun _ _ _ hr hstep => rank_step hr hstep) h
  refine ⟨es, s', hes, hlen, hrun, ?_⟩
  have hreach := Machine.Reachable.run h hrun
  have hs := serial_of_reachable hreach
  have hquiet : s'.Quiet split := fun i =>
    ⟨hstuck (.receive i) rfl, hstuck (.run i) rfl, hstuck (.send i) rfl⟩
  rcases hs.quiet_cases (projects_sys.reachable hreach) hquiet with hdone | ⟨i, q, f, hpending, hf⟩
  · refine Or.inl fun i => ?_
    obtain ⟨hjob, hreply, hbox⟩ := hdone i
    have horder := (hs.conns i).order
    have hanswers := (hs.conns i).answers
    exact ⟨by simpa [Conn.pending, hjob, hbox] using horder, by simpa [hreply] using hanswers⟩
  · exact Or.inr ⟨i, q, f, hpending, fun stats => q.invoke_fault hf⟩

/-- The theorem from the state in which the `DEL` is still to be handled. -/
theorem dispatch_drains_overlap : ∃ s,
    (machine eager (tableSkelInit 1) twoClients).run (start (tableSkelInit 1) twoClients) overlap =
      some s ∧
    (s.conn true).sent = [] ∧
    ∃ es s', (∀ e ∈ es, isWake e = false) ∧ es.length ≤ s.rank ∧
      (machine eager (tableSkelInit 1) twoClients).run s es = some s' ∧
      ((∀ i, (entriesOf i s'.log).map Prod.fst = twoClients i ∧
          (entriesOf i s'.log).map Prod.snd = (s'.conn i).sent) ∨
        ∃ i q f, (s'.conn i).pending = [q] ∧
          ∀ stats, invoke q.env ⟨s'.gTable, stats⟩ q.msg = .error f) := by
  obtain ⟨s, hrun, hsent⟩ : ∃ s, (machine eager (tableSkelInit 1) twoClients).run
      (start (tableSkelInit 1) twoClients) overlap = some s ∧ (s.conn true).sent = [] := ⟨_, rfl, rfl⟩
  exact ⟨s, hrun, hsent, dispatch_drains (Machine.Reachable.run (.start rfl) hrun)⟩

end DispatchState
end RemoteTable
