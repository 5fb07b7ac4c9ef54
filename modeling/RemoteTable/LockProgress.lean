import RemoteTable.InvokeLocks

/-! # The server does not deadlock

The points of a thread follow from the path it is on: it is in the lock its next
instruction is about, or rests inside the one lock it holds.  So a thread that owns a
`control_mutex` can go on, and so can a thread inside a lock; and one that waits in a
lock waits for a thread inside it.
-/
namespace RemoteTable
open Transition Tally

namespace Point

/-- At the start, in the middle or at the end of a call of `…_lock`. -/
def locking (m : Mode) : Point → Bool
  | outside => true
  | entering m' | testing m' | waiting m' | woken m' | counting m' | releasing m' | inside m' => m' = m
  | leaving _ | discounting _ | exiting _ => false

/-- At the start, in the middle or at the end of a call of `…_unlock`. -/
def unlocking (m : Mode) : Point → Bool
  | inside m' | leaving m' | discounting m' | exiting m' => m' = m
  | outside => true
  | entering _ | testing _ | waiting _ | woken _ | counting _ | releasing _ => false

@[simp] theorem locking_notified (m : Mode) (p : Point) : p.notified.locking m = p.locking m := by
  cases p <;> rfl

@[simp] theorem unlocking_notified (m : Mode) (p : Point) :
    p.notified.unlocking m = p.unlocking m := by
  cases p <;> rfl

/-- Where a thread rests in lock `l` while it holds `h`. -/
def resting (h : Held) (l : LockId) : Point :=
  match h with
  | some (l', m) => if l = l' then inside m else outside
  | none => outside

/-- Where a thread may be in lock `l`, on the path that is left to it. -/
def Allowed (h : Held) (l : LockId) (p : Point) : List Instr → Prop
  | .acquire l' m :: _ => if l = l' then p.locking m = true else p = outside
  | .release l' m :: _ => if l = l' then p.unlocking m = true else p = outside
  | _ => p = resting h l

/-- A notification is allowed everywhere. -/
theorem Allowed.notified {h : Held} {l : LockId} {p : Point} {path : List Instr}
    (hp : p.Allowed h l path) : p.notified.Allowed h l path := by
  have hout : p = outside → p.notified = outside := by
    rintro rfl
    rfl
  have hrest : p = resting h l → p.notified = resting h l := by
    rintro rfl
    unfold resting
    split
    · split <;> rfl
    · rfl
  unfold Allowed at hp ⊢
  split at hp
  · simp only [locking_notified]
    split_ifs at hp ⊢ <;> first | exact hp | exact hout hp
  · simp only [unlocking_notified]
    split_ifs at hp ⊢ <;> first | exact hp | exact hout hp
  · exact hrest hp

/-- Between two instructions a thread rests, which is allowed before any instruction
that fits what it holds. -/
theorem allowed_of_resting {h : Held} {l : LockId} {path : List Instr} (hb : Balanced h path) :
    (resting h l).Allowed h l path := by
  cases path with
  | nil => rfl
  | cons instr path =>
    cases instr with
    | work w => rfl
    | acquire l' m =>
      obtain ⟨rfl, -⟩ := hb
      simp [Allowed, resting, locking]
    | release l' m =>
      obtain ⟨rfl, -⟩ := hb
      simp only [Allowed, resting]
      split <;> simp [unlocking]

/-- A thread that is in a lock when it comes to acquire one is in that one. -/
theorem Allowed.acquire {h : Held} {l l' : LockId} {p : Point} {m : Mode} {path : List Instr}
    (hp : p.Allowed h l (.acquire l' m :: path)) (hin : p ≠ outside) :
    l = l' ∧ p.locking m = true := by
  change if l = l' then p.locking m = true else p = outside at hp
  by_cases hl : l = l'
  · rw [if_pos hl] at hp
    exact ⟨hl, hp⟩
  · rw [if_neg hl] at hp
    exact absurd hp hin

/-- A thread that is in a lock when it comes to release one is in that one. -/
theorem Allowed.release {h : Held} {l l' : LockId} {p : Point} {m : Mode} {path : List Instr}
    (hp : p.Allowed h l (.release l' m :: path)) (hin : p ≠ outside) :
    l = l' ∧ p.unlocking m = true := by
  change if l = l' then p.unlocking m = true else p = outside at hp
  by_cases hl : l = l'
  · rw [if_pos hl] at hp
    exact ⟨hl, hp⟩
  · rw [if_neg hl] at hp
    exact absurd hp hin

end Point

namespace RwMutex
variable {Tid : Type} [DecidableEq Tid] {s s' : RwMutex Tid} {i j : Tid} {m : Mode} {a : Act}

/-- **What a step does to the other threads**: it notifies those that wait, or nothing. -/
theorem step_other (h : s.step i a = some s') (hj : j ≠ i) :
    s'.point j = s.point j ∨ s'.point j = (s.point j).notified := by
  cases moves_of_step h with
  | keep | take | drop => exact Or.inl (Function.update_of_ne hj _ _)
  | count => exact Or.inl (by simp [hj])
  | discount => exact Or.inr (by simp [hj])

/-- A step of a call of `…_lock` stays in the call. -/
theorem locking_advance (hp : (s.point i).locking m = true) (h : s.advance i = some s') :
    (s'.point i).locking m = true := by
  unfold advance at h
  cases hat : s.point i with
  | outside | waiting _ | inside _ => simp [hat] at h
  | leaving _ | discounting _ | exiting _ => simp [hat, Point.locking] at hp
  | entering m' | woken m' =>
    rw [hat] at h hp
    obtain ⟨-, h⟩ := Option.ite_none_right_eq_some.mp h
    obtain rfl := Option.some.inj h
    simpa [Point.locking] using hp
  | testing m' =>
    rw [hat] at h hp
    obtain rfl := Option.some.inj h
    split <;> simpa [Point.locking] using hp
  | counting m' | releasing m' =>
    rw [hat] at h hp
    obtain rfl := Option.some.inj h
    simpa [Point.locking] using hp

/-- A step of a call of `…_unlock` stays in the call. -/
theorem unlocking_advance (hp : (s.point i).unlocking m = true) (h : s.advance i = some s') :
    (s'.point i).unlocking m = true := by
  unfold advance at h
  cases hat : s.point i with
  | outside | inside _ => simp [hat] at h
  | entering _ | testing _ | waiting _ | woken _ | counting _ | releasing _ =>
    simp [hat, Point.unlocking] at hp
  | leaving m' =>
    rw [hat] at h hp
    obtain ⟨-, h⟩ := Option.ite_none_right_eq_some.mp h
    obtain rfl := Option.some.inj h
    simpa [Point.unlocking] using hp
  | discounting m' =>
    rw [hat] at h hp
    obtain rfl := Option.some.inj h
    simpa [Point.unlocking] using hp
  | exiting m' =>
    rw [hat] at h
    obtain rfl := Option.some.inj h
    simp [Point.unlocking]

end RwMutex

/-! ## Every thread is where its path says -/

namespace InvokeState
variable {Tid : Type} {s s' : InvokeState Tid} {i j : Tid} {l : LockId}

/-- The points of thread `i` are those of the path it is on. -/
def Orderly (s : InvokeState Tid) (i : Tid) : Prop :=
  match s.todo i with
  | none => ∀ l, (s.lock l).point i = .outside
  | some path => ∃ h, Balanced h path ∧ ∀ l, ((s.lock l).point i).Allowed h l path

theorem orderly_none (h : s.todo i = none) : s.Orderly i ↔ ∀ l, (s.lock l).point i = .outside := by
  unfold Orderly
  rw [h]

theorem orderly_some {path : List Instr} (h : s.todo i = some path) :
    s.Orderly i ↔ ∃ h, Balanced h path ∧ ∀ l, ((s.lock l).point i).Allowed h l path := by
  unfold Orderly
  rw [h]

/-- A thread that is in a lock is on a path. -/
theorem Orderly.path (hs : s.Orderly i) (hin : (s.lock l).point i ≠ .outside) :
    ∃ path h, s.todo i = some path ∧ Balanced h path ∧
      ∀ l, ((s.lock l).point i).Allowed h l path := by
  cases htodo : s.todo i with
  | none => exact absurd ((orderly_none htodo).mp hs l) hin
  | some path =>
    obtain ⟨h, hb, hpoints⟩ := (orderly_some htodo).mp hs
    exact ⟨path, h, rfl, hb, hpoints⟩

/-- A step on a lock moves a thread to a point of its path. -/
theorem orderly_setLock {h : Held} {path : List Instr} {r : RwMutex Tid}
    (htodo : s.todo i = some path) (hb : Balanced h path)
    (hpoints : ∀ l, ((s.lock l).point i).Allowed h l path) (hr : (r.point i).Allowed h l path) :
    (s.setLock l r).Orderly i := by
  refine (orderly_some (s := s.setLock l r) htodo).mpr ⟨h, hb, fun l' => ?_⟩
  rw [setLock_lock]
  by_cases hl : l' = l
  · subst hl
    rw [Function.update_self]
    exact hr
  · rw [Function.update_of_ne hl]
    exact hpoints l'

section Steps
variable [DecidableEq Tid]

/-- A thread that rests goes on to any path that fits what it holds. -/
theorem orderly_goOn {h : Held} {path : List Instr} (hb : Balanced h path)
    (hrest : ∀ l, (s.lock l).point i = Point.resting h l) : (s.goOn i (some path)).Orderly i := by
  refine (orderly_some (Function.update_self ..)).mpr ⟨h, hb, fun l => ?_⟩
  rw [goOn_lock, hrest l]
  exact Point.allowed_of_resting hb

/-- A thread is where it is while another one goes on. -/
theorem Orderly.goOn_other (hs : s.Orderly j) (hj : j ≠ i) (t : Option (List Instr)) :
    (s.goOn i t).Orderly j := by
  unfold Orderly at hs ⊢
  rw [goOn_todo, Function.update_of_ne hj]
  exact hs

/-- A thread stays on its path while another one takes a step on a lock. -/
theorem Orderly.setLock_other (hs : s.Orderly j) (hj : j ≠ i) {a : Act} {r : RwMutex Tid}
    (hr : (s.lock l).step i a = some r) :
    (s.setLock l r).Orderly j := by
  have hpoint : ∀ l', ((Function.update s.lock l r) l').point j = (s.lock l').point j ∨
      ((Function.update s.lock l r) l').point j = ((s.lock l').point j).notified := by
    intro l'
    by_cases hl : l' = l
    · subst hl
      rw [Function.update_self]
      exact RwMutex.step_other hr hj
    · rw [Function.update_of_ne hl]
      exact Or.inl rfl
  cases htodo : s.todo j with
  | none =>
    refine (orderly_none (s := s.setLock l r) htodo).mpr fun l' => ?_
    have hout := (orderly_none htodo).mp hs l'
    rcases hpoint l' with h | h <;> rw [setLock_lock, h, hout]
    rfl
  | some path =>
    obtain ⟨h, hb, hpoints⟩ := (orderly_some htodo).mp hs
    refine (orderly_some (s := s.setLock l r) htodo).mpr ⟨h, hb, fun l' => ?_⟩
    rcases hpoint l' with h' | h' <;> rw [setLock_lock, h']
    · exact hpoints l'
    · exact (hpoints l').notified

/-- **A step of an instruction keeps its thread on its path.** -/
theorem Orderly.runInstr {instr : Instr} {rest : List Instr} (hs : s.Orderly i)
    (htodo : s.todo i = some (instr :: rest)) (hrun : s.runInstr i rest instr = some s') :
    s'.Orderly i := by
  obtain ⟨h, hb, hpoints⟩ := (orderly_some htodo).mp hs
  -- a step within the call on a lock
  have hcall : ∀ {l a}, s.onLock i l a = some s' →
      (∀ r, (s.lock l).step i a = some r → (r.point i).Allowed h l (instr :: rest)) →
      s'.Orderly i := by
    intro l a hact hallowed
    obtain ⟨r, hr, rfl⟩ := Option.map_eq_some_iff.mp hact
    exact orderly_setLock htodo hb hpoints (hallowed r hr)
  cases instr with
  | work w =>
    obtain rfl := Option.some.inj hrun
    exact orderly_goOn hb hpoints
  | acquire l m =>
    obtain ⟨rfl, hb⟩ := hb
    have hat : ((s.lock l).point i).locking m = true := by simpa [Point.Allowed] using hpoints l
    simp only [InvokeState.runInstr] at hrun
    split at hrun
    · refine hcall hrun fun r hr => ?_
      obtain ⟨-, hr⟩ := Option.ite_none_right_eq_some.mp hr
      obtain rfl := Option.some.inj hr
      simp [Point.Allowed, Point.locking]
    · rename_i m' hin
      obtain rfl := Option.some.inj hrun
      obtain rfl : m' = m := by simpa [hin, Point.locking] using hat
      refine orderly_goOn hb fun l' => ?_
      by_cases hl : l' = l
      · subst hl
        simp [Point.resting, hin]
      · simpa [Point.resting, hl, Point.Allowed] using hpoints l'
    · refine hcall hrun fun r hr => ?_
      simpa [Point.Allowed] using RwMutex.locking_advance hat hr
  | release l m =>
    obtain ⟨rfl, hb⟩ := hb
    have hat : ((s.lock l).point i).unlocking m = true := by simpa [Point.Allowed] using hpoints l
    simp only [InvokeState.runInstr] at hrun
    split at hrun
    · refine hcall hrun fun r hr => ?_
      obtain ⟨-, hr⟩ := Option.ite_none_right_eq_some.mp hr
      obtain rfl := Option.some.inj hr
      simp [Point.Allowed, Point.unlocking]
    · rename_i hout
      obtain rfl := Option.some.inj hrun
      refine orderly_goOn hb fun l' => ?_
      by_cases hl : l' = l
      · subst hl
        simp [Point.resting, hout]
      · simpa [Point.resting, hl, Point.Allowed] using hpoints l'
    · refine hcall hrun fun r hr => ?_
      simpa [Point.Allowed] using RwMutex.unlocking_advance hat hr

/-- **Every step of the server keeps every thread on its path.** -/
theorem orderly_step (hs : ∀ i, s.Orderly i) {e : InvokeEvent Tid} (h : s.step e = some s') :
    ∀ i, s'.Orderly i := by
  intro j
  by_cases hj : j = e.thread
  · subst hj
    cases e with
    | start i opCode block =>
      simp only [step] at h
      split at h
      · rename_i htodo
        obtain rfl := Option.some.inj h
        exact orderly_goOn (invokePath_balanced _ _) ((orderly_none htodo).mp (hs i))
      · cases h
    | wake i l =>
      obtain ⟨r, hr, rfl⟩ := Option.map_eq_some_iff.mp h
      simp only [RwMutex.step] at hr
      split at hr
      · rename_i m hat
        obtain rfl := Option.some.inj hr
        obtain ⟨path, h, htodo, hb, hpoints⟩ := (hs i).path (l := l) (by simp [hat])
        refine orderly_setLock htodo hb hpoints ?_
        simpa [InvokeEvent.thread, hat, Point.notified] using (hpoints l).notified
      · cases hr
    | run i =>
      simp only [step] at h
      split at h
      · cases h
      · rename_i htodo
        obtain rfl := Option.some.inj h
        obtain ⟨h, rfl, hpoints⟩ := (orderly_some htodo).mp (hs i)
        exact (orderly_none (by simp [InvokeEvent.thread])).mpr hpoints
      · rename_i htodo
        exact (hs i).runInstr htodo h
  · rcases step_cases h with ⟨t, rfl⟩ | ⟨l, a, r, hr, rfl⟩
    · exact (hs j).goOn_other hj t
    · exact (hs j).setLock_other hj hr

/-- In every state of every run every thread is on its path. -/
theorem orderly_of_reachable (h : (machine Tid).Reachable s) (i : Tid) : s.Orderly i := by
  refine h.invariant (I := fun s => ∀ i, s.Orderly i) ?_ ?_ i
  · rintro _ rfl i l
    rfl
  · intro s e s' _ hs hstep
    exact orderly_step hs hstep

/-! ## Some thread can go on -/

/-- Thread `i` is in `invoke`, and its next step is enabled. -/
def Runs (s : InvokeState Tid) (i : Tid) : Prop :=
  s.todo i ≠ none ∧ ∃ s', s.step (.run i) = some s'

theorem runs_of_runInstr {instr : Instr} {rest : List Instr} (htodo : s.todo i = some (instr :: rest))
    (h : ∃ s', s.runInstr i rest instr = some s') : s.Runs i := by
  refine ⟨by rw [htodo]; nofun, ?_⟩
  simpa only [step, htodo] using h

/-- A thread in a call on a lock runs when its next step there is enabled. -/
theorem runs_of_advance {path : List Instr} {h : Held} (htodo : s.todo i = some path)
    (hallowed : ((s.lock l).point i).Allowed h l path) (hin : (s.lock l).point i ≠ .outside)
    (hnot : ∀ m, (s.lock l).point i ≠ .inside m)
    (hadv : ∃ r, (s.lock l).advance i = some r) : s.Runs i := by
  obtain ⟨r, hr⟩ := hadv
  have hcall : s.onLock i l .advance = some (s.setLock l r) := by
    unfold onLock
    exact Option.map_eq_some_iff.mpr ⟨r, hr, rfl⟩
  have hrest : (s.lock l).point i ≠ Point.resting h l := by
    unfold Point.resting
    split
    · split
      · exact hnot _
      · exact hin
    · exact hin
  cases path with
  | nil => exact absurd hallowed hrest
  | cons instr rest =>
    cases instr with
    | work w => exact absurd hallowed hrest
    | acquire l' m =>
      obtain ⟨rfl, -⟩ := hallowed.acquire hin
      refine runs_of_runInstr htodo ⟨s.setLock l r, ?_⟩
      simp only [InvokeState.runInstr]
      exact hcall
    | release l' m =>
      obtain ⟨rfl, -⟩ := hallowed.release hin
      refine runs_of_runInstr htodo ⟨s.setLock l r, ?_⟩
      simp only [InvokeState.runInstr]
      exact hcall

/-- **The owner of a `control_mutex` can go on.** -/
theorem runs_of_critical (hs : s.Orderly i) (hcrit : ((s.lock l).point i).critical = true) :
    s.Runs i := by
  have hin : (s.lock l).point i ≠ .outside := by
    intro hat
    rw [hat] at hcrit
    cases hcrit
  have hnot : ∀ m, (s.lock l).point i ≠ .inside m := by
    intro m hat
    rw [hat] at hcrit
    cases hcrit
  have hadv : ∃ r, (s.lock l).advance i = some r := by
    unfold RwMutex.advance
    cases hat : (s.lock l).point i with
    | testing m | counting m | releasing m | discounting m | exiting m => exact ⟨_, rfl⟩
    | outside | entering m | waiting m | woken m | inside m | leaving m =>
      rw [hat] at hcrit
      cases hcrit
  obtain ⟨path, h, htodo, -, hpoints⟩ := hs.path hin
  exact runs_of_advance htodo (hpoints l) hin hnot hadv

/-- A thread that rests inside a lock can go on: invoke takes no second lock there. -/
theorem runs_of_inside {m : Mode} (hs : s.Orderly i) (hat : (s.lock l).point i = .inside m) :
    s.Runs i := by
  have hin : (s.lock l).point i ≠ .outside := by
    rw [hat]
    nofun
  obtain ⟨path, h, htodo, hb, hpoints⟩ := hs.path hin
  have hallowed := hpoints l
  cases path with
  | nil =>
    obtain rfl := hb
    exact absurd hallowed hin
  | cons instr rest =>
    refine runs_of_runInstr htodo ?_
    cases instr with
    | work w => exact ⟨_, rfl⟩
    | acquire l' m' =>
      obtain ⟨rfl, -⟩ := hallowed.acquire hin
      exact ⟨_, by rw [InvokeState.runInstr, hat]⟩
    | release l' m' =>
      obtain ⟨rfl, hunlocking⟩ := hallowed.release hin
      obtain rfl : m = m' := by simpa [hat, Point.unlocking] using hunlocking
      exact ⟨_, by rw [InvokeState.runInstr, hat, onLock, RwMutex.step, if_pos hat]; rfl⟩

/-- While the mutex is free, a call on the lock goes on unless it waits. -/
theorem advance_enabled {r : RwMutex Tid} (hfree : r.owner = none) (hin : r.point i ≠ .outside)
    (hnot : ∀ m, r.point i ≠ .inside m) (hwait : ∀ m, r.point i ≠ .waiting m) :
    ∃ r', r.advance i = some r' := by
  unfold RwMutex.advance RwMutex.take
  rw [hfree]
  cases hat : r.point i with
  | outside => exact absurd hat hin
  | inside m => exact absurd hat (hnot m)
  | waiting m => exact absurd hat (hwait m)
  | _ => exact ⟨_, rfl⟩

/-- While the mutexes are free, a thread in `invoke` goes on unless it waits. -/
theorem runs_or_waits (hs : s.Orderly i) (htodo : s.todo i ≠ none)
    (hfree : ∀ l, (s.lock l).owner = none) :
    s.Runs i ∨ ∃ l m, (s.lock l).point i = .waiting m := by
  by_contra hstuck
  obtain ⟨hruns, hwait⟩ := not_or.mp hstuck
  have hwait : ∀ l m, (s.lock l).point i ≠ .waiting m := fun l m h => hwait ⟨l, m, h⟩
  have hnot : ∀ l m, (s.lock l).point i ≠ .inside m := fun l m h => hruns (runs_of_inside hs h)
  obtain ⟨path, htodo⟩ := Option.ne_none_iff_exists'.mp htodo
  obtain ⟨h, hb, hpoints⟩ := (orderly_some htodo).mp hs
  -- a call that is under way could go on
  have hout : ∀ l, (s.lock l).point i = .outside := by
    intro l
    by_contra hin
    exact hruns (runs_of_advance htodo (hpoints l) hin (hnot l)
      (advance_enabled (hfree l) hin (hnot l) (hwait l)))
  cases path with
  | nil => exact hruns ⟨by rw [htodo]; nofun, _, by rw [step, htodo]⟩
  | cons instr rest =>
    refine hruns (runs_of_runInstr htodo ?_)
    cases instr with
    | work w => exact ⟨_, rfl⟩
    | acquire l m =>
      exact ⟨_, by rw [InvokeState.runInstr, hout l, onLock, RwMutex.step, if_pos (hout l)]; rfl⟩
    | release l m => exact ⟨_, by rw [InvokeState.runInstr, hout l]⟩

end Steps

section Deadlock
variable [Fintype Tid]

/-- A thread that waits waits for a thread that is counted. -/
theorem exists_counted {m : Mode} (hl : (s.lock l).Inv) (hat : (s.lock l).point i = .waiting m) :
    ∃ j m', ((s.lock l).point j).counted m' = true := by
  have hblocked : (s.lock l).blocked m = true := by simpa [hat, Point.Fits] using hl.fits i
  have hcounter : ∃ m', 0 < (s.lock l).counter m' := by
    cases m with
    | read => exact ⟨.write, RwMutex.blocked_read_iff.mp hblocked⟩
    | write =>
      rcases RwMutex.blocked_write_iff.mp hblocked with h | h
      · exact ⟨.write, h⟩
      · exact ⟨.read, h⟩
  obtain ⟨m', hpos⟩ := hcounter
  rw [hl.counts m'] at hpos
  obtain ⟨j, hj⟩ := exists_of_tally_pos hpos
  exact ⟨j, m', hj⟩

variable [DecidableEq Tid]

/-- Each lock of the server keeps its invariant. -/
theorem lock_inv (h : (machine Tid).Reachable s) (l : LockId) : (s.lock l).Inv :=
  RwMutex.inv_of_reachable ((projects_lock l).reachable h)

/-- **Some thread in `invoke` can take a step**, as long as there is one. -/
theorem some_runs (h : (machine Tid).Reachable s) (hin : s.todo i ≠ none) : ∃ j, s.Runs j := by
  have hord := orderly_of_reachable h
  by_contra hstuck
  have hstuck : ∀ j, ¬ s.Runs j := fun j hj => hstuck ⟨j, hj⟩
  have hnotcrit : ∀ l j, ((s.lock l).point j).critical = false := by
    intro l j
    by_contra hc
    exact hstuck j (runs_of_critical (hord j) (by simpa using hc))
  have hfree : ∀ l, (s.lock l).owner = none := by
    intro l
    by_contra hown
    obtain ⟨j, hj⟩ := Option.ne_none_iff_exists'.mp hown
    have hcrit := ((lock_inv h l).holder j).mpr hj
    rw [hnotcrit] at hcrit
    cases hcrit
  rcases runs_or_waits (hord i) hin hfree with hruns | ⟨l, m, hat⟩
  · exact hstuck i hruns
  · obtain ⟨j, m', hj⟩ := exists_counted (lock_inv h l) hat
    -- the mutex is free, so the thread it waits for is inside or about to leave
    have hcrit := hnotcrit l j
    cases hat' : (s.lock l).point j with
    | inside m'' => exact hstuck j (runs_of_inside (hord j) hat')
    | leaving m'' =>
      have hin : (s.lock l).point j ≠ .outside := by rw [hat']; nofun
      have hnot : ∀ m, (s.lock l).point j ≠ .inside m := by rw [hat']; nofun
      have hwait : ∀ m, (s.lock l).point j ≠ .waiting m := by rw [hat']; nofun
      obtain ⟨path, h', htodo, -, hpoints⟩ := (hord j).path hin
      exact hstuck j (runs_of_advance htodo (hpoints l) hin hnot
        (advance_enabled (hfree l) hin hnot hwait))
    | _ => simp [hat', Point.counted, Point.critical] at hj hcrit

/-- **The server does not deadlock and loses no wake-up**: a thread that waits
un-notified is blocked by the counters, every path through `invoke` releases what it
acquires, in the middle of any run as on paper, and while a thread is in `invoke` one
of those that are can take a step. -/
theorem invoke_never_deadlocks (h : (machine Tid).Reachable s) :
    (∀ l i, (s.lock l).point i = .waiting .read → 0 < (s.lock l).wc) ∧
    (∀ l i, (s.lock l).point i = .waiting .write → 0 < (s.lock l).wc ∨ 0 < (s.lock l).rc) ∧
    (∀ opCode block, Balanced none (invokePath opCode block)) ∧
    (∀ i, s.todo i = some [] → ∀ l, (s.lock l).point i = .outside) ∧
    ∀ i, s.todo i ≠ none → ∃ j, s.todo j ≠ none ∧ ∃ s', s.step (.run j) = some s' := by
  refine ⟨fun l i hat => ?_, fun l i hat => ?_, invokePath_balanced, fun i htodo l => ?_,
    fun i hin => some_runs h hin⟩
  · refine RwMutex.blocked_read_iff.mp ?_
    simpa [hat, Point.Fits] using (lock_inv h l).fits i
  · refine RwMutex.blocked_write_iff.mp ?_
    simpa [hat, Point.Fits] using (lock_inv h l).fits i
  · obtain ⟨h', rfl, hpoints⟩ := (orderly_some htodo).mp (orderly_of_reachable h i)
    exact hpoints l

end Deadlock

/-- A `GET` goes up to its lookup; a `DEL` comes up to the lock and waits. -/
def collision : List (InvokeEvent Bool) :=
  [.start false opGet true, .run false, .run false, .run false, .run false, .run false, .run false,
    .start true opDel true, .run true, .run true, .run true]

/-- The theorem where a `DEL` waits for a `GET`. -/
theorem invoke_never_deadlocks_collision : ∃ s, (machine Bool).run (fresh Bool) collision = some s ∧
    (s.lock .table).point false = .inside .read ∧ (s.lock .table).point true = .waiting .write ∧
    (∀ l i, (s.lock l).point i = .waiting .read → 0 < (s.lock l).wc) ∧
    (∀ l i, (s.lock l).point i = .waiting .write → 0 < (s.lock l).wc ∨ 0 < (s.lock l).rc) ∧
    (∀ opCode block, Balanced none (invokePath opCode block)) ∧
    (∀ i, s.todo i = some [] → ∀ l, (s.lock l).point i = .outside) ∧
    ∀ i, s.todo i ≠ none → ∃ j, s.todo j ≠ none ∧ ∃ s', s.step (.run j) = some s' := by
  obtain ⟨s, hrun, hget, hdel⟩ : ∃ s, (machine Bool).run (fresh Bool) collision = some s ∧
      (s.lock .table).point false = .inside .read ∧
      (s.lock .table).point true = .waiting .write := ⟨_, rfl, rfl, rfl⟩
  exact ⟨s, hrun, hget, hdel, invoke_never_deadlocks (Machine.Reachable.run (.start rfl) hrun)⟩

end InvokeState
end RemoteTable
