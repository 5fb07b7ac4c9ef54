import RemoteTable.RwMutex
import RemoteTable.Tally

/-! # The readers/writer lock excludes

The invariant of `rw_mutex_t` ties its counters to where the threads are.  Each of
the five moves of a thread keeps it, so it holds in every state of every run, for
any number of threads and any interleaving.
-/
namespace RemoteTable
open Transition Tally

namespace RwMutex
variable {Tid : Type}

section Blocked
variable {s : RwMutex Tid} {m m' : Mode}

theorem blocked_read_iff : s.blocked .read = true ↔ 0 < s.wc := by simp [blocked]

theorem blocked_write_iff : s.blocked .write = true ↔ 0 < s.wc ∨ 0 < s.rc := by simp [blocked]

theorem wc_eq_zero (h : s.blocked .read = false) : s.wc = 0 := by simpa [blocked] using h

theorem counters_eq_zero (h : s.blocked .write = false) : s.wc = 0 ∧ s.rc = 0 := by
  simpa [blocked] using h

/-- Counting a thread in unblocks nobody. -/
theorem blocked_count (h : s.blocked m' = true) : (s.count m).blocked m' = true := by
  cases m' with
  | read =>
    have := blocked_read_iff.mp h
    cases m <;> exact blocked_read_iff.mpr (by simp only [count]; omega)
  | write =>
    have := blocked_write_iff.mp h
    cases m <;> exact blocked_write_iff.mpr (by simp only [count]; omega)

theorem counter_count (s : RwMutex Tid) (m m' : Mode) :
    (s.count m).counter m' = if m' = m then s.counter m' + 1 else s.counter m' := by
  cases m <;> cases m' <;> rfl

theorem counter_discount (s : RwMutex Tid) (m m' : Mode) :
    (s.discount m).counter m' = if m' = m then sizePred (s.counter m') else s.counter m' := by
  cases m <;> cases m' <;> rfl

end Blocked

/-- **What the lock keeps**: the thread in a critical section owns `control_mutex`; the
counters count; there is one writer at most, and no reader beside it; and every
thread agrees with the condition of its loop. -/
structure Inv [Fintype Tid] (s : RwMutex Tid) : Prop where
  holder : ∀ i, (s.point i).critical = true ↔ s.owner = some i
  counts : ∀ m, s.counter m = tally (Point.counted m) s.point
  one_writer : s.wc ≤ 1
  alone : s.wc = 1 → s.rc = 0
  fits : ∀ i, (s.point i).Fits s.blocked

section Invariant
variable [Fintype Tid] {s s' : RwMutex Tid} {i j : Tid} {p : Point} {m : Mode}

theorem fresh_inv : (fresh Tid).Inv where
  holder _ := by simp [fresh, Point.critical]
  counts m := by
    rw [tally_eq_zero fun _ => rfl]
    cases m <;> rfl
  one_writer := Nat.zero_le 1
  alone _ := rfl
  fits _ := trivial

/-- Two threads in critical sections are one. -/
theorem Inv.critical_unique (hs : s.Inv) (hi : (s.point i).critical = true)
    (hj : (s.point j).critical = true) : j = i :=
  Option.some.inj (((hs.holder j).mp hj).symm.trans ((hs.holder i).mp hi))

/-- While the mutex is free, no thread is in a critical section. -/
theorem Inv.not_critical (hs : s.Inv) (hfree : s.owner = none) : ¬ (s.point j).critical = true := by
  intro hc
  have hown := (hs.holder j).mp hc
  rw [hfree] at hown
  cases hown

/-- While thread `i` is in a critical section, no other thread is past its loop. -/
theorem Inv.not_counting (hs : s.Inv) (hi : (s.point i).critical = true) (hj : j ≠ i) (m : Mode) :
    s.point j ≠ .counting m := by
  intro hat
  exact hj (hs.critical_unique hi (by rw [hat]; rfl))

/-- A thread that is counted makes the counter of its mode positive. -/
theorem Inv.counter_pos (hs : s.Inv) (h : (s.point i).counted m = true) : 0 < s.counter m := by
  rw [hs.counts m]
  exact tally_pos h

/-- **A writer is alone** between its lock and its unlock. -/
theorem Inv.writer_alone (hs : s.Inv) (hi : (s.point i).counted .write = true)
    (hj : (s.point j).counted m = true) : j = i := by
  have hone := hs.one_writer
  have hwriter := hs.counter_pos hi
  have hother := hs.counter_pos hj
  cases m with
  | read =>
    have halone := hs.alone
    simp only [counter] at hwriter hother
    omega
  | write => exact eq_of_tally_le_one (hs.counts .write ▸ hone) hj hi

section Step
variable [DecidableEq Tid]

theorem Inv.keep (hs : s.Inv) (hcrit : p.critical = (s.point i).critical)
    (hcount : ∀ m, p.counted m = (s.point i).counted m) (hfits : p.Fits s.blocked) :
    (s.goto i p).Inv where
  holder := forall_goto (Q := fun j q => q.critical = true ↔ s.owner = some j)
    (hcrit ▸ hs.holder i) fun j _ => hs.holder j
  counts m := (hs.counts m).trans (tally_update (hcount m)).symm
  one_writer := hs.one_writer
  alone := hs.alone
  fits := forall_goto (Q := fun _ q => q.Fits s.blocked) hfits fun j _ => hs.fits j

theorem Inv.take (hs : s.Inv) (hfree : s.owner = none) (hcrit : p.critical = true)
    (hcount : ∀ m, p.counted m = (s.point i).counted m) (hfits : p.Fits s.blocked) :
    Inv { s.goto i p with owner := some i } where
  holder := by
    refine forall_goto (Q := fun j q => q.critical = true ↔ some i = some j) (by simp [hcrit]) ?_
    intro j hj
    simp [hs.not_critical hfree, Ne.symm hj]
  counts m := (hs.counts m).trans (tally_update (hcount m)).symm
  one_writer := hs.one_writer
  alone := hs.alone
  fits := forall_goto (Q := fun _ q => q.Fits s.blocked) hfits fun j _ => hs.fits j

theorem Inv.drop (hs : s.Inv) (hhold : (s.point i).critical = true) (hcrit : p.critical = false)
    (hcount : ∀ m, p.counted m = (s.point i).counted m) (hfits : p.Fits s.blocked) :
    (s.drop i p).Inv where
  holder := by
    refine forall_goto (Q := fun j q => q.critical = true ↔ none = some j) (by simp [hcrit]) ?_
    intro j hj
    simp only [reduceCtorEq, iff_false]
    intro hc
    exact hj (hs.critical_unique hhold hc)
  counts m := (hs.counts m).trans (tally_update (hcount m)).symm
  one_writer := hs.one_writer
  alone := hs.alone
  fits := forall_goto (Q := fun _ q => q.Fits s.blocked) hfits fun j _ => hs.fits j

theorem Inv.count (hs : s.Inv) (hat : s.point i = .counting m) :
    ((s.count m).goto i (.releasing m)).Inv := by
  have hcrit : (s.point i).critical = true := by rw [hat]; rfl
  have hguard : s.blocked m = false := by simpa [hat, Point.Fits] using hs.fits i
  refine ⟨?_, fun m' => ?_, ?_, ?_, ?_⟩
  · refine forall_goto (Q := fun j q => q.critical = true ↔ (s.count m).owner = some j) ?_ ?_
    · simpa [Point.critical] using (hs.holder i).mp hcrit
    · intro j _
      simpa using hs.holder j
  · have hout : (s.point i).counted m' = false := by rw [hat]; rfl
    refine (counter_count s m m').trans ?_
    simp only [goto_point, count_point]
    split
    · rename_i h
      rw [tally_update_enter hout (by simp [Point.counted, h]), hs.counts]
    · rename_i h
      rw [tally_update (by rw [hout]; simp [Point.counted, Ne.symm h]), hs.counts]
  -- a reader is let in while `wc` is 0, a writer while both counters are
  · cases m with
    | read => exact hs.one_writer
    | write =>
      obtain ⟨hwc, -⟩ := counters_eq_zero hguard
      simp only [RwMutex.count, goto_wc]
      omega
  · cases m with
    | read =>
      have hwc := wc_eq_zero hguard
      simp only [RwMutex.count, goto_wc, goto_rc]
      omega
    | write =>
      obtain ⟨-, hrc⟩ := counters_eq_zero hguard
      simp only [RwMutex.count, goto_wc, goto_rc]
      omega
  · refine forall_goto (Q := fun _ q => q.Fits (s.count m).blocked) trivial ?_
    intro j hj
    rw [count_point]
    exact (hs.fits j).mono (hs.not_counting hcrit hj) fun _ => blocked_count

theorem Inv.discount (hs : s.Inv) (hat : s.point i = .discounting m) :
    ((s.discount m).broadcast.goto i (.exiting m)).Inv := by
  have hcrit : (s.point i).critical = true := by rw [hat]; rfl
  have hin : (s.point i).counted m = true := by simp [hat, Point.counted]
  have hpos := hs.counter_pos hin
  have hpred : sizePred (s.counter m) + 1 = s.counter m := by
    unfold sizePred
    split <;> omega
  refine ⟨?_, fun m' => ?_, ?_, ?_, ?_⟩
  · refine forall_goto (Q := fun j q => q.critical = true ↔ (s.discount m).owner = some j) ?_ ?_
    · simpa [Point.critical] using (hs.holder i).mp hcrit
    · intro j _
      simpa using hs.holder j
  · refine (counter_discount s m m').trans ?_
    have hcong : tally (Point.counted m') (fun j => (s.point j).notified) =
        tally (Point.counted m') s.point := tally_congr fun j => Point.counted_notified m' _
    simp only [goto_point, broadcast_point, discount_point]
    split
    · rename_i h
      subst h
      have hleave : tally (Point.counted m')
          (Function.update (fun j => (s.point j).notified) i (.exiting m')) + 1 =
          tally (Point.counted m') fun j => (s.point j).notified :=
        tally_update_leave (by simpa using hin) rfl
      have hcounts := hs.counts m'
      omega
    · rename_i h
      rw [tally_update (by simp [hat, Point.counted, Point.notified, Ne.symm h]), hcong, hs.counts]
  · cases m with
    | read => exact hs.one_writer
    | write =>
      have := hs.one_writer
      simp only [counter] at hpred
      simp only [RwMutex.discount, goto_wc, broadcast_wc]
      omega
  · have hone := hs.one_writer
    have halone := hs.alone
    cases m with
    | read =>
      simp only [counter] at hpred
      simp only [RwMutex.discount, goto_wc, broadcast_wc, goto_rc, broadcast_rc]
      omega
    | write =>
      simp only [counter] at hpred
      simp only [RwMutex.discount, goto_wc, broadcast_wc, goto_rc, broadcast_rc]
      omega
  · refine forall_goto (Q := fun _ q => q.Fits (s.discount m).blocked) trivial ?_
    intro j hj
    rw [broadcast_point, discount_point]
    exact Point.fits_notified (hs.not_counting hcrit hj)

/-- **Every step of every thread keeps the invariant.** -/
theorem Inv.step (hs : s.Inv) {a : Act} (h : s.step i a = some s') : s'.Inv := by
  cases moves_of_step h with
  | keep hcrit hcount hfits => exact hs.keep hcrit hcount hfits
  | take hfree hcrit hcount hfits => exact hs.take hfree hcrit hcount hfits
  | drop hhold hcrit hcount hfits => exact hs.drop hhold hcrit hcount hfits
  | count hat => exact hs.count hat
  | discount hat => exact hs.discount hat

/-- The invariant holds in every state of every run. -/
theorem inv_of_reachable (h : (machine Tid).Reachable s) : s.Inv :=
  h.invariant (by rintro _ rfl; exact fresh_inv) fun _ _ _ _ hs hstep => hs.step hstep

/-- **The lock excludes**: at any moment `rc` threads are between a read lock and its
unlock, `wc` between a write lock and its unlock; there is one writer at most, no
reader is beside it, and no counter is decremented from 0. -/
theorem rwMutex_excludes (h : (machine Tid).Reachable s) :
    s.rc = tally (Point.counted .read) s.point ∧ s.wc = tally (Point.counted .write) s.point ∧
      s.wc ≤ 1 ∧ (s.wc = 1 → s.rc = 0) ∧
      ∀ i m, s.point i = .discounting m → s.counter m ≠ 0 := by
  have hs := inv_of_reachable h
  refine ⟨hs.counts .read, hs.counts .write, hs.one_writer, hs.alone, fun i m hat => ?_⟩
  exact (hs.counter_pos (i := i) (by simp [hat, Point.counted])).ne'

end Step
end Invariant

/-- One thread takes the lock to read; another one wants to write, and waits. -/
def contention : List (Bool × Act) :=
  [(false, .lock .read), (false, .advance), (false, .advance), (false, .advance), (false, .advance),
    (true, .lock .write), (true, .advance), (true, .advance)]

/-- The theorem where a writer waits for a reader. -/
theorem rwMutex_excludes_contention : ∃ s, (machine Bool).run (fresh Bool) contention = some s ∧
    s.point false = .inside .read ∧ s.point true = .waiting .write ∧
    s.rc = tally (Point.counted .read) s.point ∧ s.wc = tally (Point.counted .write) s.point ∧
      s.wc ≤ 1 ∧ (s.wc = 1 → s.rc = 0) ∧
      ∀ i m, s.point i = .discounting m → s.counter m ≠ 0 := by
  obtain ⟨s, hrun, hreader, hwriter⟩ : ∃ s, (machine Bool).run (fresh Bool) contention = some s ∧
      s.point false = .inside .read ∧ s.point true = .waiting .write := ⟨_, rfl, rfl, rfl⟩
  have hreach : (machine Bool).Reachable s := Machine.Reachable.run (.start rfl) hrun
  exact ⟨s, hrun, hreader, hwriter, rwMutex_excludes hreach⟩

end RwMutex
end RemoteTable
