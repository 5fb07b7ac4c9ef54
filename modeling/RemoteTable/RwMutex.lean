import Mathlib.Logic.Function.Basic
import RemoteTable.Transition

/-! # The readers/writer lock

`rw_mutex_t`: two counters under `control_mutex`, and one condition variable for
readers and writers alike.  Any number of threads take and release the lock in
matched pairs; `point` says where in `access_man.c` each of them is.

`size_t` wraps below 0 (`sizePred`); a counter never exceeds the number of threads, so
it is not made to wrap above.

The sections under `control_mutex` are cut into steps at every access to a counter.
Only the decrement and the broadcast that follows it are one step: both happen
under the mutex, and no thread can look at either in between.  A thread in
`pthread_cond_wait` may wake up whenever it likes, and then has to take the mutex
again before it tests its condition.
-/
namespace RemoteTable
open Transition

/-- `read_exclusive_…` or `write_exclusive_…`. -/
inductive Mode
  | read
  | write
  deriving DecidableEq, Repr

/-- Where a thread is in the functions of the lock. -/
inductive Point
  /-- Not in the lock: before `…_lock` or after `…_unlock`. -/
  | outside
  /-- At the `pthread_mutex_lock` of `…_lock`. -/
  | entering (m : Mode)
  /-- At the condition of the loop. -/
  | testing (m : Mode)
  /-- In `pthread_cond_wait`, without a notification. -/
  | waiting (m : Mode)
  /-- In `pthread_cond_wait`, awake, about to take `control_mutex` again. -/
  | woken (m : Mode)
  /-- Past the loop, before `rc++` or `wc++`. -/
  | counting (m : Mode)
  /-- At the `pthread_mutex_unlock` of `…_lock`. -/
  | releasing (m : Mode)
  /-- `…_lock` has returned. -/
  | inside (m : Mode)
  /-- At the `pthread_mutex_lock` of `…_unlock`. -/
  | leaving (m : Mode)
  /-- Before `rc--` or `wc--`. -/
  | discounting (m : Mode)
  /-- At the `pthread_mutex_unlock` of `…_unlock`. -/
  | exiting (m : Mode)
  deriving DecidableEq, Repr

namespace Point

/-- The thread holds `control_mutex`. -/
def critical : Point → Bool
  | testing _ | counting _ | releasing _ | discounting _ | exiting _ => true
  | outside | entering _ | waiting _ | woken _ | inside _ | leaving _ => false

/-- The thread has counted itself in and not yet out: it is between a lock of mode `m`
and its unlock. -/
def counted (m : Mode) : Point → Bool
  | releasing m' | inside m' | leaving m' | discounting m' => m' = m
  | outside | entering _ | testing _ | waiting _ | woken _ | counting _ | exiting _ => false

/-- What a broadcast does to a thread. -/
def notified : Point → Point
  | waiting m => woken m
  | p => p

@[simp] theorem critical_notified (p : Point) : p.notified.critical = p.critical := by
  cases p <;> rfl

@[simp] theorem counted_notified (m : Mode) (p : Point) : p.notified.counted m = p.counted m := by
  cases p <;> rfl

/-- The point agrees with the condition of the loops: it is false for a thread past the
loop, and true for one that waits un-notified. -/
def Fits (blocked : Mode → Bool) : Point → Prop
  | counting m => blocked m = false
  | waiting m => blocked m = true
  | _ => True

/-- A thread that is not past its loop fits where at least as much is blocked. -/
theorem Fits.mono {b b' : Mode → Bool} {p : Point} (h : p.Fits b) (hp : ∀ m, p ≠ counting m)
    (hb : ∀ m, b m = true → b' m = true) : p.Fits b' := by
  cases p with
  | counting m => exact absurd rfl (hp m)
  | waiting m => exact hb m h
  | _ => trivial

/-- After a broadcast nobody waits un-notified. -/
theorem fits_notified {b : Mode → Bool} {p : Point} (hp : ∀ m, p ≠ counting m) :
    p.notified.Fits b := by
  cases p with
  | counting m => exact absurd rfl (hp m)
  | _ => trivial

end Point

/-- `rw_mutex_t`, with the owner of `control_mutex` and the points of the threads. -/
structure RwMutex (Tid : Type) where
  rc : Nat
  wc : Nat
  owner : Option Tid
  point : Tid → Point

/-- `x--` on `size_t`. -/
def sizePred (x : Nat) : Nat := if x = 0 then 18446744073709551615 else x - 1

/-- What a thread does to the lock. -/
inductive Act
  /-- It calls `read_exclusive_lock` or `write_exclusive_lock`. -/
  | lock (m : Mode)
  /-- It calls the matching `…_unlock`. -/
  | unlock (m : Mode)
  /-- It takes the next step of the call it is in. -/
  | advance
  /-- It wakes up in `pthread_cond_wait` without having been notified. -/
  | wake
  deriving DecidableEq, Repr

namespace RwMutex
variable {Tid : Type}

/-- The lock as `rw_mutex_init` leaves a static `rw_mutex_t`. -/
def fresh (Tid : Type) : RwMutex Tid := ⟨0, 0, none, fun _ => .outside⟩

/-- The counter of a mode. -/
def counter (s : RwMutex Tid) : Mode → Nat
  | .read => s.rc
  | .write => s.wc

/-- The condition of the loop in `…_lock`. -/
def blocked (s : RwMutex Tid) : Mode → Bool
  | .read => 0 < s.wc
  | .write => 0 < s.wc || 0 < s.rc

/-- `rc++` or `wc++`. -/
def count (s : RwMutex Tid) : Mode → RwMutex Tid
  | .read => { s with rc := s.rc + 1 }
  | .write => { s with wc := s.wc + 1 }

/-- `rc--` or `wc--`. -/
def discount (s : RwMutex Tid) : Mode → RwMutex Tid
  | .read => { s with rc := sizePred s.rc }
  | .write => { s with wc := sizePred s.wc }

/-- `pthread_cond_broadcast`. -/
def broadcast (s : RwMutex Tid) : RwMutex Tid := { s with point := fun i => (s.point i).notified }

@[simp] theorem broadcast_rc (s : RwMutex Tid) : s.broadcast.rc = s.rc := rfl
@[simp] theorem broadcast_wc (s : RwMutex Tid) : s.broadcast.wc = s.wc := rfl
@[simp] theorem broadcast_owner (s : RwMutex Tid) : s.broadcast.owner = s.owner := rfl
@[simp] theorem broadcast_point (s : RwMutex Tid) :
    s.broadcast.point = fun i => (s.point i).notified := rfl

@[simp] theorem count_owner (s : RwMutex Tid) (m : Mode) : (s.count m).owner = s.owner := by
  cases m <;> rfl

@[simp] theorem count_point (s : RwMutex Tid) (m : Mode) : (s.count m).point = s.point := by
  cases m <;> rfl

@[simp] theorem discount_owner (s : RwMutex Tid) (m : Mode) : (s.discount m).owner = s.owner := by
  cases m <;> rfl

@[simp] theorem discount_point (s : RwMutex Tid) (m : Mode) : (s.discount m).point = s.point := by
  cases m <;> rfl

section Steps
variable [DecidableEq Tid]

/-- Thread `i` goes to point `p`. -/
def goto (s : RwMutex Tid) (i : Tid) (p : Point) : RwMutex Tid :=
  { s with point := Function.update s.point i p }

/-- Thread `i` takes `control_mutex`, when it is free, and goes to `p`. -/
def take (s : RwMutex Tid) (i : Tid) (p : Point) : Option (RwMutex Tid) :=
  if s.owner.isNone then some { s.goto i p with owner := some i } else none

/-- Thread `i` gives `control_mutex` back and goes to `p`. -/
def drop (s : RwMutex Tid) (i : Tid) (p : Point) : RwMutex Tid := { s.goto i p with owner := none }

/-- The next step of the call thread `i` is in. -/
def advance (s : RwMutex Tid) (i : Tid) : Option (RwMutex Tid) :=
  match s.point i with
  | .entering m => s.take i (.testing m)
  | .testing m => some (if s.blocked m then s.drop i (.waiting m) else s.goto i (.counting m))
  | .woken m => s.take i (.testing m)
  | .counting m => some ((s.count m).goto i (.releasing m))
  | .releasing m => some (s.drop i (.inside m))
  | .leaving m => s.take i (.discounting m)
  | .discounting m => some ((s.discount m).broadcast.goto i (.exiting m))
  | .exiting _ => some (s.drop i .outside)
  | .outside | .waiting _ | .inside _ => none

/-- One step of thread `i`. -/
def step (s : RwMutex Tid) (i : Tid) : Act → Option (RwMutex Tid)
  | .lock m => if s.point i = .outside then some (s.goto i (.entering m)) else none
  | .unlock m => if s.point i = .inside m then some (s.goto i (.leaving m)) else none
  | .advance => s.advance i
  | .wake =>
    match s.point i with
    | .waiting m => some (s.goto i (.woken m))
    | _ => none

/-- The lock under any interleaving of its threads. -/
def machine (Tid : Type) [DecidableEq Tid] : Machine (RwMutex Tid) (Tid × Act) where
  Init s := s = fresh Tid
  step s a := s.step a.1 a.2

section Fields
variable (s : RwMutex Tid) (i : Tid) (p : Point)

@[simp] theorem goto_rc : (s.goto i p).rc = s.rc := rfl
@[simp] theorem goto_wc : (s.goto i p).wc = s.wc := rfl
@[simp] theorem goto_owner : (s.goto i p).owner = s.owner := rfl
@[simp] theorem goto_point : (s.goto i p).point = Function.update s.point i p := rfl
@[simp] theorem drop_rc : (s.drop i p).rc = s.rc := rfl
@[simp] theorem drop_wc : (s.drop i p).wc = s.wc := rfl
@[simp] theorem drop_owner : (s.drop i p).owner = none := rfl
@[simp] theorem drop_point : (s.drop i p).point = Function.update s.point i p := rfl

end Fields

/-! ## What a step can do -/

/-- **The moves of thread `i`**: it goes from one point to another and leaves the
mutex and the counters alone, it takes the mutex, it gives the mutex back, or it
changes a counter while it holds the mutex. -/
inductive Moves (s : RwMutex Tid) (i : Tid) : RwMutex Tid → Prop
  | keep {p : Point} (hcrit : p.critical = (s.point i).critical)
      (hcount : ∀ m, p.counted m = (s.point i).counted m) (hfits : p.Fits s.blocked) :
      Moves s i (s.goto i p)
  | take {p : Point} (hfree : s.owner = none) (hcrit : p.critical = true)
      (hcount : ∀ m, p.counted m = (s.point i).counted m) (hfits : p.Fits s.blocked) :
      Moves s i { s.goto i p with owner := some i }
  | drop {p : Point} (hhold : (s.point i).critical = true) (hcrit : p.critical = false)
      (hcount : ∀ m, p.counted m = (s.point i).counted m) (hfits : p.Fits s.blocked) :
      Moves s i (s.drop i p)
  | count {m : Mode} (hat : s.point i = .counting m) : Moves s i ((s.count m).goto i (.releasing m))
  | discount {m : Mode} (hat : s.point i = .discounting m) :
      Moves s i ((s.discount m).broadcast.goto i (.exiting m))

theorem Moves.of_take {s s' : RwMutex Tid} {i : Tid} {p : Point} (h : s.take i p = some s')
    (hcrit : p.critical = true) (hcount : ∀ m, p.counted m = (s.point i).counted m)
    (hfits : p.Fits s.blocked) : Moves s i s' := by
  obtain ⟨hfree, h⟩ := Option.ite_none_right_eq_some.mp h
  obtain rfl := Option.some.inj h
  exact .take (Option.isNone_iff_eq_none.mp hfree) hcrit hcount hfits

/-- **Inversion of a step.** -/
theorem moves_of_step {s s' : RwMutex Tid} {i : Tid} {a : Act} (h : s.step i a = some s') :
    Moves s i s' := by
  cases a with
  | lock m | unlock m =>
    obtain ⟨hat, h⟩ := Option.ite_none_right_eq_some.mp h
    obtain rfl := Option.some.inj h
    exact .keep (by rw [hat]; rfl) (fun _ => by rw [hat]; rfl) trivial
  | wake =>
    unfold step at h
    cases hat : s.point i with
    | waiting m =>
      rw [hat] at h
      obtain rfl := Option.some.inj h
      exact .keep (by rw [hat]; rfl) (fun _ => by rw [hat]; rfl) trivial
    | _ => simp [hat] at h
  | advance =>
    simp only [step, advance] at h
    cases hat : s.point i with
    | outside | waiting m | inside m => simp [hat] at h
    | entering m | woken m | leaving m =>
      rw [hat] at h
      exact .of_take h rfl (fun _ => by rw [hat]; rfl) trivial
    | testing m =>
      rw [hat] at h
      obtain rfl := Option.some.inj h
      -- the loop ends, or the thread gives the mutex back and waits
      cases hb : s.blocked m with
      | true => exact .drop (by rw [hat]; rfl) rfl (fun _ => by rw [hat]; rfl) hb
      | false => exact .keep (by rw [hat]; rfl) (fun _ => by rw [hat]; rfl) hb
    | counting m =>
      rw [hat] at h
      obtain rfl := Option.some.inj h
      exact .count hat
    | discounting m =>
      rw [hat] at h
      obtain rfl := Option.some.inj h
      exact .discount hat
    | releasing m | exiting m =>
      rw [hat] at h
      obtain rfl := Option.some.inj h
      exact .drop (by rw [hat]; rfl) rfl (fun _ => by rw [hat]; rfl) trivial

/-- What holds of every thread, once thread `i` has gone to `p`. -/
theorem forall_goto {s : RwMutex Tid} {i : Tid} {p : Point} {Q : Tid → Point → Prop} (hi : Q i p)
    (hother : ∀ j, j ≠ i → Q j (s.point j)) : ∀ j, Q j ((s.goto i p).point j) :=
  (Function.forall_update_iff s.point Q).mpr ⟨hi, hother⟩

end Steps

end RwMutex
end RemoteTable
