import RemoteTable.RwExclusion
import RemoteTable.Message

/-! # The locks of the skeleton

Every thread of the server runs `invoke` over and over, on requests of its own, with
two locks for all of them: `table_mutex` and `stats_mutex`.  `invokePath` lists what
a call of `invoke` does to the locks, and the work it does under them, in the order
of the source; the pthread calls are taken to succeed.

A thread holds one lock at a time.  That is the whole reason why the server does not
deadlock: a thread inside a lock can always go on, and when nobody is inside nobody
waits.
-/
namespace RemoteTable
open Transition Tally

/-- The two locks. -/
inductive LockId
  /-- `table_mutex`. -/
  | table
  /-- `stats_mutex`. -/
  | stats
  deriving DecidableEq, Repr

/-- What a thread does to the data under a lock. -/
inductive Work
  /-- The table function looks its entries up. -/
  | lookup
  /-- The table function changes the table, and the reply is built. -/
  | update
  /-- `update_stats`. -/
  | count
  /-- The copy of the statistics. -/
  | copy
  deriving DecidableEq, Repr

/-- The instructions of `invoke`, as far as other threads can tell. -/
inductive Instr
  | acquire (l : LockId) (m : Mode)
  | release (l : LockId) (m : Mode)
  | work (w : Work)
  deriving DecidableEq, Repr

/-- A branch on the table. -/
def tablePath (m : Mode) : List Instr :=
  [.acquire .table m, .work .lookup, .work .update, .release .table m]

/-- What follows the branches. -/
def statsPath (opCode : Int) : List Instr :=
  if ¬ (opCode > 60 ∨ opCode < 10) then
    [.acquire .stats .write, .work .count, .release .stats .write]
  else []

/-- The branches on the opcode; `block` says whether `malloc` has one for the
statistics, and `none` is the last branch, `return -1`. -/
def branchPath (opCode : Int) (block : Bool) : Option (List Instr) :=
  if opCode = opSize then some (tablePath .read)
  else if opCode = opDel then some (tablePath .write)
  else if opCode = opGet then some (tablePath .read)
  else if opCode = opPut then some (tablePath .write)
  else if opCode = opGetKeys then some (tablePath .read)
  else if opCode = opPrint then some (tablePath .read)
  else if opCode = opStats then
    some (if block then [.acquire .stats .read, .work .copy, .release .stats .read] else [])
  else none

/-- The path of `invoke` through the locks. -/
def invokePath (opCode : Int) (block : Bool) : List Instr :=
  match branchPath opCode block with
  | none => []
  | some path => path ++ statsPath opCode

/-! ## Paths that close what they open -/

/-- What a thread holds: one lock, in one mode, or nothing. -/
abbrev Held := Option (LockId × Mode)

/-- A path that opens one lock at a time, closes it in the same mode and ends with
nothing held. -/
def Balanced : Held → List Instr → Prop
  | h, [] => h = none
  | h, .work _ :: path => Balanced h path
  | h, .acquire l m :: path => h = none ∧ Balanced (some (l, m)) path
  | h, .release l m :: path => h = some (l, m) ∧ Balanced none path

theorem balanced_append {path : List Instr} (hrest : Balanced none path) :
    ∀ (h : Held) (first : List Instr), Balanced h first → Balanced h (first ++ path)
  | _, [], hh => by
    rw [show _ = none from hh]
    exact hrest
  | h, .work _ :: first, hfirst => balanced_append hrest h first hfirst
  | _, .acquire _ _ :: first, ⟨hh, hfirst⟩ => ⟨hh, balanced_append hrest _ first hfirst⟩
  | _, .release _ _ :: first, ⟨hh, hfirst⟩ => ⟨hh, balanced_append hrest _ first hfirst⟩

theorem tablePath_balanced (m : Mode) : Balanced none (tablePath m) := ⟨rfl, rfl, rfl⟩

theorem statsPath_balanced (opCode : Int) : Balanced none (statsPath opCode) := by
  unfold statsPath
  split
  · exact ⟨rfl, rfl, rfl⟩
  · rfl

theorem branchPath_balanced {opCode : Int} {block : Bool} {path : List Instr}
    (h : branchPath opCode block = some path) : Balanced none path := by
  unfold branchPath at h
  split_ifs at h <;> obtain rfl := Option.some.inj h
  all_goals first | exact tablePath_balanced _ | exact ⟨rfl, rfl, rfl⟩ | exact rfl

/-- **Every path through `invoke` releases what it acquires.** -/
theorem invokePath_balanced (opCode : Int) (block : Bool) :
    Balanced none (invokePath opCode block) := by
  unfold invokePath
  cases h : branchPath opCode block with
  | none => rfl
  | some path =>
    exact balanced_append (statsPath_balanced opCode) none path (branchPath_balanced h)

/-! ## The machine -/

/-- The locks, and what is left of the call of `invoke` each thread is in. -/
structure InvokeState (Tid : Type) where
  lock : LockId → RwMutex Tid
  todo : Tid → Option (List Instr)

/-- The steps of the server. -/
inductive InvokeEvent (Tid : Type)
  /-- Thread `i` calls `invoke`. -/
  | start (i : Tid) (opCode : Int) (block : Bool)
  /-- Thread `i` takes its next step. -/
  | run (i : Tid)
  /-- Thread `i` wakes up in `pthread_cond_wait` on lock `l`, for no reason. -/
  | wake (i : Tid) (l : LockId)

/-- The thread that takes the step. -/
def InvokeEvent.thread {Tid : Type} : InvokeEvent Tid → Tid
  | .start i _ _ | .run i | .wake i _ => i

namespace InvokeState
variable {Tid : Type}

/-- No thread is in `invoke`, and both locks are as `table_skel_init` leaves them. -/
def fresh (Tid : Type) : InvokeState Tid := ⟨fun _ => .fresh Tid, fun _ => none⟩

/-- Lock `l` becomes `r`. -/
def setLock (s : InvokeState Tid) (l : LockId) (r : RwMutex Tid) : InvokeState Tid :=
  { s with lock := Function.update s.lock l r }

@[simp] theorem setLock_todo (s : InvokeState Tid) (l : LockId) (r : RwMutex Tid) :
    (s.setLock l r).todo = s.todo := rfl

@[simp] theorem setLock_lock (s : InvokeState Tid) (l : LockId) (r : RwMutex Tid) :
    (s.setLock l r).lock = Function.update s.lock l r := rfl

variable [DecidableEq Tid]

/-- Thread `i` has `t` left to do. -/
def goOn (s : InvokeState Tid) (i : Tid) (t : Option (List Instr)) : InvokeState Tid :=
  { s with todo := Function.update s.todo i t }

@[simp] theorem goOn_todo (s : InvokeState Tid) (i : Tid) (t : Option (List Instr)) :
    (s.goOn i t).todo = Function.update s.todo i t := rfl

@[simp] theorem goOn_lock (s : InvokeState Tid) (i : Tid) (t : Option (List Instr)) :
    (s.goOn i t).lock = s.lock := rfl

/-- Thread `i` takes a step of lock `l`. -/
def onLock (s : InvokeState Tid) (i : Tid) (l : LockId) (a : Act) : Option (InvokeState Tid) :=
  ((s.lock l).step i a).map (s.setLock l)

/-- Thread `i` takes a step of its next instruction; `rest` is what follows it.  A call
on a lock takes several steps, and the instruction is done when the call returns. -/
def runInstr (s : InvokeState Tid) (i : Tid) (rest : List Instr) : Instr → Option (InvokeState Tid)
  | .work _ => some (s.goOn i (some rest))
  | .acquire l m =>
    match (s.lock l).point i with
    | .outside => s.onLock i l (.lock m)
    | .inside _ => some (s.goOn i (some rest))
    | _ => s.onLock i l .advance
  | .release l m =>
    match (s.lock l).point i with
    | .inside _ => s.onLock i l (.unlock m)
    | .outside => some (s.goOn i (some rest))
    | _ => s.onLock i l .advance

/-- One step of the server.  A thread that has nothing left to do returns. -/
def step (s : InvokeState Tid) : InvokeEvent Tid → Option (InvokeState Tid)
  | .start i opCode block =>
    match s.todo i with
    | none => some (s.goOn i (some (invokePath opCode block)))
    | some _ => none
  | .run i =>
    match s.todo i with
    | none => none
    | some [] => some (s.goOn i none)
    | some (instr :: rest) => s.runInstr i rest instr
  | .wake i l => s.onLock i l .wake

/-- The server under any interleaving of its threads. -/
def machine (Tid : Type) [DecidableEq Tid] : Machine (InvokeState Tid) (InvokeEvent Tid) where
  Init s := s = fresh Tid
  step := step

/-- **Inversion of a step**: it changes what its thread has left to do, or it is a step
of that thread on one lock. -/
theorem step_cases {s s' : InvokeState Tid} {e : InvokeEvent Tid} (h : s.step e = some s') :
    (∃ t, s' = s.goOn e.thread t) ∨
      ∃ l a r, (s.lock l).step e.thread a = some r ∧ s' = s.setLock l r := by
  have hlock : ∀ {i l a}, s.onLock i l a = some s' →
      ∃ l a r, (s.lock l).step i a = some r ∧ s' = s.setLock l r := by
    intro i l a hact
    obtain ⟨r, hr, rfl⟩ := Option.map_eq_some_iff.mp hact
    exact ⟨l, a, r, hr, rfl⟩
  have hgo : ∀ {i t}, some (s.goOn i t) = some s' → ∃ t, s' = s.goOn i t :=
    fun h => ⟨_, (Option.some.inj h).symm⟩
  cases e with
  | start i opCode block =>
    simp only [step] at h
    split at h
    · exact Or.inl (hgo h)
    · cases h
  | wake i l => exact Or.inr (hlock h)
  | run i =>
    simp only [step] at h
    split at h
    · cases h
    · exact Or.inl (hgo h)
    · rename_i instr rest _
      cases instr with
      | work w => exact Or.inl (hgo h)
      | acquire l m | release l m =>
        simp only [runInstr] at h
        split at h
        all_goals first | exact Or.inl (hgo h) | exact Or.inr (hlock h)

/-- What a call of `invoke` starts with. -/
theorem todo_of_start {s s' : InvokeState Tid} {i : Tid} {opCode : Int} {block : Bool}
    (h : s.step (.start i opCode block) = some s') :
    s.todo i = none ∧ s'.todo = Function.update s.todo i (some (invokePath opCode block)) := by
  simp only [step] at h
  split at h
  · rename_i htodo
    obtain rfl := Option.some.inj h
    exact ⟨htodo, rfl⟩
  · cases h

/-- What is left after a step: all of it, in the middle of a call on a lock, or what
follows the instruction. -/
theorem todo_of_run {s s' : InvokeState Tid} {i : Tid} {instr : Instr} {rest : List Instr}
    (htodo : s.todo i = some (instr :: rest)) (h : s.step (.run i) = some s') :
    ((∀ w, instr ≠ .work w) ∧ s'.todo = s.todo) ∨
      s'.todo = Function.update s.todo i (some rest) := by
  have hlock : ∀ {l a}, s.onLock i l a = some s' → s'.todo = s.todo := by
    intro l a hact
    obtain ⟨r, -, rfl⟩ := Option.map_eq_some_iff.mp hact
    rfl
  have hgo : some (s.goOn i (some rest)) = some s' →
      s'.todo = Function.update s.todo i (some rest) := by
    intro hgo
    obtain rfl := Option.some.inj hgo
    rfl
  simp only [step, htodo] at h
  cases instr with
  | work w => exact Or.inr (hgo h)
  | acquire l m | release l m =>
    simp only [runInstr] at h
    split at h
    all_goals first | exact Or.inr (hgo h) | exact Or.inl ⟨nofun, hlock h⟩

/-- A call of `invoke` that has nothing left to do returns. -/
theorem todo_of_return {s s' : InvokeState Tid} {i : Tid} (htodo : s.todo i = some [])
    (h : s.step (.run i) = some s') : s'.todo = Function.update s.todo i none := by
  simp only [step, htodo] at h
  obtain rfl := Option.some.inj h
  rfl

theorem todo_of_wake {s s' : InvokeState Tid} {i : Tid} {l : LockId}
    (h : s.step (.wake i l) = some s') : s'.todo = s.todo := by
  obtain ⟨r, -, rfl⟩ := Option.map_eq_some_iff.mp h
  rfl

/-- **Each lock of the server runs as a lock by itself.** -/
theorem projects_lock (l : LockId) :
    (machine Tid).Projects (RwMutex.machine Tid) fun s => s.lock l where
  init := by
    rintro _ rfl
    rfl
  step s e s' h := by
    rcases step_cases h with ⟨t, rfl⟩ | ⟨l', a, r, hr, rfl⟩
    · exact Or.inl rfl
    · by_cases hl : l = l'
      · subst hl
        refine Or.inr ⟨(e.thread, a), ?_⟩
        rw [setLock_lock, Function.update_self]
        exact hr
      · exact Or.inl (Function.update_of_ne hl _ _)

end InvokeState
end RemoteTable
