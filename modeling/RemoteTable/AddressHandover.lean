import RemoteTable.Redundancy
import RemoteTable.Transition

/-! # The watcher and the command loop

`data_watcher` runs in ZooKeeper's thread and `update_rtable_t` in that of the command loop.
They share `server_info_buf` and `new`, and nothing keeps them apart: the watcher overwrites
the buffer and then raises the flag; the loop tests the flag, clears it, and only then reads
the buffer.  Each of these five is a step here, and any order of them is a run.

An address that arrives between the test and the clearing is read all the same: its flag is
lost, but not its bytes.
-/
namespace RemoteTable
open CMem Transition

/-- Where ZooKeeper's thread is. -/
inductive WatcherPoint
  | outside
  /-- In `data_watcher`, after `zoo_wget`. -/
  | fetched
  deriving DecidableEq, Repr

/-- Where the thread of the command loop is. -/
inductive LoopPoint
  | outside
  /-- In `is_new`, which has found the flag raised. -/
  | found
  /-- In `update_rtable_t`, after `is_new` has returned 1. -/
  | cleared
  /-- `rtable_connect` has failed and `main` has returned. -/
  | ended
  deriving DecidableEq, Repr

/-- The variables both threads share, where each of them is, and the address that the loop
has passed to `rtable_connect` last. -/
structure Handover where
  g : Redundancy
  watcher : WatcherPoint
  loop : LoopPoint
  last : Option Block
  deriving DecidableEq

/-- The steps of both threads. -/
inductive HandoverStep
  /-- `data_watcher` calls `zoo_wget` while ZooKeeper is as given. -/
  | fetch (zk : ZooKeeper)
  /-- `data_watcher` sets `new` and returns. -/
  | raise
  /-- `is_new` tests `new`. -/
  | test
  /-- `is_new` clears `new`. -/
  | clear
  /-- `update_rtable_t` reads the buffer for `rtable_connect`, which succeeds or not. -/
  | connect (succeeds : Bool)
  deriving DecidableEq

namespace Handover

section Steps
variable (zooWget : ZooWget)

/-- One step of one of the threads. -/
def step (s : Handover) : HandoverStep → Option Handover
  | .fetch zk =>
    match s.watcher, fetch zooWget s.g zk with
    | .outside, .ok (g, _) => some { s with g := g, watcher := .fetched }
    | _, _ => none
  | .raise =>
    match s.watcher with
    | .fetched => some { s with g := { s.g with new := true }, watcher := .outside }
    | .outside => none
  | .test =>
    match s.loop with
    | .outside => some (if s.g.new then { s with loop := .found } else s)
    | _ => none
  | .clear =>
    match s.loop with
    | .found => some { s with g := { s.g with new := false }, loop := .cleared }
    | _ => none
  | .connect succeeds =>
    match s.loop, s.g.serverInfoBuf with
    | .cleared, some buf =>
      some { s with loop := if succeeds then .outside else .ended, last := some buf }
    | _, _ => none

/-- Both threads from the return of `start_watcher` on. -/
def machine : Machine Handover HandoverStep where
  Init s := (∃ block junk zk zk',
      startWatcher zooWget block junk Redundancy.init zk = .ok (0, s.g, zk')) ∧
    s.watcher = .outside ∧ s.loop = .outside ∧ s.last = none
  step := step zooWget

end Steps

/-! ## The steps are those of the functions -/

section Calls
variable {zooWget : ZooWget} {s : Handover} {g : Redundancy}

/-- A call of `data_watcher` that nobody interrupts. -/
theorem run_dataWatcher {zk zk' : ZooKeeper} (hw : s.watcher = .outside)
    (h : dataWatcher zooWget s.g zk .changed true = .ok (g, zk')) :
    (machine zooWget).run s [.fetch zk, .raise] = some { s with g := g } := by
  obtain ⟨⟨g₁, zk₁⟩, hfetch, h⟩ := bind_eq_ok.mp h
  obtain ⟨rfl, -⟩ := Prod.mk.inj (Except.ok.inj h)
  simp only [Machine.run, machine, step, hw, hfetch, Option.bind_some]

/-- A call of `update_rtable_t` that nobody interrupts. -/
theorem run_updateRtableT {connects : Block → Bool} {code : Int} {passed : Option Block}
    (hl : s.loop = .outside) (h : updateRtableT connects s.g = .ok (code, passed, g)) :
    ∃ steps, (machine zooWget).run s steps =
      some { s with
        g := g
        loop := if code = 0 then .ended else .outside
        last := passed.or s.last } := by
  cases hnew : s.g.new with
  | false =>
    simp only [updateRtableT, isNew, hnew, Bool.false_eq_true, if_false] at h
    obtain ⟨rfl, hrest⟩ := Prod.mk.inj (Except.ok.inj h)
    obtain ⟨rfl, rfl⟩ := Prod.mk.inj hrest
    refine ⟨[.test], ?_⟩
    have htest : s.step zooWget .test = some s := by
      simp only [step, hl, hnew, Bool.false_eq_true, if_false]
    simp only [Machine.run, machine, htest, Option.bind_some, Option.none_or]
    rw [if_neg (by decide), ← hl]
  | true =>
    cases hbuf : s.g.serverInfoBuf with
    | none =>
      simp only [updateRtableT, isNew, hnew, if_true, hbuf] at h
      cases h
    | some buf =>
      simp only [updateRtableT, isNew, hnew, if_true, hbuf, deref_some, ok_bind, pure_eq_ok] at h
      obtain ⟨rfl, hrest⟩ := Prod.mk.inj (Except.ok.inj h)
      obtain ⟨rfl, rfl⟩ := Prod.mk.inj hrest
      refine ⟨[.test, .clear, .connect (connects buf)], ?_⟩
      cases hc : connects buf <;> simp [Machine.run, machine, step, hl, hnew, hbuf]

end Calls

/-! ## What every interleaving keeps -/

/-- **No address is lost**: a flag that was found is still up, and where the flag is down,
with neither thread between the buffer and the flag, the loop has read what is there. -/
structure Inv (s : Handover) : Prop where
  ready : s.g.Ready
  found : s.loop = .found → s.g.new = true
  handed : s.g.new = false → s.watcher = .outside → s.loop ≠ .cleared →
    s.last = s.g.serverInfoBuf

section Invariant
variable {zooWget : ZooWget} {s s' : Handover}

theorem inv_init (hz : zooWget.Documented) (h : (machine zooWget).Init s) : Inv s := by
  obtain ⟨⟨block, junk, zk, zk', hstart⟩, -, hl, -⟩ := h
  obtain ⟨v, hnode⟩ := startWatcher_found hz hstart
  obtain ⟨-, hg⟩ := startWatcher_started hz hnode hstart
  constructor
  · rw [hg]
    exact ⟨_, _, rfl, rfl, by simp⟩
  · intro hfound
    rw [hl] at hfound
    cases hfound
  · intro hnew
    rw [hg] at hnew
    cases hnew

/-- The watcher overwrites the buffer: the flag has yet to be raised. -/
theorem Inv.fetch (hz : zooWget.Documented) (hi : Inv s) {zk : ZooKeeper}
    (h : s.step zooWget (.fetch zk) = some s') : Inv s' := by
  obtain ⟨g, hfetch, hready⟩ := hi.ready.fetch hz zk
  cases hw : s.watcher with
  | fetched =>
    simp only [step, hw] at h
    cases h
  | outside =>
    have hnew := fetch_new hfetch
    simp only [step, hw, hfetch, Option.some.injEq] at h
    obtain rfl := h
    constructor
    · exact hready
    · intro hfound
      exact hnew.trans (hi.found hfound)
    · intro _ hout
      cases hout

/-- The watcher raises the flag. -/
theorem Inv.raise (hi : Inv s) (h : s.step zooWget .raise = some s') : Inv s' := by
  cases hw : s.watcher with
  | outside =>
    simp only [step, hw] at h
    cases h
  | fetched =>
    simp only [step, hw, Option.some.injEq] at h
    obtain rfl := h
    constructor
    · exact hi.ready
    · intro _
      rfl
    · intro hdown
      cases hdown

/-- The loop tests the flag: it goes on only when it is up. -/
theorem Inv.test (hi : Inv s) (h : s.step zooWget .test = some s') : Inv s' := by
  cases hl : s.loop with
  | found | cleared | ended =>
    simp only [step, hl] at h
    cases h
  | outside =>
    simp only [step, hl, Option.some.injEq] at h
    cases hnew : s.g.new with
    | false =>
      rw [hnew, if_neg (by decide)] at h
      exact h ▸ hi
    | true =>
      rw [hnew, if_pos rfl] at h
      obtain rfl := h
      constructor
      · exact hi.ready
      · intro _
        exact hnew
      · intro hdown
        rw [hnew] at hdown
        cases hdown

/-- The loop clears the flag: it has yet to read the buffer. -/
theorem Inv.clear (hi : Inv s) (h : s.step zooWget .clear = some s') : Inv s' := by
  cases hl : s.loop with
  | outside | cleared | ended =>
    simp only [step, hl] at h
    cases h
  | found =>
    simp only [step, hl, Option.some.injEq] at h
    obtain rfl := h
    constructor
    · exact hi.ready
    · intro hfound
      cases hfound
    · intro _ _ hread
      exact absurd rfl hread

/-- The loop reads the buffer: what it passes on is what is there. -/
theorem Inv.connect (hi : Inv s) {succeeds : Bool}
    (h : s.step zooWget (.connect succeeds) = some s') : Inv s' := by
  cases hl : s.loop with
  | outside | found | ended =>
    simp only [step, hl] at h
    cases h
  | cleared =>
    cases hbuf : s.g.serverInfoBuf with
    | none =>
      simp only [step, hl, hbuf] at h
      cases h
    | some buf =>
      simp only [step, hl, hbuf, Option.some.injEq] at h
      obtain rfl := h
      constructor
      · exact hi.ready
      · intro hfound
        cases succeeds <;> cases hfound
      · intro _ _ _
        exact hbuf.symm

theorem Inv.step (hz : zooWget.Documented) (hi : Inv s) {a : HandoverStep}
    (h : s.step zooWget a = some s') : Inv s' := by
  cases a with
  | fetch zk => exact hi.fetch hz h
  | raise => exact hi.raise h
  | test => exact hi.test h
  | clear => exact hi.clear h
  | connect succeeds => exact hi.connect h

theorem inv_reachable (hz : zooWget.Documented) (h : (machine zooWget).Reachable s) : Inv s :=
  h.invariant (fun _ => inv_init hz) fun _ _ _ _ hi ha => hi.step hz ha

/-- The watcher never writes past the buffer: outside of `data_watcher` it can always call
`zoo_wget`. -/
theorem fetch_enabled (hz : zooWget.Documented) (h : (machine zooWget).Reachable s)
    (hw : s.watcher = .outside) (zk : ZooKeeper) :
    ∃ s', s.step zooWget (.fetch zk) = some s' := by
  obtain ⟨g, hfetch, -⟩ := (inv_reachable hz h).ready.fetch hz zk
  refine ⟨{ s with g := g, watcher := .fetched }, ?_⟩
  simp only [Handover.step, hw, hfetch]

/-- **No change of the address is lost**: in every state of every run in which neither
thread is inside its function and the flag is down, the loop has passed on what is in the
buffer. -/
theorem last_is_current (hz : zooWget.Documented) (h : (machine zooWget).Reachable s)
    (hw : s.watcher = .outside) (hl : s.loop = .outside ∨ s.loop = .ended)
    (hnew : s.g.new = false) :
    ∃ buf, s.g.serverInfoBuf = some buf ∧ s.last = some buf := by
  have hi := inv_reachable hz h
  obtain ⟨buf, _, hbuf, -⟩ := hi.ready
  have hread : s.loop ≠ .cleared := by
    rcases hl with hl | hl <;> rw [hl] <;> decide
  exact ⟨buf, hbuf, (hi.handed hnew hw hread).trans hbuf⟩

end Invariant

/-- The state after `start_watcher`, with a node of one byte and a block of zeros. -/
def started : Handover :=
  ⟨⟨true, 1, true, true, some (49 :: List.replicate 199 0)⟩, .outside, .outside, none⟩

/-- The state in which the loop has read another byte. -/
def swallowed : Handover :=
  ⟨⟨true, 1, true, false, some (50 :: List.replicate 199 0)⟩, .outside, .outside,
    some (50 :: List.replicate 199 0)⟩

/-- **The interleaving that swallows a flag**: the address changes between the test and the
clearing, and is read all the same. -/
theorem swallowed_is_current :
    (machine plainWget).Reachable swallowed ∧
      ∃ buf, swallowed.g.serverInfoBuf = some buf ∧ swallowed.last = some buf := by
  have hstart :
      startWatcher plainWget true (fun _ => 0) Redundancy.init ⟨some [49], false, []⟩ =
        .ok (0, started.g, ⟨some [49], true, []⟩) := by decide +kernel
  have hrun : (machine plainWget).run started
      [.test, .fetch ⟨some [50], true, []⟩, .raise, .clear, .connect true] =
      some swallowed := by decide +kernel
  have hinit : (machine plainWget).Init started := ⟨⟨true, _, _, _, hstart⟩, rfl, rfl, rfl⟩
  have hreach := (Machine.Reachable.start hinit).run hrun
  exact ⟨hreach, last_is_current plainWget_documented hreach rfl (Or.inl rfl) rfl⟩

end Handover
end RemoteTable
