import RemoteTable.Redundancy

/-! # How long the client watches the node

A watch is triggered once.  `data_watcher` leaves a new one by reading the value again, so
the client goes on watching as long as every event it handles is a change of the value and
the node is still there when it is handled.

When the primary server fails its node is deleted.  `data_watcher` does nothing about that
event, and the address of the next primary server is never noticed.
-/
namespace RemoteTable
open CMem

/-- What happens to the node, and the delivery of an event to `data_watcher`. -/
inductive NodeStep
  | set (v : List UInt8)
  | delete
  | create (v : List UInt8)
  | handle
  deriving DecidableEq

section Runs
variable (zooWget : ZooWget)

/-- One step. -/
def nodeStep (g : Redundancy) (zk : ZooKeeper) : NodeStep → Exec (Redundancy × ZooKeeper)
  | .set v => .ok (g, zk.set v)
  | .delete => .ok (g, zk.delete)
  | .create v => .ok (g, zk.create v)
  | .handle => handle zooWget g zk

/-- The next change of the node will be noticed, or one still has to be handled. -/
def Noticed (zk : ZooKeeper) : Prop := zk.armed = true ∨ zk.events ≠ []

instance (zk : ZooKeeper) : Decidable (Noticed zk) := inferInstanceAs (Decidable (_ ∨ _))

/-- **The client never stops watching**: every step is defined, and in every state the node
is watched or an event is still to be handled. -/
def StaysNoticed : Redundancy → ZooKeeper → List NodeStep → Prop
  | _, zk, [] => Noticed zk
  | g, zk, step :: steps => Noticed zk ∧
      ∃ g' zk', nodeStep zooWget g zk step = .ok (g', zk') ∧ StaysNoticed g' zk' steps

/-- The condition on a step: an event that is handled tells of a change, and the node
exists. -/
def EventMeets (zk : ZooKeeper) : NodeStep → Prop
  | .handle => ∀ e ∈ zk.events.head?, e = .changed ∧ zk.node ≠ none
  | .set _ | .delete | .create _ => True

/-- Every step of the run meets its condition. -/
def EventsMeet : Redundancy → ZooKeeper → List NodeStep → Prop
  | _, _, [] => True
  | g, zk, step :: steps => EventMeets zk step ∧
      ∀ g' zk', nodeStep zooWget g zk step = .ok (g', zk') → EventsMeet g' zk' steps

end Runs

/-- **A watch and its event exclude each other**: one is armed and nothing is to be handled,
or one event is to be handled and none is armed. -/
def OneWatch (zk : ZooKeeper) : Prop :=
  (zk.armed = true ∧ zk.events = []) ∨ (zk.armed = false ∧ ∃ e, zk.events = [e])

section Step
variable {zooWget : ZooWget} {g g' : Redundancy} {zk zk' : ZooKeeper}

theorem OneWatch.noticed (h : OneWatch zk) : Noticed zk := by
  rcases h with ⟨harmed, -⟩ | ⟨-, e, he⟩
  · exact Or.inl harmed
  · exact Or.inr (by simp [he])

/-- A trigger turns the watch into an event. -/
theorem OneWatch.trigger (h : OneWatch zk) (e : WatchEvent) : OneWatch (zk.trigger e) := by
  unfold ZooKeeper.trigger
  rcases h with ⟨harmed, hnone⟩ | ⟨harmed, hone⟩
  · rw [if_pos harmed]
    exact Or.inr ⟨rfl, e, by simp [hnone]⟩
  · rw [if_neg (by simp [harmed])]
    exact Or.inr ⟨harmed, hone⟩

/-- What happens to the node keeps that, whatever it is. -/
theorem OneWatch.change (h : OneWatch zk) {step : NodeStep} (hs : step ≠ .handle) :
    ∃ zk', nodeStep zooWget g zk step = .ok (g, zk') ∧ OneWatch zk' := by
  cases step with
  | set v =>
    refine ⟨_, rfl, ?_⟩
    unfold ZooKeeper.set
    split
    · exact h
    · have hset : OneWatch { zk with node := some v } := h
      exact hset.trigger .changed
  | delete =>
    refine ⟨_, rfl, ?_⟩
    unfold ZooKeeper.delete
    split
    · exact h
    · have hdeleted : OneWatch { zk with node := none } := h
      exact hdeleted.trigger .deleted
  | create v =>
    refine ⟨_, rfl, ?_⟩
    unfold ZooKeeper.create
    split
    · exact h
    · exact h
  | handle => exact absurd rfl hs

/-- An event that meets the condition is answered with a new watch; any other one is
handled and leaves none. -/
theorem OneWatch.handle (hz : zooWget.Documented) (h : OneWatch zk) (hg : g.Ready) :
    ∃ g' zk', handle zooWget g zk = .ok (g', zk') ∧ g'.Ready ∧
      (EventMeets zk .handle → OneWatch zk') ∧ (¬ EventMeets zk .handle → ¬ Noticed zk') := by
  rcases h with ⟨harmed, hnone⟩ | ⟨harmed, e, hone⟩
  · refine ⟨g, zk, by rw [RemoteTable.handle, hnone], hg, fun _ => Or.inl ⟨harmed, hnone⟩, ?_⟩
    intro hfails
    exact absurd (by simp [EventMeets, hnone]) hfails
  · have hmeets : EventMeets zk .handle ↔ e = .changed ∧ zk.node ≠ none := by
      simp [EventMeets, hone]
    rw [hmeets]
    cases e with
    | deleted =>
      refine ⟨g, { zk with events := [] }, by rw [RemoteTable.handle, hone]; rfl, hg, ?_, ?_⟩
      · rintro ⟨hchanged, -⟩
        cases hchanged
      · rintro - (harm | hev)
        · rw [harmed] at harm
          cases harm
        · exact hev rfl
    | changed =>
      obtain ⟨g', hfetch, hg'⟩ := hg.fetch hz { zk with events := [] }
      refine ⟨{ g' with new := true },
        { zk with armed := zk.armed || zk.node.isSome, events := [] }, ?_, hg', ?_, ?_⟩
      · rw [RemoteTable.handle, hone]
        simp only [dataWatcher, if_true, hfetch, ok_bind, pure_eq_ok]
      · rintro ⟨-, hnode⟩
        have hsome := Option.isSome_iff_ne_none.mpr hnode
        exact Or.inl ⟨by simp [hsome], rfl⟩
      · intro hfails
        have hnode : zk.node = none := by
          by_contra hne
          exact hfails ⟨rfl, hne⟩
        simp [Noticed, harmed, hnode]

end Step

/-! ## Whole runs -/

/-- From any state with one watch. -/
theorem OneWatch.stays_iff {zooWget : ZooWget} (hz : zooWget.Documented) {g : Redundancy}
    {zk : ZooKeeper} {steps : List NodeStep} (h : OneWatch zk) (hg : g.Ready) :
    StaysNoticed zooWget g zk steps ↔ EventsMeet zooWget g zk steps := by
  induction steps generalizing g zk with
  | nil => exact iff_of_true h.noticed trivial
  | cons step steps ih =>
    have hstep : ∃ g' zk', nodeStep zooWget g zk step = .ok (g', zk') ∧ g'.Ready ∧
        (EventMeets zk step → OneWatch zk') ∧ (¬ EventMeets zk step → ¬ Noticed zk') := by
      by_cases hs : step = .handle
      · subst hs
        exact h.handle hz hg
      · obtain ⟨zk', hrun, hone⟩ : ∃ zk', nodeStep zooWget g zk step = .ok (g, zk') ∧ OneWatch zk' :=
          h.change hs
        refine ⟨g, zk', hrun, hg, fun _ => hone, fun hfails => absurd ?_ hfails⟩
        cases step with
        | handle => exact absurd rfl hs
        | _ => trivial
    obtain ⟨g₁, zk₁, hrun, hg₁, hkeeps, hloses⟩ := hstep
    constructor
    · rintro ⟨-, g', zk', hrun', hrest⟩
      obtain ⟨rfl, rfl⟩ := Prod.mk.inj (Except.ok.inj (hrun.symm.trans hrun'))
      have hm : EventMeets zk step := by
        by_contra hfails
        refine hloses hfails ?_
        cases steps with
        | nil => exact hrest
        | cons _ _ => exact hrest.1
      refine ⟨hm, fun g' zk' hrun' => ?_⟩
      obtain ⟨rfl, rfl⟩ := Prod.mk.inj (Except.ok.inj (hrun.symm.trans hrun'))
      exact (ih (hkeeps hm) hg₁).mp hrest
    · rintro ⟨hm, hrest⟩
      exact ⟨h.noticed, g₁, zk₁, hrun, (ih (hkeeps hm) hg₁).mpr (hrest _ _ hrun)⟩

/-- **The client never stops watching exactly when every event it handles is a change of a
node that still exists**, in every run after `start_watcher` has returned 0. -/
theorem stays_noticed_iff (zooWget : ZooWget) (hz : zooWget.Documented) (block : Bool)
    (junk : Nat → UInt8) (node : Option (List UInt8)) (g : Redundancy) (zk : ZooKeeper)
    (hstart : startWatcher zooWget block junk Redundancy.init ⟨node, false, []⟩ = .ok (0, g, zk))
    (steps : List NodeStep) :
    StaysNoticed zooWget g zk steps ↔ EventsMeet zooWget g zk steps := by
  obtain ⟨v, hnode⟩ := startWatcher_found hz hstart
  obtain ⟨rfl, rfl⟩ := startWatcher_started hz hnode hstart
  exact OneWatch.stays_iff hz (Or.inl ⟨rfl, rfl⟩) ⟨_, _, rfl, rfl, by simp⟩

/-- The variables after `start_watcher`, with a node of one byte and a block of zeros. -/
def watching : Redundancy := ⟨true, 1, true, true, some (49 :: List.replicate 199 0)⟩

/-- The theorem at a run with one change. -/
theorem stays_noticed_iff_changed :
    StaysNoticed plainWget watching ⟨some [49], true, []⟩ [.set [50], .handle] ↔
      EventsMeet plainWget watching ⟨some [49], true, []⟩ [.set [50], .handle] :=
  stays_noticed_iff plainWget plainWget_documented true (fun _ => 0) (some [49]) _ _ (by decide +kernel) _

/-- **A fail-over**: the node is deleted, that event is handled, and when the node is there
again nobody watches it. -/
theorem failover_not_noticed :
    startWatcher plainWget true (fun _ => 0) Redundancy.init ⟨some [49], false, []⟩ =
        .ok (0, watching, ⟨some [49], true, []⟩) ∧
      ¬ StaysNoticed plainWget watching ⟨some [49], true, []⟩ [.delete, .handle, .create [50]] := by
  refine ⟨by decide +kernel, ?_⟩
  rintro ⟨-, g₁, zk₁, hdelete, -, g₂, zk₂, hhandle, hlost, -⟩
  obtain ⟨rfl, rfl⟩ := Prod.mk.inj (Except.ok.inj hdelete)
  obtain ⟨rfl, rfl⟩ := Prod.mk.inj (Except.ok.inj hhandle)
  exact absurd hlost (by decide)

end RemoteTable
