import Mathlib.Algebra.BigOperators.Fin
import RemoteTable.RequestOutcome
import RemoteTable.RunningMean

/-! # Whole runs of the statistics

Each call of `invoke` updates the statistics once, at its end and under the write lock of
`stats_mutex`, with the opcode it was called with.  A run is the sequence of completed
calls in the order in which they held that lock; the table a call meets is arbitrary, since
other calls may have changed it in any way.

The opcodes that have a branch and those that pass the range test agree on exactly the six
that have a counter.  So every counted call adds 1 to `total` and to one counter, and the
running mean is the mean of the measured times.
-/
namespace RemoteTable
open CMem RunningMean

/-- A completed call: the opcode of its request, the time measured, the value returned, and
what `stats->total` was after its increment, if the call came to it. -/
structure Call where
  opcode : Int
  ms : Rat
  code : Int
  divisor : Nat

namespace Call

/-- The call returned 0, with a request opcode from 10 to 60. -/
def Counted (c : Call) : Prop := c.code = 0 ∧ 10 ≤ c.opcode ∧ c.opcode ≤ 60

instance (c : Call) : Decidable c.Counted := inferInstanceAs (Decidable (_ ∧ _ ∧ _))

/-- The index into `stats->counter`. -/
def index (c : Call) : Int := c.opcode.tdiv 10 - 1

end Call

/-- What pthread promises: a mutex that was locked can be locked again to release the
write lock. -/
def Env.Releases (env : Env) : Prop := env.writeLock = 0 → env.writeUnlock = 0

/-- The statistics after a run of completed calls, the first one on the statistics the
server starts with. -/
inductive StatsRun : Statistics → List Call → Prop
  | init : StatsRun ⟨0, 0, Vector.replicate 6 0⟩ []
  | step {srv srv' : Server} {env : Env} {msg reply : MessageT} {code : Int} {calls : List Call} :
      StatsRun srv.stats calls → env.Releases → invoke env srv msg = .ok (code, srv', reply) →
      StatsRun srv'.stats (calls ++ [⟨msg.opcode, env.ms, code, uintSucc srv.stats.total⟩])

/-- **The statistics account for the calls.** -/
structure Accounts (stats : Statistics) (calls : List Call) : Prop where
  total : stats.total = calls.countP (fun c => c.Counted)
  counter : ∀ i : Fin 6,
    stats.counter[i] = calls.countP (fun c => c.Counted ∧ c.opcode = 10 * ((i : Int) + 1))
  sum : ∑ i : Fin 6, stats.counter[i] = stats.total
  /-- Every index is one of the array's, and no divisor is 0. -/
  used : ∀ c ∈ calls, c.Counted → (0 ≤ c.index ∧ c.index ≤ 5) ∧ c.divisor ≠ 0
  avg : stats.avg = mean ((calls.filter fun c => c.Counted).map Call.ms)

/-! ## One call -/

section Step
variable {env : Env} {srv srv' : Server} {msg reply : MessageT} {code : Int}

/-- No branch touches the statistics. -/
theorem dispatch_keeps_stats (h : dispatch env srv msg = .ok (some (srv', reply))) :
    srv'.stats = srv.stats := by
  cases branch_of_dispatch h with
  | size | del | get | put | getKeys | print | stats => rfl

/-- **The opcodes that are counted are those of the six counters.** -/
theorem counted_opcode {opcode : Int} (hop : Handled opcode) (hhi : opcode ≤ 60) :
    ∃ i : Fin 6, opcode = 10 * ((i : Int) + 1) := by
  simp only [Handled, List.mem_cons, List.not_mem_nil, or_false] at hop
  rcases hop with ho | ho | ho | ho | ho | ho | ho
  · exact ⟨0, ho⟩
  · exact ⟨1, ho⟩
  · exact ⟨2, ho⟩
  · exact ⟨3, ho⟩
  · exact ⟨4, ho⟩
  · exact ⟨5, ho⟩
  · rw [ho] at hhi
    exact absurd hhi (by decide)

/-- **What a call does to the statistics**: one that is counted updates them, any other one
leaves them alone. -/
theorem invoke_counts (hrel : env.Releases) (h : invoke env srv msg = .ok (code, srv', reply))
    (c : Call) (hop : c.opcode = msg.opcode) (hcode : c.code = code) :
    (¬ c.Counted ∧ srv'.stats = srv.stats) ∨
      (c.Counted ∧ Handled msg.opcode ∧ updateStats srv.stats msg.opcode env.ms = .ok srv'.stats) := by
  rcases invoke_cases h with ⟨-, hcode', rfl, -⟩ | ⟨srv₁, stats, hhandled, hdisp, htail, rfl, -⟩
  · refine Or.inl ⟨fun hc => ?_, rfl⟩
    have hzero := hc.1
    omega
  · rw [dispatch_keeps_stats hdisp] at htail
    by_cases hrange : ¬ (msg.opcode > 60 ∨ msg.opcode < 10)
    · rw [statsTail, if_pos hrange] at htail
      by_cases hlock : env.writeLock ≠ 0
      · rw [if_pos hlock] at htail
        obtain ⟨hcode', hstats⟩ := Prod.mk.inj (Except.ok.inj htail)
        refine Or.inl ⟨fun hc => ?_, hstats.symm⟩
        have hzero := hc.1
        omega
      · rw [if_neg hlock] at htail
        obtain ⟨s, hupdate, hret⟩ := bind_eq_ok.mp htail
        rw [if_neg (not_not.mpr (hrel (not_not.mp hlock)))] at hret
        obtain ⟨hcode', hs⟩ := Prod.mk.inj (Except.ok.inj hret)
        refine Or.inr ⟨⟨hcode.trans hcode'.symm, ?_, ?_⟩, hhandled, hupdate.trans (congrArg _ hs)⟩
        · omega
        · omega
    · rw [statsTail, if_neg hrange] at htail
      obtain ⟨-, hstats⟩ := Prod.mk.inj (Except.ok.inj htail)
      refine Or.inl ⟨fun hc => hrange ?_, hstats.symm⟩
      have hlo := hc.2.1
      have hhi := hc.2.2
      omega

end Step

/-! ## Runs -/

theorem uintSucc_of_lt {x : Nat} (h : x + 1 < 2 ^ 32) : uintSucc x = x + 1 :=
  Nat.mod_eq_of_lt h

/-- The update of a counted call, when nothing wraps. -/
theorem updateStats_counted {stats stats' : Statistics} {ms : Rat} {i : Fin 6}
    (h : updateStats stats (10 * ((i : Int) + 1)) ms = .ok stats') :
    stats' = ⟨stats.avg + (ms - stats.avg) / uintSucc stats.total, uintSucc stats.total,
      stats.counter.set i (uintSucc stats.counter[i])⟩ := by
  have hindex : (10 * ((i : Int) + 1)).tdiv 10 - 1 = i := by
    rw [Int.mul_tdiv_cancel_left _ (by decide), Int.add_sub_cancel]
  have hlt := i.isLt
  unfold updateStats at h
  simp only [hindex] at h
  rw [dif_pos (by omega)] at h
  exact (Except.ok.inj h).symm

/-- A call that is not counted changes no account. -/
theorem Accounts.skip {stats : Statistics} {calls : List Call} {c : Call} (h : Accounts stats calls)
    (hc : ¬ c.Counted) : Accounts stats (calls ++ [c]) where
  total := by simp [h.total, hc]
  counter i := by simp [h.counter i, hc]
  sum := h.sum
  used d hd hcount := by
    rcases List.mem_append.mp hd with hd | hd
    · exact h.used d hd hcount
    · obtain rfl := List.mem_singleton.mp hd
      exact absurd hcount hc
  avg := by simp [h.avg, hc]

/-- **A counted call adds 1 to the total and to its own counter**, and its time to the
mean. -/
theorem Accounts.count {stats : Statistics} {calls : List Call} {c : Call} {i : Fin 6}
    (h : Accounts stats calls) (hlt : calls.length + 1 < 2 ^ 32) (hc : c.Counted)
    (hop : c.opcode = 10 * ((i : Int) + 1)) (hdiv : c.divisor = uintSucc stats.total) :
    Accounts ⟨stats.avg + (c.ms - stats.avg) / uintSucc stats.total, uintSucc stats.total,
      stats.counter.set i (uintSucc stats.counter[i])⟩ (calls ++ [c]) := by
  have htotal_le : stats.total ≤ calls.length := h.total ▸ List.countP_le_length
  have hsucc : uintSucc stats.total = stats.total + 1 := uintSucc_of_lt (by omega)
  have hcounter_le : stats.counter[i] ≤ calls.length := h.counter i ▸ List.countP_le_length
  have hcounter : uintSucc stats.counter[i] = stats.counter[i] + 1 := uintSucc_of_lt (by omega)
  have hfilter : (calls.filter fun c => c.Counted).length = stats.total := by
    rw [h.total, List.countP_eq_length_filter]
  -- every counter gains what the call counts for in it
  have hset : ∀ j : Fin 6, (stats.counter.set i (uintSucc stats.counter[i]))[j] =
      stats.counter[j] + if i = j then 1 else 0 := by
    intro j
    by_cases hij : i = j
    · subst hij
      simp only [Fin.getElem_fin, Vector.getElem_set_self, if_true]
      exact hcounter
    · rw [if_neg hij]
      exact Vector.getElem_set_ne _ _ (Fin.val_ne_of_ne hij)
  refine ⟨?_, ?_, ?_, ?_, ?_⟩
  · simp only [hsucc]
    simp [h.total, hc]
  · intro j
    have hone : (c.opcode = 10 * ((j : Int) + 1)) ↔ i = j := by
      rw [hop, ← Fin.val_inj]
      omega
    rw [hset, h.counter j, List.countP_append, List.countP_singleton]
    simp [hc, hone]
  · calc ∑ j : Fin 6, (stats.counter.set i (uintSucc stats.counter[i]))[j]
        = ∑ j : Fin 6, (stats.counter[j] + if i = j then 1 else 0) :=
          Finset.sum_congr rfl fun j _ => hset j
      _ = stats.total + 1 := by
          rw [Finset.sum_add_distrib, h.sum, Finset.sum_ite_eq, if_pos (Finset.mem_univ i)]
      _ = uintSucc stats.total := hsucc.symm
  · intro d hd hcount
    rcases List.mem_append.mp hd with hd | hd
    · exact h.used d hd hcount
    · obtain rfl := List.mem_singleton.mp hd
      have hindex : d.index = i := by
        rw [Call.index, hop, Int.mul_tdiv_cancel_left _ (by decide), Int.add_sub_cancel]
      have := i.isLt
      refine ⟨by omega, ?_⟩
      rw [hdiv, hsucc]
      exact Nat.succ_ne_zero _
  · have hmap : ((calls ++ [c]).filter fun c => c.Counted).map Call.ms =
        (calls.filter fun c => c.Counted).map Call.ms ++ [c.ms] := by
      simp [hc]
    rw [hmap, mean_concat, List.length_map, hfilter, ← h.avg, hsucc]

/-- One more completed call. -/
theorem Accounts.call {env : Env} {srv srv' : Server} {msg reply : MessageT} {code : Int}
    {calls : List Call} (h : Accounts srv.stats calls) (hlt : calls.length + 1 < 2 ^ 32)
    (hrel : env.Releases) (hrun : invoke env srv msg = .ok (code, srv', reply)) :
    Accounts srv'.stats (calls ++ [⟨msg.opcode, env.ms, code, uintSucc srv.stats.total⟩]) := by
  rcases invoke_counts hrel hrun ⟨msg.opcode, env.ms, code, uintSucc srv.stats.total⟩ rfl rfl with
    ⟨hc, hstats⟩ | ⟨hc, hop, hupdate⟩
  · rw [hstats]
    exact h.skip hc
  · obtain ⟨i, hi⟩ := counted_opcode hop hc.2.2
    rw [hi] at hupdate
    rw [updateStats_counted hupdate]
    exact h.count hlt hc hi rfl

/-- **The statistics account for every request**, after every run of fewer than 2^32
completed calls: any opcodes, any times, any tables. -/
theorem stats_account {stats : Statistics} {calls : List Call} (hr : StatsRun stats calls)
    (hlt : calls.length < 2 ^ 32) : Accounts stats calls := by
  induction hr with
  | init =>
    refine ⟨rfl, ?_, ?_, by simp, by simp⟩
    · intro i
      simp
    · simp
  | @step srv srv' env msg reply code calls _ hrel hrun ih =>
    rw [List.length_append, List.length_singleton] at hlt
    exact (ih (Nat.lt_of_succ_lt hlt)).call hlt hrel hrun

/-- A refused request, then a `SIZE` that took 3 ms. -/
theorem pair_run :
    StatsRun ⟨3, 1, #v[1, 0, 0, 0, 0, 0]⟩ [⟨15, 2, -1, 1⟩, ⟨opSize, 3, 0, 1⟩] := by
  have hrefused : invoke { Env.calm (fun _ _ => 0) with ms := 2 } (tableSkelInit 1)
      ⟨15, ctNone, ⟨0, none⟩⟩ = .ok (-1, tableSkelInit 1, ⟨15, ctNone, ⟨0, none⟩⟩) := rfl
  have hsize : invoke { Env.calm (fun _ _ => 0) with ms := 3 } (tableSkelInit 1)
      ⟨opSize, ctNone, ⟨0, none⟩⟩ = .ok (0, ⟨(tableSkelInit 1).gTable,
        ⟨0 + (3 - 0) / (1 : Nat), 1, #v[1, 0, 0, 0, 0, 0]⟩⟩, ⟨11, ctResult, ⟨4, some [0, 0, 0, 0]⟩⟩) := rfl
  have hmean : (0 + (3 - 0) / (1 : Nat) : Rat) = 3 := by norm_num
  rw [hmean] at hsize
  exact .step (.step .init (fun _ => rfl) hrefused) (fun _ => rfl) hsize

/-- The theorem for that run. -/
theorem stats_account_pair :
    Accounts ⟨3, 1, #v[1, 0, 0, 0, 0, 0]⟩ [⟨15, 2, -1, 1⟩, ⟨opSize, 3, 0, 1⟩] :=
  stats_account pair_run (by decide)

end RemoteTable
