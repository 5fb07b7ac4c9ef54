import RemoteTable.Message

/-! # Statistics

`struct statistics` and `update_stats`.  The average is an exact rational, the
counters are `unsigned int`.
-/
namespace RemoteTable
open CMem

/-- `struct statistics`. -/
structure Statistics where
  avg : Rat
  total : Nat
  counter : Vector Nat 6
  deriving DecidableEq

/-- `x + 1` on `unsigned int`. -/
def uintSucc (x : Nat) : Nat := (x + 1) % 4294967296

/-- `update_stats`. -/
def updateStats (stats : Statistics) (opCode : Int) (ms : Rat) : Exec Statistics :=
  let total := uintSucc stats.total
  let avg := stats.avg + (ms - stats.avg) / total
  let index := opCode.tdiv 10 - 1
  if h : 0 ≤ index ∧ index < 6 then
    .ok ⟨avg, total, stats.counter.set index.toNat (uintSucc (stats.counter[index.toNat]))⟩
  else .error .outOfBounds

/-- The opcodes that are counted have a counter. -/
theorem updateStats_defined (stats : Statistics) {opCode : Int} (hlo : opSize ≤ opCode)
    (hhi : opCode ≤ opPrint) (ms : Rat) : Defined (updateStats stats opCode ms) := by
  unfold opSize opPrint at *
  have hindex : 0 ≤ opCode.tdiv 10 - 1 ∧ opCode.tdiv 10 - 1 < 6 := by
    rw [Int.tdiv_eq_ediv_of_nonneg (by omega)]
    omega
  unfold updateStats
  rw [dif_pos hindex]
  exact defined_ok _

/-! ## A `struct statistics` in memory

`avg` is the first 8 bytes, then come `total` and the six counters, 4 bytes each. -/

/-- `sizeof(struct statistics)`. -/
def sizeofStatistics : Nat := 40

/-- `print_stats`: the bytes of `avg` and of the counters, which it prints as numbers. -/
def printStats (stats : Block) : Exec (Block × List Block) := do
  let avg ← slice stats 0 8
  let counter ← (List.range 6).mapM fun (i : Nat) => slice stats (12 + 4 * i) 4
  return (avg, counter)

/-- `print_stats` reads a whole structure inside its block. -/
theorem printStats_defined {stats : Block} (h : sizeofStatistics ≤ stats.length) :
    Defined (printStats stats) := by
  have hread : ∀ off n : Int, 0 ≤ off → 0 ≤ n → off + n ≤ sizeofStatistics →
      Defined (slice stats off n) := by
    intro off n hoff hn hle
    exact ⟨_, slice_inside hn hoff (by omega)⟩
  have hcounter : Defined ((List.range 6).mapM fun (i : Nat) => slice stats (12 + 4 * i) 4) := by
    refine defined_mapM fun i hi => hread _ _ (by omega) (by omega) ?_
    have := List.mem_range.mp hi
    unfold sizeofStatistics
    omega
  refine defined_bind (hread 0 8 (by decide) (by decide) (by decide)) fun avg => ?_
  exact defined_bind hcounter fun counter => defined_ok _

end RemoteTable
