import RemoteTable.Table

/-! # Where the hash of a key points

`get_hash_index` adds up the characters of the key and takes the remainder by the number
of lists.  A `char` is signed and the remainder of a negative number is negative, so a key
with bytes above 127 may name a list that is not there.  The sum is an `int`, and so is
the loop's index: both have to stay in range on the way.

`HashFits` is the exact condition, on the bytes of the key and the number of lists.
-/
namespace RemoteTable
open CMem

/-- The characters of a string, added up. -/
def byteSum (s : List UInt8) : Int := (s.map charVal).sum

@[simp] theorem byteSum_nil : byteSum [] = 0 := rfl

@[simp] theorem byteSum_cons (c : UInt8) (s : List UInt8) :
    byteSum (c :: s) = charVal c + byteSum s := rfl

/-- No partial sum of the string leaves the range of `int`, starting from `counter`. -/
def SumFits (counter : Int) (s : List UInt8) : Prop :=
  ∀ j ≤ s.length, intMin ≤ counter + byteSum (s.take j) ∧ counter + byteSum (s.take j) ≤ intMax

theorem sumFits_nil {counter : Int} :
    SumFits counter [] ↔ intMin ≤ counter ∧ counter ≤ intMax := by
  simp [SumFits]

/-- The first partial sum is the counter itself, the others are those of the rest. -/
theorem sumFits_cons {counter : Int} {c : UInt8} {s : List UInt8} :
    SumFits counter (c :: s) ↔
      (intMin ≤ counter ∧ counter ≤ intMax) ∧ SumFits (counter + charVal c) s := by
  constructor
  · intro h
    refine ⟨by simpa using h 0 (Nat.zero_le _), fun j hj => ?_⟩
    have hnext := h (j + 1) (Nat.succ_le_succ hj)
    rwa [List.take_succ_cons, byteSum_cons, ← Int.add_assoc] at hnext
  · rintro ⟨hfirst, hrest⟩ j hj
    cases j with
    | zero => simpa using hfirst
    | succ j =>
      rw [List.take_succ_cons, byteSum_cons, ← Int.add_assoc]
      exact hrest j (Nat.le_of_succ_le_succ hj)

theorem SumFits.start {counter : Int} {s : List UInt8} (h : SumFits counter s) :
    intMin ≤ counter ∧ counter ≤ intMax := by
  simpa using h 0 (Nat.zero_le _)

/-- **The loop adds up the string**, as long as neither the sum nor the index overflows. -/
theorem getHashIndexLoop_eq_ok {s : List UInt8} (hs : (0 : UInt8) ∉ s) (rest : Block) {i counter r : Int}
    (hi : 0 ≤ i) (hile : i ≤ intMax) (hc : intMin ≤ counter ∧ counter ≤ intMax) :
    getHashIndexLoop (s ++ 0 :: rest) i counter = .ok r ↔
      r = counter + byteSum s ∧ i + s.length ≤ intMax ∧ SumFits counter s := by
  induction s generalizing i counter with
  | nil => simp [getHashIndexLoop, sumFits_nil, hile, hc, eq_comm]
  | cons c s ih =>
    have hc0 : c ≠ 0 := fun h0 => hs (h0 ▸ List.mem_cons_self)
    have hs' : (0 : UInt8) ∉ s := fun h0 => hs (List.mem_cons_of_mem _ h0)
    rw [List.cons_append, getHashIndexLoop, if_neg hc0, bind_eq_ok, sumFits_cons, byteSum_cons,
      ← Int.add_assoc, List.length_cons]
    constructor
    · rintro ⟨_, hcounter, h⟩
      obtain ⟨_, hindex, h⟩ := bind_eq_ok.mp h
      obtain ⟨rfl, hlo, hhi⟩ := checkInt_eq_ok.mp hcounter
      obtain ⟨rfl, -, hnext⟩ := checkInt_eq_ok.mp hindex
      obtain ⟨hr, hlen, hfits⟩ := (ih hs' (by omega) hnext ⟨hlo, hhi⟩).mp h
      exact ⟨hr, by push_cast; omega, hc, hfits⟩
    · rintro ⟨hr, hlen, -, hfits⟩
      obtain ⟨hlo, hhi⟩ := hfits.start
      push_cast at hlen
      have hindex : intAdd i 1 = .ok (i + 1) := checkInt_of_nonneg (by omega) (by omega)
      refine ⟨_, checkInt_of_range hlo hhi, ?_⟩
      rw [hindex, ok_bind]
      exact (ih hs' (by omega) (by omega) ⟨hlo, hhi⟩).mpr ⟨hr, by omega, hfits⟩

/-- A remainder by a positive number is not negative exactly for the numbers that are not
negative, and the multiples. -/
theorem tmod_nonneg_iff {a n : Int} : 0 ≤ a.tmod n ↔ 0 ≤ a ∨ n ∣ a := by
  constructor
  · intro h
    by_cases ha : 0 ≤ a
    · exact Or.inl ha
    · refine Or.inr (Int.dvd_of_tmod_eq_zero ?_)
      have hneg := Int.tmod_nonneg n (show 0 ≤ -a by omega)
      rw [Int.neg_tmod] at hneg
      omega
  · rintro (ha | hdvd)
    · exact Int.tmod_nonneg n ha
    · exact Int.le_of_eq (Int.tmod_eq_zero_of_dvd hdvd).symm

/-- The partial sums of an ASCII string only grow. -/
theorem byteSum_ascii {s : List UInt8} (hs : ∀ c ∈ s, c ≠ 0 ∧ c.toNat < 128) :
    0 ≤ byteSum s ∧ byteSum s ≤ 127 * s.length := by
  induction s with
  | nil => simp
  | cons c s ih =>
    obtain ⟨⟨-, hlt⟩, hrest⟩ := List.forall_mem_cons.mp hs
    have hval : charVal c = c.toNat := by simp [charVal, hlt]
    obtain ⟨hlo, hhi⟩ := ih hrest
    rw [byteSum_cons, hval, List.length_cons]
    omega

/-- Every character counts for 128 at most. -/
theorem byteSum_bounds (s : List UInt8) : -(128 * s.length) ≤ byteSum s ∧ byteSum s ≤ 128 * s.length := by
  induction s with
  | nil => simp
  | cons c s ih =>
    have hlo : -128 ≤ charVal c := by
      unfold charVal
      split <;> omega
    have hhi := charVal_upper c
    rw [byteSum_cons, List.length_cons]
    omega

/-! ## The index -/

/-- **The index is valid**: it is computed without overflow, lies in `[0, n)`, and names one
of the lists of any table with as many. -/
def IndexValid (key : Block) (n : Int) : Prop :=
  ∃ index, getHashIndex key n = .ok index ∧ (0 ≤ index ∧ index < n) ∧
    ∀ t : TableT, (t.listsPtr.length : Int) = n → ∃ list ∈ t.listsPtr, t.listAt index = .ok list

/-- The condition on the string and the number of lists: the string is not longer than an
`int` can count, its partial sums are `int`s, and its sum is not negative unless it is a
multiple. -/
structure HashFits (s : List UInt8) (n : Int) : Prop where
  length : (s.length : Int) ≤ intMax
  sums : SumFits 0 s
  sign : 0 ≤ byteSum s ∨ n ∣ byteSum s

/-- The hash of an ASCII string is never negative. -/
theorem hashFits_ascii {s : List UInt8} (hs : ∀ c ∈ s, c ≠ 0 ∧ c.toNat < 128)
    (hlen : 127 * (s.length : Int) ≤ intMax) (n : Int) : HashFits s n := by
  refine ⟨by omega, fun j hj => ?_, Or.inl (byteSum_ascii hs).1⟩
  obtain ⟨hlo, hhi⟩ := byteSum_ascii fun c hc => hs c (List.mem_of_mem_take hc)
  rw [List.length_take, Nat.min_eq_left hj] at hhi
  unfold intMin
  omega

/-- A string that is not too long is a key of a table of one list. -/
theorem hashFits_one {s : List UInt8} (hlen : 128 * (s.length : Int) ≤ intMax) : HashFits s 1 := by
  refine ⟨by omega, fun j hj => ?_, Or.inr (one_dvd _)⟩
  obtain ⟨hlo, hhi⟩ := byteSum_bounds (s.take j)
  rw [List.length_take, Nat.min_eq_left hj] at hlo hhi
  unfold intMin
  unfold intMax at *
  omega

/-- An index in `[0, n)` names a list. -/
theorem listAt_of_range {t : TableT} {index n : Int} (hlen : (t.listsPtr.length : Int) = n)
    (hlo : 0 ≤ index) (hhi : index < n) : ∃ list ∈ t.listsPtr, t.listAt index = .ok list := by
  have hlt : index.toNat < t.listsPtr.length := by omega
  refine ⟨_, List.getElem_mem hlt, ?_⟩
  rw [TableT.listAt, if_neg (by omega), List.getElem?_eq_getElem hlt]

/-- **The hash of a key is an index exactly when its characters add up to one.** -/
theorem getHashIndex_iff {key : Block} (hkey : Terminated key) {n : Int} (hn : 1 ≤ n) :
    (∃ index, getHashIndex key n = .ok index ∧ 0 ≤ index ∧ index < n) ↔ HashFits (cstr key) n := by
  obtain ⟨rest, hrest⟩ := hkey.split
  have hloop : ∀ {r}, getHashIndexLoop key 0 0 = .ok r ↔
      r = 0 + byteSum (cstr key) ∧ 0 + ((cstr key).length : Int) ≤ intMax ∧ SumFits 0 (cstr key) := by
    intro r
    have h := getHashIndexLoop_eq_ok (r := r) (cstr_no_nul key) rest (Int.le_refl 0)
      (show (0 : Int) ≤ intMax by decide) ⟨show intMin ≤ 0 by decide, by decide⟩
    rwa [← hrest] at h
  constructor
  · rintro ⟨index, hhash, hlo, -⟩
    obtain ⟨sum, hsum, hrem⟩ := bind_eq_ok.mp hhash
    obtain ⟨rfl, hlen, hfits⟩ := hloop.mp hsum
    rw [Int.zero_add] at hlen hrem
    rw [intRem, if_neg (by omega)] at hrem
    obtain rfl := Except.ok.inj hrem
    exact ⟨hlen, hfits, tmod_nonneg_iff.mp hlo⟩
  · rintro ⟨hlen, hfits, hsign⟩
    refine ⟨(byteSum (cstr key)).tmod n, ?_, tmod_nonneg_iff.mpr hsign, Int.tmod_lt_of_pos _ (by omega)⟩
    rw [getHashIndex, hloop.mpr ⟨rfl, by omega, hfits⟩, ok_bind, Int.zero_add, intRem, if_neg (by omega)]

/-- **The bucket index is valid exactly when the characters of the key add up to one**: for
every number of lists and every string, of any length and over any bytes. -/
theorem index_valid_iff (n : Int) (hn : 1 ≤ n) (key : Block) (hkey : Terminated key) :
    IndexValid key n ↔ HashFits (cstr key) n := by
  rw [← getHashIndex_iff hkey hn]
  constructor
  · rintro ⟨index, hhash, ⟨hlo, hhi⟩, -⟩
    exact ⟨index, hhash, hlo, hhi⟩
  · rintro ⟨index, hhash, hlo, hhi⟩
    exact ⟨index, hhash, ⟨hlo, hhi⟩, fun t ht => listAt_of_range ht hlo hhi⟩

/-- The theorem at an ASCII key. -/
theorem index_valid_iff_ascii : IndexValid [97, 0] 3 ↔ HashFits (cstr [97, 0]) 3 :=
  index_valid_iff 3 (by decide) [97, 0] (by decide)

/-- **The key of one byte 255 hashes to -1.** -/
theorem byte255_not_valid :
    Terminated [255, 0] ∧ getHashIndex [255, 0] 2 = .ok (-1) ∧ ¬ IndexValid [255, 0] 2 := by
  have hhash : getHashIndex [255, 0] 2 = .ok (-1) := by decide
  refine ⟨by decide, hhash, ?_⟩
  rintro ⟨index, h, ⟨hlo, -⟩, -⟩
  obtain rfl := Except.ok.inj (hhash.symm.trans h)
  exact absurd hlo (by decide)

end RemoteTable
