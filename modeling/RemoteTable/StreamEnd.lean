import RemoteTable.MessageStream

/-! # How a stream ends

A connection may end anywhere: between messages, inside a header, inside a body.  After
its last byte `read` returns 0 when the peer has closed it, and -1 when it is broken.

`read_all` looks for -1 only.  A call on the body that returns 0 leaves the loop where it
was, and so does every later one: a body that is cut short by a close keeps the thread in
the loop for good (`readLoop_starved`).  Its call on the header is not looked at, so what
the header lacks is taken from the fresh block.

`StreamEnds` is the exact condition under which `read_all` comes back with the right
answer whatever its blocks held before.
-/
namespace RemoteTable
open CMem

/-! ## What is to be returned -/

/-- The bytes hold as many as announced, and there is a block for them. -/
def Contains (data : Bool) (size : Int) (bytes : List UInt8) : Prop :=
  0 ≤ size ∧ size ≤ bytes.length ∧ (data = true ∨ size = 0)

instance (data : Bool) (size : Int) (bytes : List UInt8) : Decidable (Contains data size bytes) :=
  inferInstanceAs (Decidable (_ ∧ _ ∧ _))

/-- The length a stream announces, as the `int` that `read_all` returns, if its header is
complete. -/
def announced (bytes : List UInt8) : Option Int :=
  if unsignedSize ≤ bytes.length then some (toInt32 (netValue (bytes.take unsignedSize))) else none

/-- The payload at the front of a stream, if it is all there. -/
def payload (data : Bool) (bytes : List UInt8) : Option Block :=
  (announced bytes).bind fun size =>
    if Contains data size (bytes.drop unsignedSize)
    then some ((bytes.drop unsignedSize).take size.toNat) else none

/-- **`read_all` ends correctly**: it returns, with the announced length and exactly the
payload when the stream contains it (and the blocks can be allocated), and -1 otherwise. -/
def EndsCorrectly (calls : Calls) (mem : Blocks) (s : Incoming) : Prop :=
  ∃ code data s', readAll calls mem s = .ok (code, data, s') ∧
    (∀ body, mem.tmp = true → payload mem.data s.bytes = some body →
      code = body.length ∧ data.getD [] = body) ∧
    ((mem.tmp = false ∨ payload mem.data s.bytes = none) → code = -1)

/-! ## When it is -/

/-- The loop ends: nothing is to be read, or the connection breaks, or enough is there; and
without a block, as soon as there is a byte. -/
def BodyEnds (data : Bool) (size : Int) (s : Incoming) : Prop :=
  size ≤ 0 ∨ s.tail = .broken ∨ (data = true ∧ size ≤ s.bytes.length) ∨
    (data = false ∧ s.bytes ≠ [])

/-- The smallest number a header can announce that starts with these bytes. -/
def lowest (got : List UInt8) : Nat := 256 ^ (unsignedSize - got.length) * netValue got

/-- With part of a header `read_all` ends correctly: the number is negative whatever follows,
or it is positive whatever follows, nothing contains it, and the loop still ends. -/
def CutEnds (data : Bool) (got : List UInt8) (s : Incoming) : Prop :=
  (∃ c, got.head? = some c ∧ 128 ≤ c.toNat) ∨
    (0 < lowest got ∧ (data = true → s.bytes.length < lowest got) ∧
      (s.tail = .broken ∨ (data = false ∧ s.bytes ≠ [])))

/-- The condition: there is no block for the header; or the call on it moves all four bytes,
and the loop on the body ends; or it does not, and that makes no difference. -/
def StreamEnds (calls : Calls) (tmp data : Bool) (s : Incoming) : Prop :=
  tmp = false ∨
    ((s.bytes.take calls.headerSize).length = unsignedSize ∧
      BodyEnds data (toInt32 (netValue (s.bytes.take calls.headerSize)))
        { s with bytes := s.bytes.drop calls.headerSize }) ∨
    ((s.bytes.take calls.headerSize).length < unsignedSize ∧
      CutEnds data (s.bytes.take calls.headerSize) { s with bytes := s.bytes.drop calls.headerSize })

/-! ## The loop -/

section Loop
variable {calls : Calls} {size : Int} {data : Bool} {s : Incoming}

/-- What is left to read is a number of bytes that `read` takes. -/
theorem count_fits {x : Int} (hpos : 0 < x) (hmax : x ≤ intMax) :
    1 ≤ toSizeT x ∧ toSizeT x ≤ ssizeMax := by
  have hcount := toSizeT_of_nonneg (Int.le_of_lt hpos) hmax
  unfold intMax at hmax
  unfold ssizeMax
  omega

/-- **A loop that waits for bytes after a close never ends**, however many rounds it is
given. -/
theorem readLoop_starved (hc : calls.Moves) {size alreadyRead : Int} (hlo : alreadyRead < size)
    (hhi : size - alreadyRead ≤ intMax) (data : Option Block) (fuel : Nat) :
    ∀ n, readLoop calls.body size fuel n alreadyRead data ⟨[], .eof⟩ = .error .diverges := by
  obtain ⟨hask, hmax⟩ := count_fits (show 0 < size - alreadyRead by omega) hhi
  induction fuel with
  | zero =>
    intro n
    rfl
  | succ fuel ih =>
    intro n
    obtain ⟨k, hk⟩ := hc.body_eq n
    rw [readLoop, if_neg (by omega), hk, Incoming.read_eof k hask hmax, ok_bind]
    exact ih (n + 1)

/-- A broken connection ends the loop. -/
theorem readLoop_broken (hc : calls.Moves) {size alreadyRead : Int} (hlo : alreadyRead < size)
    (hhi : size - alreadyRead ≤ intMax) (data : Option Block) (fuel n : Nat) :
    readLoop calls.body size (fuel + 1) n alreadyRead data ⟨[], .broken⟩ =
      .ok (-1, data, ⟨[], .broken⟩) := by
  obtain ⟨hask, hmax⟩ := count_fits (show 0 < size - alreadyRead by omega) hhi
  obtain ⟨k, hk⟩ := hc.body_eq n
  rw [readLoop, if_neg (by omega), hk, Incoming.read_broken k hask hmax, ok_bind]
  rfl

/-- A negative length is an enormous `size_t`, and `read` refuses it. -/
theorem readLoop_negative (hlo : intMin ≤ size) (hneg : size < 0) (data : Option Block) (fuel : Nat) :
    readLoop calls.body size (fuel + 1) 0 0 data s = .ok (-1, data, s) := by
  have hcount : toSizeT (size - 0) > ssizeMax := by
    unfold toSizeT ssizeMax
    unfold intMin at hlo
    omega
  have hread : s.read (calls.body 0) (toSizeT (size - 0)) = .ok (none, s) := by
    unfold Incoming.read
    exact if_pos hcount
  rw [readLoop, if_neg (by omega), hread, ok_bind]
  rfl

/-- Without a block the first byte ends the loop, and stays where it is. -/
theorem readLoop_noBlock (hc : calls.Moves) (hpos : 0 < size) (hmax : size ≤ intMax)
    (hne : s.bytes ≠ []) (fuel : Nat) :
    readLoop calls.body size (fuel + 1) 0 0 none s = .ok (-1, none, s) := by
  obtain ⟨hask, hcount⟩ := count_fits (show 0 < size - 0 by omega) (by omega)
  obtain ⟨k, hk⟩ := hc.body_eq 0
  have hlen := List.length_pos_iff.mpr hne
  obtain ⟨m, hm⟩ : ∃ m, m = moved k (min (toSizeT (size - 0)) s.bytes.length) := ⟨_, rfl⟩
  have hpos : 1 ≤ m := hm ▸ moved_pos _ _
  have hread : s.read (.moves k) (toSizeT (size - 0)) =
      .ok (some (s.bytes.take m), { s with bytes := s.bytes.drop m }) := by
    rw [hm]
    exact Incoming.read_moves hask hcount hne
  obtain ⟨c, got, hgot⟩ := List.exists_cons_of_length_pos
    (show 0 < (s.bytes.take m).length by rw [List.length_take]; omega)
  rw [readLoop, if_neg (by omega), hk, hread, ok_bind, hgot]
  rfl

/-- The loop has stopped with what there is of the announced bytes. -/
def Stopped (data : Bool) (size : Int) (s : Incoming) (r : Exec (Int × Option Block × Incoming)) : Prop :=
  ∃ code block s', r = .ok (code, block, s') ∧
    (Contains data size s.bytes → code = size ∧ block.getD [] = s.bytes.take size.toNat) ∧
    (¬ Contains data size s.bytes → code = -1)

theorem Stopped.of_failed {r : Exec (Int × Option Block × Incoming)} {block : Option Block}
    {s' : Incoming} (hr : r = .ok (-1, block, s')) (hno : ¬ Contains data size s.bytes) :
    Stopped data size s r :=
  ⟨-1, block, s', hr, fun h => absurd h hno, fun _ => rfl⟩

/-- The loop with nothing to read. -/
theorem readLoop_nothing (hle : size ≤ 0) (hlo : intMin ≤ size) (block : Option Block)
    (hblock : size = 0 → block.getD [] = []) (fuel : Nat) :
    Stopped data size s (readLoop calls.body size (fuel + 1) 0 0 block s) := by
  by_cases hzero : size = 0
  · -- the loop's condition is false at once
    subst hzero
    refine ⟨0, block, s, ?_, ?_, ?_⟩
    · rw [readLoop, if_pos rfl]
    · intro _
      exact ⟨rfl, hblock rfl⟩
    · intro h
      exact absurd ⟨Int.le_refl 0, Int.natCast_nonneg _, Or.inr rfl⟩ h
  · apply Stopped.of_failed (readLoop_negative hlo (by omega) block fuel)
    intro h
    have := h.1
    omega

/-- The loop without a block. -/
theorem readLoop_unallocated (hc : calls.Moves) (hs : s.tail ≠ .silent) (hpos : 0 < size)
    (hhi : size ≤ intMax) (fuel : Nat) :
    (BodyEnds false size s → Stopped false size s (readLoop calls.body size (fuel + 1) 0 0 none s)) ∧
      (¬ BodyEnds false size s →
        readLoop calls.body size (fuel + 1) 0 0 none s = .error .diverges) := by
  have hno : ¬ Contains false size s.bytes := by
    rintro ⟨-, -, h | h⟩
    · cases h
    · omega
  by_cases hne : s.bytes = []
  · obtain ⟨bytes, tail⟩ := s
    obtain rfl : bytes = [] := hne
    cases tail with
    | eof =>
      constructor
      · intro h
        rcases h with h | h | ⟨h, -⟩ | ⟨-, h⟩
        · omega
        · cases h
        · cases h
        · exact absurd rfl h
      · intro _
        exact readLoop_starved hc hpos (by omega) none _ 0
    | broken =>
      constructor
      · intro _
        exact .of_failed (readLoop_broken hc hpos (by omega) none fuel 0) hno
      · intro h
        exact absurd (Or.inr (Or.inl rfl)) h
    | silent => exact absurd rfl hs
  · -- the first byte cannot be stored, and that ends the loop
    have hrun := readLoop_noBlock hc hpos hhi hne fuel
    constructor
    · intro _
      exact .of_failed hrun hno
    · intro h
      exact absurd (Or.inr (Or.inr (Or.inr ⟨rfl, hne⟩))) h

/-- The loop with a block. -/
theorem readLoop_allocated (hc : calls.Moves) (hs : s.tail ≠ .silent) {n : Nat} (hpos : 0 < n)
    (hhi : (n : Int) ≤ intMax) {b : Block} (hb : Filled b [] n) :
    (BodyEnds true n s → Stopped true n s (readLoop calls.body n (s.bytes.length + 1) 0 0 (some b) s)) ∧
      (¬ BodyEnds true n s →
        readLoop calls.body n (s.bytes.length + 1) 0 0 (some b) s = .error .diverges) := by
  obtain ⟨bytes, tail⟩ := s
  by_cases hfit : n ≤ bytes.length
  · -- the body is all there
    have hbody : (bytes.take n).length = n := by
      rw [List.length_take]
      omega
    have hrun := readLoop_eq hc (bytes.drop n) tail (by rw [hbody]; exact hhi)
      (show (bytes.take n).length < bytes.length + 1 by omega) (by rw [hbody]; exact hb)
    rw [hbody, List.take_append_drop] at hrun
    have hin : Contains true n bytes := ⟨by omega, by omega, Or.inl rfl⟩
    constructor
    · intro _
      refine ⟨n, _, _, hrun, ?_, ?_⟩
      · intro _
        exact ⟨rfl, by simp⟩
      · intro h
        exact absurd hin h
    · intro h
      exact absurd (Or.inr (Or.inr (Or.inl ⟨rfl, hin.2.1⟩))) h
  · -- the stream ends first, and the loop is left with nothing to read
    have hno : ¬ Contains true n bytes := by
      rintro ⟨-, h, -⟩
      omega
    obtain ⟨rounds, n', b', hrounds, -, hrun⟩ := readLoop_drains hc hhi [] tail bytes.length 0 [] bytes b n
      (Nat.le_refl _) hb (Nat.zero_add n) (by rw [List.append_nil]; omega)
    obtain ⟨more, hmore⟩ : ∃ more, bytes.length + 1 = (more + 1) + rounds :=
      ⟨bytes.length - rounds, by omega⟩
    have hrest := hrun (more + 1)
    rw [← hmore, List.append_nil, List.nil_append] at hrest
    cases tail with
    | eof =>
      constructor
      · intro h
        rcases h with h | h | ⟨-, h⟩ | ⟨h, -⟩
        · omega
        · cases h
        · exact absurd h (by simpa using hfit)
        · cases h
      · intro _
        exact hrest.trans (readLoop_starved hc (by omega) (by omega) _ _ _)
    | broken =>
      constructor
      · intro _
        exact .of_failed (hrest.trans (readLoop_broken hc (by omega) (by omega) _ _ _)) hno
      · intro h
        exact absurd (Or.inr (Or.inl rfl)) h
    | silent => exact absurd rfl hs

/-- **How the loop ends**: with the announced bytes when they are there, with -1 when it is
refused or cut off, and not at all otherwise. -/
theorem readLoop_result (hc : calls.Moves) (hs : s.tail ≠ .silent) (junk : Nat → UInt8)
    (hlo : intMin ≤ size) (hhi : size ≤ intMax) (data : Bool) :
    (BodyEnds data size s → Stopped data size s (readLoop calls.body size (s.bytes.length + 1) 0 0
        (if data then malloc junk size else none) s)) ∧
      (¬ BodyEnds data size s → readLoop calls.body size (s.bytes.length + 1) 0 0
        (if data then malloc junk size else none) s = .error .diverges) := by
  by_cases hle : size ≤ 0
  · constructor
    · intro _
      apply readLoop_nothing hle hlo
      -- `malloc(0)` hands out an empty block
      rintro rfl
      cases data <;> rfl
    · intro h
      exact absurd (Or.inl hle) h
  · obtain ⟨n, rfl⟩ : ∃ n : Nat, size = n := ⟨size.toNat, by omega⟩
    cases data with
    | false => exact readLoop_unallocated hc hs (by omega) hhi _
    | true =>
      obtain ⟨b, hb, hfilled⟩ := filled_malloc junk (show (0 : Int) ≤ n by omega)
      rw [if_pos rfl, hb]
      exact readLoop_allocated hc hs (by omega) hhi hfilled

end Loop

/-! ## The header -/

section Header
variable {calls : Calls} {data : Bool} {s : Incoming} {got : List UInt8}

/-- The block of the header after the call on it: what was read, and what was there
before. -/
def headerWord (junk : Nat → UInt8) (got : List UInt8) : Block :=
  got ++ ((List.range unsignedSize).map junk).drop got.length

theorem length_headerWord (junk : Nat → UInt8) (hgot : got.length ≤ unsignedSize) :
    (headerWord junk got).length = unsignedSize := by
  simp [headerWord]
  omega

/-- What the call on the header takes. -/
theorem read_header (hc : calls.Moves) (hs : s.tail ≠ .silent) :
    ∃ header, s.read calls.header unsignedSize =
        .ok (header, { s with bytes := s.bytes.drop calls.headerSize }) ∧
      header.getD [] = s.bytes.take calls.headerSize := by
  obtain ⟨bytes, tail⟩ := s
  obtain ⟨k, hk⟩ := hc.header_eq
  have hsize : calls.headerSize = moved k unsignedSize := by rw [Calls.headerSize, hk]
  by_cases hne : bytes = []
  · subst hne
    cases tail with
    | eof =>
      refine ⟨some [], ?_, by simp⟩
      rw [hk, List.drop_nil]
      rfl
    | broken =>
      refine ⟨none, ?_, by simp⟩
      rw [hk, List.drop_nil]
      rfl
    | silent => exact absurd rfl hs
  · have hlen := List.length_pos_iff.mpr hne
    have hmin : min (moved k (min unsignedSize bytes.length)) bytes.length =
        min calls.headerSize bytes.length := by
      rw [hsize]
      unfold moved unsignedSize
      omega
    refine ⟨some (bytes.take calls.headerSize), ?_, rfl⟩
    rw [hk, Incoming.read_moves (by decide) (by decide) hne]
    simp only [List.take_eq_take_iff.mpr hmin, List.drop_eq_drop_iff.mpr hmin]

theorem length_got_le (hc : calls.Moves) (bytes : List UInt8) :
    (bytes.take calls.headerSize).length ≤ unsignedSize := by
  obtain ⟨k, hk⟩ := hc.header_eq
  have hsize : calls.headerSize ≤ unsignedSize := by
    rw [Calls.headerSize, hk]
    exact moved_le (by decide)
  rw [List.length_take]
  omega

/-- **`read_all` is its loop**, for the number that is in the block of the header. -/
theorem readAll_eq_loop (hc : calls.Moves) (hs : s.tail ≠ .silent) (junk : Nat → Nat → UInt8)
    (data : Bool) {size : Int}
    (hsize : size = toInt32 (netValue (headerWord (junk 0) (s.bytes.take calls.headerSize)))) :
    readAll calls ⟨junk, true, data⟩ s =
      readLoop calls.body size ((s.bytes.drop calls.headerSize).length + 1) 0 0
        (if data then malloc (junk 1) size else none)
        { s with bytes := s.bytes.drop calls.headerSize } := by
  obtain ⟨header, hread, hgot⟩ := read_header hc hs
  have hle := length_got_le hc s.bytes
  have htmp : malloc (junk 0) unsignedSize = some ((List.range unsignedSize).map (junk 0)) := by
    rw [malloc_of_nonneg _ (by decide)]
    rfl
  have hstore : store ((List.range unsignedSize).map (junk 0)) 0 (s.bytes.take calls.headerSize) =
      .ok (headerWord (junk 0) (s.bytes.take calls.headerSize)) := by
    rw [store, if_pos (by simp only [List.length_map, List.length_range]; omega)]
    simp [headerWord]
  simp only [readAll, if_true, htmp, deref_some, ok_bind, hread, hgot, hstore,
    ntohl_eq (length_headerWord _ hle), ← hsize]

/-- The loop of `read_all`, for the number that is in the block of the header. -/
theorem readAll_result (hc : calls.Moves) (hs : s.tail ≠ .silent) (junk : Nat → Nat → UInt8)
    (data : Bool) {size : Int}
    (hsize : size = toInt32 (netValue (headerWord (junk 0) (s.bytes.take calls.headerSize)))) :
    (BodyEnds data size { s with bytes := s.bytes.drop calls.headerSize } →
      Stopped data size { s with bytes := s.bytes.drop calls.headerSize }
        (readAll calls ⟨junk, true, data⟩ s)) ∧
      (¬ BodyEnds data size { s with bytes := s.bytes.drop calls.headerSize } →
        readAll calls ⟨junk, true, data⟩ s = .error .diverges) := by
  rw [readAll_eq_loop hc hs junk data hsize]
  obtain ⟨hlo, hhi⟩ := hsize ▸ toInt32_range _
  have hrest : { s with bytes := s.bytes.drop calls.headerSize }.tail ≠ .silent := hs
  exact readLoop_result hc hrest (junk 1) hlo hhi data

/-- A correct end is an end. -/
theorem EndsCorrectly.bodyEnds (hc : calls.Moves) (hs : s.tail ≠ .silent) {junk : Nat → Nat → UInt8}
    (h : EndsCorrectly calls ⟨junk, true, data⟩ s) {size : Int}
    (hsize : size = toInt32 (netValue (headerWord (junk 0) (s.bytes.take calls.headerSize)))) :
    BodyEnds data size { s with bytes := s.bytes.drop calls.headerSize } := by
  by_contra hno
  obtain ⟨code, block, s', hrun, -⟩ := h
  rw [(readAll_result hc hs junk data hsize).2 hno] at hrun
  cases hrun

/-! ### A whole header -/

/-- With a whole header `read_all` ends correctly exactly when its loop ends. -/
theorem endsCorrectly_whole (hc : calls.Moves) (hs : s.tail ≠ .silent)
    (hwhole : (s.bytes.take calls.headerSize).length = unsignedSize) (junk : Nat → Nat → UInt8) :
    EndsCorrectly calls ⟨junk, true, data⟩ s ↔
      BodyEnds data (toInt32 (netValue (s.bytes.take calls.headerSize)))
        { s with bytes := s.bytes.drop calls.headerSize } := by
  have hle := length_got_le hc (s.bytes ++ [0, 0, 0, 0])
  have hfour : calls.headerSize = unsignedSize ∧ unsignedSize ≤ s.bytes.length := by
    rw [List.length_take] at hle hwhole
    simp only [List.length_append, List.length_cons, List.length_nil] at hle
    unfold unsignedSize at *
    omega
  have hsize : toInt32 (netValue (s.bytes.take calls.headerSize)) =
      toInt32 (netValue (headerWord (junk 0) (s.bytes.take calls.headerSize))) := by
    rw [headerWord, hwhole, List.drop_eq_nil_of_le (by simp), List.append_nil]
  have hpayload : payload data s.bytes =
      if Contains data (toInt32 (netValue (s.bytes.take calls.headerSize)))
        (s.bytes.drop calls.headerSize)
      then some ((s.bytes.drop calls.headerSize).take
        (toInt32 (netValue (s.bytes.take calls.headerSize))).toNat) else none := by
    rw [payload, announced, if_pos hfour.2, hfour.1, Option.bind_some]
  constructor
  · intro h
    exact h.bodyEnds hc hs hsize
  intro hend
  obtain ⟨code, block, s', hrun, hin, hout⟩ := (readAll_result hc hs junk data hsize).1 hend
  -- from here on only the announced number matters
  clear hsize hend
  generalize toInt32 (netValue (s.bytes.take calls.headerSize)) = size at hpayload hin hout
  refine ⟨code, block, s', hrun, ?_, ?_⟩
  · intro body _ hbody
    by_cases hcont : Contains data size (s.bytes.drop calls.headerSize)
    · rw [hpayload, if_pos hcont] at hbody
      obtain rfl := Option.some.inj hbody
      obtain ⟨hcode, hblock⟩ := hin hcont
      have hlo := hcont.1
      have hhi := hcont.2.1
      refine ⟨?_, hblock⟩
      rw [hcode, List.length_take]
      omega
    · rw [hpayload, if_neg hcont] at hbody
      cases hbody
  · intro hnone
    apply hout
    intro hcont
    rcases hnone with h | h
    · cases h
    · rw [hpayload, if_pos hcont] at h
      cases h

/-! ### Part of a header -/

/-- Below 2^31 a header is at least what its first bytes announce. -/
theorem number_of_small {w : List UInt8} (hlen : (got ++ w).length = unsignedSize)
    (hhead : ∀ c, (got ++ w).head? = some c → c.toNat < 128) :
    toInt32 (netValue (got ++ w)) = ((netValue w + lowest got : Nat) : Int) := by
  obtain ⟨c, rest, hword⟩ := List.exists_cons_of_length_pos (hlen ▸ (by decide : 0 < unsignedSize))
  have hsplit : netValue (got ++ w) = netValue w + lowest got := by
    rw [netValue_append, lowest, ← hlen, List.length_append, Nat.add_sub_cancel_left]
  have hthree : rest.length = 3 := by
    rw [hword, List.length_cons] at hlen
    exact Nat.succ.inj hlen
  have hnumber := (toInt32_netValue hthree).1 (hhead c (by rw [hword]; rfl))
  rw [← hword] at hnumber
  rw [hnumber, hsplit]

/-- From 128 on, the first byte makes it negative. -/
theorem number_of_large {w : List UInt8} {c : UInt8} (hlen : (got ++ w).length = unsignedSize)
    (hhead : got.head? = some c) (hc : 128 ≤ c.toNat) : toInt32 (netValue (got ++ w)) < 0 := by
  cases got with
  | nil => cases hhead
  | cons d got =>
    obtain rfl : d = c := Option.some.inj hhead
    rw [List.cons_append, List.length_cons] at hlen
    exact (toInt32_netValue (Nat.succ.inj hlen)).2 hc

/-- A header cut short that makes no difference: what it announces is contained nowhere, and
the loop ends. -/
theorem CutEnds.number {rest : Incoming} (h : CutEnds data got rest) {w : List UInt8}
    (hlen : (got ++ w).length = unsignedSize) :
    BodyEnds data (toInt32 (netValue (got ++ w))) rest ∧
      ∀ bytes : List UInt8, bytes.length ≤ rest.bytes.length →
        ¬ Contains data (toInt32 (netValue (got ++ w))) bytes := by
  by_cases hlarge : ∃ c, got.head? = some c ∧ 128 ≤ c.toNat
  · obtain ⟨c, hhead, hc⟩ := hlarge
    have hneg := number_of_large hlen hhead hc
    refine ⟨Or.inl (Int.le_of_lt hneg), ?_⟩
    intro bytes _ hcont
    exact absurd hcont.1 (Int.not_le.mpr hneg)
  · rcases h with h | ⟨hpos, hdata, htail⟩
    · exact absurd h hlarge
    · have hhead : ∀ c, (got ++ w).head? = some c → c.toNat < 128 := by
        intro c hc
        cases got with
        | nil => simp [lowest, netValue] at hpos
        | cons d got =>
          obtain rfl : d = c := Option.some.inj hc
          exact Nat.lt_of_not_le fun hle => hlarge ⟨d, rfl, hle⟩
      rw [number_of_small hlen hhead]
      constructor
      · rcases htail with h | ⟨hd, hne⟩
        · exact Or.inr (Or.inl h)
        · exact Or.inr (Or.inr (Or.inr ⟨hd, hne⟩))
      · -- what is missing can only add to the number, and the lowest one is too large already
        intro bytes hbytes hcont
        obtain ⟨-, hle, h | h⟩ := hcont
        · have := hdata h
          omega
        · omega

/-- Whatever follows the part, nothing is to be returned. -/
theorem CutEnds.payload_none {calls : Calls}
    (hcut : (s.bytes.take calls.headerSize).length < unsignedSize)
    (h : CutEnds data (s.bytes.take calls.headerSize)
      { s with bytes := s.bytes.drop calls.headerSize }) : payload data s.bytes = none := by
  by_cases hlen : unsignedSize ≤ s.bytes.length
  · have hshort : calls.headerSize ≤ unsignedSize := by
      rw [List.length_take] at hcut
      omega
    have hword : s.bytes.take unsignedSize = s.bytes.take calls.headerSize ++
        (s.bytes.drop calls.headerSize).take (unsignedSize - calls.headerSize) := by
      rw [← List.take_add, Nat.add_sub_cancel' hshort]
    have hnumber := (h.number (w := (s.bytes.drop calls.headerSize).take (unsignedSize - calls.headerSize))
      (by rw [← hword, List.length_take]; omega)).2 (s.bytes.drop unsignedSize)
      (by simp only [List.length_drop]; omega)
    rw [← hword] at hnumber
    rw [payload, announced, if_pos hlen, Option.bind_some, if_neg hnumber]
  · rw [payload, announced, if_neg hlen]
    rfl

/-- A fresh block whose last byte is `c`, the others being 0. -/
def lastByte (c : UInt8) (_ i : Nat) : UInt8 := if i = 3 then c else 0

/-- What such a block makes of part of a header. -/
theorem number_lastByte (hcut : got.length < unsignedSize)
    (hsmall : ¬ ∃ c, got.head? = some c ∧ 128 ≤ c.toNat) {c : UInt8} (hc : c.toNat < 128) :
    toInt32 (netValue (headerWord (lastByte c 0) got)) = ((c.toNat + lowest got : Nat) : Int) := by
  have hblock : ∃ zeros, (∀ z ∈ zeros, z = 0) ∧
      ((List.range unsignedSize).map (lastByte c 0)).drop got.length = zeros ++ [c] := by
    refine ⟨([0, 0, 0] : List UInt8).drop got.length, ?_, ?_⟩
    · intro z hz
      simpa using List.mem_of_mem_drop hz
    · have hle : got.length ≤ ([0, 0, 0] : List UInt8).length := Nat.le_of_lt_succ hcut
      rw [← List.drop_append_of_le_length hle]
      rfl
  obtain ⟨zeros, hzeros, hdrop⟩ := hblock
  have hvalue : netValue (zeros ++ [c]) = c.toNat := by
    have hzero : netValue zeros = 0 := by
      rw [List.eq_replicate_of_mem hzeros]
      simp [netValue, Nat.ofDigits_replicate_zero]
    rw [netValue_append, hzero, netValue_singleton, Nat.mul_zero, Nat.add_zero]
  rw [headerWord, hdrop, number_of_small, hvalue]
  · rw [← hdrop]
    exact length_headerWord (lastByte c 0) (Nat.le_of_lt hcut)
  · intro d hd
    cases got with
    | nil =>
      cases zeros with
      | nil =>
        obtain rfl : c = d := Option.some.inj hd
        exact hc
      | cons z zeros =>
        obtain rfl : z = d := Option.some.inj hd
        rw [hzeros z List.mem_cons_self]
        decide
    | cons e got =>
      obtain rfl : e = d := Option.some.inj hd
      exact Nat.lt_of_not_le fun hle => hsmall ⟨e, rfl, hle⟩

/-- With part of a header `read_all` ends correctly whatever its blocks held before, exactly
when what is missing makes no difference. -/
theorem endsCorrectly_cut (hc : calls.Moves) (hs : s.tail ≠ .silent)
    (hcut : (s.bytes.take calls.headerSize).length < unsignedSize) :
    (∀ junk, EndsCorrectly calls ⟨junk, true, data⟩ s) ↔
      CutEnds data (s.bytes.take calls.headerSize)
        { s with bytes := s.bytes.drop calls.headerSize } := by
  constructor
  · intro h
    by_cases hlarge : ∃ c, (s.bytes.take calls.headerSize).head? = some c ∧ 128 ≤ c.toNat
    · exact Or.inl hlarge
    · -- two fresh blocks announce two numbers, and only one can be right
      have hzero := number_lastByte hcut hlarge (c := 0) (by decide)
      have hone := number_lastByte hcut hlarge (c := 1) (by decide)
      rw [show (0 : UInt8).toNat = 0 from rfl, Nat.zero_add] at hzero
      rw [show (1 : UInt8).toNat = 1 from rfl, Nat.add_comm] at hone
      have hend := (h (lastByte 0)).bodyEnds hc hs hzero.symm
      have hend' := (h (lastByte 1)).bodyEnds hc hs hone.symm
      have hstop := (readAll_result hc hs (lastByte 0) data hzero.symm).1 hend
      have hstop' := (readAll_result hc hs (lastByte 1) data hone.symm).1 hend'
      obtain ⟨code, block, t, hrun, hin, hout⟩ := h (lastByte 0)
      obtain ⟨code', block', t', hrun', hin', -⟩ := h (lastByte 1)
      obtain ⟨code₁, block₁, t₁, hrun₁, hsize, -⟩ := hstop
      obtain ⟨code₂, block₂, t₂, hrun₂, hsize', hfail'⟩ := hstop'
      obtain ⟨rfl, -, -⟩ : code = code₁ ∧ block = block₁ ∧ t = t₁ := by
        simpa using hrun.symm.trans hrun₁
      obtain ⟨rfl, -, -⟩ : code' = code₂ ∧ block' = block₂ ∧ t' = t₂ := by
        simpa using hrun'.symm.trans hrun₂
      have hno : ¬ Contains data (lowest (s.bytes.take calls.headerSize))
          (s.bytes.drop calls.headerSize) := by
        -- the first run would return the lowest number, so that is what is announced, and
        -- the second one returns another
        intro hcont
        have hcode := (hsize hcont).1
        cases hpayload : payload data s.bytes with
        | none =>
          have := hout (Or.inr hpayload)
          omega
        | some body =>
          have hbody := (hin body rfl hpayload).1
          have hbody' := (hin' body rfl hpayload).1
          by_cases hcont' : Contains data ((lowest (s.bytes.take calls.headerSize) + 1 : Nat) : Int)
              (s.bytes.drop calls.headerSize)
          · have := (hsize' hcont').1
            omega
          · have := hfail' hcont'
            omega
      have hpos : 0 < lowest (s.bytes.take calls.headerSize) := by
        by_contra h0
        refine hno ⟨Int.natCast_nonneg _, by omega, Or.inr (by omega)⟩
      have hlong : data = true → (s.bytes.drop calls.headerSize).length <
          lowest (s.bytes.take calls.headerSize) := by
        intro hd
        by_contra hle
        exact hno ⟨Int.natCast_nonneg _, by omega, Or.inl hd⟩
      refine Or.inr ⟨hpos, hlong, ?_⟩
      rcases hend with hle | hbroken | ⟨hd, hle⟩ | hbyte
      · omega
      · exact Or.inl hbroken
      · exact absurd ⟨Int.natCast_nonneg _, hle, Or.inl hd⟩ hno
      · exact Or.inr hbyte
  · intro h junk
    have hword : headerWord (junk 0) (s.bytes.take calls.headerSize) =
        s.bytes.take calls.headerSize ++ _ := rfl
    have hnone := h.payload_none hcut
    obtain ⟨hend, hno⟩ := h.number (hword ▸ length_headerWord (junk 0) (Nat.le_of_lt hcut))
    obtain ⟨code, block, s', hrun, -, hfail⟩ := (readAll_result hc hs junk data rfl).1 hend
    refine ⟨code, block, s', hrun, ?_, ?_⟩
    · intro body _ hbody
      rw [hnone] at hbody
      cases hbody
    · intro _
      exact hfail (hno _ (Nat.le_refl _))

/-! ## Every stream -/

/-- Without a block for the header `read_all` returns -1 before any call. -/
theorem readAll_noHeader (junk : Nat → Nat → UInt8) :
    readAll calls ⟨junk, false, data⟩ s = .ok (-1, none, s) := rfl

/-- **Which streams `read_all` ends on correctly**, whatever its blocks held before. -/
theorem stream_ends_iff (calls : Calls) (hc : calls.Moves) (tmp data : Bool) (s : Incoming)
    (hs : s.tail ≠ .silent) :
    (∀ junk, EndsCorrectly calls ⟨junk, tmp, data⟩ s) ↔ StreamEnds calls tmp data s := by
  cases tmp with
  | false =>
    constructor
    · intro _
      exact Or.inl rfl
    · intro _ junk
      refine ⟨-1, none, s, readAll_noHeader junk, ?_, fun _ => rfl⟩
      intro body htmp
      cases htmp
  | true =>
    rcases Nat.lt_or_eq_of_le (length_got_le hc s.bytes) with hcut | hwhole
    · rw [endsCorrectly_cut hc hs hcut]
      constructor
      · intro h
        exact Or.inr (Or.inr ⟨hcut, h⟩)
      · intro h
        rcases h with h | ⟨h, -⟩ | ⟨-, h⟩
        · cases h
        · exact absurd h (Nat.ne_of_lt hcut)
        · exact h
    · have hends : ∀ junk, EndsCorrectly calls ⟨junk, true, data⟩ s ↔ _ :=
        endsCorrectly_whole hc hs hwhole
      constructor
      · intro h
        exact Or.inr (Or.inl ⟨hwhole, (hends fun _ _ => 0).mp (h _)⟩)
      · intro h junk
        rcases h with h | ⟨-, h⟩ | ⟨h, -⟩
        · cases h
        · exact (hends junk).mpr h
        · exact absurd hwhole (Nat.ne_of_lt h)

/-- The theorem for a message of two bytes, followed by another byte and a close. -/
theorem stream_ends_iff_message :
    (∀ junk, EndsCorrectly (byteByByte 4 0) ⟨junk, true, true⟩ ⟨[0, 0, 0, 2, 7, 8, 9], .eof⟩) ↔
      StreamEnds (byteByByte 4 0) true true ⟨[0, 0, 0, 2, 7, 8, 9], .eof⟩ :=
  stream_ends_iff (byteByByte 4 0) (byteByByte_moves 4 0) true true _ (by decide)

/-- **A peer that closes inside a body**: five bytes are announced, two come, and
`read_all` does not return. -/
theorem cutBody_not_ends :
    (byteByByte 4 0).Moves ∧
      ¬ EndsCorrectly (byteByByte 4 0) (.granted fun _ _ => 0) ⟨[0, 0, 0, 5, 1, 2], .eof⟩ := by
  refine ⟨byteByByte_moves 4 0, ?_⟩
  rintro ⟨code, data, s', hrun, -⟩
  have hloop : readAll (byteByByte 4 0) (.granted fun _ _ => 0) ⟨[0, 0, 0, 5, 1, 2], .eof⟩ =
      .error .diverges := by decide +kernel
  cases hloop.symm.trans hrun

end Header
end RemoteTable
