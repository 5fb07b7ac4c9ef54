import RemoteTable.Socket
import RemoteTable.Message

/-! # Framing

`write_all` and `read_all`: a message travels behind its length, four bytes in network
order.  Both repeat their call on the body until all of it has been moved, and neither
looks at what its call on the header has moved.
-/
namespace RemoteTable
open CMem

/-- `UNSIGNED_SIZE`. -/
def unsignedSize : Nat := 4

/-- What the calls of one `read_all` or `write_all` come to: the one on the header, and
those on the body in order. -/
structure Calls where
  header : Outcome
  body : Nat → Outcome

/-- What `malloc` does in one `read_all`: the contents of its blocks, and whether it has
one for the header and one for the body. -/
structure Blocks where
  junk : Nat → Nat → UInt8
  tmp : Bool
  data : Bool

/-- Both blocks are there. -/
def Blocks.granted (junk : Nat → Nat → UInt8) : Blocks := ⟨junk, true, true⟩

/-! ## `write_all` -/

/-- The loop of `write_all`: the value returned, and the bytes put on the connection.
A call moves at least one byte, so `size + 1` rounds are enough. -/
def writeLoop (body : Nat → Outcome) (data : Block) (size : Int) :
    Nat → Nat → Int → Exec (Int × List UInt8)
  | 0, _, _ => .error .diverges
  | fuel + 1, n, sent =>
    if sent = size then .ok (sent, [])
    else do
      match ← writeOut data sent (body n) (toSizeT (size - sent)) with
      | none => return (-1, [])
      | some out =>
        let sent ← intAdd sent out.length
        let (code, rest) ← writeLoop body data size fuel (n + 1) sent
        return (code, out ++ rest)

/-- `write_all`: the value returned, and the bytes put on the connection.  What the call
on the header returns is dropped. -/
def writeAll (calls : Calls) (data : Block) (size : Int) : Exec (Int × List UInt8) := do
  let header ← writeOut (htonl size) 0 calls.header unsignedSize
  let (code, rest) ← writeLoop calls.body data size (size.toNat + 1) 0 0
  return (code, header.getD [] ++ rest)

/-! ## `read_all` -/

/-- The loop of `read_all`: the value returned, the block and what is left to read.  A
call that moves something shortens what is left to read, and one that moves nothing will
not move anything ever after: without a round for each byte the loop never ends. -/
def readLoop (body : Nat → Outcome) (size : Int) :
    Nat → Nat → Int → Option Block → Incoming → Exec (Int × Option Block × Incoming)
  | 0, _, _, _, _ => .error .diverges
  | fuel + 1, n, alreadyRead, data, s =>
    if alreadyRead = size then .ok (alreadyRead, data, s)
    else do
      let (readNow, rest) ← s.read (body n) (toSizeT (size - alreadyRead))
      match readNow, data with
      | none, _ => return (-1, data, rest)
      | some [], _ => readLoop body size fuel (n + 1) alreadyRead data rest
      -- a read into `NULL` fails, and leaves the bytes where they are
      | some (_ :: _), none => return (-1, none, s)
      | some (c :: got), some b =>
        let b ← store b alreadyRead.toNat (c :: got)
        let alreadyRead ← intAdd alreadyRead (c :: got).length
        readLoop body size fuel (n + 1) alreadyRead (some b) rest

/-- `read_all`: the value returned, `*data` and what is left to read.  The test of the
second allocation looks at `data`, which is never `NULL`, so the loop runs with or
without a block. -/
def readAll (calls : Calls) (mem : Blocks) (s : Incoming) : Exec (Int × Option Block × Incoming) :=
  if mem.tmp then do
    let tmp ← deref (malloc (mem.junk 0) unsignedSize)
    let (header, s) ← s.read calls.header unsignedSize
    let tmp ← store tmp 0 (header.getD [])
    let size ← ntohl tmp
    let size := toInt32 size
    let data := if mem.data then malloc (mem.junk 1) size else none
    readLoop calls.body size (s.bytes.length + 1) 0 0 data s
  else .ok (-1, none, s)

/-! ## What they do when no call fails -/

/-- No call fails. -/
structure Calls.Moves (calls : Calls) : Prop where
  header : calls.header ≠ .fails
  body : ∀ n, calls.body n ≠ .fails

theorem Calls.Moves.header_eq {calls : Calls} (hc : calls.Moves) :
    ∃ k, calls.header = .moves k := by
  cases h : calls.header with
  | fails => exact absurd h hc.header
  | moves k => exact ⟨k, rfl⟩

theorem Calls.Moves.body_eq {calls : Calls} (hc : calls.Moves) (n : Nat) :
    ∃ k, calls.body n = .moves k := by
  cases h : calls.body n with
  | fails => exact absurd h (hc.body n)
  | moves k => exact ⟨k, rfl⟩

/-- How many bytes of the header the call on it may move. -/
def Calls.headerSize (calls : Calls) : Nat :=
  match calls.header with
  | .fails => 0
  | .moves k => moved k unsignedSize

theorem toSizeT_natCast {x : Int} {n : Nat} (h : x = n) (hmax : (n : Int) ≤ intMax) :
    toSizeT x = n := by
  have := toSizeT_of_nonneg (show 0 ≤ x by omega) (h ▸ hmax)
  omega

section Write
variable {calls : Calls} {data : Block}

/-- **The loop of `write_all` puts the rest of the block on the connection**, however its
calls cut it. -/
theorem writeLoop_eq (hc : calls.Moves) (hmax : (data.length : Int) ≤ intMax) (fuel : Nat) :
    ∀ n sent, sent ≤ data.length → data.length - sent < fuel →
      writeLoop calls.body data data.length fuel n sent =
        .ok ((data.length : Int), data.drop sent) := by
  induction fuel with
  | zero =>
    intro n sent _ hfuel
    omega
  | succ fuel ih =>
    intro n sent hsent hfuel
    by_cases hend : sent = data.length
    · subst hend
      rw [writeLoop, if_pos rfl, List.drop_length]
    · have hcount : toSizeT ((data.length : Int) - sent) = data.length - sent :=
        toSizeT_natCast (by omega) (by omega)
      obtain ⟨k, hk⟩ := hc.body_eq n
      have hle := moved_le (k := k) (show 1 ≤ data.length - sent by omega)
      have hpos := moved_pos k (data.length - sent)
      have hwrite := writeOut_moves k data sent
        (show 1 ≤ data.length - sent by omega) (by unfold ssizeMax; unfold intMax at hmax; omega)
        (by omega)
      have hlen : ((data.drop sent).take (moved k (data.length - sent))).length =
          moved k (data.length - sent) := by simp [hle]
      rw [writeLoop, if_neg (by omega), hcount, hk, hwrite, ok_bind]
      simp only [hlen]
      rw [intAdd_natCast (by omega), ok_bind, ih (n + 1) _ (by omega) (by omega), ok_bind, pure_eq_ok,
        ← List.drop_drop, List.take_append_drop]

/-- **`write_all` puts on the connection what its first call moves of the header, and the
whole body.** -/
theorem writeAll_eq (hc : calls.Moves) (hmax : (data.length : Int) ≤ intMax) :
    writeAll calls data data.length =
      .ok ((data.length : Int), (htonl data.length).take calls.headerSize ++ data) := by
  obtain ⟨k, hk⟩ := hc.header_eq
  have hheader : writeOut (htonl data.length) 0 calls.header unsignedSize =
      .ok (some ((htonl data.length).take calls.headerSize)) := by
    rw [Calls.headerSize, hk]
    exact writeOut_moves k _ 0 (by decide) (by decide) (by rw [length_htonl]; decide)
  have hloop : writeLoop calls.body data data.length (data.length + 1) 0 0 =
      .ok ((data.length : Int), data) :=
    writeLoop_eq hc hmax (data.length + 1) 0 0 (by omega) (by omega)
  rw [writeAll, hheader, ok_bind, Int.toNat_natCast, hloop, ok_bind]
  rfl

end Write

section Read
variable {calls : Calls} {s s' : Incoming} {body rest : List UInt8} {tail : Tail}

/-- **One round of the loop** moves some bytes from the front of the stream to the front of
what is free of the block. -/
theorem readLoop_step (hc : calls.Moves) {size : Nat} (hmax : (size : Int) ≤ intMax) (n : Nat)
    {done : List UInt8} {b : Block} {room : Nat} (hb : Filled b done room)
    (hsize : done.length + room = size) (hroom : 1 ≤ room) {bytes : List UInt8} (hne : bytes ≠ [])
    (tail : Tail) :
    ∃ m b', 1 ≤ m ∧ m ≤ min room bytes.length ∧ Filled b' (done ++ bytes.take m) (room - m) ∧
      ∀ fuel, readLoop calls.body size (fuel + 1) n done.length (some b) ⟨bytes, tail⟩ =
        readLoop calls.body size fuel (n + 1) (done ++ bytes.take m).length (some b')
          ⟨bytes.drop m, tail⟩ := by
  have hlen : 1 ≤ bytes.length := List.length_pos_iff.mpr hne
  have hcount : toSizeT ((size : Int) - done.length) = room := toSizeT_natCast (by omega) (by omega)
  obtain ⟨k, hk⟩ := hc.body_eq n
  obtain ⟨m, hm⟩ : ∃ m, m = moved k (min room bytes.length) := ⟨_, rfl⟩
  have hle : m ≤ min room bytes.length := hm ▸ moved_le (by omega)
  have hpos : 1 ≤ m := hm ▸ moved_pos k _
  have hread : Incoming.read ⟨bytes, tail⟩ (.moves k) room =
      .ok (some (bytes.take m), ⟨bytes.drop m, tail⟩) := by
    rw [Incoming.read_moves hroom (by unfold ssizeMax; unfold intMax at hmax; omega) hne, ← hm]
  have htake : (bytes.take m).length = m := by
    rw [List.length_take]
    omega
  obtain ⟨b', hstore, hb'⟩ := hb.store (bytes.take m) (by omega)
  rw [htake] at hb'
  refine ⟨m, b', hpos, hle, hb', fun fuel => ?_⟩
  rw [readLoop, if_neg (by omega), hcount, hk, hread, ok_bind]
  obtain ⟨c, got, hgot⟩ := List.exists_cons_of_length_pos (htake ▸ hpos)
  rw [hgot] at hstore htake ⊢
  simp only [Int.toNat_natCast, hstore, ok_bind]
  rw [intAdd_natCast (by rw [htake]; omega), ok_bind, List.length_append]

/-- **The loop takes a stretch from the front of the stream**, however its calls cut it: one
that fills the block, or all there is. -/
theorem readLoop_drains (hc : calls.Moves) {size : Nat} (hmax : (size : Int) ≤ intMax)
    (rest : List UInt8) (tail : Tail) (todo : Nat) :
    ∀ n (done body : List UInt8) (b : Block) (room : Nat), body.length ≤ todo → Filled b done room →
      done.length + room = size → min room (body ++ rest).length = body.length →
      ∃ rounds n' b', rounds ≤ body.length ∧ Filled b' (done ++ body) (room - body.length) ∧
        ∀ fuel, readLoop calls.body size (fuel + rounds) n done.length (some b) ⟨body ++ rest, tail⟩ =
          readLoop calls.body size fuel n' (done ++ body).length (some b') ⟨rest, tail⟩ := by
  induction todo with
  | zero =>
    intro n done body b room htodo hb _ _
    obtain rfl := List.length_eq_zero_iff.mp (Nat.le_zero.mp htodo)
    exact ⟨0, n, b, Nat.le_refl 0, by simpa using hb, fun fuel => by simp⟩
  | succ todo ih =>
    intro n done body b room htodo hb hsize hall
    by_cases hend : body = []
    · subst hend
      exact ⟨0, n, b, Nat.le_refl 0, by simpa using hb, fun fuel => by simp⟩
    · have hlen : 1 ≤ body.length := List.length_pos_iff.mpr hend
      obtain ⟨m, b₁, hpos, hle, hb₁, hstep⟩ := readLoop_step hc hmax n hb hsize (by omega)
        (show body ++ rest ≠ [] by simp [hend]) tail
      rw [hall] at hle
      rw [List.take_append_of_le_length hle] at hb₁ hstep
      rw [List.drop_append_of_le_length hle] at hstep
      have htake : (body.take m).length = m := by simp [hle]
      have hdrop : (body.drop m).length = body.length - m := List.length_drop
      obtain ⟨rounds, n', b', hrounds, hb', hrun⟩ := ih (n + 1) (done ++ body.take m) (body.drop m) b₁
        (room - m) (by omega) hb₁ (by rw [List.length_append, htake]; omega)
        (by rw [List.length_append] at hall ⊢; omega)
      rw [List.append_assoc, List.take_append_drop] at hb' hrun
      refine ⟨rounds + 1, n', b', by omega, ?_, fun fuel => ?_⟩
      · rwa [hdrop, show room - m - (body.length - m) = room - body.length by omega] at hb'
      · rw [← Nat.add_assoc, hstep]
        exact hrun fuel

/-- **The loop of `read_all` fills its block from the front of the stream**, however its
calls cut it. -/
theorem readLoop_eq (hc : calls.Moves) (rest : List UInt8) (tail : Tail) {body : List UInt8}
    (hmax : (body.length : Int) ≤ intMax) {fuel : Nat} (hfuel : body.length < fuel) {b : Block}
    (hb : Filled b [] body.length) :
    readLoop calls.body body.length fuel 0 0 (some b) ⟨body ++ rest, tail⟩ =
      .ok (body.length, some body, ⟨rest, tail⟩) := by
  obtain ⟨rounds, n', b', hrounds, hb', hrun⟩ := readLoop_drains hc hmax rest tail body.length 0 [] body b
    body.length (Nat.le_refl _) hb (Nat.zero_add _) (by simp)
  rw [Nat.sub_self, List.nil_append] at hb'
  obtain rfl := hb'.full
  have hstop := hrun (fuel - rounds)
  rw [List.nil_append] at hstop
  rw [Nat.sub_add_cancel (by omega)] at hstop
  refine hstop.trans ?_
  obtain ⟨more, hmore⟩ : ∃ more, fuel - rounds = more + 1 := ⟨fuel - rounds - 1, by omega⟩
  rw [hmore, readLoop, if_pos rfl]

/-- **`read_all` returns the message at the front of the stream**, when its call on the
header reads all of it. -/
theorem readAll_eq (hc : calls.Moves) (hfull : calls.headerSize = unsignedSize)
    (hmax : (body.length : Int) ≤ intMax) (junk : Nat → Nat → UInt8) :
    readAll calls (.granted junk) ⟨htonl body.length ++ body ++ rest, tail⟩ =
      .ok ((body.length : Int), some body, ⟨rest, tail⟩) := by
  obtain ⟨k, hk⟩ := hc.header_eq
  have hmoved : moved k unsignedSize = unsignedSize := by
    rw [Calls.headerSize, hk] at hfull
    exact hfull
  obtain ⟨tmp, htmp, hstore⟩ := malloc_store (junk 0)
    (show ((htonl body.length).length : Int) = unsignedSize from rfl)
  have hread : Incoming.read ⟨htonl body.length ++ body ++ rest, tail⟩ calls.header unsignedSize =
      .ok (some (htonl body.length), ⟨body ++ rest, tail⟩) := by
    rw [hk, Incoming.read_moves (by decide) (by decide) (by simp [htonl])]
    have hmin : min unsignedSize (htonl body.length ++ body ++ rest).length = unsignedSize := by
      simp only [List.length_append, length_htonl, unsignedSize]
      omega
    rw [hmin, hmoved]
    rfl
  obtain ⟨b, hb, hfilled⟩ := filled_malloc (junk 1) (show (0 : Int) ≤ body.length by omega)
  rw [Int.toNat_natCast] at hfilled
  have hloop := readLoop_eq hc rest tail hmax
    (show body.length < (body ++ rest).length + 1 by rw [List.length_append]; omega) hfilled
  have hsize : toInt32 body.length = body.length :=
    toInt32_of_nonneg (by omega) hmax
  unfold readAll Blocks.granted
  simp only [if_true, htmp, deref_some, ok_bind, hread, Option.getD_some, hstore,
    ntohl_htonl (Int.natCast_nonneg body.length) hmax, hsize, hb]
  exact hloop

/-- What a loop that ends has taken from the stream: as many bytes as it was short of. -/
theorem readLoop_consumes {outcomes : Nat → Outcome} {size code : Int} {data' : Option Block}
    (hcode : code ≠ -1) (fuel : Nat) : ∀ n (alreadyRead : Int) (data : Option Block) (s : Incoming),
      readLoop outcomes size fuel n alreadyRead data s = .ok (code, data', s') →
      code = size ∧ (s.bytes.length : Int) = size - alreadyRead + s'.bytes.length := by
  induction fuel with
  | zero =>
    intro n alreadyRead data s h
    cases h
  | succ fuel ih =>
    intro n alreadyRead data s h
    rw [readLoop] at h
    split at h
    · rename_i hend
      obtain ⟨rfl, -, rfl⟩ : alreadyRead = code ∧ data = data' ∧ s = s' := by
        simpa using Except.ok.inj h
      exact ⟨hend, by omega⟩
    · obtain ⟨⟨readNow, s₁⟩, hread, h⟩ := bind_eq_ok.mp h
      dsimp only at h
      split at h
      · exact absurd (congrArg Prod.fst (Except.ok.inj h)).symm hcode
      · obtain ⟨hsplit, -⟩ := Incoming.read_some hread
        obtain ⟨hsize, hlen⟩ := ih _ _ _ _ h
        refine ⟨hsize, ?_⟩
        rw [hsplit, List.nil_append]
        exact hlen
      · exact absurd (congrArg Prod.fst (Except.ok.inj h)).symm hcode
      · rename_i c got b
        obtain ⟨hsplit, -⟩ := Incoming.read_some hread
        obtain ⟨b', -, h⟩ := bind_eq_ok.mp h
        obtain ⟨next, hnext, h⟩ := bind_eq_ok.mp h
        obtain ⟨hnext, -⟩ := checkInt_eq_ok.mp hnext
        obtain ⟨hsize, hlen⟩ := ih _ _ _ _ h
        refine ⟨hsize, ?_⟩
        rw [hsplit, List.length_append]
        omega

end Read
end RemoteTable
