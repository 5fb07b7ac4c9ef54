import RemoteTable.Framing

/-! # Messages over a stream

One end sends payloads with successive `write_all` calls, the other one receives them
with successive `read_all` calls.  The bodies survive any fragmentation.  A header does
not: when its call moves less than four bytes the rest is never sent, or is taken for
part of the body, and the ends stay apart for good.
-/
namespace RemoteTable
open CMem

/-- Successive `write_all` calls, the `i`-th one being the first: the bytes each of them puts
on the connection. -/
def writeMessages (w : Nat → Calls) : Nat → List Block → Exec (List (List UInt8))
  | _, [] => .ok []
  | i, m :: ms => do
    let (_, piece) ← writeAll (w i) m m.length
    let pieces ← writeMessages w (i + 1) ms
    return piece :: pieces

/-- **The ends are in step**: each `read_all` in turn returns the payload of the
`write_all` it corresponds to, and leaves on the connection what the later ones have
put there. -/
def InStep (r : Nat → Calls) (junk : Nat → Nat → Nat → UInt8) :
    Nat → List Block → List (List UInt8) → Incoming → Prop
  | i, m :: ms, _ :: pieces, s =>
    ∃ s', readAll (r i) (.granted (junk i)) s = .ok ((m.length : Int), some m, s') ∧
      s'.bytes = pieces.flatten ∧ InStep r junk (i + 1) ms pieces s'
  | _, _, _, _ => True

/-- **Framing survives the fragmentation** `w` of the writes and `r` of the reads, whatever
the blocks of the receiver hold at first and whatever comes after the messages. -/
def Framed (w r : Nat → Calls) (ms : List Block) : Prop :=
  ∃ pieces, writeMessages w 0 ms = .ok pieces ∧
    ∀ junk tail, InStep r junk 0 ms pieces ⟨pieces.flatten, tail⟩

section Framing
variable {w r : Nat → Calls} {m : Block} {ms : List Block} {i : Nat}

/-- The bytes that `write_all` puts on the connection. -/
def piece (calls : Calls) (m : Block) : List UInt8 :=
  (htonl m.length).take calls.headerSize ++ m

/-- The bytes of successive calls. -/
def pieces (w : Nat → Calls) : Nat → List Block → List (List UInt8)
  | _, [] => []
  | i, m :: ms => piece (w i) m :: pieces w (i + 1) ms

theorem writeMessages_eq (hw : ∀ i, (w i).Moves) (ms : List Block) :
    ∀ i, (∀ m ∈ ms, (m.length : Int) ≤ intMax) → writeMessages w i ms = .ok (pieces w i ms) := by
  induction ms with
  | nil =>
    intro i _
    rfl
  | cons m ms ih =>
    intro i hmax
    rw [writeMessages, writeAll_eq (hw i) (hmax m List.mem_cons_self), ok_bind]
    dsimp only
    rw [ih (i + 1) fun m' hm' => hmax m' (List.mem_cons_of_mem m hm'), ok_bind]
    rfl

/-- **Whole headers keep the ends in step.** -/
theorem inStep_of_whole (hr : ∀ i, (r i).Moves) (ms : List Block) :
    ∀ i (junk : Nat → Nat → Nat → UInt8) (tail : Tail), (∀ m ∈ ms, (m.length : Int) ≤ intMax) →
      (∀ j < ms.length, (w (i + j)).headerSize = unsignedSize ∧
        (r (i + j)).headerSize = unsignedSize) →
      InStep r junk i ms (pieces w i ms) ⟨(pieces w i ms).flatten, tail⟩ := by
  induction ms with
  | nil =>
    intro i junk tail _ _
    trivial
  | cons m ms ih =>
    intro i junk tail hmax hwhole
    obtain ⟨hw, hread⟩ := hwhole 0 (Nat.succ_pos _)
    refine ⟨⟨(pieces w (i + 1) ms).flatten, tail⟩, ?_, rfl, ?_⟩
    · have hpiece : (pieces w i (m :: ms)).flatten =
          htonl m.length ++ m ++ (pieces w (i + 1) ms).flatten := by
        have htake : (htonl m.length).take (w i).headerSize = htonl m.length := by
          rw [show (w i).headerSize = unsignedSize from hw]
          rfl
        rw [pieces, List.flatten_cons, piece, htake]
      rw [hpiece]
      exact readAll_eq (hr i) hread (hmax m List.mem_cons_self) _
    · refine ih (i + 1) junk tail (fun m' hm' => hmax m' (List.mem_cons_of_mem m hm')) ?_
      intro j hj
      have hnext := hwhole (j + 1) (by simpa using hj)
      rwa [show i + (j + 1) = i + 1 + j by omega] at hnext

theorem headerSize_pos (h : (w i).Moves) : 1 ≤ (w i).headerSize := by
  obtain ⟨k, hk⟩ := h.header_eq
  rw [Calls.headerSize, hk]
  exact moved_pos k _

theorem headerSize_le (h : (w i).Moves) : (w i).headerSize ≤ unsignedSize := by
  obtain ⟨k, hk⟩ := h.header_eq
  rw [Calls.headerSize, hk]
  exact moved_le (by decide)

/-- What follows when a message has arrived and the ends are in step: of the header as much
was read as was written, and what was not written is what the fresh block held. -/
theorem header_of_arrived (hw : (w i).Moves) (hr : (r i).Moves) {junk : Nat → Nat → UInt8}
    {later : List UInt8} {tail : Tail} {s' : Incoming}
    (h : readAll (r i) (.granted junk) ⟨piece (w i) m ++ later, tail⟩ =
      .ok ((m.length : Int), some m, s')) (hlater : s'.bytes = later) :
    ((w i).headerSize = unsignedSize → (r i).headerSize = unsignedSize) ∧
      ((w i).headerSize < unsignedSize → (m.length : Int) % 256 = (junk 0 3).toNat) := by
  have hpos := headerSize_pos hw
  have hle := headerSize_le hw
  obtain ⟨k, hk⟩ := hr.header_eq
  obtain ⟨bytes, hbytes⟩ : ∃ bytes, bytes = piece (w i) m ++ later := ⟨_, rfl⟩
  have hlen : bytes.length = (w i).headerSize + m.length + later.length := by
    rw [hbytes, piece, List.length_append, List.length_append, List.length_take, length_htonl]
    unfold unsignedSize at hle
    omega
  have hne : bytes ≠ [] := List.ne_nil_of_length_pos (by omega)
  rw [← hbytes] at h
  -- the call on the header takes `n` bytes
  obtain ⟨n, hn⟩ : ∃ n, n = moved k (min unsignedSize bytes.length) := ⟨_, rfl⟩
  have hnle : n ≤ min unsignedSize bytes.length := hn ▸ moved_le (by unfold unsignedSize; omega)
  have hread : Incoming.read ⟨bytes, tail⟩ (r i).header unsignedSize =
      .ok (some (bytes.take n), ⟨bytes.drop n, tail⟩) := by
    rw [hk, Incoming.read_moves (by decide) (by decide) hne, hn]
  have htmp : malloc (junk 0) unsignedSize = some ((List.range 4).map (junk 0)) := rfl
  simp only [readAll, Blocks.granted, if_true, htmp, deref_some, ok_bind, hread,
    Option.getD_some] at h
  obtain ⟨word, hstore, h⟩ := bind_eq_ok.mp h
  obtain ⟨v, hv, h⟩ := bind_eq_ok.mp h
  obtain ⟨hsize, htaken⟩ := readLoop_consumes (by omega) _ _ _ _ _ h
  have hnw : n = (w i).headerSize := by
    simp only [List.length_drop, hlater] at htaken
    omega
  refine ⟨fun hfull => ?_, fun hshort => ?_⟩
  · rw [Calls.headerSize, hk]
    change moved k unsignedSize = unsignedSize
    unfold moved unsignedSize at *
    omega
  · have htake : (bytes.take n).length = n := by simp; omega
    have hword : word[3]? = some (junk 0 3) := by
      unfold store at hstore
      split at hstore
      · obtain rfl := Except.ok.inj hstore
        rw [Nat.zero_add, htake, List.take_zero, List.nil_append,
          List.getElem?_append_right (by unfold unsignedSize at hshort; omega), htake,
          List.getElem?_drop, show n + (3 - n) = 3 by unfold unsignedSize at hshort; omega]
        rfl
      · cases hstore
    obtain ⟨d, hd, hmod⟩ := ntohl_mod hv
    obtain rfl := Option.some.inj (hd.symm.trans hword)
    rw [hsize, toInt32_mod, hmod]

/-- **Ends that stay in step for any contents of the receiver's blocks move whole
headers.** -/
theorem whole_of_inStep (hw : ∀ i, (w i).Moves) (hr : ∀ i, (r i).Moves) (ms : List Block) :
    ∀ i, (∀ m ∈ ms, (m.length : Int) ≤ intMax) →
      (∀ junk tail, InStep r junk i ms (pieces w i ms) ⟨(pieces w i ms).flatten, tail⟩) →
      ∀ j < ms.length, (w (i + j)).headerSize = unsignedSize ∧
        (r (i + j)).headerSize = unsignedSize := by
  induction ms with
  | nil =>
    intro i _ _ j hj
    cases hj
  | cons m ms ih =>
    intro i hmax hstep
    have hhead : (w i).headerSize = unsignedSize ∧ (r i).headerSize = unsignedSize := by
      -- a fresh block whose last byte is not that of the length
      obtain ⟨s', hread, hlater, -⟩ := hstep (fun _ _ _ => toByte (m.length + 1)) .silent
      rw [pieces, List.flatten_cons] at hread
      obtain ⟨hwhole, hshort⟩ := header_of_arrived (hw i) (hr i) hread hlater
      have hfull : (w i).headerSize = unsignedSize := by
        by_contra hne
        have hmod : (m.length : Int) % 256 = (toByte (m.length + 1)).toNat :=
          hshort (Nat.lt_of_le_of_ne (headerSize_le (hw i)) hne)
        have hbyte := toNat_toByte (m.length + 1)
        omega
      exact ⟨hfull, hwhole hfull⟩
    have hrest := ih (i + 1) (fun m' hm' => hmax m' (List.mem_cons_of_mem m hm')) fun junk tail => by
      obtain ⟨s', hread, hlater, hnext⟩ := hstep junk tail
      have hwhole : (htonl m.length).take (w i).headerSize = htonl m.length := by
        rw [hhead.1]
        rfl
      rw [pieces, List.flatten_cons, piece, hwhole, readAll_eq (hr i) hhead.2
        (hmax m List.mem_cons_self)] at hread
      obtain ⟨-, -, rfl⟩ : True ∧ True ∧ ⟨(pieces w (i + 1) ms).flatten, tail⟩ = s' := by
        simpa using Except.ok.inj hread
      exact hnext
    intro j hj
    cases j with
    | zero => exact hhead
    | succ j =>
      have hj' := hrest j (by simpa using hj)
      rwa [show i + 1 + j = i + (j + 1) by omega] at hj'

/-- **Framing survives a fragmentation exactly when every call on a header moves all four
bytes of it**, at both ends; how the bodies are cut makes no difference. -/
theorem framed_iff (hw : ∀ i, (w i).Moves) (hr : ∀ i, (r i).Moves)
    (hmax : ∀ m ∈ ms, (m.length : Int) ≤ intMax) :
    Framed w r ms ↔ ∀ i < ms.length,
      (w i).headerSize = unsignedSize ∧ (r i).headerSize = unsignedSize := by
  have hzero : (∀ j < ms.length, (w (0 + j)).headerSize = unsignedSize ∧
      (r (0 + j)).headerSize = unsignedSize) ↔
      ∀ i < ms.length, (w i).headerSize = unsignedSize ∧ (r i).headerSize = unsignedSize := by
    simp only [Nat.zero_add]
  rw [← hzero]
  constructor
  · rintro ⟨ps, hps, hstep⟩
    rw [writeMessages_eq hw ms 0 hmax] at hps
    obtain rfl := Except.ok.inj hps
    exact whole_of_inStep hw hr ms 0 hmax hstep
  · intro hwhole
    refine ⟨_, writeMessages_eq hw ms 0 hmax, fun junk tail => ?_⟩
    exact inStep_of_whole hr ms 0 junk tail hmax hwhole

/-- Calls that move a byte at a time, after a header of `k` bytes. -/
def byteByByte (k : Nat) (_ : Nat) : Calls := ⟨.moves k, fun _ => .moves 1⟩

theorem byteByByte_moves (k i : Nat) : (byteByByte k i).Moves := ⟨nofun, nofun⟩

/-- The theorem for two messages that are sent and received a byte at a time. -/
theorem framed_iff_bytes : Framed (byteByByte 4) (byteByByte 4) [[1, 2, 3], []] ↔
    ∀ i < 2, (byteByByte 4 i).headerSize = unsignedSize ∧
      (byteByByte 4 i).headerSize = unsignedSize :=
  framed_iff (byteByByte_moves 4) (byteByByte_moves 4) (by simp [intMax])

/-- **A header of which one byte is written**: three bytes are sent, and a message of none
is received. -/
theorem shortHeader_not_framed :
    (∀ i, (byteByByte 1 i).Moves) ∧ (∀ i, (byteByByte 4 i).Moves) ∧
      ¬ Framed (byteByByte 1) (byteByByte 4) [[0, 0, 0]] := by
  refine ⟨byteByByte_moves 1, byteByByte_moves 4, ?_⟩
  rintro ⟨ps, hps, hstep⟩
  obtain rfl := Except.ok.inj (show Except.ok [[0, 0, 0, 0]] = Except.ok ps from hps)
  obtain ⟨s', hread, -⟩ := hstep (fun _ _ _ => 0) .silent
  have hempty : readAll (byteByByte 4 0) (.granted fun _ _ => 0) ⟨[0, 0, 0, 0], .silent⟩ =
      .ok (0, some [], ⟨[], .silent⟩) := by decide +kernel
  cases hempty.symm.trans hread

end Framing
end RemoteTable
