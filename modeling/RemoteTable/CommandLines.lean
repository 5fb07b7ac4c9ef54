import Mathlib.Data.List.Forall2
import RemoteTable.CommandLoop

/-! # From lines to commands

`fgets` has room for 511 bytes.  A line of up to 510 is read with its newline, which is then
taken away, and its command gets all its bytes.  Of a longer one only a piece is read, without
a newline: its last byte is taken away instead, and the rest of the line is read as further
commands.

`main` does not look at what `fgets` returns, so the loop goes into one more round when the input
is at its end, and that round comes to a fault.
-/
namespace RemoteTable
open CMem Fields

/-- A line without its newline. -/
structure Line where
  bytes : List UInt8
  noNul : (0 : UInt8) ∉ bytes
  noNewline : (10 : UInt8) ∉ bytes

/-- The input with these lines. -/
def input (lines : List Line) : List UInt8 := lines.flatMap fun l => l.bytes ++ [10]

/-- The bytes that `fgets` reads when it has room for as many, and those that are left. -/
def readPiece : Nat → List UInt8 → List UInt8 × List UInt8
  | 0, s => ([], s)
  | _ + 1, [] => ([], [])
  | n + 1, c :: s => if c = 10 then ([c], s) else (c :: (readPiece n s).1, (readPiece n s).2)

section ReadPiece
variable {n : Nat} {s l : List UInt8}

theorem length_readPiece_le (n : Nat) (s : List UInt8) : (readPiece n s).1.length ≤ n := by
  induction n generalizing s with
  | zero => exact Nat.le_refl 0
  | succ n ih =>
    cases s with
    | nil => exact Nat.zero_le _
    | cons c s =>
      rw [readPiece]
      split
      · simp
      · exact Nat.succ_le_succ (ih s)

theorem head_readPiece (c : UInt8) : (readPiece (n + 1) (c :: s)).1.head? = some c := by
  rw [readPiece]
  split <;> rfl

theorem readPiece_ne_nil (h : s ≠ []) : (readPiece (n + 1) s).1 ≠ [] := by
  obtain ⟨c, s, rfl⟩ := List.exists_cons_of_ne_nil h
  intro hnil
  have hhead := head_readPiece (n := n) (s := s) c
  rw [hnil] at hhead
  cases hhead

/-- Nothing is read behind a newline. -/
theorem newline_notMem_readPiece (n : Nat) (s : List UInt8) :
    (10 : UInt8) ∉ (readPiece n s).1.dropLast := by
  induction n generalizing s with
  | zero => simp [readPiece]
  | succ n ih =>
    cases s with
    | nil => simp [readPiece]
    | cons c s =>
      rw [readPiece]
      split
      · simp
      · rename_i hc
        intro hmem
        cases hrest : (readPiece n s).1 with
        | nil => simp [hrest] at hmem
        | cons d rest =>
          have hih := ih s
          rw [hrest] at hih
          simp only [hrest, List.dropLast_cons_cons, List.mem_cons] at hmem
          rcases hmem with heq | hmem
          · exact hc heq.symm
          · exact hih hmem

/-- A line that fits is read with its newline. -/
theorem readPiece_line (hl : (10 : UInt8) ∉ l) (hn : l.length < n) :
    readPiece n (l ++ 10 :: s) = (l ++ [10], s) := by
  induction l generalizing n with
  | nil =>
    obtain ⟨n, rfl⟩ := Nat.exists_eq_succ_of_ne_zero (Nat.ne_of_gt hn)
    simp [readPiece]
  | cons c l ih =>
    obtain ⟨n, rfl⟩ := Nat.exists_eq_succ_of_ne_zero (Nat.ne_of_gt (Nat.zero_lt_of_lt hn))
    have hc : c ≠ 10 := fun heq => hl (heq ▸ List.mem_cons_self)
    rw [List.cons_append, readPiece, if_neg hc,
      ih (fun h => hl (List.mem_cons_of_mem _ h)) (Nat.lt_of_succ_lt_succ hn)]
    rfl

end ReadPiece

/-- `fgets(parser.com, RESP_SIZE, stdin)`: what it reads, and what is left; it reads nothing at
the end of the input. -/
def fgets (s : List UInt8) : Option Piece × List UInt8 :=
  if h : s = [] then (none, [])
  else
    let piece : Piece :=
      { bytes := (readPiece 511 s).1
        nonempty := readPiece_ne_nil h
        fits := Nat.lt_succ_of_le (length_readPiece_le 511 s)
        newline := newline_notMem_readPiece 511 s }
    (some piece, (readPiece 511 s).2)

/-- It reads something as long as there is something. -/
theorem fgets_some {s : List UInt8} (h : s ≠ []) :
    ∃ piece, fgets s = (some piece, (readPiece 511 s).2) ∧ piece.bytes = (readPiece 511 s).1 :=
  ⟨_, dif_neg h, rfl⟩

/-- The strings `parser.ops[0]` to `parser.ops[c-1]`. -/
def operands (p : Parser) : Exec (List (List UInt8)) :=
  (p.ops.take p.c).mapM fun slot => do
    let off ← deref slot
    readString (p.com.drop off)

/-- A round up to the first `strcmp`, and its operands. -/
def readRound (res : Option Piece) : Exec (Parser × List (List UInt8)) := do
  let p ← parse res
  let ops ← operands p
  return (p, ops)

/-- The rounds of the loop, in order, up to the first `quit`: the operands of each, or the fault
that it comes to.  One round more than there are bytes will do, since each one before the last
reads a byte. -/
def commandTrace : Nat → (Nat → Turn) → List UInt8 → List (Exec (List (List UInt8)))
  | 0, _, _ => []
  | n + 1, turns, s =>
    if (turns 0).connected then
      match readRound (fgets s).1 with
      | .error f => [.error f]
      | .ok (p, ops) =>
        .ok ops :: if goesOn (turns 0) p then commandTrace n (fun i => turns (i + 1)) (fgets s).2 else []
    else []

/-- The command of the line is `quit`. -/
def Quits (l : Line) : Prop := l.bytes.takeWhile (· ≠ 32) = Command.quit.text

instance (l : Line) : Decidable (Quits l) := inferInstanceAs (Decidable (_ = _))

/-- The lines up to the first `quit`. -/
def uptoQuit : List Line → List Line
  | [] => []
  | l :: lines => l :: if Quits l then [] else uptoQuit lines

/-- **The operands are the line**: one more than there are spaces, up to three; joined by
spaces they are the line; and only the last one holds spaces itself. -/
structure Splits (ops : List (List UInt8)) (l : Line) : Prop where
  count : ops.length = 1 + min 2 (l.bytes.count 32)
  joined : [32].intercalate ops = l.bytes
  unbroken : ∀ op ∈ ops.dropLast, (32 : UInt8) ∉ op

/-- The round reads the line. -/
def Reads (round : Exec (List (List UInt8))) (l : Line) : Prop := ∃ ops, round = .ok ops ∧ Splits ops l

/-- **Every line becomes one command**, in order and with all its bytes, and there are no other
rounds. -/
def OneCommandEach (turns : Nat → Turn) (lines : List Line) : Prop :=
  List.Forall₂ Reads (commandTrace ((input lines).length + 1) turns (input lines)) (uptoQuit lines)

/-- The command of the line has its operands, and the function it calls comes back. -/
def LineAnswered (turn : Turn) (l : Line) : Prop :=
  ∃ call, callOf (fields 32 2 l.bytes) = some call ∧ turn.replies call = true

/-- **The condition** on the lines up to the first `quit`: the client is connected, and the line
and its newline fit into the buffer.  If the line is not `quit`, either its command is answered and
the next round meets the condition, or it is not answered and was the last one.  Behind the last
line `update_rtable_t` has to fail, or there is one round too many. -/
def LinesMeet : (Nat → Turn) → List Line → Prop
  | turns, [] => (turns 0).connected = false
  | turns, l :: lines => (turns 0).connected = true ∧ l.bytes.length ≤ 510 ∧
      (Quits l ∨ (LineAnswered (turns 0) l ∧ LinesMeet (fun i => turns (i + 1)) lines) ∨
        (lines = [] ∧ ¬ LineAnswered (turns 0) l))

/-! ## One round -/

section Round
variable {p : Parser} {fs : List (List UInt8)}

/-- What is read back at the offsets. -/
theorem mapM_offsets (pre rest : Block) (hnul : ∀ f ∈ fs, (0 : UInt8) ∉ f) :
    ((offsets pre.length fs).map some).mapM (fun slot => do
      let off ← deref slot
      readString ((pre ++ laid fs ++ rest).drop off)) = .ok fs := by
  induction fs generalizing pre with
  | nil => rfl
  | cons f fs ih =>
    have hmem : pre ++ laid (f :: fs) ++ rest = pre ++ f ++ [0] ++ laid fs ++ rest := by simp [laid]
    have hdrop : (pre ++ f ++ [0] ++ laid fs ++ rest).drop pre.length =
        f ++ 0 :: (laid fs ++ rest) := by
      have h : pre ++ f ++ [0] ++ laid fs ++ rest = pre ++ (f ++ 0 :: (laid fs ++ rest)) := by simp
      rw [h, List.drop_left]
    have hih := ih (pre ++ f ++ [0]) fun f' hf' => hnul f' (List.mem_cons_of_mem _ hf')
    simp only [List.length_append, List.length_singleton] at hih
    rw [hmem, offsets, List.map_cons, List.mapM_cons, deref_some, ok_bind, hdrop,
      readString_append_nul (hnul f List.mem_cons_self), ok_bind, hih]
    rfl

theorem HasFields.operands (h : HasFields p fs) (hnul : ∀ f ∈ fs, (0 : UInt8) ∉ f) :
    operands p = .ok fs := by
  obtain ⟨rest, hcom⟩ := h.com
  have htake : p.ops.take p.c = (offsets 0 fs).map some := by
    rw [h.ops, h.c, slots, List.take_left' (by simp)]
  have hread := mapM_offsets [] rest hnul
  rw [List.nil_append, ← hcom] at hread
  rw [RemoteTable.operands, htake]
  exact hread

/-- After its call the loop goes on, as the operands have it. -/
def continues (turn : Turn) (fs : List (List UInt8)) : Bool :=
  match callOf fs with
  | some call => call ≠ .quit && turn.replies call
  | none => false

theorem HasFields.goesOn (h : HasFields p fs) (hnul : ∀ f ∈ fs, (0 : UInt8) ∉ f) (hpos : fs ≠ [])
    (hle : fs.length ≤ 3) (turn : Turn) : goesOn turn p = continues turn fs := by
  rw [RemoteTable.goesOn, execute_eq h hnul hpos hle, continues]
  cases callOf fs <;> rfl

end Round

section Trace
variable {turns : Nat → Turn} {n : Nat} {s s' : List UInt8} {piece : Piece}

/-- A round that reads a string: its operands, and the rounds behind it if the loop goes on. -/
theorem commandTrace_succ (hconn : (turns 0).connected = true) (hread : fgets s = (some piece, s'))
    (hne : cstr piece.bytes ≠ []) :
    commandTrace (n + 1) turns s = .ok (fields 32 2 piece.text) ::
      if continues (turns 0) (fields 32 2 piece.text) then commandTrace n (fun i => turns (i + 1)) s'
      else [] := by
  have hnul := nul_notMem_fields piece
  obtain ⟨p, hparse, hp⟩ := parse_eq hne
  have hround : readRound (some piece) = .ok (p, fields 32 2 piece.text) := by
    rw [readRound, hparse, ok_bind, hp.operands hnul, ok_bind, pure_eq_ok]
  rw [commandTrace, if_pos hconn, hread]
  simp only [hround, hp.goesOn hnul fields_ne_nil (length_fields_le _)]

theorem commandTrace_disconnected (hconn : (turns 0).connected ≠ true) :
    commandTrace n turns s = [] := by
  cases n with
  | zero => rfl
  | succ n => rw [commandTrace, if_neg hconn]

/-- The round at the end of the input. -/
theorem commandTrace_end (hconn : (turns 0).connected = true) :
    commandTrace (n + 1) turns [] = [.error .outOfBounds] := by
  have hparse : parse none = .error .outOfBounds := parse_fails fun p hp => by cases hp
  have hround : readRound none = .error .outOfBounds := by rw [readRound, hparse, error_bind]
  rw [commandTrace, if_pos hconn, show (fgets []).1 = none from rfl, hround]

end Trace

/-! ## One line -/

section OneLine
variable {l : Line} {lines : List Line} {piece : Piece} {s s' : List UInt8}

theorem input_cons (l : Line) (lines : List Line) :
    input (l :: lines) = l.bytes ++ 10 :: input lines := by simp [input]

/-- `fgets` reads a line with its newline, if it is not too long. -/
theorem fgets_line (lines : List Line) (hl : l.bytes.length ≤ 510) :
    ∃ piece, fgets (input (l :: lines)) = (some piece, input lines) ∧
      cstr piece.bytes ≠ [] ∧ piece.text = l.bytes := by
  have hread : readPiece 511 (input (l :: lines)) = (l.bytes ++ [10], input lines) := by
    rw [input_cons]
    exact readPiece_line l.noNewline (by omega)
  have hne : input (l :: lines) ≠ [] := by simp [input_cons]
  have hno : (0 : UInt8) ∉ l.bytes ++ [10] := by
    simp only [List.mem_append, List.mem_singleton, not_or]
    exact ⟨l.noNul, by decide⟩
  have hcstr : cstr (l.bytes ++ [10]) = l.bytes ++ [10] := by
    rw [← cstr_append _ [], cstr_append_nul hno]
  obtain ⟨piece, hfgets, hbytes⟩ := fgets_some hne
  rw [hread] at hfgets hbytes
  refine ⟨piece, hfgets, ?_, ?_⟩
  · rw [hbytes, hcstr]
    simp
  · rw [Piece.text, hbytes, hcstr, List.dropLast_concat]

/-- Of any other line it reads a piece that has lost a byte. -/
theorem fgets_longLine (lines : List Line) (hl : 510 < l.bytes.length) :
    ∃ piece s', fgets (input (l :: lines)) = (some piece, s') ∧
      cstr piece.bytes ≠ [] ∧ piece.text.length ≤ 510 := by
  have hne : input (l :: lines) ≠ [] := by simp [input_cons]
  have hpos : l.bytes ≠ [] := List.ne_nil_of_length_pos (by omega)
  obtain ⟨c, bytes, hbytes⟩ := List.exists_cons_of_ne_nil hpos
  have hc : c ≠ 0 := fun h0 => l.noNul (by rw [hbytes, h0]; exact List.mem_cons_self)
  have hhead : (readPiece 511 (input (l :: lines))).1.head? = some c := by
    rw [input_cons, hbytes]
    exact head_readPiece c
  obtain ⟨piece, hfgets, hpiece⟩ := fgets_some hne
  refine ⟨piece, _, hfgets, ?_, ?_⟩
  · rw [← hpiece] at hhead
    cases hread : piece.bytes with
    | nil => exact absurd hread piece.nonempty
    | cons d rest =>
      rw [hread] at hhead
      obtain rfl := Option.some.inj hhead
      simp [cstr, hc]
  · have hlen := piece.fits
    have hcstr : (cstr piece.bytes).length ≤ piece.bytes.length :=
      (List.takeWhile_sublist _).length_le
    rw [Piece.text, List.length_dropLast]
    unfold respSize at hlen
    omega

theorem splits_fields (l : Line) : Splits (fields 32 2 l.bytes) l :=
  ⟨length_fields _ _ _, intercalate_fields, fun _ => sep_notMem_of_mem_dropLast⟩

/-- The call is that of `quit` exactly when the first word is. -/
theorem callOf_quit_iff : callOf (fields 32 2 l.bytes) = some .quit ↔ Quits l := by
  obtain ⟨ops, hfields⟩ := exists_fields_succ 32 1 l.bytes
  have hname : Command.ofText (l.bytes.takeWhile (· ≠ 32)) = some .quit ↔ Quits l := by
    constructor
    · intro h
      have htext := List.find?_some h
      exact (of_decide_eq_true htext).symm
    · intro h
      have hquit : l.bytes.takeWhile (· ≠ 32) = Command.quit.text := h
      rw [hquit]
      rfl
  rw [hfields, callOf, ← hname]
  cases Command.ofText (l.bytes.takeWhile (· ≠ 32)) with
  | none => simp [callWith]
  | some k =>
    cases k with
    | size | getkeys | tablePrint | stats | quit => simp [callWith]
    | del | get => cases ops <;> simp [callWith]
    | put =>
      cases ops with
      | nil => simp [callWith]
      | cons key ops => cases ops <;> simp [callWith]

/-- The loop goes on behind a line that is not `quit` exactly when it is answered. -/
theorem continues_iff (turn : Turn) (l : Line) :
    continues turn (fields 32 2 l.bytes) = true ↔ ¬ Quits l ∧ LineAnswered turn l := by
  rw [← callOf_quit_iff, continues, LineAnswered]
  cases callOf (fields 32 2 l.bytes) with
  | none => simp
  | some call => simp

end OneLine

/-! ## All lines -/

/-- With any number of rounds that is enough. -/
theorem commandTrace_iff (lines : List Line) {turns : Nat → Turn} {n : Nat}
    (hn : (input lines).length < n) :
    List.Forall₂ Reads (commandTrace n turns (input lines)) (uptoQuit lines) ↔
      LinesMeet turns lines := by
  induction lines generalizing turns n with
  | nil =>
    rw [LinesMeet, uptoQuit, List.forall₂_nil_right_iff]
    cases hconn : (turns 0).connected with
    | true =>
      obtain ⟨n, rfl⟩ := Nat.exists_eq_succ_of_ne_zero (Nat.ne_of_gt (Nat.zero_lt_of_lt hn))
      rw [show input [] = [] from rfl, commandTrace_end hconn]
      simp
    | false =>
      rw [commandTrace_disconnected (by rw [hconn]; decide)]
      simp
  | cons l lines ih =>
    have hlen : (input lines).length + 1 < n := by
      rw [input_cons, List.length_append, List.length_cons] at hn
      omega
    obtain ⟨m, rfl⟩ := Nat.exists_eq_add_of_le' (Nat.le_trans (Nat.le_add_left 1 _) (Nat.le_of_lt hlen))
    rw [uptoQuit, LinesMeet]
    by_cases hconn : (turns 0).connected = true
    · by_cases hl : l.bytes.length ≤ 510
      · obtain ⟨piece, hread, hne, htext⟩ := fgets_line lines hl
        have hreads : Reads (.ok (fields 32 2 l.bytes)) l := ⟨_, rfl, splits_fields l⟩
        rw [commandTrace_succ hconn hread hne, htext, List.forall₂_cons]
        simp only [hconn, hl, hreads, true_and]
        by_cases hquit : Quits l
        · -- the trace ends here, and so do the lines
          have hstop : ¬ continues (turns 0) (fields 32 2 l.bytes) = true := fun h =>
            ((continues_iff _ _).mp h).1 hquit
          rw [if_neg hstop, if_pos hquit]
          exact iff_of_true .nil (Or.inl hquit)
        · rw [if_neg hquit]
          by_cases hanswer : LineAnswered (turns 0) l
          · rw [if_pos ((continues_iff _ _).mpr ⟨hquit, hanswer⟩), ih (by omega)]
            constructor
            · exact fun h => Or.inr (Or.inl ⟨hanswer, h⟩)
            · rintro (h | h | h)
              · exact absurd h hquit
              · exact h.2
              · exact absurd hanswer h.2
          · -- the loop ends here, so there may be no more lines
            rw [if_neg fun h => hanswer ((continues_iff _ _).mp h).2, List.forall₂_nil_left_iff]
            constructor
            · intro h
              cases lines with
              | nil => exact Or.inr (Or.inr ⟨rfl, hanswer⟩)
              | cons l' lines => cases h
            · rintro (h | h | h)
              · exact absurd h hquit
              · exact absurd h.1 hanswer
              · rw [h.1]
                rfl
      · obtain ⟨piece, s', hread, hne, hshort⟩ := fgets_longLine lines (Nat.lt_of_not_le hl)
        rw [commandTrace_succ hconn hread hne, List.forall₂_cons]
        constructor
        · rintro ⟨⟨ops, hops, hsplits⟩, -⟩
          -- what was cut is shorter than the line
          obtain rfl := Except.ok.inj hops
          have hjoined := hsplits.joined
          rw [intercalate_fields] at hjoined
          exact absurd (hjoined ▸ hshort) hl
        · exact fun h => absurd h.2.1 hl
    · rw [commandTrace_disconnected hconn]
      constructor
      · intro h
        cases h
      · exact fun h => absurd h.1 hconn

/-- **Every line becomes one command exactly when** no line is longer than 510 bytes, every line
before the last one is answered, and the loop does not go on behind the last line: because it is
`quit`, because it is not answered, or because the client loses its connection. -/
theorem one_command_each_iff (turns : Nat → Turn) (lines : List Line) :
    OneCommandEach turns lines ↔ LinesMeet turns lines :=
  commandTrace_iff lines (Nat.lt_add_one _)

/-- A line of 511 bytes. -/
def longLine : Line where
  bytes := List.replicate 511 97
  noNul h := absurd (List.eq_of_mem_replicate h) (by decide)
  noNewline h := absurd (List.eq_of_mem_replicate h) (by decide)

/-- The line `quit`. -/
def quitLine : Line := ⟨Command.quit.text, by decide, by decide⟩

/-- **A line of 511 bytes loses the last one**, also with a `quit` behind it. -/
theorem longLine_not_oneCommand :
    ¬ OneCommandEach (fun _ => ⟨true, fun _ => true⟩) [longLine, quitLine] := by
  intro h
  obtain ⟨-, hlen, -⟩ :=
    (commandTrace_iff _ (Nat.lt_add_one (input [longLine, quitLine]).length)).mp h
  rw [longLine, List.length_replicate] at hlen
  exact absurd hlen (by decide)

end RemoteTable
