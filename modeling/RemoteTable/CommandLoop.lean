import RemoteTable.Fields
import RemoteTable.Message
import RemoteTable.TextNumbers

/-! # The commands of the client

`main` of `table_client.c`: a round of the loop reads a piece of the input with `fgets`, takes
its last byte for the newline, cuts what is left at the first two spaces, and calls the
function of the stub that the first operand names.

The buffer `parser.com` is a block and a pointer into it an offset, so every write is checked
against its end; `parser.ops` is an array of three pointers that are `NULL` at first.
-/
namespace RemoteTable
open CMem Fields

/-- `RESP_SIZE`. -/
def respSize : Nat := 512

/-- What `fgets` puts into the buffer before the NUL: at least a byte, no more than there is
room for, and nothing behind a newline. -/
structure Piece where
  bytes : List UInt8
  nonempty : bytes ≠ []
  fits : bytes.length < respSize
  newline : (10 : UInt8) ∉ bytes.dropLast

/-- The variable `parser`. -/
structure Parser where
  com : Block
  ops : Slots Nat
  c : Nat
  deriving DecidableEq

/-! ## Reading and cutting -/

/-- `parser.com` after `memset` and `fgets`, `none` where `fgets` returns `NULL`. -/
def readCom : Option Piece → Exec Block
  | none => .ok (List.replicate respSize 0)
  | some p => store (List.replicate respSize 0) 0 (p.bytes ++ [0])

/-- `parser.com[strlen(parser.com)-1] = '\0'`. -/
def dropNewline (com : Block) : Exec Block := do
  let n ← strlen com
  store com (toSizeT (n - 1)) [0]

/-- The loop that cuts the buffer, with as many bytes of it left: `reader` and `last` are
offsets. -/
def cutLoop : Nat → Block → Nat → Nat → Slots Nat → Nat → Exec (Block × Nat × Slots Nat × Nat)
  | 0, _, _, _, _, _ => .error .outOfBounds
  | left + 1, com, reader, last, ops, c => do
    let char ← load com reader
    if char ≠ 0 ∧ c < 2 then
      if char = 32 then
        let com ← store com reader [0]
        let ops ← setSlot ops c last
        cutLoop left com (reader + 1) (reader + 1) ops (c + 1)
      else cutLoop left com (reader + 1) last ops c
    else return (com, last, ops, c)

/-- The operands: the loop, and the last one behind it. -/
def cutCom (com : Block) : Exec Parser := do
  let (com, last, ops, c) ← cutLoop com.length com 0 0 (List.replicate 3 none) 0
  let ops ← setSlot ops c last
  return ⟨com, ops, c + 1⟩

/-- A round up to the first `strcmp`. -/
def parse (res : Option Piece) : Exec Parser := do
  let com ← readCom res
  let com ← dropNewline com
  cutCom com

/-! ## Calling the stub -/

/-- The commands, in the order in which `main` compares with them. -/
inductive Command
  | size
  | del
  | get
  | put
  | getkeys
  | tablePrint
  | stats
  | quit
  deriving DecidableEq, Repr

namespace Command

/-- The text of a command. -/
def text : Command → List UInt8
  | size => [115, 105, 122, 101]
  | del => [100, 101, 108]
  | get => [103, 101, 116]
  | put => [112, 117, 116]
  | getkeys => [103, 101, 116, 107, 101, 121, 115]
  | tablePrint => [116, 97, 98, 108, 101, 95, 112, 114, 105, 110, 116]
  | stats => [115, 116, 97, 116, 115]
  | quit => [113, 117, 105, 116]

/-- The operands that a command needs behind its name. -/
def operands : Command → Nat
  | del | get => 1
  | put => 2
  | size | getkeys | tablePrint | stats | quit => 0

/-- All of them. -/
def all : List Command := [size, del, get, put, getkeys, tablePrint, stats, quit]

end Command

/-- What a round does once the operands are cut: the call of a function of the stub, with the
strings it gets, or no call. -/
inductive StubCall
  | size
  | del (key : List UInt8)
  | get (key : List UInt8)
  | put (key data : List UInt8)
  | getkeys
  | tablePrint
  | stats
  | quit
  /-- `Please insert a valid command`. -/
  | invalid
  deriving DecidableEq

/-- The string `parser.ops[i]`. -/
def operand (p : Parser) (i : Nat) : Exec Block := do
  let slot ← if h : i < p.ops.length then .ok (p.ops.get ⟨i, h⟩) else .error .outOfBounds
  let off ← deref slot
  return p.com.drop off

/-- The comparisons of the first operand, one command after the other. -/
def compare (name : Block) : List Command → Exec (Option Command)
  | [] => .ok none
  | k :: ks => do
    let d ← strcmp name (k.text ++ [0])
    if d = 0 then return some k else compare name ks

/-- The branch that a command takes. -/
def branch (p : Parser) : Option Command → Exec StubCall
  | some .size => .ok .size
  | some .del => do
    let key ← operand p 1
    let key ← strdup key
    let key ← readString key
    return .del key
  | some .get => do
    let key ← operand p 1
    let key ← strdup key
    let key ← readString key
    return .get key
  | some .put => do
    let data ← operand p 2
    let datasize ← strlen data
    let data ← slice data 0 datasize
    let key ← operand p 1
    let key ← readString key
    return .put key data
  | some .getkeys => .ok .getkeys
  | some .tablePrint => .ok .tablePrint
  | some .stats => .ok .stats
  | some .quit => .ok .quit
  | none => .ok .invalid

/-- The command the first operand names, if it names one. -/
def named (p : Parser) : Exec (Option Command) := do
  let name ← operand p 0
  compare name Command.all

/-- The dispatch of a round. -/
def execute (p : Parser) : Exec StubCall := do
  let k ← named p
  branch p k

/-- What a round meets: whether `update_rtable_t` succeeds, and whether the function of the
stub and the printing of what it returns come back. -/
structure Turn where
  connected : Bool
  replies : StubCall → Bool

/-- After this round the loop goes on. -/
def goesOn (turn : Turn) (p : Parser) : Bool :=
  match execute p with
  | .ok call => call ≠ .quit && turn.replies call
  | .error _ => false

/-! ## What the loop leaves -/

/-- The slots that are filled in turn. -/
def slots (offs : List Nat) : Slots Nat := offs.map some ++ List.replicate (3 - offs.length) none

/-- The fields in memory, each with its NUL. -/
def laid (fs : List (List UInt8)) : Block := fs.flatMap fun f => f ++ [0]

/-- Where they start. -/
def offsets : Nat → List (List UInt8) → List Nat
  | _, [] => []
  | off, f :: fs => off :: offsets (off + f.length + 1) fs

@[simp] theorem length_offsets (off : Nat) (fs : List (List UInt8)) :
    (offsets off fs).length = fs.length := by
  induction fs generalizing off with
  | nil => rfl
  | cons f fs ih => simp [offsets, ih]

theorem setSlot_slots {offs : List Nat} (h : offs.length < 3) (off : Nat) :
    setSlot (slots offs) offs.length off = .ok (slots (offs ++ [off])) := by
  obtain ⟨n, hn⟩ : ∃ n, 3 - offs.length = n + 1 := ⟨2 - offs.length, by omega⟩
  have hrest : 3 - (offs ++ [off]).length = n := by
    rw [List.length_append, List.length_singleton]
    omega
  have hset := setSlot_append (offs.map some) none (List.replicate n none) off
  rw [List.length_map] at hset
  rw [slots, hn, List.replicate_succ, hset, slots, hrest]
  simp

section Cut
variable {pre a t post : Block} {left last c : Nat} {ops : Slots Nat}

/-- The reader goes over bytes that are no space. -/
theorem cutLoop_skip (hspace : (32 : UInt8) ∉ a) (hnul : (0 : UInt8) ∉ a) (hc : c < 2) :
    cutLoop (a.length + left) (pre ++ a ++ post) pre.length last ops c =
      cutLoop left (pre ++ a ++ post) (pre.length + a.length) last ops c := by
  induction a generalizing pre with
  | nil => simp
  | cons d a ih =>
    have hd : d ≠ 32 := fun heq => hspace (heq ▸ List.mem_cons_self)
    have hd0 : d ≠ 0 := fun heq => hnul (heq ▸ List.mem_cons_self)
    have hload : load (pre ++ d :: a ++ post) pre.length = .ok d := by
      rw [List.append_assoc]
      exact load_append pre d (a ++ post)
    have hassoc : pre ++ d :: a ++ post = pre ++ [d] ++ a ++ post := by simp
    have hih : cutLoop (a.length + left) (pre ++ [d] ++ a ++ post) (pre ++ [d]).length last ops c =
        cutLoop left (pre ++ [d] ++ a ++ post) ((pre ++ [d]).length + a.length) last ops c :=
      ih (fun h => hspace (List.mem_cons_of_mem _ h)) (fun h => hnul (List.mem_cons_of_mem _ h))
    rw [List.length_cons, Nat.add_right_comm, cutLoop, hload, ok_bind, if_pos ⟨hd0, hc⟩, if_neg hd,
      hassoc]
    simp only [List.length_append, List.length_singleton] at hih
    rw [hih]
    congr 1
    omega

/-- At a space the operand ends and the next one starts. -/
theorem cutLoop_space (hspace : (32 : UInt8) ∉ a) (hnul : (0 : UInt8) ∉ a) {offs : List Nat}
    (ho : offs.length < 2) :
    cutLoop (a.length + (left + 1)) (pre ++ a ++ 32 :: post) pre.length last (slots offs)
        offs.length =
      cutLoop left (pre ++ a ++ 0 :: post) (pre ++ a ++ [0]).length (pre ++ a ++ [0]).length
        (slots (offs ++ [last])) (offs ++ [last]).length := by
  have hload : load (pre ++ a ++ 32 :: post) (pre.length + a.length) = .ok 32 := by
    rw [← List.length_append]
    exact load_append (pre ++ a) 32 post
  have hstore : store (pre ++ a ++ 32 :: post) (pre.length + a.length) [0] =
      .ok (pre ++ a ++ 0 :: post) := by
    have h := store_append (pre ++ a) [32] post [0] rfl
    rw [List.length_append] at h
    simpa using h
  rw [cutLoop_skip hspace hnul ho, cutLoop, hload, ok_bind, if_pos ⟨by decide, ho⟩, if_pos rfl,
    hstore, ok_bind, setSlot_slots (by omega), ok_bind]
  simp only [List.length_append, List.length_singleton]

/-- At the NUL, or with two operands behind it, the loop ends. -/
theorem cutLoop_end (hspace : (32 : UInt8) ∉ t ∨ ¬ c < 2) (hnul : (0 : UInt8) ∉ t) :
    cutLoop (t.length + (left + 1)) (pre ++ t ++ 0 :: post) pre.length last ops c =
      .ok (pre ++ t ++ 0 :: post, last, ops, c) := by
  by_cases hc : c < 2
  · have hload : load (pre ++ t ++ 0 :: post) (pre.length + t.length) = .ok 0 := by
      rw [← List.length_append]
      exact load_append (pre ++ t) 0 post
    rw [cutLoop_skip (hspace.resolve_right (not_not_intro hc)) hnul hc, cutLoop, hload, ok_bind,
      if_neg fun h => h.1 rfl, pure_eq_ok]
  · obtain ⟨d, rest, hd⟩ : ∃ d rest, t ++ 0 :: post = d :: rest := by
      cases t with
      | nil => exact ⟨0, post, rfl⟩
      | cons d t => exact ⟨d, t ++ 0 :: post, rfl⟩
    rw [List.append_assoc, hd, ← Nat.add_assoc, cutLoop, load_append, ok_bind,
      if_neg fun h => hc h.2, pure_eq_ok]

/-- **The loop cuts the text into its fields**, `k` of them besides the last one: each of them
with its NUL where it stood, and its offset in the next slot. -/
theorem cutLoop_eq (pre t post : Block) (left k : Nat) (offs : List Nat)
    (hk : offs.length + k = 2) (hnul : (0 : UInt8) ∉ t) :
    ∃ last' offs', cutLoop (t.length + (left + 1)) (pre ++ t ++ 0 :: post) pre.length pre.length
        (slots offs) offs.length =
        .ok (pre ++ laid (fields 32 k t) ++ post, last', slots offs', offs'.length) ∧
      offs'.length ≤ 2 ∧ offs' ++ [last'] = offs ++ offsets pre.length (fields 32 k t) := by
  induction k generalizing pre t offs left with
  | zero =>
    refine ⟨pre.length, offs, ?_, by omega, by simp [offsets]⟩
    rw [cutLoop_end (Or.inr (by omega)) hnul]
    simp [laid]
  | succ k ih =>
    by_cases hsep : (32 : UInt8) ∈ t
    · obtain ⟨a, b, rfl, ha, -⟩ := exists_cut hsep
      have hnula : (0 : UInt8) ∉ a := fun h => hnul (List.mem_append_left _ h)
      have hnulb : (0 : UInt8) ∉ b := fun h =>
        hnul (List.mem_append_right _ (List.mem_cons_of_mem _ h))
      obtain ⟨last', offs', hrun, hle, hoffs⟩ := ih (pre ++ a ++ [0]) b left
        (offs ++ [pre.length]) (by simp; omega) hnulb
      refine ⟨last', offs', ?_, hle, ?_⟩
      · have hleft : (a ++ 32 :: b).length + (left + 1) = a.length + (b.length + (left + 1) + 1) := by
          simp only [List.length_append, List.length_cons]
          omega
        have hmem : pre ++ (a ++ 32 :: b) ++ 0 :: post = pre ++ a ++ 32 :: (b ++ 0 :: post) := by simp
        have hcut : pre ++ a ++ 0 :: (b ++ 0 :: post) = pre ++ a ++ [0] ++ b ++ 0 :: post := by simp
        rw [hleft, hmem, cutLoop_space ha hnula (by omega), hcut, hrun, fields_append ha]
        simp [laid]
      · rw [hoffs, fields_append ha]
        simp [offsets, Nat.add_assoc]
    · refine ⟨pre.length, offs, ?_, by omega, by simp [fields_of_notMem hsep, offsets]⟩
      rw [cutLoop_end (Or.inl hsep) hnul]
      simp [fields_of_notMem hsep, laid]

end Cut

/-! ## The operands of a round -/

/-- The parser holds these operands. -/
structure HasFields (p : Parser) (fs : List (List UInt8)) : Prop where
  com : ∃ rest, p.com = laid fs ++ rest
  ops : p.ops = slots (offsets 0 fs)
  c : p.c = fs.length

/-- What is cut: the string `fgets` has read, less its last byte. -/
def Piece.text (p : Piece) : List UInt8 := (cstr p.bytes).dropLast

theorem nul_notMem_text (p : Piece) : (0 : UInt8) ∉ p.text := fun h =>
  cstr_no_nul p.bytes (List.dropLast_subset _ h)

/-- None of the fields of a text has a NUL in it. -/
theorem nul_notMem_fields (p : Piece) : ∀ f ∈ fields 32 2 p.text, (0 : UInt8) ∉ f :=
  fun _ hf h0 => nul_notMem_text p (mem_of_mem_fields hf h0)

/-- There are three of them at most. -/
theorem length_fields_le (t : List UInt8) : (fields 32 2 t).length ≤ 3 := by
  rw [length_fields]
  omega

theorem cutCom_eq {t : List UInt8} (hnul : (0 : UInt8) ∉ t) (rest : Block) :
    ∃ p, cutCom (t ++ 0 :: rest) = .ok p ∧ HasFields p (fields 32 2 t) := by
  obtain ⟨last, offs, hrun, hle, hoffs⟩ := cutLoop_eq [] t rest rest.length 2 [] rfl hnul
  have hleft : (t ++ 0 :: rest).length = t.length + (rest.length + 1) := by simp
  simp only [List.nil_append, List.length_nil] at hrun hoffs
  refine ⟨⟨laid (fields 32 2 t) ++ rest, slots (offsets 0 (fields 32 2 t)),
    (fields 32 2 t).length⟩, ?_, ⟨rest, rfl⟩, rfl, rfl⟩
  have hlen := congrArg List.length hoffs
  rw [List.length_append, List.length_singleton, length_offsets] at hlen
  have hslots : List.replicate 3 none = slots [] := rfl
  rw [cutCom, hleft, hslots, hrun, ok_bind]
  dsimp only
  rw [setSlot_slots (by omega), ok_bind, hoffs, hlen, pure_eq_ok]

/-- Without a byte before the first NUL, `strlen(parser.com)-1` wraps. -/
theorem dropNewline_wraps {com : Block} (h : ∃ rest, com = 0 :: rest)
    (hlen : com.length = respSize) : dropNewline com = .error .outOfBounds := by
  obtain ⟨rest, rfl⟩ := h
  have hwrap : toSizeT (((0 : Nat) : Int) - 1) = 18446744073709551615 := by decide
  rw [dropNewline, strlen, if_pos rfl, ok_bind, hwrap, store, hlen, if_neg (by decide)]

/-- The buffer after `fgets`. -/
theorem readCom_eq (p : Piece) : ∃ rest, readCom (some p) = .ok (p.bytes ++ 0 :: rest) ∧
    (p.bytes ++ 0 :: rest).length = respSize := by
  have hfits := p.fits
  have hst := store_front (List.replicate respSize 0) (p.bytes ++ [0])
    (by simp; omega)
  refine ⟨(List.replicate respSize 0).drop (p.bytes ++ [0]).length, ?_, ?_⟩
  · rw [readCom, hst]
    simp
  · simp
    omega

/-- **A round reads and cuts its piece**: what it holds then is the text, cut at the first two
spaces. -/
theorem parse_eq {p : Piece} (h : cstr p.bytes ≠ []) :
    ∃ q, parse (some p) = .ok q ∧ HasFields q (fields 32 2 p.text) := by
  obtain ⟨rest, hread, hlen⟩ := readCom_eq p
  have hterm : Terminated (p.bytes ++ 0 :: rest) := terminated_append_nul _ _
  obtain ⟨rest', hcom⟩ := hterm.split
  have hcstr := cstr_append p.bytes rest
  rw [hcstr] at hcom
  -- the last byte of the string makes place for a second NUL
  have hlast : cstr p.bytes = p.text ++ [(cstr p.bytes).getLast h] :=
    (List.dropLast_append_getLast h).symm
  have hpos : (cstr p.bytes).length = p.text.length + 1 := by
    conv_lhs => rw [hlast]
    simp
  have hsize : toSizeT (((cstr p.bytes).length : Int) - 1) = p.text.length := by
    have hmax : ((p.text.length : Nat) : Int) ≤ intMax := by
      have hbound := congrArg List.length hcom
      rw [hlen, List.length_append] at hbound
      unfold respSize at hbound
      unfold intMax
      omega
    have hcast : ((cstr p.bytes).length : Int) - 1 = (p.text.length : Int) := by omega
    have hid := toSizeT_of_nonneg (show (0 : Int) ≤ (p.text.length : Int) by omega) hmax
    rw [hcast]
    omega
  have hdrop : dropNewline (p.bytes ++ 0 :: rest) = .ok (p.text ++ 0 :: 0 :: rest') := by
    have hst := store_append p.text [(cstr p.bytes).getLast h] (0 :: rest') [0] rfl
    rw [← hlast] at hst
    rw [dropNewline, hterm.strlen, hcstr, ok_bind, hsize, hcom, hst]
    simp
  obtain ⟨q, hcut, hholds⟩ := cutCom_eq (nul_notMem_text p) (0 :: rest')
  refine ⟨q, ?_, hholds⟩
  rw [parse, hread, ok_bind, hdrop, ok_bind, hcut]

/-- Nothing was read, or a NUL first. -/
theorem parse_fails {res : Option Piece} (h : ∀ p, res = some p → cstr p.bytes = []) :
    parse res = .error .outOfBounds := by
  cases res with
  | none =>
    have hhead : ∃ rest, List.replicate respSize (0 : UInt8) = 0 :: rest := ⟨_, List.replicate_succ⟩
    rw [parse, readCom, ok_bind, dropNewline_wraps hhead List.length_replicate, error_bind]
  | some p =>
    obtain ⟨rest, hread, hlen⟩ := readCom_eq p
    have hhead : ∃ rest', p.bytes ++ 0 :: rest = 0 :: rest' := by
      have hcstr := h p rfl
      cases hbytes : p.bytes with
      | nil => exact ⟨rest, rfl⟩
      | cons c bytes =>
        rw [hbytes] at hcstr
        by_cases hc : c = 0
        · exact ⟨bytes ++ 0 :: rest, by rw [hc]; rfl⟩
        · simp [cstr, hc] at hcstr
    rw [parse, hread, ok_bind, dropNewline_wraps hhead hlen, error_bind]

section Operands
variable {p : Parser} {fs : List (List UInt8)} {i : Nat}

/-- Each offset points at its field. -/
theorem drop_offsets (pre rest : Block) (hi : i < fs.length) :
    ∃ off post, (offsets pre.length fs)[i]? = some off ∧
      (pre ++ laid fs ++ rest).drop off = fs[i] ++ 0 :: post := by
  induction fs generalizing pre i with
  | nil => cases hi
  | cons f fs ih =>
    cases i with
    | zero =>
      refine ⟨pre.length, laid fs ++ rest, rfl, ?_⟩
      rw [List.append_assoc, List.drop_left]
      simp [laid]
    | succ i =>
      obtain ⟨off, post, hoff, hdrop⟩ := ih (pre ++ f ++ [0]) (Nat.lt_of_succ_lt_succ hi)
      refine ⟨off, post, ?_, ?_⟩
      · simp only [List.length_append, List.length_singleton] at hoff
        exact hoff
      · rw [List.getElem_cons_succ, ← hdrop]
        simp [laid]

theorem HasFields.operand (h : HasFields p fs) (hi : i < fs.length) :
    ∃ post, operand p i = .ok (fs[i] ++ 0 :: post) := by
  obtain ⟨rest, hcom⟩ := h.com
  obtain ⟨off, post, hoff, hdrop⟩ := drop_offsets [] rest hi
  rw [List.nil_append, ← hcom] at hdrop
  have hget : p.ops[i]? = some (some off) := by
    rw [h.ops, slots, List.getElem?_append_left (by simpa using hi), List.getElem?_map]
    simpa using hoff
  obtain ⟨hlt, hslot⟩ := List.getElem?_eq_some_iff.mp hget
  refine ⟨post, ?_⟩
  rw [RemoteTable.operand, dif_pos hlt]
  simp only [List.get_eq_getElem, hslot, ok_bind, deref_some, pure_eq_ok, hdrop]

/-- An operand that is missing is `NULL`. -/
theorem HasFields.operand_missing (h : HasFields p fs) (hi : fs.length ≤ i) (hle : i < 3) :
    RemoteTable.operand p i = .error .nullDeref := by
  have hget : p.ops[i]? = some none := by
    rw [h.ops, slots, List.getElem?_append_right (by simpa using hi), List.getElem?_replicate]
    simp only [List.length_map, length_offsets]
    rw [if_pos (by omega)]
  obtain ⟨hlt, hslot⟩ := List.getElem?_eq_some_iff.mp hget
  rw [RemoteTable.operand, dif_pos hlt]
  simp only [List.get_eq_getElem, hslot, ok_bind, deref_none, error_bind]

end Operands

/-! ## The call of a round -/

/-- The command with this text. -/
def Command.ofText (s : List UInt8) : Option Command := Command.all.find? fun k => k.text = s

/-- The call of a command with these operands behind it, `none` where one is missing. -/
def callWith : Option Command → List (List UInt8) → Option StubCall
  | none, _ => some .invalid
  | some .size, _ => some .size
  | some .del, key :: _ => some (.del key)
  | some .get, key :: _ => some (.get key)
  | some .put, key :: data :: _ => some (.put key data)
  | some .getkeys, _ => some .getkeys
  | some .tablePrint, _ => some .tablePrint
  | some .stats, _ => some .stats
  | some .quit, _ => some .quit
  | some .del, [] | some .get, [] | some .put, [] | some .put, [_] => none

/-- The call for all operands of a round. -/
def callOf : List (List UInt8) → Option StubCall
  | [] => none
  | name :: operands => callWith (Command.ofText name) operands

theorem Command.nul_notMem (k : Command) : (0 : UInt8) ∉ k.text := by
  cases k <;> decide

theorem compare_eq {s : List UInt8} (hs : (0 : UInt8) ∉ s) (post : Block) (ks : List Command) :
    compare (s ++ 0 :: post) ks = .ok (ks.find? fun k => k.text = s) := by
  induction ks with
  | nil => rfl
  | cons k ks ih =>
    obtain ⟨d, hcmp, hd⟩ := strcmp_append_nul hs k.nul_notMem post []
    rw [compare, hcmp, ok_bind, List.find?_cons]
    by_cases heq : k.text = s
    · rw [if_pos (hd.mpr heq.symm), decide_eq_true heq, pure_eq_ok]
    · rw [if_neg fun h0 => heq (hd.mp h0).symm, decide_eq_false heq, ih]

section Call
variable {p : Parser} {fs : List (List UInt8)} {f : List UInt8} {i : Nat}

/-- The string of an operand, as a string, as `strdup` copies it, and as `strlen` measures it. -/
theorem HasFields.reads (h : HasFields p fs) (hnul : ∀ f ∈ fs, (0 : UInt8) ∉ f)
    (hf : fs[i]? = some f) :
    ∃ b, RemoteTable.operand p i = .ok b ∧ readString b = .ok f ∧ strdup b = .ok (f ++ [0]) ∧
      strlen b = .ok f.length ∧ slice b 0 f.length = .ok f := by
  obtain ⟨hi, rfl⟩ := List.getElem?_eq_some_iff.mp hf
  obtain ⟨post, hop⟩ := h.operand hi
  have hno := hnul _ (List.getElem_mem hi)
  have hterm : Terminated (fs[i] ++ 0 :: post) := terminated_append_nul _ _
  have hslice := slice_append [] fs[i] (0 :: post)
  refine ⟨_, hop, readString_append_nul hno post, ?_, strlen_append_nul hno post, hslice⟩
  rw [hterm.strdup, cstr_append_nul hno]

/-- The first operand names the command. -/
theorem named_eq {name : List UInt8} {operands : List (List UInt8)}
    (h : HasFields p (name :: operands)) (hnul : (0 : UInt8) ∉ name) :
    named p = .ok (Command.ofText name) := by
  obtain ⟨post, hop⟩ := h.operand (i := 0) (by simp)
  rw [named, hop, ok_bind]
  exact compare_eq hnul post _

/-- **What a round calls**, the operands being cut: the function that the first of them names,
with the strings behind it; a missing one is a `NULL` that is dereferenced. -/
theorem execute_eq (h : HasFields p fs) (hnul : ∀ f ∈ fs, (0 : UInt8) ∉ f)
    (hpos : fs ≠ []) (hle : fs.length ≤ 3) : execute p = deref (callOf fs) := by
  obtain ⟨name, operands, rfl⟩ := List.exists_cons_of_ne_nil hpos
  have hnamed := named_eq h (hnul name List.mem_cons_self)
  have hmissing : ∀ i, operands.length < i → i < 3 → operand p i = .error .nullDeref :=
    fun i hi hlt => h.operand_missing hi hlt
  rw [execute, hnamed, ok_bind, callOf]
  cases Command.ofText name with
  | none => rfl
  | some k =>
    cases k with
    | size | getkeys | tablePrint | stats | quit => rfl
    | del | get =>
      cases operands with
      | nil =>
        rw [branch, hmissing 1 (by decide) (by decide)]
        rfl
      | cons key operands =>
        obtain ⟨b, hop, -, hdup, -⟩ := h.reads hnul (i := 1) rfl
        have hread : readString (key ++ [0]) = .ok key :=
          readString_append_nul (hnul key (by simp)) []
        rw [branch, hop, ok_bind, hdup, ok_bind, hread]
        rfl
    | put =>
      cases operands with
      | nil =>
        rw [branch, hmissing 2 (by decide) (by decide)]
        rfl
      | cons key operands =>
        cases operands with
        | nil =>
          rw [branch, hmissing 2 (by simp) (by decide)]
          rfl
        | cons data operands =>
          obtain ⟨b, hop, -, -, hlen, hdata⟩ := h.reads hnul (i := 2) rfl
          obtain ⟨b', hop', hkey, -⟩ := h.reads hnul (i := 1) rfl
          rw [branch, hop, ok_bind, hlen, ok_bind, hdata, ok_bind, hop', ok_bind, hkey]
          rfl

end Call

end RemoteTable
