import RemoteTable.TableMirror

/-! # `invoke` on values and in blocks

A message is its structure and, if its buffer has one, a block.  Where a branch of `invoke` on
values is defined, the same branch on memory ends, and the message has become what it becomes on
values with some contents of the blocks that `malloc` hands out.

`lostByInvoke` counts the blocks that a branch forgets: the pointer to the bytes of a request is
overwritten by the branches that expect none, and `buffer_to_entry` forgets the block for a value
of no bytes.
-/
namespace RemoteTable.Pointers
open CMem

/-- A message: its structure, and the block of its buffer if it has one. -/
structure MessageBlock where
  addr : Addr
  opcode : Int
  cType : Int
  len : Nat
  data : Option (Addr × Block)

/-- The objects of a buffer. -/
def bufferCells : Option (Addr × Block) → Multiset (Addr × Object)
  | none => 0
  | some d => {(d.1, .bytes d.2)}

/-- The structure of the message. -/
def MessageBlock.cell (M : MessageBlock) : MessageCell := ⟨M.opcode, M.cType, M.len, M.data.map Prod.fst⟩

def MessageBlock.cells (M : MessageBlock) : Multiset (Addr × Object) :=
  {(M.addr, .message M.cell)} + bufferCells M.data

/-- The message as the model on values has it. -/
def MessageBlock.content (M : MessageBlock) : MessageT := ⟨M.opcode, M.cType, ⟨M.len, M.data.map Prod.snd⟩⟩

/-- The same environment with other contents of the blocks that `malloc` hands out. -/
def withJunk (env : Env) (j : Nat → Nat → UInt8) : Env := { env with junk := j }

/-- The blocks that the branch of a request forgets. -/
def lostByInvoke (msg : MessageT) : Nat :=
  if msg.opcode = opPut then if msg.buffer.data.map dataSize = some 0 then 1 else 0
  else if msg.opcode ∈ [opSize, opGetKeys, opPrint, opStats] ∧ msg.buffer.data.isSome then 1 else 0

section Messages
variable {m : Memory Object} {rest : Multiset (Addr × Object)} {M : MessageBlock}
  {d : Option (Addr × Block)}

theorem card_bufferCells (d : Option (Addr × Block)) : (bufferCells d).card = if d.isSome then 1 else 0 := by
  cases d <;> rfl

theorem newBytes_ends (b : Option Block) (m : Memory Object) :
    Prog.Ends (newBytes b) m fun p m' => ∃ d : Option (Addr × Block), p = d.map Prod.fst ∧
      b = d.map Prod.snd ∧ m'.owned = bufferCells d + m.owned := by
  cases b with
  | none => exact .pure ⟨none, rfl, rfl, (zero_add _).symm⟩
  | some b =>
    refine (Prog.ends_new m _).mono ?_
    rintro _ m₁ ⟨a, rfl, -, h₁⟩
    exact ⟨some (a, b), rfl, rfl, h₁⟩

theorem mallocIf_ends (junk : Addr → Nat → UInt8) (m : Memory Object) {found : Bool} {n : Int}
    (h : found = true ∧ 0 ≤ n) :
    Prog.Ends (mallocIf junk found n) m fun p m' => ∃ a b, p = some a ∧ malloc (junk a) n = some b ∧
      m'.owned = {(a, .bytes b)} + m.owned := by
  rw [mallocIf, if_pos h.1]
  exact mallocBytes_ends junk m h.2

theorem mallocIf_returns (junk : Addr → Nat → UInt8) (m : Memory Object) {found : Bool} {n : Int}
    (h : ¬ (found = true ∧ 0 ≤ n)) : Prog.Returns (mallocIf junk found n) m none := by
  by_cases hfound : found
  · rw [mallocIf, if_pos hfound]
    refine (Prog.returns_allocations m).bind ?_
    rw [malloc_of_neg _ (Int.not_le.mp fun hn => h ⟨hfound, hn⟩)]
    exact Prog.returns_pure none m
  · rw [mallocIf, if_neg hfound]
    exact Prog.returns_pure none m

/-- The structure of a message is read. -/
theorem returns_message (h : M.cells ≤ m.owned) : Prog.Returns (messageAt (some M.addr)) m M.cell := by
  have hmem : (M.addr, Object.message M.cell) ∈ m.owned :=
    Multiset.mem_of_le h (by simp [MessageBlock.cells])
  exact Prog.returns_load hmem rfl

/-- A buffer is freed. -/
theorem freeBuffer_ends (h : m.owned = bufferCells d + rest) :
    Prog.Ends (Prog.free (d.map Prod.fst)) m fun _ m' => m'.owned = rest := by
  cases d with
  | none => exact ⟨(), m, rfl, h.trans (zero_add rest)⟩
  | some d => exact (Prog.ends_free h).mono fun _ _ h => h.2

end Messages

section Branches
variable {m : Memory Object} {rest : Multiset (Addr × Object)} {junk : Addr → Nat → UInt8}
  {env : Env} {stats : Statistics} {t : TableT} {buckets : Buckets} {T : TableBlock} {M : MessageBlock}

/-- What a branch leaves: the answer on values, in blocks, and what it forgets. -/
def Answered (env : Env) (stats : Statistics) (t : TableT) (T : TableBlock) (M : MessageBlock)
    (rest : Multiset (Addr × Object)) (m' : Memory Object) : Prop :=
  ∃ (j : Nat → Nat → UInt8) (t' : TableT) (buckets' : Buckets) (T' : TableBlock) (M' : MessageBlock)
    (lost : Multiset (Addr × Object)),
    RemoteTable.dispatch (withJunk env j) ⟨t, stats⟩ M.content =
      .ok (some (⟨t', stats⟩, M'.content)) ∧
    Mirrors t' buckets' T' ∧ T'.addr = T.addr ∧ M'.addr = M.addr ∧
    lost.card = lostByInvoke M.content ∧ m'.owned = T'.cells + (M'.cells + (lost + rest))

theorem message_le (h : m.owned = T.cells + (M.cells + rest)) : M.cells ≤ m.owned := by
  rw [h]
  exact le_trans (Multiset.le_add_right _ _) (Multiset.le_add_left _ _)

/-- A branch that expects no bytes puts its own block in the place of those of the request. -/
theorem answered_overwritten {m' : Memory Object} {j : Nat → Nat → UInt8} {reply : MessageBlock}
    (hm : Mirrors t buckets T)
    (hop : M.content.opcode ∈ [opSize, opGetKeys, opPrint, opStats])
    (hrun : RemoteTable.dispatch (withJunk env j) ⟨t, stats⟩ M.content =
      .ok (some (⟨t, stats⟩, reply.content)))
    (haddr : reply.addr = M.addr)
    (h : m'.owned = T.cells + (reply.cells + (bufferCells M.data + rest))) :
    Answered env stats t T M rest m' := by
  refine ⟨j, t, buckets, T, reply, bufferCells M.data, hrun, hm, rfl, haddr, ?_, h⟩
  have hsome : M.content.buffer.data.isSome = M.data.isSome := Option.isSome_map
  have hput : M.content.opcode ≠ opPut := by
    rintro h'
    rw [h'] at hop
    revert hop
    decide
  rw [card_bufferCells, lostByInvoke, if_neg hput, hsome]
  simp only [hop, true_and]

/-- Four bytes with the first one written. -/
theorem store_word {j : Nat → UInt8} {b : Block} (hb : malloc j sizeofInt = some b) (n : Int) :
    store b 0 [toByte n] = .ok (wireSize j n) := by
  rw [malloc_of_nonneg _ (by decide)] at hb
  obtain rfl := Option.some.inj hb
  exact store_append [] [j 0] [j 1, j 2, j 3] [toByte n] rfl

/-- `OP_SIZE`. -/
theorem invokeSize_ends (hm : Mirrors t buckets T) (h : m.owned = T.cells + (M.cells + rest))
    (hop : M.content.opcode = opSize) (hdef : Defined (RemoteTable.dispatch env ⟨t, stats⟩ M.content)) :
    Prog.Ends (invokeSize junk (some T.addr) (some M.addr)) m fun _ => Answered env stats t T M rest := by
  have hmax : ((RemoteTable.entries buckets).length : Int) ≤ intMax := by
    by_contra hlt
    rw [dispatch_size hop, invokeSize_overflow hm.rep.shape hlt, error_bind] at hdef
    exact absurd hdef (not_defined_error _)
  refine (returns_message (message_le h)).ends ?_
  refine (mallocBytes_ends junk m (show (0 : Int) ≤ sizeofInt by decide)).bind ?_
  rintro _ m₁ ⟨a, b, rfl, hb, h₁⟩
  have hstore : m₁.owned = {(M.addr, .message M.cell)} +
      (T.cells + ({(a, .bytes b)} + (bufferCells M.data + rest))) := by
    rw [h₁, h, MessageBlock.cells]
    ac_rfl
  refine (Prog.ends_store hstore _).bind ?_
  rintro _ m₂ ⟨-, h₂⟩
  have htable : m₂.owned = T.cells + ({(M.addr, .message ⟨M.opcode + 1, ctResult, 4, some a⟩)} +
      ({(a, .bytes b)} + (bufferCells M.data + rest))) := by
    rw [h₂, MessageBlock.cell]
    ac_rfl
  have hblock : m₂.owned = {(a, .bytes b)} + (T.cells +
      ({(M.addr, .message ⟨M.opcode + 1, ctResult, 4, some a⟩)} + (bufferCells M.data + rest))) := by
    rw [htable]
    ac_rfl
  refine (hm.size htable hmax).ends ((storeAt_ends hblock (store_word hb _)).mono ?_)
  intro _ m₃ h₃
  have hrun : RemoteTable.dispatch (withJunk env fun _ => junk a) ⟨t, stats⟩ M.content =
      .ok (some (⟨t, stats⟩, MessageBlock.content ⟨M.addr, M.opcode + 1, ctResult, 4,
        some (a, wireSize (junk a) (RemoteTable.entries buckets).length)⟩)) := by
    rw [dispatch_size hop, invokeSize_eq hm.rep.shape hmax]
    rfl
  refine answered_overwritten hm (by rw [hop]; decide) hrun rfl ?_
  rw [h₃, MessageBlock.cells]
  simp only [MessageBlock.cell, bufferCells, Option.map_some]
  ac_rfl

/-- `OP_GETKEYS`. -/
theorem invokeGetKeys_ends (hm : Mirrors t buckets T) (h : m.owned = T.cells + (M.cells + rest))
    (hop : M.content.opcode = opGetKeys) (hdef : Defined (RemoteTable.dispatch env ⟨t, stats⟩ M.content)) :
    Prog.Ends (invokeGetKeys junk (some T.addr) (some M.addr)) m fun _ =>
      Answered env stats t T M rest := by
  have hmax : ((RemoteTable.entries buckets).length : Int) < intMax := by
    by_contra hle
    rw [dispatch_getKeys hop, invokeGetKeys_overflow hm.rep.shape hle, error_bind] at hdef
    exact absurd hdef (not_defined_error _)
  set wire := keyWire (RemoteTable.entries buckets) with hwire
  refine (returns_message (message_le h)).ends ((hm.getKeys h hmax).bind ?_)
  rintro _ m₁ ⟨k, copies, rfl, hcopies, h₁⟩
  have hlen : RemoteTable.keyLengthsLoop (copyStrings copies ++ [some none]) 0 = .ok wire.length := by
    rw [hcopies, keyLengthsLoop_eq, Nat.zero_add]
  have hslots : (k, Object.pointers (copySlots copies ++ [some none])) ∈ m₁.owned := by
    rw [h₁]
    simp
  have hle : copyCells copies ≤ m₁.owned := by
    rw [h₁]
    exact le_trans (Multiset.le_add_right _ _) (Multiset.le_add_left _ _)
  refine (returns_pointers hslots).ends ((keyLengthsLoop_returns hle hlen).ends ?_)
  refine (mallocBytes_ends junk m₁ (Int.natCast_nonneg wire.length)).bind ?_
  rintro _ m₂ ⟨a, b, rfl, hb, h₂⟩
  have hcopy : RemoteTable.keyCopyLoop (copyStrings copies ++ [some none]) b 0 = .ok wire := by
    obtain ⟨b', hb', hfree⟩ := filled_malloc (junk a) (Int.natCast_nonneg wire.length)
    obtain rfl := Option.some.inj (hb.symm.trans hb')
    obtain ⟨b'', hrun, hfull⟩ := keyCopyLoop_eq (RemoteTable.entries buckets) hfree (by rw [← hwire]; omega)
    rw [← hwire, Int.toNat_natCast, Nat.sub_self] at hfull
    rw [hcopies, show wire = b'' from hfull.full.symm]
    exact hrun
  refine (keyCopyLoop_ends hle h₂ hcopy).bind fun _ m₃ h₃ => ?_
  have hstore : m₃.owned = {(M.addr, .message M.cell)} + ({(a, .bytes wire)} +
      ({(k, .pointers (copySlots copies ++ [some none]))} + (copyCells copies +
        (T.cells + (bufferCells M.data + rest))))) := by
    rw [h₃, h₁, h, MessageBlock.cells]
    ac_rfl
  refine (Prog.ends_store hstore _).bind ?_
  rintro _ m₄ ⟨-, h₄⟩
  have hkeys : m₄.owned = {(k, .pointers (copySlots copies ++ [some none]))} + (copyCells copies +
      ({(M.addr, .message ⟨M.opcode + 1, ctKeys, wire.length, some a⟩)} + ({(a, .bytes wire)} +
        (T.cells + (bufferCells M.data + rest))))) := by
    rw [h₄, MessageBlock.cell]
    ac_rfl
  refine (tableFreeKeys_ends hkeys).mono fun _ m₅ h₅ => ?_
  have hrun : RemoteTable.dispatch (withJunk env fun _ => junk a) ⟨t, stats⟩ M.content =
      .ok (some (⟨t, stats⟩, MessageBlock.content ⟨M.addr, M.opcode + 1, ctKeys, wire.length,
        some (a, wire)⟩)) := by
    rw [dispatch_getKeys hop, invokeGetKeys_eq hm.rep.shape hmax]
    rfl
  refine answered_overwritten hm (by rw [hop]; decide) hrun rfl ?_
  rw [h₅, MessageBlock.cells]
  simp only [MessageBlock.cell, bufferCells, Option.map_some]
  ac_rfl

/-- `OP_PRINT`. -/
theorem invokePrint_ends (hm : Mirrors t buckets T) (h : m.owned = T.cells + (M.cells + rest))
    (hop : M.content.opcode = opPrint) (hdef : Defined (RemoteTable.dispatch env ⟨t, stats⟩ M.content)) :
    Prog.Ends (invokePrint junk (some T.addr) (some M.addr)) m fun _ =>
      Answered env stats t T M rest := by
  have hstring : Defined (RemoteTable.tableToString env.junk t) := by
    obtain ⟨_, hdisp⟩ := hdef
    rw [dispatch_print hop] at hdisp
    obtain ⟨_, hprint, -⟩ := bind_eq_ok.mp hdisp
    obtain ⟨s, hs, -⟩ := bind_eq_ok.mp hprint
    exact ⟨s, hs⟩
  have hlen : strlen (tableString buckets) = .ok (printedTable buckets).length := by
    rw [(tableString_terminated buckets).strlen, cstr_tableString]
  refine (returns_message (message_le h)).ends ((hm.toString h hstring).bind ?_)
  rintro _ m₁ ⟨a, rfl, hval, h₁⟩
  have hmem : (a, Object.bytes (tableString buckets)) ∈ m₁.owned := by
    rw [h₁]
    simp
  have hstore : m₁.owned = {(M.addr, .message M.cell)} + ({(a, .bytes (tableString buckets))} +
      (T.cells + (bufferCells M.data + rest))) := by
    rw [h₁, h, MessageBlock.cells]
    ac_rfl
  refine (returns_bytes hmem).ends ((Prog.returns_lift hlen m₁).ends ?_)
  refine (Prog.ends_store hstore _).mono ?_
  rintro _ m₂ ⟨-, h₂⟩
  have hrun : RemoteTable.dispatch (withJunk env env.junk) ⟨t, stats⟩ M.content =
      .ok (some (⟨t, stats⟩, MessageBlock.content ⟨M.addr, M.opcode + 1, ctTable,
        (printedTable buckets).length + 1, some (a, tableString buckets)⟩)) := by
    rw [dispatch_print hop, RemoteTable.invokePrint, hval, ok_bind, hlen]
    rfl
  refine answered_overwritten hm (by rw [hop]; decide) hrun rfl ?_
  rw [h₂, MessageBlock.cells]
  simp only [MessageBlock.cell, bufferCells, Option.map_some]
  ac_rfl

/-- Every branch of `OP_STATS` ends with a reply in a block of its own, or in none. -/
theorem answered_stats {m' : Memory Object} {j : Nat → Nat → UInt8} {opcode cType : Int} {len : Nat}
    (data : Option (Addr × Block)) (hm : Mirrors t buckets T) (hop : M.content.opcode = opStats)
    (hrun : RemoteTable.invokeStats (withJunk env j) stats M.content =
      .ok ⟨opcode, cType, ⟨len, data.map Prod.snd⟩⟩)
    (h' : m'.owned = {(M.addr, .message ⟨opcode, cType, len, data.map Prod.fst⟩)} + (bufferCells data +
      (T.cells + (bufferCells M.data + rest)))) : Answered env stats t T M rest m' := by
  have hdisp : RemoteTable.dispatch (withJunk env j) ⟨t, stats⟩ M.content =
      .ok (some (⟨t, stats⟩, MessageBlock.content ⟨M.addr, opcode, cType, len, data⟩)) := by
    rw [dispatch_stats hop, hrun]
    rfl
  refine answered_overwritten hm (by rw [hop]; decide) hdisp rfl ?_
  rw [h', MessageBlock.cells]
  simp only [MessageBlock.cell]
  ac_rfl

/-- `OP_STATS` on values, once it has a block. -/
theorem invokeStats_block {j : Nat → UInt8} {b image : Block} (msg : MessageT)
    (hblock : env.statsBlock) (hb : malloc j sizeofStatistics = some b)
    (himage : store b 0 (env.statsImage stats) = .ok image) :
    RemoteTable.invokeStats (withJunk env fun _ => j) stats msg =
      .ok (if env.readLock ≠ 0 then ⟨opError, ctNone, ⟨0, some b⟩⟩
        else if env.readUnlock ≠ 0 then ⟨opError, ctNone, ⟨0, some image⟩⟩
        else ⟨msg.opcode + 1, ctResult, ⟨sizeofStatistics, some image⟩⟩) := by
  rw [RemoteTable.invokeStats, if_pos (show (withJunk env fun _ => j).statsBlock from hblock),
    show malloc ((withJunk env fun _ => j).junk 0) sizeofStatistics = some b from hb, deref_some, ok_bind,
    show store b 0 ((withJunk env fun _ => j).statsImage stats) = .ok image from himage]
  by_cases hlock : env.readLock ≠ 0
  · rw [if_pos hlock]
    exact if_pos hlock
  · rw [if_neg hlock]
    refine (if_neg hlock).trans ?_
    rw [ok_bind]
    by_cases hunlock : env.readUnlock ≠ 0
    · rw [if_pos hunlock]
      exact if_pos hunlock
    · rw [if_neg hunlock]
      exact if_neg hunlock

/-- `OP_STATS`. -/
theorem invokeStats_ends (hm : Mirrors t buckets T) (h : m.owned = T.cells + (M.cells + rest))
    (hop : M.content.opcode = opStats) :
    Prog.Ends (invokeStats junk env stats (some M.addr)) m fun _ => Answered env stats t T M rest := by
  have hmsg : m.owned = {(M.addr, .message M.cell)} + (T.cells + (bufferCells M.data + rest)) := by
    rw [h, MessageBlock.cells]
    ac_rfl
  refine (returns_message (message_le h)).ends ?_
  by_cases hblock : env.statsBlock
  · refine (mallocIf_ends junk m ⟨hblock, Int.natCast_nonneg sizeofStatistics⟩).bind ?_
    rintro _ m₁ ⟨a, b, rfl, hb, h₁⟩
    have hsize : ((env.statsImage stats).length : Int) = (sizeofStatistics : Nat) := by
      rw [env.length_statsImage]
    have himage := malloc_store_all hsize hb
    have hrun := invokeStats_block M.content hblock hb himage
    rw [hmsg, ← add_assoc, add_comm {(a, Object.bytes b)}, add_assoc] at h₁
    rw [if_neg (Option.some_ne_none _)]
    by_cases hlock : env.readLock ≠ 0
    · rw [if_pos hlock] at hrun ⊢
      refine (Prog.ends_store h₁ _).mono ?_
      rintro _ m₂ ⟨-, h₂⟩
      exact answered_stats (some (a, b)) hm hop hrun h₂
    · rw [if_neg hlock] at hrun ⊢
      have h₁' : m₁.owned = {(a, .bytes b)} + ({(M.addr, .message M.cell)} + (T.cells +
          (bufferCells M.data + rest))) := by
        rw [h₁]
        ac_rfl
      refine (storeAt_ends h₁' himage).bind fun _ m₂ h₂ => ?_
      have h₂' : m₂.owned = {(M.addr, .message M.cell)} + ({(a, .bytes (env.statsImage stats))} +
          (T.cells + (bufferCells M.data + rest))) := by
        rw [h₂]
        ac_rfl
      by_cases hunlock : env.readUnlock ≠ 0
      · rw [if_pos hunlock] at hrun ⊢
        refine (Prog.ends_store h₂' _).mono ?_
        rintro _ m₃ ⟨-, h₃⟩
        exact answered_stats (some (a, env.statsImage stats)) hm hop hrun h₃
      · rw [if_neg hunlock] at hrun ⊢
        refine (Prog.ends_store h₂' _).mono ?_
        rintro _ m₃ ⟨-, h₃⟩
        exact answered_stats (some (a, env.statsImage stats)) hm hop hrun h₃
  · refine (mallocIf_returns junk m fun h => hblock h.1).ends ?_
    rw [if_pos rfl]
    refine (Prog.ends_store hmsg _).mono ?_
    rintro _ m₁ ⟨-, h₁⟩
    have h₁' : m₁.owned = {(M.addr, .message ⟨opError, ctNone, 0, none⟩)} + (bufferCells none +
        (T.cells + (bufferCells M.data + rest))) := by
      rw [h₁, bufferCells, zero_add]
    exact answered_stats none (j := env.junk) hm hop (if_neg hblock) h₁'

/-! ## The branches that read the bytes of the request -/

section Keyed
variable {ka : Addr} {key : Block}

/-- The request with its bytes, and the rest. -/
theorem request_owned (h : m.owned = T.cells + (M.cells + rest)) (hdata : M.data = some (ka, key)) :
    m.owned = T.cells + ({(ka, .bytes key)} + ({(M.addr, .message M.cell)} + rest)) := by
  rw [h, MessageBlock.cells, hdata]
  simp only [bufferCells]
  ac_rfl

theorem request_buffer (hdata : M.data = some (ka, key)) : M.content.buffer.data = some key := by
  rw [MessageBlock.content, hdata]
  rfl

/-- A branch that frees the bytes of the request leaves a message without any. -/
theorem answered_emptied {m' : Memory Object} {j : Nat → Nat → UInt8} {t' : TableT} {buckets' : Buckets}
    {T' : TableBlock} {lost : Multiset (Addr × Object)} {opcode : Int} (hm' : Mirrors t' buckets' T')
    (haddr : T'.addr = T.addr) (hlost : lost.card = lostByInvoke M.content)
    (hrun : RemoteTable.dispatch (withJunk env j) ⟨t, stats⟩ M.content =
      .ok (some (⟨t', stats⟩, ⟨opcode, ctNone, ⟨0, none⟩⟩)))
    (h' : m'.owned = {(M.addr, .message ⟨opcode, ctNone, 0, none⟩)} + (T'.cells + (lost + rest))) :
    Answered env stats t T M rest m' := by
  refine ⟨j, t', buckets', T', ⟨M.addr, opcode, ctNone, 0, none⟩, lost, hrun, hm', haddr, rfl, hlost, ?_⟩
  rw [h', MessageBlock.cells, bufferCells, add_zero]
  simp only [MessageBlock.cell, Option.map_none]
  ac_rfl

theorem lostByInvoke_keyed {msg : MessageT} (hop : msg.opcode = opDel ∨ msg.opcode = opGet) :
    lostByInvoke msg = 0 := by
  rcases hop with hop | hop <;> simp [lostByInvoke, hop, opDel, opGet, opPut, opSize, opGetKeys, opPrint, opStats]

/-- `OP_DEL`. -/
theorem invokeDel_ends (hm : Mirrors t buckets T) (h : m.owned = T.cells + (M.cells + rest))
    (hop : M.content.opcode = opDel) (hdef : Defined (RemoteTable.dispatch env ⟨t, stats⟩ M.content)) :
    Prog.Ends (invokeDel (some T.addr) (some M.addr)) m fun _ => Answered env stats t T M rest := by
  obtain ⟨_, hdisp⟩ := hdef
  rw [dispatch_del hop] at hdisp
  obtain ⟨_, hinv, -⟩ := bind_eq_ok.mp hdisp
  obtain ⟨key, hkey, hinv⟩ := bind_eq_ok.mp hinv
  obtain ⟨⟨code, t'⟩, hdel, -⟩ := bind_eq_ok.mp hinv
  have hlost : (0 : Multiset (Addr × Object)).card = lostByInvoke M.content := by
    exact (lostByInvoke_keyed (Or.inl hop)).symm
  cases hdata : M.data with
  | none =>
    rw [MessageBlock.content, hdata] at hkey
    cases hkey
  | some d =>
    obtain ⟨ka, key'⟩ := d
    have hbuf := request_buffer hdata
    rw [hbuf, deref_some] at hkey
    obtain rfl := Except.ok.inj hkey
    have hown := request_owned h hdata
    have hcell : M.cell.data = some ka := by rw [MessageBlock.cell, hdata]; rfl
    refine (returns_message (message_le h)).ends ?_
    rw [hcell]
    refine (hm.del hown (by simp) ⟨_, hdel⟩).bind ?_
    rintro r m₁ ⟨t', buckets', T', hval, hm', haddr, h₁⟩
    rw [← add_assoc, add_comm T'.cells, add_assoc] at h₁
    refine (Prog.ends_free h₁).bind ?_
    rintro _ m₂ ⟨-, h₂⟩
    rw [← add_assoc, add_comm T'.cells, add_assoc] at h₂
    refine (Prog.ends_store h₂ _).mono ?_
    rintro _ m₃ ⟨-, h₃⟩
    have hrun : RemoteTable.dispatch (withJunk env env.junk) ⟨t, stats⟩ M.content =
        .ok (some (⟨t', stats⟩, ⟨if r = -1 then opError else M.opcode + 1, ctNone, ⟨0, none⟩⟩)) := by
      rw [dispatch_del hop, RemoteTable.invokeDel, hbuf, deref_some, ok_bind, hval]
      rfl
    rw [← zero_add rest] at h₃
    exact answered_emptied hm' haddr hlost hrun h₃

/-- `OP_GET`. -/
theorem invokeGet_ends (hm : Mirrors t buckets T) (h : m.owned = T.cells + (M.cells + rest))
    (hop : M.content.opcode = opGet) (hdef : Defined (RemoteTable.dispatch env ⟨t, stats⟩ M.content)) :
    Prog.Ends (invokeGet junk (some T.addr) (some M.addr)) m fun _ => Answered env stats t T M rest := by
  obtain ⟨_, hdisp⟩ := hdef
  rw [dispatch_get hop] at hdisp
  obtain ⟨_, hinv, -⟩ := bind_eq_ok.mp hdisp
  obtain ⟨key, hkey, hinv⟩ := bind_eq_ok.mp hinv
  obtain ⟨v, hget, -⟩ := bind_eq_ok.mp hinv
  have hlost : (0 : Multiset (Addr × Object)).card = lostByInvoke M.content := by
    exact (lostByInvoke_keyed (Or.inr hop)).symm
  cases hdata : M.data with
  | none =>
    rw [MessageBlock.content, hdata] at hkey
    cases hkey
  | some d =>
    obtain ⟨ka, key'⟩ := d
    have hbuf := request_buffer hdata
    rw [hbuf, deref_some] at hkey
    obtain rfl := Except.ok.inj hkey
    have hown := request_owned h hdata
    have hcell : M.cell.data = some ka := by rw [MessageBlock.cell, hdata]; rfl
    refine (returns_message (message_le h)).ends ?_
    rw [hcell]
    refine (hm.get hown (by simp) ⟨_, hget⟩).bind ?_
    rintro _ m₁ ⟨w, rfl, hsmall, hval, h₁⟩
    cases w with
    | none =>
      rw [valueCells, zero_add, hown, ← add_assoc, add_comm T.cells, add_assoc] at h₁
      rw [show valueAddr none = none from rfl, if_pos rfl]
      refine (Prog.ends_free h₁).bind ?_
      rintro _ m₂ ⟨-, h₂⟩
      rw [← add_assoc, add_comm T.cells, add_assoc] at h₂
      refine (Prog.ends_store h₂ _).bind ?_
      rintro _ m₃ ⟨-, h₃⟩
      have hrun : RemoteTable.dispatch (withJunk env env.junk) ⟨t, stats⟩ M.content =
          .ok (some (⟨t, stats⟩, ⟨opError, ctNone, ⟨0, none⟩⟩)) := by
        rw [dispatch_get hop, RemoteTable.invokeGet, hbuf, deref_some, ok_bind, hval]
        rfl
      rw [← zero_add rest] at h₃
      exact .pure (answered_emptied hm rfl hlost hrun h₃)
    | some v =>
      obtain ⟨hne, hle⟩ := hsmall v rfl
      have hvalid : v.value.Valid := DataT.valid_ofBytes hne (by unfold intMax; omega)
      have hsize : v.value.datasize = v.bytes.length := rfl
      have hencode : ∀ j, RemoteTable.dataToBuffer j (some v.value) =
          .ok (sizeofInt + v.value.datasize, some (wireData j v.value)) := by
        intro j
        refine dataToBuffer_eq j hvalid.readable ?_
        rw [hsize]
        unfold sizeofInt intMax
        omega
      have h₁' : m₁.owned = {(ka, .bytes key')} + (v.cells + (T.cells + ({(M.addr, .message M.cell)} + rest))) := by
        rw [h₁, hown, valueCells]
        ac_rfl
      rw [show valueAddr (some v) = some v.addr from rfl, if_neg (Option.some_ne_none _)]
      refine (Prog.ends_free h₁').bind ?_
      rintro _ m₂ ⟨-, h₂⟩
      have hle₂ : v.cells ≤ m₂.owned := by
        rw [h₂]
        exact Multiset.le_add_right _ _
      refine (dataToBuffer_ends hle₂ (some ka) hencode).bind ?_
      rintro _ m₃ ⟨a, rfl, h₃⟩
      have h₃' : m₃.owned = {(M.addr, .message M.cell)} + ({(a, .bytes (wireData (junk a) v.value))} +
          (v.cells + (T.cells + rest))) := by
        rw [h₃, h₂]
        ac_rfl
      refine (Prog.ends_store h₃' _).bind ?_
      rintro _ m₄ ⟨-, h₄⟩
      have h₄' : m₄.owned = valueCells (some v) + ({(M.addr, .message ⟨M.opcode + 1, ctValue,
          toSizeT (sizeofInt + v.value.datasize), some a⟩)} +
          ({(a, .bytes (wireData (junk a) v.value))} + (T.cells + rest))) := by
        rw [h₄, valueCells, MessageBlock.cell]
        ac_rfl
      refine (dataDestroy_ends h₄').mono fun _ m₅ h₅ => ?_
      refine ⟨fun _ => junk a, t, buckets, T, ⟨M.addr, M.opcode + 1, ctValue,
        toSizeT (sizeofInt + v.value.datasize), some (a, wireData (junk a) v.value)⟩, 0, ?_, hm, rfl, rfl,
        hlost, ?_⟩
      · rw [dispatch_get hop, RemoteTable.invokeGet, hbuf, deref_some, ok_bind, hval, ok_bind]
        simp only [valueOf, Option.map_some, hencode]
        rfl
      · rw [h₅, MessageBlock.cells, zero_add]
        simp only [MessageBlock.cell, bufferCells, Option.map_some]
        ac_rfl

/-- What a `PUT` that is handled carries. -/
theorem put_payload {msg : MessageT} (hdef : Defined (RemoteTable.invokePut env t msg)) :
    ∃ bytes, msg.buffer.data = some bytes ∧ toInt32 msg.buffer.len ≠ -1 ∧ EntryLayout bytes ∧
      Defined (RemoteTable.tablePut (env.junk 1) t (decodedEntry bytes).key (decodedEntry bytes).value) := by
  obtain ⟨_, hinv⟩ := hdef
  obtain ⟨temp, htemp, hinv⟩ := bind_eq_ok.mp hinv
  obtain ⟨entry, hentry, hinv⟩ := bind_eq_ok.mp hinv
  obtain ⟨_, hput, -⟩ := bind_eq_ok.mp hinv
  cases hdata : msg.buffer.data with
  | none =>
    rw [hdata, RemoteTable.bufferToEntry] at htemp
    obtain rfl := Except.ok.inj htemp
    cases hentry
  | some bytes =>
    rw [hdata] at htemp
    by_cases hsize : toInt32 msg.buffer.len = -1
    · rw [RemoteTable.bufferToEntry, if_pos hsize] at htemp
      obtain rfl := Except.ok.inj htemp
      cases hentry
    · by_cases hl : EntryLayout bytes
      · rw [bufferToEntry_layout (env.junk 0) hl hsize] at htemp
        obtain rfl := Except.ok.inj htemp
        obtain rfl := Except.ok.inj hentry
        exact ⟨bytes, rfl, hsize, hl, _, hput⟩
      · obtain ⟨f, hf⟩ := bufferToEntry_malformed (env.junk 0) hl hsize
        rw [hf] at htemp
        cases htemp

theorem lostByInvoke_put {msg : MessageT} {bytes : Block} (hop : msg.opcode = opPut)
    (hbuf : msg.buffer.data = some bytes) : lostByInvoke msg = if dataSize bytes = 0 then 1 else 0 := by
  rw [lostByInvoke, if_pos hop, hbuf]
  simp only [Option.map_some, Option.some.injEq]

/-- A decoded value is small. -/
theorem decoded_small {e : EntryBlock} {bytes : Block} (he : e.entry = decodedEntry bytes) :
    ∀ d, e.value = some d → d.bytes.length ≤ 127 := by
  intro d hd
  have hvalue : some d.value = RemoteTable.dataCreate2 (dataSize bytes) (some (dataField bytes)) := by
    have h := congrArg EntryT.value he
    rw [EntryBlock.entry, hd] at h
    exact h
  have hle : dataSize bytes ≤ 127 := charVal_upper _
  unfold RemoteTable.dataCreate2 at hvalue
  split at hvalue
  · cases hvalue
  · have hsize : (d.bytes.length : Int) = dataSize bytes := congrArg DataT.datasize (Option.some.inj hvalue)
    omega

/-- `OP_PUT`. -/
theorem invokePut_ends (hm : Mirrors t buckets T) (h : m.owned = T.cells + (M.cells + rest))
    (hop : M.content.opcode = opPut) (hdef : Defined (RemoteTable.dispatch env ⟨t, stats⟩ M.content)) :
    Prog.Ends (invokePut junk (some T.addr) (some M.addr)) m fun _ => Answered env stats t T M rest := by
  have hinv : Defined (RemoteTable.invokePut env t M.content) := by
    obtain ⟨_, hdisp⟩ := hdef
    rw [dispatch_put hop] at hdisp
    obtain ⟨r, hr, -⟩ := bind_eq_ok.mp hdisp
    exact ⟨r, hr⟩
  obtain ⟨bytes, hbuf, hsize, hl, hput⟩ := put_payload hinv
  obtain ⟨⟨ka, bytes'⟩, hdata, rfl⟩ : ∃ d, M.data = some d ∧ d.2 = bytes := Option.map_eq_some_iff.mp hbuf
  have hown := request_owned h hdata
  have hcell : M.cell.data = some ka := by rw [MessageBlock.cell, hdata]; rfl
  have hmem : (ka, Object.bytes bytes') ∈ m.owned := by
    rw [hown]
    simp
  refine (returns_message (message_le h)).ends ?_
  rw [hcell]
  refine (bufferToEntry_ends hmem hl hsize).bind ?_
  rintro _ m₁ ⟨e, lost, rfl, he, hlost, h₁⟩
  have hentry : (e.addr, Object.entry ⟨some e.keyAddr, valueAddr e.value⟩) ∈ m₁.owned := by
    rw [h₁]
    simp [EntryBlock.cells]
  have hput : Defined (RemoteTable.tablePut (env.junk 1) t e.key (valueOf e.value)) := by
    rw [← he] at hput
    exact hput
  have h₁' : m₁.owned = T.cells + (e.cells + (lost + ({(ka, .bytes bytes')} +
      ({(M.addr, .message M.cell)} + rest)))) := by
    rw [h₁, hown]
    ac_rfl
  refine (returns_entry hentry).ends ?_
  refine (hm.put h₁' (by simp [EntryBlock.cells]) ?_ (decoded_small he) hput).bind ?_
  · rw [EntryBlock.cells, add_assoc, add_assoc]
    exact le_trans (le_trans (Multiset.le_add_right _ _) (Multiset.le_add_left _ _)) (Multiset.le_add_left _ _)
  rintro r m₂ ⟨t', buckets', T', hval, hm', haddr, h₂⟩
  rw [← add_assoc, add_comm T'.cells, add_assoc] at h₂
  refine (entryDestroy_ends h₂).bind fun _ m₃ h₃ => ?_
  have h₃' : m₃.owned = {(ka, .bytes bytes')} + (T'.cells + (lost + ({(M.addr, .message M.cell)} + rest))) := by
    rw [h₃]
    ac_rfl
  refine (Prog.ends_free h₃').bind ?_
  rintro _ m₄ ⟨-, h₄⟩
  have h₄' : m₄.owned = {(M.addr, .message M.cell)} + (T'.cells + (lost + rest)) := by
    rw [h₄]
    ac_rfl
  refine (Prog.ends_store h₄' _).mono ?_
  rintro _ m₅ ⟨-, h₅⟩
  have hrun : RemoteTable.dispatch (withJunk env env.junk) ⟨t, stats⟩ M.content =
      .ok (some (⟨t', stats⟩, ⟨if r = -1 then opError else M.opcode + 1, ctNone, ⟨0, none⟩⟩)) := by
    rw [dispatch_put hop, RemoteTable.invokePut, hbuf, bufferToEntry_layout _ hl hsize, ok_bind, deref_some,
      ok_bind, ← he]
    simp only [withJunk, EntryBlock.entry, hval]
    rfl
  exact answered_emptied hm' haddr (hlost.trans (lostByInvoke_put hop hbuf).symm) hrun h₅

end Keyed

/-! ## The function -/

/-- A request that no branch handles is left as it is. -/
theorem dispatch_unhandled (hop : ¬ Handled M.content.opcode) :
    Prog.Returns (dispatch junk env (some T.addr) stats (some M.addr) M.content.opcode) m false := by
  simp only [Handled, List.mem_cons, List.not_mem_nil, or_false, not_or] at hop
  obtain ⟨h₁, h₂, h₃, h₄, h₅, h₆, h₇⟩ := hop
  rw [dispatch, if_neg h₁, if_neg h₂, if_neg h₃, if_neg h₄, if_neg h₅, if_neg h₆, if_neg h₇]
  exact Prog.returns_pure false m

/-- **The branches**: each one that is defined on values ends in memory, with the same answer. -/
theorem dispatch_ends (hm : Mirrors t buckets T) (h : m.owned = T.cells + (M.cells + rest))
    (hop : Handled M.content.opcode) (hdef : Defined (RemoteTable.dispatch env ⟨t, stats⟩ M.content)) :
    Prog.Ends (dispatch junk env (some T.addr) stats (some M.addr) M.content.opcode) m fun handled m' =>
      handled = true ∧ Answered env stats t T M rest m' := by
  have hpure : ∀ {c : Prog Object Unit}, Prog.Ends c m (fun _ => Answered env stats t T M rest) →
      Prog.Ends (do c; return true) m fun handled m' => handled = true ∧ Answered env stats t T M rest m' :=
    fun hc => hc.bind fun _ _ h => .pure ⟨rfl, h⟩
  rw [dispatch]
  simp only [Handled, List.mem_cons, List.not_mem_nil, or_false] at hop
  rcases hop with h' | h' | h' | h' | h' | h' | h' <;> rw [h']
  · exact hpure (invokeSize_ends hm h h' hdef)
  · exact hpure (invokeDel_ends hm h h' hdef)
  · exact hpure (invokeGet_ends hm h h' hdef)
  · exact hpure (invokePut_ends hm h h' hdef)
  · exact hpure (invokeGetKeys_ends hm h h' hdef)
  · exact hpure (invokePrint_ends hm h h' hdef)
  · exact hpure (invokeStats_ends hm h h')

/-- **`invoke`**: where it is defined on values it ends in memory.  It returns the same, leaves
the same statistics, and the table and the message are what they are on values, with some
contents of the blocks that `malloc` hands out. -/
theorem invoke_ends (hm : Mirrors t buckets T) (h : m.owned = T.cells + (M.cells + rest))
    (hdef : Defined (RemoteTable.invoke env ⟨t, stats⟩ M.content)) :
    Prog.Ends (invoke junk env (some T.addr) stats (some M.addr)) m fun r m' =>
      ∃ (j : Nat → Nat → UInt8) (t' : TableT) (buckets' : Buckets) (T' : TableBlock) (M' : MessageBlock)
        (lost : Multiset (Addr × Object)),
        RemoteTable.invoke (withJunk env j) ⟨t, stats⟩ M.content = .ok (r.1, ⟨t', r.2⟩, M'.content) ∧
        Mirrors t' buckets' T' ∧ T'.addr = T.addr ∧ M'.addr = M.addr ∧
        lost.card = lostByInvoke M.content ∧ m'.owned = T'.cells + (M'.cells + (lost + rest)) := by
  refine (returns_message (message_le h)).ends ?_
  by_cases hop : Handled M.content.opcode
  · have hdisp : Defined (RemoteTable.dispatch env ⟨t, stats⟩ M.content) := by
      obtain ⟨_, hrun⟩ := hdef
      obtain ⟨r, hr, -⟩ := bind_eq_ok.mp hrun
      exact ⟨r, hr⟩
    refine (dispatch_ends hm h hop hdisp).bind ?_
    rintro _ m₁ ⟨rfl, j, t', buckets', T', M', lost, hval, hm', haddr, hmsg, hlost, h₁⟩
    obtain ⟨⟨code, stats'⟩, htail⟩ := statsTail_defined env M.content.opcode stats
    rw [if_pos rfl]
    refine ⟨_, m₁, Prog.returns_lift htail m₁, ?_⟩
    refine ⟨j, t', buckets', T', M', lost, ?_, hm', haddr, hmsg, hlost, h₁⟩
    rw [RemoteTable.invoke, hval, ok_bind]
    simp only [show statsTail (withJunk env j) = statsTail env from rfl, htail, ok_bind, pure_eq_ok]
  · refine (dispatch_unhandled hop).ends ?_
    rw [if_neg Bool.false_ne_true]
    refine .pure ⟨env.junk, t, buckets, T, M, 0, ?_, hm, rfl, rfl, ?_, by rw [zero_add, h]⟩
    · exact invoke_of_refused (dispatch_refused hop)
    · simp only [Handled, List.mem_cons, List.not_mem_nil, or_false, not_or] at hop
      simp [lostByInvoke, hop]

end Branches
end RemoteTable.Pointers
