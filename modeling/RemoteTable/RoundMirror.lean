import RemoteTable.InvokeMirror

/-! # `network_receive` and `network_send` on values and in blocks

A message is received into blocks of its own, and sending it frees them.  What is lost is lost
where a call fails: `network_receive` leaves the block of `read_all` behind, and `network_send`
the message when it gets no block, and its block when `write_all` fails.
-/
namespace RemoteTable.Pointers
open CMem

/-- The blocks of a message. -/
def messageBlocks (msg : MessageT) : Nat := if msg.buffer.data.isSome then 2 else 1

/-- The blocks that `network_receive` leaves behind. -/
def lostByReceive (r : Round) (s : Incoming) : Nat :=
  match readAll r.reads r.blocks s with
  | .ok (len, some _, _) => if len = -1 then 1 else 0
  | _ => 0

/-- The blocks that `network_send` leaves behind. -/
def lostBySend (pb : Protobuf) (r : Round) (sock : ClientSocket) (msg : MessageT) : Nat :=
  match RemoteTable.networkSend pb r sock msg with
  | .ok (code, _) =>
    if code = 0 then 0
    else if r.sendBlock ∧ 0 ≤ toInt32 (pb.packedSize msg) then 1 else messageBlocks msg
  | .error _ => 0

/-- The same round with other contents of the blocks that `malloc` hands out. -/
def roundJunk (r : Round) (j : Nat → Nat → UInt8) (k : Nat → UInt8) : Round :=
  { r with env := withJunk r.env j, sendJunk := k }

section Rounds
variable {m : Memory Object} {rest : Multiset (Addr × Object)} {junk : Addr → Nat → UInt8}
  {pb : Protobuf} {r : Round} {sock : ClientSocket} {M : MessageBlock}

theorem card_messageCells (M : MessageBlock) : M.cells.card = messageBlocks M.content := by
  have hsome : M.content.buffer.data.isSome = M.data.isSome := Option.isSome_map
  rw [MessageBlock.cells, Multiset.card_add, Multiset.card_singleton, card_bufferCells, messageBlocks, hsome]
  split <;> rfl

/-- The objects of a message that may be missing. -/
def receivedCells : Option MessageBlock → Multiset (Addr × Object)
  | none => 0
  | some M => M.cells

theorem messageUnpack_ends (pb : Protobuf) (body : Block) (m : Memory Object) :
    Prog.Ends (messageUnpack pb body) m fun p m' => ∃ msg : Option MessageBlock,
      p = msg.map MessageBlock.addr ∧ pb.unpack body = msg.map MessageBlock.content ∧
        m'.owned = receivedCells msg + m.owned := by
  unfold messageUnpack
  cases hunpack : pb.unpack body with
  | none => exact .pure ⟨none, rfl, rfl, (zero_add _).symm⟩
  | some content =>
    refine (newBytes_ends content.buffer.data m).bind ?_
    rintro _ m₁ ⟨d, rfl, hd, h₁⟩
    refine (Prog.ends_new m₁ _).mono ?_
    rintro _ m₂ ⟨a, rfl, -, h₂⟩
    refine ⟨some ⟨a, content.opcode, content.cType, content.buffer.len, d⟩, rfl, ?_, ?_⟩
    · rw [Option.map_some, MessageBlock.content, ← hd]
    · rw [h₂, h₁, receivedCells, MessageBlock.cells, add_assoc]
      rfl

theorem messageFreeUnpacked_ends (h : m.owned = M.cells + rest) :
    Prog.Ends (messageFreeUnpacked (some M.addr)) m fun _ m' => m'.owned = rest := by
  have hle : M.cells ≤ m.owned := by
    rw [h]
    exact Multiset.le_add_right _ _
  have hbuf : m.owned = bufferCells M.data + ({(M.addr, .message M.cell)} + rest) := by
    rw [h, MessageBlock.cells]
    ac_rfl
  rw [messageFreeUnpacked, if_neg (Option.some_ne_none _)]
  refine (returns_message hle).ends ((freeBuffer_ends hbuf).bind fun _ m₁ h₁ => ?_)
  exact (Prog.ends_free h₁).mono fun _ _ h => h.2

theorem messageContent_returns (h : M.cells ≤ m.owned) :
    Prog.Returns (messageContent (some M.addr)) m M.content := by
  refine (returns_message h).bind ?_
  cases hdata : M.data with
  | none =>
    rw [if_pos (show M.cell.data = none by rw [MessageBlock.cell, hdata]; rfl), MessageBlock.content, hdata]
    exact Prog.returns_pure _ m
  | some d =>
    have hcell : M.cell.data = some d.1 := by
      rw [MessageBlock.cell, hdata]
      rfl
    have hmem : (d.1, Object.bytes d.2) ∈ m.owned :=
      Multiset.mem_of_le h (by simp [MessageBlock.cells, hdata, bufferCells])
    rw [hcell, if_neg (Option.some_ne_none _), MessageBlock.content, hdata]
    exact (returns_bytes hmem).bind (Prog.returns_pure _ m)

/-- **`network_receive`**: the message in blocks of its own. -/
theorem networkReceive_ends {msg : Option MessageT} {sock' : ClientSocket}
    (hval : RemoteTable.networkReceive pb r sock = .ok (msg, sock')) (m : Memory Object) :
    Prog.Ends (networkReceive pb r sock) m fun p m' =>
      ∃ (M : Option MessageBlock) (lost : Multiset (Addr × Object)),
        p = (M.map MessageBlock.addr, sock') ∧ msg = M.map MessageBlock.content ∧
        lost.card = lostByReceive r sock.incoming ∧ m'.owned = receivedCells M + (lost + m.owned) := by
  obtain ⟨⟨len, buf, incoming⟩, hread, hval⟩ := bind_eq_ok.mp hval
  refine (Prog.returns_lift hread m).ends ?_
  have hlost : lostByReceive r sock.incoming = if buf.isSome ∧ len = -1 then 1 else 0 := by
    rw [lostByReceive, hread]
    cases buf with
    | none => rfl
    | some b => simp
  refine (newBytes_ends buf m).bind ?_
  rintro _ m₁ ⟨block, rfl, rfl, h₁⟩
  by_cases hlen : len = -1
  · simp only [if_pos hlen] at hval ⊢
    obtain ⟨rfl, rfl⟩ := Prod.mk.inj (Except.ok.inj hval)
    refine .pure ⟨none, bufferCells block, rfl, rfl, ?_, by rw [h₁, receivedCells, zero_add]⟩
    rw [hlost, card_bufferCells, Option.isSome_map]
    simp only [hlen, and_true]
  · simp only [if_neg hlen] at hval ⊢
    obtain ⟨body, hbody, hval⟩ := bind_eq_ok.mp hval
    obtain ⟨rfl, rfl⟩ := Prod.mk.inj (Except.ok.inj hval)
    refine (Prog.returns_lift hbody m₁).ends ((messageUnpack_ends pb body m₁).bind ?_)
    rintro _ m₂ ⟨M, rfl, hM, h₂⟩
    have hfree : m₂.owned = bufferCells block + (receivedCells M + m.owned) := by
      rw [h₂, h₁]
      ac_rfl
    refine (freeBuffer_ends hfree).bind fun _ m₃ h₃ => .pure ⟨M, 0, rfl, hM, ?_, by rw [zero_add, h₃]⟩
    rw [hlost, if_neg fun h => hlen h.2, Multiset.card_zero]

/-- **`network_send`**: the message is freed, or lost when there is no block for its bytes. -/
theorem networkSend_ends (h : m.owned = M.cells + rest)
    (hdef : ∀ k, Defined (RemoteTable.networkSend pb { r with sendJunk := k } sock M.content)) :
    Prog.Ends (networkSend junk pb r sock (some M.addr)) m fun p m' =>
      ∃ (k : Nat → UInt8) (lost : Multiset (Addr × Object)),
        RemoteTable.networkSend pb { r with sendJunk := k } sock M.content = .ok p ∧
        lost.card = lostBySend pb { r with sendJunk := k } sock M.content ∧ m'.owned = lost + rest := by
  have hle : M.cells ≤ m.owned := by
    rw [h]
    exact Multiset.le_add_right _ _
  refine (messageContent_returns hle).ends ?_
  generalize hsize : toInt32 (pb.packedSize M.content) = len
  by_cases hgrant : r.sendBlock ∧ 0 ≤ len
  · refine (mallocIf_ends junk m hgrant).bind ?_
    obtain ⟨hsend, hlen⟩ := hgrant
    rintro _ m₁ ⟨a, b, rfl, hb, h₁⟩
    obtain ⟨p, hsent⟩ := hdef (junk a)
    have hp := hsent
    simp only [RemoteTable.networkSend, hsize, if_pos hsend, hb] at hp
    obtain ⟨body, hbody, hp⟩ := bind_eq_ok.mp hp
    obtain ⟨b', hstore, hp⟩ := bind_eq_ok.mp hp
    obtain ⟨⟨code, out⟩, hwrite, hp⟩ := bind_eq_ok.mp hp
    rw [if_neg (Option.some_ne_none _)]
    refine (Prog.returns_lift hbody m₁).ends ((storeAt_ends h₁ hstore).bind fun _ m₂ h₂ => ?_)
    have h₂' : m₂.owned = M.cells + ({(a, .bytes b')} + rest) := by
      rw [h₂, h]
      ac_rfl
    refine (messageFreeUnpacked_ends h₂').bind fun _ m₃ h₃ => ?_
    have hmem : (a, Object.bytes b') ∈ m₃.owned := by
      rw [h₃]
      simp
    refine (returns_bytes hmem).ends ((Prog.returns_lift hwrite m₃).ends ?_)
    have hlost : lostBySend pb { r with sendJunk := junk a } sock M.content = if p.1 = 0 then 0 else 1 := by
      rw [lostBySend, hsent]
      simp only [hsize, hsend, hlen, and_self, if_true]
    by_cases hcode : code = -1
    · simp only [if_pos hcode] at hp ⊢
      obtain rfl := Except.ok.inj hp
      refine .pure ⟨junk a, {(a, .bytes b')}, hsent, ?_, h₃⟩
      rw [hlost, if_neg (show (-1 : Int) ≠ 0 by decide), Multiset.card_singleton]
    · simp only [if_neg hcode] at hp ⊢
      obtain rfl := Except.ok.inj hp
      refine (Prog.ends_free h₃).bind ?_
      rintro _ m₄ ⟨-, h₄⟩
      refine .pure ⟨junk a, 0, hsent, ?_, by rw [h₄, zero_add]⟩
      rw [hlost, if_pos rfl, Multiset.card_zero]
  · have hval : RemoteTable.networkSend pb { r with sendJunk := fun _ => 0 } sock M.content =
        .ok (-1, sock.close) := by
      have hnull : (if r.sendBlock then malloc (fun _ => 0) len else none) = none := by
        by_cases hsend : r.sendBlock
        · rw [if_pos hsend, malloc_of_neg _ (Int.not_le.mp fun hle => hgrant ⟨hsend, hle⟩)]
        · rw [if_neg hsend]
      simp only [RemoteTable.networkSend, hsize, hnull]
    refine (mallocIf_returns junk m hgrant).ends ?_
    rw [if_pos rfl]
    refine .pure ⟨fun _ => 0, M.cells, hval, ?_, h⟩
    rw [card_messageCells, lostBySend, hval]
    simp only [hsize, hgrant, if_false]
    rfl

end Rounds
end RemoteTable.Pointers
