import RemoteTable.PointerServer
import RemoteTable.PointerTables

/-! # What the functions that build replies own

Each of these functions writes into blocks of its own what its counterpart on values computes:
the specifications take the result of that as a hypothesis, and say which blocks there are
afterwards.
-/
namespace RemoteTable.Pointers
open CMem

/-! ## What the blocks stand for -/

/-- The value in a block. -/
def DataBlock.value (d : DataBlock) : DataT := DataT.ofBytes d.bytes

/-- A value that may be missing. -/
def valueOf (v : Option DataBlock) : Option DataT := v.map DataBlock.value

/-- The entry in blocks. -/
def EntryBlock.entry (e : EntryBlock) : EntryT := ⟨e.key, valueOf e.value⟩

/-- The node as the model on values has it. -/
def NodeBlock.pair (x : NodeBlock) : Addr × EntryT := (x.addr, x.entry.entry)

section Specs
variable {m : Memory Object} {rest : Multiset (Addr × Object)} {junk : Addr → Nat → UInt8}

/-! ## `serialization.c` -/

/-- What `data_to_buffer` does to its block. -/
theorem dataToBuffer_steps {j : Nat → UInt8} {b w : Block} {size : Int}
    (h : RemoteTable.dataToBuffer j (some (DataT.ofBytes b)) = .ok (size, some w)) :
    toInt32 (sizeofInt + b.length) = size ∧ ∃ temp b₁, malloc j size = some temp ∧
      store temp 0 [toByte b.length] = .ok b₁ ∧ store b₁ sizeofInt b = .ok w := by
  rw [RemoteTable.dataToBuffer, show (DataT.ofBytes b).datasize = b.length from rfl] at h
  generalize toInt32 (sizeofInt + b.length) = n at h ⊢
  split at h
  · cases h
  · rename_i temp htemp
    obtain ⟨b₁, hstore₁, h⟩ := bind_eq_ok.mp h
    obtain ⟨src, hsrc, h⟩ := bind_eq_ok.mp h
    obtain ⟨bytes, hslice, h⟩ := bind_eq_ok.mp h
    obtain ⟨b₂, hstore₂, h⟩ := bind_eq_ok.mp h
    obtain ⟨rfl, hw⟩ := Prod.mk.inj (Except.ok.inj h)
    obtain rfl := Except.ok.inj hsrc
    obtain rfl := Except.ok.inj (hslice.symm.trans (slice_all b))
    exact ⟨rfl, temp, b₁, htemp, hstore₁, Option.some.inj hw ▸ hstore₂⟩

/-- **`data_to_buffer` writes the value into a block of its own.** -/
theorem dataToBuffer_ends {d : DataBlock} (hd : d.cells ≤ m.owned) (dataBuf : Option Addr) {size : Int}
    {w : (Nat → UInt8) → Block}
    (hval : ∀ j, RemoteTable.dataToBuffer j (some d.value) = .ok (size, some (w j))) :
    Prog.Ends (dataToBuffer junk (some d.addr) dataBuf) m fun r m' => ∃ a, r = (size, some a) ∧
      m'.owned = {(a, .bytes (w (junk a)))} + m.owned := by
  have hdata : (d.addr, Object.data ⟨d.bytes.length, some d.bytesAddr⟩) ∈ m.owned :=
    Multiset.mem_of_le hd (by simp [DataBlock.cells])
  have hbytes : (d.bytesAddr, Object.bytes d.bytes) ∈ m.owned :=
    Multiset.mem_of_le hd (by simp [DataBlock.cells])
  obtain ⟨hsize, temp, -, hmalloc, -⟩ := dataToBuffer_steps (hval fun _ => 0)
  have hnonneg : 0 ≤ size := by
    by_contra hneg
    rw [malloc_of_neg _ (Int.not_le.mp hneg)] at hmalloc
    cases hmalloc
  rw [dataToBuffer, if_neg (Option.some_ne_none _)]
  refine (returns_data hdata).ends ?_
  simp only [hsize]
  refine (mallocBytes_ends junk m hnonneg).bind ?_
  rintro _ m₁ ⟨a, b, rfl, hb, h₁⟩
  obtain ⟨-, _, b₁, hmalloc', hstore₁, hstore₂⟩ := dataToBuffer_steps (hval (junk a))
  obtain rfl := Option.some.inj (hmalloc'.symm.trans hb)
  rw [if_neg (Option.some_ne_none _)]
  refine (storeAt_ends h₁ hstore₁).bind fun _ m₂ h₂ => ?_
  have hsrc : (d.bytesAddr, Object.bytes d.bytes) ∈ m₂.owned := by
    rw [h₂]
    exact Multiset.mem_add.mpr (Or.inr hbytes)
  refine (memcpy_ends hsrc (slice_all d.bytes) h₂ hstore₂).bind fun _ m₃ h₃ => .pure ⟨a, rfl, h₃⟩

/-- **`buffer_to_entry` takes a buffer apart** into blocks of its own.  Of an entry without
bytes it loses the block that was to hold them. -/
theorem bufferToEntry_ends {a : Addr} {buf : Block} (hbuf : (a, .bytes buf) ∈ m.owned)
    (hl : EntryLayout buf) {size : Int} (hsize : size ≠ -1) :
    Prog.Ends (bufferToEntry junk (some a) size) m fun p m' =>
      ∃ (e : EntryBlock) (lost : Multiset (Addr × Object)), p = some e.addr ∧
        e.entry = decodedEntry buf ∧ lost.card = (if dataSize buf = 0 then 1 else 0) ∧
        m'.owned = e.cells + (lost + m.owned) := by
  have hk := hl.keySize_nonneg
  have hd := hl.dataSize_nonneg
  rw [bufferToEntry, if_neg (by simp [hsize])]
  refine (returns_bytes hbuf).ends ((Prog.returns_lift (hl.load (Nat.zero_le sizeofInt)) m).ends ?_)
  refine (Prog.returns_lift (hl.load (Nat.le_refl sizeofInt)) m).ends ?_
  refine (mallocBytes_ends junk m hd).bind ?_
  rintro _ m₁ ⟨c, b, rfl, hb, h₁⟩
  have hbuf₁ : (a, Object.bytes buf) ∈ m₁.owned := by
    rw [h₁]
    exact Multiset.mem_add.mpr (Or.inr hbuf)
  refine (memcpy_ends hbuf₁ hl.slice_dataField h₁ (malloc_store_all hl.length_dataField hb)).bind fun _ m₂ h₂ => ?_
  refine (mallocBytes_ends junk m₂ hk).bind ?_
  rintro _ m₃ ⟨k, b', rfl, hb', h₃⟩
  have hbuf₃ : (a, Object.bytes buf) ∈ m₃.owned := by
    rw [h₃, h₂]
    exact Multiset.mem_add.mpr (Or.inr (Multiset.mem_add.mpr (Or.inr hbuf)))
  refine (memcpy_ends hbuf₃ hl.slice_keyField h₃ (malloc_store_all hl.length_keyField hb')).bind fun _ m₄ h₄ => ?_
  rw [h₂] at h₄
  by_cases hempty : dataSize buf = 0
  · -- `data_create2` has no value to make, and forgets the block
    have hcreate : dataCreate2 (charVal (buf[sizeofInt]?.getD 0)) (some c) = Pure.pure none := by
      change dataCreate2 (dataSize buf) (some c) = _
      rw [dataCreate2, hempty]
      rfl
    rw [hcreate]
    refine (Prog.ends_new m₄ _).mono ?_
    rintro _ m₅ ⟨p, rfl, -, h₅⟩
    refine ⟨⟨p, k, keyField buf, none⟩, {(c, .bytes (dataField buf))}, rfl, ?_, ?_, ?_⟩
    · rw [decodedEntry, hempty]
      rfl
    · rw [if_pos hempty, Multiset.card_singleton]
    · rw [h₅, h₄]
      simp only [EntryBlock.cells, valueCells, add_zero, valueAddr, Option.map_none]
      ac_rfl
  · have hpos : ¬ (dataSize buf < 1 ∨ some c = none) := by
      rintro (h | h)
      · omega
      · cases h
    have hcreate : dataCreate2 (charVal (buf[sizeofInt]?.getD 0)) (some c) =
        Prog.new (.data ⟨dataSize buf, some c⟩) := if_neg hpos
    rw [hcreate]
    refine (Prog.ends_new m₄ _).bind ?_
    rintro _ m₅ ⟨v, rfl, -, h₅⟩
    refine (Prog.ends_new m₅ _).mono ?_
    rintro _ m₆ ⟨p, rfl, -, h₆⟩
    refine ⟨⟨p, k, keyField buf, some ⟨v, c, dataField buf⟩⟩, 0, rfl, ?_, ?_, ?_⟩
    · rw [decodedEntry, RemoteTable.dataCreate2, if_neg (by simp; omega)]
      simp only [EntryBlock.entry, valueOf, Option.map_some, DataBlock.value, DataT.ofBytes,
        hl.length_dataField, RemoteTable.entryCreate]
    · rw [if_neg hempty, Multiset.card_zero]
    · rw [h₆, h₅, h₄]
      simp only [EntryBlock.cells, valueCells, DataBlock.cells, zero_add, valueAddr, Option.map_some,
        hl.length_dataField]
      ac_rfl

/-! ## The printed table -/

section Print
variable {l : List NodeBlock} {L : ListBlock} {x : NodeBlock} {e : EntryBlock}

/-- What the loops read of an entry that has a value. -/
theorem EntryBlock.valid_parts (h : e.entry.Valid) : ∃ d, e.value = some d ∧
    strlen e.key = .ok e.entry.keyStr.length ∧
    slice e.key 0 e.entry.keyStr.length = .ok e.entry.keyStr ∧ e.entry.bytes = d.bytes := by
  obtain ⟨_, _, hlen, hkey, -⟩ := h.parts
  obtain ⟨_, hv, -⟩ := h.value
  obtain ⟨d, hd, -⟩ := Option.map_eq_some_iff.mp hv
  refine ⟨d, hd, hlen, hkey, ?_⟩
  rw [EntryT.bytes, EntryBlock.entry, valueOf, hd]
  exact DataT.bytes_ofBytes d.bytes

/-- The objects of an entry that has a value. -/
theorem EntryBlock.mem_value {d : DataBlock} (hd : e.value = some d) :
    (d.addr, Object.data ⟨d.bytes.length, some d.bytesAddr⟩) ∈ e.cells ∧
      (d.bytesAddr, Object.bytes d.bytes) ∈ e.cells := by
  constructor <;> simp [EntryBlock.cells, hd, valueCells, DataBlock.cells]

theorem entry_le_chain (q : Option Addr) (x : NodeBlock) (l : List NodeBlock) :
    x.entry.cells ≤ chainCells q (x :: l) := by
  rw [chainCells]
  exact le_trans (Multiset.le_add_right _ _) (Multiset.le_add_left _ _)

theorem length_renderNodes_cons (x : NodeBlock) (l : List NodeBlock) :
    (renderNodes ((x :: l).map NodeBlock.pair)).length =
      x.entry.entry.keyStr.length + 2 + x.entry.entry.bytes.length + 1 +
        (renderNodes (l.map NodeBlock.pair)).length := by
  rw [List.map_cons, renderNodes_cons, renderEntry]
  simp only [List.length_append, List.length_singleton, NodeBlock.pair]
  omega

theorem listCharsLoop_returns (hl : chainCells none l ≤ m.owned) (hv : NodesValid (l.map NodeBlock.pair))
    {fuel : Nat} (hfuel : l.length ≤ fuel) (nChars : Int) :
    Prog.Returns (listCharsLoop fuel nChars (headAddr none l)) m
      (nChars + (renderNodes (l.map NodeBlock.pair)).length) := by
  induction l generalizing fuel nChars with
  | nil =>
    rw [List.map_nil, renderNodes_nil, List.length_nil, Int.natCast_zero, Int.add_zero]
    cases fuel <;> rfl
  | cons x l ih =>
    obtain ⟨fuel, rfl⟩ : ∃ more, fuel = more + 1 := ⟨fuel - 1, by rw [List.length_cons] at hfuel; omega⟩
    obtain ⟨hnode, hentry, hkey, hrest⟩ := chain_reads hl
    obtain ⟨hx, hvrest⟩ := NodesValid.cons.mp hv
    obtain ⟨d, hd, hlen, -, hbytes⟩ := EntryBlock.valid_parts hx
    rw [show valueAddr x.entry.value = some d.addr by rw [hd]; rfl] at hentry
    have hdata := Multiset.mem_of_le (le_trans (entry_le_chain none x l) hl) (EntryBlock.mem_value hd).1
    refine (returns_node hnode).bind ((returns_entry hentry).bind ((returns_bytes hkey).bind ?_))
    refine (Prog.returns_lift hlen m).bind ((returns_data hdata).bind ?_)
    have hnext := ih hrest hvrest (Nat.le_of_succ_le_succ hfuel)
      (nChars + (x.entry.entry.keyStr.length + 2 + d.bytes.length + 1))
    rw [length_renderNodes_cons, hbytes]
    rw [show nChars + ((x.entry.entry.keyStr.length + 2 + d.bytes.length + 1 +
        (renderNodes (l.map NodeBlock.pair)).length : Nat) : Int) =
      nChars + (x.entry.entry.keyStr.length + 2 + d.bytes.length + 1) +
        (renderNodes (l.map NodeBlock.pair)).length by omega]
    exact hnext

/-- **The second loop writes the rendering of the nodes** behind what is there. -/
theorem listFillLoop_ends {buf : Addr} {b : Block} {done : List UInt8} {room : Nat}
    (h : m.owned = {(buf, .bytes b)} + rest) (hl : chainCells none l ≤ rest)
    (hv : NodesValid (l.map NodeBlock.pair)) {fuel : Nat} (hfuel : l.length ≤ fuel)
    (hb : Filled b done room) (hroom : (renderNodes (l.map NodeBlock.pair)).length ≤ room) :
    Prog.Ends (listFillLoop (some buf) fuel done.length (headAddr none l)) m fun r m' =>
      r = (done ++ renderNodes (l.map NodeBlock.pair)).length ∧ ∃ b',
        Filled b' (done ++ renderNodes (l.map NodeBlock.pair))
          (room - (renderNodes (l.map NodeBlock.pair)).length) ∧
        m'.owned = {(buf, .bytes b')} + rest := by
  induction l generalizing m b done room fuel with
  | nil =>
    have hend : done ++ renderNodes (List.map NodeBlock.pair []) = done := List.append_nil done
    cases fuel <;> exact .pure ⟨by rw [hend], b, hend.symm ▸ hb, h⟩
  | cons x l ih =>
    obtain ⟨fuel, rfl⟩ : ∃ more, fuel = more + 1 := ⟨fuel - 1, by rw [List.length_cons] at hfuel; omega⟩
    -- the other blocks stay while this one is written
    have hread : ∀ {m' : Memory Object} {b' : Block}, m'.owned = {(buf, .bytes b')} + rest →
        rest ≤ m'.owned := by
      intro m' b' h'
      rw [h']
      exact Multiset.le_add_left _ _
    obtain ⟨hx, hvrest⟩ := NodesValid.cons.mp hv
    obtain ⟨d, hd, hlen, hkey, hbytes⟩ := EntryBlock.valid_parts hx
    obtain ⟨hnode, hentry, hxkey, -⟩ := chain_reads (le_trans hl (hread h))
    rw [show valueAddr x.entry.value = some d.addr by rw [hd]; rfl] at hentry
    have hxrest : x.entry.cells ≤ rest := le_trans (entry_le_chain none x l) hl
    have hlrest : chainCells none l ≤ rest := by
      refine le_trans ?_ hl
      rw [chainCells, ← add_assoc]
      exact Multiset.le_add_left _ _
    rw [length_renderNodes_cons, hbytes] at hroom
    obtain ⟨b₁, hs₁, hb₁⟩ := hb.store x.entry.entry.keyStr (by omega)
    obtain ⟨b₂, hs₂, hb₂⟩ := hb₁.store [45] (by simp; omega)
    obtain ⟨b₃, hs₃, hb₃⟩ := hb₂.store [62] (by simp; omega)
    obtain ⟨b₄, hs₄, hb₄⟩ := hb₃.store d.bytes (by simp; omega)
    obtain ⟨b₅, hs₅, hb₅⟩ := hb₄.store [32] (by simp; omega)
    simp only [List.length_append, List.length_singleton] at hs₂ hs₃ hs₄ hs₅
    refine (returns_node hnode).ends ((returns_entry hentry).ends ((returns_bytes hxkey).ends ?_))
    refine (Prog.returns_lift hlen m).ends ((memcpy_ends hxkey hkey h hs₁).bind fun _ m₁ h₁ => ?_)
    refine (storeAt_ends h₁ hs₂).bind fun _ m₂ h₂ => (storeAt_ends h₂ hs₃).bind fun _ m₃ h₃ => ?_
    have hdata := Multiset.mem_of_le (le_trans hxrest (hread h₃)) (EntryBlock.mem_value hd).1
    have hsrc := Multiset.mem_of_le (le_trans hxrest (hread h₃)) (EntryBlock.mem_value hd).2
    refine (returns_data hdata).ends ?_
    refine (memcpy_ends hsrc (slice_all d.bytes) h₃ hs₄).bind fun _ m₄ h₄ => ?_
    rw [Int.toNat_natCast]
    refine (storeAt_ends h₄ hs₅).bind fun _ m₅ h₅ => ?_
    have hnext := ih h₅ hlrest hvrest (Nat.le_of_succ_le_succ hfuel) hb₅ (by simp; omega)
    simp only [List.length_append, List.length_singleton] at hnext
    refine hnext.mono ?_
    have hdone : done ++ renderNodes ((x :: l).map NodeBlock.pair) =
        done ++ x.entry.entry.keyStr ++ [45] ++ [62] ++ d.bytes ++ [32] ++
          renderNodes (l.map NodeBlock.pair) := by
      rw [List.map_cons, renderNodes_cons, renderEntry, ← hbytes]
      simp [NodeBlock.pair]
    rintro r m' ⟨rfl, b', hb', hm'⟩
    refine ⟨?_, b', ?_, hm'⟩
    · rw [hdone]
      simp only [List.length_append, List.length_singleton]
    · rw [hdone, length_renderNodes_cons, hbytes]
      convert hb' using 1
      omega

/-- **`list_to_string` writes the rendering of the list** into a block of its own. -/
theorem listToString_ends (hL : L.cells ≤ m.owned) (hv : NodesValid (L.nodes.map NodeBlock.pair)) :
    Prog.Ends (listToString junk (some L.addr)) m fun p m' => ∃ a, p = some a ∧
      m'.owned = {(a, .bytes (printed (L.nodes.map NodeBlock.pair)))} + m.owned := by
  have hlist : (L.addr, Object.list ⟨headAddr none L.nodes, L.tail⟩) ∈ m.owned :=
    Multiset.mem_of_le hL (by simp [ListBlock.cells])
  have hchain : chainCells none L.nodes ≤ m.owned := le_trans (Multiset.le_add_left _ _) hL
  refine (returns_list hlist).ends ?_
  cases hnodes : L.nodes with
  | nil =>
    rw [headAddr_nil, if_pos rfl]
    refine (mallocBytes_ends junk m (show (0 : Int) ≤ 1 by decide)).bind ?_
    rintro _ m₁ ⟨a, b, rfl, hb, h₁⟩
    have hstore : store b 0 [0] = .ok [0] := malloc_store_all rfl hb
    exact (storeAt_ends h₁ hstore).bind fun _ m₂ h₂ => .pure ⟨a, rfl, h₂⟩
  | cons x l =>
    rw [hnodes] at hchain hv
    have hfuel := length_le_size hchain
    obtain ⟨out, hout⟩ : ∃ out, out = renderNodes ((x :: l).map NodeBlock.pair) := ⟨_, rfl⟩
    have hne : out ≠ [] := by
      rw [hout, List.map_cons, renderNodes_cons, renderEntry]
      simp
    have hchars := listCharsLoop_returns hchain hv hfuel 0
    rw [← hout, Int.zero_add] at hchars
    rw [headAddr_cons, if_neg (Option.some_ne_none _)]
    refine (Prog.returns_allocations m).ends (hchars.ends ?_)
    refine (mallocBytes_ends junk m (show (0 : Int) ≤ out.length + 1 by omega)).bind ?_
    rintro _ m₁ ⟨a, b, rfl, hb, h₁⟩
    obtain ⟨b', hb', hfilled⟩ := filled_malloc (junk a) (show (0 : Int) ≤ out.length + 1 by omega)
    obtain rfl := Option.some.inj (hb.symm.trans hb')
    have hfill := listFillLoop_ends h₁ hchain hv hfuel hfilled (by rw [← hout]; omega)
    rw [← hout, List.nil_append, List.length_nil, headAddr_cons] at hfill
    refine hfill.bind ?_
    rintro _ m₂ ⟨rfl, b₂, hb₂, h₂⟩
    obtain ⟨free, rfl, hlen⟩ := hb₂
    obtain ⟨c, rfl⟩ := List.length_eq_one_iff.mp (show free.length = 1 by omega)
    -- the last byte of the rendering, a space, gives way to the newline
    have hlast := store_append out.dropLast [out.getLast hne] [c] [10] rfl
    rw [List.dropLast_append_getLast hne, List.length_dropLast] at hlast
    have hnul := store_append (out.dropLast ++ [10]) [c] [] [0] rfl
    have hborder : (out.dropLast ++ [(10 : UInt8)]).length = out.length := by
      have := List.length_pos_iff.mpr hne
      simp
      omega
    rw [List.append_nil, List.append_nil, hborder] at hnul
    refine (storeAt_ends h₂ hlast).bind fun _ m₃ h₃ => (storeAt_ends h₃ hnul).bind fun _ m₄ h₄ => ?_
    refine .pure ⟨a, rfl, ?_⟩
    rw [h₄, printed, if_neg (by simp), ← hout, List.append_assoc]
    rfl

/-- **`strapp` appends a string** and frees the block that it outgrows. -/
theorem strapp_ends {sa aa : Addr} {str app : Block} (h : m.owned = {(sa, .bytes str)} + rest)
    (happ : (aa, .bytes app) ∈ rest) (hs : Terminated str) (ha : Terminated app) :
    Prog.Ends (strapp junk (some sa) (some aa)) m fun p m' => ∃ a, p = some a ∧
      m'.owned = {(a, .bytes (cstr str ++ cstr app ++ [0]))} + rest := by
  have hstr : (sa, Object.bytes str) ∈ m.owned := by
    rw [h]
    simp
  have happ' : (aa, Object.bytes app) ∈ m.owned := by
    rw [h]
    exact Multiset.mem_add.mpr (Or.inr happ)
  have hrun := strapp_eq (junk m.size) hs ha
  rw [RemoteTable.strapp, hs.strlen, ok_bind, ha.strlen, ok_bind] at hrun
  obtain ⟨grown, hgrown, hrun⟩ := bind_eq_ok.mp hrun
  obtain ⟨n, hn, hrun⟩ := bind_eq_ok.mp hrun
  obtain ⟨src, hsrc, hstore⟩ := bind_eq_ok.mp hrun
  have hrealloc : Prog.Ends (reallocBytes junk (some sa) ((cstr str).length + (cstr app).length + 1)) m
      fun p m' => ∃ a, p = some a ∧ m'.owned = {(a, .bytes grown)} + rest := by
    refine (returns_bytes hstr).ends ((Prog.returns_allocations m).ends ?_)
    cases hre : realloc (junk m.size) str ((cstr str).length + (cstr app).length + 1) with
    | none =>
      rw [hre] at hgrown
      cases hgrown
    | some b =>
      rw [hre] at hgrown
      obtain rfl := Except.ok.inj hgrown
      refine (Prog.ends_free h).bind ?_
      rintro _ m₁ ⟨-, h₁⟩
      refine (Prog.ends_new m₁ _).mono ?_
      rintro p m₂ ⟨a, rfl, -, h₂⟩
      exact ⟨a, rfl, by rw [h₂, h₁]⟩
  refine (returns_bytes hstr).ends ((Prog.returns_lift hs.strlen m).ends ?_)
  refine (returns_bytes happ').ends ((Prog.returns_lift ha.strlen m).ends (hrealloc.bind ?_))
  rintro _ m₁ ⟨a, rfl, h₁⟩
  have hgrown' : (a, Object.bytes grown) ∈ m₁.owned := by
    rw [h₁]
    simp
  have happ₁ : (aa, Object.bytes app) ∈ m₁.owned := by
    rw [h₁]
    exact Multiset.mem_add.mpr (Or.inr happ)
  refine (returns_bytes hgrown').ends ((Prog.returns_lift hn m₁).ends ?_)
  exact (memcpy_ends happ₁ hsrc h₁ hstore).bind fun _ m₂ h₂ => .pure ⟨a, rfl, h₂⟩

/-- The buckets of a table. -/
def TableBlock.buckets (T : TableBlock) : Buckets := T.lists.map fun L => L.nodes.map NodeBlock.pair

theorem TableBlock.buckets_at {T : TableBlock} {i : Nat} (h : T.lists[i]? = some L) :
    T.buckets[i]? = some (L.nodes.map NodeBlock.pair) := by
  rw [TableBlock.buckets, List.getElem?_map, h]
  rfl

/-- A list of the table rendered into a block of its own. -/
theorem listToString_at {T : TableBlock} {i : Nat} {others : Multiset (Addr × Object)}
    (h : m.owned = others + (T.cells + rest)) (hv : EntriesValid T.buckets) (hL : T.lists[i]? = some L) :
    Prog.Ends (listToString junk (some L.addr)) m fun p m' => ∃ a, p = some a ∧
      m'.owned = {(a, .bytes (printed (L.nodes.map NodeBlock.pair)))} + m.owned := by
  refine listToString_ends ?_ (hv.nodes (List.mem_of_getElem? (TableBlock.buckets_at hL)))
  rw [h, TableBlock.cells_at hL]
  exact le_trans (Multiset.le_add_right _ _) (le_trans (Multiset.le_add_right _ _) (Multiset.le_add_left _ _))

theorem tableToStringLoop_ends {T : TableBlock} (hv : EntriesValid T.buckets) {todo i : Nat}
    (hi : i + todo = T.lists.length) {sa : Addr} {str : Block} (hstr : Terminated str)
    (h : m.owned = {(sa, .bytes str)} + (T.cells + rest)) :
    Prog.Ends (tableToStringLoop junk (some T.arrayAddr) todo i (some sa)) m fun p m' => ∃ a, p = some a ∧
      m'.owned = {(a, .bytes (if todo = 0 then str
        else cstr str ++ printedTable (T.buckets.drop i) ++ [0]))} + (T.cells + rest) := by
  induction todo generalizing m i sa str with
  | zero => exact .pure ⟨sa, rfl, h⟩
  | succ todo ih =>
    obtain ⟨L, hL⟩ : ∃ L, T.lists[i]? = some L := ⟨_, List.getElem?_eq_getElem (by omega)⟩
    have harr : (T.arrayAddr, Object.pointers (listSlots T.lists)) ∈ m.owned := by
      rw [h]
      simp [TableBlock.cells, TableBlock.frame]
    refine (returns_pointers harr).ends ((Prog.returns_lift (slotAt_listSlots hL) m).ends ?_)
    refine (listToString_at h hv hL).bind ?_
    rintro _ m₁ ⟨ta, rfl, h₁⟩
    have h₁' : m₁.owned = {(sa, .bytes str)} +
        ({(ta, .bytes (printed (L.nodes.map NodeBlock.pair)))} + (T.cells + rest)) := by
      rw [h₁, h]
      ac_rfl
    have htemp : (ta, Object.bytes (printed (L.nodes.map NodeBlock.pair))) ∈
        {(ta, Object.bytes (printed (L.nodes.map NodeBlock.pair)))} + (T.cells + rest) := by simp
    refine (strapp_ends h₁' htemp hstr (printed_terminated _)).bind ?_
    rintro _ m₂ ⟨a, rfl, h₂⟩
    have h₂' : m₂.owned = {(ta, .bytes (printed (L.nodes.map NodeBlock.pair)))} +
        ({(a, .bytes (cstr str ++ cstr (printed (L.nodes.map NodeBlock.pair)) ++ [0]))} +
          (T.cells + rest)) := by
      rw [h₂]
      ac_rfl
    refine (Prog.ends_free h₂').bind ?_
    rintro _ m₃ ⟨-, h₃⟩
    refine (ih (show i + 1 + todo = T.lists.length by omega) (terminated_append_nul _ _) h₃).mono ?_
    have hno : (0 : UInt8) ∉ cstr str ++ cstr (printed (L.nodes.map NodeBlock.pair)) := by
      simp [cstr_no_nul]
    have hdrop := drop_bucket (TableBlock.buckets_at hL)
    rintro p m' ⟨a', rfl, hm'⟩
    refine ⟨a', rfl, ?_⟩
    rw [hm', cstr_append_nul hno, if_neg (Nat.succ_ne_zero todo), hdrop]
    cases todo with
    | zero =>
      have hlen : T.buckets.length = i + 1 := by
        rw [TableBlock.buckets, List.length_map]
        omega
      rw [if_pos rfl, List.drop_eq_nil_of_le (by omega)]
      simp [printedTable]
    | succ todo =>
      rw [if_neg (Nat.succ_ne_zero todo)]
      simp [printedTable]

/-- **`table_to_string` hands the rendering of the table to the caller**, and frees those of the
lists. -/
theorem tableToString_ends {T : TableBlock} (h : m.owned = T.cells + rest)
    (hv : EntriesValid T.buckets) (hn : T.lists ≠ []) :
    Prog.Ends (tableToString junk (some T.addr)) m fun p m' => ∃ a, p = some a ∧
      m'.owned = {(a, .bytes (tableString T.buckets))} + m.owned := by
  obtain ⟨htable, harr, -⟩ := table_reads h
  have hlen := List.length_pos_iff.mpr hn
  obtain ⟨L, hL⟩ : ∃ L, T.lists[0]? = some L := ⟨_, List.getElem?_eq_getElem hlen⟩
  have h0 : m.owned = 0 + (T.cells + rest) := by rw [h, zero_add]
  refine htable.ends ((returns_pointers harr).ends ?_)
  refine (Prog.returns_lift (slotAt_listSlots hL) m).ends ((listToString_at h0 hv hL).bind ?_)
  rintro _ m₁ ⟨a, rfl, h₁⟩
  rw [h] at h₁
  rw [Int.toNat_natCast]
  refine (tableToStringLoop_ends hv (by omega) (printed_terminated _) h₁).mono ?_
  have hb := TableBlock.buckets_at hL
  have hblen : T.buckets.length = T.lists.length := List.length_map _
  rintro p m' ⟨a', rfl, hm'⟩
  refine ⟨a', rfl, ?_⟩
  rw [hm', h]
  match hbs : T.buckets, hb with
  | [b], hb =>
    rw [hbs] at hblen
    obtain rfl := Option.some.inj hb
    rw [if_pos (by rw [← hblen]; rfl)]
    rfl
  | b :: c :: bs, hb =>
    rw [hbs] at hblen
    obtain rfl := Option.some.inj hb
    rw [if_neg (by rw [← hblen]; simp)]
    simp [tableString, printedTable]

end Print

/-! ## The listed keys -/

section Keys
variable {copies : List (Addr × Block)}

/-- The slots with the strings in place of the pointers to them. -/
def copyStrings (copies : List (Addr × Block)) : Slots (Option Block) :=
  copies.map fun c => some (some c.2)

theorem keyLengthsLoop_returns {len n : Nat} (hle : copyCells copies ≤ m.owned)
    (hval : RemoteTable.keyLengthsLoop (copyStrings copies ++ [some none]) len = .ok n) :
    Prog.Returns (keyLengthsLoop (copySlots copies ++ [some none]) len) m n := by
  induction copies generalizing len with
  | nil => exact (Prog.returns_pure len m).trans (by rw [Except.ok.inj hval])
  | cons c copies ih =>
    obtain ⟨k, hk, hval⟩ := bind_eq_ok.mp hval
    rw [copyCells_cons] at hle
    have hmem : (c.1, Object.bytes c.2) ∈ m.owned := Multiset.mem_of_le hle (by simp)
    refine (returns_bytes hmem).bind ((Prog.returns_lift hk m).bind ?_)
    exact ih (le_trans (Multiset.le_add_left _ _) hle) hval

theorem keyCopyLoop_ends {buf : Addr} {b b' : Block} {l : Nat} (hle : copyCells copies ≤ rest)
    (h : m.owned = {(buf, .bytes b)} + rest)
    (hval : RemoteTable.keyCopyLoop (copyStrings copies ++ [some none]) b l = .ok b') :
    Prog.Ends (keyCopyLoop (some buf) (copySlots copies ++ [some none]) l) m fun _ m' =>
      m'.owned = {(buf, .bytes b')} + rest := by
  induction copies generalizing m b l with
  | nil =>
    refine .pure ?_
    rw [h, Except.ok.inj hval]
  | cons c copies ih =>
    obtain ⟨n, hn, hval⟩ := bind_eq_ok.mp hval
    obtain ⟨src, hsrc, hval⟩ := bind_eq_ok.mp hval
    obtain ⟨b₁, hstore, hval⟩ := bind_eq_ok.mp hval
    obtain ⟨step, hstep, hval⟩ := bind_eq_ok.mp hval
    rw [copyCells_cons] at hle
    have hmem : (c.1, Object.bytes c.2) ∈ m.owned := by
      rw [h]
      exact Multiset.mem_add.mpr (Or.inr (Multiset.mem_of_le hle (by simp)))
    refine (returns_bytes hmem).ends ((Prog.returns_lift hn m).ends ?_)
    refine (memcpy_ends hmem hsrc h hstore).bind fun _ m₁ h₁ => ?_
    have hbuf : (buf, Object.bytes b₁) ∈ m₁.owned := by
      rw [h₁]
      simp
    refine (returns_bytes hbuf).ends ((Prog.returns_lift hstep m₁).ends ?_)
    exact ih (le_trans (Multiset.le_add_left _ _) hle) h₁ hval

end Keys

end Specs
end RemoteTable.Pointers
