import RemoteTable.Pointers

/-! # What the functions on values, entries and lists own

A value, an entry, a node and a list are described by their blocks: where these are, and what is
in them.  The objects of a description are what its owner has to free (`cells`).  Every function
is shown to end with the objects of its caller and those of its result, and with nothing else
changed.
-/
namespace RemoteTable.Pointers
open CMem

/-! ## Descriptions -/

/-- A value: its structure, and the block with its bytes. -/
structure DataBlock where
  addr : Addr
  bytesAddr : Addr
  bytes : Block

/-- An entry: its structure, its key, and its value if it has one. -/
structure EntryBlock where
  addr : Addr
  keyAddr : Addr
  key : Block
  value : Option DataBlock

/-- A node and its entry. -/
structure NodeBlock where
  addr : Addr
  entry : EntryBlock

def DataBlock.cells (d : DataBlock) : Multiset (Addr × Object) :=
  {(d.addr, .data ⟨d.bytes.length, some d.bytesAddr⟩)} + {(d.bytesAddr, .bytes d.bytes)}

/-- The objects of a value that may be missing. -/
def valueCells : Option DataBlock → Multiset (Addr × Object)
  | none => 0
  | some d => d.cells

/-- The pointer to it. -/
def valueAddr (v : Option DataBlock) : Option Addr := v.map DataBlock.addr

/-- Its bytes. -/
def valueBytes (v : Option DataBlock) : Option Block := v.map DataBlock.bytes

def EntryBlock.cells (e : EntryBlock) : Multiset (Addr × Object) :=
  {(e.addr, .entry ⟨some e.keyAddr, valueAddr e.value⟩)} + ({(e.keyAddr, .bytes e.key)} + valueCells e.value)

/-- The first of these nodes, or `q` when there is none. -/
def headAddr (q : Option Addr) : List NodeBlock → Option Addr
  | [] => q
  | x :: _ => some x.addr

/-- The objects of a chain of nodes that goes on at `q`. -/
def chainCells (q : Option Addr) : List NodeBlock → Multiset (Addr × Object)
  | [] => 0
  | x :: l => {(x.addr, .node ⟨some x.entry.addr, headAddr q l⟩)} + (x.entry.cells + chainCells q l)

/-- A list: its structure, what `tail` holds, and its nodes. -/
structure ListBlock where
  addr : Addr
  tail : Option (Option Addr)
  nodes : List NodeBlock

def ListBlock.cells (l : ListBlock) : Multiset (Addr × Object) :=
  {(l.addr, .list ⟨headAddr none l.nodes, l.tail⟩)} + chainCells none l.nodes

/-- The list with other nodes. -/
def ListBlock.withNodes (L : ListBlock) (l : List NodeBlock) : ListBlock := { L with nodes := l }

@[simp] theorem ListBlock.addr_withNodes (L : ListBlock) (l : List NodeBlock) :
    (L.withNodes l).addr = L.addr := rfl

/-- The entry with another value. -/
def EntryBlock.withValue (e : EntryBlock) (w : Option DataBlock) : EntryBlock := { e with value := w }

/-- The last of these nodes, or `p` when there is none. -/
def endAddr (p : Option Addr) (l : List NodeBlock) : Option Addr := (l.getLast?.map NodeBlock.addr).or p

/-- The node's key is the string `k`. -/
def NodeBlock.HasKey (k : List UInt8) (x : NodeBlock) : Bool := cstr x.entry.key = k

/-- Every key on the chain is a string. -/
def Keyed (l : List NodeBlock) : Prop := ∀ x ∈ l, Terminated x.entry.key

@[simp] theorem headAddr_nil (q : Option Addr) : headAddr q [] = q := rfl

@[simp] theorem headAddr_cons (q : Option Addr) (x : NodeBlock) (l : List NodeBlock) :
    headAddr q (x :: l) = some x.addr := rfl

theorem headAddr_append (q : Option Addr) (l l' : List NodeBlock) :
    headAddr q (l ++ l') = headAddr (headAddr q l') l := by
  cases l <;> rfl

/-- A chain can be cut anywhere. -/
theorem chainCells_append (q : Option Addr) (l l' : List NodeBlock) :
    chainCells q (l ++ l') = chainCells (headAddr q l') l + chainCells q l' := by
  induction l with
  | nil => simp [chainCells]
  | cons x l ih => simp only [List.cons_append, chainCells, ih, headAddr_append, add_assoc]

theorem length_le_card_chainCells (q : Option Addr) (l : List NodeBlock) :
    l.length ≤ (chainCells q l).card := by
  induction l with
  | nil => exact Nat.zero_le _
  | cons x l ih =>
    simp only [chainCells, Multiset.card_add, Multiset.card_singleton, List.length_cons]
    omega

/-- A loop along a chain that is there has enough fuel. -/
theorem length_le_size {m : Memory Object} {q : Option Addr} {l : List NodeBlock}
    (h : chainCells q l ≤ m.owned) : l.length ≤ m.size :=
  ((length_le_card_chainCells q l).trans (Multiset.card_le_card h)).trans m.card_owned_le

section Specs
variable {m : Memory Object} {rest : Multiset (Addr × Object)} {junk : Addr → Nat → UInt8}
  {d : DataBlock} {v : Option DataBlock} {e : EntryBlock}

/-! ## Reading -/

section Read
variable {a : Addr}

theorem returns_bytes {b : Block} (h : (a, .bytes b) ∈ m.owned) : Prog.Returns (bytesAt (some a)) m b :=
  Prog.returns_load h rfl

theorem returns_data {d : DataCell} (h : (a, .data d) ∈ m.owned) : Prog.Returns (dataAt (some a)) m d :=
  Prog.returns_load h rfl

theorem returns_entry {e : EntryCell} (h : (a, .entry e) ∈ m.owned) : Prog.Returns (entryAt (some a)) m e :=
  Prog.returns_load h rfl

theorem returns_node {n : NodeCell} (h : (a, .node n) ∈ m.owned) : Prog.Returns (nodeAt (some a)) m n :=
  Prog.returns_load h rfl

theorem returns_list {l : ListCell} (h : (a, .list l) ∈ m.owned) : Prog.Returns (listAt (some a)) m l :=
  Prog.returns_load h rfl

end Read

/-! ## Bytes -/

theorem mallocBytes_ends (junk : Addr → Nat → UInt8) (m : Memory Object) {n : Int} (hn : 0 ≤ n) :
    Prog.Ends (mallocBytes junk n) m fun p m' => ∃ a b, p = some a ∧ malloc (junk a) n = some b ∧
      m'.owned = {(a, .bytes b)} + m.owned := by
  refine (Prog.returns_allocations m).ends ?_
  rw [malloc_of_nonneg _ hn]
  refine (Prog.ends_new m _).mono ?_
  rintro p m' ⟨a, rfl, rfl, hm'⟩
  exact ⟨m.size, _, rfl, malloc_of_nonneg _ hn, hm'⟩

/-- What is written into a block. -/
theorem storeAt_ends {t : Addr} {b b' : Block} {i : Nat} {src : List UInt8}
    (h : m.owned = {(t, .bytes b)} + rest) (hstore : store b i src = .ok b') :
    Prog.Ends (storeAt (some t) i src) m fun _ m' => m'.owned = {(t, .bytes b')} + rest := by
  have hmem : (t, Object.bytes b) ∈ m.owned := by
    rw [h]
    simp
  refine (returns_bytes hmem).ends ((Prog.returns_lift hstore m).ends ?_)
  exact (Prog.ends_store h _).mono fun _ _ h => h.2

/-- A copy of a string has the string and its NUL. -/
theorem strdupAt_ends {a : Addr} {b : Block} (h : (a, .bytes b) ∈ m.owned) (hb : Terminated b) :
    Prog.Ends (strdupAt (some a)) m fun p m' => ∃ c, p = some c ∧
      m'.owned = {(c, .bytes (cstr b ++ [0]))} + m.owned := by
  refine (returns_bytes h).ends ((Prog.returns_lift hb.strdup m).ends ?_)
  refine (Prog.ends_new m _).mono ?_
  rintro p m' ⟨c, rfl, -, hm'⟩
  exact ⟨c, rfl, hm'⟩

/-! ## Values -/

theorem dataDestroy_ends (h : m.owned = valueCells v + rest) :
    Prog.Ends (dataDestroy (valueAddr v)) m fun _ m' => m'.owned = rest := by
  cases v with
  | none =>
    refine .pure ?_
    rw [h, valueCells, zero_add]
  | some d =>
    have hd : m.owned = {(d.bytesAddr, .bytes d.bytes)} +
        ({(d.addr, .data ⟨d.bytes.length, some d.bytesAddr⟩)} + rest) := by
      rw [h, valueCells, DataBlock.cells]
      ac_rfl
    have hmem : (d.addr, Object.data ⟨d.bytes.length, some d.bytesAddr⟩) ∈ m.owned := by
      rw [hd]
      simp
    rw [valueAddr, Option.map_some, dataDestroy, if_neg (Option.some_ne_none _)]
    refine (returns_data hmem).ends ((Prog.ends_free hd).bind ?_)
    rintro _ m₁ ⟨-, h₁⟩
    refine (Prog.ends_free h₁).mono ?_
    rintro _ m₂ ⟨-, h₂⟩
    exact h₂

/-- What `memcpy` writes is what it finds. -/
theorem memcpy_ends {s t : Addr} {b d chunk d' : Block} {i : Nat} {j n : Int}
    (hsrc : (s, .bytes b) ∈ m.owned) (hslice : slice b j n = .ok chunk)
    (hdst : m.owned = {(t, .bytes d)} + rest) (hstore : store d i chunk = .ok d') :
    Prog.Ends (memcpy (some t) i (some s) j n) m fun _ m' => m'.owned = {(t, .bytes d')} + rest :=
  (returns_bytes hsrc).ends ((Prog.returns_lift hslice m).ends (storeAt_ends hdst hstore))

theorem dataCreate_ends (m : Memory Object) {n : Nat} (hn : n ≠ 0) :
    Prog.Ends (dataCreate junk n) m fun p m' => ∃ a c b, p = some a ∧ malloc (junk c) n = some b ∧
      m'.owned = {(c, .bytes b)} + ({(a, .data ⟨n, some c⟩)} + m.owned) := by
  rw [dataCreate, if_neg (by omega)]
  refine (Prog.ends_new m _).bind ?_
  rintro _ m₁ ⟨a, rfl, -, h₁⟩
  refine (mallocBytes_ends junk m₁ (Int.natCast_nonneg n)).bind ?_
  rintro _ m₂ ⟨c, b, rfl, hb, h₂⟩
  have h₂' : m₂.owned = {(a, .data ⟨n, none⟩)} + ({(c, .bytes b)} + m.owned) := by
    rw [h₂, h₁]
    ac_rfl
  refine (Prog.ends_store h₂' _).bind ?_
  rintro _ m₃ ⟨-, h₃⟩
  refine .pure ⟨a, c, b, rfl, hb, ?_⟩
  rw [h₃]
  ac_rfl

/-- A value in a block of its own, as it is copied. -/
theorem slice_all (b : Block) : slice b 0 b.length = .ok b := by
  have h := slice_append [] b []
  simpa using h

/-- A copy fills its block. -/
theorem malloc_store_all {j : Nat → UInt8} {b dst : Block} {n : Int} (hn : (b.length : Int) = n)
    (h : malloc j n = some dst) : store dst 0 b = .ok b := by
  obtain ⟨dst', hdst', hstore⟩ := malloc_store j hn
  obtain rfl : dst = dst' := Option.some.inj (h.symm.trans hdst')
  exact hstore

/-- **`data_dup` copies a value** into blocks of its own; a value of no bytes has no copy. -/
theorem dataDup_ends (hv : valueCells v ≤ m.owned) :
    Prog.Ends (dataDup junk (valueAddr v)) m fun p m' => ∃ copy, p = valueAddr copy ∧
      valueBytes copy = (valueBytes v).filter (· ≠ []) ∧ m'.owned = valueCells copy + m.owned := by
  cases v with
  | none => exact .pure ⟨none, rfl, rfl, (zero_add _).symm⟩
  | some d =>
    have hdata : (d.addr, Object.data ⟨d.bytes.length, some d.bytesAddr⟩) ∈ m.owned :=
      Multiset.mem_of_le hv (by simp [valueCells, DataBlock.cells])
    have hbytes : (d.bytesAddr, Object.bytes d.bytes) ∈ m.owned :=
      Multiset.mem_of_le hv (by simp [valueCells, DataBlock.cells])
    rw [valueAddr, Option.map_some, dataDup, if_neg (Option.some_ne_none _)]
    refine (returns_data hdata).ends ?_
    rw [if_neg (Option.some_ne_none _)]
    by_cases hnil : d.bytes = []
    · have hcreate : dataCreate junk (d.bytes.length : Int) = Pure.pure none := by
        rw [hnil]
        rfl
      rw [hcreate]
      exact .pure ⟨none, rfl, by simp [valueBytes, Option.filter, hnil], (zero_add _).symm⟩
    · refine (dataCreate_ends m (by simpa using hnil)).bind ?_
      rintro _ m₁ ⟨a, c, b, rfl, hb, h₁⟩
      rw [if_neg (Option.some_ne_none _)]
      have hnew : (a, Object.data ⟨d.bytes.length, some c⟩) ∈ m₁.owned := by
        rw [h₁]
        simp
      have hsrc : (d.bytesAddr, Object.bytes d.bytes) ∈ m₁.owned := by
        rw [h₁]
        simp [hbytes]
      refine (returns_data hnew).ends ?_
      refine (memcpy_ends hsrc (slice_all d.bytes) h₁ (malloc_store_all rfl hb)).bind ?_
      intro _ m₂ h₂
      refine .pure ⟨some ⟨a, c, d.bytes⟩, rfl, by simp [valueBytes, Option.filter, hnil], ?_⟩
      rw [h₂, valueCells, DataBlock.cells]
      ac_rfl

/-! ## Entries -/

/-- **`entry_destroy` frees the entry, its key and its value**, and nothing else. -/
theorem entryDestroy_ends (h : m.owned = e.cells + rest) :
    Prog.Ends (entryDestroy (some e.addr)) m fun _ m' => m'.owned = rest := by
  have hkey : m.owned = {(e.keyAddr, .bytes e.key)} + (valueCells e.value +
      ({(e.addr, .entry ⟨some e.keyAddr, valueAddr e.value⟩)} + rest)) := by
    rw [h, EntryBlock.cells]
    ac_rfl
  have hmem : (e.addr, Object.entry ⟨some e.keyAddr, valueAddr e.value⟩) ∈ m.owned := by
    rw [hkey]
    simp
  rw [entryDestroy, if_neg (Option.some_ne_none _)]
  refine (returns_entry hmem).ends ((Prog.ends_free hkey).bind ?_)
  rintro _ m₁ ⟨-, h₁⟩
  refine (dataDestroy_ends h₁).bind ?_
  intro _ m₂ h₂
  exact (Prog.ends_free h₂).mono fun _ _ h => h.2

/-! ## Reading a chain -/

section Chain
variable {q : Option Addr} {x : NodeBlock} {l pre post : List NodeBlock} {ka : Addr} {key : Block}
  {L : ListBlock}

/-- What a loop reads of a node, and what is left of the chain. -/
theorem chain_reads (h : chainCells q (x :: l) ≤ m.owned) :
    (x.addr, Object.node ⟨some x.entry.addr, headAddr q l⟩) ∈ m.owned ∧
      (x.entry.addr, Object.entry ⟨some x.entry.keyAddr, valueAddr x.entry.value⟩) ∈ m.owned ∧
      (x.entry.keyAddr, Object.bytes x.entry.key) ∈ m.owned ∧ chainCells q l ≤ m.owned := by
  refine ⟨?_, ?_, ?_, ?_⟩
  · exact Multiset.mem_of_le h (by simp [chainCells])
  · exact Multiset.mem_of_le h (by simp [chainCells, EntryBlock.cells])
  · exact Multiset.mem_of_le h (by simp [chainCells, EntryBlock.cells])
  · refine le_trans ?_ h
    rw [chainCells, ← add_assoc]
    exact Multiset.le_add_left _ _

/-- **`list_get_node` finds the first node with the key.** -/
theorem listGetNodeLoop_returns (hkey : (ka, .bytes key) ∈ m.owned) (hterm : Terminated key)
    (hl : chainCells none l ≤ m.owned) (hk : Keyed l) {fuel : Nat} (hfuel : l.length ≤ fuel) :
    Prog.Returns (listGetNodeLoop (some ka) fuel (headAddr none l)) m
      ((l.find? (NodeBlock.HasKey (cstr key))).map NodeBlock.addr) := by
  induction l generalizing fuel with
  | nil => cases fuel <;> rfl
  | cons x l ih =>
    obtain ⟨hnode, hentry, hxkey, hrest⟩ := chain_reads hl
    obtain ⟨hx, hkrest⟩ := List.forall_mem_cons.mp hk
    obtain ⟨c, hcmp, hzero⟩ := strcmp_terminated hx hterm
    obtain ⟨fuel, rfl⟩ : ∃ more, fuel = more + 1 := ⟨fuel - 1, by rw [List.length_cons] at hfuel; omega⟩
    refine (returns_node hnode).bind ((returns_entry hentry).bind ?_)
    refine (returns_bytes hxkey).bind ((returns_bytes hkey).bind ?_)
    refine (Prog.returns_lift hcmp m).bind ?_
    by_cases hc : c = 0
    · rw [if_pos hc, List.find?_cons_of_pos (by simp [NodeBlock.HasKey, hzero.mp hc])]
      rfl
    · have hne : ¬ x.HasKey (cstr key) := by
        simpa [NodeBlock.HasKey] using fun h => hc (hzero.mpr h)
      rw [if_neg hc, List.find?_cons_of_neg hne]
      exact ih hrest hkrest (Nat.le_of_succ_le_succ hfuel)

theorem listGetNode_returns (hkey : (ka, .bytes key) ∈ m.owned) (hterm : Terminated key)
    (hL : L.cells ≤ m.owned) (hk : Keyed L.nodes) :
    Prog.Returns (listGetNode (some L.addr) (some ka)) m
      ((L.nodes.find? (NodeBlock.HasKey (cstr key))).map NodeBlock.addr) := by
  have hlist : (L.addr, Object.list ⟨headAddr none L.nodes, L.tail⟩) ∈ m.owned :=
    Multiset.mem_of_le hL (by simp [ListBlock.cells])
  have hchain : chainCells none L.nodes ≤ m.owned := le_trans (Multiset.le_add_left _ _) hL
  refine (returns_list hlist).bind ((Prog.returns_allocations m).bind ?_)
  exact listGetNodeLoop_returns hkey hterm hchain hk (length_le_size hchain)

/-- A node found by its key. -/
theorem find_hasKey {k : List UInt8} (hL : L.nodes = pre ++ x :: post)
    (hpre : ∀ y ∈ pre, ¬ y.HasKey k) (hx : x.HasKey k) : L.nodes.find? (NodeBlock.HasKey k) = some x :=
  List.find?_eq_some_iff_append.mpr ⟨hx, pre, post, hL, fun y hy => by simpa using hpre y hy⟩

end Chain

/-! ## `list_add` -/

section Add
variable {L : ListBlock} {x : NodeBlock} {pre post : List NodeBlock}

/-- The list with one more entry behind the others, in the node at `a`. -/
def ListBlock.push (L : ListBlock) (a : Addr) (e : EntryBlock) : ListBlock :=
  { L with tail := some (some a), nodes := L.nodes ++ [⟨a, e⟩] }

@[simp] theorem ListBlock.addr_push (L : ListBlock) (a : Addr) (e : EntryBlock) :
    (L.push a e).addr = L.addr := rfl

/-- A node at the end of a chain points at the next one. -/
theorem chainCells_snoc (q : Option Addr) (l : List NodeBlock) (x : NodeBlock) :
    chainCells q (l ++ [x]) = {(x.addr, .node ⟨some x.entry.addr, q⟩)} +
      (x.entry.cells + chainCells (some x.addr) l) := by
  rw [chainCells_append]
  simp only [chainCells, headAddr_nil, add_zero]
  ac_rfl

/-- What `list_add` reads first. -/
theorem listAdd_reads (h : m.owned = L.cells + (e.cells + rest)) (hterm : Terminated e.key)
    (hk : Keyed L.nodes) :
    Prog.Returns (entryAt (some e.addr)) m ⟨some e.keyAddr, valueAddr e.value⟩ ∧
      Prog.Returns (listGetNode (some L.addr) (some e.keyAddr)) m
        ((L.nodes.find? (NodeBlock.HasKey (cstr e.key))).map NodeBlock.addr) := by
  have hentry : (e.addr, Object.entry ⟨some e.keyAddr, valueAddr e.value⟩) ∈ m.owned := by
    rw [h]
    simp [EntryBlock.cells]
  have hkey : (e.keyAddr, Object.bytes e.key) ∈ m.owned := by
    rw [h]
    simp [EntryBlock.cells]
  have hL : L.cells ≤ m.owned := by
    rw [h]
    exact Multiset.le_add_right _ _
  exact ⟨returns_entry hentry, listGetNode_returns hkey hterm hL hk⟩

/-- **`list_add` puts a new key behind the others** when `tail` is the last node. -/
theorem listAdd_new_ends (h : m.owned = L.cells + (e.cells + rest)) (hterm : Terminated e.key)
    (hk : Keyed L.nodes) (habs : ∀ x ∈ L.nodes, ¬ x.HasKey (cstr e.key))
    (htail : L.nodes ≠ [] → L.tail = some (endAddr none L.nodes)) :
    Prog.Ends (listAdd (some L.addr) (some e.addr)) m fun r m' =>
      r = 0 ∧ ∃ a, m'.owned = (L.push a e).cells + rest := by
  obtain ⟨hentry, hget⟩ := listAdd_reads h hterm hk
  rw [List.find?_eq_none.mpr habs, Option.map_none] at hget
  rw [listAdd, if_neg (by simp)]
  refine hentry.ends (hget.ends ?_)
  rw [if_pos rfl]
  refine (Prog.ends_new m _).bind ?_
  rintro _ m₁ ⟨a, rfl, -, h₁⟩
  have hlist : (L.addr, Object.list ⟨headAddr none L.nodes, L.tail⟩) ∈ m₁.owned := by
    rw [h₁, h]
    simp [ListBlock.cells]
  refine (returns_list hlist).ends ?_
  rcases List.eq_nil_or_concat' L.nodes with hnil | ⟨init, z, hz⟩
  · have hown : m₁.owned = {(L.addr, .list ⟨headAddr none L.nodes, L.tail⟩)} +
        ({(a, .node ⟨some e.addr, none⟩)} + (e.cells + rest)) := by
      rw [h₁, h, ListBlock.cells, hnil, chainCells, add_zero]
      ac_rfl
    rw [if_pos (by rw [hnil]; rfl)]
    refine (Prog.ends_store hown _).bind ?_
    rintro _ m₂ ⟨-, h₂⟩
    refine .pure ⟨rfl, a, ?_⟩
    rw [h₂, ListBlock.cells, ListBlock.push, hnil]
    simp only [List.nil_append, chainCells, headAddr_nil, headAddr_cons, add_zero]
    ac_rfl
  · -- the last node is `z`: it gets the new one as its successor
    have hhead : headAddr none L.nodes ≠ none := by
      rw [hz]
      cases init <;> exact Option.some_ne_none _
    have hend : L.tail = some (some z.addr) := by
      rw [htail (by simp [hz]), hz]
      simp [endAddr]
    have hown : m₁.owned = {(z.addr, .node ⟨some z.entry.addr, none⟩)} +
        ({(L.addr, .list ⟨headAddr none L.nodes, L.tail⟩)} + (z.entry.cells +
          (chainCells (some z.addr) init + ({(a, .node ⟨some e.addr, none⟩)} + (e.cells + rest))))) := by
      rw [h₁, h, ListBlock.cells, show chainCells none L.nodes = _ from hz ▸ chainCells_snoc none init z]
      ac_rfl
    have hlast : (z.addr, Object.node ⟨some z.entry.addr, none⟩) ∈ m₁.owned := by
      rw [hown]
      simp
    have htail' : written L.tail = .ok (some z.addr) := by
      rw [hend]
      rfl
    rw [if_neg hhead]
    refine (Prog.returns_lift htail' m₁).ends ((returns_node hlast).ends ?_)
    refine (Prog.ends_store hown _).bind ?_
    rintro _ m₂ ⟨-, h₂⟩
    have h₂' : m₂.owned = {(L.addr, .list ⟨headAddr none L.nodes, L.tail⟩)} +
        ({(z.addr, .node ⟨some z.entry.addr, some a⟩)} + (z.entry.cells +
          (chainCells (some z.addr) init + ({(a, .node ⟨some e.addr, none⟩)} + (e.cells + rest))))) := by
      rw [h₂]
      ac_rfl
    refine (Prog.ends_store h₂' _).bind ?_
    rintro _ m₃ ⟨-, h₃⟩
    refine .pure ⟨rfl, a, ?_⟩
    have hheads : headAddr none (L.push a e).nodes = headAddr none L.nodes := by
      rw [ListBlock.push, hz]
      cases init <;> rfl
    rw [h₃, ListBlock.cells, hheads]
    simp only [ListBlock.push, hz, chainCells_snoc, add_assoc]
    ac_rfl

end Add

/-! ## `list_remove` -/

section Remove
variable {L : ListBlock} {x : NodeBlock} {l pre post : List NodeBlock} {ka : Addr} {key : Block}

theorem endAddr_snoc (p : Option Addr) (l : List NodeBlock) (x : NodeBlock) :
    endAddr p (l ++ [x]) = some x.addr := by
  simp [endAddr]

theorem endAddr_cons (p : Option Addr) (x : NodeBlock) (l : List NodeBlock) :
    endAddr p (x :: l) = endAddr (some x.addr) l := by
  cases l with
  | nil => rfl
  | cons y l => simp [endAddr, List.getLast?_eq_some_getLast]

/-- Without one of its nodes, a list that goes on behind it ends where it did. -/
theorem endAddr_skip (p : Option Addr) (pre : List NodeBlock) (x : NodeBlock) (hpost : post ≠ []) :
    endAddr p (pre ++ x :: post) = endAddr p (pre ++ post) := by
  rcases List.eq_nil_or_concat' post with rfl | ⟨post, y, rfl⟩
  · exact absurd rfl hpost
  · rw [← List.append_assoc, endAddr_snoc, ← List.cons_append, ← List.append_assoc, endAddr_snoc]

/-- Another entry in a node leaves the last node last. -/
theorem endAddr_setValue (p : Option Addr) (pre post : List NodeBlock) (x : NodeBlock) (e : EntryBlock) :
    endAddr p (pre ++ x :: post) = endAddr p (pre ++ ⟨x.addr, e⟩ :: post) := by
  rcases List.eq_nil_or_concat' post with rfl | ⟨post, y, rfl⟩
  · rw [endAddr_snoc, endAddr_snoc]
  · rw [← List.cons_append, ← List.append_assoc, endAddr_snoc, ← List.cons_append,
      ← List.append_assoc, endAddr_snoc]

/-- Nodes without the key only move the loop forward. -/
theorem listRemoveLoop_skip (hkey : (ka, .bytes key) ∈ m.owned) (hterm : Terminated key)
    {list q prev : Option Addr} (hl : chainCells q l ≤ m.owned) (hk : Keyed l)
    (habs : ∀ x ∈ l, ¬ x.HasKey (cstr key)) (fuel : Nat) :
    listRemoveLoop list (some ka) (fuel + l.length) prev (headAddr q l) m =
      listRemoveLoop list (some ka) fuel (endAddr prev l) q m := by
  induction l generalizing prev with
  | nil => rfl
  | cons x l ih =>
    obtain ⟨hnode, hentry, hxkey, hrest⟩ := chain_reads hl
    obtain ⟨hx, hkrest⟩ := List.forall_mem_cons.mp hk
    obtain ⟨hxabs, habsrest⟩ := List.forall_mem_cons.mp habs
    obtain ⟨c, hcmp, hzero⟩ := strcmp_terminated hterm hx
    have hc : c ≠ 0 := fun h0 => hxabs (by simp [NodeBlock.HasKey, hzero.mp h0])
    rw [List.length_cons, ← Nat.add_assoc, endAddr_cons]
    refine ((returns_node hnode).bind_eq _).trans ?_
    refine ((returns_entry hentry).bind_eq _).trans ?_
    refine ((returns_bytes hkey).bind_eq _).trans ?_
    refine ((returns_bytes hxkey).bind_eq _).trans ?_
    refine ((Prog.returns_lift hcmp m).bind_eq _).trans ?_
    rw [if_neg hc]
    exact ih hrest hkrest habsrest

theorem listRemove_absent_returns (hkey : (ka, .bytes key) ∈ m.owned) (hterm : Terminated key)
    (hL : L.cells ≤ m.owned) (hk : Keyed L.nodes) (habs : ∀ x ∈ L.nodes, ¬ x.HasKey (cstr key)) :
    Prog.Returns (listRemove (some L.addr) (some ka)) m (-1) := by
  have hlist : (L.addr, Object.list ⟨headAddr none L.nodes, L.tail⟩) ∈ m.owned :=
    Multiset.mem_of_le hL (by simp [ListBlock.cells])
  have hchain : chainCells none L.nodes ≤ m.owned := le_trans (Multiset.le_add_left _ _) hL
  obtain ⟨fuel, hfuel⟩ := Nat.exists_eq_add_of_le' (length_le_size hchain)
  refine (returns_list hlist).bind ((Prog.returns_allocations m).bind ?_)
  rw [hfuel]
  refine (listRemoveLoop_skip hkey hterm hchain hk habs fuel).trans ?_
  cases fuel <;> rfl

/-- The last steps of `list_remove`, once the node is out of the chain. -/
theorem listRemove_frees {cells : Multiset (Addr × Object)} {n : NodeCell}
    (h : m.owned = x.entry.cells + ({(x.addr, .node n)} + cells)) :
    Prog.Ends (do
      entryDestroy (some x.entry.addr)
      Prog.free (some x.addr)
      return (0 : Int)) m fun r m' => r = 0 ∧ m'.owned = cells := by
  refine (entryDestroy_ends h).bind fun _ m₁ h₁ => (Prog.ends_free h₁).bind ?_
  rintro _ m₂ ⟨-, h₂⟩
  exact .pure ⟨rfl, h₂⟩

/-- A list cut before one of its nodes. -/
theorem ListBlock.cells_cut (hL : L.nodes = pre ++ x :: post) :
    L.cells = {(L.addr, .list ⟨headAddr (some x.addr) pre, L.tail⟩)} +
      (chainCells (some x.addr) pre + chainCells none (x :: post)) := by
  rw [ListBlock.cells, hL, chainCells_append, headAddr_append]
  rfl

/-- **`list_remove` frees the node with the key and its entry**, and leaves the other nodes. -/
theorem listRemove_present_ends (hL : L.nodes = pre ++ x :: post) (h : m.owned = L.cells + rest)
    (hkey : (ka, .bytes key) ∈ m.owned) (hterm : Terminated key) (hk : Keyed L.nodes)
    (hpre : ∀ y ∈ pre, ¬ y.HasKey (cstr key)) (hx : x.HasKey (cstr key)) :
    Prog.Ends (listRemove (some L.addr) (some ka)) m fun r m' => r = 0 ∧
      m'.owned = (L.withNodes (pre ++ post)).cells + rest := by
  have hown : m.owned = {(L.addr, .list ⟨headAddr (some x.addr) pre, L.tail⟩)} +
      (chainCells (some x.addr) pre + (chainCells none (x :: post) + rest)) := by
    rw [h, L.cells_cut hL]
    ac_rfl
  have hlist : (L.addr, Object.list ⟨headAddr (some x.addr) pre, L.tail⟩) ∈ m.owned := by
    rw [hown]
    simp
  have hprele : chainCells (some x.addr) pre ≤ m.owned := by
    rw [hown]
    exact le_trans (Multiset.le_add_right _ _) (Multiset.le_add_left _ _)
  have hpostle : chainCells none (x :: post) ≤ m.owned := by
    rw [hown, ← add_assoc, ← add_assoc]
    exact le_trans (Multiset.le_add_left _ _) (Multiset.le_add_right _ _)
  obtain ⟨hkpre, hkx⟩ : Keyed pre ∧ Keyed (x :: post) := by
    rw [hL] at hk
    exact ⟨fun y hy => hk y (List.mem_append_left _ hy), fun y hy => hk y (List.mem_append_right _ hy)⟩
  obtain ⟨fuel, hfuel⟩ : ∃ fuel, m.size = fuel + 1 + pre.length := by
    have hlen := (Multiset.card_le_card (le_of_eq hown.symm)).trans m.card_owned_le
    have hpre := length_le_card_chainCells (some x.addr) pre
    simp only [Multiset.card_add, Multiset.card_singleton] at hlen
    exact ⟨m.size - 1 - pre.length, by omega⟩
  obtain ⟨hnode, hentry, hxkey, -⟩ := chain_reads hpostle
  obtain ⟨c, hcmp, hzero⟩ := strcmp_terminated hterm (hkx x List.mem_cons_self)
  refine (returns_list hlist).ends ((Prog.returns_allocations m).ends ?_)
  unfold Prog.Ends
  rw [hfuel, listRemoveLoop_skip hkey hterm hprele hkpre hpre]
  refine (returns_node hnode).ends ((returns_entry hentry).ends ?_)
  refine (returns_bytes hkey).ends ((returns_bytes hxkey).ends ?_)
  refine (Prog.returns_lift hcmp m).ends ?_
  rw [if_pos (hzero.mpr (of_decide_eq_true hx).symm)]
  rcases List.eq_nil_or_concat' pre with rfl | ⟨init, p, rfl⟩
  · rw [show endAddr none [] = none from rfl, if_pos rfl]
    refine (returns_list hlist).ends ((Prog.ends_store hown _).bind ?_)
    rintro _ m₁ ⟨-, h₁⟩
    refine listRemove_frees (n := ⟨some x.entry.addr, headAddr none post⟩) ?_
    rw [h₁]
    simp only [ListBlock.cells, ListBlock.withNodes, chainCells, zero_add, List.nil_append]
    ac_rfl
  · have hown' : m.owned = {(p.addr, .node ⟨some p.entry.addr, some x.addr⟩)} +
        ({(L.addr, .list ⟨headAddr (some x.addr) (init ++ [p]), L.tail⟩)} + (p.entry.cells +
          (chainCells (some p.addr) init + (chainCells none (x :: post) + rest)))) := by
      rw [hown, chainCells_snoc]
      ac_rfl
    have hbefore : (p.addr, Object.node ⟨some p.entry.addr, some x.addr⟩) ∈ m.owned := by
      rw [hown']
      simp
    have hheads : headAddr none (init ++ [p] ++ post) = headAddr (some x.addr) (init ++ [p]) := by
      cases init <;> rfl
    rw [endAddr_snoc, if_neg (Option.some_ne_none _)]
    refine (returns_node hbefore).ends ((Prog.ends_store hown' _).bind ?_)
    rintro _ m₁ ⟨-, h₁⟩
    refine listRemove_frees (n := ⟨some x.entry.addr, headAddr none post⟩) ?_
    rw [h₁]
    simp only [ListBlock.cells, ListBlock.withNodes, hheads, chainCells_append none (init ++ [p]),
      chainCells_snoc, chainCells]
    ac_rfl

end Remove

/-! ## `list_destroy` and `list_size` -/

section Rest
variable {L : ListBlock} {l : List NodeBlock}

theorem listDestroyLoop_ends (h : m.owned = chainCells none l + rest) {fuel : Nat}
    (hfuel : l.length ≤ fuel) :
    Prog.Ends (listDestroyLoop fuel (headAddr none l)) m fun _ m' => m'.owned = rest := by
  induction l generalizing m fuel with
  | nil =>
    have hrest : m.owned = rest := by rw [h, chainCells, zero_add]
    cases fuel <;> exact .pure hrest
  | cons x l ih =>
    obtain ⟨fuel, rfl⟩ : ∃ more, fuel = more + 1 := ⟨fuel - 1, by rw [List.length_cons] at hfuel; omega⟩
    have hown : m.owned = x.entry.cells + ({(x.addr, .node ⟨some x.entry.addr, headAddr none l⟩)} +
        (chainCells none l + rest)) := by
      rw [h, chainCells]
      ac_rfl
    have hnode : (x.addr, Object.node ⟨some x.entry.addr, headAddr none l⟩) ∈ m.owned := by
      rw [hown]
      simp
    refine (returns_node hnode).ends ((entryDestroy_ends hown).bind fun _ m₁ h₁ => ?_)
    refine (Prog.ends_free h₁).bind ?_
    rintro _ m₂ ⟨-, h₂⟩
    exact ih h₂ (Nat.le_of_succ_le_succ hfuel)

/-- **`list_destroy` frees the list, its nodes and their entries.** -/
theorem listDestroy_ends (h : m.owned = L.cells + rest) :
    Prog.Ends (listDestroy (some L.addr)) m fun _ m' => m'.owned = rest := by
  have hown : m.owned = chainCells none L.nodes +
      ({(L.addr, .list ⟨headAddr none L.nodes, L.tail⟩)} + rest) := by
    rw [h, ListBlock.cells]
    ac_rfl
  have hlist : (L.addr, Object.list ⟨headAddr none L.nodes, L.tail⟩) ∈ m.owned := by
    rw [hown]
    simp
  have hlen : L.nodes.length ≤ m.size := length_le_size (by rw [hown]; exact Multiset.le_add_right _ _)
  refine (returns_list hlist).ends ((Prog.returns_allocations m).ends ?_)
  refine (listDestroyLoop_ends hown hlen).bind fun _ m₁ h₁ => ?_
  exact (Prog.ends_free h₁).mono fun _ _ h => h.2

theorem listSizeLoop_returns (h : chainCells none l ≤ m.owned) {fuel : Nat} (hfuel : l.length ≤ fuel)
    {counter : Int} (hlo : 0 ≤ counter) (hhi : counter + l.length ≤ intMax) :
    Prog.Returns (listSizeLoop fuel counter (headAddr none l)) m (counter + l.length) := by
  induction l generalizing fuel counter with
  | nil =>
    rw [List.length_nil, Int.natCast_zero, Int.add_zero]
    cases fuel <;> rfl
  | cons x l ih =>
    obtain ⟨fuel, rfl⟩ : ∃ more, fuel = more + 1 := ⟨fuel - 1, by rw [List.length_cons] at hfuel; omega⟩
    obtain ⟨hnode, -, -, hrest⟩ := chain_reads h
    rw [List.length_cons] at hhi hfuel
    have hadd : intAdd counter 1 = .ok (counter + 1) := checkInt_of_nonneg (by omega) (by omega)
    refine (Prog.returns_lift hadd m).bind ((returns_node hnode).bind ?_)
    have hnext := ih hrest (show l.length ≤ fuel by omega) (show 0 ≤ counter + 1 by omega) (by omega)
    rw [List.length_cons, show counter + ((l.length + 1 : Nat) : Int) = counter + 1 + l.length by omega]
    exact hnext

/-- `list_size`, while the count is an `int`. -/
theorem listSize_returns (h : L.cells ≤ m.owned) (hmax : (L.nodes.length : Int) ≤ intMax) :
    Prog.Returns (listSize (some L.addr)) m L.nodes.length := by
  have hlist : (L.addr, Object.list ⟨headAddr none L.nodes, L.tail⟩) ∈ m.owned :=
    Multiset.mem_of_le h (by simp [ListBlock.cells])
  have hchain : chainCells none L.nodes ≤ m.owned := le_trans (Multiset.le_add_left _ _) h
  have hloop := listSizeLoop_returns hchain (length_le_size hchain) (Int.le_refl 0) (by omega)
  rw [Int.zero_add] at hloop
  rw [listSize, if_neg (Option.some_ne_none _)]
  exact (returns_list hlist).bind ((Prog.returns_allocations m).bind hloop)

end Rest

end Specs
end RemoteTable.Pointers
