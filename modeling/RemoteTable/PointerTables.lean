import RemoteTable.PointerLists

/-! # What the functions on tables own

A table is its structure, the array, and the lists that the array points at.  A function that
handles a key works on one of the lists (`TableBlock.cells_at`); the others are part of what it
leaves alone.
-/
namespace RemoteTable.Pointers
open CMem

/-- The slots of an array that points at these lists. -/
def listSlots (ls : List ListBlock) : Slots (Option Addr) := ls.map fun l => some (some l.addr)

/-- The objects of lists. -/
def listsCells (ls : List ListBlock) : Multiset (Addr × Object) := (ls.map ListBlock.cells).sum

/-- A table: its structure, its array, and its lists. -/
structure TableBlock where
  addr : Addr
  arrayAddr : Addr
  lists : List ListBlock

/-- The structure and the array. -/
def TableBlock.frame (T : TableBlock) : Multiset (Addr × Object) :=
  {(T.addr, .table ⟨T.lists.length, some T.arrayAddr⟩)} + {(T.arrayAddr, .pointers (listSlots T.lists))}

def TableBlock.cells (T : TableBlock) : Multiset (Addr × Object) := T.frame + listsCells T.lists

/-- The table with another list at `i`. -/
def TableBlock.setList (T : TableBlock) (i : Nat) (L : ListBlock) : TableBlock :=
  { T with lists := T.lists.set i L }

/-- What a table owns besides the list at `i`. -/
def TableBlock.others (T : TableBlock) (i : Nat) : Multiset (Addr × Object) :=
  T.frame + listsCells (T.lists.eraseIdx i)

theorem listsCells_nil : listsCells [] = 0 := rfl

theorem listsCells_append (ls ls' : List ListBlock) :
    listsCells (ls ++ ls') = listsCells ls + listsCells ls' := by
  simp [listsCells]

theorem listsCells_cons (L : ListBlock) (ls : List ListBlock) :
    listsCells (L :: ls) = L.cells + listsCells ls := by
  simp [listsCells]

/-- The objects of one list and those of the others. -/
theorem listsCells_at {ls : List ListBlock} {i : Nat} {L : ListBlock} (h : ls[i]? = some L) :
    listsCells ls = L.cells + listsCells (ls.eraseIdx i) :=
  sum_eraseIdx ListBlock.cells h

/-- **A table, seen from one of its lists.** -/
theorem TableBlock.cells_at {T : TableBlock} {i : Nat} {L : ListBlock} (h : T.lists[i]? = some L) :
    T.cells = L.cells + T.others i := by
  rw [TableBlock.cells, listsCells_at h, TableBlock.others]
  ac_rfl

/-- The array points at the lists, whatever is in them. -/
theorem listSlots_set {ls : List ListBlock} {i : Nat} {L L' : ListBlock} (h : ls[i]? = some L)
    (haddr : L'.addr = L.addr) : listSlots (ls.set i L') = listSlots ls := by
  obtain ⟨hi, rfl⟩ := List.getElem?_eq_some_iff.mp h
  have hi' : i < (listSlots ls).length := by rwa [listSlots, List.length_map]
  have hself : some (some ls[i].addr) = (listSlots ls)[i] := by simp [listSlots]
  rw [listSlots, List.map_set, haddr, hself]
  exact List.set_getElem_self _

theorem TableBlock.setList_cells {T : TableBlock} {i : Nat} {L L' : ListBlock}
    (h : T.lists[i]? = some L) (haddr : L'.addr = L.addr) :
    (T.setList i L').cells = L'.cells + T.others i := by
  have hset : (T.setList i L').lists[i]? = some L' :=
    List.getElem?_set_self (List.getElem?_eq_some_iff.mp h).1
  have hframe : (T.setList i L').frame = T.frame := by
    simp only [TableBlock.frame, TableBlock.setList, List.length_set, listSlots_set h haddr]
  rw [TableBlock.cells_at hset, TableBlock.others, hframe, TableBlock.others]
  simp only [TableBlock.setList, List.eraseIdx_set_eq]

section Specs
variable {m : Memory Object} {rest : Multiset (Addr × Object)} {junk : Addr → Nat → UInt8}
  {T : TableBlock} {L : ListBlock} {x : NodeBlock} {pre post : List NodeBlock} {i : Nat} {ka : Addr}
  {key : Block} {v : Option DataBlock}

theorem returns_pointers {a : Addr} {s : Slots (Option Addr)} (h : (a, .pointers s) ∈ m.owned) :
    Prog.Returns (pointersAt (some a)) m s :=
  Prog.returns_load h rfl

theorem returns_table {a : Addr} {t : TableCell} (h : (a, .table t) ∈ m.owned) :
    Prog.Returns (tableAt (some a)) m t :=
  Prog.returns_load h rfl

/-! ## Creating and destroying -/

theorem tableCreateLoop_ends {arr : Addr} {todo : Nat} {done : List ListBlock}
    (h : m.owned = {(arr, .pointers (listSlots done ++ List.replicate todo none))} +
      (listsCells done + rest)) :
    Prog.Ends (tableCreateLoop (some arr) todo done.length) m fun _ m' => ∃ ls, ls.length = todo ∧
      (∀ l ∈ ls, l.nodes = []) ∧ m'.owned = {(arr, .pointers (listSlots (done ++ ls)))} +
        (listsCells (done ++ ls) + rest) := by
  induction todo generalizing m done with
  | zero =>
    refine .pure ⟨[], rfl, fun _ hl => absurd hl List.not_mem_nil, ?_⟩
    rw [h, List.replicate_zero, List.append_nil, List.append_nil]
  | succ todo ih =>
    refine (Prog.ends_new m _).bind ?_
    rintro _ m₁ ⟨a, rfl, -, h₁⟩
    have hcells : ListBlock.cells ⟨a, none, []⟩ = {(a, .list ⟨none, none⟩)} := add_zero _
    have hown : m₁.owned = {(arr, .pointers (listSlots done ++ List.replicate (todo + 1) none))} +
        (listsCells (done ++ [⟨a, none, []⟩]) + rest) := by
      rw [h₁, h, listsCells_append, listsCells_cons, hcells, listsCells_nil, add_zero]
      ac_rfl
    have harr : (arr, Object.pointers (listSlots done ++ List.replicate (todo + 1) none)) ∈ m₁.owned := by
      rw [hown]
      simp
    have hset : setSlot (listSlots done ++ List.replicate (todo + 1) none) done.length (some a) =
        .ok (listSlots (done ++ [⟨a, none, []⟩]) ++ List.replicate todo none) := by
      have hfree := setSlot_append (listSlots done) none (List.replicate todo none) (some a)
      rw [listSlots, List.length_map] at hfree
      simpa [List.replicate_succ, listSlots] using hfree
    refine (returns_pointers harr).ends ((Prog.returns_lift hset m₁).ends ?_)
    refine (Prog.ends_store hown _).bind ?_
    rintro _ m₂ ⟨-, h₂⟩
    have hrest := ih h₂
    rw [List.length_append, List.length_singleton] at hrest
    refine hrest.mono ?_
    rintro _ m' ⟨ls, hlen, hnew, hm'⟩
    refine ⟨⟨a, none, []⟩ :: ls, by rw [List.length_cons, hlen], ?_, ?_⟩
    · exact List.forall_mem_cons.mpr ⟨rfl, hnew⟩
    · rwa [List.append_assoc, List.singleton_append] at hm'

/-- **`table_create` makes a table of empty lists.** -/
theorem tableCreate_ends {n : Int} (hn : 0 ≤ n) (m : Memory Object) :
    Prog.Ends (tableCreate n) m fun p m' => ∃ T : TableBlock, p = some T.addr ∧
      T.lists.length = n.toNat ∧ (∀ l ∈ T.lists, l.nodes = []) ∧ m'.owned = T.cells + m.owned := by
  refine (Prog.ends_new m _).bind ?_
  rintro _ m₁ ⟨a, rfl, -, h₁⟩
  refine (Prog.ends_new m₁ _).bind ?_
  rintro _ m₂ ⟨arr, rfl, -, h₂⟩
  have hown : m₂.owned = {(a, .table ⟨n, none⟩)} +
      ({(arr, .pointers (mallocSlots n))} + m.owned) := by
    rw [h₂, h₁]
    ac_rfl
  refine (Prog.ends_store hown _).bind ?_
  rintro _ m₃ ⟨-, h₃⟩
  have hloop : m₃.owned = {(arr, .pointers (listSlots [] ++ List.replicate n.toNat none))} +
      (listsCells [] + ({(a, .table ⟨n, some arr⟩)} + m.owned)) := by
    rw [h₃, mallocSlots]
    simp only [listSlots, listsCells_nil, List.map_nil, List.nil_append, zero_add]
    ac_rfl
  refine (tableCreateLoop_ends hloop).bind ?_
  rintro _ m₄ ⟨ls, hlen, hnew, h₄⟩
  refine .pure ⟨⟨a, arr, ls⟩, rfl, hlen, hnew, ?_⟩
  rw [h₄, TableBlock.cells, TableBlock.frame, hlen, Int.toNat_of_nonneg hn, List.nil_append]
  ac_rfl

/-- The slot of a list. -/
theorem slotAt_listSlots {ls : List ListBlock} (h : ls[i]? = some L) :
    slotAt (listSlots ls) i = .ok (some L.addr) := by
  rw [slotAt, if_neg (by omega), Int.toNat_natCast, listSlots, List.getElem?_map, h]
  rfl

theorem tableDestroyLoop_ends {arr : Addr} {todo : Nat} {lists : List ListBlock}
    (hi : i + todo = lists.length)
    (h : m.owned = {(arr, .pointers (listSlots lists))} + (listsCells (lists.drop i) + rest)) :
    Prog.Ends (tableDestroyLoop (some arr) todo i) m fun _ m' =>
      m'.owned = {(arr, .pointers (listSlots lists))} + rest := by
  induction todo generalizing m i with
  | zero =>
    refine .pure ?_
    rw [h, List.drop_eq_nil_of_le (by omega), listsCells_nil, zero_add]
  | succ todo ih =>
    have hlt : i < lists.length := by omega
    have hown : m.owned = lists[i].cells + ({(arr, .pointers (listSlots lists))} +
        (listsCells (lists.drop (i + 1)) + rest)) := by
      rw [h, List.drop_eq_getElem_cons hlt, listsCells_cons]
      ac_rfl
    have harr : (arr, Object.pointers (listSlots lists)) ∈ m.owned := by
      rw [h]
      simp
    have hslot := slotAt_listSlots (List.getElem?_eq_getElem hlt)
    refine (returns_pointers harr).ends ((Prog.returns_lift hslot m).ends ?_)
    exact (listDestroy_ends hown).bind fun _ m₁ h₁ => ih (by omega) h₁

/-- **`table_destroy` frees all of a table**, and nothing else. -/
theorem tableDestroy_ends (h : m.owned = T.cells + rest) :
    Prog.Ends (tableDestroy (some T.addr)) m fun _ m' => m'.owned = rest := by
  have hown : m.owned = {(T.arrayAddr, .pointers (listSlots T.lists))} + (listsCells (T.lists.drop 0) +
      ({(T.addr, .table ⟨T.lists.length, some T.arrayAddr⟩)} + rest)) := by
    rw [h, TableBlock.cells, TableBlock.frame, List.drop_zero]
    ac_rfl
  have htable : (T.addr, Object.table ⟨T.lists.length, some T.arrayAddr⟩) ∈ m.owned := by
    rw [hown]
    simp
  refine (returns_table htable).ends ?_
  rw [Int.toNat_natCast]
  refine (tableDestroyLoop_ends (by omega) hown).bind fun _ m₁ h₁ => (Prog.ends_free h₁).bind ?_
  rintro _ m₂ ⟨-, h₂⟩
  exact (Prog.ends_free h₂).mono fun _ _ h => h.2

/-! ## The list of a key -/

/-- The key is held by the caller, and its hash names the list. -/
structure KeyIn (T : TableBlock) (rest : Multiset (Addr × Object)) (ka : Addr) (key : Block) (i : Nat)
    (L : ListBlock) : Prop where
  held : (ka, .bytes key) ∈ rest
  hash : getHashIndex key T.lists.length = .ok i
  list : T.lists[i]? = some L
  keyed : Keyed L.nodes

theorem KeyIn.terminated (hk : KeyIn T rest ka key i L) : Terminated key := getHashIndex_terminated hk.hash

/-- What there is, seen from the list. -/
theorem KeyIn.owned (hk : KeyIn T rest ka key i L) (h : m.owned = T.cells + rest) :
    m.owned = L.cells + (T.others i + rest) ∧ (ka, .bytes key) ∈ m.owned := by
  refine ⟨by rw [h, TableBlock.cells_at hk.list, add_assoc], ?_⟩
  rw [h]
  exact Multiset.mem_add.mpr (Or.inr hk.held)

theorem KeyIn.listFor (hk : KeyIn T rest ka key i L) (h : m.owned = T.cells + rest) :
    Prog.Returns (listFor (some T.addr) (some ka)) m (some L.addr) := by
  have htable : (T.addr, Object.table ⟨T.lists.length, some T.arrayAddr⟩) ∈ m.owned := by
    rw [h]
    simp [TableBlock.cells, TableBlock.frame]
  have harr : (T.arrayAddr, Object.pointers (listSlots T.lists)) ∈ m.owned := by
    rw [h]
    simp [TableBlock.cells, TableBlock.frame]
  refine (returns_table htable).bind ((returns_bytes (hk.owned h).2).bind ?_)
  refine (Prog.returns_lift hk.hash m).bind ((returns_pointers harr).bind ?_)
  exact Prog.returns_lift (slotAt_listSlots hk.list) m

/-- `list_get` in the list: the entry of the first node that has the key. -/
theorem KeyIn.listGet (hk : KeyIn T rest ka key i L) (h : m.owned = T.cells + rest) :
    Prog.Returns (listGet (some L.addr) (some ka)) m
      ((L.nodes.find? (NodeBlock.HasKey (cstr key))).map fun x => x.entry.addr) := by
  obtain ⟨hown, hkey⟩ := hk.owned h
  have hL : L.cells ≤ m.owned := by
    rw [hown]
    exact Multiset.le_add_right _ _
  refine (listGetNode_returns hkey hk.terminated hL hk.keyed).bind ?_
  cases hfind : L.nodes.find? (NodeBlock.HasKey (cstr key)) with
  | none => rfl
  | some x =>
    obtain ⟨-, pre, post, hnodes, -⟩ := List.find?_eq_some_iff_append.mp hfind
    have hle : chainCells none (x :: post) ≤ m.owned := by
      refine le_trans ?_ hL
      rw [L.cells_cut hnodes, ← add_assoc]
      exact Multiset.le_add_left _ _
    rw [Option.map_some, if_neg (Option.some_ne_none _)]
    exact (returns_node (chain_reads hle).1).bind (Prog.returns_pure _ m)

/-! ## `table_put` -/

/-- The entry of `table_put`: a copy of the key and a copy of the value, as far as there is one. -/
structure Copies (key : Block) (v : Option DataBlock) (e : EntryBlock) : Prop where
  key : e.key = cstr key ++ [0]
  value : valueBytes e.value = (valueBytes v).filter (· ≠ [])

/-- **`table_put` of a new key** adds an entry of its own to the list, and takes nothing of the
caller's. -/
theorem tablePut_new_ends (h : m.owned = T.cells + rest) (hk : KeyIn T rest ka key i L)
    (hv : valueCells v ≤ rest) (habs : ∀ x ∈ L.nodes, ¬ x.HasKey (cstr key))
    (htail : L.nodes ≠ [] → L.tail = some (endAddr none L.nodes)) :
    Prog.Ends (tablePut junk (some T.addr) (some ka) (valueAddr v)) m fun r m' => r = 0 ∧
      ∃ a e, Copies key v e ∧ m'.owned = (T.setList i (L.push a e)).cells + rest := by
  obtain ⟨hown, hkey⟩ := hk.owned h
  have hget := hk.listGet h
  rw [List.find?_eq_none.mpr habs, Option.map_none] at hget
  rw [tablePut, if_neg (Option.some_ne_none _)]
  refine (hk.listFor h).ends (hget.ends ?_)
  rw [if_pos rfl]
  refine (strdupAt_ends hkey hk.terminated).bind ?_
  rintro _ m₁ ⟨c, rfl, h₁⟩
  have hv₁ : valueCells v ≤ m₁.owned := by
    rw [h₁, h, ← add_assoc]
    exact le_trans hv (Multiset.le_add_left _ _)
  refine (dataDup_ends hv₁).bind ?_
  rintro _ m₂ ⟨copy, rfl, hcopy, h₂⟩
  refine (Prog.ends_new m₂ _).bind ?_
  rintro _ m₃ ⟨a, rfl, -, h₃⟩
  have he : m₃.owned = L.cells + (EntryBlock.cells ⟨a, c, cstr key ++ [0], copy⟩ + (T.others i + rest)) := by
    rw [h₃, h₂, h₁, hown]
    simp only [EntryBlock.cells]
    ac_rfl
  have hcstr : cstr (cstr key ++ [0]) = cstr key := cstr_append_nul (cstr_no_nul key) []
  refine (listAdd_new_ends he (terminated_append_nul _ _) hk.keyed (by rwa [hcstr]) htail).bind ?_
  rintro _ m₄ ⟨-, b, h₄⟩
  refine .pure ⟨rfl, b, ⟨a, c, cstr key ++ [0], copy⟩, ⟨rfl, hcopy⟩, ?_⟩
  rw [h₄, TableBlock.setList_cells hk.list (L.addr_push b _), add_assoc]

/-- A list seen from the entry of one of its nodes, whatever that has become. -/
theorem ListBlock.cells_entry (L : ListBlock) (pre post : List NodeBlock) (x : NodeBlock) :
    ∃ around, ∀ e : EntryBlock, e.addr = x.entry.addr →
      (L.withNodes (pre ++ ⟨x.addr, e⟩ :: post)).cells = e.cells + around := by
  refine ⟨{(L.addr, .list ⟨headAddr (some x.addr) pre, L.tail⟩)} + (chainCells (some x.addr) pre +
    ({(x.addr, .node ⟨some x.entry.addr, headAddr none post⟩)} + chainCells none post)), fun e he => ?_⟩
  rw [ListBlock.cells_cut (x := ⟨x.addr, e⟩) rfl, chainCells, he]
  simp only [ListBlock.withNodes]
  ac_rfl

/-- What there is, seen from the entry of a node. -/
theorem KeyIn.entry (hk : KeyIn T rest ka key i L) (h : m.owned = T.cells + rest)
    (hL : L.nodes = pre ++ x :: post) :
    ∃ around, m.owned = x.entry.cells + (around + rest) ∧ ∀ w,
      (T.setList i (L.withNodes (pre ++ ⟨x.addr, x.entry.withValue w⟩ :: post))).cells =
        (x.entry.withValue w).cells + around := by
  obtain ⟨around, haround⟩ := ListBlock.cells_entry L pre post x
  have hcells : L.cells = x.entry.cells + around := by
    rw [← haround x.entry rfl, ← hL]
    rfl
  refine ⟨around + T.others i, ?_, fun w => ?_⟩
  · rw [(hk.owned h).1, hcells]
    ac_rfl
  · rw [TableBlock.setList_cells hk.list (L.addr_withNodes _), haround (x.entry.withValue w) rfl,
      add_assoc]

/-- **`table_put` of a present key** frees the old value and keeps a copy of the new one. -/
theorem tablePut_present_ends (h : m.owned = T.cells + rest) (hk : KeyIn T rest ka key i L)
    (hv : valueCells v ≤ rest) (hL : L.nodes = pre ++ x :: post)
    (hpre : ∀ y ∈ pre, ¬ y.HasKey (cstr key)) (hx : x.HasKey (cstr key)) :
    Prog.Ends (tablePut junk (some T.addr) (some ka) (valueAddr v)) m fun r m' => r = 0 ∧
      ∃ w, valueBytes w = (valueBytes v).filter (· ≠ []) ∧ m'.owned =
        (T.setList i (L.withNodes (pre ++ ⟨x.addr, x.entry.withValue w⟩ :: post))).cells + rest := by
  obtain ⟨around, hown, hset⟩ := hk.entry h hL
  have hget := hk.listGet h
  rw [find_hasKey hL hpre hx, Option.map_some] at hget
  have hvalue : m.owned = valueCells x.entry.value +
      ({(x.entry.addr, .entry ⟨some x.entry.keyAddr, valueAddr x.entry.value⟩)} +
        ({(x.entry.keyAddr, .bytes x.entry.key)} + (around + rest))) := by
    rw [hown, EntryBlock.cells]
    ac_rfl
  have hentry : (x.entry.addr, Object.entry ⟨some x.entry.keyAddr, valueAddr x.entry.value⟩) ∈ m.owned := by
    rw [hvalue]
    simp
  rw [tablePut, if_neg (Option.some_ne_none _)]
  refine (hk.listFor h).ends (hget.ends ?_)
  rw [if_neg (Option.some_ne_none _)]
  refine (returns_entry hentry).ends ((dataDestroy_ends hvalue).bind fun _ m₁ h₁ => ?_)
  have hv₁ : valueCells v ≤ m₁.owned := by
    rw [h₁, ← add_assoc, ← add_assoc]
    exact le_trans hv (Multiset.le_add_left _ _)
  refine (dataDup_ends hv₁).bind ?_
  rintro _ m₂ ⟨w, rfl, hw, h₂⟩
  have hstore : m₂.owned = {(x.entry.addr, .entry ⟨some x.entry.keyAddr, valueAddr x.entry.value⟩)} +
      (valueCells w + ({(x.entry.keyAddr, .bytes x.entry.key)} + (around + rest))) := by
    rw [h₂, h₁]
    ac_rfl
  refine (Prog.ends_store hstore _).bind ?_
  rintro _ m₃ ⟨-, h₃⟩
  refine .pure ⟨rfl, w, hw, ?_⟩
  rw [h₃, hset w]
  simp only [EntryBlock.cells, EntryBlock.withValue]
  ac_rfl

/-! ## `table_get` and `table_del` -/

theorem tableGet_absent_returns (h : m.owned = T.cells + rest) (hk : KeyIn T rest ka key i L)
    (habs : ∀ x ∈ L.nodes, ¬ x.HasKey (cstr key)) :
    Prog.Returns (tableGet junk (some T.addr) (some ka)) m none := by
  have hget := hk.listGet h
  rw [List.find?_eq_none.mpr habs, Option.map_none] at hget
  refine (hk.listFor h).bind (hget.bind ?_)
  rw [if_pos rfl]
  exact Prog.returns_pure _ m

/-- **`table_get` of a present key** hands a copy of the value to the caller. -/
theorem tableGet_present_ends (h : m.owned = T.cells + rest) (hk : KeyIn T rest ka key i L)
    (hL : L.nodes = pre ++ x :: post) (hpre : ∀ y ∈ pre, ¬ y.HasKey (cstr key))
    (hx : x.HasKey (cstr key)) :
    Prog.Ends (tableGet junk (some T.addr) (some ka)) m fun p m' => ∃ w, p = valueAddr w ∧
      valueBytes w = (valueBytes x.entry.value).filter (· ≠ []) ∧ m'.owned = valueCells w + m.owned := by
  obtain ⟨around, hentry', -⟩ := hk.entry h hL
  have hown : m.owned = valueCells x.entry.value +
      ({(x.entry.addr, .entry ⟨some x.entry.keyAddr, valueAddr x.entry.value⟩)} +
        ({(x.entry.keyAddr, .bytes x.entry.key)} + (around + rest))) := by
    rw [hentry', EntryBlock.cells]
    ac_rfl
  have hget := hk.listGet h
  rw [find_hasKey hL hpre hx, Option.map_some] at hget
  have hentry : (x.entry.addr, Object.entry ⟨some x.entry.keyAddr, valueAddr x.entry.value⟩) ∈ m.owned := by
    rw [hown]
    simp
  have hvalue : valueCells x.entry.value ≤ m.owned := by
    rw [hown]
    exact Multiset.le_add_right _ _
  refine (hk.listFor h).ends (hget.ends ?_)
  rw [if_neg (Option.some_ne_none _)]
  exact (returns_entry hentry).ends (dataDup_ends hvalue)

theorem tableDel_absent_returns (h : m.owned = T.cells + rest) (hk : KeyIn T rest ka key i L)
    (habs : ∀ x ∈ L.nodes, ¬ x.HasKey (cstr key)) :
    Prog.Returns (tableDel (some T.addr) (some ka)) m (-1) := by
  obtain ⟨hown, hkey⟩ := hk.owned h
  have hL : L.cells ≤ m.owned := by
    rw [hown]
    exact Multiset.le_add_right _ _
  exact (hk.listFor h).bind (listRemove_absent_returns hkey hk.terminated hL hk.keyed habs)

/-- **`table_del` of a present key** frees its node. -/
theorem tableDel_present_ends (h : m.owned = T.cells + rest) (hk : KeyIn T rest ka key i L)
    (hL : L.nodes = pre ++ x :: post) (hpre : ∀ y ∈ pre, ¬ y.HasKey (cstr key))
    (hx : x.HasKey (cstr key)) :
    Prog.Ends (tableDel (some T.addr) (some ka)) m fun r m' => r = 0 ∧
      m'.owned = (T.setList i (L.withNodes (pre ++ post))).cells + rest := by
  obtain ⟨hown, hkey⟩ := hk.owned h
  refine (hk.listFor h).ends ?_
  refine (listRemove_present_ends hL hown hkey hk.terminated hk.keyed hpre hx).mono ?_
  rintro r m' ⟨hr, hm'⟩
  refine ⟨hr, ?_⟩
  rw [hm', TableBlock.setList_cells hk.list (L.addr_withNodes _), add_assoc]

/-! ## `table_size` -/

/-- The nodes of lists, one list after the other. -/
def nodesOf (ls : List ListBlock) : List NodeBlock := ls.flatMap ListBlock.nodes

theorem nodesOf_drop {ls : List ListBlock} (h : ls[i]? = some L) :
    nodesOf (ls.drop i) = L.nodes ++ nodesOf (ls.drop (i + 1)) := by
  obtain ⟨hi, rfl⟩ := List.getElem?_eq_some_iff.mp h
  rw [List.drop_eq_getElem_cons hi]
  rfl

/-- What the loops over the lists read. -/
theorem lists_reads {arr : Addr} {lists : List ListBlock}
    (harr : (arr, .pointers (listSlots lists)) ∈ m.owned) (hle : listsCells lists ≤ m.owned)
    (h : lists[i]? = some L) :
    Prog.Returns (pointersAt (some arr)) m (listSlots lists) ∧
      slotAt (listSlots lists) i = .ok (some L.addr) ∧ L.cells ≤ m.owned := by
  refine ⟨returns_pointers harr, slotAt_listSlots h, le_trans ?_ hle⟩
  rw [listsCells_at h]
  exact Multiset.le_add_right _ _

theorem tableSizeLoop_returns {arr : Addr} {lists : List ListBlock}
    (harr : (arr, .pointers (listSlots lists)) ∈ m.owned) (hle : listsCells lists ≤ m.owned) {todo : Nat}
    (hi : i + todo = lists.length) {counter : Int} (hlo : 0 ≤ counter)
    (hhi : counter + (nodesOf (lists.drop i)).length ≤ intMax) :
    Prog.Returns (tableSizeLoop (some arr) todo i counter) m
      (counter + (nodesOf (lists.drop i)).length) := by
  induction todo generalizing i counter with
  | zero =>
    rw [List.drop_eq_nil_of_le (by omega), nodesOf, List.flatMap_nil, List.length_nil, Int.natCast_zero,
      Int.add_zero]
    rfl
  | succ todo ih =>
    obtain ⟨L, hL⟩ : ∃ L, lists[i]? = some L := ⟨_, List.getElem?_eq_getElem (by omega)⟩
    obtain ⟨hread, hslot, hcells⟩ := lists_reads harr hle hL
    rw [nodesOf_drop hL, List.length_append] at hhi ⊢
    have hadd : intAdd counter L.nodes.length = .ok (counter + L.nodes.length) :=
      checkInt_of_nonneg (by omega) (by omega)
    refine hread.bind ((Prog.returns_lift hslot m).bind ?_)
    refine (listSize_returns hcells (by omega)).bind ((Prog.returns_lift hadd m).bind ?_)
    rw [show counter + ((L.nodes.length + (nodesOf (lists.drop (i + 1))).length : Nat) : Int) =
      counter + L.nodes.length + (nodesOf (lists.drop (i + 1))).length by omega]
    exact ih (by omega) (by omega) (by omega)

/-- What the functions on the whole table read of it. -/
theorem table_reads (h : m.owned = T.cells + rest) :
    Prog.Returns (tableAt (some T.addr)) m ⟨T.lists.length, some T.arrayAddr⟩ ∧
      (T.arrayAddr, .pointers (listSlots T.lists)) ∈ m.owned ∧ listsCells T.lists ≤ m.owned := by
  refine ⟨returns_table ?_, ?_, ?_⟩
  · rw [h]
    simp [TableBlock.cells, TableBlock.frame]
  · rw [h]
    simp [TableBlock.cells, TableBlock.frame]
  · rw [h, TableBlock.cells]
    exact le_trans (Multiset.le_add_left _ _) (Multiset.le_add_right _ _)

/-- `table_size` counts the nodes, while their number is an `int`. -/
theorem tableSize_returns (h : m.owned = T.cells + rest)
    (hmax : ((nodesOf T.lists).length : Int) ≤ intMax) :
    Prog.Returns (tableSize (some T.addr)) m (nodesOf T.lists).length := by
  obtain ⟨htable, harr, hle⟩ := table_reads h
  have hloop := tableSizeLoop_returns harr hle (i := 0) (Nat.zero_add _) (Int.le_refl 0) (by simpa using hmax)
  rw [Int.zero_add, List.drop_zero] at hloop
  exact htable.bind (by rwa [Int.toNat_natCast])

/-! ## `table_get_keys` -/

/-- The slots and the objects of an array of copies, each at its address. -/
def copySlots (copies : List (Addr × Block)) : Slots (Option Addr) := copies.map fun c => some (some c.1)

def copyCells (copies : List (Addr × Block)) : Multiset (Addr × Object) :=
  (copies.map fun c => {(c.1, Object.bytes c.2)}).sum

/-- The copy of a node's key. -/
def keyCopy (x : NodeBlock) : Block := cstr x.entry.key ++ [0]

theorem copyCells_cons (c : Addr × Block) (copies : List (Addr × Block)) :
    copyCells (c :: copies) = {(c.1, .bytes c.2)} + copyCells copies := by
  simp [copyCells]

theorem copyCells_append (copies copies' : List (Addr × Block)) :
    copyCells (copies ++ copies') = copyCells copies + copyCells copies' := by
  simp [copyCells]

/-- An array of copies that still has room, and what it was allocated beside. -/
structure Copying (buf : Addr) (done : List (Addr × Block)) (room : Nat)
    (rest : Multiset (Addr × Object)) (m : Memory Object) : Prop where
  owned : m.owned = {(buf, .pointers (copySlots done ++ List.replicate room none))} +
    (copyCells done + rest)

theorem copyKeysLoop_ends {buf : Addr} {done : List (Addr × Block)} {l : List NodeBlock} {spare : Nat}
    (h : Copying buf done (l.length + spare) rest m) (hl : chainCells none l ≤ rest) (hk : Keyed l)
    {fuel : Nat} (hfuel : l.length ≤ fuel) :
    Prog.Ends (copyKeysLoop (some buf) fuel done.length (headAddr none l)) m fun r m' =>
      r = done.length + l.length ∧ ∃ new, new.map Prod.snd = l.map keyCopy ∧
        Copying buf (done ++ new) spare rest m' := by
  induction l generalizing m done fuel with
  | nil =>
    rw [List.length_nil, Nat.zero_add] at h
    have hend : done ++ [] = done := List.append_nil done
    cases fuel <;> exact .pure ⟨rfl, [], rfl, hend.symm ▸ h⟩
  | cons x l ih =>
    obtain ⟨fuel, rfl⟩ : ∃ more, fuel = more + 1 := ⟨fuel - 1, by rw [List.length_cons] at hfuel; omega⟩
    have hrest : rest ≤ m.owned := by
      rw [h.owned, ← add_assoc]
      exact Multiset.le_add_left _ _
    obtain ⟨hnode, hentry, hxkey, -⟩ := chain_reads (le_trans hl hrest)
    obtain ⟨hx, hkrest⟩ := List.forall_mem_cons.mp hk
    have hlrest : chainCells none l ≤ rest := by
      refine le_trans ?_ hl
      rw [chainCells, ← add_assoc]
      exact Multiset.le_add_left _ _
    refine (returns_node hnode).ends ((returns_entry hentry).ends ?_)
    refine (strdupAt_ends hxkey hx).bind ?_
    rintro _ m₁ ⟨c, rfl, h₁⟩
    have hroom : List.replicate ((x :: l).length + spare) (none : Option (Option Addr)) =
        none :: List.replicate (l.length + spare) none := by
      rw [List.length_cons, show l.length + 1 + spare = l.length + spare + 1 by omega, List.replicate_succ]
    have hown : m₁.owned = {(buf, .pointers (copySlots done ++ none :: List.replicate (l.length + spare) none))} +
        (copyCells (done ++ [(c, keyCopy x)]) + rest) := by
      rw [h₁, h.owned, hroom, copyCells_append, copyCells_cons, keyCopy,
        show copyCells [] = 0 from rfl, add_zero]
      ac_rfl
    have hbuf : (buf, Object.pointers (copySlots done ++ none :: List.replicate (l.length + spare) none)) ∈
        m₁.owned := by
      rw [hown]
      simp
    have hset : setSlot (copySlots done ++ none :: List.replicate (l.length + spare) none) done.length (some c) =
        .ok (copySlots (done ++ [(c, keyCopy x)]) ++ List.replicate (l.length + spare) none) := by
      have hfree := setSlot_append (copySlots done) none (List.replicate (l.length + spare) none) (some c)
      rw [copySlots, List.length_map] at hfree
      simpa [copySlots] using hfree
    refine (returns_pointers hbuf).ends ((Prog.returns_lift hset m₁).ends ?_)
    refine (Prog.ends_store hown _).bind ?_
    rintro _ m₂ ⟨-, h₂⟩
    have hnext := ih ⟨h₂⟩ hlrest hkrest (Nat.le_of_succ_le_succ hfuel)
    rw [List.length_append, List.length_singleton] at hnext
    refine hnext.mono ?_
    rintro r m' ⟨rfl, new, hnew, hm'⟩
    refine ⟨by rw [List.length_cons]; omega, (c, keyCopy x) :: new, ?_, ?_⟩
    · rw [List.map_cons, List.map_cons, hnew]
    · rwa [List.append_assoc, List.singleton_append] at hm'

theorem tableGetKeysLoop_ends {arr buf : Addr} {lists : List ListBlock} {todo : Nat}
    {done : List (Addr × Block)} {spare : Nat} (hi : i + todo = lists.length)
    (h : Copying buf done ((nodesOf (lists.drop i)).length + spare) rest m)
    (harr : (arr, .pointers (listSlots lists)) ∈ rest) (hle : listsCells lists ≤ rest)
    (hk : ∀ L ∈ lists, Keyed L.nodes) :
    Prog.Ends (tableGetKeysLoop (some arr) (some buf) todo i done.length) m fun r m' =>
      r = done.length + (nodesOf (lists.drop i)).length ∧ ∃ new,
        new.map Prod.snd = (nodesOf (lists.drop i)).map keyCopy ∧ Copying buf (done ++ new) spare rest m' := by
  induction todo generalizing m i done with
  | zero =>
    rw [List.drop_eq_nil_of_le (by omega)] at h ⊢
    have hend : done ++ [] = done := List.append_nil done
    exact .pure ⟨rfl, [], rfl, hend.symm ▸ (Nat.zero_add spare ▸ h)⟩
  | succ todo ih =>
    obtain ⟨L, hL⟩ : ∃ L, lists[i]? = some L := ⟨_, List.getElem?_eq_getElem (by omega)⟩
    have hrest : rest ≤ m.owned := by
      rw [h.owned, ← add_assoc]
      exact Multiset.le_add_left _ _
    have hLle : L.cells ≤ rest := by
      refine le_trans ?_ hle
      rw [listsCells_at hL]
      exact Multiset.le_add_right _ _
    obtain ⟨hread, hslot, -⟩ := lists_reads (Multiset.mem_of_le hrest harr) (le_trans hle hrest) hL
    have hlist : (L.addr, Object.list ⟨headAddr none L.nodes, L.tail⟩) ∈ m.owned :=
      Multiset.mem_of_le (le_trans hLle hrest) (by simp [ListBlock.cells])
    have hchain : chainCells none L.nodes ≤ rest := le_trans (Multiset.le_add_left _ _) hLle
    rw [nodesOf_drop hL, List.length_append] at h ⊢
    rw [Nat.add_assoc] at h
    refine hread.ends ((Prog.returns_lift hslot m).ends ?_)
    refine (returns_list hlist).ends ((Prog.returns_allocations m).ends ?_)
    refine (copyKeysLoop_ends h hchain (hk L (List.mem_of_getElem? hL))
      (length_le_size (le_trans hchain hrest))).bind ?_
    rintro _ m₁ ⟨rfl, new, hnew, h₁⟩
    have hlen : (done ++ new).length = done.length + L.nodes.length := by
      have := congrArg List.length hnew
      rw [List.length_map, List.length_map] at this
      rw [List.length_append, this]
    have hnext := ih (show i + 1 + todo = lists.length by omega) h₁
    rw [hlen] at hnext
    refine hnext.mono ?_
    rintro r m' ⟨rfl, new', hnew', hm'⟩
    refine ⟨by omega, new ++ new', ?_, ?_⟩
    · rw [List.map_append, List.map_append, hnew, hnew']
    · rwa [List.append_assoc] at hm'

/-- **`table_get_keys` hands an array of copies to the caller**, closed by `NULL`. -/
theorem tableGetKeys_ends (h : m.owned = T.cells + rest) (hk : ∀ L ∈ T.lists, Keyed L.nodes)
    (hmax : ((nodesOf T.lists).length : Int) < intMax) :
    Prog.Ends (tableGetKeys (some T.addr)) m fun p m' => ∃ buf copies, p = some buf ∧
      copies.map Prod.snd = (nodesOf T.lists).map keyCopy ∧
      m'.owned = {(buf, .pointers (copySlots copies ++ [some none]))} + (copyCells copies + m.owned) := by
  obtain ⟨htable, harr, hle⟩ := table_reads h
  have hadd : intAdd (nodesOf T.lists).length 1 = .ok ((nodesOf T.lists).length + 1) :=
    checkInt_of_nonneg (by omega) (by omega)
  refine (tableSize_returns h (by omega)).ends ((Prog.returns_lift hadd m).ends ?_)
  refine (Prog.ends_new m _).bind ?_
  rintro _ m₁ ⟨buf, rfl, -, h₁⟩
  have hbuf : Copying buf [] ((nodesOf (T.lists.drop 0)).length + 1) m.owned m₁ := by
    refine ⟨?_⟩
    rw [h₁, mallocSlots, List.drop_zero, show ((nodesOf T.lists).length + 1 : Int).toNat =
      (nodesOf T.lists).length + 1 by omega]
    simp [copySlots, copyCells]
  have htable₁ : Prog.Returns (tableAt (some T.addr)) m₁ ⟨T.lists.length, some T.arrayAddr⟩ := by
    refine returns_table ?_
    rw [h₁, h]
    simp [TableBlock.cells, TableBlock.frame]
  refine htable₁.ends ?_
  rw [Int.toNat_natCast]
  refine (tableGetKeysLoop_ends (Nat.zero_add _) hbuf harr hle hk).bind ?_
  rintro _ m₂ ⟨rfl, copies, hcopies, h₂⟩
  rw [List.drop_zero] at hcopies
  have hlen : copies.length = (nodesOf T.lists).length := by
    simpa using congrArg List.length hcopies
  have hown := h₂.owned
  rw [List.nil_append] at hown
  have hmem : (buf, Object.pointers (copySlots copies ++ List.replicate 1 none)) ∈ m₂.owned := by
    rw [hown]
    simp
  have hset : setSlot (copySlots copies ++ List.replicate 1 none)
      (([] : List (Addr × Block)).length + (nodesOf (T.lists.drop 0)).length) none =
      .ok (copySlots copies ++ [some none]) := by
    have hfree := setSlot_append (copySlots copies) none [] (none : Option Addr)
    rw [copySlots, List.length_map, hlen] at hfree
    simpa [copySlots] using hfree
  refine (returns_pointers hmem).ends ((Prog.returns_lift hset m₂).ends ?_)
  refine (Prog.ends_store hown _).bind ?_
  rintro _ m₃ ⟨-, h₃⟩
  exact .pure ⟨buf, copies, rfl, hcopies, h₃⟩

theorem freeKeysLoop_ends {copies : List (Addr × Block)} {room : Slots (Option Addr)}
    (h : m.owned = copyCells copies + rest) :
    Prog.Ends (freeKeysLoop (copySlots copies ++ some none :: room)) m fun _ m' => m'.owned = rest := by
  induction copies generalizing m with
  | nil =>
    refine .pure ?_
    rw [h, show copyCells [] = 0 from rfl, zero_add]
  | cons c copies ih =>
    have hown : m.owned = {(c.1, .bytes c.2)} + (copyCells copies + rest) := by
      rw [h, copyCells_cons, add_assoc]
    refine (Prog.ends_free hown).bind ?_
    rintro _ m₁ ⟨-, h₁⟩
    exact ih h₁

/-- **`table_free_keys` frees what `table_get_keys` handed out.** -/
theorem tableFreeKeys_ends {buf : Addr} {copies : List (Addr × Block)}
    (h : m.owned = {(buf, .pointers (copySlots copies ++ [some none]))} + (copyCells copies + rest)) :
    Prog.Ends (tableFreeKeys (some buf)) m fun _ m' => m'.owned = rest := by
  have hbuf : (buf, Object.pointers (copySlots copies ++ [some none])) ∈ m.owned := by
    rw [h]
    simp
  have hown : m.owned = copyCells copies +
      ({(buf, .pointers (copySlots copies ++ [some none]))} + rest) := by
    rw [h]
    ac_rfl
  refine (returns_pointers hbuf).ends ((freeKeysLoop_ends hown).bind fun _ m₁ h₁ => ?_)
  exact (Prog.ends_free h₁).mono fun _ _ h => h.2

end Specs
end RemoteTable.Pointers
