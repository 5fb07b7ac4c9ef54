import RemoteTable.Cells
import RemoteTable.KeyListing

/-! # Rendering stays inside its buffers

`list_to_string`, `strapp` and `table_to_string` once more, on cells that hold nothing until
they are written.  Keys and values are bytes as before; what is watched here is the memory
that the three functions allocate themselves.

Both passes over a list agree byte for byte, so the block of `n_chars+1` cells is filled from
end to end.  `strapp` measures its arguments up to their first NUL, and what it copies is
there: in the block it has just reallocated, and in the bytes of the rendering.
-/
namespace RemoteTable
open CMem

/-- The second loop of `list_to_string`, on cells. -/
def listFillCells (h : NodeHeap) : Nat → Cells → Nat → Option Addr → Exec (Cells × Nat)
  | _, buf, ptr, none => .ok (buf, ptr)
  | 0, _, _, some _ => .error .diverges
  | fuel + 1, buf, ptr, some a => do
    let node ← h.load a
    let nChars ← strlen node.val.key
    let key ← slice node.val.key 0 nChars
    let buf ← Cells.store buf ptr key
    let ptr := ptr + nChars
    let buf ← Cells.store buf ptr [45]
    let ptr := ptr + 1
    let buf ← Cells.store buf ptr [62]
    let ptr := ptr + 1
    let value ← deref node.val.value
    let src ← deref value.data
    let bytes ← slice src 0 value.datasize
    let buf ← Cells.store buf ptr bytes
    let ptr := ptr + value.datasize.toNat
    let buf ← Cells.store buf ptr [32]
    listFillCells h fuel buf (ptr + 1) node.next

/-- `list_to_string`, on cells. -/
def listToStringCells (h : NodeHeap) (list : ListT) : Exec Cells :=
  match list.head with
  | none => do
    let x ← deref (Cells.malloc 1)
    Cells.store x 0 [0]
  | some a => do
    let nChars ← listCharsLoop h h.size 0 (some a)
    let buf ← deref (Cells.malloc (nChars + 1))
    let (buf, ptr) ← listFillCells h h.size buf 0 (some a)
    let buf ← Cells.store buf (ptr - 1) [10]
    Cells.store buf ptr [0]

/-- `strapp`, on cells. -/
def strappCells (str app : Cells) : Exec Cells := do
  let n ← Cells.strlen str
  let m ← Cells.strlen app
  let str ← deref (Cells.realloc str (n + m + 1))
  let n ← Cells.strlen str
  let src ← Cells.slice app 0 (m + 1)
  Cells.store str n src

/-- The loop of `table_to_string`, on cells. -/
def tableToStringLoopCells (t : TableT) : Nat → Nat → Cells → Exec Cells
  | 0, _, str => .ok str
  | todo + 1, i, str => do
    let list ← t.listAt i
    let temp ← listToStringCells t.heap list
    let str ← strappCells str temp
    tableToStringLoopCells t todo (i + 1) str

/-- `table_to_string`, on cells. -/
def tableToStringCells (t : TableT) : Exec Cells := do
  let list ← t.listAt 0
  let str ← listToStringCells t.heap list
  tableToStringLoopCells t (t.n.toNat - 1) 1 str

/-! ## What is to hold -/

/-- **The block is filled**: `list_to_string` makes no access outside of the `n_chars+1` bytes
it allocates, and leaves a byte in each of them. -/
def ListFilled (h : NodeHeap) (list : ListT) : Prop :=
  ∃ (nChars : Int) (b : Block), listCharsLoop h h.size 0 list.head = .ok nChars ∧
    listToStringCells h list = .ok (b.map some) ∧ (b.length : Int) = nChars + 1

/-- Every call of `strapp` from here on reads written bytes, writes inside the block it has
reallocated, and leaves a string in it. -/
def AppendsFilled (t : TableT) : Nat → Nat → Cells → Prop
  | 0, _, _ => True
  | todo + 1, i, str => ∃ list temp str', t.listAt i = .ok list ∧
      listToStringCells t.heap list = .ok temp ∧ strappCells str temp = .ok str' ∧
      Defined (Cells.strlen str') ∧ AppendsFilled t todo (i + 1) str'

/-- **The table is rendered inside its buffers**: the first list is and every append, and a
string of written bytes is returned. -/
def TableFilled (t : TableT) : Prop :=
  ∃ list str out, t.listAt 0 = .ok list ∧ listToStringCells t.heap list = .ok str ∧
    AppendsFilled t (t.n.toNat - 1) 1 str ∧ tableToStringCells t = .ok (out.map some) ∧
    Terminated out

/-! ## A list -/

section List
variable {h : NodeHeap} {l : Nodes}

/-- **The second loop fills what the first one has measured.** -/
theorem listFillCells_eq (hval : NodesValid l) {fuel : Nat} (hfuel : l.length ≤ fuel)
    {iter : Option Addr} (hc : Chain h iter l) (done : List UInt8) (room : Nat)
    (hroom : (renderNodes l).length ≤ room) :
    listFillCells h fuel (Cells.filled done room) done.length iter =
      .ok (Cells.filled (done ++ renderNodes l) (room - (renderNodes l).length),
        (done ++ renderNodes l).length) := by
  induction l generalizing fuel iter done room with
  | nil =>
    obtain rfl : iter = none := hc
    cases fuel <;> simp [listFillCells]
  | cons x l ih =>
    obtain ⟨a, e⟩ := x
    obtain ⟨rfl, nx, hl, htl⟩ := hc
    obtain ⟨hx, hrest⟩ : e.Valid ∧ NodesValid l := NodesValid.cons.mp hval
    obtain ⟨d, src, hlen, hkey, hv, hsrc, hslice, hbytes⟩ := hx.parts
    cases fuel with
    | zero => simp at hfuel
    | succ fuel =>
      simp only [renderNodes_cons, renderEntry, List.length_append, List.length_singleton] at hroom
      -- five writes, each of them at the border of what is written
      have hs₁ := Cells.store_filled done e.keyStr room (by omega)
      have hs₂ := Cells.store_filled (done ++ e.keyStr) [45]
        (room - e.keyStr.length) (by simp; omega)
      have hs₃ := Cells.store_filled (done ++ e.keyStr ++ [45]) [62]
        (room - e.keyStr.length - 1) (by simp; omega)
      have hs₄ := Cells.store_filled (done ++ e.keyStr ++ [45] ++ [62]) e.bytes
        (room - e.keyStr.length - 1 - 1) (by omega)
      have hs₅ := Cells.store_filled (done ++ e.keyStr ++ [45] ++ [62] ++ e.bytes) [32]
        (room - e.keyStr.length - 1 - 1 - e.bytes.length) (by simp; omega)
      have hrun := ih hrest (by simpa using hfuel) htl
        (done ++ e.keyStr ++ [45] ++ [62] ++ e.bytes ++ [32])
        (room - e.keyStr.length - 1 - 1 - e.bytes.length - 1) (by omega)
      have hsize : d.datasize.toNat = e.bytes.length := by omega
      simp only [List.length_append, List.length_singleton] at hs₂ hs₃ hs₄ hs₅ hrun
      simp only [listFillCells, hl, hlen, hkey, hs₁, hs₂, hs₃, hv, hsrc, hslice, hs₄, hsize, hs₅,
        hrun, ok_bind, deref_some]
      have hdone : done ++ renderNodes ((a, e) :: l) =
          done ++ e.keyStr ++ [45] ++ [62] ++ e.bytes ++ [32] ++ renderNodes l := by
        simp [renderEntry]
      have hleft : room - (renderNodes ((a, e) :: l)).length =
          room - e.keyStr.length - 1 - 1 - e.bytes.length - 1 - (renderNodes l).length := by
        simp [renderEntry]
        omega
      rw [hdone, hleft]
      simp only [List.length_append, List.length_singleton]

/-- **`list_to_string` writes every byte of its block.** -/
theorem listToStringCells_eq {list : ListT} (hval : NodesValid l) (hc : Chain h list.head l) :
    listToStringCells h list = .ok ((printed l).map some) := by
  cases l with
  | nil =>
    have hnil : list.head = none := hc
    rw [listToStringCells, hnil]
    rfl
  | cons x l =>
    have hfuel := hc.length_le
    have hhead : list.head = some x.1 := hc.1
    have hchars := listCharsLoop_eq hval hfuel hc 0
    rw [hhead] at hc hchars
    set out := renderNodes (x :: l) with hout
    have hne : out ≠ [] := by simp [hout, renderEntry]
    have hmalloc := Cells.malloc_filled (show (0 : Int) ≤ (out.length : Int) + 1 by omega)
    have hfill := listFillCells_eq hval hfuel hc [] ((out.length : Int) + 1).toNat
      (show out.length ≤ _ by omega)
    have hroom : ((out.length : Int) + 1).toNat - out.length = 1 := by omega
    rw [← hout, hroom, List.nil_append, List.length_nil] at hfill
    -- the last byte of the rendering, a space, gives way to the newline
    have hlast : Cells.store (Cells.filled out 1) (out.length - 1) [10] =
        .ok ((out.dropLast ++ [10]).map some ++ [none]) := by
      have hsplit : Cells.filled out 1 =
          out.dropLast.map some ++ [some (out.getLast hne)] ++ [none] := by
        conv_lhs => rw [← List.dropLast_append_getLast hne]
        simp [Cells.filled]
      have hst := Cells.store_append (out.dropLast.map some) [some (out.getLast hne)] [none] [10] rfl
      rw [List.length_map, List.length_dropLast] at hst
      rw [hsplit, hst]
      simp
    have hnul : Cells.store ((out.dropLast ++ [10]).map some ++ [none]) out.length [0] =
        .ok ((out.dropLast ++ [10, 0]).map some) := by
      have hborder : ((out.dropLast ++ [(10 : UInt8)]).map some).length = out.length := by
        have := List.length_pos_iff.mpr hne
        simp
        omega
      have hst := Cells.store_append ((out.dropLast ++ [10]).map some) [none] [] [0] rfl
      rw [hborder, List.append_nil, List.append_nil] at hst
      rw [hst]
      simp
    rw [listToStringCells, hhead]
    simp only [hchars, ok_bind, Int.zero_add, hmalloc, deref_some, hfill, hlast, hnul]
    simp [printed, ← hout]

theorem listFilled {list : ListT} (hval : NodesValid l) (hc : Chain h list.head l) :
    ListFilled h list := by
  refine ⟨(renderNodes l).length, printed l, ?_, listToStringCells_eq hval hc, ?_⟩
  · rw [listCharsLoop_eq hval hc.length_le hc, Int.zero_add]
  · cases l with
    | nil => rfl
    | cons x l =>
      have hne : renderNodes (x :: l) ≠ [] := by simp [renderEntry]
      have := List.length_pos_iff.mpr hne
      rw [printed, if_neg (List.cons_ne_nil x l), List.length_append, List.length_dropLast]
      simp only [List.length_cons, List.length_nil]
      omega

end List

/-! ## The table -/

/-- **`strapp` copies what has been written to where there is room.** -/
theorem strappCells_eq {str app : Block} (hs : Terminated str) (ha : Terminated app) :
    strappCells (str.map some) (app.map some) = .ok ((cstr str ++ cstr app ++ [0]).map some) := by
  obtain ⟨rest, hrest⟩ := hs.split
  obtain ⟨tail, htail⟩ := ha.split
  have hstr : str.map some = (cstr str ++ [0]).map some ++ rest.map some := by
    conv_lhs => rw [hrest]
    simp
  have happ : app.map some = (cstr app ++ [0]).map some ++ tail.map some := by
    conv_lhs => rw [htail]
    simp
  obtain ⟨free, hgrown, hfree⟩ := Cells.realloc_append (cstr str ++ [0]) (rest.map some)
    (n := (cstr app).length)
  have hsize : (((cstr str ++ [0]).length + (cstr app).length : Nat) : Int) =
      ((cstr str).length : Int) + (cstr app).length + 1 := by
    simp
    omega
  rw [← hstr, hsize] at hgrown
  have hcells : (cstr str ++ [0]).map some ++ free = (cstr str).map some ++ some 0 :: free := by simp
  have hslice := Cells.slice_append (cstr app ++ [0]) (tail.map some)
  rw [← happ, List.length_append, List.length_singleton] at hslice
  have hst := Cells.store_append ((cstr str).map some) (some 0 :: free) [] (cstr app ++ [0])
    (by simp [hfree])
  rw [List.length_map, List.append_nil, List.append_nil] at hst
  rw [strappCells, Cells.strlen_map hs, ok_bind, Cells.strlen_map ha, ok_bind, hgrown, deref_some,
    ok_bind, hcells, Cells.strlen_append_nul (cstr_no_nul str), ok_bind]
  push_cast at hslice
  rw [hslice, ok_bind, hst]
  simp

section Table
variable {t : TableT} {buckets : Buckets}

/-- The appends of `table_to_string`, from any string on. -/
theorem appendsFilled (hs : Shape t buckets) (hv : EntriesValid buckets) (todo i : Nat)
    (hi : i + todo = buckets.length) {str : Block} (hstr : Terminated str) :
    AppendsFilled t todo i (str.map some) := by
  induction todo generalizing i str with
  | zero => exact trivial
  | succ todo ih =>
    obtain ⟨list, b, hat, -, hb, hc, -⟩ := hs.listAt (show i < buckets.length by omega)
    have hlist := listToStringCells_eq (hv.nodes (List.mem_of_getElem? hb)) hc
    have hterm : Terminated (cstr str ++ cstr (printed b) ++ [0]) := terminated_append_nul _ _
    exact ⟨list, _, _, hat, hlist, strappCells_eq hstr (printed_terminated b),
      ⟨_, Cells.strlen_map hterm⟩, ih (i + 1) (by omega) hterm⟩

/-- **On cells the loop does what it does on bytes.** -/
theorem tableToStringLoopCells_eq (junk : Nat → Nat → UInt8) (hs : Shape t buckets)
    (hv : EntriesValid buckets) (todo i : Nat) (hi : i + todo = buckets.length) {str : Block}
    (hstr : Terminated str) :
    tableToStringLoopCells t todo i (str.map some) =
      (tableToStringLoop junk t todo i str).map (List.map some) := by
  induction todo generalizing i str with
  | zero => rfl
  | succ todo ih =>
    obtain ⟨list, b, hat, -, hb, hc, -⟩ := hs.listAt (show i < buckets.length by omega)
    have hbv := hv.nodes (List.mem_of_getElem? hb)
    have hterm := printed_terminated b
    simp only [tableToStringLoopCells, tableToStringLoop, hat, listToStringCells_eq hbv hc,
      listToString_eq _ hbv hc, strappCells_eq hstr hterm, strapp_eq _ hstr hterm, ok_bind]
    exact ih (i + 1) (by omega) (terminated_append_nul _ _)

/-- **`table_to_string` on cells** returns the block that it returns on bytes. -/
theorem tableToStringCells_eq (hs : Shape t buckets) (hv : EntriesValid buckets) (hn : 1 ≤ t.n) :
    tableToStringCells t = .ok ((tableString buckets).map some) := by
  have hlen := hs.n_eq
  obtain ⟨list, b, hat, -, hb, hc, -⟩ := hs.listAt (show 0 < buckets.length by omega)
  have hbv := hv.nodes (List.mem_of_getElem? hb)
  have hbytes := tableToString_eq (fun _ _ => 0) hs hv hn
  rw [tableToString, show t.listAt 0 = _ from hat, ok_bind, listToString_eq _ hbv hc, ok_bind]
    at hbytes
  rw [tableToStringCells, show t.listAt 0 = _ from hat, ok_bind, listToStringCells_eq hbv hc,
    ok_bind, tableToStringLoopCells_eq (fun _ _ => 0) hs hv _ 1 (by omega) (printed_terminated b),
    hbytes]
  rfl

theorem tableFilled (hs : Shape t buckets) (hv : EntriesValid buckets) (hn : 1 ≤ t.n) :
    TableFilled t := by
  have hlen := hs.n_eq
  obtain ⟨list, b, hat, -, hb, hc, -⟩ := hs.listAt (show 0 < buckets.length by omega)
  exact ⟨list, _, tableString buckets, hat,
    listToStringCells_eq (hv.nodes (List.mem_of_getElem? hb)) hc,
    appendsFilled hs hv (t.n.toNat - 1) 1 (by omega) (printed_terminated b),
    tableToStringCells_eq hs hv hn, tableString_terminated buckets⟩

/-- **Rendering never overruns its buffers**, for any list and any table of valid entries. -/
theorem rendering_in_bounds (h : NodeHeap) (list : ListT) (l : Nodes) (hc : Chain h list.head l)
    (hval : NodesValid l) (t : TableT) (buckets : Buckets) (hs : Shape t buckets)
    (hv : EntriesValid buckets) (hn : 1 ≤ t.n) : ListFilled h list ∧ TableFilled t :=
  ⟨listFilled hval hc, tableFilled hs hv hn⟩

end Table

/-- Two lists of one entry each; the data of the first one start with a NUL. -/
def twoLists : TableT where
  n := 2
  listsPtr := [⟨some 0, some 0⟩, ⟨some 1, some 1⟩]
  heap := ⟨[some ⟨⟨[97, 0], some (.ofBytes [0, 49])⟩, none⟩,
    some ⟨⟨[98, 0], some (.ofBytes [50])⟩, none⟩]⟩

/-- Their nodes. -/
def twoBuckets : Buckets :=
  [[(0, ⟨[97, 0], some (.ofBytes [0, 49])⟩)], [(1, ⟨[98, 0], some (.ofBytes [50])⟩)]]

/-- The theorem at that table and its first list. -/
theorem rendering_in_bounds_twoLists :
    ListFilled twoLists.heap ⟨some 0, some 0⟩ ∧ TableFilled twoLists := by
  have hfirst : Chain twoLists.heap (some 0) [(0, ⟨[97, 0], some (.ofBytes [0, 49])⟩)] :=
    ⟨rfl, none, rfl, rfl⟩
  have hsecond : Chain twoLists.heap (some 1) [(1, ⟨[98, 0], some (.ofBytes [50])⟩)] :=
    ⟨rfl, none, rfl, rfl⟩
  have hv : EntriesValid twoBuckets := by
    intro e he
    rcases List.mem_cons.mp he with rfl | he
    · exact ⟨by decide, _, rfl, DataT.valid_ofBytes (by decide) (by decide)⟩
    · obtain rfl := List.mem_singleton.mp he
      exact ⟨by decide, _, rfl, DataT.valid_ofBytes (by decide) (by decide)⟩
  have hs : Shape twoLists twoBuckets := by
    refine ⟨rfl, rfl, fun i list b hlist hb => ?_, fun b hb x hx => (hv.nodes hb x hx).key⟩
    rcases i with _ | _ | i
    · obtain rfl := Option.some.inj hlist
      obtain rfl := Option.some.inj hb
      exact hfirst
    · obtain rfl := Option.some.inj hlist
      obtain rfl := Option.some.inj hb
      exact hsecond
    · cases hlist
  exact rendering_in_bounds twoLists.heap ⟨some 0, some 0⟩ _ hfirst
    (hv.nodes List.mem_cons_self) twoLists twoBuckets hs hv (by decide)

end RemoteTable
