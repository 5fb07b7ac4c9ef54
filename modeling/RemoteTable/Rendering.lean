import RemoteTable.TableSpec

/-! # The printed table

`list_to_string`, `strapp` and `table_to_string`.  A list is rendered in two
passes: the first adds up the lengths, the second fills a block of that length.
The lists of a table are then appended to one another as C strings.

`printed l` is the rendering of a list, and the second pass writes exactly that:
every byte of its block, and none outside it.  Appending reads each rendering up
to its first NUL, so a value that contains one is cut there.
-/
namespace RemoteTable
open CMem

/-- The first loop of `list_to_string`: the characters of the nodes from `iter` on. -/
def listCharsLoop (h : NodeHeap) : Nat → Int → Option Addr → Exec Int
  | _, nChars, none => .ok nChars
  | 0, _, some _ => .error .diverges
  | fuel + 1, nChars, some a => do
    let node ← h.load a
    let n ← strlen node.val.key
    let value ← deref node.val.value
    listCharsLoop h fuel (nChars + (n + 2 + value.datasize + 1)) node.next

/-- The second loop: copy each node, `ptr` being the next byte to write. -/
def listFillLoop (h : NodeHeap) : Nat → Block → Nat → Option Addr → Exec (Block × Nat)
  | _, buf, ptr, none => .ok (buf, ptr)
  | 0, _, _, some _ => .error .diverges
  | fuel + 1, buf, ptr, some a => do
    let node ← h.load a
    let nChars ← strlen node.val.key
    let key ← slice node.val.key 0 nChars
    let buf ← store buf ptr key
    let ptr := ptr + nChars
    let buf ← store buf ptr [45]
    let ptr := ptr + 1
    let buf ← store buf ptr [62]
    let ptr := ptr + 1
    let value ← deref node.val.value
    let src ← deref value.data
    let bytes ← slice src 0 value.datasize
    let buf ← store buf ptr bytes
    let ptr := ptr + value.datasize.toNat
    let buf ← store buf ptr [32]
    listFillLoop h fuel buf (ptr + 1) node.next

/-- `list_to_string`. -/
def listToString (junk : Nat → UInt8) (h : NodeHeap) (list : ListT) : Exec Block :=
  match list.head with
  | none => do
    let x ← deref (malloc junk 1)
    store x 0 [0]
  | some a => do
    let nChars ← listCharsLoop h h.size 0 (some a)
    let buf ← deref (malloc junk (nChars + 1))
    let (buf, ptr) ← listFillLoop h h.size buf 0 (some a)
    let buf ← store buf (ptr - 1) [10]
    store buf ptr [0]

/-- `strapp`: the block `*str` points at afterwards. -/
def strapp (junk : Nat → UInt8) (str app : Block) : Exec Block := do
  let n ← strlen str
  let m ← strlen app
  let str ← deref (realloc junk str (n + m + 1))
  let n ← strlen str
  let src ← slice app 0 (m + 1)
  store str n src

/-- The loop of `table_to_string`: `todo` lists from index `i` on.  `junk i` is what
the `i`-th allocation hands out. -/
def tableToStringLoop (junk : Nat → Nat → UInt8) (t : TableT) : Nat → Nat → Block → Exec Block
  | 0, _, str => .ok str
  | todo + 1, i, str => do
    let list ← t.listAt i
    let temp ← listToString (junk (2 * i)) t.heap list
    let str ← strapp (junk (2 * i + 1)) str temp
    tableToStringLoop junk t todo (i + 1) str

/-- `table_to_string`. -/
def tableToString (junk : Nat → Nat → UInt8) (t : TableT) : Exec Block := do
  let list ← t.listAt 0
  let str ← listToString (junk 0) t.heap list
  tableToStringLoop junk t (t.n.toNat - 1) 1 str

/-! ## Rendering a list -/

/-- The bytes of the value an entry holds. -/
def EntryT.bytes (e : EntryT) : Block := (e.value.map DataT.bytes).getD []

/-- An entry as the second loop copies it: the key, `->`, the bytes, a space. -/
def renderEntry (e : EntryT) : List UInt8 := e.keyStr ++ ([45] ++ ([62] ++ (e.bytes ++ [32])))

/-- The entries of a list, one after the other. -/
def renderNodes (l : Nodes) : List UInt8 := (l.map fun x => renderEntry x.2).flatten

/-- The block `list_to_string` returns: the last space has become a newline. -/
def printed (l : Nodes) : Block :=
  if l = [] then [0] else (renderNodes l).dropLast ++ [10, 0]

/-- Every node holds a string and a value. -/
def NodesValid (l : Nodes) : Prop := ∀ x ∈ l, x.2.Valid

@[simp] theorem renderNodes_nil : renderNodes [] = [] := rfl

@[simp] theorem renderNodes_cons (x : Addr × EntryT) (l : Nodes) :
    renderNodes (x :: l) = renderEntry x.2 ++ renderNodes l := rfl

theorem NodesValid.cons {x : Addr × EntryT} {l : Nodes} :
    NodesValid (x :: l) ↔ x.2.Valid ∧ NodesValid l := List.forall_mem_cons

/-- The pieces of an entry the two loops read. -/
theorem EntryT.Valid.parts {e : EntryT} (h : e.Valid) :
    ∃ d src, strlen e.key = .ok e.keyStr.length ∧ slice e.key 0 e.keyStr.length = .ok e.keyStr ∧
      e.value = some d ∧ d.data = some src ∧ slice src 0 d.datasize = .ok e.bytes ∧
      (e.bytes.length : Int) = d.datasize := by
  obtain ⟨d, hv, hd⟩ := h.value
  obtain ⟨src, hsrc, hslice⟩ := hd.readable.slice
  have hbytes : e.bytes = d.bytes := by simp [EntryT.bytes, hv]
  obtain ⟨rest, hrest⟩ := h.key.split
  have hkey := slice_append [] e.keyStr (0 :: rest)
  rw [List.nil_append, show e.keyStr ++ 0 :: rest = e.key from hrest.symm] at hkey
  exact ⟨d, src, h.key.strlen, hkey, hv, hsrc, by rw [hbytes]; exact hslice,
    by rw [hbytes]; exact hd.length_bytes⟩

section List
variable {h : NodeHeap} {l : Nodes}

theorem listCharsLoop_eq (hval : NodesValid l) {fuel : Nat} (hfuel : l.length ≤ fuel)
    {iter : Option Addr} (hc : Chain h iter l) (nChars : Int) :
    listCharsLoop h fuel nChars iter = .ok (nChars + (renderNodes l).length) := by
  induction l generalizing fuel iter nChars with
  | nil =>
    obtain rfl : iter = none := hc
    cases fuel <;> simp [listCharsLoop]
  | cons x l ih =>
    obtain ⟨a, e⟩ := x
    obtain ⟨rfl, nx, hl, htl⟩ := hc
    obtain ⟨hx, hrest⟩ : e.Valid ∧ NodesValid l := NodesValid.cons.mp hval
    obtain ⟨d, src, hlen, -, hv, -, -, hbytes⟩ := hx.parts
    cases fuel with
    | zero => simp at hfuel
    | succ fuel =>
      simp only [listCharsLoop, hl, hlen, hv, ok_bind, deref_some]
      rw [ih hrest (by simpa using hfuel) htl]
      simp only [renderNodes_cons, renderEntry, List.length_append, List.length_cons, List.length_nil]
      congr 1
      push_cast
      omega

/-- **The second loop writes the rendering of the nodes** where its block is still
free, and moves the border by that much. -/
theorem listFillLoop_eq (hval : NodesValid l) {fuel : Nat} (hfuel : l.length ≤ fuel)
    {iter : Option Addr} (hc : Chain h iter l) {buf : Block} {done : List UInt8} {room : Nat}
    (hbuf : Filled buf done room) (hroom : (renderNodes l).length ≤ room) :
    ∃ buf', listFillLoop h fuel buf done.length iter =
        .ok (buf', (done ++ renderNodes l).length) ∧
      Filled buf' (done ++ renderNodes l) (room - (renderNodes l).length) := by
  induction l generalizing fuel iter buf done room with
  | nil =>
    obtain rfl : iter = none := hc
    exact ⟨buf, by cases fuel <;> simp [listFillLoop], by simpa using hbuf⟩
  | cons x l ih =>
    obtain ⟨a, e⟩ := x
    obtain ⟨rfl, nx, hl, htl⟩ := hc
    obtain ⟨hx, hrest⟩ : e.Valid ∧ NodesValid l := NodesValid.cons.mp hval
    obtain ⟨d, src, hlen, hkey, hv, hsrc, hslice, hbytes⟩ := hx.parts
    cases fuel with
    | zero => simp at hfuel
    | succ fuel =>
      simp only [renderNodes_cons, renderEntry, List.length_append, List.length_singleton] at hroom
      obtain ⟨b₁, hs₁, hb₁⟩ := hbuf.store e.keyStr (by omega)
      obtain ⟨b₂, hs₂, hb₂⟩ := hb₁.store [45] (by simp; omega)
      obtain ⟨b₃, hs₃, hb₃⟩ := hb₂.store [62] (by simp; omega)
      obtain ⟨b₄, hs₄, hb₄⟩ := hb₃.store e.bytes (by simp; omega)
      obtain ⟨b₅, hs₅, hb₅⟩ := hb₄.store [32] (by simp; omega)
      obtain ⟨buf', hrun, hb'⟩ := ih hrest (by simpa using hfuel) htl hb₅ (by simp; omega)
      refine ⟨buf', ?_, ?_⟩
      · have hsize : d.datasize.toNat = e.bytes.length := by omega
        simp only [List.length_append, List.length_singleton] at hs₂ hs₃ hs₄ hs₅ hrun
        simp only [listFillLoop, hl, hlen, hkey, hs₁, hs₂, hs₃, hv, hsrc, hslice, hs₄, hsize, hs₅,
          hrun, ok_bind, deref_some]
        simp [renderEntry]
        omega
      · have hdone : done ++ renderNodes ((a, e) :: l) =
            done ++ e.keyStr ++ [45] ++ [62] ++ e.bytes ++ [32] ++ renderNodes l := by
          simp [renderEntry]
        have hleft : room - (renderNodes ((a, e) :: l)).length =
            room - e.keyStr.length - [(45 : UInt8)].length - [(62 : UInt8)].length -
              e.bytes.length - [(32 : UInt8)].length - (renderNodes l).length := by
          simp [renderEntry]
          omega
        rw [hdone, hleft]
        exact hb'

/-- **`list_to_string` writes the rendering and nothing else**: the result does not
depend on what `malloc` handed out. -/
theorem listToString_eq (junk : Nat → UInt8) {list : ListT} (hval : NodesValid l)
    (hc : Chain h list.head l) : listToString junk h list = .ok (printed l) := by
  cases l with
  | nil =>
    have hnil : list.head = none := hc
    obtain ⟨x, hx, hs⟩ := malloc_store junk (show (([0] : Block).length : Int) = 1 from rfl)
    rw [listToString, hnil]
    simp only [hx, deref_some, ok_bind, hs]
    rfl
  | cons x l =>
    have hfuel := hc.length_le
    have hhead : list.head = some x.1 := hc.1
    have hchars := listCharsLoop_eq hval hfuel hc 0
    rw [hhead] at hc hchars
    set out := renderNodes (x :: l) with hout
    have hne : out ≠ [] := by simp [hout, renderEntry]
    obtain ⟨buf, hbuf, hfree⟩ := filled_malloc junk (show (0 : Int) ≤ out.length + 1 by omega)
    obtain ⟨buf', hfill, hfull⟩ := listFillLoop_eq hval hfuel hc hfree
      (show out.length ≤ ((out.length : Int) + 1).toNat by omega)
    rw [← hout] at hfill hfull
    obtain ⟨free, rfl, hlen⟩ := hfull
    obtain ⟨c, rfl⟩ := List.length_eq_one_iff.mp (show free.length = 1 by omega)
    -- the last byte of the rendering, a space, gives way to the newline
    have hsplit := List.dropLast_append_getLast hne
    have hlast := store_append out.dropLast [out.getLast hne] [c] [10] rfl
    rw [hsplit, List.length_dropLast] at hlast
    have hnul := store_append (out.dropLast ++ [10]) [c] [] [0] rfl
    have hborder : (out.dropLast ++ [(10 : UInt8)]).length = out.length := by
      have := List.length_pos_iff.mpr hne
      simp
      omega
    rw [List.append_nil, List.append_nil, hborder] at hnul
    simp only [List.nil_append, List.length_nil] at hfill hlast
    rw [listToString, hhead]
    simp only [hchars, ok_bind, Int.zero_add, hbuf, deref_some, hfill, hlast, hnul]
    simp [printed, ← hout]

end List

/-! ## Appending the lists -/

theorem printed_terminated (l : Nodes) : Terminated (printed l) := by
  unfold printed Terminated
  split <;> simp

/-- **`strapp` appends two C strings**: the block it leaves is their concatenation
and one NUL, whatever stood behind the NULs of its arguments. -/
theorem strapp_eq (junk : Nat → UInt8) {str app : Block} (hs : Terminated str) (ha : Terminated app) :
    strapp junk str app = .ok (cstr str ++ cstr app ++ [0]) := by
  obtain ⟨rest, hrest⟩ := hs.split
  have hcopy := ha.strdup
  rw [strdup, ha.strlen, ok_bind] at hcopy
  set n := (cstr str).length with hn
  set m := (cstr app).length with hm
  have hsize : ((n : Int) + m + 1).toNat = n + 1 + m := by omega
  have hlen : str.length = n + 1 + rest.length := by
    rw [hrest, List.length_append, List.length_cons]
    omega
  -- the reallocated block starts with the string and its NUL, and has room for the rest
  obtain ⟨free, hgrown, hfree⟩ : ∃ free, realloc junk str ((n : Int) + m + 1) =
      some (cstr str ++ [0] ++ free) ∧ free.length = m := by
    refine ⟨rest.take m ++ ((List.range (n + 1 + m)).map junk).drop str.length, ?_, ?_⟩
    · have htake : str.take (n + 1 + m) = cstr str ++ [0] ++ rest.take m := by
        have h : ((cstr str ++ [0]) ++ rest).take ((cstr str ++ [0]).length + m) = _ :=
          List.take_length_add_append m
        rw [List.append_assoc, List.singleton_append, ← hrest] at h
        simpa [← hn] using h
      rw [realloc, malloc_of_nonneg junk (by omega), Option.map_some, hsize, htake, List.append_assoc]
    · simp
      omega
  have hterm : strlen (cstr str ++ [0] ++ free) = .ok n := by
    rw [List.append_assoc]
    exact strlen_append_nul (cstr_no_nul str) free
  have hstore := store_append (cstr str) ([0] ++ free) [] (cstr app ++ [0]) (by simp [hfree, hm])
  rw [List.append_nil, List.append_nil, ← List.append_assoc] at hstore
  rw [strapp, hs.strlen, ok_bind, ha.strlen, ok_bind, hgrown, deref_some, ok_bind, hterm, ok_bind,
    hcopy, ok_bind, hstore, List.append_assoc]

section Table
variable {t : TableT} {buckets : Buckets}

/-- The string `table_to_string` returns: each list up to its first NUL. -/
def printedTable (buckets : Buckets) : List UInt8 := (buckets.map fun b => cstr (printed b)).flatten

/-- Every entry of the table is a string and a value. -/
def EntriesValid (buckets : Buckets) : Prop := ∀ e ∈ entries buckets, e.Valid

theorem EntriesValid.nodes (hv : EntriesValid buckets) {b : Nodes} (hb : b ∈ buckets) :
    NodesValid b := fun x hx =>
  hv x.2 (List.mem_map.mpr ⟨x, List.mem_flatten.mpr ⟨b, hb, hx⟩, rfl⟩)

theorem printedTable_no_nul (buckets : Buckets) : (0 : UInt8) ∉ printedTable buckets := by
  intro h
  obtain ⟨s, hs, h0⟩ := List.mem_flatten.mp h
  obtain ⟨b, -, rfl⟩ := List.mem_map.mp hs
  exact cstr_no_nul _ h0

/-- The loop of `table_to_string`, once it has appended something. -/
theorem tableToStringLoop_eq (junk : Nat → Nat → UInt8) (hs : Shape t buckets)
    (hv : EntriesValid buckets) {todo i : Nat} (hi : i + todo = buckets.length) {str : Block}
    (hstr : Terminated str) :
    tableToStringLoop junk t todo i str =
      .ok (if todo = 0 then str else cstr str ++ printedTable (buckets.drop i) ++ [0]) := by
  induction todo generalizing i str with
  | zero => rfl
  | succ todo ih =>
    have hlt : i < buckets.length := by omega
    obtain ⟨list, b, hat, -, hb, hc, -⟩ := hs.listAt hlt
    have hbv := hv.nodes (List.mem_of_getElem? hb)
    have hno : (0 : UInt8) ∉ cstr str ++ cstr (printed b) := by
      simp [cstr_no_nul]
    simp only [tableToStringLoop, hat, listToString_eq _ hbv hc,
      strapp_eq _ hstr (printed_terminated b), ok_bind]
    rw [ih (by omega) (terminated_append_nul _ _), cstr_append_nul hno]
    cases todo with
    | zero =>
      rw [drop_bucket hb, List.drop_eq_nil_of_le (by omega)]
      simp [printedTable]
    | succ todo =>
      rw [drop_bucket hb]
      simp [printedTable]

/-- The block `table_to_string` returns. -/
def tableString : Buckets → Block
  | [b] => printed b
  | buckets => printedTable buckets ++ [0]

/-- **`table_to_string` appends the renderings of all lists**: the result does not
depend on what any allocation handed out. -/
theorem tableToString_eq (junk : Nat → Nat → UInt8) (hs : Shape t buckets)
    (hv : EntriesValid buckets) (hn : 1 ≤ t.n) :
    tableToString junk t = .ok (tableString buckets) := by
  have hlen := hs.n_eq
  obtain ⟨list, b, hat, -, hb, hc, -⟩ := hs.listAt (show 0 < buckets.length by omega)
  have hbv := hv.nodes (List.mem_of_getElem? hb)
  have htodo : t.n.toNat - 1 = buckets.length - 1 := by omega
  rw [tableToString, show t.listAt 0 = _ from hat, ok_bind, listToString_eq _ hbv hc, ok_bind, htodo,
    tableToStringLoop_eq junk hs hv (by omega) (printed_terminated b)]
  match buckets, hb with
  | [b'], hb =>
    obtain rfl : b' = b := Option.some.inj hb
    rfl
  | b' :: c :: bs, hb =>
    obtain rfl : b' = b := Option.some.inj hb
    simp [tableString, printedTable]

/-- Without a list there is nothing to print from. -/
theorem tableToString_empty (junk : Nat → Nat → UInt8) (hs : Shape t buckets) (hn : t.n < 1) :
    tableToString junk t = .error .outOfBounds := by
  have hlen := hs.n_eq
  rw [tableToString, hs.listAt_error (Or.inr (by omega)), error_bind]

theorem tableString_terminated (buckets : Buckets) : Terminated (tableString buckets) := by
  unfold tableString
  split
  · exact printed_terminated _
  · exact terminated_append_nul _ _

/-- Read as a C string, it is the renderings one after the other. -/
theorem cstr_tableString (buckets : Buckets) : cstr (tableString buckets) = printedTable buckets := by
  unfold tableString
  split
  · simp [printedTable]
  · exact cstr_append_nul (printedTable_no_nul _) []

end Table

end RemoteTable
