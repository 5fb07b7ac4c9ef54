import RemoteTable.LinkedList

/-! # The hash table

`table.c` and `table-private.c`.  A table is an array of `n` lists whose nodes
live in one memory.  Each function follows the source: hash the key, index the
array, call the list function.  An index outside the array is a fault, and so is
`int` overflow in the hash, in the counters and in `table_size(table) + 1`.

`Shape t buckets` is the representation: `buckets` lists, array slot by array
slot, the nodes on each chain.  `Tails` says what `list_t.tail` is worth, and
`Apart` that no node is on two chains.
-/
namespace RemoteTable
open CMem

/-- `struct table_t`, with the memory of its nodes. -/
structure TableT where
  n : Int
  listsPtr : List ListT
  heap : NodeHeap
  deriving DecidableEq, Repr

/-- The loop of `get_hash_index`. -/
def getHashIndexLoop : Block → Int → Int → Exec Int
  | [], _, _ => .error .outOfBounds
  | c :: key, i, counter =>
    if c = 0 then .ok counter else do
      let counter ← intAdd counter (charVal c)
      let i ← intAdd i 1
      getHashIndexLoop key i counter

/-- `get_hash_index`. -/
def getHashIndex (key : Block) (n : Int) : Exec Int := do
  let counter ← getHashIndexLoop key 0 0
  intRem counter n

/-- `table_create`. -/
def tableCreate (n : Int) : TableT := ⟨n, List.replicate n.toNat listCreate, Heap.empty⟩

namespace TableT

/-- `table->lists_ptr[index]`. -/
def listAt (t : TableT) (index : Int) : Exec ListT :=
  if index < 0 then .error .outOfBounds
  else match t.listsPtr[index.toNat]? with
    | some list => .ok list
    | none => .error .outOfBounds

/-- The table after a list function changed the list at `index`. -/
def setList (t : TableT) (index : Int) (heap : NodeHeap) (list : ListT) : TableT :=
  { t with listsPtr := t.listsPtr.set index.toNat list, heap := heap }

end TableT

/-- `table_put`, with `table` not `NULL`. -/
def tablePut (junk : Nat → UInt8) (t : TableT) (key : Block) (value : Option DataT) :
    Exec (Int × TableT) := do
  let index ← getHashIndex key t.n
  let list ← t.listAt index
  match ← listGet t.heap list key with
  | none =>
    let copy ← strdup key
    let dup ← dataDup junk value
    let (_, heap, list) ← listAdd t.heap list (entryCreate copy dup)
    return (0, t.setList index heap list)
  | some entry =>
    -- data_destroy(entry->value): the old value is gone before the new one is known
    let node ← t.heap.load entry
    let dup ← dataDup junk value
    let heap ← t.heap.store entry { node with val := { node.val with value := dup } }
    return (0, { t with heap := heap })

/-- `table_get`. -/
def tableGet (junk : Nat → UInt8) (t : TableT) (key : Block) : Exec (Option DataT) := do
  let index ← getHashIndex key t.n
  let list ← t.listAt index
  match ← listGet t.heap list key with
  | none => return none
  | some entry =>
    let node ← t.heap.load entry
    dataDup junk node.val.value

/-- `table_del`. -/
def tableDel (t : TableT) (key : Block) : Exec (Int × TableT) := do
  let index ← getHashIndex key t.n
  let list ← t.listAt index
  let (code, heap, list) ← listRemove t.heap list key
  return (code, t.setList index heap list)

/-- The loop of `table_size`: `todo` lists from index `i` on. -/
def tableSizeLoop (t : TableT) : Nat → Nat → Int → Exec Int
  | 0, _, counter => .ok counter
  | todo + 1, i, counter => do
    let list ← t.listAt i
    let size ← listSize t.heap list
    let counter ← intAdd counter size
    tableSizeLoop t todo (i + 1) counter

/-- `table_size`. -/
def tableSize (t : TableT) : Exec Int := tableSizeLoop t t.n.toNat 0 0

/-- The inner loop of `table_get_keys`. -/
def copyKeysLoop (h : NodeHeap) :
    Nat → Slots (Option Block) → Nat → Option Addr → Exec (Slots (Option Block) × Nat)
  | _, buffer, index, none => .ok (buffer, index)
  | 0, _, _, some _ => .error .diverges
  | fuel + 1, buffer, index, some a => do
    let node ← h.load a
    let copy ← strdup node.val.key
    let buffer ← setSlot buffer index (some copy)
    copyKeysLoop h fuel buffer (index + 1) node.next

/-- The outer loop of `table_get_keys`: `todo` lists from index `i` on. -/
def tableGetKeysLoop (t : TableT) :
    Nat → Nat → Slots (Option Block) → Nat → Exec (Slots (Option Block) × Nat)
  | 0, _, buffer, index => .ok (buffer, index)
  | todo + 1, i, buffer, index => do
    let list ← t.listAt i
    let (buffer, index) ← copyKeysLoop t.heap t.heap.size buffer index list.head
    tableGetKeysLoop t todo (i + 1) buffer index

/-- `table_get_keys`.  Its `index` never passes the table's size, so it stays an
`int` whenever `table_size(table) + 1` does. -/
def tableGetKeys (t : TableT) : Exec (Slots (Option Block)) := do
  let size ← tableSize t
  let slots ← intAdd size 1
  let (buffer, index) ← tableGetKeysLoop t t.n.toNat 0 (mallocSlots slots) 0
  setSlot buffer index none

/-! ## The hash -/

theorem getHashIndexLoop_terminated {key : Block} {i counter r : Int}
    (h : getHashIndexLoop key i counter = .ok r) : Terminated key := by
  induction key generalizing i counter with
  | nil => simp [getHashIndexLoop] at h
  | cons c key ih =>
    unfold getHashIndexLoop at h
    split at h
    · rename_i hc
      exact List.mem_cons.mpr (Or.inl hc.symm)
    · obtain ⟨_, -, h⟩ := bind_eq_ok.mp h
      obtain ⟨_, -, h⟩ := bind_eq_ok.mp h
      exact List.mem_cons_of_mem _ (ih h)

/-- The hash is only defined on strings. -/
theorem getHashIndex_terminated {key : Block} {n r : Int} (h : getHashIndex key n = .ok r) :
    Terminated key := by
  obtain ⟨counter, hloop, -⟩ := bind_eq_ok.mp h
  exact getHashIndexLoop_terminated hloop

theorem getHashIndexLoop_append_nul {s : List UInt8} (hs : (0 : UInt8) ∉ s) (u v : Block)
    (i counter : Int) :
    getHashIndexLoop (s ++ 0 :: u) i counter = getHashIndexLoop (s ++ 0 :: v) i counter := by
  induction s generalizing i counter with
  | nil => simp [getHashIndexLoop]
  | cons c s ih =>
    have hs' : (0 : UInt8) ∉ s := fun h0 => hs (List.mem_cons_of_mem _ h0)
    simp only [List.cons_append, getHashIndexLoop, ih hs']

/-- **The hash reads the key as a string**: blocks with the same string have the
same index. -/
theorem getHashIndex_congr {a b : Block} (ha : Terminated a) (hb : Terminated b)
    (hab : cstr a = cstr b) (n : Int) : getHashIndex a n = getHashIndex b n := by
  obtain ⟨u, hu⟩ := ha.split
  obtain ⟨v, hv⟩ := hb.split
  have h : getHashIndexLoop a 0 0 = getHashIndexLoop b 0 0 := by
    rw [hu, hv, ← hab]
    exact getHashIndexLoop_append_nul (cstr_no_nul a) u v 0 0
  unfold getHashIndex
  rw [h]

/-! ## The representation -/

/-- The nodes of each list, by array index. -/
abbrev Buckets := List Nodes

/-- **The table represents the buckets**: the array has `n` lists, each chain
ends in `NULL` after exactly its bucket's nodes, and the keys are strings. -/
structure Shape (t : TableT) (buckets : Buckets) : Prop where
  n_eq : t.n = buckets.length
  length_eq : t.listsPtr.length = buckets.length
  chain : ∀ (i : Nat) (list : ListT) (b : Nodes), t.listsPtr[i]? = some list →
    buckets[i]? = some b → Chain t.heap list.head b
  terminated : ∀ b ∈ buckets, KeysTerminated b

/-- What `tail` is worth in a list that is not empty: it points at the last node,
or at a node that has been freed. -/
def Tails (t : TableT) (buckets : Buckets) : Prop :=
  ∀ (i : Nat) (list : ListT) (b : Nodes), t.listsPtr[i]? = some list → buckets[i]? = some b →
    b ≠ [] → list.tail = lastAddr none b ∨ ∃ a, list.tail = some a ∧ t.heap.Freed a

/-- No node is on two chains. -/
def Apart (buckets : Buckets) : Prop :=
  ∀ (i j : Nat) (b c : Nodes), buckets[i]? = some b → buckets[j]? = some c → i ≠ j →
    ∀ a ∈ addrs b, a ∉ addrs c

/-- The table's entries, in bucket order and then list order. -/
def entries (buckets : Buckets) : List EntryT := buckets.flatten.map Prod.snd

namespace Shape
variable {t : TableT} {buckets : Buckets}

/-- An index the hash may yield names a list and its bucket. -/
theorem listAt (hs : Shape t buckets) {i : Nat} (hi : i < buckets.length) :
    ∃ list b, t.listAt i = .ok list ∧ t.listsPtr[i]? = some list ∧ buckets[i]? = some b ∧
      Chain t.heap list.head b ∧ KeysTerminated b := by
  have hi' : i < t.listsPtr.length := by rw [hs.length_eq]; exact hi
  have hlist := List.getElem?_eq_getElem hi'
  have hb := List.getElem?_eq_getElem hi
  refine ⟨_, _, ?_, hlist, hb, hs.chain i _ _ hlist hb, hs.terminated _ (List.getElem_mem hi)⟩
  unfold TableT.listAt
  rw [if_neg (by omega), Int.toNat_natCast, hlist]

/-- Any other index is outside the array. -/
theorem listAt_error (hs : Shape t buckets) {index : Int}
    (hi : index < 0 ∨ (buckets.length : Int) ≤ index) :
    t.listAt index = .error .outOfBounds := by
  have hlen := hs.length_eq
  unfold TableT.listAt
  split
  · rfl
  · rw [List.getElem?_eq_none (by omega)]

end Shape

/-- A table in good order: the representation, the tails, no shared node. -/
structure Rep (t : TableT) (buckets : Buckets) : Prop where
  shape : Shape t buckets
  tails : Tails t buckets
  apart : Apart buckets

theorem tableCreate_rep {n : Int} (hn : 0 ≤ n) :
    Rep (tableCreate n) (List.replicate n.toNat []) where
  shape := by
    refine ⟨?_, by simp [tableCreate], ?_, ?_⟩
    · simp [tableCreate, hn]
    · intro i list b hlist hb
      obtain rfl := List.eq_of_mem_replicate (List.mem_of_getElem? hlist)
      obtain rfl := List.eq_of_mem_replicate (List.mem_of_getElem? hb)
      rfl
    · intro b hb
      obtain rfl := List.eq_of_mem_replicate hb
      simp [KeysTerminated]
  tails := by
    intro i list b _ hb hne
    obtain rfl := List.eq_of_mem_replicate (List.mem_of_getElem? hb)
    exact absurd rfl hne
  apart := by
    intro i j b c hb _ _ a ha
    obtain rfl := List.eq_of_mem_replicate (List.mem_of_getElem? hb)
    simp at ha

/-- What stands at a place after one element was changed: the new element, at its
place, or the old one anywhere else. -/
theorem getElem?_set_cases {α : Type*} {xs : List α} {i j : Nat} {x y : α}
    (h : (xs.set i x)[j]? = some y) : (i = j ∧ x = y) ∨ (i ≠ j ∧ xs[j]? = some y) := by
  rw [List.getElem?_set] at h
  split at h
  · rename_i hij
    split at h
    · exact Or.inl ⟨hij, Option.some.inj h⟩
    · cases h
  · rename_i hij
    exact Or.inr ⟨hij, h⟩

/-- No address of a bucket is beyond the heap. -/
theorem Shape.lt_size {t : TableT} {buckets : Buckets} (hs : Shape t buckets) {i : Nat} {b : Nodes}
    (hb : buckets[i]? = some b) {a : Addr} (ha : a ∈ addrs b) : a < t.heap.size := by
  obtain ⟨_, c, -, -, hc, hchain, -⟩ := hs.listAt (List.getElem?_eq_some_iff.mp hb).1
  obtain rfl : c = b := Option.some.inj (hc.symm.trans hb)
  exact hchain.lt_size ha

/-- Buckets stay apart when one takes new addresses only. -/
theorem Apart.set {buckets : Buckets} (h : Apart buckets) {i : Nat} {b' : Nodes}
    (hnew : ∀ (j : Nat) (c : Nodes), buckets[j]? = some c → i ≠ j → ∀ a ∈ addrs b', a ∉ addrs c) :
    Apart (buckets.set i b') := by
  intro j k c d hc hd hjk a hac had
  rcases getElem?_set_cases hc with ⟨rfl, rfl⟩ | ⟨hij, hc⟩ <;>
    rcases getElem?_set_cases hd with ⟨rfl, rfl⟩ | ⟨hik, hd⟩
  · exact hjk rfl
  · exact hnew k d hd hik a hac had
  · exact hnew j c hc hij a had hac
  · exact h j k c d hc hd hjk a hac had

/-- After a change to one list and its bucket, a list and the bucket at its place are these
two, or what they were. -/
theorem TableT.setList_cases {t : TableT} {buckets : Buckets} {i j : Nat} {heap : NodeHeap}
    {list l : ListT} {b' c : Nodes} (hl : (t.setList i heap list).listsPtr[j]? = some l)
    (hc : (buckets.set i b')[j]? = some c) :
    (l = list ∧ c = b') ∨ (i ≠ j ∧ t.listsPtr[j]? = some l ∧ buckets[j]? = some c) := by
  have hlists : (t.setList i heap list).listsPtr = t.listsPtr.set i list := by
    simp [TableT.setList]
  rw [hlists] at hl
  rcases getElem?_set_cases hl with ⟨rfl, rfl⟩ | ⟨hij, hl⟩
  · rcases getElem?_set_cases hc with ⟨-, rfl⟩ | ⟨hij, -⟩
    · exact Or.inl ⟨rfl, rfl⟩
    · exact absurd rfl hij
  · rcases getElem?_set_cases hc with ⟨rfl, -⟩ | ⟨-, hc⟩
    · exact absurd rfl hij
    · exact Or.inr ⟨hij, hl, hc⟩

/-- **A change to one list keeps the table in good order**: the list function
touched nodes of its own bucket only, and the nodes now on the chain are the
bucket's or new. -/
theorem Rep.setList {t : TableT} {buckets : Buckets} (hr : Rep t buckets) {i : Nat} {b b' : Nodes}
    (hb : buckets[i]? = some b) {heap : NodeHeap} {list : ListT} {touched : List Addr}
    (hf : t.heap.Frame heap touched) (htouched : ∀ a ∈ touched, a ∈ addrs b)
    (hc : Chain heap list.head b') (hk : KeysTerminated b')
    (hown : ∀ a ∈ addrs b', a ∈ addrs b ∨ t.heap.size ≤ a)
    (htail : b' ≠ [] → list.tail = lastAddr none b' ∨ ∃ a, list.tail = some a ∧ heap.Freed a) :
    Rep (t.setList i heap list) (buckets.set i b') := by
  refine ⟨⟨?_, ?_, ?_, ?_⟩, ?_, ?_⟩
  · simpa [TableT.setList] using hr.shape.n_eq
  · simpa [TableT.setList] using hr.shape.length_eq
  · intro j l c hl hcj
    rcases TableT.setList_cases hl hcj with ⟨rfl, rfl⟩ | ⟨hij, hl, hcj⟩
    · exact hc
    · refine hf.segment (hr.shape.chain j l c hl hcj) (fun a ha hat => ?_)
      exact hr.apart i j b c hb hcj hij a (htouched a hat) ha
  · intro c hcm
    rcases List.mem_or_eq_of_mem_set hcm with h | rfl
    · exact hr.shape.terminated c h
    · exact hk
  · intro j l c hl hcj hne
    rcases TableT.setList_cases hl hcj with ⟨rfl, rfl⟩ | ⟨-, hl, hcj⟩
    · exact htail hne
    · rcases hr.tails j l c hl hcj hne with h | ⟨a, ha, hfr⟩
      · exact Or.inl h
      · exact Or.inr ⟨a, ha, hf.freed a hfr⟩
  · -- an address of the new bucket was the bucket's own, or is beyond the old heap
    refine hr.apart.set fun j c hcj hij a ha hac => ?_
    rcases hown a ha with h | h
    · exact hr.apart i j b c hb hcj hij a h hac
    · exact absurd (hr.shape.lt_size hcj hac) (Nat.not_lt.mpr h)

end RemoteTable
