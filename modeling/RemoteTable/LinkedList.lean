import Mathlib.Tactic.Ring
import RemoteTable.Entry
import RemoteTable.Heap

/-! # The linked list

`list.c` and `list-private.c`.  A node is a heap cell that holds its entry; a
`list_t` is its `head` and `tail` pointers.  `list_create` leaves `tail`
uninitialised and no function reads it while `head` is `NULL`; the null pointer
stands for whatever it holds.

`list_remove` moves `head` but never `tail`: after the last of several nodes is
removed, `tail` still points at the freed cell, and the next `list_add` of a new
key writes through it.  The specification of `list_add` for a new key therefore
has three cases: an empty list, a `tail` that is the last node, a `tail` that
has been freed.
-/
namespace RemoteTable
open CMem

/-- `struct node_t`: the heap cell's value is `entry`. -/
abbrev NodeT := Cell EntryT

/-- The memory the nodes live in. -/
abbrev NodeHeap := Heap EntryT

/-- `struct list_t`. -/
structure ListT where
  head : Option Addr
  tail : Option Addr
  deriving DecidableEq, Repr

/-- The nodes of a list, in order, by address and entry. -/
abbrev Nodes := List (Addr × EntryT)

/-- `list_create`. -/
def listCreate : ListT := ⟨none, none⟩

/-- The loop of `list_get_node`. -/
def listGetNodeLoop (h : NodeHeap) (key : Block) : Nat → Option Addr → Exec (Option Addr)
  | _, none => .ok none
  | 0, some _ => .error .diverges
  | fuel + 1, some iter => do
    let node ← h.load iter
    let c ← strcmp node.val.key key
    if c = 0 then return some iter
    else listGetNodeLoop h key fuel node.next

/-- `list_get_node`. -/
def listGetNode (h : NodeHeap) (list : ListT) (key : Block) : Exec (Option Addr) :=
  listGetNodeLoop h key h.size list.head

/-- `list_get`: the entry is referred to by the node that holds it. -/
def listGet (h : NodeHeap) (list : ListT) (key : Block) : Exec (Option Addr) :=
  listGetNode h list key

/-- `list_add`, with neither argument `NULL`. -/
def listAdd (h : NodeHeap) (list : ListT) (entry : EntryT) : Exec (Int × NodeHeap × ListT) := do
  match ← listGetNode h list entry.key with
  | none =>
    let (new, h) := h.alloc ⟨entry, none⟩
    match list.head with
    | none => return (0, h, ⟨some new, some new⟩)
    | some _ =>
      let tail ← deref list.tail
      let node ← h.load tail
      let h ← h.store tail { node with next := some new }
      return (0, h, { list with tail := some new })
  | some iter =>
    let node ← h.load iter
    let h ← h.store iter { node with val := entry }
    return (0, h, list)

/-- The loop of `list_remove`. -/
def listRemoveLoop (key : Block) (h : NodeHeap) (list : ListT) :
    Nat → Option Addr → Option Addr → Exec (Int × NodeHeap × ListT)
  | _, _, none => .ok (-1, h, list)
  | 0, _, some _ => .error .diverges
  | fuel + 1, prev, some iter => do
    let node ← h.load iter
    let c ← strcmp key node.val.key
    if c = 0 then
      match prev with
      | some p =>
        let before ← h.load p
        let h ← h.store p { before with next := node.next }
        let h ← h.free iter
        return (0, h, list)
      | none =>
        let h ← h.free iter
        return (0, h, { list with head := node.next })
    else listRemoveLoop key h list fuel (some iter) node.next

/-- `list_remove`. -/
def listRemove (h : NodeHeap) (list : ListT) (key : Block) : Exec (Int × NodeHeap × ListT) :=
  listRemoveLoop key h list h.size none list.head

/-- The loop of `list_size`. -/
def listSizeLoop (h : NodeHeap) : Nat → Int → Option Addr → Exec Int
  | _, counter, none => .ok counter
  | 0, _, some _ => .error .diverges
  | fuel + 1, counter, some iter => do
    let counter ← intAdd counter 1
    let node ← h.load iter
    listSizeLoop h fuel counter node.next

/-- `list_size`, with `list` not `NULL`. -/
def listSize (h : NodeHeap) (list : ListT) : Exec Int := listSizeLoop h h.size 0 list.head

/-- The loop of `list_get_keys`: `todo` more nodes, from index `i` on. -/
def listGetKeysLoop (h : NodeHeap) :
    Nat → Nat → Slots (Option Block) → Option Addr → Exec (Slots (Option Block))
  | 0, _, buffer, _ => .ok buffer
  | todo + 1, i, buffer, node => do
    let a ← deref node
    let node ← h.load a
    let copy ← strdup node.val.key
    let buffer ← setSlot buffer i (some copy)
    listGetKeysLoop h todo (i + 1) buffer node.next

/-- `list_get_keys`. -/
def listGetKeys (h : NodeHeap) (list : ListT) : Exec (Slots (Option Block)) := do
  let size ← listSize h list
  let slots ← intAdd size 1
  let buffer ← listGetKeysLoop h size.toNat 0 (mallocSlots slots) list.head
  setSlot buffer size.toNat none

/-! ## Searching a chain -/

/-- The node's key is the string `k`. -/
def HasKey (k : List UInt8) (x : Addr × EntryT) : Bool := x.2.keyStr = k

/-- Every key on the chain is a string. -/
def KeysTerminated (l : Nodes) : Prop := ∀ x ∈ l, Terminated x.2.key

theorem KeysTerminated.append {l₁ l₂ : Nodes} :
    KeysTerminated (l₁ ++ l₂) ↔ KeysTerminated l₁ ∧ KeysTerminated l₂ := by
  simp only [KeysTerminated, List.mem_append]
  exact ⟨fun h => ⟨fun x hx => h x (Or.inl hx), fun x hx => h x (Or.inr hx)⟩,
    fun h x hx => hx.elim (h.1 x) (h.2 x)⟩

theorem KeysTerminated.cons {x : Addr × EntryT} {l : Nodes} :
    KeysTerminated (x :: l) ↔ Terminated x.2.key ∧ KeysTerminated l := by
  simp [KeysTerminated]

theorem listGetNodeLoop_eq {h : NodeHeap} {key : Block} (hkey : Terminated key) {l : Nodes}
    (hterm : KeysTerminated l) {fuel : Nat} (hfuel : l.length ≤ fuel) {iter : Option Addr}
    (hc : Chain h iter l) :
    listGetNodeLoop h key fuel iter = .ok ((l.find? (HasKey (cstr key))).map Prod.fst) := by
  induction l generalizing fuel iter with
  | nil =>
    obtain rfl : iter = none := hc
    cases fuel <;> simp [listGetNodeLoop]
  | cons x l ih =>
    obtain ⟨a, e⟩ := x
    obtain ⟨rfl, nx, hl, htl⟩ := hc
    obtain ⟨hx, hrest⟩ := KeysTerminated.cons.mp hterm
    obtain ⟨c, hcmp, hzero⟩ := strcmp_terminated hx hkey
    cases fuel with
    | zero => simp at hfuel
    | succ fuel =>
      simp only [listGetNodeLoop, hl, ok_bind, hcmp]
      by_cases hk : cstr e.key = cstr key
      · rw [if_pos (hzero.mpr hk)]
        simp [HasKey, EntryT.keyStr, hk]
      · rw [if_neg (fun h0 => hk (hzero.mp h0)), ih hrest (by simpa using hfuel) htl]
        simp [HasKey, EntryT.keyStr, hk]

/-- **`list_get_node` finds the first node with the key**, whatever the heap looks
like outside the chain. -/
theorem listGetNode_eq {h : NodeHeap} {list : ListT} {key : Block} (hkey : Terminated key)
    {l : Nodes} (hterm : KeysTerminated l) (hc : Chain h list.head l) :
    listGetNode h list key = .ok ((l.find? (HasKey (cstr key))).map Prod.fst) :=
  listGetNodeLoop_eq hkey hterm hc.length_le hc

/-- Without the key on the chain the search ends in `NULL`. -/
theorem listGetNode_absent {h : NodeHeap} {list : ListT} {key : Block} (hkey : Terminated key)
    {l : Nodes} (hterm : KeysTerminated l) (hc : Chain h list.head l)
    (habs : ∀ x ∈ l, ¬ HasKey (cstr key) x) : listGetNode h list key = .ok none := by
  rw [listGetNode_eq hkey hterm hc, List.find?_eq_none.mpr habs]
  rfl

/-- With it, the search ends at the first node that has it. -/
theorem listGetNode_present {h : NodeHeap} {list : ListT} {key : Block} (hkey : Terminated key)
    {pre post : Nodes} {a : Addr} {e : EntryT} (hterm : KeysTerminated (pre ++ (a, e) :: post))
    (hc : Chain h list.head (pre ++ (a, e) :: post))
    (hpre : ∀ x ∈ pre, ¬ HasKey (cstr key) x) (hk : HasKey (cstr key) (a, e)) :
    listGetNode h list key = .ok (some a) := by
  rw [listGetNode_eq hkey hterm hc,
    List.find?_eq_some_iff_append.mpr ⟨hk, pre, post, rfl, fun x hx => by simpa using hpre x hx⟩]
  rfl

/-- A chain either lacks a key or splits at the first node that has it. -/
theorem absent_or_split (k : List UInt8) (l : Nodes) :
    (∀ x ∈ l, ¬ HasKey k x) ∨
      ∃ pre a e post, l = pre ++ (a, e) :: post ∧ (∀ x ∈ pre, ¬ HasKey k x) ∧ HasKey k (a, e) := by
  cases hf : l.find? (HasKey k) with
  | none => exact Or.inl (List.find?_eq_none.mp hf)
  | some x =>
    obtain ⟨hk, pre, post, hl, hpre⟩ := List.find?_eq_some_iff_append.mp hf
    exact Or.inr ⟨pre, x.1, x.2, post, hl, fun y hy => by simpa using hpre y hy, hk⟩

/-! ## The last node -/

/-- The address of the last node of a segment, `prev` if there is none. -/
def lastAddr (prev : Option Addr) (l : Nodes) : Option Addr := (l.getLast?.map Prod.fst).or prev

@[simp] theorem lastAddr_nil (prev : Option Addr) : lastAddr prev [] = prev := rfl

@[simp] theorem lastAddr_snoc (prev : Option Addr) (l : Nodes) (a : Addr) (e : EntryT) :
    lastAddr prev (l ++ [(a, e)]) = some a := by
  simp [lastAddr]

theorem lastAddr_cons (prev : Option Addr) (a : Addr) (e : EntryT) (l : Nodes) :
    lastAddr prev ((a, e) :: l) = lastAddr (some a) l := by
  cases l with
  | nil => rfl
  | cons x l => simp [lastAddr, List.getLast?_eq_some_getLast]

/-- Without one of its nodes, a list that goes on behind it ends where it did. -/
theorem lastAddr_skip (prev : Option Addr) (pre : Nodes) (a : Addr) (e : EntryT) {post : Nodes}
    (hpost : post ≠ []) : lastAddr prev (pre ++ (a, e) :: post) = lastAddr prev (pre ++ post) := by
  rcases List.eq_nil_or_concat' post with rfl | ⟨post, ⟨c, w⟩, rfl⟩
  · exact absurd rfl hpost
  · rw [← List.append_assoc, lastAddr_snoc, ← List.cons_append, ← List.append_assoc, lastAddr_snoc]

/-- Another entry in a node leaves the last node last. -/
theorem lastAddr_setValue (prev : Option Addr) (pre post : Nodes) (a : Addr) (e e' : EntryT) :
    lastAddr prev (pre ++ (a, e') :: post) = lastAddr prev (pre ++ (a, e) :: post) := by
  rcases List.eq_nil_or_concat' post with rfl | ⟨post, ⟨c, w⟩, rfl⟩
  · rw [lastAddr_snoc, lastAddr_snoc]
  · rw [← List.cons_append, ← List.append_assoc, lastAddr_snoc, ← List.cons_append,
      ← List.append_assoc, lastAddr_snoc]

theorem mem_of_lastAddr {l : Nodes} {a : Addr} (h : lastAddr none l = some a) : a ∈ addrs l := by
  rcases List.eq_nil_or_concat' l with rfl | ⟨l, ⟨c, w⟩, rfl⟩
  · cases h
  · rw [lastAddr_snoc] at h
    obtain rfl := Option.some.inj h
    simp

/-! ## Adding -/

section Add
variable {h : NodeHeap} {list : ListT} {entry : EntryT} {l : Nodes}

/-- The list after a new node: it is the tail, and the head when there was none. -/
def linked (list : ListT) (new : Addr) : ListT :=
  ⟨some (list.head.getD new), some new⟩

/-- **A new key goes to an empty list.** -/
theorem listAdd_empty (hkey : Terminated entry.key) (hc : Chain h list.head []) :
    listAdd h list entry = .ok (0, (h.alloc ⟨entry, none⟩).2, linked list h.size) := by
  have hhead : list.head = none := hc
  unfold listAdd
  rw [listGetNode_absent hkey (by simp [KeysTerminated]) hc (by simp), ok_bind]
  simp [hhead, linked]

/-- **A new key goes behind the tail** when the tail is a live node. -/
theorem listAdd_live (hkey : Terminated entry.key) (hterm : KeysTerminated l)
    (hc : Chain h list.head l) (hne : l ≠ []) (habs : ∀ x ∈ l, ¬ HasKey entry.keyStr x)
    {t : Addr} (ht : list.tail = some t) {node : NodeT} (hl : h.load t = .ok node) :
    listAdd h list entry =
      .ok (0, ⟨(h.alloc ⟨entry, none⟩).2.cells.set t (some ⟨node.val, some h.size⟩)⟩,
        linked list h.size) := by
  obtain ⟨p, hp⟩ := hc.head_of_ne_nil hne
  have hl' : (h.alloc ⟨entry, none⟩).2.load t = .ok node := by
    rw [Heap.load_alloc_old (Heap.lt_size_of_load hl), hl]
  unfold listAdd
  rw [listGetNode_absent hkey hterm hc habs, ok_bind]
  simp only [hp, ht, deref_some, ok_bind, hl', Heap.alloc_addr, Heap.store_ok hl', pure_eq_ok]
  simp [linked, hp]

/-- **A new key is written through a freed tail.** -/
theorem listAdd_freed (hkey : Terminated entry.key) (hterm : KeysTerminated l)
    (hc : Chain h list.head l) (hne : l ≠ []) (habs : ∀ x ∈ l, ¬ HasKey entry.keyStr x)
    {t : Addr} (ht : list.tail = some t) (hf : h.Freed t) :
    listAdd h list entry = .error .useAfterFree := by
  obtain ⟨p, hp⟩ := hc.head_of_ne_nil hne
  unfold listAdd
  rw [listGetNode_absent hkey hterm hc habs, ok_bind]
  simp only [hp, ht, deref_some, ok_bind, (hf.alloc ⟨entry, none⟩).load, error_bind]

/-- What `list_add` does with a new key: a new node holds the entry, behind all others, and
it is the tail. -/
structure Added (h : NodeHeap) (l : Nodes) (entry : EntryT) (h' : NodeHeap) (list' : ListT) :
    Prop where
  chain : Chain h' list'.head (l ++ [(h.size, entry)])
  tail : list'.tail = some h.size
  frame : h.Frame h' (addrs l)

/-- **A new key goes to the end** of a list whose tail is its last node. -/
theorem listAdd_new (hkey : Terminated entry.key) (hterm : KeysTerminated l)
    (hc : Chain h list.head l) (habs : ∀ x ∈ l, ¬ HasKey entry.keyStr x)
    (htail : l ≠ [] → list.tail = lastAddr none l) :
    ∃ h' list', listAdd h list entry = .ok (0, h', list') ∧ Added h l entry h' list' := by
  rcases List.eq_nil_or_concat' l with rfl | ⟨l, ⟨a, e⟩, rfl⟩
  · refine ⟨(h.alloc ⟨entry, none⟩).2, linked list h.size, listAdd_empty hkey hc, ?_, rfl,
      .alloc h _ _⟩
    have hhead : list.head = none := hc
    simp only [linked, hhead, Option.getD_none, List.nil_append]
    exact ⟨rfl, none, Heap.load_alloc_new h _, rfl⟩
  · have ht : list.tail = some a := by rw [htail (by simp), lastAddr_snoc]
    obtain ⟨nx, -, hla, -⟩ := segment_at.mp hc
    have hhead : (linked list h.size).head = list.head := by
      cases hh : list.head with
      | some p => simp [linked, hh]
      | none =>
        rw [hh] at hc
        cases l with
        | nil => exact absurd hc.1 (by simp)
        | cons x l => exact absurd hc.1 (by simp)
    have hla' : (h.alloc ⟨entry, none⟩).2.load a = .ok ⟨e, nx⟩ := by
      rw [Heap.load_alloc_old (Heap.lt_size_of_load hla), hla]
    refine ⟨_, linked list h.size, listAdd_live hkey hterm hc (by simp) habs ht hla, ?_, rfl, ?_⟩
    · rw [hhead]
      exact hc.snoc entry
    · exact (Heap.Frame.alloc h _ _).trans (by simp) (.set hla' (by simp) _)

/-- **A present key** keeps its node, which now holds the new entry. -/
theorem listAdd_present (hkey : Terminated entry.key) {pre post : Nodes} {a : Addr} {e : EntryT}
    (hterm : KeysTerminated (pre ++ (a, e) :: post))
    (hc : Chain h list.head (pre ++ (a, e) :: post))
    (hpre : ∀ x ∈ pre, ¬ HasKey entry.keyStr x) (hk : HasKey entry.keyStr (a, e)) :
    ∃ h', listAdd h list entry = .ok (0, h', list) ∧
      Chain h' list.head (pre ++ (a, entry) :: post) := by
  obtain ⟨nx, -, hla, -⟩ := segment_at.mp hc
  refine ⟨⟨h.cells.set a (some ⟨entry, nx⟩)⟩, ?_, hc.setVal hla⟩
  unfold listAdd
  rw [listGetNode_present hkey hterm hc hpre hk, ok_bind]
  simp only [hla, ok_bind, Heap.store_ok hla, pure_eq_ok]

end Add

/-! ## Removing -/

section Remove
variable {h : NodeHeap} {list : ListT} {key : Block}

/-- Nodes without the key only move the loop forward. -/
theorem listRemoveLoop_skip (hkey : Terminated key) {l : Nodes} (hterm : KeysTerminated l)
    (habs : ∀ x ∈ l, ¬ HasKey (cstr key) x) {prev iter stop : Option Addr} (fuel : Nat)
    (hs : Segment h iter l stop) :
    listRemoveLoop key h list (fuel + l.length) prev iter =
      listRemoveLoop key h list fuel (lastAddr prev l) stop := by
  induction l generalizing prev iter with
  | nil =>
    obtain rfl : iter = stop := hs
    rfl
  | cons x l ih =>
    obtain ⟨a, e⟩ := x
    obtain ⟨rfl, nx, hl, htl⟩ := hs
    obtain ⟨hx, hrest⟩ := KeysTerminated.cons.mp hterm
    obtain ⟨c, hcmp, hzero⟩ := strcmp_terminated hkey hx
    have hc : c ≠ 0 := by
      intro h0
      have := habs (a, e) List.mem_cons_self
      simp [HasKey, EntryT.keyStr, hzero.mp h0] at this
    rw [List.length_cons, ← Nat.add_assoc, lastAddr_cons]
    simp only [listRemoveLoop, hl, ok_bind, hcmp, if_neg hc]
    exact ih hrest (fun x hx => habs x (List.mem_cons_of_mem _ hx)) htl

/-- The loop at a node that has the key. -/
theorem listRemoveLoop_hit (hkey : Terminated key) {a : Addr} {node : NodeT}
    (hl : h.load a = .ok node) (hterm : Terminated node.val.key)
    (hk : cstr node.val.key = cstr key) (fuel : Nat) (prev : Option Addr) :
    listRemoveLoop key h list (fuel + 1) prev (some a) =
      match prev with
      | some p => do
        let before ← h.load p
        let h ← h.store p { before with next := node.next }
        let h ← h.free a
        return (0, h, list)
      | none => do
        let h ← h.free a
        return (0, h, { list with head := node.next }) := by
  obtain ⟨c, hcmp, hzero⟩ := strcmp_terminated hkey hterm
  simp only [listRemoveLoop, hl, ok_bind, hcmp, if_pos (hzero.mpr hk.symm)]

/-- **Removing an absent key changes nothing** and answers -1. -/
theorem listRemove_absent (hkey : Terminated key) {l : Nodes} (hterm : KeysTerminated l)
    (hc : Chain h list.head l) (habs : ∀ x ∈ l, ¬ HasKey (cstr key) x) :
    listRemove h list key = .ok (-1, h, list) := by
  obtain ⟨extra, hsize⟩ := Nat.exists_eq_add_of_le' hc.length_le
  unfold listRemove
  rw [hsize, listRemoveLoop_skip hkey hterm habs extra hc]
  cases extra <;> rfl

/-- What `list_remove` does when the key is there: the node at `a` is freed, the
rest of the chain keeps its order, and `tail` is not touched. -/
structure Removed (h : NodeHeap) (list : ListT) (pre post : Nodes) (a : Addr)
    (h' : NodeHeap) (list' : ListT) : Prop where
  chain : Chain h' list'.head (pre ++ post)
  tail : list'.tail = list.tail
  freed : h'.Freed a
  frame : h.Frame h' (a :: addrs pre)
  size : h'.size = h.size

/-- **Removing a present key** takes out exactly the first node that has it. -/
theorem listRemove_present (hkey : Terminated key) {pre post : Nodes} {a : Addr} {e : EntryT}
    (hterm : KeysTerminated (pre ++ (a, e) :: post))
    (hc : Chain h list.head (pre ++ (a, e) :: post))
    (hpre : ∀ x ∈ pre, ¬ HasKey (cstr key) x) (hk : HasKey (cstr key) (a, e)) :
    ∃ h' list', listRemove h list key = .ok (0, h', list') ∧ Removed h list pre post a h' list' := by
  obtain ⟨hpt, hrest⟩ := KeysTerminated.append.mp hterm
  obtain ⟨nx, hs, hl, hpost⟩ := segment_at.mp hc
  obtain ⟨fuel, hfuel⟩ : ∃ fuel, h.size = (fuel + 1) + pre.length := by
    have := Chain.length_le hc
    rw [List.length_append, List.length_cons] at this
    exact ⟨h.size - 1 - pre.length, by omega⟩
  have hloop : listRemove h list key =
      listRemoveLoop key h list (fuel + 1) (lastAddr none pre) (some a) := by
    unfold listRemove
    rw [hfuel, listRemoveLoop_skip hkey hpt hpre (fuel + 1) hs]
  rw [hloop, listRemoveLoop_hit hkey hl (KeysTerminated.cons.mp hrest).1 (of_decide_eq_true hk)]
  rcases List.eq_nil_or_concat' pre with rfl | ⟨pre, ⟨b, w⟩, rfl⟩
  · refine ⟨⟨h.cells.set a none⟩, { list with head := nx }, by simp [Heap.free_ok hl], ?_⟩
    exact ⟨hc.unlinkHead hl, rfl, Heap.freed_set_none hl, .set hl (by simp) none, by simp⟩
  · have hc' : Chain h list.head (pre ++ (b, w) :: (a, e) :: post) := by simpa using hc
    obtain ⟨nb, hs₁, hlb, -⟩ := segment_at.mp hc'
    have hab : b ≠ a := by
      rintro rfl
      exact (Chain.not_mem hc').2 (by simp)
    -- after the store to the node before it, `a` still holds what it held
    have hla : Heap.load ⟨h.cells.set b (some ⟨w, nx⟩)⟩ a = .ok ⟨e, nx⟩ := by
      rw [Heap.load_set_ne _ hab, hl]
    have hfr : h.Frame ⟨h.cells.set b (some ⟨w, nx⟩)⟩ (a :: addrs (pre ++ [(b, w)])) :=
      .set hlb (by simp) _
    refine ⟨⟨(h.cells.set b (some ⟨w, nx⟩)).set a none⟩, list, ?_, ?_⟩
    · simp [hlb, Heap.store_ok hlb, Heap.free_ok hla]
    · refine ⟨?_, rfl, Heap.freed_set_none hla, hfr.trans (by simp) (.set hla (by simp) none),
        by simp [Heap.size]⟩
      simpa using hc'.unlink hlb hl

end Remove

/-! ## Counting -/

theorem listSizeLoop_eq {h : NodeHeap} {l : Nodes} {fuel : Nat} (hfuel : l.length ≤ fuel)
    {counter : Int} {iter : Option Addr} (hc : Chain h iter l) (hlo : intMin ≤ counter) :
    listSizeLoop h fuel counter iter =
      if counter + l.length ≤ intMax ∨ l = [] then .ok (counter + l.length)
      else .error .intOverflow := by
  induction l generalizing fuel counter iter with
  | nil =>
    obtain rfl : iter = none := hc
    cases fuel <;> simp [listSizeLoop]
  | cons x l ih =>
    obtain ⟨a, e⟩ := x
    obtain ⟨rfl, nx, hl, htl⟩ := hc
    cases fuel with
    | zero => simp at hfuel
    | succ fuel =>
      by_cases hmax : counter + 1 ≤ intMax
      · rw [listSizeLoop, intAdd, checkInt_of_range (by omega) hmax, ok_bind, hl, ok_bind,
          ih (by simpa using hfuel) htl (by omega)]
        rcases l with _ | ⟨y, l⟩
        · simp [hmax]
        · simp only [List.length_cons, reduceCtorEq, or_false]
          push_cast
          rw [show counter + 1 + ((l.length : Int) + 1) = counter + (l.length + 1 + 1) by ring]
      · rw [listSizeLoop, intAdd, checkInt_of_large (by omega), error_bind, if_neg]
        simp only [List.length_cons, reduceCtorEq, or_false]
        omega

/-- **`list_size` counts the nodes**, as long as the count is an `int`. -/
theorem listSize_eq {h : NodeHeap} {list : ListT} {l : Nodes} (hc : Chain h list.head l) :
    listSize h list = if (l.length : Int) ≤ intMax then .ok l.length else .error .intOverflow := by
  unfold listSize
  rw [listSizeLoop_eq hc.length_le hc (by decide)]
  rcases l with _ | ⟨x, l⟩
  · simp [intMax]
  · simp

/-! ## Copying the keys -/

/-- The slots that copies of the entries' keys fill. -/
def keySlots (es : List EntryT) : Slots (Option Block) :=
  es.map fun e => some (some (e.keyStr ++ [0]))

@[simp] theorem length_keySlots (es : List EntryT) : (keySlots es).length = es.length := by
  simp [keySlots]

theorem keySlots_append (es es' : List EntryT) :
    keySlots (es ++ es') = keySlots es ++ keySlots es' := by
  simp [keySlots]

/-- A buffer with room is filled slot by slot. -/
theorem replicate_slots (done : Slots (Option Block)) (n spare : Nat) :
    done ++ List.replicate (n + 1 + spare) none = done ++ none :: List.replicate (n + spare) none := by
  rw [show n + 1 + spare = (n + spare) + 1 by omega, List.replicate_succ]

theorem listGetKeysLoop_eq {h : NodeHeap} {l : Nodes} (hterm : KeysTerminated l) {iter : Option Addr}
    (hc : Chain h iter l) (done : Slots (Option Block)) (spare : Nat) :
    listGetKeysLoop h l.length done.length (done ++ List.replicate (l.length + spare) none) iter =
      .ok (done ++ keySlots (l.map Prod.snd) ++ List.replicate spare none) := by
  induction l generalizing iter done with
  | nil => simp [listGetKeysLoop, keySlots]
  | cons x l ih =>
    obtain ⟨a, e⟩ := x
    obtain ⟨rfl, nx, hl, htl⟩ := hc
    obtain ⟨hx, hrest⟩ := KeysTerminated.cons.mp hterm
    have hstep := ih hrest htl (done ++ [some (some (e.keyStr ++ [0]))])
    rw [List.length_append, List.append_assoc, List.singleton_append] at hstep
    rw [List.length_cons, replicate_slots, listGetKeysLoop]
    simp only [deref_some, hl, ok_bind, hx.strdup, setSlot_append]
    refine hstep.trans ?_
    simp [keySlots]

/-- **`list_get_keys` lists the keys in order**, and `NULL` behind them. -/
theorem listGetKeys_eq {h : NodeHeap} {list : ListT} {l : Nodes} (hterm : KeysTerminated l)
    (hc : Chain h list.head l) :
    listGetKeys h list = if (l.length : Int) < intMax
      then .ok (keySlots (l.map Prod.snd) ++ [some none]) else .error .intOverflow := by
  unfold listGetKeys
  rw [listSize_eq hc]
  by_cases hmax : (l.length : Int) < intMax
  · have hloop := listGetKeysLoop_eq hterm hc [] 1
    have hset := setSlot_append (keySlots (l.map Prod.snd)) none [] (none : Option Block)
    rw [length_keySlots, List.length_map] at hset
    rw [if_pos (by omega), if_pos hmax, ok_bind, intAdd, checkInt_of_nonneg (by omega) (by omega),
      ok_bind, mallocSlots, show ((l.length : Int) + 1).toNat = l.length + 1 by omega,
      Int.toNat_natCast]
    simp only [List.nil_append, List.length_nil] at hloop
    rw [hloop, ok_bind]
    exact hset
  · rw [if_neg hmax]
    split
    · rw [ok_bind, intAdd, checkInt_of_large (by omega), error_bind]
    · rfl

end RemoteTable
