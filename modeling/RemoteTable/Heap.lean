import RemoteTable.Exec

/-! # A heap of linked cells

The heap gives every allocation an address of its own and remembers which cells
have been freed: an access through a stale pointer is a fault, never an access
to another cell.  Cells carry a value and a `next` pointer, and `Segment h p l q`
says that following `next` from `p` one meets exactly the cells `l` and arrives
at `q`.

The lemmas come in two groups: what each operation does to a single `load`, and
what follows for segments, where an operation outside the segment's addresses
changes nothing (`Segment.frame`) and a segment can be cut and joined anywhere
(`segment_append`).
-/
namespace CMem

/-- The address of a heap cell. -/
abbrev Addr := Nat

/-- A linked cell. -/
structure Cell (α : Type) where
  val : α
  next : Option Addr
  deriving DecidableEq, Repr

/-- The cells allocated so far, by address; `none` stands for a freed cell. -/
structure Heap (α : Type) where
  cells : List (Option (Cell α))
  deriving DecidableEq, Repr

namespace Heap
variable {α : Type}

/-- The heap before any allocation. -/
def empty : Heap α := ⟨[]⟩

/-- Read a cell. -/
def load (h : Heap α) (a : Addr) : Exec (Cell α) :=
  match h.cells[a]? with
  | some (some c) => .ok c
  | some none => .error .useAfterFree
  | none => .error .wildPointer

/-- Overwrite a live cell. -/
def store (h : Heap α) (a : Addr) (c : Cell α) : Exec (Heap α) := do
  let _ ← h.load a
  return ⟨h.cells.set a (some c)⟩

/-- Free a live cell. -/
def free (h : Heap α) (a : Addr) : Exec (Heap α) := do
  let _ ← h.load a
  return ⟨h.cells.set a none⟩

/-- Allocate a cell: its address, and the heap with it. -/
def alloc (h : Heap α) (c : Cell α) : Addr × Heap α :=
  (h.cells.length, ⟨h.cells ++ [some c]⟩)

/-- The heap's fuel: a loop along `next` that visits no cell twice ends within
as many steps. -/
def size (h : Heap α) : Nat := h.cells.length

/-! ### What an operation does to a load -/

theorem load_eq_ok {h : Heap α} {a : Addr} {c : Cell α} :
    h.load a = .ok c ↔ h.cells[a]? = some (some c) := by
  unfold load
  split <;> simp_all

/-- The cell has been freed. -/
def Freed (h : Heap α) (a : Addr) : Prop := h.cells[a]? = some none

theorem Freed.load {h : Heap α} {a : Addr} (hf : h.Freed a) : h.load a = .error .useAfterFree := by
  unfold Heap.load
  rw [hf]

theorem Freed.not_ok {h : Heap α} {a : Addr} (hf : h.Freed a) {c : Cell α} :
    h.load a ≠ .ok c := by
  rw [hf.load]
  nofun

theorem lt_size_of_load {h : Heap α} {a : Addr} {c : Cell α} (hl : h.load a = .ok c) :
    a < h.size :=
  (List.getElem?_eq_some_iff.mp (load_eq_ok.mp hl)).1

theorem Freed.lt_size {h : Heap α} {a : Addr} (hf : h.Freed a) : a < h.size :=
  (List.getElem?_eq_some_iff.mp hf).1

/-- A store to a live cell succeeds. -/
theorem store_ok {h : Heap α} {a : Addr} {c₀ : Cell α} (hl : h.load a = .ok c₀) (c : Cell α) :
    h.store a c = .ok ⟨h.cells.set a (some c)⟩ := by
  unfold store
  rw [hl]
  rfl

/-- Freeing a live cell succeeds. -/
theorem free_ok {h : Heap α} {a : Addr} {c₀ : Cell α} (hl : h.load a = .ok c₀) :
    h.free a = .ok ⟨h.cells.set a none⟩ := by
  unfold free
  rw [hl]
  rfl

theorem load_set_self {h : Heap α} {a : Addr} {c₀ c : Cell α} (hl : h.load a = .ok c₀) :
    Heap.load ⟨h.cells.set a (some c)⟩ a = .ok c := by
  have ha : a < h.cells.length := lt_size_of_load hl
  rw [load_eq_ok]
  simp [ha]

theorem load_set_ne {h : Heap α} {a b : Addr} (x : Option (Cell α)) (hab : a ≠ b) :
    Heap.load ⟨h.cells.set a x⟩ b = h.load b := by
  unfold load
  simp [hab]

theorem freed_set_none {h : Heap α} {a : Addr} {c₀ : Cell α} (hl : h.load a = .ok c₀) :
    Freed ⟨h.cells.set a none⟩ a := by
  have ha : a < h.cells.length := lt_size_of_load hl
  simp [Freed, ha]

/-- A freed cell stays freed: addresses are not reused. -/
theorem Freed.set {h : Heap α} {a b : Addr} (hf : h.Freed b) (x : Option (Cell α))
    (hx : x = none ∨ a ≠ b) : Freed ⟨h.cells.set a x⟩ b := by
  by_cases hab : a = b
  · subst hab
    have ha : a < h.cells.length := hf.lt_size
    rcases hx with rfl | hne
    · simp [Freed, ha]
    · exact absurd rfl hne
  · simpa [Freed, List.getElem?_set, hab] using hf

theorem load_alloc_new (h : Heap α) (c : Cell α) : (h.alloc c).2.load (h.alloc c).1 = .ok c := by
  rw [load_eq_ok]
  simp [alloc]

theorem load_alloc_old {h : Heap α} {a : Addr} (ha : a < h.size) (c : Cell α) :
    (h.alloc c).2.load a = h.load a := by
  have ha' : a < h.cells.length := ha
  unfold load alloc
  simp [List.getElem?_append, ha']

theorem Freed.alloc {h : Heap α} {a : Addr} (hf : h.Freed a) (c : Cell α) :
    (h.alloc c).2.Freed a := by
  have ha : a < h.cells.length := hf.lt_size
  have hf' : h.cells[a]? = some none := hf
  simp only [Freed, Heap.alloc, List.getElem?_append, ha, if_true, hf']

@[simp] theorem size_alloc (h : Heap α) (c : Cell α) : (h.alloc c).2.size = h.size + 1 := by
  simp [alloc, size]

@[simp] theorem alloc_addr (h : Heap α) (c : Cell α) : (h.alloc c).1 = h.size := rfl

@[simp] theorem size_set (h : Heap α) (a : Addr) (x : Option (Cell α)) :
    Heap.size ⟨h.cells.set a x⟩ = h.size := by
  simp [size]

end Heap

/-! ## Segments -/

section Segments
variable {α : Type}

/-- Following `next` from `p` one meets exactly the cells `l`, given by address
and value, and arrives at `q`. -/
def Segment (h : Heap α) : Option Addr → List (Addr × α) → Option Addr → Prop
  | p, [], q => p = q
  | p, (a, v) :: l, q => p = some a ∧ ∃ nx, h.load a = .ok ⟨v, nx⟩ ∧ Segment h nx l q

/-- A chain: a segment that ends in the null pointer. -/
abbrev Chain (h : Heap α) (p : Option Addr) (l : List (Addr × α)) : Prop := Segment h p l none

/-- The addresses of a list of cells. -/
abbrev addrs (l : List (Addr × α)) : List Addr := l.map Prod.fst

@[simp] theorem segment_nil {h : Heap α} {p q : Option Addr} : Segment h p [] q ↔ p = q := Iff.rfl

theorem segment_cons {h : Heap α} {p q : Option Addr} {a : Addr} {v : α} {l : List (Addr × α)} :
    Segment h p ((a, v) :: l) q ↔
      p = some a ∧ ∃ nx, h.load a = .ok ⟨v, nx⟩ ∧ Segment h nx l q := Iff.rfl

/-- **Cutting and joining**: a segment through `l₁ ++ l₂` is one through `l₁`
followed by one through `l₂`. -/
theorem segment_append {h : Heap α} {p q : Option Addr} {l₁ l₂ : List (Addr × α)} :
    Segment h p (l₁ ++ l₂) q ↔ ∃ m, Segment h p l₁ m ∧ Segment h m l₂ q := by
  induction l₁ generalizing p with
  | nil => simp
  | cons x l₁ ih =>
    obtain ⟨a, v⟩ := x
    simp only [List.cons_append, segment_cons, ih]
    constructor
    · rintro ⟨hp, nx, hl, m, h₁, h₂⟩
      exact ⟨m, ⟨hp, nx, hl, h₁⟩, h₂⟩
    · rintro ⟨m, ⟨hp, nx, hl, h₁⟩, h₂⟩
      exact ⟨hp, nx, hl, m, h₁, h₂⟩

/-- **The frame rule**: a heap that agrees on a segment's addresses has the same
segment. -/
theorem Segment.frame {h h' : Heap α} {p q : Option Addr} {l : List (Addr × α)}
    (hs : Segment h p l q) (hag : ∀ a ∈ addrs l, h'.load a = h.load a) : Segment h' p l q := by
  induction l generalizing p with
  | nil => exact hs
  | cons x l ih =>
    obtain ⟨a, v⟩ := x
    obtain ⟨hp, nx, hl, htl⟩ := hs
    refine ⟨hp, nx, ?_, ih htl (fun b hb => hag b (List.mem_cons_of_mem _ hb))⟩
    rw [hag a List.mem_cons_self]
    exact hl

/-- Every address of a segment is a live cell holding the value listed with it. -/
theorem Segment.load {h : Heap α} {p q : Option Addr} {l : List (Addr × α)}
    (hs : Segment h p l q) {a : Addr} {v : α} (hm : (a, v) ∈ l) :
    ∃ nx, h.load a = .ok ⟨v, nx⟩ := by
  induction l generalizing p with
  | nil => simp at hm
  | cons x l ih =>
    obtain ⟨b, w⟩ := x
    obtain ⟨-, nx, hl, htl⟩ := hs
    rcases List.mem_cons.mp hm with heq | hm
    · obtain ⟨rfl, rfl⟩ := Prod.mk.inj heq
      exact ⟨nx, hl⟩
    · exact ih htl hm

theorem Segment.lt_size {h : Heap α} {p q : Option Addr} {l : List (Addr × α)}
    (hs : Segment h p l q) {a : Addr} (hm : a ∈ addrs l) : a < h.size := by
  obtain ⟨⟨b, v⟩, hb, rfl⟩ := List.mem_map.mp hm
  obtain ⟨nx, hl⟩ := hs.load hb
  exact Heap.lt_size_of_load hl

/-- A chain visits no cell twice: from a cell it would never arrive. -/
theorem Chain.tail_unique {h : Heap α} {p : Option Addr} {l l' : List (Addr × α)}
    (hc : Chain h p l) (hc' : Chain h p l') : l = l' := by
  induction l generalizing p l' with
  | nil =>
    cases l' with
    | nil => rfl
    | cons x l' =>
      obtain ⟨a, v⟩ := x
      exact absurd (hc.symm.trans hc'.1) (by simp)
  | cons x l ih =>
    obtain ⟨a, v⟩ := x
    obtain ⟨hp, nx, hl, htl⟩ := hc
    cases l' with
    | nil => exact absurd (hp.symm.trans hc') (by simp)
    | cons y l' =>
      obtain ⟨b, w⟩ := y
      obtain ⟨hp', nx', hl', htl'⟩ := hc'
      obtain rfl : a = b := Option.some.inj (hp.symm.trans hp')
      obtain ⟨rfl, rfl⟩ := Cell.mk.inj (Except.ok.inj (hl.symm.trans hl'))
      rw [ih htl htl']

theorem Chain.nodup {h : Heap α} {p : Option Addr} {l : List (Addr × α)} (hc : Chain h p l) :
    (addrs l).Nodup := by
  induction l generalizing p with
  | nil => simp
  | cons x l ih =>
    obtain ⟨a, v⟩ := x
    have htail := hc
    obtain ⟨hp, nx, hl, htl⟩ := htail
    refine List.nodup_cons.mpr ⟨?_, ih htl⟩
    intro hmem
    -- a second visit to `a` would start a chain strictly shorter than itself
    obtain ⟨⟨b, w⟩, hb, rfl⟩ := List.mem_map.mp hmem
    obtain ⟨l₁, l₂, rfl⟩ := List.append_of_mem hb
    obtain ⟨m, -, hm⟩ := segment_append.mp htl
    have hm' : Chain h p ((b, w) :: l₂) := by
      obtain ⟨hmb, rest⟩ := hm
      exact ⟨hp, rest⟩
    have hlen := congrArg List.length (Chain.tail_unique hc hm')
    simp at hlen
    omega

theorem Chain.head_of_ne_nil {h : Heap α} {p : Option Addr} {l : List (Addr × α)} (hc : Chain h p l)
    (hne : l ≠ []) : ∃ a, p = some a := by
  obtain ⟨⟨a, v⟩, rest, rfl⟩ := List.exists_cons_of_ne_nil hne
  exact ⟨a, hc.1⟩

/-- A chain is no longer than the heap: the heap's size is fuel enough for a
loop along it. -/
theorem Chain.length_le {h : Heap α} {p : Option Addr} {l : List (Addr × α)} (hc : Chain h p l) :
    l.length ≤ h.size := by
  have hsub : addrs l ⊆ List.range h.size := fun a ha => List.mem_range.mpr (hc.lt_size ha)
  have := List.Nodup.length_le_of_subset hc.nodup hsub
  simpa using this

/-! ### Surgery on chains

What a list implementation does to a chain: change a value in place, link a new
cell behind the last one, unlink the first cell or a later one.  The heaps are
written out, so that each lemma is about the two or three stores of the
operation and nothing else. -/

/-- A segment opened at one of its cells. -/
theorem segment_at {h : Heap α} {p q : Option Addr} {pre post : List (Addr × α)} {a : Addr} {v : α} :
    Segment h p (pre ++ (a, v) :: post) q ↔
      ∃ nx, Segment h p pre (some a) ∧ h.load a = .ok ⟨v, nx⟩ ∧ Segment h nx post q := by
  rw [segment_append]
  constructor
  · rintro ⟨m, hpre, rfl, nx, hl, hpost⟩
    exact ⟨nx, hpre, hl, hpost⟩
  · rintro ⟨nx, hpre, hl, hpost⟩
    exact ⟨some a, hpre, rfl, nx, hl, hpost⟩

/-- A store to, or the release of, a cell outside a segment. -/
theorem Segment.set {h : Heap α} {p q : Option Addr} {l : List (Addr × α)} (hs : Segment h p l q)
    {a : Addr} (ha : a ∉ addrs l) (x : Option (Cell α)) : Segment ⟨h.cells.set a x⟩ p l q :=
  hs.frame fun _ hb => Heap.load_set_ne x fun hab => ha (hab ▸ hb)

/-- An allocation leaves segments alone. -/
theorem Segment.alloc {h : Heap α} {p q : Option Addr} {l : List (Addr × α)} (hs : Segment h p l q)
    (c : Cell α) : Segment (h.alloc c).2 p l q :=
  hs.frame fun _ hb => Heap.load_alloc_old (hs.lt_size hb) c

/-- The addresses on either side of a cell of a chain are other addresses. -/
theorem Chain.not_mem {h : Heap α} {p : Option Addr} {pre post : List (Addr × α)} {a : Addr} {v : α}
    (hc : Chain h p (pre ++ (a, v) :: post)) : a ∉ addrs pre ∧ a ∉ addrs post := by
  have hn := Chain.nodup hc
  rw [addrs, List.map_append, List.map_cons] at hn
  obtain ⟨-, hcons, hdisj⟩ := List.nodup_append.mp hn
  exact ⟨fun hm => hdisj a hm a List.mem_cons_self rfl, (List.nodup_cons.mp hcons).1⟩

theorem Chain.setVal {h : Heap α} {p : Option Addr} {pre post : List (Addr × α)} {a : Addr}
    {v w : α} {nx : Option Addr} (hc : Chain h p (pre ++ (a, v) :: post))
    (hl : h.load a = .ok ⟨v, nx⟩) :
    Chain ⟨h.cells.set a (some ⟨w, nx⟩)⟩ p (pre ++ (a, w) :: post) := by
  obtain ⟨hpre, hpost⟩ := Chain.not_mem hc
  obtain ⟨nx', hs₁, hl', hs₂⟩ := segment_at.mp hc
  obtain ⟨-, rfl⟩ := Cell.mk.inj (Except.ok.inj (hl.symm.trans hl'))
  exact segment_at.mpr ⟨nx, hs₁.set hpre _, Heap.load_set_self hl, hs₂.set hpost _⟩

theorem Chain.snoc {h : Heap α} {p : Option Addr} {l : List (Addr × α)} {a : Addr} {v : α}
    (hc : Chain h p (l ++ [(a, v)])) (w : α) :
    Chain ⟨(h.alloc ⟨w, none⟩).2.cells.set a (some ⟨v, some h.size⟩)⟩ p
      (l ++ [(a, v)] ++ [(h.size, w)]) := by
  obtain ⟨hl, -⟩ := Chain.not_mem hc
  have hlt : a < h.size := hc.lt_size (by simp)
  obtain ⟨nx, hs, hla, hnil⟩ := segment_at.mp hc
  have hla' : (h.alloc ⟨w, none⟩).2.load a = .ok ⟨v, nx⟩ := by rw [Heap.load_alloc_old hlt, hla]
  rw [List.append_assoc]
  refine segment_at.mpr ⟨some h.size, (hs.alloc _).set hl _, Heap.load_set_self hla', rfl, none, ?_, rfl⟩
  rw [Heap.load_set_ne _ (Nat.ne_of_lt hlt)]
  exact Heap.load_alloc_new h _

theorem Chain.unlinkHead {h : Heap α} {p : Option Addr} {post : List (Addr × α)} {a : Addr} {v : α}
    {nx : Option Addr} (hc : Chain h p ((a, v) :: post)) (hl : h.load a = .ok ⟨v, nx⟩) :
    Chain ⟨h.cells.set a none⟩ nx post := by
  have hn : a ∉ addrs post := (Chain.not_mem (show Chain h p ([] ++ (a, v) :: post) from hc)).2
  obtain ⟨-, nx', hl', hs⟩ := hc
  obtain ⟨-, rfl⟩ := Cell.mk.inj (Except.ok.inj (hl.symm.trans hl'))
  exact hs.set hn _

theorem Chain.unlink {h : Heap α} {p : Option Addr} {pre post : List (Addr × α)} {a b : Addr}
    {v w : α} {nx nx' : Option Addr} (hc : Chain h p (pre ++ (b, w) :: (a, v) :: post))
    (hb : h.load b = .ok ⟨w, nx'⟩) (hl : h.load a = .ok ⟨v, nx⟩) :
    Chain ⟨(h.cells.set b (some ⟨w, nx⟩)).set a none⟩ p (pre ++ (b, w) :: post) := by
  obtain ⟨hbpre, hbpost⟩ := Chain.not_mem hc
  have hcons : Chain h p ((pre ++ [(b, w)]) ++ (a, v) :: post) := by simpa using hc
  obtain ⟨hapre, hapost⟩ := Chain.not_mem hcons
  have hab : a ≠ b := by
    rintro rfl
    exact hapre (by simp)
  obtain ⟨nb, hs₁, -, -, na, hla, hs₂⟩ := segment_at.mp hc
  obtain ⟨-, rfl⟩ := Cell.mk.inj (Except.ok.inj (hl.symm.trans hla))
  have hstep : ∀ {p q : Option Addr} {l : List (Addr × α)}, Segment h p l q → b ∉ addrs l →
      a ∉ addrs l → Segment ⟨(h.cells.set b (some ⟨w, nx⟩)).set a none⟩ p l q :=
    fun hs h₁ h₂ => (hs.set h₁ (some ⟨w, nx⟩)).set h₂ none
  refine segment_at.mpr ⟨nx, hstep hs₁ hbpre ?_, ?_, hstep hs₂ ?_ hapost⟩
  · exact fun hm => hapre (by simp only [addrs, List.map_append, List.mem_append]; exact Or.inl hm)
  · exact (Heap.load_set_ne none hab).trans (Heap.load_set_self hb)
  · exact fun hm => hbpost (List.mem_cons_of_mem _ hm)

end Segments

/-! ## What an operation leaves alone -/

/-- From `h` to `h'` only the cells `touched` changed, new cells apart, and no
freed cell came back. -/
structure Heap.Frame {α : Type} (h h' : Heap α) (touched : List Addr) : Prop where
  load : ∀ b, b < h.size → b ∉ touched → h'.load b = h.load b
  freed : ∀ b, h.Freed b → h'.Freed b

section Frame
variable {α : Type} {h h' h'' : Heap α}

theorem Heap.Frame.set {a : Addr} {touched : List Addr} {c₀ : Cell α} (hl : h.load a = .ok c₀)
    (ha : a ∈ touched) (x : Option (Cell α)) : h.Frame ⟨h.cells.set a x⟩ touched where
  load _ _ hb := Heap.load_set_ne x fun hab => hb (hab ▸ ha)
  freed _ hf := hf.set x (Or.inr fun hab => hf.not_ok (hab ▸ hl))

theorem Heap.Frame.alloc (h : Heap α) (touched : List Addr) (c : Cell α) :
    h.Frame (h.alloc c).2 touched where
  load _ hlt _ := Heap.load_alloc_old hlt c
  freed _ hf := hf.alloc c

theorem Heap.Frame.trans {touched : List Addr} (h₁ : h.Frame h' touched) (hsz : h.size ≤ h'.size)
    (h₂ : h'.Frame h'' touched) : h.Frame h'' touched where
  load b hlt hb := (h₂.load b (Nat.lt_of_lt_of_le hlt hsz) hb).trans (h₁.load b hlt hb)
  freed b hf := h₂.freed b (h₁.freed b hf)

/-- A segment outside the touched cells is still there. -/
theorem Heap.Frame.segment {touched : List Addr} (hf : h.Frame h' touched) {p q : Option Addr}
    {l : List (Addr × α)} (hs : Segment h p l q) (hd : ∀ a ∈ addrs l, a ∉ touched) :
    Segment h' p l q :=
  hs.frame fun a ha => hf.load a (hs.lt_size ha) (hd a ha)

end Frame

/-! ## A heap that holds one chain -/

/-- The values of a list, each in a cell that points at the next. -/
def Heap.ofList (l : List α) : Heap α :=
  ⟨l.mapIdx fun i a => some ⟨a, if i + 1 < l.length then some (i + 1) else none⟩⟩

/-- From any point of the list on, the cells are a chain. -/
theorem Heap.ofList_segment (pre suf : List α) :
    Chain (Heap.ofList (pre ++ suf)) (if suf = [] then none else some pre.length)
      (suf.mapIdx fun i a => (pre.length + i, a)) := by
  induction suf generalizing pre with
  | nil => rfl
  | cons a suf ih =>
    have hrest := ih (pre ++ [a])
    rw [List.append_assoc, List.singleton_append, List.length_append, List.length_singleton] at hrest
    have hcell : (Heap.ofList (pre ++ a :: suf)).load pre.length =
        .ok ⟨a, if suf = [] then none else some (pre.length + 1)⟩ := by
      unfold Heap.load
      rw [Heap.ofList, List.getElem?_mapIdx]
      by_cases hsuf : suf = []
      · simp [hsuf]
      · have hpos := List.length_pos_iff.mpr hsuf
        simp [hsuf, hpos]
    rw [List.mapIdx_cons]
    refine ⟨by simp, _, hcell, ?_⟩
    simpa [Nat.add_assoc, Nat.add_comm 1] using hrest

/-- The whole list is a chain from the first cell. -/
theorem Heap.ofList_chain (l : List α) :
    Chain (Heap.ofList l) (if l = [] then none else some 0) (l.mapIdx Prod.mk) := by
  have h := Heap.ofList_segment [] l
  simpa using h

end CMem
