import RemoteTable.Assoc
import RemoteTable.LinkedList

/-! # Whole runs of a list

A list is to be an association list in the order of insertion: `ordered` says what each
call answers and what it leaves, in terms of `Assoc.put`, `Assoc.remove` and
`Assoc.lookup`.

`InOrder` is what is to hold after every call: the chain from `head` has the entries, none
of its cells is freed, and `tail` is its last node unless it is empty.  `list_remove` of
the last of several nodes leaves `tail` at the freed node (`Kept.remove_last`), and
it is the only call that breaks the order; `list_size` and `list_get_keys` need a length
that an `int` holds.
-/
namespace RemoteTable
open CMem Assoc

/-- A call of a list function. -/
inductive ListOp
  | add (entry : EntryT)
  | remove (key : Block)
  | get (key : Block)
  | size
  | getKeys

/-- What a list function answers; a reference to an entry is followed. -/
inductive ListAnswer
  | code (r : Int)
  | entry (e : Option EntryT)
  | size (n : Int)
  | keys (ks : List Block)
  deriving DecidableEq

/-- One call. -/
def listStep (h : NodeHeap) (list : ListT) : ListOp → Exec (ListAnswer × NodeHeap × ListT)
  | .add entry => do
    let (r, h, list) ← listAdd h list entry
    return (.code r, h, list)
  | .remove key => do
    let (r, h, list) ← listRemove h list key
    return (.code r, h, list)
  | .get key => do
    match ← listGet h list key with
    | none => return (.entry none, h, list)
    | some a =>
      let node ← h.load a
      return (.entry (some node.val), h, list)
  | .size => do
    let n ← listSize h list
    return (.size n, h, list)
  | .getKeys => do
    let slots ← listGetKeys h list
    let ks ← untilNull slots
    return (.keys ks, h, list)

/-- The arguments a caller may pass: keys that are strings. -/
def ListOp.Admissible : ListOp → Prop
  | .add entry => Terminated entry.key
  | .remove key | .get key => Terminated key
  | .size | .getKeys => True

/-! ## The order of insertion -/

/-- A copy of the entry's key. -/
def keyCopy (e : EntryT) : Block := e.keyStr ++ [0]

/-- What a call answers on an association list, and the list it leaves. -/
def ordered (es : List EntryT) : ListOp → ListAnswer × List EntryT
  | .add entry => (.code 0, put EntryT.keyStr entry es)
  | .remove key =>
    (.code (if cstr key ∈ es.map EntryT.keyStr then 0 else -1), remove EntryT.keyStr (cstr key) es)
  | .get key => (.entry (lookup EntryT.keyStr (cstr key) es), es)
  | .size => (.size es.length, es)
  | .getKeys => (.keys (es.map keyCopy), es)

/-- **The list is in order**: from `head` on, through cells none of which is freed, there
are exactly these entries, and `tail` is the last node unless there is none. -/
def InOrder (h : NodeHeap) (list : ListT) (es : List EntryT) : Prop :=
  ∃ nodes, Chain h list.head nodes ∧ nodes.map Prod.snd = es ∧ (∀ a ∈ addrs nodes, ¬ h.Freed a) ∧
    (list.head = none ∨ list.tail = lastAddr none nodes)

/-- **The run is in order**: every call returns, answers what it is to answer, and leaves
the list in order. -/
def RunsInOrder : NodeHeap → ListT → List EntryT → List ListOp → Prop
  | _, _, _, [] => True
  | h, list, es, op :: ops => ∃ r h' list', listStep h list op = .ok (r, h', list') ∧
      r = (ordered es op).1 ∧ InOrder h' list' (ordered es op).2 ∧
      RunsInOrder h' list' (ordered es op).2 ops

/-- The condition on the entries a call meets: the key to remove is not that of the last of
several entries, the number of entries is an `int`, and the number of slots for keys is
one. -/
def OpMeets (es : List EntryT) : ListOp → Prop
  | .remove key => ¬ (2 ≤ es.length ∧ es.getLast?.map EntryT.keyStr = some (cstr key))
  | .size => (es.length : Int) ≤ intMax
  | .getKeys => (es.length : Int) < intMax
  | .add _ | .get _ => True

/-- Every call meets its condition, on the entries that the calls before it leave. -/
def OpsMeet : List EntryT → List ListOp → Prop
  | _, [] => True
  | es, op :: ops => OpMeets es op ∧ OpsMeet (ordered es op).2 ops

/-! ## What a run keeps -/

/-- The nodes of a list that is in order, with the facts about their keys that keep it so. -/
structure Kept (h : NodeHeap) (list : ListT) (nodes : Nodes) : Prop where
  chain : Chain h list.head nodes
  terminated : KeysTerminated nodes
  distinct : Distinct EntryT.keyStr (nodes.map Prod.snd)
  tail : nodes ≠ [] → list.tail = lastAddr none nodes

theorem listCreate_kept (h : NodeHeap) : Kept h listCreate [] :=
  ⟨rfl, by simp [KeysTerminated], List.nodup_nil, fun h => absurd rfl h⟩

theorem absent_iff {k : List UInt8} {nodes : Nodes} :
    (∀ x ∈ nodes, ¬ HasKey k x) ↔ k ∉ (nodes.map Prod.snd).map EntryT.keyStr := by
  simp [HasKey]

section Step
variable {h : NodeHeap} {list : ListT} {nodes : Nodes}

theorem Kept.inOrder (hk : Kept h list nodes) : InOrder h list (nodes.map Prod.snd) := by
  refine ⟨nodes, hk.chain, rfl, fun a ha hf => ?_, ?_⟩
  · obtain ⟨⟨b, e⟩, hb, rfl⟩ := List.mem_map.mp ha
    obtain ⟨nx, hl⟩ := Segment.load hk.chain hb
    exact hf.not_ok hl
  · by_cases hnil : nodes = []
    · subst hnil
      exact Or.inl hk.chain
    · exact Or.inr (hk.tail hnil)

/-! ### `list_add` -/

theorem Kept.add (hk : Kept h list nodes) {entry : EntryT} (hkey : Terminated entry.key) :
    ∃ h' list' nodes', listAdd h list entry = .ok (0, h', list') ∧
      nodes'.map Prod.snd = put EntryT.keyStr entry (nodes.map Prod.snd) ∧ Kept h' list' nodes' := by
  rcases absent_or_split entry.keyStr nodes with habs | ⟨pre, a, e, post, rfl, hpre, hke⟩
  · obtain ⟨h', list', hadd, hd⟩ := listAdd_new hkey hk.terminated hk.chain habs hk.tail
    have hnew := absent_iff.mp habs
    have hput := put_new hnew
    refine ⟨h', list', _, hadd, by simpa using hput.symm, hd.chain, ?_, ?_, fun _ => ?_⟩
    · exact KeysTerminated.append.mpr ⟨hk.terminated, by simp [KeysTerminated, hkey]⟩
    · rw [List.map_append]
      exact distinct_middle.mpr ⟨by simpa using hnew, by simpa using hk.distinct⟩
    · rw [hd.tail, lastAddr_snoc]
  · have hsame : entry.keyStr = e.keyStr := (of_decide_eq_true hke).symm
    have hdist := hk.distinct
    rw [List.map_append, List.map_cons] at hdist
    obtain ⟨h', hadd, hc⟩ := listAdd_present hkey hk.terminated hk.chain hpre hke
    obtain ⟨hterm, hrest⟩ := KeysTerminated.append.mp hk.terminated
    refine ⟨h', list, _, hadd, ?_, hc, ?_, ?_, fun _ => ?_⟩
    · rw [List.map_append, List.map_cons, List.map_append, List.map_cons, hdist.put_middle hsame]
    · exact KeysTerminated.append.mpr
        ⟨hterm, KeysTerminated.cons.mpr ⟨hkey, (KeysTerminated.cons.mp hrest).2⟩⟩
    · rw [List.map_append, List.map_cons]
      exact (hdist.replace EntryT.value hsame).1
    · rw [lastAddr_setValue none pre post a e, hk.tail (by simp)]

/-! ### `list_remove` -/

/-- The key is that of the last of several entries. -/
theorem last_of_several {pre : Nodes} {a : Addr} {e : EntryT} {k : List UInt8}
    (hke : HasKey k (a, e)) (hpre : pre ≠ []) :
    2 ≤ ((pre ++ [(a, e)]).map Prod.snd).length ∧
      ((pre ++ [(a, e)]).map Prod.snd).getLast?.map EntryT.keyStr = some k := by
  have hlen := List.length_pos_iff.mpr hpre
  refine ⟨by simp only [List.length_map, List.length_append, List.length_singleton]; omega, ?_⟩
  rw [List.map_append, List.map_singleton, List.getLast?_concat, Option.map_some]
  exact congrArg some (of_decide_eq_true hke)

theorem Kept.remove (hk : Kept h list nodes) {key : Block} (hkey : Terminated key)
    (hm : OpMeets (nodes.map Prod.snd) (.remove key)) :
    ∃ code h' list' nodes', listRemove h list key = .ok (code, h', list') ∧
      (code = if cstr key ∈ (nodes.map Prod.snd).map EntryT.keyStr then 0 else -1) ∧
      nodes'.map Prod.snd = remove EntryT.keyStr (cstr key) (nodes.map Prod.snd) ∧
      Kept h' list' nodes' := by
  rcases absent_or_split (cstr key) nodes with habs | ⟨pre, a, e, post, rfl, hpre, hke⟩
  · have hnot := absent_iff.mp habs
    exact ⟨-1, h, list, nodes, listRemove_absent hkey hk.terminated hk.chain habs,
      (if_neg hnot).symm, (remove_absent hnot).symm, hk⟩
  · have hsame : e.keyStr = cstr key := of_decide_eq_true hke
    have hdist := hk.distinct
    rw [List.map_append, List.map_cons] at hdist
    obtain ⟨h', list', hrem, hd⟩ := listRemove_present hkey hk.terminated hk.chain hpre hke
    obtain ⟨hterm, hrest⟩ := KeysTerminated.append.mp hk.terminated
    refine ⟨0, h', list', pre ++ post, hrem, (if_pos (by simp [hsame])).symm, ?_, hd.chain, ?_, ?_,
      fun hne => ?_⟩
    · rw [List.map_append, List.map_append, List.map_cons, ← hsame, hdist.remove_middle]
    · exact KeysTerminated.append.mpr ⟨hterm, (KeysTerminated.cons.mp hrest).2⟩
    · rw [List.map_append]
      exact (hdist.erase EntryT.value).1
    · -- the tail is the node removed only if that was the only one
      rw [hd.tail, hk.tail (by simp)]
      by_cases hpost : post = []
      · subst hpost
        exact absurd (last_of_several hke (by simpa using hne)) hm
      · exact lastAddr_skip none pre a e hpost

/-- **After the last of several nodes is removed** `tail` points at the freed node. -/
theorem Kept.remove_last (hk : Kept h list nodes) {key : Block} (hkey : Terminated key)
    (hm : ¬ OpMeets (nodes.map Prod.snd) (.remove key)) {code : Int} {h' : NodeHeap} {list' : ListT}
    (hrun : listRemove h list key = .ok (code, h', list')) (es : List EntryT) :
    ¬ InOrder h' list' es := by
  obtain ⟨hlen, hlast⟩ := not_not.mp hm
  rcases List.eq_nil_or_concat' nodes with rfl | ⟨pre, ⟨a, e⟩, rfl⟩
  · cases hlast
  · rw [List.map_append, List.map_singleton, List.getLast?_concat, Option.map_some] at hlast
    have hke : HasKey (cstr key) (a, e) := decide_eq_true (Option.some.inj hlast)
    have hdist := hk.distinct
    rw [List.map_append, List.map_singleton] at hdist
    have hpre : ∀ x ∈ pre, ¬ HasKey (cstr key) x := by
      refine absent_iff.mpr ?_
      rw [← Option.some.inj hlast]
      simpa using (distinct_middle.mp hdist).1
    have hne : pre ≠ [] := by
      rintro rfl
      simp at hlen
    obtain ⟨h₁, list₁, hrem, hd⟩ := listRemove_present hkey hk.terminated hk.chain hpre hke
    obtain ⟨-, rfl, rfl⟩ : code = 0 ∧ h' = h₁ ∧ list' = list₁ := by simpa using hrun.symm.trans hrem
    rintro ⟨nodes, hc, -, hlive, hends⟩
    obtain rfl := Chain.tail_unique hd.chain hc
    rw [List.append_nil] at hc hlive hends
    rcases hends with hhead | htail
    · rw [hhead] at hc
      exact hne (Chain.tail_unique hc rfl)
    · rw [hd.tail, hk.tail (by simp), lastAddr_snoc] at htail
      exact hlive a (mem_of_lastAddr htail.symm) hd.freed

/-! ### `list_get` and the counts -/

theorem Kept.get (hk : Kept h list nodes) {key : Block} (hkey : Terminated key) :
    listStep h list (.get key) =
      .ok (.entry (lookup EntryT.keyStr (cstr key) (nodes.map Prod.snd)), h, list) := by
  rcases absent_or_split (cstr key) nodes with habs | ⟨pre, a, e, post, rfl, hpre, hke⟩
  · rw [listStep, listGet, listGetNode_absent hkey hk.terminated hk.chain habs,
      lookup_absent (absent_iff.mp habs)]
    rfl
  · have hdist := hk.distinct
    rw [List.map_append, List.map_cons] at hdist
    obtain ⟨nx, -, hla, -⟩ := segment_at.mp hk.chain
    rw [listStep, listGet, listGetNode_present hkey hk.terminated hk.chain hpre hke,
      List.map_append, List.map_cons, ← of_decide_eq_true hke, hdist.lookup_middle]
    simp [hla]

theorem Kept.keys (hk : Kept h list nodes) : listStep h list .getKeys =
    if (nodes.length : Int) < intMax
      then .ok (.keys ((nodes.map Prod.snd).map keyCopy), h, list) else .error .intOverflow := by
  have hfill := untilNull_filled ((nodes.map Prod.snd).map keyCopy) []
  rw [List.map_map] at hfill
  rw [listStep, listGetKeys_eq hk.terminated hk.chain]
  split
  · have hslots : untilNull (keySlots (nodes.map Prod.snd) ++ [some none]) =
        .ok ((nodes.map Prod.snd).map keyCopy) := hfill
    rw [ok_bind, hslots]
    rfl
  · rfl

/-! ### One call -/

/-- **A call that meets its condition** answers as it is to, and the list stays in order. -/
theorem Kept.step (hk : Kept h list nodes) {op : ListOp} (hop : op.Admissible)
    (hm : OpMeets (nodes.map Prod.snd) op) :
    ∃ h' list' nodes', listStep h list op = .ok ((ordered (nodes.map Prod.snd) op).1, h', list') ∧
      nodes'.map Prod.snd = (ordered (nodes.map Prod.snd) op).2 ∧ Kept h' list' nodes' := by
  have hlen : (nodes.map Prod.snd).length = nodes.length := List.length_map _
  cases op with
  | add entry =>
    obtain ⟨h', list', nodes', hadd, hmap, hk'⟩ := hk.add hop
    exact ⟨h', list', nodes', by rw [listStep, hadd]; rfl, hmap, hk'⟩
  | remove key =>
    obtain ⟨code, h', list', nodes', hrem, rfl, hmap, hk'⟩ := hk.remove hop hm
    exact ⟨h', list', nodes', by rw [listStep, hrem]; rfl, hmap, hk'⟩
  | get key => exact ⟨h, list, nodes, hk.get hop, rfl, hk⟩
  | size =>
    refine ⟨h, list, nodes, ?_, rfl, hk⟩
    have hmax : (nodes.length : Int) ≤ intMax := hlen ▸ hm
    rw [listStep, listSize_eq hk.chain, if_pos hmax, ordered, hlen]
    rfl
  | getKeys =>
    have hmax : (nodes.length : Int) < intMax := hlen ▸ hm
    exact ⟨h, list, nodes, by rw [hk.keys, if_pos hmax]; rfl, rfl, hk⟩

/-- **A call that does not** faults, or leaves the list out of order. -/
theorem Kept.step_fails (hk : Kept h list nodes) {op : ListOp} (hop : op.Admissible)
    (hm : ¬ OpMeets (nodes.map Prod.snd) op) {r : ListAnswer} {h' : NodeHeap} {list' : ListT}
    (hrun : listStep h list op = .ok (r, h', list')) (es : List EntryT) : ¬ InOrder h' list' es := by
  have hlen : (nodes.map Prod.snd).length = nodes.length := List.length_map _
  cases op with
  | add entry => exact absurd trivial hm
  | remove key =>
    obtain ⟨⟨code, h₁, list₁⟩, hrem, hret⟩ := bind_eq_ok.mp hrun
    obtain ⟨-, rfl, rfl⟩ : ListAnswer.code code = r ∧ h₁ = h' ∧ list₁ = list' := by
      simpa using hret
    exact hk.remove_last hop hm hrem es
  | get key => exact absurd trivial hm
  | size =>
    have hmax : ¬ (nodes.length : Int) ≤ intMax := hlen ▸ hm
    rw [listStep, listSize_eq hk.chain, if_neg hmax] at hrun
    cases hrun
  | getKeys =>
    have hmax : ¬ (nodes.length : Int) < intMax := hlen ▸ hm
    rw [hk.keys, if_neg hmax] at hrun
    cases hrun

end Step

/-! ## Whole runs -/

/-- From any list that is in order. -/
theorem Kept.runs_iff {h : NodeHeap} {list : ListT} {nodes : Nodes} {ops : List ListOp}
    (hk : Kept h list nodes) (hops : ∀ op ∈ ops, op.Admissible) :
    RunsInOrder h list (nodes.map Prod.snd) ops ↔ OpsMeet (nodes.map Prod.snd) ops := by
  induction ops generalizing h list nodes with
  | nil => exact Iff.rfl
  | cons op ops ih =>
    have hop := hops op List.mem_cons_self
    have hrest : ∀ x ∈ ops, x.Admissible := fun x hx => hops x (List.mem_cons_of_mem _ hx)
    by_cases hm : OpMeets (nodes.map Prod.snd) op
    · obtain ⟨h₁, list₁, nodes₁, hstep, hmap, hk₁⟩ := hk.step hop hm
      have hih := ih hk₁ hrest
      rw [hmap] at hih
      constructor
      · rintro ⟨r, h', list', hrun, -, -, hnext⟩
        obtain ⟨-, rfl, rfl⟩ : r = _ ∧ h' = h₁ ∧ list' = list₁ := by simpa using hrun.symm.trans hstep
        exact ⟨hm, hih.mp hnext⟩
      · rintro ⟨-, hnext⟩
        exact ⟨_, h₁, list₁, hstep, rfl, hmap ▸ hk₁.inOrder, hih.mpr hnext⟩
    · constructor
      · rintro ⟨r, h', list', hrun, -, horder, -⟩
        exact absurd horder (hk.step_fails hop hm hrun _)
      · exact fun h => absurd h.1 hm

/-- **A list is an association list in the order of insertion over whole runs, exactly when
no call removes the last of several entries** and the counts are `int`s. -/
theorem list_ordered_iff (ops : List ListOp) (hops : ∀ op ∈ ops, op.Admissible) :
    RunsInOrder Heap.empty listCreate [] ops ↔ OpsMeet [] ops :=
  (listCreate_kept Heap.empty).runs_iff hops

/-- The entry of a one-letter key. -/
def letterEntry (c : UInt8) : EntryT := ⟨[c, 0], some (.ofBytes [c])⟩

/-- Two entries are added and the first one is removed. -/
def firstRemoved : List ListOp :=
  [.add (letterEntry 97), .add (letterEntry 98), .remove [97, 0], .add (letterEntry 99), .getKeys]

/-- The theorem at that run. -/
theorem list_ordered_iff_firstRemoved :
    RunsInOrder Heap.empty listCreate [] firstRemoved ↔ OpsMeet [] firstRemoved :=
  list_ordered_iff firstRemoved (by simp [firstRemoved, ListOp.Admissible, letterEntry, Terminated])

/-- Two entries are added and the last one is removed. -/
def lastRemoved : List ListOp := [.add (letterEntry 97), .add (letterEntry 98), .remove [98, 0]]

/-- **Removing the last of two entries** leaves `tail` at the freed node. -/
theorem lastRemoved_not_ordered :
    (∀ op ∈ lastRemoved, op.Admissible) ∧ ¬ RunsInOrder Heap.empty listCreate [] lastRemoved := by
  have hops : ∀ op ∈ lastRemoved, op.Admissible := by
    simp [lastRemoved, ListOp.Admissible, letterEntry, Terminated]
  refine ⟨hops, fun hrun => ?_⟩
  obtain ⟨-, -, hlast, -⟩ := ((listCreate_kept Heap.empty).runs_iff hops).mp hrun
  exact hlast (by decide)

end RemoteTable
