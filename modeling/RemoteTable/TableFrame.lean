import Mathlib.Data.Nat.Digits.Lemmas
import RemoteTable.KeyListing
import RemoteTable.TableMap

/-! # What one write leaves alone

A table is `WellFormed` when every chain ends in `NULL` with `tail` at its last node, no
key occurs twice and each sits in the bucket its hash names.  `table_put` keeps all of it
and every node with another key where it is; `table_del` keeps all but the tails, and the
other nodes in their order.

`table_size` counts with an `int`: it changes as the number of entries does while that fits.
-/
namespace RemoteTable
open CMem Assoc

/-- The tail of every list that is not empty is its last node. -/
def TailsLast (t : TableT) (buckets : Buckets) : Prop :=
  ∀ (i : Nat) (list : ListT) (b : Nodes), t.listsPtr[i]? = some list → buckets[i]? = some b →
    b ≠ [] → list.tail = lastAddr none b

/-- A table as the table functions expect it. -/
structure WellFormed (t : TableT) (buckets : Buckets) : Prop where
  bucketed : Bucketed t buckets
  tails : TailsLast t buckets

/-- The key is bound in the table. -/
def Present (buckets : Buckets) (key : Block) : Prop :=
  cstr key ∈ (entries buckets).map EntryT.keyStr

instance (buckets : Buckets) (key : Block) : Decidable (Present buckets key) :=
  inferInstanceAs (Decidable (_ ∈ _))

/-- The node `x` stands at position `p` of the chain of list `j`. -/
def NodeAt (buckets : Buckets) (j p : Nat) (x : Addr × EntryT) : Prop :=
  ∃ b, buckets[j]? = some b ∧ b[p]? = some x

/-- The key of a node. -/
def nodeKey (x : Addr × EntryT) : List UInt8 := x.2.keyStr

/-- `table_size` changes by `d`. -/
def SizeMoves (t t' : TableT) (d : Int) : Prop :=
  ∃ s, tableSize t = .ok s ∧ tableSize t' = .ok (s + d)

/-- **What a `table_put` of the value `v` does**: the key is bound to it, every node with
another key is where it was, and the table stays well formed. -/
structure PutsOne (t : TableT) (buckets : Buckets) (key : Block) (v : Option DataT) (t' : TableT)
    (buckets' : Buckets) : Prop where
  wellFormed : WellFormed t' buckets'
  lists : t'.n = t.n
  others : ∀ (j p : Nat) (x : Addr × EntryT), nodeKey x ≠ cstr key →
    (NodeAt buckets' j p x ↔ NodeAt buckets j p x)
  bound : Binds EntryT.keyStr EntryT.value (entries buckets') (cstr key) v
  count : (entries buckets').length = (entries buckets).length + if Present buckets key then 0 else 1

/-- **What a `table_del` does**: the nodes with another key are those that are left, in
their order, on chains that end in `NULL`. -/
structure DelsOne (t : TableT) (buckets : Buckets) (key : Block) (t' : TableT) (buckets' : Buckets) :
    Prop where
  bucketed : Bucketed t' buckets'
  lists : t'.n = t.n
  others : buckets' = buckets.map (remove nodeKey (cstr key))
  count : (entries buckets').length + (if Present buckets key then 1 else 0) = (entries buckets).length

section Write
variable {t t' : TableT} {buckets buckets' : Buckets} {key : Block} {i : Nat} {b : Nodes}

/-- A node on two chains would hold one entry, whose key names one list. -/
theorem Bucketed.apart (hs : Bucketed t buckets) : Apart buckets := by
  intro i j b c hb hc hij a hab hac
  have hchain : ∀ {i : Nat} {b : Nodes}, buckets[i]? = some b → ∃ p, Chain t.heap p b := by
    intro i b hb
    obtain ⟨list, b', -, -, hb', hchain, -⟩ :=
      hs.shape.listAt (List.getElem?_eq_some_iff.mp hb).1
    obtain rfl := Option.some.inj (hb.symm.trans hb')
    exact ⟨_, hchain⟩
  obtain ⟨⟨_, e⟩, hx, rfl⟩ := List.mem_map.mp hab
  obtain ⟨⟨_, e'⟩, hy, rfl⟩ := List.mem_map.mp hac
  obtain ⟨p, hp⟩ := hchain hb
  obtain ⟨q, hq⟩ := hchain hc
  obtain ⟨nx, hl⟩ := Segment.load hp hx
  obtain ⟨nx', hl'⟩ := Segment.load hq hy
  obtain ⟨rfl, -⟩ := Cell.mk.inj (Except.ok.inj (hl.symm.trans hl'))
  have hsame := Except.ok.inj ((hs.placed i b hb _ hx).symm.trans (hs.placed j c hc _ hy))
  exact hij (Int.ofNat.inj hsame)

theorem WellFormed.rep (hw : WellFormed t buckets) : Rep t buckets :=
  ⟨hw.bucketed.shape, fun i list b hl hb hne => Or.inl (hw.tails i list b hl hb hne),
    hw.bucketed.apart⟩

theorem TailsLast.setList (ht : TailsLast t buckets) {heap : NodeHeap} {list : ListT} {b' : Nodes}
    (hlast : b' ≠ [] → list.tail = lastAddr none b') :
    TailsLast (t.setList i heap list) (buckets.set i b') := by
  intro j l c hl hc hne
  rcases TableT.setList_cases hl hc with ⟨rfl, rfl⟩ | ⟨-, hl, hc⟩
  · exact hlast hne
  · exact ht j l c hl hc hne

/-- A change to one bucket shows in that bucket only. -/
theorem nodeAt_set (hb : buckets[i]? = some b) {b' : Nodes} {j p : Nat} {x : Addr × EntryT}
    (hx : b'[p]? = some x ↔ b[p]? = some x) : NodeAt (buckets.set i b') j p x ↔ NodeAt buckets j p x := by
  have hi := (List.getElem?_eq_some_iff.mp hb).1
  by_cases hij : i = j
  · subst hij
    simp only [NodeAt, List.getElem?_set_self hi, hb, Option.some.injEq, exists_eq_left', hx]
  · simp only [NodeAt, List.getElem?_set_ne hij]

/-- Another element behind a list shows at its own place only. -/
theorem getElem?_snoc_iff {α : Type} {xs : List α} {y x : α} (hy : y ≠ x) {p : Nat} :
    (xs ++ [y])[p]? = some x ↔ xs[p]? = some x := by
  rw [List.getElem?_append]
  split
  · exact Iff.rfl
  · rename_i hp
    have hnone : xs[p]? = none := List.getElem?_eq_none (Nat.le_of_not_lt hp)
    rw [hnone, List.getElem?_singleton]
    split
    · simp [hy]
    · exact Iff.rfl

/-- So does an element in place of another one. -/
theorem getElem?_middle_iff {α : Type} {xs ys : List α} {y y' x : α} (hy : y ≠ x) (hy' : y' ≠ x)
    {p : Nat} : (xs ++ y' :: ys)[p]? = some x ↔ (xs ++ y :: ys)[p]? = some x := by
  rw [List.getElem?_append, List.getElem?_append]
  split
  · exact Iff.rfl
  · cases p - xs.length with
    | zero => simp [hy, hy']
    | succ k => exact Iff.rfl

/-- A key that a node of its bucket has is present. -/
theorem Located.present {pre post : Nodes} {a : Addr} {e : EntryT}
    (hl : Located t buckets key i (pre ++ (a, e) :: post)) (hk : HasKey (cstr key) (a, e)) :
    Present buckets key := by
  have hmem := mem_keys hl.bucket (List.mem_append_right pre List.mem_cons_self)
  rwa [show (a, e).2.keyStr = cstr key from of_decide_eq_true hk] at hmem

/-! ## `table_put` -/

theorem WellFormed.put_new (hw : WellFormed t buckets) (hl : Located t buckets key i b)
    (junk : Nat → UInt8) {value v : Option DataT} (hdup : dataDup junk value = .ok v)
    (habs : ∀ x ∈ b, ¬ HasKey (cstr key) x) :
    ∃ t' buckets', tablePut junk t key value = .ok (0, t') ∧ PutsOne t buckets key v t' buckets' := by
  obtain ⟨list, -, hlist, -, -, -⟩ := hl.list hw.bucketed.shape
  obtain ⟨heap, list', hput, hd⟩ := tablePut_adds junk hdup hw.bucketed.shape hl habs hlist
    (hw.tails i list b hlist hl.bucket)
  have hek := keyStr_newEntry key v
  have hnot : ¬ Present buckets key := (hw.bucketed.absent_iff hl).mp habs
  obtain ⟨hdist, hlen, hbinds⟩ := hw.bucketed.insert hl habs t.heap.size hek
  have hrep := hw.rep.added hl (terminated_newEntry key v) hd
  have htails : TailsLast (t.setList i heap list') (buckets.set i (b ++ [(t.heap.size, newEntry key v)])) := by
    refine hw.tails.setList fun _ => ?_
    rw [hd.tail, lastAddr_snoc]
  refine ⟨_, _, hput, ⟨hw.bucketed.setBucket hl hrep.shape rfl hdist ?_, htails⟩, rfl, ?_, ?_, ?_⟩
  · intro x hx
    rcases List.mem_append.mp hx with hx | hx
    · exact Or.inl hx
    · obtain rfl := List.mem_singleton.mp hx
      exact Or.inr hek
  · -- the new node stands behind all others
    intro j p x hx
    apply nodeAt_set hl.bucket
    apply getElem?_snoc_iff
    rintro rfl
    exact hx hek
  · apply (hbinds _ _).mpr
    rw [if_pos rfl]
    rfl
  · rw [if_neg hnot, hlen]

theorem WellFormed.put_present (hw : WellFormed t buckets) {pre post : Nodes} {a : Addr} {e : EntryT}
    (hl : Located t buckets key i (pre ++ (a, e) :: post)) (junk : Nat → UInt8)
    {value v : Option DataT} (hdup : dataDup junk value = .ok v)
    (hpre : ∀ x ∈ pre, ¬ HasKey (cstr key) x) (hk : HasKey (cstr key) (a, e)) :
    ∃ t' buckets', tablePut junk t key value = .ok (0, t') ∧ PutsOne t buckets key v t' buckets' := by
  obtain ⟨list, heap, hlist, hput, hf, hc⟩ := tablePut_replaces junk hdup hw.bucketed.shape hl hpre hk
  have hek : e.keyStr = cstr key := of_decide_eq_true hk
  have hin := hl.present hk
  obtain ⟨hdist, hlen, hbinds⟩ := hw.bucketed.replace hl hek
    (show EntryT.keyStr { e with value := v } = e.keyStr from rfl)
  have hrep := hw.rep.replaced hl hlist hf hc
  have htails : TailsLast (t.setList i heap list)
      (buckets.set i (pre ++ (a, { e with value := v }) :: post)) := by
    refine hw.tails.setList fun _ => ?_
    rw [lastAddr_setValue none pre post a e, hw.tails i list _ hlist hl.bucket (by simp)]
  refine ⟨_, _, hput, ⟨hw.bucketed.setBucket hl hrep.shape rfl hdist ?_, htails⟩, rfl, ?_, ?_, ?_⟩
  · intro x hx
    rcases List.mem_append.mp hx with hx | hx
    · exact Or.inl (List.mem_append_left _ hx)
    · rcases List.mem_cons.mp hx with rfl | hx
      · exact Or.inr hek
      · exact Or.inl (by simp [hx])
  · -- the node keeps its place, and it is the key's own
    intro j p x hx
    apply nodeAt_set hl.bucket
    apply getElem?_middle_iff
    · rintro rfl
      exact hx hek
    · rintro rfl
      exact hx hek
  · apply (hbinds _ _).mpr
    rw [if_pos rfl]
  · rw [if_pos hin, hlen, Nat.add_zero]

/-! ## `table_del` -/

/-- The keys of one bucket are distinct, as all keys are. -/
theorem Bucketed.distinct_bucket (hs : Bucketed t buckets) (hb : buckets[i]? = some b) :
    Distinct nodeKey b := by
  obtain ⟨es₁, es₂, hes, -⟩ := entries_split hb
  have hdist := hs.distinct
  rw [hes, Distinct, List.map_append, List.map_append, List.map_map] at hdist
  exact (List.nodup_append.mp (List.nodup_append.mp hdist).1).2.1

/-- Taking the nodes with a key out of every bucket takes them out of the bucket of that
key. -/
theorem Bucketed.remove_eq_set (hs : Bucketed t buckets) (hl : Located t buckets key i b) :
    buckets.map (remove nodeKey (cstr key)) = buckets.set i (remove nodeKey (cstr key) b) := by
  refine List.ext_getElem? fun j => ?_
  rw [List.getElem?_map]
  by_cases hij : i = j
  · subst hij
    rw [List.getElem?_set_self (List.getElem?_eq_some_iff.mp hl.bucket).1, hl.bucket, Option.map_some]
  · rw [List.getElem?_set_ne hij]
    cases hc : buckets[j]? with
    | none => rfl
    | some c =>
      refine congrArg some (remove_absent fun hmem => ?_)
      obtain ⟨x, hx, hk⟩ := List.mem_map.mp hmem
      exact hij (hs.index_eq hl hc hx hk)

theorem WellFormed.del_present (hw : WellFormed t buckets) {pre post : Nodes} {a : Addr} {e : EntryT}
    (hl : Located t buckets key i (pre ++ (a, e) :: post)) (hpre : ∀ x ∈ pre, ¬ HasKey (cstr key) x)
    (hk : HasKey (cstr key) (a, e)) :
    ∃ t' buckets', tableDel t key = .ok (0, t') ∧ DelsOne t buckets key t' buckets' := by
  obtain ⟨t', hdel, hr, hn⟩ := tableDel_present hw.rep hl hpre hk
  have hek : nodeKey (a, e) = cstr key := of_decide_eq_true hk
  have hin := hl.present hk
  obtain ⟨hdist, hlen, -⟩ := hw.bucketed.erase hl hek
  refine ⟨t', _, hdel, hw.bucketed.setBucket hl hr.shape hn hdist fun x hx => Or.inl ?_, hn, ?_, ?_⟩
  · rcases List.mem_append.mp hx with hx | hx
    · exact List.mem_append_left _ hx
    · exact List.mem_append_right _ (List.mem_cons_of_mem _ hx)
  · rw [hw.bucketed.remove_eq_set hl, ← hek, (hw.bucketed.distinct_bucket hl.bucket).remove_middle]
  · rw [if_pos hin, hlen]

theorem WellFormed.del_absent (hw : WellFormed t buckets) (hl : Located t buckets key i b)
    (habs : ∀ x ∈ b, ¬ HasKey (cstr key) x) :
    tableDel t key = .ok (-1, t) ∧ DelsOne t buckets key t buckets := by
  have hnot : ¬ Present buckets key := (hw.bucketed.absent_iff hl).mp habs
  refine ⟨tableDel_absent hw.bucketed.shape hl habs, hw.bucketed, rfl, ?_, by
    rw [if_neg hnot, Nat.add_zero]⟩
  have hself : remove nodeKey (cstr key) b = b := by
    refine remove_absent fun hmem => ?_
    obtain ⟨x, hx, hk⟩ := List.mem_map.mp hmem
    exact habs x hx (decide_eq_true hk)
  obtain ⟨hi, hget⟩ := List.getElem?_eq_some_iff.mp hl.bucket
  rw [hw.bucketed.remove_eq_set hl, hself, ← hget, List.set_getElem_self]

/-! ## `table_size` -/

/-- **`table_size` follows the number of entries** while that is an `int`. -/
theorem sizeMoves_of_count (hs : Shape t buckets) (hs' : Shape t' buckets') {d : Int}
    (hcount : ((entries buckets').length : Int) = (entries buckets).length + d)
    (hle : ((entries buckets).length : Int) ≤ intMax)
    (hle' : ((entries buckets').length : Int) ≤ intMax) : SizeMoves t t' d := by
  refine ⟨(entries buckets).length, ?_, ?_⟩
  · rw [tableSize_eq hs, if_pos hle]
  · rw [tableSize_eq hs', if_pos hle', hcount]

end Write

/-! ## One write -/

/-- Either write does what it is to do to the one binding, and `table_size` follows as long
as the number of entries is an `int`. -/
def WritesOne (t : TableT) (buckets : Buckets) (key : Block) (junk : Nat → UInt8) : Prop :=
  (∀ d : DataT, d.Sized → ∃ v t' buckets', dataDup junk (some d) = .ok v ∧
    tablePut junk t key (some d) = .ok (0, t') ∧ PutsOne t buckets key v t' buckets' ∧
    (((entries buckets).length : Int) ≤ intMax → ((entries buckets').length : Int) ≤ intMax →
      SizeMoves t t' (if Present buckets key then 0 else 1))) ∧
  ∃ t' buckets', tableDel t key = .ok (if Present buckets key then 0 else -1, t') ∧
    DelsOne t buckets key t' buckets' ∧
    (((entries buckets).length : Int) ≤ intMax → ((entries buckets').length : Int) ≤ intMax →
      SizeMoves t t' (if Present buckets key then -1 else 0))

/-- **One write touches one binding**: of every well-formed table, for every key whose
index is valid, every value of at least one byte and everything `malloc` may hand out. -/
theorem write_touches_one (t : TableT) (buckets : Buckets) (hw : WellFormed t buckets) (key : Block)
    (hkey : InRange t.n key) (junk : Nat → UInt8) : WritesOne t buckets key junk := by
  obtain ⟨i, b, hl⟩ := hkey.located hw.bucketed.shape
  have hputSize : ∀ {v t' buckets'}, PutsOne t buckets key v t' buckets' →
      ((entries buckets).length : Int) ≤ intMax → ((entries buckets').length : Int) ≤ intMax →
        SizeMoves t t' (if Present buckets key then 0 else 1) := by
    intro v t' buckets' h
    refine sizeMoves_of_count hw.bucketed.shape h.wellFormed.bucketed.shape ?_
    rw [h.count]
    split <;> simp
  have hdelSize : ∀ {t' buckets'}, DelsOne t buckets key t' buckets' →
      ((entries buckets).length : Int) ≤ intMax → ((entries buckets').length : Int) ≤ intMax →
        SizeMoves t t' (if Present buckets key then -1 else 0) := by
    intro t' buckets' h
    refine sizeMoves_of_count hw.bucketed.shape h.bucketed.shape ?_
    rw [← h.count]
    split <;> simp
  rcases absent_or_split (cstr key) b with habs | ⟨pre, a, e, post, rfl, hpre, hk⟩
  · have hnot : ¬ Present buckets key := (hw.bucketed.absent_iff hl).mp habs
    constructor
    · intro d hd
      obtain ⟨v, hdup⟩ := dataDup_sized junk hd
      obtain ⟨t', buckets', hput, hone⟩ := hw.put_new hl junk hdup habs
      exact ⟨v, t', buckets', hdup, hput, hone, hputSize hone⟩
    · obtain ⟨hdel, hone⟩ := hw.del_absent hl habs
      exact ⟨t, buckets, by rw [hdel, if_neg hnot], hone, hdelSize hone⟩
  · have hek : e.keyStr = cstr key := of_decide_eq_true hk
    have hin := hl.present hk
    constructor
    · intro d hd
      obtain ⟨v, hdup⟩ := dataDup_sized junk hd
      obtain ⟨t', buckets', hput, hone⟩ := hw.put_present hl junk hdup hpre hk
      exact ⟨v, t', buckets', hdup, hput, hone, hputSize hone⟩
    · obtain ⟨t', buckets', hdel, hone⟩ := hw.del_present hl hpre hk
      exact ⟨t', buckets', by rw [hdel, if_pos hin], hone, hdelSize hone⟩

/-! ### A table of one list -/

/-- A key that is not too long has index 0 there. -/
theorem getHashIndex_one {key : Block} (hkey : Terminated key)
    (hlen : 128 * ((cstr key).length : Int) ≤ intMax) : getHashIndex key 1 = .ok 0 := by
  obtain ⟨index, hhash, hlo, hhi⟩ :=
    (getHashIndex_iff hkey (show (1 : Int) ≤ 1 by decide)).mpr (hashFits_one hlen)
  obtain rfl : index = 0 := by omega
  exact hhash

theorem oneList_wellFormed {es : List EntryT}
    (hkeys : ∀ e ∈ es, Terminated e.key ∧ 128 * (e.keyStr.length : Int) ≤ intMax)
    (hd : Distinct EntryT.keyStr es) : WellFormed (oneList es).gTable [es.mapIdx Prod.mk] := by
  refine ⟨⟨oneList_shape fun e he => (hkeys e he).1, ?_, by rwa [entries_oneList]⟩, ?_⟩
  · intro i b hb x hx
    cases i with
    | zero =>
      obtain rfl := Option.some.inj hb
      obtain ⟨j, hj, rfl⟩ := List.mem_mapIdx.mp hx
      obtain ⟨hterm, hlen⟩ := hkeys _ (List.getElem_mem hj)
      exact getHashIndex_one hterm hlen
    | succ i => cases hb
  · intro i list b hlist hb hne
    exact oneList_tail hlist hb hne

/-- The theorem for two keys with the same sum, the second of which is written. -/
theorem write_touches_one_anagram :
    WritesOne (oneList [⟨[97, 98, 0], some (.ofBytes [1])⟩, ⟨[98, 97, 0], some (.ofBytes [2])⟩]).gTable
      [List.mapIdx Prod.mk [⟨[97, 98, 0], some (.ofBytes [1])⟩, ⟨[98, 97, 0], some (.ofBytes [2])⟩]]
      [98, 97, 0] fun _ => 0 :=
  write_touches_one _ _ (oneList_wellFormed (by decide) (by decide)) _ ⟨0, by decide⟩ _

/-- A number below 2^31 is a short key. -/
theorem length_numberedKey {i : Nat} (hi : i < 2147483648) : (numberedKey i).length ≤ 4 := by
  rw [numberedKey, List.length_map, Nat.digits_length_le_iff (by decide)]
  omega

/-- The table of numbered entries is well formed, and the next number is a new key. -/
theorem numberedEntries_wellFormed {count : Nat} (hcount : (count : Int) ≤ intMax) :
    WellFormed (oneList (numberedEntries count)).gTable [(numberedEntries count).mapIdx Prod.mk] ∧
      InRange 1 (numberedKey count ++ [0]) ∧
      ¬ Present [(numberedEntries count).mapIdx Prod.mk] (numberedKey count ++ [0]) := by
  have hlen : ∀ i ≤ count, 128 * ((numberedKey i).length : Int) ≤ intMax := by
    intro i hi
    have := length_numberedKey (i := i) (by unfold intMax at hcount; omega)
    unfold intMax
    omega
  have hstr : ∀ i, cstr (numberedKey i ++ [0]) = numberedKey i :=
    fun i => cstr_append_nul (numberedKey_no_nul i) []
  refine ⟨oneList_wellFormed ?_ (numberedEntries_distinct count), ⟨0, ?_, by decide⟩, ?_⟩
  · intro e he
    obtain ⟨i, hi, rfl⟩ := List.mem_map.mp he
    refine ⟨terminated_append_nul _ _, ?_⟩
    rw [EntryT.keyStr, hstr]
    exact hlen i (Nat.le_of_lt (List.mem_range.mp hi))
  · exact getHashIndex_one (terminated_append_nul _ _) (by rw [hstr]; exact hlen count (Nat.le_refl _))
  · rw [Present, hstr, entries_oneList, numberedEntries, List.map_map]
    intro hmem
    obtain ⟨i, hi, hk⟩ := List.mem_map.mp hmem
    obtain rfl := numberedKey_injective ((hstr i).symm.trans hk)
    exact Nat.lt_irrefl i (List.mem_range.mp hi)

/-- A new key in a table of `INT_MAX` entries makes `table_size` overflow. -/
theorem WellFormed.put_overflows {t : TableT} {buckets : Buckets} (hw : WellFormed t buckets)
    (hfull : ((entries buckets).length : Int) = intMax) {key : Block} (hkey : InRange t.n key)
    (hnot : ¬ Present buckets key) (junk : Nat → UInt8) {value v : Option DataT}
    (hdup : dataDup junk value = .ok v) :
    ∃ t', tablePut junk t key value = .ok (0, t') ∧ ¬ SizeMoves t t' 1 := by
  obtain ⟨i, b, hl⟩ := hkey.located hw.bucketed.shape
  obtain ⟨t', buckets', hput, hone⟩ := hw.put_new hl junk hdup ((hw.bucketed.absent_iff hl).mpr hnot)
  refine ⟨t', hput, ?_⟩
  rintro ⟨s, -, hsize⟩
  have hcount := hone.count
  rw [if_neg hnot] at hcount
  rw [tableSize_eq hone.wellFormed.bucketed.shape, if_neg (by omega)] at hsize
  cases hsize

/-- **With `INT_MAX` entries `table_size` does not follow**: the table is well formed, the key
is new and has a valid index, and after the write `table_size` overflows. -/
theorem fullTable_not_moves :
    WellFormed (oneList (numberedEntries intMax.toNat)).gTable
        [(numberedEntries intMax.toNat).mapIdx Prod.mk] ∧
      InRange 1 (numberedKey intMax.toNat ++ [0]) ∧
      ¬ Present [(numberedEntries intMax.toNat).mapIdx Prod.mk] (numberedKey intMax.toNat ++ [0]) ∧
      ∃ t', tablePut (fun _ => 0) (oneList (numberedEntries intMax.toNat)).gTable
          (numberedKey intMax.toNat ++ [0]) (some (.ofBytes [1])) = .ok (0, t') ∧
        ¬ SizeMoves (oneList (numberedEntries intMax.toNat)).gTable t' 1 := by
  have hmax : (intMax.toNat : Int) = intMax := Int.toNat_of_nonneg (by decide)
  obtain ⟨hw, hkey, hnot⟩ := numberedEntries_wellFormed (Int.le_of_eq hmax)
  have hvalid : (DataT.ofBytes [1]).Valid := DataT.valid_ofBytes (by simp) (by decide)
  refine ⟨hw, hkey, hnot, hw.put_overflows ?_ hkey hnot _ (dataDup_valid _ hvalid)⟩
  rw [length_numberedEntries, hmax]

end RemoteTable
