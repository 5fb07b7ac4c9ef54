import RemoteTable.HashIndex

/-! # What the table functions do to the buckets

One specification per function and case.  A key is handled in the bucket its
hash names (`Located`); there it is absent, or the bucket splits at the node
that has it (`absent_or_split`).  A `table_put` of a new key has the one bad
case: a bucket with nodes in it whose `tail` was freed.
-/
namespace RemoteTable
open CMem

/-- The hash of `key` names the bucket `b`, at index `i`. -/
structure Located (t : TableT) (buckets : Buckets) (key : Block) (i : Nat) (b : Nodes) : Prop where
  hash : getHashIndex key t.n = .ok i
  bucket : buckets[i]? = some b

/-- `list_get` finds no entry with the key in the list the hash names. -/
def KeyAbsent (t : TableT) (key : Block) : Prop :=
  ∃ index list, getHashIndex key t.n = .ok index ∧ t.listAt index = .ok list ∧
    listGet t.heap list key = .ok none

/-- The list the hash names has nodes, and its `tail` points at one that has been
freed. -/
def StaleTail (t : TableT) (key : Block) : Prop :=
  ∃ index list a, getHashIndex key t.n = .ok index ∧ t.listAt index = .ok list ∧
    list.head ≠ none ∧ list.tail = some a ∧ t.heap.Freed a

/-- The hash of the key is an index of the table's array. -/
def InRange (n : Int) (key : Block) : Prop :=
  ∃ index, getHashIndex key n = .ok index ∧ 0 ≤ index ∧ index < n

/-- **The hash of an ASCII key is an index of the table.** -/
theorem inRange_ascii {s : List UInt8} (hs : ∀ c ∈ s, c ≠ 0 ∧ c.toNat < 128)
    (hlen : 127 * (s.length : Int) ≤ intMax) {n : Int} (hn : 1 ≤ n) : InRange n (s ++ [0]) := by
  apply (getHashIndex_iff (terminated_append_nul s []) hn).mpr
  rw [cstr_append_nul fun h0 => (hs 0 h0).1 rfl]
  exact hashFits_ascii hs hlen n

section Spec
variable {t : TableT} {buckets : Buckets} {key : Block} {i : Nat} {b : Nodes}

theorem InRange.located (hs : Shape t buckets) (hk : InRange t.n key) :
    ∃ i b, Located t buckets key i b := by
  obtain ⟨index, hhash, hlo, hhi⟩ := hk
  rw [hs.n_eq] at hhi
  refine ⟨index.toNat, _, ⟨?_, List.getElem?_eq_getElem (by omega)⟩⟩
  rw [hhash, Int.toNat_of_nonneg hlo]

theorem Located.inRange (hs : Shape t buckets) (hl : Located t buckets key i b) :
    InRange t.n key := by
  have := (List.getElem?_eq_some_iff.mp hl.bucket).1
  exact ⟨i, hl.hash, by omega, by rw [hs.n_eq]; omega⟩

/-- The list a located key is handled in. -/
theorem Located.list (hs : Shape t buckets) (hl : Located t buckets key i b) :
    ∃ list, t.listAt i = .ok list ∧ t.listsPtr[i]? = some list ∧ Chain t.heap list.head b ∧
      KeysTerminated b ∧ Terminated key := by
  obtain ⟨list, b', hat, hlist, hb', hc, hk⟩ :=
    hs.listAt (List.getElem?_eq_some_iff.mp hl.bucket).1
  obtain rfl : b' = b := Option.some.inj (hb'.symm.trans hl.bucket)
  exact ⟨list, hat, hlist, hc, hk, getHashIndex_terminated hl.hash⟩

/-- `KeyAbsent` is absence from the bucket. -/
theorem Located.keyAbsent_iff (hs : Shape t buckets) (hl : Located t buckets key i b) :
    KeyAbsent t key ↔ ∀ x ∈ b, ¬ HasKey (cstr key) x := by
  obtain ⟨list, hat, -, hc, hk, hterm⟩ := hl.list hs
  constructor
  · rintro ⟨index, list', hhash, hat', hget⟩
    obtain rfl : index = i := Except.ok.inj (hhash.symm.trans hl.hash)
    obtain rfl : list' = list := Except.ok.inj (hat'.symm.trans hat)
    rw [listGet, listGetNode_eq hterm hk hc] at hget
    have hnone := Except.ok.inj hget
    rw [Option.map_eq_none_iff] at hnone
    exact List.find?_eq_none.mp hnone
  · intro habs
    exact ⟨i, list, hl.hash, hat, listGetNode_absent hterm hk hc habs⟩

/-- `StaleTail`, for a bucket known by its nodes. -/
theorem Located.staleTail_iff (hs : Shape t buckets) (hl : Located t buckets key i b)
    {list : ListT} (hlist : t.listsPtr[i]? = some list) :
    StaleTail t key ↔ b ≠ [] ∧ ∃ a, list.tail = some a ∧ t.heap.Freed a := by
  obtain ⟨list', hat, hlist', hc, -, -⟩ := hl.list hs
  obtain rfl : list' = list := Option.some.inj (hlist'.symm.trans hlist)
  have hhead : list'.head = none ↔ b = [] := by
    cases b with
    | nil => exact ⟨fun _ => rfl, fun _ => hc⟩
    | cons x b => exact ⟨fun h => absurd (h.symm.trans hc.1) (by simp), nofun⟩
  constructor
  · rintro ⟨index, list, a, hhash, hat', hne, ha, hf⟩
    obtain rfl : index = i := Except.ok.inj (hhash.symm.trans hl.hash)
    obtain rfl : list = list' := Except.ok.inj (hat'.symm.trans hat)
    exact ⟨fun hb => hne (hhead.mpr hb), a, ha, hf⟩
  · rintro ⟨hne, a, ha, hf⟩
    exact ⟨i, list', a, hl.hash, hat, fun h => hne (hhead.mp h), ha, hf⟩

/-- Writing a list back where it was read. -/
theorem TableT.setList_self {list : ListT} (hlist : t.listsPtr[i]? = some list) :
    t.setList i t.heap list = t := by
  obtain ⟨hi, rfl⟩ := List.getElem?_eq_some_iff.mp hlist
  simp [TableT.setList]

theorem TableT.setList_heap {list : ListT} (hlist : t.listsPtr[i]? = some list) (heap : NodeHeap) :
    t.setList i heap list = { t with heap := heap } := by
  obtain ⟨hi, rfl⟩ := List.getElem?_eq_some_iff.mp hlist
  simp [TableT.setList]

@[simp] theorem TableT.setList_n (heap : NodeHeap) (list : ListT) (index : Int) :
    (t.setList index heap list).n = t.n := rfl

/-! ## `table_get` -/

theorem tableGet_absent (junk : Nat → UInt8) (hs : Shape t buckets)
    (hl : Located t buckets key i b) (habs : ∀ x ∈ b, ¬ HasKey (cstr key) x) :
    tableGet junk t key = .ok none := by
  obtain ⟨list, hat, -, hc, hk, hterm⟩ := hl.list hs
  simp [tableGet, hl.hash, hat, listGet, listGetNode_absent hterm hk hc habs]

theorem tableGet_present (junk : Nat → UInt8) (hs : Shape t buckets) {pre post : Nodes} {a : Addr}
    {e : EntryT} (hl : Located t buckets key i (pre ++ (a, e) :: post))
    (hpre : ∀ x ∈ pre, ¬ HasKey (cstr key) x) (hk : HasKey (cstr key) (a, e)) :
    tableGet junk t key = dataDup junk e.value := by
  obtain ⟨list, hat, -, hc, hkt, hterm⟩ := hl.list hs
  obtain ⟨nx, -, hla, -⟩ := segment_at.mp hc
  simp [tableGet, hl.hash, hat, listGet, listGetNode_present hterm hkt hc hpre hk, hla]

/-! ## `table_del` -/

theorem tableDel_absent (hs : Shape t buckets) (hl : Located t buckets key i b)
    (habs : ∀ x ∈ b, ¬ HasKey (cstr key) x) : tableDel t key = .ok (-1, t) := by
  obtain ⟨list, hat, hlist, hc, hk, hterm⟩ := hl.list hs
  simp [tableDel, hl.hash, hat, listRemove_absent hterm hk hc habs, TableT.setList_self hlist]

/-- Taking a node out of a bucket leaves a last node that was there before, or
none. -/
theorem lastAddr_remove (pre post : Nodes) (a : Addr) (e : EntryT) :
    lastAddr none (pre ++ (a, e) :: post) = some a ∨
      lastAddr none (pre ++ (a, e) :: post) = lastAddr none (pre ++ post) := by
  by_cases hpost : post = []
  · exact Or.inl (hpost ▸ lastAddr_snoc none pre a e)
  · exact Or.inr (lastAddr_skip none pre a e hpost)

/-- `table_del` of a present key is `list_remove` from the list its hash names. -/
theorem tableDel_removes (hs : Shape t buckets) {pre post : Nodes} {a : Addr} {e : EntryT}
    (hl : Located t buckets key i (pre ++ (a, e) :: post))
    (hpre : ∀ x ∈ pre, ¬ HasKey (cstr key) x) (hk : HasKey (cstr key) (a, e)) :
    ∃ list heap list', t.listsPtr[i]? = some list ∧
      tableDel t key = .ok (0, t.setList i heap list') ∧ Removed t.heap list pre post a heap list' := by
  obtain ⟨list, hat, hlist, hc, hkt, hterm⟩ := hl.list hs
  obtain ⟨heap, list', hrem, hd⟩ := listRemove_present hterm hkt hc hpre hk
  exact ⟨list, heap, list', hlist, by simp [tableDel, hl.hash, hat, hrem], hd⟩

theorem tableDel_present (hr : Rep t buckets) {pre post : Nodes} {a : Addr} {e : EntryT}
    (hl : Located t buckets key i (pre ++ (a, e) :: post))
    (hpre : ∀ x ∈ pre, ¬ HasKey (cstr key) x) (hk : HasKey (cstr key) (a, e)) :
    ∃ t', tableDel t key = .ok (0, t') ∧ Rep t' (buckets.set i (pre ++ post)) ∧ t'.n = t.n := by
  obtain ⟨list, heap, list', hlist, hdel, hd⟩ := tableDel_removes hr.shape hl hpre hk
  obtain ⟨-, -, -, -, hkt, -⟩ := hl.list hr.shape
  obtain ⟨hkpre, hkpost⟩ := KeysTerminated.append.mp hkt
  refine ⟨t.setList i heap list', hdel, ?_, rfl⟩
  refine hr.setList hl.bucket hd.frame ?_ hd.chain
    (KeysTerminated.append.mpr ⟨hkpre, (KeysTerminated.cons.mp hkpost).2⟩) ?_ ?_
  · intro x hx
    rcases List.mem_cons.mp hx with rfl | hx
    · simp
    · simp only [addrs, List.map_append, List.mem_append]
      exact Or.inl hx
  · intro x hx
    simp only [addrs, List.map_append, List.mem_append, List.map_cons, List.mem_cons] at hx ⊢
    exact Or.inl (hx.imp_right Or.inr)
  · intro _
    rw [hd.tail]
    rcases hr.tails i list _ hlist hl.bucket (by simp) with h | ⟨s, hs, hfr⟩
    · rcases lastAddr_remove pre post a e with hlast | hlast
      · exact Or.inr ⟨a, h.trans hlast, hd.freed⟩
      · exact Or.inl (h.trans hlast)
    · exact Or.inr ⟨s, hs, hd.frame.freed s hfr⟩

/-! ## `table_put` -/

/-- `table_put` of a present key replaces the value in the node that has it. -/
theorem tablePut_replaces (junk : Nat → UInt8) {value v : Option DataT}
    (hdup : dataDup junk value = .ok v) (hs : Shape t buckets) {pre post : Nodes} {a : Addr}
    {e : EntryT} (hl : Located t buckets key i (pre ++ (a, e) :: post))
    (hpre : ∀ x ∈ pre, ¬ HasKey (cstr key) x) (hk : HasKey (cstr key) (a, e)) :
    ∃ list heap, t.listsPtr[i]? = some list ∧
      tablePut junk t key value = .ok (0, t.setList i heap list) ∧ t.heap.Frame heap [a] ∧
      Chain heap list.head (pre ++ (a, { e with value := v }) :: post) := by
  obtain ⟨list, hat, hlist, hc, hkt, hterm⟩ := hl.list hs
  obtain ⟨nx, -, hla, -⟩ := segment_at.mp hc
  refine ⟨list, ⟨t.heap.cells.set a (some ⟨{ e with value := v }, nx⟩)⟩, hlist, ?_,
    .set hla (by simp) _, hc.setVal hla⟩
  rw [TableT.setList_heap hlist]
  simp [tablePut, hl.hash, hat, listGet, listGetNode_present hterm hkt hc hpre hk, hla, hdup,
    Heap.store_ok hla]

/-- Another value in a node leaves the keys strings. -/
theorem KeysTerminated.setValue {pre post : Nodes} {a : Addr} {e : EntryT} (v : Option DataT)
    (hk : KeysTerminated (pre ++ (a, e) :: post)) :
    KeysTerminated (pre ++ (a, { e with value := v }) :: post) := by
  obtain ⟨h₁, h₂⟩ := KeysTerminated.append.mp hk
  obtain ⟨h₂, h₃⟩ := KeysTerminated.cons.mp h₂
  exact KeysTerminated.append.mpr ⟨h₁, KeysTerminated.cons.mpr ⟨h₂, h₃⟩⟩

/-- Another value in a node leaves the table in good order. -/
theorem Rep.replaced (hr : Rep t buckets) {pre post : Nodes} {a : Addr} {e : EntryT}
    (hl : Located t buckets key i (pre ++ (a, e) :: post)) {list : ListT}
    (hlist : t.listsPtr[i]? = some list) {heap : NodeHeap} (hf : t.heap.Frame heap [a])
    {v : Option DataT} (hc : Chain heap list.head (pre ++ (a, { e with value := v }) :: post)) :
    Rep (t.setList i heap list) (buckets.set i (pre ++ (a, { e with value := v }) :: post)) := by
  obtain ⟨-, -, -, -, hkt, -⟩ := hl.list hr.shape
  refine hr.setList hl.bucket hf (by simp) hc (hkt.setValue v) ?_ ?_
  · intro x hx
    exact Or.inl (by simpa [addrs] using hx)
  · intro _
    rw [lastAddr_setValue none pre post a e]
    rcases hr.tails i list _ hlist hl.bucket (by simp) with h | ⟨s, hs, hfr⟩
    · exact Or.inl h
    · exact Or.inr ⟨s, hs, hf.freed s hfr⟩

theorem tablePut_present (junk : Nat → UInt8) {value v : Option DataT}
    (hdup : dataDup junk value = .ok v) (hr : Rep t buckets) {pre post : Nodes} {a : Addr}
    {e : EntryT} (hl : Located t buckets key i (pre ++ (a, e) :: post))
    (hpre : ∀ x ∈ pre, ¬ HasKey (cstr key) x) (hk : HasKey (cstr key) (a, e)) :
    ∃ t', tablePut junk t key value = .ok (0, t') ∧
      Rep t' (buckets.set i (pre ++ (a, { e with value := v }) :: post)) ∧ t'.n = t.n := by
  obtain ⟨list, heap, hlist, hput, hf, hc⟩ := tablePut_replaces junk hdup hr.shape hl hpre hk
  exact ⟨t.setList i heap list, hput, hr.replaced hl hlist hf hc, rfl⟩

/-- The node `table_put` adds for a new key. -/
def newEntry (key : Block) (v : Option DataT) : EntryT := ⟨cstr key ++ [0], v⟩

@[simp] theorem keyStr_newEntry (key : Block) (v : Option DataT) :
    (newEntry key v).keyStr = cstr key := by
  simp [newEntry, EntryT.keyStr, cstr_append_nul (cstr_no_nul key)]

theorem terminated_newEntry (key : Block) (v : Option DataT) : Terminated (newEntry key v).key :=
  terminated_append_nul _ _

/-- `table_put` of a new key is `list_add` of the copy. -/
theorem tablePut_absent_eq (junk : Nat → UInt8) {value v : Option DataT}
    (hdup : dataDup junk value = .ok v) (hs : Shape t buckets) (hl : Located t buckets key i b)
    (habs : ∀ x ∈ b, ¬ HasKey (cstr key) x) {list : ListT} (hat : t.listAt i = .ok list) :
    tablePut junk t key value = do
      let (_, heap, list) ← listAdd t.heap list (newEntry key v)
      return (0, t.setList i heap list) := by
  obtain ⟨list', hat', -, hc, hkt, hterm⟩ := hl.list hs
  obtain rfl : list' = list := Except.ok.inj (hat'.symm.trans hat)
  simp [tablePut, hl.hash, hat, listGet, listGetNode_absent hterm hkt hc habs, hterm.strdup, hdup,
    newEntry, entryCreate]

/-- `table_put` of a new key puts a node behind the others when the tail is the last one. -/
theorem tablePut_adds (junk : Nat → UInt8) {value v : Option DataT}
    (hdup : dataDup junk value = .ok v) (hs : Shape t buckets) (hl : Located t buckets key i b)
    (habs : ∀ x ∈ b, ¬ HasKey (cstr key) x) {list : ListT} (hlist : t.listsPtr[i]? = some list)
    (htail : b ≠ [] → list.tail = lastAddr none b) :
    ∃ heap list', tablePut junk t key value = .ok (0, t.setList i heap list') ∧
      Added t.heap b (newEntry key v) heap list' := by
  obtain ⟨list₀, hat, hlist₀, hc, hkt, -⟩ := hl.list hs
  obtain rfl : list₀ = list := Option.some.inj (hlist₀.symm.trans hlist)
  obtain ⟨heap, list', hadd, hd⟩ := listAdd_new (terminated_newEntry key v) hkt hc
    (by simpa using habs) htail
  refine ⟨heap, list', ?_, hd⟩
  rw [tablePut_absent_eq junk hdup hs hl habs hat, hadd]
  rfl

theorem KeysTerminated.snoc {l : Nodes} (hk : KeysTerminated l) (a : Addr) {e : EntryT}
    (he : Terminated e.key) : KeysTerminated (l ++ [(a, e)]) :=
  KeysTerminated.append.mpr ⟨hk, by simp [KeysTerminated, he]⟩

/-- A new node at the end of a list leaves the table in good order. -/
theorem Rep.added (hr : Rep t buckets) (hl : Located t buckets key i b) {e : EntryT}
    (he : Terminated e.key) {heap : NodeHeap} {list' : ListT} (hd : Added t.heap b e heap list') :
    Rep (t.setList i heap list') (buckets.set i (b ++ [(t.heap.size, e)])) := by
  obtain ⟨-, -, -, -, hkt, -⟩ := hl.list hr.shape
  refine hr.setList hl.bucket hd.frame (fun _ ha => ha) hd.chain (hkt.snoc t.heap.size he) ?_
    fun _ => Or.inl ?_
  · intro a ha
    simp only [addrs, List.map_append, List.mem_append, List.map_cons, List.map_nil,
      List.mem_singleton] at ha
    exact ha.imp_right fun h => Nat.le_of_eq h.symm
  · rw [hd.tail, lastAddr_snoc]

theorem tablePut_new (junk : Nat → UInt8) {value v : Option DataT}
    (hdup : dataDup junk value = .ok v) (hr : Rep t buckets) (hl : Located t buckets key i b)
    (habs : ∀ x ∈ b, ¬ HasKey (cstr key) x) (hstale : ¬ StaleTail t key) :
    ∃ t', tablePut junk t key value = .ok (0, t') ∧
      Rep t' (buckets.set i (b ++ [(t.heap.size, newEntry key v)])) ∧ t'.n = t.n := by
  obtain ⟨list, -, hlist, -, -, -⟩ := hl.list hr.shape
  have htail : b ≠ [] → list.tail = lastAddr none b := by
    intro hne
    rcases hr.tails i list b hlist hl.bucket hne with h | h
    · exact h
    · exact absurd ((hl.staleTail_iff hr.shape hlist).mpr ⟨hne, h⟩) hstale
  obtain ⟨heap, list', hput, hd⟩ := tablePut_adds junk hdup hr.shape hl habs hlist htail
  exact ⟨t.setList i heap list', hput, hr.added hl (terminated_newEntry key v) hd, rfl⟩

/-- **The one bad case of `table_put`**: a new key behind a freed tail. -/
theorem tablePut_stale (junk : Nat → UInt8) {value v : Option DataT}
    (hdup : dataDup junk value = .ok v) (hs : Shape t buckets) (hl : Located t buckets key i b)
    (habs : ∀ x ∈ b, ¬ HasKey (cstr key) x) (hstale : StaleTail t key) :
    tablePut junk t key value = .error .useAfterFree := by
  obtain ⟨list, hat, hlist, hc, hkt, hterm⟩ := hl.list hs
  obtain ⟨hne, a, ha, hf⟩ := (hl.staleTail_iff hs hlist).mp hstale
  have habs' : ∀ x ∈ b, ¬ HasKey (newEntry key v).keyStr x := by simpa using habs
  rw [tablePut_absent_eq junk hdup hs hl habs hat,
    listAdd_freed (terminated_newEntry key v) hkt hc hne habs' ha hf]
  rfl

/-! ## `table_size` and `table_get_keys` -/

/-- The loops over the lists meet them one by one. -/
theorem drop_bucket (hb : buckets[i]? = some b) :
    buckets.drop i = b :: buckets.drop (i + 1) := by
  obtain ⟨hlt, rfl⟩ := List.getElem?_eq_some_iff.mp hb
  exact List.drop_eq_getElem_cons hlt

theorem tableSizeLoop_eq (hs : Shape t buckets) {todo i : Nat} (hi : i + todo = buckets.length)
    {counter : Int} (hlo : 0 ≤ counter) (hhi : counter ≤ intMax) :
    tableSizeLoop t todo i counter =
      if counter + ((buckets.drop i).flatten.length : Int) ≤ intMax
      then .ok (counter + (buckets.drop i).flatten.length) else .error .intOverflow := by
  induction todo generalizing i counter with
  | zero =>
    rw [List.drop_eq_nil_of_le (by omega)]
    simp [tableSizeLoop, hhi]
  | succ todo ih =>
    have hlt : i < buckets.length := by omega
    obtain ⟨list, b, hat, -, hb, hc, -⟩ := hs.listAt hlt
    rw [tableSizeLoop, hat, ok_bind, listSize_eq hc, drop_bucket hb, List.flatten_cons,
      List.length_append]
    push_cast
    by_cases hbm : (b.length : Int) ≤ intMax
    · rw [if_pos hbm, ok_bind]
      by_cases hsum : counter + b.length ≤ intMax
      · rw [intAdd, checkInt_of_nonneg (by omega) hsum, ok_bind, ih (by omega) (by omega) hsum,
          Int.add_assoc]
      · rw [intAdd, checkInt_of_large (by omega), error_bind, if_neg (by omega)]
    · rw [if_neg hbm, error_bind, if_neg (by omega)]

theorem length_entries (buckets : Buckets) : (entries buckets).length = buckets.flatten.length :=
  List.length_map _

/-- **`table_size` is the number of entries**, as long as that is an `int`. -/
theorem tableSize_eq (hs : Shape t buckets) :
    tableSize t = if ((entries buckets).length : Int) ≤ intMax
      then .ok (entries buckets).length else .error .intOverflow := by
  unfold tableSize
  rw [tableSizeLoop_eq hs (by rw [hs.n_eq]; simp) (by omega) (by decide), List.drop_zero,
    length_entries]
  simp only [Int.zero_add]

theorem copyKeysLoop_eq {h : NodeHeap} {l : Nodes} (hterm : KeysTerminated l) {fuel : Nat}
    (hfuel : l.length ≤ fuel) {iter : Option Addr} (hc : Chain h iter l) (done : Slots (Option Block))
    (spare : Nat) :
    copyKeysLoop h fuel (done ++ List.replicate (l.length + spare) none) done.length iter =
      .ok (done ++ keySlots (l.map Prod.snd) ++ List.replicate spare none, done.length + l.length) := by
  induction l generalizing fuel iter done with
  | nil =>
    obtain rfl : iter = none := hc
    cases fuel <;> simp [copyKeysLoop, keySlots]
  | cons x l ih =>
    obtain ⟨a, e⟩ := x
    obtain ⟨rfl, nx, hl, htl⟩ := hc
    obtain ⟨hx, hrest⟩ := KeysTerminated.cons.mp hterm
    cases fuel with
    | zero => simp at hfuel
    | succ fuel =>
      have hstep := ih hrest (by simpa using hfuel) htl (done ++ [some (some (e.keyStr ++ [0]))])
      rw [List.length_append] at hstep
      rw [List.length_cons, replicate_slots, copyKeysLoop]
      simp only [hl, ok_bind, hx.strdup, setSlot_append]
      simp only [List.append_assoc, List.singleton_append] at hstep
      rw [show some (some (cstr e.key ++ [0])) = some (some (e.keyStr ++ [0])) from rfl]
      refine hstep.trans ?_
      simp [keySlots, Nat.add_assoc, Nat.add_comm 1]

theorem tableGetKeysLoop_eq (hs : Shape t buckets) {todo i : Nat} (hi : i + todo = buckets.length)
    (done : Slots (Option Block)) (spare : Nat) :
    tableGetKeysLoop t todo i
        (done ++ List.replicate ((buckets.drop i).flatten.length + spare) none) done.length =
      .ok (done ++ keySlots ((buckets.drop i).flatten.map Prod.snd) ++ List.replicate spare none,
        done.length + (buckets.drop i).flatten.length) := by
  induction todo generalizing i done with
  | zero =>
    rw [List.drop_eq_nil_of_le (by omega)]
    simp [tableGetKeysLoop, keySlots]
  | succ todo ih =>
    have hlt : i < buckets.length := by omega
    obtain ⟨list, b, hat, -, hb, hc, hk⟩ := hs.listAt hlt
    rw [tableGetKeysLoop, hat, ok_bind, drop_bucket hb, List.flatten_cons, List.length_append,
      Nat.add_assoc, copyKeysLoop_eq hk hc.length_le hc, ok_bind]
    have hstep := ih (show i + 1 + todo = buckets.length by omega)
      (done ++ keySlots (b.map Prod.snd))
    rw [List.length_append, length_keySlots, List.length_map] at hstep
    refine hstep.trans ?_
    simp [keySlots_append, Nat.add_assoc]

/-- **`table_get_keys` lists the keys of all entries**, in bucket order and then
list order, and `NULL` behind them. -/
theorem tableGetKeys_eq (hs : Shape t buckets) :
    tableGetKeys t = if ((entries buckets).length : Int) < intMax
      then .ok (keySlots (entries buckets) ++ [some none]) else .error .intOverflow := by
  have hlen := length_entries buckets
  unfold tableGetKeys
  rw [tableSize_eq hs]
  by_cases hmax : ((entries buckets).length : Int) < intMax
  · have hloop := tableGetKeysLoop_eq hs (show 0 + buckets.length = buckets.length by omega) [] 1
    rw [if_pos (by omega), if_pos hmax, ok_bind, intAdd, checkInt_of_nonneg (by omega) (by omega),
      ok_bind, hs.n_eq, mallocSlots]
    simp only [List.drop_zero, List.nil_append, List.length_nil, Nat.zero_add] at hloop
    rw [hlen, Int.toNat_natCast, show ((buckets.flatten.length : Int) + 1).toNat =
      buckets.flatten.length + 1 by omega, hloop, ok_bind]
    have hset := setSlot_append (keySlots (entries buckets)) none [] (none : Option Block)
    rw [length_keySlots, hlen] at hset
    exact hset
  · rw [if_neg hmax]
    split
    · rw [ok_bind, intAdd, checkInt_of_large (by omega), error_bind]
    · rfl

end Spec

end RemoteTable
