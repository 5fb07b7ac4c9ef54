import RemoteTable.AnyClient
import RemoteTable.PointerReplies

/-! # The table on values and the table in blocks

`Mirrors t buckets T`: the table of the model on values and the one in memory have the same
entries in the same order, and where the `tail` of a list is its last node in the one it is so
in the other.  Every table function keeps it: when the one on values is defined, the one on
memory ends with the same answer, with the objects of the mirrored table, and with what else
there was.
-/
namespace RemoteTable.Pointers
open CMem

/-! ## Values -/

/-- A value as the server stores it: it came in a field of one byte's length. -/
def SmallValue (v : Option DataBlock) : Prop := ∀ d, v = some d → d.bytes ≠ [] ∧ d.bytes.length ≤ 127

theorem valueOf_eq (v : Option DataBlock) : valueOf v = (valueBytes v).map DataT.ofBytes := by
  cases v <;> rfl

/-- **The two copies are the same**: `data_dup` on values gives what is in the blocks of the
copy. -/
theorem dataDup_valueOf (j : Nat → UInt8) {v w : Option DataBlock}
    (h : valueBytes w = (valueBytes v).filter (· ≠ [])) :
    RemoteTable.dataDup j (valueOf v) = .ok (valueOf w) := by
  rw [valueOf_eq w, h]
  cases v with
  | none => rfl
  | some d =>
    by_cases hnil : d.bytes = []
    · simp [valueOf, valueBytes, Option.filter, hnil, DataBlock.value, RemoteTable.dataDup, DataT.ofBytes,
        RemoteTable.dataCreate]
    · have hpos : ¬ ((d.bytes.length : Int) < 1) := by
        have := List.length_pos_iff.mpr hnil
        omega
      obtain ⟨dst, hmalloc, hstore⟩ := malloc_store j (rfl : (d.bytes.length : Int) = d.bytes.length)
      simp [valueOf, valueBytes, Option.filter, hnil, DataBlock.value, RemoteTable.dataDup, DataT.ofBytes,
        RemoteTable.dataCreate, hpos, slice_all, hmalloc, hstore]

/-- A copy is as small as the value. -/
theorem smallValue_of_copy {v w : Option DataBlock} (h : valueBytes w = (valueBytes v).filter (· ≠ []))
    (hv : ∀ d, v = some d → d.bytes.length ≤ 127) : SmallValue w := by
  rintro d rfl
  cases v with
  | none => cases h
  | some d' =>
    obtain ⟨hmem, hne⟩ := Option.filter_eq_some_iff.mp h.symm
    rw [← Option.some.inj hmem]
    exact ⟨by simpa [← Option.some.inj hmem] using hne, hv d' rfl⟩

/-! ## The relation -/

/-- A list on values, its nodes, and the list in memory. -/
structure ListMirrors (list : ListT) (b : Nodes) (L : ListBlock) : Prop where
  same : L.nodes.map (fun x => x.entry.entry) = b.map Prod.snd
  tail : b ≠ [] → list.tail = lastAddr none b → L.tail = some (endAddr none L.nodes)
  small : ∀ x ∈ L.nodes, SmallValue x.entry.value

/-- A table on values, its nodes, and the table in memory. -/
structure Mirrors (t : TableT) (buckets : Buckets) (T : TableBlock) : Prop where
  rep : Rep t buckets
  length : T.lists.length = buckets.length
  lists : ∀ (i : Nat) (list : ListT) (b : Nodes) (L : ListBlock), t.listsPtr[i]? = some list →
    buckets[i]? = some b → T.lists[i]? = some L → ListMirrors list b L

section Lists
variable {list : ListT} {b pre post : Nodes} {L : ListBlock} {a : Addr} {e : EntryT} {k : List UInt8}

theorem ListMirrors.absent (hm : ListMirrors list b L) (h : ∀ x ∈ b, ¬ HasKey k x) :
    ∀ x ∈ L.nodes, ¬ x.HasKey k := by
  intro x hx hk
  have hmem : x.entry.entry ∈ b.map Prod.snd := hm.same ▸ List.mem_map_of_mem hx
  obtain ⟨y, hy, hye⟩ := List.mem_map.mp hmem
  refine h y hy (decide_eq_true ?_)
  rw [hye]
  exact of_decide_eq_true hk

/-- The node of an entry, and those before and behind it. -/
theorem ListMirrors.split (hm : ListMirrors list (pre ++ (a, e) :: post) L)
    (hpre : ∀ x ∈ pre, ¬ HasKey k x) (hk : HasKey k (a, e)) :
    ∃ pre' x post', L.nodes = pre' ++ x :: post' ∧ x.entry.entry = e ∧
      pre'.map (fun x => x.entry.entry) = pre.map Prod.snd ∧
      post'.map (fun x => x.entry.entry) = post.map Prod.snd ∧
      (∀ y ∈ pre', ¬ y.HasKey k) ∧ x.HasKey k := by
  have hsame := hm.same
  rw [List.map_append, List.map_cons] at hsame
  obtain ⟨pre', l, hnodes, hpre', hl⟩ := List.map_eq_append_iff.mp hsame
  obtain ⟨x, post', rfl, hx, hpost'⟩ := List.map_eq_cons_iff.mp hl
  refine ⟨pre', x, post', hnodes, hx, hpre', hpost', ?_, ?_⟩
  · intro y hy hyk
    have hmem : y.entry.entry ∈ pre.map Prod.snd := hpre' ▸ List.mem_map_of_mem hy
    obtain ⟨z, hz, hze⟩ := List.mem_map.mp hmem
    refine hpre z hz (decide_eq_true ?_)
    rw [hze]
    exact of_decide_eq_true hyk
  · refine decide_eq_true ?_
    have hkey := of_decide_eq_true hk
    rwa [← hx] at hkey

theorem ListMirrors.keyed (hm : ListMirrors list b L) (hk : KeysTerminated b) : Keyed L.nodes := by
  intro x hx
  have hmem : x.entry.entry ∈ b.map Prod.snd := hm.same ▸ List.mem_map_of_mem hx
  obtain ⟨y, hy, hye⟩ := List.mem_map.mp hmem
  have hterm := hk y hy
  rwa [hye] at hterm

/-- Without a node, what `tail` is worth is the same on both sides. -/
theorem ListMirrors.remove {h : NodeHeap} {list' : ListT} {pre' post' : List NodeBlock} {x : NodeBlock}
    (hm : ListMirrors list (pre ++ (a, e) :: post) L) (hc : Chain h list.head (pre ++ (a, e) :: post))
    (htails : list.tail = lastAddr none (pre ++ (a, e) :: post) ∨ ∃ s, list.tail = some s ∧ h.Freed s)
    (htail' : list'.tail = list.tail) (hnodes : L.nodes = pre' ++ x :: post')
    (hpre : pre'.map (fun x => x.entry.entry) = pre.map Prod.snd)
    (hpost : post'.map (fun x => x.entry.entry) = post.map Prod.snd) :
    ListMirrors list' (pre ++ post) (L.withNodes (pre' ++ post')) where
  same := by
    simp only [ListBlock.withNodes, List.map_append, hpre, hpost]
  tail := by
    intro hne hlast
    rw [htail'] at hlast
    by_cases hnil : post = []
    · -- the last node is gone, so `tail` points at it or at one that had gone before
      exfalso
      subst hnil
      rw [List.append_nil] at hlast hne
      obtain ⟨s, hs⟩ : ∃ s, lastAddr none pre = some s := by
        rcases List.eq_nil_or_concat' pre with rfl | ⟨init, ⟨s, w⟩, rfl⟩
        · exact absurd rfl hne
        · exact ⟨s, lastAddr_snoc none init s w⟩
      have hmem : s ∈ addrs pre := mem_of_lastAddr hs
      rcases htails with htail | ⟨s', htail, hfreed⟩
      · rw [lastAddr_snoc, hlast, hs] at htail
        exact (Chain.not_mem hc).1 (Option.some.inj htail ▸ hmem)
      · rw [hlast, hs] at htail
        obtain rfl := Option.some.inj htail
        obtain ⟨⟨s, w⟩, hw, rfl⟩ := List.mem_map.mp hmem
        obtain ⟨nx, hl⟩ := Segment.load hc (List.mem_append_left _ hw)
        exact hfreed.not_ok hl
    · have hnil' : post' ≠ [] := by
        rintro rfl
        exact hnil (List.map_eq_nil_iff.mp hpost.symm)
      rw [← lastAddr_skip none pre a e hnil] at hlast
      have htail := hm.tail (by simp) hlast
      rw [hnodes, endAddr_skip none pre' x hnil'] at htail
      exact htail
  small := by
    intro y hy
    refine hm.small y ?_
    rw [hnodes]
    rcases List.mem_append.mp hy with hy | hy
    · exact List.mem_append_left _ hy
    · exact List.mem_append_right _ (List.mem_cons_of_mem _ hy)

/-- The same value in the same node on both sides. -/
theorem ListMirrors.replace {pre' post' : List NodeBlock} {x : NodeBlock} {w : Option DataBlock}
    (hm : ListMirrors list (pre ++ (a, x.entry.entry) :: post) L) (hnodes : L.nodes = pre' ++ x :: post')
    (hpre : pre'.map (fun x => x.entry.entry) = pre.map Prod.snd)
    (hpost : post'.map (fun x => x.entry.entry) = post.map Prod.snd) (hw : SmallValue w) :
    ListMirrors list (pre ++ (a, { x.entry.entry with value := valueOf w }) :: post)
      (L.withNodes (pre' ++ ⟨x.addr, x.entry.withValue w⟩ :: post')) where
  same := by
    simp only [ListBlock.withNodes, List.map_append, List.map_cons, hpre, hpost]
    rfl
  tail := by
    intro _ hlast
    rw [lastAddr_setValue none pre post a x.entry.entry] at hlast
    have htail := hm.tail (by simp) hlast
    rw [hnodes, endAddr_setValue none pre' post' x (x.entry.withValue w)] at htail
    exact htail
  small := by
    intro y hy
    rcases List.mem_append.mp hy with hy | hy
    · exact hm.small y (hnodes ▸ List.mem_append_left _ hy)
    · rcases List.mem_cons.mp hy with rfl | hy
      · exact hw
      · exact hm.small y (hnodes ▸ List.mem_append_right _ (List.mem_cons_of_mem _ hy))

/-- The same entry behind the others on both sides. -/
theorem ListMirrors.push {list' : ListT} {n c : Addr} {e : EntryBlock} (hm : ListMirrors list b L)
    (he : SmallValue e.value) :
    ListMirrors list' (b ++ [(n, e.entry)]) (L.push c e) where
  same := by
    simp only [ListBlock.push, List.map_append, List.map_cons, List.map_nil, hm.same]
  tail := by
    intro _ _
    rw [ListBlock.push, endAddr_snoc]
  small := by
    intro y hy
    rcases List.mem_append.mp hy with hy | hy
    · exact hm.small y hy
    · rw [List.mem_singleton.mp hy]
      exact he

end Lists

section Tables
variable {m : Memory Object} {rest : Multiset (Addr × Object)} {junk : Addr → Nat → UInt8}
  {t t' : TableT} {buckets : Buckets} {T : TableBlock} {i : Nat} {ka : Addr} {key : Block} {b : Nodes}
  {list : ListT} {L : ListBlock}

theorem Mirrors.n_eq (hm : Mirrors t buckets T) : t.n = T.lists.length := by
  rw [hm.length]
  exact hm.rep.shape.n_eq

/-- A change to one list on both sides. -/
theorem Mirrors.setList (hm : Mirrors t buckets T) {heap : NodeHeap} {list' : ListT} {b' : Nodes}
    {L' : ListBlock} (hr : Rep (t.setList i heap list') (buckets.set i b'))
    (hL : ListMirrors list' b' L') :
    Mirrors (t.setList i heap list') (buckets.set i b') (T.setList i L') where
  rep := hr
  length := by
    simp only [TableBlock.setList, List.length_set]
    exact hm.length
  lists := by
    intro j l c L'' hl hc hL''
    simp only [TableT.setList, Int.toNat_natCast, TableBlock.setList] at hl hL''
    by_cases hij : i = j
    · rcases getElem?_set_cases hl with ⟨-, rfl⟩ | ⟨hne, -⟩
      · rcases getElem?_set_cases hc with ⟨-, rfl⟩ | ⟨hne, -⟩
        · rcases getElem?_set_cases hL'' with ⟨-, rfl⟩ | ⟨hne, -⟩
          · exact hL
          · exact absurd hij hne
        · exact absurd hij hne
      · exact absurd hij hne
    · rw [List.getElem?_set_ne hij] at hl hc hL''
      exact hm.lists j l c L'' hl hc hL''

/-- **Where a key is handled**, on both sides. -/
theorem Mirrors.locate (hm : Mirrors t buckets T) (hk : InRange t.n key)
    (hheld : (ka, .bytes key) ∈ rest) : ∃ i b list L, Located t buckets key i b ∧
      t.listsPtr[i]? = some list ∧ ListMirrors list b L ∧ KeyIn T rest ka key i L := by
  obtain ⟨i, b, hl⟩ := hk.located hm.rep.shape
  obtain ⟨list, -, hlist, -, hterm, -⟩ := hl.list hm.rep.shape
  have hi : i < T.lists.length := by
    rw [hm.length]
    exact (List.getElem?_eq_some_iff.mp hl.bucket).1
  have hL := List.getElem?_eq_getElem hi
  have hmirror := hm.lists i list b _ hlist hl.bucket hL
  refine ⟨i, b, list, _, hl, hlist, hmirror, hheld, ?_, hL, hmirror.keyed hterm⟩
  rw [← hm.n_eq]
  exact hl.hash

/-- A function that begins with the lookup is not defined out of range. -/
theorem Mirrors.inRange {α : Type} (hm : Mirrors t buckets T) {f : Int → ListT → Exec α}
    (h : Defined (do
      let index ← getHashIndex key t.n
      let list ← t.listAt index
      f index list)) : InRange t.n key := by
  by_contra hk
  obtain ⟨e, he⟩ := lookup_outOfRange hm.rep.shape hk f
  rw [he] at h
  exact not_defined_error e h

/-! ## The table functions -/

/-- **`table_get`**: nothing on either side, or a copy of the same value. -/
theorem Mirrors.get (hm : Mirrors t buckets T) (h : m.owned = T.cells + rest)
    (hheld : (ka, .bytes key) ∈ rest) {j₀ : Nat → UInt8} (hdef : Defined (RemoteTable.tableGet j₀ t key)) :
    Prog.Ends (tableGet junk (some T.addr) (some ka)) m fun p m' => ∃ w, p = valueAddr w ∧
      SmallValue w ∧ (∀ j, RemoteTable.tableGet j t key = .ok (valueOf w)) ∧
      m'.owned = valueCells w + m.owned := by
  obtain ⟨i, b, list, L, hl, hlist, hmirror, hkey⟩ := hm.locate (hm.inRange hdef) hheld
  rcases absent_or_split (cstr key) b with habs | ⟨pre, a, e, post, rfl, hpre, hke⟩
  · refine ⟨none, m, tableGet_absent_returns h hkey (hmirror.absent habs), none, rfl, ?_, ?_, ?_⟩
    · intro d hd
      cases hd
    · intro j
      exact tableGet_absent j hm.rep.shape hl habs
    · exact (zero_add _).symm
  · obtain ⟨pre', x, post', hnodes, rfl, -, -, hpre', hx⟩ := hmirror.split hpre hke
    have hsmall := hmirror.small x (hnodes ▸ List.mem_append_right _ List.mem_cons_self)
    refine (tableGet_present_ends h hkey hnodes hpre' hx).mono ?_
    rintro p m' ⟨w, rfl, hw, hm'⟩
    refine ⟨w, rfl, smallValue_of_copy hw fun d hd => (hsmall d hd).2, fun j => ?_, hm'⟩
    rw [tableGet_present j hm.rep.shape hl hpre hke]
    exact dataDup_valueOf j hw

/-- **`table_del`** takes the same entry out of both. -/
theorem Mirrors.del (hm : Mirrors t buckets T) (h : m.owned = T.cells + rest)
    (hheld : (ka, .bytes key) ∈ rest) (hdef : Defined (RemoteTable.tableDel t key)) :
    Prog.Ends (tableDel (some T.addr) (some ka)) m fun r m' => ∃ t' buckets' T',
      RemoteTable.tableDel t key = .ok (r, t') ∧ Mirrors t' buckets' T' ∧ T'.addr = T.addr ∧
        m'.owned = T'.cells + rest := by
  obtain ⟨i, b, list, L, hl, hlist, hmirror, hkey⟩ := hm.locate (hm.inRange hdef) hheld
  rcases absent_or_split (cstr key) b with habs | ⟨pre, a, e, post, rfl, hpre, hke⟩
  · refine ⟨-1, m, tableDel_absent_returns h hkey (hmirror.absent habs), t, buckets, T, ?_, hm, rfl, h⟩
    exact tableDel_absent hm.rep.shape hl habs
  · obtain ⟨pre', x, post', hnodes, -, hpre', hpost', hpreabs, hx⟩ := hmirror.split hpre hke
    obtain ⟨list₀, heap, list', hlist₀, hdel, hd⟩ := tableDel_removes hm.rep.shape hl hpre hke
    obtain rfl := Option.some.inj (hlist.symm.trans hlist₀)
    obtain ⟨t', hdel', hrep, -⟩ := tableDel_present hm.rep hl hpre hke
    obtain rfl := (Prod.mk.inj (Except.ok.inj (hdel'.symm.trans hdel))).2
    have hchain := hm.rep.shape.chain i list _ hlist hl.bucket
    have htails := hm.rep.tails i list _ hlist hl.bucket (by simp)
    refine (tableDel_present_ends h hkey hnodes hpreabs hx).mono ?_
    rintro r m' ⟨rfl, hm'⟩
    refine ⟨_, _, _, hdel, hm.setList hrep ?_, rfl, hm'⟩
    exact hmirror.remove hchain htails hd.tail hnodes hpre' hpost'

/-- **`table_put`** puts the same entry into both. -/
theorem Mirrors.put (hm : Mirrors t buckets T) (h : m.owned = T.cells + rest)
    (hheld : (ka, .bytes key) ∈ rest) {v : Option DataBlock} (hv : valueCells v ≤ rest)
    (hsmall : ∀ d, v = some d → d.bytes.length ≤ 127) {j : Nat → UInt8}
    (hdef : Defined (RemoteTable.tablePut j t key (valueOf v))) :
    Prog.Ends (tablePut junk (some T.addr) (some ka) (valueAddr v)) m fun r m' => ∃ t' buckets' T',
      RemoteTable.tablePut j t key (valueOf v) = .ok (r, t') ∧ Mirrors t' buckets' T' ∧
        T'.addr = T.addr ∧ m'.owned = T'.cells + rest := by
  obtain ⟨i, b, list, L, hl, hlist, hmirror, hkey⟩ := hm.locate (hm.inRange hdef) hheld
  rcases absent_or_split (cstr key) b with habs | ⟨pre, a, e, post, rfl, hpre, hke⟩
  · have hlast : b ≠ [] → list.tail = lastAddr none b := by
      intro hne
      rcases hm.rep.tails i list b hlist hl.bucket hne with htail | hfreed
      · exact htail
      · obtain ⟨v', hdup⟩ : Defined (RemoteTable.dataDup j (valueOf v)) := by
          cases v with
          | none => exact ⟨none, rfl⟩
          | some d =>
            exact ⟨_, dataDup_valueOf j (w := if d.bytes = [] then none else some d) (by
              by_cases hnil : d.bytes = [] <;> simp [valueBytes, Option.filter, hnil])⟩
        have hstale := (hl.staleTail_iff hm.rep.shape hlist).mpr ⟨hne, hfreed⟩
        rw [tablePut_stale j hdup hm.rep.shape hl habs hstale] at hdef
        exact absurd hdef (not_defined_error _)
    have htail : L.nodes ≠ [] → L.tail = some (endAddr none L.nodes) := by
      intro hne
      have hbne : b ≠ [] := by
        rintro rfl
        exact hne (List.map_eq_nil_iff.mp hmirror.same)
      exact hmirror.tail hbne (hlast hbne)
    refine (tablePut_new_ends h hkey hv (hmirror.absent habs) htail).mono ?_
    rintro r m' ⟨rfl, c, e, he, hm'⟩
    have hdup := dataDup_valueOf j he.value
    obtain ⟨heap, list', hput, hadded⟩ := tablePut_adds j hdup hm.rep.shape hl habs hlist hlast
    have hentry : e.entry = newEntry key (valueOf e.value) := by
      rw [newEntry, ← he.key]
      rfl
    have hrep := hm.rep.added hl (terminated_newEntry key (valueOf e.value)) hadded
    refine ⟨_, _, _, hput, hm.setList hrep ?_, rfl, hm'⟩
    rw [← hentry]
    exact hmirror.push (smallValue_of_copy he.value hsmall)
  · obtain ⟨pre', x, post', hnodes, rfl, hpre', hpost', hpreabs, hx⟩ := hmirror.split hpre hke
    refine (tablePut_present_ends h hkey hv hnodes hpreabs hx).mono ?_
    rintro r m' ⟨rfl, w, hw, hm'⟩
    obtain ⟨list₀, heap, hlist₀, hput, hframe, hchain⟩ :=
      tablePut_replaces j (dataDup_valueOf j hw) hm.rep.shape hl hpre hke
    obtain rfl := Option.some.inj (hlist.symm.trans hlist₀)
    refine ⟨_, _, _, hput, hm.setList (hm.rep.replaced hl hlist hframe hchain) ?_, rfl, hm'⟩
    exact hmirror.replace hnodes hpre' hpost' (smallValue_of_copy hw hsmall)


/-! ## The whole table -/

/-- `table_create` on both sides. -/
theorem mirrors_create {n : Int} (hn : 0 ≤ n) (m : Memory Object) :
    Prog.Ends (tableCreate n) m fun p m' => ∃ T : TableBlock, p = some T.addr ∧
      Mirrors (RemoteTable.tableCreate n) (List.replicate n.toNat []) T ∧ m'.owned = T.cells + m.owned := by
  refine (tableCreate_ends hn m).mono ?_
  rintro p m' ⟨T, rfl, hlen, hempty, hm'⟩
  refine ⟨T, rfl, ⟨tableCreate_rep hn, by rw [hlen, List.length_replicate], ?_⟩, hm'⟩
  intro i list b L _ hb hL
  obtain rfl := List.eq_of_mem_replicate (List.mem_of_getElem? hb)
  have hnodes := hempty L (List.mem_of_getElem? hL)
  refine ⟨by rw [hnodes]; rfl, fun hne => absurd rfl hne, ?_⟩
  rw [hnodes]
  exact fun _ hx => absurd hx List.not_mem_nil

/-- What is at an index on both sides. -/
theorem Mirrors.at (hm : Mirrors t buckets T) (hi : i < buckets.length) :
    ∃ list b L, t.listAt i = .ok list ∧ buckets[i]? = some b ∧ T.lists[i]? = some L ∧
      Chain t.heap list.head b ∧ KeysTerminated b ∧ ListMirrors list b L := by
  obtain ⟨list, b, hat, hlist, hb, hc, hk⟩ := hm.rep.shape.listAt hi
  have hL := List.getElem?_eq_getElem (show i < T.lists.length by rw [hm.length]; exact hi)
  exact ⟨list, b, _, hat, hb, hL, hc, hk, hm.lists i list b _ hlist hb hL⟩

/-- **The same entries in the same order.** -/
theorem Mirrors.contents (hm : Mirrors t buckets T) :
    T.buckets.map (List.map Prod.snd) = buckets.map (List.map Prod.snd) := by
  have hlen : T.buckets.length = buckets.length := by
    rw [TableBlock.buckets, List.length_map, hm.length]
  refine List.ext_getElem? fun i => ?_
  by_cases hi : i < buckets.length
  · obtain ⟨list, b, L, -, hb, hL, -, -, hmirror⟩ := hm.at hi
    rw [List.getElem?_map, List.getElem?_map, TableBlock.buckets_at hL, hb, Option.map_some, Option.map_some,
      ← hmirror.same, List.map_map]
    rfl
  · rw [List.getElem?_eq_none (by rw [List.length_map]; omega),
      List.getElem?_eq_none (by rw [List.length_map]; omega)]

theorem entries_eq (buckets : Buckets) : entries buckets = (buckets.map (List.map Prod.snd)).flatten := by
  rw [entries, List.map_flatten]

theorem Mirrors.entries (hm : Mirrors t buckets T) : entries T.buckets = RemoteTable.entries buckets := by
  rw [entries_eq, hm.contents, ← entries_eq]

theorem Mirrors.nodesOf (hm : Mirrors t buckets T) :
    (nodesOf T.lists).map (fun x => x.entry.entry) = RemoteTable.entries buckets := by
  have hnode : ∀ L : ListBlock, (L.nodes.map NodeBlock.pair).map Prod.snd =
      L.nodes.map fun x => x.entry.entry := by
    intro L
    rw [List.map_map]
    rfl
  rw [← hm.entries, entries_eq, TableBlock.buckets, Pointers.nodesOf, List.flatMap_def, List.map_flatten,
    List.map_map, List.map_map]
  exact congrArg List.flatten (List.map_congr_left fun L _ => (hnode L).symm)

theorem Mirrors.length_nodesOf (hm : Mirrors t buckets T) :
    (Pointers.nodesOf T.lists).length = (RemoteTable.entries buckets).length := by
  rw [← hm.nodesOf, List.length_map]

/-- **`table_size`** is the same number, while it is an `int`. -/
theorem Mirrors.size (hm : Mirrors t buckets T) (h : m.owned = T.cells + rest)
    (hmax : ((RemoteTable.entries buckets).length : Int) ≤ intMax) :
    Prog.Returns (tableSize (some T.addr)) m (RemoteTable.entries buckets).length := by
  rw [← hm.length_nodesOf] at hmax ⊢
  exact tableSize_returns h hmax

theorem Mirrors.keyed (hm : Mirrors t buckets T) : ∀ L ∈ T.lists, Keyed L.nodes := by
  intro L hL
  obtain ⟨i, hi, rfl⟩ := List.getElem_of_mem hL
  rw [hm.length] at hi
  obtain ⟨list, b, L, -, hb, hL, -, hk, hmirror⟩ := hm.at hi
  rw [(List.getElem?_eq_some_iff.mp hL).2]
  exact hmirror.keyed hk

/-- **`table_get_keys`** copies the same keys. -/
theorem Mirrors.getKeys (hm : Mirrors t buckets T) (h : m.owned = T.cells + rest)
    (hmax : ((RemoteTable.entries buckets).length : Int) < intMax) :
    Prog.Ends (tableGetKeys (some T.addr)) m fun p m' => ∃ buf copies, p = some buf ∧
      copyStrings copies = keySlots (RemoteTable.entries buckets) ∧
      m'.owned = {(buf, .pointers (copySlots copies ++ [some none]))} + (copyCells copies + m.owned) := by
  rw [← hm.length_nodesOf] at hmax
  refine (tableGetKeys_ends h hm.keyed hmax).mono ?_
  rintro p m' ⟨buf, copies, rfl, hcopies, hm'⟩
  refine ⟨buf, copies, rfl, ?_, hm'⟩
  have hslots : copyStrings copies = (copies.map Prod.snd).map fun b => some (some b) := by
    rw [List.map_map]
    rfl
  rw [hslots, hcopies, ← hm.nodesOf, keySlots, List.map_map, List.map_map]
  rfl

end Tables

/-! ## The printed table -/

/-- The rendering of a list is that of its entries. -/
theorem printed_congr {l l' : Nodes} (h : l.map Prod.snd = l'.map Prod.snd) : printed l = printed l' := by
  have hnil : l = [] ↔ l' = [] := by
    rw [← List.map_eq_nil_iff (f := Prod.snd), h, List.map_eq_nil_iff]
  have hnodes : ∀ l : Nodes, renderNodes l = ((l.map Prod.snd).map renderEntry).flatten := by
    intro l
    rw [renderNodes, List.map_map]
    rfl
  simp only [printed, hnil, hnodes, h]

theorem tableString_congr {bs bs' : Buckets}
    (h : bs.map (List.map Prod.snd) = bs'.map (List.map Prod.snd)) : tableString bs = tableString bs' := by
  have hprinted : ∀ {bs bs' : Buckets}, bs.map (List.map Prod.snd) = bs'.map (List.map Prod.snd) →
      bs.map printed = bs'.map printed := by
    intro bs
    induction bs with
    | nil =>
      intro bs' h
      rw [List.map_eq_nil_iff.mp h.symm]
    | cons b bs ih =>
      intro bs' h
      obtain ⟨b', bs'', rfl, hb, hbs⟩ := List.map_eq_cons_iff.mp h.symm
      rw [List.map_cons, List.map_cons, printed_congr hb.symm, ih hbs.symm]
  have hlen : bs.length = bs'.length := by
    have := congrArg List.length h
    rwa [List.length_map, List.length_map] at this
  have htable : printedTable bs = printedTable bs' := by
    have := congrArg (List.map cstr) (hprinted h)
    rw [List.map_map, List.map_map] at this
    exact congrArg List.flatten this
  match bs, bs', hlen with
  | [], [], _ => rfl
  | [b], [b'], _ => exact printed_congr (List.cons.inj h).1
  | b :: c :: bs, b' :: c' :: bs', _ => simp only [tableString, htable]

section Print
variable {m : Memory Object} {rest : Multiset (Addr × Object)} {junk : Addr → Nat → UInt8}
  {t : TableT} {buckets : Buckets} {T : TableBlock}

/-- Where every key has a value, the entries are fit to be printed. -/
theorem Mirrors.valid (hm : Mirrors t buckets T) (hv : ∀ e ∈ RemoteTable.entries buckets, e.value ≠ none) :
    EntriesValid T.buckets := by
  intro e he
  rw [hm.entries] at he
  have hval := hv e he
  rw [← hm.nodesOf] at he
  obtain ⟨x, hx, rfl⟩ := List.mem_map.mp he
  obtain ⟨L, hL, hx⟩ := List.mem_flatMap.mp hx
  obtain ⟨i, hi, rfl⟩ := List.getElem_of_mem hL
  rw [hm.length] at hi
  obtain ⟨list, b, L, -, hb, hL, -, hk, hmirror⟩ := hm.at hi
  rw [(List.getElem?_eq_some_iff.mp hL).2] at hx
  cases hd : x.entry.value with
  | none => exact absurd (by rw [EntryBlock.entry, hd]; rfl) hval
  | some d =>
    obtain ⟨hne, hle⟩ := hmirror.small x hx d hd
    refine ⟨hmirror.keyed hk x hx, d.value, by rw [EntryBlock.entry, hd]; rfl, ?_⟩
    exact DataT.valid_ofBytes hne (by unfold intMax; omega)

/-- **`table_to_string`** renders the same string. -/
theorem Mirrors.toString (hm : Mirrors t buckets T) (h : m.owned = T.cells + rest) {j : Nat → Nat → UInt8}
    (hdef : Defined (RemoteTable.tableToString j t)) :
    Prog.Ends (tableToString junk (some T.addr)) m fun p m' => ∃ a, p = some a ∧
      (∀ j, RemoteTable.tableToString j t = .ok (tableString buckets)) ∧
      m'.owned = {(a, .bytes (tableString buckets))} + m.owned := by
  obtain ⟨hn, hv⟩ := tableToString_valued hm.rep.shape hdef
  have hvalid := hm.valid hv
  have hvalid' : EntriesValid buckets := by
    intro e he
    rw [← hm.entries] at he
    exact hvalid e he
  have hne : T.lists ≠ [] := by
    intro hnil
    have hn' := hm.n_eq
    rw [hnil, List.length_nil] at hn'
    omega
  refine (tableToString_ends h hvalid hne).mono ?_
  rintro p m' ⟨a, rfl, hm'⟩
  refine ⟨a, rfl, fun j => tableToString_eq j hm.rep.shape hvalid' hn, ?_⟩
  rw [hm', tableString_congr hm.contents]

end Print
end RemoteTable.Pointers
