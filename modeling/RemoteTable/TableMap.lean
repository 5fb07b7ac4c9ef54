import RemoteTable.Assoc
import RemoteTable.TableSpec

/-! # The table as a finite map

A table that only ever went through the table functions is `Sound`: besides the
representation, every key sits in the bucket its hash names, no key occurs
twice, and every entry has a value of at least one byte.  Read as a list of
entries it is then a finite map (`Assoc.Distinct`), and each table function is
an operation on that map, proved here once and for all from its specification
on the buckets.

`table_put` keeps the table sound in every case but one, and in that case it
faults (`Sound.put_stale`).
-/
namespace RemoteTable
open CMem Assoc

/-- A representation in which every key sits in the bucket its hash names and no key occurs
twice. -/
structure Bucketed (t : TableT) (buckets : Buckets) : Prop where
  shape : Shape t buckets
  placed : ∀ (i : Nat) (b : Nodes), buckets[i]? = some b →
    ∀ x ∈ b, getHashIndex x.2.key t.n = .ok i
  distinct : Distinct EntryT.keyStr (entries buckets)

/-- A table in good order whose entries form a finite map. -/
structure Sound (t : TableT) (buckets : Buckets) : Prop where
  rep : Rep t buckets
  placed : ∀ (i : Nat) (b : Nodes), buckets[i]? = some b →
    ∀ x ∈ b, getHashIndex x.2.key t.n = .ok i
  distinct : Distinct EntryT.keyStr (entries buckets)
  stored : ∀ e ∈ entries buckets, e.Stored

/-- The table maps the string `k` to the bytes `bs`. -/
def Holds (buckets : Buckets) (k : List UInt8) (bs : Block) : Prop :=
  Binds EntryT.keyStr EntryT.value (entries buckets) k (some (DataT.ofBytes bs))

theorem ofBytes_inj {b c : Block} (h : DataT.ofBytes b = DataT.ofBytes c) : b = c :=
  Option.some.inj (congrArg DataT.data h)

/-- Setting one key of the entries sets it in the table. -/
theorem holds_set {buckets buckets' : Buckets} {k₀ : List UInt8} {bs₀ : Block}
    (h : ∀ k v, Binds EntryT.keyStr EntryT.value (entries buckets') k v ↔
      if k = k₀ then v = some (DataT.ofBytes bs₀)
      else Binds EntryT.keyStr EntryT.value (entries buckets) k v) (k : List UInt8) (bs : Block) :
    Holds buckets' k bs ↔ if k = k₀ then bs = bs₀ else Holds buckets k bs := by
  unfold Holds
  rw [h]
  split
  · exact ⟨fun heq => ofBytes_inj (Option.some.inj heq), fun heq => by rw [heq]⟩
  · exact Iff.rfl

theorem mem_entries {buckets : Buckets} {e : EntryT} :
    e ∈ entries buckets ↔ ∃ (i : Nat) (b : Nodes), buckets[i]? = some b ∧ ∃ x ∈ b, x.2 = e := by
  simp only [entries, List.mem_map, List.mem_flatten]
  constructor
  · rintro ⟨x, ⟨b, hb, hx⟩, rfl⟩
    obtain ⟨i, hi⟩ := List.mem_iff_getElem?.mp hb
    exact ⟨i, b, hi, x, hx, rfl⟩
  · rintro ⟨i, b, hb, x, hx, rfl⟩
    exact ⟨x, ⟨b, List.mem_of_getElem? hb, hx⟩, rfl⟩

/-- A bucket is a stretch of the entries, and changing it changes that stretch. -/
theorem entries_split {buckets : Buckets} {i : Nat} {b : Nodes} (hb : buckets[i]? = some b) :
    ∃ es₁ es₂, entries buckets = es₁ ++ b.map Prod.snd ++ es₂ ∧
      ∀ b', entries (buckets.set i b') = es₁ ++ b'.map Prod.snd ++ es₂ := by
  obtain ⟨hi, hget⟩ := List.getElem?_eq_some_iff.mp hb
  have hset : ∀ b', entries (buckets.set i b') =
      entries (buckets.take i) ++ b'.map Prod.snd ++ entries (buckets.drop (i + 1)) := by
    intro b'
    rw [List.set_eq_take_append_cons_drop, if_pos hi]
    simp [entries]
  refine ⟨entries (buckets.take i), entries (buckets.drop (i + 1)), ?_, hset⟩
  have h := hset b
  rwa [← hget, List.set_getElem_self, hget] at h

/-- One entry of a bucket stands between the same entries before and after a
change to it, or its removal. -/
theorem entries_around {buckets : Buckets} {i : Nat} {pre post : Nodes} {a : Addr} {e : EntryT}
    (hb : buckets[i]? = some (pre ++ (a, e) :: post)) :
    ∃ es₁ es₂, entries buckets = es₁ ++ e :: es₂ ∧
      (∀ a' e', entries (buckets.set i (pre ++ (a', e') :: post)) = es₁ ++ e' :: es₂) ∧
      entries (buckets.set i (pre ++ post)) = es₁ ++ es₂ := by
  obtain ⟨es₁, es₂, hes, hset⟩ := entries_split hb
  refine ⟨es₁ ++ pre.map Prod.snd, post.map Prod.snd ++ es₂, ?_, fun a' e' => ?_, ?_⟩
  · rw [hes]
    simp
  · rw [hset]
    simp
  · rw [hset]
    simp

theorem tableCreate_sound {n : Int} (hn : 0 ≤ n) :
    Sound (tableCreate n) (List.replicate n.toNat []) := by
  have hnil : entries (List.replicate n.toNat []) = [] := by
    simp [entries]
  refine ⟨tableCreate_rep hn, ?_, ?_, ?_⟩
  · intro i b hb x hx
    obtain rfl := List.eq_of_mem_replicate (List.mem_of_getElem? hb)
    simp at hx
  · rw [hnil]
    exact List.nodup_nil
  · rw [hnil]
    simp

section Steps
variable {t : TableT} {buckets : Buckets} {key : Block} {i : Nat} {b : Nodes}

theorem Sound.bucketed (hs : Sound t buckets) : Bucketed t buckets :=
  ⟨hs.rep.shape, hs.placed, hs.distinct⟩

/-- An entry with a key sits in the bucket of that key. -/
theorem Bucketed.index_eq (hs : Bucketed t buckets) (hl : Located t buckets key i b) {j : Nat}
    {c : Nodes} (hc : buckets[j]? = some c) {x : Addr × EntryT} (hx : x ∈ c)
    (hk : x.2.keyStr = cstr key) : i = j := by
  have hxt := hs.shape.terminated c (List.mem_of_getElem? hc) x hx
  have hhash := (getHashIndex_congr hxt (getHashIndex_terminated hl.hash) hk t.n).symm.trans
    (hs.placed j c hc x hx)
  exact Int.ofNat.inj (Except.ok.inj (hl.hash.symm.trans hhash))

/-- **Absence from the bucket is absence from the table**: an entry with the key
would have been placed in this bucket. -/
theorem Bucketed.absent_iff (hs : Bucketed t buckets) (hl : Located t buckets key i b) :
    (∀ x ∈ b, ¬ HasKey (cstr key) x) ↔ cstr key ∉ (entries buckets).map EntryT.keyStr := by
  constructor
  · intro habs hmem
    obtain ⟨e, he, hk⟩ := List.mem_map.mp hmem
    obtain ⟨j, c, hc, x, hx, rfl⟩ := mem_entries.mp he
    obtain rfl := hs.index_eq hl hc hx hk
    obtain rfl : b = c := Option.some.inj (hl.bucket.symm.trans hc)
    exact habs x hx (by simpa [HasKey] using hk)
  · intro hnot x hx hk
    refine hnot (List.mem_map.mpr ⟨x.2, mem_entries.mpr ⟨i, b, hl.bucket, x, hx, rfl⟩, ?_⟩)
    simpa [HasKey] using hk

theorem Sound.absent_iff (hs : Sound t buckets) (hl : Located t buckets key i b) :
    (∀ x ∈ b, ¬ HasKey (cstr key) x) ↔ cstr key ∉ (entries buckets).map EntryT.keyStr :=
  hs.bucketed.absent_iff hl

/-- A changed bucket, whose entries are ones it had or have the key it was found by. -/
theorem Bucketed.setBucket (hs : Bucketed t buckets) (hl : Located t buckets key i b) {t' : TableT}
    {b' : Nodes} (hshape : Shape t' (buckets.set i b')) (hn : t'.n = t.n)
    (hd : Distinct EntryT.keyStr (entries (buckets.set i b')))
    (hnew : ∀ x ∈ b', x ∈ b ∨ x.2.keyStr = cstr key) : Bucketed t' (buckets.set i b') := by
  refine ⟨hshape, ?_, hd⟩
  intro j c hc x hx
  have hterm := hshape.terminated c (List.mem_of_getElem? hc) x hx
  rw [hn]
  rcases getElem?_set_cases hc with ⟨rfl, rfl⟩ | ⟨-, hc⟩
  · rcases hnew x hx with hold | hkey
    · exact hs.placed i b hl.bucket x hold
    · rw [getHashIndex_congr hterm (getHashIndex_terminated hl.hash) hkey, hl.hash]
  · exact hs.placed j c hc x hx

/-! ### What the edits of a bucket do to the entries -/

/-- A new node at the end of the bucket of its key. -/
theorem Bucketed.insert (hs : Bucketed t buckets) (hl : Located t buckets key i b)
    (habs : ∀ x ∈ b, ¬ HasKey (cstr key) x) (a : Addr) {e : EntryT} (hek : e.keyStr = cstr key) :
    Distinct EntryT.keyStr (entries (buckets.set i (b ++ [(a, e)]))) ∧
      (entries (buckets.set i (b ++ [(a, e)]))).length = (entries buckets).length + 1 ∧
      ∀ k v, Binds EntryT.keyStr EntryT.value (entries (buckets.set i (b ++ [(a, e)]))) k v ↔
        if k = cstr key then v = e.value
        else Binds EntryT.keyStr EntryT.value (entries buckets) k v := by
  obtain ⟨es₁, es₂, hes, hset⟩ := entries_split hl.bucket
  have hset' : entries (buckets.set i (b ++ [(a, e)])) = (es₁ ++ b.map Prod.snd) ++ e :: es₂ := by
    rw [hset]
    simp
  have hnot := (hs.absent_iff hl).mp habs
  have hold := hs.distinct
  rw [hes] at hnot hold
  obtain ⟨hdist, hbinds⟩ := hold.insert EntryT.value e (by rw [hek]; exact hnot)
  rw [← hes, hek] at hbinds
  rw [hset']
  refine ⟨hdist, ?_, hbinds⟩
  rw [hes]
  simp only [List.length_append, List.length_cons]
  omega

/-- Another entry with the same key in a node. -/
theorem Bucketed.replace (hs : Bucketed t buckets) {pre post : Nodes} {a : Addr} {e e' : EntryT}
    (hl : Located t buckets key i (pre ++ (a, e) :: post)) (hek : e.keyStr = cstr key)
    (hek' : e'.keyStr = e.keyStr) :
    Distinct EntryT.keyStr (entries (buckets.set i (pre ++ (a, e') :: post))) ∧
      (entries (buckets.set i (pre ++ (a, e') :: post))).length = (entries buckets).length ∧
      ∀ k v, Binds EntryT.keyStr EntryT.value (entries (buckets.set i (pre ++ (a, e') :: post))) k v ↔
        if k = cstr key then v = e'.value
        else Binds EntryT.keyStr EntryT.value (entries buckets) k v := by
  obtain ⟨es₁, es₂, hes, hset, -⟩ := entries_around hl.bucket
  have hold := hs.distinct
  rw [hes] at hold
  obtain ⟨hdist, hbinds⟩ := hold.replace EntryT.value hek'
  rw [← hes, hek] at hbinds
  rw [hset]
  refine ⟨hdist, ?_, hbinds⟩
  rw [hes]
  simp only [List.length_append, List.length_cons]

/-- A bucket without the node that has the key. -/
theorem Bucketed.erase (hs : Bucketed t buckets) {pre post : Nodes} {a : Addr} {e : EntryT}
    (hl : Located t buckets key i (pre ++ (a, e) :: post)) (hek : e.keyStr = cstr key) :
    Distinct EntryT.keyStr (entries (buckets.set i (pre ++ post))) ∧
      (entries (buckets.set i (pre ++ post))).length + 1 = (entries buckets).length ∧
      ∀ k v, Binds EntryT.keyStr EntryT.value (entries (buckets.set i (pre ++ post))) k v ↔
        k ≠ cstr key ∧ Binds EntryT.keyStr EntryT.value (entries buckets) k v := by
  obtain ⟨es₁, es₂, hes, -, hset⟩ := entries_around hl.bucket
  have hold := hs.distinct
  rw [hes] at hold
  obtain ⟨hdist, hbinds⟩ := hold.erase EntryT.value
  rw [← hes, hek] at hbinds
  rw [hset]
  refine ⟨hdist, ?_, hbinds⟩
  rw [hes]
  simp only [List.length_append, List.length_cons]
  omega

/-- The key of a node of its bucket is a key of the table. -/
theorem mem_keys (hb : buckets[i]? = some b) {x : Addr × EntryT} (hx : x ∈ b) :
    x.2.keyStr ∈ (entries buckets).map EntryT.keyStr :=
  List.mem_map.mpr ⟨x.2, mem_entries.mpr ⟨i, b, hb, x, hx, rfl⟩, rfl⟩

/-- The same in a table that stays in good order, where new entries have a value. -/
theorem Sound.setBucket (hs : Sound t buckets) (hl : Located t buckets key i b) {t' : TableT}
    {b' : Nodes} (hr : Rep t' (buckets.set i b')) (hn : t'.n = t.n)
    (hd : Distinct EntryT.keyStr (entries (buckets.set i b')))
    (hnew : ∀ x ∈ b', x ∈ b ∨ x.2.keyStr = cstr key ∧ x.2.Stored) :
    Sound t' (buckets.set i b') := by
  have hb := hs.bucketed.setBucket hl hr.shape hn hd fun x hx => (hnew x hx).imp_right And.left
  refine ⟨hr, hb.placed, hd, fun e he => ?_⟩
  obtain ⟨j, c, hc, x, hx, rfl⟩ := mem_entries.mp he
  rcases getElem?_set_cases hc with ⟨-, rfl⟩ | ⟨-, hc⟩
  · rcases hnew x hx with hold | ⟨-, hstored⟩
    · exact hs.stored x.2 (mem_entries.mpr ⟨i, b, hl.bucket, x, hold, rfl⟩)
    · exact hstored
  · exact hs.stored x.2 (mem_entries.mpr ⟨j, c, hc, x, hx, rfl⟩)

theorem Sound.stored_bucket (hs : Sound t buckets) (hb : buckets[i]? = some b) :
    ∀ x ∈ b, x.2.Stored :=
  fun x hx => hs.stored x.2 (mem_entries.mpr ⟨i, b, hb, x, hx, rfl⟩)

/-! ## `table_get` looks the key up -/

theorem Sound.get (hs : Sound t buckets) (hl : Located t buckets key i b) (junk : Nat → UInt8)
    {bs : Block} (hk : Holds buckets (cstr key) bs) :
    tableGet junk t key = .ok (some (DataT.ofBytes bs)) := by
  rcases absent_or_split (cstr key) b with habs | ⟨pre, a, e, post, rfl, hpre, hke⟩
  · exact absurd hk (not_binds_of_not_mem ((hs.absent_iff hl).mp habs) _)
  · have hmem : (a, e) ∈ pre ++ (a, e) :: post := by simp
    obtain ⟨cs, hcs, hval⟩ := hs.stored_bucket hl.bucket _ hmem
    have hb : Holds buckets (cstr key) cs :=
      ⟨e, mem_entries.mpr ⟨i, _, hl.bucket, _, hmem, rfl⟩, of_decide_eq_true hke, hval⟩
    obtain rfl : cs = bs := ofBytes_inj (Option.some.inj (hs.distinct.unique hb hk))
    have hv : e.value = some (DataT.ofBytes cs) := hval
    rw [tableGet_present junk hs.rep.shape hl hpre hke, hv, dataDup_valid junk hcs,
      DataT.bytes_ofBytes]

theorem Sound.get_absent (hs : Sound t buckets) (hl : Located t buckets key i b) (junk : Nat → UInt8)
    (hk : ∀ bs, ¬ Holds buckets (cstr key) bs) : tableGet junk t key = .ok none := by
  refine tableGet_absent junk hs.rep.shape hl ((hs.absent_iff hl).mpr fun hmem => ?_)
  obtain ⟨e, he, hke⟩ := List.mem_map.mp hmem
  obtain ⟨bs, -, hval⟩ := hs.stored e he
  exact hk bs ⟨e, he, hke, hval⟩

/-! ## `table_put` sets it -/

/-- A new key is bound by an entry at the end of its bucket. -/
theorem Sound.put_new (hs : Sound t buckets) (hl : Located t buckets key i b) (junk : Nat → UInt8)
    {d : DataT} (hd : d.Valid) (habs : ∀ x ∈ b, ¬ HasKey (cstr key) x) (hstale : ¬ StaleTail t key) :
    ∃ t' buckets', tablePut junk t key (some d) = .ok (0, t') ∧ Sound t' buckets' ∧ t'.n = t.n ∧
      ∀ k bs, Holds buckets' k bs ↔ if k = cstr key then bs = d.bytes else Holds buckets k bs := by
  obtain ⟨t', hput, hr, hn⟩ := tablePut_new junk (dataDup_valid junk hd) hs.rep hl habs hstale
  have hek := keyStr_newEntry key (some (DataT.ofBytes d.bytes))
  obtain ⟨hdist, -, hbinds⟩ := hs.bucketed.insert hl habs t.heap.size hek
  refine ⟨t', _, hput, hs.setBucket hl hr hn hdist ?_, hn, holds_set hbinds⟩
  intro x hx
  rcases List.mem_append.mp hx with hx | hx
  · exact Or.inl hx
  · obtain rfl := List.mem_singleton.mp hx
    exact Or.inr ⟨hek, d.bytes, hd.ofBytes, rfl⟩

/-- A key that is present keeps its entry, with another value. -/
theorem Sound.put_present (hs : Sound t buckets) {pre post : Nodes} {a : Addr} {e : EntryT}
    (hl : Located t buckets key i (pre ++ (a, e) :: post)) (junk : Nat → UInt8) {d : DataT}
    (hd : d.Valid) (hpre : ∀ x ∈ pre, ¬ HasKey (cstr key) x) (hke : HasKey (cstr key) (a, e)) :
    ∃ t' buckets', tablePut junk t key (some d) = .ok (0, t') ∧ Sound t' buckets' ∧ t'.n = t.n ∧
      ∀ k bs, Holds buckets' k bs ↔ if k = cstr key then bs = d.bytes else Holds buckets k bs := by
  obtain ⟨t', hput, hr, hn⟩ := tablePut_present junk (dataDup_valid junk hd) hs.rep hl hpre hke
  have hek : e.keyStr = cstr key := of_decide_eq_true hke
  obtain ⟨hdist, -, hbinds⟩ := hs.bucketed.replace hl hek
    (show EntryT.keyStr { e with value := some (DataT.ofBytes d.bytes) } = e.keyStr from rfl)
  refine ⟨t', _, hput, hs.setBucket hl hr hn hdist ?_, hn, holds_set hbinds⟩
  intro x hx
  rcases List.mem_append.mp hx with hx | hx
  · exact Or.inl (List.mem_append_left _ hx)
  · rcases List.mem_cons.mp hx with rfl | hx
    · exact Or.inr ⟨hek, d.bytes, hd.ofBytes, rfl⟩
    · exact Or.inl (by simp [hx])

/-- **A `table_put` that does not write through a freed tail** binds its key to a
copy of its value and leaves every other binding alone. -/
theorem Sound.put (hs : Sound t buckets) (hl : Located t buckets key i b) (junk : Nat → UInt8)
    {d : DataT} (hd : d.Valid) (hok : ¬ (KeyAbsent t key ∧ StaleTail t key)) :
    ∃ t' buckets', tablePut junk t key (some d) = .ok (0, t') ∧ Sound t' buckets' ∧ t'.n = t.n ∧
      ∀ k bs, Holds buckets' k bs ↔ if k = cstr key then bs = d.bytes else Holds buckets k bs := by
  rcases absent_or_split (cstr key) b with habs | ⟨pre, a, e, post, rfl, hpre, hke⟩
  · exact hs.put_new hl junk hd habs fun hstale =>
      hok ⟨(hl.keyAbsent_iff hs.rep.shape).mpr habs, hstale⟩
  · exact hs.put_present hl junk hd hpre hke

/-- In the remaining case `table_put` faults. -/
theorem Sound.put_stale (hs : Sound t buckets) (hl : Located t buckets key i b)
    (junk : Nat → UInt8) {d : DataT} (hd : d.Valid) (habs : KeyAbsent t key)
    (hstale : StaleTail t key) : tablePut junk t key (some d) = .error .useAfterFree :=
  tablePut_stale junk (dataDup_valid junk hd) hs.rep.shape hl
    ((hl.keyAbsent_iff hs.rep.shape).mp habs) hstale

/-! ## `table_del` removes it -/

theorem Sound.del (hs : Sound t buckets) (hl : Located t buckets key i b) {bs : Block}
    (hk : Holds buckets (cstr key) bs) :
    ∃ t' buckets', tableDel t key = .ok (0, t') ∧ Sound t' buckets' ∧ t'.n = t.n ∧
      ∀ k cs, Holds buckets' k cs ↔ k ≠ cstr key ∧ Holds buckets k cs := by
  rcases absent_or_split (cstr key) b with habs | ⟨pre, a, e, post, rfl, hpre, hke⟩
  · exact absurd hk (not_binds_of_not_mem ((hs.absent_iff hl).mp habs) _)
  · obtain ⟨t', hdel, hr, hn⟩ := tableDel_present hs.rep hl hpre hke
    obtain ⟨hdist, -, hbinds⟩ := hs.bucketed.erase hl (of_decide_eq_true hke)
    refine ⟨t', _, hdel, hs.setBucket hl hr hn hdist ?_, hn, fun k cs => hbinds k _⟩
    intro x hx
    rcases List.mem_append.mp hx with hx | hx
    · exact Or.inl (List.mem_append_left _ hx)
    · exact Or.inl (by simp [hx])

theorem Sound.del_absent (hs : Sound t buckets) (hl : Located t buckets key i b)
    (hk : ∀ bs, ¬ Holds buckets (cstr key) bs) : tableDel t key = .ok (-1, t) := by
  refine tableDel_absent hs.rep.shape hl ((hs.absent_iff hl).mpr fun hmem => ?_)
  obtain ⟨e, he, hke⟩ := List.mem_map.mp hmem
  obtain ⟨bs, -, hval⟩ := hs.stored e he
  exact hk bs ⟨e, he, hke, hval⟩

end Steps

end RemoteTable
