import RemoteTable.TableMap

/-! # Whole runs of the table

What the table is for: a finite map from strings to byte blocks, specified by
the history alone (`latest`: the value of the most recent `table_put` of a key
not followed by a `table_del` of it).

A run calls the table functions in any order on the table `table_create` made.
It refines the map when no call faults and every answer is the one the history
prescribes.  Each call has a condition on the state it meets (`StepMeets`):
`table_put` must not append behind a freed tail, and the counters of
`table_size` and `table_get_keys` must not overflow.  A run refines the map
exactly when every call meets its condition, because a call that does not meet
it faults.
-/
namespace RemoteTable
open CMem Assoc

/-- A string a C caller can pass as a key. -/
structure Key where
  str : List UInt8
  noNul : (0 : UInt8) ∉ str
  deriving DecidableEq

/-- The block the caller holds it in. -/
def Key.block (k : Key) : Block := k.str ++ [0]

@[simp] theorem Key.cstr_block (k : Key) : cstr k.block = k.str := cstr_append_nul k.noNul []

theorem Key.ext_str {k l : Key} (h : k.str = l.str) : k = l := by
  cases k
  cases l
  cases h
  rfl

/-- The key of an entry. -/
def EntryT.toKey (e : EntryT) : Key := ⟨e.keyStr, cstr_no_nul e.key⟩

/-- A call of a table function. -/
inductive TableOp
  | put (k : Key) (value : DataT)
  | get (k : Key)
  | del (k : Key)
  | size
  | getKeys

/-- What a table function answers. -/
inductive TableAnswer
  | code (r : Int)
  | value (v : Option DataT)
  | size (n : Int)
  | keys (ks : List Block)
  deriving DecidableEq

/-- One call. -/
def tableStep (junk : Nat → UInt8) (t : TableT) : TableOp → Exec (TableAnswer × TableT)
  | .put k value => do
    let (r, t) ← tablePut junk t k.block (some value)
    return (.code r, t)
  | .get k => do
    let v ← tableGet junk t k.block
    return (.value v, t)
  | .del k => do
    let (r, t) ← tableDel t k.block
    return (.code r, t)
  | .size => do
    let n ← tableSize t
    return (.size n, t)
  | .getKeys => do
    let slots ← tableGetKeys t
    let ks ← untilNull slots
    return (.keys ks, t)

/-- A run: the answers of the calls, in order.  `junk i` is what `malloc` hands
to the `i`-th call. -/
def runTable (junk : Nat → Nat → UInt8) (t : TableT) :
    List TableOp → Exec (List TableAnswer × TableT)
  | [] => .ok ([], t)
  | op :: ops => do
    let (r, t) ← tableStep (junk 0) t op
    let (rs, t) ← runTable (fun i => junk (i + 1)) t ops
    return (r :: rs, t)

/-! ## The map the history prescribes -/

/-- The bytes of the most recent `table_put` of `k` not followed by a `table_del`
of `k`; the history has the most recent call first. -/
def latest : List TableOp → Key → Option Block
  | [], _ => none
  | .put k' value :: hist, k => if k' = k then some value.bytes else latest hist k
  | .del k' :: hist, k => if k' = k then none else latest hist k
  | .get _ :: hist, k | .size :: hist, k | .getKeys :: hist, k => latest hist k

/-- `ks` lists every present key exactly once. -/
structure Listing (hist : List TableOp) (ks : List Key) : Prop where
  nodup : ks.Nodup
  mem : ∀ k, k ∈ ks ↔ (latest hist k).isSome

/-- The answer the history prescribes. -/
def Answers (hist : List TableOp) : TableOp → TableAnswer → Prop
  | .put _ _, r => r = .code 0
  | .get k, r => r = .value ((latest hist k).map DataT.ofBytes)
  | .del k, r => r = .code (if (latest hist k).isSome then 0 else -1)
  | .size, r => ∃ ks, Listing hist ks ∧ r = .size ks.length
  | .getKeys, r => ∃ ks, Listing hist ks ∧ r = .keys (ks.map Key.block)

/-- Every answer of a run is the one its history prescribes. -/
def AnswersAll : List TableOp → List TableOp → List TableAnswer → Prop
  | _, [], rs => rs = []
  | _, _ :: _, [] => False
  | hist, op :: ops, r :: rs => Answers hist op r ∧ AnswersAll (op :: hist) ops rs

/-- **The run refines the map**: no call faults, and every answer is right. -/
def Refines (junk : Nat → Nat → UInt8) (hist : List TableOp) (t : TableT) (ops : List TableOp) :
    Prop :=
  ∃ rs t', runTable junk t ops = .ok (rs, t') ∧ AnswersAll hist ops rs

/-- The arguments a caller may pass: keys whose hash is an index of the table,
values of at least one byte. -/
def Admissible (n : Int) : TableOp → Prop
  | .put k value => InRange n k.block ∧ value.Valid
  | .get k | .del k => InRange n k.block
  | .size | .getKeys => True

/-- The condition on the state a call meets. -/
def StepMeets (hist : List TableOp) (t : TableT) : TableOp → Prop
  | .put k _ => ¬ (KeyAbsent t k.block ∧ StaleTail t k.block)
  | .size => ∀ ks, Listing hist ks → (ks.length : Int) ≤ intMax
  | .getKeys => ∀ ks, Listing hist ks → (ks.length : Int) < intMax
  | .get _ | .del _ => True

/-- Every call of the run meets its condition in the state it is made in. -/
def Meets (junk : Nat → Nat → UInt8) : List TableOp → TableT → List TableOp → Prop
  | _, _, [] => True
  | hist, t, op :: ops => StepMeets hist t op ∧ ∀ r t', tableStep (junk 0) t op = .ok (r, t') →
      Meets (fun i => junk (i + 1)) (op :: hist) t' ops

/-! ## One call -/

/-- The table holds what the history prescribes. -/
structure Tracks (t : TableT) (buckets : Buckets) (hist : List TableOp) : Prop where
  sound : Sound t buckets
  content : ∀ (k : Key) bs, latest hist k = some bs ↔ Holds buckets k.str bs

section Step
variable {t : TableT} {buckets : Buckets} {hist : List TableOp}

theorem Tracks.latest_none (ht : Tracks t buckets hist) {k : Key} (h : latest hist k = none) (bs : Block) :
    ¬ Holds buckets k.str bs := by
  intro hb
  rw [(ht.content k bs).mpr hb] at h
  cases h

/-- The keys of the entries list the present keys. -/
theorem Tracks.listing (ht : Tracks t buckets hist) :
    Listing hist ((entries buckets).map EntryT.toKey) where
  nodup := by
    have hd : ((entries buckets).map EntryT.keyStr).Nodup := ht.sound.distinct
    have hstr : (entries buckets).map EntryT.keyStr =
        ((entries buckets).map EntryT.toKey).map Key.str := by
      rw [List.map_map]
      rfl
    rw [hstr] at hd
    exact hd.of_map _
  mem k := by
    rw [Option.isSome_iff_exists]
    constructor
    · intro hk
      obtain ⟨e, he, rfl⟩ := List.mem_map.mp hk
      obtain ⟨bs, -, hv⟩ := ht.sound.stored e he
      exact ⟨bs, (ht.content _ bs).mpr ⟨e, he, rfl, hv⟩⟩
    · rintro ⟨bs, hbs⟩
      obtain ⟨e, he, hk, -⟩ := (ht.content k bs).mp hbs
      exact List.mem_map.mpr ⟨e, he, Key.ext_str hk⟩

/-- All listings of a history are equally long. -/
theorem Listing.length_eq {ks ls : List Key} (h : Listing hist ks) (h' : Listing hist ls) :
    ks.length = ls.length :=
  ((List.perm_ext_iff_of_nodup h.nodup h'.nodup).mpr fun k => (h.mem k).trans (h'.mem k).symm).length_eq

/-- **A call that meets its condition answers as the history prescribes**, and
the table holds what the longer history prescribes. -/
theorem Tracks.step (ht : Tracks t buckets hist) (junk : Nat → UInt8) {op : TableOp}
    (hop : Admissible t.n op) (hmeets : StepMeets hist t op) :
    ∃ r t' buckets', tableStep junk t op = .ok (r, t') ∧ Answers hist op r ∧ t'.n = t.n ∧
      Tracks t' buckets' (op :: hist) := by
  have hs := ht.sound
  have hlen : (entries buckets).length = ((entries buckets).map EntryT.toKey).length := by simp
  cases op with
  | put k value =>
    obtain ⟨i, b, hl⟩ := hop.1.located hs.rep.shape
    obtain ⟨t', buckets', hput, hs', hn, hh⟩ := hs.put hl junk hop.2 hmeets
    refine ⟨.code 0, t', buckets', by simp [tableStep, hput], rfl, hn, hs', fun k' bs => ?_⟩
    rw [hh, Key.cstr_block]
    by_cases hk : k = k'
    · subst hk
      simp [latest, eq_comm]
    · have hne : k'.str ≠ k.str := fun h => hk (Key.ext_str h.symm)
      simp [latest, hk, hne, ht.content]
  | get k =>
    obtain ⟨i, b, hl⟩ := InRange.located hs.rep.shape hop
    refine ⟨_, t, buckets, ?_, rfl, rfl, hs, ht.content⟩
    cases hv : latest hist k with
    | none =>
      have hget := hs.get_absent hl junk (by simpa using ht.latest_none hv)
      simp [tableStep, hget]
    | some bs =>
      have hget := hs.get hl junk (by simpa using (ht.content k bs).mp hv)
      simp [tableStep, hget]
  | del k =>
    obtain ⟨i, b, hl⟩ := InRange.located hs.rep.shape hop
    cases hv : latest hist k with
    | none =>
      have hdel := hs.del_absent hl (by simpa using ht.latest_none hv)
      refine ⟨.code (-1), t, buckets, by simp [tableStep, hdel], by simp [Answers, hv], rfl, hs,
        fun k' bs => ?_⟩
      by_cases hk : k = k'
      · subst hk
        simp [latest, ht.latest_none hv bs]
      · simp [latest, hk, ht.content]
    | some bs =>
      obtain ⟨t', buckets', hdel, hs', hn, hh⟩ := hs.del hl (by simpa using (ht.content k bs).mp hv)
      refine ⟨.code 0, t', buckets', by simp [tableStep, hdel], by simp [Answers, hv], hn, hs',
        fun k' bs => ?_⟩
      rw [hh, Key.cstr_block]
      by_cases hk : k = k'
      · subst hk
        simp [latest]
      · have hne : k'.str ≠ k.str := fun h => hk (Key.ext_str h.symm)
        simp [latest, hk, hne, ht.content]
  | size =>
    have hmax := hmeets _ ht.listing
    refine ⟨.size (entries buckets).length, t, buckets, ?_, ⟨_, ht.listing, by simp⟩, rfl, hs,
      ht.content⟩
    rw [tableStep, tableSize_eq hs.rep.shape, if_pos (by rw [hlen]; exact hmax)]
    rfl
  | getKeys =>
    have hmax := hmeets _ ht.listing
    refine ⟨.keys ((entries buckets).map fun e => e.keyStr ++ [0]), t, buckets, ?_,
      ⟨_, ht.listing, by simp [EntryT.toKey, Key.block]⟩, rfl, hs, ht.content⟩
    have hfill := untilNull_filled ((entries buckets).map fun e => e.keyStr ++ [0]) []
    have hslots : untilNull (keySlots (entries buckets) ++ [some none]) =
        .ok ((entries buckets).map fun e => e.keyStr ++ [0]) := by
      rw [List.map_map] at hfill
      exact hfill
    rw [tableStep, tableGetKeys_eq hs.rep.shape, if_pos (by rw [hlen]; exact hmax), ok_bind, hslots]
    rfl

/-- **A call that does not meet its condition faults.** -/
theorem Tracks.step_fault (ht : Tracks t buckets hist) (junk : Nat → UInt8) {op : TableOp}
    (hop : Admissible t.n op) (hmeets : ¬ StepMeets hist t op) :
    ∃ f, tableStep junk t op = .error f := by
  have hs := ht.sound
  have hlen : (entries buckets).length = ((entries buckets).map EntryT.toKey).length := by simp
  cases op with
  | put k value =>
    obtain ⟨i, b, hl⟩ := hop.1.located hs.rep.shape
    obtain ⟨habs, hstale⟩ := not_not.mp hmeets
    exact ⟨_, by rw [tableStep, hs.put_stale hl junk hop.2 habs hstale, error_bind]⟩
  | get k => exact absurd trivial hmeets
  | del k => exact absurd trivial hmeets
  | size =>
    have hmax : ¬ ((entries buckets).length : Int) ≤ intMax :=
      fun h => hmeets fun ks hks => by rw [hks.length_eq ht.listing, ← hlen]; exact h
    exact ⟨_, by rw [tableStep, tableSize_eq hs.rep.shape, if_neg hmax, error_bind]⟩
  | getKeys =>
    have hmax : ¬ ((entries buckets).length : Int) < intMax :=
      fun h => hmeets fun ks hks => by rw [hks.length_eq ht.listing, ← hlen]; exact h
    exact ⟨_, by rw [tableStep, tableGetKeys_eq hs.rep.shape, if_neg hmax, error_bind]⟩

end Step

/-! ## Whole runs -/

/-- The table `table_create` makes holds the empty map. -/
theorem tableCreate_tracks {n : Int} (hn : 0 ≤ n) :
    Tracks (tableCreate n) (List.replicate n.toNat []) [] where
  sound := tableCreate_sound hn
  content k bs := by
    have hnil : entries (List.replicate n.toNat []) = [] := by simp [entries]
    simp [latest, Holds, hnil, Binds]

/-- From any table that holds what its history prescribes. -/
theorem Tracks.refines_iff {t : TableT} {buckets : Buckets} {hist ops : List TableOp}
    (ht : Tracks t buckets hist) (junk : Nat → Nat → UInt8) (hops : ∀ op ∈ ops, Admissible t.n op) :
    Refines junk hist t ops ↔ Meets junk hist t ops := by
  induction ops generalizing t buckets hist junk with
  | nil => exact ⟨fun _ => trivial, fun _ => ⟨[], t, rfl, rfl⟩⟩
  | cons op ops ih =>
    have hop := hops op List.mem_cons_self
    have hrest : ∀ x ∈ ops, Admissible t.n x := fun x hx => hops x (List.mem_cons_of_mem _ hx)
    by_cases hm : StepMeets hist t op
    · obtain ⟨r, t₁, buckets₁, hstep, hans, hn, ht₁⟩ := ht.step (junk 0) hop hm
      have hih := ih ht₁ (fun i => junk (i + 1)) (by rwa [hn])
      constructor
      · rintro ⟨rs, t', hrun, hall⟩
        refine ⟨hm, fun r' t'' hstep' => ?_⟩
        obtain ⟨rfl, rfl⟩ := Prod.mk.inj (Except.ok.inj (hstep'.symm.trans hstep))
        simp only [runTable, hstep, ok_bind] at hrun
        obtain ⟨⟨rs', t₂⟩, hrun', hret⟩ := bind_eq_ok.mp hrun
        obtain ⟨rfl, rfl⟩ := Prod.mk.inj (Except.ok.inj hret)
        exact hih.mp ⟨rs', t₂, hrun', hall.2⟩
      · rintro ⟨-, hnext⟩
        obtain ⟨rs, t', hrun, hall⟩ := hih.mpr (hnext r t₁ hstep)
        exact ⟨r :: rs, t', by simp [runTable, hstep, hrun], hans, hall⟩
    · obtain ⟨f, hf⟩ := ht.step_fault (junk 0) hop hm
      constructor
      · rintro ⟨rs, t', hrun, -⟩
        rw [runTable, hf, error_bind] at hrun
        cases hrun
      · exact fun h => absurd h.1 hm

/-- **The table is a finite map over whole runs, exactly when no call meets a
freed tail or a counter at its limit**: for every number of lists, every sequence
of calls with admissible arguments and everything `malloc` may hand out. -/
theorem table_refines_map_iff (n : Int) (hn : 1 ≤ n) (ops : List TableOp)
    (hops : ∀ op ∈ ops, Admissible n op) (junk : Nat → Nat → UInt8) :
    Refines junk [] (tableCreate n) ops ↔ Meets junk [] (tableCreate n) ops :=
  (tableCreate_tracks (by omega)).refines_iff junk hops

/-- A one-letter key. -/
def letter (c : UInt8) (h : (0 : UInt8) ∉ [c]) : Key := ⟨[c], h⟩

/-- Three colliding keys: the last of two is deleted, then a third is put. -/
def lastDeleted : List TableOp :=
  [.put (letter 97 (by decide)) (.ofBytes [1]), .put (letter 98 (by decide)) (.ofBytes [2]),
    .del (letter 98 (by decide)), .put (letter 99 (by decide)) (.ofBytes [3])]

theorem lastDeleted_admissible : ∀ op ∈ lastDeleted, Admissible 1 op := by
  have hv : ∀ c : UInt8, (DataT.ofBytes [c]).Valid := fun c => DataT.valid_ofBytes (by simp) (by simp [intMax])
  intro op hop
  simp only [lastDeleted, List.mem_cons, List.not_mem_nil, or_false] at hop
  rcases hop with rfl | rfl | rfl | rfl
  · exact ⟨⟨0, by decide⟩, hv 1⟩
  · exact ⟨⟨0, by decide⟩, hv 2⟩
  · exact ⟨0, by decide⟩
  · exact ⟨⟨0, by decide⟩, hv 3⟩

/-- The theorem at that run. -/
theorem table_refines_map_iff_lastDeleted :
    Refines (fun _ _ => 0) [] (tableCreate 1) lastDeleted ↔
      Meets (fun _ _ => 0) [] (tableCreate 1) lastDeleted :=
  table_refines_map_iff 1 (by decide) lastDeleted lastDeleted_admissible _

/-- **The last put of that run writes to a freed node**: the run is not a run of
a map. -/
theorem lastDeleted_not_refines :
    (∀ op ∈ lastDeleted, Admissible 1 op) ∧
      ¬ Refines (fun _ _ => 0) [] (tableCreate 1) lastDeleted := by
  refine ⟨lastDeleted_admissible, ?_⟩
  rintro ⟨rs, t', hrun, -⟩
  have hfault : runTable (fun _ _ => 0) (tableCreate 1) lastDeleted = .error .useAfterFree := by
    decide
  rw [hfault] at hrun
  cases hrun

end RemoteTable
