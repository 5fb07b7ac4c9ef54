import RemoteTable.SkeletonSpec
import RemoteTable.ClientStub
import RemoteTable.Assoc
import Mathlib.Data.Nat.Digits.Defs

/-! # The key listing, from the table to the client

The server flattens the keys into one buffer (`keyWire`), the client counts the
NULs in it and cuts it again.  Both sides make two passes; what ties them together
is that a key contains no NUL, so there are as many NULs as keys and each string
ends at its own.

The counters of both sides are `int`s, and both compute the number of keys plus
one: a table of `INT_MAX` entries is one too many.
-/
namespace RemoteTable
open CMem Assoc

/-! ## The client's two passes -/

/-- Where the keys start, the first one at `off`. -/
def keyOffsets : Nat → List EntryT → List Nat
  | _, [] => []
  | off, e :: es => off :: keyOffsets (off + (e.keyStr.length + 1)) es

@[simp] theorem length_keyOffsets (off : Nat) (es : List EntryT) :
    (keyOffsets off es).length = es.length := by
  induction es generalizing off with
  | nil => rfl
  | cons e es ih => simp [keyOffsets, ih]

/-- **There are as many NULs as keys.** -/
theorem count_keyWire (es : List EntryT) : (keyWire es).count 0 = es.length := by
  induction es with
  | nil => rfl
  | cons e es ih =>
    have hno : e.keyStr.count 0 = 0 := List.count_eq_zero.mpr (cstr_no_nul e.key)
    simp [List.count_append, hno, ih]

/-- The first pass counts the NULs. -/
theorem countNulsLoop_eq (buf : Block) {todo i : Nat} (hi : i + todo = buf.length) {nkeys : Int}
    (hlo : 0 ≤ nkeys) (hhi : nkeys + ((buf.drop i).count 0 : Nat) ≤ intMax) :
    countNulsLoop (some buf) todo i nkeys = .ok (nkeys + ((buf.drop i).count 0 : Nat)) := by
  induction todo generalizing i nkeys with
  | zero =>
    rw [List.drop_eq_nil_of_le (by omega)]
    simp [countNulsLoop]
  | succ todo ih =>
    have hlt : i < buf.length := by omega
    have hload : load buf i = .ok buf[i] := load_eq_ok.mpr (List.getElem?_eq_getElem hlt)
    rw [List.drop_eq_getElem_cons hlt] at hhi ⊢
    simp only [countNulsLoop, deref_some, ok_bind, hload]
    by_cases hc : buf[i] = 0
    · rw [hc, List.count_cons_self] at hhi ⊢
      have hadd : intAdd nkeys 1 = .ok (nkeys + 1) :=
        checkInt_of_nonneg (by omega) (by omega)
      rw [if_pos rfl, hadd, ok_bind, ih (by omega) (by omega) (by omega)]
      congr 1
      omega
    · rw [List.count_cons_of_ne hc] at hhi ⊢
      rw [if_neg hc, ih (by omega) hlo hhi]

/-- The second pass finds where they start. -/
theorem collectKeysLoop_eq (es : List EntryT) (pre : List UInt8) (done : Slots (Option Nat))
    (spare : Nat) :
    collectKeysLoop (some (pre ++ keyWire es)) es.length done.length pre.length
        (done ++ List.replicate (es.length + spare) none) =
      .ok (done ++ (keyOffsets pre.length es).map (fun p => some (some p)) ++
        List.replicate spare none) := by
  induction es generalizing pre done with
  | nil => simp [collectKeysLoop, keyOffsets]
  | cons e es ih =>
    have hslots : List.replicate ((e :: es).length + spare) (none : Option (Option Nat)) =
        none :: List.replicate (es.length + spare) none := by
      rw [List.length_cons, Nat.add_right_comm, List.replicate_succ]
    have hlen : strlen ((pre ++ keyWire (e :: es)).drop pre.length) = .ok e.keyStr.length := by
      rw [List.drop_left, keyWire_cons, List.append_assoc]
      exact strlen_append_nul (cstr_no_nul e.key) _
    have hnext := ih (pre ++ (e.keyStr ++ [0])) (done ++ [some (some pre.length)])
    simp only [List.length_append, List.length_singleton] at hnext
    rw [hslots, List.length_cons, collectKeysLoop, setSlot_append, ok_bind, deref_some, ok_bind, hlen,
      ok_bind, keyWire_cons, ← List.append_assoc]
    rw [List.append_assoc done, List.singleton_append] at hnext
    rw [hnext]
    simp [keyOffsets]

/-- Each pointer points at its key. -/
theorem stringAt_keyOffsets (es : List EntryT) (pre : List UInt8) :
    (keyOffsets pre.length es).map (stringAt (some (pre ++ keyWire es))) =
      (es.map EntryT.keyStr).map Except.ok := by
  induction es generalizing pre with
  | nil => rfl
  | cons e es ih =>
    have hfirst : stringAt (some (pre ++ keyWire (e :: es))) pre.length = .ok e.keyStr := by
      have hlen : strlen ((pre ++ keyWire (e :: es)).drop pre.length) = .ok e.keyStr.length := by
        rw [List.drop_left, keyWire_cons, List.append_assoc]
        exact strlen_append_nul (cstr_no_nul e.key) _
      have hslice := slice_append pre e.keyStr ([0] ++ keyWire es)
      rw [List.append_assoc pre, ← List.append_assoc e.keyStr] at hslice
      rw [stringAt, deref_some, ok_bind, hlen, ok_bind]
      exact hslice
    have hrest := ih (pre ++ (e.keyStr ++ [0]))
    rw [List.append_assoc] at hrest
    simp only [List.length_append, List.length_singleton] at hrest
    simp only [keyOffsets, List.map_cons, hfirst]
    congr 1

/-- **The client cuts the buffer at the keys**: what it returns points at exactly
their strings. -/
theorem rtableGetKeys_eq (es : List EntryT) (hlt : (es.length : Int) < intMax) {resp : MessageT}
    (hbuf : resp.buffer = ⟨(keyWire es).length,
      if keyWire es = [] then none else some (keyWire es)⟩) :
    ∃ keys result, rtableGetKeys (some resp) = .ok (some (keys, result)) ∧
      PointsTo keys result (es.map EntryT.keyStr) := by
  have hadd : intAdd es.length 1 = .ok ((es.length : Int) + 1) :=
    checkInt_of_nonneg (by omega) (by omega)
  have hslots : (mallocSlots ((es.length : Int) + 1) : Slots (Option Nat)) =
      List.replicate (es.length + 1) none := by
    unfold mallocSlots
    congr 1
  by_cases hnil : es = []
  · subst hnil
    refine ⟨none, [some none], ?_, [], rfl, rfl⟩
    simp only [keyWire_nil, List.length_nil, if_true] at hbuf
    rw [rtableGetKeys, hbuf]
    rfl
  · have hne : keyWire es ≠ [] := by
      obtain ⟨e, es, rfl⟩ := List.exists_cons_of_ne_nil hnil
      simp
    rw [if_neg hne] at hbuf
    have hcount := count_keyWire es
    have hfirst := countNulsLoop_eq (keyWire es) (Nat.zero_add _) (Int.le_refl 0)
      (by rw [List.drop_zero, hcount]; omega)
    rw [List.drop_zero, hcount, Int.zero_add] at hfirst
    have hsecond := collectKeysLoop_eq es [] [] 1
    simp only [List.nil_append, List.length_nil] at hsecond
    have hlast := setSlot_append ((keyOffsets 0 es).map fun p => some (some p)) none [] none
    rw [List.length_map, length_keyOffsets] at hlast
    refine ⟨some (keyWire es), _, ?_, keyOffsets 0 es, rfl, stringAt_keyOffsets es []⟩
    rw [rtableGetKeys, hbuf]
    simp only [hfirst, ok_bind, hadd, hslots, Int.toNat_natCast, hsecond]
    rw [show List.replicate 1 (none : Option (Option Nat)) = [none] from rfl, hlast, ok_bind,
      pure_eq_ok]

/-! ## The listing, end to end -/

/-- **The key listing survives the wire**: `invoke` fills the block it sends, down to
the last byte and whatever the block held before, and from any response that
carries this reply the client makes the keys of all entries, in bucket order and
then list order. -/
def KeysSurvive (srv : Server) (buckets : Buckets) (msg : MessageT) : Prop :=
  ∃ wire : Block, ∀ env, ∃ code srv' reply, invoke env srv msg = .ok (code, srv', reply) ∧
    reply.buffer = ⟨wire.length, some wire⟩ ∧
    ∀ resp, Carried reply resp → ∃ keys result, rtableGetKeys (some resp) = .ok (some (keys, result)) ∧
      PointsTo keys result ((entries buckets).map EntryT.keyStr)

/-- The key listing survives the wire from any table of fewer than `INT_MAX`
entries. -/
theorem keys_survive (srv : Server) (buckets : Buckets) (hs : Shape srv.gTable buckets)
    (hlt : ((entries buckets).length : Int) < intMax) (msg : MessageT)
    (hop : msg.opcode = opGetKeys) : KeysSurvive srv buckets msg := by
  refine ⟨keyWire (entries buckets), fun env => ?_⟩
  have hdisp : dispatch env srv msg = _ := dispatch_getKeys hop
  rw [invokeGetKeys_eq hs hlt, ok_bind] at hdisp
  obtain ⟨code, stats, hrun⟩ := invoke_of_dispatch hdisp
  refine ⟨code, _, _, hrun, rfl, fun resp hresp => ?_⟩
  obtain rfl := (carried_iff (sent_all _)).mp hresp
  exact rtableGetKeys_eq (entries buckets) hlt rfl

/-- A `GETKEYS` request. -/
def getKeysRequest : MessageT := ⟨opGetKeys, ctNone, ⟨0, none⟩⟩

/-- The theorem at a table with an ordinary and an empty key. -/
theorem keys_survive_pair :
    KeysSurvive (oneList [⟨[97, 0], some (.ofBytes [1])⟩, ⟨[0], some (.ofBytes [2])⟩])
      [List.mapIdx Prod.mk [⟨[97, 0], some (.ofBytes [1])⟩, ⟨[0], some (.ofBytes [2])⟩]]
      getKeysRequest :=
  keys_survive _ _ (oneList_shape (by decide)) (by rw [entries_oneList]; decide) _ rfl

/-- The number `i` as a key: its digits to the base 255, none of them a NUL. -/
def numberedKey (i : Nat) : List UInt8 := (Nat.digits 255 i).map fun d => UInt8.ofNat (d + 1)

theorem toNat_digit {i d : Nat} (hd : d ∈ Nat.digits 255 i) : (UInt8.ofNat (d + 1)).toNat = d + 1 := by
  have hlt := Nat.digits_lt_base (by omega : 1 < 255) hd
  rw [UInt8.toNat_ofNat']
  omega

theorem numberedKey_no_nul (i : Nat) : (0 : UInt8) ∉ numberedKey i := by
  intro h
  obtain ⟨d, hd, h0⟩ := List.mem_map.mp h
  have hnat := congrArg UInt8.toNat h0
  rw [toNat_digit hd] at hnat
  cases hnat

/-- The digits can be read back, so different numbers are different keys. -/
theorem numberedKey_injective : Function.Injective numberedKey := by
  intro i j h
  have hdigits : ∀ i, (numberedKey i).map (fun c => c.toNat - 1) = Nat.digits 255 i := by
    intro i
    calc (numberedKey i).map (fun c => c.toNat - 1)
        = (Nat.digits 255 i).map fun d => (UInt8.ofNat (d + 1)).toNat - 1 := by
          rw [numberedKey, List.map_map]
          rfl
      _ = (Nat.digits 255 i).map id :=
          List.map_congr_left fun d hd => by rw [toNat_digit hd, Nat.add_sub_cancel, id]
      _ = Nat.digits 255 i := List.map_id _
  rw [← Nat.digits_inj_iff (b := 255), ← hdigits i, ← hdigits j, h]

/-- Entries with different keys, as many as wanted. -/
def numberedEntries (count : Nat) : List EntryT :=
  (List.range count).map fun i => ⟨numberedKey i ++ [0], some (.ofBytes [1])⟩

theorem numberedEntries_distinct (count : Nat) : Distinct EntryT.keyStr (numberedEntries count) := by
  have hkeys : (numberedEntries count).map EntryT.keyStr = (List.range count).map numberedKey := by
    rw [numberedEntries, List.map_map]
    exact List.map_congr_left fun i _ => cstr_append_nul (numberedKey_no_nul i) []
  rw [Distinct, hkeys]
  exact List.nodup_range.map numberedKey_injective

/-- The table of one list that holds them. -/
theorem numberedEntries_shape (count : Nat) :
    Shape (oneList (numberedEntries count)).gTable [(numberedEntries count).mapIdx Prod.mk] := by
  refine oneList_shape fun e he => ?_
  obtain ⟨i, -, rfl⟩ := List.mem_map.mp he
  exact terminated_append_nul _ _

theorem length_numberedEntries (count : Nat) :
    (entries [(numberedEntries count).mapIdx Prod.mk]).length = count := by
  rw [entries_oneList, numberedEntries, List.length_map, List.length_range]

/-- **With `INT_MAX` entries the listing fails**: the number of slots does not fit in
an `int`. -/
theorem crowded_not_survive :
    Shape (oneList (numberedEntries intMax.toNat)).gTable
        [(numberedEntries intMax.toNat).mapIdx Prod.mk] ∧
      Distinct EntryT.keyStr (numberedEntries intMax.toNat) ∧
      ¬ KeysSurvive (oneList (numberedEntries intMax.toNat))
        [(numberedEntries intMax.toNat).mapIdx Prod.mk] getKeysRequest := by
  have hshape := numberedEntries_shape intMax.toNat
  refine ⟨hshape, numberedEntries_distinct _, ?_⟩
  rintro ⟨wire, hwire⟩
  obtain ⟨code, srv', reply, hrun, -⟩ := hwire (.calm fun _ _ => 0)
  have hfull : ¬ ((entries [(numberedEntries intMax.toNat).mapIdx Prod.mk]).length : Int) < intMax := by
    rw [length_numberedEntries]
    decide
  have hdisp : dispatch (.calm fun _ _ => 0) (oneList (numberedEntries intMax.toNat)) getKeysRequest = _ :=
    dispatch_getKeys rfl
  rw [invokeGetKeys_overflow hshape hfull, error_bind] at hdisp
  rw [invoke_of_fault hdisp] at hrun
  cases hrun

end RemoteTable
