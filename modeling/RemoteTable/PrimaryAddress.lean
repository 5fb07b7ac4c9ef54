import RemoteTable.Redundancy

/-! # The address the client reads

`server_info_len` is the capacity that `data_watcher` gives to `zoo_wget` and the count that
it gets back, so the capacity shrinks to the shortest value so far and never grows again.
The buffer keeps the bytes of earlier values, and nobody writes a terminator.

What the buffer holds at each position follows from the values alone: the byte of the last
value before the first one that is too short to have a byte there (`written`).
-/
namespace RemoteTable
open CMem

/-- A value of the node as a server writes it: a string that is not empty and that
`server_info_buf` has room for, terminator included. -/
structure Address where
  bytes : List UInt8
  nonempty : bytes ≠ []
  fits : bytes.length < zdataLen
  noNul : (0 : UInt8) ∉ bytes

/-- The values that the node takes one after the other, each change delivered before the
next one. -/
def follow (zooWget : ZooWget) (g : Redundancy) (zk : ZooKeeper) :
    List Address → Exec (Redundancy × ZooKeeper)
  | [] => .ok (g, zk)
  | w :: values => do
    let (g, zk) ← handle zooWget g (zk.set w.bytes)
    follow zooWget g zk values

/-- The value the node has in the end. -/
def current (v : Address) (values : List Address) : List UInt8 := (values.getLastD v).bytes

/-- **The client reads the current address**: after `start_watcher` has returned 0 with the
first value, and all changes have been handled, `update_rtable_t` passes a string to
`rtable_connect`, and it is the value the node has then. -/
def ReadsCurrent (zooWget : ZooWget) (junk : Nat → UInt8) (v : Address)
    (values : List Address) : Prop :=
  ∀ block g zk, startWatcher zooWget block junk Redundancy.init ⟨some v.bytes, false, []⟩ =
      .ok (0, g, zk) →
    ∃ g' zk', follow zooWget g zk values = .ok (g', zk') ∧
      ∀ connects, ∃ code buf g'', updateRtableT connects g' = .ok (code, some buf, g'') ∧
        Terminated buf ∧ cstr buf = current v values

/-! ## The bytes in the buffer -/

/-- The byte that the values leave at a position, `none` where the first of them is too
short. -/
def written : List Address → Nat → Option UInt8
  | [], _ => none
  | w :: values, p => (w.bytes[p]?).map fun c => (written values p).getD c

/-- **The buffer spells the current address**: the first value was not longer, the block
happened to hold a NUL right behind it, and every byte before that is the right one. -/
structure SpellsCurrent (junk : Nat → UInt8) (v : Address) (values : List Address) : Prop where
  notLonger : v.bytes.length ≤ (current v values).length
  nul : junk (current v values).length = 0
  bytes : ∀ p c, (current v values)[p]? = some c → (written (v :: values) p).getD (junk p) = c

section Watcher
variable {zooWget : ZooWget} {g : Redundancy} {b : Block} {n : Nat}

/-- One change: the bytes that fit, and the capacity that is left. -/
theorem handle_set (hz : zooWget.Documented) (hb : g.serverInfoBuf = some b) (hn : g.serverInfoLen = n)
    (hle : n ≤ b.length) (u w : List UInt8) :
    handle zooWget g (ZooKeeper.set ⟨some u, true, []⟩ w) =
      .ok ({ g with
        serverInfoBuf := some (w.take (min n w.length) ++ b.drop (min n w.length))
        serverInfoLen := (min n w.length : Nat)
        new := true }, ⟨some w, true, []⟩) := by
  have hset : ZooKeeper.set ⟨some u, true, []⟩ w = ⟨some w, false, [.changed]⟩ := rfl
  have hnode : (⟨some w, false, []⟩ : ZooKeeper).node = some w := rfl
  have hget := hz.found hnode hle
  simp only [hset, handle, dataWatcher, if_true, fetch, hb, deref_some, ok_bind, hn, hget,
    pure_eq_ok]

/-- The bytes after one change: those of the value below both lengths. -/
theorem getElem?_overwrite (hle : n ≤ b.length) (w : List UInt8) (p : Nat) :
    (w.take (min n w.length) ++ b.drop (min n w.length))[p]? =
      b[p]?.map fun c => if p < n then (w[p]?).getD c else c := by
  have hlen : (w.take (min n w.length)).length = min n w.length := by
    rw [List.length_take]
    omega
  by_cases hp : p < min n w.length
  · have hpn : p < n := by omega
    have hpw : p < w.length := by omega
    have hpb : p < b.length := by omega
    rw [List.getElem?_append_left (by omega), List.getElem?_take_of_lt hp,
      List.getElem?_eq_getElem hpw, List.getElem?_eq_getElem hpb]
    simp [hpn]
  · rw [List.getElem?_append_right (by omega), List.getElem?_drop, hlen,
      Nat.add_sub_cancel' (by omega)]
    by_cases hpn : p < n
    · have hpw : w[p]? = none := List.getElem?_eq_none (by omega)
      simp [hpw]
    · simp [hpn]

/-- **The buffer after all changes**, position by position: below the capacity the byte
that the values leave, and the old one where they leave none. -/
theorem follow_bytes (hz : zooWget.Documented) (values : List Address) {g : Redundancy} {b : Block} {n : Nat}
    (hb : g.serverInfoBuf = some b) (hn : g.serverInfoLen = n) (hle : n ≤ b.length)
    (u : List UInt8) :
    ∃ g' b' zk', follow zooWget g ⟨some u, true, []⟩ values = .ok (g', zk') ∧
      g'.serverInfoBuf = some b' ∧ (g.new = true → g'.new = true) ∧
      ∀ p, b'[p]? = b[p]?.map fun c => if p < n then (written values p).getD c else c := by
  induction values generalizing g b n u with
  | nil =>
    refine ⟨g, b, _, rfl, hb, id, fun p => ?_⟩
    simp [written]
  | cons w values ih =>
    have hstep := handle_set hz hb hn hle u w.bytes
    obtain ⟨g', b', zk', hrun, hb', hnew, hbytes⟩ := ih
      (g := { g with
        serverInfoBuf := some (w.bytes.take (min n w.bytes.length) ++
          b.drop (min n w.bytes.length))
        serverInfoLen := (min n w.bytes.length : Nat)
        new := true }) rfl rfl (by simp) w.bytes
    refine ⟨g', b', zk', ?_, hb', fun _ => hnew rfl, fun p => ?_⟩
    · rw [follow, hstep, ok_bind]
      exact hrun
    · rw [hbytes p, getElem?_overwrite hle, Option.map_map]
      congr 1
      funext c
      -- a value that is too short at this position keeps all later ones from writing there
      by_cases hpm : p < min n w.bytes.length
      · have hpw : p < w.bytes.length := by omega
        have hpn : p < n := by omega
        simp only [Function.comp_apply, if_pos hpm, if_pos hpn, written,
          List.getElem?_eq_getElem hpw, Option.map_some, Option.getD_some]
      · by_cases hpn : p < n
        · have hnone : w.bytes[p]? = none := List.getElem?_eq_none (by omega)
          simp only [Function.comp_apply, if_neg hpm, if_pos hpn, written, hnone,
            Option.map_none, Option.getD_none]
        · simp only [Function.comp_apply, if_neg hpm, if_neg hpn]

end Watcher

/-! ## The string in the buffer -/

/-- A block holds a string exactly when it starts with its bytes and a NUL. -/
theorem terminated_and_cstr_iff {b : Block} {s : List UInt8} (hs : (0 : UInt8) ∉ s) :
    (Terminated b ∧ cstr b = s) ↔ ∃ rest, b = s ++ 0 :: rest := by
  constructor
  · rintro ⟨ht, rfl⟩
    exact ht.split
  · rintro ⟨rest, rfl⟩
    exact ⟨terminated_append_nul s rest, cstr_append_nul hs rest⟩

/-- The same, position by position. -/
theorem starts_with_iff {b : Block} {s : List UInt8} :
    (∃ rest, b = s ++ 0 :: rest) ↔
      b[s.length]? = some 0 ∧ ∀ (p : Nat) (c : UInt8), s[p]? = some c → b[p]? = some c := by
  constructor
  · rintro ⟨rest, rfl⟩
    constructor
    · simp
    · intro p c hc
      obtain ⟨hp, -⟩ := List.getElem?_eq_some_iff.mp hc
      rw [List.getElem?_append_left hp, hc]
  · rintro ⟨hnul, hbytes⟩
    have htake : b.take s.length = s := by
      refine List.ext_getElem? fun p => ?_
      by_cases hp : p < s.length
      · rw [List.getElem?_take_of_lt hp, List.getElem?_eq_getElem hp]
        exact hbytes p _ (List.getElem?_eq_getElem hp)
      · rw [List.getElem?_eq_none (by simp; omega), List.getElem?_eq_none (by omega)]
    obtain ⟨hlt, h0⟩ := List.getElem?_eq_some_iff.mp hnul
    refine ⟨b.drop (s.length + 1), ?_⟩
    calc b = b.take s.length ++ b.drop s.length := (List.take_append_drop _ _).symm
      _ = s ++ 0 :: b.drop (s.length + 1) := by rw [htake, List.drop_eq_getElem_cons hlt, h0]

section Values
variable {zooWget : ZooWget} {junk : Nat → UInt8} {v : Address} {values : List Address}

/-- What the values leave is never a NUL. -/
theorem written_ne_zero {p : Nat} {c : UInt8} (h : written values p = some c) : c ≠ 0 := by
  induction values generalizing c with
  | nil => cases h
  | cons w values ih =>
    obtain ⟨d, hd, rfl⟩ := Option.map_eq_some_iff.mp h
    cases hrest : written values p with
    | none =>
      rintro rfl
      exact w.noNul (List.mem_of_getElem? hd)
    | some e => exact ih hrest

/-- The values leave a byte wherever the first of them has one. -/
theorem written_eq_none_iff (p : Nat) :
    written (v :: values) p = none ↔ v.bytes.length ≤ p := by
  rw [written, Option.map_eq_none_iff, List.getElem?_eq_none_iff]

/-- **What `update_rtable_t` passes** after all changes: the block with the bytes that the
values leave. -/
theorem passes_written (hz : zooWget.Documented) (junk : Nat → UInt8) (v : Address)
    (values : List Address) :
    ∃ buf : Block, (∀ p < zdataLen, buf[p]? = some ((written (v :: values) p).getD (junk p))) ∧
      ∀ block g zk, startWatcher zooWget block junk Redundancy.init ⟨some v.bytes, false, []⟩ =
          .ok (0, g, zk) →
        ∃ g' zk', follow zooWget g zk values = .ok (g', zk') ∧ ∀ connects, updateRtableT connects g' =
          .ok (if connects buf then 1 else 0, some buf, { g' with new := false }) := by
  have hfits := v.fits
  have hmin : min zdataLen v.bytes.length = v.bytes.length := by omega
  -- the first value is written into the fresh block, as the later ones are into the buffer
  obtain ⟨g', buf, zk', hrun, hbuf, hnew, hbytes⟩ := follow_bytes hz values
    (g := ⟨true, (v.bytes.length : Nat), true, true,
      some (v.bytes ++ ((List.range zdataLen).map junk).drop v.bytes.length)⟩)
    rfl rfl (by simp) v.bytes
  refine ⟨buf, fun p hp => ?_, fun block g zk hstart => ⟨g', zk', ?_, fun connects => ?_⟩⟩
  · have hfirst := getElem?_overwrite (b := (List.range zdataLen).map junk) (n := zdataLen)
      (by simp) v.bytes p
    rw [hmin, List.take_length] at hfirst
    rw [hbytes p, hfirst]
    by_cases hpv : p < v.bytes.length
    · simp [written, hp, hpv]
    · simp [written, hp, hpv]
  · obtain ⟨rfl, rfl⟩ := startWatcher_started hz rfl hstart
    rw [hmin, List.take_length]
    exact hrun
  · simp only [updateRtableT, isNew, hnew rfl, if_true, hbuf, deref_some, ok_bind, pure_eq_ok]

theorem current_length_lt (v : Address) (values : List Address) :
    (current v values).length < zdataLen := (values.getLastD v).fits

/-- Reading the current address is a matter of the buffer. -/
theorem readsCurrent_iff_bytes (hz : zooWget.Documented) :
    ReadsCurrent zooWget junk v values ↔
      (written (v :: values) (current v values).length).getD
          (junk (current v values).length) = 0 ∧
        ∀ p c, (current v values)[p]? = some c →
          (written (v :: values) p).getD (junk p) = c := by
  obtain ⟨buf, hbytes, hpass⟩ := passes_written hz junk v values
  have hlt := current_length_lt v values
  have hreads : ReadsCurrent zooWget junk v values ↔
      Terminated buf ∧ cstr buf = current v values := by
    constructor
    · intro h
      have hnode : (⟨some v.bytes, false, []⟩ : ZooKeeper).node = some v.bytes := rfl
      have hstart := startWatcher_granted hz junk hnode
      obtain ⟨g₁, zk₁, hrun, hpasses⟩ := hpass true _ _ hstart
      obtain ⟨g₂, zk₂, hrun', hup⟩ := h true _ _ hstart
      obtain ⟨rfl, rfl⟩ := Prod.mk.inj (Except.ok.inj (hrun.symm.trans hrun'))
      obtain ⟨code, buf', g'', hup', hspells⟩ := hup fun _ => true
      rw [hpasses] at hup'
      obtain ⟨-, hup'⟩ := Prod.mk.inj (Except.ok.inj hup')
      obtain ⟨hsome, -⟩ := Prod.mk.inj hup'
      obtain rfl := Option.some.inj hsome
      exact hspells
    · intro hspells block g zk hstart
      obtain ⟨g', zk', hrun, hpasses⟩ := hpass block g zk hstart
      exact ⟨g', zk', hrun, fun connects => ⟨_, buf, _, hpasses connects, hspells⟩⟩
  have hno : (0 : UInt8) ∉ current v values := (values.getLastD v).noNul
  rw [hreads, terminated_and_cstr_iff hno, starts_with_iff, hbytes _ hlt, Option.some.injEq]
  refine and_congr_right fun _ => forall_congr' fun p => forall_congr' fun c => ?_
  refine imp_congr_right fun hc => ?_
  obtain ⟨hp, -⟩ := List.getElem?_eq_some_iff.mp hc
  rw [hbytes p (by omega), Option.some.injEq]

end Values

/-- **When the client reads the current address**: exactly when the buffer happens to spell
it, and whatever the values are there are contents of the block with which it does not. -/
theorem readsCurrent_iff (zooWget : ZooWget) (hz : zooWget.Documented) (v : Address)
    (values : List Address) :
    (∀ junk, ReadsCurrent zooWget junk v values ↔ SpellsCurrent junk v values) ∧
      ¬ ∀ junk, ReadsCurrent zooWget junk v values := by
  have hiff : ∀ junk, ReadsCurrent zooWget junk v values ↔ SpellsCurrent junk v values := by
    intro junk
    rw [readsCurrent_iff_bytes hz]
    constructor
    · rintro ⟨hnul, hbytes⟩
      -- the values leave no NUL, so the one behind the address is the block's own
      cases hw : written (v :: values) (current v values).length with
      | none =>
        rw [hw] at hnul
        exact ⟨written_eq_none_iff _ |>.mp hw, hnul, hbytes⟩
      | some c =>
        rw [hw] at hnul
        exact absurd hnul (written_ne_zero hw)
    · rintro ⟨hlonger, hnul, hbytes⟩
      refine ⟨?_, hbytes⟩
      rw [(written_eq_none_iff _).mpr hlonger]
      exact hnul
  refine ⟨hiff, fun h => ?_⟩
  have hnul := ((hiff fun _ => 1).mp (h _)).nul
  exact absurd hnul (by decide)

/-- `"10.0.0.1:80"`. -/
def shortAddress : Address :=
  ⟨[49, 48, 46, 48, 46, 48, 46, 49, 58, 56, 48], by decide, by decide, by decide⟩

/-- `"10.0.0.1:8080"`. -/
def longAddress : Address :=
  ⟨[49, 48, 46, 48, 46, 48, 46, 49, 58, 56, 48, 56, 48], by decide, by decide, by decide⟩

/-- The theorem at an address that grows. -/
theorem readsCurrent_iff_longer :
    (∀ junk, ReadsCurrent plainWget junk shortAddress [longAddress] ↔
        SpellsCurrent junk shortAddress [longAddress]) ∧
      ¬ ∀ junk, ReadsCurrent plainWget junk shortAddress [longAddress] :=
  readsCurrent_iff plainWget plainWget_documented _ _

/-- **A longer address is cut to the length of the first one**, even in a block of zeros. -/
theorem longerAddress_cut :
    ¬ ReadsCurrent plainWget (fun _ => 0) shortAddress [longAddress] := by
  intro h
  have hbytes := ((readsCurrent_iff_bytes plainWget_documented).mp h).2 11 56 (by decide)
  exact absurd hbytes (by decide)

end RemoteTable
