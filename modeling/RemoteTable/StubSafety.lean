import RemoteTable.KeyListing

/-! # What the client stub makes of any reply

A client may get any message as a reply, or none.  Five stubs take the buffer of the reply
apart, each in its own way: a length and as many bytes, one byte, strings, a raw
`struct statistics`, one string.

`SafelyRead` is what is to hold: nothing is read outside the buffer or through `NULL`, and
an error value is returned when there is no reply, or it is an error, or it is too short.
Which of these a stub looks at differs from one to the next (`Decodable`): only `rtable_get`
compares the opcode, and only for an empty buffer does any of them consider the length.
-/
namespace RemoteTable
open CMem

/-- The stubs that take a reply apart; `rtable_stats` with `print_stats` on its result. -/
inductive Stub
  | get
  | size
  | getKeys
  | stats
  | print
  deriving DecidableEq

/-- A stub on the response: whether it returns its error value.  `rtable_print` returns
nothing, so it has none. -/
def Stub.run (junk : Nat → UInt8) (stub : Stub) (resp : Option MessageT) : Exec Bool :=
  match stub with
  | .get => do
    let data ← rtableGet junk resp
    return data.isNone
  | .size => do
    let size ← rtableSize resp
    return size = -1
  | .getKeys => do
    let keys ← rtableGetKeys resp
    return keys.isNone
  | .stats =>
    match rtableStats resp with
    | none => .ok true
    | some image => do
      let _ ← printStats image
      return false
  | .print => do
    let _ ← rtablePrint resp
    return false

/-- The bytes of the buffer. -/
def MessageT.bytes (resp : MessageT) : Block := resp.buffer.data.getD []

/-- The buffer is too short for what the stub extracts: the header and the value it
announces, a byte, a whole structure, a string with its NUL.  There are as many keys as
NULs, so no buffer is too short for them. -/
def Stub.TooShort (stub : Stub) (bytes : Block) : Prop :=
  match stub with
  | .get => (bytes.length : Int) < sizeofInt + valueSize bytes
  | .size => bytes.length < 1
  | .getKeys => False
  | .stats => bytes.length < sizeofStatistics
  | .print => ¬ Terminated bytes

/-- The reply is missing, is an error, or is too short. -/
def Stub.Fails (stub : Stub) : Option MessageT → Prop
  | none => True
  | some resp => resp.opcode = opError ∨ stub.TooShort resp.bytes

/-- **The reply is safely read**: the stub is defined on it, and returns its error value if
the reply fails it. -/
def SafelyRead (junk : Nat → UInt8) (stub : Stub) (resp : Option MessageT) : Prop :=
  ∃ err, stub.run junk resp = .ok err ∧ (stub.Fails resp → err = true)

/-- The replies a stub can take apart, or turns down. -/
def Decodable (stub : Stub) (resp : Option MessageT) : Prop :=
  match stub, resp with
  | .print, none => False
  | _, none => True
  | .get, some resp => resp.opcode = opError ∨ resp.buffer.data = none ∨
      toInt32 resp.buffer.len = -1 ∨ ValueLayout resp.bytes
  | .size, some resp => resp.opcode ≠ opError ∧ resp.buffer.data ≠ none
  | .getKeys, some resp => resp.opcode ≠ opError ∧ (resp.bytes.count 0 : Int) < intMax
  | .stats, some resp => resp.buffer.data = none ∨
      (resp.opcode ≠ opError ∧ sizeofStatistics ≤ resp.bytes.length)
  | .print, some resp => resp.opcode ≠ opError ∧ Terminated resp.bytes

/-! ## `rtable_get_keys` on any buffer -/

/-- The first pass counts the NULs, or overflows. -/
theorem countNulsLoop_bound (buf : Block) {todo i : Nat} (hi : i + todo = buf.length)
    {nkeys r : Int} (hhi : nkeys ≤ intMax) (h : countNulsLoop (some buf) todo i nkeys = .ok r) :
    r = nkeys + ((buf.drop i).count 0 : Nat) ∧ r ≤ intMax := by
  induction todo generalizing i nkeys with
  | zero =>
    obtain rfl : nkeys = r := Except.ok.inj h
    rw [List.drop_eq_nil_of_le (by omega)]
    exact ⟨by simp, hhi⟩
  | succ todo ih =>
    have hlt : i < buf.length := by omega
    have hload : load buf i = .ok buf[i] := load_eq_ok.mpr (List.getElem?_eq_getElem hlt)
    rw [List.drop_eq_getElem_cons hlt]
    simp only [countNulsLoop, deref_some, ok_bind, hload] at h
    by_cases hc : buf[i] = 0
    · rw [if_pos hc] at h
      obtain ⟨next, hnext, h⟩ := bind_eq_ok.mp h
      obtain ⟨rfl, -, hmax⟩ := checkInt_eq_ok.mp hnext
      obtain ⟨rfl, hle⟩ := ih (by omega) hmax h
      refine ⟨?_, hle⟩
      rw [hc, List.count_cons_self]
      omega
    · rw [if_neg hc] at h
      rw [List.count_cons_of_ne hc]
      exact ih (by omega) hhi h

/-- Behind a string there is one NUL less. -/
theorem count_behind {buf : Block} {off todo : Nat} (h : todo + 1 ≤ (buf.drop off).count 0) :
    ∃ n, strlen (buf.drop off) = .ok n ∧ todo ≤ (buf.drop (off + (n + 1))).count 0 := by
  have hterm : Terminated (buf.drop off) := List.count_pos_iff.mp (by omega)
  obtain ⟨rest, hrest⟩ := hterm.split
  refine ⟨_, hterm.strlen, ?_⟩
  have hdrop : buf.drop (off + ((cstr (buf.drop off)).length + 1)) = rest := by
    rw [← List.drop_drop, hrest]
    simp [cstr_append_nul (cstr_no_nul _)]
  have hcount : (buf.drop off).count 0 = rest.count 0 + 1 := by
    conv_lhs => rw [hrest]
    rw [List.count_append, List.count_eq_zero.mpr (cstr_no_nul _), List.count_cons_self]
    omega
  rw [hdrop]
  omega

/-- **The second pass stays inside the buffer** while there are NULs left. -/
theorem collectKeysLoop_defined (buf : Block) {todo : Nat} (i keyref : Nat)
    (result : Slots (Option Nat)) (hcount : todo ≤ (buf.drop keyref).count 0) (hroom : i + todo < result.length) :
    ∃ result', collectKeysLoop (some buf) todo i keyref result = .ok result' ∧
      result'.length = result.length := by
  induction todo generalizing i keyref result with
  | zero => exact ⟨result, rfl, rfl⟩
  | succ todo ih =>
    obtain ⟨n, hlen, hleft⟩ := count_behind hcount
    have hset : setSlot result i (some keyref) = .ok (result.set i (some (some keyref))) :=
      if_pos (by omega)
    obtain ⟨result', hrun, hsame⟩ := ih (i + 1) _ (result.set i (some (some keyref))) hleft
      (by rw [List.length_set]; omega)
    refine ⟨result', ?_, by rw [hsame, List.length_set]⟩
    rw [collectKeysLoop, hset, ok_bind, deref_some, ok_bind, hlen, ok_bind, hrun]

section Reply
variable {junk : Nat → UInt8} {stub : Stub} {resp : MessageT}

/-- The buffer as protobuf-c delivers it: its bytes, or `NULL` when there are none. -/
theorem delivered_cases (hdel : resp.buffer.Delivered) :
    (resp.buffer.data = none ∧ resp.buffer.len = 0 ∧ resp.bytes = []) ∨
      (resp.buffer.data = some resp.bytes ∧ resp.buffer.len = resp.bytes.length ∧ resp.bytes ≠ []) := by
  rcases hdel with ⟨hdata, hlen⟩ | ⟨bytes, hne, hdata, hlen⟩
  · exact Or.inl ⟨hdata, hlen, by rw [MessageT.bytes, hdata]; rfl⟩
  · have hbytes : resp.bytes = bytes := by rw [MessageT.bytes, hdata, Option.getD_some]
    exact Or.inr ⟨by rw [hdata, hbytes], by rw [hlen, hbytes], hbytes ▸ hne⟩

/-- `rtable_get_keys` returns an array for every buffer whose NULs an `int` can count, and
one for the end. -/
theorem rtableGetKeys_defined (hdel : resp.buffer.Delivered)
    (hlt : (resp.bytes.count 0 : Int) < intMax) : ∃ r, rtableGetKeys (some resp) = .ok (some r) := by
  rcases delivered_cases hdel with ⟨hdata, hlen, -⟩ | ⟨hdata, hlen, -⟩
  · refine ⟨(none, [some none]), ?_⟩
    simp only [rtableGetKeys, hdata, hlen]
    rfl
  · have hcount := countNulsLoop_eq resp.bytes (Nat.zero_add _) (Int.le_refl 0)
      (by rw [List.drop_zero]; omega)
    rw [List.drop_zero, Int.zero_add] at hcount
    have hadd : intAdd (resp.bytes.count 0 : Nat) 1 = .ok ((resp.bytes.count 0 : Nat) + 1) :=
      checkInt_of_nonneg (by omega) (by omega)
    obtain ⟨result, hrun, hroom⟩ := collectKeysLoop_defined resp.bytes 0 0
      (mallocSlots ((resp.bytes.count 0 : Nat) + 1))
      (show resp.bytes.count 0 ≤ (resp.bytes.drop 0).count 0 by rw [List.drop_zero])
      (by simp only [mallocSlots, List.length_replicate]; omega)
    have hset : setSlot result (resp.bytes.count 0) none =
        .ok (result.set (resp.bytes.count 0) (some none)) := by
      refine if_pos ?_
      rw [hroom, mallocSlots, List.length_replicate]
      omega
    refine ⟨(some resp.bytes, result.set (resp.bytes.count 0) (some none)), ?_⟩
    simp only [rtableGetKeys, hdata, hlen, hcount, ok_bind, hadd, Int.toNat_natCast, hrun, hset,
      pure_eq_ok]

/-- With more NULs the counter overflows. -/
theorem rtableGetKeys_bound (hdel : resp.buffer.Delivered) {r : Option (Option Block × Slots (Option Nat))}
    (h : rtableGetKeys (some resp) = .ok r) : (resp.bytes.count 0 : Int) < intMax ∧ r ≠ none := by
  obtain ⟨nkeys, hcount, h₁⟩ := bind_eq_ok.mp h
  obtain ⟨slots, hslots, h₂⟩ := bind_eq_ok.mp h₁
  obtain ⟨result, -, h₃⟩ := bind_eq_ok.mp h₂
  obtain ⟨result', -, hret⟩ := bind_eq_ok.mp h₃
  obtain ⟨rfl, -, hmax⟩ := checkInt_eq_ok.mp hslots
  refine ⟨?_, by rw [← Except.ok.inj hret]; simp⟩
  rcases delivered_cases hdel with ⟨-, -, hbytes⟩ | ⟨hdata, hlen, -⟩
  · rw [hbytes]
    decide
  · rw [hdata, hlen] at hcount
    obtain ⟨rfl, -⟩ := countNulsLoop_bound resp.bytes (Nat.zero_add _) (by decide) hcount
    rw [List.drop_zero] at hmax
    omega

/-! ## One stub -/

theorem safelyRead_of_ok {resp : Option MessageT} {err : Bool} (h : stub.run junk resp = .ok err) :
    SafelyRead junk stub resp ↔ (stub.Fails resp → err = true) := by
  constructor
  · rintro ⟨err', hrun, herr⟩
    obtain rfl := Except.ok.inj (h.symm.trans hrun)
    exact herr
  · exact fun herr => ⟨err, h, herr⟩

theorem not_safelyRead_of_fault {resp : Option MessageT} {f : Fault}
    (h : stub.run junk resp = .error f) : ¬ SafelyRead junk stub resp := by
  rintro ⟨err, hrun, -⟩
  cases h.symm.trans hrun

theorem get_safe_iff : SafelyRead junk .get (some resp) ↔ Decodable .get (some resp) := by
  by_cases hop : resp.opcode = opError
  · have hrun : Stub.run junk .get (some resp) = .ok true := by simp [Stub.run, rtableGet, hop]
    exact iff_of_true ((safelyRead_of_ok hrun).mpr fun _ => rfl) (Or.inl hop)
  · cases hdata : resp.buffer.data with
    | none =>
      have hrun : Stub.run junk .get (some resp) = .ok true := by
        simp [Stub.run, rtableGet, hop, hdata, bufferToData]
      exact iff_of_true ((safelyRead_of_ok hrun).mpr fun _ => rfl) (Or.inr (Or.inl hdata))
    | some buf =>
      have hbytes : resp.bytes = buf := by rw [MessageT.bytes, hdata, Option.getD_some]
      by_cases hsize : toInt32 resp.buffer.len = -1
      · have hrun : Stub.run junk .get (some resp) = .ok true := by
          simp [Stub.run, rtableGet, hop, hdata, bufferToData, hsize]
        exact iff_of_true ((safelyRead_of_ok hrun).mpr fun _ => rfl) (Or.inr (Or.inr (Or.inl hsize)))
      · by_cases hlayout : ValueLayout buf
        · have hrun : Stub.run junk .get (some resp) =
              .ok (dataCreate2 (valueSize buf) (some (valueField buf))).isNone := by
            simp [Stub.run, rtableGet, hop, hdata, bufferToData_layout junk hlayout hsize]
          refine iff_of_true ((safelyRead_of_ok hrun).mpr ?_)
            (Or.inr (Or.inr (Or.inr (hbytes ▸ hlayout))))
          rintro (h | h)
          · exact absurd h hop
          · rw [hbytes] at h
            -- of what is too short only an empty value is left, and that is none at all
            have hzero : valueSize buf = 0 := by
              by_contra hne
              exact absurd (hlayout.fits hne) (Int.not_le.mpr h)
            rw [hzero]
            rfl
        · obtain ⟨f, hf⟩ := bufferToData_malformed junk hlayout hsize
          have hrun : Stub.run junk .get (some resp) = .error f := by
            simp [Stub.run, rtableGet, hop, hdata, hf]
          refine iff_of_false (not_safelyRead_of_fault hrun) ?_
          rintro (h | h | h | h)
          · exact hop h
          · rw [hdata] at h
            cases h
          · exact hsize h
          · exact hlayout (hbytes ▸ h)

theorem size_safe_iff (hdel : resp.buffer.Delivered) :
    SafelyRead junk .size (some resp) ↔ Decodable .size (some resp) := by
  rcases delivered_cases hdel with ⟨hdata, -, -⟩ | ⟨hdata, -, hne⟩
  · have hrun : Stub.run junk .size (some resp) = .error .nullDeref := by
      simp [Stub.run, rtableSize, hdata]
    exact iff_of_false (not_safelyRead_of_fault hrun) fun h => h.2 hdata
  · obtain ⟨c, rest, hbytes⟩ := List.exists_cons_of_ne_nil hne
    have hload : load resp.bytes 0 = .ok c := by rw [hbytes]; rfl
    have hrun : Stub.run junk .size (some resp) = .ok false := by
      have hpos : ¬ ((c.toNat : Int) = -1) := by omega
      simp [Stub.run, rtableSize, hdata, hload, hpos]
    rw [safelyRead_of_ok hrun]
    constructor
    · intro h
      refine ⟨fun hop => ?_, by rw [hdata]; simp⟩
      cases h (Or.inl hop)
    · rintro ⟨hop, -⟩ (h | h)
      · exact absurd h hop
      · rw [hbytes] at h
        exact absurd h (by simp [Stub.TooShort])

theorem getKeys_safe_iff (hdel : resp.buffer.Delivered) :
    SafelyRead junk .getKeys (some resp) ↔ Decodable .getKeys (some resp) := by
  constructor
  · rintro ⟨err, hrun, herr⟩
    obtain ⟨r, hr, hret⟩ := bind_eq_ok.mp hrun
    obtain ⟨hlt, hsome⟩ := rtableGetKeys_bound hdel hr
    refine ⟨fun hop => ?_, hlt⟩
    obtain rfl := herr (Or.inl hop)
    exact hsome (Option.isNone_iff_eq_none.mp (Except.ok.inj hret))
  · rintro ⟨hop, hlt⟩
    obtain ⟨r, hr⟩ := rtableGetKeys_defined hdel hlt
    have hrun : Stub.run junk .getKeys (some resp) = .ok false := by simp [Stub.run, hr]
    refine (safelyRead_of_ok hrun).mpr ?_
    rintro (h | h)
    · exact absurd h hop
    · exact h.elim

theorem stats_safe_iff (hdel : resp.buffer.Delivered) :
    SafelyRead junk .stats (some resp) ↔ Decodable .stats (some resp) := by
  rcases delivered_cases hdel with ⟨hdata, -, -⟩ | ⟨hdata, -, -⟩
  · have hrun : Stub.run junk .stats (some resp) = .ok true := by simp [Stub.run, rtableStats, hdata]
    exact iff_of_true ((safelyRead_of_ok hrun).mpr fun _ => rfl) (Or.inl hdata)
  · constructor
    · rintro ⟨err, hrun, herr⟩
      simp only [Stub.run, rtableStats, hdata] at hrun
      obtain ⟨-, -, hret⟩ := bind_eq_ok.mp hrun
      obtain rfl := Except.ok.inj hret
      refine Or.inr ⟨fun hop => ?_, Nat.le_of_not_lt fun hlt => ?_⟩
      · cases herr (Or.inl hop)
      · cases herr (Or.inr hlt)
    · rintro (h | ⟨hop, hle⟩)
      · rw [hdata] at h
        cases h
      · obtain ⟨r, hr⟩ := printStats_defined hle
        have hrun : Stub.run junk .stats (some resp) = .ok false := by
          simp [Stub.run, rtableStats, hdata, hr]
        refine (safelyRead_of_ok hrun).mpr ?_
        rintro (h | h)
        · exact absurd h hop
        · exact absurd hle (Nat.not_le.mpr h)

theorem print_safe_iff (hdel : resp.buffer.Delivered) :
    SafelyRead junk .print (some resp) ↔ Decodable .print (some resp) := by
  constructor
  · rintro ⟨err, hrun, herr⟩
    obtain ⟨-, -, hret⟩ := bind_eq_ok.mp hrun
    obtain rfl := Except.ok.inj hret
    refine ⟨fun hop => ?_, not_not.mp fun hterm => ?_⟩
    · cases herr (Or.inl hop)
    · cases herr (Or.inr hterm)
  · rintro ⟨hop, hterm⟩
    rcases delivered_cases hdel with ⟨-, -, hbytes⟩ | ⟨hdata, -, -⟩
    · rw [hbytes] at hterm
      cases hterm
    · obtain ⟨rest, hrest⟩ := hterm.split
      have hslice := slice_append [] (cstr resp.bytes) (0 :: rest)
      rw [List.nil_append, ← hrest] at hslice
      have hrun : Stub.run junk .print (some resp) = .ok false := by
        simp only [Stub.run, rtablePrint, deref_some, ok_bind, hdata, hterm.strlen]
        rw [show slice resp.bytes 0 (cstr resp.bytes).length = _ from hslice]
        rfl
      refine (safelyRead_of_ok hrun).mpr ?_
      rintro (h | h)
      · exact absurd h hop
      · exact absurd hterm h

/-- Without a reply all but `rtable_print` return their error value. -/
theorem missing_safe_iff : SafelyRead junk stub none ↔ Decodable stub none := by
  cases stub with
  | print => exact iff_of_false (not_safelyRead_of_fault rfl) id
  | get => exact iff_of_true ((safelyRead_of_ok rfl).mpr fun _ => rfl) trivial
  | size => exact iff_of_true ((safelyRead_of_ok rfl).mpr fun _ => rfl) trivial
  | getKeys => exact iff_of_true ((safelyRead_of_ok rfl).mpr fun _ => rfl) trivial
  | stats => exact iff_of_true ((safelyRead_of_ok rfl).mpr fun _ => rfl) trivial

end Reply

/-! ## All of them -/

/-- **Which replies the stubs read safely**: for every stub and every message that can be
unpacked, or none. -/
theorem stub_safe_iff (junk : Nat → UInt8) (stub : Stub) (resp : Option MessageT)
    (hdel : ∀ r, resp = some r → r.buffer.Delivered) :
    SafelyRead junk stub resp ↔ Decodable stub resp := by
  cases resp with
  | none => exact missing_safe_iff
  | some resp =>
    cases stub with
    | get => exact get_safe_iff
    | size => exact size_safe_iff (hdel resp rfl)
    | getKeys => exact getKeys_safe_iff (hdel resp rfl)
    | stats => exact stats_safe_iff (hdel resp rfl)
    | print => exact print_safe_iff (hdel resp rfl)

/-- The theorem for an error that `rtable_size` gets. -/
theorem stub_safe_iff_error :
    SafelyRead (fun _ => 0) .size (some ⟨opError, ctNone, ⟨0, none⟩⟩) ↔
      Decodable .size (some ⟨opError, ctNone, ⟨0, none⟩⟩) :=
  stub_safe_iff (fun _ => 0) .size (some ⟨opError, ctNone, ⟨0, none⟩⟩) fun r hr => by
    obtain rfl := Option.some.inj hr
    exact Or.inl ⟨rfl, rfl⟩

/-- **Without a reply `rtable_print` dereferences `NULL`.** -/
theorem missing_not_printed :
    Stub.run (fun _ => 0) .print none = .error .nullDeref ∧ ¬ SafelyRead (fun _ => 0) .print none :=
  ⟨rfl, not_safelyRead_of_fault rfl⟩

end RemoteTable
