import RemoteTable.TextNumbers

/-! # Addresses of the form `host:port`

`rtable_connect` goes over the whole string: at every colon it takes what stands before it as
the host and what stands behind it as the port, so the last colon decides.  The host is left
to `inet_pton`, and so no host with a colon in it gets as far as `connect`.  The port is left to
`atoi`, which takes anything: no digits, bytes behind the digits, values that a `short` has no
room for.

Only the port -1 is turned down, whichever text it comes from.
-/
namespace RemoteTable
open CMem

/-- `struct sockaddr_in`. -/
structure SockaddrIn where
  sinFamily : Nat
  sinPort : Nat
  sinAddr : List UInt8
  deriving DecidableEq

/-- `AF_INET`. -/
def afInet : Nat := 2

/-- `struct rtable_t`. -/
structure RtableT where
  ip : Option Block
  port : Int
  sockfd : Int
  socket : SockaddrIn
  deriving DecidableEq

/-- What `rtable_connect` meets: the block for the structure, `none` for `NULL`, and else
with whatever it holds; what the blocks for the host hold; and what `socket` and `connect`
return. -/
structure Network where
  block : Option RtableT
  junk : Nat → UInt8
  sockfd : Int
  connect : Int

section Source
variable (net : Network)

/-- What the loop of `rtable_connect` does at a colon with index `i`. -/
def takeAddress (addressPort : Block) (i : Nat) (t : RtableT) : Exec RtableT := do
  let text ← readString (addressPort.drop (i + 1))
  let t := { t with port := toInt16 (atoi text) }
  let ip ← deref (malloc net.junk (i + 1))
  let src ← slice addressPort 0 (i + 1)
  let ip ← store ip 0 src
  let ip ← store ip i [0]
  return { t with ip := some ip }

/-- One round of the loop of `rtable_connect`. -/
def scanByte (addressPort : Block) (i : Nat) (t : RtableT) : Exec RtableT := do
  let c ← load addressPort i
  if c = 58 then takeAddress net addressPort i t else .ok t

/-- The loop of `rtable_connect` from index `i` on, with as many bytes to go; the string does
not change, and neither does its length. -/
def scanAddress (addressPort : Block) : Nat → Int → RtableT → Exec RtableT
  | 0, _, t => .ok t
  | todo + 1, i, t => do
    let t ← scanByte net addressPort i.toNat t
    let i ← intAdd i 1
    scanAddress addressPort todo i t

/-- `network_connect`: the value returned, the structure, and whether `connect` has been
called with it. -/
def networkConnect (t : RtableT) : Exec (Int × RtableT × Bool) := do
  let t := { t with
    socket := { t.socket with sinFamily := afInet, sinPort := htons (toUint16 t.port) } }
  let ip ← deref t.ip
  let host ← readString ip
  match inetPton host with
  | none => return (-1, t, false)
  | some addr =>
    let t := { t with socket := { t.socket with sinAddr := addr } }
    return (if net.connect < 0 then -1 else 0, t, true)

/-- `rtable_connect`: the table, `none` for `NULL`, and the structure that `connect` has been
called with, if it has been called. -/
def rtableConnect (addressPort : Block) : Exec (Option RtableT × Option RtableT) :=
  match net.block with
  | none => .ok (none, none)
  | some t => do
    let n ← strlen addressPort
    let t ← scanAddress net addressPort n 0 { t with ip := none, port := -1 }
    let t := { t with sockfd := net.sockfd }
    if t.sockfd = -1 ∨ t.ip = none ∨ t.port = -1 then return (none, none)
    else
      let (code, t, reached) ← networkConnect net t
      return (if code = -1 then none else some t, if reached then some t else none)

end Source

/-! ## What an address is -/

/-- Decimal digits that spell a port. -/
structure SpellsPort (port : List UInt8) : Prop where
  nonempty : port ≠ []
  digits : ∀ c ∈ port, isDigit c = true
  range : digitsValue port ≤ 65535

/-- The string is `host:port`, with no other colon. -/
structure AddressPort (s host port : List UInt8) : Prop where
  split : s = host ++ 58 :: port
  host : (58 : UInt8) ∉ host
  port : (58 : UInt8) ∉ port

/-- **The string is parsed exactly**: whatever `rtable_connect` meets, it is defined; it calls
`connect` only for a host and a port, with these; and it returns `NULL` when it does not call
it. -/
def ParsedExactly (addressPort : Block) : Prop :=
  ∀ net, ∃ table reached, rtableConnect net addressPort = .ok (table, reached) ∧
    (reached = none → table = none) ∧
    ∀ t, reached = some t → ∃ host port, AddressPort (cstr addressPort) host port ∧
      SpellsPort port ∧ t.ip = some (host ++ [0]) ∧
      t.socket.sinPort = htons (digitsValue port)

/-- **The condition**: the index of the loop is an `int`, and if an address stands before the
last colon, then behind it stands a port, or a text that makes the port -1. -/
structure AddressMeets (s : List UInt8) : Prop where
  length : (s.length : Int) ≤ intMax
  port : ∀ host port, s = host ++ 58 :: port → (58 : UInt8) ∉ port →
    (inetPton host).isSome → SpellsPort port ∨ toInt16 (atoi port) = -1

/-! ## The loop -/

section Scan
variable {net : Network} {s₁ s₂ rest : List UInt8} {t : RtableT}

/-- At a colon, the bytes before it become the host and the text behind it the port. -/
theorem takeAddress_eq (hs : (0 : UInt8) ∉ s₂) :
    takeAddress net (s₁ ++ 58 :: s₂ ++ 0 :: rest) s₁.length t =
      .ok { t with ip := some (s₁ ++ [0]), port := toInt16 (atoi s₂) } := by
  have hdrop : (s₁ ++ 58 :: s₂ ++ 0 :: rest).drop (s₁.length + 1) = s₂ ++ 0 :: rest := by
    rw [List.append_assoc, List.cons_append, List.drop_length_add_append]
    rfl
  have hslice : slice (s₁ ++ 58 :: s₂ ++ 0 :: rest) 0 (s₁.length + 1) = .ok (s₁ ++ [58]) := by
    have h := slice_append [] (s₁ ++ [58]) (s₂ ++ 0 :: rest)
    simpa using h
  obtain ⟨ip, hip, hstore⟩ := malloc_store net.junk
    (show ((s₁ ++ [58]).length : Int) = (s₁.length : Int) + 1 by simp)
  have hend := store_append s₁ [58] [] [0] rfl
  rw [List.append_nil, List.append_nil] at hend
  simp only [takeAddress, hdrop, readString_append_nul hs, ok_bind, hip, deref_some, hslice,
    hstore, hend, pure_eq_ok]

/-- **The last colon decides**: without one the loop leaves the structure as it is, and else
with the host before the last one and the port behind it. -/
theorem scanAddress_eq (hs : (0 : UInt8) ∉ s₂) (hlen : ((s₁.length + s₂.length : Nat) : Int) ≤ intMax) :
    ∃ t', scanAddress net (s₁ ++ s₂ ++ 0 :: rest) s₂.length s₁.length t = .ok t' ∧
      ((58 : UInt8) ∉ s₂ → t' = t) ∧
      ∀ host port, s₂ = host ++ 58 :: port → (58 : UInt8) ∉ port →
        t' = { t with ip := some (s₁ ++ host ++ [0]), port := toInt16 (atoi port) } := by
  induction s₂ generalizing s₁ t with
  | nil => exact ⟨t, rfl, fun _ => rfl, fun host port h => by simp at h⟩
  | cons c s₂ ih =>
    have hs₂ : (0 : UInt8) ∉ s₂ := fun h0 => hs (List.mem_cons_of_mem _ h0)
    have hnext : intAdd s₁.length 1 = .ok ((s₁ ++ [c]).length : Nat) := by
      have hmax : ((s₁.length + 1 : Nat) : Int) ≤ intMax := by
        simp only [List.length_cons] at hlen
        omega
      simpa using intAdd_natCast hmax
    have hlen : (((s₁ ++ [c]).length + s₂.length : Nat) : Int) ≤ intMax := by
      simp only [List.length_append, List.length_cons, List.length_nil] at hlen ⊢
      omega
    have hassoc : s₁ ++ c :: s₂ ++ 0 :: rest = s₁ ++ [c] ++ s₂ ++ 0 :: rest := by simp
    have hload : load (s₁ ++ c :: s₂ ++ 0 :: rest) (s₁.length : Int).toNat = .ok c := by
      rw [List.append_assoc, Int.toNat_natCast]
      exact load_append s₁ c (s₂ ++ 0 :: rest)
    by_cases hc : c = 58
    · subst hc
      obtain ⟨t', hrun, hnone, hlast⟩ := @ih (s₁ ++ [58])
        { t with ip := some (s₁ ++ [0]), port := toInt16 (atoi s₂) } hs₂ hlen
      refine ⟨t', ?_, fun hno => absurd List.mem_cons_self hno, fun host port h hport => ?_⟩
      · rw [List.length_cons, scanAddress, scanByte, hload, ok_bind, if_pos rfl,
          Int.toNat_natCast, takeAddress_eq hs₂, ok_bind, hnext, ok_bind, hassoc]
        exact hrun
      · cases host with
        | nil =>
          obtain ⟨-, rfl⟩ := List.cons.inj h
          rw [hnone hport, List.append_nil]
        | cons d host =>
          obtain ⟨rfl, htail⟩ := List.cons.inj h
          rw [hlast host port htail hport]
          simp
    · obtain ⟨t', hrun, hnone, hlast⟩ := @ih (s₁ ++ [c]) t hs₂ hlen
      refine ⟨t', ?_, fun hno => hnone fun hmem => hno (List.mem_cons_of_mem _ hmem),
        fun host port h hport => ?_⟩
      · rw [List.length_cons, scanAddress, scanByte, hload, ok_bind, if_neg hc, ok_bind,
          hnext, ok_bind, hassoc]
        exact hrun
      · cases host with
        | nil =>
          obtain ⟨rfl, -⟩ := List.cons.inj h
          exact absurd rfl hc
        | cons d host =>
          obtain ⟨rfl, htail⟩ := List.cons.inj h
          rw [hlast host port htail hport]
          simp

/-- A string longer than an `int` takes the index out of its range. -/
theorem scanAddress_overflow {b : Block} {n i : Nat} (hi : (i : Int) ≤ intMax)
    (hn : intMax < ((i + n : Nat) : Int)) (t t' : RtableT) :
    scanAddress net b n i t ≠ .ok t' := by
  induction n generalizing i t with
  | zero => omega
  | succ n ih =>
    intro h
    obtain ⟨t₁, -, h⟩ := bind_eq_ok.mp h
    obtain ⟨j, hj, h⟩ := bind_eq_ok.mp h
    obtain ⟨rfl, -, hmax⟩ := checkInt_eq_ok.mp hj
    exact ih (i := i + 1) (by omega) (by omega) t₁ h

end Scan

/-! ## The whole call -/

/-- A string with a colon has a last one. -/
theorem exists_last_colon {s : List UInt8} (h : (58 : UInt8) ∈ s) :
    ∃ host port, s = host ++ 58 :: port ∧ (58 : UInt8) ∉ port := by
  obtain ⟨front, back, hrev, hno⟩ := List.eq_append_cons_of_mem (List.mem_reverse.mpr h)
  refine ⟨back.reverse, front.reverse, ?_, by simpa using hno⟩
  have h' := congrArg List.reverse hrev
  simpa using h'

section Connect
variable {net : Network} {b : Block} {host port : List UInt8} {t₀ : RtableT}

/-- The structure after the loop. -/
theorem scanAddress_run (net : Network) (hb : Terminated b) (hlen : ((cstr b).length : Int) ≤ intMax) (t : RtableT) :
    ∃ t', scanAddress net b (cstr b).length 0 t = .ok t' ∧ ((58 : UInt8) ∉ cstr b → t' = t) ∧
      ∀ host port, cstr b = host ++ 58 :: port → (58 : UInt8) ∉ port →
        t' = { t with ip := some (host ++ [0]), port := toInt16 (atoi port) } := by
  obtain ⟨rest, hrest⟩ := hb.split
  obtain ⟨t', hrun, hnone, hlast⟩ := @scanAddress_eq net [] (cstr b) rest t (cstr_no_nul b)
    (by simpa using hlen)
  rw [List.nil_append, ← hrest] at hrun
  exact ⟨t', hrun, hnone, hlast⟩

/-- Without a colon there is no host, and `connect` is not called. -/
theorem rtableConnect_noColon (hb : Terminated b) (hlen : ((cstr b).length : Int) ≤ intMax)
    (hblock : net.block = some t₀) (hno : (58 : UInt8) ∉ cstr b) :
    rtableConnect net b = .ok (none, none) := by
  obtain ⟨t, hrun, hnone, -⟩ := scanAddress_run net hb hlen { t₀ with ip := none, port := -1 }
  rw [rtableConnect, hblock]
  simp only [hb.strlen, ok_bind, hrun, hnone hno, or_true, if_true, pure_eq_ok]

section Colon
variable (hb : Terminated b) (hlen : ((cstr b).length : Int) ≤ intMax) (hblock : net.block = some t₀)
  (hs : cstr b = host ++ 58 :: port) (hport : (58 : UInt8) ∉ port)
include hb hlen hblock hs hport

/-- With a socket and a port other than -1 it is `inet_pton` that decides. -/
theorem rtableConnect_eq :
    rtableConnect net b =
      if net.sockfd = -1 ∨ toInt16 (atoi port) = -1 then .ok (none, none)
      else do
        let (code, t, reached) ← networkConnect net
          { t₀ with ip := some (host ++ [0]), port := toInt16 (atoi port), sockfd := net.sockfd }
        return (if code = -1 then none else some t, if reached then some t else none) := by
  obtain ⟨t, hrun, -, hlast⟩ := scanAddress_run net hb hlen { t₀ with ip := none, port := -1 }
  rw [rtableConnect, hblock]
  simp only [hb.strlen, ok_bind, hrun, hlast host port hs hport, reduceCtorEq, false_or, pure_eq_ok]

/-- Where nothing but a port or an address is missing, `NULL` is returned and `connect` is not
called. -/
theorem rtableConnect_refused
    (hno : net.sockfd = -1 ∨ toInt16 (atoi port) = -1 ∨ inetPton host = none) :
    rtableConnect net b = .ok (none, none) := by
  have hhost : (0 : UInt8) ∉ host := fun h0 =>
    cstr_no_nul b (hs ▸ List.mem_append_left _ h0)
  rw [rtableConnect_eq hb hlen hblock hs hport]
  by_cases hearly : net.sockfd = -1 ∨ toInt16 (atoi port) = -1
  · rw [if_pos hearly]
  · have hpton : inetPton host = none := by
      rcases hno with h | h | h
      · exact absurd (Or.inl h) hearly
      · exact absurd (Or.inr h) hearly
      · exact h
    rw [if_neg hearly]
    simp only [networkConnect, deref_some, ok_bind, readString_append_nul hhost, hpton,
      pure_eq_ok, if_true, Bool.false_eq_true, if_false]

/-- Otherwise it is called, with the host and the port of the last colon. -/
theorem rtableConnect_reaches {addr : List UInt8} (hsock : net.sockfd ≠ -1)
    (hnot : toInt16 (atoi port) ≠ -1) (hpton : inetPton host = some addr) :
    ∃ table t, rtableConnect net b = .ok (table, some t) ∧ t.ip = some (host ++ [0]) ∧
      t.socket.sinPort = htons (toUint16 (toInt16 (atoi port))) := by
  have hhost : (0 : UInt8) ∉ host := fun h0 =>
    cstr_no_nul b (hs ▸ List.mem_append_left _ h0)
  have hgo : ¬ (net.sockfd = -1 ∨ toInt16 (atoi port) = -1) := fun h => h.elim hsock hnot
  rw [rtableConnect_eq hb hlen hblock hs hport, if_neg hgo]
  simp only [networkConnect, deref_some, ok_bind, readString_append_nul hhost, hpton,
    pure_eq_ok, if_true]
  exact ⟨_, _, rfl, rfl, rfl⟩

end Colon

/-- Every call succeeds. -/
def calmNetwork : Network := ⟨some ⟨none, 0, 0, ⟨0, 0, []⟩⟩, fun _ => 0, 3, 0⟩

/-- **What exact parsing takes.** -/
theorem ParsedExactly.meets (hb : Terminated b) (h : ParsedExactly b) : AddressMeets (cstr b) := by
  have hlen : ((cstr b).length : Int) ≤ intMax := by
    by_contra hlong
    obtain ⟨_, _, hrun, -⟩ := h calmNetwork
    simp only [rtableConnect, calmNetwork, hb.strlen, ok_bind] at hrun
    obtain ⟨t, hscan, -⟩ := bind_eq_ok.mp hrun
    exact scanAddress_overflow (i := 0) (by decide) (by omega) _ t hscan
  refine ⟨hlen, fun host port hs hport hdotted => ?_⟩
  obtain ⟨addr, hpton⟩ := Option.isSome_iff_exists.mp hdotted
  by_cases hnot : toInt16 (atoi port) = -1
  · exact Or.inr hnot
  · have hblock : calmNetwork.block = some ⟨none, 0, 0, ⟨0, 0, []⟩⟩ := rfl
    obtain ⟨table', reached, hrun', -, hreached⟩ := h calmNetwork
    obtain ⟨table, t, hrun, -, -⟩ :=
      rtableConnect_reaches hb hlen hblock hs hport (by decide) hnot hpton
    obtain ⟨rfl, rfl⟩ := Prod.mk.inj (Except.ok.inj (hrun.symm.trans hrun'))
    obtain ⟨host', port', haddress, hspells, -, -⟩ := hreached t rfl
    -- the host before the last colon has none itself, so the colons are the same
    have hhost : (58 : UInt8) ∉ host := fun hmem =>
      (mem_of_inetPton hpton hmem).elim (by decide) (by decide)
    have hsplit := hs.symm.trans haddress.split
    obtain ⟨-, -, rfl⟩ := (List.append_cons_inj_of_notMem hhost hport).mp hsplit
    exact Or.inl hspells

theorem AddressMeets.parsed (hb : Terminated b) (h : AddressMeets (cstr b)) : ParsedExactly b := by
  obtain ⟨hlen, hmeets⟩ := h
  intro net
  have hnull : rtableConnect net b = .ok (none, none) → ∃ table reached,
      rtableConnect net b = .ok (table, reached) ∧ (reached = none → table = none) ∧
        ∀ t, reached = some t → ∃ host port, AddressPort (cstr b) host port ∧
          SpellsPort port ∧ t.ip = some (host ++ [0]) ∧
          t.socket.sinPort = htons (digitsValue port) :=
    fun hrun => ⟨none, none, hrun, fun _ => rfl, nofun⟩
  cases hblock : net.block with
  | none =>
    refine hnull ?_
    rw [rtableConnect, hblock]
  | some t₀ =>
    by_cases hcolon : (58 : UInt8) ∈ cstr b
    · obtain ⟨host, port, hs, hport⟩ := exists_last_colon hcolon
      by_cases hsock : net.sockfd = -1
      · exact hnull (rtableConnect_refused hb hlen hblock hs hport (Or.inl hsock))
      · by_cases hnot : toInt16 (atoi port) = -1
        · exact hnull (rtableConnect_refused hb hlen hblock hs hport (Or.inr (Or.inl hnot)))
        · cases hpton : inetPton host with
          | none =>
            exact hnull (rtableConnect_refused hb hlen hblock hs hport (Or.inr (Or.inr hpton)))
          | some addr =>
            obtain ⟨table, t, hrun, hip, hsin⟩ :=
              rtableConnect_reaches hb hlen hblock hs hport hsock hnot hpton
            have hspells : SpellsPort port :=
              (hmeets host port hs hport (by simp [hpton])).resolve_right hnot
            have hrange := hspells.range
            have hatoi : atoi port = digitsValue port :=
              atoi_digits hspells.digits (by unfold intMax; omega)
            have hhost : (58 : UInt8) ∉ host := fun hmem =>
              (mem_of_inetPton hpton hmem).elim (by decide) (by decide)
            refine ⟨table, some t, hrun, nofun, fun t' ht' => ?_⟩
            obtain rfl := Option.some.inj ht'
            refine ⟨host, port, ⟨hs, hhost, hport⟩, hspells, hip, ?_⟩
            rw [hsin, hatoi, toUint16_toInt16 hspells.range]
    · exact hnull (rtableConnect_noColon hb hlen hblock hcolon)

end Connect

/-- **When a string is parsed exactly**: behind the last colon after an address stands a port,
or a text that makes it -1, and the index does not leave `int`. -/
theorem parsed_exactly_iff (b : Block) (hb : Terminated b) :
    ParsedExactly b ↔ AddressMeets (cstr b) :=
  ⟨fun h => h.meets hb, fun h => h.parsed hb⟩

/-- The theorem at `"10.0.0.1:80"`. -/
theorem parsed_exactly_iff_plain :
    ParsedExactly [49, 48, 46, 48, 46, 48, 46, 49, 58, 56, 48, 0] ↔
      AddressMeets (cstr [49, 48, 46, 48, 46, 48, 46, 49, 58, 56, 48, 0]) :=
  parsed_exactly_iff _ (by decide)

/-- **Bytes behind the digits**: `"10.0.0.1:80x"` is connected to. -/
theorem trailingByte_not_parsed :
    Terminated [49, 48, 46, 48, 46, 48, 46, 49, 58, 56, 48, 120, 0] ∧
      ¬ ParsedExactly [49, 48, 46, 48, 46, 48, 46, 49, 58, 56, 48, 120, 0] := by
  have hb : Terminated [49, 48, 46, 48, 46, 48, 46, 49, 58, 56, 48, 120, 0] := by decide
  refine ⟨hb, fun h => ?_⟩
  rcases (h.meets hb).port [49, 48, 46, 48, 46, 48, 46, 49] [56, 48, 120] (by decide) (by decide)
    (by decide) with hspells | hnot
  · exact absurd (hspells.digits 120 (by decide)) (by decide)
  · exact absurd hnot (by decide)

end RemoteTable
