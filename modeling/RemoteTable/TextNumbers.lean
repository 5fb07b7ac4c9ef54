import RemoteTable.Block
import RemoteTable.Fields

/-! # Numbers and addresses in text

The functions of the C library that make numbers of text, as far as the client uses them.
`atoi` never fails: it reads what looks like a number and leaves the rest.  `inet_pton` takes
the whole string or refuses it.
-/
namespace CMem

/-- The bytes of a C string. -/
def readString (b : Block) : Exec (List UInt8) := do
  let n ← strlen b
  slice b 0 n

/-- `isspace`. -/
def isSpace (c : UInt8) : Bool := c = 32 || (9 ≤ c && c ≤ 13)

/-- `isdigit`. -/
def isDigit (c : UInt8) : Bool := 48 ≤ c && c ≤ 57

/-- The value of decimal digits. -/
def digitsValue (s : List UInt8) : Nat := s.foldl (fun n c => 10 * n + (c.toNat - 48)) 0

/-- The sign in front of a number, and what follows it. -/
def sign : List UInt8 → Int × List UInt8
  | 45 :: s => (-1, s)
  | 43 :: s => (1, s)
  | s => (1, s)

/-- `strtol` with base 10: white space, a sign, and the digits that follow, none of which
has to be there; the value is cut to the range of `long`. -/
def strtol (s : List UInt8) : Int :=
  let (sgn, s) := sign (s.dropWhile isSpace)
  max (-9223372036854775808) (min 9223372036854775807 (sgn * digitsValue (s.takeWhile isDigit)))

/-- `atoi`, as glibc has it: the `int` of `strtol`. -/
def atoi (s : List UInt8) : Int := toInt32 (strtol s)

/-- Conversion to `short`. -/
def toInt16 (x : Int) : Int := x.bmod 65536

/-- Conversion to `uint16_t`. -/
def toUint16 (x : Int) : Nat := (x % 65536).toNat

/-- `htons`: the two bytes change places. -/
def htons (x : Nat) : Nat := x % 256 * 256 + x / 256

/-- One of the four numbers of an IPv4 address; only the number 0 starts with a zero. -/
def isOctet (s : List UInt8) : Bool :=
  1 ≤ s.length && s.length ≤ 3 && s.all isDigit && (s.length = 1 || s.head? ≠ some 48) &&
    digitsValue s ≤ 255

/-- `inet_pton` for `AF_INET`: the bytes of an address in dotted-decimal format. -/
def inetPton (s : List UInt8) : Option (List UInt8) :=
  let octets := s.splitOn 46
  if octets.length = 4 ∧ octets.all isOctet then
    some (octets.map fun o => UInt8.ofNat (digitsValue o))
  else none

theorem Terminated.readString {b : Block} (h : Terminated b) : readString b = .ok (cstr b) := by
  obtain ⟨rest, hrest⟩ := h.split
  have htake : b.take (cstr b).length = cstr b := by
    have h' := congrArg (List.take (cstr b).length) hrest
    rwa [List.take_left] at h'
  have hlen : b.length = (cstr b).length + (rest.length + 1) := by
    conv_lhs => rw [hrest]
    simp
  rw [CMem.readString, h.strlen, ok_bind, slice_inside (by omega) (by omega) (by omega)]
  simpa using htake

theorem readString_append_nul {s : List UInt8} (hs : (0 : UInt8) ∉ s) (rest : Block) :
    readString (s ++ 0 :: rest) = .ok s := by
  rw [(terminated_append_nul s rest).readString, cstr_append_nul hs]

/-- A digit is neither white space nor a sign. -/
theorem isDigit_cases {c : UInt8} (h : isDigit c = true) :
    isSpace c = false ∧ c ≠ 45 ∧ c ≠ 43 := by
  simp only [isDigit, Bool.and_eq_true, decide_eq_true_eq, UInt8.le_iff_toNat_le] at h
  refine ⟨?_, ?_, ?_⟩
  · rw [isSpace, Bool.or_eq_false_iff]
    simp only [decide_eq_false_iff_not, Bool.and_eq_false_iff, UInt8.le_iff_toNat_le]
    constructor
    · rintro rfl
      exact absurd h.1 (by decide)
    · have h13 : (13 : UInt8).toNat = 13 := rfl
      have h48 : (48 : UInt8).toNat = 48 := rfl
      exact Or.inr (by omega)
  · rintro rfl
    exact absurd h.1 (by decide)
  · rintro rfl
    exact absurd h.1 (by decide)

/-- What `atoi` reads of digits alone is their value, if it is an `int`. -/
theorem atoi_digits {s : List UInt8} (hs : ∀ c ∈ s, isDigit c = true)
    (hle : (digitsValue s : Int) ≤ intMax) : atoi s = digitsValue s := by
  have hspace : s.dropWhile isSpace = s := by
    cases s with
    | nil => rfl
    | cons c s =>
      obtain ⟨hspace, -, -⟩ := isDigit_cases (hs c List.mem_cons_self)
      rw [List.dropWhile_cons_of_neg (by simp [hspace])]
  have hsign : sign s = (1, s) := by
    unfold sign
    split
    · obtain ⟨-, hminus, -⟩ := isDigit_cases (hs _ List.mem_cons_self)
      exact absurd rfl hminus
    · obtain ⟨-, -, hplus⟩ := isDigit_cases (hs _ List.mem_cons_self)
      exact absurd rfl hplus
    · rfl
  have htake : s.takeWhile isDigit = s := List.takeWhile_eq_self_iff.mpr hs
  have hclamp : strtol s = digitsValue s := by
    simp only [strtol, hspace, hsign, htake]
    unfold intMax at hle
    omega
  rw [atoi, hclamp]
  exact toInt32_of_nonneg (by omega) hle

/-- A `short` keeps the two bytes that `htons` is about. -/
theorem toUint16_toInt16 {n : Nat} (h : n ≤ 65535) : toUint16 (toInt16 n) = n := by
  have hbmod : ((n : Int).bmod 65536) % 65536 = (n : Int) % 65536 := Int.bmod_emod
  rw [toUint16, toInt16, hbmod]
  omega

/-- The bytes of an address that `inet_pton` accepts are digits and dots. -/
theorem mem_of_inetPton {s addr : List UInt8} (h : inetPton s = some addr) {c : UInt8}
    (hc : c ∈ s) : c = 46 ∨ isDigit c = true := by
  simp only [inetPton] at h
  split at h
  · rename_i hall
    have hmem : c ∈ [(46 : UInt8)].intercalate (s.splitOn 46) := by
      rwa [List.intercalate_splitOn]
    rcases Fields.mem_intercalate hmem with hdot | ⟨octet, hoctet, hc⟩
    · exact Or.inl hdot
    · have hdigits := List.all_eq_true.mp hall.2 octet hoctet
      simp only [isOctet, Bool.and_eq_true, List.all_eq_true] at hdigits
      exact Or.inr (hdigits.1.1.2 c hc)
  · cases h

end CMem
