import Mathlib.Data.Nat.Digits.Defs
import RemoteTable.Block

/-! # Stream sockets

`read` and `write` on one end of a connected stream socket.  A call moves as many bytes
as the system likes, at least one and at most as many as were asked for, so a model of
the calls takes an `Outcome` for each of them.

`Incoming` is what one end still has to read: the bytes in flight, in order, and what
comes after them.  How the writer's calls cut the bytes leaves no trace in it.
-/
namespace CMem

/-- `SSIZE_MAX`.  Linux refuses larger requests. -/
def ssizeMax : Nat := 9223372036854775807

/-- What a call of `read` or `write` comes to: it returns -1, or it moves some bytes, `k`
at most. -/
inductive Outcome
  | fails
  | moves (k : Nat)
  deriving DecidableEq, Repr

/-- How many of `n` bytes a call moves that moves at most `k`. -/
def moved (k n : Nat) : Nat := max 1 (min k n)

theorem moved_pos (k n : Nat) : 1 ≤ moved k n := Nat.le_max_left _ _

theorem moved_le {k n : Nat} (h : 1 ≤ n) : moved k n ≤ n := by
  unfold moved
  omega

/-- What follows the bytes in flight. -/
inductive Tail
  /-- The peer has closed the connection. -/
  | eof
  /-- The connection is broken. -/
  | broken
  /-- The peer sends nothing more. -/
  | silent
  deriving DecidableEq, Repr

/-- What one end of a connection has still to read. -/
structure Incoming where
  bytes : List UInt8
  tail : Tail
  deriving DecidableEq, Repr

/-- `read`: the bytes read, `none` for -1.  A read from a silent peer does not return. -/
def Incoming.read (s : Incoming) (o : Outcome) (count : Nat) : Exec (Option (List UInt8) × Incoming) :=
  if count > ssizeMax then .ok (none, s)
  else if count = 0 then .ok (some [], s)
  else
    match o with
    | .fails => .ok (none, s)
    | .moves k =>
      if s.bytes = [] then
        match s.tail with
        | .eof => .ok (some [], s)
        | .broken => .ok (none, s)
        | .silent => .error .diverges
      else
        let n := moved k (min count s.bytes.length)
        .ok (some (s.bytes.take n), { s with bytes := s.bytes.drop n })

/-- `write` of `count` bytes at offset `off` of a block: the bytes written, `none` for
-1. -/
def writeOut (b : Block) (off : Int) (o : Outcome) (count : Nat) : Exec (Option (List UInt8)) :=
  if count > ssizeMax then .ok none
  else if count = 0 then .ok (some [])
  else
    match o with
    | .fails => .ok none
    | .moves k => do
      let out ← slice b off (moved k count)
      return some out

section Read
variable {s s' : Incoming} {o : Outcome} {k count : Nat} {got : List UInt8}

theorem Incoming.read_moves (hpos : 1 ≤ count) (hmax : count ≤ ssizeMax) (hs : s.bytes ≠ []) :
    s.read (.moves k) count =
      .ok (some (s.bytes.take (moved k (min count s.bytes.length))),
        { s with bytes := s.bytes.drop (moved k (min count s.bytes.length)) }) := by
  unfold Incoming.read
  rw [if_neg (by omega), if_neg (by omega)]
  exact if_neg hs

/-- A read after the last byte returns 0 once the peer has closed the connection. -/
theorem Incoming.read_eof (k : Nat) (hpos : 1 ≤ count) (hmax : count ≤ ssizeMax) :
    Incoming.read ⟨[], .eof⟩ (.moves k) count = .ok (some [], ⟨[], .eof⟩) := by
  rw [Incoming.read, if_neg (by omega), if_neg (by omega)]
  rfl

/-- It returns -1 when the connection is broken. -/
theorem Incoming.read_broken (k : Nat) (hpos : 1 ≤ count) (hmax : count ≤ ssizeMax) :
    Incoming.read ⟨[], .broken⟩ (.moves k) count = .ok (none, ⟨[], .broken⟩) := by
  rw [Incoming.read, if_neg (by omega), if_neg (by omega)]
  rfl

/-- **What a read takes it takes from the front.** -/
theorem Incoming.read_some (h : s.read o count = .ok (some got, s')) :
    s.bytes = got ++ s'.bytes ∧ s'.tail = s.tail := by
  unfold Incoming.read at h
  split at h
  · cases h
  split at h
  · obtain ⟨hg, rfl⟩ := Prod.mk.inj (Except.ok.inj h)
    obtain rfl := Option.some.inj hg
    exact ⟨rfl, rfl⟩
  split at h
  · cases h
  split at h
  · split at h
    · obtain ⟨hg, rfl⟩ := Prod.mk.inj (Except.ok.inj h)
      obtain rfl := Option.some.inj hg
      exact ⟨rfl, rfl⟩
    · cases h
    · cases h
  · obtain ⟨hg, rfl⟩ := Prod.mk.inj (Except.ok.inj h)
    obtain rfl := Option.some.inj hg
    exact ⟨(List.take_append_drop _ _).symm, rfl⟩

theorem writeOut_moves (k : Nat) (b : Block) (off : Nat) (hpos : 1 ≤ count)
    (hmax : count ≤ ssizeMax) (hfit : off + count ≤ b.length) :
    writeOut b off (.moves k) count = .ok (some ((b.drop off).take (moved k count))) := by
  have hle := moved_le (k := k) hpos
  have hslice : slice b off (moved k count) = .ok ((b.drop off).take (moved k count)) := by
    rw [slice_inside (by omega) (by omega) (by omega), Int.toNat_natCast, Int.toNat_natCast]
  unfold writeOut
  rw [if_neg (by omega), if_neg (by omega)]
  simp only [hslice, ok_bind, pure_eq_ok]

end Read

/-! ## Network byte order -/

/-- The bytes of `htonl(x)` in memory: the most significant one comes first. -/
def htonl (x : Int) : Block :=
  [toByte (x / 16777216), toByte (x / 65536), toByte (x / 256), toByte x]

/-- `ntohl` of four bytes in memory, as a `uint32_t`. -/
def ntohl : Block → Exec Int
  | [a, b, c, d] => .ok (a.toNat * 16777216 + b.toNat * 65536 + c.toNat * 256 + d.toNat)
  | _ => .error .outOfBounds

@[simp] theorem length_htonl (x : Int) : (htonl x).length = 4 := rfl

/-- **`ntohl` undoes `htonl`.** -/
theorem ntohl_htonl {x : Int} (hlo : 0 ≤ x) (hhi : x ≤ intMax) : ntohl (htonl x) = .ok x := by
  unfold htonl ntohl intMax at *
  simp only [toNat_toByte]
  refine congrArg Except.ok ?_
  omega

/-- The number some bytes stand for, the most significant one first. -/
def netValue (bytes : List UInt8) : Nat := Nat.ofDigits 256 (bytes.map UInt8.toNat).reverse

theorem netValue_append (g h : List UInt8) :
    netValue (g ++ h) = netValue h + 256 ^ h.length * netValue g := by
  simp [netValue, Nat.ofDigits_append]

theorem netValue_lt (bytes : List UInt8) : netValue bytes < 256 ^ bytes.length := by
  have h : ∀ x ∈ (bytes.map UInt8.toNat).reverse, x < 256 := by
    intro x hx
    obtain ⟨c, -, rfl⟩ := List.mem_map.mp (List.mem_reverse.mp hx)
    exact c.toNat_lt
  simpa [netValue] using Nat.ofDigits_lt_base_pow_length (by decide) h

theorem netValue_singleton (c : UInt8) : netValue [c] = c.toNat := by
  simp [netValue]

/-- **`ntohl` reads four bytes as a number.** -/
theorem ntohl_eq {word : Block} (h : word.length = 4) : ntohl word = .ok (netValue word) := by
  match word, h with
  | [a, b, c, d], _ =>
    simp only [ntohl, netValue, List.map_cons, List.map_nil, List.reverse_cons, List.reverse_nil,
      List.nil_append, List.cons_append, Nat.ofDigits_cons, Nat.ofDigits_nil]
    refine congrArg Except.ok ?_
    push_cast
    omega

/-- The first byte decides the sign of the `int`. -/
theorem toInt32_netValue {c : UInt8} {w : List UInt8} (hw : w.length = 3) :
    (c.toNat < 128 → toInt32 (netValue (c :: w)) = netValue (c :: w)) ∧
      (128 ≤ c.toNat → toInt32 (netValue (c :: w)) < 0) := by
  have hlt := netValue_lt w
  have hc := c.toNat_lt
  have hsplit : netValue (c :: w) = netValue w + 256 ^ 3 * c.toNat := by
    have h := netValue_append [c] w
    rwa [hw, netValue_singleton] at h
  rw [hw] at hlt
  constructor
  · intro hsmall
    exact toInt32_of_nonneg (by omega) (by unfold intMax; omega)
  · intro hlarge
    exact toInt32_of_wrap (by unfold intMax; omega) (by unfold intMax; omega)

/-- The last byte decides the value modulo 256. -/
theorem ntohl_mod {word : Block} {x : Int} (h : ntohl word = .ok x) :
    ∃ d, word[3]? = some d ∧ x % 256 = d.toNat := by
  unfold ntohl at h
  split at h
  · rename_i a b c d
    obtain rfl := Except.ok.inj h
    have := d.toNat_lt
    refine ⟨d, rfl, ?_⟩
    omega
  · cases h

theorem toInt32_mod (x : Int) : toInt32 x % 256 = x % 256 := by
  unfold toInt32
  rw [Int.bmod_def]
  split <;> omega

end CMem
