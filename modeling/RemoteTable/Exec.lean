import Mathlib.Data.List.Basic

/-! # Executions of C functions

A C function is modelled as a computation in `Exec`: it yields its result, or
the `Fault` at which the C standard stops saying what happens next.  Nothing is
assumed to go on after a fault, so "never faults" is memory safety, and a
property proved of the result is proved of a defined execution.

`int` is 32 bits wide and `char` is signed, as in the gcc x86-64 build.
Arithmetic on `int` is checked (`intAdd`); conversions wrap, as gcc's do
(`toInt32`, `toByte`).
-/
namespace CMem

/-- Why an execution stops being defined. -/
inductive Fault
  /-- A null pointer is dereferenced. -/
  | nullDeref
  /-- An access outside the bounds of a block or an array. -/
  | outOfBounds
  /-- An access to a cell that has been freed. -/
  | useAfterFree
  /-- An access through a pointer that was never allocated. -/
  | wildPointer
  /-- A pointer slot is read before it is written. -/
  | uninitialised
  /-- A negative `int` is used as a size. -/
  | badSize
  /-- Signed arithmetic leaves the range of `int`. -/
  | intOverflow
  /-- A remainder by zero. -/
  | divByZero
  /-- A loop that never ends. -/
  | diverges
  deriving DecidableEq, Repr

/-- A C execution: a result, or the fault that ends it. -/
abbrev Exec := Except Fault

instance {α : Type} [DecidableEq α] : DecidableEq (Exec α)
  | .ok a, .ok b => decidable_of_iff (a = b) ⟨congrArg Except.ok, Except.ok.inj⟩
  | .error f, .error g => decidable_of_iff (f = g) ⟨congrArg Except.error, Except.error.inj⟩
  | .ok _, .error _ => isFalse nofun
  | .error _, .ok _ => isFalse nofun

section Bind
variable {α β : Type}

@[simp] theorem ok_bind (a : α) (f : α → Exec β) : ((Except.ok a : Exec α) >>= f) = f a := by
  simp only [bind, Except.bind]

@[simp] theorem error_bind (e : Fault) (f : α → Exec β) :
    ((Except.error e : Exec α) >>= f) = .error e := rfl

@[simp] theorem pure_eq_ok (a : α) : (pure a : Exec α) = .ok a := rfl

/-- **Inversion of sequencing**: a sequence succeeds exactly when its first part
does and the rest succeeds on that part's result. -/
theorem bind_eq_ok {x : Exec α} {f : α → Exec β} {b : β} :
    (x >>= f) = .ok b ↔ ∃ a, x = .ok a ∧ f a = .ok b := by
  cases x with
  | ok a => simp
  | error e => simp

/-- The computation is defined: it yields some result. -/
def Defined (x : Exec α) : Prop := ∃ a, x = .ok a

@[simp] theorem defined_ok (a : α) : Defined (Except.ok a : Exec α) := ⟨a, rfl⟩

@[simp] theorem not_defined_error (e : Fault) : ¬ Defined (Except.error e : Exec α) := nofun

/-- What cannot fault does not decide whether a sequence is defined. -/
theorem defined_bind_iff {x : Exec α} {f : α → Exec β} (hf : ∀ a, Defined (f a)) :
    Defined (x >>= f) ↔ Defined x := by
  cases x with
  | ok a => simpa using hf a
  | error e => simp

theorem defined_bind {x : Exec α} {f : α → Exec β} (hx : Defined x) (hf : ∀ a, Defined (f a)) :
    Defined (x >>= f) := (defined_bind_iff hf).mpr hx

/-- A loop whose rounds are all defined. -/
theorem defined_mapM {f : α → Exec β} {l : List α} (h : ∀ a ∈ l, Defined (f a)) :
    Defined (l.mapM f) := by
  induction l with
  | nil => exact defined_ok []
  | cons a l ih =>
    obtain ⟨ha, hrest⟩ := List.forall_mem_cons.mp h
    obtain ⟨bs, hbs⟩ := ih hrest
    rw [List.mapM_cons, hbs]
    exact defined_bind ha fun b => defined_ok (b :: bs)

end Bind

/-! ## `int` and `char` -/

/-- `INT_MAX`. -/
def intMax : Int := 2147483647

/-- `INT_MIN`. -/
def intMin : Int := -2147483648

/-- The value of an `int` expression; signed overflow is undefined. -/
def checkInt (x : Int) : Exec Int :=
  if intMin ≤ x ∧ x ≤ intMax then .ok x else .error .intOverflow

/-- `a + b` on `int`. -/
def intAdd (a b : Int) : Exec Int := checkInt (a + b)

/-- `a % b` on `int`: the remainder of the division that truncates towards zero. -/
def intRem (a b : Int) : Exec Int := if b = 0 then .error .divByZero else .ok (a.tmod b)

/-- Conversion of a wider integer to `int`: the low 32 bits, read as signed. -/
def toInt32 (x : Int) : Int := x.bmod 4294967296

/-- An integer stored through a `char *`: its low 8 bits. -/
def toByte (x : Int) : UInt8 := UInt8.ofNat (x % 256).toNat

/-- A byte read through a `char *`: `char` is signed. -/
def charVal (b : UInt8) : Int := if b.toNat < 128 then b.toNat else b.toNat - 256

theorem checkInt_of_range {x : Int} (hlo : intMin ≤ x) (hhi : x ≤ intMax) : checkInt x = .ok x := by
  simp [checkInt, hlo, hhi]

theorem checkInt_of_nonneg {x : Int} (h : 0 ≤ x) (hhi : x ≤ intMax) : checkInt x = .ok x :=
  checkInt_of_range (Int.le_trans (by decide) h) hhi

theorem checkInt_of_large {x : Int} (h : intMax < x) : checkInt x = .error .intOverflow := by
  rw [checkInt, if_neg (by omega)]

theorem checkInt_eq_ok {x y : Int} : checkInt x = .ok y ↔ x = y ∧ intMin ≤ x ∧ x ≤ intMax := by
  unfold checkInt
  split
  · rename_i h
    simp [h]
  · rename_i h
    simp only [reduceCtorEq, false_iff]
    exact fun hy => h hy.2

theorem intAdd_natCast {a b : Nat} (h : ((a + b : Nat) : Int) ≤ intMax) :
    intAdd a b = .ok ((a + b : Nat) : Int) := by
  unfold intAdd
  rw [checkInt_of_nonneg (by omega) (by omega)]
  simp

theorem toInt32_of_range {x : Int} (hlo : intMin ≤ x) (hhi : x ≤ intMax) : toInt32 x = x := by
  unfold toInt32 intMin intMax at *
  exact Int.bmod_eq_of_le_mul_two (by omega) (by omega)

theorem toInt32_of_nonneg {x : Int} (h : 0 ≤ x) (hhi : x ≤ intMax) : toInt32 x = x :=
  toInt32_of_range (Int.le_trans (by decide) h) hhi

theorem toInt32_range (x : Int) : intMin ≤ toInt32 x ∧ toInt32 x ≤ intMax := by
  have hlo := Int.le_bmod (x := x) (show 0 < 4294967296 by decide)
  have hhi := Int.bmod_lt (x := x) (show 0 < 4294967296 by decide)
  unfold toInt32 intMin intMax
  omega

/-- The next 2^31 values wrap to negative ones. -/
theorem toInt32_of_wrap {x : Int} (hlo : intMax < x) (hhi : x ≤ intMax + 2147483648) :
    toInt32 x < 0 := by
  unfold toInt32 intMax at *
  rw [Int.bmod_def]
  split <;> omega

theorem charVal_upper (b : UInt8) : charVal b ≤ 127 := by
  have := b.toNat_lt
  unfold charVal
  split <;> omega

theorem toNat_toByte (x : Int) : ((toByte x).toNat : Int) = x % 256 := by
  unfold toByte
  rw [UInt8.toNat_ofNat']
  omega

/-- What a `char` keeps of an `int` in `0..255`: the value itself up to 127, and
256 less than it above. -/
theorem charVal_toByte {x : Int} (hlo : 0 ≤ x) (hhi : x ≤ 127) : charVal (toByte x) = x := by
  have hn : (toByte x).toNat = x.toNat := by
    have := toNat_toByte x
    omega
  unfold charVal
  rw [hn]
  split <;> omega

end CMem
