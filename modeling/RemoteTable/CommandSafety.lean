import RemoteTable.CommandLoop

/-! # Which input the command loop survives

`main` relies on two things that it does not check: that `fgets` has left a string with at
least one byte, and that the user has typed as many operands as the command needs.  At the
end of the input `strlen(parser.com)-1` wraps; and a `del` without a key passes `NULL` on.
-/
namespace RemoteTable
open CMem Fields

/-- **A round is safe**: it writes inside `parser` only, fills at most three slots, and passes
no `NULL` on; and a command whose operands are missing is turned down. -/
def RoundSafe (res : Option Piece) : Prop :=
  ∃ p, parse res = .ok p ∧ p.c ≤ 3 ∧ ∃ call, execute p = .ok call ∧
    ∀ k, named p = .ok (some k) → p.c ≤ k.operands → call = .invalid

/-- **The loop is safe**: every round is that it gets to, with these results of `fgets`. -/
def LoopSafe : List (Turn × Option Piece) → Prop
  | [] => True
  | (turn, res) :: rounds => turn.connected = true →
      RoundSafe res ∧ ∀ p, parse res = .ok p → goesOn turn p = true → LoopSafe rounds

/-- The first word of a text. -/
def firstWord (t : List UInt8) : List UInt8 := t.takeWhile (· ≠ 32)

/-- The condition on what `fgets` returns: it is not `NULL`, the first byte is not NUL, and
the command that the first word names has as many spaces behind it as it needs operands. -/
def RoundMeets (res : Option Piece) : Prop :=
  ∃ p, res = some p ∧ p.bytes.head? ≠ some 0 ∧
    ∀ k, Command.ofText (firstWord p.text) = some k → k.operands ≤ p.text.count 32

/-- Every round that the loop gets to meets its condition. -/
def LoopMeets : List (Turn × Option Piece) → Prop
  | [] => True
  | (turn, res) :: rounds => turn.connected = true →
      RoundMeets res ∧ ∀ p, parse res = .ok p → goesOn turn p = true → LoopMeets rounds

/-- The string is empty exactly when it starts with the NUL. -/
theorem cstr_ne_nil_iff (p : Piece) : cstr p.bytes ≠ [] ↔ p.bytes.head? ≠ some 0 := by
  have hne := p.nonempty
  cases hbytes : p.bytes with
  | nil => exact absurd hbytes hne
  | cons c bytes =>
    by_cases hc : c = 0
    · simp [cstr, hc]
    · simp [cstr, hc]

/-- No operand is missing exactly when there are as many as the command needs. -/
theorem callWith_isSome_iff (k : Option Command) (operands : List (List UInt8)) :
    (callWith k operands).isSome ↔ ∀ c, k = some c → c.operands ≤ operands.length := by
  cases k with
  | none => simp [callWith]
  | some k =>
    have hforall : (∀ c, some k = some c → c.operands ≤ operands.length) ↔
        k.operands ≤ operands.length := by simp
    rw [hforall]
    cases k with
    | size | getkeys | tablePrint | stats | quit => simp [callWith, Command.operands]
    | del | get => cases operands <;> simp [callWith, Command.operands]
    | put =>
      cases operands with
      | nil => simp [callWith, Command.operands]
      | cons key operands => cases operands <;> simp [callWith, Command.operands]

/-- **One round.** -/
theorem roundSafe_iff (res : Option Piece) : RoundSafe res ↔ RoundMeets res := by
  by_cases hread : ∃ p, res = some p ∧ cstr p.bytes ≠ []
  · obtain ⟨p, rfl, hne⟩ := hread
    obtain ⟨q, hparse, hq⟩ := parse_eq hne
    obtain ⟨operands, hfields⟩ := exists_fields_succ 32 1 p.text
    have hlen : operands.length = min 2 (p.text.count 32) := by
      have h := length_fields 32 2 p.text
      rw [hfields, List.length_cons] at h
      omega
    have hnamed : named q = .ok (Command.ofText (firstWord p.text)) := by
      have hq' := hq
      rw [hfields] at hq'
      exact named_eq hq' (nul_notMem_fields p _ (hfields ▸ List.mem_cons_self))
    have hexec := execute_eq hq (nul_notMem_fields p) fields_ne_nil (length_fields_le _)
    have hcall : callOf (fields 32 2 p.text) =
        callWith (Command.ofText (firstWord p.text)) operands := by rw [hfields]; rfl
    have hmeets : RoundMeets (some p) ↔
        (callWith (Command.ofText (firstWord p.text)) operands).isSome := by
      rw [callWith_isSome_iff]
      constructor
      · rintro ⟨p', hp', -, h⟩ k hk
        obtain rfl := Option.some.inj hp'
        have htwo : k.operands ≤ 2 := by cases k <;> decide
        have := h k hk
        omega
      · intro h
        refine ⟨p, rfl, (cstr_ne_nil_iff p).mp hne, fun k hk => ?_⟩
        have := h k hk
        omega
    rw [hmeets]
    constructor
    · rintro ⟨q', hparse', -, call, hcall', -⟩
      obtain rfl := Except.ok.inj (hparse.symm.trans hparse')
      rw [hexec, hcall] at hcall'
      cases hsome : callWith (Command.ofText (firstWord p.text)) operands with
      | none =>
        rw [hsome] at hcall'
        cases hcall'
      | some _ => rfl
    · intro h
      obtain ⟨call, hsome⟩ := Option.isSome_iff_exists.mp h
      refine ⟨q, hparse, hq.c.trans_le (length_fields_le _), call, ?_, ?_⟩
      · rw [hexec, hcall, hsome, deref_some]
      · -- no operand is missing, so there is nothing to turn down
        intro k hk hmissing
        rw [hnamed] at hk
        have henough := (callWith_isSome_iff _ _).mp h k (Except.ok.inj hk)
        rw [hq.c, hfields, List.length_cons] at hmissing
        omega
  · constructor
    · rintro ⟨q, hparse, -⟩
      rw [parse_fails fun p hp => ?_] at hparse
      · cases hparse
      · by_contra hne
        exact hread ⟨p, hp, hne⟩
    · rintro ⟨p, rfl, hhead, -⟩
      exact absurd ⟨p, rfl, (cstr_ne_nil_iff p).mpr hhead⟩ hread

/-- **The command loop is safe exactly when every round reads a string and finds the operands
that its command needs**, for every sequence of results of `fgets`. -/
theorem loop_safe_iff (rounds : List (Turn × Option Piece)) : LoopSafe rounds ↔ LoopMeets rounds := by
  induction rounds with
  | nil => exact Iff.rfl
  | cons round rounds ih =>
    obtain ⟨turn, res⟩ := round
    rw [LoopSafe, LoopMeets, roundSafe_iff, ih]

/-- `"del\n"`. -/
def delLine : Piece := ⟨[100, 101, 108, 10], by decide, by decide, by decide⟩

/-- **A `del` without a key** passes `NULL` to `strdup`, and at the end of the input a byte is
written before `parser.com`. -/
theorem delLine_not_safe :
    ¬ LoopSafe [(⟨true, fun _ => true⟩, some delLine)] ∧ ¬ LoopSafe [(⟨true, fun _ => true⟩, none)] := by
  constructor
  · intro h
    obtain ⟨p, hp, -, hoperands⟩ := (roundSafe_iff _).mp (h rfl).1
    obtain rfl := Option.some.inj hp
    exact absurd (hoperands .del (by decide)) (by decide)
  · intro h
    obtain ⟨p, hp, -⟩ := (roundSafe_iff _).mp (h rfl).1
    cases hp

end RemoteTable
