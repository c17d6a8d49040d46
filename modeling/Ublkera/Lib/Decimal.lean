import Mathlib.Tactic

/-!
# Decimal numbers

`decimal` reads a text as a number of any size: digits, with an optional
plus sign in front.  `parse` reads a number below a bound digit by digit, and
gives up at the first digit that takes it over the bound or is none.

`parse_eq_ok_iff`: what `parse` accepts is what `decimal` reads below the
bound.
-/

namespace Decimal

inductive ParseError where
  | empty
  | invalidDigit
  | overflow
  deriving DecidableEq, Repr

def digit (c : Char) : Option Nat := if c.isDigit then some (c.toNat - 48) else none

/-- The number that the digits go on to, after `acc`. -/
def ofDigits (acc : Nat) : List Char → Option Nat
  | [] => some acc
  | c :: rest =>
    match digit c with
    | some d => ofDigits (acc * 10 + d) rest
    | none => none

/-- The digits behind the sign. -/
def unsigned : List Char → List Char
  | '+' :: rest => rest
  | text => text

def decimal (text : List Char) : Option Nat :=
  if unsigned text = [] then none else ofDigits 0 (unsigned text)

def parseDigits (bound acc : Nat) : List Char → Except ParseError Nat
  | [] => .ok acc
  | c :: rest =>
    match digit c with
    | some d =>
      if acc * 10 + d < bound then parseDigits bound (acc * 10 + d) rest else .error .overflow
    | none => .error .invalidDigit

def parse (bound : Nat) (text : List Char) : Except ParseError Nat :=
  if text = [] then .error .empty
  else if text = ['+'] ∨ text = ['-'] then .error .invalidDigit
  else parseDigits bound 0 (unsigned text)

theorem le_of_ofDigits {acc n : Nat} {text : List Char} (h : ofDigits acc text = some n) :
    acc ≤ n := by
  induction text generalizing acc with
  | nil => exact Nat.le_of_eq (Option.some.inj h)
  | cons c rest ih =>
    simp only [ofDigits] at h
    split at h
    · have hle := ih h
      omega
    · cases h

theorem parseDigits_eq_ok_iff {bound acc n : Nat} {text : List Char} (hacc : acc < bound) :
    parseDigits bound acc text = .ok n ↔ ofDigits acc text = some n ∧ n < bound := by
  induction text generalizing acc with
  | nil =>
    simp only [parseDigits, ofDigits, Except.ok.injEq, Option.some.injEq]
    constructor
    · intro h
      exact ⟨h, h ▸ hacc⟩
    · intro h
      exact h.1
  | cons c rest ih =>
    simp only [parseDigits, ofDigits]
    cases hd : digit c with
    | none => simp
    | some d =>
      simp only
      by_cases hlt : acc * 10 + d < bound
      · rw [if_pos hlt]
        exact ih hlt
      · rw [if_neg hlt]
        constructor
        · intro h
          cases h
        · intro h
          have hle := le_of_ofDigits h.1
          omega

theorem parse_eq_ok_iff {bound n : Nat} {text : List Char} (hbound : 0 < bound) :
    parse bound text = .ok n ↔ decimal text = some n ∧ n < bound := by
  unfold parse decimal
  by_cases hempty : text = []
  · subst hempty
    simp [unsigned]
  · rw [if_neg hempty]
    by_cases hsign : text = ['+'] ∨ text = ['-']
    · rw [if_pos hsign]
      rcases hsign with rfl | rfl
      · simp [unsigned]
      · simp [unsigned, ofDigits, digit, Char.isDigit]
    · rw [if_neg hsign]
      have hdigits : unsigned text ≠ [] := by
        intro hnil
        unfold unsigned at hnil
        split at hnil
        · exact hsign (.inl (by rw [hnil]))
        · exact hempty hnil
      rw [if_neg hdigits]
      exact parseDigits_eq_ok_iff hbound

end Decimal
