import Ublkera.Lib.Decimal

/-!
# Hexadecimal numbers

`digits width n` are the last `width` digits of `n`, in lower case and with
leading zeros.  `hexadecimal` reads a text as a number of any size, in either
case and with an optional plus sign in front.  `parse` reads a number below a
bound digit by digit, and gives up at the first digit that takes it over the
bound or is none.

* `parse_eq_ok_iff`: what `parse` accepts is what `hexadecimal` reads below
  the bound.
* `hexadecimal_digits`: a printed number is read back.
-/

namespace Hex

open Decimal (ParseError unsigned)

def digit (c : Char) : Option Nat :=
  if c.isDigit then some (c.toNat - 48)
  else if 97 ≤ c.toNat ∧ c.toNat ≤ 102 then some (c.toNat - 87)
  else if 65 ≤ c.toNat ∧ c.toNat ≤ 70 then some (c.toNat - 55)
  else none

/-- The number that the digits go on to, after `acc`. -/
def ofDigits (acc : Nat) : List Char → Option Nat
  | [] => some acc
  | c :: rest =>
    match digit c with
    | some d => ofDigits (acc * 16 + d) rest
    | none => none

def hexadecimal (text : List Char) : Option Nat :=
  if unsigned text = [] then none else ofDigits 0 (unsigned text)

def parseDigits (bound acc : Nat) : List Char → Except ParseError Nat
  | [] => .ok acc
  | c :: rest =>
    match digit c with
    | some d =>
      if acc * 16 + d < bound then parseDigits bound (acc * 16 + d) rest else .error .overflow
    | none => .error .invalidDigit

def parse (bound : Nat) (text : List Char) : Except ParseError Nat :=
  if text = [] then .error .empty
  else if text = ['+'] ∨ text = ['-'] then .error .invalidDigit
  else parseDigits bound 0 (unsigned text)

def digits : Nat → Nat → List Char
  | 0, _ => []
  | width + 1, n => digits width (n / 16) ++ [Nat.digitChar (n % 16)]

/-! ## What is accepted -/

theorem le_of_ofDigits {acc n : Nat} {text : List Char} (h : ofDigits acc text = some n) :
    acc ≤ n := by
  induction text generalizing acc with
  | nil => exact Nat.le_of_eq (Option.some.inj h)
  | cons c rest ih =>
    simp only [ofDigits] at h
    split at h
    · have hle := ih h
      omega
    · cases h

theorem parseDigits_eq_ok_iff {bound acc n : Nat} {text : List Char} (hacc : acc < bound) :
    parseDigits bound acc text = .ok n ↔ ofDigits acc text = some n ∧ n < bound := by
  induction text generalizing acc with
  | nil =>
    simp only [parseDigits, ofDigits, Except.ok.injEq, Option.some.injEq]
    constructor
    · intro h
      exact ⟨h, h ▸ hacc⟩
    · intro h
      exact h.1
  | cons c rest ih =>
    simp only [parseDigits, ofDigits]
    cases hd : digit c with
    | none => simp
    | some d =>
      simp only
      by_cases hlt : acc * 16 + d < bound
      · rw [if_pos hlt]
        exact ih hlt
      · rw [if_neg hlt]
        constructor
        · intro h
          cases h
        · intro h
          have hle := le_of_ofDigits h.1
          omega

theorem parse_eq_ok_iff {bound n : Nat} {text : List Char} (hbound : 0 < bound) :
    parse bound text = .ok n ↔ hexadecimal text = some n ∧ n < bound := by
  unfold parse hexadecimal
  by_cases hempty : text = []
  · subst hempty
    simp [unsigned]
  · rw [if_neg hempty]
    by_cases hsign : text = ['+'] ∨ text = ['-']
    · rw [if_pos hsign]
      rcases hsign with rfl | rfl
      · simp [unsigned]
      · simp [unsigned, ofDigits, digit, Char.isDigit]
    · rw [if_neg hsign]
      have hdigits : unsigned text ≠ [] := by
        intro hnil
        unfold unsigned at hnil
        split at hnil
        · exact hsign (.inl (by rw [hnil]))
        · exact hempty hnil
      rw [if_neg hdigits]
      exact parseDigits_eq_ok_iff hbound

/-! ## What is printed -/

theorem digit_digitChar {d : Nat} (h : d < 16) : digit d.digitChar = some d := by
  interval_cases d
  all_goals decide

theorem ofDigits_concat (acc : Nat) (text : List Char) (c : Char) :
    ofDigits acc (text ++ [c])
      = (ofDigits acc text).bind fun n => (digit c).map fun d => n * 16 + d := by
  induction text generalizing acc with
  | nil =>
    simp only [List.nil_append, ofDigits, Option.bind_some]
    cases digit c with
    | none => rfl
    | some d => rfl
  | cons a rest ih =>
    simp only [List.cons_append, ofDigits]
    cases digit a with
    | none => rfl
    | some d => exact ih (acc * 16 + d)

theorem ofDigits_digits (width n : Nat) : ofDigits 0 (digits width n) = some (n % 16 ^ width) := by
  induction width generalizing n with
  | zero => simp [digits, ofDigits, Nat.mod_one]
  | succ width ih =>
    have hlt : n % 16 < 16 := Nat.mod_lt n (by omega)
    rw [digits, ofDigits_concat, ih, digit_digitChar hlt, Option.bind_some, Option.map_some,
      Nat.pow_succ', Nat.mod_mul]
    congr 1
    omega

theorem length_digits (width n : Nat) : (digits width n).length = width := by
  induction width generalizing n with
  | zero => rfl
  | succ width ih => simp [digits, ih]

/-- Every character that is printed is a digit, so no text starts with a
sign. -/
theorem digit_of_mem_digits {width n : Nat} {c : Char} (h : c ∈ digits width n) :
    (digit c).isSome := by
  induction width generalizing n with
  | zero => simp [digits] at h
  | succ width ih =>
    rw [digits, List.mem_append, List.mem_singleton] at h
    rcases h with h | rfl
    · exact ih h
    · rw [digit_digitChar (Nat.mod_lt n (by omega))]
      rfl

theorem unsigned_digits (width n : Nat) : unsigned (digits width n) = digits width n := by
  cases htext : digits width n with
  | nil => rfl
  | cons c rest =>
    have hc : (digit c).isSome := digit_of_mem_digits (by rw [htext]; exact List.mem_cons_self)
    unfold unsigned
    split
    · rename_i heq
      simp only [List.cons.injEq] at heq
      rw [heq.1] at hc
      exact absurd hc (by decide)
    · rfl

/-- A printed number is read back. -/
theorem hexadecimal_digits {width n : Nat} (hwidth : 0 < width) (hn : n < 16 ^ width) :
    hexadecimal (digits width n) = some n := by
  have hne : digits width n ≠ [] := by
    intro hnil
    have hlen := length_digits width n
    rw [hnil] at hlen
    simp at hlen
    omega
  rw [hexadecimal, unsigned_digits, if_neg hne, ofDigits_digits, Nat.mod_eq_of_lt hn]

end Hex
