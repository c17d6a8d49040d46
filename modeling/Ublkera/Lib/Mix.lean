import Mathlib.Tactic

/-!
# Mixing steps of a word

The steps that bit mixers are built from: adding a constant, multiplying by
an odd constant, and folding the high bits into the low ones.  Each of them
keeps different words different, whatever the width.

`UInt64` has its own names for them at the end.
-/

namespace Mix

variable {w : Nat}

/-- The top `k` bits stay as they are, and a bit below them is known once the
bit `k` places above it is. -/
theorem xorShiftRight_injective {k : Nat} (hk : 0 < k) :
    Function.Injective fun x : BitVec w => x ^^^ (x >>> k) := by
  intro x y h
  have hbit : ∀ i, (x.getLsbD i ^^ x.getLsbD (k + i)) = (y.getLsbD i ^^ y.getLsbD (k + i)) := by
    intro i
    have hi := congrArg (fun z => BitVec.getLsbD z i) h
    simpa using hi
  -- from the top bit down
  have hdown : ∀ n i, w ≤ i + n → x.getLsbD i = y.getLsbD i := by
    intro n
    induction n with
    | zero =>
      intro i hi
      rw [BitVec.getLsbD_of_ge x i hi, BitVec.getLsbD_of_ge y i hi]
    | succ n ih =>
      intro i hi
      have hi' := hbit i
      rw [ih (k + i) (by omega)] at hi'
      exact Bool.xor_left_inj.mp hi'
  exact BitVec.eq_of_getLsbD_eq fun i _ => hdown w i (Nat.le_add_left w i)

theorem mul_odd_injective {c : BitVec w} (hc : c.toNat % 2 = 1) :
    Function.Injective fun x : BitVec w => x * c := by
  intro x y h
  have hcoprime : Nat.gcd (2 ^ w) c.toNat = 1 :=
    Nat.Coprime.pow_left w (Nat.coprime_two_left.mpr (Nat.odd_iff.mpr hc))
  have hmod : x.toNat * c.toNat ≡ y.toNat * c.toNat [MOD 2 ^ w] := by
    have hnat := congrArg BitVec.toNat h
    simp only [BitVec.toNat_mul] at hnat
    exact hnat
  have hxy := Nat.ModEq.cancel_right_of_coprime hcoprime hmod
  exact BitVec.eq_of_toNat_eq (hxy.eq_of_lt_of_lt x.isLt y.isLt)

theorem add_injective (c : BitVec w) : Function.Injective fun x : BitVec w => x + c :=
  fun _ _ h => (BitVec.add_left_inj c).mp h

/-! ## 64-bit words -/

theorem injective_of_toBitVec {f : UInt64 → UInt64} {g : BitVec 64 → BitVec 64}
    (hfg : ∀ x, (f x).toBitVec = g x.toBitVec) (hg : Function.Injective g) :
    Function.Injective f := by
  intro x y h
  apply UInt64.toBitVec_inj.mp
  apply hg
  rw [← hfg, ← hfg, h]

theorem shift_injective_u64 {k : UInt64} (hk : 0 < k.toNat % 64) :
    Function.Injective fun x : UInt64 => x ^^^ (x >>> k) := by
  refine injective_of_toBitVec (fun x => ?_) (xorShiftRight_injective hk)
  have hmod : (k.toBitVec % 64).toNat = k.toNat % 64 := by
    rw [BitVec.toNat_umod]
    rfl
  rw [UInt64.toBitVec_xor, UInt64.toBitVec_shiftRight, BitVec.ushiftRight_eq', hmod]

theorem mul_injective_u64 {c : UInt64} (hc : c.toNat % 2 = 1) :
    Function.Injective fun x : UInt64 => x * c :=
  injective_of_toBitVec (fun _ => UInt64.toBitVec_mul) (mul_odd_injective hc)

theorem add_injective_u64 (c : UInt64) : Function.Injective fun x : UInt64 => x + c :=
  injective_of_toBitVec (fun _ => UInt64.toBitVec_add) (add_injective c.toBitVec)

end Mix
