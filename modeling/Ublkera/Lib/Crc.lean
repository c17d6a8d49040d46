import Mathlib.Tactic

/-!
# Reflected cyclic redundancy checks

The register of a reflected CRC of width `w` is shifted down bit by bit, and
a one that falls out adds the polynomial.  A shift is linear in exclusive or
(`shift_xor`), and it is one to one when the polynomial has its top bit set
(`shift_injective`), so no information about the register is lost.

* `shifts_eight` is the step of a table-driven implementation: the table
  entry of the low byte, and the rest of the register moved down by eight.
* `run_eq_runBits`: a byte may come into the register at once or bit by bit.
* `run_injective` and `run_burst` say what a checksum detects.  Two inputs of
  one length that differ in at most `w` consecutive bits, on byte borders,
  leave different registers, whatever comes before and after.

Nothing in this module is about a particular polynomial or width.
-/

namespace Crc

variable {w : Nat} (p : BitVec w)

/-- One bit of the register falls out. -/
def shift (c : BitVec w) : BitVec w :=
  if c.getLsbD 0 then (c >>> 1) ^^^ p else c >>> 1

/-- One byte of input: eight shifts, with the byte in the low end. -/
def byteStep (c : BitVec w) (b : UInt8) : BitVec w :=
  (shift p)^[8] (c ^^^ b.toBitVec.setWidth w)

/-- The register after a byte string. -/
def run (c : BitVec w) (bytes : List UInt8) : BitVec w := bytes.foldl (byteStep p) c

/-! ## Linearity -/

theorem shift_xor (a b : BitVec w) : shift p (a ^^^ b) = shift p a ^^^ shift p b := by
  unfold shift
  rw [BitVec.getLsbD_xor, BitVec.ushiftRight_xor_distrib]
  cases a.getLsbD 0 with
  | false =>
    cases b.getLsbD 0 with
    | false => rfl
    | true =>
      show (a >>> 1 ^^^ b >>> 1) ^^^ p = a >>> 1 ^^^ (b >>> 1 ^^^ p)
      ac_rfl
  | true =>
    cases b.getLsbD 0 with
    | false =>
      show (a >>> 1 ^^^ b >>> 1) ^^^ p = (a >>> 1 ^^^ p) ^^^ b >>> 1
      ac_rfl
    | true =>
      -- the two polynomials cancel
      have hcancel : (a >>> 1 ^^^ p) ^^^ (b >>> 1 ^^^ p)
          = (a >>> 1 ^^^ b >>> 1) ^^^ (p ^^^ p) := by ac_rfl
      show a >>> 1 ^^^ b >>> 1 = (a >>> 1 ^^^ p) ^^^ (b >>> 1 ^^^ p)
      rw [hcancel, BitVec.xor_self, BitVec.xor_zero]

theorem shifts_xor (n : Nat) (a b : BitVec w) :
    (shift p)^[n] (a ^^^ b) = (shift p)^[n] a ^^^ (shift p)^[n] b := by
  induction n generalizing a b with
  | zero => rfl
  | succ n ih =>
    simp only [Function.iterate_succ_apply]
    rw [shift_xor, ih]

/-- A register whose low bits are clear only moves down. -/
theorem shifts_of_clear {n : Nat} {c : BitVec w} (h : ∀ i, i < n → c.getLsbD i = false) :
    (shift p)^[n] c = c >>> n := by
  induction n with
  | zero => simp
  | succ n ih =>
    have hbit : (c >>> n).getLsbD 0 = false := by
      rw [BitVec.getLsbD_ushiftRight]
      exact h n (Nat.lt_succ_self n)
    rw [Function.iterate_succ_apply', ih fun i hi => h i (by omega), shift, hbit]
    simp only [Bool.false_eq_true, if_false]
    rw [← BitVec.shiftRight_add]

/-! ## The table-driven step -/

/-- Eight shifts of a register: those of its low byte, and the rest moved
down. -/
theorem shifts_eight (c : BitVec w) :
    (shift p)^[8] c = (shift p)^[8] (c &&& 255#w) ^^^ (c >>> 8) := by
  have h255 : ∀ i, (255#w).getLsbD i = (decide (i < w) && decide (i < 8)) := by
    intro i
    rw [BitVec.getLsbD_ofNat]
    have h : (255 : Nat).testBit i = decide (i < 8) := by
      rw [show (255 : Nat) = 2 ^ 8 - 1 from rfl, Nat.testBit_two_pow_sub_one]
    rw [h]
  have hsplit : c = (c &&& 255#w) ^^^ (c &&& ~~~ 255#w) := by
    apply BitVec.eq_of_getLsbD_eq
    intro i hi
    simp only [BitVec.getLsbD_xor, BitVec.getLsbD_and, BitVec.getLsbD_not, h255, hi]
    cases c.getLsbD i <;> simp
  have hclear : ∀ i, i < 8 → (c &&& ~~~ 255#w).getLsbD i = false := by
    intro i hi
    simp [h255, hi]
  have hhigh : (c &&& ~~~ 255#w) >>> 8 = c >>> 8 := by
    apply BitVec.eq_of_getLsbD_eq
    intro i hi
    simp only [BitVec.getLsbD_ushiftRight, BitVec.getLsbD_and, BitVec.getLsbD_not, h255]
    by_cases h : 8 + i < w
    · simp [h]
    · simp [BitVec.getLsbD_of_ge c (8 + i) (by omega)]
  conv => lhs; rw [hsplit]
  rw [shifts_xor, shifts_of_clear p hclear, hhigh]

/-! ## Bit by bit -/

/-- One bit of input comes into the low end, and one bit falls out. -/
def bitStep (c : BitVec w) (bit : Bool) : BitVec w :=
  shift p (c ^^^ (BitVec.ofBool bit).setWidth w)

/-- The bits of a byte, the lowest first. -/
def bits (b : UInt8) : List Bool := (List.range 8).map b.toBitVec.getLsbD

/-- The register after a byte string, with one shift for every bit. -/
def runBits (c : BitVec w) (bytes : List UInt8) : BitVec w :=
  (bytes.flatMap bits).foldl (bitStep p) c

/-- A bit string as a word, the first bit in the low end. -/
def ofBits : List Bool → BitVec w
  | [] => 0#w
  | bit :: rest => (BitVec.ofBool bit).setWidth w ^^^ (ofBits rest <<< 1)

theorem getLsbD_ofBits (l : List Bool) {i : Nat} (hi : i < w) :
    (ofBits l : BitVec w).getLsbD i = l.getD i false := by
  induction l generalizing i with
  | nil => simp [ofBits]
  | cons bit rest ih =>
    cases i with
    | zero => simp [ofBits, hi]
    | succ i =>
      have hi' : i < w := by omega
      have hrest := ih hi'
      rw [BitVec.getLsbD_eq_getElem hi'] at hrest
      simp [ofBits, hi, hrest]

/-- Bits that fit into the register go into it at once. -/
theorem foldl_bitStep (c : BitVec w) {l : List Bool} (hfits : l.length ≤ w) :
    l.foldl (bitStep p) c = (shift p)^[l.length] (c ^^^ ofBits l) := by
  induction l generalizing c with
  | nil => simp [ofBits]
  | cons bit rest ih =>
    rw [List.length_cons] at hfits ⊢
    have hclear : ∀ i, i < 1 → (ofBits rest <<< 1 : BitVec w).getLsbD i = false := by
      intro i hi
      simp [hi]
    have hback : (ofBits rest <<< 1 : BitVec w) >>> 1 = ofBits rest := by
      apply BitVec.eq_of_getLsbD_eq
      intro i hi
      rw [BitVec.getLsbD_ushiftRight]
      rcases Nat.lt_or_ge (1 + i) w with h | h
      · rw [BitVec.getLsbD_eq_getElem hi]
        simp [h]
      · rw [BitVec.getLsbD_of_ge _ _ h, getLsbD_ofBits rest hi, List.getD_eq_getElem?_getD,
          List.getElem?_eq_none (by omega)]
        rfl
    have hword : shift p (ofBits rest <<< 1) = ofBits rest := by
      have hone := shifts_of_clear p hclear
      rw [Function.iterate_one] at hone
      rw [hone, hback]
    have hstep : shift p (c ^^^ ofBits (bit :: rest)) = bitStep p c bit ^^^ ofBits rest := by
      rw [ofBits, ← BitVec.xor_assoc, shift_xor, hword, bitStep]
    rw [List.foldl_cons, ih _ (by omega), Function.iterate_succ_apply, hstep]

theorem byteStep_eq_bits (hw : 8 ≤ w) (c : BitVec w) (b : UInt8) :
    byteStep p c b = (bits b).foldl (bitStep p) c := by
  have hlen : (bits b).length = 8 := by simp [bits]
  have hbits : (ofBits (bits b) : BitVec w) = b.toBitVec.setWidth w := by
    apply BitVec.eq_of_getLsbD_eq
    intro i hi
    rw [getLsbD_ofBits _ hi, BitVec.getLsbD_setWidth, decide_eq_true hi, Bool.true_and]
    rcases Nat.lt_or_ge i 8 with h | h
    · simp [bits, List.getD_eq_getElem?_getD, h]
    · rw [List.getD_eq_getElem?_getD, List.getElem?_eq_none (hlen ▸ h),
        BitVec.getLsbD_of_ge _ _ h]
      rfl
  rw [foldl_bitStep p c (hlen ▸ hw), hlen, hbits, byteStep]

/-- The register that takes a byte at once is the one that takes it bit by
bit. -/
theorem run_eq_runBits (hw : 8 ≤ w) (c : BitVec w) (bytes : List UInt8) :
    run p c bytes = runBits p c bytes := by
  induction bytes generalizing c with
  | nil => rfl
  | cons b bytes ih =>
    have hbyte := byteStep_eq_bits p hw c b
    rw [runBits, List.flatMap_cons, List.foldl_append, ← hbyte]
    exact ih _

/-! ## What is detected -/

theorem shift_injective (hp : p.getLsbD (w - 1) = true) : Function.Injective (shift p) := by
  have hw : 0 < w := by
    rcases Nat.eq_zero_or_pos w with rfl | hw
    · simp at hp
    · exact hw
  -- the top bit says whether a one fell out
  have htop : ∀ c : BitVec w, (shift p c).getLsbD (w - 1) = c.getLsbD 0 := by
    intro c
    have hout : (c >>> 1).getLsbD (w - 1) = false := by
      rw [BitVec.getLsbD_ushiftRight]
      exact BitVec.getLsbD_of_ge c _ (by omega)
    unfold shift
    cases hc : c.getLsbD 0 with
    | false => simpa using hout
    | true => simp [hp, hout]
  intro a b h
  have hlow : a.getLsbD 0 = b.getLsbD 0 := by
    rw [← htop a, ← htop b, h]
  have hhigh : a >>> 1 = b >>> 1 := by
    unfold shift at h
    rw [hlow] at h
    cases hb : b.getLsbD 0 with
    | false => simpa [hb] using h
    | true =>
      simp only [hb, if_true] at h
      exact (BitVec.xor_left_inj p).mp h
  apply BitVec.eq_of_getLsbD_eq
  intro i hi
  cases i with
  | zero => exact hlow
  | succ i =>
    have hbit := congrArg (fun c => c.getLsbD i) hhigh
    simpa [BitVec.getLsbD_ushiftRight, Nat.add_comm] using hbit

theorem byteStep_injective (hp : p.getLsbD (w - 1) = true) (b : UInt8) :
    Function.Injective fun c => byteStep p c b := by
  intro c c' h
  exact (BitVec.xor_left_inj _).mp ((shift_injective p hp).iterate 8 h)

/-- The same input takes different registers to different registers. -/
theorem run_injective (hp : p.getLsbD (w - 1) = true) (bytes : List UInt8) :
    Function.Injective fun c => run p c bytes := by
  induction bytes with
  | nil => exact Function.injective_id
  | cons b bytes ih =>
    intro c c' h
    exact byteStep_injective p hp b (ih h)

theorem run_append (c : BitVec w) (left right : List UInt8) :
    run p c (left ++ right) = run p (run p c left) right :=
  List.foldl_append

/-- A byte string as a word, the first byte in the low end. -/
def word : List UInt8 → BitVec w
  | [] => 0#w
  | b :: bytes => b.toBitVec.setWidth w ^^^ (word bytes <<< 8)

theorem word_high (bytes : List UInt8) {i : Nat} (h : 8 * bytes.length ≤ i) :
    (word bytes : BitVec w).getLsbD i = false := by
  induction bytes generalizing i with
  | nil => simp [word]
  | cons b bytes ih =>
    rw [List.length_cons] at h
    have hb : b.toBitVec.getLsbD i = false := BitVec.getLsbD_of_ge _ _ (by omega)
    have hrest := ih (i := i - 8) (by omega)
    simp [word, hb, hrest]

/-- A string that fits into the register is the word that it stands for. -/
theorem word_injective {bytes bytes' : List UInt8} (hlen : bytes.length = bytes'.length)
    (hfits : 8 * bytes.length ≤ w) (h : (word bytes : BitVec w) = word bytes') :
    bytes = bytes' := by
  induction bytes generalizing bytes' with
  | nil => exact (List.length_eq_zero_iff.mp hlen.symm).symm
  | cons b bytes ih =>
    cases bytes' with
    | nil => cases hlen
    | cons b' bytes' =>
      rw [List.length_cons] at hfits
      have hlen' : bytes.length = bytes'.length := Nat.succ.inj hlen
      have hbit : ∀ i, (word (b :: bytes) : BitVec w).getLsbD i
          = (word (b' :: bytes') : BitVec w).getLsbD i := fun i => by rw [h]
      have hbyte : b = b' := by
        apply UInt8.toBitVec_inj.mp
        apply BitVec.eq_of_getLsbD_eq
        intro i hi
        have hlow := hbit i
        simpa [word, hi, show i < w by omega] using hlow
      have hrest : (word bytes : BitVec w) = word bytes' := by
        apply BitVec.eq_of_getLsbD_eq
        intro i hi
        rcases Nat.lt_or_ge i (8 * bytes.length) with hi8 | hi8
        · have hhigh := hbit (i + 8)
          have h1 : b.toBitVec.getLsbD (i + 8) = false := BitVec.getLsbD_of_ge _ _ (by omega)
          have h2 : b'.toBitVec.getLsbD (i + 8) = false := BitVec.getLsbD_of_ge _ _ (by omega)
          rw [BitVec.getLsbD_eq_getElem hi, BitVec.getLsbD_eq_getElem hi]
          simpa [word, h1, h2, show i + 8 < w by omega] using hhigh
        · rw [word_high bytes hi8, word_high bytes' (by omega)]
      rw [hbyte, ih hlen' (by omega) hrest]

/-- A string that fits into the register goes into it at once. -/
theorem run_eq_shifts (c : BitVec w) {bytes : List UInt8} (hfits : 8 * bytes.length ≤ w) :
    run p c bytes = (shift p)^[8 * bytes.length] (c ^^^ word bytes) := by
  induction bytes generalizing c with
  | nil => simp [run, word]
  | cons b bytes ih =>
    rw [List.length_cons] at hfits ⊢
    have hclear : ∀ i, i < 8 → (word bytes <<< 8 : BitVec w).getLsbD i = false := by
      intro i hi
      simp [hi]
    have hback : (word bytes <<< 8 : BitVec w) >>> 8 = word bytes := by
      apply BitVec.eq_of_getLsbD_eq
      intro i hi
      rcases Nat.lt_or_ge (i + 8) w with h | h
      · rw [BitVec.getLsbD_ushiftRight, BitVec.getLsbD_eq_getElem hi]
        simp [Nat.add_comm 8 i, h]
      · rw [word_high bytes (by omega), BitVec.getLsbD_ushiftRight]
        exact BitVec.getLsbD_of_ge _ _ (by omega)
    have hword : (shift p)^[8] (word bytes <<< 8) = word bytes := by
      rw [shifts_of_clear p hclear, hback]
    have hassoc : c ^^^ word (b :: bytes)
        = (c ^^^ b.toBitVec.setWidth w) ^^^ (word bytes <<< 8) := by
      rw [word, BitVec.xor_assoc]
    have hstep : (shift p)^[8] (c ^^^ word (b :: bytes)) = byteStep p c b ^^^ word bytes := by
      rw [hassoc, shifts_xor, hword, byteStep]
    show run p (byteStep p c b) bytes = _
    rw [ih _ (by omega), Nat.mul_add, Nat.mul_one, Function.iterate_add_apply, hstep]

/-- A burst of bytes that fits into the register is detected. -/
theorem run_burst (hp : p.getLsbD (w - 1) = true) (c : BitVec w) (before after : List UInt8)
    {burst burst' : List UInt8} (hlen : burst.length = burst'.length)
    (hfits : 8 * burst.length ≤ w)
    (h : run p c (before ++ burst ++ after) = run p c (before ++ burst' ++ after)) :
    burst = burst' := by
  rw [run_append, run_append, run_append, run_append] at h
  have hburst : run p (run p c before) burst = run p (run p c before) burst' :=
    run_injective p hp after h
  rw [run_eq_shifts p (run p c before) hfits,
    run_eq_shifts p (run p c before) (hlen ▸ hfits), hlen] at hburst
  have hword := (BitVec.xor_right_inj _).mp ((shift_injective p hp).iterate _ hburst)
  exact word_injective hlen hfits hword

end Crc
