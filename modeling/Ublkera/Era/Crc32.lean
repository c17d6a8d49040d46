import Ublkera.Lib.Crc
import Ublkera.Lib.LittleEndian

/-!
# The checksum of a metadata file

`crc32` is the table-driven CRC-32 of `src/era.rs`.  It runs over a list of
byte strings and does not see where one ends and the next begins
(`crc32_flatten`), so `load` may check the header and the body as two
parts where `save` ran over the whole buffer.

`crc32_toBitVec` says that the loop over the table is the register of
`Ublkera.Lib.Crc`, and `crc32_eq_ieee` that it is the standard CRC-32.
-/

namespace Ublkera

open LittleEndian

/-- One round of the table computation. -/
def crcRound (c : UInt32) : UInt32 :=
  if c &&& 1 ≠ 0 then (0xEDB88320 : UInt32) ^^^ (c >>> 1) else c >>> 1

/-- The table entry of `i`: eight rounds. -/
def crcEntry (i : Nat) : UInt32 :=
  (List.range 8).foldl (fun c _ => crcRound c) (UInt32.ofNat i)

def crcTable : List UInt32 := (List.range 256).map crcEntry

/-- What one byte does to the running checksum. -/
def crcByte (crc : UInt32) (b : UInt8) : UInt32 :=
  crcTable.getD ((crc ^^^ b.toUInt32) &&& 0xFF).toNat 0 ^^^ (crc >>> 8)

def crc32 (parts : List Bytes) : UInt32 :=
  ~~~ parts.foldl (fun crc part => part.foldl crcByte crc) 0xFFFFFFFF

/-- The checksum depends on the concatenation of the parts alone. -/
theorem crc32_flatten (parts : List Bytes) : crc32 [parts.flatten] = crc32 parts := by
  have hfold : ∀ crc : UInt32,
      parts.flatten.foldl crcByte crc
        = parts.foldl (fun crc part => part.foldl crcByte crc) crc := by
    induction parts with
    | nil => intro crc; rfl
    | cons part parts ih =>
      intro crc
      rw [List.flatten_cons, List.foldl_append, List.foldl_cons]
      exact ih _
  rw [crc32, crc32, List.foldl_cons, List.foldl_nil, hfold]

/-- The check value of CRC-32: the checksum of the digits 1 to 9. -/
example : crc32 [[49, 50, 51, 52, 53], [54, 55, 56, 57]] = 0xCBF43926 := by
  decide +kernel

/-! ## The table and the register -/

/-- The reflected polynomial of CRC-32. -/
def crcPoly : BitVec 32 := 0xEDB88320#32

theorem crcRound_toBitVec (c : UInt32) :
    (crcRound c).toBitVec = Crc.shift crcPoly c.toBitVec := by
  have hbit : (c &&& 1 ≠ 0) ↔ c.toBitVec.getLsbD 0 = true := by
    have hand : (c &&& 1).toBitVec = BitVec.setWidth 32 (BitVec.ofBool (c.toBitVec.getLsbD 0)) := by
      rw [UInt32.toBitVec_and]
      exact BitVec.and_one_eq_setWidth_ofBool_getLsbD
    rw [ne_eq, ← UInt32.toBitVec_inj, hand]
    cases c.toBitVec.getLsbD 0 <;> decide
  unfold crcRound Crc.shift
  by_cases h : c.toBitVec.getLsbD 0 = true
  · rw [if_pos (hbit.mpr h), if_pos h, UInt32.toBitVec_xor, BitVec.xor_comm]
    rfl
  · rw [if_neg (fun hc => h (hbit.mp hc)), if_neg h]
    rfl

theorem crcEntry_toBitVec (i : Nat) :
    (crcEntry i).toBitVec = (Crc.shift crcPoly)^[8] (BitVec.ofNat 32 i) := by
  have hrounds : ∀ n (c : UInt32), ((List.range n).foldl (fun c _ => crcRound c) c).toBitVec
      = (Crc.shift crcPoly)^[n] c.toBitVec := by
    intro n c
    induction n with
    | zero => rfl
    | succ n ih =>
      rw [List.range_succ, List.foldl_append, List.foldl_cons, List.foldl_nil,
        crcRound_toBitVec, ih, Function.iterate_succ_apply']
  exact hrounds 8 (UInt32.ofNat i)

theorem crcTable_getD {i : Nat} (h : i < 256) : crcTable.getD i 0 = crcEntry i := by
  rw [crcTable, List.getD_eq_getElem?_getD, List.getElem?_map, List.getElem?_range h]
  rfl

/-- One step over the table is eight shifts of the register. -/
theorem crcByte_toBitVec (crc : UInt32) (b : UInt8) :
    (crcByte crc b).toBitVec = Crc.byteStep crcPoly crc.toBitVec b := by
  have hlow : ((crc ^^^ b.toUInt32) &&& 0xFF).toNat < 256 := by
    rw [UInt32.toNat_and]
    exact Nat.lt_of_le_of_lt Nat.and_le_right (by decide)
  have hbyte : b.toUInt32.toBitVec = b.toBitVec.setWidth 32 := rfl
  have hhigh : (b.toBitVec.setWidth 32) >>> 8 = 0#32 := by
    apply BitVec.eq_of_getLsbD_eq
    intro i hi
    simp
  have hshift : (crc ^^^ b.toUInt32).toBitVec >>> 8 = crc.toBitVec >>> 8 := by
    rw [UInt32.toBitVec_xor, BitVec.ushiftRight_xor_distrib, hbyte, hhigh, BitVec.xor_zero]
  have hindex : BitVec.ofNat 32 ((crc ^^^ b.toUInt32) &&& 0xFF).toNat
      = (crc ^^^ b.toUInt32).toBitVec &&& 255#32 := by
    rw [← UInt32.toNat_toBitVec, BitVec.ofNat_toNat, BitVec.setWidth_eq, UInt32.toBitVec_and]
    rfl
  rw [crcByte, crcTable_getD hlow, UInt32.toBitVec_xor, crcEntry_toBitVec, hindex]
  show _ ^^^ (crc.toBitVec >>> 8)
    = (Crc.shift crcPoly)^[8] (crc.toBitVec ^^^ b.toBitVec.setWidth 32)
  rw [← hshift, ← hbyte, ← UInt32.toBitVec_xor]
  exact (Crc.shifts_eight crcPoly _).symm

/-- The table-driven checksum is the bit-by-bit one of the concatenation. -/
theorem crc32_toBitVec (parts : List Bytes) :
    (crc32 parts).toBitVec = ~~~ Crc.run crcPoly 0xFFFFFFFF#32 parts.flatten := by
  have hfold : ∀ (bytes : Bytes) (crc : UInt32),
      (bytes.foldl crcByte crc).toBitVec = Crc.run crcPoly crc.toBitVec bytes := by
    intro bytes
    induction bytes with
    | nil => intro crc; rfl
    | cons b bytes ih =>
      intro crc
      rw [List.foldl_cons, ih, crcByte_toBitVec]
      rfl
  rw [← crc32_flatten, crc32, List.foldl_cons, List.foldl_nil, UInt32.toBitVec_not, hfold]
  rfl

/-- CRC-32/IEEE, one shift of the register for every bit: reflected, with
the initial value and the final exclusive or 0xFFFFFFFF. -/
def crc32Ieee (bytes : Bytes) : UInt32 :=
  UInt32.ofBitVec (Crc.runBits crcPoly 0xFFFFFFFF#32 bytes ^^^ 0xFFFFFFFF#32)

/-- The table-driven checksum is CRC-32/IEEE of the concatenation. -/
theorem crc32_eq_ieee (parts : List Bytes) : crc32 parts = crc32Ieee parts.flatten := by
  have hones : (0xFFFFFFFF#32 : BitVec 32) = BitVec.allOnes 32 := rfl
  apply UInt32.toBitVec_inj.mp
  rw [crc32_toBitVec, Crc.run_eq_runBits crcPoly (by decide)]
  show _ = Crc.runBits crcPoly 0xFFFFFFFF#32 parts.flatten ^^^ 0xFFFFFFFF#32
  conv => rhs; rw [hones, BitVec.xor_allOnes]
  rfl

end Ublkera
