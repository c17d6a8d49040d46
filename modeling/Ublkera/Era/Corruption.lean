import Ublkera.Era.Encoding

/-!
# The checksum of a metadata file

`checksum_standard` says what the checksum is: the CRC-32 of the file with a
zero checksum field.  `save` runs over one buffer and `load` over the header
and the body, and both get the same.

`corrupted_never_loads` says what it detects. A file that differs from a saved
one in at most four consecutive bytes does not load, as long as these bytes do
not lie on the border of the checksum field. The bytes outside the field are
detected by the checksum, whose register is as wide as the burst
(`Crc.run_burst`). The bytes of the field are detected because the checksum
does not depend on them.
-/

namespace Ublkera

open LittleEndian

/-- Two strings agree outside the window of `n` bytes from `i` on. -/
def SameOutside (i n : Nat) (a b : Bytes) : Prop :=
  a.length = b.length ∧ ∀ k, ¬ (i ≤ k ∧ k < i + n) → a[k]? = b[k]?

/-- A string around a window. -/
theorem split_window (a : Bytes) (i n : Nat) :
    a.take i ++ (a.drop i).take n ++ a.drop (i + n) = a := by
  rw [← List.drop_drop, List.append_assoc, List.take_append_drop, List.take_append_drop]

/-- A burst of at most four bytes changes the checksum. -/
theorem crc32_burst {a b : Bytes} {i n : Nat} (hn : n ≤ 4) (hsame : SameOutside i n a b)
    (h : crc32 [a] = crc32 [b]) : a = b := by
  obtain ⟨hlen, hout⟩ := hsame
  have hbefore : a.take i = b.take i := by
    apply List.ext_getElem?
    intro k
    rcases Nat.lt_or_ge k i with hk | hk
    · rw [List.getElem?_take_of_lt hk, List.getElem?_take_of_lt hk]
      exact hout k (by omega)
    · rw [List.getElem?_take_eq_none hk, List.getElem?_take_eq_none hk]
  have hafter : a.drop (i + n) = b.drop (i + n) := by
    apply List.ext_getElem?
    intro k
    rw [List.getElem?_drop, List.getElem?_drop]
    exact hout _ (by omega)
  have hburst : ((a.drop i).take n).length = ((b.drop i).take n).length := by
    rw [List.length_take, List.length_take, List.length_drop, List.length_drop, hlen]
  have hrun : Crc.run crcPoly 0xFFFFFFFF#32 (a.take i ++ (a.drop i).take n ++ a.drop (i + n))
      = Crc.run crcPoly 0xFFFFFFFF#32 (a.take i ++ (b.drop i).take n ++ a.drop (i + n)) := by
    have hbits := congrArg UInt32.toBitVec h
    rw [crc32_toBitVec, crc32_toBitVec, BitVec.not_inj] at hbits
    simp only [List.flatten_cons, List.flatten_nil, List.append_nil] at hbits
    rw [split_window, hbefore, hafter, split_window]
    exact hbits
  have hfits : 8 * ((a.drop i).take n).length ≤ 32 := by
    rw [List.length_take]
    omega
  have heq := Crc.run_burst crcPoly (by decide) _ _ _ hburst hfits hrun
  rw [← split_window a i n, ← split_window b i n, hbefore, hafter, heq]

namespace EraState

/-- The string with a zero checksum field. -/
def zeroCrc (raw : Bytes) : Bytes := patch raw crcOff [0, 0, 0, 0]

theorem getElem?_zeroCrc {raw : Bytes} (h : hdrLen ≤ raw.length) (k : Nat) :
    (zeroCrc raw)[k]? = if crcOff ≤ k ∧ k < crcOff + 4 then some 0 else raw[k]? := by
  have hlen : crcOff + [(0 : UInt8), 0, 0, 0].length ≤ raw.length := h
  rw [zeroCrc, getElem?_patch hlen]
  split
  · rename_i hk
    have hzero : [(0 : UInt8), 0, 0, 0] = List.replicate 4 0 := rfl
    have hk4 : k < crcOff + 4 := hk.2
    rw [if_pos ⟨hk.1, hk4⟩, hzero, List.getElem?_replicate, if_pos (by omega)]
  · rename_i hk
    exact (if_neg hk).symm

/-- The checksum that `load` computes is that of the whole string with a zero
checksum field. -/
theorem rawCrc_eq (raw : Bytes) : rawCrc raw = crc32 [zeroCrc raw] := by
  have htake : (raw.take hdrLen).take crcOff = raw.take crcOff := by
    rw [List.take_take]
    rfl
  have hdrop : (raw.take hdrLen).drop (crcOff + 4) = [] :=
    List.drop_eq_nil_of_le (by rw [List.length_take]; exact Nat.min_le_left _ _)
  have hpatch : patch (raw.take hdrLen) crcOff [0, 0, 0, 0] ++ raw.drop hdrLen = zeroCrc raw := by
    show (raw.take hdrLen).take crcOff ++ [0, 0, 0, 0] ++ (raw.take hdrLen).drop (crcOff + 4)
        ++ raw.drop hdrLen = raw.take crcOff ++ [0, 0, 0, 0] ++ raw.drop (crcOff + 4)
    rw [htake, hdrop, List.append_nil]
    rfl
  rw [rawCrc, ← crc32_flatten, ← hpatch]
  simp

/-- The checksum is the standard CRC-32 of the concatenation, whatever the
parts are.  The checksum that `load` computes is that of one buffer, and it is
the one that `save` has written. -/
theorem checksum_standard :
    (∀ parts : List Bytes, crc32 parts = crc32Ieee parts.flatten) ∧
    (∀ parts parts' : List Bytes, parts.flatten = parts'.flatten → crc32 parts = crc32 parts') ∧
    (∀ raw : Bytes, rawCrc raw = crc32 [zeroCrc raw]) ∧
    ∀ (s : EraState) (clean : Bool),
      rawCrc (s.metaBytes clean) = crc32 [(s.headerFields clean 0).flatten ++ s.body] ∧
      (readHeader (s.metaBytes clean)).crc = rawCrc (s.metaBytes clean) := by
  refine ⟨crc32_eq_ieee, ?_, rawCrc_eq, fun s clean => ⟨?_, ?_⟩⟩
  · intro parts parts' hflat
    rw [crc32_eq_ieee, crc32_eq_ieee, hflat]
  · rw [rawCrc_metaBytes, metaCrc, ← crc32_flatten]
    simp
  · rw [readHeader_metaBytes, rawCrc_metaBytes]

/-- The digits 1 to 9 in two parts and in one, and the checksum in the file of
a map of one chunk. -/
theorem checksum_standard_digits :
    crc32 [[49, 50, 51, 52, 53], [54, 55, 56, 57]]
      = crc32 [[49, 50, 51, 52, 53, 54, 55, 56, 57]] ∧
    (readHeader (oneChunk.metaBytes true)).crc = rawCrc (oneChunk.metaBytes true) :=
  ⟨checksum_standard.2.1 _ _ rfl, (checksum_standard.2.2.2 oneChunk true).2⟩

theorem crcField_length {raw : Bytes} (h : hdrLen ≤ raw.length) :
    (slice raw crcOff (crcOff + 4)).length = 4 :=
  slice_length raw h

/-- The stored checksum is the four bytes of its field. -/
theorem getElem?_crc {a b : Bytes} (ha : hdrLen ≤ a.length) (hb : hdrLen ≤ b.length)
    (h : (readHeader a).crc = (readHeader b).crc) {k : Nat} (hlo : crcOff ≤ k)
    (hhi : k < crcOff + 4) : a[k]? = b[k]? := by
  have hslice : slice a crcOff (crcOff + 4) = slice b crcOff (crcOff + 4) := by
    rw [← u32Bytes_u32Of (crcField_length ha), ← u32Bytes_u32Of (crcField_length hb)]
    exact congrArg u32Bytes h
  have hk : crcOff + (k - crcOff) = k := by omega
  have hget := congrArg (fun bytes : Bytes => bytes[k - crcOff]?) hslice
  simp only [getElem?_slice a (show crcOff + (k - crcOff) < crcOff + 4 by omega),
    getElem?_slice b (show crcOff + (k - crcOff) < crcOff + 4 by omega), hk] at hget
  exact hget

/-- A file that differs from a saved one only inside a window of at most four
consecutive bytes, which lies inside the checksum field or outside it, does
not load. -/
theorem corrupted_never_loads {s : EraState} {clean : Bool} {raw : Bytes} {i n : Nat}
    (hn : n ≤ 4) (hsame : SameOutside i n raw (s.metaBytes clean))
    (hplace : (crcOff ≤ i ∧ i + n ≤ crcOff + 4) ∨ i + n ≤ crcOff ∨ crcOff + 4 ≤ i)
    (hne : raw ≠ s.metaBytes clean) (path : String) (devSize granularity : UInt64)
    (urandom : Except String UInt64) (r : EraState × Bool) :
    load path (.ok raw) devSize granularity urandom ≠ .ok r := by
  obtain ⟨loaded, flag⟩ := r
  intro h
  obtain ⟨-, hle, -⟩ := load_ok h
  have hcrc := (load_checked h).2.2.1
  have hfull : hdrLen ≤ (s.metaBytes clean).length := hsame.1 ▸ hle
  have hcrc' : (readHeader (s.metaBytes clean)).crc = rawCrc (s.metaBytes clean) := by
    rw [readHeader_metaBytes, rawCrc_metaBytes]
  rw [rawCrc_eq] at hcrc
  rw [rawCrc_eq] at hcrc'
  -- the two strings with a zero checksum field are the same
  have hzero : zeroCrc raw = zeroCrc (s.metaBytes clean) := by
    rcases hplace with hin | hout
    · apply List.ext_getElem?
      intro k
      rw [getElem?_zeroCrc hle, getElem?_zeroCrc hfull]
      split
      · rfl
      · exact hsame.2 k (by omega)
    · have hstored : (readHeader raw).crc = (readHeader (s.metaBytes clean)).crc := by
        have hslice : slice raw crcOff (crcOff + 4)
            = slice (s.metaBytes clean) crcOff (crcOff + 4) :=
          slice_congr hle hfull fun k _ _ => hsame.2 k (by omega)
        exact congrArg u32Of hslice
      refine crc32_burst (i := i) hn ⟨?_, fun k hk => ?_⟩ (hcrc.symm.trans (hstored.trans hcrc'))
      · rw [zeroCrc, zeroCrc, patch_length _ _ _ hle, patch_length _ _ _ hfull, hsame.1]
      · rw [getElem?_zeroCrc hle, getElem?_zeroCrc hfull, hsame.2 k hk]
  have hstored : (readHeader raw).crc = (readHeader (s.metaBytes clean)).crc := by
    rw [hcrc, hcrc', hzero]
  apply hne
  apply List.ext_getElem?
  intro k
  by_cases hk : crcOff ≤ k ∧ k < crcOff + 4
  · exact getElem?_crc hle hfull hstored hk.1 hk.2
  · have hget := congrArg (fun bytes : Bytes => bytes[k]?) hzero
    simp only [getElem?_zeroCrc hle, getElem?_zeroCrc hfull, if_neg hk] at hget
    exact hget

/-- The era of the only chunk is damaged. -/
theorem corrupted_never_loads_oneChunk :
    ∃ raw, SameOutside 56 1 raw (oneChunk.metaBytes true) ∧ raw ≠ oneChunk.metaBytes true ∧
      load "a.meta" (.ok raw) 4096 4096 (.ok 7) ≠ .ok (oneChunk, true) := by
  have hlen := oneChunk.metaBytes_length true
  have hsame : SameOutside 56 1 ((oneChunk.metaBytes true).set 56 9)
      (oneChunk.metaBytes true) := by
    refine ⟨List.length_set, fun k hk => ?_⟩
    rw [List.getElem?_set_ne (by omega)]
  have hne : (oneChunk.metaBytes true).set 56 9 ≠ oneChunk.metaBytes true := by
    intro heq
    have hbyte : (oneChunk.metaBytes true)[56]? = some 0 := by
      have hhdr : (oneChunk.headerFields true (oneChunk.metaCrc true)).flatten.length = 56 :=
        headerFields_length ..
      rw [metaBytes_eq, List.getElem?_append_right (Nat.le_of_eq hhdr), hhdr]
      rfl
    rw [← heq, List.getElem?_set_self (by rw [hlen]; decide)] at hbyte
    cases hbyte
  exact ⟨_, hsame, hne, corrupted_never_loads (by decide) hsame (Or.inr (Or.inr (by decide)))
    hne "a.meta" 4096 4096 (.ok 7) _⟩

end EraState

end Ublkera
