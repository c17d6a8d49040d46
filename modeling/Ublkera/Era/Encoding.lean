import Ublkera.Era.Metadata

/-!
# The metadata format

`Ublkera.Era.Metadata` proves that a complete file loads as what it was
written from.  Here is the other direction: a byte string that loads is a
complete file, and saving what was loaded gives the same bytes, as long as
its clean word is one of the two that `save` writes.

The proof puts the string together again from the fields that `load` reads
(`header_eq_fields`, `drop_eq_body`).  The length is one of the checks, so nothing that is
shorter or longer than a complete file loads, whatever its checksum.
-/

namespace Ublkera

open LittleEndian

namespace EraState

/-- What `load` has compared when it succeeds. -/
theorem load_checked {path : String} {raw : Bytes} {devSize granularity : UInt64}
    {urandom : Except String UInt64} {s : EraState} {clean : Bool}
    (h : load path (.ok raw) devSize granularity urandom = .ok (s, clean)) :
    (readHeader raw).magic = metaMagic ∧ (readHeader raw).version = metaVersion ∧
      (readHeader raw).crc = rawCrc raw ∧ (readHeader raw).granularity = granularity ∧
      (readHeader raw).devSize = devSize ∧
      (readHeader raw).nrChunks = UInt64.ofNat (divCeil devSize granularity) := by
  obtain ⟨⟨-, hmagic, hversion, hcrc, hgran, hsize⟩, -, hchunks, -⟩ := load_eq_ok h
  exact ⟨hmagic, hversion, hcrc, hgran, hsize, hchunks⟩

/-! ## The bytes that were loaded -/

/-- The header is its fields. -/
theorem take_eq_slices (raw : Bytes) :
    raw.take hdrLen = [slice raw 0 8, slice raw 8 12, slice raw 12 20, slice raw 20 28,
      slice raw 28 32, slice raw 32 40, slice raw 40 44, slice raw 44 52,
      slice raw crcOff (crcOff + 4)].flatten := by
  have hcrc : slice raw 44 52 ++ slice raw crcOff (crcOff + 4) = slice raw 44 hdrLen :=
    slice_append_slice raw (by decide) (by decide)
  have htake : raw.take hdrLen = slice raw 0 hdrLen := by
    rw [slice, List.drop_zero, Nat.sub_zero]
  simp only [List.flatten_cons, List.flatten_nil, List.append_nil]
  rw [htake, hcrc, slice_append_slice raw (by decide) (by decide),
    slice_append_slice raw (by decide) (by decide), slice_append_slice raw (by decide) (by decide),
    slice_append_slice raw (by decide) (by decide), slice_append_slice raw (by decide) (by decide),
    slice_append_slice raw (by decide) (by decide), slice_append_slice raw (by decide) (by decide)]

/-- A clean word that is a flag is the image of the flag. -/
theorem u32Bytes_flag {bytes : Bytes} (hlen : bytes.length = 4)
    (h : u32Of bytes = 0 ∨ u32Of bytes = 1) :
    u32Bytes (if u32Of bytes != 0 then 1 else 0) = bytes := by
  have hword : (if u32Of bytes != 0 then 1 else 0) = u32Of bytes := by
    rcases h with h | h
    · rw [h]
      rfl
    · rw [h]
      rfl
  rw [hword, u32Bytes_u32Of hlen]

/-- The header of a loaded string is the header of the state, with the
checksum that is stored there. -/
theorem header_eq_fields {path : String} {raw : Bytes} {devSize granularity : UInt64}
    {urandom : Except String UInt64} {s : EraState} {clean : Bool}
    (h : load path (.ok raw) devSize granularity urandom = .ok (s, clean))
    (hflag : u32Of (slice raw 40 44) = 0 ∨ u32Of (slice raw 40 44) = 1) :
    raw.take hdrLen = (s.headerFields clean (readHeader raw).crc).flatten := by
  obtain ⟨-, hle, -, hgran, hsize, hgen, hera, heras, hclean⟩ := load_ok h
  obtain ⟨hmagic, hversion, -, hgran', hsize', hchunks⟩ := load_checked h
  have hlen : ∀ i j, j ≤ hdrLen → (slice raw i j).length = j - i :=
    fun i j hj => slice_length raw (Nat.le_trans hj hle)
  have h32 : ∀ i j, j ≤ hdrLen → j - i = 4 → u32Bytes (u32Of (slice raw i j)) = slice raw i j :=
    fun i j hj hij => u32Bytes_u32Of ((hlen i j hj).trans hij)
  have h64 : ∀ i j, j ≤ hdrLen → j - i = 8 → u64Bytes (u64Of (slice raw i j)) = slice raw i j :=
    fun i j hj hij => u64Bytes_u64Of ((hlen i j hj).trans hij)
  have hnr : s.nrChunks = divCeil devSize granularity := by
    rw [nrChunks, s.eras_length, hsize, hgran]
  have f0 : slice raw 0 8 = metaMagic := hmagic
  have f1 : slice raw 8 12 = u32Bytes metaVersion := by
    rw [← hversion]
    exact (h32 8 12 (by decide) rfl).symm
  have f2 : slice raw 12 20 = u64Bytes s.granularity := by
    rw [hgran, ← hgran']
    exact (h64 12 20 (by decide) rfl).symm
  have f3 : slice raw 20 28 = u64Bytes s.devSize := by
    rw [hsize, ← hsize']
    exact (h64 20 28 (by decide) rfl).symm
  have f4 : slice raw 28 32 = u32Bytes s.currentEra := by
    rw [hera]
    exact (h32 28 32 (by decide) rfl).symm
  have f5 : slice raw 32 40 = u64Bytes (UInt64.ofNat s.nrChunks) := by
    rw [hnr, ← hchunks]
    exact (h64 32 40 (by decide) rfl).symm
  have f6 : slice raw 40 44 = u32Bytes (if clean then 1 else 0) := by
    rw [hclean]
    exact (u32Bytes_flag (hlen 40 44 (by decide)) hflag).symm
  have f7 : slice raw 44 52 = u64Bytes s.generation := by
    rw [hgen]
    exact (h64 44 52 (by decide) rfl).symm
  have f8 : slice raw crcOff (crcOff + 4) = u32Bytes (readHeader raw).crc :=
    (h32 crcOff (crcOff + 4) (by decide) rfl).symm
  rw [take_eq_slices raw, f0, f1, f2, f3, f4, f5, f6, f7, f8]
  rfl

/-- The body of a loaded string is the body of the state. -/
theorem drop_eq_body {path : String} {raw : Bytes} {devSize granularity : UInt64}
    {urandom : Except String UInt64} {s : EraState} {clean : Bool}
    (h : load path (.ok raw) devSize granularity urandom = .ok (s, clean)) :
    raw.drop hdrLen = s.body := by
  obtain ⟨-, -, hlen, -, -, -, -, heras, -⟩ := load_ok h
  rw [body, heras, readEras]
  refine (flatten_words u32Bytes u32Of (fun bytes hb => u32Bytes_u32Of hb) ?_).symm
  rw [List.length_drop, hlen]
  omega

/-- The checksum of a string with the header and the body of a state. -/
theorem rawCrc_eq_metaCrc {raw : Bytes} {s : EraState} {clean : Bool} {crc : UInt32}
    (hhdr : raw.take hdrLen = (s.headerFields clean crc).flatten)
    (hbody : raw.drop hdrLen = s.body) : rawCrc raw = s.metaCrc clean := by
  have hpatch : patch (s.headerFields clean crc).flatten crcOff [0, 0, 0, 0]
      = (s.headerFields clean 0).flatten := by
    have hzero : u32Bytes 0 = [0, 0, 0, 0] := rfl
    rw [headerFields_eq s clean crc, headerFields_eq s clean 0, hzero,
      ← headerFields_take_length s clean]
    have h := patch_append ((s.headerFields clean 0).take 8).flatten
      (u32Bytes crc) [0, 0, 0, 0] [] (by simp)
    simpa using h
  rw [rawCrc, hhdr, hbody, hpatch, metaCrc]

/-- A string that loads is what a save of the loaded state writes, as long as
its clean word is one that `save` writes. -/
theorem metaBytes_of_load {path : String} {raw : Bytes} {devSize granularity : UInt64}
    {urandom : Except String UInt64} {s : EraState} {clean : Bool}
    (h : load path (.ok raw) devSize granularity urandom = .ok (s, clean))
    (hflag : u32Of (slice raw 40 44) = 0 ∨ u32Of (slice raw 40 44) = 1) :
    s.metaBytes clean = raw := by
  have hhdr := header_eq_fields h hflag
  have hbody := drop_eq_body h
  have hcrc := (load_checked h).2.2.1
  rw [rawCrc_eq_metaCrc hhdr hbody] at hcrc
  rw [hcrc] at hhdr
  rw [metaBytes_eq, ← hhdr, ← hbody, List.take_append_drop]

/-! ## Strings of another length -/

/-- A string that agrees with a complete file outside the checksum field, as
far as both go, and has another length, does not load. -/
theorem not_load_of_length {s : EraState} {clean : Bool} {raw : Bytes}
    (hlen : raw.length ≠ (s.metaBytes clean).length)
    (hsame : ∀ i, i < raw.length → i < (s.metaBytes clean).length →
      ¬ (crcOff ≤ i ∧ i < crcOff + 4) → raw[i]? = (s.metaBytes clean)[i]?)
    {path : String} {devSize granularity : UInt64} {urandom : Except String UInt64}
    {r : EraState × Bool} : load path (.ok raw) devSize granularity urandom ≠ .ok r := by
  obtain ⟨loaded, flag⟩ := r
  intro h
  obtain ⟨-, hle, hraw, -⟩ := load_ok h
  obtain ⟨-, -, -, hgran, hsize, -⟩ := load_checked h
  have hfull := s.metaBytes_length clean
  have hslice : ∀ i j, j ≤ crcOff → slice raw i j = slice (s.metaBytes clean) i j := by
    intro i j hj
    have hcrc : crcOff ≤ hdrLen := by decide
    exact slice_congr (by omega) (by omega) fun k _ hk =>
      hsame k (by omega) (by omega) (by omega)
  have hgran' : (readHeader raw).granularity = (readHeader (s.metaBytes clean)).granularity := by
    show u64Of (slice raw 12 20) = u64Of (slice (s.metaBytes clean) 12 20)
    rw [hslice 12 20 (by decide)]
  have hsize' : (readHeader raw).devSize = (readHeader (s.metaBytes clean)).devSize := by
    show u64Of (slice raw 20 28) = u64Of (slice (s.metaBytes clean) 20 28)
    rw [hslice 20 28 (by decide)]
  rw [readHeader_metaBytes] at hgran' hsize'
  rw [← hgran, ← hsize, hgran', hsize', ← s.eras_length] at hraw
  exact hlen (hraw.trans hfull.symm)

/-- Encoding and decoding are inverse over the whole format. -/
theorem encoding_inverse :
    (∀ (s : EraState) (clean : Bool) (path : String) (g : UInt64),
      load path (.ok (s.metaBytes clean)) s.devSize s.granularity (.ok g) = .ok (s, clean)) ∧
    (∀ (path : String) (raw : Bytes) (devSize granularity : UInt64)
        (urandom : Except String UInt64) (s : EraState) (clean : Bool),
      load path (.ok raw) devSize granularity urandom = .ok (s, clean) →
        raw.length = 56 + 4 * divCeil devSize granularity ∧
        slice raw 0 8 = metaMagic ∧ u32Of (slice raw 8 12) = metaVersion ∧
        u64Of (slice raw 12 20) = granularity ∧ u64Of (slice raw 20 28) = devSize ∧
        u64Of (slice raw 32 40) = UInt64.ofNat (divCeil devSize granularity) ∧
        ((u32Of (slice raw 40 44) = 0 ∨ u32Of (slice raw 40 44) = 1) →
          s.metaBytes clean = raw)) ∧
    (∀ (s : EraState) (clean : Bool) (raw : Bytes),
      raw.length ≠ (s.metaBytes clean).length →
      (∀ i, i < raw.length → i < (s.metaBytes clean).length →
        ¬ (crcOff ≤ i ∧ i < crcOff + 4) → raw[i]? = (s.metaBytes clean)[i]?) →
      ∀ path devSize granularity urandom r,
        load path (.ok raw) devSize granularity urandom ≠ .ok r) := by
  refine ⟨fun s clean path g => s.load_metaBytes clean path g, ?_, ?_⟩
  · intro path raw devSize granularity urandom s clean h
    obtain ⟨hmagic, hversion, -, hgran, hsize, hchunks⟩ := load_checked h
    obtain ⟨-, -, hlen, -⟩ := load_ok h
    refine ⟨?_, hmagic, hversion, hgran, hsize, hchunks, fun hflag => metaBytes_of_load h hflag⟩
    rw [hlen, hdrLen, Nat.mul_comm]
  · intro s clean raw hlen hsame path devSize granularity urandom r
    exact not_load_of_length hlen hsame

/-- A saved file of one chunk has 60 bytes and loads, and one more byte makes
it refused. -/
theorem encoding_inverse_oneChunk :
    load "" (.ok (oneChunk.metaBytes true)) 4096 4096 (.ok 7) = .ok (oneChunk, true) ∧
      (oneChunk.metaBytes true).length = 56 + 4 * divCeil 4096 4096 ∧
      ∀ path devSize granularity urandom r,
        load path (.ok (oneChunk.metaBytes true ++ [0])) devSize granularity urandom ≠ .ok r := by
  have hload := encoding_inverse.1 oneChunk true "" 7
  refine ⟨hload, (encoding_inverse.2.1 _ _ _ _ _ _ _ hload).1, ?_⟩
  refine encoding_inverse.2.2 oneChunk true _ (by simp) fun i _ hi _ => ?_
  rw [List.getElem?_append_left hi]

end EraState

end Ublkera
