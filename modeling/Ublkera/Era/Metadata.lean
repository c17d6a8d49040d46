import Ublkera.Era.Crc32
import Ublkera.Era.EraState

/-!
# The metadata file

`metaBytes` is the byte string that `EraState::save` writes and `load` is
`EraState::load`, with the texts of its errors.  The file operations of
`save` are in `Ublkera.Meta.Save`; here is what goes into the file.

`load_metaBytes` is the round trip: a complete file loads as the state and
the flag that it was written from.
-/

namespace Ublkera

open LittleEndian

/-! ## The layout -/

/-- `META_MAGIC`: `b"UBLKERA1"`. -/
def metaMagic : Bytes := [85, 66, 76, 75, 69, 82, 65, 49]

def metaVersion : UInt32 := 4

/-- `HDR_LEN`. -/
def hdrLen : Nat := 56

/-- `CRC_OFF`. -/
def crcOff : Nat := 52

namespace EraState

/-- The fields of the header in file order. -/
def headerFields (s : EraState) (clean : Bool) (crc : UInt32) : List Bytes :=
  [metaMagic, u32Bytes metaVersion, u64Bytes s.granularity, u64Bytes s.devSize,
    u32Bytes s.currentEra, u64Bytes (UInt64.ofNat s.nrChunks),
    u32Bytes (if clean then 1 else 0), u64Bytes s.generation, u32Bytes crc]

/-- The eras of the chunks. -/
def body (s : EraState) : Bytes := (s.eras.map u32Bytes).flatten

/-- The buffer of `save`: the checksum runs over the buffer with a zero in
its own field, and is written over that zero. -/
def metaBytes (s : EraState) (clean : Bool) : Bytes :=
  let buf := (s.headerFields clean 0).flatten ++ s.body
  patch buf crcOff (u32Bytes (crc32 [buf]))

/-! ## Reading it back -/

/-- What `load` reads from the header. -/
structure Header where
  magic : Bytes
  version : UInt32
  granularity : UInt64
  devSize : UInt64
  currentEra : UInt32
  nrChunks : UInt64
  clean : Bool
  generation : UInt64
  crc : UInt32

def readHeader (raw : Bytes) : Header where
  magic := slice raw 0 8
  version := u32Of (slice raw 8 12)
  granularity := u64Of (slice raw 12 20)
  devSize := u64Of (slice raw 20 28)
  currentEra := u32Of (slice raw 28 32)
  nrChunks := u64Of (slice raw 32 40)
  clean := u32Of (slice raw 40 44) != 0
  generation := u64Of (slice raw 44 52)
  crc := u32Of (slice raw crcOff (crcOff + 4))

/-- The checksum that `load` computes: the checksum field reads as zero. -/
def rawCrc (raw : Bytes) : UInt32 :=
  crc32 [patch (raw.take hdrLen) crcOff [0, 0, 0, 0], raw.drop hdrLen]

def readEras (body : Bytes) (nrChunks : Nat) : List UInt32 :=
  (List.range nrChunks).map fun i => u32Of (slice body (i * 4) (i * 4 + 4))

/-- `EraState::load`.  `file` is what the read of the file gives and
`urandom` what the read inside `EraState::new` gives. -/
def load (path : String) (file : Except String Bytes) (devSize granularity : UInt64)
    (urandom : Except String UInt64) : Except String (EraState × Bool) :=
  match file with
  | .error e => .error s!"read {path}: {e}"
  | .ok raw =>
    let hdr := readHeader raw
    if raw.length < hdrLen then .error s!"{path}: truncated metadata file"
    else if hdr.magic ≠ metaMagic then .error s!"{path}: not a ublkera metadata file"
    else if hdr.version ≠ metaVersion then
      .error s!"{path}: unsupported metadata version {hdr.version}"
    else if hdr.crc ≠ rawCrc raw then
      .error (s!"{path}: checksum mismatch (corrupted metadata); delete it to start a " ++
        "fresh history (consumers then fall back to a full copy)")
    else if hdr.granularity ≠ granularity then
      .error (s!"metadata granularity {hdr.granularity} does not match requested " ++
        s!"{granularity}; delete {path} to start fresh")
    else if hdr.devSize ≠ devSize then
      .error (s!"metadata device size {hdr.devSize} does not match backing size " ++
        s!"{devSize}; delete {path} to start fresh")
    else
      match EraState.new devSize granularity urandom with
      | .error e => .error e
      | .ok state =>
        if hdr.nrChunks ≠ UInt64.ofNat state.nrChunks then
          .error "metadata chunk count mismatch"
        else if (raw.drop hdrLen).length ≠ state.nrChunks * 4 then
          .error "metadata body length mismatch"
        else
          .ok ({ state with
            generation := hdr.generation
            currentEra := hdr.currentEra
            eras := readEras (raw.drop hdrLen) state.nrChunks
            eras_length := by
              rw [readEras, List.length_map, List.length_range]
              exact state.eras_length }, hdr.clean)

/-- What `add` goes on with after a load: a map that was not closed cleanly
counts as changed everywhere. -/
def recover (s : EraState) (clean : Bool) : EraState :=
  if clean then s else s.markAllDirty

@[simp] theorem recover_currentEra (s : EraState) (clean : Bool) :
    (s.recover clean).currentEra = s.currentEra := by
  cases clean <;> rfl

@[simp] theorem recover_generation (s : EraState) (clean : Bool) :
    (s.recover clean).generation = s.generation := by
  cases clean <;> rfl

@[simp] theorem recover_granularity (s : EraState) (clean : Bool) :
    (s.recover clean).granularity = s.granularity := by
  cases clean <;> rfl

@[simp] theorem recover_devSize (s : EraState) (clean : Bool) :
    (s.recover clean).devSize = s.devSize := by
  cases clean <;> rfl

/-! ## What a load has checked -/

/-- A load that succeeds has passed every check, in the order of the
source, and has filled in a fresh map. -/
theorem load_eq_ok {path : String} {raw : Bytes} {devSize granularity : UInt64}
    {urandom : Except String UInt64} {s : EraState} {clean : Bool}
    (h : load path (.ok raw) devSize granularity urandom = .ok (s, clean)) :
    (hdrLen ≤ raw.length ∧ (readHeader raw).magic = metaMagic ∧
      (readHeader raw).version = metaVersion ∧ (readHeader raw).crc = rawCrc raw ∧
      (readHeader raw).granularity = granularity ∧ (readHeader raw).devSize = devSize) ∧
    (∃ g, urandom = .ok g) ∧
    (readHeader raw).nrChunks = UInt64.ofNat (divCeil devSize granularity) ∧
    (raw.drop hdrLen).length = divCeil devSize granularity * 4 ∧
    s.granularity = granularity ∧ s.devSize = devSize ∧
    s.generation = (readHeader raw).generation ∧
    s.currentEra = (readHeader raw).currentEra ∧
    s.eras = readEras (raw.drop hdrLen) (divCeil devSize granularity) ∧
    clean = (readHeader raw).clean := by
  simp only [load] at h
  split_ifs at h with hlen hmagic hversion hcrc hgran hsize
  split at h
  · cases h
  · rename_i state hnew
    split_ifs at h with hchunks hbody
    obtain ⟨hs, hclean⟩ := Prod.mk.inj (Except.ok.inj h)
    unfold new at hnew
    split at hnew
    · cases urandom with
      | error e => cases hnew
      | ok g =>
        have hnr : state.nrChunks = divCeil devSize granularity := by
          rw [← Except.ok.inj hnew]
          exact List.length_replicate
        obtain rfl := Except.ok.inj hnew
        rw [not_not] at hmagic hversion hcrc hgran hsize hchunks hbody
        rw [hnr] at hchunks hbody
        subst hs
        refine ⟨⟨by omega, hmagic, hversion, hcrc, hgran, hsize⟩, ⟨g, rfl⟩, hchunks, hbody, rfl,
          rfl, rfl, rfl, ?_, hclean.symm⟩
        exact congrArg (readEras (raw.drop hdrLen)) hnr
    · cases hnew

/-- A load that succeeds has found a body of the right length, and returns
the flag and the fields of the header. -/
theorem load_ok {path : String} {raw : Bytes} {devSize granularity : UInt64}
    {urandom : Except String UInt64} {s : EraState} {clean : Bool}
    (h : load path (.ok raw) devSize granularity urandom = .ok (s, clean)) :
    (∃ g, urandom = .ok g) ∧ hdrLen ≤ raw.length ∧
      raw.length = hdrLen + divCeil devSize granularity * 4 ∧
      s.granularity = granularity ∧ s.devSize = devSize ∧
      s.generation = (readHeader raw).generation ∧
      s.currentEra = (readHeader raw).currentEra ∧
      s.eras = readEras (raw.drop hdrLen) (divCeil devSize granularity) ∧
      clean = (readHeader raw).clean := by
  obtain ⟨⟨hlen, -⟩, hrandom, -, hbody, hfields⟩ := load_eq_ok h
  rw [List.length_drop] at hbody
  exact ⟨hrandom, hlen, by omega, hfields⟩

/-- The bytes decide what is loaded; the name and the random generation that
`EraState::new` draws inside do not matter. -/
theorem load_unique {path path' : String} {raw : Bytes} {devSize granularity : UInt64}
    {urandom urandom' : Except String UInt64} {s s' : EraState} {clean clean' : Bool}
    (h : load path (.ok raw) devSize granularity urandom = .ok (s, clean))
    (h' : load path' (.ok raw) devSize granularity urandom' = .ok (s', clean')) :
    s' = s ∧ clean' = clean := by
  obtain ⟨-, -, -, hg, hd, hgen, hcur, heras, hclean⟩ := load_ok h
  obtain ⟨-, -, -, hg', hd', hgen', hcur', heras', hclean'⟩ := load_ok h'
  refine ⟨?_, hclean'.trans hclean.symm⟩
  ext1
  · exact hg'.trans hg.symm
  · exact hd'.trans hd.symm
  · exact hgen'.trans hgen.symm
  · exact hcur'.trans hcur.symm
  · exact heras'.trans heras.symm

/-! ## The round trip -/

theorem headerFields_length (s : EraState) (clean : Bool) (crc : UInt32) :
    (s.headerFields clean crc).flatten.length = hdrLen := by
  simp [headerFields, metaMagic, hdrLen]

theorem body_length (s : EraState) : s.body.length = s.nrChunks * 4 := by
  unfold body nrChunks
  induction s.eras with
  | nil => rfl
  | cons e eras ih =>
    rw [List.map_cons, List.flatten_cons, List.length_append, ih, u32Bytes_length,
      List.length_cons]
    omega

/-- The checksum that `save` writes. -/
def metaCrc (s : EraState) (clean : Bool) : UInt32 :=
  crc32 [(s.headerFields clean 0).flatten, s.body]

/-- The first eight fields of the header; the ninth is the checksum. -/
theorem headerFields_eq (s : EraState) (clean : Bool) (crc : UInt32) :
    (s.headerFields clean crc).flatten
      = ((s.headerFields clean 0).take 8).flatten ++ u32Bytes crc := by
  simp [headerFields]

theorem headerFields_take_length (s : EraState) (clean : Bool) :
    ((s.headerFields clean 0).take 8).flatten.length = crcOff := by
  simp [headerFields, metaMagic, crcOff]

/-- The patched buffer is the buffer with the checksum in its field. -/
theorem metaBytes_eq (s : EraState) (clean : Bool) :
    s.metaBytes clean = (s.headerFields clean (s.metaCrc clean)).flatten ++ s.body := by
  have hcrc : crc32 [(s.headerFields clean 0).flatten ++ s.body] = s.metaCrc clean := by
    rw [metaCrc, ← crc32_flatten [_, s.body]]
    simp
  rw [metaBytes, hcrc, headerFields_eq s clean 0, headerFields_eq s clean (s.metaCrc clean)]
  rw [← headerFields_take_length s clean]
  exact patch_append _ _ _ _ (by simp)

theorem metaBytes_length (s : EraState) (clean : Bool) :
    (s.metaBytes clean).length = hdrLen + s.nrChunks * 4 := by
  rw [metaBytes_eq, List.length_append, headerFields_length, body_length]

/-- Every header field of a complete file reads back. -/
theorem readHeader_metaBytes (s : EraState) (clean : Bool) :
    readHeader (s.metaBytes clean) =
      { magic := metaMagic, version := metaVersion, granularity := s.granularity
        devSize := s.devSize, currentEra := s.currentEra
        nrChunks := UInt64.ofNat s.nrChunks, clean, generation := s.generation
        crc := s.metaCrc clean } := by
  have hfield : ∀ (before : List Bytes) (field : Bytes) (after : List Bytes) {i j : Nat},
      s.headerFields clean (s.metaCrc clean) = before ++ field :: after →
      i = before.flatten.length → j = i + field.length →
      slice (s.metaBytes clean) i j = field := by
    intro before field after i j hsplit hi hj
    have hle : j ≤ (s.headerFields clean (s.metaCrc clean)).flatten.length := by
      rw [hsplit, List.flatten_append, List.flatten_cons, List.length_append,
        List.length_append]
      omega
    rw [metaBytes_eq, slice_append_left _ _ hle, hsplit]
    exact slice_flatten before field after hi hj
  have hclean : (u32Of (u32Bytes (if clean then 1 else 0)) != 0) = clean := by
    cases clean <;> simp
  have hmagic : slice (s.metaBytes clean) 0 8 = metaMagic :=
    hfield [] _ _ rfl rfl rfl
  have hversion : slice (s.metaBytes clean) 8 12 = u32Bytes metaVersion :=
    hfield ((s.headerFields clean 0).take 1) _ _ rfl rfl rfl
  have hgran : slice (s.metaBytes clean) 12 20 = u64Bytes s.granularity :=
    hfield ((s.headerFields clean 0).take 2) _ _ rfl rfl rfl
  have hsize : slice (s.metaBytes clean) 20 28 = u64Bytes s.devSize :=
    hfield ((s.headerFields clean 0).take 3) _ _ rfl rfl rfl
  have hera : slice (s.metaBytes clean) 28 32 = u32Bytes s.currentEra :=
    hfield ((s.headerFields clean 0).take 4) _ _ rfl rfl rfl
  have hchunks : slice (s.metaBytes clean) 32 40 = u64Bytes (UInt64.ofNat s.nrChunks) :=
    hfield ((s.headerFields clean 0).take 5) _ _ rfl rfl rfl
  have hflag : slice (s.metaBytes clean) 40 44 = u32Bytes (if clean then 1 else 0) :=
    hfield ((s.headerFields clean 0).take 6) _ _ rfl rfl rfl
  have hgen : slice (s.metaBytes clean) 44 52 = u64Bytes s.generation :=
    hfield ((s.headerFields clean 0).take 7) _ _ rfl rfl rfl
  have hcrc : slice (s.metaBytes clean) crcOff (crcOff + 4) = u32Bytes (s.metaCrc clean) :=
    hfield ((s.headerFields clean 0).take 8) _ _ rfl
      (headerFields_take_length s clean).symm rfl
  unfold readHeader
  rw [hmagic, hversion, hgran, hsize, hera, hchunks, hflag, hgen, hcrc, hclean]
  simp only [u32Of_u32Bytes, u64Of_u64Bytes]

/-- `load` computes the checksum that `save` wrote. -/
theorem rawCrc_metaBytes (s : EraState) (clean : Bool) :
    rawCrc (s.metaBytes clean) = s.metaCrc clean := by
  have hlen := headerFields_length s clean (s.metaCrc clean)
  have htake : (s.metaBytes clean).take hdrLen
      = (s.headerFields clean (s.metaCrc clean)).flatten := by
    rw [metaBytes_eq, ← hlen, List.take_left]
  have hdrop : (s.metaBytes clean).drop hdrLen = s.body := by
    rw [metaBytes_eq, ← hlen, List.drop_left]
  have hzero : u32Bytes 0 = [0, 0, 0, 0] := rfl
  have hpatch : patch (s.headerFields clean (s.metaCrc clean)).flatten crcOff [0, 0, 0, 0]
      = (s.headerFields clean 0).flatten := by
    rw [headerFields_eq s clean (s.metaCrc clean), headerFields_eq s clean 0, hzero,
      ← headerFields_take_length s clean]
    have h := patch_append ((s.headerFields clean 0).take 8).flatten
      (u32Bytes (s.metaCrc clean)) [0, 0, 0, 0] [] (by simp)
    simpa using h
  rw [rawCrc, htake, hdrop, hpatch, metaCrc]

theorem readEras_body (s : EraState) : readEras s.body s.nrChunks = s.eras := by
  apply List.ext_getElem
  · rw [readEras, List.length_map, List.length_range]
    rfl
  · intro i h1 h2
    simp only [readEras, List.getElem_map, List.getElem_range, body]
    rw [slice_words u32Bytes 4 u32Bytes_length s.eras i h2, u32Of_u32Bytes]

/-- `EraState::new` gives a map of the same shape. -/
theorem new_shape (s : EraState) (g : UInt64) :
    ∃ t, EraState.new s.devSize s.granularity (.ok g) = .ok t ∧
      t.granularity = s.granularity ∧ t.devSize = s.devSize ∧ t.nrChunks = s.nrChunks := by
  rw [new, dif_pos s.granularity_valid]
  refine ⟨_, rfl, rfl, rfl, ?_⟩
  rw [nrChunks, nrChunks, List.length_replicate, s.eras_length]

/-- A complete file loads as the state and the flag that it was written
from. -/
theorem load_metaBytes (s : EraState) (clean : Bool) (path : String) (g : UInt64) :
    load path (.ok (s.metaBytes clean)) s.devSize s.granularity (.ok g) = .ok (s, clean) := by
  obtain ⟨t, hnew, hgran, hsize, hnr⟩ := s.new_shape g
  have hlen := s.metaBytes_length clean
  have hdrop : (s.metaBytes clean).drop hdrLen = s.body := by
    rw [metaBytes_eq, ← headerFields_length s clean (s.metaCrc clean), List.drop_left]
  have hlong : ¬ (s.metaBytes clean).length < hdrLen := by
    rw [hlen]
    omega
  simp only [load, readHeader_metaBytes, rawCrc_metaBytes, hnew, hdrop, body_length, hnr,
    ne_eq, not_true_eq_false, if_false, hlong, Except.ok.injEq, Prod.mk.injEq, and_true]
  ext1
  · exact hgran
  · exact hsize
  · rfl
  · rfl
  · exact readEras_body s

/-- A file that was cut off does not load.  So what loads from a prefix of a
complete file is the state that the file was written from. -/
theorem load_take {s snap : EraState} {clean clean' : Bool} {pos : Nat} {path : String}
    {urandom : Except String UInt64}
    (h : load path (.ok ((s.metaBytes clean).take pos)) s.devSize s.granularity urandom
      = .ok (snap, clean')) : snap = s ∧ clean' = clean := by
  obtain ⟨⟨g, rfl⟩, -, hlen, -⟩ := load_ok h
  have hfull : (s.metaBytes clean).length ≤ pos := by
    rw [List.length_take, metaBytes_length, nrChunks, s.eras_length] at hlen
    rw [metaBytes_length, nrChunks, s.eras_length]
    omega
  rw [List.take_of_length_le hfull, load_metaBytes] at h
  obtain ⟨hs, hclean⟩ := Prod.mk.inj (Except.ok.inj h)
  exact ⟨hs.symm, hclean.symm⟩

end EraState

end Ublkera
