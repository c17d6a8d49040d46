import Ublkera.Era.EraState

/-!
# The chunk loops of the era map

Two loops of `src/era.rs` walk over chunks.  `mark_write` stamps the chunks
of a byte range, and `ranges_since` merges the chunks above a cursor into
byte ranges.  Other threads run between two iterations of either loop, so
both are given here by their bounds and by their loop bodies:

* `markRange` is the index range that `mark_write` computes before its loop,
  and `mem_markRange` says that it holds every chunk the request touches;
* `rangeStep` is one iteration of `ranges_since`, and `covers_rangeStep`
  says what the iteration adds to the bytes reported so far.

Byte offsets of reported ranges are `Nat`.  Each of them stays at or below
the device size (`chunk_end_le`), so the `u64` arithmetic of the source does
not wrap.
-/

namespace Ublkera

/-- A contiguous byte range of the device that changed. -/
structure DirtyRange where
  offset : Nat
  len : Nat
  deriving DecidableEq, Repr

namespace EraState

/-! ## The chunks of a request -/

/-- The first and the last chunk that `mark_write(offset, len)` stamps.  It
is `none` where the source returns before the loop. -/
def markRange (s : EraState) (offset len : UInt64) : Option (Nat × Nat) :=
  if len = 0 then none
  else
    let first := (offset / s.granularity).toNat
    if s.nrChunks ≤ first then none
    else
      let last := ((offset + len - 1) / s.granularity).toNat
      some (first, min last (s.nrChunks - 1))

/-- The bounds that `mark_write` slices with are bounds of the era list. -/
theorem markRange_bounds {s : EraState} {offset len : UInt64} {first last : Nat}
    (h : s.markRange offset len = some (first, last)) :
    first < s.nrChunks ∧ last < s.nrChunks := by
  simp only [markRange] at h
  split_ifs at h
  simp only [Option.some.injEq, Prod.mk.injEq] at h
  omega

/-- Two maps of the same shape compute the same chunk range. -/
theorem markRange_congr {s t : EraState} (hg : t.granularity = s.granularity)
    (hn : t.nrChunks = s.nrChunks) (offset len : UInt64) :
    t.markRange offset len = s.markRange offset len := by
  simp only [markRange, hg, hn]

/-- The last byte of a request that does not wrap. -/
theorem toNat_last {offset len : UInt64} (hpos : 0 < len.toNat)
    (hfit : offset.toNat + len.toNat < 2 ^ 64) :
    (offset + len - 1).toNat = offset.toNat + len.toNat - 1 := by
  have hone : (1 : UInt64).toNat = 1 := rfl
  have hsum : (offset + len).toNat = offset.toNat + len.toNat := by
    rw [UInt64.toNat_add]
    omega
  rw [UInt64.toNat_sub_of_le _ _ (by rw [UInt64.le_iff_toNat_le]; omega)]
  omega

/-- A request inside the device stamps the chunk of every byte it can
change. -/
theorem mem_markRange {s : EraState} {offset len : UInt64} {x : Nat}
    (hin : offset.toNat + len.toNat ≤ s.devSize.toNat)
    (hlo : offset.toNat ≤ x) (hhi : x < offset.toNat + len.toNat) :
    ∃ first last, s.markRange offset len = some (first, last) ∧
      first ≤ x / s.granularity.toNat ∧ x / s.granularity.toNat ≤ last := by
  have hsize := UInt64.toNat_lt s.devSize
  have hlast := toNat_last (show 0 < len.toNat by omega)
    (show offset.toNat + len.toNat < 2 ^ 64 by omega)
  have hchunk := s.chunk_lt_nrChunks (x := x) (by omega)
  have hfirst : offset.toNat / s.granularity.toNat ≤ x / s.granularity.toNat :=
    Nat.div_le_div_right hlo
  have hxlast : x / s.granularity.toNat
      ≤ (offset.toNat + len.toNat - 1) / s.granularity.toNat :=
    Nat.div_le_div_right (by omega)
  refine ⟨(offset / s.granularity).toNat,
    min ((offset + len - 1) / s.granularity).toNat (s.nrChunks - 1), ?_, ?_, ?_⟩
  · have hne : len ≠ 0 := by
      intro h0
      have : len.toNat = 0 := by rw [h0]; rfl
      omega
    simp only [markRange, UInt64.toNat_div]
    rw [if_neg hne, if_neg (by omega)]
  · rw [UInt64.toNat_div]
    exact hfirst
  · rw [UInt64.toNat_div, hlast]
    omega

/-- A stamped chunk holds a byte of the request. -/
theorem exists_mem_of_markRange {s : EraState} {offset len : UInt64} {first last c : Nat}
    (hin : offset.toNat + len.toNat ≤ s.devSize.toNat)
    (h : s.markRange offset len = some (first, last)) (hlo : first ≤ c) (hhi : c ≤ last) :
    ∃ x, offset.toNat ≤ x ∧ x < offset.toNat + len.toNat ∧
      x / s.granularity.toNat = c := by
  have hg := s.granularity_pos
  have hsize := UInt64.toNat_lt s.devSize
  simp only [markRange] at h
  split_ifs at h with hlen hfirst
  have hpos : 0 < len.toNat := by
    rcases Nat.eq_zero_or_pos len.toNat with h0 | h0
    · exact absurd (UInt64.toNat.inj h0) hlen
    · exact h0
  have hlast := toNat_last hpos (show offset.toNat + len.toNat < 2 ^ 64 by omega)
  simp only [Option.some.injEq, Prod.mk.injEq, UInt64.toNat_div, hlast] at h
  obtain ⟨rfl, rfl⟩ := h
  have hc : c * s.granularity.toNat ≤ offset.toNat + len.toNat - 1 := by
    rw [← Nat.le_div_iff_mul_le hg]
    omega
  rcases Nat.lt_or_ge offset.toNat (c * s.granularity.toNat) with hlt | hge
  · exact ⟨c * s.granularity.toNat, by omega, by omega, Nat.mul_div_cancel c hg⟩
  · have hle : c ≤ offset.toNat / s.granularity.toNat :=
      (Nat.le_div_iff_mul_le hg).mpr hge
    exact ⟨offset.toNat, Nat.le_refl _, by omega, by omega⟩

/-! ## The reported ranges -/

/-- The length of the chunk at `idx`: `granularity.min(dev_size - offset)`. -/
def chunkLen (s : EraState) (idx : Nat) : Nat :=
  min s.granularity.toNat (s.devSize.toNat - idx * s.granularity.toNat)

/-- A range that starts where the last one ends is merged into it. -/
def pushRange (ranges : List DirtyRange) (offset len : Nat) : List DirtyRange :=
  match ranges.getLast? with
  | some r =>
    if r.offset + r.len = offset then ranges.dropLast ++ [{ r with len := r.len + len }]
    else ranges ++ [{ offset, len }]
  | none => [{ offset, len }]

/-- One iteration of the loop of `ranges_since`. -/
def rangeStep (s : EraState) (since : UInt32) (ranges : List DirtyRange) (idx : Nat) :
    List DirtyRange :=
  if s.era idx ≤ since then ranges
  else pushRange ranges (idx * s.granularity.toNat) (s.chunkLen idx)

/-- `EraState::ranges_since`, with no other thread running. -/
def rangesSince (s : EraState) (since : UInt32) : List DirtyRange :=
  (List.range s.nrChunks).foldl (s.rangeStep since) []

/-- Whether a byte lies in one of the ranges. -/
def covers (ranges : List DirtyRange) (x : Nat) : Bool :=
  ranges.any fun r => decide (r.offset ≤ x) && decide (x < r.offset + r.len)

@[simp] theorem covers_nil (x : Nat) : covers [] x = false := rfl

theorem covers_append (left right : List DirtyRange) (x : Nat) :
    covers (left ++ right) x = (covers left x || covers right x) :=
  List.any_append

theorem covers_singleton (offset len x : Nat) :
    covers [{ offset, len }] x = true ↔ offset ≤ x ∧ x < offset + len := by
  simp [covers]

/-- A merge covers what the two parts cover. -/
theorem covers_pushRange (ranges : List DirtyRange) (offset len x : Nat) :
    covers (pushRange ranges offset len) x = true ↔
      covers ranges x = true ∨ (offset ≤ x ∧ x < offset + len) := by
  unfold pushRange
  rcases List.eq_nil_or_concat ranges with rfl | ⟨init, r, rfl⟩
  · simp [covers_singleton]
  · simp only [List.concat_eq_append, List.getLast?_append, List.getLast?_singleton,
      Option.some_or, List.dropLast_append_cons, List.dropLast_singleton, List.append_nil]
    have hr : covers [r] x = true ↔ r.offset ≤ x ∧ x < r.offset + r.len :=
      covers_singleton r.offset r.len x
    split
    · rename_i hadj
      simp only [covers_append, Bool.or_eq_true, covers_singleton, hr]
      constructor
      · intro h
        rcases h with h | h
        · exact Or.inl (Or.inl h)
        · rcases Nat.lt_or_ge x offset with hx | hx
          · exact Or.inl (Or.inr ⟨h.1, by omega⟩)
          · exact Or.inr ⟨hx, by omega⟩
      · intro h
        rcases h with (h | h) | h
        · exact Or.inl h
        · exact Or.inr ⟨h.1, by omega⟩
        · exact Or.inr ⟨by omega, by omega⟩
    · simp only [covers_append, Bool.or_eq_true, covers_singleton, hr]

/-- A byte of the device lies in the byte range of its chunk, and in no
other. -/
theorem mem_chunk_iff (s : EraState) {idx x : Nat} (hx : x < s.devSize.toNat) :
    (idx * s.granularity.toNat ≤ x ∧
        x < idx * s.granularity.toNat + s.chunkLen idx) ↔
      x / s.granularity.toNat = idx := by
  have hg := s.granularity_pos
  rw [Nat.div_eq_iff hg, chunkLen]
  omega

/-- A reported chunk ends inside the device. -/
theorem chunk_end_le (s : EraState) {idx : Nat} (h : idx < s.nrChunks) :
    idx * s.granularity.toNat + s.chunkLen idx ≤ s.devSize.toNat := by
  have := s.chunk_start_lt h
  rw [chunkLen]
  omega

/-- An iteration adds the bytes of its chunk when the chunk is above the
cursor, and no others. -/
theorem covers_rangeStep (s : EraState) (since : UInt32) (ranges : List DirtyRange)
    {idx x : Nat} (hx : x < s.devSize.toNat) :
    covers (s.rangeStep since ranges idx) x = true ↔
      covers ranges x = true ∨ (since < s.era idx ∧ x / s.granularity.toNat = idx) := by
  unfold rangeStep
  split
  · rename_i hle
    have hnot : ¬ since < s.era idx := UInt32.not_lt.mpr hle
    simp [hnot]
  · rename_i hgt
    have hlt : since < s.era idx := UInt32.not_le.mp hgt
    rw [covers_pushRange, s.mem_chunk_iff hx]
    simp [hlt]

/-- The first `n` iterations report the bytes of the chunks below `n` that
are above the cursor. -/
theorem covers_foldl_rangeStep (s : EraState) (since : UInt32) (n : Nat) {x : Nat}
    (hx : x < s.devSize.toNat) :
    covers ((List.range n).foldl (s.rangeStep since) []) x = true ↔
      since < s.era (x / s.granularity.toNat) ∧ x / s.granularity.toNat < n := by
  induction n with
  | zero => simp
  | succ n ih =>
    rw [List.range_succ, List.foldl_append, List.foldl_cons, List.foldl_nil,
      s.covers_rangeStep since _ hx, ih]
    constructor
    · intro h
      rcases h with h | ⟨hera, hn⟩
      · exact ⟨h.1, by omega⟩
      · rw [hn]
        exact ⟨hera, by omega⟩
    · intro ⟨hera, hn⟩
      rcases Nat.eq_or_lt_of_le (Nat.le_of_lt_succ hn) with heq | hlt
      · exact Or.inr ⟨heq ▸ hera, heq⟩
      · exact Or.inl ⟨hera, hlt⟩

/-- `ranges_since` reports exactly the bytes of the chunks above the
cursor. -/
theorem covers_rangesSince (s : EraState) (since : UInt32) {x : Nat}
    (hx : x < s.devSize.toNat) :
    covers (s.rangesSince since) x = true ↔ since < s.era (x / s.granularity.toNat) := by
  rw [rangesSince, s.covers_foldl_rangeStep since s.nrChunks hx]
  have := s.chunk_lt_nrChunks hx
  constructor
  · intro h
    exact h.1
  · intro h
    exact ⟨h, this⟩

end EraState

end Ublkera
