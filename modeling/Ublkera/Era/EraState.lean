import Mathlib.Tactic

/-!
# The era map of one device

`EraState` is `EraState` of `src/era.rs`: the device is cut into chunks of
`granularity` bytes, and each chunk carries the era in which it was last
written.  The two fields that the source checks in `EraState::new` are
fields of the structure here, so a value with a bad granularity or with the
wrong number of chunks cannot be built.

The machine integers of the source are Lean's fixed-width integers, so
`fetch_add` wraps as it does there.

This module holds the construction and the atomic operations, with the
lemmas that say what each of them does to one chunk.  `Ublkera.Era.Ranges`
holds the two loops over chunks.
-/

namespace Ublkera

/-- `u64::is_power_of_two`. -/
def isPowerOfTwo (n : UInt64) : Bool := n != 0 && n &&& (n - 1) == 0

/-- The check that `EraState::new` makes on the granularity. -/
def validGranularity (granularity : UInt64) : Bool :=
  isPowerOfTwo granularity && 4096 ≤ granularity

/-- `dev_size.div_ceil(granularity)`. -/
def divCeil (devSize granularity : UInt64) : Nat :=
  (devSize.toNat + granularity.toNat - 1) / granularity.toNat

@[ext]
structure EraState where
  granularity : UInt64
  devSize : UInt64
  /-- Random identity of the tracking history. -/
  generation : UInt64
  currentEra : UInt32
  eras : List UInt32
  granularity_valid : validGranularity granularity = true
  eras_length : eras.length = divCeil devSize granularity

namespace EraState

/-- `EraState::new`.  `urandom` is what the read of `/dev/urandom` gives. -/
def new (devSize granularity : UInt64) (urandom : Except String UInt64) :
    Except String EraState :=
  if h : validGranularity granularity = true then
    match urandom with
    | .ok generation =>
      .ok { granularity, devSize, generation, currentEra := 1
            eras := List.replicate (divCeil devSize granularity) 0
            granularity_valid := h
            eras_length := List.length_replicate }
    | .error e => .error s!"read /dev/urandom for generation id: {e}"
  else
    .error s!"granularity must be a power of two >= 4096 (got {granularity})"

def nrChunks (s : EraState) : Nat := s.eras.length

/-- The load of one chunk's era. -/
def era (s : EraState) (chunk : Nat) : UInt32 := s.eras.getD chunk 0

/-- `chunk.fetch_max(era)`. -/
def fetchMax (s : EraState) (chunk : Nat) (era : UInt32) : EraState :=
  { s with
    eras := s.eras.modify chunk (max · era)
    eras_length := by rw [List.length_modify]; exact s.eras_length }

/-- `current_era.fetch_add(1)`, which wraps at `u32`, and the pair
`(closed_era, new_current_era)` that `EraState::checkpoint` returns. -/
def checkpoint (s : EraState) : EraState × (UInt32 × UInt32) :=
  ({ s with currentEra := s.currentEra + 1 }, (s.currentEra, s.currentEra + 1))

/-- `EraState::mark_all_dirty`. -/
def markAllDirty (s : EraState) : EraState :=
  { s with
    eras := s.eras.map (max · s.currentEra)
    eras_length := by rw [List.length_map]; exact s.eras_length }

/-- `EraState::written_chunks`. -/
def writtenChunks (s : EraState) : Nat := s.eras.countP (0 < ·)

/-! ## The atomic operations -/

theorem granularity_pos (s : EraState) : 0 < s.granularity.toNat := by
  have h := s.granularity_valid
  simp only [validGranularity, Bool.and_eq_true, decide_eq_true_eq] at h
  have h2 := UInt64.le_iff_toNat_le.mp h.2
  have h3 : (4096 : UInt64).toNat = 4096 := rfl
  omega

theorem nrChunks_eq (s : EraState) :
    s.nrChunks = (s.devSize.toNat + s.granularity.toNat - 1) / s.granularity.toNat :=
  s.eras_length

theorem era_eq_getElem (s : EraState) {c : Nat} (h : c < s.eras.length) :
    s.era c = s.eras[c] := by
  simp [era, h]

/-- A byte of the device lies in a chunk of the map. -/
theorem chunk_lt_nrChunks (s : EraState) {x : Nat} (h : x < s.devSize.toNat) :
    x / s.granularity.toNat < s.nrChunks := by
  have hg := s.granularity_pos
  rw [nrChunks_eq, Nat.div_lt_iff_lt_mul hg]
  have h1 := Nat.div_add_mod (s.devSize.toNat + s.granularity.toNat - 1) s.granularity.toNat
  have h2 := Nat.mod_lt (s.devSize.toNat + s.granularity.toNat - 1) hg
  rw [Nat.mul_comm]
  omega

/-- A chunk of the map starts inside the device. -/
theorem chunk_start_lt (s : EraState) {chunk : Nat} (h : chunk < s.nrChunks) :
    chunk * s.granularity.toNat < s.devSize.toNat := by
  have hg := s.granularity_pos
  have hcomm := Nat.mul_comm chunk s.granularity.toNat
  rw [nrChunks_eq, Nat.lt_div_iff_mul_lt hg] at h
  omega

@[simp] theorem fetchMax_granularity (s : EraState) (c : Nat) (e : UInt32) :
    (s.fetchMax c e).granularity = s.granularity := rfl

@[simp] theorem fetchMax_devSize (s : EraState) (c : Nat) (e : UInt32) :
    (s.fetchMax c e).devSize = s.devSize := rfl

@[simp] theorem fetchMax_generation (s : EraState) (c : Nat) (e : UInt32) :
    (s.fetchMax c e).generation = s.generation := rfl

@[simp] theorem fetchMax_currentEra (s : EraState) (c : Nat) (e : UInt32) :
    (s.fetchMax c e).currentEra = s.currentEra := rfl

@[simp] theorem fetchMax_nrChunks (s : EraState) (c : Nat) (e : UInt32) :
    (s.fetchMax c e).nrChunks = s.nrChunks := by
  simp [nrChunks, fetchMax]

@[simp] theorem checkpoint_granularity (s : EraState) :
    s.checkpoint.1.granularity = s.granularity := rfl

@[simp] theorem checkpoint_devSize (s : EraState) :
    s.checkpoint.1.devSize = s.devSize := rfl

@[simp] theorem checkpoint_generation (s : EraState) :
    s.checkpoint.1.generation = s.generation := rfl

@[simp] theorem checkpoint_currentEra (s : EraState) :
    s.checkpoint.1.currentEra = s.currentEra + 1 := rfl

@[simp] theorem checkpoint_era (s : EraState) (c : Nat) :
    s.checkpoint.1.era c = s.era c := rfl

@[simp] theorem checkpoint_nrChunks (s : EraState) :
    s.checkpoint.1.nrChunks = s.nrChunks := rfl

@[simp] theorem checkpoint_closed (s : EraState) :
    s.checkpoint.2.1 = s.currentEra := rfl

@[simp] theorem markAllDirty_granularity (s : EraState) :
    s.markAllDirty.granularity = s.granularity := rfl

@[simp] theorem markAllDirty_devSize (s : EraState) :
    s.markAllDirty.devSize = s.devSize := rfl

@[simp] theorem markAllDirty_generation (s : EraState) :
    s.markAllDirty.generation = s.generation := rfl

@[simp] theorem markAllDirty_currentEra (s : EraState) :
    s.markAllDirty.currentEra = s.currentEra := rfl

/-- The new era counter is above the closed era, as long as the `u32` does
not wrap. -/
theorem lt_succ_of_noWrap {e : UInt32} (h : e.toNat + 1 < 2 ^ 32) : e < e + 1 := by
  have h1 : (1 : UInt32).toNat = 1 := rfl
  rw [UInt32.lt_iff_toNat_lt, UInt32.toNat_add, h1, Nat.mod_eq_of_lt h]
  omega

theorem era_fetchMax (s : EraState) (c d : Nat) (e : UInt32) (h : c < s.nrChunks) :
    (s.fetchMax c e).era d = if c = d then max (s.era d) e else s.era d := by
  simp only [era, fetchMax, List.getD_eq_getElem?_getD, List.getElem?_modify]
  split
  · rename_i hcd
    subst hcd
    rw [nrChunks] at h
    simp [List.getElem?_eq_getElem h]
  · simp

/-- A stamp never lowers an era. -/
theorem era_le_fetchMax (s : EraState) (c d : Nat) (e : UInt32) :
    s.era d ≤ (s.fetchMax c e).era d := by
  rcases Nat.lt_or_ge c s.nrChunks with h | h
  · rw [era_fetchMax s c d e h]
    split
    · rw [UInt32.le_iff_toNat_le, UInt32.toNat_max]
      omega
    · exact UInt32.le_refl _
  · rw [nrChunks] at h
    simp only [era, fetchMax, List.getD_eq_getElem?_getD, List.getElem?_modify]
    split
    · rename_i hcd
      subst hcd
      simp [List.getElem?_eq_none h]
    · simp

/-- After the stamp the chunk carries at least the stamped era. -/
theorem le_era_fetchMax_self (s : EraState) {c : Nat} (e : UInt32) (h : c < s.nrChunks) :
    e ≤ (s.fetchMax c e).era c := by
  rw [era_fetchMax s c c e h, if_pos rfl, UInt32.le_iff_toNat_le, UInt32.toNat_max]
  omega

/-- `mark_all_dirty` stamps every chunk with the current era. -/
theorem currentEra_le_era_markAllDirty (s : EraState) {c : Nat} (h : c < s.nrChunks) :
    s.currentEra ≤ s.markAllDirty.era c := by
  rw [nrChunks] at h
  simp only [era, markAllDirty, List.getD_eq_getElem?_getD, List.getElem?_map,
    List.getElem?_eq_getElem h]
  rw [UInt32.le_iff_toNat_le]
  simp only [Option.map_some, Option.getD_some, UInt32.toNat_max]
  omega

/-- What `EraState::new` gives. -/
theorem new_ok {devSize granularity g : UInt64} {map : EraState}
    (h : new devSize granularity (.ok g) = .ok map) :
    map.generation = g ∧ map.currentEra = 1 ∧ map.devSize = devSize ∧
      map.granularity = granularity := by
  unfold new at h
  split at h
  · obtain rfl := Except.ok.inj h
    exact ⟨rfl, rfl, rfl, rfl⟩
  · cases h

/-- A fresh map of a device of one chunk. -/
def oneChunk : EraState :=
  { granularity := 4096, devSize := 4096, generation := 7, currentEra := 1
    eras := [0], granularity_valid := by decide, eras_length := by decide }

theorem new_oneChunk : new 4096 4096 (.ok 7) = .ok oneChunk := rfl

end EraState

end Ublkera
