import Ublkera.Fault.Model
import Ublkera.Lib.Chunks
import Ublkera.Lib.Mix

/-!
# Scenario patterns

`fill_pattern` of `ublkfault/src/scenario.rs` fills a buffer for a device
offset.  Every 4K block has a generator of its own, seeded with the name and
the number of the block, and every 8 bytes are one output of it.

* `anchored`: the bytes depend on the device offset alone.
* `head_eq`: the first 8 bytes of a block are the first output of its
  generator, and `Fault.Rng.next_injective` says that different seeds have
  different ones.
* `patterns_tell_apart` puts these together.
-/

namespace Ublkera

namespace Fault

/-- The output step only mixes, so no two states have the same output. -/
theorem Rng.next_injective : Function.Injective fun r : Rng => r.next.1 := by
  intro r r' h
  have hfold := Mix.shift_injective_u64 (k := 31) (by decide) h
  have hmul := Mix.mul_injective_u64 (by decide) hfold
  have hfold' := Mix.shift_injective_u64 (k := 27) (by decide) hmul
  have hmul' := Mix.mul_injective_u64 (by decide) hfold'
  have hfold'' := Mix.shift_injective_u64 (k := 30) (by decide) hmul'
  have hstate := Mix.add_injective_u64 0x9E3779B97F4A7C15 hfold''
  exact (Rng.mk.injEq ..).mpr hstate

end Fault

namespace Scenario

open LittleEndian Fault Chunks

/-! ## The filler -/

/-- The hash of the name: FNV-1a, but with the multiplier of the source. -/
def patternHash (name : String) : UInt64 :=
  name.toUTF8.data.toList.foldl (fun h b => (h ^^^ b.toUInt64) * 0x1000000001b3)
    0xcbf29ce484222325

/-- Eight bytes, or the front of them. -/
def fillChunk (rng : Rng) (len : Nat) : Bytes × Rng :=
  ((u64Bytes rng.next.1).take len, rng.next.2)

def fillBlock (rng : Rng) (len : Nat) : Bytes := fill fillChunk rng (lens 8 len)

def blockRng (h devOff : UInt64) (i : Nat) : Rng :=
  { state := h ^^^ (devOff / 4096 + UInt64.ofNat i) }

/-- `fill_pattern` of a buffer of `len` bytes. -/
def fillPattern (name : String) (devOff : UInt64) (len : Nat) : Bytes :=
  if name = "zero" then List.replicate len 0
  else
    fill (fun i n => (fillBlock (blockRng (patternHash name) devOff i) n, i + 1)) 0
      (lens 4096 len)

/-! ## The bytes of a block -/

theorem generates_chunk :
    Generates 8 fillChunk (fun rng => u64Bytes rng.next.1) (fun rng => rng.next.2) :=
  ⟨fun _ => u64Bytes_length _, fun _ _ _ => rfl⟩

theorem generates_block (h devOff : UInt64) :
    Generates 4096 (fun i n => (fillBlock (blockRng h devOff i) n, i + 1))
      (fun i => fillBlock (blockRng h devOff i) 4096) (· + 1) where
  length i := length_fill generates_chunk (by decide) _ 4096
  next i n hn := by
    rw [fillBlock, fill_eq_take generates_chunk (by decide) _ hn]
    rfl

theorem fillPattern_of_ne {name : String} (h : name ≠ "zero") (devOff : UInt64) (len : Nat) :
    fillPattern name devOff len
      = fill (fun i n => (fillBlock (blockRng (patternHash name) devOff i) n, i + 1)) 0
          (lens 4096 len) := if_neg h

theorem fillPattern_length (name : String) (devOff : UInt64) (len : Nat) :
    (fillPattern name devOff len).length = len := by
  by_cases h : name = "zero"
  · rw [fillPattern, if_pos h, List.length_replicate]
  · rw [fillPattern_of_ne h, length_fill (generates_block _ _) (by decide)]

theorem getElem?_fillPattern {name : String} (h : name ≠ "zero") (devOff : UInt64) {len k : Nat}
    (hk : k < len) :
    (fillPattern name devOff len)[k]?
      = (fillBlock (blockRng (patternHash name) devOff (k / 4096)) 4096)[k % 4096]? := by
  rw [fillPattern_of_ne h, getElem?_fill (generates_block _ _) (by decide) 0 hk,
    show (fun i : Nat => i + 1) = Nat.succ from rfl, Nat.succ_iterate, Nat.zero_add]

/-! ## Device offsets -/

/-- `dev_off` is 4K-aligned. -/
def Aligned (devOff : UInt64) : Prop := devOff.toNat % 4096 = 0

instance (devOff : UInt64) : Decidable (Aligned devOff) := inferInstanceAs (Decidable (_ = _))

theorem Aligned.toNat_eq {devOff : UInt64} (h : Aligned devOff) :
    devOff.toNat = 4096 * (devOff / 4096).toNat := by
  unfold Aligned at h
  have hpage : (4096 : UInt64).toNat = 4096 := rfl
  rw [UInt64.toNat_div, hpage]
  omega

/-- Two aligned offsets that have a block in common count it to the same
generator. -/
theorem blockRng_shift (h : UInt64) {o o' : UInt64} (ho : Aligned o) (ho' : Aligned o')
    (hle : o.toNat ≤ o'.toNat) (k : Nat) :
    blockRng h o ((o'.toNat - o.toNat + k) / 4096) = blockRng h o' (k / 4096) := by
  have hnat := ho.toNat_eq
  have hnat' := ho'.toNat_eq
  have hdiv : (o'.toNat - o.toNat + k) / 4096
      = (o' / 4096).toNat - (o / 4096).toNat + k / 4096 := by omega
  have hblock : o / 4096 + UInt64.ofNat ((o' / 4096).toNat - (o / 4096).toNat) = o' / 4096 := by
    apply UInt64.toNat.inj
    have hlt := UInt64.toNat_lt (o' / 4096)
    rw [UInt64.toNat_add, UInt64.toNat_ofNat']
    omega
  rw [blockRng, blockRng, hdiv, UInt64.ofNat_add, ← UInt64.add_assoc, hblock]

/-- A buffer for a window of the device holds the bytes that a buffer around
it holds there. -/
theorem anchored (name : String) {o o' : UInt64} {l l' : Nat} (ho : Aligned o) (ho' : Aligned o')
    (hlo : o.toNat ≤ o'.toNat) (hhi : o'.toNat + l' ≤ o.toNat + l) :
    fillPattern name o' l'
      = slice (fillPattern name o l) (o'.toNat - o.toNat) (o'.toNat - o.toNat + l') := by
  have hslice : (slice (fillPattern name o l) (o'.toNat - o.toNat)
      (o'.toNat - o.toNat + l')).length = l' := by
    rw [slice_length _ (by rw [fillPattern_length]; omega)]
    omega
  apply List.ext_getElem?
  intro k
  rcases Nat.lt_or_ge k l' with hk | hk
  · rw [getElem?_slice _ (by omega)]
    by_cases h : name = "zero"
    · rw [fillPattern, fillPattern, if_pos h, if_pos h, List.getElem?_replicate_of_lt hk,
        List.getElem?_replicate_of_lt (by omega)]
    · have hmod : (o'.toNat - o.toNat + k) % 4096 = k % 4096 := by
        have hnat := ho.toNat_eq
        have hnat' := ho'.toNat_eq
        omega
      rw [getElem?_fillPattern h o' hk, getElem?_fillPattern h o (by omega),
        blockRng_shift _ ho ho' hlo, hmod]
  · rw [List.getElem?_eq_none (by rw [fillPattern_length]; exact hk),
      List.getElem?_eq_none (by rw [hslice]; exact hk)]

/-! ## The first 8 bytes of a block -/

/-- The seed of the block at an aligned offset. -/
def seed (name : String) (devOff : UInt64) : UInt64 := patternHash name ^^^ (devOff / 4096)

theorem head_eq {name : String} (h : name ≠ "zero") (devOff : UInt64) {len : Nat}
    (hlen : 8 ≤ len) :
    (fillPattern name devOff len).take 8 = u64Bytes (Rng.mk (seed name devOff)).next.1 := by
  have hrng : blockRng (patternHash name) devOff 0 = Rng.mk (seed name devOff) := by
    have hzero : UInt64.ofNat 0 = 0 := rfl
    rw [blockRng, seed, hzero, UInt64.add_zero]
  rw [fillPattern_of_ne h, take_fill (generates_block _ _) (by decide) _ (by decide) hlen, hrng,
    fillBlock, take_fill generates_chunk (by decide) _ (by decide) (by decide)]
  exact List.take_of_length_le (Nat.le_of_eq (u64Bytes_length _))

theorem seed_eq_of_head {name name' : String} (h : name ≠ "zero") (h' : name' ≠ "zero")
    {o o' : UInt64} {l l' : Nat} (hl : 8 ≤ l) (hl' : 8 ≤ l')
    (heq : (fillPattern name o l).take 8 = (fillPattern name' o' l').take 8) :
    seed name o = seed name' o' := by
  rw [head_eq h o hl, head_eq h' o' hl'] at heq
  have hword := congrArg u64Of heq
  rw [u64Of_u64Bytes, u64Of_u64Bytes] at hword
  exact Rng.mk.inj (Rng.next_injective hword)

/-- The state whose output is zero. -/
def zeroState : UInt64 := 0x61c8864680b583eb

/-- A block of another pattern begins like the pattern `zero` when its seed
is the one state whose output is zero. -/
theorem head_eq_zero_iff {name : String} (h : name ≠ "zero") {o o' : UInt64} {l l' : Nat}
    (hl : 8 ≤ l) (hl' : 8 ≤ l') :
    (fillPattern name o l).take 8 = (fillPattern "zero" o' l').take 8 ↔
      seed name o = zeroState := by
  have hword : (Rng.mk zeroState).next.1 = 0 := by decide
  have hzero : (fillPattern "zero" o' l').take 8 = u64Bytes 0 := by
    rw [fillPattern, if_pos rfl, List.take_replicate, Nat.min_eq_left hl']
    rfl
  rw [head_eq h o hl, hzero]
  constructor
  · intro heq
    have hout := congrArg u64Of heq
    rw [u64Of_u64Bytes, u64Of_u64Bytes, ← hword] at hout
    exact Rng.mk.inj (Rng.next_injective hout)
  · intro hseed
    rw [hseed, hword]

theorem patterns_tell_apart :
    (∀ (name : String) (o o' : UInt64) (l l' : Nat), Aligned o → Aligned o' →
      o.toNat ≤ o'.toNat → o'.toNat + l' ≤ o.toNat + l →
      fillPattern name o' l'
        = slice (fillPattern name o l) (o'.toNat - o.toNat) (o'.toNat - o.toNat + l')) ∧
    (∀ (name : String) (p p' : UInt64) (l l' : Nat), name ≠ "zero" → Aligned p → Aligned p' →
      p ≠ p' → 8 ≤ l → 8 ≤ l' →
      (fillPattern name p l).take 8 ≠ (fillPattern name p' l').take 8) ∧
    ∀ (name name' : String) (p : UInt64) (l l' : Nat), name ≠ "zero" → name' ≠ "zero" →
      patternHash name ≠ patternHash name' → Aligned p → 8 ≤ l → 8 ≤ l' →
      (fillPattern name p l).take 8 ≠ (fillPattern name' p l').take 8 := by
  refine ⟨fun name o o' l l' => anchored name, ?_, ?_⟩
  · intro name p p' l l' hname hp hp' hne hl hl' heq
    have hseed := seed_eq_of_head hname hname hl hl' heq
    have hblock : p / 4096 = p' / 4096 := (UInt64.xor_right_inj _).mp hseed
    apply hne
    apply UInt64.toNat.inj
    rw [hp.toNat_eq, hp'.toNat_eq, hblock]
  · intro name name' p l l' hname hname' hne _ hl hl' heq
    have hseed := seed_eq_of_head hname hname' hl hl' heq
    exact hne ((UInt64.xor_left_inj _).mp hseed)

/-- A window of 12 bytes in a buffer of 8197, and blocks that differ. -/
theorem patterns_tell_apart_ab :
    fillPattern "a" 4096 12 = slice (fillPattern "a" 0 8197) 4096 4108 ∧
      (fillPattern "a" 0 8197).take 8 ≠ (fillPattern "a" 4096 12).take 8 ∧
      (fillPattern "a" 4096 12).take 8 ≠ (fillPattern "b" 4096 8).take 8 := by
  obtain ⟨hanchored, hblocks, hnames⟩ := patterns_tell_apart
  exact ⟨hanchored "a" 0 4096 8197 12 (by decide) (by decide) (by decide) (by decide),
    hblocks "a" 0 4096 8197 12 (by decide) (by decide) (by decide) (by decide) (by decide)
      (by decide),
    hnames "a" "b" 4096 12 8 (by decide) (by decide) (by decide) (by decide) (by decide)
      (by decide)⟩

end Scenario

end Ublkera
