import Mathlib.Tactic

/-!
# Filling a buffer chunk by chunk

A buffer of `len` bytes is cut into chunks of `size` bytes, with a short one
at the end, and a generator that carries a state fills one chunk after the
other.  A short chunk takes the front of what the generator has for a whole
one.

`getElem?_fill`: the place of an element does not depend on where the buffer
ends.  `sum_lens` and `dvd_lens` are about the chunks alone.
-/

namespace Chunks

variable {σ α : Type}

/-- The lengths of the chunks. -/
def lens (size len : Nat) : List Nat :=
  (List.range ((len + size - 1) / size)).map fun i => min size (len - i * size)

/-- `next` fills a chunk of the given length. -/
def fill (next : σ → Nat → List α × σ) : σ → List Nat → List α
  | _, [] => []
  | s, n :: rest => (next s n).1 ++ fill next (next s n).2 rest

theorem lens_zero {size : Nat} (h : 0 < size) : lens size 0 = [] := by
  have hdiv : (0 + size - 1) / size = 0 := Nat.div_eq_of_lt (by omega)
  rw [lens, hdiv]
  rfl

theorem lens_cons {size len : Nat} (h : 0 < size) (hlen : 0 < len) :
    lens size len = min size len :: lens size (len - size) := by
  have hdiv : (len + size - 1) / size = (len - size + size - 1) / size + 1 := by
    rcases Nat.lt_or_ge len size with hlt | hge
    · have hone : (len + size - 1) / size = 1 :=
        Nat.div_eq_of_lt_le (by omega) (by omega)
      have hzero : (len - size + size - 1) / size = 0 := Nat.div_eq_of_lt (by omega)
      rw [hone, hzero]
    · have hsplit : len + size - 1 = len - size + size - 1 + size := by omega
      rw [hsplit, Nat.add_div_right _ h]
  rw [lens, hdiv, List.range_succ_eq_map, List.map_cons, List.map_map, lens]
  congr 1
  · rw [Nat.zero_mul, Nat.sub_zero]
  · apply List.map_congr_left
    intro i _
    show min size (len - (i + 1) * size) = min size (len - size - i * size)
    rw [Nat.succ_mul, Nat.sub_sub, Nat.add_comm]

/-- What all chunks have, the first one has and the others have. -/
theorem lens_induction {size : Nat} (hsize : 0 < size) {P : Nat → List Nat → Prop}
    (zero : P 0 []) (cons : ∀ len, 0 < len → P (len - size) (lens size (len - size)) →
      P len (min size len :: lens size (len - size))) (len : Nat) : P len (lens size len) := by
  induction len using Nat.strongRecOn with
  | ind len ih =>
    rcases Nat.eq_zero_or_pos len with rfl | hpos
    · rw [lens_zero hsize]
      exact zero
    · rw [lens_cons hsize hpos]
      exact cons len hpos (ih (len - size) (by omega))

theorem sum_lens {size : Nat} (hsize : 0 < size) (len : Nat) : (lens size len).sum = len := by
  refine lens_induction hsize (P := fun len l => l.sum = len) rfl ?_ len
  intro len _ ih
  rw [List.sum_cons, ih]
  omega

theorem dvd_lens {d size : Nat} (hsize : 0 < size) (hd : d ∣ size) {len : Nat} (hlen : d ∣ len)
    {n : Nat} (h : n ∈ lens size len) : d ∣ n := by
  refine lens_induction hsize (P := fun len l => d ∣ len → ∀ n, n ∈ l → d ∣ n) (by simp) ?_ len
    hlen n h
  intro len _ ih hlen n hn
  rcases List.mem_cons.mp hn with rfl | hn
  · rcases Nat.le_total size len with hle | hle
    · rwa [Nat.min_eq_left hle]
    · rwa [Nat.min_eq_right hle]
  · exact ih (Nat.dvd_sub hlen hd) n hn

/-! ## Generators -/

/-- The generator goes on with `step`, and fills a short chunk with the front
of `whole`. -/
structure Generates (size : Nat) (next : σ → Nat → List α × σ) (whole : σ → List α)
    (step : σ → σ) : Prop where
  length : ∀ s, (whole s).length = size
  next : ∀ s n, n ≤ size → next s n = ((whole s).take n, step s)

variable {size : Nat} {next : σ → Nat → List α × σ} {whole : σ → List α} {step : σ → σ}

theorem fill_lens (h : Generates size next whole step) (hsize : 0 < size) (s : σ) {len : Nat}
    (hlen : 0 < len) :
    fill next s (lens size len)
      = (whole s).take (min size len) ++ fill next (step s) (lens size (len - size)) := by
  rw [lens_cons hsize hlen, fill, h.next s _ (Nat.min_le_left size len)]

theorem length_fill (h : Generates size next whole step) (hsize : 0 < size) (s : σ)
    (len : Nat) : (fill next s (lens size len)).length = len := by
  induction len using Nat.strongRecOn generalizing s with
  | ind len ih =>
    rcases Nat.eq_zero_or_pos len with hzero | hpos
    · subst hzero
      rw [lens_zero hsize]
      rfl
    · rw [fill_lens h hsize s hpos, List.length_append, List.length_take, h.length,
        ih (len - size) (by omega)]
      omega

/-- The element at `k` comes from the chunk `k / size`. -/
theorem getElem?_fill (h : Generates size next whole step) (hsize : 0 < size) (s : σ)
    {len k : Nat} (hk : k < len) :
    (fill next s (lens size len))[k]? = (whole (step^[k / size] s))[k % size]? := by
  induction len using Nat.strongRecOn generalizing s k with
  | ind len ih =>
    have htake : ((whole s).take (min size len)).length = min size len := by
      rw [List.length_take, h.length]
      omega
    rw [fill_lens h hsize s (by omega)]
    rcases Nat.lt_or_ge k size with hlt | hge
    · rw [List.getElem?_append_left (by omega), List.getElem?_take_of_lt (by omega),
        Nat.div_eq_of_lt hlt, Nat.mod_eq_of_lt hlt]
      rfl
    · have hmin : min size len = size := by omega
      rw [List.getElem?_append_right (by omega), htake, hmin,
        ih (len - size) (by omega) (step s) (by omega), ← Nat.mod_eq_sub_mod hge,
        Nat.div_eq_sub_div hsize hge, Function.iterate_succ_apply]

/-- The front of the buffer is the front of the first chunk. -/
theorem take_fill (h : Generates size next whole step) (hsize : 0 < size) (s : σ) {n len : Nat}
    (hn : n ≤ size) (hlen : n ≤ len) :
    (fill next s (lens size len)).take n = (whole s).take n := by
  apply List.ext_getElem?
  intro k
  rcases Nat.lt_or_ge k n with hk | hk
  · rw [List.getElem?_take_of_lt hk, List.getElem?_take_of_lt hk,
      getElem?_fill h hsize s (by omega), Nat.div_eq_of_lt (by omega),
      Nat.mod_eq_of_lt (by omega)]
    rfl
  · rw [List.getElem?_eq_none (by rw [List.length_take]; omega),
      List.getElem?_eq_none (by rw [List.length_take]; omega)]

/-- A shorter buffer holds the front of a longer one. -/
theorem fill_eq_take (h : Generates size next whole step) (hsize : 0 < size) (s : σ)
    {n len : Nat} (hn : n ≤ len) :
    fill next s (lens size n) = (fill next s (lens size len)).take n := by
  apply List.ext_getElem?
  intro k
  rcases Nat.lt_or_ge k n with hk | hk
  · rw [List.getElem?_take_of_lt hk, getElem?_fill h hsize s hk,
      getElem?_fill h hsize s (Nat.lt_of_lt_of_le hk hn)]
  · rw [List.getElem?_eq_none (by rw [length_fill h hsize]; exact hk),
      List.getElem?_eq_none (by rw [List.length_take]; omega)]

end Chunks
