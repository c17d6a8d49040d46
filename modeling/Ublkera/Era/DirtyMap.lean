import Ublkera.Era.Ranges

/-!
# The set of changed chunks

The era map on its own, with no other thread running: `markWrite` is
`mark_write` with the one pass that it makes then, and a history is a list of
writes and checkpoints.

* `lt_era_history`: a chunk is above a cursor exactly when the history has a
  write that touches it and that ran in an era above the cursor.
* `Merged` is the normal form of the reported ranges, and
  `merged_rangesSince` says that the loop of `ranges_since` gives it.

`dirty_map` puts the two together.
-/

namespace Ublkera

namespace EraState

/-! ## Writes without a concurrent checkpoint -/

/-- One pass of the loop of `mark_write` with the era that was loaded. -/
def markPass (s : EraState) (era : UInt32) (first last : Nat) : EraState :=
  (List.range' first (last + 1 - first)).foldl (fun s i => s.fetchMax i era) s

/-- `mark_write`.  The second load of the era counter sees what the first one
saw (`markPass_currentEra`), so the loop ends after one pass. -/
def markWrite (s : EraState) (offset len : UInt64) : EraState :=
  match s.markRange offset len with
  | none => s
  | some (first, last) => s.markPass s.currentEra first last

inductive Op where
  | markWrite (offset len : UInt64)
  | checkpoint
  deriving DecidableEq

def Op.isCheckpoint : Op → Bool
  | .checkpoint => true
  | _ => false

def perform (s : EraState) : Op → EraState
  | .markWrite offset len => s.markWrite offset len
  | .checkpoint => s.checkpoint.1

def history (s : EraState) (ops : List Op) : EraState := ops.foldl perform s

/-- A write of this range changes a byte of the chunk. -/
def Touches (granularity offset len : UInt64) (chunk : Nat) : Prop :=
  ∃ x, offset.toNat ≤ x ∧ x < offset.toNat + len.toNat ∧ x / granularity.toNat = chunk

theorem foldl_fetchMax_currentEra (s : EraState) (era : UInt32) (chunks : List Nat) :
    (chunks.foldl (fun s i => s.fetchMax i era) s).currentEra = s.currentEra := by
  induction chunks generalizing s with
  | nil => rfl
  | cons i chunks ih => exact ih (s.fetchMax i era)

/-- A pass does not move the era counter. -/
theorem markPass_currentEra (s : EraState) (era : UInt32) (first last : Nat) :
    (s.markPass era first last).currentEra = s.currentEra :=
  foldl_fetchMax_currentEra s era _

/-- The pass changes the eras of its chunks and nothing else. -/
theorem markPass_spec (s : EraState) (era : UInt32) (first n : Nat)
    (hn : first + n ≤ s.nrChunks) :
    let t := (List.range' first n).foldl (fun s i => s.fetchMax i era) s
    t.granularity = s.granularity ∧ t.devSize = s.devSize ∧ t.generation = s.generation ∧
      t.currentEra = s.currentEra ∧ t.nrChunks = s.nrChunks ∧
      ∀ c, t.era c = if first ≤ c ∧ c < first + n then max (s.era c) era else s.era c := by
  induction n with
  | zero =>
    refine ⟨rfl, rfl, rfl, rfl, rfl, fun c => ?_⟩
    rw [if_neg (by omega)]
    rfl
  | succ n ih =>
    obtain ⟨hg, hd, hgen, hcur, hnr, hera⟩ := ih (by omega)
    rw [List.range'_1_concat, List.foldl_append]
    refine ⟨hg, hd, hgen, hcur, (fetchMax_nrChunks _ _ _).trans hnr, fun c => ?_⟩
    rw [List.foldl_cons, List.foldl_nil, era_fetchMax _ _ _ _ (by rw [hnr]; omega), hera c]
    by_cases hc : first + n = c
    · subst hc
      rw [if_pos rfl, if_neg (by omega), if_pos (by omega)]
    · rw [if_neg hc]
      by_cases hin : first ≤ c ∧ c < first + n
      · rw [if_pos hin, if_pos (by omega)]
      · rw [if_neg hin, if_neg (by omega)]

/-- The chunks that `mark_write` stamps are the chunks of the map that its
range touches. -/
theorem markRange_touches (s : EraState) {offset len : UInt64}
    (hfit : offset.toNat + len.toNat < 2 ^ 64) {c : Nat} (hc : c < s.nrChunks) :
    (∃ first last, s.markRange offset len = some (first, last) ∧ first ≤ c ∧ c ≤ last) ↔
      Touches s.granularity offset len c := by
  have hg := s.granularity_pos
  have hlen : len = 0 ↔ len.toNat = 0 := by
    constructor
    · intro h
      rw [h]
      rfl
    · intro h
      exact UInt64.toNat.inj h
  by_cases hzero : len.toNat = 0
  · constructor
    · intro h
      obtain ⟨first, last, hrange, -⟩ := h
      rw [markRange, if_pos (hlen.mpr hzero)] at hrange
      cases hrange
    · intro h
      obtain ⟨x, hlo, hhi, -⟩ := h
      omega
  have hne : len ≠ 0 := fun h => hzero (hlen.mp h)
  have hlast := toNat_last (Nat.pos_of_ne_zero hzero) hfit
  have htouch : Touches s.granularity offset len c ↔
      offset.toNat / s.granularity.toNat ≤ c ∧
        c ≤ (offset.toNat + len.toNat - 1) / s.granularity.toNat := by
    constructor
    · intro h
      obtain ⟨x, hlo, hhi, hx⟩ := h
      subst hx
      exact ⟨Nat.div_le_div_right hlo, Nat.div_le_div_right (by omega)⟩
    · intro h
      obtain ⟨hlo, hhi⟩ := h
      rw [Nat.le_div_iff_mul_le hg] at hhi
      rcases Nat.lt_or_ge offset.toNat (c * s.granularity.toNat) with hlt | hge
      · exact ⟨c * s.granularity.toNat, by omega, by omega, Nat.mul_div_cancel c hg⟩
      · have hle : c ≤ offset.toNat / s.granularity.toNat := (Nat.le_div_iff_mul_le hg).mpr hge
        exact ⟨offset.toNat, Nat.le_refl _, by omega, by omega⟩
  rw [htouch, markRange, if_neg hne]
  simp only [UInt64.toNat_div, hlast]
  by_cases hfirst : s.nrChunks ≤ offset.toNat / s.granularity.toNat
  · rw [if_pos hfirst]
    constructor
    · intro h
      obtain ⟨first, last, hrange, -⟩ := h
      cases hrange
    · intro h
      obtain ⟨hlo, -⟩ := h
      omega
  · rw [if_neg hfirst]
    constructor
    · intro h
      obtain ⟨first, last, hrange, hlo, hhi⟩ := h
      cases hrange
      omega
    · intro h
      obtain ⟨hlo, hhi⟩ := h
      exact ⟨_, _, rfl, hlo, by omega⟩

/-- The chunk is one that `mark_write` stamps. -/
def Stamps (s : EraState) (offset len : UInt64) (c : Nat) : Prop :=
  ∃ first last, s.markRange offset len = some (first, last) ∧ first ≤ c ∧ c ≤ last

/-- `mark_write` raises the chunks that it stamps to the current era, and
changes nothing else. -/
structure Marks (s t : EraState) (stamped : Nat → Prop) : Prop where
  granularity : t.granularity = s.granularity
  devSize : t.devSize = s.devSize
  currentEra : t.currentEra = s.currentEra
  nrChunks : t.nrChunks = s.nrChunks
  inside : ∀ c, stamped c → t.era c = max (s.era c) s.currentEra
  outside : ∀ c, ¬ stamped c → t.era c = s.era c

theorem marks_markWrite (s : EraState) (offset len : UInt64) :
    Marks s (s.markWrite offset len) (s.Stamps offset len) := by
  unfold markWrite Stamps
  cases hrange : s.markRange offset len with
  | none =>
    refine ⟨rfl, rfl, rfl, rfl, ?_, fun _ _ => rfl⟩
    intro c ⟨first, last, h, _⟩
    cases h
  | some range =>
    obtain ⟨first, last⟩ := range
    obtain ⟨hfirst, hlast⟩ := markRange_bounds hrange
    have hstamp : ∀ c, (∃ f l, some (first, last) = some (f, l) ∧ f ≤ c ∧ c ≤ l) ↔
        first ≤ c ∧ c ≤ last := by
      intro c
      constructor
      · intro ⟨f, l, h, hc⟩
        cases h
        exact hc
      · intro hc
        exact ⟨first, last, rfl, hc⟩
    show Marks s (s.markPass s.currentEra first last) _
    rcases Nat.lt_or_ge last first with hempty | hle
    · have hnil : s.markPass s.currentEra first last = s := by
        rw [markPass, Nat.sub_eq_zero_of_le hempty]
        rfl
      rw [hnil]
      refine ⟨rfl, rfl, rfl, rfl, fun c hc => ?_, fun _ _ => rfl⟩
      rw [hstamp] at hc
      omega
    · obtain ⟨hg, hd, -, hcur, hnr, hera⟩ :=
        s.markPass_spec s.currentEra first (last + 1 - first) (by omega)
      refine ⟨hg, hd, hcur, hnr, fun c hc => ?_, fun c hc => ?_⟩
      · rw [hstamp] at hc
        exact (hera c).trans (if_pos (by omega))
      · rw [hstamp] at hc
        exact (hera c).trans (if_neg (by omega))

/-! ## Histories -/

theorem history_snoc (s : EraState) (ops : List Op) (op : Op) :
    s.history (ops ++ [op]) = (s.history ops).perform op := by
  simp [history]

/-- A history keeps the shape of the map. -/
theorem history_shape (s : EraState) (ops : List Op) :
    (s.history ops).granularity = s.granularity ∧ (s.history ops).devSize = s.devSize ∧
      (s.history ops).nrChunks = s.nrChunks := by
  induction ops using List.reverseRecOn with
  | nil => exact ⟨rfl, rfl, rfl⟩
  | append_singleton ops op ih =>
    rw [history_snoc]
    cases op with
    | markWrite offset len =>
      have h := (s.history ops).marks_markWrite offset len
      exact ⟨h.granularity.trans ih.1, h.devSize.trans ih.2.1, h.nrChunks.trans ih.2.2⟩
    | checkpoint => exact ih

/-- The era of a history that starts in era 1 is one more than its
checkpoints. -/
theorem currentEra_history {s : EraState} (hera : s.currentEra = 1) {ops : List Op}
    (hbound : ops.countP Op.isCheckpoint < 2 ^ 32 - 1) :
    (s.history ops).currentEra.toNat = 1 + ops.countP Op.isCheckpoint := by
  induction ops using List.reverseRecOn with
  | nil =>
    show s.currentEra.toNat = 1
    rw [hera]
    rfl
  | append_singleton ops op ih =>
    rw [List.countP_append] at hbound ⊢
    have hprev := ih (by omega)
    rw [history_snoc]
    cases op with
    | markWrite offset len =>
      exact (congrArg UInt32.toNat ((s.history ops).marks_markWrite offset len).currentEra).trans
        hprev
    | checkpoint =>
      have h1 : (1 : UInt32).toNat = 1 := rfl
      have hone : List.countP Op.isCheckpoint [Op.checkpoint] = 1 := rfl
      show ((s.history ops).currentEra + 1).toNat = _
      rw [hone] at hbound ⊢
      rw [UInt32.toNat_add, h1, hprev]
      omega

/-- The history has a write that touches the chunk and that ran in an era
above the cursor. -/
def WrittenSince (granularity : UInt64) (ops : List Op) (since : UInt32) (chunk : Nat) : Prop :=
  ∃ before offset len after, ops = before ++ Op.markWrite offset len :: after ∧
    since.toNat < 1 + before.countP Op.isCheckpoint ∧ Touches granularity offset len chunk

/-- What the last operation adds to the changed chunks. -/
theorem writtenSince_snoc {granularity : UInt64} {ops : List Op} {op : Op} {since : UInt32}
    {chunk : Nat} :
    WrittenSince granularity (ops ++ [op]) since chunk ↔
      WrittenSince granularity ops since chunk ∨
        ∃ offset len, op = .markWrite offset len ∧
          since.toNat < 1 + ops.countP Op.isCheckpoint ∧
          Touches granularity offset len chunk := by
  constructor
  · intro ⟨before, offset, len, after, heq, hera, htouch⟩
    rcases List.eq_nil_or_concat after with rfl | ⟨rest, last, rfl⟩
    · obtain ⟨rfl, hop⟩ := List.append_inj' heq rfl
      exact Or.inr ⟨offset, len, (List.cons.inj hop).1, hera, htouch⟩
    · rw [List.concat_eq_append, ← List.cons_append, ← List.append_assoc] at heq
      obtain ⟨rfl, -⟩ := List.append_inj' heq rfl
      exact Or.inl ⟨before, offset, len, rest, rfl, hera, htouch⟩
  · intro h
    rcases h with ⟨before, offset, len, after, rfl, hera, htouch⟩ |
      ⟨offset, len, rfl, hera, htouch⟩
    · exact ⟨before, offset, len, after ++ [op], by simp, hera, htouch⟩
    · exact ⟨ops, offset, len, [], rfl, hera, htouch⟩

/-- A chunk is above a cursor exactly when it was written since. -/
theorem lt_era_history {s : EraState} (hera : s.currentEra = 1) (hfresh : ∀ c, s.era c = 0)
    {ops : List Op}
    (hfit : ∀ offset len, .markWrite offset len ∈ ops → offset.toNat + len.toNat < 2 ^ 64)
    (hbound : ops.countP Op.isCheckpoint < 2 ^ 32 - 1) (since : UInt32) {c : Nat}
    (hc : c < s.nrChunks) :
    since < (s.history ops).era c ↔ WrittenSince s.granularity ops since c := by
  induction ops using List.reverseRecOn with
  | nil =>
    constructor
    · intro h
      rw [show (s.history []).era c = 0 from hfresh c] at h
      exact absurd (UInt32.lt_iff_toNat_lt.mp h) (Nat.not_lt_zero _)
    · intro ⟨before, offset, len, after, h, _⟩
      simp at h
  | append_singleton ops op ih =>
    rw [List.countP_append] at hbound
    have hbound' : ops.countP Op.isCheckpoint < 2 ^ 32 - 1 := by omega
    have hprev := ih (fun offset len h => hfit offset len (List.mem_append_left _ h)) hbound'
    have hcur := currentEra_history hera hbound'
    obtain ⟨hg, -, hnr⟩ := s.history_shape ops
    rw [history_snoc, writtenSince_snoc]
    cases op with
    | checkpoint =>
      rw [show ((s.history ops).perform .checkpoint).era c = (s.history ops).era c from rfl, hprev]
      constructor
      · exact Or.inl
      · intro hor
        rcases hor with h | ⟨offset, len, h, -⟩
        · exact h
        · cases h
    | markWrite offset len =>
      have hmark := (s.history ops).marks_markWrite offset len
      have hstamp : (s.history ops).Stamps offset len c ↔ Touches s.granularity offset len c := by
        rw [← hg]
        exact (s.history ops).markRange_touches
          (hfit offset len (List.mem_append_right _ List.mem_cons_self)) (by rw [hnr]; exact hc)
      show since < ((s.history ops).markWrite offset len).era c ↔ _
      by_cases htouch : Touches s.granularity offset len c
      · rw [hmark.inside c (hstamp.mpr htouch), UInt32.lt_iff_toNat_lt, UInt32.toNat_max, hcur]
        rw [UInt32.lt_iff_toNat_lt] at hprev
        constructor
        · intro h
          by_cases hold : since.toNat < ((s.history ops).era c).toNat
          · exact Or.inl (hprev.mp hold)
          · exact Or.inr ⟨offset, len, rfl, by omega, htouch⟩
        · intro hor
          rcases hor with h | ⟨offset', len', -, h, -⟩
          · have hold := hprev.mpr h
            omega
          · omega
      · rw [hmark.outside c (fun h => htouch (hstamp.mp h)), hprev]
        constructor
        · exact Or.inl
        · intro hor
          rcases hor with h | ⟨offset', len', heq, -, h⟩
          · exact h
          · cases heq
            exact absurd h htouch

/-! ## The normal form of the ranges -/

/-- The size of the changed chunks below `n`. -/
def dirtyBytes (s : EraState) (since : UInt32) (n : Nat) : Nat :=
  (((List.range n).filter fun i => decide (since < s.era i)).map s.chunkLen).sum

/-- Sorted, disjoint, maximally merged ranges of whole chunks that end at or
before `bound`. -/
structure Merged (s : EraState) (bound : Nat) (ranges : List DirtyRange) : Prop where
  /-- There is a gap between two ranges. -/
  gaps : ranges.Pairwise fun a b => a.offset + a.len < b.offset
  starts : ∀ r ∈ ranges, s.granularity.toNat ∣ r.offset
  ends : ∀ r ∈ ranges, s.granularity.toNat ∣ r.offset + r.len ∨ r.offset + r.len = s.devSize.toNat
  nonempty : ∀ r ∈ ranges, 0 < r.len
  inside : ∀ r ∈ ranges, r.offset + r.len ≤ bound

theorem Merged.mono {s : EraState} {bound bound' : Nat} {ranges : List DirtyRange}
    (h : Merged s bound ranges) (hle : bound ≤ bound') : Merged s bound' ranges :=
  ⟨h.gaps, h.starts, h.ends, h.nonempty, fun r hr => Nat.le_trans (h.inside r hr) hle⟩

/-- The last range of a normal form may go. -/
theorem Merged.init {s : EraState} {bound : Nat} {ranges : List DirtyRange} {last : DirtyRange}
    (h : Merged s bound (ranges ++ [last])) : Merged s bound ranges :=
  ⟨(List.pairwise_append.mp h.gaps).1, fun r hr => h.starts r (List.mem_append_left _ hr),
    fun r hr => h.ends r (List.mem_append_left _ hr),
    fun r hr => h.nonempty r (List.mem_append_left _ hr),
    fun r hr => h.inside r (List.mem_append_left _ hr)⟩

/-- A range of whole chunks behind a gap may come. -/
theorem Merged.concat {s : EraState} {bound : Nat} {ranges : List DirtyRange} {r : DirtyRange}
    (h : Merged s bound ranges) (hgap : ∀ a ∈ ranges, a.offset + a.len < r.offset)
    (hstart : s.granularity.toNat ∣ r.offset)
    (hend : s.granularity.toNat ∣ r.offset + r.len ∨ r.offset + r.len = s.devSize.toNat)
    (hpos : 0 < r.len) (hinside : r.offset + r.len ≤ bound) :
    Merged s bound (ranges ++ [r]) := by
  have hall : ∀ {P : DirtyRange → Prop}, (∀ a ∈ ranges, P a) → P r → ∀ a ∈ ranges ++ [r], P a := by
    intro P hranges hr a ha
    rcases List.mem_append.mp ha with ha | ha
    · exact hranges a ha
    · rw [List.mem_singleton.mp ha]
      exact hr
  refine ⟨?_, hall h.starts hstart, hall h.ends hend, hall h.nonempty hpos,
    hall h.inside hinside⟩
  refine List.pairwise_append.mpr ⟨h.gaps, List.pairwise_singleton _ _, ?_⟩
  intro a ha b hb
  rw [List.mem_singleton.mp hb]
  exact hgap a ha

/-- The range of chunk `n` goes to the end of a normal form that ends before
it. -/
theorem Merged.pushRange {s : EraState} {n bound : Nat} {ranges : List DirtyRange}
    (h : Merged s (n * s.granularity.toNat) ranges) (hn : n < s.nrChunks)
    (hend : n * s.granularity.toNat + s.chunkLen n = bound) :
    Merged s bound (pushRange ranges (n * s.granularity.toNat) (s.chunkLen n)) := by
  have hstart := s.chunk_start_lt hn
  have hg := s.granularity_pos
  have hpos : 0 < s.chunkLen n := by
    rw [chunkLen]
    omega
  have hdvd : s.granularity.toNat ∣ n * s.granularity.toNat := Nat.dvd_mul_left _ _
  -- the chunk ends on a chunk border or with the device
  have hborder : s.granularity.toNat ∣ bound ∨ bound = s.devSize.toNat := by
    rw [chunkLen] at hend
    rcases Nat.lt_or_ge s.devSize.toNat (n * s.granularity.toNat + s.granularity.toNat) with hl | hl
    · exact Or.inr (by omega)
    · refine Or.inl ⟨n + 1, ?_⟩
      rw [Nat.mul_comm s.granularity.toNat, Nat.succ_mul]
      omega
  have hold : Merged s bound ranges := h.mono (by omega)
  unfold EraState.pushRange
  rcases List.eq_nil_or_concat ranges with rfl | ⟨init, last, rfl⟩
  · exact Merged.concat hold (List.forall_mem_nil _) hdvd (hend ▸ hborder) hpos (Nat.le_of_eq hend)
  · rw [List.concat_eq_append] at h hold
    simp only [List.concat_eq_append, List.getLast?_append, List.getLast?_singleton,
      Option.some_or, List.dropLast_append_cons, List.dropLast_singleton, List.append_nil]
    have hmem : last ∈ init ++ [last] := by simp
    have hbefore : ∀ a ∈ init, a.offset + a.len < last.offset := by
      intro a ha
      exact (List.pairwise_append.mp h.gaps).2.2 a ha last (List.mem_singleton_self last)
    have hlast := h.inside last hmem
    split
    · -- the chunk goes on where the last range ends
      rename_i hadj
      have hfull : last.offset + (last.len + s.chunkLen n) = bound := by omega
      exact hold.init.concat hbefore (h.starts last hmem) (hfull ▸ hborder)
        (Nat.lt_of_lt_of_le hpos (Nat.le_add_left _ _)) (Nat.le_of_eq hfull)
    · rename_i hgap
      refine hold.concat ?_ hdvd (hend ▸ hborder) hpos (Nat.le_of_eq hend)
      intro a ha
      show a.offset + a.len < n * s.granularity.toNat
      rcases List.mem_append.mp ha with ha | ha
      · have := hbefore a ha
        omega
      · rw [List.mem_singleton.mp ha]
        omega

/-- A merge adds up the lengths. -/
theorem sum_pushRange (ranges : List DirtyRange) (offset len : Nat) :
    ((pushRange ranges offset len).map DirtyRange.len).sum
      = (ranges.map DirtyRange.len).sum + len := by
  unfold pushRange
  rcases List.eq_nil_or_concat ranges with rfl | ⟨init, last, rfl⟩
  · simp
  · simp only [List.concat_eq_append, List.getLast?_append, List.getLast?_singleton,
      Option.some_or, List.dropLast_append_cons, List.dropLast_singleton, List.append_nil]
    split
    · simp [Nat.add_assoc]
    · simp [Nat.add_assoc]

/-- The first `n` iterations give a normal form of the changed chunks below
`n`. -/
theorem merged_foldl (s : EraState) (since : UInt32) {n : Nat} (hn : n ≤ s.nrChunks) :
    Merged s (min (n * s.granularity.toNat) s.devSize.toNat)
        ((List.range n).foldl (s.rangeStep since) []) ∧
      (((List.range n).foldl (s.rangeStep since) []).map DirtyRange.len).sum
        = s.dirtyBytes since n := by
  induction n with
  | zero => exact ⟨⟨List.Pairwise.nil, nofun, nofun, nofun, nofun⟩, rfl⟩
  | succ n ih =>
    obtain ⟨hmerged, hsum⟩ := ih (Nat.le_of_succ_le hn)
    have hstart := s.chunk_start_lt hn
    have hend : n * s.granularity.toNat + s.chunkLen n
        = min ((n + 1) * s.granularity.toNat) s.devSize.toNat := by
      rw [chunkLen, Nat.succ_mul]
      omega
    rw [List.range_succ, List.foldl_append, List.foldl_cons, List.foldl_nil]
    generalize (List.range n).foldl (s.rangeStep since) [] = ranges at hmerged hsum
    have hbytes : s.dirtyBytes since (n + 1)
        = s.dirtyBytes since n + if since < s.era n then s.chunkLen n else 0 := by
      rw [dirtyBytes, dirtyBytes, List.range_succ, List.filter_append]
      by_cases hera : since < s.era n
      · simp [hera]
      · simp [hera]
    rw [hbytes]
    unfold rangeStep
    by_cases hera : s.era n ≤ since
    · rw [if_pos hera, if_neg (UInt32.not_lt.mpr hera)]
      refine ⟨hmerged.mono ?_, hsum⟩
      rw [Nat.succ_mul]
      omega
    · rw [if_neg hera, if_pos (UInt32.not_le.mp hera), sum_pushRange, hsum]
      exact ⟨(hmerged.mono (Nat.min_le_left _ _)).pushRange hn hend, rfl⟩

/-- The ranges that `ranges_since` reports are the normal form of the changed
chunks. -/
theorem merged_rangesSince (s : EraState) (since : UInt32) :
    Merged s s.devSize.toNat (s.rangesSince since) ∧
      ((s.rangesSince since).map DirtyRange.len).sum = s.dirtyBytes since s.nrChunks := by
  obtain ⟨hmerged, hsum⟩ := s.merged_foldl since (Nat.le_refl s.nrChunks)
  exact ⟨hmerged.mono (Nat.min_le_right _ _), hsum⟩

/-- The changed chunks are not larger than the device. -/
theorem dirtyBytes_le (s : EraState) (since : UInt32) {n : Nat} (hn : n ≤ s.nrChunks) :
    s.dirtyBytes since n ≤ min (n * s.granularity.toNat) s.devSize.toNat := by
  induction n with
  | zero => exact Nat.zero_le _
  | succ n ih =>
    have hprev := ih (Nat.le_of_succ_le hn)
    have hend := s.chunk_end_le hn
    have hlen : s.chunkLen n ≤ s.granularity.toNat := Nat.min_le_left _ _
    rw [dirtyBytes] at hprev ⊢
    rw [List.range_succ, List.filter_append, List.map_append, List.sum_append, Nat.succ_mul]
    by_cases hera : since < s.era n
    · simp only [List.filter_cons, List.filter_nil, hera, decide_true, if_true, List.map_cons,
        List.map_nil, List.sum_cons, List.sum_nil]
      omega
    · simp only [List.filter_cons, List.filter_nil, hera, decide_false, Bool.false_eq_true,
        if_false, List.map_nil, List.sum_nil]
      omega

/-- `mark_write` changes no chunk outside the chunks of its byte range. -/
theorem markWrite_frame (s : EraState) {offset len : UInt64}
    (hfit : offset.toNat + len.toNat < 2 ^ 64) {c : Nat}
    (h : (s.markWrite offset len).era c ≠ s.era c) :
    offset.toNat / s.granularity.toNat ≤ c ∧
      c ≤ (offset.toNat + len.toNat - 1) / s.granularity.toNat := by
  have hstamp : s.Stamps offset len c := by
    by_contra hnot
    exact h ((s.marks_markWrite offset len).outside c hnot)
  have hc : c < s.nrChunks := by
    obtain ⟨first, last, hrange, -, hle⟩ := hstamp
    have := (markRange_bounds hrange).2
    omega
  obtain ⟨x, hlo, hhi, rfl⟩ := (s.markRange_touches hfit hc).mp hstamp
  exact ⟨Nat.div_le_div_right hlo, Nat.div_le_div_right (by omega)⟩

/-- The era map computes the set of changed chunks, in its normal form. -/
theorem dirty_map {devSize granularity g : UInt64} {s : EraState}
    (hnew : new devSize granularity (.ok g) = .ok s) (ops : List Op)
    (hfit : ∀ offset len, .markWrite offset len ∈ ops → offset.toNat + len.toNat < 2 ^ 64)
    (hbound : ops.countP Op.isCheckpoint < 2 ^ 32 - 1) (since : UInt32) :
    (∀ x, x < devSize.toNat →
      (covers ((s.history ops).rangesSince since) x = true ↔
        WrittenSince granularity ops since (x / granularity.toNat))) ∧
    Merged (s.history ops) devSize.toNat ((s.history ops).rangesSince since) ∧
    (((s.history ops).rangesSince since).map DirtyRange.len).sum
      = (s.history ops).dirtyBytes since (s.history ops).nrChunks ∧
    (s.history ops).dirtyBytes since (s.history ops).nrChunks < 2 ^ 64 ∧
    ∀ offset len c, offset.toNat + len.toNat < 2 ^ 64 →
      ((s.history ops).markWrite offset len).era c ≠ (s.history ops).era c →
        offset.toNat / granularity.toNat ≤ c ∧
          c ≤ (offset.toNat + len.toNat - 1) / granularity.toNat := by
  obtain ⟨-, hera, hsize, hgran⟩ := new_ok hnew
  obtain ⟨hg, hd, hnr⟩ := s.history_shape ops
  have hfresh : ∀ c, s.era c = 0 := by
    intro c
    unfold new at hnew
    split at hnew
    · obtain rfl := Except.ok.inj hnew
      show (List.replicate _ (0 : UInt32)).getD c 0 = 0
      rw [List.getD_eq_getElem?_getD, List.getElem?_replicate]
      split
      · rfl
      · rfl
    · cases hnew
  obtain ⟨hmerged, hsum⟩ := (s.history ops).merged_rangesSince since
  rw [hd, hsize] at hmerged
  refine ⟨fun x hx => ?_, hmerged, hsum, ?_, fun offset len c hin hne => ?_⟩
  · have hx' : x < (s.history ops).devSize.toNat := by
      rw [hd, hsize]
      exact hx
    have hc := (s.history ops).chunk_lt_nrChunks hx'
    rw [hnr, hg, hgran] at hc
    rw [covers_rangesSince _ since hx', hg, hgran,
      lt_era_history hera hfresh hfit hbound since hc, hgran]
  · have hle := (s.history ops).dirtyBytes_le since (Nat.le_refl _)
    have hlt := UInt64.toNat_lt (s.history ops).devSize
    omega
  · rw [← hgran, ← hg]
    exact (s.history ops).markWrite_frame hin hne

/-- A write, a checkpoint and another write on a map of one chunk. -/
theorem dirty_map_oneChunk :
    covers ((oneChunk.history
      [.markWrite 0 512, .checkpoint, .markWrite 4095 1]).rangesSince 1) 0 = true := by
  have h := dirty_map new_oneChunk [.markWrite 0 512, .checkpoint, .markWrite 4095 1]
    (by
      intro offset len hmem
      simp only [List.mem_cons, Op.markWrite.injEq, reduceCtorEq, List.not_mem_nil, or_false,
        false_or] at hmem
      rcases hmem with ⟨rfl, rfl⟩ | ⟨rfl, rfl⟩
      · decide
      · decide) (by decide) 1
  refine (h.1 0 (by decide)).mpr ?_
  exact ⟨[.markWrite 0 512, .checkpoint], 4095, 1, [], rfl, by decide, 4095, by decide, by decide,
    by decide⟩

end EraState

end Ublkera
