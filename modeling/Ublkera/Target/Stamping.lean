import Ublkera.Target.IoCmd

/-!
# What stamping guarantees

`Io.Inv` is the invariant of the tags: what a half-finished `mark_write` has
already stamped, and with which era.  `Io.step_inv` keeps it under one step
of any tag, and `Io.Inv.checkpoint` under a checkpoint.

`Io.Tracked` is the promise of the era map towards a copy of the device.
Fix an image of the device and an era `K`.  A byte is tracked when the image
holds what the medium holds, or the chunk of the byte carries an era above
`K`, or a request that touches the chunk has not left `mark_write`.
`Io.Tracked.step` says that no step of any tag loses a byte, as soon as `K`
is below the era counter: a stale byte leaves the third case only through
the exit of `mark_write`, and the exit saw the era counter above `K`.
-/

namespace Ublkera

namespace Io

variable {D : Type}

/-- What the program counter of a `mark_write` over `first..=last` knows.
The eras it has stamped are never above the counter, and every chunk behind
the loop index carries at least the loaded era. -/
def MarkInv (map : EraState) (first last : Nat) : MarkPc → Prop
  | .load => True
  | .stamp era i =>
    era ≤ map.currentEra ∧ first ≤ i ∧ i ≤ last ∧
      ∀ c, first ≤ c → c < i → era ≤ map.era c
  | .check era =>
    era ≤ map.currentEra ∧ ∀ c, first ≤ c → c ≤ last → era ≤ map.era c

/-- What the phase of a tag knows. -/
def PhaseInv (map : EraState) : TagPhase → Prop
  | .backend iod sqe =>
    iod.InDevice map.devSize ∧ makeSqe iod.op iod.off iod.bytes = some sqe
  | .marking iod _ first last pc =>
    iod.InDevice map.devSize ∧ iod.op.changesData = true ∧
      map.markRange iod.off iod.bytes = some (first, last) ∧
      MarkInv map first last pc
  | _ => True

/-- The invariant of all tags. -/
def Inv (s : IoState D) : Prop := ∀ t, PhaseInv s.map (s.tags t)

/-- A request that touches the chunk has been submitted and has not left
`mark_write`. -/
def Pending (tags : Tag → TagPhase) (granularity : UInt64) (chunk : Nat) : Prop :=
  ∃ t iod, (tags t).unmarked = some iod ∧ iod.op.changesData = true ∧
    ∃ x, iod.Spans x ∧ x / granularity.toNat = chunk

/-! ## The shape of the map -/

/-- A step changes the map by stamps alone. -/
structure Grows (s t : EraState) : Prop where
  granularity : t.granularity = s.granularity
  devSize : t.devSize = s.devSize
  generation : t.generation = s.generation
  nrChunks : t.nrChunks = s.nrChunks
  currentEra : s.currentEra ≤ t.currentEra
  era : ∀ c, s.era c ≤ t.era c

theorem Grows.refl (s : EraState) : Grows s s :=
  ⟨rfl, rfl, rfl, rfl, UInt32.le_refl _, fun _ => UInt32.le_refl _⟩

theorem Grows.trans {s t u : EraState} (h : Grows s t) (h' : Grows t u) : Grows s u :=
  ⟨h'.granularity.trans h.granularity, h'.devSize.trans h.devSize,
    h'.generation.trans h.generation, h'.nrChunks.trans h.nrChunks,
    UInt32.le_trans h.currentEra h'.currentEra, fun c => UInt32.le_trans (h.era c) (h'.era c)⟩

theorem grows_fetchMax (s : EraState) (c : Nat) (e : UInt32) : Grows s (s.fetchMax c e) :=
  ⟨rfl, rfl, rfl, s.fetchMax_nrChunks c e, UInt32.le_refl _,
    fun d => s.era_le_fetchMax c d e⟩

/-- A checkpoint only moves the era counter up, as long as it does not
wrap. -/
theorem grows_checkpoint {s : EraState} (h : s.currentEra < s.currentEra + 1) :
    Grows s s.checkpoint.1 :=
  ⟨rfl, rfl, rfl, rfl, UInt32.le_of_lt h, fun _ => UInt32.le_refl _⟩

theorem step_grows {B : Backing D} {s s' : IoState D} {l : Label}
    (h : Step B s l s') : Grows s.map s'.map := by
  cases h with
  | markStamp => exact grows_fetchMax _ _ _
  | fetch | land | cqe | markLoad | markCheck | ack => exact Grows.refl _

/-- No step of a tag moves the era counter. -/
theorem step_currentEra {B : Backing D} {s s' : IoState D} {l : Label}
    (h : Step B s l s') : s'.map.currentEra = s.map.currentEra := by
  cases h with
  | markStamp => rfl
  | fetch | land | cqe | markLoad | markCheck | ack => rfl

/-! ## The invariant of the tags -/

theorem MarkInv.mono {s t : EraState} (hg : Grows s t) {first last : Nat} {pc : MarkPc}
    (h : MarkInv s first last pc) : MarkInv t first last pc := by
  cases pc with
  | load => trivial
  | stamp era i =>
    exact ⟨UInt32.le_trans h.1 hg.currentEra, h.2.1, h.2.2.1,
      fun c h1 h2 => UInt32.le_trans (h.2.2.2 c h1 h2) (hg.era c)⟩
  | check era =>
    exact ⟨UInt32.le_trans h.1 hg.currentEra,
      fun c h1 h2 => UInt32.le_trans (h.2 c h1 h2) (hg.era c)⟩

/-- The invariant of a phase survives every change that only grows the
map. -/
theorem PhaseInv.mono {s t : EraState} (hg : Grows s t) {phase : TagPhase}
    (h : PhaseInv s phase) : PhaseInv t phase := by
  cases phase with
  | idle | acking => trivial
  | backend iod sqe =>
    simp only [PhaseInv, hg.devSize] at h ⊢
    exact h
  | marking iod res first last pc =>
    simp only [PhaseInv, hg.devSize] at h ⊢
    refine ⟨h.1, h.2.1, ?_, h.2.2.2.mono hg⟩
    rw [EraState.markRange_congr hg.granularity hg.nrChunks]
    exact h.2.2.1

theorem Inv.checkpoint {s : IoState D} (h : Inv s)
    (hw : s.map.currentEra < s.map.currentEra + 1) :
    Inv { s with map := s.map.checkpoint.1 } :=
  fun t => (h t).mono (grows_checkpoint hw)

/-- The phase that an action leads to is a good one. -/
theorem phaseInv_action {map : EraState} {iod : IoDesc} (hin : iod.InDevice map.devSize)
    (cqe : Option Int) : PhaseInv map ((handleIoCmd iod cqe).phase map iod) := by
  have hstart : PhaseInv map ((handleIoCmd.start iod).phase map iod) := by
    unfold handleIoCmd.start
    split
    · rename_i sqe hsqe
      exact ⟨hin, hsqe⟩
    · trivial
  unfold handleIoCmd
  split
  · split
    · split
      · rename_i hop
        simp only [IoAction.phase]
        split
        · trivial
        · rename_i first last hrange
          exact ⟨hin, hop, hrange, trivial⟩
      · trivial
    · exact hstart
  · exact hstart

/-- The loop bound of a `mark_write` and the loop head agree. -/
theorem markInv_stampFrom {map : EraState} {first last i : Nat} {era : UInt32}
    (hera : era ≤ map.currentEra) (hfirst : first ≤ i)
    (hdone : ∀ c, first ≤ c → c < i → c ≤ last → era ≤ map.era c) :
    MarkInv map first last (.stampFrom era i last) := by
  unfold MarkPc.stampFrom
  split
  · rename_i hi
    exact ⟨hera, hfirst, hi, fun c h1 h2 => hdone c h1 h2 (by omega)⟩
  · exact ⟨hera, fun c h1 h2 => hdone c h1 (by omega) h2⟩

/-- What the pass knows after one more stamp. -/
theorem MarkInv.stamp {map : EraState} {first last i : Nat} {era : UInt32}
    (h : MarkInv map first last (.stamp era i)) (hi : i < map.nrChunks) :
    MarkInv (map.fetchMax i era) first last (.stampFrom era (i + 1) last) := by
  obtain ⟨hera, hfirst, -, hdone⟩ := h
  refine markInv_stampFrom hera (by omega) (fun c h1 h2 _ => ?_)
  by_cases hc : c = i
  · subst hc
    exact map.le_era_fetchMax_self era hi
  · exact UInt32.le_trans (hdone c h1 (by omega)) (map.era_le_fetchMax i c era)

/-- What a tag knows in its phase. -/
theorem Inv.phase {s : IoState D} (h : Inv s) {t : Tag} {phase : TagPhase}
    (ht : s.tags t = phase) : PhaseInv s.map phase := by
  rw [← ht]
  exact h t

/-- The invariant of the other tags is not the business of the step. -/
theorem Inv.update {s : IoState D} {map : EraState} {medium : D} {t : Tag}
    {phase : TagPhase} (h : Inv s) (hg : Grows s.map map) (hp : PhaseInv map phase) :
    Inv { map, medium, tags := Function.update s.tags t phase } := by
  intro u
  by_cases hu : u = t
  · subst hu
    simpa using hp
  · simpa [Function.update_of_ne hu] using (h u).mono hg

/-- One step of any tag keeps the invariant. -/
theorem step_inv {B : Backing D} {s s' : IoState D} {l : Label} (h : Inv s)
    (hs : Step B s l s') : Inv s' := by
  cases hs with
  | fetch idle inDevice =>
    exact h.update (Grows.refl _) (phaseInv_action inDevice none)
  | land backend lands => exact h
  | @cqe t iod sqe res backend =>
    have hp := h.phase backend
    exact h.update (Grows.refl _) (phaseInv_action hp.1 (some res))
  | @markLoad t iod res first last marking =>
    have hp := h.phase marking
    refine h.update (Grows.refl _) ⟨hp.1, hp.2.1, hp.2.2.1, ?_⟩
    exact markInv_stampFrom (UInt32.le_refl _) (Nat.le_refl _) (fun c h1 h2 _ => by omega)
  | @markStamp t iod res first last era i marking =>
    obtain ⟨hin, hop, hrange, hmark⟩ := h.phase marking
    have hg := grows_fetchMax s.map i era
    have hlast := (EraState.markRange_bounds hrange).2
    have hi : i ≤ last := hmark.2.2.1
    have hrange' : (s.map.fetchMax i era).markRange iod.off iod.bytes = some (first, last) := by
      rw [EraState.markRange_congr hg.granularity hg.nrChunks]
      exact hrange
    exact h.update hg ⟨hin, hop, hrange', hmark.stamp (by omega)⟩
  | @markCheck t iod res first last era marking =>
    have hp := h.phase marking
    refine h.update (Grows.refl _) ?_
    split
    · trivial
    · exact ⟨hp.1, hp.2.1, hp.2.2.1, trivial⟩
  | ack acking => exact h.update (Grows.refl _) trivial

/-! ## No era above the counter -/

/-- No chunk carries an era above the era counter. -/
def EraLe (map : EraState) : Prop := ∀ c, map.era c ≤ map.currentEra

theorem EraLe.checkpoint {map : EraState} (h : EraLe map)
    (hw : map.currentEra < map.currentEra + 1) : EraLe map.checkpoint.1 :=
  fun c => UInt32.le_trans (h c) (UInt32.le_of_lt hw)

/-- A stamp with an era below a bound keeps the eras below it. -/
theorem era_fetchMax_le {map : EraState} {c i : Nat} {era bound : UInt32}
    (hi : i < map.nrChunks) (hc : map.era c ≤ bound) (hera : era ≤ bound) :
    (map.fetchMax i era).era c ≤ bound := by
  rw [EraState.era_fetchMax map i c era hi]
  split
  · rw [UInt32.le_iff_toNat_le] at hc hera ⊢
    rw [UInt32.toNat_max]
    exact Nat.max_le.mpr ⟨hc, hera⟩
  · exact hc

/-- A stamp with an era that is not above the counter keeps the bound. -/
theorem EraLe.fetchMax {map : EraState} (h : EraLe map) {i : Nat} {era : UInt32}
    (hi : i < map.nrChunks) (hera : era ≤ map.currentEra) : EraLe (map.fetchMax i era) :=
  fun c => era_fetchMax_le hi (h c) hera

theorem step_eraLe {B : Backing D} {s s' : IoState D} {l : Label} (hinv : Inv s)
    (h : EraLe s.map) (hs : Step B s l s') : EraLe s'.map := by
  cases hs with
  | @markStamp t iod res first last era i marking =>
    obtain ⟨-, -, hrange, hera, -, hi, -⟩ := hinv.phase marking
    have hlast := (EraState.markRange_bounds hrange).2
    exact h.fetchMax (by omega) hera
  | fetch | land | cqe | markLoad | markCheck | ack => exact h

/-! ## Quiet tags -/

/-- No data-changing request is under way on any tag. -/
def Quiet (tags : Tag → TagPhase) : Prop :=
  ∀ t iod, (tags t).unmarked = some iod → iod.op.changesData = false

theorem Quiet.not_pending {tags : Tag → TagPhase} (h : Quiet tags) {g : UInt64}
    {chunk : Nat} : ¬ Pending tags g chunk := by
  intro ⟨t, iod, hu, hop, _⟩
  rw [h t iod hu] at hop
  cases hop

/-- The label fetches a request that the era map is stamped for. -/
def Label.submits : Label → Bool
  | .fetch _ iod => iod.op.changesData
  | _ => false

/-- Another phase of a tag keeps the tags quiet when no data-changing
request is in it. -/
theorem Quiet.update {tags : Tag → TagPhase} (h : Quiet tags) {t : Tag} {phase : TagPhase}
    (hphase : ∀ iod, phase.unmarked = some iod → iod.op.changesData = false) :
    Quiet (Function.update tags t phase) := by
  intro u iod hu
  by_cases hut : u = t
  · subst hut
    rw [Function.update_self] at hu
    exact hphase iod hu
  · rw [Function.update_of_ne hut] at hu
    exact h u iod hu

/-- An action leads the tag on with the same command. -/
theorem eq_of_action_unmarked {map : EraState} {iod iod' : IoDesc} {action : IoAction}
    (h : (action.phase map iod).unmarked = some iod') : iod = iod' := by
  cases action with
  | submit sqe => simpa [IoAction.phase, TagPhase.unmarked] using h
  | complete res => simp [IoAction.phase, TagPhase.unmarked] at h
  | markThenComplete res =>
    simp only [IoAction.phase] at h
    split at h
    · simp [TagPhase.unmarked] at h
    · simpa [TagPhase.unmarked] using h

/-- A command that changes no data is never stamped. -/
theorem action_unmarked_of_not_changesData {map : EraState} {iod : IoDesc}
    {cqe : Option Int} (hop : iod.op.changesData = false) (iod' : IoDesc)
    (h : ((handleIoCmd iod cqe).phase map iod).unmarked = some iod') :
    iod'.op.changesData = false := by
  rw [← eq_of_action_unmarked h]
  exact hop

/-- While the tags are quiet and no data-changing request is fetched, the
tags stay quiet, and neither the map nor the medium moves. -/
theorem quiet_step {B : Backing D} {s s' : IoState D} {l : Label} (hinv : Inv s)
    (h : Quiet s.tags) (hl : l.submits = false) (hs : Step B s l s') :
    Quiet s'.tags ∧ s'.map = s.map ∧ ∀ x, B.view s'.medium x = B.view s.medium x := by
  -- a tag inside `mark_write` serves a data-changing request
  have hmarking : ∀ {t : Tag} {iod : IoDesc} {res : Int} {first last : Nat} {pc : MarkPc},
      s.tags t ≠ .marking iod res first last pc := by
    intro t iod res first last pc ht
    have hp := hinv.phase ht
    have hop := h t iod (by simp [ht, TagPhase.unmarked])
    rw [hp.2.1] at hop
    cases hop
  cases hs with
  | @fetch t iod idle inDevice =>
    exact ⟨h.update (action_unmarked_of_not_changesData hl), rfl, fun _ => rfl⟩
  | @land t iod sqe medium backend lands =>
    refine ⟨h, rfl, fun x => B.lands_frame lands ?_⟩
    intro hc
    have hp := hinv.phase backend
    have hop := (spans_of_changes hp.2 hc).1
    rw [h t iod (by simp [backend, TagPhase.unmarked])] at hop
    cases hop
  | @cqe t iod sqe res backend =>
    have hop := h t iod (by simp [backend, TagPhase.unmarked])
    exact ⟨h.update (action_unmarked_of_not_changesData hop), rfl, fun _ => rfl⟩
  | markLoad marking => exact absurd marking hmarking
  | markStamp marking => exact absurd marking hmarking
  | markCheck marking => exact absurd marking hmarking
  | @ack t iod res acking =>
    refine ⟨h.update ?_, rfl, fun _ => rfl⟩
    intro iod' hu
    simp [TagPhase.unmarked] at hu

/-! ## Chunks that no request touches -/

/-- The label fetches a data-changing request that touches the chunk. -/
def Label.Touches (granularity : UInt64) (chunk : Nat) : Label → Prop
  | .fetch _ iod =>
    iod.op.changesData = true ∧ ∃ x, iod.Spans x ∧ x / granularity.toNat = chunk
  | _ => False

/-- A pending chunk after the move of one tag was pending before, or is
pending because of the new phase of that tag. -/
theorem Pending.of_update {tags : Tag → TagPhase} {g : UInt64} {chunk : Nat} {t : Tag}
    {phase : TagPhase} (h : Pending (Function.update tags t phase) g chunk) :
    Pending tags g chunk ∨ ∃ iod, phase.unmarked = some iod ∧
      iod.op.changesData = true ∧ ∃ x, iod.Spans x ∧ x / g.toNat = chunk := by
  obtain ⟨u, iod, hu, hrest⟩ := h
  by_cases hut : u = t
  · subst hut
    rw [Function.update_self] at hu
    exact Or.inr ⟨iod, hu, hrest⟩
  · rw [Function.update_of_ne hut] at hu
    exact Or.inl ⟨u, iod, hu, hrest⟩

/-- A tag step leaves a chunk alone that is not pending and that no fetched
request touches: its bytes, its era, and that it is not pending. -/
theorem untouched_step {B : Backing D} {s s' : IoState D} {l : Label} (hinv : Inv s)
    {chunk : Nat} (hfree : ¬ Pending s.tags s.map.granularity chunk)
    (hl : ¬ l.Touches s.map.granularity chunk) (hs : Step B s l s') :
    ¬ Pending s'.tags s.map.granularity chunk ∧ s'.map.era chunk = s.map.era chunk ∧
      ∀ x, x / s.map.granularity.toNat = chunk →
        B.view s'.medium x = B.view s.medium x := by
  -- the command of the tag was unmarked before the step
  have hsame : ∀ {t : Tag} (iod : IoDesc) {phase : TagPhase},
      (s.tags t).unmarked = some iod →
      (∀ iod', phase.unmarked = some iod' → iod = iod') →
      ¬ Pending (Function.update s.tags t phase) s.map.granularity chunk := by
    intro t iod phase ht hphase h
    rcases h.of_update with h | ⟨iod', hu, hrest⟩
    · exact hfree h
    · rw [← hphase iod' hu] at hrest
      exact hfree ⟨t, iod, ht, hrest⟩
  cases hs with
  | @fetch t iod idle inDevice =>
    refine ⟨fun h => ?_, rfl, fun _ _ => rfl⟩
    rcases h.of_update with h | ⟨iod', hu, hrest⟩
    · exact hfree h
    · rw [← eq_of_action_unmarked hu] at hrest
      exact hl hrest
  | @land t iod sqe medium backend lands =>
    refine ⟨hfree, rfl, fun x hx => B.lands_frame lands fun hc => ?_⟩
    have hp := hinv.phase backend
    obtain ⟨hop, hspan⟩ := spans_of_changes hp.2 hc
    exact hfree ⟨t, iod, by rw [backend]; rfl, hop, x, hspan, hx⟩
  | @cqe t iod sqe res backend =>
    refine ⟨hsame iod (by rw [backend]; rfl) ?_, rfl, fun _ _ => rfl⟩
    intro iod' hu
    exact eq_of_action_unmarked hu
  | @markLoad t iod res first last marking =>
    refine ⟨hsame iod (by rw [marking]; rfl) ?_, rfl, fun _ _ => rfl⟩
    intro iod' hu
    exact Option.some.inj hu
  | @markStamp t iod res first last era i marking =>
    refine ⟨hsame iod (by rw [marking]; rfl) ?_, ?_, fun _ _ => rfl⟩
    · intro iod' hu
      exact Option.some.inj hu
    · obtain ⟨hin, hop, hrange, -, hfirst, hi, -⟩ := hinv.phase marking
      have hlast := (EraState.markRange_bounds hrange).2
      have hne : i ≠ chunk := by
        intro heq
        subst heq
        obtain ⟨x, hlo, hhi, hx⟩ :=
          EraState.exists_mem_of_markRange (IoDesc.end_le hin) hrange hfirst hi
        exact hfree ⟨t, iod, by rw [marking]; rfl, hop, x, ⟨hlo, hhi⟩, hx⟩
      rw [s.map.era_fetchMax i chunk era (by omega), if_neg hne]
  | @markCheck t iod res first last era marking =>
    refine ⟨hsame iod (by rw [marking]; rfl) ?_, rfl, fun _ _ => rfl⟩
    intro iod' hu
    split at hu
    · cases hu
    · exact Option.some.inj hu
  | @ack t iod res acking =>
    refine ⟨fun h => ?_, rfl, fun _ _ => rfl⟩
    rcases h.of_update with h | ⟨iod', hu, -⟩
    · exact hfree h
    · cases hu

/-! ## The promise towards a copy -/

/-- The byte `x` of a copy of the device is right, or will be reported above
`K`, or belongs to a request that is still under way. -/
def Tracked (B : Backing D) (s : IoState D) (image : Nat → UInt8) (K : UInt32)
    (x : Nat) : Prop :=
  image x = B.view s.medium x ∨ K < s.map.era (x / s.map.granularity.toNat) ∨
    Pending s.tags s.map.granularity (x / s.map.granularity.toNat)

/-- Another tag keeps the chunk pending. -/
theorem Pending.update_of_ne {tags : Tag → TagPhase} {g : UInt64} {chunk : Nat} {t u : Tag}
    {iod : IoDesc} {phase : TagPhase} (hne : u ≠ t) (hu : (tags u).unmarked = some iod)
    (hop : iod.op.changesData = true) (hx : ∃ x, iod.Spans x ∧ x / g.toNat = chunk) :
    Pending (Function.update tags t phase) g chunk :=
  ⟨u, iod, by rw [Function.update_of_ne hne]; exact hu, hop, hx⟩

/-- A tag that keeps its unmarked command keeps every chunk pending. -/
theorem Pending.update {tags : Tag → TagPhase} {g : UInt64} {chunk : Nat} {t : Tag}
    {phase : TagPhase}
    (hkeep : ∀ iod, (tags t).unmarked = some iod → iod.op.changesData = true →
      (∃ x, iod.Spans x ∧ x / g.toNat = chunk) → phase.unmarked = some iod)
    (h : Pending tags g chunk) : Pending (Function.update tags t phase) g chunk := by
  obtain ⟨u, iod, hu, hop, hx⟩ := h
  by_cases hne : u = t
  · subst hne
    exact ⟨u, iod, by rw [Function.update_self]; exact hkeep iod hu hop hx, hop, hx⟩
  · exact Pending.update_of_ne hne hu hop hx

/-- A stamp or a submission keeps the command unmarked. -/
theorem unmarked_action {map : EraState} {iod : IoDesc} {cqe : Option Int} {res : Int}
    (h : handleIoCmd iod cqe = .markThenComplete res ∨ ∃ sqe, handleIoCmd iod cqe = .submit sqe)
    (hin : iod.InDevice map.devSize) {x : Nat} (hx : iod.Spans x) :
    ((handleIoCmd iod cqe).phase map iod).unmarked = some iod := by
  rcases h with h | ⟨sqe, h⟩
  · have hend := IoDesc.end_le hin
    obtain ⟨first, last, hrange, -, -⟩ := EraState.mem_markRange (s := map) hend hx.1 hx.2
    rw [h]
    simp only [IoAction.phase, hrange, TagPhase.unmarked]
  · rw [h]
    rfl

/-- The completion of a data-changing backing IO never completes the
command without a stamp. -/
theorem handleIoCmd_changesData {iod : IoDesc} {res : Int} (hop : iod.op.changesData = true) :
    handleIoCmd iod (some res) = .markThenComplete res ∨
      ∃ sqe, handleIoCmd iod (some res) = .submit sqe := by
  by_cases hres : res = negEAGAIN
  · right
    have hsqe : ∃ sqe, makeSqe iod.op iod.off iod.bytes = some sqe := by
      cases hiod : iod.op with
      | write => exact ⟨_, rfl⟩
      | discard => exact ⟨_, rfl⟩
      | read | flush | unsupported => simp [IoOp.changesData, hiod] at hop
    obtain ⟨sqe, hsqe⟩ := hsqe
    exact ⟨sqe, hres ▸ handleIoCmd_again hsqe⟩
  · exact Or.inl (handleIoCmd_changed hop hres)

/-- No step of any tag loses a byte, as soon as `K` is below the era
counter.  The case that matters is the exit of `mark_write`: the tag stops
being pending, and the era it stamped is the current one. -/
theorem Tracked.step {B : Backing D} {s s' : IoState D} {l : Label} (hinv : Inv s)
    {image : Nat → UInt8} {K : UInt32} (hK : K < s.map.currentEra) {x : Nat}
    (h : Tracked B s image K x) (hs : Step B s l s') : Tracked B s' image K x := by
  have hg := step_grows hs
  rcases h with h | h | h
  · -- the byte was right: only a landing effect can change it
    cases hs with
    | @land t iod sqe medium backend lands =>
      by_cases hc : sqe.Changes x
      · have hp := hinv.phase backend
        obtain ⟨hop, hx⟩ := spans_of_changes hp.2 hc
        refine Or.inr (Or.inr ⟨t, iod, ?_, hop, x, hx, rfl⟩)
        simp [backend, TagPhase.unmarked]
      · exact Or.inl (by rw [h, B.lands_frame lands hc])
    | fetch | cqe | markLoad | markStamp | markCheck | ack => exact Or.inl h
  · refine Or.inr (Or.inl ?_)
    rw [hg.granularity]
    exact UInt32.lt_of_lt_of_le h (hg.era _)
  · cases hs with
    | @fetch t iod idle inDevice =>
      refine Or.inr (Or.inr (h.update ?_))
      intro iod' hiod'
      simp [idle, TagPhase.unmarked] at hiod'
    | land => exact Or.inr (Or.inr h)
    | @cqe t iod sqe res backend =>
      have hp := hinv.phase backend
      refine Or.inr (Or.inr (h.update ?_))
      intro iod' hiod' hop hx
      obtain rfl : iod = iod' := by simpa [backend, TagPhase.unmarked] using hiod'
      obtain ⟨y, hy, -⟩ := hx
      exact unmarked_action (handleIoCmd_changesData hop) hp.1 hy
    | @markLoad t iod res first last marking =>
      refine Or.inr (Or.inr (h.update ?_))
      intro iod' hiod' _ _
      simpa [marking, TagPhase.unmarked] using hiod'
    | @markStamp t iod res first last era i marking =>
      refine Or.inr (Or.inr (h.update ?_))
      intro iod' hiod' _ _
      simpa [marking, TagPhase.unmarked] using hiod'
    | @markCheck t iod res first last era marking =>
      obtain ⟨u, iod', hu, hop, y, hy, hyx⟩ := h
      by_cases hne : u = t
      · subst hne
        obtain rfl : iod = iod' := by simpa [marking, TagPhase.unmarked] using hu
        obtain ⟨hin, -, hrange, -, hdone⟩ := hinv.phase marking
        split
        · -- the exit: the stamped era is the current one
          rename_i hcur
          obtain ⟨f, l, hrange', hf, hl⟩ :=
            EraState.mem_markRange (s := s.map) (IoDesc.end_le hin) hy.1 hy.2
          rw [hrange, Option.some.injEq, Prod.mk.injEq] at hrange'
          rw [← hrange'.1] at hf
          rw [← hrange'.2] at hl
          rw [hyx] at hf hl
          refine Or.inr (Or.inl (UInt32.lt_of_lt_of_le hK ?_))
          rw [hcur]
          exact hdone _ hf hl
        · refine Or.inr (Or.inr ⟨u, iod, ?_, hop, y, hy, hyx⟩)
          simp [TagPhase.unmarked]
      · exact Or.inr (Or.inr (Pending.update_of_ne hne hu hop ⟨y, hy, hyx⟩))
    | @ack t iod res acking =>
      refine Or.inr (Or.inr (h.update ?_))
      intro iod' hiod'
      simp [acking, TagPhase.unmarked] at hiod'

/-- A checkpoint loses no byte: it changes the era counter alone. -/
theorem Tracked.checkpoint {B : Backing D} {s : IoState D} {image : Nat → UInt8}
    {K : UInt32} {x : Nat} (h : Tracked B s image K x) :
    Tracked B { s with map := s.map.checkpoint.1 } image K x := h

/-- A read of the device makes the bytes it reads right, and leaves the
others as they were. -/
theorem Tracked.copied {B : Backing D} {s : IoState D} {image : Nat → UInt8} {K : UInt32}
    {x : Nat} (h : Tracked B s image K x) (part : Nat → Bool) :
    Tracked B s (fun y => if part y then B.view s.medium y else image y) K x := by
  by_cases hpart : part x = true
  · left
    simp [hpart]
  · unfold Tracked at h ⊢
    simp only [hpart, Bool.false_eq_true, if_false]
    exact h

/-- What is still to be copied gets smaller by what is read. -/
theorem tracked_copied {B : Backing D} {s : IoState D} {image : Nat → UInt8} {K : UInt32}
    {x : Nat} {part todo : Nat → Bool} (h : Tracked B s image K x ∨ todo x = true) :
    Tracked B s (fun y => if part y then B.view s.medium y else image y) K x ∨
      (todo x && !part x) = true := by
  rcases h with h | h
  · exact Or.inl (h.copied part)
  · by_cases hpart : part x = true
    · left
      left
      simp [hpart]
    · right
      simp [h, hpart]

end Io

end Ublkera
