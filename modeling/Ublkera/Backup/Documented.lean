import Ublkera.Backup.Live

/-!
# The documented order: full copy first, checkpoint after it

`README.md` and `docs/dump-format.md` tell the consumer to take the full
copy, then a checkpoint, and to go on from its `closed_era`.  A write that
lands after its bytes were copied and leaves `mark_write` before that
checkpoint is stamped with the era that the checkpoint closes.  No later
diff reports it.

`Settled` is what the closing checkpoint has to find: each byte of the copy
is what the device holds, or its request is still under way.

* `documented_sound`: if every closing checkpoint finds the device settled,
  the image is right once the writes have stopped and a round is complete.
* `lost_for_good`: a byte that the closing checkpoint does not find settled
  stays wrong until a request touches its chunk again.
-/

namespace Ublkera

namespace Live

open Trace

variable {D : Type} (B : Backing D)

/-- Every byte of the image is what the device holds, or belongs to a
request that has not left `mark_write`. -/
def Settled (s : State D) : Prop :=
  ∀ x, x < s.io.map.devSize.toNat →
    s.image x = B.view s.io.medium x ∨
      Io.Pending s.io.tags s.io.map.granularity (x / s.io.map.granularity.toNat)

/-- A step of the documented procedure whose closing checkpoint, if it is
one, finds the device settled. -/
def SettledStep (s : State D) (l : Label) (s' : State D) : Prop :=
  Step B .copyFirst s l s' ∧
    ((∃ todo, s.phase = .full none todo) → l = .closeEra → Settled B s)

variable {B}

theorem SettledStep.step {s s' : State D} {l : Label} (h : SettledStep B s l s') :
    Step B .copyFirst s l s' := h.1

/-! ## The invariant of the documented procedure -/

/-- A step keeps every chunk at or below the era counter. -/
theorem step_eraLe {order : Order} {s s' : State D} {l : Label} (htags : Io.Inv s.io)
    (hw : l.checkpoints = true → s.io.map.currentEra < s.io.map.currentEra + 1)
    (h : Io.EraLe s.io.map) (hs : Step B order s l s') : Io.EraLe s'.io.map := by
  cases hs with
  | io tag => exact Io.step_eraLe htags h tag
  | checkpoint | firstCheckpoint | lateCheckpoint | closeEra => exact h.checkpoint (hw rfl)
  | beginCopy | copyFull | endFull | readRange | endScan | copyRanges | endRanges => exact h

/-- A step keeps the invariant of the tags. -/
theorem tags_step {order : Order} {s s' : State D} {l : Label} (htags : Io.Inv s.io)
    (hw : l.checkpoints = true → s.io.map.currentEra < s.io.map.currentEra + 1)
    (hs : Step B order s l s') : Io.Inv s'.io := by
  cases hs with
  | io tag => exact Io.step_inv htags tag
  | checkpoint | firstCheckpoint | lateCheckpoint | closeEra => exact htags.checkpoint (hw rfl)
  | beginCopy | copyFull | endFull | readRange | endScan | copyRanges | endRanges => exact htags

/-- The run lemma of the documented procedure. -/
theorem settled_run_inv {map : EraState} (hera : Io.EraLe map) {medium : D}
    {image : Nat → UInt8} {trace : List Label} {s : State D}
    (h : Run (SettledStep B) (init map medium image) trace s)
    (hbound : map.currentEra.toNat + trace.countP Label.checkpoints < 2 ^ 32) :
    Inv B s ∧ Io.EraLe s.io.map := by
  induction h with
  | nil => exact ⟨inv_init map medium image, hera⟩
  | @snoc trace t u l run last ih =>
    have hprev : map.currentEra.toNat + trace.countP Label.checkpoints < 2 ^ 32 := by
      rw [List.countP_append] at hbound
      omega
    obtain ⟨hinv, hle⟩ := ih hprev
    have hrun := run.mono (fun _ _ _ => SettledStep.step)
    have hw := noWrap_of_bound hrun hbound
    refine ⟨hinv.step hw ?_ last.step, step_eraLe hinv.tags hw hle last.step⟩
    intro todo hphase hl x hx _
    rcases last.2 ⟨todo, hphase⟩ hl x hx with heq | hp
    · exact Or.inl heq
    · exact Or.inr (Or.inr hp)

/-! ## A round after the writes have stopped -/

/-- The era of the latest checkpoint of the consumer. -/
def Phase.closedEra : Phase → Option UInt32
  | .full closed _ => closed
  | .idle closed | .scan _ closed _ _ | .copy closed _ => some closed
  | .start => none

/-- The consumer has closed an era that no chunk is above. -/
def AllClosed (s : State D) : Prop :=
  ∃ closed, s.phase.closedEra = some closed ∧ ∀ c, s.io.map.era c ≤ closed

/-- While no data-changing request is under way or fetched, the tags stay
quiet and the eras of the chunks stay as they are. -/
theorem quiet_step {order : Order} {s s' : State D} {l : Label} (htags : Io.Inv s.io)
    (hquiet : Io.Quiet s.io.tags) (hl : l.submits = false) (hs : Step B order s l s') :
    Io.Quiet s'.io.tags ∧ ∀ c, s'.io.map.era c = s.io.map.era c := by
  cases hs with
  | io tag =>
    obtain ⟨hq, hmap, -⟩ := Io.quiet_step htags hquiet hl tag
    exact ⟨hq, fun c => by rw [hmap]⟩
  | checkpoint | firstCheckpoint | lateCheckpoint | closeEra | beginCopy | copyFull
  | endFull | readRange | endScan | copyRanges | endRanges => exact ⟨hquiet, fun _ => rfl⟩

/-- A checkpoint of the consumer closes every era that a chunk carries, and
no other step opens one again. -/
theorem allClosed_step {order : Order} {s s' : State D} {l : Label} (htags : Io.Inv s.io)
    (hquiet : Io.Quiet s.io.tags) (hl : l.submits = false) (hera : Io.EraLe s.io.map)
    (h : AllClosed s ∨ l = .closeEra) (hs : Step B order s l s') : AllClosed s' := by
  have hsame := (quiet_step htags hquiet hl hs).2
  have hkeep : s'.phase.closedEra = s.phase.closedEra → l ≠ .closeEra → AllClosed s' := by
    intro hphase hne
    obtain ⟨closed, hclosed, hle⟩ := h.resolve_right hne
    exact ⟨closed, hphase.trans hclosed, fun c => by rw [hsame c]; exact hle c⟩
  cases hs with
  | io | checkpoint => exact hkeep rfl nofun
  | beginCopy first phase | copyFull phase | endFull phase | readRange phase
  | endScan phase | copyRanges phase | endRanges phase =>
    exact hkeep (by rw [phase]; rfl) nofun
  | firstCheckpoint | lateCheckpoint | closeEra => exact ⟨_, rfl, hera⟩

/-! ## A round on its own -/

/-- The scan of a round, with no other step between its reads. -/
theorem scan_alone {s : State D} {cursor closed : UInt32}
    (hphase : s.phase = .scan cursor closed 0 []) {n : Nat} (hn : n ≤ s.io.map.nrChunks) :
    Run (SettledStep B) s (List.replicate n .readRange)
      { s with
        phase := .scan cursor closed n
          ((List.range n).foldl (s.io.map.rangeStep cursor) []) } := by
  induction n with
  | zero =>
    rw [List.range_zero, List.foldl_nil, ← hphase]
    exact .nil
  | succ n ih =>
    rw [List.replicate_succ', List.range_succ, List.foldl_append, List.foldl_cons,
      List.foldl_nil]
    exact .snoc (ih (by omega)) ⟨.readRange rfl hn, nofun⟩

/-- The labels of one round over `n` chunks. -/
def roundLabels (n : Nat) : List Label :=
  .closeEra :: (List.replicate n .readRange ++ [.readRange, .copy, .endCopy])

/-- An undisturbed round copies what `ranges_since` reports, and moves the
cursor to the era that it closed. -/
theorem round_alone {s : State D} {cursor : UInt32} (hphase : s.phase = .idle cursor) :
    Run (SettledStep B) s (roundLabels s.io.map.nrChunks)
      { io := checkpointed s.io
        image := copied B s (EraState.covers (s.io.map.rangesSince cursor))
        phase := .idle s.io.map.currentEra } := by
  have hclose : SettledStep B s .closeEra
      { s with
        io := checkpointed s.io
        phase := .scan cursor s.io.map.currentEra 0 [] } := by
    refine ⟨.closeEra hphase, fun h => ?_⟩
    obtain ⟨todo, htodo⟩ := h
    rw [hphase] at htodo
    cases htodo
  refine .cons hclose ((scan_alone rfl (Nat.le_refl _)).append ?_)
  exact .cons ⟨.endScan rfl (Nat.le_refl _), nofun⟩ <|
    .cons ⟨.copyRanges rfl _ (fun _ h => h), nofun⟩ <|
    .single ⟨.endRanges rfl (fun x _ => Bool.and_not_self _), nofun⟩

/-- The documented procedure is sound under its condition: in a run whose
closing checkpoint finds the device settled, once the writes have stopped
and one more round is complete, the image is what the device holds. -/
theorem documented_sound {devSize granularity : UInt64} {urandom : Except String UInt64}
    {map : EraState} (hnew : EraState.new devSize granularity urandom = .ok map)
    {medium : D} {image : Nat → UInt8} {before after : List Label} {s t : State D}
    (hrun : Run (SettledStep B) (init map medium image) before s)
    (hquiet : Io.Quiet s.io.tags)
    (hround : Run (SettledStep B) s after t)
    (hstop : ∀ l ∈ after, l.submits = false) (hclose : .closeEra ∈ after)
    (hbound : (before ++ after).countP Label.checkpoints < 2 ^ 32 - 1)
    {cursor : UInt32} (hidle : t.phase = .idle cursor) {x : Nat} (hx : x < devSize.toNat) :
    t.image x = B.view t.io.medium x := by
  obtain ⟨hera, hsize, -, hle⟩ := new_currentEra hnew
  have h1 : (1 : UInt32).toNat = 1 := rfl
  -- the tags stay quiet, and the first checkpoint of the round closes all eras
  have hkey : Io.Quiet t.io.tags ∧ (.closeEra ∈ after → AllClosed t) := by
    clear hidle hclose
    induction hround with
    | nil => exact ⟨hquiet, fun h => by cases h⟩
    | @snoc trace u v l run last ih =>
      have hcount : (before ++ trace).countP Label.checkpoints < 2 ^ 32 - 1 := by
        rw [← List.append_assoc, List.countP_append] at hbound
        omega
      obtain ⟨hq, hc⟩ := ih (fun l hl => hstop l (List.mem_append_left _ hl)) hcount
      obtain ⟨hinv, hle'⟩ := settled_run_inv hle (hrun.append run) (by rw [hera]; omega)
      have hl : l.submits = false := hstop l (by simp)
      refine ⟨(quiet_step hinv.tags hq hl last.step).1, fun hmem => ?_⟩
      refine allClosed_step hinv.tags hq hl hle' ?_ last.step
      rcases List.mem_append.mp hmem with h | h
      · exact Or.inl (hc h)
      · exact Or.inr (List.mem_singleton.mp h).symm
  have hall := hrun.append hround
  obtain ⟨hinv, -⟩ := settled_run_inv hle hall (by rw [hera]; omega)
  have hphase := hinv.phase
  rw [hidle] at hphase
  have hd := (run_shape (hall.mono fun _ _ _ => SettledStep.step)).2
  obtain ⟨closed, hclosed, hle'⟩ := hkey.2 hclose
  rw [hidle] at hclosed
  obtain rfl : cursor = closed := by simpa [Phase.closedEra] using hclosed
  rcases hphase.2 x (by rw [hd]; exact hsize ▸ hx) with heq | hlt | hp
  · exact heq
  · exact absurd hlt (UInt32.not_lt.mpr (hle' _))
  · exact absurd hp hkey.1.not_pending

/-- No request is on the tag, so the tags are quiet. -/
theorem quiet_of_queue0 {tags : Tag → TagPhase} (h : tags queue0 = .idle)
    (hrest : ∀ t, t ≠ queue0 → tags t = .idle) : Io.Quiet tags := by
  intro t iod hu
  have hidle : tags t = .idle := by
    by_cases ht : t = queue0
    · rw [ht]
      exact h
    · exact hrest t ht
  rw [hidle] at hu
  cases hu

/-- The write lands after its byte was copied and is still in flight at the
closing checkpoint; the next round picks it up. -/
theorem documented_sound_oneChunk :
    ∃ (before after : List Label) (s t : State (Nat → UInt8)),
      Run (SettledStep plainDisk) (init EraState.oneChunk zeroed zeroed) before s ∧
      s.image 0 ≠ plainDisk.view s.io.medium 0 ∧
      Run (SettledStep plainDisk) s after t ∧
      t.image 0 = plainDisk.view t.io.medium 0 := by
  have hbegin : SettledStep plainDisk (init EraState.oneChunk zeroed zeroed) .beginCopy _ :=
    ⟨.beginCopy rfl rfl, nofun⟩
  have hrun := Run.cons hbegin <|
    .cons ⟨.copyFull rfl chunk0 (fun _ h => h), nofun⟩ <|
    .cons ⟨.io (l := .fetch queue0 firstSector) (.fetch rfl (by decide)), nofun⟩ <|
    .cons ⟨.io (.land (t := queue0) rfl lands_firstByteSet), nofun⟩ <|
    .cons ⟨.lateCheckpoint rfl (fun x _ => Bool.and_not_self (chunk0 x)),
      fun _ _ x hx => Or.inr ⟨queue0, firstSector, rfl, rfl, 0, by decide,
        (Nat.div_eq_of_lt hx).symm⟩⟩ <|
    .cons ⟨.io (l := .cqe queue0 512) (.cqe rfl), nofun⟩ <|
    .cons ⟨.io (.markLoad (t := queue0) rfl), nofun⟩ <|
    .cons ⟨.io (.markStamp (t := queue0) rfl), nofun⟩ <|
    .cons ⟨.io (.markCheck (t := queue0) rfl), nofun⟩ <|
    .single ⟨.io (.ack (t := queue0) rfl), nofun⟩
  refine ⟨_, _, _, _, hrun, by decide, round_alone rfl, ?_⟩
  refine documented_sound EraState.new_oneChunk hrun (quiet_of_queue0 rfl ?_) (round_alone rfl)
    (by decide) (by decide) (by decide) rfl (by decide)
  intro t ht
  simp [checkpointed, init, Function.update_of_ne ht]

/-- The same write, but it leaves `mark_write` before the closing checkpoint:
the round that follows does not report it, and the image stays wrong. -/
theorem not_documented_sound :
    ∃ (before after : List Label) (s t : State (Nat → UInt8)),
      EraState.new 4096 4096 (.ok 7) = .ok EraState.oneChunk ∧
      Run (Step plainDisk .copyFirst) (init EraState.oneChunk zeroed zeroed) before s ∧
      Io.Quiet s.io.tags ∧
      Run (Step plainDisk .copyFirst) s after t ∧
      (∀ l ∈ after, l.submits = false) ∧ .closeEra ∈ after ∧
      (before ++ after).countP Label.checkpoints < 2 ^ 32 - 1 ∧
      s.phase = .idle 1 ∧ t.phase = .idle 2 ∧
      t.image 0 ≠ plainDisk.view t.io.medium 0 := by
  have hbegin : Step plainDisk .copyFirst (init EraState.oneChunk zeroed zeroed) .beginCopy _ :=
    .beginCopy rfl rfl
  have hrun := Run.cons hbegin <|
    .cons (.copyFull rfl chunk0 (fun _ h => h)) <|
    .cons (.io (l := .fetch queue0 firstSector) (.fetch rfl (by decide))) <|
    .cons (.io (.land (t := queue0) rfl lands_firstByteSet)) <|
    .cons (.io (l := .cqe queue0 512) (.cqe rfl)) <|
    .cons (.io (.markLoad (t := queue0) rfl)) <|
    .cons (.io (.markStamp (t := queue0) rfl)) <|
    .cons (.io (.markCheck (t := queue0) rfl)) <|
    .cons (.io (.ack (t := queue0) rfl)) <|
    .single (.lateCheckpoint rfl (fun x _ => Bool.and_not_self (chunk0 x)))
  refine ⟨_, _, _, _, EraState.new_oneChunk, hrun, quiet_of_queue0 rfl ?_,
    (round_alone rfl).mono (fun _ _ _ => SettledStep.step), by decide, by decide, by decide,
    rfl, rfl, by decide⟩
  intro t _
  simp [checkpointed, init]

/-! ## What an unsettled byte costs -/

/-- The label fetches a data-changing request that touches the chunk. -/
def Label.Touches (granularity : UInt64) (chunk : Nat) : Label → Prop
  | .io l => l.Touches granularity chunk
  | _ => False

/-- What the phase of the consumer knows about a byte that no diff from era
`E` on reports. -/
def Phase.Passes (E : UInt32) (x : Nat) : Phase → Prop
  | .idle cursor => E ≤ cursor
  | .scan cursor closed _ ranges => E ≤ cursor ∧ E ≤ closed ∧ EraState.covers ranges x = false
  | .copy closed todo => E ≤ closed ∧ todo x = false
  | _ => False

/-- The image has the byte wrong, and no diff from era `E` on reports it. -/
structure Lost (B : Backing D) (E : UInt32) (x : Nat) (s : State D) : Prop where
  inside : x < s.io.map.devSize.toNat
  wrong : s.image x ≠ B.view s.io.medium x
  era : s.io.map.era (x / s.io.map.granularity.toNat) ≤ E
  free : ¬ Io.Pending s.io.tags s.io.map.granularity (x / s.io.map.granularity.toNat)
  current : E ≤ s.io.map.currentEra
  phase : s.phase.Passes E x

/-- A read of the consumer that leaves the byte out leaves it wrong. -/
theorem copied_of_not_todo {s : State D} {part todo : Nat → Bool} {x : Nat}
    (left : ∀ x, part x = true → todo x = true) (h : todo x = false) :
    copied B s part x = s.image x := by
  have hpart : part x ≠ true := by
    intro hp
    rw [left x hp] at h
    cases h
  simp [copied, hpart]

/-- A step that fetches no request for the chunk keeps the byte lost. -/
theorem Lost.step {order : Order} {s s' : State D} {l : Label} {E : UInt32} {x : Nat}
    (htags : Io.Inv s.io)
    (hw : l.checkpoints = true → s.io.map.currentEra < s.io.map.currentEra + 1)
    (hl : ¬ l.Touches s.io.map.granularity (x / s.io.map.granularity.toNat))
    (h : Lost B E x s) (hs : Step B order s l s') : Lost B E x s' := by
  obtain ⟨hin, hwrong, hera, hfree, hcur, hphase⟩ := h
  cases hs with
  | io tag =>
    have hg := Io.step_grows tag
    obtain ⟨hfree', hera', hview⟩ := Io.untouched_step htags hfree hl tag
    refine ⟨?_, ?_, ?_, ?_, ?_, hphase⟩
    · rw [hg.devSize]
      exact hin
    · rw [hview x rfl]
      exact hwrong
    · rw [hg.granularity, hera']
      exact hera
    · rw [hg.granularity]
      exact hfree'
    · rw [Io.step_currentEra tag]
      exact hcur
  | checkpoint =>
    exact ⟨hin, hwrong, hera, hfree, UInt32.le_trans hcur (UInt32.le_of_lt (hw rfl)), hphase⟩
  | firstCheckpoint first phase | beginCopy first phase | copyFull phase | endFull phase
  | lateCheckpoint phase =>
    rw [phase] at hphase
    exact hphase.elim
  | closeEra phase =>
    rw [phase] at hphase
    exact ⟨hin, hwrong, hera, hfree, UInt32.le_trans hcur (UInt32.le_of_lt (hw rfl)),
      hphase, hcur, rfl⟩
  | @readRange cursor closed i ranges phase more =>
    rw [phase] at hphase
    obtain ⟨hcursor, hclosed, hcov⟩ := hphase
    refine ⟨hin, hwrong, hera, hfree, hcur, hcursor, hclosed, ?_⟩
    by_contra hne
    rw [Bool.not_eq_false, s.io.map.covers_rangeStep cursor ranges hin] at hne
    rcases hne with hne | ⟨hlt, heq⟩
    · rw [hcov] at hne
      cases hne
    · rw [← heq] at hlt
      exact UInt32.not_lt.mpr (UInt32.le_trans hera hcursor) hlt
  | endScan phase =>
    rw [phase] at hphase
    exact ⟨hin, hwrong, hera, hfree, hcur, hphase.2.1, hphase.2.2⟩
  | copyRanges phase part left =>
    rw [phase] at hphase
    obtain ⟨hclosed, htodo⟩ := hphase
    refine ⟨hin, ?_, hera, hfree, hcur, hclosed, by simp [htodo]⟩
    show copied B s part x ≠ B.view s.io.medium x
    rw [copied_of_not_todo left htodo]
    exact hwrong
  | endRanges phase =>
    rw [phase] at hphase
    exact ⟨hin, hwrong, hera, hfree, hcur, hphase.1⟩

/-- A byte that the closing checkpoint does not find settled is lost for
good: whatever the consumer and the other tags do, the image has it wrong
until a request touches its chunk. -/
theorem lost_for_good {map : EraState} (hera : Io.EraLe map) {medium : D}
    {image : Nat → UInt8} {before after : List Label} {s s' t : State D}
    (hrun : Run (SettledStep B) (init map medium image) before s)
    {todo : Nat → Bool} (hphase : s.phase = .full none todo)
    (hclose : Step B .copyFirst s .closeEra s') {x : Nat}
    (hin : x < s.io.map.devSize.toNat)
    (hwrong : s.image x ≠ B.view s.io.medium x)
    (hfree : ¬ Io.Pending s.io.tags s.io.map.granularity (x / s.io.map.granularity.toNat))
    (hafter : Run (Step B .copyFirst) s' after t)
    (huntouched : ∀ l ∈ after,
      ¬ l.Touches s.io.map.granularity (x / s.io.map.granularity.toNat))
    (hbound : map.currentEra.toNat
      + (before ++ .closeEra :: after).countP Label.checkpoints < 2 ^ 32) :
    t.image x ≠ B.view t.io.medium x := by
  have hinit : (init map medium image).io.map.currentEra.toNat = map.currentEra.toNat := rfl
  rw [List.countP_append, List.countP_cons] at hbound
  obtain ⟨hinv, hle⟩ := settled_run_inv hera hrun (by omega)
  have hplain := hrun.mono fun _ _ _ => SettledStep.step
  have hw : s.io.map.currentEra < s.io.map.currentEra + 1 := by
    refine noWrap_of_bound (l := .closeEra) hplain ?_ rfl
    rw [List.countP_append, List.countP_singleton]
    simp only [Label.checkpoints] at hbound ⊢
    omega
  -- the closing checkpoint loses the byte
  have hlost : Lost B s.io.map.currentEra x s' ∧ Io.Inv s'.io := by
    cases hclose with
    | lateCheckpoint => exact ⟨⟨hin, hwrong, hle _, hfree, UInt32.le_of_lt hw,
        UInt32.le_refl _⟩, hinv.tags.checkpoint hw⟩
    | firstCheckpoint first => cases first
    | closeEra phase =>
      rw [hphase] at phase
      cases phase
  have hgran : s'.io.map.granularity = s.io.map.granularity := (step_shape hclose).1
  have hbefore := hplain.append (Run.single hclose)
  -- the rest of the run keeps it lost
  have hkey : Lost B s.io.map.currentEra x t ∧ Io.Inv t.io := by
    induction hafter with
    | nil => exact hlost
    | @snoc trace u v l run last ih =>
      rw [List.countP_append, List.countP_singleton] at hbound
      obtain ⟨hu, htags⟩ := ih (fun l hl => huntouched l (List.mem_append_left _ hl)) (by omega)
      have hshape := (run_shape run).1.trans hgran
      have hwl : l.checkpoints = true → u.io.map.currentEra < u.io.map.currentEra + 1 := by
        intro hl
        refine noWrap_of_bound (hbefore.append run) ?_ hl
        simp only [List.countP_append, List.countP_singleton, Label.checkpoints] at hbound ⊢
        omega
      have hl := huntouched l (by simp)
      rw [← hshape] at hl
      exact ⟨hu.step htags hwl hl last, tags_step htags hwl last⟩
  exact hkey.1.wrong

end Live

end Ublkera
