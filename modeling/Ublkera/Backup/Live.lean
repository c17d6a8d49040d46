import Ublkera.Lib.Run
import Ublkera.Target.Stamping

/-!
# Backups taken while IO is running

One device, its tags, checkpoints by any client, and one backup consumer.
The consumer holds an image of the device.  It takes a full copy once and
then repeats a round: a checkpoint that closes era `M`, `ranges_since(N)`
with its previous cursor `N`, the copy of the reported ranges, `cursor := M`.

Two orders of the first backup exist.  The chaos harness takes the
checkpoint before the full copy (`checkpointFirst`).  `README.md` and
`docs/dump-format.md` take it after the full copy (`copyFirst`).

Every atomic operation is one step: a tag step of `Io.Step`, a checkpoint,
the read of one chunk by `ranges_since`, and one read of the consumer from
the device.  One such read takes any set of the bytes that are left, so a
chunk may be read at once, in pieces, or byte by byte, and in any order.
The order of the steps is arbitrary.

`Live.Inv` is the invariant of a run.  Between two rounds it is
`Io.Tracked` for every byte, with the cursor as the era.
-/

namespace Ublkera

namespace Live

open Trace

/-- Which of the two comes first in the first backup. -/
inductive Order where
  | checkpointFirst
  | copyFirst
  deriving DecidableEq, Repr

inductive Phase where
  /-- No backup has been started. -/
  | start
  /-- The full copy; `todo` are the bytes that are left.  `closed` is the
  era of the checkpoint that came before it, if there was one. -/
  | full (closed : Option UInt32) (todo : Nat → Bool)
  /-- Between two rounds. -/
  | idle (cursor : UInt32)
  /-- Inside `ranges_since(cursor)`, before the chunk `i`. -/
  | scan (cursor closed : UInt32) (i : Nat) (ranges : List DirtyRange)
  /-- The copy of the reported ranges. -/
  | copy (closed : UInt32) (todo : Nat → Bool)

structure State (D : Type) where
  io : IoState D
  image : Nat → UInt8
  phase : Phase

inductive Label where
  | io (l : Io.Label)
  /-- A checkpoint of another client. -/
  | checkpoint
  | beginCopy
  /-- A checkpoint of the consumer. -/
  | closeEra
  | readRange
  | copy
  | endCopy
  deriving DecidableEq, Repr

/-- The label runs `EraState::checkpoint`. -/
def Label.checkpoints : Label → Bool
  | .checkpoint | .closeEra => true
  | _ => false

/-- The label fetches a data-changing request. -/
def Label.submits : Label → Bool
  | .io l => l.submits
  | _ => false

/-- The image after a read of the bytes `part`. -/
def copied {D : Type} (B : Backing D) (s : State D) (part : Nat → Bool) : Nat → UInt8 :=
  fun x => if part x then B.view s.io.medium x else s.image x

/-- The era map after a checkpoint; tags and medium stay. -/
def checkpointed {D : Type} (io : IoState D) : IoState D :=
  { io with map := io.map.checkpoint.1 }

/-- All bytes of the device. -/
def allBytes (map : EraState) (x : Nat) : Bool := decide (x < map.devSize.toNat)

variable {D : Type} (B : Backing D) (order : Order)

/-- One atomic step of the device, of another client, or of the
consumer. -/
inductive Step : State D → Label → State D → Prop where
  | io {s : State D} {l : Io.Label} {io : IoState D} (tag : Io.Step B s.io l io) :
      Step s (.io l) { s with io }
  | checkpoint {s : State D} :
      Step s .checkpoint { s with io := checkpointed s.io }
  | firstCheckpoint {s : State D} (first : order = .checkpointFirst)
      (phase : s.phase = .start) :
      Step s .closeEra
        { s with
          io := checkpointed s.io
          phase := .full (some s.io.map.checkpoint.2.1) (allBytes s.io.map) }
  | beginCopy {s : State D} (first : order = .copyFirst) (phase : s.phase = .start) :
      Step s .beginCopy { s with phase := .full none (allBytes s.io.map) }
  | copyFull {s : State D} {closed : Option UInt32} {todo : Nat → Bool}
      (phase : s.phase = .full closed todo) (part : Nat → Bool)
      (left : ∀ x, part x = true → todo x = true) :
      Step s .copy
        { s with
          image := copied B s part
          phase := .full closed (fun x => todo x && !part x) }
  | endFull {s : State D} {closed : UInt32} {todo : Nat → Bool}
      (phase : s.phase = .full (some closed) todo)
      (done : ∀ x, x < s.io.map.devSize.toNat → todo x = false) :
      Step s .endCopy { s with phase := .idle closed }
  | lateCheckpoint {s : State D} {todo : Nat → Bool} (phase : s.phase = .full none todo)
      (done : ∀ x, x < s.io.map.devSize.toNat → todo x = false) :
      Step s .closeEra
        { s with
          io := checkpointed s.io
          phase := .idle s.io.map.checkpoint.2.1 }
  | closeEra {s : State D} {cursor : UInt32} (phase : s.phase = .idle cursor) :
      Step s .closeEra
        { s with
          io := checkpointed s.io
          phase := .scan cursor s.io.map.checkpoint.2.1 0 [] }
  | readRange {s : State D} {cursor closed : UInt32} {i : Nat} {ranges : List DirtyRange}
      (phase : s.phase = .scan cursor closed i ranges) (more : i < s.io.map.nrChunks) :
      Step s .readRange
        { s with phase := .scan cursor closed (i + 1) (s.io.map.rangeStep cursor ranges i) }
  | endScan {s : State D} {cursor closed : UInt32} {i : Nat} {ranges : List DirtyRange}
      (phase : s.phase = .scan cursor closed i ranges) (done : s.io.map.nrChunks ≤ i) :
      Step s .readRange { s with phase := .copy closed (EraState.covers ranges) }
  | copyRanges {s : State D} {closed : UInt32} {todo : Nat → Bool}
      (phase : s.phase = .copy closed todo) (part : Nat → Bool)
      (left : ∀ x, part x = true → todo x = true) :
      Step s .copy
        { s with
          image := copied B s part
          phase := .copy closed (fun x => todo x && !part x) }
  | endRanges {s : State D} {closed : UInt32} {todo : Nat → Bool}
      (phase : s.phase = .copy closed todo)
      (done : ∀ x, x < s.io.map.devSize.toNat → todo x = false) :
      Step s .endCopy { s with phase := .idle closed }

/-- The device right after `add`, with no backup taken. -/
def init (map : EraState) (medium : D) (image : Nat → UInt8) : State D :=
  { io := { map, medium, tags := fun _ => .idle }, image, phase := .start }

/-! ## The invariant -/

/-- What the phase of the consumer knows.  In a round that has closed era
`M`, a byte that is not yet tracked for `M` is one that the round is still
going to report or to copy. -/
def PhaseInv (s : State D) : Phase → Prop
  | .start => True
  | .full none _ => True
  | .full (some closed) todo =>
    closed < s.io.map.currentEra ∧
      ∀ x, x < s.io.map.devSize.toNat →
        Io.Tracked B s.io s.image closed x ∨ todo x = true
  | .idle cursor =>
    cursor < s.io.map.currentEra ∧
      ∀ x, x < s.io.map.devSize.toNat → Io.Tracked B s.io s.image cursor x
  | .scan cursor closed i ranges =>
    closed < s.io.map.currentEra ∧
      ∀ x, x < s.io.map.devSize.toNat →
        Io.Tracked B s.io s.image closed x ∨
          (cursor < s.io.map.era (x / s.io.map.granularity.toNat) ∧
            (i ≤ x / s.io.map.granularity.toNat ∨ EraState.covers ranges x = true))
  | .copy closed todo =>
    closed < s.io.map.currentEra ∧
      ∀ x, x < s.io.map.devSize.toNat →
        Io.Tracked B s.io s.image closed x ∨ todo x = true

/-- The invariant of a run. -/
structure Inv (s : State D) : Prop where
  tags : Io.Inv s.io
  phase : PhaseInv B s s.phase

variable {B order}

/-- A tag step keeps what the phase knows. -/
theorem PhaseInv.io {s : State D} {l : Io.Label} {io : IoState D} (hinv : Io.Inv s.io)
    (hs : Io.Step B s.io l io) {phase : Phase} (h : PhaseInv B s phase) :
    PhaseInv B { s with io } phase := by
  have hg := Io.step_grows hs
  have hcur := Io.step_currentEra hs
  cases phase with
  | start => trivial
  | full closed todo =>
    cases closed with
    | none => trivial
    | some closed =>
      simp only [PhaseInv, hcur, hg.devSize] at h ⊢
      refine ⟨h.1, fun x hx => ?_⟩
      exact (h.2 x hx).imp_left fun ht => ht.step hinv h.1 hs
  | idle cursor =>
    simp only [PhaseInv, hcur, hg.devSize] at h ⊢
    exact ⟨h.1, fun x hx => (h.2 x hx).step hinv h.1 hs⟩
  | scan cursor closed i ranges =>
    simp only [PhaseInv, hcur, hg.devSize, hg.granularity] at h ⊢
    refine ⟨h.1, fun x hx => ?_⟩
    rcases h.2 x hx with ht | ⟨hera, hrest⟩
    · exact Or.inl (ht.step hinv h.1 hs)
    · exact Or.inr ⟨UInt32.lt_of_lt_of_le hera (hg.era _), hrest⟩
  | copy closed todo =>
    simp only [PhaseInv, hcur, hg.devSize] at h ⊢
    refine ⟨h.1, fun x hx => ?_⟩
    exact (h.2 x hx).imp_left fun ht => ht.step hinv h.1 hs

/-- A checkpoint of another client keeps what the phase knows. -/
theorem PhaseInv.checkpoint {s : State D}
    (hw : s.io.map.currentEra < s.io.map.currentEra + 1) {phase : Phase}
    (h : PhaseInv B s phase) : PhaseInv B { s with io := checkpointed s.io } phase := by
  cases phase with
  | start => trivial
  | full closed todo =>
    cases closed with
    | none => trivial
    | some closed => exact ⟨UInt32.lt_trans h.1 hw, h.2⟩
  | idle cursor => exact ⟨UInt32.lt_trans h.1 hw, h.2⟩
  | scan cursor closed i ranges => exact ⟨UInt32.lt_trans h.1 hw, h.2⟩
  | copy closed todo => exact ⟨UInt32.lt_trans h.1 hw, h.2⟩

/-- One iteration of `ranges_since` takes the chunk `i` out of the chunks
that are still to be read. -/
theorem scan_step {map : EraState} {cursor : UInt32} {ranges : List DirtyRange} {i x : Nat}
    (hx : x < map.devSize.toNat) (hera : cursor < map.era (x / map.granularity.toNat))
    (h : i ≤ x / map.granularity.toNat ∨ EraState.covers ranges x = true) :
    i + 1 ≤ x / map.granularity.toNat ∨
      EraState.covers (map.rangeStep cursor ranges i) x = true := by
  rcases h with h | h
  · rcases Nat.eq_or_lt_of_le h with heq | hlt
    · refine Or.inr ((map.covers_rangeStep cursor ranges hx).mpr (Or.inr ⟨?_, heq.symm⟩))
      rw [heq]
      exact hera
    · exact Or.inl hlt
  · exact Or.inr ((map.covers_rangeStep cursor ranges hx).mpr (Or.inl h))

/-- One step keeps the invariant, as long as the era counter does not
wrap.  The checkpoint that `copyFirst` takes after the full copy needs that
every byte is tracked when it is taken; the copy alone does not give it. -/
theorem Inv.step {s s' : State D} {l : Label} (h : Inv B s)
    (hw : l.checkpoints = true → s.io.map.currentEra < s.io.map.currentEra + 1)
    (hlate : ∀ todo, s.phase = .full none todo → l = .closeEra →
      ∀ x, x < s.io.map.devSize.toNat → todo x = false →
        Io.Tracked B s.io s.image s.io.map.currentEra x)
    (hs : Step B order s l s') : Inv B s' := by
  obtain ⟨htags, hphase⟩ := h
  cases hs with
  | io tag => exact ⟨Io.step_inv htags tag, hphase.io htags tag⟩
  | checkpoint =>
    exact ⟨htags.checkpoint (hw rfl), hphase.checkpoint (hw rfl)⟩
  | firstCheckpoint first phase =>
    refine ⟨htags.checkpoint (hw rfl), hw rfl, fun x hx => Or.inr ?_⟩
    exact decide_eq_true hx
  | beginCopy first phase => exact ⟨htags, trivial⟩
  | @copyFull closed todo phase part left =>
    refine ⟨htags, ?_⟩
    rw [phase] at hphase
    cases closed with
    | none => trivial
    | some closed => exact ⟨hphase.1, fun x hx => Io.tracked_copied (hphase.2 x hx)⟩
  | endFull phase done =>
    refine ⟨htags, ?_⟩
    rw [phase] at hphase
    refine ⟨hphase.1, fun x hx => ?_⟩
    rcases hphase.2 x hx with ht | ht
    · exact ht
    · rw [done x hx] at ht
      cases ht
  | @lateCheckpoint todo phase done =>
    refine ⟨htags.checkpoint (hw rfl), hw rfl, fun x hx => ?_⟩
    exact (hlate todo phase rfl x hx (done x hx)).checkpoint
  | @closeEra cursor phase =>
    rw [phase] at hphase
    refine ⟨htags.checkpoint (hw rfl), hw rfl, fun x hx => ?_⟩
    rcases hphase.2 x hx with ht | ht | ht
    · exact Or.inl (Or.inl ht)
    · exact Or.inr ⟨ht, Or.inl (Nat.zero_le _)⟩
    · exact Or.inl (Or.inr (Or.inr ht))
  | @readRange cursor closed i ranges phase more =>
    rw [phase] at hphase
    refine ⟨htags, hphase.1, fun x hx => ?_⟩
    rcases hphase.2 x hx with ht | ⟨hera, hrest⟩
    · exact Or.inl ht
    · exact Or.inr ⟨hera, scan_step hx hera hrest⟩
  | @endScan cursor closed i ranges phase done =>
    rw [phase] at hphase
    refine ⟨htags, hphase.1, fun x hx => ?_⟩
    rcases hphase.2 x hx with ht | ⟨-, hi | hcov⟩
    · exact Or.inl ht
    · have := s.io.map.chunk_lt_nrChunks hx
      omega
    · exact Or.inr hcov
  | copyRanges phase part left =>
    rw [phase] at hphase
    exact ⟨htags, hphase.1, fun x hx => Io.tracked_copied (hphase.2 x hx)⟩
  | endRanges phase done =>
    rw [phase] at hphase
    refine ⟨htags, hphase.1, fun x hx => ?_⟩
    rcases hphase.2 x hx with ht | ht
    · exact ht
    · rw [done x hx] at ht
      cases ht

/-! ## Runs -/

/-- A step moves the era counter by its checkpoint alone. -/
theorem step_currentEra {s s' : State D} {l : Label} (hs : Step B order s l s') :
    s'.io.map.currentEra = s.io.map.currentEra + if l.checkpoints then 1 else 0 := by
  cases hs with
  | io tag =>
    rw [Io.step_currentEra tag]
    exact (UInt32.add_zero _).symm
  | checkpoint | firstCheckpoint | lateCheckpoint | closeEra => rfl
  | beginCopy | copyFull | endFull | readRange | endScan | copyRanges | endRanges =>
    exact (UInt32.add_zero _).symm

/-- A step keeps the shape of the map. -/
theorem step_shape {s s' : State D} {l : Label} (hs : Step B order s l s') :
    s'.io.map.granularity = s.io.map.granularity ∧
      s'.io.map.devSize = s.io.map.devSize := by
  cases hs with
  | io tag =>
    have hg := Io.step_grows tag
    exact ⟨hg.granularity, hg.devSize⟩
  | checkpoint | firstCheckpoint | lateCheckpoint | closeEra | beginCopy | copyFull
  | endFull | readRange | endScan | copyRanges | endRanges => exact ⟨rfl, rfl⟩

/-- A run with few enough checkpoints does not wrap the era counter. -/
theorem run_currentEra {s t : State D} {trace : List Label}
    (h : Run (Step B order) s trace t)
    (hbound : s.io.map.currentEra.toNat + trace.countP Label.checkpoints < 2 ^ 32) :
    t.io.map.currentEra.toNat
      = s.io.map.currentEra.toNat + trace.countP Label.checkpoints :=
  h.counter (·.io.map.currentEra) Label.checkpoints (fun _ _ _ => step_currentEra) hbound

theorem run_shape {s t : State D} {trace : List Label}
    (h : Run (Step B order) s trace t) :
    t.io.map.granularity = s.io.map.granularity ∧
      t.io.map.devSize = s.io.map.devSize := by
  induction h with
  | nil => exact ⟨rfl, rfl⟩
  | snoc run last ih =>
    have hs := step_shape last
    exact ⟨hs.1.trans ih.1, hs.2.trans ih.2⟩

/-- The last step of a bounded run does not wrap the era counter. -/
theorem noWrap_of_bound {s t : State D} {trace : List Label} {l : Label}
    (h : Run (Step B order) s trace t)
    (hbound : s.io.map.currentEra.toNat + (trace ++ [l]).countP Label.checkpoints < 2 ^ 32)
    (hl : l.checkpoints = true) : t.io.map.currentEra < t.io.map.currentEra + 1 := by
  rw [List.countP_append, List.countP_singleton, if_pos hl] at hbound
  apply EraState.lt_succ_of_noWrap
  rw [run_currentEra h (by omega)]
  omega

/-- What `EraState::new` gives: era 1, and no chunk written. -/
theorem new_currentEra {devSize granularity : UInt64} {urandom : Except String UInt64}
    {map : EraState} (h : EraState.new devSize granularity urandom = .ok map) :
    map.currentEra = 1 ∧ map.devSize = devSize ∧ map.granularity = granularity ∧
      Io.EraLe map := by
  unfold EraState.new at h
  split at h
  · cases urandom with
    | error e => cases h
    | ok generation =>
      simp only [Except.ok.injEq] at h
      subst h
      refine ⟨rfl, rfl, rfl, fun c => ?_⟩
      show (List.replicate (divCeil devSize granularity) (0 : UInt32)).getD c 0 ≤ 1
      rw [List.getD_eq_getElem?_getD, List.getElem?_replicate]
      split
      · decide
      · decide
  · cases h

theorem inv_init (map : EraState) (medium : D) (image : Nat → UInt8) :
    Inv B (init map medium image) :=
  ⟨fun _ => trivial, trivial⟩

/-- The procedure with the checkpoint first never copies without a closed
era. -/
theorem ne_full_none_step {s s' : State D} {l : Label} (hs : Step B .checkpointFirst s l s')
    (h : ∀ todo, s.phase ≠ .full none todo) (todo : Nat → Bool) : s'.phase ≠ .full none todo := by
  cases hs with
  | io tag => exact h todo
  | checkpoint => exact h todo
  | beginCopy first => cases first
  | @copyFull closed todo' phase part left =>
    cases closed with
    | none => exact absurd phase (h todo')
    | some closed => intro h; cases h
  | firstCheckpoint | endFull | lateCheckpoint | closeEra | readRange | endScan
  | copyRanges | endRanges => intro h; cases h

theorem phase_ne_full_none {map : EraState} {medium : D} {image : Nat → UInt8}
    {s : State D} {trace : List Label}
    (h : Run (Step B .checkpointFirst) (init map medium image) trace s)
    (todo : Nat → Bool) : s.phase ≠ .full none todo := by
  induction h generalizing todo with
  | nil => intro h; cases h
  | snoc run last ih => exact ne_full_none_step last ih todo

/-- The run lemma for the procedure with the checkpoint first. -/
theorem run_inv {map : EraState} {medium : D} {image : Nat → UInt8} {s : State D}
    {trace : List Label}
    (h : Run (Step B .checkpointFirst) (init map medium image) trace s)
    (hbound : map.currentEra.toNat + trace.countP Label.checkpoints < 2 ^ 32) :
    Inv B s := by
  induction h with
  | nil => exact inv_init map medium image
  | @snoc trace t u l run last ih =>
    have hprev : map.currentEra.toNat + trace.countP Label.checkpoints < 2 ^ 32 := by
      rw [List.countP_append] at hbound
      omega
    refine (ih hprev).step (noWrap_of_bound run hbound) ?_ last
    intro todo hphase
    exact absurd hphase (phase_ne_full_none run todo)

/-- No change is lost from the incremental diffs while IO is running.
Between two rounds of the consumer, a chunk of its image is what the device
holds, or the next diff reports it, or a request that touches it has not
left `mark_write`. -/
theorem no_change_lost {devSize granularity : UInt64} {urandom : Except String UInt64}
    {map : EraState} (hnew : EraState.new devSize granularity urandom = .ok map)
    {medium : D} {image : Nat → UInt8} {trace : List Label} {s : State D}
    (hrun : Run (Step B .checkpointFirst) (init map medium image) trace s)
    (hbound : trace.countP Label.checkpoints < 2 ^ 32 - 1)
    {cursor : UInt32} (hidle : s.phase = .idle cursor) (chunk : Nat) :
    (∀ x, x < devSize.toNat → x / granularity.toNat = chunk →
        s.image x = B.view s.io.medium x) ∨
      cursor < s.io.map.era chunk ∨ Io.Pending s.io.tags granularity chunk := by
  obtain ⟨hera, hsize, hgran, -⟩ := new_currentEra hnew
  obtain ⟨hg, hd⟩ := run_shape hrun
  have h1 : (1 : UInt32).toNat = 1 := rfl
  have hinv := (run_inv hrun (by rw [hera]; omega)).phase
  rw [hidle] at hinv
  have hgran' : s.io.map.granularity = granularity := hg.trans hgran
  have hsize' : s.io.map.devSize = devSize := hd.trans hsize
  by_cases hrest : cursor < s.io.map.era chunk ∨ Io.Pending s.io.tags granularity chunk
  · exact Or.inr hrest
  · refine Or.inl fun x hx hchunk => ?_
    rcases hinv.2 x (by rw [hsize']; exact hx) with heq | htracked
    · exact heq
    · rw [hgran', hchunk] at htracked
      exact absurd htracked hrest

/-! ### A device of one chunk -/

/-- The whole chunk. -/
def chunk0 (x : Nat) : Bool := decide (x < 4096)

def queue0 : Tag := { qid := 0, tag := 0 }

/-- A WRITE of the first sector. -/
def firstSector : IoDesc := { op := .write, startSector := 0, nrSectors := 1 }

def zeroed (_ : Nat) : UInt8 := 0

/-- What the WRITE leaves on a zeroed disk. -/
def firstByteSet (x : Nat) : UInt8 := if x = 0 then 1 else 0

theorem lands_firstByteSet : plainDisk.lands (.write 0 512) zeroed firstByteSet := by
  intro x hx
  have h0 : x ≠ 0 := by
    intro h
    subst h
    exact hx (by decide)
  simp [firstByteSet, zeroed, h0]

/-- The steps of the WRITE on its tag. -/
def writeLabels : List Io.Label :=
  [.fetch queue0 firstSector, .land queue0, .cqe queue0 512, .markLoad queue0,
    .markStamp queue0, .markCheck queue0, .ack queue0]

/-- The WRITE sets the first byte and stamps the chunk with the era, when a
checkpoint has closed the first one. -/
theorem write_run :
    Run (Io.Step plainDisk)
      { map := EraState.oneChunk.checkpoint.1, medium := zeroed, tags := fun _ => .idle }
      writeLabels
      { map := EraState.oneChunk.checkpoint.1.fetchMax 0 2, medium := firstByteSet
        tags := fun _ => .idle } := by
  have hfetch : Io.Step plainDisk
      { map := EraState.oneChunk.checkpoint.1, medium := zeroed, tags := fun _ => .idle }
      (.fetch queue0 firstSector) _ := .fetch rfl (by decide)
  have hcqe : Io.Step plainDisk
      { map := EraState.oneChunk.checkpoint.1, medium := firstByteSet
        tags := Function.update (fun _ => .idle) queue0 (.backend firstSector (.write 0 512)) }
      (.cqe queue0 512) _ := .cqe rfl
  have hrun := Run.cons hfetch <|
    .cons (.land (t := queue0) rfl lands_firstByteSet) <|
    .cons hcqe <|
    .cons (.markLoad (t := queue0) rfl) <|
    .cons (.markStamp (t := queue0) rfl) <|
    .cons (.markCheck (t := queue0) rfl) <|
    .single (.ack (t := queue0) rfl)
  have htags : Function.update (fun _ : Tag => TagPhase.idle) queue0 .idle = fun _ => .idle :=
    Function.update_eq_self queue0 _
  simp only [Function.update_idem, htags] at hrun
  exact hrun

/-- The steps of the tags are steps of the whole. -/
theorem io_run {D : Type} {B : Backing D} {order : Order} {s : State D}
    {trace : List Io.Label} {io : IoState D} (h : Run (Io.Step B) s.io trace io) :
    Run (Step B order) s (trace.map .io) { s with io } :=
  h.map (Step B order) (fun io => { s with io }) .io fun _ _ _ tag => .io tag

/-- The write comes after the backup, so the next diff reports its chunk. -/
theorem no_change_lost_oneChunk :
    ∃ (s : State (Nat → UInt8)) (trace : List Label),
      Run (Step plainDisk .checkpointFirst) (init EraState.oneChunk zeroed zeroed) trace s ∧
      s.phase = .idle 1 ∧ s.image 0 ≠ plainDisk.view s.io.medium 0 ∧
      ((∀ x, x < (4096 : UInt64).toNat → x / (4096 : UInt64).toNat = 0 →
          s.image x = plainDisk.view s.io.medium x) ∨
        1 < s.io.map.era 0 ∨ Io.Pending s.io.tags 4096 0) := by
  have hrun := Run.cons (Step.firstCheckpoint (B := plainDisk)
      (s := init EraState.oneChunk zeroed zeroed) rfl rfl) <|
    .cons (.copyFull rfl chunk0 (fun _ h => h)) <|
    .cons (.endFull rfl (fun x _ => Bool.and_not_self (chunk0 x))) (io_run write_run)
  exact ⟨_, _, hrun, rfl, by decide, no_change_lost EraState.new_oneChunk hrun (by decide) rfl 0⟩

end Live

end Ublkera
