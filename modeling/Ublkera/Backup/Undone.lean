import Ublkera.Backup.Documented
import Ublkera.Fault.Sandwich

/-!
# Backups over a device that loses power

The live backup of `Ublkera.Backup.Live` over the fault device, which may
crash between any two steps while the daemon keeps running.

A crash takes bytes back without any IO through `ublkera`.  It goes unnoticed
where the consumer has closed the era of a write, and has copied it, while the
write is still in the cache of the fault device.  `Exposed` is the state of
such a byte, and the ghost field `undone` holds the bytes that a crash has
found exposed and that have been wrong ever since.

`reported_or_undone`: between two rounds on a quiet device, a byte that the
image has wrong is reported by the next diff, or it is one of these.
-/

namespace Ublkera

namespace Undone

open Fault WriteCache Trace

variable {size lbs cacheCap : Nat}


/-- The byte that a read of the device gives. -/
def content (disk : Disk size lbs cacheCap) (x : Nat) : UInt8 :=
  (faultBacking size lbs cacheCap).view disk x

/-- The consumer has the byte wrong. -/
def Differs (s : Live.State (Disk size lbs cacheCap)) (x : Nat) : Prop :=
  s.image x ≠ content s.io.medium x

/-- The byte is in the cache, the consumer has closed the eras of its chunk,
and no request to the chunk is under way. -/
structure Exposed (s : Live.State (Disk size lbs cacheCap)) (x : Nat) : Prop where
  cached : ∃ e, e ∈ s.io.medium.model.volatile ∧ ¬ e.Misses x (x + 1)
  closed : ∃ closed, s.phase.closedEra = some closed ∧
    s.io.map.era (x / s.io.map.granularity.toNat) ≤ closed
  free : ¬ Io.Pending s.io.tags s.io.map.granularity (x / s.io.map.granularity.toNat)

structure State (size lbs cacheCap : Nat) where
  live : Live.State (Disk size lbs cacheCap)
  /-- The bytes that a crash has found exposed, and that the consumer has had
  wrong ever since. -/
  undone : Nat → Prop

inductive Label where
  | live (l : Live.Label)
  | crash (mode : CrashMode)
  deriving DecidableEq

/-- The label runs `EraState::checkpoint`. -/
def Label.checkpoints : Label → Bool
  | .live l => l.checkpoints
  | .crash _ => false

/-- Another medium under the device. -/
def onMedium (s : Live.State (Disk size lbs cacheCap)) (disk : Disk size lbs cacheCap) :
    Live.State (Disk size lbs cacheCap) :=
  { s with io := { s.io with medium := disk } }

inductive Step : State size lbs cacheCap → Label → State size lbs cacheCap → Prop where
  | live {s : State size lbs cacheCap} {l : Live.Label}
      {live : Live.State (Disk size lbs cacheCap)}
      (step : Live.Step (faultBacking size lbs cacheCap) .checkpointFirst s.live l live) :
      Step s (.live l) { live, undone := fun x => s.undone x ∧ Differs live x }
  | crash {s : State size lbs cacheCap} {mode : CrashMode} {report : CrashReport}
      {disk : Disk size lbs cacheCap}
      (crashed : s.live.io.medium.model.crash mode = some (report, disk.model)) :
      Step s (.crash mode)
        { live := onMedium s.live disk
          undone := fun x =>
            (s.undone x ∨ Exposed s.live x) ∧ Differs (onMedium s.live disk) x }

/-- The device right after `add`, with no backup taken. -/
def init (map : EraState) (disk : Disk size lbs cacheCap) (image : Nat → UInt8) :
    State size lbs cacheCap :=
  { live := Live.init map disk image, undone := fun _ => False }

/-! ## What a crash leaves alone -/

/-- A byte that no entry of the cache has stays as it is. -/
theorem content_crash {disk disk' : Disk size lbs cacheCap} {mode : CrashMode}
    {report : CrashReport} {x : Nat}
    (crashed : disk.model.crash mode = some (report, disk'.model))
    (hmisses : ∀ e, e ∈ disk.model.volatile → e.Misses x (x + 1)) :
    content disk' x = content disk x := by
  obtain ⟨report', m', parts, hcrash, heffect, -⟩ := Model.crash_spec disk.sized.valid mode
  rw [crashed] at hcrash
  obtain ⟨-, hm⟩ := Prod.mk.inj (Option.some.inj hcrash)
  rw [← hm] at heffect
  have hold := overwriteAll_length disk.sized.valid.cache
  have hnew := overwriteAll_length disk'.sized.valid.cache
  have hlen := heffect.step.length disk.sized.valid.cache
  show disk'.model.cache.view.getD x 0 = disk.model.cache.view.getD x 0
  rw [List.getD_eq_getElem?_getD, List.getD_eq_getElem?_getD]
  rcases Nat.lt_or_ge x disk.model.cache.stable.length with hx | hx
  · -- the range of one byte is durable under the crash
    have hdurable : Durable x (x + 1) (LittleEndian.slice disk.model.cache.stable x (x + 1))
        disk.model.cache := ⟨hx, rfl, hmisses⟩
    have hpush : ∀ e, Event.lose parts = .push e → e.Misses x (x + 1) := nofun
    have hdurable' := hdurable.step disk.sized.valid.cache hpush heffect.step
    have hsame := (hdurable'.view disk'.sized.valid.cache).trans
      (hdurable.view disk.sized.valid.cache).symm
    have hbyte := congrArg (·[0]?) hsame
    simp only [LittleEndian.getElem?_slice _ (Nat.lt_succ_self (x + 0))] at hbyte
    exact congrArg (·.getD 0) hbyte
  · rw [List.getElem?_eq_none (hnew.trans hlen ▸ hx), List.getElem?_eq_none (hold ▸ hx)]

/-! ## The invariant -/

/-- The phase knows as much in another state that tracks as much. -/
theorem phaseInv_congr {D : Type} {B : Backing D} {s s' : Live.State D} {phase : Live.Phase}
    (h : Live.PhaseInv B s phase) (hmap : s'.io.map = s.io.map)
    (htracked : ∀ closed x, phase.closedEra = some closed →
      Io.Tracked B s.io s.image closed x → Io.Tracked B s'.io s'.image closed x) :
    Live.PhaseInv B s' phase := by
  cases phase with
  | start => trivial
  | full closed todo =>
    cases closed with
    | none => trivial
    | some closed =>
      simp only [Live.PhaseInv, hmap] at h ⊢
      exact ⟨h.1, fun x hx => (h.2 x hx).imp_left (htracked closed x rfl)⟩
  | idle cursor =>
    simp only [Live.PhaseInv, hmap] at h ⊢
    exact ⟨h.1, fun x hx => htracked cursor x rfl (h.2 x hx)⟩
  | scan cursor closed i ranges =>
    simp only [Live.PhaseInv, hmap] at h ⊢
    exact ⟨h.1, fun x hx => (h.2 x hx).imp_left (htracked closed x rfl)⟩
  | copy closed todo =>
    simp only [Live.PhaseInv, hmap] at h ⊢
    exact ⟨h.1, fun x hx => (h.2 x hx).imp_left (htracked closed x rfl)⟩

/-- The consumer never looks at its image. -/
theorem step_image {D : Type} {B : Backing D} {order : Live.Order} {s s' : Live.State D}
    {l : Live.Label} (hs : Live.Step B order s l s') (image : Nat → UInt8) :
    ∃ image', Live.Step B order { s with image } l { s' with image := image' } ∧
      ∀ x, image x = s.image x → image' x = s'.image x := by
  have hcopied : ∀ (part : Nat → Bool) x, image x = s.image x →
      Live.copied B { s with image } part x = Live.copied B s part x := by
    intro part x hx
    simp only [Live.copied]
    rw [hx]
  cases hs with
  | io tag => exact ⟨image, .io tag, fun _ h => h⟩
  | checkpoint => exact ⟨image, .checkpoint, fun _ h => h⟩
  | firstCheckpoint first phase => exact ⟨image, .firstCheckpoint first phase, fun _ h => h⟩
  | beginCopy first phase => exact ⟨image, .beginCopy first phase, fun _ h => h⟩
  | copyFull phase part left =>
    exact ⟨_, .copyFull (s := { s with image }) phase part left, hcopied part⟩
  | endFull phase done => exact ⟨image, .endFull phase done, fun _ h => h⟩
  | lateCheckpoint phase done => exact ⟨image, .lateCheckpoint phase done, fun _ h => h⟩
  | closeEra phase => exact ⟨image, .closeEra phase, fun _ h => h⟩
  | readRange phase more => exact ⟨image, .readRange phase more, fun _ h => h⟩
  | endScan phase done => exact ⟨image, .endScan phase done, fun _ h => h⟩
  | copyRanges phase part left =>
    exact ⟨_, .copyRanges (s := { s with image }) phase part left, hcopied part⟩
  | endRanges phase done => exact ⟨image, .endRanges phase done, fun _ h => h⟩

/-- The image is right everywhere. -/
def allRight (s : Live.State (Disk size lbs cacheCap)) : Live.State (Disk size lbs cacheCap) :=
  { s with image := content s.io.medium }

/-- The image is right everywhere but at one byte. -/
def allBut (s : Live.State (Disk size lbs cacheCap)) (x : Nat) :
    Live.State (Disk size lbs cacheCap) :=
  { s with image := fun y => if y = x then s.image y else content s.io.medium y }

/-- The invariant of the live backup, for each byte that is not undone on its
own. -/
structure Inv (s : State size lbs cacheCap) : Prop where
  order : ∀ todo, s.live.phase ≠ .full none todo
  right : Live.Inv (faultBacking size lbs cacheCap) (allRight s.live)
  byte : ∀ x, ¬ s.undone x → Live.Inv (faultBacking size lbs cacheCap) (allBut s.live x)

theorem allBut_of_not_differs {s : Live.State (Disk size lbs cacheCap)} {x : Nat}
    (h : ¬ Differs s x) : allBut s x = allRight s := by
  unfold allBut allRight
  congr 1
  funext y
  split
  · rename_i hy
    rw [hy]
    exact not_not.mp h
  · rfl

theorem inv_init (map : EraState) (disk : Disk size lbs cacheCap) (image : Nat → UInt8) :
    Inv (init map disk image) :=
  ⟨nofun, ⟨fun _ => trivial, trivial⟩, fun _ _ => ⟨fun _ => trivial, trivial⟩⟩

/-- The device with a right image is tracked for every era. -/
theorem inv_allRight {s : Live.State (Disk size lbs cacheCap)} {image : Nat → UInt8}
    (h : Live.Inv (faultBacking size lbs cacheCap) { s with image }) :
    Live.Inv (faultBacking size lbs cacheCap) (allRight s) :=
  ⟨h.tags, phaseInv_congr h.phase rfl fun _ _ _ _ => Or.inl rfl⟩

theorem Inv.step {s s' : State size lbs cacheCap} {l : Label} (h : Inv s)
    (hw : l.checkpoints = true → s.live.io.map.currentEra < s.live.io.map.currentEra + 1)
    (hs : Step s l s') : Inv s' := by
  obtain ⟨horder, hright, hbyte⟩ := h
  cases hs with
  | @live l live step =>
    have hstep : ∀ image, Live.Inv (faultBacking size lbs cacheCap) { s.live with image } →
        ∃ image', Live.Inv (faultBacking size lbs cacheCap) { live with image := image' } ∧
          ∀ x, image x = s.live.image x → image' x = live.image x := by
      intro image hinv
      obtain ⟨image', hs', hsame⟩ := step_image step image
      exact ⟨image', hinv.step hw (fun todo hphase => absurd hphase (horder todo)) hs', hsame⟩
    obtain ⟨_, hinv, -⟩ := hstep _ hright
    have hright' := inv_allRight hinv
    refine ⟨Live.ne_full_none_step step horder, hright', fun x hx => ?_⟩
    by_cases hdiffers : Differs live x
    · obtain ⟨image', hinv', hsame⟩ := hstep _ (hbyte x fun hundone => hx ⟨hundone, hdiffers⟩)
      have hx' := hsame x (if_pos rfl)
      refine ⟨hinv'.tags, phaseInv_congr hinv'.phase rfl fun closed y _ htracked => ?_⟩
      by_cases hy : y = x
      · subst hy
        have himage : (allBut live y).image y = image' y := (if_pos rfl).trans hx'.symm
        unfold Io.Tracked at htracked ⊢
        rw [himage]
        exact htracked
      · exact Or.inl (if_neg hy)
    · rw [allBut_of_not_differs hdiffers]
      exact hright'
  | @crash mode report disk crashed =>
    have hright' : Live.Inv (faultBacking size lbs cacheCap) (allRight (onMedium s.live disk)) :=
      ⟨hright.tags, phaseInv_congr hright.phase rfl fun _ _ _ _ => Or.inl rfl⟩
    refine ⟨horder, hright', fun x hx => ?_⟩
    by_cases hdiffers : Differs (onMedium s.live disk) x
    · have hinv := hbyte x fun hundone => hx ⟨Or.inl hundone, hdiffers⟩
      refine ⟨hinv.tags, phaseInv_congr hinv.phase rfl fun closed y hclosed htracked => ?_⟩
      by_cases hy : y = x
      · subst hy
        rcases htracked with heq | hrest
        · -- the byte was right, and a crash may change it
          by_cases hreported : closed < s.live.io.map.era (y / s.live.io.map.granularity.toNat) ∨
              Io.Pending s.live.io.tags s.live.io.map.granularity
                (y / s.live.io.map.granularity.toNat)
          · exact Or.inr hreported
          · rw [not_or] at hreported
            left
            show (if y = y then s.live.image y else _) = content disk y
            rw [if_pos rfl, content_crash crashed]
            · exact (if_pos rfl).symm.trans heq
            · intro e he
              by_contra hhits
              exact hx ⟨Or.inr ⟨⟨e, he, hhits⟩,
                ⟨closed, hclosed, UInt32.not_lt.mp hreported.1⟩, hreported.2⟩, hdiffers⟩
        · exact Or.inr hrest
      · exact Or.inl (if_neg hy)
    · rw [allBut_of_not_differs hdiffers]
      exact hright'

/-! ## Runs -/

theorem step_currentEra {s s' : State size lbs cacheCap} {l : Label} (hs : Step s l s') :
    s'.live.io.map.currentEra = s.live.io.map.currentEra + if l.checkpoints then 1 else 0 := by
  cases hs with
  | live step => exact Live.step_currentEra step
  | crash crashed => exact (UInt32.add_zero _).symm

theorem step_shape {s s' : State size lbs cacheCap} {l : Label} (hs : Step s l s') :
    s'.live.io.map.granularity = s.live.io.map.granularity ∧
      s'.live.io.map.devSize = s.live.io.map.devSize := by
  cases hs with
  | live step => exact Live.step_shape step
  | crash crashed => exact ⟨rfl, rfl⟩

theorem run_inv {map : EraState} {disk : Disk size lbs cacheCap} {image : Nat → UInt8}
    {trace : List Label} {s : State size lbs cacheCap}
    (h : Run Step (init map disk image) trace s)
    (hbound : map.currentEra.toNat + trace.countP Label.checkpoints < 2 ^ 32) : Inv s := by
  induction h with
  | nil => exact inv_init map disk image
  | @snoc trace t u l run last ih =>
    rw [List.countP_append, List.countP_singleton] at hbound
    refine (ih (by omega)).step (fun hl => ?_) last
    rw [if_pos hl] at hbound
    have hera : t.live.io.map.currentEra.toNat = map.currentEra.toNat + _ :=
      run.counter (·.live.io.map.currentEra) Label.checkpoints (fun _ _ _ => step_currentEra)
        (show map.currentEra.toNat + _ < _ by omega)
    apply EraState.lt_succ_of_noWrap
    omega

/-- Between two rounds on a quiet device, the next diff reports a byte that
the image has wrong, but for what a crash has undone behind a checkpoint and a
copy. -/
theorem reported_or_undone {devSize granularity : UInt64} {urandom : Except String UInt64}
    {map : EraState} (hnew : EraState.new devSize granularity urandom = .ok map)
    {disk : Disk size lbs cacheCap} {image : Nat → UInt8} {trace : List Label}
    {s : State size lbs cacheCap} (hrun : Run Step (init map disk image) trace s)
    (hbound : trace.countP Label.checkpoints < 2 ^ 32 - 1) (quiet : Io.Quiet s.live.io.tags)
    {cursor : UInt32} (hidle : s.live.phase = .idle cursor) {x : Nat} (hx : x < devSize.toNat)
    (hdiffers : Differs s.live x) :
    EraState.covers (s.live.io.map.rangesSince cursor) x = true ∨ s.undone x := by
  obtain ⟨hera, hsize, -, -⟩ := Live.new_currentEra hnew
  have h1 : (1 : UInt32).toNat = 1 := rfl
  have hinv := run_inv hrun (by rw [hera]; omega)
  have hshape : s.live.io.map.devSize = map.devSize := by
    refine hrun.state_invariant (fun s => s.live.io.map.devSize = map.devSize) rfl ?_
    intro _ _ _ h hs
    exact (step_shape hs).2.trans h
  have hx' : x < s.live.io.map.devSize.toNat := by
    rw [hshape, hsize]
    exact hx
  by_cases hundone : s.undone x
  · exact Or.inr hundone
  · left
    rw [EraState.covers_rangesSince _ _ hx']
    have hphase := (hinv.byte x hundone).phase
    rw [show (allBut s.live x).phase = .idle cursor from hidle] at hphase
    rcases hphase.2 x hx' with heq | hlt | hpending
    · exact absurd ((if_pos rfl).symm.trans heq) hdiffers
    · exact hlt
    · exact absurd hpending quiet.not_pending

/-! ### One sector -/

/-- Steps of the live backup, with no crash between them. -/
theorem live_run {s : State size lbs cacheCap} {trace : List Live.Label}
    {live : Live.State (Disk size lbs cacheCap)}
    (h : Run (Live.Step (faultBacking size lbs cacheCap) .checkpointFirst) s.live trace live) :
    ∃ undone, Run Step s (trace.map .live) { live, undone } := by
  induction h with
  | nil => exact ⟨s.undone, .nil⟩
  | snoc run last ih =>
    obtain ⟨undone, hrun⟩ := ih
    rw [List.map_append]
    exact ⟨_, hrun.snoc (.live last)⟩

/-- A first backup that nothing gets in the way of. -/
theorem first_backup_alone {D : Type} {B : Backing D} {s : Live.State D}
    (hphase : s.phase = .start) :
    Run (Live.Step B .checkpointFirst) s [.closeEra, .copy, .endCopy]
      { io := Live.checkpointed s.io
        image := Live.copied B s (Live.allBytes s.io.map)
        phase := .idle s.io.map.currentEra } :=
  .cons (.firstCheckpoint rfl hphase) <|
    .cons (.copyFull rfl _ (fun _ h => h)) <|
    .single (.endFull rfl (fun _ _ => Bool.and_not_self _))

theorem checkpoints_alone {D : Type} {B : Backing D} {order : Live.Order} (s : Live.State D)
    (n : Nat) {era : UInt32} (hera : s.io.map.currentEra + UInt32.ofNat n = era) :
    Run (Live.Step B order) s (List.replicate n .checkpoint)
      { s with io.map := { s.io.map with currentEra := era } } := by
  induction n generalizing era with
  | zero =>
    obtain rfl : s.io.map.currentEra = era := (UInt32.add_zero _).symm.trans hera
    exact .nil
  | succ n ih =>
    have hsucc : s.io.map.currentEra + UInt32.ofNat n + 1 = era := by
      rw [← hera, UInt32.ofNat_add, ← UInt32.add_assoc]
      rfl
    rw [List.replicate_succ', ← hsucc]
    exact (ih rfl).snoc .checkpoint

theorem write_lands :
    (faultBacking 4096 512 4096).lands (.write writeSector.off 512) zeroDisk writtenDisk :=
  ⟨.write, _, _, sevens, 512, sevens, .write, zeroDisk_serves⟩

theorem content_written : content writtenDisk 0 = 7 := by
  have hin : 0 + sevens.length ≤ (List.replicate 4096 (0 : UInt8)).length := by
    rw [sevens_length, List.length_replicate]
    decide
  have hbyte : sevens[0]? = some 7 := by
    rw [sevens, List.getElem?_replicate]
    rfl
  show (overwrite (List.replicate 4096 0) ⟨0, sevens⟩).getD 0 0 = 7
  rw [List.getD_eq_getElem?_getD, overwrite, LittleEndian.getElem?_patch hin,
    if_pos ⟨Nat.le_refl 0, by rw [sevens_length]; decide⟩, hbyte]
  rfl

/-- What the cache of `writtenDisk` leaves on a crash. -/
theorem crash_written :
    ∃ (report : CrashReport) (disk : Disk 4096 512 4096),
      writtenModel.crash .drop = some (report, disk.model) ∧ content disk 0 = 0 := by
  obtain ⟨report, m, parts, hcrash, -, hdrop⟩ := Model.crash_spec sized_writtenModel.valid .drop
  have hm : m.view = List.replicate 4096 0 := by
    obtain ⟨-, rfl⟩ := Prod.mk.inj (Option.some.inj hcrash)
    rfl
  have hcall : writtenModel.call (.crash .drop) = some (.report report, m) := by
    rw [Model.call, hcrash]
    rfl
  have hsized := sized_writtenModel.step (ran (.crash .drop) _ trivial hcall)
  refine ⟨report, ⟨m, hsized⟩, hcrash, ?_⟩
  show m.view.getD 0 0 = 0
  rw [hm, List.getD_eq_getElem?_getD, List.getElem?_replicate]
  rfl

theorem quiet_idle : Io.Quiet fun _ => .idle := nofun

def zeros (_ : Nat) : UInt8 := 0

/-- The run ends between two rounds on a quiet device, and the next diff does
not report a byte that the image has wrong. -/
structure Missed (trace : List Label) (s : State 4096 512 4096) : Prop where
  run : Run Step (init EraState.oneChunk zeroDisk zeros) trace s
  quiet : Io.Quiet s.live.io.tags
  idle : s.live.phase = .idle 1
  differs : Differs s.live 0
  unreported : EraState.covers (s.live.io.map.rangesSince 1) 0 = false

/-- A sector is written and backed up, and a crash takes it back. -/
theorem undone_run : ∃ trace s, Missed trace s ∧ trace.countP Label.checkpoints = 1 := by
  obtain ⟨ioTrace, hio⟩ := Io.served_run (faultBacking 4096 512 4096)
    (s := (init EraState.oneChunk zeroDisk zeros).live.io) (t := tag0) rfl
    (show writeSector.InDevice 4096 by decide) rfl rfl write_lands (show (512 : Int) ≠ _ by decide)
  obtain ⟨undone, hrun⟩ := live_run ((Live.io_run hio).append (first_backup_alone rfl))
  obtain ⟨report, disk, hcrash, hcontent⟩ := crash_written
  refine ⟨_, _, ⟨hrun.snoc (.crash hcrash), quiet_idle, rfl, ?_, ?_⟩, ?_⟩
  · show content writtenDisk 0 ≠ content disk 0
    rw [content_written, hcontent]
    decide
  · show EraState.covers ((EraState.oneChunk.markWrite writeSector.off
      writeSector.bytes).checkpoint.1.rangesSince 1) 0 = false
    decide
  · have hnone : (ioTrace.map Live.Label.io).countP Live.Label.checkpoints = 0 := by
      rw [List.countP_map]
      exact List.countP_eq_zero.mpr fun _ _ => nofun
    rw [List.countP_append, List.countP_map]
    show (ioTrace.map Live.Label.io ++ _).countP Live.Label.checkpoints + _ = 1
    rw [List.countP_append, hnone]
    rfl

/-- When every era above the cursor has been closed, a sector is stamped with
an era that is not above it. -/
theorem wrapped_run : ∃ trace s, Missed trace s ∧ ∀ mode, .crash mode ∉ trace := by
  have hbackup := (first_backup_alone (B := faultBacking 4096 512 4096)
    (s := (init EraState.oneChunk zeroDisk zeros).live) rfl).append
      (checkpoints_alone _ (2 ^ 32 - 2)
        (show (2 : UInt32) + UInt32.ofNat (2 ^ 32 - 2) = 0 by decide))
  obtain ⟨ioTrace, hio⟩ := Io.served_run (faultBacking 4096 512 4096)
    (s := { map := { EraState.oneChunk with currentEra := 0 }, medium := zeroDisk
            tags := fun _ => .idle }) (t := tag0) rfl
    (show writeSector.InDevice 4096 by decide) rfl rfl write_lands (show (512 : Int) ≠ _ by decide)
  obtain ⟨undone, hrun⟩ := live_run (hbackup.append (Live.io_run hio))
  refine ⟨_, _, ⟨hrun, quiet_idle, rfl, ?_, ?_⟩, fun mode hmode => ?_⟩
  · show content zeroDisk 0 ≠ content writtenDisk 0
    rw [content_written]
    decide
  · show EraState.covers (({ EraState.oneChunk with currentEra := 0 }.markWrite writeSector.off
      writeSector.bytes).rangesSince 1) 0 = false
    decide
  · obtain ⟨l, -, hl⟩ := List.mem_map.mp hmode
    cases hl

/-- A byte is missed after a crash, and without a crash once the era counter
has wrapped. -/
theorem not_reported_oneSector :
    (∃ trace s, Missed trace s ∧ trace.countP Label.checkpoints = 1) ∧
      ∃ trace s, Missed trace s ∧ ∀ mode, .crash mode ∉ trace :=
  ⟨undone_run, wrapped_run⟩

/-- The byte that the crash has taken back is one that was undone. -/
theorem reported_or_undone_oneSector :
    ∃ trace s, Missed trace s ∧
      (EraState.covers (s.live.io.map.rangesSince 1) 0 = true ∨ s.undone 0) := by
  obtain ⟨trace, s, hmissed, hcount⟩ := undone_run
  refine ⟨trace, s, hmissed, ?_⟩
  exact reported_or_undone EraState.new_oneChunk hmissed.run (by rw [hcount]; decide) hmissed.quiet
    hmissed.idle (by decide) hmissed.differs

end Undone

end Ublkera
