import Ublkera.Daemon.Lifecycle

/-!
# Acknowledged checkpoints and the recovered era

A checkpoint is acknowledged when its response is delivered.  The response
comes also when the save has failed, and then the file at the path may still
hold a state from before the checkpoint.  `Ledger` is what the labels of a
run say about this: the acknowledged pairs of generation and closed era, and
whether an acknowledged checkpoint is `behind`, which means that no save has
landed since its `fetch_add`.

`readds_above_iff`: every `add` that keeps the generation recovers an era
above every acknowledged one, and no pair is ever issued twice, exactly when
no `add` loads the file while an acknowledged checkpoint is behind.
-/

namespace Ublkera

namespace Lifecycle

open LittleEndian PosixFs Trace

structure Ledger where
  /-- The pairs that were acknowledged, the latest one first. -/
  acks : List (UInt64 × UInt32)
  /-- A checkpoint has closed its era, and no save has landed since. -/
  pending : Bool
  /-- An acknowledged checkpoint has closed its era, and no save has landed
  since. -/
  behind : Bool
  /-- The number of checkpoints. -/
  count : Nat

def Ledger.empty : Ledger := { acks := [], pending := false, behind := false, count := 0 }

def Ledger.step (path : MetaPath) (b : Ledger) : Label → Ledger
  | .checkpoint _ => { b with pending := true, count := b.count + 1 }
  | .save l => if l = landing path then { b with pending := false, behind := false } else b
  | .answer generation closed _ =>
    { b with
      acks := (generation, closed) :: b.acks
      pending := false
      behind := b.behind || b.pending }
  | .kill => { b with pending := false }
  | _ => b

def ledger (path : MetaPath) (trace : List Label) : Ledger :=
  trace.foldl (Ledger.step path) .empty

@[simp] theorem ledger_snoc (path : MetaPath) (trace : List Label) (l : Label) :
    ledger path (trace ++ [l]) = (ledger path trace).step path l := by
  simp [ledger]

theorem count_ledger (path : MetaPath) (trace : List Label) :
    (ledger path trace).count = trace.countP Label.checkpoints := by
  induction trace using List.reverseRecOn with
  | nil => rfl
  | append_singleton trace l ih =>
    rw [ledger_snoc, List.countP_append, List.countP_singleton, ← ih]
    cases l with
    | save k =>
      simp only [Ledger.step, Label.checkpoints]
      split
      · rfl
      · rfl
    | _ => rfl

/-! ## The invariant -/

/-- The state that a save of `map` reads, as long as no checkpoint runs. -/
def SnapOf (map snap : EraState) : Prop :=
  snap.granularity = map.granularity ∧ snap.devSize = map.devSize ∧
    snap.generation = map.generation ∧ snap.currentEra = map.currentEra

/-- What a running save knows: its temp file, and that it has read the era
counter of the map. -/
structure SaveInv (fs : MetaFs) (path : MetaPath) (clean : Bool) (map : EraState)
    (pc : SavePc) : Prop where
  holds : pc.Holds fs path.tmp
  carries : Carries (SnapOf map) clean pc
  era : ∀ ino era eras, pc = .readChunks ino era eras → era = map.currentEra

/-- A map that the daemon works with: its generation was drawn, and its era
counter is above every acknowledged era of that generation. -/
structure MapInv (devSize granularity : UInt64) (b : Ledger) (used : List UInt64)
    (map : EraState) : Prop where
  granularity : map.granularity = granularity
  devSize : map.devSize = devSize
  drawn : map.generation ∈ used
  above : ∀ E, (map.generation, E) ∈ b.acks → E < map.currentEra
  bound : map.currentEra.toNat ≤ 1 + b.count

/-- What an `add` could load is of the generation of the map, and not ahead
of it. -/
def FileOf (path : MetaPath) (devSize granularity : UInt64) (fs : MetaFs) (map : EraState) :
    Prop :=
  ∀ snap clean, OnDisk path devSize granularity fs snap clean →
    snap.generation = map.generation ∧ snap.currentEra ≤ map.currentEra

/-- What the ctl thread knows in the middle of a command. -/
def CtlInv (path : MetaPath) (devSize granularity : UInt64) (b : Ledger) (fs : MetaFs)
    (map : EraState) : Ctl → Prop
  | .ready | .dump _ _ _ _ => b.pending = false
  | .checkpoint closed _ _ =>
    closed < map.currentEra ∧ (∀ E, (map.generation, E) ∈ b.acks → E < closed) ∧
      ∀ snap clean, OnDisk path devSize granularity fs snap clean →
        (b.pending = true → snap.currentEra ≤ closed) ∧
          (b.pending = false → closed < snap.currentEra)

def ModeInv (path : MetaPath) (devSize granularity : UInt64) (b : Ledger) (used : List UInt64)
    (fs : MetaFs) : Mode → Prop
  | .down => b.pending = false
  | .attaching map _ =>
    b.pending = false ∧ MapInv devSize granularity b used map ∧
      FileOf path devSize granularity fs map
  | .live map _ ctl =>
    MapInv devSize granularity b used map ∧ FileOf path devSize granularity fs map ∧
      CtlInv path devSize granularity b fs map ctl
  | .leaving map _ => b.pending = false ∧ MapInv devSize granularity b used map

variable {D : Type}

/-- The invariant of a run, with the ledger of its labels. -/
structure EraInv (path : MetaPath) (devSize granularity : UInt64) (b : Ledger)
    (s : State D) : Prop where
  drawn : ∀ g E, (g, E) ∈ b.acks → g ∈ s.used
  nodup : b.acks.Nodup
  fileDrawn : ∀ snap clean, OnDisk path devSize granularity s.fs snap clean →
    snap.generation ∈ s.used ∧ snap.currentEra.toNat ≤ 1 + b.count
  ahead : b.behind = false → ∀ snap clean, OnDisk path devSize granularity s.fs snap clean →
    ∀ E, (snap.generation, E) ∈ b.acks → E < snap.currentEra
  behind : b.behind = true → ∀ snap clean, OnDisk path devSize granularity s.fs snap clean →
    ∃ E, (snap.generation, E) ∈ b.acks ∧ snap.currentEra ≤ E
  save : ∀ clean map pc, s.mode.save = some (clean, map, pc) →
    SaveInv s.fs path clean map pc ∧
      (path.tmp = some path → pc.inWindow = true → b.behind = false ∧ b.pending = false)
  mode : ModeInv path devSize granularity b s.used s.fs s.mode

variable {path : MetaPath} {devSize granularity : UInt64}

theorem onDisk_empty {snap : EraState} {clean : Bool} :
    ¬ OnDisk path devSize granularity Fs.empty snap clean := by
  intro ⟨raw, name, urandom, hraw, _⟩
  cases hraw

theorem eraInv_init (medium : D) (image : Nat → UInt8) :
    EraInv path devSize granularity .empty (init medium image) where
  drawn _ _ h := by cases h
  nodup := List.nodup_nil
  fileDrawn _ _ h := (onDisk_empty h).elim
  ahead _ _ _ h := (onDisk_empty h).elim
  behind h := by cases h
  save _ _ _ h := by cases h
  mode := rfl

/-- A step of a save keeps what the save knows. -/
theorem SaveInv.step {clean : Bool} {map : EraState} {fs fs' : MetaFs} {pc pc' : SavePc}
    {l : SaveLabel} (h : SaveInv fs path clean map pc)
    (hs : SaveStep path clean map fs pc l fs' pc') : SaveInv fs' path clean map pc' := by
  refine ⟨hs.holds h.holds, ?_, ?_⟩
  · refine SaveStep.carries h.carries hs ?_
    intro ino era eras done hpc
    exact ⟨rfl, rfl, rfl, h.era ino era eras hpc⟩
  · intro ino era eras hpc
    obtain ⟨-, -, hera⟩ := h
    cases hs with
    | readEra =>
      cases hpc
      rfl
    | readChunk =>
      cases hpc
      exact hera _ _ _ rfl
    | create | serialise | write | sync | rename | renameMissing | fail => cases hpc

/-- The ledger after a step of a save. -/
theorem ledger_save (path : MetaPath) (b : Ledger) (l : SaveLabel) :
    (b.step path (.save l)).acks = b.acks ∧ (b.step path (.save l)).count = b.count ∧
      ((b.step path (.save l)).behind = true → b.behind = true ∧ l ≠ landing path) ∧
      ((b.step path (.save l)).pending = true → b.pending = true ∧ l ≠ landing path) ∧
      (l ≠ landing path → b.step path (.save l) = b) := by
  simp only [Ledger.step]
  split
  · rename_i hl
    exact ⟨rfl, rfl, nofun, nofun, fun h => absurd hl h⟩
  · rename_i hl
    exact ⟨rfl, rfl, fun h => ⟨h, hl⟩, fun h => ⟨h, hl⟩, fun _ => rfl⟩

theorem ledger_landing {path : MetaPath} {b : Ledger} {l : SaveLabel} (h : l = landing path) :
    (b.step path (.save l)).behind = false ∧ (b.step path (.save l)).pending = false := by
  simp [Ledger.step, h]

/-- The map of a running save is one that the daemon works with. -/
theorem EraInv.mapInv {b : Ledger} {s : State D} (h : EraInv path devSize granularity b s)
    {clean : Bool} {map : EraState} {pc : SavePc}
    (hrun : s.mode.save = some (clean, map, pc)) :
    MapInv devSize granularity b s.used map := by
  have hmode := h.mode
  cases hm : s.mode with
  | down =>
    rw [hm] at hrun
    cases hrun
  | attaching map' pc' =>
    rw [hm] at hrun hmode
    cases hrun
    exact hmode.2.1
  | live map' tags ctl =>
    rw [hm] at hrun hmode
    cases ctl with
    | ready | dump => cases hrun
    | checkpoint closed backup pc' =>
      cases hrun
      exact hmode.1
  | leaving map' pc' =>
    rw [hm] at hrun hmode
    cases hrun
    exact hmode.2

/-- The map of the ledger after a step of a save. -/
theorem MapInv.save {b : Ledger} {used : List UInt64} {map : EraState}
    (h : MapInv devSize granularity b used map) (path : MetaPath) (l : SaveLabel) :
    MapInv devSize granularity (b.step path (.save l)) used map := by
  obtain ⟨hacks, hcount, -⟩ := ledger_save path b l
  refine ⟨h.granularity, h.devSize, h.drawn, ?_, ?_⟩
  · rw [hacks]
    exact h.above
  · rw [hcount]
    exact h.bound

/-- A step of a save keeps the invariant. -/
theorem EraInv.stepSave {b : Ledger} {s : State D} {clean : Bool} {map : EraState}
    {pc pc' : SavePc} {l : SaveLabel} {fs : MetaFs}
    (h : EraInv path devSize granularity b s) (hrun : s.mode.save = some (clean, map, pc))
    (move : SaveStep path clean map s.fs pc l fs pc') :
    EraInv path devSize granularity (b.step path (.save l))
      { s with fs, mode := s.mode.withSave pc' } := by
  have hmap := h.mapInv hrun
  obtain ⟨hsave, hself⟩ := h.save _ _ _ hrun
  have hsave' := hsave.step move
  obtain ⟨hacks, hcount, hbehind, hpending, hkeep⟩ := ledger_save path b l
  have hP : ∀ snap, SnapOf map snap →
      snap.granularity = granularity ∧ snap.devSize = devSize := by
    intro snap hsnap
    exact ⟨hsnap.1.trans hmap.granularity, hsnap.2.1.trans hmap.devSize⟩
  have hland : path.tmp = some path → pc'.inWindow = true →
      (b.step path (.save l)).behind = false ∧ (b.step path (.save l)).pending = false := by
    intro hpath hwin
    by_cases hl : l = landing path
    · exact ledger_landing hl
    · rw [hkeep hl]
      rcases move.inWindow hwin with hpc | rfl
      · exact hself hpath hpc
      · rw [landing, if_pos hpath] at hl
        exact absurd rfl hl
  -- what is on the disk now was there before, or is the state of this save
  have hdisk : ∀ snap c, OnDisk path devSize granularity fs snap c →
      (l ≠ landing path ∧ OnDisk path devSize granularity s.fs snap c) ∨
        (SnapOf map snap ∧ (b.step path (.save l)).behind = false ∧
          (b.step path (.save l)).pending = false) := by
    intro snap c hon
    rcases onDisk_step hP hsave.holds hsave'.carries move hon with hold | ⟨hown, -, hland⟩
    · exact Or.inl hold
    · refine Or.inr ⟨hown, ?_⟩
      by_cases hl : l = landing path
      · exact ledger_landing hl
      · rw [hkeep hl]
        obtain ⟨hpath, hwin⟩ := hland.resolve_left hl
        exact hself hpath hwin
  have hfile : FileOf path devSize granularity s.fs map →
      FileOf path devSize granularity fs map := by
    intro hfile snap c hon
    rcases hdisk snap c hon with ⟨-, hold⟩ | ⟨⟨-, -, hgen, hera⟩, -⟩
    · exact hfile snap c hold
    · exact ⟨hgen, by rw [hera]; exact UInt32.le_refl _⟩
  have hquiet : b.pending = false → (b.step path (.save l)).pending = false := by
    intro hnone
    by_contra hne
    rw [(hpending (by simpa using hne)).1] at hnone
    cases hnone
  refine ⟨?_, ?_, ?_, ?_, ?_, ?_, ?_⟩
  · rw [hacks]
    exact h.drawn
  · rw [hacks]
    exact h.nodup
  · intro snap c hon
    rw [hcount]
    rcases hdisk snap c hon with ⟨-, hold⟩ | ⟨⟨-, -, hgen, hera⟩, -⟩
    · exact h.fileDrawn snap c hold
    · rw [hgen, hera]
      exact ⟨hmap.drawn, hmap.bound⟩
  · intro hup snap c hon E hE
    rw [hacks] at hE
    rcases hdisk snap c hon with ⟨hl, hold⟩ | ⟨⟨-, -, hgen, hera⟩, -⟩
    · rw [hkeep hl] at hup
      exact h.ahead hup snap c hold E hE
    · rw [hgen] at hE
      rw [hera]
      exact hmap.above E hE
  · intro hlate snap c hon
    rw [hacks]
    rcases hdisk snap c hon with ⟨-, hold⟩ | ⟨-, hup, -⟩
    · exact h.behind (hbehind hlate).1 snap c hold
    · rw [hup] at hlate
      cases hlate
  · intro clean' map' pc'' hrun'
    rw [Mode.save_withSave hrun] at hrun'
    cases hrun'
    exact ⟨hsave', hland⟩
  · have hmode := h.mode
    cases hm : s.mode with
    | down =>
      rw [hm] at hrun
      cases hrun
    | attaching map' pc'' =>
      rw [hm] at hrun hmode
      cases hrun
      exact ⟨hquiet hmode.1, hmap.save path l, hfile hmode.2.2⟩
    | live map' tags ctl =>
      rw [hm] at hrun hmode
      cases ctl with
      | ready | dump => cases hrun
      | checkpoint closed backup pc'' =>
        cases hrun
        obtain ⟨-, hfile', hclosed, hacked, hctl⟩ := hmode
        refine ⟨hmap.save path l, hfile hfile', hclosed, ?_, ?_⟩
        · rw [hacks]
          exact hacked
        · intro snap c hon
          rcases hdisk snap c hon with ⟨hl, hold⟩ | ⟨⟨-, -, -, hera⟩, -, hnone⟩
          · rw [hkeep hl]
            exact hctl snap c hold
          · rw [hnone, hera]
            exact ⟨Bool.noConfusion, fun _ => hclosed⟩
    | leaving map' pc'' =>
      rw [hm] at hrun hmode
      cases hrun
      exact ⟨hquiet hmode.1, hmap.save path l⟩

/-! ## The other steps -/

/-- A step that touches neither the file system nor the ledger needs to show
only what holds in the new mode. -/
theorem EraInv.of_mode {b : Ledger} {s s' : State D} (h : EraInv path devSize granularity b s)
    (hfs : s'.fs = s.fs) (hused : s'.used = s.used)
    (hsave : ∀ clean map pc, s'.mode.save = some (clean, map, pc) →
      SaveInv s.fs path clean map pc ∧
        (path.tmp = some path → pc.inWindow = true → b.behind = false ∧ b.pending = false))
    (hmode : ModeInv path devSize granularity b s.used s.fs s'.mode) :
    EraInv path devSize granularity b s' := by
  obtain ⟨hdrawn, hnodup, hfile, hahead, hbehind, -, -⟩ := h
  rw [← hfs] at hfile hahead hbehind hsave hmode
  rw [← hused] at hdrawn hfile hmode
  exact ⟨hdrawn, hnodup, hfile, hahead, hbehind, hsave, hmode⟩

/-- A save that has not begun knows nothing. -/
theorem saveInv_create (fs : MetaFs) (clean : Bool) (map : EraState) :
    SaveInv fs path clean map .create :=
  ⟨trivial, nofun, nofun⟩

theorem MapInv.congr {b : Ledger} {used : List UInt64} {map map' : EraState}
    (hsame : SnapOf map map') (h : MapInv devSize granularity b used map) :
    MapInv devSize granularity b used map' := by
  obtain ⟨hg, hd, hgen, hera⟩ := hsame
  refine ⟨hg.trans h.granularity, hd.trans h.devSize, ?_, ?_, ?_⟩
  · rw [hgen]
    exact h.drawn
  · rw [hgen, hera]
    exact h.above
  · rw [hera]
    exact h.bound

theorem FileOf.congr {fs : MetaFs} {map map' : EraState} (hsame : SnapOf map map')
    (h : FileOf path devSize granularity fs map) :
    FileOf path devSize granularity fs map' := by
  obtain ⟨-, -, hgen, hera⟩ := hsame
  unfold FileOf
  rw [hgen, hera]
  exact h

theorem CtlInv.congr {b : Ledger} {fs : MetaFs} {map map' : EraState} {ctl : Ctl}
    (hsame : SnapOf map map') (h : CtlInv path devSize granularity b fs map ctl) :
    CtlInv path devSize granularity b fs map' ctl := by
  obtain ⟨-, -, hgen, hera⟩ := hsame
  cases ctl with
  | ready | dump => exact h
  | checkpoint closed backup pc =>
    simp only [CtlInv, hgen, hera]
    exact h

theorem SaveInv.congr {fs : MetaFs} {clean : Bool} {map map' : EraState} {pc : SavePc}
    (hsame : SnapOf map map') (h : SaveInv fs path clean map pc) :
    SaveInv fs path clean map' pc := by
  obtain ⟨hholds, hcarries, hera⟩ := h
  obtain ⟨hg, hd, hgen, hcur⟩ := hsame
  refine ⟨hholds, ?_, ?_⟩
  · apply hcarries.mono
    intro snap ⟨hg', hd', hgen', hcur'⟩
    exact ⟨hg'.trans hg.symm, hd'.trans hd.symm, hgen'.trans hgen.symm, hcur'.trans hcur.symm⟩
  · rw [hcur]
    exact hera

/-- No tag step moves the head of the map. -/
theorem snapOf_io {B : Backing D} {t t' : IoState D} {l : Io.Label} (hs : Io.Step B t l t') :
    SnapOf t.map t'.map := by
  have hg := Io.step_grows hs
  exact ⟨hg.granularity, hg.devSize, hg.generation, Io.step_currentEra hs⟩

/-- The map after the `fetch_add` of a checkpoint. -/
theorem MapInv.checkpoint {b : Ledger} {used : List UInt64} {map : EraState}
    (h : MapInv devSize granularity b used map)
    (hw : map.currentEra < map.currentEra + 1) :
    MapInv devSize granularity { b with pending := true, count := b.count + 1 } used
      map.checkpoint.1 := by
  refine ⟨h.granularity, h.devSize, h.drawn, ?_, ?_⟩
  · intro E hE
    exact UInt32.lt_trans (h.above E hE) hw
  · have hbound := h.bound
    have h1 : (1 : UInt32).toNat = 1 := rfl
    rw [EraState.checkpoint_currentEra, UInt32.toNat_add]
    show _ ≤ 1 + (b.count + 1)
    omega

/-- The `fetch_add` of a checkpoint. -/
theorem EraInv.stepCheckpoint {b : Ledger} {s s' : State D} {map : EraState}
    {tags : Tag → TagPhase} {backup : Bool} (h : EraInv path devSize granularity b s)
    (hbound : b.count + 1 < 2 ^ 32 - 1) (live : s.mode = .live map tags .ready)
    (hfs : s'.fs = s.fs) (hused : s'.used = s.used)
    (hmode' : s'.mode
      = .live map.checkpoint.1 tags (.checkpoint map.checkpoint.2.1 backup .create)) :
    EraInv path devSize granularity { b with pending := true, count := b.count + 1 } s' := by
  have hmode := h.mode
  rw [live] at hmode
  obtain ⟨hmap, hfile, -⟩ := hmode
  have hw : map.currentEra < map.currentEra + 1 := by
    have := hmap.bound
    apply EraState.lt_succ_of_noWrap
    omega
  obtain ⟨hdrawn, hnodup, hfileDrawn, hahead, hbehind, -, -⟩ := h
  refine ⟨?_, hnodup, ?_, ?_, ?_, ?_, ?_⟩
  · rw [hused]
    exact hdrawn
  · rw [hfs, hused]
    intro snap clean hon
    obtain ⟨hgen, hcount⟩ := hfileDrawn snap clean hon
    exact ⟨hgen, by show _ ≤ 1 + (b.count + 1); omega⟩
  · rw [hfs]
    exact hahead
  · rw [hfs]
    exact hbehind
  · intro clean map' pc hrun
    rw [hmode'] at hrun
    cases hrun
    exact ⟨saveInv_create _ _ _, nofun⟩
  · rw [hmode', hused, hfs]
    refine ⟨hmap.checkpoint hw, ?_, hw, hmap.above, ?_⟩
    · intro snap clean hon
      obtain ⟨hgen, hle⟩ := hfile snap clean hon
      exact ⟨hgen, UInt32.le_trans hle (UInt32.le_of_lt hw)⟩
    · intro snap clean hon
      exact ⟨fun _ => (hfile snap clean hon).2, nofun⟩

/-- The response of a checkpoint. -/
theorem EraInv.stepAnswer {b : Ledger} {s s' : State D} {map : EraState}
    {tags : Tag → TagPhase} {closed : UInt32} {backup : Bool} {pc : SavePc}
    (h : EraInv path devSize granularity b s)
    (live : s.mode = .live map tags (.checkpoint closed backup pc))
    (hfs : s'.fs = s.fs) (hused : s'.used = s.used) (hmode' : s'.mode = .live map tags .ready) :
    EraInv path devSize granularity
      { b with
        acks := (map.generation, closed) :: b.acks
        pending := false
        behind := b.behind || b.pending } s' := by
  have hmode := h.mode
  rw [live] at hmode
  obtain ⟨hmap, hfile, hclosed, hacked, hctl⟩ := hmode
  obtain ⟨hdrawn, hnodup, hfileDrawn, hahead, hbehind, -, -⟩ := h
  refine ⟨?_, ?_, ?_, ?_, ?_, ?_, ?_⟩
  · rw [hused]
    intro g E hE
    rcases List.mem_cons.mp hE with heq | hE
    · cases heq
      exact hmap.drawn
    · exact hdrawn g E hE
  · refine List.nodup_cons.mpr ⟨?_, hnodup⟩
    intro hmem
    exact UInt32.lt_irrefl _ (hacked closed hmem)
  · rw [hfs, hused]
    exact hfileDrawn
  · rw [hfs]
    intro hup snap clean hon E hE
    obtain ⟨hgood, hnone⟩ := Bool.or_eq_false_iff.mp hup
    rcases List.mem_cons.mp hE with heq | hE
    · rw [(Prod.mk.inj heq).2]
      exact (hctl snap clean hon).2 hnone
    · exact hahead hgood snap clean hon E hE
  · rw [hfs]
    intro hlate snap clean hon
    by_cases hwas : b.behind = true
    · obtain ⟨E, hE, hle⟩ := hbehind hwas snap clean hon
      exact ⟨E, List.mem_cons_of_mem _ hE, hle⟩
    · have hpending : b.pending = true := by
        rcases Bool.or_eq_true_iff.mp hlate with hlate | hlate
        · exact absurd hlate hwas
        · exact hlate
      refine ⟨closed, ?_, (hctl snap clean hon).1 hpending⟩
      rw [(hfile snap clean hon).1]
      exact List.mem_cons_self
  · intro clean map' pc' hrun
    rw [hmode'] at hrun
    cases hrun
  · rw [hmode', hused, hfs]
    refine ⟨⟨hmap.granularity, hmap.devSize, hmap.drawn, ?_, hmap.bound⟩, hfile, rfl⟩
    intro E hE
    rcases List.mem_cons.mp hE with heq | hE
    · cases heq
      exact hclosed
    · exact hmap.above E hE

/-- An `add`: the map that it has loaded or made, before its marker. -/
theorem EraInv.stepAdd {b : Ledger} {s : State D} {map : EraState} {used : List UInt64}
    (h : EraInv path devSize granularity b s) (down : s.mode = .down)
    (hused : ∀ g, g ∈ s.used → g ∈ used) (hmap : MapInv devSize granularity b used map)
    (hfile : FileOf path devSize granularity s.fs map) :
    EraInv path devSize granularity b { s with mode := .attaching map .create, used } := by
  have hmode := h.mode
  rw [down] at hmode
  obtain ⟨hdrawn, hnodup, hfileDrawn, hahead, hbehind, -, -⟩ := h
  refine ⟨fun g E hE => hused g (hdrawn g E hE), hnodup, ?_, hahead, hbehind, ?_,
    hmode, hmap, hfile⟩
  · intro snap clean hon
    obtain ⟨hgen, hcount⟩ := hfileDrawn snap clean hon
    exact ⟨hused _ hgen, hcount⟩
  · intro clean map' pc hrun
    cases hrun
    exact ⟨saveInv_create _ _ _, nofun⟩

/-- An `add` without a file. -/
theorem EraInv.stepFresh {b : Ledger} {s : State D} {map : EraState} {generation : UInt64}
    (h : EraInv path devSize granularity b s) (down : s.mode = .down)
    (absent : s.fs.read path = none)
    (new : EraState.new devSize granularity (.ok generation) = .ok map)
    (fresh : generation ∉ s.used) :
    EraInv path devSize granularity b
      { s with mode := .attaching map .create, used := generation :: s.used } := by
  obtain ⟨rfl, hera, hd, hg⟩ := EraState.new_ok new
  apply h.stepAdd down (fun g hg => List.mem_cons_of_mem _ hg)
  · refine ⟨hg, hd, List.mem_cons_self, ?_, ?_⟩
    · intro E hE
      exact absurd (h.drawn _ _ hE) fresh
    · have h1 : (1 : UInt32).toNat = 1 := rfl
      rw [hera]
      omega
  · intro snap clean hon
    obtain ⟨raw, name, urandom, hraw, -⟩ := hon
    rw [absent] at hraw
    cases hraw

/-- An `add` that loads the file, while no acknowledged checkpoint is
behind. -/
theorem EraInv.stepLoaded {b : Ledger} {s : State D} {map : EraState} {clean : Bool}
    (h : EraInv path devSize granularity b s) (down : s.mode = .down)
    (hgood : b.behind = false) (hon : OnDisk path devSize granularity s.fs map clean) :
    EraInv path devSize granularity b
      { s with mode := .attaching (map.recover clean) .create } := by
  obtain ⟨hg, hd⟩ := hon.shape
  obtain ⟨hgen, hcount⟩ := h.fileDrawn map clean hon
  have hsame : SnapOf map (map.recover clean) := by simp [SnapOf]
  apply h.stepAdd down (fun g hg => hg)
  · exact MapInv.congr hsame ⟨hg, hd, hgen, h.ahead hgood map clean hon, hcount⟩
  · apply FileOf.congr hsame
    intro snap clean' hon'
    obtain ⟨rfl, -⟩ := hon.unique hon'
    exact ⟨rfl, UInt32.le_refl _⟩

/-- The backing is detached and no checkpoint is left without its
response. -/
theorem EraInv.stepDown {b : Ledger} {s s' : State D} (h : EraInv path devSize granularity b s)
    (hfs : s'.fs = s.fs) (hused : s'.used = s.used) (hmode' : s'.mode = .down) :
    EraInv path devSize granularity { b with pending := false } s' := by
  obtain ⟨hdrawn, hnodup, hfileDrawn, hahead, hbehind, -, -⟩ := h
  rw [← hfs] at hfileDrawn hahead hbehind
  rw [← hused] at hdrawn hfileDrawn
  refine ⟨hdrawn, hnodup, hfileDrawn, hahead, hbehind, ?_, ?_⟩
  · intro clean map pc hrun
    rw [hmode'] at hrun
    cases hrun
  · rw [hmode']
    rfl

/-- The deletion of the metadata file leaves nothing to load. -/
theorem EraInv.stepUnlink {b : Ledger} {s : State D} (h : EraInv path devSize granularity b s)
    (down : s.mode = .down) :
    EraInv path devSize granularity b { s with fs := s.fs.unlink path } := by
  have hnone : ∀ snap clean, ¬ OnDisk path devSize granularity (s.fs.unlink path) snap clean := by
    intro snap clean ⟨raw, name, urandom, hraw, _⟩
    rw [Fs.read_unlink_self] at hraw
    cases hraw
  have hmode := h.mode
  rw [down] at hmode
  refine ⟨h.drawn, h.nodup, ?_, ?_, ?_, ?_, ?_⟩
  · intro snap clean hon
    exact absurd hon (hnone snap clean)
  · intro _ snap clean hon
    exact absurd hon (hnone snap clean)
  · intro _ snap clean hon
    exact absurd hon (hnone snap clean)
  · intro clean map pc hrun
    rw [down] at hrun
    cases hrun
  · rw [down]
    exact hmode

/-- One step keeps the invariant, as long as the era counter does not wrap
and no `add` loads the file while an acknowledged checkpoint is behind. -/
theorem EraInv.step {B : Backing D} {b : Ledger} {s s' : State D} {l : Label}
    (h : EraInv path devSize granularity b s) (hbound : (b.step path l).count < 2 ^ 32 - 1)
    (hgood : ∀ g e, l = .addLoaded g e → b.behind = false)
    (hs : Step B path devSize granularity s l s') :
    EraInv path devSize granularity (b.step path l) s' := by
  have hmode := h.mode
  have hsave := h.save
  cases hs with
  | addFresh down absent new fresh => exact h.stepFresh down absent new fresh
  | addLoaded down present load =>
    exact h.stepLoaded down (hgood _ _ rfl) ⟨_, _, _, present, load⟩
  | save running move => exact h.stepSave running move
  | attached marked =>
    rw [marked] at hmode
    exact h.of_mode rfl rfl nofun ⟨hmode.2.1, hmode.2.2, hmode.1⟩
  | attachFailed failed =>
    rw [failed] at hmode
    exact h.of_mode rfl rfl nofun hmode.1
  | startFailed marked =>
    rw [marked] at hmode
    exact h.of_mode rfl rfl nofun hmode.1
  | runFailed marked =>
    rw [marked] at hmode
    refine h.of_mode rfl rfl ?_ ⟨hmode.1, hmode.2.1⟩
    intro clean map pc hrun
    cases hrun
    exact ⟨saveInv_create _ _ _, nofun⟩
  | @io map map' tags tags' ctl medium' l live tag =>
    have hsame := snapOf_io tag
    rw [live] at hmode
    obtain ⟨hmap, hfile, hctl⟩ := hmode
    refine h.of_mode rfl rfl ?_ ⟨hmap.congr hsame, hfile.congr hsame, hctl.congr hsame⟩
    intro clean map'' pc hrun
    cases ctl with
    | ready | dump => cases hrun
    | checkpoint closed backup pc' =>
      cases hrun
      obtain ⟨hinv, hland⟩ := hsave false map pc (by rw [live]; rfl)
      exact ⟨hinv.congr hsame, hland⟩
  | checkpoint live => exact h.stepCheckpoint hbound live rfl rfl rfl
  | backup live idle => exact h.stepCheckpoint hbound live rfl rfl rfl
  | answer live returned => exact h.stepAnswer live rfl rfl rfl
  | dump live task cursor known =>
    rw [live] at hmode
    exact h.of_mode rfl rfl nofun hmode
  | readRange live more =>
    rw [live] at hmode
    exact h.of_mode rfl rfl nofun hmode
  | endScan live done =>
    rw [live] at hmode
    exact h.of_mode rfl rfl nofun hmode
  | fullCopy live task refused => exact h.of_mode rfl rfl hsave hmode
  | copy live task part left => exact h.of_mode rfl rfl hsave hmode
  | endCopy live task done => exact h.of_mode rfl rfl hsave hmode
  | del live drained =>
    rw [live] at hmode
    obtain ⟨hmap, -, hready⟩ := hmode
    refine h.of_mode rfl rfl ?_ ⟨hready, hmap⟩
    intro clean map' pc hrun
    cases hrun
    exact ⟨saveInv_create _ _ _, nofun⟩
  | gone leaving returned =>
    rw [leaving] at hmode
    exact h.of_mode rfl rfl nofun hmode.1
  | kill settles => exact h.stepDown rfl rfl rfl
  | unlink down => exact h.stepUnlink down

/-! ## The recovered era -/

/-- The acknowledged pairs of generation and closed era, the oldest one
first. -/
def acked (trace : List Label) : List (UInt64 × UInt32) :=
  trace.filterMap fun
    | .answer generation closed _ => some (generation, closed)
    | _ => none

theorem acks_ledger (path : MetaPath) (trace : List Label) :
    (ledger path trace).acks = (acked trace).reverse := by
  induction trace using List.reverseRecOn with
  | nil => rfl
  | append_singleton trace l ih =>
    rw [ledger_snoc, acked, List.filterMap_append, ← acked, List.reverse_append, ← ih]
    cases l with
    | save k =>
      simp only [Ledger.step]
      split
      · rfl
      · rfl
    | _ => rfl

/-- Every `add` that keeps the generation recovers an era above every
acknowledged one. -/
def ReaddsAbove (trace : List Label) : Prop :=
  Along (fun before l => ∀ generation era, l = .addLoaded generation era →
    ∀ closed, (generation, closed) ∈ acked before → closed < era) trace

/-- No `add` loads the file while an acknowledged checkpoint is behind. -/
def NoneBehind (path : MetaPath) (trace : List Label) : Prop :=
  Along (fun before l => ∀ generation era, l = .addLoaded generation era →
    (ledger path before).behind = false) trace

variable {B : Backing D}

/-- The run lemma. -/
theorem run_eraInv {medium : D} {image : Nat → UInt8} {trace : List Label} {s : State D}
    (hrun : Run (Step B path devSize granularity) (init medium image) trace s)
    (hbound : trace.countP Label.checkpoints < 2 ^ 32 - 1) (hgood : NoneBehind path trace) :
    EraInv path devSize granularity (ledger path trace) s := by
  induction hrun with
  | nil => exact eraInv_init medium image
  | @snoc trace t u l run last ih =>
    obtain ⟨hprev, hlast⟩ := along_snoc.mp hgood
    have hcount := count_ledger path (trace ++ [l])
    rw [ledger_snoc] at hcount ⊢
    refine (ih ?_ hprev).step (by omega) hlast last
    rw [List.countP_append] at hbound
    omega

/-- Every `add` that keeps the generation recovers an era above every
acknowledged one, and no pair is acknowledged twice, exactly when no `add`
loads the file while an acknowledged checkpoint is behind. -/
theorem readds_above_iff {medium : D} {image : Nat → UInt8} {trace : List Label} {s : State D}
    (hrun : Run (Step B path devSize granularity) (init medium image) trace s)
    (hbound : trace.countP Label.checkpoints < 2 ^ 32 - 1) :
    (ReaddsAbove trace ∧ (acked trace).Nodup) ↔ NoneBehind path trace := by
  induction hrun with
  | nil => exact ⟨fun _ => along_nil _, fun _ => ⟨along_nil _, List.nodup_nil⟩⟩
  | @snoc trace t u l run last ih =>
    have hprev : trace.countP Label.checkpoints < 2 ^ 32 - 1 := by
      rw [List.countP_append] at hbound
      omega
    have hmem : ∀ a, a ∈ (ledger path trace).acks ↔ a ∈ acked trace := by
      intro a
      rw [acks_ledger, List.mem_reverse]
    constructor
    · intro ⟨habove, hnodup⟩
      obtain ⟨habove, hlast⟩ := along_snoc.mp habove
      rw [acked, List.filterMap_append] at hnodup
      have hgood := (ih hprev).mp ⟨habove, hnodup.of_append_left⟩
      refine along_snoc.mpr ⟨hgood, ?_⟩
      intro generation era hl
      subst hl
      have hinv := run_eraInv run hprev hgood
      -- otherwise the file carries an era that was acknowledged
      by_contra hlate
      cases last with
      | addLoaded down present load =>
        obtain ⟨E, hE, hle⟩ := hinv.behind (by simpa using hlate) _ _ ⟨_, _, _, present, load⟩
        exact absurd (hlast _ _ rfl E ((hmem _).mp hE)) (UInt32.not_lt.mpr hle)
    · intro hgood
      have hinv := run_eraInv (run.snoc last) hbound hgood
      obtain ⟨hbefore, hlast⟩ := along_snoc.mp hgood
      obtain ⟨habove, -⟩ := (ih hprev).mpr hbefore
      refine ⟨along_snoc.mpr ⟨habove, ?_⟩, ?_⟩
      · intro generation era hl closed hclosed
        subst hl
        have hup := hlast _ _ rfl
        cases last with
        | addLoaded down present load =>
          exact (run_eraInv run hprev hbefore).ahead hup _ _ ⟨_, _, _, present, load⟩ closed
            ((hmem _).mpr hclosed)
      · have hnodup := hinv.nodup
        rw [acks_ledger] at hnodup
        exact List.nodup_reverse.mp hnodup

/-! ### A device of one chunk -/

section OneChunk

open Live

/-- A device of one chunk, attached for the first time. -/
theorem exists_attached :
    ∃ fs, Run (Step plainDisk MetaPath.aMeta 4096 4096) (init zeroed zeroed)
        (.addFresh 7 :: ((saveLabels 1 ++ [SaveLabel.rename]).map Label.save ++ [.attached]))
        { init zeroed zeroed with
          fs, used := [7], mode := .live EraState.oneChunk (fun _ => .idle) .ready } ∧
      fs.read MetaPath.aMeta = some (EraState.oneChunk.metaBytes false) := by
  have hadd : Step plainDisk MetaPath.aMeta 4096 4096 (init zeroed zeroed) (.addFresh 7) _ :=
    .addFresh rfl rfl EraState.new_oneChunk (by decide)
  obtain ⟨fs, hrun, hread⟩ := attach_run plainDisk MetaPath.aMeta 4096 4096 MetaPath.tmp_aMeta
    (s := { init zeroed zeroed with
      used := [7], mode := .attaching EraState.oneChunk .create }) rfl
  exact ⟨fs, .cons hadd hrun, hread⟩

/-- The labels of a save that nothing disturbs. -/
def savedLabels : List Label := (saveLabels 1 ++ [SaveLabel.rename]).map Label.save

/-- One acknowledged checkpoint whose save has landed, and a kill. -/
def savedTrace : List Label :=
  .addFresh 7 :: savedLabels ++ [.attached, .checkpoint false] ++ savedLabels
    ++ [.answer 7 1 true, .kill]

/-- The save of the checkpoint landed before its response, so the file that
the `add` loads is above the acknowledged era. -/
theorem readds_above_oneChunk :
    ∃ s : State (Nat → UInt8),
      Run (Step plainDisk MetaPath.aMeta 4096 4096) (init zeroed zeroed)
        (savedTrace ++ [.addLoaded 7 2]) s ∧
      ReaddsAbove (savedTrace ++ [.addLoaded 7 2]) ∧
      (acked (savedTrace ++ [.addLoaded 7 2])).Nodup := by
  obtain ⟨fs, hattach, -⟩ := exists_attached
  have hcheckpoint := hattach.snoc (.checkpoint rfl)
  obtain ⟨fs', hsave, hread⟩ := save_run plainDisk MetaPath.aMeta 4096 4096 MetaPath.tmp_aMeta
    (s := { init zeroed zeroed with
      fs, used := [7]
      mode := .live EraState.oneChunk.checkpoint.1 (fun _ => .idle)
        (.checkpoint 1 false .create) }) rfl
  have hanswer := (hcheckpoint.append hsave).snoc (.answer rfl rfl)
  have hrun : Run (Step plainDisk MetaPath.aMeta 4096 4096) (init zeroed zeroed)
      (savedTrace ++ [.addLoaded 7 2]) _ :=
    hanswer.append (readd_run plainDisk EraState.oneChunk.checkpoint.1 rfl rfl hread)
  have hgood : NoneBehind MetaPath.aMeta (savedTrace ++ [.addLoaded 7 2]) := by
    refine along_snoc.mpr ⟨?_, ?_⟩
    · intro before l after heq generation era hl
      have hmem : l ∈ savedTrace := by simp [heq]
      rw [hl] at hmem
      simp [savedTrace, savedLabels, saveLabels] at hmem
    · intro _ _ _
      rfl
  have hiff := readds_above_iff hrun (by decide)
  exact ⟨_, hrun, hiff.mpr hgood⟩

/-- One checkpoint whose save has failed; the daemon answers all the same,
and is killed.  After the `add` the same again. -/
def failedTrace : List Label :=
  .addFresh 7 :: savedLabels ++ [.attached, .checkpoint false, .save .fail, .answer 7 1 false]
    ++ [.kill, .addLoaded 7 1] ++ savedLabels
    ++ [.attached, .checkpoint false, .save .fail, .answer 7 1 false]

/-- A checkpoint whose save fails before anything is written. -/
theorem checkpoint_failed {s : State (Nat → UInt8)} {map : EraState}
    {tags : Tag → TagPhase} (live : s.mode = .live map tags .ready) :
    Run (Step plainDisk MetaPath.aMeta 4096 4096) s
      [.checkpoint false, .save .fail, .answer map.generation map.currentEra false]
      { s with mode := .live map.checkpoint.1 tags .ready } := by
  have hcheckpoint : Step plainDisk MetaPath.aMeta 4096 4096 s (.checkpoint false) _ :=
    .checkpoint live
  have hfail : Step plainDisk MetaPath.aMeta 4096 4096
      { s with mode := .live map.checkpoint.1 tags (.checkpoint map.currentEra false .create) }
      (.save .fail) _ := .save rfl (.fail rfl)
  have hanswer : Step plainDisk MetaPath.aMeta 4096 4096
      { s with
        mode := .live map.checkpoint.1 tags (.checkpoint map.currentEra false (.failed none)) }
      (.answer map.generation map.currentEra false)
      { s with mode := .live map.checkpoint.1 tags .ready } :=
    .answer (s := { s with
      mode := .live map.checkpoint.1 tags (.checkpoint map.currentEra false (.failed none)) })
      rfl rfl
  exact .cons hcheckpoint (.cons hfail (.single hanswer))

/-- The era that the `add` recovers was acknowledged before, and the next
checkpoint issues the same pair again. -/
theorem not_readds_above_after_failed_save :
    ∃ s : State (Nat → UInt8),
      Run (Step plainDisk MetaPath.aMeta 4096 4096) (init zeroed zeroed) failedTrace s ∧
      ¬ ReaddsAbove failedTrace ∧ ¬ (acked failedTrace).Nodup := by
  obtain ⟨fs, hattach, hread⟩ := exists_attached
  have hfailed := hattach.append (checkpoint_failed rfl)
  have hadd := hfailed.append (readd_run plainDisk EraState.oneChunk rfl rfl hread)
  obtain ⟨fs', hattach', -⟩ := attach_run plainDisk MetaPath.aMeta 4096 4096 MetaPath.tmp_aMeta
    (s := { init zeroed zeroed with
      fs, used := [7], mode := .attaching EraState.oneChunk.markAllDirty .create }) rfl
  have hrun := (hadd.append hattach').append (checkpoint_failed rfl)
  refine ⟨_, hrun, ?_, by decide⟩
  intro habove
  have hlt := habove (.addFresh 7 :: savedLabels ++ [.attached, .checkpoint false, .save .fail,
    .answer 7 1 false, .kill]) (.addLoaded 7 1) _ rfl 7 1 rfl 1 (by decide)
  exact absurd hlt (by decide)

end OneChunk

end Lifecycle

end Ublkera
