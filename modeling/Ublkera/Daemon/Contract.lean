import Ublkera.Daemon.Acknowledged

/-!
# The backup contract across crashes

The consumer keeps its cursor and its image while the daemon is killed, the
backing is attached again, and the metadata file is deleted.
`backup_contract`: after every completed backup with no write in flight, the
image is what the device holds.

The invariant follows the era map from one place to the next.  `Covered` is
the promise of a map towards the image: with a cursor of its generation, a
byte of the image is right, or its chunk is above the cursor, or a request
is under way.  The promise is kept by

* the map of the live device, at every step of every tag;
* the map of the final save, which is exactly what a clean file holds;
* a clean file, for as long as no device is live.

An unclean file promises nothing.  `mark_all_dirty` makes up for it, because
the era that it stamps is above the cursor (`EraInv`).
-/

namespace Ublkera

/-! ## The eras that a save reads -/

theorem Io.eraLe_of_mem {map : EraState} (h : ∀ e, e ∈ map.eras → e ≤ map.currentEra) :
    Io.EraLe map := by
  intro c
  unfold EraState.era
  rw [List.getD_eq_getElem?_getD]
  cases hget : map.eras[c]? with
  | none => exact UInt32.zero_le
  | some e => exact h e (List.mem_of_getElem? hget)

/-- `mark_all_dirty` stamps with the era counter and nothing above it. -/
theorem Io.EraLe.recover {map : EraState} (h : Io.EraLe map) (clean : Bool) :
    Io.EraLe (map.recover clean) := by
  cases clean with
  | true => exact h
  | false =>
    apply Io.eraLe_of_mem
    intro e he
    obtain ⟨d, hd, rfl⟩ := List.mem_map.mp he
    obtain ⟨i, hi, rfl⟩ := List.mem_iff_getElem.mp hd
    have hle := UInt32.le_iff_toNat_le.mp (h i)
    rw [map.era_eq_getElem hi] at hle
    show max _ map.currentEra ≤ map.currentEra
    rw [UInt32.le_iff_toNat_le, UInt32.toNat_max]
    omega

namespace Lifecycle

open LittleEndian PosixFs Trace

/-- What a save may write: a state of the head of the map with no era above
the counter, and for the final save the map itself. -/
def Written (clean : Bool) (map snap : EraState) : Prop :=
  SnapOf map snap ∧ Io.EraLe snap ∧ (clean = true → snap = map)

/-- What a running save has read. -/
structure ReadInv (clean : Bool) (map : EraState) (pc : SavePc) : Prop where
  carries : Carries (Written clean map) clean pc
  eras : ∀ ino era eras, pc = .readChunks ino era eras →
    (∀ e, e ∈ eras → e ≤ map.currentEra) ∧
      (clean = true → eras = map.eras.take eras.length)

theorem readInv_create (clean : Bool) (map : EraState) : ReadInv clean map .create :=
  ⟨nofun, nofun⟩

/-- The state that the final save has read is the map. -/
theorem frozen_eq_self {map : EraState} {eras : List UInt32} (hlen : eras.length = map.nrChunks)
    (heras : eras = map.eras.take eras.length) :
    map.frozen map.currentEra eras hlen = map := by
  ext1
  · rfl
  · rfl
  · rfl
  · rfl
  · show eras = map.eras
    rw [heras, hlen]
    exact List.take_length

theorem ReadInv.step {path : MetaPath} {clean : Bool} {map : EraState} {fs fs' : MetaFs}
    {pc pc' : SavePc} {l : SaveLabel} (h : ReadInv clean map pc)
    (hsave : SaveInv fs path clean map pc) (hle : Io.EraLe map)
    (hs : SaveStep path clean map fs pc l fs' pc') : ReadInv clean map pc' := by
  obtain ⟨hcarries, heras⟩ := h
  refine ⟨?_, ?_⟩
  · refine SaveStep.carries hcarries hs ?_
    intro ino era eras done hpc
    obtain rfl := hsave.era ino era eras hpc
    obtain ⟨hread, hall⟩ := heras ino _ eras hpc
    have hle' : Io.EraLe (map.frozen map.currentEra eras done) := Io.eraLe_of_mem hread
    exact ⟨⟨rfl, rfl, rfl, rfl⟩, hle', fun hclean => frozen_eq_self done (hall hclean)⟩
  · intro ino era eras hpc
    cases hs with
    | readEra =>
      cases hpc
      exact ⟨nofun, fun _ => rfl⟩
    | @readChunk ino' era' eras' more =>
      cases hpc
      obtain ⟨hread, hall⟩ := heras _ _ eras' rfl
      refine ⟨?_, ?_⟩
      · intro e he
        rcases List.mem_append.mp he with he | he
        · exact hread e he
        · rw [List.mem_singleton.mp he]
          exact hle _
      · intro hclean
        have hlt : eras'.length < map.eras.length := more
        rw [List.length_append, List.length_singleton, List.take_succ_eq_append_getElem hlt,
          ← hall hclean, map.era_eq_getElem hlt]
    | create | serialise | write | sync | rename | renameMissing | fail => cases hpc

/-- A checkpoint save reads a map that the tags go on stamping. -/
theorem ReadInv.congr {map map' : EraState} {pc : SavePc} (hsame : SnapOf map map')
    (h : ReadInv false map pc) : ReadInv false map' pc := by
  obtain ⟨hcarries, heras⟩ := h
  obtain ⟨hg, hd, hgen, hcur⟩ := hsame
  refine ⟨?_, ?_⟩
  · apply hcarries.mono
    intro snap ⟨⟨hg', hd', hgen', hcur'⟩, hle, _⟩
    exact ⟨⟨hg'.trans hg.symm, hd'.trans hd.symm, hgen'.trans hgen.symm,
      hcur'.trans hcur.symm⟩, hle, nofun⟩
  · intro ino era eras hpc
    rw [hcur]
    exact ⟨(heras ino era eras hpc).1, nofun⟩

/-! ## The invariant -/

variable {D : Type}

/-- The map of a backing that is not served. -/
def resting (map : EraState) (medium : D) : IoState D :=
  { map, medium, tags := fun _ => .idle }

/-- The promise of a map towards the image of the consumer. -/
def Covered (B : Backing D) (s : State D) (io : IoState D) : Prop :=
  ∀ since, s.cursor = some (io.map.generation, since) →
    ∀ x, x < io.map.devSize.toNat → Io.Tracked B io s.image since x

/-- A kill now would leave an unclean file, or none. -/
def Unclean (path : MetaPath) (devSize granularity : UInt64) (fs : MetaFs) : Prop :=
  ∀ snap clean, OnDisk path devSize granularity fs snap clean → clean = false

/-- What the ctl thread knows in the middle of a command. -/
def CommandInv (B : Backing D) (b : Ledger) (s : State D) (io : IoState D) : Ctl → Prop
  | .ready => True
  | .checkpoint _ backup pc =>
    (backup = true → s.task = .waiting) ∧ (pc.returned = true → b.pending = false)
  | .dump closed since i ranges =>
    s.task = .waiting ∧ (io.map.generation, closed) ∈ b.acks ∧
      ∀ x, x < io.map.devSize.toNat →
        Io.Tracked B io s.image closed x ∨
          (since < io.map.era (x / io.map.granularity.toNat) ∧
            (i ≤ x / io.map.granularity.toNat ∨ EraState.covers ranges x = true))

/-- What the consumer knows in the middle of a backup. -/
def TaskInv (B : Backing D) (b : Ledger) (s : State D) (io : IoState D) : Task → Prop
  | .idle | .waiting => True
  | .closed closed => (io.map.generation, closed) ∈ b.acks
  | .copying closed todo =>
    (io.map.generation, closed) ∈ b.acks ∧
      ∀ x, x < io.map.devSize.toNat → Io.Tracked B io s.image closed x ∨ todo x = true

structure ServedInv (B : Backing D) (path : MetaPath) (devSize granularity : UInt64)
    (b : Ledger) (s : State D) (io : IoState D) (ctl : Ctl) : Prop where
  tags : Io.Inv io
  eraLe : Io.EraLe io.map
  covered : Covered B s io
  unclean : Unclean path devSize granularity s.fs
  command : CommandInv B b s io ctl
  task : TaskInv B b s io s.task

structure RestingInv (B : Backing D) (s : State D) (map : EraState) : Prop where
  eraLe : Io.EraLe map
  covered : Covered B s (resting map s.medium)
  idle : s.task = .idle

def BackupModeInv (B : Backing D) (path : MetaPath) (devSize granularity : UInt64)
    (b : Ledger) (s : State D) : Mode → Prop
  | .down => s.task = .idle
  | .attaching map pc =>
    RestingInv B s map ∧ (pc.returned = true → Unclean path devSize granularity s.fs)
  | .live map tags ctl =>
    ServedInv B path devSize granularity b s { map, medium := s.medium, tags } ctl
  | .leaving map _ => RestingInv B s map

/-- The invariant of a run without a failing save. -/
structure BackupInv (B : Backing D) (path : MetaPath) (devSize granularity : UInt64)
    (b : Ledger) (s : State D) : Prop where
  era : EraInv path devSize granularity b s
  landed : b.behind = false
  cursor : ∀ generation since, s.cursor = some (generation, since) →
    (generation, since) ∈ b.acks
  file : ∀ snap clean, OnDisk path devSize granularity s.fs snap clean →
    Io.EraLe snap ∧ (clean = true → Covered B s (resting snap s.medium))
  read : ∀ clean map pc, s.mode.save = some (clean, map, pc) → ReadInv clean map pc
  mode : BackupModeInv B path devSize granularity b s s.mode

variable {B : Backing D} {path : MetaPath} {devSize granularity : UInt64}

theorem backupInv_init (medium : D) (image : Nat → UInt8) :
    BackupInv B path devSize granularity .empty (init medium image) where
  era := eraInv_init medium image
  landed := rfl
  cursor _ _ h := by cases h
  file _ _ h := (onDisk_empty h).elim
  read _ _ _ h := by cases h
  mode := rfl

/-- The promise outlives a kill that leaves the bytes as they are. -/
theorem Covered.congr {s s' : State D} {map : EraState} {medium : D}
    (h : Covered B s (resting map medium)) (hcursor : s'.cursor = s.cursor)
    (himage : s'.image = s.image) {medium' : D}
    (hview : ∀ x, B.view medium' x = B.view medium x) :
    Covered B s' (resting map medium') := by
  intro since hsince x hx
  rw [hcursor] at hsince
  rw [himage]
  rcases h since hsince x hx with heq | hrest
  · exact Or.inl (heq.trans (hview x).symm)
  · exact Or.inr hrest

/-- The pair of the consumer's cursor is below the era counter of every map
that the daemon works with. -/
theorem MapInv.cursor_lt {b : Ledger} {used : List UInt64} {map : EraState}
    (h : MapInv devSize granularity b used map) {since : UInt32}
    (hacked : (map.generation, since) ∈ b.acks) : since < map.currentEra :=
  h.above since hacked

/-! ## The steps of a save -/

/-- The labels that a run without a failing save has. -/
def Label.fails : Label → Bool
  | .save .fail => true
  | _ => false

/-- Only the final save of a detach writes a clean file. -/
theorem Mode.eq_leaving {mode : Mode} {map : EraState} {pc : SavePc}
    (h : mode.save = some (true, map, pc)) : mode = .leaving map pc := by
  cases mode with
  | down | attaching => cases h
  | live map' tags ctl =>
    cases ctl with
    | ready | dump | checkpoint => cases h
  | leaving =>
    cases h
    rfl

/-- A save that returns without an error has landed. -/
theorem landed_of_returned {clean : Bool} {map : EraState} {fs fs' : MetaFs}
    {pc pc' : SavePc} {l : SaveLabel} (hs : SaveStep path clean map fs pc l fs' pc')
    (hpath : path.tmp ≠ some path) (hl : l ≠ .fail) (hret : pc'.returned = true) :
    l = landing path := by
  rw [landing, if_neg hpath]
  cases hs with
  | create | readEra | readChunk | serialise | write | sync => cases hret
  | rename => rfl
  | renameMissing | fail => exact absurd rfl hl

/-- The map of a running save has no era above its counter. -/
theorem BackupInv.eraLe {b : Ledger} {s : State D}
    (h : BackupInv B path devSize granularity b s) {clean : Bool} {map : EraState}
    {pc : SavePc} (hrun : s.mode.save = some (clean, map, pc)) : Io.EraLe map := by
  have hmode := h.mode
  cases hm : s.mode with
  | down =>
    rw [hm] at hrun
    cases hrun
  | attaching map' pc' =>
    rw [hm] at hrun hmode
    cases hrun
    exact hmode.1.eraLe
  | live map' tags ctl =>
    rw [hm] at hrun hmode
    cases ctl with
    | ready | dump => cases hrun
    | checkpoint closed backup pc' =>
      cases hrun
      exact hmode.eraLe
  | leaving map' pc' =>
    rw [hm] at hrun hmode
    cases hrun
    exact hmode.eraLe

/-- A step of a save keeps the invariant. -/
theorem BackupInv.stepSave {b : Ledger} {s : State D} {clean : Bool} {map : EraState}
    {pc pc' : SavePc} {l : SaveLabel} {fs : MetaFs}
    (h : BackupInv B path devSize granularity b s) (hpath : path.tmp ≠ some path) (hl : l ≠ .fail)
    (hrun : s.mode.save = some (clean, map, pc))
    (move : SaveStep path clean map s.fs pc l fs pc') :
    BackupInv B path devSize granularity (b.step path (.save l))
      { s with fs, mode := s.mode.withSave pc' } := by
  have hmap := h.era.mapInv hrun
  have hsave := (h.era.save _ _ _ hrun).1
  have hread := h.read _ _ _ hrun
  have hread' := hread.step hsave (h.eraLe hrun) move
  obtain ⟨hacks, -, hbehind, -, -⟩ := ledger_save path b l
  have hP : ∀ snap, Written clean map snap →
      snap.granularity = granularity ∧ snap.devSize = devSize := by
    intro snap hsnap
    exact ⟨hsnap.1.1.trans hmap.granularity, hsnap.1.2.1.trans hmap.devSize⟩
  have hdisk : ∀ snap c, OnDisk path devSize granularity fs snap c →
      (l ≠ landing path ∧ OnDisk path devSize granularity s.fs snap c) ∨
        (Written clean map snap ∧ c = clean) := by
    intro snap c hon
    rcases onDisk_step hP hsave.holds hread'.carries move hon with hold | ⟨hown, hc, -⟩
    · exact Or.inl hold
    · exact Or.inr ⟨hown, hc⟩
  have hunclean : clean = false → Unclean path devSize granularity s.fs →
      Unclean path devSize granularity fs := by
    intro hclean hold snap c hon
    rcases hdisk snap c hon with ⟨-, hon⟩ | ⟨-, hc⟩
    · exact hold snap c hon
    · exact hc.trans hclean
  have hreturned : pc'.returned = true → (b.step path (.save l)).pending = false ∧
      (clean = false → Unclean path devSize granularity fs) := by
    intro hret
    have hland := landed_of_returned move hpath hl hret
    refine ⟨(ledger_landing hland).2, ?_⟩
    intro hclean snap c hon
    rcases hdisk snap c hon with ⟨hne, -⟩ | ⟨-, hc⟩
    · exact absurd hland hne
    · exact hc.trans hclean
  refine ⟨h.era.stepSave hrun move, ?_, ?_, ?_, ?_, ?_⟩
  · cases hb : (b.step path (.save l)).behind with
    | false => rfl
    | true =>
      have hlate := (hbehind hb).1
      rw [h.landed] at hlate
      cases hlate
  · rw [hacks]
    exact h.cursor
  · intro snap c hon
    rcases hdisk snap c hon with ⟨-, hon⟩ | ⟨⟨-, hle, hself⟩, hc⟩
    · exact h.file snap c hon
    · refine ⟨hle, ?_⟩
      intro htrue
      rw [hc] at htrue
      subst htrue
      rw [hself rfl]
      -- a clean file holds the map of the final save
      have hmode := h.mode
      rw [Mode.eq_leaving hrun] at hmode
      exact hmode.covered
  · intro clean' map' pc'' hrun'
    rw [Mode.save_withSave hrun] at hrun'
    cases hrun'
    exact hread'
  · have hmode := h.mode
    cases hm : s.mode with
    | down =>
      rw [hm] at hrun
      cases hrun
    | attaching map' pc'' =>
      rw [hm] at hrun hmode
      cases hrun
      exact ⟨⟨hmode.1.eraLe, hmode.1.covered, hmode.1.idle⟩, fun hret => (hreturned hret).2 rfl⟩
    | live map' tags ctl =>
      rw [hm] at hrun hmode
      cases ctl with
      | ready | dump => cases hrun
      | checkpoint closed backup pc'' =>
        cases hrun
        obtain ⟨htags, hle, hcovered, hold, ⟨hwaiting, -⟩, htask⟩ := hmode
        refine ⟨htags, hle, hcovered, hunclean rfl hold,
          ⟨hwaiting, fun hret => (hreturned hret).1⟩, ?_⟩
        show TaskInv B (b.step path (.save l)) _ _ s.task
        unfold TaskInv at htask ⊢
        rw [hacks]
        exact htask
    | leaving map' pc'' =>
      rw [hm] at hrun hmode
      cases hrun
      exact ⟨hmode.eraLe, hmode.covered, hmode.idle⟩

/-! ## The steps of a live device -/

/-- The map of a live device is one that the daemon works with. -/
theorem EraInv.live {b : Ledger} {s : State D} {map : EraState} {tags : Tag → TagPhase}
    {ctl : Ctl} (h : EraInv path devSize granularity b s) (live : s.mode = .live map tags ctl) :
    MapInv devSize granularity b s.used map := by
  have hmode := h.mode
  rw [live] at hmode
  exact hmode.1

/-- What a live device leaves on the disk is unclean, so no clean file has
to keep a promise. -/
theorem BackupInv.file_live {b : Ledger} {s s' : State D} {map : EraState}
    {tags : Tag → TagPhase} {ctl : Ctl} (h : BackupInv B path devSize granularity b s)
    (live : s.mode = .live map tags ctl) (hfs : s'.fs = s.fs) (snap : EraState) (clean : Bool)
    (hon : OnDisk path devSize granularity s'.fs snap clean) :
    Io.EraLe snap ∧ (clean = true → Covered B s' (resting snap s'.medium)) := by
  have hmode := h.mode
  rw [live] at hmode
  rw [hfs] at hon
  refine ⟨(h.file snap clean hon).1, ?_⟩
  intro hclean
  rw [hmode.unclean snap clean hon] at hclean
  cases hclean

/-- More acknowledged pairs do not hurt a backup. -/
theorem TaskInv.mono {b b' : Ledger} {s : State D} {io : IoState D} {task : Task}
    (hacks : ∀ a, a ∈ b.acks → a ∈ b'.acks) (h : TaskInv B b s io task) :
    TaskInv B b' s io task := by
  cases task with
  | idle | waiting => trivial
  | closed closed => exact hacks _ h
  | copying closed todo => exact ⟨hacks _ h.1, h.2⟩

/-- While the consumer is not waiting, no command of its backup runs. -/
theorem CommandInv.of_task {b : Ledger} {s s' : State D} {io : IoState D} {ctl : Ctl}
    (htask : s.task ≠ .waiting) (h : CommandInv B b s io ctl) : CommandInv B b s' io ctl := by
  cases ctl with
  | ready => trivial
  | checkpoint closed backup pc => exact ⟨fun hb => absurd (h.1 hb) htask, h.2⟩
  | dump closed since i ranges => exact absurd h.1 htask

/-- A step of a tag keeps the invariant. -/
theorem BackupInv.stepIo {b : Ledger} {s : State D} {map map' : EraState}
    {tags tags' : Tag → TagPhase} {ctl : Ctl} {medium' : D} {l : Io.Label}
    (h : BackupInv B path devSize granularity b s) (live : s.mode = .live map tags ctl)
    (tag : Io.Step B { map, medium := s.medium, tags } l
      { map := map', medium := medium', tags := tags' })
    (hera' : EraInv path devSize granularity b
      { s with medium := medium', mode := .live map' tags' ctl }) :
    BackupInv B path devSize granularity b
      { s with medium := medium', mode := .live map' tags' ctl } := by
  have hmode := h.mode
  rw [live] at hmode
  obtain ⟨htags, hle, hcovered, hunclean, hcommand, htask⟩ := hmode
  have hg := Io.step_grows tag
  have hgen : map'.generation = map.generation := hg.generation
  have hsize : map'.devSize = map.devSize := hg.devSize
  have hgran : map'.granularity = map.granularity := hg.granularity
  have htrack : ∀ {K : UInt32} {x : Nat}, (map.generation, K) ∈ b.acks →
      Io.Tracked B { map, medium := s.medium, tags } s.image K x →
      Io.Tracked B { map := map', medium := medium', tags := tags' } s.image K x := by
    intro K x hacked ht
    exact ht.step htags ((h.era.live live).cursor_lt hacked) tag
  refine ⟨hera', h.landed, h.cursor, h.file_live live rfl, ?_, ?_⟩
  · intro clean map'' pc hrun
    cases ctl with
    | ready | dump => cases hrun
    | checkpoint closed backup pc' =>
      cases hrun
      exact (h.read false map pc (by rw [live]; rfl)).congr (snapOf_io tag)
  · refine ⟨Io.step_inv htags tag, Io.step_eraLe htags hle tag, ?_, hunclean, ?_, ?_⟩
    · intro since hsince x hx
      rw [show _ = map.generation from hgen] at hsince
      rw [show _ = map.devSize from hsize] at hx
      exact htrack (h.cursor _ _ hsince) (hcovered since hsince x hx)
    · cases ctl with
      | ready => trivial
      | checkpoint closed backup pc => exact hcommand
      | dump closed since i ranges =>
        obtain ⟨hwaiting, hacked, hscan⟩ := hcommand
        simp only [CommandInv, hgen, hsize, hgran]
        refine ⟨hwaiting, hacked, fun x hx => ?_⟩
        rcases hscan x hx with ht | ⟨hera, hrest⟩
        · exact Or.inl (htrack hacked ht)
        · exact Or.inr ⟨UInt32.lt_of_lt_of_le hera (hg.era _), hrest⟩
    · show TaskInv B b _ _ s.task
      cases htask' : s.task with
      | idle | waiting => trivial
      | closed closed =>
        rw [htask'] at htask
        simp only [TaskInv, hgen]
        exact htask
      | copying closed todo =>
        rw [htask'] at htask
        simp only [TaskInv, hgen, hsize]
        exact ⟨htask.1, fun x hx => (htask.2 x hx).imp_left (htrack htask.1)⟩

/-- The `fetch_add` of a checkpoint keeps the invariant. -/
theorem BackupInv.stepCheckpoint {b : Ledger} {s : State D} {map : EraState}
    {tags : Tag → TagPhase} {backup : Bool} {task : Task}
    (h : BackupInv B path devSize granularity b s) (live : s.mode = .live map tags .ready)
    (hbound : b.count + 1 < 2 ^ 32 - 1) (htask : task = s.task ∨ task = .waiting)
    (hwaiting : backup = true → task = .waiting)
    (hera' : EraInv path devSize granularity
      { b with pending := true, count := b.count + 1 }
      { s with
        mode := .live map.checkpoint.1 tags (.checkpoint map.checkpoint.2.1 backup .create)
        task }) :
    BackupInv B path devSize granularity { b with pending := true, count := b.count + 1 }
      { s with
        mode := .live map.checkpoint.1 tags (.checkpoint map.checkpoint.2.1 backup .create)
        task } := by
  have hmode := h.mode
  rw [live] at hmode
  obtain ⟨htags, hle, hcovered, hunclean, -, hold⟩ := hmode
  have hw : map.currentEra < map.currentEra + 1 := by
    have := (h.era.live live).bound
    apply EraState.lt_succ_of_noWrap
    omega
  refine ⟨hera', h.landed, h.cursor, h.file_live live rfl, ?_, ?_⟩
  · intro clean map' pc hrun
    cases hrun
    exact readInv_create _ _
  · refine ⟨htags.checkpoint hw, hle.checkpoint hw, hcovered, hunclean, ⟨hwaiting, nofun⟩, ?_⟩
    rcases htask with rfl | rfl
    · exact hold.mono fun _ ha => ha
    · trivial

/-- The response of a checkpoint keeps the invariant. -/
theorem BackupInv.stepAnswer {b : Ledger} {s : State D} {map : EraState}
    {tags : Tag → TagPhase} {closed : UInt32} {backup : Bool} {pc : SavePc}
    (h : BackupInv B path devSize granularity b s)
    (live : s.mode = .live map tags (.checkpoint closed backup pc))
    (returned : pc.returned = true)
    (hera' : EraInv path devSize granularity
      { b with
        acks := (map.generation, closed) :: b.acks
        pending := false
        behind := b.behind || b.pending }
      { s with
        mode := .live map tags .ready
        task := if backup then .closed closed else s.task }) :
    BackupInv B path devSize granularity
      { b with
        acks := (map.generation, closed) :: b.acks
        pending := false
        behind := b.behind || b.pending }
      { s with
        mode := .live map tags .ready
        task := if backup then .closed closed else s.task } := by
  have hmode := h.mode
  rw [live] at hmode
  obtain ⟨htags, hle, hcovered, hunclean, ⟨-, hlanded⟩, htask⟩ := hmode
  refine ⟨hera', ?_, ?_, h.file_live live rfl, nofun, ?_⟩
  · show (b.behind || b.pending) = false
    rw [h.landed, hlanded returned]
    rfl
  · intro generation since hsince
    exact List.mem_cons_of_mem _ (h.cursor generation since hsince)
  · refine ⟨htags, hle, hcovered, hunclean, trivial, ?_⟩
    cases backup with
    | false => exact htask.mono fun _ ha => List.mem_cons_of_mem _ ha
    | true => exact List.mem_cons_self

/-- A step of the ctl thread or of the consumer that only reads the map. -/
theorem BackupInv.stepServed {b : Ledger} {s s' : State D} {map : EraState}
    {tags : Tag → TagPhase} {ctl ctl' : Ctl} (h : BackupInv B path devSize granularity b s)
    (live : s.mode = .live map tags ctl) (hfs : s'.fs = s.fs)
    (hmode' : s'.mode = .live map tags ctl')
    (hera' : EraInv path devSize granularity b s')
    (hcursor : ∀ generation since, s'.cursor = some (generation, since) →
      (generation, since) ∈ b.acks)
    (hrun : ∀ save, s'.mode.save = some save → s.mode.save = some save)
    (hcovered : Covered B s' { map, medium := s'.medium, tags })
    (hcommand : CommandInv B b s' { map, medium := s'.medium, tags } ctl')
    (htask : TaskInv B b s' { map, medium := s'.medium, tags } s'.task) :
    BackupInv B path devSize granularity b s' := by
  have hmode := h.mode
  rw [live] at hmode
  refine ⟨hera', h.landed, hcursor, h.file_live live hfs, ?_, ?_⟩
  · intro clean map' pc hsave
    exact h.read clean map' pc (hrun _ hsave)
  · rw [hmode']
    refine ⟨hmode.tags, hmode.eraLe, hcovered, ?_, hcommand, htask⟩
    rw [hfs]
    exact hmode.unclean

/-! ## Attach and detach -/

/-- What an `add` attaches: the fresh map of a new generation, the map of a
clean file, or that of an unclean file with every chunk dirty. -/
theorem BackupInv.stepAdd {b : Ledger} {s : State D} {map : EraState} {used : List UInt64}
    (h : BackupInv B path devSize granularity b s) (down : s.mode = .down)
    (hle : Io.EraLe map) (hcovered : Covered B s (resting map s.medium))
    (hera' : EraInv path devSize granularity b
      { s with mode := .attaching map .create, used }) :
    BackupInv B path devSize granularity b { s with mode := .attaching map .create, used } := by
  have hmode := h.mode
  rw [down] at hmode
  refine ⟨hera', h.landed, h.cursor, h.file, ?_, ⟨hle, hcovered, hmode⟩, nofun⟩
  intro clean map' pc hrun
  cases hrun
  exact readInv_create _ _

/-- A fresh generation is that of no cursor. -/
theorem BackupInv.covered_fresh {b : Ledger} {s : State D} {map : EraState}
    (h : BackupInv B path devSize granularity b s) (fresh : map.generation ∉ s.used)
    (medium : D) : Covered B s (resting map medium) := by
  intro since hsince
  exact absurd (h.era.drawn _ _ (h.cursor _ _ hsince)) fresh

/-- A loaded map keeps its promise: a clean file by itself, an unclean one
after `mark_all_dirty`. -/
theorem BackupInv.covered_recover {b : Ledger} {s : State D} {map : EraState} {clean : Bool}
    (h : BackupInv B path devSize granularity b s)
    (hon : OnDisk path devSize granularity s.fs map clean) :
    Covered B s (resting (map.recover clean) s.medium) := by
  cases clean with
  | true => exact (h.file map true hon).2 rfl
  | false =>
    intro since hsince x hx
    have hlt := h.era.ahead h.landed map false hon since (h.cursor _ _ hsince)
    exact Or.inr (Or.inl (UInt32.lt_of_lt_of_le hlt
      (map.currentEra_le_era_markAllDirty (map.chunk_lt_nrChunks hx))))

/-- The backing is detached. -/
theorem BackupInv.stepDown {b b' : Ledger} {s s' : State D}
    (h : BackupInv B path devSize granularity b s) (hacks : b'.acks = b.acks)
    (hbehind : b'.behind = b.behind)
    (hera' : EraInv path devSize granularity b' s') (hmode' : s'.mode = .down)
    (hidle : s'.task = .idle)
    (hcursor : s'.cursor = s.cursor) (himage : s'.image = s.image)
    (hfile : ∀ snap clean, OnDisk path devSize granularity s'.fs snap clean →
      OnDisk path devSize granularity s.fs snap clean ∧
        (clean = true → ∀ x, B.view s'.medium x = B.view s.medium x)) :
    BackupInv B path devSize granularity b' s' := by
  refine ⟨hera', hbehind.trans h.landed, ?_, ?_, ?_, ?_⟩
  · rw [hcursor, hacks]
    exact h.cursor
  · intro snap clean hon
    obtain ⟨hold, hview⟩ := hfile snap clean hon
    obtain ⟨hle, hcovered⟩ := h.file snap clean hold
    exact ⟨hle, fun hclean => (hcovered hclean).congr hcursor himage (hview hclean)⟩
  · intro clean map pc hrun
    rw [hmode'] at hrun
    cases hrun
  · rw [hmode']
    exact hidle

/-- The clean file of a backing that is killed is right, because no device
was live. -/
theorem BackupInv.view_of_clean {b : Ledger} {s : State D} {medium : D}
    (h : BackupInv B path devSize granularity b s)
    (settles : ∀ x, ¬ s.mode.InFlight x → B.view medium x = B.view s.medium x)
    {snap : EraState} (hon : OnDisk path devSize granularity s.fs snap true) (x : Nat) :
    B.view medium x = B.view s.medium x := by
  apply settles
  intro hflight
  have hmode := h.mode
  cases hm : s.mode with
  | down | attaching | leaving =>
    rw [hm] at hflight
    exact hflight
  | live map tags ctl =>
    rw [hm] at hmode
    have hclean := hmode.unclean snap true hon
    cases hclean

/-- One step of a run without a failing save keeps the invariant. -/
theorem BackupInv.step {b : Ledger} {s s' : State D} {l : Label}
    (h : BackupInv B path devSize granularity b s) (hpath : path.tmp ≠ some path)
    (hbound : (b.step path l).count < 2 ^ 32 - 1) (hsaves : l.fails = false)
    (hs : Step B path devSize granularity s l s') :
    BackupInv B path devSize granularity (b.step path l) s' := by
  have hera' := h.era.step hbound (fun _ _ _ => h.landed) hs
  have hmode := h.mode
  cases hs with
  | @addFresh generation map down absent new fresh =>
    obtain ⟨hgen, -⟩ := EraState.new_ok new
    exact h.stepAdd down (Live.new_currentEra new).2.2.2
      (h.covered_fresh (by rw [hgen]; exact fresh) _) hera'
  | addLoaded down present load =>
    have hon : OnDisk path devSize granularity s.fs _ _ := ⟨_, _, _, present, load⟩
    exact h.stepAdd down ((h.file _ _ hon).1.recover _) (h.covered_recover hon) hera'
  | @save clean map pc pc' l fs running move =>
    refine h.stepSave hpath ?_ running move
    intro hfail
    subst hfail
    cases hsaves
  | attached marked =>
    rw [marked] at hmode
    obtain ⟨⟨hle, hcovered, hidle⟩, hunclean⟩ := hmode
    refine ⟨hera', h.landed, h.cursor, h.file, nofun, fun _ => trivial, hle, hcovered,
      hunclean rfl, trivial, ?_⟩
    show TaskInv B _ _ _ s.task
    rw [hidle]
    trivial
  | attachFailed failed =>
    rw [failed] at hmode
    exact h.stepDown rfl rfl hera' rfl hmode.1.idle rfl rfl fun _ _ hon => ⟨hon, fun _ _ => rfl⟩
  | startFailed marked =>
    rw [marked] at hmode
    exact h.stepDown rfl rfl hera' rfl hmode.1.idle rfl rfl fun _ _ hon => ⟨hon, fun _ _ => rfl⟩
  | runFailed marked =>
    rw [marked] at hmode
    refine ⟨hera', h.landed, h.cursor, h.file, ?_, hmode.1.eraLe, hmode.1.covered, hmode.1.idle⟩
    intro clean map' pc hrun
    cases hrun
    exact readInv_create _ _
  | io live tag => exact h.stepIo live tag hera'
  | checkpoint live => exact h.stepCheckpoint live hbound (Or.inl rfl) nofun hera'
  | backup live idle => exact h.stepCheckpoint live hbound (Or.inr rfl) (fun _ => rfl) hera'
  | answer live returned => exact h.stepAnswer live returned hera'
  | @dump map tags closed since live task cursor known =>
    rw [live] at hmode
    have htask := hmode.task
    rw [task] at htask
    refine h.stepServed live rfl rfl hera' h.cursor nofun hmode.covered ?_ trivial
    refine ⟨rfl, htask, fun x hx => ?_⟩
    rcases hmode.covered since cursor x hx with heq | hera | hpending
    · exact Or.inl (Or.inl heq)
    · exact Or.inr ⟨hera, Or.inl (Nat.zero_le _)⟩
    · exact Or.inl (Or.inr (Or.inr hpending))
  | @readRange map tags closed since i ranges live more =>
    rw [live] at hmode
    obtain ⟨hwaiting, hacked, hscan⟩ := hmode.command
    refine h.stepServed live rfl rfl hera' h.cursor nofun hmode.covered ?_ hmode.task
    refine ⟨hwaiting, hacked, fun x hx => ?_⟩
    rcases hscan x hx with ht | ⟨hera, hrest⟩
    · exact Or.inl ht
    · exact Or.inr ⟨hera, Live.scan_step hx hera hrest⟩
  | @endScan map tags closed since i ranges live done =>
    rw [live] at hmode
    obtain ⟨-, hacked, hscan⟩ := hmode.command
    refine h.stepServed live rfl rfl hera' h.cursor nofun hmode.covered trivial ?_
    refine ⟨hacked, fun x hx => ?_⟩
    rcases hscan x hx with ht | ⟨-, hi | hcov⟩
    · exact Or.inl ht
    · have hchunk := map.chunk_lt_nrChunks hx
      have hi' : i ≤ x / map.granularity.toNat := hi
      omega
    · exact Or.inr hcov
  | @fullCopy map tags ctl closed live task refused =>
    rw [live] at hmode
    have htask := hmode.task
    rw [task] at htask
    refine h.stepServed live rfl live hera' h.cursor (fun _ hrun => hrun) hmode.covered ?_ ?_
    · exact CommandInv.of_task (by rw [task]; nofun) hmode.command
    · exact ⟨htask, fun x hx => Or.inr (decide_eq_true hx)⟩
  | @copy map tags ctl closed todo live task part left =>
    rw [live] at hmode
    have htask := hmode.task
    rw [task] at htask
    refine h.stepServed live rfl live hera' h.cursor (fun _ hrun => hrun) ?_ ?_ ?_
    · intro since hsince x hx
      exact Io.Tracked.copied (hmode.covered since hsince x hx) part
    · exact CommandInv.of_task (by rw [task]; nofun) hmode.command
    · exact ⟨htask.1, fun x hx => Io.tracked_copied (htask.2 x hx)⟩
  | @endCopy map tags ctl closed todo live task done =>
    rw [live] at hmode
    have htask := hmode.task
    rw [task] at htask
    refine h.stepServed live rfl live hera' ?_ (fun _ hrun => hrun) ?_ ?_ trivial
    · intro generation since hsince
      obtain ⟨rfl, rfl⟩ := Prod.mk.inj (Option.some.inj hsince)
      exact htask.1
    · intro since hsince x hx
      obtain ⟨-, rfl⟩ := Prod.mk.inj (Option.some.inj hsince)
      have hx' : x < devSize.toNat := by
        rw [← (h.era.live live).devSize]
        exact hx
      rcases htask.2 x hx with ht | ht
      · exact ht
      · rw [done x hx'] at ht
        cases ht
    · exact CommandInv.of_task (by rw [task]; nofun) hmode.command
  | @del map tags live drained =>
    rw [live] at hmode
    obtain rfl : tags = fun _ => .idle := funext drained
    refine ⟨hera', h.landed, h.cursor, h.file_live live rfl, ?_, hmode.eraLe, hmode.covered, rfl⟩
    intro clean map' pc hrun
    cases hrun
    exact readInv_create _ _
  | gone leaving returned =>
    rw [leaving] at hmode
    exact h.stepDown rfl rfl hera' rfl hmode.idle rfl rfl fun _ _ hon => ⟨hon, fun _ _ => rfl⟩
  | @kill medium settles =>
    refine h.stepDown rfl rfl hera' rfl rfl rfl rfl ?_
    intro snap clean hon
    refine ⟨hon, ?_⟩
    intro hclean
    subst hclean
    exact h.view_of_clean settles hon
  | unlink down =>
    rw [down] at hmode
    refine h.stepDown rfl rfl hera' down hmode rfl rfl ?_
    intro snap clean ⟨raw, name, urandom, hraw, _⟩
    rw [Fs.read_unlink_self] at hraw
    cases hraw

/-- The run lemma. -/
theorem run_backupInv {medium : D} {image : Nat → UInt8} {trace : List Label} {s : State D}
    (hpath : path.tmp ≠ some path)
    (hrun : Run (Step B path devSize granularity) (init medium image) trace s)
    (hbound : trace.countP Label.checkpoints < 2 ^ 32 - 1)
    (hsaves : ∀ l, l ∈ trace → l.fails = false) :
    BackupInv B path devSize granularity (ledger path trace) s := by
  induction hrun with
  | nil => exact backupInv_init medium image
  | @snoc trace t u l run last ih =>
    have hcount := count_ledger path (trace ++ [l])
    rw [ledger_snoc] at hcount ⊢
    refine (ih ?_ ?_).step hpath (by omega) (hsaves l (by simp)) last
    · rw [List.countP_append] at hbound
      omega
    · intro k hk
      exact hsaves k (List.mem_append_left _ hk)

/-! ## A backup with no write in flight -/

/-- No data-changing request is under way. -/
def Mode.Quiet : Mode → Prop
  | .live _ tags _ => Io.Quiet tags
  | _ => True

/-- The era that the running command of the backup goes by. -/
def Ctl.closes : Ctl → Option UInt32
  | .checkpoint closed true _ => some closed
  | .dump closed _ _ _ => some closed
  | _ => none

/-- The era that the backup has closed. -/
def Task.closes : Task → Option UInt32
  | .closed era | .copying era _ => some era
  | _ => none

/-- No chunk is above an era that the backup has closed. -/
def Closing (task : Task) : Mode → Prop
  | .live map _ ctl =>
    ∀ closed, ctl.closes = some closed ∨ task.closes = some closed →
      ∀ c, map.era c ≤ closed
  | _ => True

/-- A backup that has not begun has closed nothing. -/
theorem BackupInv.closing_of_idle {b : Ledger} {s : State D}
    (h : BackupInv B path devSize granularity b s) (hidle : s.task = .idle) :
    Closing s.task s.mode := by
  have hmode := h.mode
  cases hm : s.mode with
  | down | attaching | leaving => trivial
  | live map tags ctl =>
    rw [hm] at hmode
    have hcommand := hmode.command
    have hnot : s.task ≠ .waiting := by
      rw [hidle]
      nofun
    intro closed hcloses
    rw [hidle] at hcloses
    rcases hcloses with hcloses | hcloses
    · cases ctl with
      | ready => cases hcloses
      | checkpoint closed' backup pc =>
        cases backup with
        | false => cases hcloses
        | true => exact absurd (hcommand.1 rfl) hnot
      | dump => exact absurd hcommand.1 hnot
    · cases hcloses

/-- While no data-changing request is fetched, no step puts a chunk above
the era that the backup has closed. -/
theorem BackupInv.closing_step {b : Ledger} {s s' : State D} {l : Label}
    (h : BackupInv B path devSize granularity b s) (hquiet : s.mode.Quiet)
    (hclosing : Closing s.task s.mode) (hl : l.submits = false)
    (hs : Step B path devSize granularity s l s') :
    s'.mode.Quiet ∧ Closing s'.task s'.mode := by
  have hmode := h.mode
  cases hs with
  | addFresh | addLoaded | attachFailed | startFailed | runFailed | del | gone | kill =>
    exact ⟨trivial, trivial⟩
  | unlink down =>
    show s.mode.Quiet ∧ Closing s.task s.mode
    exact ⟨hquiet, hclosing⟩
  | @save clean map pc pc' l fs running move =>
    show (s.mode.withSave pc').Quiet ∧ Closing s.task (s.mode.withSave pc')
    cases hm : s.mode with
    | down | attaching | leaving => exact ⟨trivial, trivial⟩
    | live map' tags ctl =>
      rw [hm] at hquiet hclosing
      cases ctl with
      | ready | dump => exact ⟨hquiet, hclosing⟩
      | checkpoint closed backup pc'' =>
        cases backup with
        | false => exact ⟨hquiet, hclosing⟩
        | true => exact ⟨hquiet, hclosing⟩
  | attached marked =>
    rw [marked] at hmode
    refine ⟨nofun, ?_⟩
    intro closed hcloses
    rw [show s.task = .idle from hmode.1.idle] at hcloses
    rcases hcloses with hcloses | hcloses
    · cases hcloses
    · cases hcloses
  | @io map map' tags tags' ctl medium' l live tag =>
    rw [live] at hmode hquiet hclosing
    obtain ⟨hquiet', hmap, -⟩ := Io.quiet_step hmode.tags hquiet hl tag
    refine ⟨hquiet', ?_⟩
    rw [show map' = map from hmap]
    exact hclosing
  | checkpoint live =>
    rw [live] at hquiet hclosing
    refine ⟨hquiet, ?_⟩
    intro closed hcloses
    exact hclosing closed (Or.inr (hcloses.resolve_left nofun))
  | backup live idle =>
    rw [live] at hmode hquiet
    refine ⟨hquiet, ?_⟩
    intro closed hcloses
    obtain rfl := Option.some.inj (hcloses.resolve_right nofun)
    exact hmode.eraLe
  | @answer map tags closed backup pc live returned =>
    rw [live] at hquiet hclosing
    refine ⟨hquiet, ?_⟩
    intro closed' hcloses
    have hcloses := hcloses.resolve_left nofun
    cases backup with
    | false => exact hclosing closed' (Or.inr hcloses)
    | true => exact hclosing closed' (Or.inl hcloses)
  | @dump map tags closed since live task cursor known =>
    rw [live] at hquiet hclosing
    rw [task] at hclosing
    refine ⟨hquiet, ?_⟩
    intro closed' hcloses
    exact hclosing closed' (Or.inr (hcloses.resolve_right nofun))
  | readRange live more =>
    rw [live] at hquiet hclosing
    exact ⟨hquiet, hclosing⟩
  | endScan live done =>
    rw [live] at hquiet hclosing
    refine ⟨hquiet, ?_⟩
    intro closed' hcloses
    exact hclosing closed' (Or.inl (hcloses.resolve_left nofun))
  | fullCopy live task refused =>
    refine ⟨hquiet, ?_⟩
    show Closing (.copying _ _) s.mode
    rw [task] at hclosing
    rw [live] at hclosing ⊢
    exact hclosing
  | copy live task part left =>
    refine ⟨hquiet, ?_⟩
    show Closing (.copying _ _) s.mode
    rw [task] at hclosing
    rw [live] at hclosing ⊢
    exact hclosing
  | endCopy live task done =>
    refine ⟨hquiet, ?_⟩
    show Closing .idle s.mode
    rw [live] at hclosing ⊢
    intro closed' hcloses
    exact hclosing closed' (Or.inl (hcloses.resolve_right nofun))

/-- The backup contract.  After every completed backup with no write in
flight the image is what the device holds, whatever crashes, detaches and
lost metadata files came before. -/
theorem backup_contract {medium : D} {image : Nat → UInt8} {before during : List Label}
    {s t u : State D} (hext : extension path.name ≠ some ['t', 'm', 'p'])
    (hbefore : Run (Step B path devSize granularity) (init medium image) before s)
    (hidle : s.task = .idle) (hquiet : s.mode.Quiet)
    (hduring : Run (Step B path devSize granularity) s during t)
    (hstop : ∀ l, l ∈ during → l.submits = false)
    (hdone : Step B path devSize granularity t .endCopy u)
    (hsaves : ∀ l, l ∈ before ++ during → l.fails = false)
    (hbound : (before ++ during).countP Label.checkpoints < 2 ^ 32 - 1)
    {x : Nat} (hx : x < devSize.toNat) : u.image x = B.view u.medium x := by
  have hpath : path.tmp ≠ some path := fun h => hext (path.tmp_eq_self_iff.mp h).1
  have hclosing : BackupInv B path devSize granularity (ledger path (before ++ during)) t ∧
      t.mode.Quiet ∧ Closing t.task t.mode := by
    clear hdone
    induction hduring with
    | nil =>
      rw [List.append_nil] at hsaves hbound ⊢
      have hinv := run_backupInv hpath hbefore hbound hsaves
      exact ⟨hinv, hquiet, hinv.closing_of_idle hidle⟩
    | @snoc trace t v l run last ih =>
      have hwhole := run_backupInv hpath (hbefore.append (run.snoc last)) hbound hsaves
      rw [← List.append_assoc] at hsaves hbound
      obtain ⟨hinv, hq, hc⟩ := ih (fun k hk => hstop k (List.mem_append_left _ hk))
        (fun k hk => hsaves k (List.mem_append_left _ hk))
        (by rw [List.countP_append] at hbound; omega)
      exact ⟨hwhole, hinv.closing_step hq hc (hstop l (by simp)) last⟩
  obtain ⟨hinv, hq, hc⟩ := hclosing
  cases hdone with
  | @endCopy map tags ctl closed todo live task done =>
    have hmode := hinv.mode
    rw [live] at hmode hq hc
    have htask := hmode.task
    rw [task] at htask hc
    have hx' : x < map.devSize.toNat := by
      rw [(hinv.era.live live).devSize]
      exact hx
    rcases htask.2 x hx' with (heq | hera | hpending) | htodo
    · exact heq
    · exact absurd hera (UInt32.not_lt.mpr (hc closed (Or.inr rfl) _))
    · exact absurd hpending hq.not_pending
    · rw [done x hx] at htodo
      cases htodo

/-! ### A device of one chunk -/

/-- The checkpoint of a backup, with a save that nothing disturbs. -/
theorem checkpoint_run (B : Backing D) (path : MetaPath) (devSize granularity : UInt64)
    {tmp : MetaPath} (named : path.tmp = some tmp) {s : State D} {map : EraState} {tags : Tag → TagPhase}
    (live : s.mode = .live map tags .ready) (idle : s.task = .idle) :
    ∃ fs, Run (Step B path devSize granularity) s
      (.checkpoint true :: ((saveLabels map.nrChunks ++ [SaveLabel.rename]).map Label.save
        ++ [.answer map.generation map.currentEra true]))
      { s with
        fs, mode := .live map.checkpoint.1 tags .ready, task := .closed map.currentEra } := by
  have hcheckpoint : Step B path devSize granularity s (.checkpoint true) _ :=
    .backup live idle
  obtain ⟨fs, hsave, -⟩ := save_run B path devSize granularity named (s := { s with
      mode := .live map.checkpoint.1 tags (.checkpoint map.currentEra true .create)
      task := .waiting }) rfl
  have hanswer : Step B path devSize granularity _ (.answer map.generation map.currentEra true) _ :=
    .answer (s := { s with
      fs
      mode := .live map.checkpoint.1 tags
        (.checkpoint map.currentEra true (.ok (map.checkpoint.1.metaBytes false)))
      task := .waiting }) rfl rfl
  exact ⟨fs, .cons hcheckpoint (hsave.snoc hanswer)⟩

/-- The steps of the tags of a live device. -/
theorem io_run {s : State D} {map : EraState} {tags : Tag → TagPhase} {ctl : Ctl}
    (live : s.mode = .live map tags ctl) {trace : List Io.Label} {io : IoState D}
    (h : Run (Io.Step B) { map, medium := s.medium, tags } trace io) :
    Run (Step B path devSize granularity) s (trace.map .io)
      { s with medium := io.medium, mode := .live io.map io.tags ctl } := by
  have hmap := h.map (Step B path devSize granularity)
    (fun io : IoState D => { s with medium := io.medium, mode := .live io.map io.tags ctl }) .io
    fun _ _ _ tag => .io rfl tag
  rw [← live] at hmap
  exact hmap

section OneChunk

open Live

/-- A full backup, one WRITE, and an incremental backup. -/
theorem backup_contract_oneChunk :
    ∃ (trace : List Label) (u : State (Nat → UInt8)),
      Run (Step plainDisk MetaPath.aMeta 4096 4096) (init zeroed zeroed) trace u ∧
      Label.dump ∈ trace ∧ plainDisk.view u.medium 0 = 1 ∧
      u.image 0 = plainDisk.view u.medium 0 := by
  obtain ⟨fs, hattach, -⟩ := exists_attached
  obtain ⟨fs1, hfirst⟩ := checkpoint_run plainDisk MetaPath.aMeta 4096 4096 MetaPath.tmp_aMeta
    (s := { init zeroed zeroed with
      fs, used := [7], mode := .live EraState.oneChunk (fun _ => .idle) .ready }) rfl rfl
  have hfull := (((hattach.append hfirst).snoc (.fullCopy rfl rfl trivial)).snoc
    (.copy rfl rfl chunk0 fun _ h => h)).snoc
    (.endCopy rfl rfl fun x _ => Bool.and_not_self (chunk0 x))
  have hbefore := hfull.append (io_run rfl write_run)
  obtain ⟨fs2, hsecond⟩ := checkpoint_run plainDisk MetaPath.aMeta 4096 4096 MetaPath.tmp_aMeta
    (s := { init zeroed zeroed with
      fs := fs1, medium := firstByteSet, used := [7], cursor := some (7, 1)
      image := copied plainDisk (init zeroed zeroed) chunk0
      mode := .live (EraState.oneChunk.checkpoint.1.fetchMax 0 2) (fun _ => .idle) .ready })
    rfl rfl
  have hduring := (((hsecond.snoc (.dump rfl rfl rfl (by decide))).snoc
    (.readRange rfl (by decide))).snoc (.endScan rfl (by decide))).snoc
    (.copy rfl rfl (EraState.covers [{ offset := 0, len := 4096 }]) fun _ h => h)
  have hrun := (hbefore.append hduring).snoc (.endCopy rfl rfl fun x _ =>
    Bool.and_not_self (EraState.covers [{ offset := 0, len := 4096 }] x))
  have hsound := backup_contract (x := 0) (by decide) hbefore rfl nofun hduring (by decide)
    (.endCopy rfl rfl fun x _ =>
      Bool.and_not_self (EraState.covers [{ offset := 0, len := 4096 }] x))
    (by decide) (by decide) (by decide)
  exact ⟨_, _, hrun, by simp, rfl, hsound⟩

end OneChunk

end Lifecycle

end Ublkera
