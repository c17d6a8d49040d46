import Ublkera.Lib.DurableFs
import Ublkera.Meta.Save

/-!
# The attach marker and power loss

`add` saves an unclean snapshot before the device goes live, so that the next
`add` after a crash finds an unclean file.  `save` syncs the temp file and
renames it, and does not sync the directory.  So a power loss may bring back
an entry that the path had before the attach, and with it a clean file of an
earlier detach.

`Step` is the history of one metadata file on a disk: saves with either flag,
kills, the removal of the file, syncs of the directory by the kernel, and
power losses.  `marker_survives_iff` says for which histories the marker is
safe: the path is not its own temp name, and every entry that a power loss
could bring back before the attach is no file or an unclean one on the disk.
-/

namespace Ublkera

namespace PowerLoss

open LittleEndian PosixFs Trace

/-- Some `add` loads the file as a clean one. -/
def LoadsClean (raw : Bytes) : Prop :=
  ∃ name devSize granularity urandom snap,
    EraState.load name (.ok raw) devSize granularity urandom = .ok (snap, true)

structure State where
  disk : DurableFs MetaPath
  map : EraState
  /-- The flag of the latest call of `save`. -/
  clean : Bool
  /-- The latest call of `save`; `failed none` when there was none. -/
  pc : SavePc

inductive Label where
  | call (clean : Bool)
  | save (l : SaveLabel)
  /-- Other threads change the era map. -/
  | other
  /-- The daemon is killed in a save. -/
  | cut
  | unlink
  | syncDir
  | powerLoss
  deriving DecidableEq

/-- What happens while the device is attached: unclean saves, other threads,
and the kernel writing the directory back. -/
def Label.attached : Label → Bool
  | .call clean => !clean
  | .save _ | .other | .syncDir => true
  | .cut | .unlink | .powerLoss => false

/-- The disk after a step of a save. -/
def saved (disk : DurableFs MetaPath) (l : SaveLabel) (pc pc' : SavePc) (fs : MetaFs)
    (hnext : disk.fs.next ≤ fs.next) : DurableFs MetaPath :=
  disk.change fs (fun i => (l = .create ∨ l = .write) ∧ pc'.ino = some i)
    (fun i => l = .sync ∧ pc.ino = some i) hnext

inductive Step (path : MetaPath) : State → Label → State → Prop where
  | call {s : State} (clean : Bool) (returned : s.pc.returned = true) :
      Step path s (.call clean) { s with clean, pc := .create }
  | save {s : State} {l : SaveLabel} {fs : MetaFs} {pc : SavePc}
      (move : SaveStep path s.clean s.map s.disk.fs s.pc l fs pc) :
      Step path s (.save l)
        { s with disk := saved s.disk l s.pc pc fs move.next_le, pc }
  | other {s : State} (map : EraState) : Step path s .other { s with map }
  | cut {s : State} : Step path s .cut { s with pc := .failed s.pc.buf }
  | unlink {s : State} (returned : s.pc.returned = true) :
      Step path s .unlink
        { s with
          disk := s.disk.change (s.disk.fs.unlink path) (fun _ => False) (fun _ => False)
            (Nat.le_refl _) }
  | syncDir {s : State} : Step path s .syncDir { s with disk := s.disk.syncDir }
  | powerLoss {s : State} {fs : MetaFs} (left : s.disk.MayLeave fs) :
      Step path s .powerLoss { s with disk := .settled fs, pc := .failed none }

/-- No file was ever there. -/
def pristine (map : EraState) : State :=
  { disk := .settled Fs.empty, map, clean := false, pc := .failed none }

/-- `add` begins the attach marker. -/
def attach (s : State) : State := { s with clean := false, pc := .create }

/-- Whatever a power loss leaves now, the next `add` finds no clean file. -/
def Survives (path : MetaPath) (s : State) : Prop :=
  ∀ fs, s.disk.MayLeave fs → ∀ raw, fs.read path = some raw → ¬ LoadsClean raw

/-- The entry is a file on the disk that is not clean. -/
def Unclean (disk : DurableFs MetaPath) (i : Nat) : Prop :=
  disk.synced i ∧ ¬ LoadsClean (disk.fs.data i)

/-- Every entry that a power loss may bring back at the path is no file or
an unclean one on the disk. -/
def NoCleanEntry (path : MetaPath) (disk : DurableFs MetaPath) : Prop :=
  ∀ i, disk.cand path (some i) → Unclean disk i

/-! ## Clean and unclean bytes -/

theorem not_loadsClean (snap : EraState) : ¬ LoadsClean (snap.metaBytes false) := by
  intro ⟨name, devSize, granularity, urandom, other, h⟩
  obtain ⟨-, -, -, -, -, -, -, -, hclean⟩ := EraState.load_ok h
  rw [EraState.readHeader_metaBytes] at hclean
  cases hclean

theorem loadsClean (snap : EraState) : LoadsClean (snap.metaBytes true) :=
  ⟨"", _, _, _, snap, snap.load_metaBytes true "" 0⟩

/-! ## The invariant of every history -/

/-- A save knows its temp file, no name but the path has an inode that a
power loss may bring back there, and the bytes that are about to be renamed
are on the disk. -/
structure Inv (path : MetaPath) (s : State) : Prop where
  holds : s.pc.Holds s.disk.fs path.tmp
  apart : ∀ q i, q ≠ path → s.disk.fs.dir q = some i → ¬ s.disk.cand path (some i)
  ready : ∀ buf, s.pc = .rename buf → ∃ tmp i, path.tmp = some tmp ∧
    s.disk.fs.dir tmp = some i ∧ s.disk.fs.data i = buf ∧ s.disk.synced i

theorem inv_pristine (path : MetaPath) (map : EraState) : Inv path (pristine map) :=
  ⟨trivial, (fun _ _ _ h => by cases h), nofun⟩

/-- A change that gives no other name an inode of the path keeps them
apart. -/
theorem apart_change {path : MetaPath} {disk : DurableFs MetaPath} {fs : MetaFs}
    {touched flushed : Nat → Prop} (hnext : disk.fs.next ≤ fs.next)
    (h : ∀ q i, q ≠ path → disk.fs.dir q = some i → ¬ disk.cand path (some i))
    (hold : ∀ q i, q ≠ path → fs.dir q = some i →
      disk.fs.dir q = some i ∨ disk.fs.next ≤ i) :
    ∀ q i, q ≠ path → fs.dir q = some i →
      ¬ (disk.change fs touched flushed hnext).cand path (some i) := by
  intro q i hq hdir hcand
  rcases hcand with hcand | hcand
  · rcases hold q i hq hdir with hwas | hfresh
    · exact h q i hq hwas hcand
    · have hlt := disk.cand_lt hcand
      omega
  · exact hq (fs.dir_inj hdir hcand)

/-- An inode that only the path may have is none that a save has open. -/
theorem Inv.ino_ne {path : MetaPath} (hself : path.tmp ≠ some path) {s : State}
    (h : Inv path s) {i : Nat} (hino : s.pc.ino = some i) : ¬ s.disk.cand path (some i) := by
  have hholds := h.holds
  cases hpc : s.pc with
  | readEra | readChunks | write =>
    rw [hpc] at hino hholds
    obtain rfl := Option.some.inj hino
    obtain ⟨tmp, named, hdir, -⟩ := hholds
    exact h.apart tmp _ (Ne.symm (SaveStep.ne_named named hself)) hdir
  | create | rename | ok | failed =>
    rw [hpc] at hino
    cases hino

/-- The pieces of the invariant after a step of a save. -/
theorem Inv.save {path : MetaPath} {s : State} {l : SaveLabel}
    {fs : MetaFs} {pc : SavePc} (h : Inv path s)
    (move : SaveStep path s.clean s.map s.disk.fs s.pc l fs pc) :
    Inv path { s with disk := saved s.disk l s.pc pc fs move.next_le, pc } := by
  refine ⟨move.holds h.holds, ?_, ?_⟩
  · exact apart_change move.next_le h.apart
      fun q i hq hdir => move.dir_old_or_fresh hq hdir
  · intro buf hpc
    change pc = .rename buf at hpc
    subst hpc
    have hholds := h.holds
    generalize hstart : s.pc = start at move hholds
    cases move with
    | @sync ino =>
      obtain ⟨tmp, named, hdir, hdata, -⟩ := hholds
      rw [List.take_length] at hdata
      exact ⟨tmp, ino, named, hdir, hdata, Or.inl ⟨rfl, rfl⟩⟩

/-- A step keeps the invariant. -/
theorem Inv.step {path : MetaPath} {s s' : State} {l : Label}
    (h : Inv path s) (hs : Step path s l s') : Inv path s' := by
  cases hs with
  | call clean returned => exact ⟨trivial, h.apart, nofun⟩
  | save move => exact h.save move
  | other map => exact ⟨h.holds, h.apart, h.ready⟩
  | cut => exact ⟨trivial, h.apart, nofun⟩
  | unlink returned =>
    have hout : s.pc.inWindow = false := by
      cases hpc : s.pc with
      | ok | failed => rfl
      | create | readEra | readChunks | write | rename =>
        rw [hpc] at returned
        cases returned
    refine ⟨SavePc.holds_of_not_inWindow hout _ _, ?_, ?_⟩
    · have hnext : s.disk.fs.next ≤ (s.disk.fs.unlink path).next := Nat.le_refl _
      refine apart_change hnext h.apart fun q i hq hdir => Or.inl ?_
      change (if q = path then none else s.disk.fs.dir q) = some i at hdir
      rwa [if_neg hq] at hdir
    · intro buf hpc
      change s.pc = .rename buf at hpc
      rw [hpc] at returned
      cases returned
  | syncDir =>
    refine ⟨h.holds, ?_, h.ready⟩
    intro q i hq hdir hcand
    exact hq (s.disk.fs.dir_inj hdir hcand)
  | @powerLoss fs left =>
    refine ⟨trivial, ?_, nofun⟩
    intro q i hq hdir hcand
    exact hq (fs.dir_inj hdir hcand)

/-! ## While the device is attached -/

/-- The save that runs is an unclean one. -/
def SavesUnclean (s : State) : Prop :=
  s.clean = false ∧ ∀ buf, s.pc.buf = some buf → ¬ LoadsClean buf

theorem savesUnclean_step {path : MetaPath} {s s' : State} {l : Label}
    (hl : l.attached = true) (h : SavesUnclean s) (hs : Step path s l s') :
    SavesUnclean s' := by
  obtain ⟨hclean, hbuf⟩ := h
  cases hs with
  | call clean =>
    cases clean with
    | false => exact ⟨rfl, nofun⟩
    | true => cases hl
  | @save l fs pc move =>
    refine ⟨hclean, fun buf hpc => ?_⟩
    change pc.buf = some buf at hpc
    generalize s.pc = start at move hbuf
    rw [hclean] at move
    cases move with
    | create | readEra | readChunk => cases hpc
    | serialise done =>
      obtain rfl := Option.some.inj hpc
      exact not_loadsClean _
    | write | sync | rename | renameMissing | fail => exact hbuf buf hpc
  | other | syncDir => exact ⟨hclean, hbuf⟩
  | cut | unlink | powerLoss => cases hl

/-- A step of a save keeps what is known about an entry that a power loss may
bring back. -/
theorem save_keeps_entry {path : MetaPath} (hself : path.tmp ≠ some path) {s : State}
    {l : SaveLabel} {fs : MetaFs} {pc : SavePc} (h : Inv path s)
    (move : SaveStep path s.clean s.map s.disk.fs s.pc l fs pc) {i : Nat}
    (hcand : s.disk.cand path (some i)) :
    fs.data i = s.disk.fs.data i ∧
      ((saved s.disk l s.pc pc fs move.next_le).synced i ↔ s.disk.synced i) := by
  have hpc : ¬ pc.ino = some i := by
    intro hino
    exact (h.save move).ino_ne hself hino (Or.inl hcand)
  have hstart : ¬ s.pc.ino = some i := fun hino => h.ino_ne hself hino hcand
  refine ⟨move.data_unopened fun htouch => hpc htouch.2, ?_⟩
  constructor
  · intro hsynced
    rcases hsynced with hflush | hsynced
    · exact absurd hflush.2 hstart
    · exact hsynced.1
  · intro hsynced
    exact Or.inr ⟨hsynced, fun htouch => hpc htouch.2⟩

/-- While the device is attached, no clean entry gets to the path. -/
theorem noCleanEntry_step {path : MetaPath} (hself : path.tmp ≠ some path) {s s' : State}
    {l : Label} (hl : l.attached = true) (hinv : Inv path s) (hsaves : SavesUnclean s)
    (h : NoCleanEntry path s.disk) (hs : Step path s l s') : NoCleanEntry path s'.disk := by
  cases hs with
  | call | other => exact h
  | syncDir =>
    intro i hcand
    exact h i (hcand ▸ s.disk.cand_self path)
  | cut | unlink | powerLoss => cases hl
  | @save l fs pc move =>
    have hold : ∀ i, s.disk.cand path (some i) →
        Unclean (saved s.disk l s.pc pc fs move.next_le) i := by
      intro i hcand
      obtain ⟨hdata, hsynced⟩ := save_keeps_entry hself hinv move hcand
      obtain ⟨hwas, hclean⟩ := h i hcand
      refine ⟨hsynced.mpr hwas, ?_⟩
      show ¬ LoadsClean (fs.data i)
      rw [hdata]
      exact hclean
    intro i hcand
    rcases hcand with hcand | hcand
    · exact hold i hcand
    · rcases move.dir_path hself with hsame | ⟨tmp, buf, named, hpc, rfl, hnew⟩
      · exact hold i ((hsame.symm.trans hcand) ▸ s.disk.cand_self path)
      · -- the rename puts the synced temp file there
        obtain ⟨tmp', j, named', hdir, hdata, hsynced⟩ := hinv.ready buf hpc
        obtain rfl := Option.some.inj (named.symm.trans named')
        have hij : i = j := Option.some.inj ((hcand.symm.trans hnew).trans hdir)
        subst hij
        have huntouched : ¬ ((SaveLabel.rename = .create ∨ SaveLabel.rename = .write) ∧
            pc.ino = some i) := by
          intro htouch
          rcases htouch.1 with hl | hl
          · cases hl
          · cases hl
        refine ⟨Or.inr ⟨hsynced, huntouched⟩, ?_⟩
        show ¬ LoadsClean (fs.data i)
        rw [move.data_unopened huntouched, hdata]
        exact hsaves.2 buf (by rw [hpc]; rfl)

/-- A step while the device is attached. -/
def AttachedStep (path : MetaPath) (s : State) (l : Label) (s' : State) : Prop :=
  Step path s l s' ∧ l.attached = true

/-- What holds all the time the device is attached. -/
structure Marked (path : MetaPath) (s : State) : Prop where
  inv : Inv path s
  saves : SavesUnclean s
  entries : NoCleanEntry path s.disk

theorem Marked.step {path : MetaPath} (hself : path.tmp ≠ some path) {s s' : State} {l : Label}
    (h : Marked path s) (hs : AttachedStep path s l s') : Marked path s' :=
  ⟨h.inv.step hs.1, savesUnclean_step hs.2 h.saves hs.1,
    noCleanEntry_step hself hs.2 h.inv h.saves h.entries hs.1⟩

/-- A file that a power loss leaves was one of the entries. -/
theorem survives_of_noCleanEntry {path : MetaPath} {s : State}
    (h : NoCleanEntry path s.disk) : Survives path s := by
  intro fs hleft raw hread hclean
  have hentry := hleft.entry path
  unfold Fs.read at hread
  cases hdir : fs.dir path with
  | none =>
    rw [hdir] at hread
    cases hread
  | some i =>
    rw [hdir] at hentry hread
    obtain ⟨hsynced, hnot⟩ := h i hentry
    rw [Option.map_some, hleft.data i hsynced] at hread
    exact hnot (Option.some.inj hread ▸ hclean)

/-! ## Bringing a clean entry back -/

/-- A save of the model, carried out on the disk. -/
theorem run_save {path : MetaPath} {s : State} {trace : List SaveLabel} {fs : MetaFs}
    {pc : SavePc} (h : Run (SaveStep.Paired path s.clean s.map) (s.disk.fs, s.pc) trace (fs, pc)) :
    ∃ t, Run (Step path) s (trace.map .save) t ∧ t.disk.fs = fs ∧ t.pc = pc ∧
      t.map = s.map ∧ t.clean = s.clean := by
  generalize htarget : (fs, pc) = target at h
  induction h generalizing fs pc with
  | nil =>
    obtain ⟨rfl, rfl⟩ := Prod.mk.inj htarget
    exact ⟨s, .nil, rfl, rfl, rfl, rfl⟩
  | @snoc trace u v l run last ih =>
    subst htarget
    obtain ⟨t, hrun, hfs, hpc, hmap, hclean⟩ := ih rfl
    have hmove : SaveStep path t.clean t.map t.disk.fs t.pc l fs pc := by
      rw [hfs, hpc, hmap, hclean]
      exact last
    rw [List.map_append]
    exact ⟨_, hrun.snoc (.save hmove), rfl, rfl, hmap, hclean⟩

/-- A run of a save keeps what is known about an entry that a power loss may
bring back. -/
theorem run_keeps_entry {path : MetaPath} (hself : path.tmp ≠ some path) {s t : State}
    {trace : List SaveLabel} (hinv : Inv path s)
    (h : Run (Step path) s (trace.map .save) t) {i : Nat}
    (hcand : s.disk.cand path (some i)) :
    Inv path t ∧ t.disk.cand path (some i) ∧ t.disk.fs.data i = s.disk.fs.data i ∧
      (t.disk.synced i ↔ s.disk.synced i) := by
  generalize hlabels : trace.map Label.save = labels at h
  induction h generalizing trace with
  | nil => exact ⟨hinv, hcand, rfl, Iff.rfl⟩
  | @snoc labels u v l run last ih =>
    obtain ⟨before, after, rfl, hbefore, hafter⟩ := List.map_eq_append_iff.mp hlabels
    obtain ⟨hu, hcand', hdata, hsynced⟩ := ih hbefore
    have hl : ∃ k, l = .save k := by
      have hmem : l ∈ after.map Label.save := by
        rw [hafter]
        exact List.mem_singleton_self l
      obtain ⟨k, -, hk⟩ := List.mem_map.mp hmem
      exact ⟨k, hk.symm⟩
    obtain ⟨k, rfl⟩ := hl
    have hv := hu.step last
    cases last with
    | @save k fs pc move =>
      obtain ⟨hdata', hsynced'⟩ := save_keeps_entry hself hu move hcand'
      exact ⟨hv, Or.inl hcand', hdata'.trans hdata, hsynced'.trans hsynced⟩

/-- The marker is safe: once its save has returned, no power loss while the
device is attached leaves a clean file. -/
def MarkerSurvives (path : MetaPath) (s : State) : Prop :=
  ∀ marker t buf trace u, Run (AttachedStep path) (attach s) marker t → t.pc = .ok buf →
    Run (AttachedStep path) t trace u → Survives path u

/-- The save of the marker runs to its end when nothing disturbs it. -/
theorem exists_marker {path tmp : MetaPath} (named : path.tmp = some tmp) (s : State) :
    ∃ (marker : List SaveLabel) (t : State) (buf : Bytes),
      Run (Step path) (attach s) (marker.map .save) t ∧
      Run (AttachedStep path) (attach s) (marker.map .save) t ∧ t.pc = .ok buf ∧
      t.disk.fs.read path = some buf := by
  obtain ⟨fs, hsave, hread⟩ := save_completes path named false s.map s.disk.fs
  obtain ⟨t, hrun, rfl, hpc, -, -⟩ := run_save (s := attach s) hsave
  refine ⟨_, t, _, hrun, hrun.guard fun l hl => ?_, hpc, hread⟩
  obtain ⟨k, -, rfl⟩ := List.mem_map.mp hl
  rfl

/-- A path that is its own temp name: the next checkpoint empties the file in
place, and a power loss may leave any bytes in it. -/
theorem not_survives_of_self {path : MetaPath} (hself : path.tmp = some path) (s : State) :
    ¬ MarkerSurvives path s := by
  intro h
  obtain ⟨marker, t, buf, -, hmarker, hpc, -⟩ := exists_marker hself s
  have hcall : AttachedStep path t (.call false) { t with clean := false, pc := .create } :=
    ⟨.call false (by rw [hpc]; rfl), rfl⟩
  have hcreate : AttachedStep path { t with clean := false, pc := .create }
      (.save .create) _ := ⟨.save (.create hself), rfl⟩
  have hrun := Run.cons hcall (.single hcreate)
  have hunsynced : ¬ (saved t.disk .create .create (.readEra (t.disk.fs.openIno path))
      (t.disk.fs.create path) (Nat.le_max_left _ _)).synced (t.disk.fs.openIno path) := by
    intro hsynced
    rcases hsynced with hflush | hsynced
    · cases hflush.1
    · exact hsynced.2 ⟨Or.inl rfl, rfl⟩
  have hleft := DurableFs.mayLeave_of_unsynced _ hunsynced (s.map.metaBytes true)
  refine h _ _ _ _ _ hmarker hpc hrun _ hleft (s.map.metaBytes true) ?_ (loadsClean s.map)
  have hdir : (t.disk.fs.create path).dir path = some (t.disk.fs.openIno path) :=
    t.disk.fs.dir_create_self path
  show Option.map (Function.update _ (t.disk.fs.openIno path) (s.map.metaBytes true))
    ((t.disk.fs.create path).dir path) = some (s.map.metaBytes true)
  rw [hdir, Option.map_some, Function.update_self]

/-- A path without a temp name never has a file. -/
theorem no_entry_step {path : MetaPath} (hnone : path.tmp = none) {s s' : State} {l : Label}
    (h : ∀ i, ¬ s.disk.cand path (some i)) (hs : Step path s l s') :
    ∀ i, ¬ s'.disk.cand path (some i) := by
  intro i hcand
  cases hs with
  | call | other | cut => exact h i hcand
  | @save l fs pc move =>
    rcases hcand with hcand | hcand
    · exact h i hcand
    · rcases move.dir_path (by simp [hnone]) with hsame | ⟨tmp, buf, named, -⟩
      · exact h i ((hsame.symm.trans hcand) ▸ s.disk.cand_self path)
      · rw [hnone] at named
        cases named
  | unlink =>
    rcases hcand with hcand | hcand
    · exact h i hcand
    · change (if path = path then none else s.disk.fs.dir path) = some i at hcand
      rw [if_pos rfl] at hcand
      cases hcand
  | syncDir => exact h i (hcand ▸ s.disk.cand_self path)
  | @powerLoss fs left => exact h i (hcand ▸ left.entry path)

/-- An entry of the time before the attach that is clean, or not on the disk,
comes back right after the marker. -/
theorem not_survives_of_entry {path tmp : MetaPath} (named : path.tmp = some tmp)
    (hself : path.tmp ≠ some path) {s : State} (hinv : Inv path s) {i : Nat}
    (hcand : s.disk.cand path (some i)) (hentry : ¬ Unclean s.disk i) : ¬ MarkerSurvives path s := by
  intro h
  obtain ⟨marker, t, buf, hplain, hmarker, hpc, -⟩ := exists_marker named s
  have hstart : Inv path (attach s) := ⟨trivial, hinv.apart, nofun⟩
  obtain ⟨ht, hcand', hdata, hsynced⟩ := run_keeps_entry hself hstart hplain hcand
  -- the bytes that the entry comes back with
  obtain ⟨raw, hraw, hclean⟩ : ∃ raw, (¬ t.disk.synced i ∨ t.disk.fs.data i = raw) ∧
      LoadsClean raw := by
    by_cases hs : s.disk.synced i
    · refine ⟨s.disk.fs.data i, Or.inr hdata, ?_⟩
      by_contra hnot
      exact hentry ⟨hs, hnot⟩
    · exact ⟨s.map.metaBytes true, Or.inl fun ht => hs (hsynced.mp ht), loadsClean s.map⟩
  obtain ⟨fs, hleft, hread⟩ := t.disk.exists_mayLeave hcand'
    (fun q hq hdir => ht.apart q i hq hdir hcand') hraw
  exact h _ _ _ _ _ hmarker hpc .nil fs hleft raw hread hclean

/-- After any history of the metadata file, the attach marker survives every
power loss exactly when the path is not its own temp name and every entry
that a power loss may bring back at the path is no file or an unclean one on
the disk. -/
theorem marker_survives_iff {path : MetaPath} {map : EraState} {history : List Label}
    {s : State} (hrun : Run (Step path) (pristine map) history s) :
    MarkerSurvives path s ↔ path.tmp ≠ some path ∧ NoCleanEntry path s.disk := by
  constructor
  · intro h
    have hself : path.tmp ≠ some path := fun hself => not_survives_of_self hself s h
    have hinv : Inv path s := hrun.state_invariant (Inv path) (inv_pristine path map)
      fun _ _ _ hi hs => hi.step hs
    refine ⟨hself, fun i hcand => ?_⟩
    cases named : path.tmp with
    | none =>
      have hnever : ∀ i, ¬ s.disk.cand path (some i) :=
        hrun.state_invariant (fun s => ∀ i, ¬ s.disk.cand path (some i)) (fun i h => by cases h)
          fun _ _ _ hi hs => no_entry_step named hi hs
      exact absurd hcand (hnever i)
    | some tmp =>
      by_contra hentry
      exact not_survives_of_entry named hself hinv hcand hentry h
  · intro ⟨hself, hentries⟩ marker t buf trace u hmarker _ htrace
    have hinv : Inv path s := hrun.state_invariant (Inv path) (inv_pristine path map)
      fun _ _ _ hi hs => hi.step hs
    have hstart : Marked path (attach s) :=
      ⟨⟨trivial, hinv.apart, nofun⟩, ⟨rfl, nofun⟩, hentries⟩
    have hend : Marked path u := (hmarker.append htrace).state_invariant (Marked path) hstart
      fun _ _ _ hi hs => hi.step hself hs
    exact survives_of_noCleanEntry hend.entries

/-- A file that a killed daemon has left, once the directory is synced: the
marker of the next attach is safe. -/
theorem marker_survives_after_kill :
    ∃ (history : List Label) (s : State) (raw : Bytes),
      Run (Step MetaPath.aMeta) (pristine EraState.oneChunk) history s ∧
      s.disk.fs.read MetaPath.aMeta = some raw ∧ MarkerSurvives MetaPath.aMeta s := by
  obtain ⟨marker, t, buf, hplain, hmarker, -, hread⟩ :=
    exists_marker MetaPath.tmp_aMeta (pristine EraState.oneChunk)
  have hself : MetaPath.aMeta.tmp ≠ some MetaPath.aMeta := by decide
  have hstart : Marked MetaPath.aMeta (attach (pristine EraState.oneChunk)) :=
    ⟨⟨trivial, (inv_pristine _ EraState.oneChunk).apart, nofun⟩, ⟨rfl, nofun⟩,
      fun _ h => by cases h⟩
  have hsynced : Run (AttachedStep MetaPath.aMeta) _ _ _ := hmarker.snoc ⟨.syncDir, rfl⟩
  have hmarked := hsynced.state_invariant (Marked MetaPath.aMeta) hstart
    fun _ _ _ hi hs => hi.step hself hs
  have hfirst : Step MetaPath.aMeta (pristine EraState.oneChunk) (.call false)
      (attach (pristine EraState.oneChunk)) := .call false rfl
  have hrun := Run.cons hfirst ((hplain.snoc .syncDir).snoc .cut)
  exact ⟨_, _, buf, hrun, hread, (marker_survives_iff hrun).mpr ⟨hself, hmarked.entries⟩⟩

/-- An attach and a clean detach, with no sync of the directory since: the
marker of the next attach does not survive, because a power loss may bring
the clean file back. -/
theorem not_marker_survives_after_detach :
    ∃ (history : List Label) (s : State),
      Run (Step MetaPath.aMeta) (pristine EraState.oneChunk) history s ∧
      ¬ MarkerSurvives MetaPath.aMeta s := by
  obtain ⟨marker, t, buf, hattach, -, hpc, -⟩ :=
    exists_marker MetaPath.tmp_aMeta (pristine EraState.oneChunk)
  have hcall : Step MetaPath.aMeta t (.call true) { t with clean := true, pc := .create } :=
    .call true (by rw [hpc]; rfl)
  obtain ⟨fs, hsave, hread⟩ := save_completes MetaPath.aMeta MetaPath.tmp_aMeta true t.map t.disk.fs
  obtain ⟨u, hdetach, hfs, -, -, -⟩ := run_save (s := { t with clean := true, pc := .create }) hsave
  have hfirst : Step MetaPath.aMeta (pristine EraState.oneChunk) (.call false)
      (attach (pristine EraState.oneChunk)) := .call false rfl
  have hrun := Run.cons hfirst (hattach.append (.cons hcall hdetach))
  have hinv : Inv MetaPath.aMeta u := hrun.state_invariant (Inv MetaPath.aMeta)
    (inv_pristine _ _) fun _ _ _ hi hs => hi.step hs
  rw [← hfs, Fs.read] at hread
  obtain ⟨i, hdir, hdata⟩ := Option.map_eq_some_iff.mp hread
  refine ⟨_, u, hrun, not_survives_of_entry MetaPath.tmp_aMeta (by decide) hinv
    (hdir ▸ u.disk.cand_self _) ?_⟩
  intro hunclean
  apply hunclean.2
  rw [hdata]
  exact loadsClean t.map

end PowerLoss

end Ublkera
