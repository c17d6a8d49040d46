import Ublkera.Backup.Live
import Ublkera.Meta.Save

/-!
# The life of one tracked backing

One backing is attached again and again with the same metadata path.  The
daemon attaches it, serves its requests, takes checkpoints, detaches it, and
may be killed after any step.  One consumer holds a cursor, which is a pair
of a generation and an era, and takes backups.

`Step` is the daemon at the grain at which it can be killed: the load, the
steps of every save, the `fetch_add` of a checkpoint, its response, every
step of every tag, every chunk that `ranges_since` reads, and every read of
the consumer.  The ctl thread runs one command at a time, and so does
`Ctl`.

A backup is aborted when the device goes away under it, and the cursor then
stays what it was.

`onDisk_step` is what the rest builds on: what a later `add` could load
changes with a save in one way only, to the state that the save has read.
-/

namespace Ublkera

namespace Lifecycle

open LittleEndian PosixFs Trace

/-- The command that the ctl thread runs on the live device. -/
inductive Ctl where
  | ready
  /-- `checkpoint_one` after the `fetch_add`; `backup` says whether the
  consumer asked for it. -/
  | checkpoint (closed : UInt32) (backup : Bool) (pc : SavePc)
  /-- `ranges_since(since)` before the chunk `i`, for the backup that has
  closed era `closed`. -/
  | dump (closed since : UInt32) (i : Nat) (ranges : List DirtyRange)

inductive Mode where
  /-- The backing is not attached. -/
  | down
  /-- `add` writes the attach marker. -/
  | attaching (map : EraState) (pc : SavePc)
  | live (map : EraState) (tags : Tag → TagPhase) (ctl : Ctl)
  /-- The device is gone and the supervisor runs its final save. -/
  | leaving (map : EraState) (pc : SavePc)

/-- The save that runs: its flag, its map, and where it stands. -/
def Mode.save : Mode → Option (Bool × EraState × SavePc)
  | .attaching map pc => some (false, map, pc)
  | .live map _ (.checkpoint _ _ pc) => some (false, map, pc)
  | .leaving map pc => some (true, map, pc)
  | _ => none

def Mode.withSave (pc : SavePc) : Mode → Mode
  | .attaching map _ => .attaching map pc
  | .live map tags (.checkpoint closed backup _) => .live map tags (.checkpoint closed backup pc)
  | .leaving map _ => .leaving map pc
  | mode => mode

theorem Mode.save_withSave {mode : Mode} {clean : Bool} {map : EraState} {pc pc' : SavePc}
    (h : mode.save = some (clean, map, pc)) :
    (mode.withSave pc').save = some (clean, map, pc') := by
  cases mode with
  | down => cases h
  | attaching | leaving =>
    cases h
    rfl
  | live map tags ctl =>
    cases ctl with
    | ready | dump => cases h
    | checkpoint closed backup pc =>
      cases h
      rfl

theorem Mode.withSave_self {mode : Mode} {clean : Bool} {map : EraState} {pc : SavePc}
    (h : mode.save = some (clean, map, pc)) : mode.withSave pc = mode := by
  cases mode with
  | down => rfl
  | attaching | leaving =>
    cases h
    rfl
  | live map tags ctl =>
    cases ctl with
    | ready | dump => rfl
    | checkpoint closed backup pc =>
      cases h
      rfl

theorem Mode.withSave_withSave (mode : Mode) (pc pc' : SavePc) :
    (mode.withSave pc).withSave pc' = mode.withSave pc' := by
  cases mode with
  | down | attaching | leaving => rfl
  | live map tags ctl => cases ctl <;> rfl

/-- The byte may still be changed by a backing IO in flight. -/
def Mode.InFlight (x : Nat) : Mode → Prop
  | .live _ tags _ => ∃ t iod sqe, tags t = .backend iod sqe ∧ sqe.Changes x
  | _ => False

/-- Where the backup of the consumer stands. -/
inductive Task where
  | idle
  /-- The ctl thread runs a command of the backup. -/
  | waiting
  /-- The checkpoint has answered with `closed`. -/
  | closed (closed : UInt32)
  | copying (closed : UInt32) (todo : Nat → Bool)

structure State (D : Type) where
  fs : MetaFs
  medium : D
  mode : Mode
  /-- The generations that were ever drawn. -/
  used : List UInt64
  cursor : Option (UInt64 × UInt32)
  image : Nat → UInt8
  task : Task

inductive Label where
  /-- `add` finds no file and starts a fresh history. -/
  | addFresh (generation : UInt64)
  /-- `add` loads the file. -/
  | addLoaded (generation : UInt64) (era : UInt32)
  | save (l : SaveLabel)
  | attached
  | attachFailed
  | io (l : Io.Label)
  | checkpoint (backup : Bool)
  /-- The response of a checkpoint, with `meta_saved`. -/
  | answer (generation : UInt64) (closed : UInt32) (saved : Bool)
  | dump
  | readRange
  | fullCopy
  | copy
  | endCopy
  | del
  | gone
  | kill
  | unlink

def Label.checkpoints : Label → Bool
  | .checkpoint _ => true
  | _ => false

/-- The label fetches a data-changing request. -/
def Label.submits : Label → Bool
  | .io l => l.submits
  | _ => false

variable {D : Type} (B : Backing D) (path : MetaPath) (devSize granularity : UInt64)

/-- The call returned without an error. -/
def savedOk : SavePc → Bool
  | .ok _ => true
  | _ => false

/-- The image after a read of the bytes `part` from the device. -/
def copied (s : State D) (part : Nat → Bool) : Nat → UInt8 :=
  fun x => if part x then B.view s.medium x else s.image x

/-- A dump with this cursor is refused, or there is no cursor: the consumer
takes a full copy. -/
def Refused (map : EraState) : Option (UInt64 × UInt32) → Prop
  | none => True
  | some (generation, since) => generation ≠ map.generation ∨ map.currentEra ≤ since

inductive Step : State D → Label → State D → Prop where
  | addFresh {s : State D} {generation : UInt64} {map : EraState} (down : s.mode = .down)
      (absent : s.fs.read path = none)
      (new : EraState.new devSize granularity (.ok generation) = .ok map)
      (fresh : generation ∉ s.used) :
      Step s (.addFresh generation)
        { s with mode := .attaching map .create, used := generation :: s.used }
  | addLoaded {s : State D} {name : String} {raw : Bytes} {urandom : Except String UInt64}
      {map : EraState} {clean : Bool} (down : s.mode = .down)
      (present : s.fs.read path = some raw)
      (load : EraState.load name (.ok raw) devSize granularity urandom = .ok (map, clean)) :
      Step s (.addLoaded map.generation map.currentEra)
        { s with mode := .attaching (map.recover clean) .create }
  | save {s : State D} {clean : Bool} {map : EraState} {pc pc' : SavePc} {l : SaveLabel}
      {fs : MetaFs} (running : s.mode.save = some (clean, map, pc))
      (move : SaveStep path clean map s.fs pc l fs pc') :
      Step s (.save l) { s with fs, mode := s.mode.withSave pc' }
  | attached {s : State D} {map : EraState} {buf : Bytes}
      (marked : s.mode = .attaching map (.ok buf)) :
      Step s .attached { s with mode := .live map (fun _ => .idle) .ready }
  /-- The marker could not be written. -/
  | attachFailed {s : State D} {map : EraState} {buf : Option Bytes}
      (failed : s.mode = .attaching map (.failed buf)) :
      Step s .attachFailed { s with mode := .down }
  /-- The control device could not be created. -/
  | startFailed {s : State D} {map : EraState} {buf : Bytes}
      (marked : s.mode = .attaching map (.ok buf)) :
      Step s .attachFailed { s with mode := .down }
  /-- `run_target` failed; the supervisor runs its final save. -/
  | runFailed {s : State D} {map : EraState} {buf : Bytes}
      (marked : s.mode = .attaching map (.ok buf)) :
      Step s .attachFailed { s with mode := .leaving map .create }
  | io {s : State D} {map map' : EraState} {tags tags' : Tag → TagPhase} {ctl : Ctl}
      {medium' : D} {l : Io.Label} (live : s.mode = .live map tags ctl)
      (tag : Io.Step B { map, medium := s.medium, tags } l
        { map := map', medium := medium', tags := tags' }) :
      Step s (.io l) { s with medium := medium', mode := .live map' tags' ctl }
  | checkpoint {s : State D} {map : EraState} {tags : Tag → TagPhase}
      (live : s.mode = .live map tags .ready) :
      Step s (.checkpoint false)
        { s with
          mode := .live map.checkpoint.1 tags (.checkpoint map.checkpoint.2.1 false .create) }
  | backup {s : State D} {map : EraState} {tags : Tag → TagPhase}
      (live : s.mode = .live map tags .ready) (idle : s.task = .idle) :
      Step s (.checkpoint true)
        { s with
          mode := .live map.checkpoint.1 tags (.checkpoint map.checkpoint.2.1 true .create)
          task := .waiting }
  | answer {s : State D} {map : EraState} {tags : Tag → TagPhase} {closed : UInt32}
      {backup : Bool} {pc : SavePc}
      (live : s.mode = .live map tags (.checkpoint closed backup pc))
      (returned : pc.returned = true) :
      Step s (.answer map.generation closed (savedOk pc))
        { s with
          mode := .live map tags .ready
          task := if backup then .closed closed else s.task }
  | dump {s : State D} {map : EraState} {tags : Tag → TagPhase} {closed since : UInt32}
      (live : s.mode = .live map tags .ready) (task : s.task = .closed closed)
      (cursor : s.cursor = some (map.generation, since)) (known : since < map.currentEra) :
      Step s .dump
        { s with mode := .live map tags (.dump closed since 0 []), task := .waiting }
  | readRange {s : State D} {map : EraState} {tags : Tag → TagPhase} {closed since : UInt32}
      {i : Nat} {ranges : List DirtyRange}
      (live : s.mode = .live map tags (.dump closed since i ranges)) (more : i < map.nrChunks) :
      Step s .readRange
        { s with
          mode := .live map tags (.dump closed since (i + 1) (map.rangeStep since ranges i)) }
  | endScan {s : State D} {map : EraState} {tags : Tag → TagPhase} {closed since : UInt32}
      {i : Nat} {ranges : List DirtyRange}
      (live : s.mode = .live map tags (.dump closed since i ranges)) (done : map.nrChunks ≤ i) :
      Step s .readRange
        { s with
          mode := .live map tags .ready
          task := .copying closed (EraState.covers ranges) }
  | fullCopy {s : State D} {map : EraState} {tags : Tag → TagPhase} {ctl : Ctl}
      {closed : UInt32} (live : s.mode = .live map tags ctl) (task : s.task = .closed closed)
      (refused : Refused map s.cursor) :
      Step s .fullCopy { s with task := .copying closed (Live.allBytes map) }
  | copy {s : State D} {map : EraState} {tags : Tag → TagPhase} {ctl : Ctl}
      {closed : UInt32} {todo : Nat → Bool} (live : s.mode = .live map tags ctl)
      (task : s.task = .copying closed todo) (part : Nat → Bool)
      (left : ∀ x, part x = true → todo x = true) :
      Step s .copy
        { s with
          image := copied B s part
          task := .copying closed (fun x => todo x && !part x) }
  | endCopy {s : State D} {map : EraState} {tags : Tag → TagPhase} {ctl : Ctl}
      {closed : UInt32} {todo : Nat → Bool} (live : s.mode = .live map tags ctl)
      (task : s.task = .copying closed todo)
      (done : ∀ x, x < devSize.toNat → todo x = false) :
      Step s .endCopy
        { s with cursor := some (map.generation, closed), task := .idle }
  /-- The device goes away when its queues are drained. -/
  | del {s : State D} {map : EraState} {tags : Tag → TagPhase}
      (live : s.mode = .live map tags .ready) (drained : ∀ t, tags t = .idle) :
      Step s .del { s with mode := .leaving map .create, task := .idle }
  | gone {s : State D} {map : EraState} {pc : SavePc} (leaving : s.mode = .leaving map pc)
      (returned : pc.returned = true) : Step s .gone { s with mode := .down }
  /-- What is in flight reaches the medium in full, in part, or not at
  all. -/
  | kill {s : State D} {medium : D}
      (settles : ∀ x, ¬ s.mode.InFlight x → B.view medium x = B.view s.medium x) :
      Step s .kill { s with medium, mode := .down, task := .idle }
  | unlink {s : State D} (down : s.mode = .down) :
      Step s .unlink { s with fs := s.fs.unlink path }

/-- No backing was ever attached, and there is no metadata file. -/
def init (medium : D) (image : Nat → UInt8) : State D :=
  { fs := Fs.empty, medium, mode := .down, used := [], cursor := none, image, task := .idle }

/-- A save that nothing disturbs leaves the whole map at its path. -/
theorem save_run {tmp : MetaPath} (named : path.tmp = some tmp) {s : State D} {clean : Bool}
    {map : EraState} (running : s.mode.save = some (clean, map, .create)) :
    ∃ fs, Run (Step B path devSize granularity) s
        ((saveLabels map.nrChunks ++ [SaveLabel.rename]).map Label.save)
        { s with fs, mode := s.mode.withSave (.ok (map.metaBytes clean)) } ∧
      fs.read path = some (map.metaBytes clean) := by
  obtain ⟨fs, hrun, hread⟩ := save_completes path named clean map s.fs
  refine ⟨fs, ?_, hread⟩
  have hmap := hrun.map (Step B path devSize granularity)
    (fun p => { s with fs := p.1, mode := s.mode.withSave p.2 }) Label.save
    (by
      intro p l q hs
      have hmove : Step B path devSize granularity
          { s with fs := p.1, mode := s.mode.withSave p.2 } (.save l) _ :=
        .save (Mode.save_withSave running) hs
      rw [Mode.withSave_withSave] at hmove
      exact hmove)
  rw [Mode.withSave_self running] at hmap
  exact hmap

/-- An `add` that nothing disturbs writes its marker and goes live. -/
theorem attach_run {tmp : MetaPath} (named : path.tmp = some tmp) {s : State D} {map : EraState}
    (attaching : s.mode = .attaching map .create) :
    ∃ fs, Run (Step B path devSize granularity) s
        ((saveLabels map.nrChunks ++ [SaveLabel.rename]).map Label.save ++ [.attached])
        { s with fs, mode := .live map (fun _ => .idle) .ready } ∧
      fs.read path = some (map.metaBytes false) := by
  have hsave : s.mode.save = some (false, map, .create) := by
    rw [attaching]
    rfl
  obtain ⟨fs, hrun, hread⟩ := save_run B path devSize granularity named hsave
  refine ⟨fs, hrun.snoc ?_, hread⟩
  rw [attaching]
  exact .attached rfl

variable {path devSize granularity} in
/-- An `add` after a kill that has left an unclean file of `map`. -/
theorem readd_run {s : State D} (map : EraState) (hg : map.granularity = granularity)
    (hd : map.devSize = devSize) (hread : s.fs.read path = some (map.metaBytes false)) :
    Run (Step B path devSize granularity) s
      [.kill, .addLoaded map.generation map.currentEra]
      { s with mode := .attaching map.markAllDirty .create, task := .idle } := by
  subst hg hd
  have hkill : Step B path map.devSize map.granularity s .kill
      { s with mode := .down, task := .idle } := .kill fun _ _ => rfl
  have hadd : Step B path map.devSize map.granularity { s with mode := .down, task := .idle }
      (.addLoaded map.generation map.currentEra)
      { s with mode := .attaching map.markAllDirty .create, task := .idle } :=
    .addLoaded (s := { s with mode := .down, task := .idle }) rfl hread
      (map.load_metaBytes false "" 0)
  exact .cons hkill (.single hadd)

/-! ## What a later `add` could load -/

/-- An `add` could load `snap` from the path, with the flag `clean`. -/
def OnDisk (fs : MetaFs) (snap : EraState) (clean : Bool) : Prop :=
  ∃ raw name urandom, fs.read path = some raw ∧
    EraState.load name (.ok raw) devSize granularity urandom = .ok (snap, clean)

variable {path devSize granularity}

theorem OnDisk.shape {fs : MetaFs} {snap : EraState} {clean : Bool}
    (h : OnDisk path devSize granularity fs snap clean) :
    snap.granularity = granularity ∧ snap.devSize = devSize := by
  obtain ⟨raw, name, urandom, -, hload⟩ := h
  obtain ⟨-, -, -, hg, hd, -⟩ := EraState.load_ok hload
  exact ⟨hg, hd⟩

/-- At most one state can be loaded from a file. -/
theorem OnDisk.unique {fs : MetaFs} {snap snap' : EraState} {clean clean' : Bool}
    (h : OnDisk path devSize granularity fs snap clean)
    (h' : OnDisk path devSize granularity fs snap' clean') : snap' = snap ∧ clean' = clean := by
  obtain ⟨raw, name, urandom, hraw, hload⟩ := h
  obtain ⟨raw', name', urandom', hraw', hload'⟩ := h'
  rw [hraw] at hraw'
  obtain rfl := Option.some.inj hraw'
  exact EraState.load_unique hload hload'

/-- A file that reads the same loads the same. -/
theorem OnDisk.congr {fs fs' : MetaFs} {snap : EraState} {clean : Bool}
    (hread : fs'.read path = fs.read path)
    (h : OnDisk path devSize granularity fs' snap clean) :
    OnDisk path devSize granularity fs snap clean := by
  obtain ⟨raw, name, urandom, hraw, hload⟩ := h
  exact ⟨raw, name, urandom, hread.symm.trans hraw, hload⟩

/-- From a prefix of the bytes of a save, only the state that the save has
read can load. -/
theorem onDisk_take {fs : MetaFs} {s snap : EraState} {clean clean' : Bool} {pos : Nat}
    (hg : s.granularity = granularity) (hd : s.devSize = devSize)
    (hread : fs.read path = some ((s.metaBytes clean).take pos))
    (h : OnDisk path devSize granularity fs snap clean') : snap = s ∧ clean' = clean := by
  obtain ⟨raw, name, urandom, hraw, hload⟩ := h
  subst hg hd
  rw [hread] at hraw
  obtain rfl := Option.some.inj hraw
  exact EraState.load_take hload

/-- The step of a save that takes away what was at the path before. -/
def landing (path : MetaPath) : SaveLabel :=
  if path.tmp = some path then .create else .rename

/-- A rename leaves at the path what the save has read. -/
theorem onDisk_renamed {P : EraState → Prop} {clean clean' : Bool} {map snap : EraState}
    {fs fs' : MetaFs} {pc pc' : SavePc}
    (hP : ∀ snap, P snap → snap.granularity = granularity ∧ snap.devSize = devSize)
    (hholds : pc.Holds fs path.tmp) (hcarries : Carries P clean pc')
    (hs : SaveStep path clean map fs pc .rename fs' pc')
    (h : OnDisk path devSize granularity fs' snap clean') : P snap ∧ clean' = clean := by
  cases hs with
  | @rename _ tmp buf named renamed =>
    obtain ⟨own, hown, rfl⟩ := hcarries buf rfl
    obtain ⟨hg, hd⟩ := hP own hown
    have hread :=
      (SaveStep.rename named renamed : SaveStep path clean map fs _ .rename _ _).read_renamed hholds
    rw [← List.take_length (l := own.metaBytes clean)] at hread
    obtain ⟨rfl, rfl⟩ := onDisk_take hg hd hread h
    exact ⟨hown, rfl⟩

/-- After a step of a save, an `add` could load what it could load before, or
the state that the save has read.  Once the save has landed, only that
state. -/
theorem onDisk_step {P : EraState → Prop} {clean clean' : Bool} {map snap : EraState}
    {fs fs' : MetaFs} {pc pc' : SavePc} {l : SaveLabel}
    (hP : ∀ snap, P snap → snap.granularity = granularity ∧ snap.devSize = devSize)
    (hholds : pc.Holds fs path.tmp) (hcarries : Carries P clean pc')
    (hs : SaveStep path clean map fs pc l fs' pc')
    (h : OnDisk path devSize granularity fs' snap clean') :
    (l ≠ landing path ∧ OnDisk path devSize granularity fs snap clean') ∨
      (P snap ∧ clean' = clean ∧
        (l = landing path ∨ (path.tmp = some path ∧ pc.inWindow = true))) := by
  have hother : ∀ k, k ≠ SaveLabel.create → k ≠ SaveLabel.rename → k ≠ landing path := by
    intro k hcreate hrename
    unfold landing
    split
    · exact hcreate
    · exact hrename
  cases hs with
  | @create tmp named =>
    by_cases hself : path.tmp = some path
    · -- an empty file does not load
      obtain ⟨raw, name, urandom, hraw, hload⟩ := h
      obtain rfl := Option.some.inj (hself.symm.trans named)
      rw [Fs.read_create_self] at hraw
      obtain rfl := Option.some.inj hraw
      obtain ⟨-, hlen, -⟩ := EraState.load_ok hload
      rw [hdrLen, List.length_nil] at hlen
      omega
    · refine Or.inl ⟨?_, h.congr (fs.read_create_of_ne (SaveStep.ne_named named hself))⟩
      rw [landing, if_neg hself]
      decide
  | @write ino buf pos n progress fits =>
    by_cases hself : path.tmp = some path
    · obtain ⟨own, hown, rfl⟩ := hcarries buf rfl
      obtain ⟨hg, hd⟩ := hP own hown
      have hread : (fs.writeAt ino pos (slice (own.metaBytes clean) pos (pos + n))).read path
          = some ((own.metaBytes clean).take (pos + n)) := by
        have hnew : (SavePc.write ino (own.metaBytes clean) (pos + n)).Holds _ path.tmp :=
          (SaveStep.write progress fits : SaveStep path clean map fs _ .write _ _).holds hholds
        obtain ⟨tmp, named, hdir, hdata, -⟩ := hnew
        obtain rfl := Option.some.inj (hself.symm.trans named)
        rw [Fs.read, hdir, Option.map_some, hdata]
      obtain ⟨rfl, rfl⟩ := onDisk_take hg hd hread h
      exact Or.inr ⟨hown, rfl, Or.inr ⟨hself, rfl⟩⟩
    · refine Or.inl ⟨hother _ (by decide) (by decide), ?_⟩
      refine h.congr (fs.read_writeAt_of_ne _ _ ?_)
      intro hdir
      obtain ⟨tmp, named, hdir', -⟩ := hholds
      exact SaveStep.ne_named named hself (fs.dir_inj hdir hdir')
  | @rename _ tmp buf named renamed =>
    have hmove : SaveStep path clean map fs (.rename buf) .rename fs' (.ok buf) :=
      .rename named renamed
    obtain ⟨hown, hclean⟩ := onDisk_renamed hP hholds hcarries hmove h
    refine Or.inr ⟨hown, hclean, ?_⟩
    by_cases hself : path.tmp = some path
    · exact Or.inr ⟨hself, rfl⟩
    · exact Or.inl (by rw [landing, if_neg hself])
  | readEra | readChunk | serialise | sync | renameMissing | fail =>
    exact Or.inl ⟨hother _ (by decide) (by decide), h⟩

end Lifecycle

end Ublkera
