import Ublkera.Era.Metadata
import Ublkera.Lib.PosixFs
import Ublkera.Lib.Run
import Ublkera.Meta.MetaPath

/-!
# Saving the metadata, step by step

`SaveStep` is `EraState::save` cut into its steps: the creation of the temp
file, the load of the era counter, the load of one chunk, the writes of the
serialised bytes in any number of pieces, the sync, and the rename.  Other
threads may run between two of them, so a step takes the file system and the
era map as they are then.  Every step that makes a system call may fail
instead.

* `SavePc.Holds` is what a save knows about its temp file.
* `SaveStep.holds` and `SaveStep.holds_other` keep it, for the save that
  moves and for every save with another temp name.
* `SaveStep.read_other` is the frame rule: a save changes its temp name and
  its path and no other name.
-/

namespace Ublkera

open LittleEndian PosixFs

abbrev MetaFs := Fs MetaPath

/-- The state that `save` has read: the era counter and the eras of the
chunks, each at its own time. -/
def EraState.frozen (s : EraState) (era : UInt32) (eras : List UInt32)
    (h : eras.length = s.nrChunks) : EraState :=
  { s with currentEra := era, eras, eras_length := h.trans s.eras_length }

/-- Where a call of `save` stands. -/
inductive SavePc where
  | create
  | readEra (ino : Nat)
  | readChunks (ino : Nat) (era : UInt32) (eras : List UInt32)
  | write (ino : Nat) (buf : Bytes) (pos : Nat)
  | rename (buf : Bytes)
  | ok (buf : Bytes)
  /-- The call returned an error; `buf` is what it had serialised. -/
  | failed (buf : Option Bytes)
  deriving DecidableEq

inductive SaveLabel where
  | create
  | readEra
  | readChunk
  | serialise
  | write
  | sync
  | rename
  | fail
  deriving DecidableEq, Repr

/-- The next step is a system call that may fail. -/
def SavePc.mayFail : SavePc → Bool
  | .create | .write _ _ _ | .rename _ => true
  | _ => false

/-- The bytes that the call has serialised. -/
def SavePc.buf : SavePc → Option Bytes
  | .write _ buf _ | .rename buf | .ok buf => some buf
  | .failed buf => buf
  | _ => none

/-- The inode that the call has open. -/
def SavePc.ino : SavePc → Option Nat
  | .readEra ino | .readChunks ino _ _ | .write ino _ _ => some ino
  | _ => none

/-- The call has returned. -/
def SavePc.returned : SavePc → Bool
  | .ok _ | .failed _ => true
  | _ => false

/-- The call has created its temp file and has not renamed it. -/
def SavePc.inWindow : SavePc → Bool
  | .readEra _ | .readChunks _ _ _ | .write _ _ _ | .rename _ => true
  | _ => false

/-- One step of `save(path, clean)`. -/
inductive SaveStep (path : MetaPath) (clean : Bool) (map : EraState) :
    MetaFs → SavePc → SaveLabel → MetaFs → SavePc → Prop where
  | create {fs : MetaFs} {tmp : MetaPath} (named : path.tmp = some tmp) :
      SaveStep path clean map fs .create .create (fs.create tmp) (.readEra (fs.openIno tmp))
  | readEra {fs : MetaFs} {ino : Nat} :
      SaveStep path clean map fs (.readEra ino) .readEra fs
        (.readChunks ino map.currentEra [])
  | readChunk {fs : MetaFs} {ino : Nat} {era : UInt32} {eras : List UInt32}
      (more : eras.length < map.nrChunks) :
      SaveStep path clean map fs (.readChunks ino era eras) .readChunk fs
        (.readChunks ino era (eras ++ [map.era eras.length]))
  | serialise {fs : MetaFs} {ino : Nat} {era : UInt32} {eras : List UInt32}
      (done : eras.length = map.nrChunks) :
      SaveStep path clean map fs (.readChunks ino era eras) .serialise fs
        (.write ino ((map.frozen era eras done).metaBytes clean) 0)
  | write {fs : MetaFs} {ino : Nat} {buf : Bytes} {pos n : Nat} (progress : 0 < n)
      (fits : pos + n ≤ buf.length) :
      SaveStep path clean map fs (.write ino buf pos) .write
        (fs.writeAt ino pos (slice buf pos (pos + n))) (.write ino buf (pos + n))
  | sync {fs : MetaFs} {ino : Nat} {buf : Bytes} :
      SaveStep path clean map fs (.write ino buf buf.length) .sync fs (.rename buf)
  | rename {fs fs' : MetaFs} {tmp : MetaPath} {buf : Bytes} (named : path.tmp = some tmp)
      (renamed : fs.rename tmp path = some fs') :
      SaveStep path clean map fs (.rename buf) .rename fs' (.ok buf)
  | renameMissing {fs : MetaFs} {tmp : MetaPath} {buf : Bytes} (named : path.tmp = some tmp)
      (missing : fs.rename tmp path = none) :
      SaveStep path clean map fs (.rename buf) .fail fs (.failed (some buf))
  | fail {fs : MetaFs} {pc : SavePc} (mayFail : pc.mayFail = true) :
      SaveStep path clean map fs pc .fail fs (.failed pc.buf)

/-! ## The temp file -/

/-- What a save knows about the file behind its temp name. -/
def SavePc.Holds (fs : MetaFs) (tmp : Option MetaPath) : SavePc → Prop
  | .create | .ok _ | .failed _ => True
  | .readEra ino | .readChunks ino _ _ =>
    ∃ t, tmp = some t ∧ fs.dir t = some ino ∧ fs.data ino = []
  | .write ino buf pos =>
    ∃ t, tmp = some t ∧ fs.dir t = some ino ∧ fs.data ino = buf.take pos ∧ pos ≤ buf.length
  | .rename buf => ∃ t, tmp = some t ∧ fs.read t = some buf

/-- A save outside its window knows nothing about its temp file. -/
theorem SavePc.holds_of_not_inWindow {pc : SavePc} (h : pc.inWindow = false) (fs : MetaFs)
    (tmp : Option MetaPath) : pc.Holds fs tmp := by
  cases pc with
  | create | ok | failed => trivial
  | readEra | readChunks | write | rename => cases h

/-- The bytes that a save has serialised are those of a state with `P`. -/
def Carries (P : EraState → Prop) (clean : Bool) (pc : SavePc) : Prop :=
  ∀ buf, pc.buf = some buf → ∃ snap, P snap ∧ buf = snap.metaBytes clean

theorem Carries.mono {P Q : EraState → Prop} {clean : Bool} {pc : SavePc}
    (h : Carries P clean pc) (hPQ : ∀ snap, P snap → Q snap) : Carries Q clean pc := by
  intro buf hbuf
  obtain ⟨snap, hP, hbytes⟩ := h buf hbuf
  exact ⟨snap, hPQ snap hP, hbytes⟩

namespace SaveStep

variable {path : MetaPath} {clean : Bool} {map : EraState} {fs fs' : MetaFs}
  {pc pc' : SavePc} {label : SaveLabel}

/-- A name that is not the temp name of the path. -/
theorem ne_named {tmp q : MetaPath} (named : path.tmp = some tmp) (h : path.tmp ≠ some q) :
    q ≠ tmp :=
  fun hq => h (hq ▸ named)

/-- The inode that a save writes to is the one behind its temp name. -/
theorem holds (h : pc.Holds fs path.tmp)
    (hs : SaveStep path clean map fs pc label fs' pc') : pc'.Holds fs' path.tmp := by
  cases hs with
  | @create tmp named => exact ⟨tmp, named, fs.dir_create_self tmp, fs.data_create_self tmp⟩
  | readEra => exact h
  | readChunk => exact h
  | serialise =>
    obtain ⟨tmp, named, hdir, hdata⟩ := h
    exact ⟨tmp, named, hdir, hdata, Nat.zero_le _⟩
  | @write ino buf pos n progress fits =>
    obtain ⟨tmp, named, hdir, hdata, -⟩ := h
    refine ⟨tmp, named, hdir, ?_, fits⟩
    rw [Fs.data_writeAt_self, hdata]
    exact Fs.overwrite_take buf fits
  | @sync ino buf =>
    obtain ⟨tmp, named, hdir, hdata, -⟩ := h
    refine ⟨tmp, named, ?_⟩
    rw [Fs.read, hdir, Option.map_some, hdata, List.take_length]
  | rename => trivial
  | renameMissing => trivial
  | fail => trivial

/-- A step changes the directory only at the temp name and the path. -/
theorem dir_other (hs : SaveStep path clean map fs pc label fs' pc') {q : MetaPath}
    (htmp : path.tmp ≠ some q) (hpath : q ≠ path) : fs'.dir q = fs.dir q := by
  cases hs with
  | create named => exact fs.dir_create_of_ne (ne_named named htmp)
  | rename named renamed => exact (Fs.rename_frame renamed).2.2 q (ne_named named htmp) hpath
  | readEra | readChunk | serialise | write | sync | renameMissing | fail => rfl

/-- A step changes the bytes of no inode but the one behind its temp
name. -/
theorem data_other (h : pc.Holds fs path.tmp)
    (hs : SaveStep path clean map fs pc label fs' pc') {q : MetaPath}
    (htmp : path.tmp ≠ some q) {i : Nat} (hq : fs.dir q = some i) : fs'.data i = fs.data i := by
  cases hs with
  | create named => exact fs.data_create_of_ne (fs.ne_openIno (ne_named named htmp) hq)
  | @write ino buf pos n progress fits =>
    obtain ⟨tmp, named, hdir, -⟩ := h
    refine Fs.data_writeAt_of_ne fs _ _ ?_
    intro hi
    rw [hi] at hq
    exact ne_named named htmp (fs.dir_inj hq hdir)
  | rename named renamed => rw [(Fs.rename_frame renamed).1]
  | readEra | readChunk | serialise | sync | renameMissing | fail => rfl

theorem next_le (hs : SaveStep path clean map fs pc label fs' pc') : fs.next ≤ fs'.next := by
  cases hs with
  | create => exact Nat.le_max_left _ _
  | rename named renamed => exact Nat.le_of_eq (Fs.rename_frame renamed).2.1.symm
  | readEra | readChunk | serialise | write | sync | renameMissing | fail => exact Nat.le_refl _

/-- A step changes the bytes of no inode but the one that it has open. -/
theorem data_unopened (hs : SaveStep path clean map fs pc label fs' pc') {i : Nat}
    (h : ¬ ((label = .create ∨ label = .write) ∧ pc'.ino = some i)) :
    fs'.data i = fs.data i := by
  cases hs with
  | create named =>
    refine fs.data_create_of_ne fun hi => h ⟨Or.inl rfl, ?_⟩
    rw [hi]
    rfl
  | write progress fits =>
    refine Fs.data_writeAt_of_ne fs _ _ fun hi => h ⟨Or.inr rfl, ?_⟩
    rw [hi]
    rfl
  | rename named renamed => rw [(Fs.rename_frame renamed).1]
  | readEra | readChunk | serialise | sync | renameMissing | fail => rfl

/-- A name other than the path keeps its inode, or gets a fresh one, or
loses it. -/
theorem dir_old_or_fresh
    (hs : SaveStep path clean map fs pc label fs' pc') {q : MetaPath} {i : Nat}
    (hq : q ≠ path) (h : fs'.dir q = some i) : fs.dir q = some i ∨ fs.next ≤ i := by
  by_cases htmp : path.tmp = some q
  · cases hs with
    | @create tmp named =>
      obtain rfl := Option.some.inj (htmp.symm.trans named)
      rw [Fs.dir_create_self] at h
      rw [← Option.some.inj h]
      unfold Fs.openIno
      cases hd : fs.dir q with
      | none => exact Or.inr (Nat.le_refl _)
      | some j => exact Or.inl rfl
    | @rename _ tmp buf named renamed =>
      obtain rfl := Option.some.inj (htmp.symm.trans named)
      rw [(Fs.rename_spec hq renamed).2.1] at h
      cases h
    | readEra | readChunk | serialise | write | sync | renameMissing | fail => exact Or.inl h
  · rw [hs.dir_other htmp hq] at h
    exact Or.inl h

/-- The path keeps its inode, or gets the one of the temp name at the
rename. -/
theorem dir_path (hself : path.tmp ≠ some path)
    (hs : SaveStep path clean map fs pc label fs' pc') :
    fs'.dir path = fs.dir path ∨
      ∃ tmp buf, path.tmp = some tmp ∧ pc = .rename buf ∧ label = .rename ∧
        fs'.dir path = fs.dir tmp := by
  cases hs with
  | create named => exact Or.inl (fs.dir_create_of_ne (ne_named named hself))
  | @rename _ tmp buf named renamed =>
    exact Or.inr ⟨tmp, buf, named, rfl, rfl,
      (Fs.rename_spec (Ne.symm (ne_named named hself)) renamed).1⟩
  | readEra | readChunk | serialise | write | sync | renameMissing | fail => exact Or.inl rfl

/-- The frame rule: a save leaves every name alone but its temp name and its
path. -/
theorem read_other (h : pc.Holds fs path.tmp)
    (hs : SaveStep path clean map fs pc label fs' pc') {q : MetaPath}
    (htmp : path.tmp ≠ some q) (hpath : q ≠ path) : fs'.read q = fs.read q := by
  unfold Fs.read
  rw [hs.dir_other htmp hpath]
  cases hq : fs.dir q with
  | none => rfl
  | some i => rw [Option.map_some, Option.map_some, hs.data_other h htmp hq]

/-- What another save knows about its own temp file stays true. -/
theorem holds_other (h : pc.Holds fs path.tmp)
    (hs : SaveStep path clean map fs pc label fs' pc') {tmp : Option MetaPath}
    (htmp : tmp ≠ path.tmp) (hpath : tmp ≠ some path) {other : SavePc}
    (hother : other.Holds fs tmp) : other.Holds fs' tmp := by
  have hne : ∀ {t}, tmp = some t → path.tmp ≠ some t ∧ t ≠ path :=
    fun ht => ⟨fun hp => htmp (ht.trans hp.symm), fun hp => hpath (hp ▸ ht)⟩
  cases other with
  | create | ok | failed => trivial
  | readEra ino | readChunks ino =>
    obtain ⟨t, ht, hdir, hdata⟩ := hother
    obtain ⟨hpt, htp⟩ := hne ht
    refine ⟨t, ht, (hs.dir_other hpt htp).trans hdir, ?_⟩
    rw [hs.data_other h hpt hdir]
    exact hdata
  | write ino buf pos =>
    obtain ⟨t, ht, hdir, hdata, hpos⟩ := hother
    obtain ⟨hpt, htp⟩ := hne ht
    refine ⟨t, ht, (hs.dir_other hpt htp).trans hdir, ?_, hpos⟩
    rw [hs.data_other h hpt hdir]
    exact hdata
  | rename buf =>
    obtain ⟨t, ht, hread⟩ := hother
    obtain ⟨hpt, htp⟩ := hne ht
    exact ⟨t, ht, (hs.read_other h hpt htp).trans hread⟩

/-- The path itself changes only at the rename, and then reads as the bytes
that the save serialised. -/
theorem read_path (h : pc.Holds fs path.tmp)
    (hs : SaveStep path clean map fs pc label fs' pc') (hself : path.tmp ≠ some path) :
    fs'.read path = fs.read path ∨
      ∃ buf, pc = .rename buf ∧ pc' = .ok buf ∧ fs'.read path = some buf := by
  cases hs with
  | create named => exact Or.inl (fs.read_create_of_ne (ne_named named hself))
  | @write ino buf pos n progress fits =>
    obtain ⟨tmp, named, hdir, -⟩ := h
    refine Or.inl (fs.read_writeAt_of_ne _ _ ?_)
    intro hq
    exact ne_named named hself (fs.dir_inj hq hdir)
  | @rename fs' tmp buf named renamed =>
    obtain ⟨t, ht, hread⟩ := h
    obtain rfl := Option.some.inj (named.symm.trans ht)
    have hne := Ne.symm (ne_named named hself)
    exact Or.inr ⟨buf, rfl, rfl, (Fs.read_rename hne renamed).1.trans hread⟩
  | readEra | readChunk | serialise | sync | renameMissing | fail => exact Or.inl rfl

/-- After the rename the path reads as the bytes that the save serialised,
also where the path is its own temp name. -/
theorem read_renamed {buf : Bytes} (h : (SavePc.rename buf).Holds fs path.tmp)
    (hs : SaveStep path clean map fs (.rename buf) .rename fs' pc') :
    fs'.read path = some buf := by
  cases hs with
  | rename named renamed =>
    obtain ⟨t, ht, hread⟩ := h
    obtain rfl := Option.some.inj (named.symm.trans ht)
    exact (Fs.read_renamed renamed).trans hread

/-- The serialised bytes stay what they are. -/
theorem buf_stable (hs : SaveStep path clean map fs pc label fs' pc') {buf : Bytes}
    (h : pc.buf = some buf) : pc'.buf = some buf := by
  cases hs with
  | create | readEra | readChunk | serialise => cases h
  | write | sync | rename | renameMissing | fail => exact h

/-- The state that a save serialises is the one that it has read. -/
theorem carries {P : EraState → Prop} (h : Carries P clean pc)
    (hs : SaveStep path clean map fs pc label fs' pc')
    (hread : ∀ ino era eras (done : eras.length = map.nrChunks),
      pc = .readChunks ino era eras → P (map.frozen era eras done)) : Carries P clean pc' := by
  intro buf hbuf
  cases hs with
  | create | readEra | readChunk => cases hbuf
  | serialise done =>
    obtain rfl := Option.some.inj hbuf
    exact ⟨_, hread _ _ _ done rfl, rfl⟩
  | write | sync | rename | renameMissing | fail => exact h buf hbuf

/-- A save enters its window with the creation of the temp file. -/
theorem inWindow (hs : SaveStep path clean map fs pc label fs' pc')
    (h : pc'.inWindow = true) : pc.inWindow = true ∨ label = .create := by
  cases hs with
  | create => exact Or.inr rfl
  | readEra | readChunk | serialise | write | sync => exact Or.inl rfl
  | rename | renameMissing | fail => cases h

theorem eq_create (hs : SaveStep path clean map fs pc .create fs' pc') : pc = .create := by
  cases hs with
  | create => rfl

theorem create_named (hs : SaveStep path clean map fs pc .create fs' pc') :
    ∃ tmp, path.tmp = some tmp := by
  cases hs with
  | create named => exact ⟨_, named⟩

/-- A call that has returned takes no step. -/
theorem not_returned (hs : SaveStep path clean map fs pc label fs' pc') :
    pc.returned = false := by
  cases hs with
  | create | readEra | readChunk | serialise | write | sync | rename | renameMissing => rfl
  | fail mayFail =>
    cases pc with
    | ok | failed => cases mayFail
    | _ => rfl

/-- What a save serialises is not empty. -/
theorem buf_ne_nil (hs : SaveStep path clean map fs pc label fs' pc')
    (h : ∀ buf, pc.buf = some buf → buf ≠ []) (buf : Bytes) (hbuf : pc'.buf = some buf) :
    buf ≠ [] := by
  cases hs with
  | create | readEra | readChunk => cases hbuf
  | serialise done =>
    obtain rfl := Option.some.inj hbuf
    apply List.ne_nil_of_length_pos
    rw [EraState.metaBytes_length]
    exact Nat.lt_of_lt_of_le (by decide) (Nat.le_add_right hdrLen _)
  | write | sync | rename | renameMissing | fail => exact h buf hbuf

/-- A call that is over without an error got there from its window. -/
theorem of_over (hs : SaveStep path clean map fs pc label fs' pc')
    (hout : pc'.inWindow = false) (hok : ∀ buf, pc' ≠ .failed buf) :
    ∃ buf, pc = .rename buf ∧ pc' = .ok buf ∧ label = .rename := by
  cases hs with
  | create | readEra | readChunk | serialise | write | sync => cases hout
  | rename => exact ⟨_, rfl, rfl, rfl⟩
  | renameMissing | fail => exact absurd rfl (hok _)

/-- A failed step leaves the files alone and ends the window. -/
theorem fail_fs (hs : SaveStep path clean map fs pc .fail fs' pc') :
    fs' = fs ∧ pc'.inWindow = false := by
  cases hs with
  | renameMissing | fail => exact ⟨rfl, rfl⟩

/-- The call that moves is in its window, or creates its temp file, or
fails. -/
theorem inWindow_or_create (hs : SaveStep path clean map fs pc label fs' pc') :
    pc.inWindow = true ∨ label = .create ∨ label = .fail := by
  cases hs with
  | create => exact Or.inr (Or.inl rfl)
  | readEra | readChunk | serialise | write | sync | rename => exact Or.inl rfl
  | renameMissing | fail => exact Or.inr (Or.inr rfl)

end SaveStep

/-! ## A save that nothing disturbs -/

/-- The steps of a save, on the pair that they change. -/
def SaveStep.Paired (path : MetaPath) (clean : Bool) (map : EraState)
    (s : MetaFs × SavePc) (label : SaveLabel) (t : MetaFs × SavePc) : Prop :=
  SaveStep path clean map s.1 s.2 label t.1 t.2

open Trace

/-- The chunk loop of a save, while the map stays as it is. -/
theorem readChunks_alone (path : MetaPath) (clean : Bool) (map : EraState) (fs : MetaFs)
    (ino : Nat) (era : UInt32) {n : Nat} (hn : n ≤ map.nrChunks) :
    Run (SaveStep.Paired path clean map) (fs, .readChunks ino era [])
      (List.replicate n .readChunk) (fs, .readChunks ino era (map.eras.take n)) := by
  induction n with
  | zero => exact .nil
  | succ n ih =>
    have hlen : (map.eras.take n).length = n := by
      rw [List.length_take]
      exact Nat.min_eq_left (Nat.le_of_succ_le hn)
    have hnext : map.eras.take n ++ [map.era n] = map.eras.take (n + 1) := by
      have hlt : n < map.eras.length := hn
      rw [List.take_succ_eq_append_getElem hlt, EraState.era, List.getD_eq_getElem?_getD,
        List.getElem?_eq_getElem hlt]
      rfl
    have hstep : SaveStep.Paired path clean map
        (fs, .readChunks ino era (map.eras.take n)) .readChunk
        (fs, .readChunks ino era (map.eras.take (n + 1))) := by
      rw [← hnext]
      have hread : SaveStep path clean map fs (.readChunks ino era (map.eras.take n)) .readChunk
          fs (.readChunks ino era (map.eras.take n ++ [map.era (map.eras.take n).length])) :=
        .readChunk (by rw [hlen]; exact hn)
      rw [hlen] at hread
      exact hread
    rw [List.replicate_succ']
    exact .snoc (ih (Nat.le_of_succ_le hn)) hstep

/-- The labels of a save up to its rename. -/
def saveLabels (nrChunks : Nat) : List SaveLabel :=
  .create :: .readEra :: (List.replicate nrChunks .readChunk ++ [.serialise, .write, .sync])

/-- A save that nothing disturbs gets to its rename, with the whole map in
its temp file. -/
theorem save_alone (path : MetaPath) {tmp : MetaPath} (named : path.tmp = some tmp) (clean : Bool)
    (map : EraState) (fs : MetaFs) :
    Run (SaveStep.Paired path clean map) (fs, .create) (saveLabels map.nrChunks)
      ((fs.create tmp).writeAt (fs.openIno tmp) 0 (map.metaBytes clean),
        .rename (map.metaBytes clean)) := by
  have hlen := map.metaBytes_length clean
  have hpos : 0 < (map.metaBytes clean).length := by
    rw [hlen]
    exact Nat.lt_of_lt_of_le (by decide) (Nat.le_add_right hdrLen _)
  have hfrozen : (map.frozen map.currentEra (map.eras.take map.nrChunks)
      (by rw [List.length_take]; exact Nat.min_self _)) = map := by
    ext1
    · rfl
    · rfl
    · rfl
    · rfl
    · exact List.take_length
  have hserialise : SaveStep.Paired path clean map
      (fs.create tmp, .readChunks (fs.openIno tmp) map.currentEra
        (map.eras.take map.nrChunks)) .serialise
      (fs.create tmp, .write (fs.openIno tmp) (map.metaBytes clean) 0) := by
    have h : SaveStep path clean map (fs.create tmp) (.readChunks (fs.openIno tmp)
        map.currentEra (map.eras.take map.nrChunks)) .serialise (fs.create tmp) _ :=
      .serialise (by rw [List.length_take]; exact Nat.min_self _)
    rw [hfrozen] at h
    exact h
  have hwrite : SaveStep.Paired path clean map
      (fs.create tmp, .write (fs.openIno tmp) (map.metaBytes clean) 0) .write
      ((fs.create tmp).writeAt (fs.openIno tmp) 0 (map.metaBytes clean),
        .write (fs.openIno tmp) (map.metaBytes clean) (map.metaBytes clean).length) := by
    have h : SaveStep path clean map (fs.create tmp)
        (.write (fs.openIno tmp) (map.metaBytes clean) 0) .write _ _ :=
      .write hpos (Nat.le_of_eq (Nat.zero_add _))
    rw [Nat.zero_add, slice_self _ rfl] at h
    exact h
  have hcreate : SaveStep.Paired path clean map (fs, .create) .create
      (fs.create tmp, .readEra (fs.openIno tmp)) := SaveStep.create named
  have hera : SaveStep.Paired path clean map
      (fs.create tmp, .readEra (fs.openIno tmp)) .readEra
      (fs.create tmp, .readChunks (fs.openIno tmp) map.currentEra []) :=
    SaveStep.readEra
  have hsync : SaveStep.Paired path clean map
      ((fs.create tmp).writeAt (fs.openIno tmp) 0 (map.metaBytes clean),
        .write (fs.openIno tmp) (map.metaBytes clean) (map.metaBytes clean).length) .sync
      ((fs.create tmp).writeAt (fs.openIno tmp) 0 (map.metaBytes clean),
        .rename (map.metaBytes clean)) := SaveStep.sync
  have hchunks := readChunks_alone path clean map (fs.create tmp) (fs.openIno tmp)
    map.currentEra (Nat.le_refl map.nrChunks)
  have htail := Run.cons hserialise (.cons hwrite (.single hsync))
  exact .cons hcreate (.cons hera (hchunks.append htail))

/-- A save that nothing disturbs leaves the whole map at its path. -/
theorem save_completes (path : MetaPath) {tmp : MetaPath} (named : path.tmp = some tmp)
    (clean : Bool) (map : EraState) (fs : MetaFs) :
    ∃ fs', Run (SaveStep.Paired path clean map) (fs, .create)
        (saveLabels map.nrChunks ++ [.rename]) (fs', .ok (map.metaBytes clean)) ∧
      fs'.read path = some (map.metaBytes clean) := by
  have hrun := save_alone path named clean map fs
  generalize (fs.create tmp).writeAt (fs.openIno tmp) 0 (map.metaBytes clean) = t at hrun
  have hholds : (SavePc.rename (map.metaBytes clean)).Holds t path.tmp :=
    hrun.state_invariant (fun u => u.2.Holds u.1 path.tmp) trivial
      fun _ _ _ h hs => SaveStep.holds h hs
  cases hrename : Fs.rename t tmp path with
  | none =>
    obtain ⟨tmp', named', hread⟩ := hholds
    obtain rfl := Option.some.inj (named.symm.trans named')
    rw [Fs.read, Fs.rename_eq_none.mp hrename] at hread
    cases hread
  | some fs' =>
    have hmove : SaveStep path clean map t (.rename (map.metaBytes clean)) .rename fs'
        (.ok (map.metaBytes clean)) := .rename named hrename
    exact ⟨fs', hrun.snoc hmove, hmove.read_renamed hholds⟩

end Ublkera
