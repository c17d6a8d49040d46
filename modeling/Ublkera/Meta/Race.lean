import Ublkera.Era.Ranges
import Ublkera.Meta.Save

/-!
# A checkpoint that races the final save

The ctl thread runs `checkpoint_one`: the `fetch_add` of the era counter and
then `save(path, false)`.  The supervisor of the same device runs its final
`save(path, true)` at the same time, because the device was deleted
externally or by the signal thread.  Both go through the temp file of one
path, and whichever rename comes last wins.

`save` creates its temp file before it reads the era counter.  So of two
saves that do not tear each other's temp file, the later one has read the
counter after the earlier one had renamed.  `era_above_closed` draws the
conclusion: the file that is left holds an era above the closed one.
-/

namespace Ublkera

namespace Race

open LittleEndian PosixFs Trace

/-- `checkpoint_one` on the ctl thread. -/
inductive Ctl where
  | before
  | saving (closed : UInt32) (pc : SavePc)
  /-- The response is delivered; `pc` is how the save ended. -/
  | answered (closed : UInt32) (pc : SavePc)

/-- Where the save of the ctl thread stands. -/
def Ctl.pc : Ctl → SavePc
  | .before => .create
  | .saving _ pc | .answered _ pc => pc

structure State where
  fs : MetaFs
  map : EraState
  ctl : Ctl
  sup : SavePc

inductive Label where
  /-- A request that was still in flight is stamped. -/
  | stamp
  | fetchAdd
  | ctlSave (l : SaveLabel)
  | answer
  | supSave (l : SaveLabel)
  deriving DecidableEq

inductive Step (path : MetaPath) : State → Label → State → Prop where
  | stamp {s : State} (chunk : Nat) (era : UInt32) :
      Step path s .stamp { s with map := s.map.fetchMax chunk era }
  | fetchAdd {s : State} (before : s.ctl = .before) :
      Step path s .fetchAdd
        { s with
          map := s.map.checkpoint.1
          ctl := .saving s.map.checkpoint.2.1 .create }
  | ctlSave {s : State} {closed : UInt32} {pc pc' : SavePc} {l : SaveLabel} {fs : MetaFs}
      (saving : s.ctl = .saving closed pc)
      (move : SaveStep path false s.map s.fs pc l fs pc') :
      Step path s (.ctlSave l) { s with fs, ctl := .saving closed pc' }
  | answer {s : State} {closed : UInt32} {pc : SavePc} (saving : s.ctl = .saving closed pc)
      (returned : pc.inWindow = false ∧ pc ≠ .create) :
      Step path s .answer { s with ctl := .answered closed pc }
  | supSave {s : State} {pc' : SavePc} {l : SaveLabel} {fs : MetaFs}
      (move : SaveStep path true s.map s.fs s.sup l fs pc') :
      Step path s (.supSave l) { s with fs, sup := pc' }

/-- A step that tears no temp file: neither save creates the file while the
other one has it open or is about to rename it. -/
def UntornStep (path : MetaPath) (s : State) (l : Label) (s' : State) : Prop :=
  Step path s l s' ∧ (l = .ctlSave .create → s.sup.inWindow = false) ∧
    (l = .supSave .create → s.ctl.pc.inWindow = false)

def init (fs : MetaFs) (map : EraState) : State := { fs, map, ctl := .before, sup := .create }

/-! ## Torn saves -/

/-- Two saves of the path do not both end without an error any more: both
have the temp file, or it is gone and one of them is about to rename it. -/
inductive Doomed (path : MetaPath) (fs : MetaFs) (a b : SavePc) : Prop where
  | failed (failed : (∃ buf, a = .failed buf) ∨ ∃ buf, b = .failed buf)
  | torn (both : a.inWindow = true ∧ b.inWindow = true)
  | gone (missing : ∀ tmp, path.tmp = some tmp → fs.dir tmp = none)
      (started : a ≠ .create ∧ b ≠ .create) (one : a.inWindow = true ∨ b.inWindow = true)

theorem Doomed.symm {path : MetaPath} {fs : MetaFs} {a b : SavePc} (h : Doomed path fs a b) :
    Doomed path fs b a := by
  cases h with
  | failed h => exact .failed h.symm
  | torn h => exact .torn h.symm
  | gone missing started one => exact .gone missing started.symm one.symm

theorem Doomed.step {path : MetaPath} (hself : path.tmp ≠ some path) {clean : Bool}
    {map : EraState} {fs fs' : MetaFs} {a a' b : SavePc} {l : SaveLabel}
    (h : Doomed path fs a b) (hs : SaveStep path clean map fs a l fs' a') :
    Doomed path fs' a' b := by
  cases h with
  | failed h =>
    rcases h with ⟨buf, rfl⟩ | hb
    · cases hs.not_returned
    · exact .failed (Or.inr hb)
  | torn h =>
    obtain ⟨ha, hb⟩ := h
    have hb' : b ≠ .create := by
      rintro rfl
      cases hb
    cases hs with
    | create => cases ha
    | readEra | readChunk | serialise | write | sync => exact .torn ⟨rfl, hb⟩
    | rename named renamed =>
      refine .gone (fun tmp named' => ?_) ⟨nofun, hb'⟩ (Or.inr hb)
      obtain rfl := Option.some.inj (named.symm.trans named')
      exact (Fs.rename_spec (Ne.symm (SaveStep.ne_named named hself)) renamed).2.1
    | renameMissing | fail => exact .failed (Or.inl ⟨_, rfl⟩)
  | gone missing started one =>
    cases hs with
    | create => exact absurd rfl started.1
    | readEra | readChunk | serialise | write | sync =>
      exact .gone missing ⟨nofun, started.2⟩ (Or.inl rfl)
    | rename named renamed =>
      rw [Fs.rename_eq_none.mpr (missing _ named)] at renamed
      cases renamed
    | renameMissing | fail => exact .failed (Or.inl ⟨_, rfl⟩)

theorem Doomed.step_ctl {path : MetaPath} (hself : path.tmp ≠ some path) {s s' : State} {l : Label}
    (h : Doomed path s.fs s.ctl.pc s.sup) (hs : Step path s l s') :
    Doomed path s'.fs s'.ctl.pc s'.sup := by
  cases hs with
  | stamp => exact h
  | fetchAdd before =>
    rw [before] at h
    exact h
  | ctlSave saving move =>
    rw [saving] at h
    exact h.step hself move
  | answer saving =>
    rw [saving] at h
    exact h
  | supSave move => exact (h.symm.step hself move).symm

/-- Two saves that both end without an error have not torn each other's temp
file: the rename of one takes the file from under the other.  A path that is
its own temp name is renamed onto itself, and stays. -/
theorem untorn_of_ok {path : MetaPath} (hself : path.tmp ≠ some path) {fs : MetaFs}
    {map : EraState} {trace : List Label} {s : State}
    (hrun : Run (Step path) (init fs map) trace s) {ctlBuf supBuf : Bytes}
    (hctl : s.ctl.pc = .ok ctlBuf) (hsup : s.sup = .ok supBuf) :
    Run (UntornStep path) (init fs map) trace s := by
  have hboth : Run (UntornStep path) (init fs map) trace s ∨
      Doomed path s.fs s.ctl.pc s.sup := by
    clear hctl hsup
    induction hrun with
    | nil => exact Or.inl .nil
    | @snoc trace t u l run last ih =>
      rcases ih with huntorn | hdoomed
      · by_cases htorn : UntornStep path t l u
        · exact Or.inl (huntorn.snoc htorn)
        · -- one of the two creates the temp file while the other has it
          right
          cases last with
          | ctlSave saving move =>
            have hcreate : ¬ (_ = SaveLabel.create → t.sup.inWindow = false) := fun h =>
              htorn ⟨.ctlSave saving move, fun heq => h (Label.ctlSave.inj heq), nofun⟩
            push Not at hcreate
            obtain ⟨rfl, hwin⟩ := hcreate
            cases move with
            | create => exact .torn ⟨rfl, by simpa using hwin⟩
          | supSave move =>
            have hcreate : ¬ (_ = SaveLabel.create → t.ctl.pc.inWindow = false) := fun h =>
              htorn ⟨.supSave move, nofun, fun heq => h (Label.supSave.inj heq)⟩
            push Not at hcreate
            obtain ⟨rfl, hwin⟩ := hcreate
            generalize hstart : t.sup = start at move
            cases move with
            | create => exact .torn ⟨by simpa using hwin, rfl⟩
          | stamp chunk era => exact absurd ⟨.stamp chunk era, nofun, nofun⟩ htorn
          | fetchAdd before => exact absurd ⟨.fetchAdd before, nofun, nofun⟩ htorn
          | answer saving returned => exact absurd ⟨.answer saving returned, nofun, nofun⟩ htorn
      · exact Or.inr (hdoomed.step_ctl hself last)
  rcases hboth with huntorn | hdoomed
  · exact huntorn
  · rw [hctl, hsup] at hdoomed
    cases hdoomed with
    | failed h => rcases h with ⟨_, h⟩ | ⟨_, h⟩ <;> cases h
    | torn h => cases h.1
    | gone missing started one => rcases one with h | h <;> cases h

/-! ## The invariant -/

/-- What a save has read is above the era `closed`. -/
def Above (map : EraState) (clean : Bool) (closed : UInt32) : SavePc → Prop
  | .create | .readEra _ | .failed _ => True
  | .readChunks _ era _ => closed < era
  | .write _ buf _ | .rename buf | .ok buf =>
    ∃ snap : EraState, buf = snap.metaBytes clean ∧ snap.granularity = map.granularity ∧
      snap.devSize = map.devSize ∧ snap.generation = map.generation ∧
      closed < snap.currentEra

/-- The file at the path was written from a state above the era `closed`. -/
def FileAbove (map : EraState) (closed : UInt32) (file : Option Bytes) : Prop :=
  ∃ (snap : EraState) (clean : Bool), file = some (snap.metaBytes clean) ∧
    snap.granularity = map.granularity ∧ snap.devSize = map.devSize ∧
    snap.generation = map.generation ∧ closed < snap.currentEra

/-- What the ctl thread knows once it has closed its era.  As soon as its
save is done, what a running save of the supervisor has read is above the
closed era, and when none is running the file is. -/
structure Closed (path : MetaPath) (fs : MetaFs) (map : EraState) (sup : SavePc)
    (closed : UInt32) (pc : SavePc) : Prop where
  current : closed < map.currentEra
  above : Above map false closed pc
  later : (∃ buf, pc = .ok buf) → sup.inWindow = true → Above map true closed sup
  file : (∃ buf, pc = .ok buf) → sup.inWindow = false → (∀ buf, sup ≠ .failed buf) →
    FileAbove map closed (fs.read path)

structure Inv (path : MetaPath) (s : State) : Prop where
  ctlHolds : s.ctl.pc.Holds s.fs path.tmp
  supHolds : s.sup.Holds s.fs path.tmp
  apart : s.ctl.pc.inWindow = true → s.sup.inWindow = false
  ctl : match s.ctl with
    | .before => s.map.currentEra < s.map.currentEra + 1
    | .saving closed pc | .answered closed pc => Closed path s.fs s.map s.sup closed pc

theorem inv_init (path : MetaPath) (fs : MetaFs) {map : EraState}
    (hw : map.currentEra < map.currentEra + 1) : Inv path (init fs map) :=
  ⟨trivial, trivial, nofun, hw⟩

/-- Two maps of the same shape and generation give the same bound. -/
theorem Above.congr {map map' : EraState} {clean : Bool} {closed : UInt32} {pc : SavePc}
    (hg : map'.granularity = map.granularity) (hd : map'.devSize = map.devSize)
    (hgen : map'.generation = map.generation) (h : Above map clean closed pc) :
    Above map' clean closed pc := by
  cases pc with
  | create | readEra | failed => trivial
  | readChunks => exact h
  | write | rename | ok =>
    simp only [Above, hg, hd, hgen] at h ⊢
    exact h

/-- One step of a save keeps what it has read above an era that is below the
counter. -/
theorem Above.step {path : MetaPath} {clean : Bool} {map : EraState} {fs fs' : MetaFs}
    {pc pc' : SavePc} {l : SaveLabel} {closed : UInt32} (hcur : closed < map.currentEra)
    (h : Above map clean closed pc) (hs : SaveStep path clean map fs pc l fs' pc') :
    Above map clean closed pc' := by
  cases hs with
  | create => trivial
  | readEra => exact hcur
  | readChunk => exact h
  | serialise done => exact ⟨_, rfl, rfl, rfl, rfl, h⟩
  | write | sync | rename => exact h
  | renameMissing | fail => trivial

/-- A save that ends without an error leaves a file above the era that it
has read. -/
theorem Above.file {path : MetaPath} {clean : Bool} {map : EraState} {fs fs' : MetaFs}
    {pc pc' : SavePc} {l : SaveLabel} {closed : UInt32} (hholds : pc.Holds fs path.tmp)
    (hs : SaveStep path clean map fs pc l fs' pc') (hout : pc'.inWindow = false)
    (hok : ∀ buf, pc' ≠ .failed buf)
    (h : pc.inWindow = true → Above map clean closed pc) :
    FileAbove map closed (fs'.read path) := by
  obtain ⟨buf, rfl, rfl, rfl⟩ := hs.of_over hout hok
  obtain ⟨snap, hbuf, hrest⟩ := h rfl
  refine ⟨snap, clean, ?_, hrest⟩
  rw [hs.read_renamed hholds, hbuf]

/-- An untorn step keeps the invariant. -/
theorem Inv.step {path : MetaPath} {s s' : State} {l : Label} (h : Inv path s)
    (hs : UntornStep path s l s') : Inv path s' := by
  obtain ⟨hctl, hsup, hapart, hinv⟩ := h
  obtain ⟨hstep, hctlCreate, hsupCreate⟩ := hs
  cases hstep with
  | stamp chunk era =>
    refine ⟨hctl, hsup, hapart, ?_⟩
    cases hc : s.ctl with
    | before => rwa [hc] at hinv
    | saving closed pc | answered closed pc =>
      rw [hc] at hinv
      exact ⟨hinv.current, hinv.above.congr rfl rfl rfl,
        fun hok hwin => (hinv.later hok hwin).congr rfl rfl rfl, hinv.file⟩
  | fetchAdd before =>
    rw [before] at hinv
    exact ⟨trivial, hsup, nofun, hinv, trivial, nofun, nofun⟩
  | @ctlSave closed pc pc' l fs saving move =>
    rw [saving] at hinv hctl hapart
    have hpartner : s.sup.inWindow = false ∨ fs = s.fs ∧ pc'.inWindow = false := by
      rcases move.inWindow_or_create with hwin | rfl | rfl
      · exact Or.inl (hapart hwin)
      · exact Or.inl (hctlCreate rfl)
      · exact Or.inr move.fail_fs
    refine ⟨move.holds hctl, ?_, ?_, hinv.current, hinv.above.step hinv.current move, ?_, ?_⟩
    · rcases hpartner with hout | ⟨rfl, -⟩
      · exact SavePc.holds_of_not_inWindow hout _ _
      · exact hsup
    · intro hwin
      rcases hpartner with hout | ⟨-, hout⟩
      · exact hout
      · change pc'.inWindow = true at hwin
        rw [hout] at hwin
        cases hwin
    · intro ⟨buf, hbuf⟩ hwin
      subst hbuf
      obtain ⟨_, rfl, -, -⟩ := move.of_over rfl nofun
      rw [hapart rfl] at hwin
      cases hwin
    · intro ⟨buf, hbuf⟩ _ _
      subst hbuf
      exact Above.file hctl move rfl nofun fun _ => hinv.above
  | answer saving returned =>
    rw [saving] at hinv hctl hapart
    exact ⟨hctl, hsup, hapart, hinv⟩
  | @supSave pc' l fs move =>
    have hpartner : s.ctl.pc.inWindow = false ∨ fs = s.fs ∧ pc'.inWindow = false := by
      rcases move.inWindow_or_create with hwin | rfl | rfl
      · refine Or.inl ?_
        by_contra hne
        rw [Bool.not_eq_false] at hne
        rw [hapart hne] at hwin
        cases hwin
      · exact Or.inl (hsupCreate rfl)
      · exact Or.inr move.fail_fs
    refine ⟨?_, move.holds hsup, ?_, ?_⟩
    · rcases hpartner with hout | ⟨rfl, -⟩
      · exact SavePc.holds_of_not_inWindow hout _ _
      · exact hctl
    · intro hwin
      rcases hpartner with hout | ⟨-, hout⟩
      · change s.ctl.pc.inWindow = true at hwin
        rw [hout] at hwin
        cases hwin
      · exact hout
    · cases hc : s.ctl with
      | before => rwa [hc] at hinv
      | saving closed pc | answered closed pc =>
        rw [hc] at hinv
        refine ⟨hinv.current, hinv.above, fun hok hwin => ?_, fun hok hout hfail => ?_⟩
        · refine Above.step hinv.current ?_ move
          rcases move.inWindow hwin with hwas | rfl
          · exact hinv.later hok hwas
          · rw [move.eq_create]
            trivial
        · exact Above.file hsup move hout hfail (hinv.later hok)

/-! ## The result -/

/-- No step changes the shape or the generation of the map. -/
theorem step_shape {path : MetaPath} {s s' : State} {l : Label} (hs : Step path s l s') :
    s'.map.granularity = s.map.granularity ∧ s'.map.devSize = s.map.devSize ∧
      s'.map.generation = s.map.generation := by
  cases hs with
  | stamp | fetchAdd | ctlSave | answer | supSave => exact ⟨rfl, rfl, rfl⟩

/-- A write that is stamped at or above the era counter of the recovered map
is in the diff from a lower era on. -/
theorem covers_of_stamp {s : EraState} {closed era : UInt32} {x : Nat}
    (hx : x < s.devSize.toNat) (hclosed : closed < s.currentEra) (hera : s.currentEra ≤ era) :
    EraState.covers ((s.fetchMax (x / s.granularity.toNat) era).rangesSince closed) x
      = true := by
  have hchunk := s.chunk_lt_nrChunks hx
  rw [EraState.covers_rangesSince _ closed (by exact hx)]
  exact UInt32.lt_of_lt_of_le hclosed
    (UInt32.le_trans hera (s.le_era_fetchMax_self era hchunk))

/-- A checkpoint that races the final save never rolls the era back under
its closed era: when both saves are done and the response is delivered, the
file that is left loads above the closed era.  So every write after the next
attach is in the diff from that era on. -/
theorem era_above_closed {path : MetaPath} {fs : MetaFs} {map : EraState}
    (hw : map.currentEra < map.currentEra + 1) {trace : List Label} {s : State}
    (hrun : Run (UntornStep path) (init fs map) trace s) {closed : UInt32}
    {ctlBuf supBuf : Bytes} (hctl : s.ctl = .answered closed (.ok ctlBuf))
    (hsup : s.sup = .ok supBuf) (name : String) (urandom : UInt64) :
    ∃ raw snap clean, s.fs.read path = some raw ∧
      EraState.load name (.ok raw) map.devSize map.granularity (.ok urandom)
        = .ok (snap, clean) ∧
      snap.generation = map.generation ∧ closed < snap.currentEra ∧
      ∀ x era, x < map.devSize.toNat → snap.currentEra ≤ era →
        EraState.covers
          (((snap.recover clean).fetchMax (x / map.granularity.toNat) era).rangesSince closed) x
            = true := by
  have hinv : Inv path s :=
    hrun.state_invariant (Inv path) (inv_init path fs hw) fun _ _ _ h hs => h.step hs
  have hshape : s.map.granularity = map.granularity ∧ s.map.devSize = map.devSize ∧
      s.map.generation = map.generation := by
    refine hrun.state_invariant (fun s => s.map.granularity = map.granularity ∧
      s.map.devSize = map.devSize ∧ s.map.generation = map.generation) ⟨rfl, rfl, rfl⟩ ?_
    intro t l u ⟨hg, hd, hgen⟩ hs
    obtain ⟨hg', hd', hgen'⟩ := step_shape hs.1
    exact ⟨hg'.trans hg, hd'.trans hd, hgen'.trans hgen⟩
  obtain ⟨hg, hd, hgen⟩ := hshape
  have hclosed := hinv.ctl
  rw [hctl] at hclosed
  obtain ⟨snap, clean, hfile, hsg, hsd, hsgen, hlt⟩ :=
    hclosed.file ⟨ctlBuf, rfl⟩ (by rw [hsup]; rfl) (by rw [hsup]; exact nofun)
  rw [hg] at hsg
  rw [hd] at hsd
  refine ⟨snap.metaBytes clean, snap, clean, hfile, ?_, hsgen.trans hgen, hlt, ?_⟩
  · rw [← hsg, ← hsd]
    exact EraState.load_metaBytes snap clean name urandom
  · intro x era hx hera
    have h := covers_of_stamp (s := snap.recover clean) (x := x)
      (by rwa [EraState.recover_devSize, hsd]) (by rwa [EraState.recover_currentEra])
      (by rwa [EraState.recover_currentEra])
    rwa [EraState.recover_granularity, hsg] at h

/-- The save of the supervisor, while the ctl thread stands still. -/
theorem run_sup {path : MetaPath} {s : State} (hctl : s.ctl.pc.inWindow = false)
    {trace : List SaveLabel} {fs : MetaFs} {pc : SavePc}
    (h : Run (SaveStep.Paired path true s.map) (s.fs, s.sup) trace (fs, pc)) :
    Run (UntornStep path) s (trace.map .supSave) { s with fs, sup := pc } := by
  refine h.map (UntornStep path) (fun t => { s with fs := t.1, sup := t.2 }) .supSave ?_
  intro t l u hs
  exact ⟨.supSave hs, nofun, fun _ => hctl⟩

/-- The save of the ctl thread, while the supervisor stands still. -/
theorem run_ctl {path : MetaPath} {s : State} (hsup : s.sup.inWindow = false)
    {closed : UInt32} {start pc : SavePc} (hctl : s.ctl = .saving closed start)
    {trace : List SaveLabel} {fs : MetaFs}
    (h : Run (SaveStep.Paired path false s.map) (s.fs, start) trace (fs, pc)) :
    Run (UntornStep path) s (trace.map .ctlSave) { s with fs, ctl := .saving closed pc } := by
  have hrun := h.map (UntornStep path)
    (fun t => { s with fs := t.1, ctl := .saving closed t.2 }) .ctlSave ?_
  · rw [← hctl] at hrun
    exact hrun
  · intro t l u hs
    exact ⟨.ctlSave rfl hs, fun _ => hsup, nofun⟩

/-- The final save runs first, and the save of the checkpoint after it. -/
theorem era_above_closed_oneChunk :
    ∃ (trace : List Label) (s : State) (raw : Bytes) (snap : EraState) (clean : Bool),
      Run (UntornStep MetaPath.aMeta) (init Fs.empty EraState.oneChunk) trace s ∧
      s.fs.read MetaPath.aMeta = some raw ∧
      EraState.load "a.meta" (.ok raw) 4096 4096 (.ok 9) = .ok (snap, clean) ∧
      1 < snap.currentEra := by
  obtain ⟨fs, hsup, -⟩ :=
    save_completes MetaPath.aMeta MetaPath.tmp_aMeta true EraState.oneChunk Fs.empty
  have hrun := run_sup (s := init Fs.empty EraState.oneChunk) rfl hsup
  obtain ⟨fs', hctl, -⟩ :=
    save_completes MetaPath.aMeta MetaPath.tmp_aMeta false EraState.oneChunk.checkpoint.1 fs
  have hrun' := (hrun.snoc ⟨.fetchAdd rfl, nofun, nofun⟩).append (run_ctl rfl rfl hctl)
  have hanswer := hrun'.snoc ⟨.answer rfl ⟨rfl, nofun⟩, nofun, nofun⟩
  obtain ⟨raw, snap, clean, hread, hload, -, hlt, -⟩ :=
    era_above_closed (by decide) hanswer rfl rfl "a.meta" 9
  exact ⟨_, _, raw, snap, clean, hanswer, hread, hload, hlt⟩

end Race

end Ublkera
