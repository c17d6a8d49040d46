import Ublkera.Daemon.Marker

/-!
# A metadata path for every device

The condition `Spares` of `Ublkera.Daemon.Marker` is about the steps of the
saves.  It holds when every `add` is given a metadata path that nobody else
uses, and that is not its own temp name.  Paths are compared as the file
system resolves them.

A supervisor uses its path until it has exited, and not only as long as its
device is up: the final save of a device that was deleted by another tool
may come when the next one is attached.

* `Fresh` is the condition on the path of an `add`.
* `SoleInv` is the invariant: every path has one supervisor that has not
  exited, and the targets of a checkpoint are such supervisors.
* `fresh_marked`: in a run whose `add`s all have fresh paths, the file of
  every live device loads as not clean, at every moment.
-/

namespace Ublkera

namespace Manager

open LittleEndian PosixFs Trace

/-- An `add` is given a path that is not its own temp name, and that no
supervisor uses that has not exited. -/
def Fresh (s : State) (l : Label) : Prop :=
  ∀ spec path, l = .add spec → spec.metaPath = some path →
    path.tmp ≠ some path ∧
      ∀ i sup, s.sups i = some sup → sup.spec.metaPath = some path → sup.phase = .exited

/-- All other supervisors with the path of this one have exited. -/
def Sole (sups : Nat → Option Supervisor) (i : Nat) : Prop :=
  ∀ sup path, sups i = some sup → sup.spec.metaPath = some path →
    ∀ j other, j ≠ i → sups j = some other → other.spec.metaPath = some path →
      other.phase = .exited

/-- The supervisors whose maps the ctl thread saves. -/
def Ctl.targets : Ctl → List Nat
  | .checkpointing targets => targets
  | .saving i _ targets => i :: targets
  | _ => []

structure SoleInv (s : State) : Prop where
  /-- No path is its own temp name. -/
  named : ∀ i sup path, s.sups i = some sup → sup.spec.metaPath = some path →
    path.tmp ≠ some path
  sole : ∀ i sup, s.sups i = some sup → sup.phase ≠ .exited → Sole s.sups i
  targets : ∀ i ∈ s.ctl.targets, Sole s.sups i
  adding : ∀ spec map recovered pc path, s.ctl = .adding spec map recovered pc →
    spec.metaPath = some path → path.tmp ≠ some path ∧
      ∀ i sup, s.sups i = some sup → sup.spec.metaPath = some path → sup.phase = .exited

theorem soleInv_init (fs : MetaFs) : SoleInv (init fs) := by
  refine ⟨?_, ?_, ?_, ?_⟩
  · intro i sup path h
    cases h
  · intro i sup h
    cases h
  · intro i h
    cases h
  · intro spec map recovered pc path h
    cases h

/-! ## The supervisors that stay -/

/-- No supervisor starts, none takes another path, and what has exited stays
so. -/
def Stays (sups sups' : Nat → Option Supervisor) : Prop :=
  ∀ i sup', sups' i = some sup' → ∃ sup, sups i = some sup ∧ sup'.spec = sup.spec ∧
    (sup.phase = .exited → sup'.phase = .exited)

theorem Stays.refl (sups : Nat → Option Supervisor) : Stays sups sups :=
  fun _ sup' h => ⟨sup', h, rfl, id⟩

theorem stays_setPhase {s : State} {i : Nat} {sup : Supervisor} (found : s.sups i = some sup)
    {phase : Phase} (h : sup.phase = .exited → phase = .exited) :
    Stays s.sups (s.setPhase i phase).sups := by
  intro j sup' hsup'
  by_cases hj : j = i
  · subst hj
    rw [setPhase_self found] at hsup'
    rw [← Option.some.inj hsup']
    exact ⟨sup, found, rfl, h⟩
  · rw [setPhase_of_ne s hj] at hsup'
    exact ⟨sup', hsup', rfl, id⟩

theorem stays_setMap (s : State) (i : Nat) (map : EraState) :
    Stays s.sups (s.setMap i map).sups := by
  intro j sup' hsup'
  obtain ⟨sup, hsup, hspec, -⟩ := (fades_setMap s i map).back j sup' hsup'
  refine ⟨sup, hsup, hspec, ?_⟩
  by_cases hj : j = i
  · subst hj
    have hself : (s.setMap j map).sups j = some { sup with map } := by
      simp [State.setMap, hsup]
    rw [hself] at hsup'
    rw [← Option.some.inj hsup']
    exact id
  · have hsame : (s.setMap i map).sups j = s.sups j := by
      simp [State.setMap, Function.update_of_ne hj]
    rw [hsame, hsup] at hsup'
    rw [← Option.some.inj hsup']
    exact id

theorem stays_deleteDevice (s : State) (devId : UInt32) :
    Stays s.sups (s.deleteDevice devId).sups := by
  intro i sup' hsup'
  obtain ⟨sup, hsup, rfl⟩ := Option.map_eq_some_iff.mp hsup'
  refine ⟨sup, hsup, ?_⟩
  split
  · rename_i hlive
    refine ⟨rfl, fun hexited => ?_⟩
    rw [hlive] at hexited
    cases hexited
  · exact ⟨rfl, id⟩

theorem stays_withSave {s : State} {t : Thread} {path : MetaPath} {clean : Bool}
    {map : EraState} {pc : SavePc} (running : s.save t = some (path, clean, map, pc))
    (fs : MetaFs) (pc' : SavePc) : Stays s.sups (s.withSave fs pc' t).sups := by
  cases t with
  | ctl => exact Stays.refl s.sups
  | sup i =>
    obtain ⟨-, sup, hsup, hphase, -⟩ := save_sup_iff.mp running
    refine stays_setPhase hsup fun hexited => ?_
    rw [hexited] at hphase
    cases hphase

theorem Sole.stays {sups sups' : Nat → Option Supervisor} {i : Nat} (h : Sole sups i)
    (hs : Stays sups sups') : Sole sups' i := by
  intro sup' path hsup' hpath j other' hj hother' hown
  obtain ⟨sup, hsup, hspec, -⟩ := hs i sup' hsup'
  obtain ⟨other, hother, hospec, hexited⟩ := hs j other' hother'
  rw [hspec] at hpath
  rw [hospec] at hown
  exact hexited (h sup path hsup hpath j other hj hother hown)

/-- A step that starts no supervisor. -/
theorem SoleInv.stays {s s' : State} (h : SoleInv s) (hs : Stays s.sups s'.sups)
    (htargets : ∀ i ∈ s'.ctl.targets, i ∈ s.ctl.targets ∨ Sole s.sups i)
    (hadding : ∀ spec map recovered pc path, s'.ctl = .adding spec map recovered pc →
      spec.metaPath = some path → path.tmp ≠ some path ∧
        ∀ i sup, s.sups i = some sup → sup.spec.metaPath = some path → sup.phase = .exited) :
    SoleInv s' := by
  refine ⟨?_, ?_, ?_, ?_⟩
  · intro i sup' path hsup' hpath
    obtain ⟨sup, hsup, hspec, -⟩ := hs i sup' hsup'
    rw [hspec] at hpath
    exact h.named i sup path hsup hpath
  · intro i sup' hsup' hphase
    obtain ⟨sup, hsup, -, hexited⟩ := hs i sup' hsup'
    exact (h.sole i sup hsup fun hold => hphase (hexited hold)).stays hs
  · intro i hi
    rcases htargets i hi with hold | hsole
    · exact (h.targets i hold).stays hs
    · exact hsole.stays hs
  · intro spec map recovered pc path hctl hpath
    obtain ⟨hnamed, hothers⟩ := hadding spec map recovered pc path hctl hpath
    refine ⟨hnamed, fun i sup' hsup' hown => ?_⟩
    obtain ⟨sup, hsup, hspec, hexited⟩ := hs i sup' hsup'
    rw [hspec] at hown
    exact hexited (hothers i sup hsup hown)

/-! ## Steps -/

/-- The ctl thread is in no checkpoint and in no `add`. -/
def Ctl.Rests (ctl : Ctl) : Prop :=
  ctl.targets = [] ∧ ∀ spec map recovered pc, ctl ≠ .adding spec map recovered pc

theorem rests_after (ids : List UInt32) : (Ctl.after ids).Rests := by
  cases ids with
  | nil => exact ⟨rfl, nofun⟩
  | cons devId ids => exact ⟨rfl, nofun⟩

theorem rests_release (ctl : Ctl) (i : Nat) {next : Ctl} (h : next.Rests) :
    ctl.release i next = ctl ∨ (ctl.release i next).Rests := by
  rcases release_eq ctl i next with heq | heq
  · exact Or.inl heq
  · rw [heq]
    exact Or.inr h

/-- A step after which the ctl thread does what it did, or rests. -/
theorem SoleInv.rests {s s' : State} (h : SoleInv s) (hs : Stays s.sups s'.sups)
    (hctl : s'.ctl = s.ctl ∨ s'.ctl.Rests) : SoleInv s' := by
  rcases hctl with hctl | ⟨htargets, hadding⟩
  · refine h.stays hs ?_ ?_
    · intro i hi
      rw [hctl] at hi
      exact Or.inl hi
    · intro spec map recovered pc path hadd
      rw [hctl] at hadd
      exact h.adding spec map recovered pc path hadd
  · refine h.stays hs ?_ ?_
    · intro i hi
      rw [htargets] at hi
      cases hi
    · intro spec map recovered pc path hadd
      exact absurd hadd (hadding spec map recovered pc)

/-- A registered device whose supervisor runs is the only user of its
path. -/
theorem SoleInv.registered {s : State} (h : SoleInv s) {m : Managed}
    (hm : m ∈ s.reap.devices) : Sole s.sups m.supervisor := by
  have hrunning := (List.mem_filter.mp hm).2
  unfold finished at hrunning
  intro sup path hsup
  rw [hsup] at hrunning
  exact h.sole m.supervisor sup hsup (by simpa using hrunning) sup path hsup

/-- The new supervisor is the only user of the path of its `add`. -/
theorem SoleInv.spawn {s : State} {spec : DeviceSpec} {map : EraState} {recovered : Bool}
    {pc : Option SavePc} (h : SoleInv s) (adding : s.ctl = .adding spec map recovered pc) :
    SoleInv { s with
      sups := Function.update s.sups s.next (some { spec, map, phase := .starting })
      next := s.next + 1
      ctl := .waiting s.next recovered } := by
  have hold : ∀ {i : Nat} {sup : Supervisor},
      Function.update s.sups s.next (some { spec, map, phase := .starting }) i = some sup →
      (i = s.next ∧ sup.spec = spec) ∨ (i ≠ s.next ∧ s.sups i = some sup) := by
    intro i sup hsup
    by_cases hi : i = s.next
    · subst hi
      rw [Function.update_self] at hsup
      rw [← Option.some.inj hsup]
      exact Or.inl ⟨rfl, rfl⟩
    · rw [Function.update_of_ne hi] at hsup
      exact Or.inr ⟨hi, hsup⟩
  refine ⟨?_, ?_, nofun, nofun⟩
  · intro i sup path hsup hpath
    rcases hold hsup with ⟨-, hspec⟩ | ⟨-, hsup⟩
    · rw [hspec] at hpath
      exact (h.adding spec map recovered pc path adding hpath).1
    · exact h.named i sup path hsup hpath
  · intro i sup hsup hphase sup' path hsup' hpath j other hj hother hown
    rw [hsup] at hsup'
    obtain rfl := Option.some.inj hsup'
    rcases hold hsup with ⟨hi, hspec⟩ | ⟨hi, hsup⟩
    · -- the new supervisor against an old one
      rcases hold hother with ⟨hj', -⟩ | ⟨-, hother⟩
      · exact absurd (hj'.trans hi.symm) hj
      · rw [hspec] at hpath
        exact (h.adding spec map recovered pc path adding hpath).2 j other hother hown
    · rcases hold hother with ⟨-, hospec⟩ | ⟨-, hother⟩
      · -- an old one that has not exited against the new one
        rw [hospec] at hown
        exact absurd ((h.adding spec map recovered pc path adding hown).2 i sup hsup hpath) hphase
      · exact h.sole i sup hsup hphase sup path hsup hpath j other hj hother hown

theorem SoleInv.step {s s' : State} {l : Label} (h : SoleInv s) (hs : Step s l s')
    (hfresh : Fresh s l) : SoleInv s' := by
  have hrefl := Stays.refl s.sups
  cases hs with
  | addRefused | list | checkpointUnknown => exact h.rests hrefl (Or.inl rfl)
  | @add spec env map recovered idle begin =>
    refine h.stays hrefl (fun i hi => by cases hi) ?_
    intro spec' map' recovered' pc path hadd hpath
    cases hadd
    exact hfresh spec path rfl hpath
  | addFailed | spawnFailed | timeout | answer =>
    exact h.rests hrefl (Or.inr ⟨rfl, nofun⟩)
  | @save t path clean map pc pc' l fs running move =>
    refine h.stays (stays_withSave running fs pc') ?_ ?_
    · intro i hi
      left
      cases t with
      | sup j => exact hi
      | ctl =>
        have hsame : (s.ctl.withSave pc').targets = s.ctl.targets := by
          cases s.ctl with
          | adding spec map recovered opc =>
            cases opc with
            | none => rfl
            | some pc0 => rfl
          | idle | waiting | checkpointing | saving | joining | detaching => rfl
        rw [← hsame]
        exact hi
    · intro spec map' recovered opc path' hadd
      obtain ⟨old, hold, -⟩ := adding_of_withSave hadd
      exact h.adding spec map' recovered old path' hold
  | spawn adding marked => exact h.spawn adding
  | ready waiting found starting free =>
    refine h.rests (stays_setPhase found fun hexited => ?_) (Or.inr ⟨rfl, nofun⟩)
    rw [starting] at hexited
    cases hexited
  | startFailed found starting =>
    exact h.rests (stays_setPhase found fun _ => rfl) (rests_release _ _ ⟨rfl, nofun⟩)
  | runFailed found starting =>
    refine h.rests (stays_setPhase found fun hexited => ?_) (rests_release _ _ ⟨rfl, nofun⟩)
    rw [starting] at hexited
    cases hexited
  | lateUp found starting late free =>
    refine h.rests (stays_setPhase found fun hexited => ?_) (Or.inl rfl)
    rw [starting] at hexited
    cases hexited
  | stamp found => exact h.rests (stays_setMap s _ _) (Or.inl rfl)
  | externalDelete found live =>
    refine h.rests (stays_setPhase found fun hexited => ?_) (Or.inl rfl)
    rw [live] at hexited
    cases hexited
  | exit found gone saved => exact h.rests (stays_setPhase found fun _ => rfl) (Or.inl rfl)
  | @checkpoint devId m idle found =>
    refine h.stays hrefl ?_ nofun
    intro i hi
    obtain rfl := List.mem_singleton.mp hi
    exact Or.inr (h.registered (mem_of_lookup found).1)
  | checkpointAll idle perm =>
    refine h.stays hrefl ?_ nofun
    intro i hi
    obtain ⟨m, hm, rfl⟩ := List.mem_map.mp hi
    exact Or.inr (h.registered (perm.mem_iff.mp hm))
  | @closeEra i sup targets turn found =>
    have htargets : ∀ j ∈ i :: targets, j ∈ s.ctl.targets := by
      intro j hj
      rw [turn]
      exact hj
    refine h.stays (stays_setMap s i _) ?_ ?_
    · intro j hj
      left
      dsimp only at hj
      split at hj
      · exact htargets j hj
      · exact htargets j (List.mem_cons_of_mem _ hj)
    · intro spec map recovered pc path hadd
      dsimp only at hadd
      split at hadd
      · cases hadd
      · cases hadd
  | @saved i pc targets saving returned =>
    refine h.stays hrefl ?_ nofun
    intro j hj
    left
    rw [saving]
    exact List.mem_cons_of_mem _ hj
  | @del devId m ids turn found =>
    exact h.rests (stays_deleteDevice s.reap devId) (Or.inr ⟨rfl, nofun⟩)
  | delFailed | delUnknown | joined | shutdownAll =>
    exact h.rests hrefl (Or.inr (rests_after _))

/-! ## The saves -/

theorem not_serving {phase : Phase} (h : phase = .exited) : phase.mayServe ≠ true := by
  rw [h]
  nofun

/-- The save of a path that has one user writes over no file of another. -/
theorem SoleInv.spares {s : State} (h : SoleInv s) (l : Label) : Spares s l := by
  intro t k path clean map pc _ running q user hq
  constructor
  · intro _
    cases hq with
    | adding marked own => exact MetaPath.ne_tmp (h.adding _ _ _ _ q marked own).1 path
    | serving found serving own => exact MetaPath.ne_tmp (h.named _ _ q found own) path
  · rintro - rfl
    cases t with
    | ctl =>
      obtain ⟨hclean, ⟨spec, recovered, hctl, hp⟩ | ⟨i, targets, sup, hctl, hsup, hp, rfl⟩⟩ :=
        save_ctl_iff.mp running
      · -- the marker of an `add`
        cases hq with
        | adding marked own =>
          rw [hctl] at marked
          cases marked
          exact ⟨hclean, rfl, rfl⟩
        | serving found serving own =>
          exact absurd serving (not_serving ((h.adding _ _ _ _ _ hctl hp).2 _ _ found own))
      · -- the map of a checkpoint
        cases hq with
        | adding marked own =>
          rw [hctl] at marked
          cases marked
        | @serving j other _ found serving own =>
          by_cases hj : j = i
          · subst hj
            rw [hsup] at found
            obtain rfl := Option.some.inj found
            exact ⟨hclean, rfl, rfl⟩
          · have hsole := h.targets i (by rw [hctl]; exact List.mem_cons_self)
            exact absurd serving (not_serving (hsole sup _ hsup hp j other hj found own))
    | sup i =>
      -- the final save: nobody else uses the path
      exfalso
      obtain ⟨-, sup, hsup, hphase, hpath, -⟩ := save_sup_iff.mp running
      have hexited : sup.phase ≠ .exited := by
        rw [hphase]
        nofun
      cases hq with
      | adding marked own =>
        exact hexited ((h.adding _ _ _ _ q marked own).2 i sup hsup hpath)
      | @serving j other _ found serving own =>
        by_cases hj : j = i
        · subst hj
          rw [hsup] at found
          obtain rfl := Option.some.inj found
          rw [hphase] at serving
          cases serving
        · exact not_serving (h.sole i sup hsup hexited sup q hsup hpath j other hj found own)
            serving

/-! ## Runs -/

/-- With fresh paths every step spares the attached devices. -/
theorem spares_of_fresh {fs : MetaFs} {trace : List Label} {s : State}
    (h : Run (fun s l s' => QuietStep s l s' ∧ Fresh s l) (init fs) trace s) :
    Run (fun s l s' => QuietStep s l s' ∧ Spares s l) (init fs) trace s := by
  have hboth : Run (fun s l s' => QuietStep s l s' ∧ Spares s l) (init fs) trace s ∧
      SoleInv s := by
    induction h with
    | nil => exact ⟨.nil, soleInv_init fs⟩
    | snoc run last ih =>
      exact ⟨ih.1.snoc ⟨last.1, ih.2.spares _⟩, ih.2.step last.1.1 last.2⟩
  exact hboth.1

/-- In a run whose `add`s all have fresh paths, a kill makes the next `add`
of a live device take all of it as changed, at every moment. -/
theorem fresh_marked {fs : MetaFs} {trace : List Label} {s : State}
    (hrun : Run (fun s l s' => QuietStep s l s' ∧ Fresh s l) (init fs) trace s)
    {i : Nat} {sup : Supervisor} {devId : UInt32} (hsup : s.sups i = some sup)
    (hlive : sup.phase = .live devId) {path : MetaPath} (hpath : sup.spec.metaPath = some path) :
    ∃ map, ∀ g, addState sup.spec (s.fs.read path) sup.map.devSize (.ok g) = .ok (map, true) :=
  (run_markerInv (spares_of_fresh hrun)).recovers hsup hlive hpath

end Manager

end Ublkera
