import Ublkera.Daemon.Registry

/-!
# The unclean marker of every attached device

`add` leaves an unclean file at the metadata path before its device goes
live, and every later save of the device is unclean, up to the final one.
So a kill makes the next `add` take the whole device as changed, as long as
nobody else writes to the path.

Nothing keeps two devices from sharing a metadata path, or from having one
path that is the temp name of the other.  `Spares` is the condition on a
step that no file of an attached device is written over:

* `live_marked`: in a run whose steps all spare the attached devices, the
  file of every live device loads as not clean, at every moment;
* `marked_runs_iff`: these are all the runs in which every attached device
  keeps its marker.

`Ublkera.Daemon.Sole` has a condition on the paths alone.

Saves succeed and do not overlap here (`QuietStep`); `Ublkera.Meta.Overlap`
is about the overlap.
-/

namespace Ublkera

namespace Manager

open LittleEndian PosixFs Trace

def SameShape (a b : EraState) : Prop := b.granularity = a.granularity ∧ b.devSize = a.devSize

theorem SameShape.trans {a b c : EraState} (h : SameShape a b) (h' : SameShape b c) :
    SameShape a c :=
  ⟨h'.1.trans h.1, h'.2.trans h.2⟩

theorem SameShape.symm {a b : EraState} (h : SameShape a b) : SameShape b a :=
  ⟨h.1.symm, h.2.symm⟩

/-- The file at the path belongs to an attach: its marker has landed, and its
device may serve writes, now or soon. -/
inductive Attached (s : State) : MetaPath → EraState → Prop where
  | adding {spec : DeviceSpec} {map : EraState} {recovered : Bool} {buf : Bytes}
      {path : MetaPath} (marked : s.ctl = .adding spec map recovered (some (.ok buf)))
      (own : spec.metaPath = some path) : Attached s path map
  | serving {i : Nat} {sup : Supervisor} {path : MetaPath} (found : s.sups i = some sup)
      (serving : sup.phase.mayServe = true) (own : sup.spec.metaPath = some path) :
      Attached s path sup.map

/-- No two saves are between their temp file and their rename. -/
def Exclusive (s : State) : Prop :=
  ∀ t u path clean map pc path' clean' map' pc',
    s.save t = some (path, clean, map, pc) → s.save u = some (path', clean', map', pc') →
    pc.inWindow = true → pc'.inWindow = true → t = u

/-- A step of a daemon whose saves succeed and do not overlap. -/
def QuietStep (s : State) (l : Label) (s' : State) : Prop :=
  Step s l s' ∧ (∀ t, l ≠ .save t .fail) ∧ Exclusive s'

/-- The step writes over no file of an attached device: no save creates its
temp file there, and none is renamed onto it but an unclean one of the same
shape. -/
def Spares (s : State) (l : Label) : Prop :=
  ∀ t k path clean map pc, l = .save t k → s.save t = some (path, clean, map, pc) →
    ∀ q user, Attached s q user →
      (k = .create → path.tmp ≠ some q) ∧
        (k = .rename → q = path → clean = false ∧ SameShape user map)

/-- The file at the path is the unclean file of a map of this shape. -/
def MarkedAt (fs : MetaFs) (q : MetaPath) (user : EraState) : Prop :=
  ∃ snap, SameShape user snap ∧ fs.read q = some (snap.metaBytes false)

/-- Every attached device has its marker. -/
def Marked (s : State) : Prop := ∀ q user, Attached s q user → MarkedAt s.fs q user

/-! ## The invariant -/

structure MarkerInv (s : State) : Prop where
  exclusive : Exclusive s
  unspawned : ∀ i, s.next ≤ i → s.sups i = none
  /-- An `add` without a marker has no metadata path. -/
  unmarked : ∀ spec map recovered, s.ctl = .adding spec map recovered none →
    spec.metaPath = none
  addShape : ∀ spec map recovered pc, s.ctl = .adding spec map recovered pc →
    map.granularity = spec.granularity
  supShape : ∀ i sup, s.sups i = some sup → sup.map.granularity = sup.spec.granularity
  saves : ∀ t path clean map pc, s.save t = some (path, clean, map, pc) →
    pc.Holds s.fs path.tmp ∧ Carries (SameShape map) clean pc ∧
      (pc.inWindow = true → ∀ q user, Attached s q user → path.tmp ≠ some q)
  marked : Marked s

theorem markerInv_init (fs : MetaFs) : MarkerInv (init fs) := by
  refine ⟨?_, ?_, ?_, ?_, ?_, ?_, ?_⟩
  · intro t u path clean map pc path' clean' map' pc' h
    cases t with
    | ctl => cases h
    | sup i => cases h
  · intro i _
    rfl
  · intro spec map recovered h
    cases h
  · intro spec map recovered pc h
    cases h
  · intro i sup h
    cases h
  · intro t path clean map pc h
    cases t with
    | ctl => cases h
    | sup i => cases h
  · intro q user h
    cases h with
    | adding marked own => cases marked
    | serving found serving own => cases found

/-! ## The steps of a save -/

/-- The saves of the ctl thread: the marker of an `add`, and the map of a
checkpoint. -/
theorem save_ctl_iff {s : State} {path : MetaPath} {clean : Bool} {map : EraState}
    {pc : SavePc} :
    s.save .ctl = some (path, clean, map, pc) ↔ clean = false ∧
      ((∃ spec recovered, s.ctl = .adding spec map recovered (some pc) ∧
          spec.metaPath = some path) ∨
        ∃ i targets sup, s.ctl = .saving i pc targets ∧ s.sups i = some sup ∧
          sup.spec.metaPath = some path ∧ sup.map = map) := by
  unfold State.save
  cases s.ctl with
  | adding spec map' recovered opc =>
    cases opc with
    | none => simp
    | some pc0 =>
      constructor
      · intro h
        obtain ⟨p, hp, heq⟩ := Option.map_eq_some_iff.mp h
        cases heq
        exact ⟨rfl, Or.inl ⟨spec, recovered, rfl, hp⟩⟩
      · rintro ⟨rfl, ⟨spec', recovered', hctl, hpath⟩ | ⟨i, targets, sup, hctl, -⟩⟩
        · cases hctl
          exact Option.map_eq_some_iff.mpr ⟨path, hpath, rfl⟩
        · cases hctl
  | saving i pc0 targets =>
    constructor
    · intro h
      obtain ⟨sup, hsup, hmap⟩ := Option.bind_eq_some_iff.mp h
      obtain ⟨p, hp, heq⟩ := Option.map_eq_some_iff.mp hmap
      cases heq
      exact ⟨rfl, Or.inr ⟨i, targets, sup, rfl, hsup, hp, rfl⟩⟩
    · rintro ⟨rfl, ⟨spec, recovered, hctl, -⟩ | ⟨j, targets', sup, hctl, hsup, hpath, rfl⟩⟩
      · cases hctl
      · cases hctl
        exact Option.bind_eq_some_iff.mpr ⟨sup, hsup,
          Option.map_eq_some_iff.mpr ⟨path, hpath, rfl⟩⟩
  | idle | waiting | checkpointing | joining | detaching => simp

/-- The save of a supervisor is the final one. -/
theorem save_sup_iff {s : State} {i : Nat} {path : MetaPath} {clean : Bool} {map : EraState}
    {pc : SavePc} :
    s.save (.sup i) = some (path, clean, map, pc) ↔ clean = true ∧
      ∃ sup, s.sups i = some sup ∧ sup.phase = .gone pc ∧ sup.spec.metaPath = some path ∧
        sup.map = map := by
  constructor
  · intro h
    obtain ⟨sup, hsup, hmap⟩ := Option.bind_eq_some_iff.mp h
    cases hphase : sup.phase with
    | gone pc0 =>
      rw [hphase] at hmap
      obtain ⟨p, hp, heq⟩ := Option.map_eq_some_iff.mp hmap
      cases heq
      exact ⟨rfl, sup, hsup, hphase, hp, rfl⟩
    | starting | live | exited =>
      rw [hphase] at hmap
      cases hmap
  · rintro ⟨rfl, sup, hsup, hphase, hpath, rfl⟩
    refine Option.bind_eq_some_iff.mpr ⟨sup, hsup, ?_⟩
    rw [hphase]
    exact Option.map_eq_some_iff.mpr ⟨path, hpath, rfl⟩

theorem save_withSave_self {s : State} {t : Thread} {path : MetaPath} {clean : Bool}
    {map : EraState} {pc : SavePc} (h : s.save t = some (path, clean, map, pc)) (fs : MetaFs)
    (pc' : SavePc) :
    (s.withSave fs pc' t).save t = some (path, clean, map, pc') := by
  cases t with
  | ctl =>
    obtain ⟨rfl, ⟨spec, recovered, hctl, hpath⟩ | ⟨i, targets, sup, hctl, hsup, hpath, rfl⟩⟩ :=
      save_ctl_iff.mp h
    · have hnext : (s.withSave fs pc' .ctl).ctl = .adding spec map recovered (some pc') := by
        show s.ctl.withSave pc' = _
        rw [hctl]
        rfl
      exact save_ctl_iff.mpr ⟨rfl, Or.inl ⟨spec, recovered, hnext, hpath⟩⟩
    · have hnext : (s.withSave fs pc' .ctl).ctl = .saving i pc' targets := by
        show s.ctl.withSave pc' = _
        rw [hctl]
        rfl
      exact save_ctl_iff.mpr ⟨rfl, Or.inr ⟨i, targets, sup, hnext, hsup, hpath, rfl⟩⟩
  | sup i =>
    obtain ⟨rfl, sup, hsup, -, hpath, rfl⟩ := save_sup_iff.mp h
    exact save_sup_iff.mpr
      ⟨rfl, { sup with phase := .gone pc' }, setPhase_self hsup (.gone pc'), rfl, hpath, rfl⟩

/-- A step of one save is not the business of another. -/
theorem save_withSave_of_ne {s : State} {t u : Thread} (hne : u ≠ t) (fs : MetaFs)
    (pc' : SavePc) : (s.withSave fs pc' t).save u = s.save u := by
  cases t with
  | ctl =>
    cases u with
    | ctl => exact absurd rfl hne
    | sup i => rfl
  | sup i =>
    cases u with
    | sup j =>
      have hj : j ≠ i := fun h => hne (h ▸ rfl)
      show ((s.setPhase i (.gone pc')).sups j).bind _ = _
      rw [setPhase_of_ne s hj]
      rfl
    | ctl =>
      have hctl : (s.withSave fs pc' (.sup i)).ctl = s.ctl := rfl
      have hsups : (s.withSave fs pc' (.sup i)).sups = (s.setPhase i (.gone pc')).sups := rfl
      unfold State.save
      rw [hctl, hsups]
      cases s.ctl with
      | saving j pc targets =>
        by_cases hj : j = i
        · subst hj
          cases hsup : s.sups j with
          | none => simp [State.setPhase, hsup]
          | some sup => simp [State.setPhase, hsup]
        · show ((s.setPhase i (.gone pc')).sups j).bind _ = (s.sups j).bind _
          rw [setPhase_of_ne s hj]
      | adding spec map recovered pc =>
        cases pc with
        | none => rfl
        | some pc => rfl
      | idle | waiting | checkpointing | joining | detaching => rfl

/-- A step of a save attaches at most its own path, when the marker has
landed. -/
theorem attached_withSave {s : State} {fs : MetaFs} {t : Thread} {path : MetaPath}
    {clean : Bool} {map : EraState} {pc pc' : SavePc}
    (running : s.save t = some (path, clean, map, pc)) {q : MetaPath} {user : EraState}
    (h : Attached (s.withSave fs pc' t) q user) :
    Attached s q user ∨ (t = .ctl ∧ q = path ∧ user = map ∧ ∃ buf, pc' = .ok buf) := by
  cases t with
  | ctl =>
    cases h with
    | @adding spec map' recovered buf path' marked own =>
      cases hctl : s.ctl with
      | adding spec0 map0 recovered0 opc =>
        have hmarked : (Ctl.adding spec0 map0 recovered0 opc).withSave pc'
            = .adding spec user recovered (some (.ok buf)) := by
          rw [← hctl]
          exact marked
        obtain ⟨-, ⟨spec1, recovered1, hadding, hpath⟩ | ⟨i, targets, sup, hsaving, -⟩⟩ :=
          save_ctl_iff.mp running
        · rw [hctl] at hadding
          obtain ⟨rfl, rfl, -, rfl⟩ := Ctl.adding.inj hadding
          obtain ⟨rfl, rfl, -, hpc⟩ := Ctl.adding.inj hmarked
          rw [own] at hpath
          exact Or.inr ⟨rfl, Option.some.inj hpath, rfl, buf, Option.some.inj hpc⟩
        · rw [hctl] at hsaving
          cases hsaving
      | idle | waiting | checkpointing | saving | joining | detaching =>
        have hmarked : (s.ctl.withSave pc') = .adding spec user recovered (some (.ok buf)) :=
          marked
        rw [hctl] at hmarked
        cases hmarked
    | serving found serving own => exact Or.inl (.serving found serving own)
  | sup i =>
    left
    cases h with
    | adding marked own => exact .adding marked own
    | @serving j sup path' found serving own =>
      obtain ⟨old, hold, -, hphase⟩ := (fades_withSave s fs pc' (.sup i)).back j sup found
      by_cases hj : j = i
      · subst hj
        have hself : (s.setPhase j (.gone pc')).sups j = some sup := found
        rw [setPhase_self hold] at hself
        rw [← Option.some.inj hself] at serving
        cases serving
      · have hsame : (s.setPhase i (.gone pc')).sups j = some sup := found
        rw [setPhase_of_ne s hj] at hsame
        exact .serving hsame serving own

theorem fs_withSave (s : State) (fs : MetaFs) (pc : SavePc) (t : Thread) :
    (s.withSave fs pc t).fs = fs := by
  cases t with
  | ctl => rfl
  | sup i => rfl

/-- A step of a save leaves the map of an `add` as it is. -/
theorem adding_of_withSave {s : State} {fs : MetaFs} {t : Thread} {pc' : SavePc}
    {spec : DeviceSpec} {map : EraState} {recovered : Bool} {opc : Option SavePc}
    (h : (s.withSave fs pc' t).ctl = .adding spec map recovered opc) :
    ∃ old, s.ctl = .adding spec map recovered old ∧ (opc = none → old = none) := by
  cases t with
  | sup i => exact ⟨opc, h, fun hnone => hnone⟩
  | ctl =>
    have hctl : s.ctl.withSave pc' = .adding spec map recovered opc := h
    cases hs : s.ctl with
    | adding spec0 map0 recovered0 old =>
      rw [hs] at hctl
      cases old with
      | none =>
        cases hctl
        exact ⟨none, rfl, fun _ => rfl⟩
      | some pc0 =>
        cases hctl
        exact ⟨some pc0, rfl, nofun⟩
    | idle | waiting | checkpointing | saving | joining | detaching =>
      rw [hs] at hctl
      cases hctl

theorem sup_of_withSave {s : State} {fs : MetaFs} {t : Thread} {pc' : SavePc} {i : Nat}
    {sup : Supervisor} (h : (s.withSave fs pc' t).sups i = some sup) :
    ∃ old, s.sups i = some old ∧ sup.spec = old.spec ∧ sup.map = old.map := by
  cases t with
  | ctl => exact ⟨sup, h, rfl, rfl⟩
  | sup j =>
    have hsup : (s.setPhase j (.gone pc')).sups i = some sup := h
    by_cases hi : i = j
    · subst hi
      cases hold : s.sups i with
      | none => simp [State.setPhase, hold] at hsup
      | some old =>
        rw [setPhase_self hold] at hsup
        rw [← Option.some.inj hsup]
        exact ⟨old, rfl, rfl, rfl⟩
    · rw [setPhase_of_ne s hi] at hsup
      exact ⟨sup, hsup, rfl, rfl⟩

/-- In a quiet step no other save is inside its window. -/
theorem alone_of_exclusive {s : State} {fs : MetaFs} {t u : Thread} {path path' : MetaPath}
    {clean clean' : Bool} {map map' : EraState} {pc pc' other : SavePc} {l : SaveLabel}
    (hex : Exclusive s) (hex' : Exclusive (s.withSave fs pc' t))
    (running : s.save t = some (path, clean, map, pc))
    (move : SaveStep path clean map s.fs pc l fs pc') (hl : l ≠ .fail) (hne : u ≠ t)
    (hother : s.save u = some (path', clean', map', other)) : other.inWindow = false := by
  cases hwin : other.inWindow with
  | false => rfl
  | true =>
    exfalso
    rcases move.inWindow_or_create with hpc | hcreate | hfail
    · exact hne (hex u t _ _ _ _ _ _ _ _ hother running hwin hpc)
    · subst hcreate
      have hopen : pc'.inWindow = true := by
        cases move
        rfl
      have hother' := hother
      rw [← save_withSave_of_ne hne fs pc'] at hother'
      exact hne (hex' u t _ _ _ _ _ _ _ _ hother' (save_withSave_self running fs pc') hwin hopen)
    · exact hl hfail

/-- A step of a save that spares the attached devices keeps their
markers. -/
theorem MarkerInv.stepSave {s : State} {t : Thread} {path : MetaPath} {clean : Bool}
    {map : EraState} {pc pc' : SavePc} {l : SaveLabel} {fs : MetaFs} (h : MarkerInv s)
    (running : s.save t = some (path, clean, map, pc))
    (move : SaveStep path clean map s.fs pc l fs pc') (hl : l ≠ .fail)
    (hex' : Exclusive (s.withSave fs pc' t)) (hspares : Spares s (.save t l)) :
    MarkerInv (s.withSave fs pc' t) := by
  obtain ⟨hholds, hcarries, hapart⟩ := h.saves t _ _ _ _ running
  have hcarries' : Carries (SameShape map) clean pc' :=
    SaveStep.carries hcarries move fun _ _ _ _ _ => ⟨rfl, rfl⟩
  have hspare := hspares t l path clean map pc rfl running
  -- the temp name of the save is the path of no attached device
  have htmp : ∀ q user, Attached s q user → path.tmp ≠ some q := by
    intro q user hq
    rcases move.inWindow_or_create with hpc | hcreate | hfail
    · exact hapart hpc q user hq
    · exact (hspare q user hq).1 hcreate
    · exact absurd hfail hl
  refine ⟨hex', ?_, ?_, ?_, ?_, ?_, ?_⟩
  · intro i hi
    have hi' : s.next ≤ i := by
      cases t with
      | ctl => exact hi
      | sup j => exact hi
    cases hsup : (s.withSave fs pc' t).sups i with
    | none => rfl
    | some sup' =>
      obtain ⟨old, hold, -⟩ := (fades_withSave s fs pc' t).back i sup' hsup
      rw [h.unspawned i hi'] at hold
      cases hold
  · intro spec user recovered hctl
    obtain ⟨opc, hold, hnone⟩ := adding_of_withSave hctl
    rw [hnone rfl] at hold
    exact h.unmarked spec user recovered hold
  · intro spec user recovered pc0 hctl
    obtain ⟨opc, hold, -⟩ := adding_of_withSave hctl
    exact h.addShape spec user recovered opc hold
  · intro i sup hsup
    obtain ⟨old, hold, hspec, hmap⟩ := sup_of_withSave hsup
    rw [hspec, hmap]
    exact h.supShape i old hold
  · intro u path' clean' map' other hother
    by_cases hu : u = t
    · subst hu
      rw [save_withSave_self running fs pc'] at hother
      cases hother
      refine ⟨?_, hcarries', ?_⟩
      · rw [fs_withSave]
        exact move.holds hholds
      · intro hwin q user hq
        rcases attached_withSave running hq with hq | ⟨-, -, -, buf, hbuf⟩
        · exact htmp q user hq
        · rw [hbuf] at hwin
          cases hwin
    · rw [save_withSave_of_ne hu fs pc'] at hother
      have hwin := alone_of_exclusive h.exclusive hex' running move hl hu hother
      refine ⟨SavePc.holds_of_not_inWindow hwin _ _, (h.saves u _ _ _ _ hother).2.1, ?_⟩
      intro hwin'
      rw [hwin] at hwin'
      cases hwin'
  · intro q user hq
    rw [MarkedAt, fs_withSave]
    rcases attached_withSave running hq with hold | ⟨rfl, rfl, rfl, buf, hbuf⟩
    · -- an attached device whose file is left alone, or marked again
      obtain ⟨snap, hshape, hread⟩ := h.marked q user hold
      have hne := htmp q user hold
      by_cases hpath : q = path
      · subst hpath
        rcases move.read_path hholds hne with hsame | ⟨buf, hpc, hok, hnew⟩
        · exact ⟨snap, hshape, hsame.trans hread⟩
        · subst hpc hok
          have hrename : l = .rename := by
            cases move
            rfl
          obtain ⟨rfl, hsame⟩ := (hspare q user hold).2 hrename rfl
          obtain ⟨own, hown, rfl⟩ := hcarries' buf rfl
          exact ⟨own, hsame.trans hown, hnew⟩
      · exact ⟨snap, hshape, (move.read_other hholds hne hpath).trans hread⟩
    · -- the marker has landed
      subst hbuf
      obtain rfl := (save_ctl_iff.mp running).1
      obtain ⟨own, hown, rfl⟩ := hcarries' buf rfl
      cases move with
      | rename named renamed =>
        have hmove : SaveStep q false user s.fs (.rename (own.metaBytes false)) .rename fs
            (.ok (own.metaBytes false)) := .rename named renamed
        exact ⟨own, hown, hmove.read_renamed hholds⟩

/-! ## The other steps -/

/-- Where a step that is not a save may lead a supervisor. -/
def Phase.Follows (old new : Phase) : Prop :=
  new = old ∨ new = .exited ∨ new = .gone .create ∨
    (old.mayServe = true ∧ new.mayServe = true)

/-- What a step that is not a save does to the supervisors. -/
def Moves (sups sups' : Nat → Option Supervisor) : Prop :=
  ∀ i sup', sups' i = some sup' → ∃ sup, sups i = some sup ∧ sup'.spec = sup.spec ∧
    SameShape sup.map sup'.map ∧ sup.phase.Follows sup'.phase

theorem Moves.refl (sups : Nat → Option Supervisor) : Moves sups sups :=
  fun _ sup' h => ⟨sup', h, rfl, ⟨rfl, rfl⟩, Or.inl rfl⟩

theorem moves_setPhase {s : State} {i : Nat} {sup : Supervisor} (found : s.sups i = some sup)
    {phase : Phase} (h : sup.phase.Follows phase) : Moves s.sups (s.setPhase i phase).sups := by
  intro j sup' hsup'
  by_cases hj : j = i
  · subst hj
    rw [setPhase_self found] at hsup'
    rw [← Option.some.inj hsup']
    exact ⟨sup, found, rfl, ⟨rfl, rfl⟩, h⟩
  · rw [setPhase_of_ne s hj] at hsup'
    exact ⟨sup', hsup', rfl, ⟨rfl, rfl⟩, Or.inl rfl⟩

theorem moves_setMap {s : State} {i : Nat} {sup : Supervisor} (found : s.sups i = some sup)
    {map : EraState} (h : SameShape sup.map map) : Moves s.sups (s.setMap i map).sups := by
  intro j sup' hsup'
  by_cases hj : j = i
  · subst hj
    have hself : (s.setMap j map).sups j = some { sup with map } := by
      simp [State.setMap, found]
    rw [hself] at hsup'
    rw [← Option.some.inj hsup']
    exact ⟨sup, found, rfl, h, Or.inl rfl⟩
  · have hsame : (s.setMap i map).sups j = s.sups j := by
      simp [State.setMap, Function.update_of_ne hj]
    rw [hsame] at hsup'
    exact ⟨sup', hsup', rfl, ⟨rfl, rfl⟩, Or.inl rfl⟩

theorem moves_deleteDevice (s : State) (devId : UInt32) :
    Moves s.sups (s.deleteDevice devId).sups := by
  intro i sup' hsup'
  obtain ⟨sup, hsup, rfl⟩ := Option.map_eq_some_iff.mp hsup'
  refine ⟨sup, hsup, ?_⟩
  split
  · exact ⟨rfl, ⟨rfl, rfl⟩, Or.inr (Or.inr (Or.inl rfl))⟩
  · exact ⟨rfl, ⟨rfl, rfl⟩, Or.inl rfl⟩

/-- The ctl thread has no save under way but one that it is about to
begin. -/
def Ctl.Begins : Ctl → Prop
  | .adding spec map _ pc =>
    (pc = none ∧ spec.metaPath = none ∨ pc = some .create) ∧ map.granularity = spec.granularity
  | .saving _ pc _ => pc = .create
  | _ => True

/-- A save that runs after such a step ran before it, or has not begun. -/
theorem save_of_moves {s s' : State} (hsups : Moves s.sups s'.sups)
    (hctl : s'.ctl = s.ctl ∨ s'.ctl.Begins) {t : Thread} {path : MetaPath} {clean : Bool}
    {map' : EraState} {pc : SavePc} (h : s'.save t = some (path, clean, map', pc)) :
    pc = .create ∨ ∃ map, s.save t = some (path, clean, map, pc) ∧ SameShape map map' := by
  cases t with
  | ctl =>
    obtain ⟨rfl, ⟨spec, recovered, hs', hpath⟩ | ⟨i, targets, sup', hs', hsup', hpath, rfl⟩⟩ :=
      save_ctl_iff.mp h
    · rcases hctl with hctl | hbegins
      · rw [hctl] at hs'
        exact Or.inr ⟨map', save_ctl_iff.mpr ⟨rfl, Or.inl ⟨spec, recovered, hs', hpath⟩⟩,
          ⟨rfl, rfl⟩⟩
      · rw [hs'] at hbegins
        rcases hbegins.1 with ⟨hnone, -⟩ | hcreate
        · cases hnone
        · exact Or.inl (Option.some.inj hcreate)
    · rcases hctl with hctl | hbegins
      · rw [hctl] at hs'
        obtain ⟨sup, hsup, hspec, hshape, -⟩ := hsups i sup' hsup'
        rw [hspec] at hpath
        exact Or.inr ⟨sup.map,
          save_ctl_iff.mpr ⟨rfl, Or.inr ⟨i, targets, sup, hs', hsup, hpath, rfl⟩⟩, hshape⟩
      · rw [hs'] at hbegins
        exact Or.inl hbegins
  | sup i =>
    obtain ⟨rfl, sup', hsup', hphase, hpath, rfl⟩ := save_sup_iff.mp h
    obtain ⟨sup, hsup, hspec, hshape, hfollows⟩ := hsups i sup' hsup'
    rw [hphase] at hfollows
    rcases hfollows with hold | hexit | hcreate | ⟨-, hserve⟩
    · rw [hspec] at hpath
      exact Or.inr ⟨sup.map, save_sup_iff.mpr ⟨rfl, sup, hsup, hold.symm, hpath, rfl⟩, hshape⟩
    · cases hexit
    · exact Or.inl (Phase.gone.inj hcreate)
    · cases hserve

/-- What is attached after such a step was attached before it. -/
theorem attached_of_moves {s s' : State} (hsups : Moves s.sups s'.sups)
    (hctl : s'.ctl = s.ctl ∨ s'.ctl.Begins) {q : MetaPath} {user' : EraState}
    (h : Attached s' q user') : ∃ user, Attached s q user ∧ SameShape user user' := by
  cases h with
  | adding marked own =>
    rcases hctl with hctl | hbegins
    · rw [hctl] at marked
      exact ⟨user', .adding marked own, ⟨rfl, rfl⟩⟩
    · rw [marked] at hbegins
      rcases hbegins.1 with ⟨hnone, -⟩ | hcreate
      · cases hnone
      · cases hcreate
  | @serving i sup' path found serving own =>
    obtain ⟨sup, hsup, hspec, hshape, hfollows⟩ := hsups i sup' found
    rw [hspec] at own
    refine ⟨sup.map, .serving hsup ?_ own, hshape⟩
    rcases hfollows with hold | hexit | hgone | ⟨hserve, -⟩
    · rw [← hold]
      exact serving
    · rw [hexit] at serving
      cases serving
    · rw [hgone] at serving
      cases serving
    · exact hserve

/-- A step that is not a save keeps the markers. -/
theorem MarkerInv.still {s s' : State} (h : MarkerInv s) (hfs : s'.fs = s.fs)
    (hnext : s'.next = s.next) (hex : Exclusive s') (hsups : Moves s.sups s'.sups)
    (hctl : s'.ctl = s.ctl ∨ s'.ctl.Begins) : MarkerInv s' := by
  refine ⟨hex, ?_, ?_, ?_, ?_, ?_, ?_⟩
  · intro i hi
    rw [hnext] at hi
    cases hsup : s'.sups i with
    | none => rfl
    | some sup' =>
      obtain ⟨old, hold, -⟩ := hsups i sup' hsup
      rw [h.unspawned i hi] at hold
      cases hold
  · intro spec map recovered hadd
    rcases hctl with hctl | hbegins
    · rw [hctl] at hadd
      exact h.unmarked spec map recovered hadd
    · rw [hadd] at hbegins
      rcases hbegins.1 with ⟨-, hnone⟩ | hcreate
      · exact hnone
      · cases hcreate
  · intro spec map recovered pc hadd
    rcases hctl with hctl | hbegins
    · rw [hctl] at hadd
      exact h.addShape spec map recovered pc hadd
    · rw [hadd] at hbegins
      exact hbegins.2
  · intro i sup' hsup'
    obtain ⟨sup, hsup, hspec, hshape, -⟩ := hsups i sup' hsup'
    rw [hspec, hshape.1]
    exact h.supShape i sup hsup
  · intro t path clean map' pc hrun
    rw [hfs]
    rcases save_of_moves hsups hctl hrun with rfl | ⟨map, hold, hshape⟩
    · exact ⟨trivial, nofun, nofun⟩
    · obtain ⟨hholds, hcarries, hapart⟩ := h.saves t path clean map pc hold
      refine ⟨hholds, hcarries.mono fun snap hsnap => hshape.symm.trans hsnap, ?_⟩
      intro hwin q user' hq
      obtain ⟨user, huser, -⟩ := attached_of_moves hsups hctl hq
      exact hapart hwin q user huser
  · intro q user' hq
    obtain ⟨user, huser, hshape⟩ := attached_of_moves hsups hctl hq
    obtain ⟨snap, hsnap, hread⟩ := h.marked q user huser
    rw [MarkedAt, hfs]
    exact ⟨snap, hshape.symm.trans hsnap, hread⟩

/-- The map of an `add` has the granularity that was asked for. -/
theorem granularity_of_beginAdd {s : State} {spec : DeviceSpec} {env : AddEnv}
    {map : EraState} {recovered : Bool} (h : beginAdd s spec env = .ok (map, recovered)) :
    map.granularity = spec.granularity := by
  have hnew : ∀ {devSize : UInt64} {urandom : Except String UInt64} {fresh : EraState},
      EraState.new devSize spec.granularity urandom = .ok fresh →
      fresh.granularity = spec.granularity := by
    intro devSize urandom fresh hfresh
    cases urandom with
    | error e =>
      unfold EraState.new at hfresh
      split at hfresh
      · cases hfresh
      · cases hfresh
    | ok g => exact (EraState.new_ok hfresh).2.2.2
  unfold beginAdd at h
  split at h
  · cases h
  · unfold addState at h
    split at h
    · split at h
      · rename_i fresh clean hload
        cases h
        rw [EraState.recover_granularity]
        exact (EraState.load_ok hload).2.2.2.1
      · cases h
    · split at h
      · rename_i fresh hfresh
        cases h
        exact hnew hfresh
      · cases h

/-- The supervisor takes over the marker of its `add`. -/
theorem MarkerInv.spawn {s : State} {spec : DeviceSpec} {map : EraState} {recovered : Bool}
    {pc : Option SavePc} (h : MarkerInv s) (adding : s.ctl = .adding spec map recovered pc)
    (marked : pc = none ∨ ∃ buf, pc = some (.ok buf))
    (hex : Exclusive { s with
      sups := Function.update s.sups s.next (some { spec, map, phase := .starting })
      next := s.next + 1
      ctl := .waiting s.next recovered }) :
    MarkerInv { s with
      sups := Function.update s.sups s.next (some { spec, map, phase := .starting })
      next := s.next + 1
      ctl := .waiting s.next recovered } := by
  have hold : ∀ {i : Nat} {sup : Supervisor},
      Function.update s.sups s.next (some { spec, map, phase := .starting }) i = some sup →
      (i = s.next ∧ sup = { spec, map, phase := .starting }) ∨ s.sups i = some sup := by
    intro i sup hsup
    by_cases hi : i = s.next
    · subst hi
      rw [Function.update_self] at hsup
      exact Or.inl ⟨rfl, (Option.some.inj hsup).symm⟩
    · rw [Function.update_of_ne hi] at hsup
      exact Or.inr hsup
  have hatt : ∀ {q : MetaPath} {user : EraState}, Attached { s with
      sups := Function.update s.sups s.next (some { spec, map, phase := .starting })
      next := s.next + 1
      ctl := .waiting s.next recovered } q user → Attached s q user := by
    intro q user hq
    cases hq with
    | adding marked own => cases marked
    | serving found serving own =>
      rcases hold found with ⟨-, rfl⟩ | hsup
      · rcases marked with rfl | ⟨buf, rfl⟩
        · rw [h.unmarked spec map recovered adding] at own
          cases own
        · exact .adding adding own
      · exact .serving hsup serving own
  refine ⟨hex, ?_, nofun, nofun, ?_, ?_, ?_⟩
  · intro i hi
    have hi' : s.next + 1 ≤ i := hi
    show Function.update s.sups s.next _ i = none
    rw [Function.update_of_ne (by omega)]
    exact h.unspawned i (by omega)
  · intro i sup hsup
    rcases hold hsup with ⟨-, rfl⟩ | hsup
    · exact h.addShape spec map recovered pc adding
    · exact h.supShape i sup hsup
  · intro t path clean map' pc' hrun
    cases t with
    | ctl => cases hrun
    | sup i =>
      obtain ⟨hclean, sup, hsup, hphase, hsave⟩ := save_sup_iff.mp hrun
      rcases hold hsup with ⟨-, rfl⟩ | hsup
      · cases hphase
      · have hrun' : s.save (.sup i) = some (path, clean, map', pc') :=
          save_sup_iff.mpr ⟨hclean, sup, hsup, hphase, hsave⟩
        obtain ⟨hholds, hcarries, hapart⟩ := h.saves _ _ _ _ _ hrun'
        exact ⟨hholds, hcarries, fun hwin q user hq => hapart hwin q user (hatt hq)⟩
  · intro q user hq
    exact h.marked q user (hatt hq)

theorem begins_after (ids : List UInt32) : (Ctl.after ids).Begins := by
  cases ids with
  | nil => trivial
  | cons devId ids => trivial

theorem begins_release (ctl : Ctl) (i : Nat) {next : Ctl} (h : next.Begins) :
    ctl.release i next = ctl ∨ (ctl.release i next).Begins := by
  rcases release_eq ctl i next with heq | heq
  · exact Or.inl heq
  · rw [heq]
    exact Or.inr h

/-- One step that spares the attached devices keeps the invariant. -/
theorem MarkerInv.step {s s' : State} {l : Label} (h : MarkerInv s) (hs : QuietStep s l s')
    (hspares : Spares s l) : MarkerInv s' := by
  obtain ⟨hstep, hfail, hex⟩ := hs
  have hrefl := Moves.refl s.sups
  cases hstep with
  | addRefused | list | checkpointUnknown => exact h.still rfl rfl hex hrefl (Or.inl rfl)
  | @add spec env map recovered idle begin =>
    refine h.still rfl rfl hex hrefl (Or.inr ⟨?_, granularity_of_beginAdd begin⟩)
    cases spec.metaPath with
    | none => exact Or.inl ⟨rfl, rfl⟩
    | some path => exact Or.inr rfl
  | addFailed | spawnFailed | timeout | saved | answer | checkpoint | checkpointAll =>
    exact h.still rfl rfl hex hrefl (Or.inr trivial)
  | save running move =>
    refine h.stepSave running move ?_ hex hspares
    intro hl
    exact hfail _ (by rw [hl])
  | spawn adding marked => exact h.spawn adding marked hex
  | ready waiting found starting free =>
    refine h.still rfl rfl hex (moves_setPhase found ?_) (Or.inr trivial)
    exact Or.inr (Or.inr (Or.inr ⟨by rw [starting]; rfl, rfl⟩))
  | startFailed found starting =>
    exact h.still rfl rfl hex (moves_setPhase found (Or.inr (Or.inl rfl)))
      (begins_release _ _ trivial)
  | runFailed found starting =>
    exact h.still rfl rfl hex (moves_setPhase found (Or.inr (Or.inr (Or.inl rfl))))
      (begins_release _ _ trivial)
  | lateUp found starting late free =>
    refine h.still rfl rfl hex (moves_setPhase found ?_) (Or.inl rfl)
    exact Or.inr (Or.inr (Or.inr ⟨by rw [starting]; rfl, rfl⟩))
  | stamp found => exact h.still rfl rfl hex (moves_setMap found ⟨rfl, rfl⟩) (Or.inl rfl)
  | externalDelete found live =>
    exact h.still rfl rfl hex (moves_setPhase found (Or.inr (Or.inr (Or.inl rfl)))) (Or.inl rfl)
  | exit found gone saved =>
    exact h.still rfl rfl hex (moves_setPhase found (Or.inr (Or.inl rfl))) (Or.inl rfl)
  | closeEra turn found =>
    refine h.still rfl rfl hex (moves_setMap found ⟨rfl, rfl⟩) (Or.inr ?_)
    show Ctl.Begins (if _ then _ else _)
    split
    · exact rfl
    · trivial
  | @del devId m ids turn found =>
    exact h.still rfl rfl hex (moves_deleteDevice s.reap devId) (Or.inr trivial)
  | delFailed | delUnknown | joined | shutdownAll =>
    exact h.still rfl rfl hex hrefl (Or.inr (begins_after _))

/-! ## Runs -/

/-- The run lemma. -/
theorem run_markerInv {fs : MetaFs} {trace : List Label} {s : State}
    (h : Run (fun s l s' => QuietStep s l s' ∧ Spares s l) (init fs) trace s) : MarkerInv s :=
  h.state_invariant MarkerInv (markerInv_init fs) fun _ _ _ hinv hs => hinv.step hs.1 hs.2

/-! ## Exactly when the markers stay -/

/-- A save that has not returned leaves every attached device attached. -/
theorem Attached.withSave {s : State} {fs : MetaFs} {t : Thread} {path : MetaPath}
    {clean : Bool} {map : EraState} {pc pc' : SavePc}
    (running : s.save t = some (path, clean, map, pc)) (hpc : pc.returned = false)
    {q : MetaPath} {user : EraState} (h : Attached s q user) :
    Attached (s.withSave fs pc' t) q user := by
  cases h with
  | adding marked own =>
    cases t with
    | sup i => exact .adding marked own
    | ctl =>
      -- the marker of this `add` has landed, so its save has returned
      obtain ⟨-, ⟨spec, recovered, hadding, -⟩ | ⟨i, targets, sup, hsaving, -⟩⟩ :=
        save_ctl_iff.mp running
      · rw [marked] at hadding
        cases hadding
        cases hpc
      · rw [marked] at hsaving
        cases hsaving
  | @serving i sup path' found serving own =>
    cases t with
    | ctl => exact .serving found serving own
    | sup j =>
      have hij : i ≠ j := by
        intro hij
        subst hij
        obtain ⟨-, sup', hsup', hphase, -⟩ := save_sup_iff.mp running
        rw [found] at hsup'
        obtain rfl := Option.some.inj hsup'
        rw [hphase] at serving
        cases serving
      have hsame : (s.setPhase j (.gone pc')).sups i = some sup := by
        rw [setPhase_of_ne s hij]
        exact found
      exact .serving (s := s.withSave fs pc' (.sup j)) hsame serving own

/-- The bytes of a save tell its flag and its shape. -/
theorem metaBytes_inj {snap snap' : EraState} {clean clean' : Bool}
    (h : snap.metaBytes clean = snap'.metaBytes clean') :
    clean' = clean ∧ SameShape snap snap' := by
  have hread := congrArg EraState.readHeader h
  rw [EraState.readHeader_metaBytes, EraState.readHeader_metaBytes] at hread
  injection hread with _ _ hgran hsize _ _ hclean
  exact ⟨hclean.symm, hgran.symm, hsize.symm⟩

/-- A step after which every attached device has its marker has spared
them. -/
theorem MarkerInv.spares {s s' : State} {l : Label} (h : MarkerInv s) (hs : Step s l s')
    (hmarked : Marked s') : Spares s l := by
  intro t k path clean map pc hl running q user hq
  subst hl
  cases hs with
  | @save _ path' clean' map' pc0 pc' _ fs running' move =>
    rw [running] at running'
    cases running'
    obtain ⟨hholds, hcarries, -⟩ := h.saves t path clean map pc running
    have hkeep : pc.returned = false → MarkedAt fs q user := by
      intro hpc
      have hafter := hmarked q user (hq.withSave running hpc)
      rw [MarkedAt, fs_withSave] at hafter
      exact hafter
    constructor
    · intro hk hpath
      subst hk
      cases move with
      | create named =>
        obtain rfl := Option.some.inj (hpath.symm.trans named)
        -- the temp file is empty
        obtain ⟨snap, -, hread⟩ := hkeep rfl
        rw [Fs.read_create_self] at hread
        have hlen := snap.metaBytes_length false
        rw [← Option.some.inj hread] at hlen
        have hpos : 0 < hdrLen := by decide
        rw [List.length_nil] at hlen
        omega
    · intro hk hpath
      subst hk hpath
      cases move with
      | @rename _ tmp buf named renamed =>
        obtain ⟨snap, hshape, hread⟩ := hkeep rfl
        have hmove : SaveStep q clean map s.fs (.rename buf) .rename fs (.ok buf) :=
          .rename named renamed
        rw [hmove.read_renamed hholds] at hread
        obtain ⟨own, hown, rfl⟩ := hcarries buf rfl
        obtain ⟨hclean, hsame⟩ := metaBytes_inj (Option.some.inj hread)
        exact ⟨hclean.symm, (hshape.trans hsame.symm).trans hown.symm⟩

/-- The runs that keep the marker of every attached device are the runs
whose steps all spare the attached devices. -/
theorem marked_runs_iff {fs : MetaFs} {trace : List Label} {s : State} :
    Run (fun s l s' => QuietStep s l s' ∧ Marked s') (init fs) trace s ↔
      Run (fun s l s' => QuietStep s l s' ∧ Spares s l) (init fs) trace s := by
  constructor
  · intro h
    have hboth : Run (fun s l s' => QuietStep s l s' ∧ Spares s l) (init fs) trace s ∧
        MarkerInv s := by
      induction h with
      | nil => exact ⟨.nil, markerInv_init fs⟩
      | snoc run last ih =>
        have hspares := ih.2.spares last.1.1 last.2
        exact ⟨ih.1.snoc ⟨last.1, hspares⟩, ih.2.step last.1 hspares⟩
    exact hboth.1
  · intro h
    have hboth : Run (fun s l s' => QuietStep s l s' ∧ Marked s') (init fs) trace s ∧
        MarkerInv s := by
      induction h with
      | nil => exact ⟨.nil, markerInv_init fs⟩
      | snoc run last ih =>
        have hinv := ih.2.step last.1 last.2
        exact ⟨ih.1.snoc ⟨last.1, hinv.marked⟩, hinv⟩
    exact hboth.1

/-! ## Quiet runs -/

/-- No save is between its temp file and its rename. -/
def Settled (s : State) : Prop :=
  ∀ t path clean map pc, s.save t = some (path, clean, map, pc) → pc.inWindow = false

theorem Settled.exclusive {s : State} (h : Settled s) : Exclusive s := by
  intro t u path clean map pc path' clean' map' pc' hsave _ hwin
  rw [h t path clean map pc hsave] at hwin
  cases hwin

theorem Settled.moves {s s' : State} (h : Settled s) (hsups : Moves s.sups s'.sups)
    (hctl : s'.ctl = s.ctl ∨ s'.ctl.Begins) : Settled s' := by
  intro t path clean map' pc hsave
  rcases save_of_moves hsups hctl hsave with rfl | ⟨map, hold, -⟩
  · rfl
  · exact h t path clean map pc hold

/-- A save with no other save in its window: nothing else happens to the
files. -/
theorem exclusive_withSave {s : State} {t : Thread} (h : Settled s) (fs : MetaFs)
    (pc : SavePc) : Exclusive (s.withSave fs pc t) := by
  have hothers : ∀ u path clean map pc',
      (s.withSave fs pc t).save u = some (path, clean, map, pc') → pc'.inWindow = true →
        u = t := by
    intro u path clean map pc' hsave hwin
    by_cases hu : u = t
    · exact hu
    · rw [save_withSave_of_ne hu fs pc] at hsave
      rw [h u path clean map pc' hsave] at hwin
      cases hwin
  intro u v path clean map pc' path' clean' map' pc'' hu hv hwin hwin'
  exact (hothers u _ _ _ _ hu hwin).trans (hothers v _ _ _ _ hv hwin').symm

theorem withSave_withSave (s : State) (fs fs' : MetaFs) (pc pc' : SavePc) (t : Thread) :
    (s.withSave fs pc t).withSave fs' pc' t = s.withSave fs' pc' t := by
  cases t with
  | ctl =>
    show ({ s with fs := fs', ctl := (s.ctl.withSave pc).withSave pc' } : State)
      = { s with fs := fs', ctl := s.ctl.withSave pc' }
    cases s.ctl with
    | adding spec map recovered opc =>
      cases opc with
      | none => rfl
      | some pc0 => rfl
    | idle | waiting | checkpointing | saving | joining | detaching => rfl
  | sup i =>
    have hsups : ((s.setPhase i (.gone pc)).setPhase i (.gone pc')).sups
        = (s.setPhase i (.gone pc')).sups := by
      funext j
      by_cases hj : j = i
      · subst hj
        cases hsup : s.sups j with
        | none => simp [State.setPhase, hsup]
        | some sup => simp [State.setPhase, hsup]
      · rw [setPhase_of_ne _ hj, setPhase_of_ne _ hj, setPhase_of_ne _ hj]
    show ({ s with
        fs := fs'
        sups := ((s.setPhase i (.gone pc)).setPhase i (.gone pc')).sups } : State)
      = { s with fs := fs', sups := (s.setPhase i (.gone pc')).sups }
    rw [hsups]

theorem withSave_self {s : State} {t : Thread} {path : MetaPath} {clean : Bool}
    {map : EraState} {pc : SavePc} (h : s.save t = some (path, clean, map, pc)) :
    s.withSave s.fs pc t = s := by
  cases t with
  | ctl =>
    show ({ s with ctl := s.ctl.withSave pc } : State) = s
    have hctl : s.ctl.withSave pc = s.ctl := by
      obtain ⟨-, ⟨spec, recovered, hs, -⟩ | ⟨i, targets, sup, hs, -⟩⟩ := save_ctl_iff.mp h
      · rw [hs]
        rfl
      · rw [hs]
        rfl
    rw [hctl]
  | sup i =>
    obtain ⟨-, sup, hsup, hphase, -⟩ := save_sup_iff.mp h
    have hsups : (s.setPhase i (.gone pc)).sups = s.sups := by
      funext j
      by_cases hj : j = i
      · subst hj
        rw [setPhase_self hsup, ← hphase]
        exact hsup.symm
      · rw [setPhase_of_ne s hj]
    show ({ s with sups := (s.setPhase i (.gone pc)).sups } : State) = s
    rw [hsups]

/-- A quiet step that spares the attached devices, if `s` has none. -/
def QuietFrom (s u : State) (l : Label) (u' : State) : Prop :=
  QuietStep u l u' ∧ ((∀ q user, ¬ Attached s q user) → Spares u l)

/-- A save that nothing disturbs. -/
theorem quiet_save_run {s : State} {t : Thread} {path tmp : MetaPath} {clean : Bool}
    {map : EraState} (named : path.tmp = some tmp) (h : Settled s)
    (running : s.save t = some (path, clean, map, .create)) :
    ∃ fs, Run (QuietFrom s) s ((saveLabels map.nrChunks ++ [SaveLabel.rename]).map (Label.save t))
        (s.withSave fs (.ok (map.metaBytes clean)) t) ∧
      fs.read path = some (map.metaBytes clean) := by
  obtain ⟨fs, hrun, hread⟩ := save_completes path named clean map s.fs
  refine ⟨fs, ?_, hread⟩
  have hlabels : ∀ l ∈ saveLabels map.nrChunks ++ [SaveLabel.rename], l ≠ .fail := by
    intro l hl
    simp only [saveLabels, List.mem_append, List.mem_cons, List.mem_replicate,
      List.not_mem_nil, or_false] at hl
    rcases hl with (rfl | rfl | ⟨-, rfl⟩ | rfl | rfl | rfl) | rfl <;> decide
  have hmap := (hrun.guard hlabels).map (QuietFrom s)
    (fun p => s.withSave p.1 p.2 t) (Label.save t)
    (by
      intro ⟨fs1, pc1⟩ l ⟨fs2, pc2⟩ ⟨hs, hl⟩
      have hrunning := save_withSave_self running fs1 pc1
      have hmove : Step (s.withSave fs1 pc1 t) (.save t l) _ :=
        .save hrunning (show SaveStep path clean map _ pc1 l fs2 pc2 by
          rw [fs_withSave]
          exact hs)
      rw [withSave_withSave] at hmove
      refine ⟨⟨hmove, ?_, exclusive_withSave h fs2 pc2⟩, ?_⟩
      · intro u hu
        exact hl (Label.save.inj hu).2
      · intro hnone u k path' clean' map' pc' _ _ a user ha
        exfalso
        rcases attached_withSave running ha with hold | ⟨-, -, -, buf, rfl⟩
        · exact hnone a user hold
        · -- a save that is over takes no step
          have hover : SaveStep path clean map fs1 (.ok buf) l fs2 pc2 := hs
          cases hover with
          | fail mayFail => cases mayFail)
  rw [withSave_self running] at hmap
  exact hmap

/-- A step that is not of a save. -/
theorem quietFrom_of_step {s u u' : State} {l : Label} (hs : Step u l u')
    (hl : ∀ t k, l ≠ .save t k) (h : Settled u') : QuietFrom s u l u' := by
  refine ⟨⟨hs, fun t => hl t .fail, h.exclusive⟩, fun _ => ?_⟩
  intro t k path clean map pc heq
  exact absurd heq (hl t k)

/-- The state with a new supervisor. -/
def State.spawned (s : State) (fs : MetaFs) (sup : Supervisor) (devices : List Managed)
    (ctl : Ctl) : State :=
  { fs, devices, sups := Function.update s.sups s.next (some sup), next := s.next + 1, ctl }

/-- A new supervisor has no save under way. -/
theorem Settled.spawned {s : State} {fs : MetaFs} {sup : Supervisor} {devices : List Managed}
    {ctl : Ctl} (h : Settled s) (hserve : sup.phase.mayServe = true)
    (hctl : (s.spawned fs sup devices ctl).save .ctl = none) :
    Settled (s.spawned fs sup devices ctl) := by
  intro t path clean map pc hsave
  cases t with
  | ctl =>
    rw [hctl] at hsave
    cases hsave
  | sup i =>
    obtain ⟨hclean, other, hother, hphase, hmap⟩ := save_sup_iff.mp hsave
    have hother' : Function.update s.sups s.next (some sup) i = some other := hother
    by_cases hi : i = s.next
    · subst hi
      rw [Function.update_self] at hother'
      obtain rfl := Option.some.inj hother'
      rw [hphase] at hserve
      cases hserve
    · rw [Function.update_of_ne hi] at hother'
      exact h (.sup i) path clean map pc (save_sup_iff.mpr ⟨hclean, other, hother', hphase, hmap⟩)

/-- An `add` with a metadata path, up to the registration. -/
theorem attach_run {s : State} {spec : DeviceSpec} {env : AddEnv} {map : EraState}
    {recovered : Bool} {path tmp : MetaPath} (named : path.tmp = some tmp) (devId : UInt32)
    (idle : s.ctl = .idle)
    (begin : beginAdd s.reap spec env = .ok (map, recovered)) (own : spec.metaPath = some path)
    (settled : Settled s) (free : Free s.sups devId) :
    ∃ fs trace, Run (QuietFrom s) s trace
        (s.spawned fs { spec, map, phase := .live devId }
          (insert s.reap.devices
            { devId, backing := spec.backing, metaPath := spec.metaPath, metaText := spec.metaText
              supervisor := s.next })
          .idle) ∧
      fs.read path = some (map.metaBytes false) := by
  have hadd : Step s (.add spec)
      { s.reap with ctl := .adding spec map recovered (some .create) } := by
    have h := Step.add idle begin
    rw [own] at h
    exact h
  have hbegins : Ctl.Begins (.adding spec map recovered (some .create)) :=
    ⟨Or.inr rfl, granularity_of_beginAdd begin⟩
  have hsettled : Settled { s.reap with ctl := .adding spec map recovered (some .create) } :=
    settled.moves (Moves.refl _) (Or.inr hbegins)
  have hsave : State.save { s.reap with ctl := .adding spec map recovered (some .create) } .ctl
      = some (path, false, map, .create) := by
    show spec.metaPath.map _ = _
    rw [own]
    rfl
  have hback : ∀ q user, Attached { s.reap with
      ctl := .adding spec map recovered (some .create) } q user → ∃ old, Attached s q old := by
    intro q user hatt
    refine (attached_of_moves ?_ (Or.inr ?_) hatt).imp fun _ h => h.1
    · exact Moves.refl _
    · exact hbegins
  obtain ⟨fs, hmarker, hread⟩ := quiet_save_run named hsettled hsave
  have hsaves : Run (QuietFrom s) _ _ _ := hmarker.mono (by
    intro u l u' hq
    refine ⟨hq.1, fun hnone => hq.2 fun q user hatt => ?_⟩
    obtain ⟨old, hold⟩ := hback q user hatt
    exact hnone q old hold)
  have hspawn : Step _ .spawn (s.spawned fs { spec, map, phase := .starting } s.reap.devices
      (.waiting s.next recovered)) :=
    .spawn (s := State.withSave { s.reap with
      ctl := .adding spec map recovered (some .create) } fs (.ok (map.metaBytes false)) .ctl)
      rfl (Or.inr ⟨_, rfl⟩)
  have hready : Step _ (.ready devId recovered) _ := .ready
    (s := s.spawned fs { spec, map, phase := .starting } s.reap.devices
      (.waiting s.next recovered)) rfl (Function.update_self ..) rfl
    (free_spawn free s.next (by intro; contradiction))
  have hup : (s.spawned fs { spec, map, phase := .starting } s.reap.devices
      (.waiting s.next recovered)).setPhase s.next (.live devId)
      = s.spawned fs { spec, map, phase := .live devId } s.reap.devices
        (.waiting s.next recovered) := by
    simp [State.setPhase, State.spawned]
  rw [hup] at hready
  have hadded : QuietFrom s _ _ _ := quietFrom_of_step hadd (fun _ _ h => by cases h) hsettled
  have hspawned : QuietFrom s _ _ _ :=
    quietFrom_of_step hspawn (fun _ _ h => by cases h) (settled.spawned rfl rfl)
  have hlive : QuietFrom s _ _ _ :=
    quietFrom_of_step hready (fun _ _ h => by cases h) (settled.spawned rfl rfl)
  have hrun := (Run.single hadded).append hsaves
  exact ⟨fs, _, (hrun.snoc hspawned).snoc hlive, hread⟩

def markedA : DeviceSpec := { specA with metaPath := some MetaPath.aMeta }

def markedB : DeviceSpec := { markedA with backing := "/dev/b" }

def servingA : Supervisor := { spec := markedA, map := EraState.oneChunk, phase := .live 0 }

def servingB : Supervisor :=
  { spec := markedB, map := EraState.oneChunk.markAllDirty, phase := .live 1 }

def entryA : Managed :=
  { devId := 0, backing := "/dev/a", metaPath := some MetaPath.aMeta, metaText := ""
    supervisor := 0 }

theorem settled_init (fs : MetaFs) : Settled (init fs) := by
  intro t path clean map pc h
  cases t with
  | ctl => cases h
  | sup i => cases h

/-- The `add` of the first device, with a fresh metadata path. -/
theorem attach_markedA :
    ∃ fs trace, Run (QuietFrom (init Fs.empty)) (init Fs.empty) trace
        ((init Fs.empty).spawned fs servingA [entryA] .idle) ∧
      fs.read MetaPath.aMeta = some (EraState.oneChunk.metaBytes false) :=
  attach_run MetaPath.tmp_aMeta 0 rfl (show beginAdd _ _ envA = .ok (EraState.oneChunk, false) from rfl) rfl
    (settled_init Fs.empty) nofun

/-! ## Live devices -/

/-- What `add` makes of a complete file. -/
theorem addState_metaBytes (spec : DeviceSpec) {path : MetaPath} (map : EraState)
    {devSize : UInt64} (own : spec.metaPath = some path)
    (hgran : map.granularity = spec.granularity) (hsize : map.devSize = devSize) (clean : Bool)
    (g : UInt64) :
    addState spec (some (map.metaBytes clean)) devSize (.ok g)
      = .ok (map.recover clean, !clean) := by
  have hload := map.load_metaBytes clean spec.metaText g
  rw [hgran, hsize] at hload
  unfold addState
  rw [own]
  simp only [hload]

/-- The next `add` of a live device would take all of it as changed. -/
theorem MarkerInv.recovers {s : State} (h : MarkerInv s) {i : Nat} {sup : Supervisor}
    {devId : UInt32} (hsup : s.sups i = some sup) (hlive : sup.phase = .live devId)
    {path : MetaPath} (hpath : sup.spec.metaPath = some path) :
    ∃ map, ∀ g, addState sup.spec (s.fs.read path) sup.map.devSize (.ok g) = .ok (map, true) := by
  have hserve : sup.phase.mayServe = true := by
    rw [hlive]
    rfl
  obtain ⟨snap, ⟨hgran, hsize⟩, hread⟩ := h.marked _ _ (.serving hsup hserve hpath)
  refine ⟨snap.recover false, fun g => ?_⟩
  rw [hread]
  exact addState_metaBytes sup.spec snap hpath (hgran.trans (h.supShape i sup hsup)) hsize false g

/-- In a run whose steps all spare the attached devices, a kill makes the
next `add` of a live device take all of it as changed, at every moment. -/
theorem live_marked {fs : MetaFs} {trace : List Label} {s : State}
    (hrun : Run (fun s l s' => QuietStep s l s' ∧ Spares s l) (init fs) trace s)
    {i : Nat} {sup : Supervisor} {devId : UInt32} (hsup : s.sups i = some sup)
    (hlive : sup.phase = .live devId) {path : MetaPath} (hpath : sup.spec.metaPath = some path) :
    ∃ map, ∀ g, addState sup.spec (s.fs.read path) sup.map.devSize (.ok g) = .ok (map, true) :=
  (run_markerInv hrun).recovers hsup hlive hpath

/-- A device of one chunk keeps its marker. -/
theorem live_marked_oneChunk :
    ∃ trace s sup, Run (fun s l s' => QuietStep s l s' ∧ Spares s l) (init Fs.empty) trace s ∧
      s.sups 0 = some sup ∧ sup.phase = .live 0 ∧ sup.spec.metaPath = some MetaPath.aMeta ∧
      ∃ map, ∀ g, addState sup.spec (s.fs.read MetaPath.aMeta) sup.map.devSize (.ok g)
        = .ok (map, true) := by
  obtain ⟨fs, trace, hrun, -⟩ := attach_markedA
  have hnone : ∀ q user, ¬ Attached (init Fs.empty) q user := by
    intro q user hq
    cases hq with
    | adding marked own => cases marked
    | serving found serving own => cases found
  have hspares : Run (fun s l s' => QuietStep s l s' ∧ Spares s l) _ _ _ :=
    hrun.mono fun _ _ _ hq => ⟨hq.1, hq.2 hnone⟩
  exact ⟨trace, _, servingA, hspares, rfl, rfl, rfl, live_marked hspares (i := 0) rfl rfl rfl⟩

/-- The `add` of the second device finds the marker of the first. -/
theorem begin_markedB {fs : MetaFs}
    (hread : fs.read MetaPath.aMeta = some (EraState.oneChunk.metaBytes false)) :
    beginAdd ((init Fs.empty).spawned fs servingA [entryA] .idle).reap markedB envA
      = .ok (EraState.oneChunk.markAllDirty, true) := by
  have hcheck : checkAdd ((init Fs.empty).spawned fs servingA [entryA] .idle).reap.devices
      markedB envA = .ok 4096 := rfl
  unfold beginAdd
  rw [hcheck]
  show addState markedB (fs.read MetaPath.aMeta) 4096 (.ok 7) = _
  rw [hread]
  exact addState_metaBytes markedB EraState.oneChunk rfl rfl rfl false 7

/-- Two devices of different backings share a metadata path.  The first one
goes away, and its final save leaves a clean file under the second, which is
up. -/
theorem not_marked_shared_path :
    ∃ trace s sup, Run QuietStep (init Fs.empty) trace s ∧ s.sups 1 = some sup ∧
      sup.phase = .live 1 ∧ sup.spec.metaPath = some MetaPath.aMeta ∧
      ∀ g, addState sup.spec (s.fs.read MetaPath.aMeta) sup.map.devSize (.ok g)
        = .ok (EraState.oneChunk, false) := by
  obtain ⟨fs, trace, hrun, hread⟩ := attach_markedA
  have hsettled : Settled ((init Fs.empty).spawned fs servingA [entryA] .idle) :=
    (settled_init Fs.empty).spawned rfl rfl
  have hnone : Free (fun _ => none) 1 := nofun
  have hfree : Free (Function.update (fun _ => none) 0 (some servingA)) 1 :=
    free_spawn hnone 0 (show servingA.phase ≠ _ by decide)
  obtain ⟨fs1, trace1, hrun1, -⟩ :=
    attach_run MetaPath.tmp_aMeta 1 rfl (begin_markedB hread) rfl hsettled hfree
  have hboth : Run QuietStep _ _ _ := (hrun.mono fun _ _ _ hq => hq.1).append
    (hrun1.mono fun _ _ _ hq => hq.1)
  generalize hs : State.spawned _ fs1 _ _ _ = s at hboth
  have hA : s.sups 0 = some servingA := by
    rw [← hs]
    rfl
  have hB : s.sups 1 = some servingB := by
    rw [← hs]
    rfl
  have hlive : Settled s := by
    rw [← hs]
    exact hsettled.spawned rfl rfl
  -- the device of `/dev/a` is deleted
  have hmoves : Moves s.sups (s.setPhase 0 (.gone .create)).sups :=
    moves_setPhase hA (Or.inr (Or.inr (Or.inl rfl)))
  have hgone : Settled (s.setPhase 0 (.gone .create)) := hlive.moves hmoves (Or.inl rfl)
  have hdelete : QuietFrom s s (.externalDelete 0) _ :=
    quietFrom_of_step (.externalDelete hA rfl) nofun hgone
  -- and its supervisor saves
  have hsave : (s.setPhase 0 (.gone .create)).save (.sup 0)
      = some (MetaPath.aMeta, true, EraState.oneChunk, .create) := by
    show ((s.setPhase 0 (.gone .create)).sups 0).bind _ = _
    rw [setPhase_self hA]
    rfl
  obtain ⟨fs2, hrun2, hread2⟩ := quiet_save_run MetaPath.tmp_aMeta hgone hsave
  have hstays : ((s.setPhase 0 (.gone .create)).withSave fs2
      (.ok (EraState.oneChunk.metaBytes true)) (.sup 0)).sups 1 = some servingB := by
    show ((s.setPhase 0 (.gone .create)).setPhase 0
      (.gone (.ok (EraState.oneChunk.metaBytes true)))).sups 1 = _
    rw [setPhase_of_ne _ (by decide), setPhase_of_ne _ (by decide)]
    exact hB
  refine ⟨_, _, servingB, (hboth.snoc hdelete.1).append (hrun2.mono fun _ _ _ hq => hq.1),
    hstays, rfl, rfl, fun g => ?_⟩
  rw [fs_withSave, hread2]
  exact addState_metaBytes markedB EraState.oneChunk rfl rfl rfl true g

end Manager

end Ublkera
