import Ublkera.Daemon.Registry

/-!
# Devices by path

`resolve` finds a device by the string that it was attached with or by the
canonical path of that string.  `add` looks for a second attach of one
backing by the string alone.  So two spellings of one path give two devices
for one file, and `resolve` picks either of them.

The file system is fixed here, and `canonical` is what `fs::canonicalize`
answers: the canonical path, or nothing when the path cannot be resolved.

* `Distinct` is what the duplicate check of `add` is for, and
  `oneMatch_of_distinct` is what `resolve` has from it.
* `distinct_runs_iff`: the runs with a distinct registry are the runs in which
  no registered device has the canonical path of a new one.
-/

namespace Ublkera

namespace Manager

open LittleEndian PosixFs Trace

variable (canonical : String → Option String)

/-! ## The lookup -/

/-- The device that a request is for. -/
structure Target where
  devId : Option UInt32
  backing : Option String

/-- The rule of `resolve`. -/
def matchesPath (path : String) (m : Managed) : Bool :=
  m.backing == path || (canonical path).isSome && canonical m.backing == canonical path

/-- `DeviceManager::resolve`, after its `reap`. -/
def resolve (devices : List Managed) (target : Target) : Except String UInt32 :=
  match target.devId, target.backing with
  | some devId, none => .ok devId
  | some _, some _ => .error "specify either dev_id or backing, not both"
  | none, some path =>
    match devices.find? (matchesPath canonical path) with
    | some m => .ok m.devId
    | none => .error s!"no tracked device with backing '{path}'"
  | none, none => .error "request needs dev_id or backing"

/-- No two registered devices have backings that the rule identifies. -/
def Distinct (devices : List Managed) : Prop :=
  ∀ m m', m ∈ devices → m' ∈ devices → matchesPath canonical m'.backing m = true → m = m'

/-- Every path is the path of at most one registered device. -/
def OneMatch (devices : List Managed) : Prop :=
  ∀ path m m', m ∈ devices → m' ∈ devices → matchesPath canonical path m = true →
    matchesPath canonical path m' = true → m = m'

/-- A request by path goes to the only device that the path is a path of. -/
def ActsOnOnly (devices : List Managed) : Prop :=
  ∀ path devId, resolve canonical devices { devId := none, backing := some path } = .ok devId →
    ∃ m, m ∈ devices ∧ m.devId = devId ∧ matchesPath canonical path m = true ∧
      ∀ m', m' ∈ devices → matchesPath canonical path m' = true → m' = m

variable {canonical}

theorem matchesPath_iff {path : String} {m : Managed} :
    matchesPath canonical path m = true ↔
      m.backing = path ∨ canonical path ≠ none ∧ canonical m.backing = canonical path := by
  simp [matchesPath, Option.isSome_iff_ne_none]

/-- Two devices that one path finds are found by each other's path. -/
theorem oneMatch_of_distinct {devices : List Managed} (h : Distinct canonical devices) :
    OneMatch canonical devices := by
  intro path m m' hm hm' hpath hpath'
  rw [matchesPath_iff] at hpath hpath'
  refine h m m' hm hm' (matchesPath_iff.mpr ?_)
  rcases hpath with rfl | ⟨hsome, hcanon⟩
  · rcases hpath' with heq | ⟨hsome', hcanon'⟩
    · exact Or.inl heq.symm
    · exact Or.inr ⟨hcanon' ▸ hsome', hcanon'.symm⟩
  · rcases hpath' with rfl | ⟨hsome', hcanon'⟩
    · exact Or.inr ⟨hsome, hcanon⟩
    · exact Or.inr ⟨hcanon' ▸ hsome, hcanon.trans hcanon'.symm⟩

/-- An answer of `resolve` for a path is an entry that the rule accepts. -/
theorem resolve_path {devices : List Managed} {path : String} {devId : UInt32}
    (h : resolve canonical devices { devId := none, backing := some path } = .ok devId) :
    ∃ m, m ∈ devices ∧ matchesPath canonical path m = true ∧ m.devId = devId := by
  simp only [resolve] at h
  cases hfind : devices.find? (matchesPath canonical path) with
  | none =>
    rw [hfind] at h
    cases h
  | some m =>
    rw [hfind] at h
    exact ⟨m, List.mem_of_find?_eq_some hfind, List.find?_some hfind, Except.ok.inj h⟩

theorem actsOnOnly_of_oneMatch {devices : List Managed} (h : OneMatch canonical devices) :
    ActsOnOnly canonical devices := by
  intro path devId hresolve
  obtain ⟨m, hm, hpath, hid⟩ := resolve_path hresolve
  exact ⟨m, hm, hid, hpath, fun m' hm' hpath' => h path m' m hm' hm hpath' hpath⟩

/-! ## Which steps keep the registry distinct -/

theorem Distinct.sublist {devices devices' : List Managed} (h : Distinct canonical devices)
    (hsub : List.Sublist devices' devices) : Distinct canonical devices' :=
  fun m m' hm hm' => h m m' (hsub.subset hm) (hsub.subset hm')

variable (canonical) in
/-- A device that is registered in this step has a backing that no other
registered device has under any spelling. -/
def NewPath (s : State) (l : Label) : Prop :=
  ∀ i recovered devId sup, l = .ready devId recovered → s.ctl = .waiting i recovered →
    s.sups i = some sup → ∀ m, m ∈ s.devices → m.devId ≠ devId →
      canonical sup.spec.backing ≠ none → canonical m.backing ≠ canonical sup.spec.backing

/-- Every step but the registration of a device lets entries go or keeps
them. -/
theorem devices_sublist {s s' : State} {l : Label} (hs : Step s l s')
    (hl : ∀ devId recovered, l ≠ .ready devId recovered) :
    List.Sublist s'.devices s.devices := by
  have hreap := reap_sublist s
  cases hs with
  | addRefused | add | list | checkpointUnknown | checkpoint | checkpointAll | delUnknown =>
    exact hreap
  | @save t path clean map pc pc' l fs running move =>
    cases t with
    | ctl => exact List.Sublist.refl _
    | sup i => exact List.Sublist.refl _
  | ready => exact absurd rfl (hl _ _)
  | @del devId m ids turn found => exact (remove_sublist _ devId).trans hreap
  | @delFailed devId m ids turn found => exact (remove_sublist _ devId).trans hreap
  | addFailed | spawn | spawnFailed | startFailed | runFailed | timeout | lateUp | stamp
  | externalDelete | exit | closeEra | saved | answer | joined | shutdownAll =>
    exact List.Sublist.refl _

/-- The registration of a device keeps the registry distinct exactly when its
path is new. -/
theorem distinct_insert_iff {devices : List Managed} (new : Managed)
    (h : Distinct canonical devices) (hbacking : ∀ m, m ∈ devices → m.backing ≠ new.backing) :
    Distinct canonical (insert devices new) ↔
      ∀ m, m ∈ devices → m.devId ≠ new.devId → canonical new.backing ≠ none →
        canonical m.backing ≠ canonical new.backing := by
  constructor
  · intro hdistinct m hm hid hsome hcanon
    have hmem : m ∈ insert devices new := List.mem_cons_of_mem _ (mem_remove.mpr ⟨hm, hid⟩)
    have heq := hdistinct m new hmem List.mem_cons_self
      (matchesPath_iff.mpr (Or.inr ⟨hsome, hcanon⟩))
    exact hid (by rw [heq])
  · intro hnew m m' hm hm' hmatch
    rw [matchesPath_iff] at hmatch
    rcases List.mem_cons.mp hm with rfl | hm
    · rcases List.mem_cons.mp hm' with rfl | hm'
      · rfl
      · obtain ⟨hold, hid⟩ := mem_remove.mp hm'
        exfalso
        rcases hmatch with heq | ⟨hsome, hcanon⟩
        · exact hbacking m' hold heq.symm
        · exact hnew m' hold hid (hcanon ▸ hsome) hcanon.symm
    · obtain ⟨hold, hid⟩ := mem_remove.mp hm
      rcases List.mem_cons.mp hm' with rfl | hm'
      · exfalso
        rcases hmatch with heq | ⟨hsome, hcanon⟩
        · exact hbacking m hold heq
        · exact hnew m hold hid hsome hcanon
      · exact h m m' hold (mem_remove.mp hm').1 (matchesPath_iff.mpr hmatch)

/-- A step keeps the registry distinct exactly when the path of a device that
it registers is new. -/
theorem distinct_step_iff {s s' : State} {l : Label} (hinv : RegistryInv s)
    (h : Distinct canonical s.devices) (hs : Step s l s') :
    Distinct canonical s'.devices ↔ NewPath canonical s l := by
  by_cases hl : ∃ devId recovered, l = .ready devId recovered
  · obtain ⟨devId, recovered, rfl⟩ := hl
    cases hs with
    | @ready i sup _ _ waiting found starting free =>
      have hreserved : s.reserved = some sup.spec.backing := by
        rw [State.reserved, waiting]
        show (s.sups i).map _ = _
        rw [found]
        rfl
      have hiff := distinct_insert_iff ⟨devId, sup.spec.backing, sup.spec.metaPath, sup.spec.metaText, i⟩ h
        (hinv.reserved _ hreserved)
      constructor
      · intro hdistinct j r id other heq hctl hother
        obtain ⟨rfl, rfl⟩ := Label.ready.inj heq
        rw [waiting] at hctl
        obtain ⟨rfl, -⟩ := Ctl.waiting.inj hctl
        rw [found] at hother
        obtain rfl := Option.some.inj hother
        exact hiff.mp hdistinct
      · intro hnew
        exact hiff.mpr (hnew i recovered devId sup rfl waiting found)
  · have hne : ∀ devId recovered, l ≠ .ready devId recovered :=
      fun devId recovered heq => hl ⟨devId, recovered, heq⟩
    constructor
    · intro _ i recovered devId sup heq
      exact absurd heq (hne devId recovered)
    · intro _
      exact h.sublist (devices_sublist hs hne)

/-- Attach and lookup agree: the registry is distinct, every path finds at
most one device, and a request by path goes to it. -/
structure Identified (canonical : String → Option String) (s : State) : Prop where
  distinct : Distinct canonical s.devices
  oneMatch : OneMatch canonical s.devices
  actsOnOnly : ActsOnOnly canonical s.devices

theorem identified_of_distinct {s : State} (h : Distinct canonical s.devices) :
    Identified canonical s :=
  ⟨h, oneMatch_of_distinct h, actsOnOnly_of_oneMatch (oneMatch_of_distinct h)⟩

/-- The runs that keep attach and lookup in agreement are the runs in which
every device that is registered has a path that no registered device has
under another spelling. -/
theorem distinct_runs_iff {fs : MetaFs} {trace : List Label} {s : State} :
    Run (fun s l s' => Step s l s' ∧ Identified canonical s') (init fs) trace s ↔
      Run (fun s l s' => Step s l s' ∧ NewPath canonical s l) (init fs) trace s := by
  have hinit : Distinct canonical (init fs).devices := nofun
  constructor
  · intro h
    have hall : Run (fun s l s' => Step s l s' ∧ NewPath canonical s l) (init fs) trace s ∧
        RegistryInv s ∧ Distinct canonical s.devices := by
      induction h with
      | nil => exact ⟨.nil, registryInv_init fs, hinit⟩
      | snoc run last ih =>
        obtain ⟨hrun, hinv, hdistinct⟩ := ih
        have hnew := (distinct_step_iff hinv hdistinct last.1).mp last.2.distinct
        exact ⟨hrun.snoc ⟨last.1, hnew⟩, hinv.step last.1, last.2.distinct⟩
    exact hall.1
  · intro h
    have hall : Run (fun s l s' => Step s l s' ∧ Identified canonical s') (init fs) trace s ∧
        RegistryInv s ∧ Distinct canonical s.devices := by
      induction h with
      | nil => exact ⟨.nil, registryInv_init fs, hinit⟩
      | snoc run last ih =>
        obtain ⟨hrun, hinv, hdistinct⟩ := ih
        have hnext := (distinct_step_iff hinv hdistinct last.1).mpr last.2
        exact ⟨hrun.snoc ⟨last.1, identified_of_distinct hnext⟩, hinv.step last.1, hnext⟩
    exact hall.1

/-! ### A path with a dot -/

/-- A file system with one device node. -/
def oneNode (path : String) : Option String :=
  if path = "/dev/a" ∨ path = "/dev/./a" then some "/dev/a" else none

/-- Two spellings of one path are two registered devices. -/
theorem not_identified_oneNode :
    ∃ (trace : List Label) (s : State), Run Step (init Fs.empty) trace s ∧
      ¬ Distinct oneNode s.devices ∧ ¬ OneMatch oneNode s.devices := by
  have hnone : ∀ devId, Free (fun _ => none) devId := nofun
  have hfirst := (start_run "/dev/a" (s := init Fs.empty) rfl rfl).snoc
    (.ready (i := 0) rfl (show _ = some startingA from rfl) rfl
      (free_spawn (hnone 0) 0 (show startingA.phase ≠ _ by decide)))
  have hsecond := hfirst.append (start_run "/dev/./a" rfl (by decide))
  have hup := hsecond.snoc (.ready (i := 1) rfl
    (show _ = some { startingA with spec := { specA with backing := "/dev/./a" } } from rfl) rfl
    (free_spawn (free_setPhase (free_spawn (hnone 1) 0 (by decide)) 0 (by decide)) 1 (by decide)))
  refine ⟨_, _, hup, ?_, ?_⟩
  · intro h
    have heq := h ⟨1, "/dev/./a", none, "", 1⟩ ⟨0, "/dev/a", none, "", 0⟩ (by decide) (by decide)
      (by decide)
    cases heq
  · intro h
    have heq := h "/dev/a" ⟨1, "/dev/./a", none, "", 1⟩ ⟨0, "/dev/a", none, "", 0⟩ (by decide) (by decide)
      (by decide) (by decide)
    cases heq

end Manager

end Ublkera
