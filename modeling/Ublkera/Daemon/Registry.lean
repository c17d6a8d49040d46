import Ublkera.Daemon.Manager

/-!
# The registry and the running devices

A device is reachable by `del`, `checkpoint` and `dump` as long as the
registry has it under its id, and the check for a second attach of one
backing looks into the registry alone.

Two steps break this.  A supervisor that comes up after `add` has given up
serves a device that nobody registers.  And `del` takes the entry out before
it calls `del_dev`, and does not put it back when that fails.

* `Registered` and `OneServer` are what the registry is for.
* `Fades` is what all other steps do to the supervisors: none of them brings
  a device up.
* `kept_runs_iff`: the runs that keep the registry right at every step are
  the runs without the two steps.
-/

namespace Ublkera

namespace Manager

open LittleEndian PosixFs Trace

/-! ## Looking up -/

theorem mem_of_lookup {devices : List Managed} {devId : UInt32} {m : Managed}
    (h : lookup devices devId = .ok m) : m ∈ devices ∧ m.devId = devId := by
  unfold lookup at h
  split at h
  · rename_i found hfound
    obtain rfl := Except.ok.inj h
    exact ⟨List.mem_of_find?_eq_some hfound, by simpa using List.find?_some hfound⟩
  · cases h

/-- In a registry with one entry for each id, every entry is found. -/
theorem lookup_of_mem {devices : List Managed} (hkeys : (devices.map (·.devId)).Nodup)
    {m : Managed} (h : m ∈ devices) : lookup devices m.devId = .ok m := by
  unfold lookup
  cases hfind : devices.find? (·.devId == m.devId) with
  | none =>
    have hnone := List.find?_eq_none.mp hfind m h
    simp at hnone
  | some found =>
    have hmem := List.mem_of_find?_eq_some hfind
    have hid : found.devId = m.devId := by simpa using List.find?_some hfind
    rw [List.inj_on_of_nodup_map hkeys hmem h hid]

theorem mem_remove {devices : List Managed} {devId : UInt32} {m : Managed} :
    m ∈ remove devices devId ↔ m ∈ devices ∧ m.devId ≠ devId := by
  simp [remove]

/-! ## What the registry is for -/

/-- Every device that is up is registered under its id. -/
def Registered (s : State) : Prop :=
  ∀ i sup devId, s.sups i = some sup → sup.phase = .live devId →
    ∃ m, lookup s.devices devId = .ok m ∧ m.supervisor = i ∧ m.backing = sup.spec.backing

/-- No two devices that are up have the same backing. -/
def OneServer (s : State) : Prop :=
  ∀ i j sup other devId otherId, s.sups i = some sup → s.sups j = some other →
    sup.phase = .live devId → other.phase = .live otherId →
    sup.spec.backing = other.spec.backing → i = j

/-- The step keeps the registry right. -/
def Kept (s : State) (l : Label) (s' : State) : Prop :=
  Registered s' ∧ OneServer s' ∧ ∀ devId, l = .delFailed devId → s'.devices = s.reap.devices

/-- A supervisor comes up late, or `del_dev` fails. -/
def Label.diverges : Label → Bool
  | .lateUp _ _ | .delFailed _ => true
  | _ => false

/-! ## The supervisors -/

/-- No device comes up, and no supervisor is forgotten. -/
structure Fades (sups sups' : Nat → Option Supervisor) : Prop where
  back : ∀ i sup', sups' i = some sup' → ∃ sup, sups i = some sup ∧
    sup'.spec = sup.spec ∧ (sup'.phase = sup.phase ∨ sup'.phase.mayServe = false)
  forth : ∀ i, sups i ≠ none → sups' i ≠ none

theorem Fades.refl (sups : Nat → Option Supervisor) : Fades sups sups :=
  ⟨fun _ sup' h => ⟨sup', h, rfl, Or.inl rfl⟩, fun _ h => h⟩

/-- A change of every supervisor that keeps its spec. -/
theorem fades_map {sups : Nat → Option Supervisor} (f : Nat → Supervisor → Supervisor)
    (hspec : ∀ i sup, (f i sup).spec = sup.spec)
    (hphase : ∀ i sup, (f i sup).phase = sup.phase ∨ (f i sup).phase.mayServe = false) :
    Fades sups (fun i => (sups i).map (f i)) := by
  constructor
  · intro i sup' h
    obtain ⟨sup, hsup, rfl⟩ := Option.map_eq_some_iff.mp h
    exact ⟨sup, hsup, hspec i sup, hphase i sup⟩
  · intro i h
    simpa using h

theorem update_map (sups : Nat → Option Supervisor) (i : Nat) (f : Supervisor → Supervisor) :
    Function.update sups i ((sups i).map f)
      = fun j => (sups j).map (if j = i then f else id) := by
  funext j
  by_cases hj : j = i
  · subst hj
    simp
  · simp [hj]

theorem fades_setPhase (s : State) (i : Nat) {phase : Phase} (h : phase.mayServe = false) :
    Fades s.sups (s.setPhase i phase).sups := by
  show Fades s.sups (Function.update s.sups i ((s.sups i).map fun sup => { sup with phase }))
  rw [update_map]
  apply fades_map
  · intro j sup
    split
    · rfl
    · rfl
  · intro j sup
    split
    · exact Or.inr h
    · exact Or.inl rfl

theorem fades_setMap (s : State) (i : Nat) (map : EraState) :
    Fades s.sups (s.setMap i map).sups := by
  show Fades s.sups (Function.update s.sups i ((s.sups i).map fun sup => { sup with map }))
  rw [update_map]
  apply fades_map
  · intro j sup
    split
    · rfl
    · rfl
  · intro j sup
    left
    split
    · rfl
    · rfl

theorem fades_deleteDevice (s : State) (devId : UInt32) :
    Fades s.sups (s.deleteDevice devId).sups := by
  apply fades_map
  · intro j sup
    split
    · rfl
    · rfl
  · intro j sup
    split
    · exact Or.inr rfl
    · exact Or.inl rfl

theorem fades_withSave (s : State) (fs : MetaFs) (pc : SavePc) (t : Thread) :
    Fades s.sups (s.withSave fs pc t).sups := by
  cases t with
  | ctl => exact Fades.refl _
  | sup i => exact fades_setPhase s i rfl

/-- After `del_dev` no device has the id. -/
theorem deleteDevice_not_live {s : State} {devId : UInt32} {i : Nat} {sup : Supervisor}
    (h : (s.deleteDevice devId).sups i = some sup) : sup.phase ≠ .live devId := by
  obtain ⟨old, -, rfl⟩ := Option.map_eq_some_iff.mp h
  split
  · nofun
  · rename_i hne
    exact hne

theorem setPhase_self {s : State} {i : Nat} {sup : Supervisor} (h : s.sups i = some sup)
    (phase : Phase) : (s.setPhase i phase).sups i = some { sup with phase } := by
  simp [State.setPhase, h]

theorem setPhase_of_ne (s : State) {i j : Nat} (h : j ≠ i) (phase : Phase) :
    (s.setPhase i phase).sups j = s.sups j := by
  simp [State.setPhase, Function.update_of_ne h]

/-! ## The invariant of every run -/

/-- The backing that an `add` in progress has checked. -/
def State.reserved (s : State) : Option String :=
  match s.ctl with
  | .adding spec _ _ _ => some spec.backing
  | .waiting i _ => (s.sups i).map (·.spec.backing)
  | _ => none

structure RegistryInv (s : State) : Prop where
  unspawned : ∀ i, s.next ≤ i → s.sups i = none
  keys : (s.devices.map (·.devId)).Nodup
  /-- Every entry belongs to a supervisor that has been up under its id. -/
  known : ∀ m, m ∈ s.devices → ∃ sup, s.sups m.supervisor = some sup ∧
    sup.phase ≠ .starting ∧ ∀ devId, sup.phase = .live devId → m.devId = devId
  reserved : ∀ backing, s.reserved = some backing → ∀ m, m ∈ s.devices → m.backing ≠ backing

theorem registryInv_init (fs : MetaFs) : RegistryInv (init fs) :=
  ⟨fun _ _ => rfl, List.nodup_nil, nofun, nofun⟩

/-- A backing stays reserved by the same `add`. -/
theorem Fades.reserved {s s' : State} (hf : Fades s.sups s'.sups) (hctl : s'.ctl = s.ctl)
    {backing : String} (h : s'.reserved = some backing) : s.reserved = some backing := by
  unfold State.reserved at h ⊢
  rw [hctl] at h
  cases hs : s.ctl with
  | waiting i recovered =>
    rw [hs] at h
    obtain ⟨sup', hsup', rfl⟩ := Option.map_eq_some_iff.mp h
    obtain ⟨sup, hsup, hspec, -⟩ := hf.back i sup' hsup'
    show (s.sups i).map (·.spec.backing) = _
    rw [hsup, Option.map_some, hspec]
  | adding | idle | checkpointing | saving | joining | detaching =>
    rw [hs] at h
    exact h

/-- A step that only lets supervisors fade and entries go. -/
theorem RegistryInv.fade {s s' : State} (h : RegistryInv s) (hf : Fades s.sups s'.sups)
    (hnext : s'.next = s.next) (hdev : List.Sublist s'.devices s.devices)
    (hctl : s'.ctl = s.ctl ∨ s'.reserved = none) : RegistryInv s' := by
  refine ⟨?_, ?_, ?_, ?_⟩
  · intro i hi
    rw [hnext] at hi
    cases hsup : s'.sups i with
    | none => rfl
    | some sup' =>
      obtain ⟨sup, hold, -⟩ := hf.back i sup' hsup
      rw [h.unspawned i hi] at hold
      cases hold
  · exact h.keys.sublist (hdev.map _)
  · intro m hm
    obtain ⟨sup, hsup, hstart, hlive⟩ := h.known m (hdev.subset hm)
    have hsome : s'.sups m.supervisor ≠ none := hf.forth _ (by rw [hsup]; nofun)
    obtain ⟨sup', hsup'⟩ := Option.ne_none_iff_exists'.mp hsome
    obtain ⟨old, hold, -, hphase⟩ := hf.back _ _ hsup'
    rw [hsup] at hold
    obtain rfl := Option.some.inj hold
    refine ⟨sup', hsup', ?_, ?_⟩
    · intro hs
      rcases hphase with hphase | hphase
      · exact hstart (hphase ▸ hs)
      · rw [hs] at hphase
        cases hphase
    · intro devId hid
      rcases hphase with hphase | hphase
      · exact hlive devId (hphase ▸ hid)
      · rw [hid] at hphase
        cases hphase
  · intro backing hb m hm
    rcases hctl with hctl | hnone
    · exact h.reserved backing (hf.reserved hctl hb) m (hdev.subset hm)
    · rw [hnone] at hb
      cases hb

theorem reap_sublist (s : State) : List.Sublist s.reap.devices s.devices :=
  List.filter_sublist

theorem remove_sublist (devices : List Managed) (devId : UInt32) :
    List.Sublist (remove devices devId) devices :=
  List.filter_sublist

theorem reserved_after (s : State) (ids : List UInt32) :
    ({ s with ctl := Ctl.after ids } : State).reserved = none := by
  cases ids with
  | nil => rfl
  | cons devId ids => rfl

/-- `add` refuses a backing that is registered. -/
theorem backing_ne_of_beginAdd {s : State} {spec : DeviceSpec} {env : AddEnv}
    {r : EraState × Bool} (h : beginAdd s spec env = .ok r) (m : Managed)
    (hm : m ∈ s.devices) : m.backing ≠ spec.backing := by
  intro hb
  have hany : s.devices.any (·.backing == spec.backing) = true :=
    List.any_eq_true.mpr ⟨m, hm, by simpa using hb⟩
  have hrefused : ∀ devSize, checkAdd s.devices spec env ≠ .ok devSize := by
    intro devSize
    unfold checkAdd
    split
    · nofun
    split
    · nofun
    split
    · nofun
    split
    · nofun
    nofun
  unfold beginAdd at h
  split at h
  · cases h
  · rename_i devSize hcheck
    exact hrefused devSize hcheck

theorem release_eq (ctl : Ctl) (i : Nat) (next : Ctl) :
    ctl.release i next = ctl ∨ ctl.release i next = next := by
  cases ctl with
  | waiting j recovered =>
    by_cases hj : j = i
    · exact Or.inr (if_pos hj)
    · exact Or.inl (if_neg hj)
  | idle | adding | checkpointing | saving | joining | detaching => exact Or.inl rfl

/-- An `add` that does not wait for its supervisor any more reserves
nothing. -/
theorem reserved_release {s : State} (i : Nat) {ctl next : Ctl}
    (hctl : s.ctl = ctl.release i next) (hnext : ∀ t : State, t.ctl = next → t.reserved = none) :
    s.ctl = ctl ∨ s.reserved = none := by
  rcases release_eq ctl i next with h | h
  · exact Or.inl (hctl.trans h)
  · exact Or.inr (hnext s (hctl.trans h))

theorem reserved_idle (s : State) (h : s.ctl = .idle) : s.reserved = none := by
  rw [State.reserved, h]

theorem reserved_joining (s : State) {i : Nat} {ids : List UInt32}
    (h : s.ctl = .joining i ids) : s.reserved = none := by
  rw [State.reserved, h]

/-- A supervisor comes up under an id that no other device has. -/
theorem RegistryInv.up {s : State} {i : Nat} {sup : Supervisor} {devId : UInt32}
    (h : RegistryInv s) (found : s.sups i = some sup) (starting : sup.phase = .starting) :
    RegistryInv (s.setPhase i (.live devId)) := by
  have hreg : ∀ m, m ∈ s.devices → m.supervisor ≠ i := by
    intro m hm hi
    obtain ⟨known, hknown, hstart, -⟩ := h.known m hm
    rw [hi, found] at hknown
    rw [← Option.some.inj hknown] at hstart
    exact hstart starting
  refine ⟨?_, h.keys, ?_, ?_⟩
  · intro j hj
    have hji : j ≠ i := by
      intro hji
      rw [hji] at hj
      rw [h.unspawned i hj] at found
      cases found
    rw [setPhase_of_ne s hji]
    exact h.unspawned j hj
  · intro m hm
    rw [setPhase_of_ne s (hreg m hm)]
    exact h.known m hm
  · intro backing hb
    apply h.reserved backing
    rw [← hb]
    unfold State.reserved
    show _ = match s.ctl with
      | .adding spec _ _ _ => some spec.backing
      | .waiting j _ =>
        ((s.setPhase i (.live devId)).sups j).map fun sup : Supervisor => sup.spec.backing
      | _ => none
    cases s.ctl with
    | waiting j recovered =>
      by_cases hji : j = i
      · subst hji
        show (s.sups j).map _ = ((s.setPhase j (.live devId)).sups j).map _
        rw [setPhase_self found, found]
        rfl
      · show (s.sups j).map _ = ((s.setPhase i (.live devId)).sups j).map _
        rw [setPhase_of_ne s hji]
    | adding | idle | checkpointing | saving | joining | detaching => rfl

/-- The new device is registered. -/
theorem RegistryInv.register {s : State} (h : RegistryInv s) {m : Managed} {sup : Supervisor}
    (found : s.sups m.supervisor = some sup) (live : sup.phase = .live m.devId) :
    RegistryInv { s with devices := insert s.devices m, ctl := .idle } := by
  refine ⟨h.unspawned, ?_, ?_, nofun⟩
  · show ((m :: remove s.devices m.devId).map (·.devId)).Nodup
    rw [List.map_cons, List.nodup_cons]
    refine ⟨?_, h.keys.sublist ((remove_sublist _ _).map _)⟩
    intro hmem
    obtain ⟨other, hother, hid⟩ := List.mem_map.mp hmem
    exact (mem_remove.mp hother).2 hid
  · intro other hother
    rcases List.mem_cons.mp hother with rfl | hother
    · refine ⟨sup, found, by rw [live]; nofun, ?_⟩
      intro devId hid
      rw [live] at hid
      exact Phase.live.inj hid
    · exact h.known other (mem_remove.mp hother).1

/-- A new supervisor starts. -/
theorem RegistryInv.spawn {s : State} {spec : DeviceSpec} {map : EraState}
    {recovered : Bool} {pc : Option SavePc} (h : RegistryInv s)
    (adding : s.ctl = .adding spec map recovered pc) :
    RegistryInv { s with
      sups := Function.update s.sups s.next (some { spec, map, phase := .starting })
      next := s.next + 1
      ctl := .waiting s.next recovered } := by
  refine ⟨?_, h.keys, ?_, ?_⟩
  · intro j hj
    have hj' : s.next + 1 ≤ j := hj
    show Function.update s.sups s.next _ j = none
    rw [Function.update_of_ne (by omega)]
    exact h.unspawned j (by omega)
  · intro m hm
    obtain ⟨sup, hsup, hrest⟩ := h.known m hm
    refine ⟨sup, ?_, hrest⟩
    have hne : m.supervisor ≠ s.next := by
      intro hi
      rw [hi, h.unspawned s.next (Nat.le_refl _)] at hsup
      cases hsup
    show Function.update s.sups s.next _ m.supervisor = some sup
    rw [Function.update_of_ne hne]
    exact hsup
  · intro backing hb
    apply h.reserved backing
    unfold State.reserved at hb ⊢
    rw [adding]
    simpa using hb

/-- One step keeps the invariant, whatever it is. -/
theorem RegistryInv.step {s s' : State} {l : Label} (h : RegistryInv s) (hs : Step s l s') :
    RegistryInv s' := by
  have hsame : List.Sublist s.devices s.devices := List.Sublist.refl _
  have hreap : RegistryInv s.reap :=
    h.fade (Fades.refl _) rfl (reap_sublist s) (Or.inl rfl)
  cases hs with
  | addRefused | list | checkpointUnknown => exact hreap
  | add idle begin =>
    refine ⟨hreap.unspawned, hreap.keys, hreap.known, ?_⟩
    intro backing hb
    obtain rfl := Option.some.inj hb
    exact backing_ne_of_beginAdd begin
  | addFailed | spawnFailed | timeout | saved | answer =>
    exact h.fade (Fades.refl _) rfl hsame (Or.inr rfl)
  | @save t path clean map pc pc' l fs running move =>
    cases t with
    | ctl =>
      refine ⟨h.unspawned, h.keys, h.known, ?_⟩
      intro backing hb
      apply h.reserved backing
      rw [← hb]
      show State.reserved s = State.reserved { s with fs, ctl := s.ctl.withSave pc' }
      unfold State.reserved Ctl.withSave
      cases s.ctl with
      | adding spec map recovered pc =>
        cases pc with
        | none => rfl
        | some pc => rfl
      | idle | waiting | checkpointing | saving | joining | detaching => rfl
    | sup i => exact h.fade (fades_withSave s fs pc' (.sup i)) rfl hsame (Or.inl rfl)
  | spawn adding marked => exact h.spawn adding
  | ready waiting found starting free =>
    exact (h.up found starting).register (setPhase_self found _) rfl
  | @startFailed i sup found starting =>
    exact h.fade (fades_setPhase s i rfl) rfl hsame (reserved_release i rfl reserved_idle)
  | @runFailed i sup found starting =>
    exact h.fade (fades_setPhase s i rfl) rfl hsame
      (reserved_release i rfl fun t ht => reserved_joining t ht)
  | lateUp found starting late free => exact h.up found starting
  | stamp found => exact h.fade (fades_setMap s _ _) rfl hsame (Or.inl rfl)
  | externalDelete found live => exact h.fade (fades_setPhase s _ rfl) rfl hsame (Or.inl rfl)
  | exit found gone saved => exact h.fade (fades_setPhase s _ rfl) rfl hsame (Or.inl rfl)
  | checkpoint | checkpointAll =>
    exact hreap.fade (Fades.refl _) rfl (List.Sublist.refl _) (Or.inr rfl)
  | closeEra turn found =>
    refine h.fade (fades_setMap s _ _) rfl hsame (Or.inr ?_)
    unfold State.reserved
    split
    · rename_i heq
      split at heq
      · cases heq
      · cases heq
    · rename_i heq
      split at heq
      · cases heq
      · cases heq
    · rfl
  | @del devId m ids turn found =>
    exact hreap.fade (fades_deleteDevice s.reap devId) rfl (remove_sublist _ _) (Or.inr rfl)
  | delFailed turn found =>
    exact hreap.fade (Fades.refl _) rfl (remove_sublist _ _) (Or.inr (reserved_after _ _))
  | delUnknown turn unknown =>
    exact hreap.fade (Fades.refl _) rfl (List.Sublist.refl _) (Or.inr (reserved_after _ _))
  | joined joining exited =>
    exact h.fade (Fades.refl _) rfl hsame (Or.inr (reserved_after _ _))
  | shutdownAll idle => exact h.fade (Fades.refl _) rfl hsame (Or.inr (reserved_after _ _))

/-! ## The steps that keep the registry right -/

/-- What the registry is for, at one moment. -/
structure RightInv (s : State) : Prop where
  inv : RegistryInv s
  registered : Registered s
  oneServer : OneServer s

/-- A step that only lets supervisors fade, and that leaves the entries of
the devices that stay up. -/
theorem RightInv.fade {s s' : State} (h : RightInv s) (hinv : RegistryInv s')
    (hf : Fades s.sups s'.sups)
    (hdev : ∀ m sup, m ∈ s.devices → s'.sups m.supervisor = some sup →
      sup.phase = .live m.devId → m ∈ s'.devices) : RightInv s' := by
  -- a device that is up now was up before
  have hback : ∀ {i : Nat} {sup' : Supervisor} {devId : UInt32}, s'.sups i = some sup' →
      sup'.phase = .live devId → ∃ sup, s.sups i = some sup ∧ sup.phase = .live devId ∧
        sup'.spec = sup.spec := by
    intro i sup' devId hsup' hlive
    obtain ⟨sup, hsup, hspec, hphase⟩ := hf.back i sup' hsup'
    rcases hphase with hphase | hphase
    · exact ⟨sup, hsup, hphase ▸ hlive, hspec⟩
    · rw [hlive] at hphase
      cases hphase
  refine ⟨hinv, ?_, ?_⟩
  · intro i sup' devId hsup' hlive
    obtain ⟨sup, hsup, hold, hspec⟩ := hback hsup' hlive
    obtain ⟨m, hm, rfl, hbacking⟩ := h.registered i sup devId hsup hold
    obtain ⟨hmem, rfl⟩ := mem_of_lookup hm
    have hmem' := hdev m sup' hmem hsup' hlive
    exact ⟨m, lookup_of_mem hinv.keys hmem', rfl, by rw [hspec]; exact hbacking⟩
  · intro i j sup other devId otherId hsup hother hlive holive hbacking
    obtain ⟨sup0, hsup0, hlive0, hspec⟩ := hback hsup hlive
    obtain ⟨other0, hother0, holive0, hospec⟩ := hback hother holive
    rw [hspec, hospec] at hbacking
    exact h.oneServer i j sup0 other0 devId otherId hsup0 hother0 hlive0 holive0 hbacking

/-- `reap` leaves the entries of devices that are up. -/
theorem mem_reap {s : State} {m : Managed} {sup : Supervisor} {devId : UInt32}
    (hm : m ∈ s.devices) (hsup : s.sups m.supervisor = some sup)
    (hlive : sup.phase = .live devId) : m ∈ s.reap.devices := by
  show m ∈ s.devices.filter fun m => !finished s.sups m.supervisor
  rw [List.mem_filter]
  refine ⟨hm, ?_⟩
  unfold finished
  rw [hsup]
  simp [hlive]

theorem RightInv.reap {s : State} (h : RightInv s) : RightInv s.reap :=
  h.fade (h.inv.fade (Fades.refl _) rfl (reap_sublist s) (Or.inl rfl)) (Fades.refl _)
    fun _ _ hm hsup hlive => mem_reap hm hsup hlive

/-- A device that reports in time is registered, and no other one has its
backing. -/
theorem RightInv.ready {s : State} {i : Nat} {sup : Supervisor} {recovered : Bool}
    {devId : UInt32} (h : RightInv s) (waiting : s.ctl = .waiting i recovered)
    (found : s.sups i = some sup) (starting : sup.phase = .starting)
    (free : ∀ j other, s.sups j = some other → other.phase ≠ .live devId) :
    RightInv
      { s.setPhase i (.live devId) with
        devices := insert s.devices
          { devId, backing := sup.spec.backing, metaPath := sup.spec.metaPath
            metaText := sup.spec.metaText, supervisor := i }
        ctl := .idle } := by
  have hlive : RegistryInv (s.setPhase i (.live devId)) := h.inv.up found starting
  have hinv := hlive.register
    (m := { devId, backing := sup.spec.backing, metaPath := sup.spec.metaPath
            metaText := sup.spec.metaText, supervisor := i })
    (setPhase_self found _) rfl
  have hreserved : s.reserved = some sup.spec.backing := by
    rw [State.reserved, waiting]
    show (s.sups i).map _ = _
    rw [found]
    rfl
  -- no other device is up with the backing
  have halone : ∀ j other otherId, j ≠ i → s.sups j = some other →
      other.phase = .live otherId → other.spec.backing ≠ sup.spec.backing := by
    intro j other otherId _ hother hlive hbacking
    obtain ⟨m, hm, -, hmb⟩ := h.registered j other otherId hother hlive
    exact h.inv.reserved _ hreserved m (mem_of_lookup hm).1 (hmb.trans hbacking)
  refine ⟨hinv, ?_, ?_⟩
  · intro j sup' id hsup' hlive
    by_cases hj : j = i
    · subst hj
      rw [show _ = some _ from setPhase_self found _] at hsup'
      obtain rfl := Option.some.inj hsup'
      obtain rfl := Phase.live.inj hlive
      exact ⟨_, lookup_of_mem hinv.keys List.mem_cons_self, rfl, rfl⟩
    · rw [show _ = s.sups j from setPhase_of_ne s hj _] at hsup'
      obtain ⟨m, hm, hsupervisor, hbacking⟩ := h.registered j sup' id hsup' hlive
      obtain ⟨hmem, rfl⟩ := mem_of_lookup hm
      have hne : m.devId ≠ devId := by
        intro hid
        rw [hid] at hlive
        exact free j sup' hsup' hlive
      have hmem' := List.mem_cons_of_mem
        ({ devId, backing := sup.spec.backing, metaPath := sup.spec.metaPath
           metaText := sup.spec.metaText, supervisor := i } : Managed) (mem_remove.mpr ⟨hmem, hne⟩)
      exact ⟨m, lookup_of_mem hinv.keys hmem', hsupervisor, hbacking⟩
  · intro j k sup1 sup2 id1 id2 hsup1 hsup2 hlive1 hlive2 hbacking
    by_cases hj : j = i
    · by_cases hk : k = i
      · exact hj.trans hk.symm
      · subst hj
        rw [show _ = some _ from setPhase_self found _] at hsup1
        obtain rfl := Option.some.inj hsup1
        rw [show _ = s.sups k from setPhase_of_ne s hk _] at hsup2
        exact absurd hbacking.symm (halone k sup2 id2 hk hsup2 hlive2)
    · rw [show _ = s.sups j from setPhase_of_ne s hj _] at hsup1
      by_cases hk : k = i
      · subst hk
        rw [show _ = some _ from setPhase_self found _] at hsup2
        obtain rfl := Option.some.inj hsup2
        exact absurd hbacking (halone j sup1 id1 hj hsup1 hlive1)
      · rw [show _ = s.sups k from setPhase_of_ne s hk _] at hsup2
        exact h.oneServer j k sup1 sup2 id1 id2 hsup1 hsup2 hlive1 hlive2 hbacking

/-- The new supervisor of an `add` is not up yet. -/
theorem fades_spawn_back {s : State} {sup0 : Supervisor} (hstart : sup0.phase = .starting)
    {i : Nat} {sup : Supervisor} {devId : UInt32}
    (hsup : Function.update s.sups s.next (some sup0) i = some sup)
    (hlive : sup.phase = .live devId) : s.sups i = some sup := by
  by_cases hi : i = s.next
  · subst hi
    rw [Function.update_self] at hsup
    rw [← Option.some.inj hsup, hstart] at hlive
    cases hlive
  · rw [Function.update_of_ne hi] at hsup
    exact hsup

/-- Every step but the two keeps the registry right. -/
theorem RightInv.step {s s' : State} {l : Label} (h : RightInv s) (hl : l.diverges = false)
    (hs : Step s l s') : RightInv s' := by
  have hinv := h.inv.step hs
  cases hs with
  | addRefused | list | checkpointUnknown => exact h.reap
  | add | checkpoint | checkpointAll =>
    exact h.reap.fade hinv (Fades.refl _) fun _ _ hm _ _ => hm
  | addFailed | spawnFailed | timeout | saved | answer | joined | shutdownAll =>
    exact h.fade hinv (Fades.refl _) fun _ _ hm _ _ => hm
  | @save t path clean map pc pc' l fs running move =>
    refine h.fade hinv (fades_withSave s fs pc' t) fun m _ hm _ _ => ?_
    cases t with
    | ctl => exact hm
    | sup i => exact hm
  | spawn adding marked =>
    refine ⟨hinv, ?_, ?_⟩
    · intro i sup devId hsup hlive
      exact h.registered i sup devId (fades_spawn_back rfl hsup hlive) hlive
    · intro i j sup other id otherId hsup hother hlive holive
      exact h.oneServer i j sup other id otherId (fades_spawn_back rfl hsup hlive)
        (fades_spawn_back rfl hother holive) hlive holive
  | ready waiting found starting free => exact h.ready waiting found starting free
  | startFailed found starting =>
    exact h.fade hinv (fades_setPhase s _ rfl) fun _ _ hm _ _ => hm
  | runFailed found starting =>
    exact h.fade hinv (fades_setPhase s _ rfl) fun _ _ hm _ _ => hm
  | lateUp => cases hl
  | stamp found => exact h.fade hinv (fades_setMap s _ _) fun _ _ hm _ _ => hm
  | externalDelete found live =>
    exact h.fade hinv (fades_setPhase s _ rfl) fun _ _ hm _ _ => hm
  | exit found gone saved => exact h.fade hinv (fades_setPhase s _ rfl) fun _ _ hm _ _ => hm
  | closeEra turn found => exact h.fade hinv (fades_setMap s _ _) fun _ _ hm _ _ => hm
  | @del devId m ids turn found =>
    refine h.reap.fade hinv (fades_deleteDevice s.reap devId) fun m' sup hm hsup hlive => ?_
    refine mem_remove.mpr ⟨hm, ?_⟩
    intro hid
    rw [hid] at hlive
    exact deleteDevice_not_live hsup hlive
  | delFailed => cases hl
  | delUnknown turn unknown => exact h.reap.fade hinv (Fades.refl _) fun _ _ hm _ _ => hm

theorem rightInv_init (fs : MetaFs) : RightInv (init fs) := by
  refine ⟨registryInv_init fs, ?_, ?_⟩
  · intro i sup devId hsup
    cases hsup
  · intro i j sup other devId otherId hsup
    cases hsup

/-! ## The two steps that do not -/

/-- A device that comes up late is not registered. -/
theorem not_registered_lateUp {s : State} {i : Nat} {sup : Supervisor} {devId : UInt32}
    (h : RegistryInv s) (found : s.sups i = some sup) (starting : sup.phase = .starting) :
    ¬ Registered (s.setPhase i (.live devId)) := by
  intro hreg
  obtain ⟨m, hm, hsupervisor, -⟩ := hreg i _ devId (setPhase_self found _) rfl
  obtain ⟨known, hknown, hstart, -⟩ := h.known m (mem_of_lookup hm).1
  rw [hsupervisor, found] at hknown
  rw [← Option.some.inj hknown] at hstart
  exact hstart starting

/-- A failed `del` has taken the entry out. -/
theorem remove_ne {devices : List Managed} {devId : UInt32} {m : Managed}
    (found : lookup devices devId = .ok m) : remove devices devId ≠ devices := by
  intro heq
  obtain ⟨hm, hid⟩ := mem_of_lookup found
  rw [← heq] at hm
  exact (mem_remove.mp hm).2 hid

/-- A step keeps the registry right exactly when no supervisor comes up late
and no `del_dev` fails in it. -/
theorem kept_iff {s s' : State} {l : Label} (h : RightInv s) (hs : Step s l s') :
    Kept s l s' ↔ l.diverges = false := by
  constructor
  · intro ⟨hreg, _, hfailed⟩
    cases hs with
    | lateUp found starting late free =>
      exact absurd hreg (not_registered_lateUp h.inv found starting)
    | delFailed turn found => exact absurd (hfailed _ rfl) (remove_ne found)
    | _ => rfl
  · intro hl
    have hright := h.step hl hs
    refine ⟨hright.registered, hright.oneServer, ?_⟩
    intro devId hfailed
    rw [hfailed] at hl
    cases hl

/-- The runs that keep the registry right at every step are the runs in
which no supervisor comes up after `add` has given up on it, and no
`del_dev` fails. -/
theorem kept_runs_iff {fs : MetaFs} {trace : List Label} {s : State} :
    Run (fun s l s' => Step s l s' ∧ Kept s l s') (init fs) trace s ↔
      Run (fun s l s' => Step s l s' ∧ l.diverges = false) (init fs) trace s := by
  constructor
  · intro h
    have hboth : Run (fun s l s' => Step s l s' ∧ l.diverges = false) (init fs) trace s ∧
        RightInv s := by
      induction h with
      | nil => exact ⟨.nil, rightInv_init fs⟩
      | snoc run last ih =>
        have hl := (kept_iff ih.2 last.1).mp last.2
        exact ⟨ih.1.snoc ⟨last.1, hl⟩, ih.2.step hl last.1⟩
    exact hboth.1
  · intro h
    have hboth : Run (fun s l s' => Step s l s' ∧ Kept s l s') (init fs) trace s ∧
        RightInv s := by
      induction h with
      | nil => exact ⟨.nil, rightInv_init fs⟩
      | snoc run last ih =>
        exact ⟨ih.1.snoc ⟨last.1, (kept_iff ih.2 last.1).mpr last.2⟩, ih.2.step last.2 last.1⟩
    exact hboth.1

/-! ### A device of one chunk without metadata -/

def specA : DeviceSpec := { backing := "/dev/a", granularity := 4096 }

def envA : AddEnv :=
  { idInUse := false, opened := .ok (), devSize := .ok 4096, urandom := .ok 7 }

def startingA : Supervisor := { spec := specA, map := EraState.oneChunk, phase := .starting }

theorem addState_specA (backing : String) :
    addState { specA with backing } none 4096 (.ok 7) = .ok (EraState.oneChunk, false) := by
  have hgranularity : specA.granularity = 4096 := rfl
  have hpath : specA.metaPath = none := rfl
  simp only [addState, hgranularity, hpath, EraState.new_oneChunk]

/-- An `add` of a backing without metadata, up to the start of its
supervisor. -/
theorem start_run (backing : String) {s : State} (idle : s.ctl = .idle)
    (fresh : s.reap.devices.any (·.backing == backing) = false) :
    Run Step s [.add { specA with backing }, .spawn]
      { s.reap with
        sups := Function.update s.sups s.next
          (some { startingA with spec := { specA with backing } })
        next := s.next + 1
        ctl := .waiting s.next false } := by
  have hbegin : beginAdd s.reap { specA with backing } envA
      = .ok (EraState.oneChunk, false) := by
    have hcheck : checkAdd s.reap.devices { specA with backing } envA = .ok 4096 := by
      show (if s.reap.devices.any (·.backing == backing) then _ else _) = _
      rw [fresh]
      rfl
    unfold beginAdd
    rw [hcheck]
    exact addState_specA backing
  have hadd : Step s (.add { specA with backing }) _ := .add idle hbegin
  exact .cons hadd (.single (.spawn rfl (Or.inl rfl)))

/-- No device has the id. -/
def Free (sups : Nat → Option Supervisor) (devId : UInt32) : Prop :=
  ∀ j other, sups j = some other → other.phase ≠ .live devId

theorem free_spawn {sups : Nat → Option Supervisor} {devId : UInt32} (h : Free sups devId)
    (n : Nat) {sup : Supervisor} (hne : sup.phase ≠ .live devId) :
    Free (Function.update sups n (some sup)) devId := by
  intro j other hj
  by_cases hn : j = n
  · subst hn
    rw [Function.update_self] at hj
    rw [← Option.some.inj hj]
    exact hne
  · rw [Function.update_of_ne hn] at hj
    exact h j other hj

theorem free_setPhase {s : State} {devId : UInt32} (h : Free s.sups devId) (i : Nat)
    {phase : Phase} (hne : phase ≠ .live devId) : Free (s.setPhase i phase).sups devId := by
  intro j other hj
  by_cases hi : j = i
  · subst hi
    cases hs : s.sups j with
    | none => simp [State.setPhase, hs] at hj
    | some sup =>
      rw [setPhase_self hs] at hj
      rw [← Option.some.inj hj]
      exact hne
  · rw [setPhase_of_ne s hi] at hj
    exact h j other hj

/-- A device that comes up after 15 s is not registered, and a second `add`
of the same backing brings up a second one.  After a failed `del` the
device is up and the registry is empty. -/
theorem not_kept_oneChunk :
    (∃ (trace : List Label) (s : State), Run Step (init Fs.empty) trace s ∧
        ¬ Registered s ∧ ¬ OneServer s) ∧
      ∃ (trace : List Label) (s t : State), Run Step (init Fs.empty) trace s ∧
        Step s (.delFailed 0) t ∧ t.devices ≠ s.reap.devices ∧ ¬ Registered t := by
  have hstart := start_run "/dev/a" (s := init Fs.empty) rfl rfl
  have hnone : ∀ devId, Free (fun _ => none) devId := nofun
  have hfirst := free_spawn (hnone 0) 0 (show startingA.phase ≠ _ by decide)
  constructor
  · have hlate := (hstart.snoc (.timeout rfl)).snoc
      (.lateUp (i := 0) (show _ = some startingA from rfl) rfl nofun hfirst)
    have hsecond := hlate.append (start_run "/dev/a" rfl rfl)
    have hup := hsecond.snoc (.ready (i := 1) rfl (show _ = some startingA from rfl) rfl
      (free_spawn (free_setPhase (free_spawn (hnone 1) 0 (by decide)) 0 (by decide)) 1
        (by decide)))
    refine ⟨_, _, hup, ?_, ?_⟩
    · intro hreg
      obtain ⟨m, hm, -⟩ := hreg 0 _ 0 rfl rfl
      cases hm
    · intro hone
      have heq := hone 0 1 _ _ 0 1 rfl rfl rfl rfl rfl
      cases heq
  · have hup := hstart.snoc (.ready (i := 0) rfl (show _ = some startingA from rfl) rfl hfirst)
    refine ⟨_, _, _, hup, .delFailed (show Turn _ 0 [] from Or.inl ⟨rfl, rfl⟩) rfl,
      ?_, ?_⟩
    · decide
    · intro hreg
      obtain ⟨m, hm, -⟩ := hreg 0 _ 0 rfl rfl
      cases hm

end Manager

end Ublkera
