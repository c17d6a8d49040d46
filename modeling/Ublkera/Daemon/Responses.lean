import Ublkera.Daemon.Resolve
import Ublkera.Era.DirtyMap
import Ublkera.Lib.Hex
import Ublkera.Lib.Json
import Ublkera.Scenario.Line

/-!
# What the daemon answers

The responses of the manager as JSON values, with the checks of `dump` on the
cursor of a backup client.  A cursor is the text of a generation, in
hexadecimal, and a closed era.  The client has them from earlier responses.

* `dump_iff`: `dump` answers exactly the cursors of this history, in any
  spelling of the generation, and its ranges are the normal form of what has
  changed.
* `cursor_accepted`: the cursor that a checkpoint has given is answered in the
  rest of the run.
* `list_complete`: `list` has every registered device once, by its id, whatever
  order the registry is iterated in.
-/

namespace Ublkera

namespace Manager

open PosixFs Trace EraState

/-! ## Texts -/

/-- `format!("{:016x}", generation)`. -/
def generationText (generation : UInt64) : String :=
  String.ofList (Hex.digits 16 generation.toNat)

/-- `u64::from_str_radix(g, 16)`. -/
def parseGeneration (text : String) : Except String UInt64 :=
  match Hex.parse (2 ^ 64) text.toList with
  | .ok n => .ok (UInt64.ofNat n)
  | .error e =>
    .error s!"generation '{text}' is not a hex number: {Scenario.parseErrorText e}"

/-- The text is a spelling of the generation. -/
def Spells (text : String) (generation : UInt64) : Prop :=
  Hex.hexadecimal text.toList = some generation.toNat

/-! ## Registered devices -/

/-- The era map of a supervisor. -/
def State.mapOf (s : State) (i : Nat) : Option EraState := (s.sups i).map (·.map)

/-- An entry of the registry with its era map. -/
structure Tracked where
  managed : Managed
  map : EraState

def State.tracked (s : State) : List Tracked :=
  s.devices.filterMap fun m => (s.mapOf m.supervisor).map fun map => { managed := m, map }

/-- `lookup`. -/
def find (tracked : List Tracked) (devId : UInt32) : Except String Tracked :=
  match tracked.find? (·.managed.devId == devId) with
  | some t => .ok t
  | none => .error s!"device {devId} is not managed by this daemon"

/-! ## Responses -/

def u32Json (n : UInt32) : Json := .posInt n.toUInt64

def addResponse (devId : UInt32) (spec : DeviceSpec) (devSize : UInt64) (map : EraState)
    (recovered : Bool) : Json :=
  let resp := .object [
    ("ok", .bool true),
    ("dev_id", u32Json devId),
    ("bdev", .string s!"/dev/ublkb{devId}"),
    ("backing", .string spec.backing),
    ("dev_size", .posInt devSize),
    ("granularity", .posInt spec.granularity),
    ("generation", .string (generationText map.generation)),
    ("current_era", u32Json map.currentEra)]
  if recovered then resp.set "recovered_unclean" (.bool true) else resp

def delResponse (m : Managed) : Json :=
  .object [("ok", .bool true), ("dev_id", u32Json m.devId), ("backing", .string m.backing)]

/-- `device_status`. -/
def deviceStatus (t : Tracked) : Json :=
  .object [
    ("dev_id", u32Json t.managed.devId),
    ("bdev", .string s!"/dev/ublkb{t.managed.devId}"),
    ("backing", .string t.managed.backing),
    ("dev_size", .posInt t.map.devSize),
    ("granularity", .posInt t.map.granularity),
    ("generation", .string (generationText t.map.generation)),
    ("current_era", u32Json t.map.currentEra),
    ("nr_chunks", .nat t.map.nrChunks),
    ("written_chunks", .nat t.map.writtenChunks),
    ("meta_path", match t.managed.metaPath with
      | some _ => .string t.managed.metaText
      | none => .null)]

/-- The response of `checkpoint_one`.  `saved` is how its save ended, when the
device has a metadata path. -/
def checkpointResponse (m : Managed) (eras : UInt32 × UInt32)
    (saved : Option (Except String Unit)) : Json :=
  let resp := .object [
    ("ok", .bool true),
    ("dev_id", u32Json m.devId),
    ("backing", .string m.backing),
    ("closed_era", u32Json eras.1),
    ("current_era", u32Json eras.2)]
  match saved with
  | none => resp
  | some (.ok ()) => resp.set "meta_saved" (.bool true)
  | some (.error e) => (resp.set "meta_saved" (.bool false)).set "meta_error" (.string e)

def rangeJson (r : DirtyRange) : Json := .object [("offset", .nat r.offset), ("len", .nat r.len)]

def dumpResponse (devId since : UInt32) (map : EraState) : Json :=
  let ranges := map.rangesSince since
  .object [
    ("ok", .bool true),
    ("dev_id", u32Json devId),
    ("generation", .string (generationText map.generation)),
    ("current_era", u32Json map.currentEra),
    ("since", u32Json since),
    ("granularity", .posInt map.granularity),
    ("dirty_bytes", .nat (ranges.map DirtyRange.len).sum),
    ("ranges", .array (ranges.map rangeJson))]

/-! ## Requests that change nothing -/

def checkGeneration (map : EraState) (text : String) : Except String Unit :=
  match parseGeneration text with
  | .error e => .error e
  | .ok expect =>
    if expect ≠ map.generation then
      .error (s!"generation mismatch: cursor is from a different tracking history " ++
        s!"(device is {generationText map.generation}) — take a full backup")
    else .ok ()

def checkSince (map : EraState) (since : UInt32) : Except String Unit :=
  if map.currentEra ≤ since then
    .error (s!"since {since} is not in this device's era history " ++
      s!"(current era is {map.currentEra}); the cursor is stale — take a full backup")
  else .ok ()

/-- The two checks of `dump`. -/
def checkCursor (map : EraState) (since : UInt32) (generation : Option String) :
    Except String Unit :=
  match generation with
  | none => checkSince map since
  | some text =>
    match checkGeneration map text with
    | .error e => .error e
    | .ok () => checkSince map since

/-- `dump` of a device that is there. -/
def dumpOne (t : Tracked) (since : UInt32) (generation : Option String) : Except String Json :=
  match checkCursor t.map since generation with
  | .error e => .error e
  | .ok () => .ok (dumpResponse t.managed.devId since t.map)

/-- `DeviceManager::dump`. -/
def State.dump (s : State) (devId since : UInt32) (generation : Option String) :
    Except String Json :=
  match find s.reap.tracked devId with
  | .error e => .error e
  | .ok t => dumpOne t since generation

/-- `DeviceManager::status`. -/
def State.status (s : State) (devId : UInt32) : Except String Json :=
  match find s.reap.tracked devId with
  | .error e => .error e
  | .ok t => .ok ((deviceStatus t).set "ok" (.bool true))

/-- The order of `Option<u64>`. -/
def keyLe : Option UInt64 → Option UInt64 → Bool
  | none, _ => true
  | some _, none => false
  | some a, some b => a ≤ b

/-- The key that `list` sorts by. -/
def byDevId (a b : Json) : Bool := keyLe (a.index "dev_id").asU64 (b.index "dev_id").asU64

/-- The devices of `DeviceManager::list`. -/
def listDevices (tracked : List Tracked) : List Json :=
  (tracked.map deviceStatus).mergeSort byDevId

/-- `DeviceManager::list`. -/
def State.list (s : State) : Json :=
  .object [("ok", .bool true), ("devices", .array (listDevices s.reap.tracked))]

/-! ## What a client reads -/

def readRange (v : Json) : Option DirtyRange :=
  match (v.index "offset").asU64, (v.index "len").asU64 with
  | some offset, some len => some { offset := offset.toNat, len := len.toNat }
  | _, _ => none

def readRanges (v : Json) : Option (List DirtyRange) :=
  match (v.index "ranges").asArray with
  | some items => items.mapM readRange
  | none => none

/-! ## The cursor -/

theorem parseGeneration_eq_ok_iff {text : String} {generation : UInt64} :
    parseGeneration text = .ok generation ↔ Spells text generation := by
  have hpos : 0 < 2 ^ 64 := by decide
  unfold parseGeneration Spells
  constructor
  · intro h
    cases hn : Hex.parse (2 ^ 64) text.toList with
    | error e =>
      rw [hn] at h
      cases h
    | ok n =>
      rw [hn] at h
      obtain ⟨hread, hlt⟩ := (Hex.parse_eq_ok_iff hpos).mp hn
      rw [← Except.ok.inj h, hread, UInt64.toNat_ofNat', Nat.mod_eq_of_lt hlt]
  · intro h
    rw [(Hex.parse_eq_ok_iff hpos).mpr ⟨h, generation.toNat_lt⟩]
    simp only [UInt64.ofNat_toNat]

/-- The generation of a response is a spelling of it. -/
theorem spells_generationText (generation : UInt64) :
    Spells (generationText generation) generation := by
  have hlt : generation.toNat < 16 ^ 16 := by
    have h := generation.toNat_lt
    omega
  unfold Spells generationText
  rw [String.toList_ofList, Hex.hexadecimal_digits (by omega) hlt]

theorem Spells.unique {text : String} {g g' : UInt64} (h : Spells text g) (h' : Spells text g') :
    g = g' := by
  rw [Spells, h, Option.some.injEq] at h'
  exact UInt64.toNat.inj h'

theorem generationText_injective {g g' : UInt64} (h : generationText g = generationText g') :
    g = g' := by
  have hspells := spells_generationText g
  rw [h] at hspells
  exact hspells.unique (spells_generationText g')

theorem checkGeneration_eq_ok_iff {map : EraState} {text : String} :
    checkGeneration map text = .ok () ↔ Spells text map.generation := by
  unfold checkGeneration
  rw [← parseGeneration_eq_ok_iff]
  cases parseGeneration text with
  | error e => simp
  | ok expect =>
    by_cases h : expect = map.generation
    · simp [h]
    · simp [h]

theorem checkCursor_eq_ok_iff {map : EraState} {since : UInt32} {generation : Option String} :
    checkCursor map since generation = .ok () ↔
      (∀ text ∈ generation, Spells text map.generation) ∧ since < map.currentEra := by
  have hsince : checkSince map since = .ok () ↔ since < map.currentEra := by
    unfold checkSince
    by_cases h : map.currentEra ≤ since
    · rw [if_pos h]
      simp [UInt32.not_lt.mpr h]
    · rw [if_neg h]
      simp [UInt32.not_le.mp h]
  unfold checkCursor
  cases generation with
  | none => simp [hsince]
  | some text =>
    simp only [Option.mem_some_iff, forall_eq', ← checkGeneration_eq_ok_iff]
    cases checkGeneration map text with
    | error e => simp
    | ok u => simp [hsince]

/-! ## The answer of a dump -/

/-- What a client reads in the answer of a dump. -/
structure DumpOf (map : EraState) (since : UInt32) (v : Json) : Prop where
  generation : (v.index "generation").asStr = some (generationText map.generation)
  current : (v.index "current_era").asU64 = some map.currentEra.toUInt64
  ranges : ∃ ranges, readRanges v = some ranges ∧ Merged map map.devSize.toNat ranges ∧
    (∀ x, x < map.devSize.toNat →
      (covers ranges x = true ↔ since < map.era (x / map.granularity.toNat))) ∧
    (v.index "dirty_bytes").asU64.map UInt64.toNat = some (ranges.map DirtyRange.len).sum

/-- A range of the device is read as it was written. -/
theorem readRange_rangeJson {r : DirtyRange} (h : r.offset + r.len < 2 ^ 64) :
    readRange (rangeJson r) = some r := by
  have hoffset : (UInt64.ofNat r.offset).toNat = r.offset := by
    rw [UInt64.toNat_ofNat', Nat.mod_eq_of_lt (by omega)]
  have hlen : (UInt64.ofNat r.len).toNat = r.len := by
    rw [UInt64.toNat_ofNat', Nat.mod_eq_of_lt (by omega)]
  show some ({ offset := (UInt64.ofNat r.offset).toNat, len := (UInt64.ofNat r.len).toNat }
    : DirtyRange) = some r
  rw [hoffset, hlen]

theorem readRanges_dumpResponse (devId since : UInt32) (map : EraState) :
    readRanges (dumpResponse devId since map) = some (map.rangesSince since) := by
  have hinside := (map.merged_rangesSince since).1.inside
  have hsize := map.devSize.toNat_lt
  show ((map.rangesSince since).map rangeJson).mapM readRange = _
  generalize map.rangesSince since = ranges at hinside
  induction ranges with
  | nil => rfl
  | cons r rest ih =>
    have hr := hinside r List.mem_cons_self
    rw [List.map_cons, List.mapM_cons, readRange_rangeJson (by omega),
      ih fun r hr => hinside r (List.mem_cons_of_mem _ hr)]
    rfl

theorem dumpOf_dumpResponse (devId since : UInt32) (map : EraState) :
    DumpOf map since (dumpResponse devId since map) := by
  obtain ⟨hmerged, hsum⟩ := map.merged_rangesSince since
  refine ⟨rfl, rfl, map.rangesSince since, readRanges_dumpResponse devId since map, hmerged,
    fun x hx => map.covers_rangesSince since hx, ?_⟩
  have hle := map.dirtyBytes_le since (Nat.le_refl map.nrChunks)
  have hsize := map.devSize.toNat_lt
  show some (UInt64.ofNat ((map.rangesSince since).map DirtyRange.len).sum).toNat = _
  rw [UInt64.toNat_ofNat', Nat.mod_eq_of_lt (by omega)]

/-! ## The registry -/

theorem mem_tracked {s : State} {t : Tracked} :
    t ∈ s.tracked ↔ t.managed ∈ s.devices ∧ s.mapOf t.managed.supervisor = some t.map := by
  unfold State.tracked
  rw [List.mem_filterMap]
  constructor
  · intro h
    obtain ⟨m, hm, hmap⟩ := h
    obtain ⟨map, hsup, rfl⟩ := Option.map_eq_some_iff.mp hmap
    exact ⟨hm, hsup⟩
  · intro ⟨hm, hmap⟩
    exact ⟨t.managed, hm, by rw [hmap]; rfl⟩

theorem registryInv_of_run {fs : MetaFs} {trace : List Label} {s : State}
    (h : Run Step (init fs) trace s) : RegistryInv s :=
  h.state_invariant RegistryInv (registryInv_init fs) fun _ _ _ hinv hs => hinv.step hs

theorem RegistryInv.reap {s : State} (h : RegistryInv s) : RegistryInv s.reap :=
  h.fade (Fades.refl _) rfl (reap_sublist s) (Or.inl rfl)

/-- Every registered device has an era map. -/
theorem RegistryInv.map_tracked {s : State} (h : RegistryInv s) :
    s.tracked.map (·.managed) = s.devices := by
  have hknown : ∀ m ∈ s.devices, ∃ map, s.mapOf m.supervisor = some map := by
    intro m hm
    obtain ⟨sup, hsup, -⟩ := h.known m hm
    exact ⟨sup.map, by rw [State.mapOf, hsup]; rfl⟩
  unfold State.tracked
  generalize s.devices = devices at hknown
  induction devices with
  | nil => rfl
  | cons m rest ih =>
    obtain ⟨map, hmap⟩ := hknown m List.mem_cons_self
    simp [hmap, ih fun m hm => hknown m (List.mem_cons_of_mem _ hm)]

theorem RegistryInv.keys_tracked {s : State} (h : RegistryInv s) :
    (s.tracked.map (·.managed.devId)).Nodup := by
  have hkeys := h.keys
  rw [← h.map_tracked, List.map_map] at hkeys
  exact hkeys

theorem find_eq_ok_iff {s : State} (h : RegistryInv s) {devId : UInt32} {t : Tracked} :
    find s.tracked devId = .ok t ↔ t ∈ s.tracked ∧ t.managed.devId = devId := by
  unfold find
  constructor
  · intro hfind
    split at hfind
    · rename_i found hsome
      rw [← Except.ok.inj hfind]
      exact ⟨List.mem_of_find?_eq_some hsome, by simpa using List.find?_some hsome⟩
    · cases hfind
  · intro ⟨hmem, hid⟩
    cases hsome : s.tracked.find? (·.managed.devId == devId) with
    | none =>
      have hne := List.find?_eq_none.mp hsome t hmem
      simp [hid] at hne
    | some found =>
      have hfound := List.mem_of_find?_eq_some hsome
      have hdev : found.managed.devId = devId := by simpa using List.find?_some hsome
      have hsame : found = t :=
        List.inj_on_of_nodup_map h.keys_tracked hfound hmem (hdev.trans hid.symm)
      rw [hsame]

theorem dumpOne_eq_ok_iff {t : Tracked} {since : UInt32} {generation : Option String} {v : Json} :
    dumpOne t since generation = .ok v ↔
      (∀ text ∈ generation, Spells text t.map.generation) ∧ since < t.map.currentEra ∧
        v = dumpResponse t.managed.devId since t.map := by
  unfold dumpOne
  constructor
  · intro h
    split at h
    · cases h
    · rename_i hcheck
      obtain ⟨hgen, hsince⟩ := checkCursor_eq_ok_iff.mp hcheck
      exact ⟨hgen, hsince, (Except.ok.inj h).symm⟩
  · intro ⟨hgen, hsince, hv⟩
    rw [checkCursor_eq_ok_iff.mpr ⟨hgen, hsince⟩, hv]

theorem dump_eq_ok_iff {fs : MetaFs} {trace : List Label} {s : State}
    (h : Run Step (init fs) trace s) (devId since : UInt32) (generation : Option String)
    (v : Json) :
    s.dump devId since generation = .ok v ↔
      ∃ t ∈ s.reap.tracked, t.managed.devId = devId ∧
        (∀ text ∈ generation, Spells text t.map.generation) ∧ since < t.map.currentEra ∧
        v = dumpResponse devId since t.map ∧ DumpOf t.map since v := by
  have hfind : ∀ t, find s.reap.tracked devId = .ok t ↔
      t ∈ s.reap.tracked ∧ t.managed.devId = devId :=
    fun _ => find_eq_ok_iff (registryInv_of_run h).reap
  unfold State.dump
  constructor
  · intro hok
    cases hdev : find s.reap.tracked devId with
    | error e =>
      rw [hdev] at hok
      cases hok
    | ok t =>
      obtain ⟨hmem, hid⟩ := (hfind t).mp hdev
      rw [hdev] at hok
      obtain ⟨hgen, hsince, hv⟩ := dumpOne_eq_ok_iff.mp hok
      subst hid
      exact ⟨t, hmem, rfl, hgen, hsince, hv, hv ▸ dumpOf_dumpResponse _ since t.map⟩
  · intro ⟨t, hmem, hid, hgen, hsince, hv, _⟩
    subst hid
    rw [(hfind t).mpr ⟨hmem, rfl⟩]
    exact dumpOne_eq_ok_iff.mpr ⟨hgen, hsince, hv⟩

/-- `dump` answers exactly the cursors of the history of a registered
device, and the answer is the normal form of what has changed. -/
theorem dump_iff {fs : MetaFs} {trace : List Label} {s : State}
    (h : Run Step (init fs) trace s) (devId since : UInt32) (generation : Option String)
    (v : Json) :
    s.dump devId since generation = .ok v ↔
      ∃ t ∈ s.reap.tracked, t.managed.devId = devId ∧
        (∀ text ∈ generation, Spells text t.map.generation) ∧ since < t.map.currentEra ∧
        v = dumpResponse devId since t.map ∧ DumpOf t.map since v :=
  dump_eq_ok_iff h devId since generation v

/-! ### A device of one chunk -/

def managedA : Managed :=
  { devId := 0, backing := "/dev/a", metaPath := none, metaText := "", supervisor := 0 }

/-- A device of one chunk is up, and its era 1 is to be closed. -/
theorem attached_run : ∃ trace s, Run Step (init Fs.empty) trace s ∧
    s.ctl = .checkpointing [0] ∧ s.devices = [managedA] ∧ s.reap.devices = [managedA] ∧
    s.sups 0 = some { startingA with phase := .live 0 } := by
  have hstart := @start_run "/dev/a" (init Fs.empty) rfl rfl
  have hfree : Free (fun _ => none) 0 := nofun
  have hup := hstart.snoc (.ready rfl (show _ = some startingA from rfl) rfl
    (free_spawn hfree 0 (show startingA.phase ≠ _ by decide)))
  have hcheckpoint := hup.snoc (.checkpoint rfl (show lookup _ 0 = .ok managedA from rfl))
  exact ⟨_, _, hcheckpoint, rfl, rfl, rfl, rfl⟩

/-- The chunk is written in era 1, and a consumer asks for everything. -/
theorem dump_stampedChunk : ∃ (s : State) (v : Json), s.dump 0 0 (some "+7") = .ok v ∧
    (v.index "dirty_bytes").asU64 = some 4096 ∧ DumpOf (oneChunk.fetchMax 0 1) 0 v := by
  have hstart := @start_run "/dev/a" (init Fs.empty) rfl rfl
  have hfree : Free (fun _ => none) 0 := nofun
  have hup := hstart.snoc (.ready rfl (show _ = some startingA from rfl) rfl
    (free_spawn hfree 0 (show startingA.phase ≠ _ by decide)))
  have hstamp := hup.snoc (@Step.stamp _ 0 _ 0 1
    (show _ = some { startingA with phase := .live 0 } from rfl))
  have hdump := dumpOf_dumpResponse 0 0 (oneChunk.fetchMax 0 1)
  refine ⟨_, _, (dump_iff hstamp 0 0 (some "+7") _).mpr
    ⟨{ managed := managedA, map := oneChunk.fetchMax 0 1 }, ?_, rfl, ?_, by decide, rfl, hdump⟩,
    by decide, hdump⟩
  · exact mem_tracked.mpr ⟨List.mem_singleton_self managedA, rfl⟩
  · intro text htext
    rw [← Option.some.inj htext]
    show Hex.hexadecimal ['+', '7'] = _
    decide

/-! ## The list -/

def byId (a b : Tracked) : Bool := a.managed.devId ≤ b.managed.devId

theorem byDevId_deviceStatus (a b : Tracked) :
    byId a b = byDevId (deviceStatus a) (deviceStatus b) := by
  show decide (a.managed.devId ≤ b.managed.devId)
    = decide (a.managed.devId.toUInt64 ≤ b.managed.devId.toUInt64)
  simp [UInt32.le_iff_toNat_le, UInt64.le_iff_toNat_le]

theorem listDevices_eq (tracked : List Tracked) :
    listDevices tracked = (tracked.mergeSort byId).map deviceStatus :=
  (List.map_mergeSort fun a _ b _ => byDevId_deviceStatus a b).symm

theorem pairwise_byId (tracked : List Tracked) :
    (tracked.mergeSort byId).Pairwise fun a b => a.managed.devId ≤ b.managed.devId := by
  have htrans : ∀ a b c, byId a b = true → byId b c = true → byId a c = true := by
    intro a b c hab hbc
    simp only [byId, decide_eq_true_eq] at hab hbc ⊢
    exact UInt32.le_trans hab hbc
  have htotal : ∀ a b, (byId a b || byId b a) = true := by
    intro a b
    simp only [byId, Bool.or_eq_true, decide_eq_true_eq]
    exact UInt32.le_total _ _
  refine (List.pairwise_mergeSort htrans htotal tracked).imp ?_
  intro a b h
  simpa [byId] using h

/-- Every registered device is in the list once, by its id, with its status,
whatever order the registry is iterated in. -/
theorem list_complete {fs : MetaFs} {trace : List Label} {s : State}
    (run : Run Step (init fs) trace s) :
    ∃ ts : List Tracked, (ts.Pairwise fun a b => a.managed.devId < b.managed.devId) ∧
      (ts.map (·.managed)).Perm s.reap.devices ∧
      (∀ order : List Managed, order.Perm s.reap.devices →
        listDevices { s.reap with devices := order }.tracked = ts.map deviceStatus) ∧
      ∀ t ∈ ts, s.status t.managed.devId = .ok ((deviceStatus t).set "ok" (.bool true)) := by
  have hinv := (registryInv_of_run run).reap
  have hperm := List.mergeSort_perm s.reap.tracked byId
  have hsorted := pairwise_byId s.reap.tracked
  have hkeys : ((s.reap.tracked.mergeSort byId).map (·.managed.devId)).Nodup :=
    (hperm.map _).nodup_iff.mpr hinv.keys_tracked
  refine ⟨s.reap.tracked.mergeSort byId, ?_, ?_, ?_, ?_⟩
  · have hne := List.pairwise_map.mp hkeys
    refine (hsorted.and hne).imp fun h => ?_
    rw [UInt32.lt_iff_le_and_ne]
    exact h
  · rw [← hinv.map_tracked]
    exact hperm.map _
  · intro order horder
    rw [listDevices_eq]
    congr 1
    have hsame : ({ s.reap with devices := order } : State).tracked.Perm s.reap.tracked :=
      horder.filterMap _
    have hall := (List.mergeSort_perm _ byId).trans (hsame.trans hperm.symm)
    refine hall.eq_of_pairwise ?_ (pairwise_byId _) hsorted
    intro a b ha hb hab hba
    exact List.inj_on_of_nodup_map hkeys (hall.mem_iff.mp ha) hb (UInt32.le_antisymm hab hba)
  · intro t ht
    unfold State.status
    rw [(find_eq_ok_iff hinv).mpr ⟨hperm.mem_iff.mp ht, rfl⟩]

/-- Two devices come up, one after the other. -/
theorem twoDevices_run : ∃ trace s, Run Step (init Fs.empty) trace s ∧
    s.devices.map (·.devId) = [1, 0] ∧ s.reap.devices.map (·.devId) = [1, 0] := by
  have hnone : ∀ devId, Free (fun _ => none) devId := nofun
  have hfirst := (start_run "/dev/a" (s := init Fs.empty) rfl rfl).snoc
    (.ready (i := 0) rfl (show _ = some startingA from rfl) rfl
      (free_spawn (hnone 0) 0 (show startingA.phase ≠ _ by decide)))
  have hsecond := hfirst.append (start_run "/dev/b" rfl (by decide))
  have hup := hsecond.snoc (.ready (i := 1) rfl
    (show _ = some { startingA with spec := { specA with backing := "/dev/b" } } from rfl) rfl
    (free_spawn (free_setPhase (free_spawn (hnone 1) 0 (by decide)) 0 (by decide)) 1 (by decide)))
  exact ⟨_, _, hup, rfl, rfl⟩

/-- The registry has the second one in front, and the list has it behind. -/
theorem list_twoDevices : ∃ (s : State) (a b : Tracked), s.devices.map (·.devId) = [1, 0] ∧
    a.managed.devId = 0 ∧ b.managed.devId = 1 ∧ s.list
      = .object [("ok", .bool true), ("devices", .array [deviceStatus a, deviceStatus b])] := by
  obtain ⟨trace, s, run, hdevices, hreap⟩ := twoDevices_run
  obtain ⟨ts, hsorted, hperm, horder, -⟩ := list_complete run
  have hids : ts.map (·.managed.devId) = [0, 1] := by
    have hle : (ts.map (·.managed.devId)).Pairwise (· ≤ ·) :=
      List.pairwise_map.mpr (hsorted.imp fun h => UInt32.le_of_lt h)
    have hswap := hperm.map (·.devId)
    rw [List.map_map, hreap] at hswap
    exact List.Perm.eq_of_pairwise' hle (by decide) (hswap.trans (List.Perm.swap 0 1 []))
  obtain ⟨a, rest, rfl, ha, hrest⟩ := List.map_eq_cons_iff.mp hids
  obtain ⟨b, rest, rfl, hb, hnil⟩ := List.map_eq_cons_iff.mp hrest
  obtain rfl := List.map_eq_nil_iff.mp hnil
  have hlist := horder s.reap.devices (List.Perm.refl _)
  refine ⟨s, a, b, hdevices, ha, hb, ?_⟩
  rw [State.list, hlist]
  rfl

/-! ## The map of a supervisor over a run -/

def Label.closes (i : Nat) : Label → Bool
  | .closeEra j _ => j = i
  | _ => false

/-- What the threads of the daemon do to the map of one device. -/
structure Grows (a b : EraState) : Prop where
  granularity : b.granularity = a.granularity
  devSize : b.devSize = a.devSize
  generation : b.generation = a.generation
  era : ∀ c, a.era c ≤ b.era c

theorem Grows.refl (a : EraState) : Grows a a := ⟨rfl, rfl, rfl, fun _ => UInt32.le_refl _⟩

theorem Grows.trans {a b c : EraState} (h : Grows a b) (h' : Grows b c) : Grows a c :=
  ⟨h'.granularity.trans h.granularity, h'.devSize.trans h.devSize,
    h'.generation.trans h.generation, fun i => UInt32.le_trans (h.era i) (h'.era i)⟩

@[simp] theorem mapOf_setPhase (s : State) (i j : Nat) (phase : Phase) :
    (s.setPhase i phase).mapOf j = s.mapOf j := by
  unfold State.mapOf State.setPhase
  by_cases hj : j = i
  · subst hj
    simp [Function.comp_def]
  · simp [Function.update_of_ne hj]

@[simp] theorem mapOf_deleteDevice (s : State) (devId : UInt32) (j : Nat) :
    (s.deleteDevice devId).mapOf j = s.mapOf j := by
  unfold State.mapOf State.deleteDevice
  rw [Option.map_map]
  congr 1
  funext sup
  simp only [Function.comp_apply]
  split
  · rfl
  · rfl

theorem mapOf_withSave (s : State) (fs : MetaFs) (pc : SavePc) (t : Thread) (j : Nat) :
    (s.withSave fs pc t).mapOf j = s.mapOf j := by
  cases t with
  | ctl => rfl
  | sup i => exact mapOf_setPhase s i j (.gone pc)

theorem mapOf_setMap {s : State} {i : Nat} {sup : Supervisor} (found : s.sups i = some sup)
    (map : EraState) (j : Nat) :
    (s.setMap i map).mapOf j = if j = i then some map else s.mapOf j := by
  unfold State.mapOf State.setMap
  by_cases hj : j = i
  · subst hj
    simp [found]
  · simp [hj]

/-- A step changes the map of a supervisor by a stamp or by a checkpoint. -/
theorem mapOf_step {s t : State} {l : Label} (hinv : RegistryInv s) (hs : Step s l t) {i : Nat}
    {a : EraState} (h : s.mapOf i = some a) :
    ∃ b, t.mapOf i = some b ∧ Grows a b ∧
      b.currentEra = a.currentEra + if l.closes i then 1 else 0 := by
  have hkeep : ∀ {u : State}, u.mapOf i = s.mapOf i → l.closes i = false →
      ∃ b, u.mapOf i = some b ∧ Grows a b ∧
        b.currentEra = a.currentEra + if l.closes i then 1 else 0 := by
    intro u hu hl
    exact ⟨a, hu.trans h, Grows.refl a, by simp [hl]⟩
  cases hs with
  | addRefused | add | addFailed | spawnFailed | timeout | list | checkpoint | checkpointUnknown
  | checkpointAll | saved | answer | delFailed | delUnknown | joined | shutdownAll =>
    exact hkeep rfl rfl
  | save running move => exact hkeep (mapOf_withSave s _ _ _ i) rfl
  | spawn adding marked =>
    refine hkeep ?_ rfl
    have hne : i ≠ s.next := by
      intro hi
      unfold State.mapOf at h
      rw [hinv.unspawned i (by omega)] at h
      cases h
    show (Function.update s.sups s.next _ i).map _ = _
    rw [Function.update_of_ne hne]
    rfl
  | ready | lateUp | startFailed | runFailed | externalDelete | exit =>
    exact hkeep (mapOf_setPhase s _ i _) rfl
  | del turn found => exact hkeep (mapOf_deleteDevice s.reap _ i) rfl
  | @stamp j sup chunk era found =>
    rw [mapOf_setMap found]
    by_cases hj : i = j
    · subst hj
      obtain rfl : sup.map = a := by
        unfold State.mapOf at h
        rw [found] at h
        exact Option.some.inj h
      rw [if_pos rfl]
      exact ⟨_, rfl, ⟨rfl, rfl, rfl, fun c => sup.map.era_le_fetchMax chunk c era⟩,
        by simp [Label.closes]⟩
    · rw [if_neg hj]
      exact hkeep rfl rfl
  | @closeEra j sup targets turn found =>
    show ∃ b, (s.setMap j sup.map.checkpoint.1).mapOf i = some b ∧ _
    rw [mapOf_setMap found]
    by_cases hj : i = j
    · subst hj
      obtain rfl : sup.map = a := by
        unfold State.mapOf at h
        rw [found] at h
        exact Option.some.inj h
      rw [if_pos rfl]
      exact ⟨_, rfl, ⟨rfl, rfl, rfl, fun _ => UInt32.le_refl _⟩, by simp [Label.closes]⟩
    · rw [if_neg hj]
      exact ⟨a, h, Grows.refl a, by simp [Label.closes, Ne.symm hj]⟩

/-- Over a run the era counter goes up by the checkpoints, as long as it does
not wrap. -/
theorem mapOf_run {s t : State} {trace : List Label} (hinv : RegistryInv s)
    (run : Run Step s trace t) {i : Nat} {a : EraState} (h : s.mapOf i = some a)
    (hbound : a.currentEra.toNat + trace.countP (·.closes i) < 2 ^ 32) :
    RegistryInv t ∧ ∃ b, t.mapOf i = some b ∧ Grows a b ∧
      b.currentEra.toNat = a.currentEra.toNat + trace.countP (·.closes i) := by
  induction run with
  | nil => exact ⟨hinv, a, h, Grows.refl a, rfl⟩
  | @snoc trace t u l run last ih =>
    rw [List.countP_append, List.countP_singleton] at hbound ⊢
    obtain ⟨hinv', b, hb, hgrows, hera⟩ := ih (by omega)
    obtain ⟨c, hc, hgrows', hera'⟩ := mapOf_step hinv' last hb
    refine ⟨hinv'.step last, c, hc, hgrows.trans hgrows', ?_⟩
    rw [hera', UInt32.toNat_add, hera]
    have hone : (1 : UInt32).toNat = 1 := rfl
    have hzero : (0 : UInt32).toNat = 0 := rfl
    split
    · rename_i hl
      rw [if_pos hl] at hbound
      omega
    · omega

/-- The cursor of a checkpoint is answered in the rest of the run, and a
cursor of another history is not. -/
theorem cursor_accepted {fs : MetaFs} {before after : List Label} {s t u : State} {i : Nat}
    {closed : UInt32} {m : Managed} (run : Run Step (init fs) before s)
    (close : Step s (.closeEra i closed) t) (later : Run Step t after u)
    (nowrap : closed.toNat + 1 + after.countP (·.closes i) < 2 ^ 32)
    (registered : m ∈ u.reap.devices) (serves : m.supervisor = i) :
    ∃ map map' v, s.mapOf i = some map ∧ map.currentEra = closed ∧
      u.mapOf i = some map' ∧ Grows map map' ∧
      u.dump m.devId closed (some (generationText map.generation)) = .ok v ∧
      DumpOf map' closed v ∧
      ∀ text generation, Spells text generation → generation ≠ map.generation →
        ∀ w, u.dump m.devId closed (some text) ≠ .ok w := by
  have hinv := registryInv_of_run run
  obtain ⟨map, hmap, rfl⟩ : ∃ map, s.mapOf i = some map ∧ map.currentEra = closed := by
    cases close with
    | closeEra turn found => exact ⟨_, by rw [State.mapOf, found]; rfl, rfl⟩
  obtain ⟨next, hnext, hgrows, hera⟩ := mapOf_step hinv close hmap
  have hone : (1 : UInt32).toNat = 1 := rfl
  have hcurrent : next.currentEra.toNat = map.currentEra.toNat + 1 := by
    rw [hera]
    simp only [Label.closes, decide_true, if_true, UInt32.toNat_add]
    omega
  obtain ⟨hinv', map', hmap', hgrows', hera'⟩ := mapOf_run (hinv.step close) later hnext (by omega)
  have hall := hgrows.trans hgrows'
  have hwhole : Run Step (init fs) (before ++ [.closeEra i map.currentEra] ++ after) u :=
    (run.snoc close).append later
  -- the registered entry is the one with this map
  have htracked : { managed := m, map := map' : Tracked } ∈ u.reap.tracked :=
    mem_tracked.mpr ⟨registered, by rw [serves]; exact hmap'⟩
  have hsince : map.currentEra < map'.currentEra := by
    rw [UInt32.lt_iff_toNat_lt]
    omega
  have hspells : ∀ text ∈ some (generationText map.generation), Spells text map'.generation := by
    intro text htext
    rw [← Option.some.inj htext, hall.generation]
    exact spells_generationText map.generation
  have hdump := dumpOf_dumpResponse m.devId map.currentEra map'
  refine ⟨map, map', dumpResponse m.devId map.currentEra map', hmap, rfl, hmap', hall, ?_, hdump, ?_⟩
  · exact (dump_eq_ok_iff hwhole _ _ _ _).mpr ⟨_, htracked, rfl, hspells, hsince, rfl, hdump⟩
  · intro text generation hother hne w hok
    obtain ⟨other, hmem, hid, hgen, -⟩ := (dump_eq_ok_iff hwhole _ _ _ _).mp hok
    have hsame : other = { managed := m, map := map' } :=
      List.inj_on_of_nodup_map hinv'.reap.keys_tracked hmem htracked hid
    subst hsame
    exact hne ((hother.unique (hgen text rfl)).trans hall.generation)

/-- The cursor of the first checkpoint, after its answer. -/
theorem cursor_accepted_oneChunk :
    ∃ (u : State) (v : Json), u.dump 0 1 (some (generationText 7)) = .ok v ∧
      DumpOf oneChunk.checkpoint.1 1 v := by
  obtain ⟨trace, s, run, hctl, hdevices, -, hsup⟩ := attached_run
  have hclose : Step s (.closeEra 0 1)
      { s.setMap 0 oneChunk.checkpoint.1 with ctl := .checkpointing [] } := .closeEra hctl hsup
  have hlater := Run.single (@Step.answer { s.setMap 0 oneChunk.checkpoint.1 with
    ctl := .checkpointing [] } rfl)
  have hfinished : finished (s.setMap 0 oneChunk.checkpoint.1).sups 0 = false := by
    simp [finished, State.setMap, hsup]
  have hreap : managedA ∈ s.devices.filter fun m =>
      !finished (s.setMap 0 oneChunk.checkpoint.1).sups m.supervisor := by
    rw [hdevices]
    simp [managedA, hfinished]
  obtain ⟨map, map', v, hmap, -, hmap', -, hdump, hof, -⟩ := cursor_accepted run hclose hlater
    (by decide) hreap rfl
  have hold : s.mapOf 0 = some oneChunk := by
    rw [State.mapOf, hsup]
    rfl
  have hnew : some oneChunk.checkpoint.1 = some map' := by
    rw [← hmap']
    exact (mapOf_setMap hsup oneChunk.checkpoint.1 0).symm
  obtain rfl := Option.some.inj (hold.symm.trans hmap)
  obtain rfl := Option.some.inj hnew
  exact ⟨_, v, hdump, hof⟩

end Manager

end Ublkera
