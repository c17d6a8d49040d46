import Ublkera.Meta.Save

/-!
# The device manager

`DeviceManager` keeps a registry of attached devices, and every device has a
supervisor thread of its own.  Three things are updated at different times:
the registry, the supervisors, and the metadata files.  `Step` is the ctl
thread, all supervisors and the outside world at once.

* The ctl thread runs one command at a time.  `Ctl` says where it stands: in
  the attach marker of an `add`, waiting for the supervisor that it has
  started, in a checkpoint save, or waiting for a supervisor to exit.
* A supervisor starts its device, serves it, and runs its final save when
  the device is gone.  It may come up late, when `add` has given up on it.
* The device may be deleted by another tool at any time.

Two pairs of actions are one step each: the report of a supervisor that is
ready and the insertion into the registry, and the removal of `del` from the
registry and its `del_dev`.  No command sees the moment between the two, as
the ctl thread is busy in it.  `checkpoint_all` and `shutdown_all` take the
registered devices in any order of the `HashMap`.

`Ublkera.Daemon.Registry` is about the registry, and `Ublkera.Daemon.Marker`
is about the files.
-/

namespace Ublkera

namespace Manager

open LittleEndian PosixFs Trace

/-! ## Data -/

structure DeviceSpec where
  backing : String
  granularity : UInt64 := 65536
  /-- The entry that `meta` leads to. -/
  metaPath : Option MetaPath := none
  /-- `meta` as it is spelled. -/
  metaText : String := ""
  devId : Int := -1
  deriving DecidableEq

/-- An entry of the registry.  The era map is the one of the supervisor. -/
structure Managed where
  devId : UInt32
  backing : String
  metaPath : Option MetaPath
  metaText : String
  supervisor : Nat
  deriving DecidableEq

inductive Phase where
  /-- `supervise_device` before `device_ready`. -/
  | starting
  /-- The device is up. -/
  | live (devId : UInt32)
  /-- The device is gone; `pc` is the final save. -/
  | gone (pc : SavePc)
  | exited
  deriving DecidableEq

/-- A write may land on the device. -/
def Phase.mayServe : Phase → Bool
  | .starting | .live _ => true
  | _ => false

structure Supervisor where
  spec : DeviceSpec
  map : EraState
  phase : Phase

inductive Ctl where
  | idle
  /-- `add` before the supervisor is spawned; `pc` is the attach marker, when
  there is a metadata path. -/
  | adding (spec : DeviceSpec) (map : EraState) (recovered : Bool) (pc : Option SavePc)
  /-- `recv_timeout`. -/
  | waiting (sup : Nat) (recovered : Bool)
  /-- A checkpoint before the next of its targets. -/
  | checkpointing (targets : List Nat)
  /-- The save of a checkpoint. -/
  | saving (sup : Nat) (pc : SavePc) (targets : List Nat)
  /-- `supervisor.join()`; `ids` are the devices that `shutdown_all` still
  has to detach. -/
  | joining (sup : Nat) (ids : List UInt32)
  | detaching (ids : List UInt32)

structure State where
  fs : MetaFs
  devices : List Managed
  sups : Nat → Option Supervisor
  /-- The number of supervisors that were ever spawned. -/
  next : Nat
  ctl : Ctl

/-- The threads that save metadata. -/
inductive Thread where
  | ctl
  | sup (i : Nat)
  deriving DecidableEq

/-! ## The registry -/

/-- `lookup`. -/
def lookup (devices : List Managed) (devId : UInt32) : Except String Managed :=
  match devices.find? (·.devId == devId) with
  | some m => .ok m
  | none => .error s!"device {devId} is not managed by this daemon"

def remove (devices : List Managed) (devId : UInt32) : List Managed :=
  devices.filter (·.devId != devId)

/-- `HashMap::insert`. -/
def insert (devices : List Managed) (m : Managed) : List Managed :=
  m :: remove devices m.devId

/-- `JoinHandle::is_finished`. -/
def finished (sups : Nat → Option Supervisor) (i : Nat) : Bool :=
  match sups i with
  | some sup => sup.phase = .exited
  | none => true

/-- `DeviceManager::reap`. -/
def State.reap (s : State) : State :=
  { s with devices := s.devices.filter fun m => !finished s.sups m.supervisor }

/-! ## Attaching -/

/-- What `add` finds outside the daemon. -/
structure AddEnv where
  /-- `/dev/ublkc{id}` exists. -/
  idInUse : Bool
  /-- The `open` of the backing. -/
  opened : Except String Unit
  /-- `target::backing_size`. -/
  devSize : Except String UInt64
  urandom : Except String UInt64

/-- The checks of `add`; the result is the device size. -/
def checkAdd (devices : List Managed) (spec : DeviceSpec) (env : AddEnv) :
    Except String UInt64 :=
  if 0 ≤ spec.devId ∧ env.idInUse then
    .error s!"ublk device id {spec.devId} is already in use (/dev/ublkc{spec.devId} exists)"
  else
    match env.opened with
    | .error e => .error s!"open backing '{spec.backing}': {e}"
    | .ok () =>
      match env.devSize with
      | .error e => .error e
      | .ok devSize =>
        if devSize = 0 ∨ devSize % 512 ≠ 0 then
          .error s!"backing size {devSize} must be a non-zero multiple of 512"
        else if devices.any (·.backing == spec.backing) then
          .error s!"'{spec.backing}' is already attached"
        else .ok devSize

/-- The era map that `add` starts with, and `recovered_unclean`. -/
def addState (spec : DeviceSpec) (file : Option Bytes) (devSize : UInt64)
    (urandom : Except String UInt64) : Except String (EraState × Bool) :=
  match spec.metaPath, file with
  | some _, some raw =>
    match EraState.load spec.metaText (.ok raw) devSize spec.granularity urandom with
    | .ok (map, clean) => .ok (map.recover clean, !clean)
    | .error e => .error e
  | _, _ =>
    match EraState.new devSize spec.granularity urandom with
    | .ok map => .ok (map, false)
    | .error e => .error e

/-- `add` up to the attach marker. -/
def beginAdd (s : State) (spec : DeviceSpec) (env : AddEnv) :
    Except String (EraState × Bool) :=
  match checkAdd s.devices spec env with
  | .error e => .error e
  | .ok devSize => addState spec (spec.metaPath.bind s.fs.read) devSize env.urandom

/-! ## The threads -/

def State.setPhase (s : State) (i : Nat) (phase : Phase) : State :=
  { s with sups := Function.update s.sups i ((s.sups i).map fun sup => { sup with phase }) }

def State.setMap (s : State) (i : Nat) (map : EraState) : State :=
  { s with sups := Function.update s.sups i ((s.sups i).map fun sup => { sup with map }) }

/-- `del_dev`: the device with this id goes away. -/
def State.deleteDevice (s : State) (devId : UInt32) : State :=
  { s with
    sups := fun i => (s.sups i).map fun sup =>
      if sup.phase = .live devId then { sup with phase := .gone .create } else sup }

/-- The save that a thread runs: its path, its flag, its map, and where it
stands. -/
def State.save (s : State) : Thread → Option (MetaPath × Bool × EraState × SavePc)
  | .ctl =>
    match s.ctl with
    | .adding spec map _ (some pc) => spec.metaPath.map (·, false, map, pc)
    | .saving i pc _ =>
      (s.sups i).bind fun sup => sup.spec.metaPath.map (·, false, sup.map, pc)
    | _ => none
  | .sup i =>
    (s.sups i).bind fun sup =>
      match sup.phase with
      | .gone pc => sup.spec.metaPath.map (·, true, sup.map, pc)
      | _ => none

def Ctl.withSave (pc : SavePc) : Ctl → Ctl
  | .adding spec map recovered (some _) => .adding spec map recovered (some pc)
  | .saving i _ targets => .saving i pc targets
  | ctl => ctl

def State.withSave (s : State) (fs : MetaFs) (pc : SavePc) : Thread → State
  | .ctl => { s with fs, ctl := s.ctl.withSave pc }
  | .sup i => { s.setPhase i (.gone pc) with fs }

/-- An `add` that waits for the supervisor `i` goes on with `next`. -/
def Ctl.release (ctl : Ctl) (i : Nat) (next : Ctl) : Ctl :=
  match ctl with
  | .waiting j recovered => if j = i then next else .waiting j recovered
  | _ => ctl

/-- What the ctl thread goes on with after a `del`. -/
def Ctl.after : List UInt32 → Ctl
  | [] => .idle
  | ids => .detaching ids

/-- It is the turn of `del(devId)`, as a command or for `shutdown_all`. -/
def Turn (ctl : Ctl) (devId : UInt32) (ids : List UInt32) : Prop :=
  (ctl = .idle ∧ ids = []) ∨ ctl = .detaching (devId :: ids)

inductive Label where
  | addRefused (e : String)
  | add (spec : DeviceSpec)
  | addFailed
  | save (t : Thread) (l : SaveLabel)
  | spawn
  | ready (devId : UInt32) (recovered : Bool)
  | startFailed (i : Nat)
  | runFailed (i : Nat)
  | timeout
  | lateUp (i : Nat) (devId : UInt32)
  | stamp (i : Nat)
  | externalDelete (i : Nat)
  | exit (i : Nat)
  | list
  | checkpoint
  | closeEra (i : Nat) (closed : UInt32)
  | answer
  | del (devId : UInt32)
  | delFailed (devId : UInt32)
  | delUnknown (e : String)
  | joined
  | shutdownAll
  deriving DecidableEq

inductive Step : State → Label → State → Prop where
  | addRefused {s : State} {spec : DeviceSpec} {env : AddEnv} {e : String}
      (idle : s.ctl = .idle) (refused : beginAdd s.reap spec env = .error e) :
      Step s (.addRefused e) s.reap
  | add {s : State} {spec : DeviceSpec} {env : AddEnv} {map : EraState} {recovered : Bool}
      (idle : s.ctl = .idle) (begin : beginAdd s.reap spec env = .ok (map, recovered)) :
      Step s (.add spec)
        { s.reap with
          ctl := .adding spec map recovered (spec.metaPath.map fun _ => .create) }
  /-- The attach marker could not be written. -/
  | addFailed {s : State} {spec : DeviceSpec} {map : EraState} {recovered : Bool}
      {buf : Option Bytes} (adding : s.ctl = .adding spec map recovered (some (.failed buf))) :
      Step s .addFailed { s with ctl := .idle }
  /-- Any step of any save. -/
  | save {s : State} {t : Thread} {path : MetaPath} {clean : Bool} {map : EraState}
      {pc pc' : SavePc} {l : SaveLabel} {fs : MetaFs}
      (running : s.save t = some (path, clean, map, pc))
      (move : SaveStep path clean map s.fs pc l fs pc') :
      Step s (.save t l) (s.withSave fs pc' t)
  | spawn {s : State} {spec : DeviceSpec} {map : EraState} {recovered : Bool}
      {pc : Option SavePc} (adding : s.ctl = .adding spec map recovered pc)
      (marked : pc = none ∨ ∃ buf, pc = some (.ok buf)) :
      Step s .spawn
        { s with
          sups := Function.update s.sups s.next (some { spec, map, phase := .starting })
          next := s.next + 1
          ctl := .waiting s.next recovered }
  /-- `thread::Builder::spawn` failed. -/
  | spawnFailed {s : State} {spec : DeviceSpec} {map : EraState} {recovered : Bool}
      {pc : Option SavePc} (adding : s.ctl = .adding spec map recovered pc)
      (marked : pc = none ∨ ∃ buf, pc = some (.ok buf)) :
      Step s .addFailed { s with ctl := .idle }
  /-- The supervisor reports in time, and its device is registered.  The
  driver gives no id to two devices at a time. -/
  | ready {s : State} {i : Nat} {sup : Supervisor} {recovered : Bool} {devId : UInt32}
      (waiting : s.ctl = .waiting i recovered) (found : s.sups i = some sup)
      (starting : sup.phase = .starting)
      (free : ∀ j other, s.sups j = some other → other.phase ≠ .live devId) :
      Step s (.ready devId recovered)
        { s.setPhase i (.live devId) with
          devices := insert s.devices
            { devId, backing := sup.spec.backing, metaPath := sup.spec.metaPath
              metaText := sup.spec.metaText, supervisor := i }
          ctl := .idle }
  /-- The control device could not be created, or the supervisor
  panicked. -/
  | startFailed {s : State} {i : Nat} {sup : Supervisor} (found : s.sups i = some sup)
      (starting : sup.phase = .starting) :
      Step s (.startFailed i)
        { s.setPhase i .exited with ctl := s.ctl.release i .idle }
  /-- `run_target` failed; the supervisor goes on to its final save. -/
  | runFailed {s : State} {i : Nat} {sup : Supervisor} (found : s.sups i = some sup)
      (starting : sup.phase = .starting) :
      Step s (.runFailed i)
        { s.setPhase i (.gone .create) with ctl := s.ctl.release i (.joining i []) }
  /-- The device did not come up within 15 s. -/
  | timeout {s : State} {i : Nat} {recovered : Bool} (waiting : s.ctl = .waiting i recovered) :
      Step s .timeout { s with ctl := .idle }
  /-- The device comes up when `add` has given up. -/
  | lateUp {s : State} {i : Nat} {sup : Supervisor} {devId : UInt32}
      (found : s.sups i = some sup) (starting : sup.phase = .starting)
      (late : ∀ recovered, s.ctl ≠ .waiting i recovered)
      (free : ∀ j other, s.sups j = some other → other.phase ≠ .live devId) :
      Step s (.lateUp i devId) (s.setPhase i (.live devId))
  /-- One `fetch_max` of a `mark_write`. -/
  | stamp {s : State} {i : Nat} {sup : Supervisor} {chunk : Nat} {era : UInt32}
      (found : s.sups i = some sup) :
      Step s (.stamp i) (s.setMap i (sup.map.fetchMax chunk era))
  /-- Another tool deletes the device, or the device dies. -/
  | externalDelete {s : State} {i : Nat} {sup : Supervisor} {devId : UInt32}
      (found : s.sups i = some sup) (live : sup.phase = .live devId) :
      Step s (.externalDelete i) (s.setPhase i (.gone .create))
  | exit {s : State} {i : Nat} {sup : Supervisor} {pc : SavePc} (found : s.sups i = some sup)
      (gone : sup.phase = .gone pc) (saved : sup.spec.metaPath = none ∨ pc.returned = true) :
      Step s (.exit i) (s.setPhase i .exited)
  /-- `list`, `status`, `dump` and `resolve` change nothing but what `reap`
  does. -/
  | list {s : State} (idle : s.ctl = .idle) : Step s .list s.reap
  | checkpoint {s : State} {devId : UInt32} {m : Managed} (idle : s.ctl = .idle)
      (found : lookup s.reap.devices devId = .ok m) :
      Step s .checkpoint { s.reap with ctl := .checkpointing [m.supervisor] }
  | checkpointUnknown {s : State} {devId : UInt32} {e : String} (idle : s.ctl = .idle)
      (unknown : lookup s.reap.devices devId = .error e) : Step s .checkpoint s.reap
  | checkpointAll {s : State} {order : List Managed} (idle : s.ctl = .idle)
      (perm : order.Perm s.reap.devices) :
      Step s .checkpoint { s.reap with ctl := .checkpointing (order.map (·.supervisor)) }
  /-- `checkpoint_one` up to its save. -/
  | closeEra {s : State} {i : Nat} {sup : Supervisor} {targets : List Nat}
      (turn : s.ctl = .checkpointing (i :: targets)) (found : s.sups i = some sup) :
      Step s (.closeEra i sup.map.currentEra)
        { s.setMap i sup.map.checkpoint.1 with
          ctl := if sup.spec.metaPath.isSome then .saving i .create targets
            else .checkpointing targets }
  | saved {s : State} {i : Nat} {pc : SavePc} {targets : List Nat}
      (saving : s.ctl = .saving i pc targets) (returned : pc.returned = true) :
      Step s .answer { s with ctl := .checkpointing targets }
  | answer {s : State} (done : s.ctl = .checkpointing []) : Step s .answer { s with ctl := .idle }
  | del {s : State} {devId : UInt32} {m : Managed} {ids : List UInt32}
      (turn : Turn s.ctl devId ids) (found : lookup s.reap.devices devId = .ok m) :
      Step s (.del devId)
        { s.reap.deleteDevice devId with
          devices := remove s.reap.devices devId, ctl := .joining m.supervisor ids }
  /-- `del_dev` returned an error. -/
  | delFailed {s : State} {devId : UInt32} {m : Managed} {ids : List UInt32}
      (turn : Turn s.ctl devId ids) (found : lookup s.reap.devices devId = .ok m) :
      Step s (.delFailed devId)
        { s.reap with devices := remove s.reap.devices devId, ctl := .after ids }
  | delUnknown {s : State} {devId : UInt32} {ids : List UInt32} {e : String}
      (turn : Turn s.ctl devId ids) (unknown : lookup s.reap.devices devId = .error e) :
      Step s (.delUnknown e) { s.reap with ctl := .after ids }
  | joined {s : State} {i : Nat} {ids : List UInt32} (joining : s.ctl = .joining i ids)
      (exited : finished s.sups i = true) : Step s .joined { s with ctl := .after ids }
  | shutdownAll {s : State} {order : List Managed} (idle : s.ctl = .idle)
      (perm : order.Perm s.devices) :
      Step s .shutdownAll { s with ctl := .after (order.map (·.devId)) }

/-- The daemon starts with an empty registry, on the files that earlier ones
have left. -/
def init (fs : MetaFs) : State :=
  { fs, devices := [], sups := fun _ => none, next := 0, ctl := .idle }

end Manager

end Ublkera
