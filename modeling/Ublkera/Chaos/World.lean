import Ublkera.Chaos.Harness
import Ublkera.Daemon.Responses

/-!
# The world of the harness

A daemon that serves one request at a time, with one device at most, on a
driver and a file system that work: `serve` says which answers a call gets.
The commands are made of the functions that the other modules are about, with
what the source does between two requests: the attach marker, the save of a
checkpoint and the final save are on the disk when the response is there.

A write is cut into requests, and each of them marks its chunks and lands.
The writer threads run until the SIGKILL: every one has done some of its
writes, in its own order, and parts of the next one may have landed.  A fresh
history draws a generation that no history has had.

Beside this, any call may fail for reasons of its own (`Faulted`), which
the world remembers.
-/

namespace Ublkera

namespace Chaos

open LittleEndian Effect WriteCache Manager

structure World where
  backing : Bytes
  metaFile : Option Bytes
  daemon : Bool
  attached : Option Tracked
  /-- The generations that were drawn. -/
  used : List UInt64
  /-- The writer threads that run, and the size of their slices. -/
  slice : Nat
  writers : List Writer
  /-- What the writer threads that have stopped return. -/
  logs : List WriterLog
  /-- A call has failed for reasons of its own. -/
  faulted : Bool

/-! ## The device -/

/-- What the block device takes. -/
structure Taken (w : World) (off len : Nat) : Prop where
  attached : w.attached.isSome = true
  alignedOff : 4096 ∣ off
  alignedLen : 4096 ∣ len
  inRange : off + len ≤ w.backing.length

/-- The requests of a write: whole sectors, in any order. -/
structure Lands (e : Entry) (pieces : List Entry) : Prop where
  parts : ∀ p, p ∈ pieces → Part 512 e p
  filled : ∀ x, e.off ≤ x → x < e.stop → ∃ p, p ∈ pieces ∧ p.off ≤ x ∧ x < p.stop

/-- One request of a write. -/
def mark (map : EraState) (p : Entry) : EraState :=
  map.markWrite (UInt64.ofNat p.off) (UInt64.ofNat p.data.length)

def World.write (w : World) (pieces : List Entry) : World :=
  { w with
    backing := overwriteAll w.backing pieces
    attached := w.attached.map fun t => { t with map := pieces.foldl mark t.map } }

/-! ## The writer threads -/

/-- What a writer thread has done: its log, and what has landed. -/
def Wrote (slice : Nat) (w : Writer) (log : WriterLog) (entries : List Entry) : Prop :=
  ∃ (n : Nat) (pieces : List (List Entry)) (torn : List Entry),
    log.ok = (w.run slice n).1 ∧ List.Forall₂ Lands log.ok pieces ∧
    entries = pieces.flatten ++ torn ∧
    ((log.undefined = [] ∧ torn = []) ∨
      log.undefined = [(((w.run slice n).2.next slice).1.off,
        ((w.run slice n).2.next slice).1.data.length)] ∧
      ∀ p, p ∈ torn → Part 512 ((w.run slice n).2.next slice).1 p)

/-- The requests of one thread. -/
def lane (i : Nat) (events : List (Nat × Entry)) : List Entry :=
  (events.filter fun e => e.1 = i).map (·.2)

/-- The threads have run side by side. -/
def Raced (slice : Nat) (writers : List Writer) (logs : List WriterLog)
    (events : List (Nat × Entry)) : Prop :=
  logs.length = writers.length ∧
    (∀ i w log, writers[i]? = some w → logs[i]? = some log → Wrote slice w log (lane i events)) ∧
    ∀ i, writers.length ≤ i → lane i events = []

/-! ## The commands of the daemon -/

/-- The path of the metadata file is read. -/
def World.metaOf (w : World) (path : Option MetaPath) : Option Bytes := path.bind fun _ => w.metaFile

/-- A save to the path, when there is one. -/
def World.save (w : World) (path : Option MetaPath) (map : EraState) (clean : Bool) : World :=
  match path with
  | none => w
  | some _ => { w with metaFile := some (map.metaBytes clean) }

/-- `add`, with the generation that it draws and the id that the driver
gives. -/
def World.add (w : World) (spec : DeviceSpec) (g : UInt64) (devId : UInt32) :
    Except String Json × World :=
  let env : AddEnv :=
    { idInUse := false, opened := .ok (), devSize := .ok (UInt64.ofNat w.backing.length)
      urandom := .ok g }
  match checkAdd (w.attached.toList.map (·.managed)) spec env with
  | .error e => (.error e, w)
  | .ok devSize =>
    match addState spec (w.metaOf spec.metaPath) devSize env.urandom with
    | .error e => (.error e, w)
    | .ok (map, recovered) =>
      let managed : Managed :=
        { devId, backing := spec.backing, metaPath := spec.metaPath, metaText := spec.metaText
          supervisor := 0 }
      (.ok (addResponse devId spec devSize map recovered),
        { w.save spec.metaPath map false with
          attached := some { managed, map }, used := g :: w.used })

def World.checkpoint (w : World) (t : Tracked) : Json × World :=
  let (map, eras) := t.map.checkpoint
  (checkpointResponse t.managed eras (t.managed.metaPath.map fun _ => .ok ()),
    { w.save t.managed.metaPath map false with attached := some { t with map } })

/-- The device is deleted, and its final save is done. -/
def World.del (w : World) (t : Tracked) : Json × World :=
  (delResponse t.managed, { w.save t.managed.metaPath t.map true with attached := none })

/-- `shutdown`, and the end of the daemon. -/
def World.shutdown (w : World) : World :=
  { (match w.attached with
      | some t => (w.del t).2
      | none => w) with daemon := false }

variable (canonical : String → Option String)

/-- The device that a request is for. -/
def World.found (w : World) (target : Target) : Except String Tracked :=
  match resolve canonical (w.attached.toList.map (·.managed)) target with
  | .error e => .error e
  | .ok devId => find w.attached.toList devId

/-- A request to the device that it is for. -/
def World.at (w : World) (target : Target) (f : Tracked → Except String Json × World) :
    Except String Json × World :=
  match w.found canonical target with
  | .error e => (.error e, w)
  | .ok t => f t

/-- What the daemon answers, and the state that it leaves. -/
def World.command (w : World) : Serve.Request → Except String Json → World → Prop
  | .add spec, r, w' => ∃ g devId, g ∉ w.used ∧ w.add spec g devId = (r, w')
  | .del target, r, w' => w.at canonical target (fun t => (.ok (w.del t).1, (w.del t).2)) = (r, w')
  | .list, r, w' =>
    r = .ok (.object [("ok", .bool true), ("devices", .array (listDevices w.attached.toList))]) ∧
      w' = w
  | .status target, r, w' =>
    w.at canonical target (fun t => (.ok ((deviceStatus t).set "ok" (.bool true)), w)) = (r, w')
  | .checkpoint target, r, w' =>
    w.at canonical target (fun t => (.ok (w.checkpoint t).1, (w.checkpoint t).2)) = (r, w')
  | .checkpointAll, r, w' =>
    let done := w.attached.map w.checkpoint
    r = .ok (.object [("ok", .bool true), ("devices", .array (done.toList.map (·.1)))]) ∧
      w' = (done.map (·.2)).getD w
  | .dump target since generation, r, w' =>
    w.at canonical target (fun t => (dumpOne t since generation, w)) = (r, w')
  | .shutdown, r, w' => r = .ok (.object [("ok", .bool true), ("shutdown", .bool true)]) ∧
      w' = w.shutdown

/-! ## The answers -/

/-- The device with this id is there. -/
def World.present (w : World) (devId : UInt64) : Bool :=
  w.attached.any fun t => t.managed.devId.toUInt64 = devId

/-- What a call gets when nothing goes wrong outside the daemon and the
harness.  An error is an answer to what the harness must not do, or a request
that the daemon refuses. -/
def serve (w : World) : (c : Call) → c.Answer → World → Prop
  | .createBacking size, .ok (), w' => w' = { w with backing := List.replicate size.toNat 0 }
  | .startDaemon, .ok (), w' => w.daemon = false ∧ w' = { w with daemon := true }
  | .startDaemon, .error _, w' => w.daemon = true ∧ w' = w
  | .killDaemon, .ok (), w' => w.daemon = true ∧ ∃ logs events,
      Raced w.slice w.writers logs events ∧
      w' = { w with
        backing := overwriteAll w.backing (events.map (·.2)), daemon := false, attached := none
        writers := [], logs }
  | .killDaemon, .error _, w' => w.daemon = false ∧ w' = w
  | .client req, .ok v, w' => w.daemon = true ∧ w.command canonical req (.ok v) w'
  | .client req, .error _, w' =>
    (w.daemon = true ∧ ∃ e, w.command canonical req (.error e) w') ∨ (w.daemon = false ∧ w' = w)
  | .bdevGone devId, .ok (), w' => w.present devId = false ∧ w' = w
  | .bdevGone devId, .error _, w' => w.present devId = true ∧ w' = w
  | .openDevice devId, .ok (), w' => w.present devId = true ∧ w' = w
  | .openDevice devId, .error _, w' => w.present devId = false ∧ w' = w
  | .writeAllAt off data, .ok (), w' => Taken w off data.length ∧
      ∃ pieces, Lands { off, data } pieces ∧ w' = w.write pieces
  | .writeAllAt off data, .error _, w' => ¬ Taken w off data.length ∧ w' = w
  | .readExactAt off len, .ok got, w' => Taken w off len ∧ got = slice w.backing off (off + len) ∧
      w' = w
  | .readExactAt off len, .error _, w' => ¬ Taken w off len ∧ w' = w
  | .removeMeta, .ok (), w' => w.metaFile.isSome = true ∧ w' = { w with metaFile := none }
  | .removeMeta, .error _, w' => w.metaFile = none ∧ w' = w
  | .readBacking, .ok data, w' => data = w.backing ∧ w' = w
  | .spawnWriters slice writers, .ok (), w' => w' = { w with slice, writers }
  | .sleep _, .ok (), w' => w' = w
  | .joinWriters, .ok logs, w' => logs = w.logs ∧ w' = { w with logs := [] }
  | .daemonExit, .ok (), w' => w.daemon = false ∧ w' = w
  | .daemonExit, .error _, w' => w.daemon = true ∧ w' = w
  | .createBacking _, .error _, _ | .readBacking, .error _, _ | .spawnWriters _ _, .error _, _
  | .sleep _, .error _, _ | .joinWriters, .error _, _ => False

/-- A call that has failed for reasons of its own.  A `dump` changes nothing
even then. -/
def Faulted (w : World) (c : Call) (w' : World) : Prop :=
  w'.faulted = true ∧
    ∀ target since generation, c = .client (.dump target since generation) →
      w' = { w with faulted := true }

def world : Handler World Call Call.Answer := fun w c answer w' =>
  serve canonical w c answer w' ∨ (∃ e, answer = .error e) ∧ Faulted w c w'

end Chaos

end Ublkera
