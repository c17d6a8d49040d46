import Ublkera.Daemon.Serve
import Ublkera.Lib.Effect
import Ublkera.Lib.Json
import Ublkera.Scenario.Exec

/-!
# The chaos harness

`src/bin/chaos.rs` as programs with effects: the daemon and its client as
processes, the block device, the metadata file and the backing file.  What
these do is up to the world that the harness runs in;
`Ublkera.Chaos.World` is the world of a daemon that works.

A failure is the error of a call, with the contexts in front of it, or a
finding of the harness itself.  The journal, the counters and the progress
lines are not part of the programs: nothing that the harness decides reads
them.  Nor are the queues and `--buffered`, which go into the options of the
device.
-/

namespace Ublkera

namespace Chaos

open LittleEndian Effect WriteCache Chunks
open Scenario (fillBlock fillChunk firstDiff)

/-! ## The calls of the harness -/

/-- A writer thread of `op_crash_inflight`. -/
structure Writer where
  base : Nat
  rng : Fault.Rng

/-- What a writer thread returns. -/
structure WriterLog where
  ok : List Entry
  undefined : List (Nat × Nat)

inductive Call where
  /-- `File::create` and `set_len`. -/
  | createBacking (size : UInt64)
  /-- The socket file is removed, the daemon is spawned, and its socket
  answers. -/
  | startDaemon
  /-- SIGKILL and `wait`. -/
  | killDaemon
  /-- One run of the client. -/
  | client (req : Serve.Request)
  /-- The block node is gone. -/
  | bdevGone (devId : UInt64)
  /-- The block node is there, and is opened with `O_DIRECT`. -/
  | openDevice (devId : UInt64)
  /-- `dev.write_all_at`. -/
  | writeAllAt (off : Nat) (data : Bytes)
  /-- `dev.read_exact_at` of a buffer of `len` bytes. -/
  | readExactAt (off len : Nat)
  | removeMeta
  | readBacking
  /-- The writer threads are started, each on a slice of the device. -/
  | spawnWriters (slice : Nat) (writers : List Writer)
  | sleep (ms : Nat)
  /-- The writer threads are stopped and joined. -/
  | joinWriters
  /-- The daemon process has exited. -/
  | daemonExit

def Call.Reply : Call → Type
  | .client _ => Json
  | .readExactAt _ _ | .readBacking => Bytes
  | .joinWriters => List WriterLog
  | _ => Unit

abbrev Call.Answer (c : Call) : Type := Except String c.Reply

inductive Failure where
  | call (e : String)
  | check (e : String)

def Failure.context (context : String) : Failure → Failure
  | .call e => .call s!"{context}: {e}"
  | .check e => .check s!"{context}: {e}"

/-- A part of the harness. -/
abbrev Action (α : Type) := Prog Call Call.Answer Failure α

/-- A call, and `?` on its result. -/
def perform (c : Call) : Action c.Reply :=
  .call c fun answer => match answer with
    | .ok a => .ret a
    | .error e => .fail (.call e)

def bail {α : Type} (e : String) : Action α := .fail (.check e)

def client (req : Serve.Request) : Action Json := perform (.client req)

/-- A call whose error is no failure. -/
def tryClient (req : Serve.Request) : Action (Except String Json) := .ask (Call.client req)

def readExactAt (off len : Nat) : Action Bytes := perform (.readExactAt off len)

def readBacking : Action Bytes := perform .readBacking

def joinWriters : Action (List WriterLog) := perform .joinWriters

def ensure (condition : Bool) (e : String) : Action Unit := if condition then .ret () else bail e

/-- `Option::context` and `?`. -/
def require {α : Type} (e : String) : Option α → Action α
  | some a => .ret a
  | none => bail e

/-! ## The state of the harness -/

structure Harness where
  backing : String
  metaPath : MetaPath
  metaText : String
  size : UInt64
  gran : UInt64
  daemon : Bool
  devId : Option UInt64
  /-- The device is open. -/
  dev : Bool
  generation : String
  /-- What the device must contain. -/
  expected : Bytes
  /-- The backup of the simulated consumer. -/
  shadow : Bytes
  cursor : Option (String × UInt32)

def maxWrite : Nat := 256 * 1024

/-- The reads of the harness are of 1 MiB at most. -/
def maxRead : Nat := 2 ^ 20

/-- `fill`. -/
def fillBuf (rng : Fault.Rng) (len : Nat) : Bytes × Fault.Rng :=
  (fillBlock rng len, (lens 8 len).foldl (fun r n => (fillChunk r n).2) rng)

/-- `-n id`. -/
def target (id : UInt64) : Manager.Target := { devId := some id.toUInt32, backing := none }

/-! ## The daemon and the device -/

def startDaemon (h : Harness) : Action Harness := do
  perform .startDaemon
  .ret { h with daemon := true }

def waitBdevGone (h : Harness) : Action Harness :=
  match h.devId with
  | some id => do
    perform (.bdevGone id)
    .ret { h with devId := none }
  | none => .ret h

def killDaemon (h : Harness) : Action Harness := do
  ensure h.daemon "no daemon to kill"
  perform .killDaemon
  waitBdevGone { h with dev := false, daemon := false }

def attach (h : Harness) : Action (Harness × Json) := do
  let v ← client (.add
    { backing := h.backing, granularity := h.gran, metaPath := some h.metaPath
      metaText := h.metaText })
  let id ← require "add: no dev_id" (v.index "dev_id").asU64
  let generation ← require "add: no generation" (v.index "generation").asStr
  perform (.openDevice id)
  .ret ({ h with devId := some id, generation, dev := true }, v)

def detach (h : Harness) : Action Harness := do
  let id ← require "not attached" h.devId
  let _ ← client (.del (target id))
  waitBdevGone { h with dev := false }

def readDevice (h : Harness) : Action Bytes := do
  ensure h.dev "device not open"
  Prog.loop (fun (out : Bytes) n => do
    let got ← readExactAt out.length n
    .ret (out ++ got)) (lens maxRead h.size.toNat) []

/-! ## The checks -/

/-- The chunks that differ. -/
def badChunks (h : Harness) (actual model : Bytes) : Nat :=
  (List.range (divCeil h.size h.gran)).countP fun i =>
    let off := i * h.gran.toNat
    let stop := min (off + h.gran.toNat) h.size.toNat
    slice actual off stop ≠ slice model off stop

def mismatch (h : Harness) (what : String) (actual model : Bytes) : String :=
  let first := firstDiff actual model
  s!"{what} MISMATCH: first differing byte at {first} (chunk {first / h.gran.toNat}), " ++
    s!"{badChunks h actual model} of {divCeil h.size h.gran} chunks differ"

def diff (h : Harness) (what : String) (actual model : Bytes) : Action Unit :=
  if actual = model then .ret () else bail (mismatch h what actual model)

def verify (h : Harness) : Action Unit := do
  let actual ← readDevice h
  diff h "passthrough (device vs expected)" actual h.expected
  diff h "CBT (backup image vs device)" actual h.shadow

/-! ## The operations -/

/-- One write of a burst. -/
def burstWrite (s : Harness × Fault.Rng) (_ : Nat) : Action (Harness × Fault.Rng) := do
  let (h, rng) := s
  let (block, rng) := rng.below (h.size.toNat / 4096)
  let off := 4096 * block
  let maxLen := min maxWrite (h.size.toNat - off)
  let (blocks, rng) := rng.below (maxLen / 4096)
  let len := 4096 * (1 + blocks)
  let (data, rng) := fillBuf rng len
  ensure h.dev "device not open"
  (perform (.writeAllAt off data)).mapError (Failure.context s!"write {len}B at {off}")
  .ret ({ h with expected := patch h.expected off data }, rng)

def opWriteBurst (h : Harness) (rng : Fault.Rng) : Action (Harness × Fault.Rng) :=
  let (count, rng) := rng.below 24
  Prog.loop burstWrite (List.range (1 + count)) (h, rng)

def opCheckpoint (h : Harness) : Action Harness := do
  let id ← require "not attached" h.devId
  let _ ← client (.checkpoint (target id))
  .ret h

/-- One read of a range that `dump` has reported. -/
def copyPiece (s : Bytes × Nat) (n : Nat) : Action (Bytes × Nat) := do
  let got ← readExactAt s.2 n
  .ret (patch s.1 s.2 got, s.2 + n)

/-- A range that `dump` has reported is copied to the backup. -/
def copyRange (h : Harness) (shadow : Bytes) (r : Json) : Action Bytes := do
  let off ← require "range offset" (r.index "offset").asU64
  let len ← require "range len" (r.index "len").asU64
  ensure h.dev "device not open"
  let (shadow, _) ← Prog.loop copyPiece (lens maxRead len.toNat) (shadow, off.toNat)
  .ret shadow

/-- The ranges above the cursor, when it is accepted. -/
def copyChanged (h : Harness) (id : UInt64) (gen : String) (era : UInt32) :
    Action (Option Bytes) := do
  match ← tryClient (.dump (target id) era (some gen)) with
  | .error _ => .ret none
  | .ok d =>
    let ranges ← require "dump: no ranges" (d.index "ranges").asArray
    let shadow ← Prog.loop (copyRange h) ranges h.shadow
    .ret (some shadow)

/-- The consumer reads what has changed, if it has a cursor. -/
def incrementalBackup (h : Harness) (id : UInt64) : Action (Option Bytes) :=
  match h.cursor with
  | some (gen, era) => copyChanged h id gen era
  | none => .ret none

/-- The full copy, when there is no incremental backup. -/
def backupOr (h : Harness) : Option Bytes → Action Bytes
  | some shadow => .ret shadow
  | none => readDevice h

def opBackupVerify (h : Harness) : Action Harness := do
  let id ← require "not attached" h.devId
  let v ← client (.checkpoint (target id))
  let closed ← require "no closed_era" (v.index "closed_era").asU64
  let incremental ← incrementalBackup h id
  let shadow ← backupOr h incremental
  let h := { h with shadow, cursor := some (h.generation, closed.toUInt32) }
  verify h
  .ret h

def opReattach (h : Harness) : Action Harness := do
  let oldGen := h.generation
  let h ← detach h
  let (h, v) ← attach h
  ensure ((v.index "recovered_unclean").asBool ≠ some true)
    "clean detach was flagged recovered_unclean"
  ensure (h.generation = oldGen)
    s!"generation changed across clean re-attach ({oldGen} -> {h.generation})"
  .ret h

def opCrash (h : Harness) : Action Harness := do
  let oldGen := h.generation
  let h ← killDaemon h
  let h ← startDaemon h
  let (h, v) ← attach h
  ensure ((v.index "recovered_unclean").asBool = some true)
    "crash recovery not flagged recovered_unclean"
  ensure (h.generation = oldGen)
    s!"generation changed across crash recovery ({oldGen} -> {h.generation})"
  .ret h

/-- The next write of a writer thread. -/
def Writer.next (slice : Nat) (w : Writer) : Entry × Writer :=
  let (block, rng) := w.rng.below (slice / 4096)
  let off := w.base + 4096 * block
  let maxLen := min maxWrite (w.base + slice - off)
  let (blocks, rng) := rng.below (maxLen / 4096)
  let (data, rng) := fillBuf rng (4096 * (1 + blocks))
  ({ off, data }, { w with rng })

/-- The first `n` writes of a writer thread, and the thread behind them. -/
def Writer.run (slice : Nat) : Nat → Writer → List Entry × Writer
  | 0, w => ([], w)
  | n + 1, w =>
    let (e, w) := w.next slice
    let (rest, w) := Writer.run slice n w
    (e :: rest, w)

/-- The writer threads, with the generator behind their seeds. -/
def seedWriters (slice : Nat) : List Nat → Fault.Rng → List Writer × Fault.Rng
  | [], rng => ([], rng)
  | t :: rest, rng =>
    let (seed, rng) := rng.next
    let (writers, rng) := seedWriters slice rest rng
    ({ base := t * slice, rng := { state := seed } } :: writers, rng)

/-- An interrupted write: the harness adopts what is on the device. -/
def adopt (expected : Bytes) (r : Nat × Nat) : Action Bytes := do
  let got ← readExactAt r.1 r.2
  .ret (patch expected r.1 got)

/-- The daemon comes back behind the writer threads. -/
def recoverInflight (h : Harness) (oldGen : String) (undefined : List (Nat × Nat)) :
    Action Harness := do
  let h ← startDaemon h
  let (h, v) ← attach h
  ensure ((v.index "recovered_unclean").asBool = some true)
    "in-flight crash recovery not flagged recovered_unclean"
  ensure (h.generation = oldGen)
    s!"generation changed across in-flight crash ({oldGen} -> {h.generation})"
  ensure h.dev "device not open"
  let expected ← Prog.loop adopt undefined h.expected
  let h := { h with expected }
  let actual ← readDevice h
  diff h "completed writes across in-flight SIGKILL" actual h.expected
  .ret h

def opCrashInflight (h : Harness) (rng : Fault.Rng) : Action (Harness × Fault.Rng) :=
  let slice := h.size.toNat / 4 / 4096 * 4096
  if slice = 0 then do
    let h ← opCrash h
    .ret (h, rng)
  else do
    let oldGen := h.generation
    let _ ← require "not attached" h.devId
    let (writers, rng) := seedWriters slice [0, 1, 2, 3] rng
    perform (.spawnWriters slice writers)
    let (ms, rng) := rng.below 250
    perform (.sleep (50 + ms))
    let h ← killDaemon h
    let logs ← joinWriters
    let h := { h with expected := overwriteAll h.expected (logs.flatMap WriterLog.ok) }
    let h ← recoverInflight h oldGen (logs.flatMap WriterLog.undefined)
    .ret (h, rng)

def opLoseMeta (h : Harness) : Action Harness := do
  let oldGen := h.generation
  let h ← detach h
  (perform .removeMeta).mapError (Failure.context "remove metadata")
  let (h, v) ← attach h
  ensure ((v.index "recovered_unclean").asBool ≠ some true)
    "fresh attach after metadata loss was flagged recovered_unclean"
  ensure (h.generation ≠ oldGen) "generation must change when metadata is lost"
  match h.cursor with
  | none => .ret h
  | some (gen, era) =>
    let id ← require "not attached" h.devId
    match ← tryClient (.dump (target id) era (some gen)) with
    | .error _ => .ret h
    | .ok _ => bail "cursor from the lost history was accepted by dump"

/-! ## An episode -/

structure Cli where
  dir : String
  /-- The entry of `meta.bin` in the directory. -/
  metaPath : MetaPath
  seed : UInt64
  ops : UInt32
  size : UInt64
  granularity : UInt64

def Cli.gran (cli : Cli) (rng : Fault.Rng) : UInt64 × Fault.Rng :=
  if cli.granularity ≠ 0 then (cli.granularity, rng)
  else (([4096, 16384, 65536, 262144].getD (rng.below 4).1 0), (rng.below 4).2)

def Cli.devSize (cli : Cli) (rng : Fault.Rng) : UInt64 × Fault.Rng :=
  if cli.size ≠ 0 then (cli.size, rng)
  else (32 * 1048576 + 4096 * UInt64.ofNat (rng.below 16).1, (rng.below 16).2)

def setup (cli : Cli) (rng : Fault.Rng) : Action (Harness × Fault.Rng) := do
  let (gran, rng) := cli.gran rng
  let (size, rng) := cli.devSize rng
  ensure (size % 4096 = 0) "--size must be a multiple of 4096"
  -- the number of queues
  let (_, rng) := rng.below 3
  perform (.createBacking size)
  .ret ({ backing := s!"{cli.dir}/backing.img", metaPath := cli.metaPath
          metaText := s!"{cli.dir}/meta.bin", size, gran, daemon := false
          devId := none, dev := false, generation := ""
          expected := List.replicate size.toNat 0, shadow := List.replicate size.toNat 0
          cursor := none }, rng)

/-- An operation by its roll. -/
def operation (h : Harness) (roll : Nat) (rng : Fault.Rng) : Action (Harness × Fault.Rng) :=
  let alone (op : Harness → Action Harness) : Action (Harness × Fault.Rng) := do
    let h ← op h
    .ret (h, rng)
  if roll ≤ 44 then opWriteBurst h rng
  else if roll ≤ 59 then alone opBackupVerify
  else if roll ≤ 69 then alone opCheckpoint
  else if roll ≤ 79 then alone opReattach
  else if roll ≤ 87 then alone opCrash
  else if roll ≤ 95 then opCrashInflight h rng
  else alone opLoseMeta

def runOp (ops : UInt32) (s : Harness × Fault.Rng) (i : Nat) : Action (Harness × Fault.Rng) :=
  let (roll, rng) := s.2.below 100
  (operation s.1 roll rng).mapError (Failure.context s!"op {i + 1}/{ops} failed")

def run (cli : Cli) (h : Harness) (rng : Fault.Rng) : Action Unit := do
  let h ← startDaemon h
  let (h, _) ← attach h
  let (h, _) ← Prog.loop (runOp cli.ops) (List.range cli.ops.toNat) (h, rng)
  let h ← (opBackupVerify h).mapError (Failure.context "final backup")
  let h ← detach h
  let onDisk ← readBacking
  ensure (onDisk = h.expected) "backing file after detach differs from everything written"
  let (h, v) ← attach h
  ensure ((v.index "recovered_unclean").asBool ≠ some true)
    "final re-attach was flagged recovered_unclean"
  let h ← detach h
  let _ ← client .shutdown
  if h.daemon then perform .daemonExit else .ret ()

/-- `main`, up to its messages. -/
def episode (cli : Cli) : Action Unit := do
  let (h, rng) ← (setup cli { state := cli.seed }).mapError (Failure.context "setup")
  run cli h rng

end Chaos

end Ublkera
