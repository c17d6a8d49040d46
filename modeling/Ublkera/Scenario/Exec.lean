import Ublkera.Lib.Effect
import Ublkera.Lib.Json
import Ublkera.Scenario.Line
import Ublkera.Scenario.Pattern

/-!
# The scenario runner

`exec` and `run_file` of `ublkfault/src/scenario.rs`, as programs with
effects: the system calls on the device, one request on the control socket,
and a shell command.  What these do is up to the world that the runner runs
in; `Ublkera.Scenario.Direct` is the world of a fault device.

The texts of the errors are those of the source, with the contexts in front of
the cause.  How a JSON value is printed is the parameter `display`, which only
an error text needs.
-/

namespace Ublkera

namespace Scenario

open LittleEndian Effect

/-! ## The calls of the runner -/

inductive Syscall where
  /-- `dev.write_all_at`. -/
  | writeAllAt (off : UInt64) (data : Bytes)
  /-- `dev.read_exact_at` of a buffer of `len` bytes. -/
  | readExactAt (off : UInt64) (len : Nat)
  /-- `dev.sync_all`. -/
  | syncAll
  /-- One request and its response on the control socket. -/
  | request (req : Json)
  | sleep (ms : UInt64)
  /-- `sh -c`, with the exit code; a signal leaves none. -/
  | shell (cmd : String)

def Syscall.Answer : Syscall → Type
  | .writeAllAt _ _ | .syncAll => Except String Unit
  | .readExactAt _ _ => Except String Bytes
  | .request _ => Except String Json
  | .sleep _ => Unit
  | .shell _ => Except String (Option Int)

/-- A part of the runner. -/
abbrev Runner (α : Type) := Prog Syscall Syscall.Answer String α

def writeAllAt (off : UInt64) (data : Bytes) : Runner (Except String Unit) :=
  .ask (Syscall.writeAllAt off data)

def readExactAt (off : UInt64) (len : Nat) : Runner (Except String Bytes) :=
  .ask (Syscall.readExactAt off len)

def syncAll : Runner (Except String Unit) := .ask Syscall.syncAll

def sendRequest (req : Json) : Runner (Except String Json) := .ask (Syscall.request req)

def sleep (ms : UInt64) : Runner Unit := .ask (Syscall.sleep ms)

def shell (cmd : String) : Runner (Except String (Option Int)) := .ask (Syscall.shell cmd)

/-- `?` on the result of a call, with a context. -/
def orFail {α : Type} (context : String) : Except String α → Runner α
  | .ok a => .ret a
  | .error e => .fail s!"{context}: {e}"

/-! ## The control socket -/

/-- `ctl`. -/
def ctl (display : Json → String) (req : Json) : Runner Json := do
  match ← sendRequest req with
  | .error e => .fail e
  | .ok resp =>
    if (resp.index "ok").asBool = some true then .ret resp
    else .fail s!"ctl {display req}: {display resp}"

/-- `req[k] = json!(v)`. -/
def setField (fields : List (String × Json)) (pair : String × UInt64) : List (String × Json) :=
  Dict.insert fields pair.1 (.posInt pair.2)

def setRequest (pairs : List (String × UInt64)) : Json :=
  .object (pairs.foldl setField [("cmd", .string "set")])

/-! ## One step -/

def unaligned : String := "off must be 4K-aligned for pattern anchoring"

/-- `.position(|(a, b)| a != b).unwrap()`. -/
def firstDiff (a b : Bytes) : Nat := (a.zip b).findIdx fun p => p.1 != p.2

/-- One turn of the loop of `expect`, which has come to `pos`. -/
def expectPiece (off : UInt64) (pattern : String) (want : Bytes) (pos n : Nat) : Runner Nat := do
  let got ← readExactAt (off + UInt64.ofNat pos) n
  let got ← orFail "read" got
  let piece := slice want pos (pos + n)
  if got = piece then .ret (pos + n)
  else
    .fail (s!"content mismatch: expected pattern '{pattern}', first differing " ++
      s!"byte at device offset {off + UInt64.ofNat (pos + firstDiff got piece)}")

/-- The reads of `expect` are of 1 MiB at most. -/
def maxRead : Nat := 2 ^ 20

def exec (display : Json → String) : Step → Runner Unit
  | .write off len pattern fsync expectError =>
    if off % 4096 ≠ 0 then .fail unaligned
    else do
      match ← writeAllAt off (fillPattern pattern off len.toNat), expectError with
      | .ok (), false =>
        if fsync then do
          let synced ← syncAll
          orFail "fsync" synced
        else .ret ()
      | .error e, false => .fail s!"write: {e}"
      | .error _, true => .ret ()
      | .ok (), true => .fail "write succeeded but was expected to fail"
  | .expect off len pattern =>
    if off % 4096 ≠ 0 then .fail unaligned
    else do
      let want := fillPattern pattern off len.toNat
      let _ ← Prog.loop (expectPiece off pattern want) (Chunks.lens maxRead want.length) 0
      .ret ()
  | .flush => do
    let synced ← syncAll
    orFail "flush" synced
  | .crash mode => do
    let _ ← ctl display (.object [("cmd", .string "crash"), ("mode", .string mode)])
    .ret ()
  | .set pairs => do
    let _ ← ctl display (setRequest pairs)
    .ret ()
  | .thaw result => do
    let _ ← ctl display (.object [("cmd", .string "thaw"), ("result", .string result)])
    .ret ()
  | .sleep ms => sleep ms
  | .run cmd expectOk => do
    let status ← shell cmd
    let code ← orFail "spawn sh" status
    if decide (code = some 0) = expectOk then .ret ()
    else
      let exited := match code with
        | some n => toString n
        | none => "by signal"
      let wanted := if expectOk then "succeed" else "fail"
      .fail s!"command exited {exited} but was expected to {wanted}"

/-! ## A file -/

/-- A line without the carriage return in front of its end. -/
def stripCr (line : List Char) : List Char :=
  if line.getLast? = some '\r' then line.dropLast else line

/-- `str::lines`: the text behind the last newline is a line when there is
any. -/
def lines (text : List Char) : List (List Char) :=
  let parts := text.splitOn '\n'
  parts.dropLast.map stripCr ++ (parts.getLast?.toList.filter fun last => !last.isEmpty)

def trimmed (line : List Char) : String := String.ofList (Text.trim isWhitespace line)

/-- One turn of the loop of `run_file`, after `steps` steps. -/
def runLine (order : HashOrder) (display : Json → String) (name : String) (steps : Nat)
    (line : List Char × Nat) : Runner Nat :=
  match parseLine order (String.ofList line.1) with
  | .ok (some step) => do
    (exec display step).mapError fun e => s!"{name}:{line.2 + 1} `{trimmed line.1}`: {e}"
    .ret (steps + 1)
  | .ok none => .ret steps
  | .error e => .fail s!"{name}:{line.2 + 1}: {e}"

/-- `run_file`, of a file with this text; the result is the number of
steps. -/
def runFile (order : HashOrder) (display : Json → String) (name text : String) : Runner Nat :=
  Prog.loop (runLine order display name) (lines text.toList).zipIdx 0

/-- The steps of a file that has no bad line. -/
def runSteps (display : Json → String) : List Step → Runner Unit
  | [] => .ret ()
  | step :: rest => do
    exec display step
    runSteps display rest

end Scenario

end Ublkera
