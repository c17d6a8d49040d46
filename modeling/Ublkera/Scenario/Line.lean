import Ublkera.Lib.Decimal
import Ublkera.Lib.Dict
import Ublkera.Lib.Text

/-!
# The lines of a scenario

`parseLine` is `parse_line` of `ublkfault/src/scenario.rs`: one line of a
scenario file is one step, or nothing.  The tokens behind the verb are read
into a map and a list of flags first, and then each verb takes out of them
what it knows.

`Ublkera.Scenario.Grammar` compares it with the documented format.
-/

namespace Ublkera

namespace Scenario

/-! ## Text -/

/-- `char::is_whitespace`. -/
def isWhitespace (c : Char) : Bool :=
  9 ≤ c.toNat && c.toNat ≤ 13 || c.toNat = 0x20 || c.toNat = 0x85 || c.toNat = 0xa0 ||
    c.toNat = 0x1680 || 0x2000 ≤ c.toNat && c.toNat ≤ 0x200a || c.toNat = 0x2028 ||
    c.toNat = 0x2029 || c.toNat = 0x202f || c.toNat = 0x205f || c.toNat = 0x3000

/-- `line.split('#').next()`. -/
def uncomment (line : List Char) : List Char := line.takeWhile (· ≠ '#')

/-- `split_whitespace`. -/
def tokens (text : List Char) : List String := (Text.words isWhitespace text).map String.ofList

/-- `tok.split_once('=')`. -/
def splitArg (tok : String) : Option (String × String) :=
  (Text.splitOnce (· = '=') tok.toList).map fun s => (String.ofList s.1, String.ofList s.2)

/-! ## Numbers -/

def parseErrorText : Decimal.ParseError → String
  | .empty => "cannot parse integer from empty string"
  | .invalidDigit => "invalid digit found in string"
  | .overflow => "number too large to fit in target type"

/-- `parse::<u64>`. -/
def parseU64 (s : List Char) : Except String UInt64 :=
  match Decimal.parse (2 ^ 64) s with
  | .ok n => .ok (UInt64.ofNat n)
  | .error e => .error (parseErrorText e)

/-- The number in front of the suffix, and what the suffix stands for. -/
def splitSize (s : List Char) : List Char × Nat :=
  match s.getLast? with
  | some 'K' | some 'k' => (s.dropLast, 2 ^ 10)
  | some 'M' | some 'm' => (s.dropLast, 2 ^ 20)
  | some 'G' | some 'g' => (s.dropLast, 2 ^ 30)
  | _ => (s, 1)

/-- `parse_size`.  The multiplication wraps, as in a release build. -/
def parseSize (s : String) : Except String UInt64 :=
  match parseU64 (splitSize s.toList).1 with
  | .ok n => .ok (n * UInt64.ofNat (splitSize s.toList).2)
  | .error e => .error s!"bad size '{s}': {e}"

/-! ## Steps -/

inductive Step where
  | write (off len : UInt64) (pattern : String) (fsync expectError : Bool)
  | expect (off len : UInt64) (pattern : String)
  | flush
  | crash (mode : String)
  | set (pairs : List (String × UInt64))
  | thaw (result : String)
  | sleep (ms : UInt64)
  | run (cmd : String) (expectOk : Bool)
  deriving DecidableEq, Repr

/-- The map of the `key=value` tokens. -/
abbrev Args := List (String × String)

/-- The order that a `HashMap` is iterated in, which is any. -/
structure HashOrder where
  order : Args → Args
  perm : ∀ args, (order args).Perm args

/-- One token of the loop. -/
def readToken (read : Args × List String) (tok : String) : Args × List String :=
  match splitArg tok with
  | some (k, v) => (Dict.insert read.1 k v, read.2)
  | none => (read.1, read.2 ++ [tok])

def readTokens (toks : List String) : Args × List String := toks.foldl readToken ([], [])

/-- `need`. -/
def need (verb : String) (args : Args) (k : String) : Except String String :=
  match args.lookup k with
  | some v => .ok v
  | none => .error s!"{verb}: missing {k}="

def needSize (verb : String) (args : Args) (k : String) : Except String UInt64 :=
  (need verb args k).bind parseSize

/-- `pairs.sort()`. -/
def sortPairs (pairs : List (String × UInt64)) : List (String × UInt64) :=
  pairs.mergeSort fun a b => a.1 < b.1 || a.1 = b.1 && a.2 ≤ b.2

/-- The loop over the map in `set`. -/
def readPairs : Args → Except String (List (String × UInt64))
  | [] => .ok []
  | (k, v) :: rest =>
    match parseU64 v.toList with
    | .error e => .error s!"set: {k}={v}: {e}"
    | .ok n => (readPairs rest).map ((k, n) :: ·)

def parseStep (order : HashOrder) (verb : String) (args : Args) (flags : List String) :
    Except String Step :=
  match verb with
  | "write" | "write-fails" => do
    let off ← needSize verb args "off"
    let len ← needSize verb args "len"
    let pattern ← need verb args "pattern"
    .ok (.write off len pattern (flags.contains "fsync") (verb = "write-fails"))
  | "expect" => do
    let off ← needSize verb args "off"
    let len ← needSize verb args "len"
    let pattern ← need verb args "pattern"
    .ok (.expect off len pattern)
  | "flush" => .ok .flush
  | "crash" => do
    let mode ← need verb args "mode"
    .ok (.crash mode)
  | "set" => do
    let pairs ← readPairs (order.order args)
    if pairs = [] then .error "set: no key=value pairs" else .ok (.set (sortPairs pairs))
  | "thaw" => do
    let result ← need verb args "result"
    .ok (.thaw result)
  | "sleep" => do
    let ms ← need verb args "ms"
    let ms ← parseU64 ms.toList
    .ok (.sleep ms)
  | other => .error s!"unknown verb '{other}'"

/-- The verb, and the text behind it. -/
def splitVerb (text : List Char) : List Char × List Char :=
  (Text.splitOnce isWhitespace text).getD (text, [])

/-- `run` and `fail` take the rest of the line as it is. -/
def parseVerb (order : HashOrder) (verb : String) (rest : List Char) : Except String Step :=
  if verb = "run" ∨ verb = "fail" then
    if rest = [] then .error s!"{verb}: missing command"
    else .ok (.run (String.ofList rest) (verb = "run"))
  else
    let (args, flags) := readTokens (tokens rest)
    parseStep order verb args flags

def parseLine (order : HashOrder) (line : String) : Except String (Option Step) :=
  let text := Text.trim isWhitespace (uncomment line.toList)
  if text = [] then .ok none
  else
    let (verb, rest) := splitVerb text
    (parseVerb order (String.ofList verb) (Text.trim isWhitespace rest)).map some

end Scenario

end Ublkera
