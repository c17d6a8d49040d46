import Mathlib.Tactic

/-!
# JSON values

A parsed JSON value, with the accessors of `serde_json::Value` as its
documentation has them.

* `index` is `value[key]`: `Null` when the value is no object, and when the
  object has no such key.
* `asU64` is there for an integer that a `u64` can represent: neither for a
  negative one nor for a double.
* `asStr`, `asBool` and `asArray` are there for a string, a boolean and an
  array.

An object is the map that the parser has built, in which a key is there once.
The parser and the printer are not here.
-/

/-- A number is kept as `serde_json::Number` classifies it: a non-negative
integer, a negative one, or the bits of a double. -/
inductive Json where
  | null
  | bool (value : Bool)
  | posInt (value : UInt64)
  | negInt (value : Int64)
  | float (bits : UInt64)
  | string (value : String)
  | array (items : List Json)
  | object (fields : List (String × Json))

namespace Json

def index (j : Json) (key : String) : Json :=
  match j with
  | .object fields => (fields.lookup key).getD .null
  | _ => .null

def asStr : Json → Option String
  | .string value => some value
  | _ => none

def asU64 : Json → Option UInt64
  | .posInt value => some value
  | _ => none

def asBool : Json → Option Bool
  | .bool value => some value
  | _ => none

def asArray : Json → Option (List Json)
  | .array items => some items
  | _ => none

/-- A new key of an object. -/
def set (j : Json) (key : String) (value : Json) : Json :=
  match j with
  | .object fields => .object (fields ++ [(key, value)])
  | j => j

/-- A counter. -/
def nat (n : Nat) : Json := .posInt (UInt64.ofNat n)

end Json
