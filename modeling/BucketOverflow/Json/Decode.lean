import BucketOverflow.Json.Record

/-!
Taking typed values out of JSON values. Fields are looked at in the order of their keys, so the
first bad one in that order is reported; these faults have no place in a text.
-/
namespace BucketOverflow.Json

/-- The kind of a value, as messages name it. -/
def found : Json → Found
  | .null => .null
  | .bool b => .bool b
  | .int n => .int n
  | .float x => .float x
  | .str s => .str s
  | .arr _ => .seq
  | .obj _ => .map

def wrongType (expected : String) (j : Json) : Except Cause α :=
  .error (.invalidType j.found expected)

def toUnsigned (limit : Nat) (expected : String) : Json → Except Cause Nat
  | .int n =>
    if 0 ≤ n ∧ n < limit then .ok n.toNat else .error (.invalidValue (.int n) expected)
  | j => wrongType expected j

def toNatural64 : Json → Except Cause Nat := toUnsigned 0x10000000000000000 "u64"
def toNatural32 : Json → Except Cause Nat := toUnsigned 0x100000000 "u32"

def toText : Json → Except Cause String
  | .str s => .ok s
  | j => wrongType "a string" j

/-- A variant: its name, or an object with the name as only key and null as value. -/
def toVariant (known : List (String × α)) : Json → Except Cause α
  | .str name => named known name
  | .obj [(name, content)] => do
    let a ← named known name
    match content with
    | .null => return a
    | j => wrongType "unit" j
  | .obj _ => .error (.invalidValue .map "map with a single key")
  | j => wrongType "string or map" j

/-- A value, or nothing for null. -/
def toOptional (read : Json → Except Cause α) : Json → Except Cause (Option α)
  | .null => .ok none
  | j => (read j).map some

def toList (read : Json → Except Cause α) : Json → Except Cause (List α)
  | .arr items => items.mapM read
  | j => wrongType "a sequence" j

end BucketOverflow.Json
