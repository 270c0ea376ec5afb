import BucketOverflow.Binary64.Basic
import BucketOverflow.Fields

/-!
JSON values. An object is a list of fields in the order they are written. Objects that are read have
their fields sorted by key, with one field for each key, the last one given.
-/
namespace BucketOverflow

inductive Json where
  | null
  | bool (b : Bool)
  | int (n : Int)
  | float (x : Binary64)
  | str (s : String)
  | arr (items : List Json)
  | obj (fields : List (String × Json))
deriving Inhabited

namespace Json

abbrev Members := List (String × Json)

/-- The fields sorted by key; of several with one key the last stays. -/
def sortFields (fields : Members) : Members := Fields.insertAll fields []

def field? (key : String) (fields : Members) : Option Json := fields.lookup key

/-- The fields of an object. -/
def fields? : Json → Option Members
  | .obj fields => some fields
  | _ => none

/-- The text of a string. -/
def str? : Json → Option String
  | .str s => some s
  | _ => none

/-- Whether a value is a natural number of 64 bits. -/
def isNatural : Json → Bool
  | .int n => 0 ≤ n
  | _ => false

/-- A finite value as a number; JSON has no other, so the rest is null. -/
def ofBinary64 (x : Binary64) : Json := if x.isFinite then .float x else .null

def ofNat (n : Nat) : Json := .int n

end Json
end BucketOverflow
