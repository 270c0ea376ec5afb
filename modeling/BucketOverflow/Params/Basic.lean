import BucketOverflow.Files
import BucketOverflow.Json.Fault
import BucketOverflow.Text.Blank

/-!
The parameters of a depth sweep: how saturated depths are treated, the named sets, and the
constraints that a set has to meet before it is swept.
-/
namespace BucketOverflow
open Text

/-- What is reported for a depth whose expected load reaches the capacity. -/
inductive TailPolicy where
  | saturating
  | literal
deriving DecidableEq

/-- A named set of parameters. -/
inductive Preset where
  | analysis
  | deployment
deriving DecidableEq

structure Params where
  capacity : UInt64
  items : UInt64
  paths : UInt64
  maxDepth : UInt32
  hopBudget : UInt32
  tailPolicy : TailPolicy
deriving DecidableEq

/-- Why parameters are refused or cannot be read. -/
inductive ParamFault where
  | zeroCapacity
  | zeroItems
  | zeroPaths
  | zeroHopBudget
  | depthTooLarge (maxDepth limit : Nat)
  | emptyHopBudgets
  | unknownPreset (name : String)
  | unknownTailPolicy (name : String)
  | file (fault : FileFault)
  | json (error : Json.Error)

def ParamFault.message : ParamFault → String
  | .zeroCapacity => "bucket capacity must be positive (got 0)"
  | .zeroItems => "total item count must be positive (got 0)"
  | .zeroPaths => "sampled-path count must be positive (got 0)"
  | .zeroHopBudget => "hop budget must be positive (got 0)"
  | .depthTooLarge depth limit =>
    "max depth " ++ String.ofList (decimal depth) ++ " exceeds supported limit "
      ++ String.ofList (decimal limit)
  | .emptyHopBudgets => "hop budget list is empty"
  | .unknownPreset name => "unknown preset '" ++ name ++ "', expected analysis|deployment"
  | .unknownTailPolicy name => "unknown tail policy '" ++ name ++ "', expected saturating|literal"
  | .file fault => "io: " ++ fault.message
  | .json error => "json: " ++ error.message

/-- A name without blanks around it, in lower case. -/
def looseName (s : String) : String := String.ofList (lowerAscii (trim s.toList))

namespace TailPolicy

def name : TailPolicy → String
  | .saturating => "saturating"
  | .literal => "literal"

/-- Whether saturated depths are given probability one. -/
def clamps : TailPolicy → Bool
  | .saturating => true
  | .literal => false

/-- The names by which a policy is written in JSON. -/
def known : List (String × TailPolicy) := [("saturating", .saturating), ("literal", .literal)]

def ofName (s : String) : Except ParamFault TailPolicy :=
  match looseName s with
  | "saturating" | "saturate" | "clamp" | "clamped" | "default" => .ok .saturating
  | "literal" | "raw" | "uncorrected" => .ok .literal
  | _ => .error (.unknownTailPolicy s)

end TailPolicy

namespace Preset

def name : Preset → String
  | .analysis => "analysis"
  | .deployment => "deployment"

def ofName (s : String) : Except ParamFault Preset :=
  match looseName s with
  | "analysis" | "default" | "paper" => .ok .analysis
  | "deployment" | "deployed" | "d18" => .ok .deployment
  | _ => .error (.unknownPreset s)

/--
The analysed set, and the deployed tree of depth 18: messages live a thousand epochs and each of the
`2 ^ 18 / 1000` writers of an epoch samples one path.
-/
def params : Preset → Params
  | .analysis => ⟨100, 1000000, 1000000, 30, 1000, .saturating⟩
  | .deployment => ⟨50, 0x40000 / 1000, 0x40000 / 1000, 18, 1000, .saturating⟩

end Preset

namespace Params

/-- The deepest depth with a normal half share. -/
def depthLimit : UInt32 := 1021

/-- The first constraint that is not met, in the order of the fields. -/
def validate (p : Params) : Except ParamFault Unit :=
  if p.capacity = 0 then .error .zeroCapacity
  else if p.items = 0 then .error .zeroItems
  else if p.paths = 0 then .error .zeroPaths
  else if depthLimit < p.maxDepth then
    .error (.depthTooLarge p.maxDepth.toNat depthLimit.toNat)
  else if p.hopBudget = 0 then .error .zeroHopBudget
  else .ok ()

/-- The first and the last depth of the grid. -/
def depthRange (p : Params) : Nat × Nat := (0, p.maxDepth.toNat)

/-- The depths of the grid. -/
def depths (p : Params) : List Nat := List.range (p.depthRange.2 + 1)

def withItems (p : Params) (items : UInt64) : Params := { p with items }
def withHopBudget (p : Params) (hopBudget : UInt32) : Params := { p with hopBudget }
def withTailPolicy (p : Params) (tailPolicy : TailPolicy) : Params := { p with tailPolicy }

end Params
end BucketOverflow
