import BucketOverflow.Params.Json

/-!
What a command line says about parameters: lists of hop budgets, and values that override a preset
and a file.
-/
namespace BucketOverflow
open Text

/-- Why a command line gives no parameters. -/
inductive ResolveFault where
  | param (fault : ParamFault)
  | paramsFile (path : String) (fault : ParamFault)
  | hopBudgetList (raw reason : String)

def ResolveFault.message : ResolveFault → String
  | .param fault => fault.message
  | .paramsFile path fault => "failed to read parameter file " ++ path ++ ": " ++ fault.message
  | .hopBudgetList raw reason => "invalid hop budget list '" ++ raw ++ "': " ++ reason

/-- The pieces between commas that are not blank, without blanks around them. -/
def hopBudgetPieces (raw : String) : List (List Char) :=
  ((splitOn ',' raw.toList).map trim).filter (!·.isEmpty)

/-- One hop budget, or why its text is none. -/
def readHopBudget (raw : String) (piece : List Char) : Except ResolveFault UInt32 :=
  match readUnsigned 10 0x100000000 piece with
  | .ok n => .ok (.ofNat n)
  | .error e => .error (.hopBudgetList raw
      ("'" ++ String.ofList piece ++ "' is not a hop count (" ++ e.message ++ ")"))

/-- A list such as `10,100,1000`. -/
def readHopBudgets (raw : String) : Except ResolveFault (List UInt32) := do
  match ← (hopBudgetPieces raw).mapM (readHopBudget raw) with
  | [] => .error (.param .emptyHopBudgets)
  | budgets => return budgets

end BucketOverflow
