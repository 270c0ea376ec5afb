import BucketOverflow.LoggedRun
import BucketOverflow.Text.Quoted

/-!
How a failed command names its fault: the structure of the fault, with texts quoted.
-/
namespace BucketOverflow
open Text

def quoted (s : String) : String := String.ofList (quoteVisible s)

/-- Fields between braces. -/
def braced (name : String) (fields : List String) : String :=
  name ++ " \x7b " ++ ", ".intercalate fields ++ " \x7d"

/-- A name with its content in parentheses. -/
def wrapped (name content : String) : String := name ++ "(" ++ content ++ ")"

namespace FileFault

/-- A fault of the system with its number and kind. -/
def systemText (code kind message : String) : String :=
  braced "Os" ["code: " ++ code, "kind: " ++ kind, "message: " ++ quoted message]

def diagnostic : FileFault → String
  | .notFound => systemText "2" "NotFound" "No such file or directory"
  | .alreadyExists => systemText "17" "AlreadyExists" "File exists"
  | .notADirectory => systemText "20" "NotADirectory" "Not a directory"
  | .isADirectory => systemText "21" "IsADirectory" "Is a directory"
  | .invalidUtf8 =>
    braced "Error" ["kind: InvalidData", "message: " ++ quoted FileFault.invalidUtf8.message]

end FileFault

def natDiagnostic (n : Nat) : String := String.ofList (decimal n)

def Json.Error.diagnostic (e : Json.Error) : String :=
  wrapped "Error" (quoted e.cause.message ++ ", line: " ++ natDiagnostic e.line
    ++ ", column: " ++ natDiagnostic e.column)

def ParamFault.diagnostic : ParamFault → String
  | .zeroCapacity => "ZeroCapacity"
  | .zeroItems => "ZeroItems"
  | .zeroPaths => "ZeroPaths"
  | .zeroHopBudget => "ZeroHopBudget"
  | .depthTooLarge depth limit =>
    braced "DepthTooLarge" ["max_depth: " ++ natDiagnostic depth, "limit: " ++ natDiagnostic limit]
  | .emptyHopBudgets => "EmptyHopBudgets"
  | .unknownPreset name => wrapped "UnknownPreset" (quoted name)
  | .unknownTailPolicy name => wrapped "UnknownTailPolicy" (quoted name)
  | .file fault => wrapped "Io" fault.diagnostic
  | .json error => wrapped "Json" error.diagnostic

def ResolveFault.diagnostic : ResolveFault → String
  | .param fault => wrapped "Param" fault.diagnostic
  | .paramsFile path fault =>
    braced "ParamsFile" ["path: " ++ quoted path, "source: " ++ fault.diagnostic]
  | .hopBudgetList raw reason =>
    braced "HopBudgetList" ["raw: " ++ quoted raw, "reason: " ++ quoted reason]

def RunFault.diagnostic : RunFault → String
  | .param fault => fault.diagnostic
  | .file fault => fault.diagnostic

end BucketOverflow
