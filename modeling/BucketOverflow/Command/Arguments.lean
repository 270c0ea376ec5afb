import BucketOverflow.Overrides

/-!
The command line: subcommands with long options, each given at most once, as `--name value` or as
`--name=value`. A text that fits no command is a usage error.
-/
namespace BucketOverflow
open Text

/-- What is asked for. -/
inductive Command where
  | sweep (params : Overrides) (report log : Option String) (chartRows : Nat)
  | compare (params : Overrides) (hopBudgets : String) (log : Option String) (chartRows : Nat)
  | snapshot (params : Overrides) (output : String)
  | diffSnapshot (golden current : String) (all : Bool)
  | validateLog (input : String)

namespace Command

/-- What the value of an option has to be. -/
inductive OptionKind where
  | flag
  | text
  | path
  | natural32
  | natural64
deriving DecidableEq

/-- The options of each subcommand that sweeps. -/
def paramOptions : List (String × OptionKind) :=
  [("preset", .text), ("params", .path), ("capacity", .natural64), ("items", .natural64),
    ("paths", .natural64), ("max-depth", .natural32), ("hop-budget", .natural32),
    ("tail-policy", .text)]

/-- The options of a subcommand. -/
def optionsOf : String → Option (List (String × OptionKind))
  | "sweep" =>
    some (paramOptions ++ [("report", .path), ("log", .path), ("chart-rows", .natural64)])
  | "compare" =>
    some (paramOptions ++ [("hop-budgets", .text), ("log", .path), ("chart-rows", .natural64)])
  | "snapshot" => some (paramOptions ++ [("output", .path)])
  | "diff-snapshot" => some [("golden", .path), ("current", .path), ("all", .flag)]
  | "validate-log" => some [("input", .path)]
  | _ => none

/-- Options by name, as given. -/
abbrev Given := List (String × String)

/-- A number of 64 bits. -/
def readNatural64 (value : String) : Option Nat :=
  (readUnsigned 10 0x10000000000000000 value.toList).toOption

/-- A number of 32 bits, read as a signed one: zero may have a minus in front. -/
def readNatural32 (value : String) : Option Nat :=
  match value.toList with
  | '-' :: ds => if !ds.isEmpty && ds.all (· = '0') then some 0 else none
  | cs => (readUnsigned 10 0x100000000 cs).toOption

/-- Whether a value can be given to an option of a kind. -/
def OptionKind.accepts (value : String) : OptionKind → Bool
  | .flag => false
  | .text => true
  | .path => value ≠ ""
  | .natural32 => (readNatural32 value).isSome
  | .natural64 => (readNatural64 value).isSome

/-- The name of a long option and the value attached to it. -/
def longOption? (arg : String) : Option (String × Option String) :=
  match arg.toList with
  | '-' :: '-' :: c :: cs =>
    let body := c :: cs
    let name := body.takeWhile (· ≠ '=')
    some (String.ofList name,
      if name.length = body.length then none
      else some (String.ofList (body.drop (name.length + 1))))
  | _ => none

/-- Whether an argument can be the value of the option before it; of those with a dash in front only
a lone dash can. -/
def canBeValue (arg : String) : Bool := arg = "-" || arg.toList.head? ≠ some '-'

/-- Notes an option with a fitting value, once. -/
def give (given : Given) (name : String) (kind : OptionKind) (value : String) : Option Given :=
  if kind.accepts value && (given.lookup name).isNone then some (given ++ [(name, value)]) else none

/-- Reads options; `none` is a usage error. A double dash ends them, and nothing may follow it. -/
def readOptions (options : List (String × OptionKind)) : Given → List String → Option Given
  | given, [] => some given
  | given, ["--"] => some given
  | given, arg :: args =>
    match longOption? arg with
    | none => none
    | some (name, attached) =>
      match options.lookup name, attached, args with
      | none, _, _ => none
      | some .flag, none, args =>
        if (given.lookup name).isSome then none
        else readOptions options (given ++ [(name, "")]) args
      | some kind, some value, args =>
        match give given name kind value with
        | some given => readOptions options given args
        | none => none
      | some kind, none, value :: args =>
        if canBeValue value then
          match give given name kind value with
          | some given => readOptions options given args
          | none => none
        else none
      | some _, none, [] => none

def overridesOf (given : Given) : Overrides where
  preset := given.lookup "preset"
  paramsFile := given.lookup "params"
  capacity := ((given.lookup "capacity").bind readNatural64).map .ofNat
  items := ((given.lookup "items").bind readNatural64).map .ofNat
  paths := ((given.lookup "paths").bind readNatural64).map .ofNat
  maxDepth := ((given.lookup "max-depth").bind readNatural32).map .ofNat
  hopBudget := ((given.lookup "hop-budget").bind readNatural32).map .ofNat
  tailPolicy := given.lookup "tail-policy"

def defaultChartRows : Nat := 16
def defaultHopBudgets : String := "10,100,1000"

/-- The command that the options of a subcommand make up. -/
def ofGiven (name : String) (given : Given) : Option Command :=
  let params := overridesOf given
  let rows := ((given.lookup "chart-rows").bind readNatural64).getD defaultChartRows
  match name with
  | "sweep" => some (.sweep params (given.lookup "report") (given.lookup "log") rows)
  | "compare" => some (.compare params ((given.lookup "hop-budgets").getD defaultHopBudgets)
      (given.lookup "log") rows)
  | "snapshot" => (given.lookup "output").map fun output => .snapshot params output
  | "diff-snapshot" => do
    let golden ← given.lookup "golden"
    let current ← given.lookup "current"
    return .diffSnapshot golden current (given.lookup "all").isSome
  | "validate-log" => (given.lookup "input").map .validateLog
  | _ => none

/-- The command that arguments make up; `none` is a usage error. -/
def ofArguments : List String → Option Command
  | [] => none
  | name :: args => do
    let options ← optionsOf name
    ofGiven name (← readOptions options [] args)

/-- The paths that a command reads or writes. -/
def paths : Command → List String
  | .sweep params report log _ =>
    params.paramsFile.toList ++ report.toList ++ (report.map (Path.withExtension "json")).toList
      ++ log.toList
  | .compare params _ log _ => params.paramsFile.toList ++ log.toList
  | .snapshot params output => params.paramsFile.toList ++ [output]
  | .diffSnapshot golden current _ => [golden, current]
  | .validateLog input => [input]

/-- Whether a command writes a log, in which it says how long it took. -/
def keepsLog : Command → Bool
  | .sweep _ _ log _ => log.isSome
  | .compare _ _ log _ => log.isSome
  | _ => false

end Command
end BucketOverflow
