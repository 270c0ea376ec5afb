import BucketOverflow.Log.Entry

/-!
Checking lines of a structured log against its schema.
-/
namespace BucketOverflow
open Text

/-- What is wrong with a field of a line. -/
structure LogFault where
  line : Nat
  field : String
  reason : String

def LogFault.message (f : LogFault) : String :=
  "line " ++ String.ofList (decimal f.line) ++ ": field '" ++ f.field ++ "': " ++ f.reason

namespace LogEntry

/-- An entry of which any part may be missing. -/
structure Draft where
  timestamp : Option String
  traceId : Option String
  level : Option LogLevel
  event : Option String
  component : Option String
  preset : Option String
  tailPolicy : Option String
  params : Option Json
  outcome : Option Outcome
  durationMs : Option Nat
  artifactRefs : Option (List String)
  details : Option Json

namespace Draft

def empty : Draft := ⟨none, none, none, none, none, none, none, none, none, none, none, none⟩

/-- Takes in one named value; other names are passed over. -/
def set (d : Draft) (name : String) (v : Json) : Except Json.Cause Draft :=
  match name with
  | "timestamp" => v.toText.map fun x => { d with timestamp := some x }
  | "trace_id" => v.toText.map fun x => { d with traceId := some x }
  | "level" => (v.toVariant LogLevel.known).map fun x => { d with level := some x }
  | "event" => v.toText.map fun x => { d with event := some x }
  | "component" => (v.toOptional Json.toText).map fun x => { d with component := x }
  | "preset" => (v.toOptional Json.toText).map fun x => { d with preset := x }
  | "tail_policy" => (v.toOptional Json.toText).map fun x => { d with tailPolicy := x }
  | "params" => (v.toOptional .ok).map fun x => { d with params := x }
  | "outcome" => (v.toOptional (Json.toVariant Outcome.known)).map fun x => { d with outcome := x }
  | "duration_ms" => (v.toOptional Json.toNatural64).map fun x => { d with durationMs := x }
  | "artifact_refs" =>
    (v.toOptional (Json.toList Json.toText)).map fun x => { d with artifactRefs := x }
  | "details" => (v.toOptional .ok).map fun x => { d with details := x }
  | _ => .ok d

def finish (d : Draft) : Except Json.Cause LogEntry := do
  let timestamp ← Json.required "timestamp" d.timestamp
  let traceId ← Json.required "trace_id" d.traceId
  let level ← Json.required "level" d.level
  let event ← Json.required "event" d.event
  return ⟨timestamp, traceId, level, event, d.component, d.preset, d.tailPolicy, d.params,
    d.outcome, d.durationMs, d.artifactRefs, d.details⟩

end Draft

/-- The entry that the fields of an object hold. -/
def ofFields (fields : Json.Members) : Except Json.Cause LogEntry := do
  (← fields.foldlM (fun d f => Draft.set d f.1 f.2) .empty).finish

end LogEntry

namespace Log

/-- A field and why it is refused. -/
abbrev Complaint := String × String

def requiredFields : List String := ["timestamp", "trace_id", "level", "event"]

/-- The constants that parameters have to hold. -/
def modelConstants : List String := ["capacity", "items", "paths", "max_depth", "hop_budget"]

def missingFields (fields : Json.Members) : List Complaint :=
  (requiredFields.filter fun name => (Json.field? name fields).isNone).map fun name =>
    (name, "required field missing")

/-- A text that is none of the known names; other values are left to the reader of entries. -/
def unknownName (fields : Json.Members) (field : String) (known : List String) : List Complaint :=
  match (Json.field? field fields).bind Json.str? with
  | some name =>
    if known.contains name then [] else [(field, "invalid " ++ field ++ ": '" ++ name ++ "'")]
  | none => []

def badParams (fields : Json.Members) : List Complaint :=
  match Json.field? "params" fields with
  | none => []
  | some (.obj p) =>
    (modelConstants.filter fun key => !((Json.field? key p).map Json.isNatural).getD false).map
      fun key => ("params", "missing or non-integer '" ++ key ++ "'")
  | some _ => [("params", "expected object")]

def badTraceId (fields : Json.Members) : List Complaint :=
  match (Json.field? "trace_id" fields).bind Json.str? with
  | some id =>
    if colonPieces id.toList = 3 then []
    else [("trace_id",
      "trace_id should follow <component>::<run_id>::<seq> format, got: '" ++ id ++ "'")]
  | none => []

/-- What the checks by field find, in their order. -/
def complaints (fields : Json.Members) : List Complaint :=
  missingFields fields
    ++ unknownName fields "level" (LogLevel.known.map (·.1))
    ++ unknownName fields "tail_policy" (TailPolicy.known.map (·.1))
    ++ unknownName fields "outcome" (Outcome.known.map (·.1))
    ++ badParams fields
    ++ badTraceId fields

/-- The entry on a line, or all that is wrong with the line. -/
def validateLine (line : String) (number : Nat) : Except (List LogFault) LogEntry :=
  let fail (cs : List Complaint) : Except (List LogFault) LogEntry :=
    .error (cs.map fun c => ⟨number, c.1, c.2⟩)
  match Json.parse line with
  | .error e => fail [("<json>", "invalid JSON: " ++ e.message)]
  | .ok (.obj fields) =>
    match complaints fields with
    | [] =>
      match LogEntry.ofFields fields with
      | .ok entry => .ok entry
      | .error e => fail [("<deserialization>", "failed to deserialize: " ++ e.message)]
    | cs => fail cs
  | .ok _ => fail [("<root>", "expected JSON object")]

/-- How many lines are not blank, and what is wrong with them; lines are numbered from one. -/
def validateText (text : String) : Nat × List LogFault :=
  let numbered := (lines text.toList).zipIdx.map fun (line, i) => (trim line, i + 1)
  let kept := numbered.filter fun l => !l.1.isEmpty
  (kept.length, kept.flatMap fun l =>
    match validateLine (String.ofList l.1) l.2 with
    | .ok _ => []
    | .error faults => faults)

def validateFile (fs : Files) (path : String) : Except FileFault (Nat × List LogFault) :=
  (fs.readText path).map validateText

end Log
end BucketOverflow
