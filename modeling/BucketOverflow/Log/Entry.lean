import BucketOverflow.Calendar
import BucketOverflow.Params.Json

/-!
Entries of a structured log, each one line of compact JSON. Objects inside an entry have their
fields sorted.
-/
namespace BucketOverflow

inductive LogLevel where
  | trace
  | debug
  | info
  | warn
  | error
deriving DecidableEq

inductive Outcome where
  | pass
  | fail
  | error
deriving DecidableEq

namespace LogLevel

def name : LogLevel → String
  | .trace => "trace"
  | .debug => "debug"
  | .info => "info"
  | .warn => "warn"
  | .error => "error"

def known : List (String × LogLevel) :=
  [("trace", .trace), ("debug", .debug), ("info", .info), ("warn", .warn), ("error", .error)]

end LogLevel

namespace Outcome

def name : Outcome → String
  | .pass => "pass"
  | .fail => "fail"
  | .error => "error"

def known : List (String × Outcome) := [("pass", .pass), ("fail", .fail), ("error", .error)]

end Outcome

/-- Four fields that every entry has, and others that it may have. -/
structure LogEntry where
  timestamp : String
  traceId : String
  level : LogLevel
  event : String
  component : Option String
  preset : Option String
  tailPolicy : Option String
  params : Option Json
  outcome : Option Outcome
  durationMs : Option Nat
  artifactRefs : Option (List String)
  details : Option Json

namespace LogEntry

def new (timestamp traceId : String) (level : LogLevel) (event : String) : LogEntry :=
  ⟨timestamp, traceId, level, event, none, none, none, none, none, none, none, none⟩

def withPreset (e : LogEntry) (preset : String) : LogEntry := { e with preset := some preset }

/-- Records the parameters and their tail policy. -/
def withParams (e : LogEntry) (p : Params) : LogEntry :=
  { e with
    tailPolicy := some p.tailPolicy.name
    params := some (.obj (Json.sortFields (p.toJson.fields?.getD []))) }

def withOutcome (e : LogEntry) (outcome : Outcome) : LogEntry := { e with outcome := some outcome }
def withDuration (e : LogEntry) (ms : Nat) : LogEntry := { e with durationMs := some ms }
def withArtifacts (e : LogEntry) (refs : List String) : LogEntry :=
  { e with artifactRefs := some refs }
def withDetails (e : LogEntry) (details : Json) : LogEntry := { e with details := some details }

/-- A field that is written only if it is there. -/
def optional (name : String) (v : Option Json) : Json.Members := (v.map fun j => (name, j)).toList

def toJson (e : LogEntry) : Json :=
  .obj ([("timestamp", .str e.timestamp), ("trace_id", .str e.traceId),
      ("level", .str e.level.name), ("event", .str e.event)]
    ++ optional "component" (e.component.map .str)
    ++ optional "preset" (e.preset.map .str)
    ++ optional "tail_policy" (e.tailPolicy.map .str)
    ++ optional "params" e.params
    ++ optional "outcome" (e.outcome.map fun o => .str o.name)
    ++ optional "duration_ms" (e.durationMs.map .ofNat)
    ++ optional "artifact_refs" (e.artifactRefs.map fun refs => .arr (refs.map .str))
    ++ optional "details" e.details)

/-- The entry's line, not ended. -/
def line (e : LogEntry) : String := e.toJson.toCompact

end LogEntry
end BucketOverflow
