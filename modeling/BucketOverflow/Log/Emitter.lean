import BucketOverflow.Log.Entry

/-!
Writing log entries. An emitter numbers the entries that have no trace id, gives its component to
those that have none, and writes one line for each, to a file through a buffer or to nowhere. A file
that is open takes all that is written to it: there is no full disk and no other fault of a write.
-/
namespace BucketOverflow
open Text

/-- The bytes in `pending` follow the `sent` ones that are already in the file at `sink`. -/
structure Emitter where
  component : String
  runId : String
  assigned : Nat
  sink : Option Place
  sent : Nat
  pending : ByteArray

namespace Emitter

/-- How many bytes wait at most. -/
def bufferSize : Nat := 8192

def toNowhere (component runId : String) : Emitter := ⟨component, runId, 0, none, 0, .empty⟩

/-- An emitter to a file, which is emptied. -/
def toFile (fs : Files) (path component runId : String) : Except FileFault (Emitter × Files) := do
  let (place, fs) ← fs.create path
  return (⟨component, runId, 0, some place, 0, .empty⟩, fs)

/-- Sends bytes to the file behind those sent before. -/
def send (em : Emitter) (fs : Files) (bytes : ByteArray) : Emitter × Files :=
  ({ em with sent := em.sent + bytes.size },
    match em.sink with
    | some place => fs.writeAt place em.sent bytes
    | none => fs)

/-- Sends what is pending. This cannot fail. -/
def flush (em : Emitter) (fs : Files) : Emitter × Files :=
  { em with pending := .empty }.send fs em.pending

/-- Takes in bytes; what no longer fits makes room first, and what never fits is sent at once. -/
def write (em : Emitter) (fs : Files) (bytes : ByteArray) : Emitter × Files :=
  let room := bufferSize - em.pending.size
  if bytes.size < room then ({ em with pending := em.pending ++ bytes }, fs)
  else
    let (em, fs) := if room < bytes.size then em.flush fs else (em, fs)
    if bufferSize ≤ bytes.size then em.send fs bytes
    else ({ em with pending := em.pending ++ bytes }, fs)

/-- The id of the entry with this number. -/
def traceId (em : Emitter) (number : Nat) : String :=
  em.component ++ "::" ++ em.runId ++ "::" ++ String.ofList (decimalPad 3 number)

/-- An entry with its gaps filled, and the emitter that has counted it. -/
def fill (em : Emitter) (e : LogEntry) : LogEntry × Emitter :=
  let entry := { e with component := some (e.component.getD em.component) }
  if e.traceId = "" then
    let number := em.assigned + 1
    ({ entry with traceId := em.traceId number }, { em with assigned := number })
  else (entry, em)

/-- Writes an entry's line and gives the entry as it was written. This cannot fail. -/
def emit (em : Emitter) (fs : Files) (e : LogEntry) : LogEntry × Emitter × Files :=
  let (entry, em) := em.fill e
  let (em, fs) := em.write fs entry.line.toUTF8
  (entry, em.write fs "\n".toUTF8)

end Emitter
end BucketOverflow
