import BucketOverflow.Json.Printer
import BucketOverflow.Text.Quoted

/-!
Why a text is not the JSON that was wanted: faults of syntax, which have a place, and faults of
shape. One function gives the wording of each cause.
-/
namespace BucketOverflow.Json

/-- What was met where another kind of value was wanted. -/
inductive Found where
  | null
  | bool (b : Bool)
  | int (n : Int)
  | float (x : Binary64)
  | str (s : String)
  | seq
  | map

inductive Cause where
  | eofValue
  | eofList
  | eofObject
  | eofString
  | expectedValue
  | expectedIdent
  | expectedColon
  | expectedListEnd
  | expectedObjectEnd
  | keyNotString
  | trailingComma
  | trailingCharacters
  | invalidNumber
  | outOfRange
  | controlCharacter
  | invalidEscape
  | loneSurrogate
  | unfinishedPair
  | tooDeep
  | invalidType (found : Found) (expected : String)
  | invalidValue (found : Found) (expected : String)
  | invalidLength (length : Nat) (expected : String)
  | unknownVariant (name : String) (known : List String)
  | missingField (name : String)
  | duplicateField (name : String)

def Found.text : Found → String
  | .null => "null"
  | .bool b => "boolean `" ++ (if b then "true" else "false") ++ "`"
  | .int n => "integer `" ++ String.ofList (signedDecimal n) ++ "`"
  | .float x => "floating point `" ++ String.ofList (number x) ++ "`"
  | .str s => "string " ++ String.ofList (Text.quoteVisible s)
  | .seq => "sequence"
  | .map => "map"

def ticked (s : String) : String := "`" ++ s ++ "`"

/-- The choices of a variant: one, two joined by "or", or a list. -/
def oneOf : List String → String
  | [a] => ticked a
  | [a, b] => ticked a ++ " or " ++ ticked b
  | names => "one of " ++ ", ".intercalate (names.map ticked)

def Cause.message : Cause → String
  | .eofValue => "EOF while parsing a value"
  | .eofList => "EOF while parsing a list"
  | .eofObject => "EOF while parsing an object"
  | .eofString => "EOF while parsing a string"
  | .expectedValue => "expected value"
  | .expectedIdent => "expected ident"
  | .expectedColon => "expected `:`"
  | .expectedListEnd => "expected `,` or `]`"
  | .expectedObjectEnd => "expected `,` or `\x7d`"
  | .keyNotString => "key must be a string"
  | .trailingComma => "trailing comma"
  | .trailingCharacters => "trailing characters"
  | .invalidNumber => "invalid number"
  | .outOfRange => "number out of range"
  | .controlCharacter => "control character (\\u0000-\\u001F) found while parsing a string"
  | .invalidEscape => "invalid escape"
  | .loneSurrogate => "lone leading surrogate in hex escape"
  | .unfinishedPair => "unexpected end of hex escape"
  | .tooDeep => "recursion limit exceeded"
  | .invalidType found expected => "invalid type: " ++ found.text ++ ", expected " ++ expected
  | .invalidValue found expected => "invalid value: " ++ found.text ++ ", expected " ++ expected
  | .invalidLength n expected =>
    "invalid length " ++ String.ofList (Text.decimal n) ++ ", expected " ++ expected
  | .unknownVariant name known => "unknown variant " ++ ticked name ++ ", expected " ++ oneOf known
  | .missingField name => "missing field " ++ ticked name
  | .duplicateField name => "duplicate field " ++ ticked name

/-- A cause and how many bytes of the text lie behind its place. -/
structure Fault where
  cause : Cause
  left : Nat

/-- A cause with its line and column; line zero stands for no place. -/
structure Error where
  cause : Cause
  line : Nat
  column : Nat

namespace Error

def unplaced (cause : Cause) : Error := ⟨cause, 0, 0⟩

def message (e : Error) : String :=
  if e.line = 0 then e.cause.message
  else e.cause.message ++ " at line " ++ String.ofList (Text.decimal e.line)
    ++ " column " ++ String.ofList (Text.decimal e.column)

end Error

/-- The line and column after so many bytes, counted in bytes on the line. -/
def position (line column : Nat) : (bytes : Nat) → List Char → Nat × Nat
  | 0, _ => (line, column)
  | _, [] => (line, column)
  | bytes, c :: cs =>
    if c = '\n' then position (line + 1) 0 (bytes - 1) cs
    else if bytes ≤ c.utf8Size then (line, column + bytes)
    else position line (column + c.utf8Size) (bytes - c.utf8Size) cs

def bytesOf (cs : List Char) : Nat := cs.foldl (fun n c => n + c.utf8Size) 0

/-- The place of a fault in its text. -/
def Fault.locate (text : List Char) (f : Fault) : Error :=
  let (line, column) := position 1 0 (bytesOf text - f.left) text
  ⟨f.cause, line, column⟩

end BucketOverflow.Json
