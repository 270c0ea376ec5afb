import BucketOverflow.Json.Skip

/-!
Reading a text straight into typed values. A record is an object of named fields or an array of
them in order; fields that are not known are passed over. The first fault met in the text decides.
-/
namespace BucketOverflow.Json
open Text

def Number.found : Number → Found
  | .int n => .int n
  | .float x => .float x

/-- Refuses the value in front, once its kind is known. -/
def refuse (expected : String) : Reader α := fun cs =>
  let wrong (found : Found) (r : List Char) : Except Fault (α × List Char) :=
    failAt (.invalidType found expected) r
  match skipSpace cs with
  | [] => failIn .eofValue []
  | 'n' :: r => do let (_, r) ← letters ['u', 'l', 'l'] r; wrong .null r
  | 't' :: r => do let (_, r) ← letters ['r', 'u', 'e'] r; wrong (.bool true) r
  | 'f' :: r => do let (_, r) ← letters ['a', 'l', 's', 'e'] r; wrong (.bool false) r
  | '-' :: r => do let (n, r) ← number? true r; wrong n.found r
  | '"' :: r => do let (s, r) ← stringBody r; wrong (.str s) r
  | '[' :: r => wrong .seq ('[' :: r)
  | '{' :: r => wrong .map ('{' :: r)
  | c :: r =>
    if isDigit c then do let (n, r) ← number? false (c :: r); wrong n.found r
    else failIn .expectedValue (c :: r)

/-- A number of either kind. -/
def anyNumber (expected : String) : Reader Number := fun cs =>
  match skipSpace cs with
  | '-' :: r => number? true r
  | c :: r => if isDigit c then number? false (c :: r) else refuse expected (c :: r)
  | [] => failIn .eofValue []

/-- A natural number below a limit; a float is refused even if it is whole. -/
def unsigned (limit : Nat) (expected : String) : Reader Nat := fun cs => do
  match ← anyNumber expected cs with
  | (.int n, r) =>
    if 0 ≤ n ∧ n < limit then return (n.toNat, r)
    else failAt (.invalidValue (.int n) expected) r
  | (.float x, r) => failAt (.invalidType (.float x) expected) r

def natural64 : Reader Nat := unsigned 0x10000000000000000 "u64"
def natural32 : Reader Nat := unsigned 0x100000000 "u32"

/-- A number; integers are rounded to nearest. -/
def binary64 : Reader Binary64 := fun cs => do
  match ← anyNumber "f64" cs with
  | (.int n, r) => return (if n < 0 then -(.ofNat n.natAbs) else .ofNat n.natAbs, r)
  | (.float x, r) => return (x, r)

def text : Reader String := fun cs =>
  match skipSpace cs with
  | '"' :: r => stringBody r
  | r => refuse "a string" r

def list (item : Reader α) : Reader (List α) := fun cs =>
  match skipSpace cs with
  | '[' :: r => items item r
  | r => refuse "a sequence" r

/-- A value or null. -/
def optional (item : Reader α) : Reader (Option α) := fun cs =>
  match skipSpace cs with
  | 'n' :: r => do let (_, r) ← letters ['u', 'l', 'l'] r; return (none, r)
  | r => do let (x, r) ← item r; return (some x, r)

/-- The meaning of a variant's name. -/
def named (known : List (String × α)) (name : String) : Except Cause α :=
  match known.lookup name with
  | some a => .ok a
  | none => .error (.unknownVariant name (known.map (·.1)))

def namedAt (known : List (String × α)) (name : String) : Reader α := fun r =>
  match named known name with
  | .ok a => .ok (a, r)
  | .error e => failAt e r

/-- The only key of an object that stands for a variant. -/
def variantKey : Reader String := fun cs =>
  match skipSpace cs with
  | '"' :: r => stringBody r
  | [] => failIn .eofObject []
  | '}' :: r => failIn .expectedValue ('}' :: r)
  | r => failIn .keyNotString r

/-- A variant: its name, or an object with the name as key and null as value. -/
def variant (known : List (String × α)) : Reader α := fun cs =>
  match skipSpace cs with
  | [] => failIn .eofValue []
  | '"' :: r => do
    let (name, r) ← stringBody r
    namedAt known name r
  | '{' :: r => do
    let (name, r) ← variantKey r
    let (a, r) ← namedAt known name r
    let (_, r) ← colon r
    match skipSpace r with
    | 'n' :: r => do
      let (_, r) ← letters ['u', 'l', 'l'] r
      match skipSpace r with
      | '}' :: r => return (a, r)
      | [] => failAt .eofObject []
      | r => failAt .expectedValue r
    | r => refuse "unit" r
  | r => failIn .expectedValue r

/-- A named field of a record under construction `σ`. -/
structure Slot (σ : Type) where
  name : String
  filled : σ → Bool
  read : σ → Reader σ

/-- The text behind a closing bracket, or in front of whatever stands in its place. -/
def behindClose (close : Char) (cs : List Char) : List Char :=
  match skipSpace cs with
  | c :: r => if c = close then r else c :: r
  | [] => []

/-- A field behind its key; a second one of the name is refused before its value is read. -/
def slotMember (slots : List (Slot σ)) (s : σ) (key : String) : Reader σ := fun cs =>
  match slots.find? (·.name = key) with
  | none => do
    let (_, r) ← colon cs
    let (_, r) ← skip r
    return (s, r)
  | some slot =>
    if slot.filled s then failAt (.duplicateField slot.name) (behindClose '}' cs)
    else do
      let (_, r) ← colon cs
      slot.read s r

/-- The next item of an array, if there is one. -/
def nextItem (first : Bool) : Reader Bool := fun cs =>
  match skipSpace cs with
  | [] => failIn .eofList []
  | ']' :: r => .ok (false, ']' :: r)
  | ',' :: r =>
    if first then .ok (true, ',' :: r)
    else match skipSpace r with
      | ']' :: r => failIn .trailingComma (']' :: r)
      | [] => failIn .eofValue []
      | r => .ok (true, r)
  | r => if first then .ok (true, r) else failIn .expectedListEnd r

/-- Fields in order; `short` says what to do when the array ends after `n` of them. -/
def slotItems (short : Nat → σ → Except Cause σ) : List (Slot σ) → (n : Nat) → σ → Reader σ
  | [], _, s, cs => .ok (s, cs)
  | slot :: slots, n, s, cs => do
    match ← nextItem (n == 0) cs with
    | (true, r) =>
      let (s, r) ← slot.read s r
      slotItems short slots (n + 1) s r
    | (false, r) =>
      match short n s with
      | .ok s => return (s, r)
      | .error e => failAt e (behindClose ']' r)

/-- The closing bracket of an array whose items have all been read. -/
def endItems : Reader Unit := fun cs =>
  match skipSpace cs with
  | ']' :: r => .ok ((), r)
  | [] => failIn .eofList []
  | ',' :: r =>
    match skipSpace r with
    | ']' :: r => failIn .trailingComma (']' :: r)
    | r => failIn .trailingCharacters r
  | r => failIn .trailingCharacters r

/-- How a record is read: its kind in messages, its fields, and what has to be there in the end. -/
structure Schema (σ α : Type) where
  kind : String
  slots : List (Slot σ)
  empty : σ
  short : Nat → σ → Except Cause σ
  finish : σ → Except Cause α

/-- An array that ends early leaves a record incomplete. -/
def tooShort (kind : String) (size : Nat) : Nat → σ → Except Cause σ := fun n _ =>
  .error (.invalidLength n (kind ++ " with " ++ String.ofList (decimal size)
    ++ if size = 1 then " element" else " elements"))

/-- A field that has to be there. -/
def required (name : String) : Option α → Except Cause α
  | some a => .ok a
  | none => .error (.missingField name)

/-- The finished record, at the text behind its closing bracket. -/
def finishAt (s : Schema σ α) (x : σ) : Reader α := fun r =>
  match s.finish x with
  | .ok a => .ok (a, r)
  | .error e => failAt e r

/-- A record of a schema. -/
def record (s : Schema σ α) : Reader α := fun cs =>
  match skipSpace cs with
  | '{' :: r => do
    let (x, r) ← members (slotMember s.slots) s.empty r
    finishAt s x (behindClose '}' r)
  | '[' :: r => do
    let (x, r) ← slotItems s.short s.slots 0 s.empty r
    let (_, r) ← endItems r
    finishAt s x r
  | r => refuse s.kind r

end BucketOverflow.Json
