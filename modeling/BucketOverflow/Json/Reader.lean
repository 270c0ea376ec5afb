import BucketOverflow.Json.Fault

/-!
Reading JSON. A reader takes the rest of a text to a value and the rest behind it, or to a fault.
Values nest at most 127 deep.
-/
namespace BucketOverflow.Json
open Text

abbrev Reader (α : Type) := List Char → Except Fault (α × List Char)

/-- A fault in front of `cs`. -/
def failAt (cause : Cause) (cs : List Char) : Except Fault α := .error ⟨cause, bytesOf cs⟩

/-- A fault behind the first byte of `cs`, or at the end of the text. -/
def failIn (cause : Cause) (cs : List Char) : Except Fault α := .error ⟨cause, bytesOf cs - 1⟩

def isSpace (c : Char) : Bool := c == ' ' || c == '\n' || c == '\t' || c == '\r'

def skipSpace (cs : List Char) : List Char := cs.dropWhile isSpace

/-- The given letters. -/
def letters : (word : List Char) → Reader Unit
  | [], cs => .ok ((), cs)
  | _ :: _, [] => failAt .eofValue []
  | w :: ws, c :: cs => if c = w then letters ws cs else failIn .expectedIdent (c :: cs)

/-! Numbers -/

/-- A number as it is written: with a point or exponent it is a float, and so is an integer of more
than 64 bits. -/
inductive Number where
  | int (n : Int)
  | float (x : Binary64)

def Number.toJson : Number → Json
  | .int n => .int n
  | .float x => .float x

/-- A significand has 64 bits. -/
def significandLimit : Nat := 0x10000000000000000

/-- Takes and counts digits while the significand stays below its limit. -/
def gather (s taken : Nat) : List Char → Nat × Nat × List Char
  | [] => (s, taken, [])
  | c :: cs =>
    if isDigit c && s * 10 + (c.toNat - 48) < significandLimit then
      gather (s * 10 + (c.toNat - 48)) (taken + 1) cs
    else (s, taken, c :: cs)

/-- The value `10 ^ k` to nearest. -/
def powerOfTen (k : Nat) : Binary64 := .ofNat (Nat.pow 10 k)

/--
Scales by a power of ten in steps of at most `10 ^ 308`, rounding each; `none` when out of range. A
64-bit significand vanishes within three steps down.
-/
def scale : (steps : Nat) → Binary64 → Int → Option Binary64
  | 0, f, _ => some f
  | n + 1, f, e =>
    if e.natAbs ≤ 308 then
      if 0 ≤ e then
        let g := f * powerOfTen e.natAbs
        if g.isInf then none else some g
      else some (f / powerOfTen e.natAbs)
    else if f.isZero then some f
    else if 0 < e then none
    else scale n (f / powerOfTen 308) (e + 308)

/-- The number `s * 10 ^ e` with a sign. -/
def floatNumber (neg : Bool) (s : Nat) (e : Int) : Reader Number := fun cs =>
  match scale 3 (.ofNat s) e with
  | some f => .ok (.float (if neg then -f else f), cs)
  | none => failAt .outOfRange cs

/-- Exponent digits of at most 31 bits; `none` beyond, with the text behind the digit in excess. -/
def gatherExponent (n : Nat) : List Char → Option Nat × List Char
  | [] => (some n, [])
  | c :: cs =>
    if isDigit c then
      if n * 10 + (c.toNat - 48) < 0x80000000 then gatherExponent (n * 10 + (c.toNat - 48)) cs
      else (none, cs)
    else (some n, c :: cs)

/-- What follows the mark of an exponent. -/
def exponent (neg : Bool) (s : Nat) (e : Int) : Reader Number := fun cs =>
  let (down, ds) := match cs with
    | '+' :: r => (false, r)
    | '-' :: r => (true, r)
    | r => (false, r)
  match ds with
  | [] => failAt .eofValue []
  | c :: _ =>
    if isDigit c then
      match gatherExponent 0 ds with
      | (some n, r) => floatNumber neg s (if down then e - n else e + n) r
      | (none, r) =>
        if s ≠ 0 && !down then failAt .outOfRange r
        else .ok (.float (.zero neg), r.dropWhile isDigit)
    else failIn .invalidNumber ds

/-- An exponent if there is one. -/
def exponent? (neg : Bool) (s : Nat) (e : Int) : Reader Number
  | 'e' :: cs => exponent neg s e cs
  | 'E' :: cs => exponent neg s e cs
  | cs => floatNumber neg s e cs

/-- What follows a point; digits beyond the significand's limit are dropped. -/
def fraction (neg : Bool) (s : Nat) (e : Int) : Reader Number := fun cs =>
  match cs with
  | [] => failIn .eofValue []
  | c :: _ =>
    if isDigit c then
      let (t, taken, r) := gather s 0 cs
      exponent? neg t (e - taken) (r.dropWhile isDigit)
    else failIn .invalidNumber cs

/-- An integer of 64 bits; a negative zero and one below `-2 ^ 63` become floats. -/
def integer (neg : Bool) (s : Nat) : Number :=
  if neg then
    if s = 0 || 0x8000000000000000 < s then .float (-(.ofNat s)) else .int (-(s : Int))
  else .int s

/-- What follows the digits of the whole part `s`, and `dropped` more of them that did not fit. -/
def afterWhole (neg : Bool) (s dropped : Nat) : Reader Number
  | '.' :: cs => fraction neg s dropped cs
  | 'e' :: cs => exponent neg s dropped cs
  | 'E' :: cs => exponent neg s dropped cs
  | cs => if dropped = 0 then .ok (integer neg s, cs) else floatNumber neg s dropped cs

/-- A number behind its sign. -/
def number? (neg : Bool) : Reader Number
  | [] => failAt .eofValue []
  | '0' :: cs =>
    match cs with
    | c :: _ => if isDigit c then failIn .invalidNumber cs else afterWhole neg 0 0 cs
    | [] => afterWhole neg 0 0 []
  | c :: cs =>
    if isDigit c then
      let (s, _, r) := gather (c.toNat - 48) 0 cs
      afterWhole neg s (r.takeWhile isDigit).length (r.dropWhile isDigit)
    else failIn .invalidNumber (c :: cs)

/-! Strings -/

/-- Four hexadecimal digits; fewer than four bytes run into the end of the text. -/
def hex4 (cs : List Char) : Except Fault (Nat × List Char) :=
  match cs with
  | a :: b :: c :: d :: rest =>
    match hexDigit? a, hexDigit? b, hexDigit? c, hexDigit? d with
    | some x, some y, some z, some w => .ok (((x * 16 + y) * 16 + z) * 16 + w, rest)
    | _, _, _, _ => .error ⟨.invalidEscape, bytesOf cs - 4⟩
  | _ => if bytesOf cs < 4 then .error ⟨.eofString, 0⟩ else .error ⟨.invalidEscape, bytesOf cs - 4⟩

/-- The second half of a surrogate pair whose first half is `high`. -/
def lowSurrogate (high : Nat) : Reader Char
  | [] => failAt .eofString []
  | ['\\'] => failAt .eofString []
  | '\\' :: 'u' :: cs =>
    match hex4 cs with
    | .error f => .error f
    | .ok (low, rest) =>
      if low < 0xdc00 || 0xdfff < low then failAt .loneSurrogate rest
      else .ok (Char.ofNat (0x10000 + (high - 0xd800) * 0x400 + (low - 0xdc00)), rest)
  | '\\' :: cs => failIn .unfinishedPair cs
  | cs => failIn .unfinishedPair cs

/-- What follows a backslash. -/
def escaped : Reader Char
  | [] => failAt .eofString []
  | '"' :: cs => .ok ('"', cs)
  | '\\' :: cs => .ok ('\\', cs)
  | '/' :: cs => .ok ('/', cs)
  | 'b' :: cs => .ok ('\x08', cs)
  | 'f' :: cs => .ok ('\x0c', cs)
  | 'n' :: cs => .ok ('\n', cs)
  | 'r' :: cs => .ok ('\r', cs)
  | 't' :: cs => .ok ('\t', cs)
  | 'u' :: cs =>
    match hex4 cs with
    | .error f => .error f
    | .ok (n, rest) =>
      if 0xdc00 ≤ n && n ≤ 0xdfff then failAt .loneSurrogate rest
      else if 0xd800 ≤ n && n ≤ 0xdbff then lowSurrogate n rest
      else .ok (Char.ofNat n, rest)
  | cs => failIn .invalidEscape cs

/-- The characters up to a closing quote, in reverse behind `acc`. Every turn takes one, so that the
text itself bounds the turns. -/
def stringChars : (bound acc : List Char) → Reader String
  | _, acc, '"' :: cs => .ok (String.ofList acc.reverse, cs)
  | _ :: bound, acc, '\\' :: cs =>
    match escaped cs with
    | .error f => .error f
    | .ok (c, rest) => stringChars bound (c :: acc) rest
  | _ :: bound, acc, c :: cs =>
    if c.toNat < 32 then failIn .controlCharacter (c :: cs) else stringChars bound (c :: acc) cs
  | _, _, _ => failAt .eofString []

/-- A string behind its opening quote. -/
def stringBody : Reader String := fun cs => stringChars cs [] cs

/-! Arrays and objects -/

/-- Items with commas between them up to the closing bracket; each takes one off the bound. -/
def itemsFrom (item : Reader α) : (bound : List Char) → (acc : List α) → Reader (List α)
  | [], _, cs => failIn .eofList cs
  | _ :: bound, acc, cs =>
    match item cs with
    | .error f => .error f
    | .ok (x, r) =>
      match skipSpace r with
      | ']' :: r => .ok ((x :: acc).reverse, r)
      | ',' :: r =>
        match skipSpace r with
        | ']' :: r => failIn .trailingComma (']' :: r)
        | [] => failIn .eofValue []
        | r => itemsFrom item bound (x :: acc) r
      | [] => failIn .eofList []
      | r => failIn .expectedListEnd r

/-- An array behind its opening bracket. -/
def items (item : Reader α) : Reader (List α) := fun cs =>
  match skipSpace cs with
  | [] => failIn .eofList []
  | ']' :: r => .ok ([], r)
  | r => itemsFrom item r [] r

/-- A colon behind a key. -/
def colon : Reader Unit := fun cs =>
  match skipSpace cs with
  | ':' :: r => .ok ((), r)
  | [] => failIn .eofObject []
  | r => failIn .expectedColon r

/-- Members with commas between them. `member` goes on from what was read so far, given a key and
the text behind it. -/
def membersFrom (member : σ → String → Reader σ) : (bound : List Char) → σ → Reader σ
  | [], _, cs => failIn .eofObject cs
  | _ :: bound, s, '"' :: cs => do
    let (key, r) ← stringBody cs
    let (s, r) ← member s key r
    match skipSpace r with
    | '}' :: r => .ok (s, '}' :: r)
    | ',' :: r =>
      match skipSpace r with
      | '}' :: r => failIn .trailingComma ('}' :: r)
      | [] => failIn .eofValue []
      | r => membersFrom member bound s r
    | [] => failIn .eofObject []
    | r => failIn .expectedObjectEnd r
  | _ :: _, _, cs => failIn .keyNotString cs

/-- The members of an object behind its opening brace, up to and without the closing one. -/
def members (member : σ → String → Reader σ) (s : σ) : Reader σ := fun cs =>
  match skipSpace cs with
  | [] => failIn .eofObject []
  | '}' :: r => .ok (s, '}' :: r)
  | r => membersFrom member r s r

/-- A value; `container` reads one that begins with a bracket or brace. -/
def valueWith (container : Reader Json) : Reader Json := fun cs =>
  match skipSpace cs with
  | [] => failIn .eofValue []
  | 'n' :: r => do let (_, r) ← letters ['u', 'l', 'l'] r; return (.null, r)
  | 't' :: r => do let (_, r) ← letters ['r', 'u', 'e'] r; return (.bool true, r)
  | 'f' :: r => do let (_, r) ← letters ['a', 'l', 's', 'e'] r; return (.bool false, r)
  | '-' :: r => do let (n, r) ← number? true r; return (n.toJson, r)
  | '"' :: r => do let (s, r) ← stringBody r; return (.str s, r)
  | '[' :: r => container ('[' :: r)
  | '{' :: r => container ('{' :: r)
  | c :: r =>
    if isDigit c then do let (n, r) ← number? false (c :: r); return (n.toJson, r)
    else failIn .expectedValue (c :: r)

/-- A field of an object under construction. -/
def valueMember (value : Reader Json) (fields : Members) (key : String) : Reader Members :=
  fun cs => do
    let (_, r) ← colon cs
    let (v, r) ← value r
    return (Fields.insert key v fields, r)

/-- An array or object whose values are read by `value`. -/
def containerOf (value : Reader Json) : Reader Json
  | '[' :: cs => do let (xs, r) ← items value cs; return (.arr xs, r)
  | '{' :: cs => do
    let (fields, r) ← members (valueMember value) [] cs
    return (.obj fields, r.drop 1)
  | cs => failIn .expectedValue cs

/-- A value that nests at most `levels` deep. -/
def value : (levels : Nat) → Reader Json
  | 0 => valueWith (failIn .tooDeep)
  | n + 1 => valueWith (containerOf (value n))

/-- The deepest nesting that is read. -/
def maxLevels : Nat := 127

/-- Nothing but blanks up to the end. -/
def finish (r : Except Fault (α × List Char)) : Except Fault α := do
  let (x, rest) ← r
  match skipSpace rest with
  | [] => return x
  | rest => failIn .trailingCharacters rest

/-- Reads a whole text, giving faults their place in it. -/
def readText (reader : Reader α) (text : String) : Except Error α :=
  match finish (reader text.toList) with
  | .ok x => .ok x
  | .error f => .error (f.locate text.toList)

/-- The value of a JSON text. -/
def parse (text : String) : Except Error Json := readText (value maxLevels) text

end BucketOverflow.Json
