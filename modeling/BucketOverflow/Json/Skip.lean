import BucketOverflow.Json.Reader

/-!
Passing over a value whose content is not wanted. Its brackets, literals and escapes are checked;
its depth, the size of its numbers and the pairing of its surrogates are not.
-/
namespace BucketOverflow.Json
open Text

/-- Passes over an exponent behind its mark. -/
def skipExponent : Reader Unit := fun cs =>
  let ds := match cs with
    | '+' :: r => r
    | '-' :: r => r
    | r => r
  match ds with
  | c :: r => if isDigit c then .ok ((), r.dropWhile isDigit) else failIn .invalidNumber ds
  | [] => failAt .invalidNumber []

def skipExponent? : Reader Unit
  | 'e' :: cs => skipExponent cs
  | 'E' :: cs => skipExponent cs
  | cs => .ok ((), cs)

/-- Passes over what follows the digits of a whole part. -/
def skipAfterWhole : Reader Unit
  | '.' :: c :: cs =>
    if isDigit c then skipExponent? (cs.dropWhile isDigit) else failIn .invalidNumber (c :: cs)
  | ['.'] => failAt .invalidNumber []
  | cs => skipExponent? cs

/-- Passes over a number behind its sign. -/
def skipNumber : Reader Unit
  | '0' :: c :: cs =>
    if isDigit c then failIn .invalidNumber (c :: cs) else skipAfterWhole (c :: cs)
  | c :: cs =>
    if isDigit c then skipAfterWhole (cs.dropWhile isDigit) else failIn .invalidNumber (c :: cs)
  | [] => failAt .invalidNumber []

/-- Passes over a string behind its opening quote; every turn takes a character of the bound. -/
def skipChars : (bound : List Char) → Reader Unit
  | _, '"' :: cs => .ok ((), cs)
  | _, ['\\'] => failAt .eofString []
  | _ :: bound, '\\' :: c :: cs =>
    if c = 'u' then do
      let (_, r) ← hex4 cs
      skipChars bound r
    else if "\"\\/bfnrt".toList.contains c then skipChars bound cs
    else failIn .invalidEscape (c :: cs)
  | _ :: bound, c :: cs =>
    if c.toNat < 32 then failAt .controlCharacter (c :: cs) else skipChars bound cs
  | _, _ => failAt .eofString []

def skipString : Reader Unit := fun cs => skipChars cs cs

/-- A bracket that is open. -/
inductive Frame where
  | list
  | object
deriving DecidableEq

def Frame.eof : Frame → Cause
  | .list => .eofList
  | .object => .eofObject

def Frame.expectedEnd : Frame → Cause
  | .list => .expectedListEnd
  | .object => .expectedObjectEnd

def Frame.close : Frame → Char
  | .list => ']'
  | .object => '}'

/-- Closes brackets behind a value or behind an opening bracket, and gives those that stay open. -/
def closeFrames (afterValue : Bool) : List Frame → Reader (List Frame)
  | [], cs => .ok ([], cs)
  | top :: rest, cs =>
    match skipSpace cs with
    | [] => failIn top.eof []
    | c :: r =>
      if c = ',' && afterValue then .ok (top :: rest, r)
      else if c = top.close then closeFrames true rest r
      else if afterValue then failIn top.expectedEnd (c :: r)
      else .ok (top :: rest, c :: r)

/-- Passes over a key and its colon. -/
def skipKey : Reader Unit := fun cs =>
  match skipSpace cs with
  | '"' :: r => do
    let (_, r) ← skipString r
    colon r
  | [] => failIn .eofObject []
  | r => failIn .keyNotString r

/-- Passes over a plain value, or over an opening bracket and says which. -/
def skipOpening : Reader (Option Frame) := fun cs =>
  match skipSpace cs with
  | [] => failIn .eofValue []
  | 'n' :: r => do let (_, r) ← letters ['u', 'l', 'l'] r; return (none, r)
  | 't' :: r => do let (_, r) ← letters ['r', 'u', 'e'] r; return (none, r)
  | 'f' :: r => do let (_, r) ← letters ['a', 'l', 's', 'e'] r; return (none, r)
  | '-' :: r => do let (_, r) ← skipNumber r; return (none, r)
  | '"' :: r => do let (_, r) ← skipString r; return (none, r)
  | '[' :: r => return (some .list, r)
  | '{' :: r => return (some .object, r)
  | c :: r =>
    if isDigit c then do let (_, r) ← skipNumber (c :: r); return (none, r)
    else failIn .expectedValue (c :: r)

/-- Passes over values until no bracket is open; every turn takes a character of the bound. -/
def skipFrom : (bound : List Char) → (frames : List Frame) → Reader Unit
  | [], _, cs => failIn .eofValue cs
  | _ :: bound, frames, cs => do
    let (opened, r) ← skipOpening cs
    let (frames, r) ← closeFrames opened.isNone (opened.toList ++ frames) r
    match frames with
    | [] => return ((), r)
    | .list :: _ => skipFrom bound frames r
    | .object :: _ =>
      let (_, r) ← skipKey r
      skipFrom bound frames r

def skip : Reader Unit := fun cs => skipFrom cs [] cs

end BucketOverflow.Json
