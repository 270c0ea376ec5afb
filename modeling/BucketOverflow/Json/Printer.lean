import BucketOverflow.Json.Basic
import BucketOverflow.Decimal.Layout

/-!
The two written forms of JSON: compact without blanks, and pretty with two blanks for each level.
-/
namespace BucketOverflow.Json
open Text

/-- The characters that stand for one character inside quotes. -/
def escape (c : Char) : List Char :=
  if c = '"' then ['\\', '"']
  else if c = '\\' then ['\\', '\\']
  else if c = '\x08' then ['\\', 'b']
  else if c = '\x0c' then ['\\', 'f']
  else if c = '\n' then ['\\', 'n']
  else if c = '\r' then ['\\', 'r']
  else if c = '\t' then ['\\', 't']
  else if c.toNat < 32 then ['\\', 'u', '0', '0'] ++ hexFixed 2 c.toNat
  else [c]

def quote (s : String) : List Char := '"' :: s.toList.flatMap escape ++ ['"']

/-- Positional digits with at least one behind the point. -/
def positional (d : Decimal) : List Char :=
  let cs := decimal d.digits
  let e := d.leadingExp
  if 0 ≤ d.exp then cs ++ List.replicate d.exp.toNat '0' ++ ".0".toList
  else if 0 ≤ e then cs.take (e.toNat + 1) ++ '.' :: cs.drop (e.toNat + 1)
  else "0.".toList ++ List.replicate (-e - 1).toNat '0' ++ cs

/-- Scientific digits with a sign on every exponent. -/
def exponential (d : Decimal) : List Char :=
  Decimal.pointed (decimal d.digits) ++
    'e' :: (if d.leadingExp < 0 then '-' else '+') :: decimal d.leadingExp.natAbs

/-- The fewest digits that read back, positional from `1e-5` to below `1e16`; of two equally near
decimals the even one. -/
def number (x : Binary64) : List Char :=
  if !x.isFinite then "null".toList
  else (if x.isNeg then ['-'] else []) ++
    if x.isZero then "0.0".toList
    else
      let d := Decimal.shortest .even x.mag
      if -5 ≤ d.leadingExp ∧ d.leadingExp < 16 then positional d else exponential d

mutual
def compact : Json → List Char
  | .null => "null".toList
  | .bool b => if b then "true".toList else "false".toList
  | .int n => signedDecimal n
  | .float x => number x
  | .str s => quote s
  | .arr items => '[' :: compactItems items
  | .obj fields => '{' :: compactFields fields

/-- The items up to the closing bracket. -/
def compactItems : List Json → List Char
  | [] => [']']
  | [x] => compact x ++ [']']
  | x :: rest => compact x ++ ',' :: compactItems rest

/-- The fields up to the closing brace. -/
def compactFields : List (String × Json) → List Char
  | [] => ['}']
  | [(k, v)] => quote k ++ ':' :: compact v ++ ['}']
  | (k, v) :: rest => quote k ++ ':' :: compact v ++ ',' :: compactFields rest
end

/-- A new line at a level. -/
def newline (level : Nat) : List Char := '\n' :: List.replicate (2 * level) ' '

mutual
def pretty (level : Nat) : Json → List Char
  | .null => "null".toList
  | .bool b => if b then "true".toList else "false".toList
  | .int n => signedDecimal n
  | .float x => number x
  | .str s => quote s
  | .arr [] => "[]".toList
  | .arr items => '[' :: prettyItems level items
  | .obj [] => ['{', '}']
  | .obj fields => '{' :: prettyFields level fields

/-- The items on lines of their own, one level further in, up to the closing bracket. -/
def prettyItems (level : Nat) : List Json → List Char
  | [] => [']']
  | [x] => newline (level + 1) ++ pretty (level + 1) x ++ newline level ++ [']']
  | x :: rest => newline (level + 1) ++ pretty (level + 1) x ++ ',' :: prettyItems level rest

/-- The fields on lines of their own, one level further in, up to the closing brace. -/
def prettyFields (level : Nat) : List (String × Json) → List Char
  | [] => ['}']
  | [(k, v)] =>
    newline (level + 1) ++ quote k ++ ':' :: ' ' :: pretty (level + 1) v ++ newline level ++ ['}']
  | (k, v) :: rest =>
    newline (level + 1) ++ quote k ++ ':' :: ' ' :: pretty (level + 1) v ++
      ',' :: prettyFields level rest
end

/-- The compact text. -/
def toCompact (j : Json) : String := String.ofList (compact j)

/-- The pretty text. -/
def toPretty (j : Json) : String := String.ofList (pretty 0 j)

end BucketOverflow.Json
