/-!
White space of Unicode, trimming, lines, and cutting at a separator.
-/
namespace BucketOverflow.Text

/-- The characters of property `White_Space`. -/
def isBlank (c : Char) : Bool :=
  let n := c.toNat
  (9 ≤ n && n ≤ 13) || n == 0x20 || n == 0x85 || n == 0xa0 || n == 0x1680
    || (0x2000 ≤ n && n ≤ 0x200a) || n == 0x2028 || n == 0x2029 || n == 0x202f || n == 0x205f
    || n == 0x3000

def trimLeft (cs : List Char) : List Char := cs.dropWhile isBlank
def trimRight (cs : List Char) : List Char := (cs.reverse.dropWhile isBlank).reverse
def trim (cs : List Char) : List Char := trimRight (trimLeft cs)

/-- ASCII capitals in lower case; other characters stay. -/
def lowerAscii (cs : List Char) : List Char := cs.map Char.toLower

/-- The pieces between separators, at least one. -/
def splitOn (sep : Char) (cs : List Char) : List (List Char) :=
  match _h : cs.dropWhile (· ≠ sep) with
  | [] => [cs]
  | _ :: rest => cs.takeWhile (· ≠ sep) :: splitOn sep rest
termination_by cs.length
decreasing_by
  have := (List.dropWhile_sublist (l := cs) (· ≠ sep)).length_le
  grind

/-- How many pieces a text has between double colons, found from the left without overlap. -/
def colonPieces : List Char → Nat
  | ':' :: ':' :: cs => colonPieces cs + 1
  | _ :: cs => colonPieces cs
  | [] => 1

/-- A piece that ended in a line feed, less one carriage return. -/
def dropReturn (cs : List Char) : List Char :=
  if cs.getLast? = some '\r' then cs.dropLast else cs

/-- The lines of a text; what follows the last line feed is a line unless empty. -/
def lines (cs : List Char) : List (List Char) :=
  let pieces := splitOn '\n' cs
  let last := pieces.getLastD []
  pieces.dropLast.map dropReturn ++ if last.isEmpty then [] else [last]

end BucketOverflow.Text
