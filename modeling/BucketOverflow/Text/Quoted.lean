import BucketOverflow.Text.Digits
import BucketOverflow.Text.Unprintable

/-!
Texts quoted for a reader of diagnostics: every character without a printed form is escaped.
-/
namespace BucketOverflow.Text

/-- The hexadecimal digits of a number, without leading zeros. -/
def hexadecimal (n : Nat) : List Char :=
  if n < 16 then [digitChar n] else hexadecimal (n / 16) ++ [digitChar (n % 16)]

def escapeVisible (c : Char) : List Char :=
  if c = '\x00' then ['\\', '0']
  else if c = '\t' then ['\\', 't']
  else if c = '\r' then ['\\', 'r']
  else if c = '\n' then ['\\', 'n']
  else if c = '"' then ['\\', '"']
  else if c = '\\' then ['\\', '\\']
  else if isUnprintable c then ['\\', 'u', '\x7b'] ++ hexadecimal c.toNat ++ ['\x7d']
  else [c]

def quoteVisible (s : String) : List Char :=
  '"' :: s.toList.flatMap escapeVisible ++ ['"']

end BucketOverflow.Text
