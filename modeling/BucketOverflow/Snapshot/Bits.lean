import BucketOverflow.Binary64.Basic
import BucketOverflow.Text.Digits

/-!
Bit patterns in text: `0x` and sixteen hexadecimal digits.
-/
namespace BucketOverflow.Binary64
open Text

def bitsText (x : Binary64) : String :=
  String.ofList ('0' :: 'x' :: hexFixed 16 x.bits.toNat)

/-- Why a text is not a bit pattern. -/
inductive BitsFault where
  | unmarked (raw : String)
  | invalid (raw : String) (fault : IntegerFault)

def BitsFault.message : BitsFault → String
  | .unmarked raw => "bit pattern without 0x prefix: '" ++ raw ++ "'"
  | .invalid raw fault => "invalid bit pattern '" ++ raw ++ "': " ++ fault.message

/-- The word whose bits a text gives, as an unsigned number behind the mark. -/
def ofBitsText (raw : String) : Except BitsFault Binary64 :=
  match raw.toList with
  | '0' :: 'x' :: cs =>
    match readUnsigned 16 0x10000000000000000 cs with
    | .ok n => .ok ⟨.ofNat n⟩
    | .error e => .error (.invalid raw e)
  | _ => .error (.unmarked raw)

end BucketOverflow.Binary64
