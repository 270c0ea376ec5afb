import BucketOverflow.Text.Digits

/-!
SHA-256 of a byte string and its lowercase hexadecimal form.
-/
namespace BucketOverflow

/-- Two lowercase hexadecimal digits per byte. -/
def hexLower (bytes : List UInt8) : List Char :=
  bytes.flatMap fun b => Text.hexFixed 2 b.toNat

namespace Digest

/-- The eight working words. -/
structure State where
  a : UInt32
  b : UInt32
  c : UInt32
  d : UInt32
  e : UInt32
  f : UInt32
  g : UInt32
  h : UInt32

/-- Fractional parts of the square roots of the first eight primes. -/
def start : State :=
  ⟨0x6a09e667, 0xbb67ae85, 0x3c6ef372, 0xa54ff53a, 0x510e527f, 0x9b05688c, 0x1f83d9ab, 0x5be0cd19⟩

/-- Fractional parts of the cube roots of the first sixty-four primes. -/
def roundKeys : List UInt32 :=
  [0x428a2f98, 0x71374491, 0xb5c0fbcf, 0xe9b5dba5, 0x3956c25b, 0x59f111f1, 0x923f82a4, 0xab1c5ed5,
   0xd807aa98, 0x12835b01, 0x243185be, 0x550c7dc3, 0x72be5d74, 0x80deb1fe, 0x9bdc06a7, 0xc19bf174,
   0xe49b69c1, 0xefbe4786, 0x0fc19dc6, 0x240ca1cc, 0x2de92c6f, 0x4a7484aa, 0x5cb0a9dc, 0x76f988da,
   0x983e5152, 0xa831c66d, 0xb00327c8, 0xbf597fc7, 0xc6e00bf3, 0xd5a79147, 0x06ca6351, 0x14292967,
   0x27b70a85, 0x2e1b2138, 0x4d2c6dfc, 0x53380d13, 0x650a7354, 0x766a0abb, 0x81c2c92e, 0x92722c85,
   0xa2bfe8a1, 0xa81a664b, 0xc24b8b70, 0xc76c51a3, 0xd192e819, 0xd6990624, 0xf40e3585, 0x106aa070,
   0x19a4c116, 0x1e376c08, 0x2748774c, 0x34b0bcb5, 0x391c0cb3, 0x4ed8aa4a, 0x5b9cca4f, 0x682e6ff3,
   0x748f82ee, 0x78a5636f, 0x84c87814, 0x8cc70208, 0x90befffa, 0xa4506ceb, 0xbef9a3f7, 0xc67178f2]

def rotr (x n : UInt32) : UInt32 := (x >>> n) ||| (x <<< (32 - n))

/-- One round with a key and a schedule word. -/
def State.round (s : State) (key word : UInt32) : State :=
  let big1 := rotr s.e 6 ^^^ rotr s.e 11 ^^^ rotr s.e 25
  let choice := (s.e &&& s.f) ^^^ (~~~s.e &&& s.g)
  let t1 := s.h + big1 + choice + key + word
  let big0 := rotr s.a 2 ^^^ rotr s.a 13 ^^^ rotr s.a 22
  let majority := (s.a &&& s.b) ^^^ (s.a &&& s.c) ^^^ (s.b &&& s.c)
  ⟨t1 + (big0 + majority), s.a, s.b, s.c, s.d + t1, s.e, s.f, s.g⟩

def State.add (s t : State) : State :=
  ⟨s.a + t.a, s.b + t.b, s.c + t.c, s.d + t.d, s.e + t.e, s.f + t.f, s.g + t.g, s.h + t.h⟩

/-- The message, one set bit, zeros to the last eight bytes of a block, and its length in bits. -/
def pad (bytes : List UInt8) : List UInt8 :=
  let n := bytes.length
  bytes ++ (0x80 :: List.replicate ((119 - n % 64) % 64) 0 : List UInt8)
    ++ (List.range 8).map (fun i => UInt8.ofNat ((8 * n) >>> (56 - 8 * i)))

/-- The big-endian word at a byte offset. -/
def wordAt (bytes : Array UInt8) (i : Nat) : UInt32 :=
  (List.range 4).foldl (fun w k => w * 256 + (bytes.getD (i + k) 0).toUInt32) 0

/-- The sixteen words of a block, continued to sixty-four. -/
def schedule (bytes : Array UInt8) (block : Nat) : Array UInt32 :=
  let first := (Array.range 16).map fun t => wordAt bytes (64 * block + 4 * t)
  (List.range 48).foldl (fun w t =>
    let x := w.getD (t + 1) 0
    let y := w.getD (t + 14) 0
    let small0 := rotr x 7 ^^^ rotr x 18 ^^^ (x >>> 3)
    let small1 := rotr y 17 ^^^ rotr y 19 ^^^ (y >>> 10)
    w.push (small1 + w.getD (t + 9) 0 + small0 + w.getD t 0)) first

def compress (bytes : Array UInt8) (s : State) (block : Nat) : State :=
  s.add ((roundKeys.zip (schedule bytes block).toList).foldl (fun s kw => s.round kw.1 kw.2) s)

def State.bytes (s : State) : List UInt8 :=
  [s.a, s.b, s.c, s.d, s.e, s.f, s.g, s.h].flatMap fun (w : UInt32) =>
    [(w >>> 24).toUInt8, (w >>> 16).toUInt8, (w >>> 8).toUInt8, w.toUInt8]

end Digest

/-- The SHA-256 digest. -/
def sha256 (bytes : List UInt8) : List UInt8 :=
  let padded := (Digest.pad bytes).toArray
  ((List.range (padded.size / 64)).foldl (Digest.compress padded) Digest.start).bytes

end BucketOverflow
