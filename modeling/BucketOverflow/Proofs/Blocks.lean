import BucketOverflow.Proofs.Text.Digits
import BucketOverflow.Sweep.Basic

/-! Codes of fixed width. Blocks of one width written one after the other are told apart again,
so words in little-endian bytes and bytes in hexadecimal digits determine what they are written
from. -/
namespace BucketOverflow

section Blocks

variable {α β : Type*} {f : α → List β} {width : ℕ}

theorem length_flatMap_blocks (h : ∀ a, (f a).length = width) (xs : List α) :
    (xs.flatMap f).length = width * xs.length := by
  induction xs with
  | nil => rfl
  | cons x xs ih =>
    rw [List.flatMap_cons, List.length_append, h, ih, List.length_cons, Nat.mul_succ, Nat.add_comm]

/-- Blocks that are not empty and have one width determine their row. -/
theorem flatMap_blocks_injective (h : ∀ a, (f a).length = width) (hpos : 0 < width)
    (hf : Function.Injective f) : Function.Injective fun xs : List α => xs.flatMap f := by
  intro xs ys hxy
  have hlen : xs.length = ys.length := by
    have := congrArg List.length hxy
    rw [length_flatMap_blocks h, length_flatMap_blocks h] at this
    exact Nat.eq_of_mul_eq_mul_left hpos this
  induction xs generalizing ys with
  | nil => exact (List.eq_nil_of_length_eq_zero hlen.symm).symm
  | cons x xs ih =>
    cases ys with
    | nil => cases hlen
    | cons y ys =>
      simp only [List.flatMap_cons] at hxy
      obtain ⟨hhead, htail⟩ := List.append_inj hxy ((h x).trans (h y).symm)
      rw [hf hhead, ih htail (Nat.succ.inj hlen)]

end Blocks

/-! Little-endian numbers -/

namespace Sweep

variable {m n : ℕ}

@[simp] theorem length_littleEndian (width n : ℕ) : (littleEndian width n).length = width := by
  simp [littleEndian]

theorem littleEndian_succ (width n : ℕ) :
    littleEndian (width + 1) n = UInt8.ofNat n :: littleEndian width (n / 256) := by
  have hshift (i : ℕ) : n >>> (8 * (i + 1)) = (n / 256) >>> (8 * i) := by
    have h256 : n / 256 = n >>> 8 := (Nat.shiftRight_eq_div_pow n 8).symm
    rw [h256, ← Nat.shiftRight_add, Nat.mul_succ, Nat.add_comm]
  simp [littleEndian, List.range_succ_eq_map, hshift]

/-- A number that fits into its bytes is determined by them. -/
theorem littleEndian_inj {width : ℕ} (hm : m < 256 ^ width) (hn : n < 256 ^ width)
    (h : littleEndian width m = littleEndian width n) : m = n := by
  induction width generalizing m n with
  | zero =>
    rw [pow_zero, Nat.lt_one_iff] at hm hn
    rw [hm, hn]
  | succ width ih =>
    rw [littleEndian_succ, littleEndian_succ] at h
    obtain ⟨hlow, hhigh⟩ := List.cons.inj h
    have hmod : m % 256 = n % 256 := by
      simpa using congrArg UInt8.toNat hlow
    have hdiv : m / 256 = n / 256 := by
      apply ih _ _ hhigh
      · exact Nat.div_lt_of_lt_mul (by rwa [pow_succ, Nat.mul_comm] at hm)
      · exact Nat.div_lt_of_lt_mul (by rwa [pow_succ, Nat.mul_comm] at hn)
    omega

theorem littleEndian_inj64 {a b : UInt64}
    (h : littleEndian 8 a.toNat = littleEndian 8 b.toNat) : a = b :=
  UInt64.toNat_inj.mp (littleEndian_inj a.toNat_lt b.toNat_lt h)

theorem littleEndian_inj32 {a b : UInt32}
    (h : littleEndian 4 a.toNat = littleEndian 4 b.toNat) : a = b :=
  UInt32.toNat_inj.mp (littleEndian_inj a.toNat_lt b.toNat_lt h)

end Sweep

/-! Hexadecimal bytes -/

namespace Text

theorem hexFixed_inj {width m n : ℕ} (hm : m < 16 ^ width) (hn : n < 16 ^ width)
    (h : hexFixed width m = hexFixed width n) : m = n := by
  have hread := readDigits_hexFixed hm hm
  rw [h, readDigits_hexFixed hn hn] at hread
  exact (Except.ok.inj hread).symm

end Text

/-- The digits of bytes determine the bytes. -/
theorem hexLower_injective : Function.Injective hexLower := by
  have hwidth (b : UInt8) : (Text.hexFixed 2 b.toNat).length = 2 := Text.length_hexFixed 2 b.toNat
  apply flatMap_blocks_injective hwidth Nat.two_pos
  exact fun a b h => UInt8.toNat_inj.mp (Text.hexFixed_inj a.toNat_lt b.toNat_lt h)

end BucketOverflow
