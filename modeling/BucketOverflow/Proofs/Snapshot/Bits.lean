import BucketOverflow.Proofs.Text.Unsigned
import BucketOverflow.Snapshot.Bits

/-! Bit patterns read back to the words they were written from, and the texts that are read at
all. -/
namespace BucketOverflow.Binary64
open Text

/-- A written bit pattern gives back its word, whatever the word. -/
@[simp] theorem ofBitsText_bitsText (x : Binary64) : ofBitsText x.bitsText = .ok x := by
  have hlt : x.bits.toNat < 16 ^ 16 := x.bits.toNat_lt
  have hread : readUnsigned 16 0x10000000000000000 (hexFixed 16 x.bits.toNat) = .ok x.bits.toNat :=
    readUnsigned_hexFixed (by omega) hlt hlt
  unfold ofBitsText bitsText
  simp only [String.toList_ofList, hread, UInt64.ofNat_toNat]

/-- A text is the bit pattern of a word, which may be a NaN. -/
def IsWord (raw : String) : Prop := ∃ x, ofBitsText raw = .ok x

/-- A text is the bit pattern of a number. -/
def IsNumber (raw : String) : Prop := ∃ x, ofBitsText raw = .ok x ∧ x.isNaN = false

instance (raw : String) : Decidable (IsNumber raw) :=
  match h : ofBitsText raw with
  | .ok x => decidable_of_iff (x.isNaN = false) (by simp [IsNumber, h])
  | .error _ => isFalse (by simp [IsNumber, h])

theorem IsNumber.isWord {raw : String} (h : IsNumber raw) : IsWord raw := h.imp fun _ hx => hx.1

theorem isNumber_bitsText {x : Binary64} (hx : x.isNaN = false) : IsNumber x.bitsText :=
  ⟨x, ofBitsText_bitsText x, hx⟩

/-! The texts that are bit patterns -/

/-- Behind the mark stands an unsigned integer in base sixteen that has room in a word; the word has
its bits. -/
theorem ofBitsText_eq_ok_iff {raw : String} {x : Binary64} :
    ofBitsText raw = .ok x ↔
      ∃ cs, raw.toList = '0' :: 'x' :: cs ∧ Unsigned 16 cs x.bits.toNat := by
  have hread {cs : List Char} {n : ℕ} :
      readUnsigned 16 0x10000000000000000 cs = .ok n ↔ Unsigned 16 cs n ∧ n < 0x10000000000000000 :=
    readUnsigned_eq_ok_iff (by decide) (by decide)
  have hword : x.bits.toNat < 0x10000000000000000 := x.bits.toNat_lt
  unfold ofBitsText
  constructor
  · intro h
    split at h
    case h_1 cs hraw =>
      refine ⟨cs, hraw, ?_⟩
      cases hn : readUnsigned 16 0x10000000000000000 cs with
      | error e =>
        rw [hn] at h
        cases h
      | ok n =>
        rw [hn, Except.ok.injEq] at h
        obtain ⟨hcs, hlt⟩ := hread.mp hn
        rwa [← h, UInt64.toNat_ofNat_of_lt' hlt]
    case h_2 => cases h
  · rintro ⟨cs, hraw, hcs⟩
    simp only [hraw, hread.mpr ⟨hcs, hword⟩, UInt64.ofNat_toNat]

/-- A text is read as a word exactly if it is the mark and then hexadecimal digits that stand for
the bits of the word, where one plus sign may come before the digits. A written word, be it a NaN
with any payload, is read back to the same bits. -/
theorem ofBitsText_accepts (raw : String) (x : Binary64) :
    (ofBitsText raw = .ok x ↔ ∃ cs ds, raw.toList = '0' :: 'x' :: cs ∧
      (cs = ds ∨ cs = '+' :: ds) ∧ IsNumeral 16 ds x.bits.toNat) ∧
    ofBitsText x.bitsText = .ok x := by
  refine ⟨?_, ofBitsText_bitsText x⟩
  rw [ofBitsText_eq_ok_iff]
  constructor
  · rintro ⟨cs, hraw, h | ⟨ds, hplus, h⟩⟩
    · exact ⟨cs, cs, hraw, .inl rfl, h⟩
    · exact ⟨cs, ds, hraw, .inr hplus, h⟩
  · rintro ⟨cs, ds, hraw, rfl | hplus, h⟩
    · exact ⟨cs, hraw, .inl h⟩
    · exact ⟨cs, hraw, .inr ⟨ds, hplus, h⟩⟩

/-- The plus sign is not a digit: a text with it is read as the word one, and is no bit pattern. -/
theorem ofBitsText_signed :
    ofBitsText "0x+3ff0000000000000" = .ok one ∧
    ¬∃ cs n, "0x+3ff0000000000000".toList = '0' :: 'x' :: cs ∧ IsNumeral 16 cs n := by
  refine ⟨rfl, ?_⟩
  rintro ⟨cs, n, hraw, h⟩
  have hcs : '+' :: "3ff0000000000000".toList = cs := (List.cons.inj (List.cons.inj hraw).2).2
  rw [← hcs] at h
  exact not_isNumeral_plus 16 _ n h

end BucketOverflow.Binary64
