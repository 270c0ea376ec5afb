import BucketOverflow.Json.Decode
import BucketOverflow.Proofs.Results

/-! What typed values mean. Each reader of JSON values succeeds on the values of its type alone. -/
namespace BucketOverflow.Json

variable {α : Type} {known : List (String × α)} {read : Json → Except Cause α} {limit n : ℕ}
  {expected : String} {j : Json} {a : α}

/-- The two ways to write a variant. -/
def Spells (name : String) (j : Json) : Prop := j = .str name ∨ j = .obj [(name, .null)]

@[simp] theorem spells_str {name s : String} : Spells name (.str s) ↔ s = name := by simp [Spells]

theorem wrongType_ne_ok : wrongType expected j ≠ .ok a := by simp [wrongType]

theorem toText_eq_ok {s : String} : toText j = .ok s ↔ j = .str s := by
  cases j <;> simp [toText, wrongType_ne_ok]

theorem toUnsigned_eq_ok : toUnsigned limit expected j = .ok n ↔ j = .ofNat n ∧ n < limit := by
  cases j with
  | int k =>
    simp only [toUnsigned, ofNat, Json.int.injEq]
    split_ifs with h
    · rw [Except.ok.injEq]
      omega
    · simp only [false_iff]
      omega
  | _ => simp [toUnsigned, wrongType_ne_ok, ofNat]

theorem toNatural64_eq_ok : toNatural64 j = .ok n ↔ j = .ofNat n ∧ n < 0x10000000000000000 :=
  toUnsigned_eq_ok

theorem toNatural32_eq_ok : toNatural32 j = .ok n ↔ j = .ofNat n ∧ n < 0x100000000 :=
  toUnsigned_eq_ok

theorem named_eq_ok {name : String} : named known name = .ok a ↔ known.lookup name = some a := by
  unfold named
  cases known.lookup name <;> simp

theorem toVariant_eq_ok :
    toVariant known j = .ok a ↔ ∃ name, known.lookup name = some a ∧ Spells name j := by
  unfold toVariant Spells
  split
  · simp [named_eq_ok]
  · rename_i name content
    simp only [bind_eq_ok, named_eq_ok]
    cases content <;> simp [pure_eq_ok, wrongType_ne_ok]
  · rename_i fields hsingle
    simp only [reduceCtorEq, Json.obj.injEq, false_or, false_iff]
    rintro ⟨name, -, rfl⟩
    exact hsingle name .null rfl
  · rename_i hstr _ hobj
    simp only [wrongType_ne_ok, false_iff]
    rintro ⟨name, -, rfl | rfl⟩
    · exact hstr name rfl
    · exact hobj _ rfl

/-- Where names and variants stand for one another, a variant is read from its name alone. -/
theorem toVariant_eq_ok_iff {nameOf : α → String} (hname : ∀ f ∈ known, nameOf f.2 = f.1)
    (hfound : ∀ a, known.lookup (nameOf a) = some a) :
    toVariant known j = .ok a ↔ Spells (nameOf a) j := by
  rw [toVariant_eq_ok]
  constructor
  · rintro ⟨name, hlookup, hspells⟩
    rwa [hname _ (Fields.mem_of_lookup hlookup)]
  · intro hspells
    exact ⟨nameOf a, hfound a, hspells⟩

theorem toOptional_eq_ok {x : Option α} : toOptional read j = .ok x ↔
    (j = .null ∧ x = none) ∨ (j ≠ .null ∧ ∃ a, read j = .ok a ∧ some a = x) := by
  cases j with
  | null => simp [toOptional, eq_comm]
  | _ => simp [toOptional, map_eq_ok]

theorem exists_toOptional_eq_ok :
    (∃ x, toOptional read j = .ok x) ↔ j = .null ∨ ∃ a, read j = .ok a := by
  cases j <;> simp [toOptional, exists_map_eq_ok]

theorem toList_toText_eq_ok {texts : List String} :
    toList toText j = .ok texts ↔ j = .arr (texts.map .str) := by
  cases j with
  | arr items =>
    simp only [toList, Json.arr.injEq]
    induction items generalizing texts with
    | nil => cases texts <;> simp [pure_eq_ok]
    | cons i items ih =>
      simp only [List.mapM_cons, bind_eq_ok, toText_eq_ok, ih, pure_eq_ok]
      cases texts with
      | nil => simp
      | cons t texts => simp
  | _ => simp [toList, wrongType_ne_ok]

end BucketOverflow.Json
