import BucketOverflow.Proofs.Fields
import BucketOverflow.Proofs.Json.Records

/-! Whole values read back. What is read has the fields of its objects sorted and its floats as the
number reader takes them; every other part is as it was written. -/
namespace BucketOverflow.Json
open Text Binary64

variable {b cs rest : List Char} {j : Json} {n : ℕ} {fields : Members} {name : String}

mutual

/-- The value that is read from the text of a value. -/
def asRead : Json → Json
  | .float x => .float (reread x)
  | .arr items => .arr (itemsAsRead items)
  | .obj fields => .obj (sortFields (fieldsAsRead fields))
  | j => j

def itemsAsRead : List Json → List Json
  | [] => []
  | j :: items => asRead j :: itemsAsRead items

def fieldsAsRead : List (String × Json) → List (String × Json)
  | [] => []
  | (k, j) :: fields => (k, asRead j) :: fieldsAsRead fields

end

theorem fieldsAsRead_eq (fields : Members) :
    fieldsAsRead fields = fields.map fun f => (f.1, asRead f.2) := by
  induction fields with
  | nil => rfl
  | cons f fields ih =>
    obtain ⟨k, j⟩ := f
    rw [fieldsAsRead, ih, List.map_cons]

theorem names_fieldsAsRead (fields : Members) :
    (fieldsAsRead fields).map (·.1) = fields.map (·.1) := by
  rw [fieldsAsRead_eq, List.map_map]
  rfl

@[simp] theorem itemsAsRead_str (refs : List String) :
    itemsAsRead (refs.map .str) = refs.map .str := by
  induction refs with
  | nil => rfl
  | cons r refs ih => simp [itemsAsRead, asRead, ih]

/-- A value of so many levels whose numbers are integers of 64 bits, or moderate floats. -/
inductive Readable : ℕ → Json → Prop
  | null {n : ℕ} : Readable n .null
  | bool {n : ℕ} (b : Bool) : Readable n (.bool b)
  | integer {n : ℕ} {k : ℤ} : -0x8000000000000000 ≤ k → k < significandLimit → Readable n (.int k)
  | float {n : ℕ} {x : Binary64} : Moderate x → Readable n (.float x)
  | text {n : ℕ} (s : String) : Readable n (.str s)
  | arr {n : ℕ} {items : List Json} : (∀ j ∈ items, Readable n j) → Readable (n + 1) (.arr items)
  | obj {n : ℕ} {fields : List (String × Json)} : (∀ f ∈ fields, Readable n f.2) →
    Readable (n + 1) (.obj fields)

theorem readable_ofNat {k : ℕ} (hk : k < significandLimit) : Readable n (.ofNat k) :=
  .integer (by omega) (by exact_mod_cast hk)

theorem readable_ofBinary64 {x : Binary64} (hx : Moderate x) : Readable n (.ofBinary64 x) := by
  rw [ofBinary64, if_pos hx.finite]
  exact .float hx

/-! Values without parts -/

variable {container : Reader Json}

theorem valueWith_digit (hb : Blank b) {c : Char} (hc : isDigit c = true) (cs : List Char) :
    valueWith container (b ++ c :: cs) =
      number? false (c :: cs) >>= fun p => return (p.1.toJson, p.2) := by
  have hne {d : Char} (hd : isDigit d = false) : c ≠ d := by
    rintro rfl
    rw [hc] at hd
    cases hd
  unfold valueWith
  rw [skipSpace_blank hb (isSpace_of_isDigit hc)]
  split
  all_goals rename_i heq
  · cases heq
  all_goals obtain ⟨hhead, htail⟩ := List.cons.inj heq
  · exact absurd hhead (hne rfl)
  · exact absurd hhead (hne rfl)
  · exact absurd hhead (hne rfl)
  · exact absurd hhead (hne rfl)
  · exact absurd hhead (hne rfl)
  · exact absurd hhead (hne rfl)
  · exact absurd hhead (hne rfl)
  · subst hhead htail
    rw [if_pos hc]

theorem reads_value_null : Reads (valueWith container) .null .null := by
  intro b cs rest hb hw _
  have hopen : isSpace 'n' = false := rfl
  cases hw
  simp [valueWith, skipSpace_blank hb hopen, letters, bind, Except.bind]
  rfl

theorem reads_value_bool (x : Bool) : Reads (valueWith container) (.bool x) (.bool x) := by
  intro b cs rest hb hw _
  have htrue : isSpace 't' = false := rfl
  have hfalse : isSpace 'f' = false := rfl
  cases hw
  cases x with
  | false =>
    simp [valueWith, skipSpace_blank hb hfalse, letters, bind, Except.bind]
    rfl
  | true =>
    simp [valueWith, skipSpace_blank hb htrue, letters, bind, Except.bind]
    rfl

/-- The sign and the digits of an integer make the integer again. -/
theorem integer_natAbs {k : ℤ} (hlow : -0x8000000000000000 ≤ k) :
    integer (decide (k < 0)) k.natAbs = .int k := by
  unfold integer
  by_cases hneg : k < 0
  · obtain ⟨n, rfl⟩ : ∃ n : ℕ, k = -n := ⟨k.natAbs, by omega⟩
    have hzero : n ≠ 0 := by omega
    have hlim : ¬0x8000000000000000 < n := by omega
    simp [hzero, hlim]
  · obtain ⟨n, rfl⟩ := Int.eq_ofNat_of_zero_le (not_lt.mp hneg)
    simp

theorem reads_value_integer {k : ℤ} (hlow : -0x8000000000000000 ≤ k) (hk : k < significandLimit) :
    Reads (valueWith container) (.int k) (.int k) := by
  intro b cs rest hb hw hr
  obtain rfl : cs = signedDecimal k := by
    cases hw
    rfl
  have habs : k.natAbs < significandLimit := by
    unfold significandLimit at *
    omega
  have hread := number?_decimal (decide (k < 0)) habs hr
  rw [integer_natAbs hlow] at hread
  unfold signedDecimal
  by_cases hneg : k < 0
  · rw [decide_eq_true hneg] at hread
    rw [if_pos hneg, List.singleton_append, List.cons_append]
    simp only [valueWith, skipSpace_blank hb (show isSpace '-' = false from rfl), hread]
    rfl
  · obtain ⟨c, tail, hcs, hc⟩ := decimal_cons k.natAbs
    rw [decide_eq_false hneg] at hread
    rw [if_neg hneg, List.nil_append]
    rw [hcs, List.cons_append] at hread ⊢
    rw [valueWith_digit hb hc, hread]
    rfl

theorem reads_value_float {x : Binary64} (hx : Moderate x) :
    Reads (valueWith container) (.float x) (.float (reread x)) := by
  intro b cs rest hb hw hr
  obtain rfl : cs = number x := by
    cases hw
    rfl
  obtain ⟨c, tail, hcs, hc⟩ := magnitudeText_cons x
  have hread := number?_reread hx hr
  rw [number_eq hx.finite]
  cases hneg : x.isNeg with
  | true =>
    rw [hneg] at hread
    rw [if_pos rfl, List.singleton_append, List.cons_append]
    simp only [valueWith, skipSpace_blank hb (show isSpace '-' = false from rfl), hread]
    rfl
  | false =>
    rw [hneg, hcs, List.cons_append] at hread
    rw [if_neg Bool.false_ne_true, List.nil_append, hcs, List.cons_append, valueWith_digit hb hc,
      hread]
    rfl

theorem reads_value_text (s : String) : Reads (valueWith container) (.str s) (.str s) := by
  intro b cs rest hb hw _
  obtain rfl : cs = quote s := by
    cases hw
    rfl
  have hquote : isSpace '"' = false := rfl
  rw [quote_append]
  simp only [valueWith, skipSpace_blank hb hquote, stringBody_escape]
  rfl

/-! Arrays and objects -/

theorem reads_value_arr {items : List Json} {value : Reader Json}
    (h : ∀ j ∈ items, Reads value j (asRead j)) :
    Reads (valueWith (containerOf value)) (.arr items) (asRead (.arr items)) := by
  have hitems : List.Forall₂ (Reads value) items (itemsAsRead items) := by
    induction items with
    | nil => exact .nil
    | cons j items ih =>
      obtain ⟨hj, hitems⟩ := List.forall_mem_cons.mp h
      exact .cons hj (ih hitems)
  intro b cs rest hb hw _
  have hopen : isSpace '[' = false := rfl
  obtain ⟨tail, rfl, hread⟩ := items_written hitems hw
  simp only [valueWith, List.cons_append, skipSpace_blank hb hopen, containerOf, hread]
  rfl

/-- A member is put under its name. -/
theorem readsMember_value {value : Reader Json} {j : Json} (h : Reads value j (asRead j))
    (s : Members) (k : String) :
    ReadsMember (valueMember value) s k j (Fields.insert k (asRead j) s) := by
  intro b₁ b₂ cs rest hb₁ hb₂ hw hr
  simp only [valueMember, colon_append hb₁, bind, Except.bind, h b₂ cs rest hb₂ hw hr]
  rfl

theorem readsMembers_value {value : Reader Json} (h : ∀ f ∈ fields, Reads value f.2 (asRead f.2))
    (s : Members) :
    ReadsMembers (valueMember value) s fields (Fields.insertAll (fieldsAsRead fields) s) := by
  induction fields generalizing s with
  | nil => exact .nil s
  | cons f fields ih =>
    obtain ⟨k, j⟩ := f
    obtain ⟨hj, hfields⟩ := List.forall_mem_cons.mp h
    exact .cons (readsMember_value hj s k) (ih hfields _)

theorem reads_value_obj {value : Reader Json} (h : ∀ f ∈ fields, Reads value f.2 (asRead f.2)) :
    Reads (valueWith (containerOf value)) (.obj fields) (asRead (.obj fields)) := by
  intro b cs rest hb hw _
  have hopen : isSpace '{' = false := rfl
  obtain ⟨tail, rfl, hread⟩ := members_written (readsMembers_value h []) hw
  simp only [valueWith, List.cons_append, skipSpace_blank hb hopen, containerOf, hread]
  rfl

/-- A value without parts is read at every level. -/
theorem reads_value_of {a : Json} (h : ∀ c, Reads (valueWith c) j a) (n : ℕ) :
    Reads (value n) j a := by
  cases n with
  | zero => exact h _
  | succ n => exact h _

/-- A readable value is read from any text that lays it out. -/
theorem Readable.reads (h : Readable n j) : Reads (value n) j (asRead j) := by
  induction h with
  | null => exact reads_value_of (fun _ => reads_value_null) _
  | bool b => exact reads_value_of (fun _ => reads_value_bool b) _
  | integer hlow hk => exact reads_value_of (fun _ => reads_value_integer hlow hk) _
  | float hx => exact reads_value_of (fun _ => reads_value_float hx) _
  | text s => exact reads_value_of (fun _ => reads_value_text s) _
  | arr _ ih => exact reads_value_arr ih
  | obj _ ih => exact reads_value_obj ih

/-- The compact text of a readable value parses. -/
theorem Readable.parse_toCompact (h : Readable maxLevels j) : parse j.toCompact = .ok (asRead j) :=
  h.reads.toCompact

/-! Fields of what was read -/

/-- An object that is read has the fields that were written, each as it is read. -/
theorem field?_asRead (hn : (fields.map (·.1)).Nodup) (name : String) :
    field? name (sortFields (fieldsAsRead fields)) = (field? name fields).map asRead := by
  unfold field? sortFields
  rw [Fields.lookup_insertAll_nil (by rwa [names_fieldsAsRead]), fieldsAsRead_eq,
    Fields.lookup_map]

end BucketOverflow.Json
