import BucketOverflow.HopBudgets
import BucketOverflow.Proofs.Results
import BucketOverflow.Proofs.Text.Pieces
import BucketOverflow.Proofs.Text.Unsigned

/-! Lists of hop budgets. A text is read by its segments, which are all hop counts or of which the
first that is none is named; and numbers that were written between commas are read back, with
whatever blanks there are between them. -/
namespace BucketOverflow
open Text

variable {raw : String} {p : List Char} {ps segments : List (List Char)} {n : UInt32}
  {ns : List UInt32} {fault : ResolveFault} {result : Except ResolveFault (List UInt32)}

/-! Segments -/

/-- The pieces of a text between commas, trimmed; those of which nothing is left do not count. -/
def Segments (cs : List Char) (segments : List (List Char)) : Prop :=
  ∃ ps qs, Cut ',' cs ps ∧ List.Forall₂ Trimmed ps qs ∧ segments = qs.filter (!·.isEmpty)

theorem hopBudgetPieces_eq_iff : hopBudgetPieces raw = segments ↔ Segments raw.toList segments := by
  constructor
  · rintro rfl
    refine ⟨_, _, cut_splitOn ',' raw.toList, ?_, rfl⟩
    exact List.forall₂_map_right_iff.mpr (List.forall₂_same.mpr fun p _ => trimmed_trim p)
  · rintro ⟨ps, qs, hcut, htrim, rfl⟩
    have hqs : ps.map trim = qs := by
      rw [← List.forall₂_eq_eq_eq, List.forall₂_map_left_iff]
      exact htrim.imp fun p q h => trim_eq_iff.mpr h
    rw [hopBudgetPieces, splitOn_eq_iff.mpr hcut, hqs]

/-! One hop budget -/

theorem readHopBudget_eq_ok_iff : readHopBudget raw p = .ok n ↔ Unsigned 10 p n.toNat := by
  have hread {k : ℕ} : readUnsigned 10 0x100000000 p = .ok k ↔ Unsigned 10 p k ∧ k < 0x100000000 :=
    readUnsigned_eq_ok_iff (by decide) (by decide)
  have hn : n.toNat < 0x100000000 := n.toNat_lt
  unfold readHopBudget
  constructor
  · intro h
    cases hk : readUnsigned 10 0x100000000 p with
    | error e =>
      rw [hk] at h
      cases h
    | ok k =>
      rw [hk, Except.ok.injEq] at h
      obtain ⟨hp, hlt⟩ := hread.mp hk
      rwa [← h, UInt32.toNat_ofNat_of_lt' hlt]
  · intro h
    rw [hread.mpr ⟨h, hn⟩]
    simp only [UInt32.ofNat_toNat]

theorem readHopBudget_eq_error_iff :
    readHopBudget raw p = .error fault ↔ ∃ cause, readUnsigned 10 0x100000000 p = .error cause ∧
      fault = .hopBudgetList raw
        ("'" ++ String.ofList p ++ "' is not a hop count (" ++ cause.message ++ ")") := by
  unfold readHopBudget
  cases readUnsigned 10 0x100000000 p with
  | error cause => simp [eq_comm]
  | ok k => simp

/-! The whole text -/

/-- What a text is read as, by its segments: none is a fault of its own, hop counts are taken in
their order, and otherwise the first segment that is no hop count is named, with the cause. -/
inductive Reading (raw : String) :
    List (List Char) → Except ResolveFault (List UInt32) → Prop
  | empty : Reading raw [] (.error (.param .emptyHopBudgets))
  | counts {segments : List (List Char)} {ns : List UInt32} (some : segments ≠ [])
      (each : List.Forall₂ (fun p n => Unsigned 10 p n.toNat) segments ns) :
      Reading raw segments (.ok ns)
  | refused {front back : List (List Char)} {p : List Char} {cause : IntegerFault}
      (good : ∀ q ∈ front, ∃ n : UInt32, Unsigned 10 q n.toNat)
      (bad : ∀ n : UInt32, ¬Unsigned 10 p n.toNat)
      (why : readUnsigned 10 0x100000000 p = .error cause) :
      Reading raw (front ++ p :: back) (.error (.hopBudgetList raw
        ("'" ++ String.ofList p ++ "' is not a hop count (" ++ cause.message ++ ")")))

theorem mapM_readHopBudget_eq_ok : segments.mapM (readHopBudget raw) = .ok ns ↔
    List.Forall₂ (fun p n => Unsigned 10 p n.toNat) segments ns := by
  simp only [mapM_eq_ok, readHopBudget_eq_ok_iff]

theorem readHopBudgets_of_ok (h : (hopBudgetPieces raw).mapM (readHopBudget raw) = .ok ns)
    (hns : ns ≠ []) : readHopBudgets raw = .ok ns := by
  rw [readHopBudgets, h]
  cases ns with
  | nil => exact absurd rfl hns
  | cons n ns => rfl

theorem readHopBudgets_of_error
    (h : (hopBudgetPieces raw).mapM (readHopBudget raw) = .error fault) :
    readHopBudgets raw = .error fault := by
  rw [readHopBudgets, h]
  rfl

theorem readHopBudgets_of_empty (h : hopBudgetPieces raw = []) :
    readHopBudgets raw = .error (.param .emptyHopBudgets) := by
  rw [readHopBudgets, h]
  rfl

theorem reading_readHopBudgets (raw : String) :
    Reading raw (hopBudgetPieces raw) (readHopBudgets raw) := by
  by_cases hempty : hopBudgetPieces raw = []
  · rw [readHopBudgets_of_empty hempty, hempty]
    exact .empty
  · cases h : (hopBudgetPieces raw).mapM (readHopBudget raw) with
    | ok ns =>
      have heach := mapM_readHopBudget_eq_ok.mp h
      have hns : ns ≠ [] := by
        rintro rfl
        exact hempty (List.forall₂_nil_right_iff.mp heach)
      rw [readHopBudgets_of_ok h hns]
      exact .counts hempty heach
    | error fault =>
      obtain ⟨front, p, back, hpieces, hgood, hp⟩ := mapM_eq_error.mp h
      obtain ⟨cause, hcause, rfl⟩ := readHopBudget_eq_error_iff.mp hp
      rw [readHopBudgets_of_error h, hpieces]
      refine .refused (fun q hq => ?_) (fun n hn => ?_) hcause
      · exact (hgood q hq).imp fun n hn => readHopBudget_eq_ok_iff.mp hn
      · rw [readHopBudget_eq_ok_iff.mpr hn] at hp
        cases hp

theorem Reading.eq (h : Reading raw (hopBudgetPieces raw) result) :
    readHopBudgets raw = result := by
  generalize hsegments : hopBudgetPieces raw = segments at h
  cases h with
  | empty => exact readHopBudgets_of_empty hsegments
  | @counts _ ns hsome heach =>
    refine readHopBudgets_of_ok (hsegments ▸ mapM_readHopBudget_eq_ok.mpr heach) ?_
    rintro rfl
    exact hsome (List.forall₂_nil_right_iff.mp heach)
  | @refused front back p cause hgood hbad hcause =>
    refine readHopBudgets_of_error (mapM_eq_error.mpr ⟨front, p, back, hsegments, ?_, ?_⟩)
    · exact fun q hq => (hgood q hq).imp fun n hn => readHopBudget_eq_ok_iff.mpr hn
    · exact readHopBudget_eq_error_iff.mpr ⟨cause, hcause, rfl⟩

/-! Written lists -/

/-- Pieces with one number each between blanks, among pieces that are all blank. -/
inductive Listed : List (List Char) → List UInt32 → Prop
  | nil : Listed [] []
  | blank {p : List Char} {ps : List (List Char)} {ns : List UInt32}
      (h : ∀ c ∈ p, isBlank c = true) (rest : Listed ps ns) : Listed (p :: ps) ns
  | number {l r : List Char} {n : UInt32} {ps : List (List Char)} {ns : List UInt32}
      (hl : ∀ c ∈ l, isBlank c = true) (hr : ∀ c ∈ r, isBlank c = true) (rest : Listed ps ns) :
      Listed ((l ++ decimal n.toNat ++ r) :: ps) (n :: ns)

theorem isBlank_of_isDigit {c : Char} (h : isDigit c = true) : isBlank c = false := by
  obtain ⟨hlow, hhigh⟩ := isDigit_iff.mp h
  simp only [isBlank]
  grind

theorem trimmed_decimal {l r : List Char} (hl : ∀ c ∈ l, isBlank c = true)
    (hr : ∀ c ∈ r, isBlank c = true) (k : ℕ) : Trimmed (l ++ decimal k ++ r) (decimal k) where
  between := ⟨l, r, rfl, hl, hr⟩
  head c hc := isBlank_of_isDigit (isDigit_of_mem_decimal c (List.mem_of_mem_head? hc))
  last c hc := isBlank_of_isDigit (isDigit_of_mem_decimal c (List.mem_of_mem_getLast? hc))

theorem Listed.comma_notMem (h : Listed ps ns) : ∀ p ∈ ps, ',' ∉ p := by
  have hblank {l : List Char} (hl : ∀ c ∈ l, isBlank c = true) : ',' ∉ l := by
    intro hc
    exact absurd (hl ',' hc) (by decide)
  induction h with
  | nil => simp
  | blank hp _ ih => exact List.forall_mem_cons.mpr ⟨hblank hp, ih⟩
  | @number l r n ps ns hl hr _ ih =>
    refine List.forall_mem_cons.mpr ⟨?_, ih⟩
    have hdigits : ',' ∉ decimal n.toNat := by
      intro hc
      exact absurd (isDigit_of_mem_decimal _ hc) (by decide)
    simp only [List.mem_append, not_or]
    exact ⟨⟨hblank hl, hdigits⟩, hblank hr⟩

theorem Listed.segments_eq (h : Listed ps ns) :
    (ps.map trim).filter (!·.isEmpty) = ns.map fun n => decimal n.toNat := by
  induction h with
  | nil => rfl
  | @blank p ps ns hp _ ih =>
    have htrim : trim p = [] := by
      refine trim_eq_iff.mpr ⟨⟨p, [], ?_, hp, ?_⟩, ?_, ?_⟩ <;> simp
    rw [List.map_cons, htrim, List.filter_cons_of_neg (by simp), ih]
  | @number l r n ps ns hl hr _ ih =>
    have htrim : trim (l ++ decimal n.toNat ++ r) = decimal n.toNat :=
      trim_eq_iff.mpr (trimmed_decimal hl hr n.toNat)
    rw [List.map_cons, htrim, List.filter_cons_of_pos (by simp [decimal_ne_nil]), ih, List.map_cons]

theorem readHopBudgets_listed (h : Listed ps ns) (hns : ns ≠ [])
    (hraw : raw.toList = [','].intercalate ps) : readHopBudgets raw = .ok ns := by
  have hps : ps ≠ [] := by
    rintro rfl
    cases h
    exact hns rfl
  have hpieces : hopBudgetPieces raw = ns.map fun n => decimal n.toNat := by
    rw [hopBudgetPieces, hraw, splitOn_intercalate hps h.comma_notMem, h.segments_eq]
  refine readHopBudgets_of_ok ?_ hns
  rw [hpieces, mapM_readHopBudget_eq_ok, List.forall₂_map_left_iff, List.forall₂_same]
  exact fun n _ => .inl (isNumeral_decimal n.toNat)

/-- A text is read by its segments and in no other way; and numbers that were written between
commas, with any blanks and blank pieces, are read back. -/
theorem readHopBudgets_exact (raw : String) (result : Except ResolveFault (List UInt32)) :
    (readHopBudgets raw = result ↔
      ∃ segments, Segments raw.toList segments ∧ Reading raw segments result) ∧
    ∀ ps ns, Listed ps ns → ns ≠ [] → raw.toList = [','].intercalate ps →
      readHopBudgets raw = .ok ns := by
  refine ⟨?_, fun ps ns => readHopBudgets_listed⟩
  constructor
  · rintro rfl
    exact ⟨_, hopBudgetPieces_eq_iff.mp rfl, reading_readHopBudgets raw⟩
  · rintro ⟨segments, hsegments, hreading⟩
    rw [← hopBudgetPieces_eq_iff.mpr hsegments] at hreading
    exact hreading.eq

/-- The largest number of 32 bits among blanks of several kinds, beside an empty piece and one with
a wide blank in it. -/
theorem readHopBudgets_exact_blanks :
    readHopBudgets " 7 ,,\u2003,\t4294967295\n,0" = .ok [7, 4294967295, 0] := by
  have hblank {c : Char} (h : isBlank c = true) : ∀ x ∈ [c], isBlank x = true :=
    List.forall_mem_singleton.mpr h
  have hnone : ∀ x ∈ ([] : List Char), isBlank x = true := List.forall_mem_nil _
  have hlisted : Listed [[' '] ++ decimal (7 : UInt32).toNat ++ [' '], [], ['\u2003'],
      ['\t'] ++ decimal (4294967295 : UInt32).toNat ++ ['\n'],
      [] ++ decimal (0 : UInt32).toNat ++ []] [7, 4294967295, 0] :=
    .number (hblank (by decide)) (hblank (by decide)) (.blank hnone (.blank (hblank (by decide))
      (.number (hblank (by decide)) (hblank (by decide)) (.number hnone hnone .nil))))
  obtain ⟨-, hwritten⟩ :=
    readHopBudgets_exact " 7 ,,\u2003,\t4294967295\n,0" (.ok [7, 4294967295, 0])
  exact hwritten _ _ hlisted (by decide) (by decide +kernel)

end BucketOverflow
