import Mathlib.Data.Finset.Sort
import BucketOverflow.Proofs.Drift.Record

/-! The order of the fields of a full comparison. Names hold depths of up to four digits with zeros
in front, so that names come in the order of depth: after the key fields stand those of each depth,
in numeric order. A text shows as missing where its snapshot has no row of the depth, and where the
snapshot itself records that text. -/
namespace BucketOverflow.Drift
open Text Binary64

/-- The depths of two snapshots in increasing order, each of them once. -/
def depthsOf (g c : Snapshot) : List ℕ := ((g.rows ++ c.rows).map (·.depth)).toFinset.sort

/-- Which texts of one side of a comparison show as missing. Of a key field that is a fingerprint of
this very text; of a depth, the fields of no row, and a regime of this very text. -/
structure ShowsMissing (s : Snapshot) (text : DriftRow → String) (rows : List DriftRow) : Prop where
  key : ∀ r ∈ rows, r.field ∈ keyFields →
    (text r = missing ↔ r.field = "fingerprint" ∧ s.fingerprint = missing)
  depth : ∀ r ∈ rows, ∀ d, r.field ∈ rowNames d →
    (text r = missing ↔ (∀ row ∈ s.rows, row.depth ≠ d) ∨
      r.field = depthField d "regime" ∧ ∃ row, s.lastRow d = some row ∧ row.regime = missing)

variable {s g c : Snapshot} {f m n : String} {d e : ℕ} {depths : List ℕ}

/-! Names in order -/

theorem depthField_lt_of_depth (hde : d < e) (he : e ≤ 9999) : depthField d m < depthField e n := by
  have hd' : d < 10 ^ 4 := by omega
  have he' : e < 10 ^ 4 := by omega
  have hlen : (decimalPad 4 d).length = (decimalPad 4 e).length := by
    rw [length_decimalPad (by decide) hd', length_decimalPad (by decide) he']
  have hdigits := (decimalPad_lt_iff (by decide) hd' he').mpr hde
  rw [String.lt_iff_toList_lt, toList_depthField, toList_depthField]
  exact List.append_left_lt ((append_lt_append_iff hlen).mpr (.inl hdigits))

theorem depthField_lt_of_name (d : ℕ) (h : m < n) : depthField d m < depthField d n := by
  have hname : '.' :: m.toList < '.' :: n.toList :=
    List.cons_lt_cons_self.mpr (String.lt_iff_toList_lt.mp h)
  rw [String.lt_iff_toList_lt, toList_depthField, toList_depthField]
  exact List.append_left_lt (List.append_left_lt hname)

theorem sorted_rowNames (d : ℕ) : (rowNames d).Pairwise (· < ·) := by
  have hload : depthField d "expected_load" < depthField d "probability" :=
    depthField_lt_of_name d (by decide)
  have hprobability : depthField d "probability" < depthField d "regime" :=
    depthField_lt_of_name d (by decide)
  rw [rowNames, List.pairwise_cons, List.forall_mem_cons, List.forall_mem_singleton,
    List.pairwise_pair]
  exact ⟨⟨hload, hload.trans hprobability⟩, hprobability⟩

theorem rowNames_lt (hde : d < e) (he : e ≤ 9999) : ∀ x ∈ rowNames d, ∀ y ∈ rowNames e, x < y := by
  simp only [rowNames, List.mem_cons, List.not_mem_nil, or_false]
  rintro x (rfl | rfl | rfl) y (rfl | rfl | rfl) <;> exact depthField_lt_of_depth hde he

/-- The fields of depths in order are in the order of their names. -/
theorem sorted_flatMap_rowNames (h : depths.Pairwise (· < ·)) (hle : ∀ d ∈ depths, d ≤ 9999) :
    (depths.flatMap rowNames).Pairwise (· < ·) := by
  rw [List.pairwise_flatMap]
  refine ⟨fun d _ => sorted_rowNames d, ?_⟩
  exact h.imp_of_mem fun _ he hlt => rowNames_lt hlt (hle _ he)

theorem sorted_depthsOf (g c : Snapshot) : (depthsOf g c).Pairwise (· < ·) :=
  (Finset.sortedLT_sort _).pairwise

theorem mem_depthsOf :
    d ∈ depthsOf g c ↔ (∃ r ∈ g.rows, r.depth = d) ∨ ∃ r ∈ c.rows, r.depth = d := by
  simp only [depthsOf, Finset.mem_sort, List.mem_toFinset, List.map_append, List.mem_append,
    List.mem_map]

theorem otherFields_eq (h : ∀ d ∈ depthsOf g c, d ≤ 9999) :
    otherFields (fieldsOf g) (fieldsOf c) = (depthsOf g c).flatMap rowNames := by
  refine List.Pairwise.eq_of_mem_iff (sorted_otherFields g c)
    (sorted_flatMap_rowNames (sorted_depthsOf g c) h) fun f => ?_
  simp only [mem_otherFields, List.mem_flatMap, mem_depthsOf]
  constructor
  · rintro (⟨r, hr, hf⟩ | ⟨r, hr, hf⟩)
    · exact ⟨r.depth, .inl ⟨r, hr, rfl⟩, hf⟩
    · exact ⟨r.depth, .inr ⟨r, hr, rfl⟩, hf⟩
  · rintro ⟨d, ⟨r, hr, rfl⟩ | ⟨r, hr, rfl⟩, hf⟩
    · exact .inl ⟨r, hr, hf⟩
    · exact .inr ⟨r, hr, hf⟩

theorem nodup_fields (g c : Snapshot) :
    (keyFields ++ otherFields (fieldsOf g) (fieldsOf c)).Nodup := by
  refine keyFields_nodup.append (nodup_otherFields g c) fun f hkey hf => ?_
  rw [mem_otherFields] at hf
  rcases hf with ⟨r, -, hf⟩ | ⟨r, -, hf⟩
  · exact notMem_keyFields_of_mem_rowNames hf hkey
  · exact notMem_keyFields_of_mem_rowNames hf hkey

/-! Missing texts -/

theorem natText_ne_missing (n : ℕ) : natText n ≠ missing := by
  intro h
  have hmem : '<' ∈ decimal n := by
    have htext := congrArg String.toList h
    rw [natText, String.toList_ofList] at htext
    rw [htext]
    decide
  exact absurd (isDigit_of_mem_decimal _ hmem) (by decide)

theorem policy_ne_missing (t : TailPolicy) : t.name ≠ missing := by
  cases t <;> decide

theorem textAt_key_eq_missing_iff (s : Snapshot) : ∀ f ∈ keyFields,
    (textAt s f = missing ↔ f = "fingerprint" ∧ s.fingerprint = missing) := by
  have htext := textAt_keyFields s
  simp only [keyFields, keyValues, List.map_cons, List.map_nil, List.cons.injEq, and_true] at htext
  simp only [keyFields, List.forall_mem_cons, List.not_mem_nil, false_implies, implies_true, htext,
    natText_ne_missing, valueText_ne_missing, policy_ne_missing, String.reduceEq, false_and,
    true_and, and_self]

theorem textAt_depth_eq_missing_iff (hf : f ∈ rowNames d) :
    textAt s f = missing ↔ (∀ r ∈ s.rows, r.depth ≠ d) ∨
      f = depthField d "regime" ∧ ∃ r, s.lastRow d = some r ∧ r.regime = missing := by
  cases h : s.lastRow d with
  | none =>
    have hlack := lastRow_eq_none_iff.mp h
    exact iff_of_true (textAt_missing hlack hf) (.inl hlack)
  | some r =>
    have hrow : ¬∀ r ∈ s.rows, r.depth ≠ d := by
      rw [← lastRow_eq_none_iff, h]
      exact Option.some_ne_none r
    have htext := textAt_lastRow h
    simp only [rowNames, List.map_cons, List.map_nil, List.cons.injEq, and_true] at htext
    obtain ⟨hload, hprobability, hregime⟩ := htext
    simp only [rowNames, List.mem_cons, List.not_mem_nil, or_false] at hf
    rw [or_iff_right hrow]
    rcases hf with rfl | rfl | rfl
    · simp [hload, valueText_ne_missing, depthField_inj]
    · simp [hprobability, valueText_ne_missing, depthField_inj]
    · simp [hregime]

theorem showsMissing {fields : List String} {row : String → DriftRow} {text : DriftRow → String}
    (hfield : ∀ f, (row f).field = f) (htext : ∀ f, text (row f) = textAt s f) :
    ShowsMissing s text (fields.map row) where
  key := by
    rw [List.forall_mem_map]
    intro f _ hf
    rw [hfield] at hf ⊢
    rw [htext]
    exact textAt_key_eq_missing_iff s f hf
  depth := by
    rw [List.forall_mem_map]
    intro f _ d hf
    rw [hfield] at hf ⊢
    rw [htext]
    exact textAt_depth_eq_missing_iff hf

/-- A full comparison of two snapshots of one version whose bit patterns decode and whose depths
have at most four digits has a row for each key field and then for each field of each depth of
either side, in the order of depth; and its texts are missing exactly where there is no row, but for
a fingerprint and regimes that are the text for a missing one. -/
theorem between_ordered (g c : Snapshot) (hv : g.version = c.version) (hg : Decodes g)
    (hc : Decodes c) (hgd : ∀ r ∈ g.rows, r.depth ≤ 9999) (hcd : ∀ r ∈ c.rows, r.depth ≤ 9999) :
    ∃ d, between g c true = .ok d ∧
      d.rows.map (·.field) = keyFields ++ (depthsOf g c).flatMap rowNames ∧
      (d.rows.map (·.field)).Nodup ∧
      ShowsMissing g (·.golden) d.rows ∧ ShowsMissing c (·.current) d.rows := by
  have hle : ∀ d ∈ depthsOf g c, d ≤ 9999 := by
    intro d hd
    rcases mem_depthsOf.mp hd with ⟨r, hr, rfl⟩ | ⟨r, hr, rfl⟩
    · exact hgd r hr
    · exact hcd r hr
  have hfields (fields : List String) :
      (fields.map (row (fieldsOf g) (fieldsOf c))).map (·.field) = fields := by
    rw [List.map_map]
    exact List.map_id fields
  refine ⟨_, between_eq hv hg hc, ?_, ?_, ?_, ?_⟩
  · rw [hfields, otherFields_eq hle]
  · rw [hfields]
    exact nodup_fields g c
  · exact showsMissing (fun _ => rfl) fun _ => rfl
  · exact showsMissing (fun _ => rfl) fun _ => rfl

/-- Depths out of order, with gaps, one twice and one on the other side; loads that are NaN. -/
theorem between_ordered_gaps : ∃ g c : Snapshot, g.version = c.version ∧ Decodes g ∧ Decodes c ∧
    (∀ r ∈ g.rows, r.depth ≤ 9999) ∧ (∀ r ∈ c.rows, r.depth ≤ 9999) ∧
      ∃ d, between g c true = .ok d ∧
        d.rows.map (·.field) = keyFields ++ [2, 10, 9999].flatMap rowNames := by
  let row (depth : ℕ) : SnapshotRow := ⟨depth, nan, nan.bitsText, one, one.bitsText, "bounded"⟩
  let s (depths : List ℕ) : Snapshot := { certain nan.bitsText with rows := depths.map row }
  let g := s [10, 2, 10]
  let c := s [9999]
  have hword (x : Binary64) : IsWord x.bitsText := ⟨x, ofBitsText_bitsText x⟩
  have hdecodes (depths : List ℕ) : Decodes (s depths) :=
    ⟨hword nan, List.forall_mem_map.mpr fun _ _ => hword nan,
      List.forall_mem_map.mpr fun _ _ => hword one⟩
  have hg : Decodes g := hdecodes [10, 2, 10]
  have hc : Decodes c := hdecodes [9999]
  have hgd : ∀ r ∈ g.rows, r.depth ≤ 9999 := by decide
  have hcd : ∀ r ∈ c.rows, r.depth ≤ 9999 := by decide
  have hdepths : depthsOf g c = [2, 10, 9999] := by
    refine List.Pairwise.eq_of_mem_iff (sorted_depthsOf g c) (by decide) fun d => ?_
    simp only [mem_depthsOf, g, c, s, row, List.map_cons, List.map_nil, List.mem_cons,
      List.not_mem_nil, or_false, exists_eq_or_imp, exists_eq_left]
    omega
  obtain ⟨d, hd, hfields, -⟩ := between_ordered g c rfl hg hc hgd hcd
  exact ⟨g, c, rfl, hg, hc, hgd, hcd, d, hd, hdepths ▸ hfields⟩

/-- A row whose regime is the text for a missing one. -/
def unnamedRow : SnapshotRow :=
  ⟨0, one, "0x3ff0000000000000", one, "0x3ff0000000000000", missing⟩

/-- A snapshot whose fingerprint and only regime are the text for a missing one. -/
def unnamed : Snapshot :=
  { certain "0x3ff0000000000000" with fingerprint := missing, rows := [unnamedRow] }

/-- A recorded text shows as missing, in a key field and in a field of a depth that has a row. -/
theorem between_unnamed : ∃ c : Snapshot, unnamed.version = c.version ∧ Decodes unnamed ∧
    Decodes c ∧ (∀ r ∈ unnamed.rows, r.depth ≤ 9999) ∧ (∀ r ∈ c.rows, r.depth ≤ 9999) ∧
      ∃ d, between unnamed c true = .ok d ∧
        (∃ r ∈ d.rows, r.field ∈ keyFields ∧ r.golden = missing) ∧
          ∃ r ∈ d.rows, r.field ∈ rowNames 0 ∧ r.golden = missing ∧
            ∃ row ∈ unnamed.rows, row.depth = 0 := by
  have hword : IsWord "0x3ff0000000000000" := ⟨one, rfl⟩
  have hg : Decodes unnamed :=
    ⟨hword, List.forall_mem_singleton.mpr hword, List.forall_mem_singleton.mpr hword⟩
  have hc : Decodes (certain "0x3ff0000000000000") :=
    ⟨hword, List.forall_mem_singleton.mpr hword, List.forall_mem_singleton.mpr hword⟩
  have hrow : unnamedRow ∈ unnamed.rows := List.mem_singleton_self unnamedRow
  have hkey : "fingerprint" ∈ keyFields := by decide
  have hregime : depthField 0 "regime" ∈ rowNames 0 := by simp [rowNames]
  have hother : depthField 0 "regime" ∈
      otherFields (fieldsOf unnamed) (fieldsOf (certain "0x3ff0000000000000")) :=
    mem_otherFields.mpr (.inl ⟨unnamedRow, hrow, hregime⟩)
  refine ⟨certain "0x3ff0000000000000", rfl, hg, hc, by decide, by decide, _,
    between_eq rfl hg hc, ?_, ?_⟩
  · refine ⟨_, List.mem_map_of_mem (List.mem_append_left _ hkey), hkey, ?_⟩
    exact (textAt_key_eq_missing_iff unnamed _ hkey).mpr ⟨rfl, rfl⟩
  · refine ⟨_, List.mem_map_of_mem (List.mem_append_right _ hother), hregime, ?_,
      unnamedRow, hrow, rfl⟩
    exact (textAt_depth_eq_missing_iff (s := unnamed) hregime).mpr (.inr ⟨rfl, _, rfl, rfl⟩)

end BucketOverflow.Drift
