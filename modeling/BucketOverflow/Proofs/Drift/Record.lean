import BucketOverflow.Proofs.Drift.Gate

/-! What a full comparison without a difference says. It reads ten key fields, the saturated depths
by their number alone, and for each depth the last of its rows; two snapshots come out the same
exactly when they record the same there. So nothing is overlooked among rows of distinct depths,
and among rows in the order of depth not even a place. -/
namespace BucketOverflow
open Binary64

/-- A row by its depth, the words of its bit patterns and its regime. -/
def SnapshotRow.decoded (r : SnapshotRow) :
    ℕ × Except BitsFault Binary64 × Except BitsFault Binary64 × String :=
  (r.depth, ofBitsText r.loadBits, ofBitsText r.probabilityBits, r.regime)

namespace Drift

/-- Snapshots that record the same, as far as they are compared. -/
structure SameRecord (g c : Snapshot) : Prop where
  params : g.params = c.params
  fingerprint : g.fingerprint = c.fingerprint
  peak_depth : g.peak.depth = c.peak.depth
  peak_probability : ofBitsText g.peak.probabilityBits = ofBitsText c.peak.probabilityBits
  saturated : g.saturatedDepths.length = c.saturatedDepths.length
  rows : ∀ d, (g.lastRow d).map (·.decoded) = (c.lastRow d).map (·.decoded)

variable {s g c : Snapshot} {r r' : SnapshotRow} {f a b : String} {d : ℕ}

/-! Texts that are the same -/

theorem valueText_inj (ha : IsNumber a) (hb : IsNumber b) :
    valueText a = valueText b ↔ ofBitsText a = ofBitsText b := by
  obtain ⟨x, hx, hxn⟩ := ha
  obtain ⟨y, hy, hyn⟩ := hb
  rw [valueText, valueText, wordOf_eq hx, wordOf_eq hy, hx, hy, Except.ok.injEq]
  constructor
  · intro h
    have hread := congrArg ofText? (String.ofList_injective h)
    rw [ofText?_scientific hxn, ofText?_scientific hyn] at hread
    exact Option.some.inj hread
  · exact fun h => by rw [h]

theorem valueText_ne_missing (raw : String) : valueText raw ≠ missing := by
  intro h
  have hnone : ofText? missing.toList = none := by decide
  rw [← h, valueText, String.toList_ofList] at hnone
  cases hx : (wordOf raw).isNaN with
  | false =>
    rw [ofText?_scientific hx] at hnone
    cases hnone
  | true =>
    rw [scientific, signed, if_pos hx] at hnone
    exact absurd hnone (by decide)

theorem keyValues_eq_iff (hg : Readable g) (hc : Readable c) :
    keyValues g = keyValues c ↔ g.params = c.params ∧ g.fingerprint = c.fingerprint ∧
      g.peak.depth = c.peak.depth ∧
      ofBitsText g.peak.probabilityBits = ofBitsText c.peak.probabilityBits ∧
      g.saturatedDepths.length = c.saturatedDepths.length := by
  rw [← paramTexts_inj, ← valueText_inj hg.peak hc.peak]
  simp only [keyValues, List.cons.injEq, and_true, natText_injective.eq_iff, and_assoc]

theorem decoded_eq_iff (hg : Readable g) (hc : Readable c) (hr : r ∈ g.rows) (hr' : r' ∈ c.rows)
    (hd : r.depth = r'.depth) : r.decoded = r'.decoded ↔
      [valueText r.loadBits, valueText r.probabilityBits, r.regime] =
        [valueText r'.loadBits, valueText r'.probabilityBits, r'.regime] := by
  simp only [SnapshotRow.decoded, Prod.mk.injEq, List.cons.injEq, and_true,
    valueText_inj (hg.loads r hr) (hc.loads r' hr'),
    valueText_inj (hg.probabilities r hr) (hc.probabilities r' hr'), hd, true_and]

/-- The fields of a depth are the same when the last rows of the depth are. -/
theorem textAt_rowNames_iff (hg : Readable g) (hc : Readable c) (d : ℕ) :
    (rowNames d).map (textAt g) = (rowNames d).map (textAt c) ↔
      (g.lastRow d).map (·.decoded) = (c.lastRow d).map (·.decoded) := by
  have habsent {s : Snapshot} (h : s.lastRow d = none) :
      (rowNames d).map (textAt s) = [missing, missing, missing] := by
    have hmissing : ∀ f ∈ rowNames d, textAt s f = missing := fun f hf =>
      textAt_missing (lastRow_eq_none_iff.mp h) hf
    exact List.map_congr_left hmissing
  have hpresent {s : Snapshot} {r : SnapshotRow} (h : s.lastRow d = some r) :
      (rowNames d).map (textAt s) ≠ [missing, missing, missing] := by
    rw [textAt_lastRow h]
    intro heq
    exact valueText_ne_missing r.loadBits (List.cons.inj heq).1
  cases hgd : g.lastRow d with
  | none =>
    cases hcd : c.lastRow d with
    | none => simp [habsent hgd, habsent hcd]
    | some r' =>
      rw [habsent hgd]
      exact iff_of_false (hpresent hcd).symm (by simp)
  | some r =>
    cases hcd : c.lastRow d with
    | none =>
      rw [habsent hcd]
      exact iff_of_false (hpresent hgd) (by simp)
    | some r' =>
      obtain ⟨hr, hrd⟩ := mem_of_lastRow hgd
      obtain ⟨hr', hrd'⟩ := mem_of_lastRow hcd
      rw [textAt_lastRow hgd, textAt_lastRow hcd, Option.map_some, Option.map_some,
        Option.some.injEq, decoded_eq_iff hg hc hr hr' (hrd.trans hrd'.symm)]

/-! The comparison -/

/-- Texts that differ are changed or raise an alert. -/
theorem classify_same_iff : (classify f a b).2 = .same ↔ a = b := by
  by_cases heq : a = b
  · rw [heq, classify_self]
    exact iff_of_true rfl rfl
  · rw [iff_false_right heq]
    rcases measured_or f with rfl | hf | hf
    · simp [classify_fingerprint heq]
    · simp [classify_params hf heq]
    · rw [classify_measured hf heq]
      cases ofText? a.toList with
      | none => simp
      | some x =>
        cases ofText? b.toList with
        | none => simp
        | some y => by_cases h : Near x y <;> simp [h]

theorem status_row_same_iff : (row (fieldsOf g) (fieldsOf c) f).status = .same ↔
    textAt g f = textAt c f := classify_same_iff

/-- All fields are the same when the key fields are, and those of every depth. -/
theorem texts_same_iff :
    (∀ f ∈ keyFields ++ otherFields (fieldsOf g) (fieldsOf c), textAt g f = textAt c f) ↔
      keyValues g = keyValues c ∧
        ∀ d, (rowNames d).map (textAt g) = (rowNames d).map (textAt c) := by
  rw [List.forall_mem_append, ← textAt_keyFields g, ← textAt_keyFields c, List.map_inj_left]
  refine and_congr_right fun _ => ?_
  constructor
  · intro h d
    rw [List.map_inj_left]
    intro f hf
    by_cases hmem : f ∈ otherFields (fieldsOf g) (fieldsOf c)
    · exact h f hmem
    · -- neither side has the depth
      rw [mem_otherFields, not_or] at hmem
      have hlack {s : Snapshot} (h : ¬∃ r ∈ s.rows, f ∈ rowNames r.depth) :
          textAt s f = missing := by
        refine textAt_missing (d := d) ?_ hf
        rintro r hr rfl
        exact h ⟨r, hr, hf⟩
      rw [hlack hmem.1, hlack hmem.2]
  · intro h f hf
    rw [mem_otherFields] at hf
    rcases hf with ⟨r, -, hf⟩ | ⟨r, -, hf⟩
    · exact List.map_inj_left.mp (h r.depth) f hf
    · exact List.map_inj_left.mp (h r.depth) f hf

theorem between_same (hv : g.version = c.version) (hg : Readable g) (hc : Readable c) :
    ∃ d, between g c true = .ok d ∧ ((∀ r ∈ d.rows, r.status = .same) ↔ SameRecord g c) := by
  refine ⟨_, between_eq hv hg.decodes hc.decodes, ?_⟩
  simp only [List.forall_mem_map, status_row_same_iff]
  rw [texts_same_iff, keyValues_eq_iff hg hc]
  simp only [textAt_rowNames_iff hg hc]
  constructor
  · rintro ⟨⟨hparams, hfingerprint, hdepth, hprobability, hsaturated⟩, hrows⟩
    exact ⟨hparams, hfingerprint, hdepth, hprobability, hsaturated, hrows⟩
  · intro h
    exact ⟨⟨h.params, h.fingerprint, h.peak_depth, h.peak_probability, h.saturated⟩, h.rows⟩

/-! Rows -/

theorem mem_decoded_iff (h : (s.rows.map (·.depth)).Nodup)
    {x : ℕ × Except BitsFault Binary64 × Except BitsFault Binary64 × String} :
    x ∈ s.rows.map (·.decoded) ↔ (s.lastRow x.1).map (·.decoded) = some x := by
  rw [List.mem_map, Option.map_eq_some_iff]
  constructor
  · rintro ⟨r, hr, rfl⟩
    exact ⟨r, lastRow_of_mem h hr, rfl⟩
  · rintro ⟨r, hr, hx⟩
    exact ⟨r, (mem_of_lastRow hr).1, hx⟩

/-- Rows of distinct depths are found by their depth, in whatever order they stand. -/
theorem lastRow_of_perm (hg : (g.rows.map (·.depth)).Nodup) (hc : (c.rows.map (·.depth)).Nodup)
    (h : (g.rows.map (·.decoded)).Perm (c.rows.map (·.decoded))) (d : ℕ) :
    (g.lastRow d).map (·.decoded) = (c.lastRow d).map (·.decoded) := by
  have hdepth {s : Snapshot}
      {x : ℕ × Except BitsFault Binary64 × Except BitsFault Binary64 × String}
      (hx : (s.lastRow d).map (·.decoded) = some x) : x.1 = d := by
    obtain ⟨r, hr, rfl⟩ := Option.map_eq_some_iff.mp hx
    exact (mem_of_lastRow hr).2
  ext x
  constructor <;> intro hx <;> obtain rfl := hdepth hx
  · rwa [← mem_decoded_iff hc, ← h.mem_iff, mem_decoded_iff hg]
  · rwa [← mem_decoded_iff hg, h.mem_iff, mem_decoded_iff hc]

theorem nodup_decoded (h : (s.rows.map (·.depth)).Nodup) : (s.rows.map (·.decoded)).Nodup := by
  have hdepth : (s.rows.map (·.decoded)).map (·.1) = s.rows.map (·.depth) := List.map_map
  exact List.Nodup.of_map _ (hdepth ▸ h)

/-- Rows of distinct depths are the same rows. -/
theorem SameRecord.perm (h : SameRecord g c) (hg : (g.rows.map (·.depth)).Nodup)
    (hc : (c.rows.map (·.depth)).Nodup) :
    (g.rows.map (·.decoded)).Perm (c.rows.map (·.decoded)) := by
  rw [List.perm_ext_iff_of_nodup (nodup_decoded hg) (nodup_decoded hc)]
  intro x
  rw [mem_decoded_iff hg, mem_decoded_iff hc, h.rows]

/-- Rows in the order of depth are the same rows in the same places. -/
theorem SameRecord.rows_eq (h : SameRecord g c) (hg : (g.rows.map (·.depth)).Pairwise (· < ·))
    (hc : (c.rows.map (·.depth)).Pairwise (· < ·)) :
    g.rows.map (·.decoded) = c.rows.map (·.decoded) := by
  have hperm := h.perm (hg.imp ne_of_lt) (hc.imp ne_of_lt)
  have hsorted {s : Snapshot} (hs : (s.rows.map (·.depth)).Pairwise (· < ·)) :
      (s.rows.map (·.decoded)).Pairwise (fun x y => x.1 < y.1) := by
    rw [List.pairwise_map] at hs ⊢
    exact hs
  refine hperm.eq_of_pairwise ?_ (hsorted hg) (hsorted hc)
  intro x y _ _ hxy hyx
  exact absurd hxy hyx.asymm

/-- Which depths are saturated is not recorded, nor are rows before another row of their depth. -/
theorem sameRecord_overlooked {saturated : List ℕ} {first : List SnapshotRow}
    (hlen : s.saturatedDepths.length = saturated.length)
    (hfirst : ∀ r ∈ first, r.depth ∈ s.rows.map (·.depth)) :
    SameRecord s { s with saturatedDepths := saturated, rows := first ++ s.rows } where
  params := rfl
  fingerprint := rfl
  peak_depth := rfl
  peak_probability := rfl
  saturated := hlen
  rows := by
    intro d
    cases hs : s.lastRow d with
    | some r =>
      unfold Snapshot.lastRow at hs ⊢
      rw [List.filter_append, List.getLast?_append, hs, Option.some_or]
    | none =>
      have hlack := lastRow_eq_none_iff.mp hs
      have hnone : ({ s with saturatedDepths := saturated, rows := first ++ s.rows }
          : Snapshot).lastRow d = none := by
        rw [lastRow_eq_none_iff]
        intro r hr
        rcases List.mem_append.mp hr with hr | hr
        · obtain ⟨r', hr', hd⟩ := List.mem_map.mp (hfirst r hr)
          exact hd ▸ hlack r' hr'
        · exact hlack r hr
      rw [hnone]

/-- A snapshot of certain overflow at the root. -/
def certain (bits : String) : Snapshot :=
  ⟨"v1", "depth_sweep", ⟨1, 1, 1, 0, 1, .literal⟩, "a", ⟨0, one, bits⟩, [0],
    [⟨0, one, bits, one, bits, "saturated"⟩]⟩

theorem readable_certain (h : IsNumber a) : Readable (certain a) :=
  ⟨h, List.forall_mem_singleton.mpr h, List.forall_mem_singleton.mpr h⟩

/-- A full comparison of two snapshots of one version whose bit patterns are numbers succeeds, and
everything in it is the same exactly when the snapshots record the same: parameters, fingerprint,
peak, the number of saturated depths and the last row of every depth. Then rows of distinct depths
are the same rows, and rows in the order of depth are the same lists. -/
theorem between_same_record (g c : Snapshot) (hv : g.version = c.version) (hg : Readable g)
    (hc : Readable c) :
    ∃ d, between g c true = .ok d ∧ ((∀ r ∈ d.rows, r.status = .same) ↔ SameRecord g c) ∧
      ((∀ r ∈ d.rows, r.status = .same) →
        ((g.rows.map (·.depth)).Nodup → (c.rows.map (·.depth)).Nodup →
          (g.rows.map (·.decoded)).Perm (c.rows.map (·.decoded))) ∧
        ((g.rows.map (·.depth)).Pairwise (· < ·) → (c.rows.map (·.depth)).Pairwise (· < ·) →
          g.rows.map (·.decoded) = c.rows.map (·.decoded))) := by
  obtain ⟨d, hd, hsame⟩ := between_same hv hg hc
  refine ⟨d, hd, hsame, fun hall => ?_⟩
  have hrecord := hsame.mp hall
  exact ⟨hrecord.perm, hrecord.rows_eq⟩

/-- A row with certain overflow and one without, recorded in small letters. -/
def smallRows : List SnapshotRow := [
  ⟨0, ⟨0x3ffc000000000000⟩, "0x3ffc000000000000", one, "0x3ff0000000000000", "saturated"⟩,
  ⟨1, ⟨0x3feb800000000000⟩, "0x3feb800000000000", ⟨0x3fefa955eb985c8e⟩, "0x3fefa955eb985c8e",
    "bounded"⟩]

/-- The same rows in capital letters, one decimal of which moved by a word. -/
def capitalRows : List SnapshotRow := [
  ⟨0, ⟨0x3ffc000000000000⟩, "0x3FFC000000000000", one, "0x3FF0000000000000", "saturated"⟩,
  ⟨1, ⟨0x3feb800000000000⟩, "0x3FEB800000000000", ⟨0x3fefa955eb985c8f⟩, "0x3FEFA955EB985C8E",
    "bounded"⟩]

/-- A snapshot of two depths with the given rows. -/
def recorded (rows : List SnapshotRow) : Snapshot :=
  ⟨"v1", "depth_sweep", ⟨1, 2, 1, 1, 3, .saturating⟩, "a", ⟨0, one, "0x3ff0000000000000"⟩, [0],
    rows⟩

/-- Neither the letters of the bit patterns nor the decimals beside them make a difference, and
another order of the rows does not either. -/
theorem between_same_record_capitals :
    Readable (recorded smallRows) ∧ Readable (recorded capitalRows) ∧
    smallRows.map (·.probability) ≠ capitalRows.map (·.probability) ∧
    (∃ d, between (recorded smallRows) (recorded capitalRows) true = .ok d ∧
      ∀ r ∈ d.rows, r.status = .same) ∧
    smallRows.map (·.decoded) = capitalRows.map (·.decoded) ∧
    (∃ d, between (recorded smallRows) (recorded capitalRows.reverse) true = .ok d ∧
      ∀ r ∈ d.rows, r.status = .same) ∧
    (smallRows.map (·.decoded)).Perm (capitalRows.reverse.map (·.decoded)) := by
  have hsmall : Readable (recorded smallRows) := by decide +kernel
  have hcapital : Readable (recorded capitalRows) := by decide +kernel
  have hreverse : Readable (recorded capitalRows.reverse) := by decide +kernel
  have hdecoded : smallRows.map (·.decoded) = capitalRows.map (·.decoded) := rfl
  have hperm : (smallRows.map (·.decoded)).Perm (capitalRows.reverse.map (·.decoded)) := by
    rw [hdecoded, List.map_reverse]
    exact (List.reverse_perm _).symm
  have hv (rows : List SnapshotRow) : (recorded smallRows).version = (recorded rows).version := rfl
  obtain ⟨d, hd, hsame, hrows⟩ := between_same_record _ _ (hv capitalRows) hsmall hcapital
  obtain ⟨d', hd', hsame', hrows'⟩ :=
    between_same_record _ _ (hv capitalRows.reverse) hsmall hreverse
  have hall := hsame.mpr ⟨rfl, rfl, rfl, rfl, rfl,
    lastRow_of_perm (by decide) (by decide) (hdecoded ▸ .refl _)⟩
  have hall' := hsame'.mpr ⟨rfl, rfl, rfl, rfl, rfl, lastRow_of_perm (by decide) (by decide) hperm⟩
  exact ⟨hsmall, hcapital, by decide +kernel, ⟨d, hd, hall⟩, (hrows hall).2 (by decide) (by decide),
    ⟨d', hd', hall'⟩, (hrows' hall').1 (by decide) (by decide)⟩

/-- Two rows of the root for one, and another saturated depth: all fields are the same, but neither
the saturated depths nor the rows are. -/
theorem between_same_row_overwritten : ∃ g c : Snapshot, g.version = c.version ∧
    Readable g ∧ Readable c ∧ g.saturatedDepths ≠ c.saturatedDepths ∧
      g.rows.map (·.decoded) ≠ c.rows.map (·.decoded) ∧
        ∃ d, between g c true = .ok d ∧ ∀ r ∈ d.rows, r.status = .same := by
  let first : SnapshotRow :=
    ⟨0, zero false, "0x0000000000000000", zero false, "0x0000000000000000", "bounded"⟩
  let g := certain "0x3ff0000000000000"
  let c : Snapshot := { g with saturatedDepths := [1], rows := [first] ++ g.rows }
  have hzero : IsNumber "0x0000000000000000" := ⟨zero false, rfl, by decide⟩
  have hg : Readable g := readable_certain ⟨one, rfl, by decide⟩
  have hc : Readable c :=
    ⟨hg.peak, List.forall_mem_cons.mpr ⟨hzero, hg.loads⟩,
      List.forall_mem_cons.mpr ⟨hzero, hg.probabilities⟩⟩
  have hlength : (g.rows.map (·.decoded)).length ≠ (c.rows.map (·.decoded)).length := by decide
  have hcount : g.saturatedDepths.length = [1].length := rfl
  have hroot : ∀ r ∈ [first], r.depth ∈ g.rows.map (·.depth) := by simp [first, g, certain]
  have hv : g.version = c.version := rfl
  obtain ⟨d, hd, hsame⟩ := between_same hv hg hc
  exact ⟨g, c, hv, hg, hc, by decide, ne_of_apply_ne List.length hlength, d, hd,
    hsame.mpr (sameRecord_overlooked hcount hroot)⟩

end Drift
end BucketOverflow
