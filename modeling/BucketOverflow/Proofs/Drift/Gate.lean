import BucketOverflow.Proofs.Drift.Close
import BucketOverflow.Proofs.Drift.Same

/-! The drift gate. A full comparison of two snapshots raises no alert exactly when the snapshots
agree on parameters, depths and regimes, and their numbers are close. -/
namespace BucketOverflow.Drift
open Text Binary64

/-- Bit patterns of close numbers. -/
def CloseBits (g c : String) : Prop :=
  ∃ x y, ofBitsText g = .ok x ∧ ofBitsText c = .ok y ∧ Close x y

/-- A snapshot that can be compared: its bit patterns are numbers, no depth has two rows, the
regimes are named as such, and the peak depth and the saturated depths are counted in 32 bits. -/
structure Comparable (s : Snapshot) : Prop where
  readable : Readable s
  depths : (s.rows.map (·.depth)).Nodup
  regimes : ∀ r ∈ s.rows, ∃ x : Regime, r.regime = x.name
  peak : s.peak.depth < 2 ^ 32
  saturated : s.saturatedDepths.length < 2 ^ 32

/-- Rows of close numbers and one regime. -/
structure RowsAgree (r r' : SnapshotRow) : Prop where
  load : CloseBits r.loadBits r'.loadBits
  probability : CloseBits r.probabilityBits r'.probabilityBits
  regime : r.regime = r'.regime

/-- Key fields agree. The fingerprints are not among what has to agree. -/
structure KeysAgree (g c : Snapshot) : Prop where
  params : g.params = c.params
  peak_depth : g.peak.depth = c.peak.depth
  peak_probability : CloseBits g.peak.probabilityBits c.peak.probabilityBits
  saturated : g.saturatedDepths.length = c.saturatedDepths.length

/-- Snapshots of the same parameters and depths with close numbers. -/
structure Agree (g c : Snapshot) : Prop extends KeysAgree g c where
  depths : ∀ d, d ∈ g.rows.map (·.depth) ↔ d ∈ c.rows.map (·.depth)
  rows : ∀ r ∈ g.rows, ∀ r' ∈ c.rows, r.depth = r'.depth → RowsAgree r r'

variable {s g c : Snapshot} {r r' : SnapshotRow} {f v : String}

theorem closeBits_iff {a b : String} (ha : IsNumber a) (hb : IsNumber b) :
    CloseBits a b ↔ Close (wordOf a) (wordOf b) := by
  obtain ⟨x, hx, -⟩ := ha
  obtain ⟨y, hy, -⟩ := hb
  rw [wordOf_eq hx, wordOf_eq hy, CloseBits]
  constructor
  · rintro ⟨x', y', hx', hy', hclose⟩
    rw [hx] at hx'
    rw [hy] at hy'
    rwa [Except.ok.inj hx', Except.ok.inj hy']
  · exact fun hclose => ⟨x, y, hx, hy, hclose⟩

theorem passes_valueText {a b : String} (hf : Measured f) (ha : IsNumber a) (hb : IsNumber b) :
    Passes f (valueText a) (valueText b) ↔ CloseBits a b := by
  rw [closeBits_iff ha hb]
  exact passes_scientific hf (isNaN_wordOf ha) (isNaN_wordOf hb)

/-! The text of a field -/

/-- The text that a field of a snapshot is compared by. -/
def textAt (s : Snapshot) (f : String) : String := ((fieldsOf s).lookup f).getD missing

/-- A field of two snapshots raises no alert. -/
def PassesAt (g c : Snapshot) (f : String) : Prop := Passes f (textAt g f) (textAt c f)

theorem map_textAt {values : List (String × String)} (h : ∀ p ∈ values, textAt s p.1 = p.2) :
    (values.map (·.1)).map (textAt s) = values.map (·.2) := by
  rw [List.map_map]
  exact List.map_congr_left h

theorem textAt_key (h : (f, v) ∈ keyFields.zip (keyValues s)) : textAt s f = v := by
  rw [textAt, lookup_key h]
  rfl

theorem textAt_missing {d : ℕ} (hd : ∀ r ∈ s.rows, r.depth ≠ d) (hf : f ∈ rowNames d) :
    textAt s f = missing := by
  rw [textAt, lookup_rows hf, lastRow_eq_none_iff.mpr hd]
  rfl

theorem textAt_lastRow (h : s.lastRow d = some r) :
    (rowNames d).map (textAt s) =
      [valueText r.loadBits, valueText r.probabilityBits, r.regime] := by
  obtain ⟨-, rfl⟩ := mem_of_lastRow h
  have hnodup : ((rowValues r).map (·.1)).Nodup := nodup_rowNames r.depth
  have htext : ∀ p ∈ rowValues r, textAt s p.1 = p.2 := by
    intro p hp
    have hname : p.1 ∈ rowNames r.depth := names_rowValues r ▸ List.mem_map_of_mem hp
    have hlookup : (rowValues r).lookup p.1 = some p.2 := by
      rw [← Fields.lookup_insertAll_nil hnodup]
      exact Fields.lookup_insertAll_of_mem hnodup hp
    rw [textAt, lookup_rows hname, h, Option.bind_some, hlookup, Option.getD_some]
  exact map_textAt htext

theorem between_hasAlerts (hv : g.version = c.version) (hg : Readable g) (hc : Readable c) :
    ∃ d, between g c true = .ok d ∧
      (d.hasAlerts = false ↔
        ∀ f ∈ keyFields ++ otherFields (fieldsOf g) (fieldsOf c), PassesAt g c f) := by
  refine ⟨_, between_eq hv hg.decodes hc.decodes, ?_⟩
  rw [hasAlerts, List.any_map, List.any_eq_false]
  simp only [Function.comp_apply, decide_eq_true_eq]
  rfl

/-! Key fields -/

theorem textAt_keyFields (s : Snapshot) : keyFields.map (textAt s) = keyValues s :=
  map_textAt fun _ h => textAt_key h

theorem paramTexts_inj {p q : Params} :
    natText p.capacity.toNat = natText q.capacity.toNat ∧
      natText p.items.toNat = natText q.items.toNat ∧
      natText p.paths.toNat = natText q.paths.toNat ∧
      natText p.maxDepth.toNat = natText q.maxDepth.toNat ∧
      natText p.hopBudget.toNat = natText q.hopBudget.toNat ∧
      p.tailPolicy.name = q.tailPolicy.name ↔ p = q := by
  have hname {s t : TailPolicy} : s.name = t.name ↔ s = t := by
    cases s <;> cases t <;> decide
  cases p
  cases q
  simp only [natText_injective.eq_iff, UInt64.toNat_inj, UInt32.toNat_inj, hname,
    Params.mk.injEq]

/-- The key fields pass when what they are read from agrees, but for the fingerprint. -/
theorem keys_pass_iff (hg : Comparable g) (hc : Comparable c) :
    (∀ f ∈ keyFields, PassesAt g c f) ↔ KeysAgree g c := by
  have htext (s : Snapshot) := textAt_keyFields s
  simp only [keyFields, keyValues, List.map_cons, List.map_nil, List.cons.injEq, and_true] at htext
  have hdepth : Measured "peak.depth" := by decide
  have hprobability : Measured "peak.probability" := by decide
  have hsaturated : Measured "saturated_count" := by decide
  simp only [keyFields, List.forall_mem_cons, List.not_mem_nil, false_implies, implies_true,
    and_true, PassesAt, htext]
  rw [passes_params rfl, passes_params rfl, passes_params rfl, passes_params rfl,
    passes_params rfl, passes_params rfl, passes_natText hdepth hg.peak hc.peak,
    passes_valueText hprobability hg.readable.peak hc.readable.peak,
    passes_natText hsaturated hg.saturated hc.saturated]
  constructor
  · rintro ⟨h1, h2, h3, h4, h5, h6, -, hpeak, hclose, hcount⟩
    exact ⟨paramTexts_inj.mp ⟨h1, h2, h3, h4, h5, h6⟩, hpeak, hclose, hcount⟩
  · rintro ⟨hparams, hpeak, hclose, hcount⟩
    obtain ⟨h1, h2, h3, h4, h5, h6⟩ := paramTexts_inj.mpr hparams
    exact ⟨h1, h2, h3, h4, h5, h6, passes_fingerprint _ _, hpeak, hclose, hcount⟩

/-! Fields of a depth -/

theorem measured_depthField (d : ℕ) (n : String) : Measured (depthField d n) := by
  have hhead := head_depthField d n
  constructor
  · intro h
    rw [h] at hhead
    exact absurd hhead (by decide)
  · obtain ⟨cs, hcs⟩ := List.head?_eq_some_iff.mp hhead
    rw [hcs]
    rfl

theorem ofText?_regime (x : Regime) : ofText? x.name.toList = none := by
  cases x <;> rfl

theorem regime_ne_missing (x : Regime) : x.name ≠ missing := by
  cases x <;> decide

theorem textAt_rowNames (h : (s.rows.map (·.depth)).Nodup) (hr : r ∈ s.rows) :
    (rowNames r.depth).map (textAt s) =
      [valueText r.loadBits, valueText r.probabilityBits, r.regime] :=
  textAt_lastRow (lastRow_of_mem h hr)

/-- Two rows of one depth pass when they agree. -/
theorem rows_pass_iff (hg : Comparable g) (hc : Comparable c) (hr : r ∈ g.rows) (hr' : r' ∈ c.rows)
    (hd : r.depth = r'.depth) : (∀ f ∈ rowNames r.depth, PassesAt g c f) ↔ RowsAgree r r' := by
  have htext := textAt_rowNames hg.depths hr
  have htext' := textAt_rowNames hc.depths hr'
  rw [← hd] at htext'
  obtain ⟨x, hx⟩ := hg.regimes r hr
  have hregime : ofText? r.regime.toList = none := hx ▸ ofText?_regime x
  simp only [rowNames, List.map_cons, List.map_nil, List.cons.injEq, and_true] at htext htext'
  simp only [rowNames, List.forall_mem_cons, List.not_mem_nil, false_implies, implies_true,
    and_true, PassesAt, htext, htext']
  rw [passes_valueText (measured_depthField _ _) (hg.readable.loads r hr)
      (hc.readable.loads r' hr'),
    passes_valueText (measured_depthField _ _) (hg.readable.probabilities r hr)
      (hc.readable.probabilities r' hr'),
    passes_text (measured_depthField _ _) (.inl hregime)]
  constructor
  · rintro ⟨hload, hprobability, heq⟩
    exact ⟨hload, hprobability, heq⟩
  · intro h
    exact ⟨h.load, h.probability, h.regime⟩

/-- The regime of a depth is no number, and tells whether a snapshot has the depth. -/
theorem textAt_regime (hs : Comparable s) (d : ℕ) :
    ofText? (textAt s (depthField d "regime")).toList = none ∧
      (textAt s (depthField d "regime") = missing ↔ d ∉ s.rows.map (·.depth)) := by
  by_cases hd : d ∈ s.rows.map (·.depth)
  · obtain ⟨r, hr, rfl⟩ := List.mem_map.mp hd
    obtain ⟨x, hx⟩ := hs.regimes r hr
    have htext := textAt_rowNames hs.depths hr
    simp only [rowNames, List.map_cons, List.map_nil, List.cons.injEq, and_true] at htext
    rw [htext.2.2, hx]
    exact ⟨ofText?_regime x, iff_of_false (regime_ne_missing x) (not_not.mpr hd)⟩
  · have hlack : ∀ r ∈ s.rows, r.depth ≠ d := by
      rintro r hr rfl
      exact hd (List.mem_map_of_mem hr)
    rw [textAt_missing hlack (by simp [rowNames])]
    exact ⟨rfl, iff_of_true rfl hd⟩

/-- A depth that one side alone has raises an alert. -/
theorem mem_depths_iff (hg : Comparable g) (hc : Comparable c) {d : ℕ}
    (h : PassesAt g c (depthField d "regime")) :
    d ∈ g.rows.map (·.depth) ↔ d ∈ c.rows.map (·.depth) := by
  obtain ⟨hnone, hgd⟩ := textAt_regime hg d
  obtain ⟨-, hcd⟩ := textAt_regime hc d
  rw [PassesAt, passes_text (measured_depthField _ _) (.inl hnone)] at h
  rw [h] at hgd
  exact not_iff_not.mp (hgd.symm.trans hcd)

/-- The other fields pass when both sides have the same depths and their rows agree. -/
theorem others_pass_iff (hg : Comparable g) (hc : Comparable c) :
    (∀ f ∈ otherFields (fieldsOf g) (fieldsOf c), PassesAt g c f) ↔
      (∀ d, d ∈ g.rows.map (·.depth) ↔ d ∈ c.rows.map (·.depth)) ∧
        ∀ r ∈ g.rows, ∀ r' ∈ c.rows, r.depth = r'.depth → RowsAgree r r' := by
  constructor
  · intro h
    have hrows (d : ℕ) (hd : d ∈ g.rows.map (·.depth) ∨ d ∈ c.rows.map (·.depth)) :
        ∀ f ∈ rowNames d, PassesAt g c f := by
      intro f hf
      apply h
      rw [mem_otherFields]
      rcases hd with hd | hd
      · obtain ⟨r, hr, rfl⟩ := List.mem_map.mp hd
        exact .inl ⟨r, hr, hf⟩
      · obtain ⟨r, hr, rfl⟩ := List.mem_map.mp hd
        exact .inr ⟨r, hr, hf⟩
    have hdepths (d : ℕ) (hd : d ∈ g.rows.map (·.depth) ∨ d ∈ c.rows.map (·.depth)) :
        d ∈ g.rows.map (·.depth) ↔ d ∈ c.rows.map (·.depth) :=
      mem_depths_iff hg hc (hrows d hd _ (by simp [rowNames]))
    refine ⟨fun d => ⟨fun hd => ?_, fun hd => ?_⟩, fun r hr r' hr' hd => ?_⟩
    · exact (hdepths d (.inl hd)).mp hd
    · exact (hdepths d (.inr hd)).mpr hd
    · exact (rows_pass_iff hg hc hr hr' hd).mp (hrows r.depth (.inl (List.mem_map_of_mem hr)))
  · rintro ⟨hdepths, hrows⟩
    have hpass (d : ℕ) (hd : d ∈ g.rows.map (·.depth)) : ∀ f ∈ rowNames d, PassesAt g c f := by
      obtain ⟨r, hr, rfl⟩ := List.mem_map.mp hd
      obtain ⟨r', hr', heq⟩ := List.mem_map.mp ((hdepths r.depth).mp hd)
      exact (rows_pass_iff hg hc hr hr' heq.symm).mpr (hrows r hr r' hr' heq.symm)
    intro f hf
    rw [mem_otherFields] at hf
    rcases hf with ⟨r, hr, hf⟩ | ⟨r', hr', hf⟩
    · exact hpass r.depth (List.mem_map_of_mem hr) f hf
    · exact hpass r'.depth ((hdepths r'.depth).mpr (List.mem_map_of_mem hr')) f hf

theorem between_agree (hv : g.version = c.version) (hg : Comparable g) (hc : Comparable c) :
    ∃ d, between g c true = .ok d ∧ (d.hasAlerts = false ↔ Agree g c) := by
  obtain ⟨d, hd, halerts⟩ := between_hasAlerts hv hg.readable hc.readable
  refine ⟨d, hd, halerts.trans ?_⟩
  rw [List.forall_mem_append, keys_pass_iff hg hc, others_pass_iff hg hc]
  constructor
  · rintro ⟨hkeys, hdepths, hrows⟩
    exact ⟨hkeys, hdepths, hrows⟩
  · intro h
    exact ⟨h.toKeysAgree, h.depths, h.rows⟩

/-! The fingerprint -/

theorem Comparable.withFingerprint (h : Comparable s) (t : String) :
    Comparable { s with fingerprint := t } where
  readable := ⟨h.readable.peak, h.readable.loads, h.readable.probabilities⟩
  depths := h.depths
  regimes := h.regimes
  peak := h.peak
  saturated := h.saturated

theorem agree_withFingerprint (t u : String) :
    Agree { g with fingerprint := t } { c with fingerprint := u } ↔ Agree g c :=
  ⟨fun h => ⟨⟨h.params, h.peak_depth, h.peak_probability, h.saturated⟩, h.depths, h.rows⟩,
    fun h => ⟨⟨h.params, h.peak_depth, h.peak_probability, h.saturated⟩, h.depths, h.rows⟩⟩

/-- Comparing two snapshots of one version succeeds. It raises no alert exactly when parameters,
peak depths, numbers of saturated depths, depths and regimes are the same and all numbers are
close; and what it says does not depend on the fingerprints. -/
theorem between_hasAlerts_iff (g c : Snapshot) (hv : g.version = c.version) (hg : Comparable g)
    (hc : Comparable c) :
    ∃ d, between g c true = .ok d ∧ (d.hasAlerts = false ↔ Agree g c) ∧
      ∀ t u, ∃ d', between { g with fingerprint := t } { c with fingerprint := u } true = .ok d' ∧
        d'.hasAlerts = d.hasAlerts := by
  obtain ⟨d, hd, halerts⟩ := between_agree hv hg hc
  refine ⟨d, hd, halerts, fun t u => ?_⟩
  obtain ⟨d', hd', halerts'⟩ := between_agree (g := { g with fingerprint := t })
    (c := { c with fingerprint := u }) hv (hg.withFingerprint t) (hc.withFingerprint u)
  rw [agree_withFingerprint, ← halerts] at halerts'
  exact ⟨d', hd', Bool.eq_iff_iff.mpr (not_iff_not.mp (by simpa using halerts'))⟩

/-- Snapshots of one depth with an infinite load, told apart by nothing but their fingerprints. -/
theorem between_hasAlerts_iff_infinite_load : ∃ g c : Snapshot, g.version = c.version ∧
    Comparable g ∧ Comparable c ∧ g.fingerprint ≠ c.fingerprint ∧
      ∃ d, between g c true = .ok d ∧ d.hasAlerts = false := by
  let s (fingerprint : String) : Snapshot :=
    ⟨"v1", "depth_sweep", ⟨1, 1, 1, 0, 1, .literal⟩, fingerprint, ⟨0, one, one.bitsText⟩, [0],
      [⟨0, inf false, (inf false).bitsText, one, one.bitsText, "saturated"⟩]⟩
  have hinf : (inf false).isNaN = false := by decide
  have hone : one.isNaN = false := by decide
  have hs (t : String) : Comparable (s t) := by
    refine ⟨⟨isNumber_bitsText hone, ?_, ?_⟩, List.nodup_singleton 0, ?_,
      show 0 < 2 ^ 32 by decide, show 1 < 2 ^ 32 by decide⟩
    · exact List.forall_mem_singleton.mpr (isNumber_bitsText hinf)
    · exact List.forall_mem_singleton.mpr (isNumber_bitsText hone)
    · exact List.forall_mem_singleton.mpr ⟨.saturated, rfl⟩
  have hclose (x : Binary64) : CloseBits x.bitsText x.bitsText :=
    ⟨x, x, ofBitsText_bitsText x, ofBitsText_bitsText x, .inl rfl⟩
  have hagree : Agree (s "a") (s "b") := by
    refine ⟨⟨rfl, rfl, hclose one, rfl⟩, fun _ => Iff.rfl, ?_⟩
    intro r hr r' hr' _
    rw [List.mem_singleton.mp hr, List.mem_singleton.mp hr']
    exact ⟨hclose (inf false), hclose one, rfl⟩
  obtain ⟨d, hd, halerts, -⟩ := between_hasAlerts_iff (s "a") (s "b") rfl (hs "a") (hs "b")
  exact ⟨s "a", s "b", rfl, hs "a", hs "b", by decide, d, hd, halerts.mpr hagree⟩

end BucketOverflow.Drift
