import BucketOverflow.Proofs.Decimal.Width
import BucketOverflow.Proofs.Drift.Record
import BucketOverflow.Proofs.Text.Lines

/-! The table of a comparison. Its columns stand at fixed offsets, and all words but free texts are
narrow enough to stand there in full: a value takes at most twenty-four characters, a difference
eleven and the name of a field twenty-eight. -/
namespace BucketOverflow
open Text Binary64

/-- A snapshot without the values of its depths. -/
def Snapshot.rowless (s : Snapshot) : Snapshot := { s with rows := [] }

namespace Drift

variable {d : Drift} {r : DriftRow} {s g c : Snapshot} {f text : String} {n width start : ℕ}
  {before word rest cs : List Char}

/-! Columns -/

/-- A word in a line from an offset on, with spaces behind it up to a width. -/
structure Cell (l : List Char) (start width : ℕ) (word : List Char) : Prop where
  length_le : word.length ≤ width
  shown : (l.drop start).take width = padRight width ' ' word

/-- A line of five words at their offsets, with one space between the columns. -/
structure Laid (l field golden current delta status : List Char) : Prop where
  field : Cell l 0 28 field
  golden : Cell l 29 24 golden
  current : Cell l 54 24 current
  delta : Cell l 79 14 delta
  status : l.drop 94 = status
  gaps : ∀ i ∈ [28, 53, 78, 93], l[i]? = some ' '

theorem truncate_of_le (h : cs.length ≤ width) : truncate width cs = cs := if_pos h

theorem length_truncate_le (width : ℕ) (cs : List Char) : (truncate width cs).length ≤ width := by
  unfold truncate
  split_ifs with hle hsmall
  · exact hle
  · exact List.length_take_le width cs
  · rw [List.length_append, List.length_take]
    simp only [List.length_cons, List.length_nil]
    omega

theorem mem_truncate {x : Char} (h : x ∈ truncate width cs) : x ∈ cs ∨ x = '.' := by
  unfold truncate at h
  split_ifs at h with hle hsmall
  · exact .inl h
  · exact .inl (List.mem_of_mem_take h)
  · rcases List.mem_append.mp h with h | h
    · exact .inl (List.mem_of_mem_take h)
    · right
      simpa using h

theorem length_padRight (h : word.length ≤ width) : (padRight width ' ' word).length = width := by
  rw [padRight, List.length_append, List.length_replicate]
  omega

theorem length_column (width : ℕ) (cs : List Char) : (column width cs).length = width :=
  length_padRight (length_truncate_le width cs)

theorem cell_append (hstart : before.length = start) :
    Cell (before ++ (column width cs ++ rest)) start width (truncate width cs) where
  length_le := length_truncate_le width cs
  shown := by
    rw [List.drop_left' hstart, List.take_left' (length_column width cs)]
    rfl

theorem cell_after_space (hstart : before.length + 1 = start) :
    Cell (before ++ ' ' :: (column width cs ++ rest)) start width (truncate width cs) := by
  rw [List.append_cons]
  refine cell_append ?_
  rw [List.length_append, List.length_singleton, hstart]

theorem space_after (hstart : before.length = start) :
    (before ++ ' ' :: rest)[start]? = some ' ' := by
  rw [List.getElem?_append_right hstart.le, hstart, Nat.sub_self, List.getElem?_cons_zero]

/-- Words that are too long are cut, and so a line is laid out whatever its words are. -/
theorem laid_line (field golden current delta status : List Char) :
    Laid (line field golden current delta status) (truncate 28 field) (truncate 24 golden)
      (truncate 24 current) (truncate 14 delta) status := by
  let toGolden := column 28 field
  let toCurrent := toGolden ++ ' ' :: column 24 golden
  let toDelta := toCurrent ++ ' ' :: column 24 current
  let toStatus := toDelta ++ ' ' :: column 14 delta
  have hgolden : toGolden.length = 28 := length_column 28 field
  have hcurrent : toCurrent.length = 53 := by
    rw [List.length_append, List.length_cons, hgolden, length_column]
  have hdelta : toDelta.length = 78 := by
    rw [List.length_append, List.length_cons, hcurrent, length_column]
  have hstatus : toStatus.length = 93 := by
    rw [List.length_append, List.length_cons, hdelta, length_column]
  have hline : line field golden current delta status = toStatus ++ ' ' :: status := rfl
  -- the same line, cut in front of the other columns
  have hline₃ : toStatus ++ ' ' :: status =
      toDelta ++ ' ' :: (column 14 delta ++ ' ' :: status) := List.append_assoc _ _ _
  have hline₂ : toStatus ++ ' ' :: status = toCurrent ++ ' ' :: (column 24 current ++
      (' ' :: column 14 delta ++ ' ' :: status)) := by rw [hline₃]; exact List.append_assoc _ _ _
  have hline₁ : toStatus ++ ' ' :: status = toGolden ++ ' ' :: (column 24 golden ++
      (' ' :: (column 24 current ++ (' ' :: column 14 delta ++ ' ' :: status)))) := by
    rw [hline₂]
    exact List.append_assoc _ _ _
  rw [hline]
  refine ⟨?_, ?_, ?_, ?_, ?_, ?_⟩
  · rw [hline₁]
    have hnone : ([] : List Char).length = 0 := rfl
    exact cell_append hnone
  · rw [hline₁]
    exact cell_after_space (by rw [hgolden])
  · rw [hline₂]
    exact cell_after_space (by rw [hcurrent])
  · rw [hline₃]
    exact cell_after_space (by rw [hdelta])
  · rw [List.append_cons]
    refine List.drop_left' ?_
    rw [List.length_append, hstatus, List.length_singleton]
  · simp only [List.forall_mem_cons, List.not_mem_nil, false_implies, implies_true, and_true]
    refine ⟨?_, ?_, ?_, space_after hstatus⟩
    · rw [hline₁, space_after hgolden]
    · rw [hline₂, space_after hcurrent]
    · rw [hline₃, space_after hdelta]

/-! Words -/

/-- A field for which a snapshot may hold any text. -/
def Free (f : String) : Prop := f = "fingerprint" ∨ ∃ d, f = depthField d "regime"

/-- A text on one line that is as narrow as a value, unless its field is free. -/
structure Suits (f text : String) : Prop where
  not_feed : '\n' ∉ text.toList
  length_le : ¬Free f → text.toList.length ≤ 24

/-- A snapshot as it can be shown in a table: its bit patterns decode, its numbers are of the sizes
that they are stored with, its depths have at most eight digits and its texts are on one line. -/
structure Tabular (s : Snapshot) : Prop where
  decodes : Decodes s
  depths : ∀ r ∈ s.rows, r.depth < 10 ^ 8
  peak : s.peak.depth < 2 ^ 32
  saturated : s.saturatedDepths.length < 2 ^ 64
  scenario : '\n' ∉ s.scenario.toList
  fingerprint : '\n' ∉ s.fingerprint.toList
  regimes : ∀ r ∈ s.rows, '\n' ∉ r.regime.toList

theorem suits_of_inWidth (h : InWidth 24 text.toList) : Suits f text :=
  ⟨h.not_feed, fun _ => h.length_le⟩

theorem suits_natText (h : n < 2 ^ 64) : Suits f (natText n) := by
  refine suits_of_inWidth ?_
  rw [natText, String.toList_ofList]
  exact inWidth_decimal (by decide) (h.trans (by decide))

theorem suits_valueText (raw : String) : Suits f (valueText raw) := by
  refine suits_of_inWidth ?_
  rw [valueText, String.toList_ofList]
  exact inWidth_scientific _

theorem suits_missing : Suits f missing := suits_of_inWidth ⟨by decide, by decide⟩

theorem suits_policy (t : TailPolicy) : Suits f t.name := by
  cases t <;> exact suits_of_inWidth ⟨by decide, by decide⟩

theorem suits_free (hf : Free f) (h : '\n' ∉ text.toList) : Suits f text :=
  ⟨h, fun hfree => absurd hf hfree⟩

theorem suits_key (h : Tabular s) : ∀ f ∈ keyFields, Suits f (textAt s f) := by
  have htext := textAt_keyFields s
  simp only [keyFields, keyValues, List.map_cons, List.map_nil, List.cons.injEq, and_true] at htext
  have hlong (x : UInt64) : x.toNat < 2 ^ 64 := x.toNat_lt
  have hshort (x : UInt32) : x.toNat < 2 ^ 64 := x.toNat_lt.trans (by decide)
  simp only [keyFields, List.forall_mem_cons, List.not_mem_nil, false_implies, implies_true, htext,
    and_true]
  exact ⟨suits_natText (hlong _), suits_natText (hlong _), suits_natText (hlong _),
    suits_natText (hshort _), suits_natText (hshort _), suits_policy _,
    suits_free (.inl rfl) h.fingerprint, suits_natText (h.peak.trans (by decide)),
    suits_valueText _, suits_natText h.saturated⟩

theorem suits_row (h : Tabular s) (k : ℕ) : ∀ f ∈ rowNames k, Suits f (textAt s f) := by
  cases hlast : s.lastRow k with
  | none =>
    intro f hf
    rw [textAt_missing (lastRow_eq_none_iff.mp hlast) hf]
    exact suits_missing
  | some r =>
    have htext := textAt_lastRow hlast
    have hregime := h.regimes r (mem_of_lastRow hlast).1
    simp only [rowNames, List.map_cons, List.map_nil, List.cons.injEq, and_true] at htext
    simp only [rowNames, List.forall_mem_cons, List.not_mem_nil, false_implies, implies_true, htext,
      and_true]
    exact ⟨suits_valueText _, suits_valueText _, suits_free (.inr ⟨k, rfl⟩) hregime⟩

theorem inWidth_depthField {k : ℕ} {name : String} (hk : k < 10 ^ 8)
    (hname : InWidth 13 name.toList) : InWidth 28 (depthField k name).toList := by
  have hpad : InWidth 8 (decimalPad 4 k) := by
    refine ⟨?_, fun h => absurd (isDigit_of_mem_zeros_decimal _ h) (by decide)⟩
    have hlen := length_decimal_le (by decide) hk
    rw [decimalPad, padLeft, List.length_append, List.length_replicate]
    omega
  have hmark : InWidth 6 "depth.".toList := ⟨by decide, by decide⟩
  have hpoint : InWidth 1 ['.'] := ⟨by decide, by decide⟩
  rw [toList_depthField]
  exact hmark.append (hpad.append (hpoint.append hname))

theorem inWidth_rowNames {k : ℕ} (hk : k < 10 ^ 8) : ∀ f ∈ rowNames k, InWidth 28 f.toList := by
  simp only [rowNames, List.forall_mem_cons, List.not_mem_nil, false_implies, implies_true,
    and_true]
  exact ⟨inWidth_depthField hk ⟨by decide, by decide⟩, inWidth_depthField hk ⟨by decide, by decide⟩,
    inWidth_depthField hk ⟨by decide, by decide⟩⟩

theorem inWidth_keyFields : ∀ f ∈ keyFields, InWidth 28 f.toList := by
  have hkeys : ∀ f ∈ keyFields, f.toList.length ≤ 28 ∧ '\n' ∉ f.toList := by decide
  exact fun f hf => ⟨(hkeys f hf).1, (hkeys f hf).2⟩

theorem inWidth_deltaText (x : Option Binary64) : InWidth 14 (deltaText x) := by
  cases x with
  | none => exact inWidth_nil 14
  | some x => exact (inWidth_scientificPlaces x).mono (by decide)

/-! Rows -/

/-- The line of a row. All its words are in full, except that free texts may be cut. -/
structure Shown (r : DriftRow) (l : List Char) : Prop where
  laid : Laid l r.field.toList (truncate 24 r.golden.toList) (truncate 24 r.current.toList)
    (deltaText r.delta) (statusText r.status)
  full : ¬Free r.field →
    truncate 24 r.golden.toList = r.golden.toList ∧ truncate 24 r.current.toList = r.current.toList

/-- A row whose words fit into their columns, as far as they have to. -/
structure RowFits (r : DriftRow) : Prop where
  field : InWidth 28 r.field.toList
  golden : Suits r.field r.golden
  current : Suits r.field r.current

theorem RowFits.shown (h : RowFits r) : Shown r (rowLine r) where
  laid := by
    have hline := laid_line r.field.toList r.golden.toList r.current.toList (deltaText r.delta)
      (statusText r.status)
    rwa [truncate_of_le h.field.length_le,
      truncate_of_le (inWidth_deltaText r.delta).length_le] at hline
  full hfree :=
    ⟨truncate_of_le (h.golden.length_le hfree), truncate_of_le (h.current.length_le hfree)⟩

theorem feed_notMem_column (h : '\n' ∉ cs) : '\n' ∉ column width cs := by
  intro hmem
  rcases List.mem_append.mp hmem with hmem | hmem
  · rcases mem_truncate hmem with hmem | heq
    · exact h hmem
    · exact absurd heq (by decide)
  · exact absurd (List.eq_of_mem_replicate hmem) (by decide)

theorem feed_notMem_line {field golden current delta status : List Char} (hf : '\n' ∉ field)
    (hg : '\n' ∉ golden) (hc : '\n' ∉ current) (hd : '\n' ∉ delta) (hs : '\n' ∉ status) :
    '\n' ∉ line field golden current delta status := by
  have hspace : '\n' ≠ ' ' := by decide
  simp only [line, List.mem_append, List.mem_cons, not_or]
  exact ⟨⟨⟨⟨feed_notMem_column hf, hspace, feed_notMem_column hg⟩, hspace, feed_notMem_column hc⟩,
    hspace, feed_notMem_column hd⟩, hspace, hs⟩

theorem RowFits.not_feed (h : RowFits r) : '\n' ∉ rowLine r := by
  refine feed_notMem_line h.field.not_feed h.golden.not_feed h.current.not_feed
    (inWidth_deltaText r.delta).not_feed ?_
  cases r.status <;> decide

/-! The table -/

theorem count_add (d : Drift) :
    d.count .same + d.count .changed + d.count .alert = d.rows.length := by
  unfold count
  induction d.rows with
  | nil => rfl
  | cons r rows ih => cases h : r.status <;> simp [h] <;> omega

/-- The line below the rows. -/
def countLine (d : Drift) : List Char :=
  "same=".toList ++ decimal (d.count .same) ++ " changed=".toList ++ decimal (d.count .changed)
    ++ " alert=".toList ++ decimal (d.count .alert)

theorem feed_notMem_countLine (d : Drift) : '\n' ∉ countLine d := by
  have hdecimal (k : ℕ) : '\n' ∉ decimal k :=
    fun h => absurd (isDigit_of_mem_decimal _ h) (by decide)
  have hsame : '\n' ∉ "same=".toList := by decide
  have hchanged : '\n' ∉ " changed=".toList := by decide
  have halert : '\n' ∉ " alert=".toList := by decide
  unfold countLine
  simp only [List.mem_append, not_or]
  exact ⟨⟨⟨⟨⟨hsame, hdecimal _⟩, hchanged⟩, hdecimal _⟩, halert⟩, hdecimal _⟩

/-- A table whose rows fit breaks into three lines of head, the rows and the counts. -/
theorem splitOn_plain (hscenario : '\n' ∉ d.scenario.toList) (h : ∀ r ∈ d.rows, RowFits r) :
    ∃ title head rule, splitOn '\n' d.plain.toList =
      title :: head :: rule :: (d.rows.map rowLine ++ [countLine d, []]) := by
  have hplain : d.plain.toList = joinLines d.lines := String.toList_ofList
  have hlines : ∀ l ∈ d.lines, '\n' ∉ l := by
    simp only [lines, List.forall_mem_append, List.forall_mem_cons, List.forall_mem_map,
      List.not_mem_nil, false_implies, implies_true, and_true]
    refine ⟨⟨⟨?_, ?_, ?_⟩, fun r hr => (h r hr).not_feed⟩, ?_⟩
    · simp only [List.mem_append, not_or]
      exact ⟨⟨by decide, hscenario⟩, by decide⟩
    · exact feed_notMem_line (by decide) (by decide) (by decide) (by decide)
        (feed_notMem_column (by decide))
    · exact fun hmem => absurd (List.eq_of_mem_replicate hmem) (by decide)
    · exact feed_notMem_countLine d
  rw [hplain, splitOn_joinLines hlines]
  exact ⟨_, _, _, (List.append_assoc _ _ _).trans (List.append_assoc _ _ _)⟩

/-! Comparisons -/

theorem Tabular.rowless (h : Tabular s) : Tabular s.rowless where
  decodes := ⟨h.decodes.peak, List.forall_mem_nil _, List.forall_mem_nil _⟩
  depths := List.forall_mem_nil _
  peak := h.peak
  saturated := h.saturated
  scenario := h.scenario
  fingerprint := h.fingerprint
  regimes := List.forall_mem_nil _

/-- The key fields alone are compared as if there were no depths. -/
theorem between_rowless (hv : g.version = c.version) (hg : Tabular g) (hc : Tabular c) :
    between g c false = between g.rowless c.rowless true := by
  have hflatten {s : Snapshot} (h : Tabular s) : flatten s false = .ok (fieldsOf s.rowless) :=
    flatten_eq h.rowless.decodes
  have hnone : otherFields (fieldsOf g.rowless) (fieldsOf c.rowless) = [] := by
    refine List.eq_nil_iff_forall_not_mem.mpr fun f hf => ?_
    rcases mem_otherFields.mp hf with ⟨r, hr, -⟩ | ⟨r, hr, -⟩ <;> exact absurd hr List.not_mem_nil
  rw [between_eq (g := g.rowless) (c := c.rowless) hv hg.rowless.decodes hc.rowless.decodes, hnone,
    between, if_neg (not_not.mpr hv), hflatten hg, hflatten hc]
  rfl

theorem rowFits_between (hg : Tabular g) (hc : Tabular c) :
    ∀ f ∈ keyFields ++ otherFields (fieldsOf g) (fieldsOf c),
      RowFits (row (fieldsOf g) (fieldsOf c) f) := by
  intro f hf
  rcases List.mem_append.mp hf with hkey | hother
  · exact ⟨inWidth_keyFields f hkey, suits_key hg f hkey, suits_key hc f hkey⟩
  · have hrow : ∃ k, k < 10 ^ 8 ∧ f ∈ rowNames k := by
      rcases mem_otherFields.mp hother with ⟨r, hr, hname⟩ | ⟨r, hr, hname⟩
      · exact ⟨r.depth, hg.depths r hr, hname⟩
      · exact ⟨r.depth, hc.depths r hr, hname⟩
    obtain ⟨k, hk, hname⟩ := hrow
    exact ⟨inWidth_rowNames hk f hname, suits_row hg k f hname, suits_row hc k f hname⟩

/-- A comparison as a table: three lines of head, one for each row with its words at their offsets,
and the counts, which add up to the number of these lines. -/
def IsTable (d : Drift) : Prop :=
  ∃ title head rule table,
    splitOn '\n' d.plain.toList = title :: head :: rule :: (table ++ [countLine d, []]) ∧
      List.Forall₂ Shown d.rows table ∧
      d.count .same + d.count .changed + d.count .alert = table.length

theorem isTable_between (hv : g.version = c.version) (hg : Tabular g) (hc : Tabular c) :
    ∃ d, between g c true = .ok d ∧ IsTable d := by
  obtain ⟨d, hd⟩ : ∃ d, d = (⟨g.scenario, (keyFields ++ otherFields (fieldsOf g) (fieldsOf c)).map
      (row (fieldsOf g) (fieldsOf c))⟩ : Drift) := ⟨_, rfl⟩
  have hfits : ∀ r ∈ d.rows, RowFits r := by
    rw [hd]
    exact List.forall_mem_map.mpr (rowFits_between hg hc)
  have hscenario : '\n' ∉ d.scenario.toList := by
    rw [hd]
    exact hg.scenario
  refine ⟨d, hd ▸ between_eq hv hg.decodes hc.decodes, ?_⟩
  obtain ⟨title, head, rule, hsplit⟩ := splitOn_plain hscenario hfits
  refine ⟨title, head, rule, _, hsplit, ?_, ?_⟩
  · rw [List.forall₂_map_right_iff, List.forall₂_same]
    exact fun r hr => (hfits r hr).shown
  · rw [List.length_map]
    exact count_add _

/-- Snapshots of one version are compared in a table, be it all fields or the key fields alone. In
every row the words stand at their offsets, and all but a long fingerprint or regime are in full. -/
theorem plain_columns (g c : Snapshot) (all : Bool) (hv : g.version = c.version) (hg : Tabular g)
    (hc : Tabular c) : ∃ d, between g c all = .ok d ∧ IsTable d := by
  cases all with
  | true => exact isTable_between hv hg hc
  | false =>
    rw [between_rowless hv hg hc]
    exact isTable_between hv hg.rowless hc.rowless

/-- The widest words: a value of twenty-four characters, a depth of eight digits and a fingerprint
that is cut. -/
theorem plain_columns_widest : ∃ (x : Binary64) (g c : Snapshot), x.scientific.length = 24 ∧
    g.version = c.version ∧ Tabular g ∧ Tabular c ∧ ∃ d, between g c true = .ok d ∧ IsTable d := by
  let x : Binary64 := ⟨0x8010000000000000⟩
  let row : SnapshotRow := ⟨99999999, x, x.bitsText, x, x.bitsText, "bounded"⟩
  let g : Snapshot := { certain x.bitsText with rows := [row] }
  let c : Snapshot := { g with fingerprint := "0123456789abcdef0123456789abcdef" }
  have hword : IsWord x.bitsText := ⟨x, ofBitsText_bitsText x⟩
  have hloads : ∀ r ∈ [row], IsWord r.loadBits := List.forall_mem_singleton.mpr hword
  have hprobabilities : ∀ r ∈ [row], IsWord r.probabilityBits := List.forall_mem_singleton.mpr hword
  have hg : Tabular g := ⟨⟨hword, hloads, hprobabilities⟩, by decide, by decide, by decide,
    by decide, by decide, by decide⟩
  have hc : Tabular c := ⟨⟨hword, hloads, hprobabilities⟩, by decide, by decide, by decide,
    by decide, by decide, by decide⟩
  have hwidth : x.scientific.length = 24 := by decide +kernel
  exact ⟨x, g, c, hwidth, rfl, hg, hc, plain_columns g c true rfl hg hc⟩

end Drift
end BucketOverflow
