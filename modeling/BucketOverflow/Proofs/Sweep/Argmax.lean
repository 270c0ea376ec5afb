import Mathlib.Data.List.DropRight
import Mathlib.Order.Bounds.Defs
import BucketOverflow.Proofs.Binary64.Words
import BucketOverflow.Sweep.Basic

/-! The scan for the greatest value. One more value is taken unless it is at most the best so far. A
NaN is at most nothing, and nothing is at most a NaN: it is taken wherever it stands, and gives way
to the next value. So the scan ends on a NaN at the end of the list, and otherwise on the first of
the greatest values behind the last NaN. -/
namespace BucketOverflow
open Binary64

variable {values : List Binary64} {r : ℕ × Binary64} {v w : Binary64} {i k : ℕ}

/-! One more value -/

/-- The best entry after a value at place `i`. -/
def betterOf (best : Option (ℕ × Binary64)) (i : ℕ) (v : Binary64) : ℕ × Binary64 :=
  match best with
  | some r => if v ≤ r.2 then r else (i, v)
  | none => (i, v)

theorem argmaxFrom_cons (best : Option (ℕ × Binary64)) (i : ℕ) (v : Binary64)
    (values : List Binary64) :
    argmaxFrom best i (v :: values) = argmaxFrom (some (betterOf best i v)) (i + 1) values := by
  cases best with
  | none => rfl
  | some r => by_cases h : v ≤ r.2 <;> simp [argmaxFrom, betterOf, h]

theorem argmaxFrom_concat (best : Option (ℕ × Binary64)) (i : ℕ) (values : List Binary64)
    (v : Binary64) : argmaxFrom best i (values ++ [v]) =
      some (betterOf (argmaxFrom best i values) (i + values.length) v) := by
  induction values generalizing best i with
  | nil => simp [argmaxFrom_cons, argmaxFrom]
  | cons w ws ih =>
    rw [List.cons_append, argmaxFrom_cons, ih, argmaxFrom_cons, List.length_cons, Nat.add_assoc,
      Nat.add_comm 1]

/-- The last value is compared with the best of those before it. -/
theorem argmaxFirst_concat (values : List Binary64) (v : Binary64) :
    argmaxFirst (values ++ [v]) = some (betterOf (argmaxFirst values) values.length v) := by
  rw [argmaxFirst, argmaxFrom_concat, Nat.zero_add]
  rfl

theorem argmaxFirst_eq_none_iff : argmaxFirst values = none ↔ values = [] := by
  cases values using List.reverseRecOn with
  | nil => exact iff_of_true rfl rfl
  | append_singleton values v => simp [argmaxFirst_concat]

/-! The last NaN -/

/-- The place behind the last NaN of a list, the first one where there is none. -/
def behindNaN (values : List Binary64) : ℕ := (values.rdropWhile fun v => !v.isNaN).length

theorem behindNaN_concat (values : List Binary64) (v : Binary64) :
    behindNaN (values ++ [v]) = if v.isNaN then values.length + 1 else behindNaN values := by
  cases h : v.isNaN <;> simp [behindNaN, h]

theorem behindNaN_le (values : List Binary64) : behindNaN values ≤ values.length :=
  (List.rdropWhile_prefix _ values).length_le

theorem behindNaN_of_getLast? (h : values.getLast? = some v) (hv : v.isNaN = true) :
    behindNaN values = values.length := by
  obtain ⟨before, rfl⟩ := List.getLast?_eq_some_iff.mp h
  rw [behindNaN_concat, if_pos hv, List.length_append, List.length_singleton]

theorem behindNaN_eq_zero (h : ∀ v ∈ values, v.isNaN = false) : behindNaN values = 0 := by
  rw [behindNaN, List.length_eq_zero_iff, List.rdropWhile_eq_nil_iff]
  simpa using h

/-! What the scan ends on -/

/-- An entry of a list as a scan ends on it. A NaN is the last value; any other value stands behind
the last NaN, where no value is above it and every value before it is below. -/
structure Leads (values : List Binary64) (r : ℕ × Binary64) : Prop where
  place : values[r.1]? = some r.2
  last : r.2.isNaN = true → r.1 + 1 = values.length
  behind : r.2.isNaN = false → behindNaN values ≤ r.1
  top : r.2.isNaN = false → ∀ k v, behindNaN values ≤ k → values[k]? = some v →
    v ≤ r.2 ∧ (k < r.1 → ¬r.2 ≤ v)

theorem getElem?_concat_iff : (values ++ [v])[k]? = some w ↔
    values[k]? = some w ∨ k = values.length ∧ v = w := by
  rcases lt_trichotomy k values.length with hk | rfl | hk
  · simp [List.getElem?_append_left hk, hk.ne]
  · simp
  · have hnone : values[k]? = none := List.getElem?_eq_none hk.le
    have hnone' : (values ++ [v])[k]? = none := List.getElem?_eq_none (by simpa using hk)
    simp [hnone, hnone', hk.ne']

/-- A value that is taken leads the list that it ends, when the best one before it was a NaN or is
below it. -/
theorem leads_concat_self (h : v.isNaN = false → ∀ k w, behindNaN values ≤ k →
    values[k]? = some w → w < v) : Leads (values ++ [v]) (values.length, v) where
  place := getElem?_concat_iff.mpr (.inr ⟨rfl, rfl⟩)
  last _ := by rw [List.length_append, List.length_singleton]
  behind hv := by simpa [behindNaN_concat, hv] using behindNaN_le values
  top hv k w hk hw := by
    have hk : behindNaN values ≤ k := by simpa [behindNaN_concat, hv] using hk
    rcases getElem?_concat_iff.mp hw with hw | ⟨rfl, rfl⟩
    · have hlt := lt_iff.mp (h hv k w hk hw)
      exact ⟨le_of_key hlt.1 hv hlt.2.2.le, fun _ hle => (key_le hle).not_gt hlt.2.2⟩
    · exact ⟨Binary64.le_refl hv, fun hlt => absurd hlt (lt_irrefl _)⟩

/-- Behind a leading NaN there is nothing. -/
theorem Leads.behindNaN_eq (h : Leads values r) (hr : r.2.isNaN = true) :
    behindNaN values = values.length := by
  refine behindNaN_of_getLast? ?_ hr
  rw [List.getLast?_eq_getElem?, ← h.last hr, Nat.add_sub_cancel]
  exact h.place

/-- One more value keeps the leading entry or takes its place. -/
theorem Leads.concat (h : Leads values r) (v : Binary64) :
    Leads (values ++ [v]) (betterOf (some r) values.length v) := by
  by_cases hle : v ≤ r.2
  · -- neither value is a NaN, so the place behind the last one stays
    obtain ⟨hv, hr, -⟩ := le_iff.mp hle
    have hbehind : behindNaN (values ++ [v]) = behindNaN values := by simp [behindNaN_concat, hv]
    rw [betterOf, if_pos hle]
    refine ⟨getElem?_concat_iff.mpr (.inl h.place), by simp [hr], fun _ => ?_,
      fun _ k w hk hw => ?_⟩
    · exact hbehind ▸ h.behind hr
    · rw [hbehind] at hk
      rcases getElem?_concat_iff.mp hw with hw | ⟨rfl, rfl⟩
      · exact h.top hr k w hk hw
      · obtain ⟨hlt, -⟩ := List.getElem?_eq_some_iff.mp h.place
        exact ⟨hle, fun hlt' => absurd hlt' hlt.not_gt⟩
  · rw [betterOf, if_neg hle]
    refine leads_concat_self fun hv k w hk hw => ?_
    cases hr : r.2.isNaN with
    | true =>
      obtain ⟨hlt, -⟩ := List.getElem?_eq_some_iff.mp hw
      rw [h.behindNaN_eq hr] at hk
      exact absurd hlt hk.not_gt
    | false =>
      have hlt := (lt_iff.mp ((Binary64.not_le hv hr).mp hle)).2.2
      obtain ⟨hwr, -⟩ := h.top hr k w hk hw
      exact lt_iff.mpr ⟨(le_iff.mp hwr).1, hv, (key_le hwr).trans_lt hlt⟩

/-- A scan of values ends on an entry that leads them. -/
theorem exists_leads (h : values ≠ []) : ∃ r, argmaxFirst values = some r ∧ Leads values r := by
  induction values using List.reverseRecOn with
  | nil => exact absurd rfl h
  | append_singleton values v ih =>
    rw [argmaxFirst_concat]
    refine ⟨_, rfl, ?_⟩
    rcases eq_or_ne values [] with rfl | hne
    · exact leads_concat_self fun _ k w _ hw => by simp at hw
    · obtain ⟨r, hr, hleads⟩ := ih hne
      rw [hr]
      exact hleads.concat v

/-! Least places -/

/-- The places from `s` on whose value no value from there on exceeds. -/
def topPlaces (values : List Binary64) (s : ℕ) : Set ℕ :=
  {i | s ≤ i ∧ ∃ v, values[i]? = some v ∧ ∀ w ∈ values.drop s, ¬v < w}

theorem mem_drop_iff {s : ℕ} : w ∈ values.drop s ↔ ∃ k, s ≤ k ∧ values[k]? = some w := by
  simp only [List.mem_iff_getElem?, List.getElem?_drop]
  constructor
  · rintro ⟨k, hk⟩
    exact ⟨s + k, Nat.le_add_right s k, hk⟩
  · rintro ⟨k, hsk, hk⟩
    exact ⟨k - s, by rwa [Nat.add_sub_cancel' hsk]⟩

/-- A leading number stands at the least of the top places behind the last NaN. -/
theorem Leads.isLeast (h : Leads values r) (hr : r.2.isNaN = false) :
    IsLeast (topPlaces values (behindNaN values)) r.1 := by
  constructor
  · refine ⟨h.behind hr, r.2, h.place, fun w hw hlt => ?_⟩
    obtain ⟨k, hk, hget⟩ := mem_drop_iff.mp hw
    exact (key_le (h.top hr k w hk hget).1).not_gt (lt_iff.mp hlt).2.2
  · rintro k ⟨hk, v, hget, hnone⟩
    by_contra hlt
    obtain ⟨hvr, hfirst⟩ := h.top hr k v hk hget
    refine hnone r.2 (mem_drop_iff.mpr ⟨r.1, h.behind hr, h.place⟩) ?_
    exact (Binary64.not_le hr (le_iff.mp hvr).1).mp (hfirst (not_le.mp hlt))

/-- A number leads exactly where the last value is one. -/
theorem Leads.isNaN_eq (h : Leads values r) (hlast : values.getLast? = some v) :
    r.2.isNaN = v.isNaN := by
  cases hr : r.2.isNaN with
  | true =>
    have hget := h.place
    rw [show r.1 = values.length - 1 by have := h.last hr; omega, ← List.getLast?_eq_getElem?,
      hlast] at hget
    rw [Option.some.inj hget, hr]
  | false =>
    by_contra hv
    have hle := h.behind hr
    rw [behindNaN_of_getLast? hlast (by simpa using Ne.symm hv)] at hle
    obtain ⟨hlt, -⟩ := List.getElem?_eq_some_iff.mp h.place
    omega

/-- The scan ends on the last value if that is a NaN, and otherwise on the first value behind the
last NaN that none there exceeds. -/
theorem argmaxFirst_of_getLast? (hlast : values.getLast? = some v) :
    ∃ i w, argmaxFirst values = some (i, w) ∧ values[i]? = some w ∧
      if v.isNaN then i + 1 = values.length
      else IsLeast (topPlaces values (behindNaN values)) i := by
  have hne : values ≠ [] := by rintro rfl; simp at hlast
  obtain ⟨r, hr, hleads⟩ := exists_leads hne
  have hnan := hleads.isNaN_eq hlast
  refine ⟨r.1, r.2, hr, hleads.place, ?_⟩
  rw [← hnan]
  split_ifs with hrn
  · exact hleads.last hrn
  · exact hleads.isLeast (by simpa using hrn)

end BucketOverflow
