import BucketOverflow.Proofs.Json.Rereading
import BucketOverflow.Proofs.Snapshot.RoundTrip

/-! The decimals of a snapshot that was read. The bits beside them are what is compared; the
decimals themselves move, by three words at most, and not at all where their digits are few. -/
namespace BucketOverflow
open Binary64

/-- The digits of a word are a number of 53 bits and its power of ten is a word too. -/
structure Json.Short (x : Binary64) : Prop where
  digits_le : (significantOf x).1 ≤ 2 * hiddenBit
  low : -22 ≤ (significantOf x).2
  high : (significantOf x).2 ≤ 22

namespace Snapshot
open Sweep Json

/-- A decimal that was read, next to the word of the bits written beside it. -/
def Beside (raw : String) (y : Binary64) : Prop :=
  ∃ x, ofBitsText raw = .ok x ∧ Within 3 x y ∧ (Short x → y = x)

/-- Every decimal of a snapshot is close to the word whose bits it has beside it. -/
structure Faithful (s : Snapshot) : Prop where
  peak : Beside s.peak.probabilityBits s.peak.probability
  load : ∀ r ∈ s.rows, Beside r.loadBits r.load
  probability : ∀ r ∈ s.rows, Beside r.probabilityBits r.probability

/-- The values that a snapshot holds as decimals. -/
def decimals (s : Snapshot) : List Binary64 :=
  s.peak.probability :: s.rows.flatMap fun r => [r.load, r.probability]

variable {s : Snapshot} {p : Params} {x : Binary64}

theorem beside_reread (hx : Moderate x) : Beside x.bitsText (Json.reread x) := by
  refine ⟨x, ofBitsText_bitsText x, within_reread hx, fun h => ?_⟩
  exact reread_of_short hx.finite h.digits_le h.low h.high

theorem reread_of_decimals (h : ∀ x ∈ s.decimals, Json.reread x = x) : s.reread = s := by
  obtain ⟨hpeak, hrest⟩ := List.forall_mem_cons.mp h
  have hrows : s.rows.map (·.reread) = s.rows := by
    refine (List.map_congr_left fun r hr => ?_).trans (List.map_id _)
    have hload := hrest r.load (List.mem_flatMap.mpr ⟨r, hr, by simp⟩)
    have hprob := hrest r.probability (List.mem_flatMap.mpr ⟨r, hr, by simp⟩)
    simp only [SnapshotRow.reread, hload, hprob, id_eq]
  simp only [reread, SnapshotPeak.reread, hpeak, hrows]

/-- Every decimal of a snapshot of a sweep is finite. -/
theorem isFinite_of_mem_decimals (hw : s.Writable) (hx : x ∈ s.decimals) : x.isFinite = true := by
  rcases List.mem_cons.mp hx with rfl | hx
  · exact hw.peakProbability.finite
  · obtain ⟨r, hr, hx⟩ := List.mem_flatMap.mp hx
    have hrow := hw.rows r hr
    rcases List.mem_pair.mp hx with rfl | rfl
    · exact hrow.load.finite
    · exact hrow.probability.finite

section Library

variable [MathLibrary] [LawfulMathLibrary]

theorem faithful_reread (hv : p.Valid) : (ofSweep (grid p)).reread.Faithful := by
  have hw := writable_ofSweep hv
  have hrows := hw.rows
  rw [rows_ofSweep] at hrows
  refine ⟨beside_reread hw.peakProbability, ?_, ?_⟩
  all_goals
    intro r hr
    simp only [reread, rows_ofSweep, List.map_map, List.mem_map] at hr
    obtain ⟨d, hd, rfl⟩ := hr
    have hrow := hrows _ (List.mem_map_of_mem hd)
  · exact beside_reread hrow.load
  · exact beside_reread hrow.probability

/-- The snapshot of every valid set reads back from its text with everything but the decimals as it
was written; each decimal is at most three words off the bits recorded beside it, and a snapshot
whose decimals all have few digits reads back as it was. -/
theorem take_ofText_near (p : Params) (h : p.validate = .ok ()) :
    ∃ s t, take p = .ok s ∧ ofText s.toText = .ok t ∧ t.bare = s.bare ∧ t.Faithful ∧
      ((∀ x ∈ s.decimals, Short x) → t = s) := by
  have hv := Params.valid_of_validate h
  have hw := writable_ofSweep hv
  refine ⟨_, _, take_eq h, ofText_toText_eq hw, bare_reread _, faithful_reread hv, fun hshort => ?_⟩
  refine reread_of_decimals fun x hx => ?_
  have := hshort x hx
  exact reread_of_short (isFinite_of_mem_decimals hw hx) this.digits_le this.low this.high

end Library

/-- Of the six decimals of three depths one is read one word off, and all are near the bits
recorded. Where every decimal is one, the snapshot is read as it was. -/
theorem take_ofText_near_mixed :
    (∃ s t, take mixed = .ok s ∧ s.saturatedDepths = [0] ∧ ofText s.toText = .ok t ∧
      t.bare = s.bare ∧ t.Faithful ∧
      (t.rows.zip s.rows).map (fun r => r.1.probability == r.2.probability) =
        [true, false, true]) ∧
    ∃ s, take ⟨1, 2, 1, 0, 1, .saturating⟩ = .ok s ∧ ofText s.toText = .ok s := by
  constructor
  · have h : mixed.validate = .ok () := rfl
    have hw := writable_ofSweep (Params.valid_of_validate h)
    obtain ⟨s, t, hs, ht, hbare, hfaithful, -⟩ := take_ofText_near mixed h
    obtain rfl : s = ofSweep (grid mixed) := Except.ok.inj (hs.symm.trans (take_eq h))
    obtain rfl : t = (ofSweep (grid mixed)).reread :=
      Except.ok.inj (ht.symm.trans (ofText_toText_eq hw))
    exact ⟨_, _, hs, by decide +kernel, ht, hbare, hfaithful, by decide +kernel⟩
  · have h : Params.validate ⟨1, 2, 1, 0, 1, .saturating⟩ = .ok () := rfl
    obtain ⟨s, t, hs, ht, -, -, hshort⟩ := take_ofText_near _ h
    have hones : s.decimals = [one, one, one] := by
      obtain rfl := Except.ok.inj (hs.symm.trans (take_eq h))
      decide +kernel
    have hone : Short one := ⟨by decide +kernel, by decide +kernel, by decide +kernel⟩
    obtain rfl : t = s := hshort (by simp [hones, hone])
    exact ⟨_, hs, ht⟩

@[simp] theorem peak_probability_ofSweep (w : Sweep) :
    (ofSweep w).peak.probability = w.peak.probability := rfl

theorem eqv_reread_of_peak
    (h : s.peak.probability.eqv (Json.reread s.peak.probability) = false) :
    s.eqv s.reread = false := by
  have hpeak : s.peak.probability.eqv s.reread.peak.probability = false := h
  simp only [eqv, hpeak, Bool.and_false, Bool.false_and]

/-- Two places for one and a half expected items: the peak probability 0.9310627797040227 is read
one word above its bits. -/
theorem take_ofText_moved : ∃ s t, take ⟨2, 3, 1, 0, 1, .saturating⟩ = .ok s ∧
    ofText s.toText = .ok t ∧ t.bare = s.bare ∧ s.eqv t = false := by
  have h : Params.validate ⟨2, 3, 1, 0, 1, .saturating⟩ = .ok () := rfl
  have hv := Params.valid_of_validate h
  refine ⟨_, _, take_eq h, ofText_toText_eq (writable_ofSweep hv), bare_reread _, ?_⟩
  obtain ⟨hpeak, hprob, -⟩ := peak_grid hv
  have hbits : (estimateAt ⟨2, 3, 1, 0, 1, .saturating⟩ 0).probability = ⟨0x3fedcb442bab408e⟩ := by
    decide +kernel
  have hmoved : Binary64.eqv ⟨0x3fedcb442bab408e⟩ (Json.reread ⟨0x3fedcb442bab408e⟩) = false := by
    decide +kernel
  rw [Nat.le_zero.mp hpeak, hbits] at hprob
  apply eqv_reread_of_peak
  rw [peak_probability_ofSweep, hprob]
  exact hmoved

end Snapshot
end BucketOverflow
