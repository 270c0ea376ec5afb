import BucketOverflow.Proofs.Binary64.Units

/-! The greatest and the least of a list of words. Folding over finite words from an infinity ends
with one of them that no other exceeds. -/
namespace BucketOverflow.Binary64

variable {x y : Binary64} {xs : List Binary64}

/-- Keeping one of two on every step ends with one that no other exceeds. -/
theorem foldl_keep {f : Binary64 → Binary64 → Binary64} (rank : Binary64 → ℤ)
    (hkeep : ∀ a b, f a b = a ∨ f a b = b)
    (hrank : ∀ {a b}, a.isNaN = false → b.isNaN = false →
      rank a ≤ rank (f a b) ∧ rank b ≤ rank (f a b))
    (hx : x.isNaN = false) (hxs : ∀ y ∈ xs, y.isNaN = false) :
    xs.foldl f x ∈ x :: xs ∧ ∀ y ∈ x :: xs, rank y ≤ rank (xs.foldl f x) := by
  induction xs generalizing x with
  | nil => simp
  | cons y xs ih =>
    have hy : y.isNaN = false := hxs y List.mem_cons_self
    have hnext : (f x y).isNaN = false := by rcases hkeep x y with h | h <;> rwa [h]
    obtain ⟨hmem, hall⟩ := ih hnext fun z hz => hxs z (List.mem_cons_of_mem _ hz)
    have hfirst := hall _ List.mem_cons_self
    rw [List.foldl_cons]
    constructor
    · rcases List.mem_cons.mp hmem with h | h
      · rw [h]
        rcases hkeep x y with h' | h' <;> simp [h']
      · exact List.mem_cons_of_mem _ (List.mem_cons_of_mem _ h)
    · intro z hz
      simp only [List.mem_cons] at hz
      rcases hz with rfl | rfl | hz
      · exact (hrank hx hy).1.trans hfirst
      · exact (hrank hx hy).2.trans hfirst
      · exact hall z (List.mem_cons_of_mem _ hz)

theorem isNaN_inf (neg : Bool) : (inf neg).isNaN = false :=
  isNaN_eq_false_iff.mpr (mag_inf neg).le

theorem max_eq_or (x y : Binary64) : max x y = x ∨ max x y = y := by
  unfold max
  split_ifs <;> simp

theorem min_eq_or (x y : Binary64) : min x y = x ∨ min x y = y := by
  unfold min
  split_ifs <;> simp

theorem key_le_max (hx : x.isNaN = false) (hy : y.isNaN = false) :
    x.key ≤ (max x y).key ∧ y.key ≤ (max x y).key := by
  by_cases h : x < y
  · have := (lt_iff.mp h).2.2
    simp [max, hx, hy, h, this.le]
  · have : y.key ≤ x.key := not_lt.mp fun hlt => h (lt_iff.mpr ⟨hx, hy, hlt⟩)
    simp [max, hx, hy, h, this]

/-- Magnitudes have one greater, whichever of them comes first. -/
theorem max_abs_comm (hx : x.isNaN = false) (hy : y.isNaN = false) :
    max x.abs y.abs = max y.abs x.abs := by
  have hxy : x.abs < y.abs ↔ x.abs.key < y.abs.key := by simp [lt_iff, hx, hy]
  have hyx : y.abs < x.abs ↔ y.abs.key < x.abs.key := by simp [lt_iff, hx, hy]
  simp only [max, isNaN_abs, hx, hy, Bool.false_eq_true, if_false, hxy, hyx]
  rcases lt_trichotomy x.abs.key y.abs.key with h | h | h
  · rw [if_pos h, if_neg h.asymm]
  · rw [eq_of_key_eq (isNeg_abs x) (isNeg_abs y) h]
  · rw [if_neg h.asymm, if_pos h]

theorem min_key_le (hx : x.isNaN = false) (hy : y.isNaN = false) :
    (min x y).key ≤ x.key ∧ (min x y).key ≤ y.key := by
  by_cases h : y < x
  · have := (lt_iff.mp h).2.2
    simp [min, hx, hy, h, this.le]
  · have : x.key ≤ y.key := not_lt.mp fun hlt => h (lt_iff.mpr ⟨hy, hx, hlt⟩)
    simp [min, hx, hy, h, this]

theorem abs_key_lt (hx : x.isFinite = true) : |x.key| < infinite := by
  rw [Int.abs_eq_natAbs, natAbs_key]
  exact_mod_cast isFinite_iff.mp hx

/-- The greatest of finite words is one of them. -/
theorem foldl_max_mem (hne : xs ≠ []) (hxs : ∀ x ∈ xs, x.isFinite = true) :
    xs.foldl max (inf true) ∈ xs ∧ ∀ x ∈ xs, x.worth ≤ (xs.foldl max (inf true)).worth := by
  obtain ⟨hmem, hall⟩ := foldl_keep key max_eq_or key_le_max (isNaN_inf true)
    fun x hx => isNaN_of_isFinite (hxs x hx)
  have hbound x (hx : x ∈ xs) := hall x (List.mem_cons_of_mem _ hx)
  refine ⟨(List.mem_cons.mp hmem).resolve_left fun heq => ?_,
    fun x hx => worthAt_le_iff.mpr (hbound x hx)⟩
  -- negative infinity lies below every finite word
  obtain ⟨x, hx⟩ := List.exists_mem_of_ne_nil xs hne
  have hle := hbound x hx
  rw [heq, key_of_isNeg (isNeg_inf true), mag_inf] at hle
  exact hle.not_gt (neg_lt_of_abs_lt (abs_key_lt (hxs x hx)))

/-- The least of finite words is one of them. -/
theorem foldl_min_mem (hne : xs ≠ []) (hxs : ∀ x ∈ xs, x.isFinite = true) :
    xs.foldl min (inf false) ∈ xs ∧ ∀ x ∈ xs, (xs.foldl min (inf false)).worth ≤ x.worth := by
  obtain ⟨hmem, hall⟩ := foldl_keep (-·.key) min_eq_or
    (fun hx hy => (min_key_le hx hy).imp Int.neg_le_neg Int.neg_le_neg) (isNaN_inf false)
    fun x hx => isNaN_of_isFinite (hxs x hx)
  have hbound x (hx : x ∈ xs) := neg_le_neg_iff.mp (hall x (List.mem_cons_of_mem _ hx))
  refine ⟨(List.mem_cons.mp hmem).resolve_left fun heq => ?_,
    fun x hx => worthAt_le_iff.mpr (hbound x hx)⟩
  obtain ⟨x, hx⟩ := List.exists_mem_of_ne_nil xs hne
  have hle := hbound x hx
  rw [heq, key_of_not_isNeg (isNeg_inf false), mag_inf] at hle
  exact hle.not_gt (lt_of_abs_lt (abs_key_lt (hxs x hx)))

end BucketOverflow.Binary64
