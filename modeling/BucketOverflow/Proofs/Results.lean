import BucketOverflow.Proofs.Fields

/-! Steps that may fail. A chain of steps succeeds exactly if each of them does, and a fold over
named values succeeds exactly if each value can be taken in. -/
namespace BucketOverflow

variable {ε ε' α β δ γ : Type}

theorem bind_eq_ok {x : Except ε α} {f : α → Except ε β} {b : β} :
    (x >>= f) = .ok b ↔ ∃ a, x = .ok a ∧ f a = .ok b := by
  cases x with
  | error e => simp [bind, Except.bind]
  | ok a => simp [bind, Except.bind]

theorem map_eq_ok {x : Except ε α} {f : α → β} {b : β} :
    x.map f = .ok b ↔ ∃ a, x = .ok a ∧ f a = b := by
  cases x with
  | error e => simp [Except.map]
  | ok a => simp [Except.map]

theorem exists_map_eq_ok {x : Except ε α} {f : α → β} :
    (∃ b, x.map f = .ok b) ↔ ∃ a, x = .ok a := by
  simp [map_eq_ok]

theorem mapError_eq_ok {x : Except ε α} {f : ε → ε'} {a : α} :
    x.mapError f = .ok a ↔ x = .ok a := by
  cases x with
  | error e => simp [Except.mapError]
  | ok b => simp [Except.mapError]

theorem pure_eq_ok {a b : α} : (pure a : Except ε α) = .ok b ↔ a = b := by
  simp [pure, Except.pure]

/-- Steps for each item of a list succeed together, item by item. -/
theorem mapM_eq_ok {f : α → Except ε β} {xs : List α} {ys : List β} :
    xs.mapM f = .ok ys ↔ List.Forall₂ (fun x y => f x = .ok y) xs ys := by
  induction xs generalizing ys with
  | nil =>
    rw [List.mapM_nil, pure_eq_ok, List.forall₂_nil_left_iff]
    exact eq_comm
  | cons x xs ih =>
    simp only [List.mapM_cons, bind_eq_ok, pure_eq_ok, ih, List.forall₂_cons_left_iff]
    constructor
    · rintro ⟨y, hy, ys', hrest, rfl⟩
      exact ⟨y, ys', hy, hrest, rfl⟩
    · rintro ⟨y, ys', hy, hrest, rfl⟩
      exact ⟨y, hy, ys', hrest, rfl⟩

/-- They fail together with the first step that fails. -/
theorem mapM_eq_error {f : α → Except ε β} {xs : List α} {e : ε} :
    xs.mapM f = .error e ↔ ∃ front x back, xs = front ++ x :: back ∧
      (∀ y ∈ front, ∃ b, f y = .ok b) ∧ f x = .error e := by
  constructor
  · intro h
    induction xs with
    | nil => cases h
    | cons x xs ih =>
      rw [List.mapM_cons] at h
      cases hx : f x with
      | error e' =>
        rw [hx] at h
        cases h
        exact ⟨[], x, xs, rfl, by simp, hx⟩
      | ok b =>
        rw [hx] at h
        cases hxs : xs.mapM f with
        | error e' =>
          rw [hxs] at h
          cases h
          obtain ⟨front, y, back, rfl, hfront, hy⟩ := ih hxs
          exact ⟨x :: front, y, back, rfl, List.forall_mem_cons.mpr ⟨⟨b, hx⟩, hfront⟩, hy⟩
        | ok bs =>
          rw [hxs] at h
          cases h
  · rintro ⟨front, x, back, rfl, hfront, hx⟩
    induction front with
    | nil =>
      rw [List.nil_append, List.mapM_cons, hx]
      rfl
    | cons y front ih =>
      obtain ⟨⟨b, hy⟩, hrest⟩ := List.forall_mem_cons.mp hfront
      rw [List.cons_append, List.mapM_cons, hy, ih hrest]
      rfl

/-! Named values taken in one after the other -/

variable {set : δ → String → β → Except ε δ} {fields : List (String × β)} {d d' : δ} {name : String}

/-- Values are all taken in exactly if each suits its name. -/
theorem foldlM_isOk_iff {suits : String → β → Prop}
    (h : ∀ d name v, (∃ d', set d name v = .ok d') ↔ suits name v) :
    (∃ d', fields.foldlM (fun d f => set d f.1 f.2) d = .ok d') ↔
      ∀ f ∈ fields, suits f.1 f.2 := by
  induction fields generalizing d with
  | nil => simp [pure_eq_ok]
  | cons f fields ih =>
    simp only [List.foldlM_cons, bind_eq_ok, List.forall_mem_cons]
    constructor
    · rintro ⟨d', d₁, hset, hrest⟩
      exact ⟨(h d f.1 f.2).mp ⟨d₁, hset⟩, ih.mp ⟨d', hrest⟩⟩
    · rintro ⟨hsuits, hrest⟩
      obtain ⟨d₁, hset⟩ := (h d f.1 f.2).mpr hsuits
      obtain ⟨d', hd'⟩ := (ih (d := d₁)).mpr hrest
      exact ⟨d', d₁, hset, hd'⟩

/-- A part that only one name fills comes from the value of that name, and stays as it was if there
is none. -/
theorem foldlM_part (set : δ → String → β → Except ε δ) (part : δ → γ) (means : β → γ → Prop)
    (hset : ∀ d k v d', set d k v = .ok d' →
      if k = name then means v (part d') else part d' = part d)
    (hn : (fields.map (·.1)).Nodup)
    (h : fields.foldlM (fun d f => set d f.1 f.2) d = .ok d') :
    (∀ v, fields.lookup name = some v → means v (part d')) ∧
      (fields.lookup name = none → part d' = part d) := by
  induction fields generalizing d with
  | nil =>
    obtain rfl := pure_eq_ok.mp h
    simp
  | cons f fields ih =>
    obtain ⟨k, w⟩ := f
    rw [List.map_cons, List.nodup_cons] at hn
    rw [List.foldlM_cons, bind_eq_ok] at h
    obtain ⟨d₁, hstep, hrest⟩ := h
    obtain ⟨hsome, hnone⟩ := ih hn.2 hrest
    have hfirst := hset d k w d₁ hstep
    rw [Fields.lookup_cons]
    by_cases hk : k = name
    · subst hk
      rw [if_pos rfl] at hfirst
      have hpart : part d' = part d₁ := hnone (Fields.lookup_eq_none_iff.mpr hn.1)
      simp [hpart, hfirst]
    · rw [if_neg hk] at hfirst
      rw [if_neg (Ne.symm hk), ← hfirst]
      exact ⟨hsome, hnone⟩

/-- A part that only one name fills is there exactly if the name is. -/
theorem foldlM_part_ne_none_iff (set : δ → String → β → Except ε δ) (part : δ → Option γ)
    (hstart : part d = none)
    (hset : ∀ d k v d', set d k v = .ok d' →
      if k = name then part d' ≠ none else part d' = part d)
    (hn : (fields.map (·.1)).Nodup)
    (h : fields.foldlM (fun d f => set d f.1 f.2) d = .ok d') :
    part d' ≠ none ↔ fields.lookup name ≠ none := by
  obtain ⟨hsome, hnone⟩ := foldlM_part set part (fun _ x => x ≠ none) hset hn h
  cases hv : fields.lookup name with
  | none => simp [hnone hv, hstart]
  | some v => simpa using hsome v hv

end BucketOverflow
