import Mathlib.Data.String.Basic
import Mathlib.Data.List.Sort
import BucketOverflow.Fields

/-! Lists of named values as finite maps. Inserting changes one name, the last value of a name
stays, and names come out in strictly increasing order. -/
namespace BucketOverflow.Fields

variable {β : Type*} {fields values : List (String × β)} {name k : String} {value : β}

/-- Names in strictly increasing order. -/
def Sorted (fields : List (String × β)) : Prop := (fields.map (·.1)).Pairwise (· < ·)

theorem lookup_cons (k name : String) (value : β) (fields : List (String × β)) :
    ((name, value) :: fields).lookup k = if k = name then some value else fields.lookup k := by
  rw [List.lookup_cons]
  split_ifs with h
  · simp [h]
  · simp [beq_eq_false_iff_ne.mpr h]

@[simp] theorem lookup_insert (name : String) (value : β) (fields : List (String × β))
    (k : String) : (insert name value fields).lookup k =
      if k = name then some value else fields.lookup k := by
  induction fields with
  | nil => rw [insert, lookup_cons]
  | cons f rest ih =>
    obtain ⟨m, v⟩ := f
    rw [insert]
    split_ifs with h1 h2 h3 h4 h5
    all_goals simp_all [lookup_cons]

theorem mem_names_insert : k ∈ (insert name value fields).map (·.1) ↔
    k = name ∨ k ∈ fields.map (·.1) := by
  induction fields with
  | nil => simp [insert]
  | cons f rest ih =>
    obtain ⟨m, v⟩ := f
    rw [insert]
    split_ifs with h1 h2
    · subst h1
      simp
    · simp
    · rw [List.map_cons, List.mem_cons, ih, List.map_cons, List.mem_cons]
      tauto

theorem Sorted.insert (h : Sorted fields) (name : String) (value : β) :
    Sorted (insert name value fields) := by
  unfold Sorted at *
  induction fields with
  | nil => simp [Fields.insert]
  | cons f rest ih =>
    obtain ⟨m, v⟩ := f
    rw [List.map_cons, List.pairwise_cons] at h
    rw [Fields.insert]
    split_ifs with h1 h2
    · subst h1
      simpa using h
    · rw [List.map_cons, List.pairwise_cons, List.map_cons, List.pairwise_cons]
      refine ⟨?_, h⟩
      intro k hk
      rcases List.mem_cons.mp hk with rfl | hk
      · exact h2
      · exact h2.trans (h.1 k hk)
    · rw [List.map_cons, List.pairwise_cons]
      refine ⟨?_, ih h.2⟩
      intro k hk
      rcases mem_names_insert.mp hk with rfl | hk
      · exact lt_of_le_of_ne (not_lt.mp h2) (Ne.symm h1)
      · exact h.1 k hk

theorem Sorted.nodup (h : Sorted fields) : (fields.map (·.1)).Nodup := List.Pairwise.imp ne_of_lt h

theorem sorted_nil : Sorted ([] : List (String × β)) := List.Pairwise.nil

theorem Sorted.insertAll (h : Sorted fields) (values : List (String × β)) :
    Sorted (insertAll values fields) := by
  unfold Fields.insertAll
  induction values generalizing fields with
  | nil => exact h
  | cons f rest ih => exact ih (h.insert f.1 f.2)

theorem mem_names_insertAll : k ∈ (insertAll values fields).map (·.1) ↔
    k ∈ values.map (·.1) ∨ k ∈ fields.map (·.1) := by
  unfold Fields.insertAll
  induction values generalizing fields with
  | nil => simp
  | cons f rest ih =>
    rw [List.foldl_cons, ih, mem_names_insert, List.map_cons, List.mem_cons]
    tauto

/-- Two sorted lists put together have the same names in the same order, whichever comes last. -/
theorem Sorted.names_insertAll_comm (hf : Sorted fields) (hv : Sorted values) :
    (Fields.insertAll values fields).map (·.1) = (Fields.insertAll fields values).map (·.1) := by
  refine List.Pairwise.eq_of_mem_iff (hf.insertAll values) (hv.insertAll fields) fun k => ?_
  rw [mem_names_insertAll, mem_names_insertAll, or_comm]

/-- A name that is not put in keeps its value. -/
theorem lookup_insertAll_of_notMem (h : k ∉ values.map (·.1)) :
    (insertAll values fields).lookup k = fields.lookup k := by
  unfold Fields.insertAll
  induction values generalizing fields with
  | nil => rfl
  | cons f rest ih =>
    rw [List.map_cons, List.mem_cons, not_or] at h
    rw [List.foldl_cons, ih h.2, lookup_insert, if_neg h.1]

/-- Values under distinct names are all found again. -/
theorem lookup_insertAll_of_mem (hn : (values.map (·.1)).Nodup) (h : (k, value) ∈ values) :
    (insertAll values fields).lookup k = some value := by
  induction values generalizing fields with
  | nil => cases h
  | cons f rest ih =>
    rw [List.map_cons, List.nodup_cons] at hn
    have hstep : insertAll (f :: rest) fields = insertAll rest (insert f.1 f.2 fields) := rfl
    rw [hstep]
    rcases List.mem_cons.mp h with rfl | h
    · rw [lookup_insertAll_of_notMem hn.1, lookup_insert, if_pos rfl]
    · exact ih hn.2 h

theorem lookup_eq_none_iff : fields.lookup k = none ↔ k ∉ fields.map (·.1) := by
  induction fields with
  | nil => simp
  | cons f rest ih =>
    obtain ⟨m, v⟩ := f
    rw [lookup_cons, List.map_cons, List.mem_cons, not_or]
    split_ifs with h
    · simp [h]
    · simp [h, ih]

theorem mem_of_lookup (h : fields.lookup k = some value) : (k, value) ∈ fields := by
  induction fields with
  | nil => cases h
  | cons f rest ih =>
    obtain ⟨m, v⟩ := f
    rw [lookup_cons] at h
    split_ifs at h with hk
    · cases h
      simp [hk]
    · exact List.mem_cons_of_mem _ (ih h)

/-- Values under distinct names keep their places when they are sorted. -/
theorem lookup_insertAll_nil (hn : (values.map (·.1)).Nodup) (k : String) :
    (insertAll values []).lookup k = values.lookup k := by
  cases h : values.lookup k with
  | none => exact lookup_insertAll_of_notMem (lookup_eq_none_iff.mp h)
  | some v => exact lookup_insertAll_of_mem hn (mem_of_lookup h)

theorem lookup_map {γ : Type*} (f : β → γ) (fields : List (String × β)) (k : String) :
    (fields.map fun e => (e.1, f e.2)).lookup k = (fields.lookup k).map f := by
  induction fields with
  | nil => rfl
  | cons e rest ih =>
    obtain ⟨m, v⟩ := e
    rw [List.map_cons, lookup_cons, lookup_cons, ih]
    split_ifs <;> rfl

theorem mem_of_mem_insert {f : String × β} (h : f ∈ insert name value fields) :
    f = (name, value) ∨ f ∈ fields := by
  induction fields with
  | nil => simpa [insert] using h
  | cons e rest ih =>
    obtain ⟨m, v⟩ := e
    rw [insert] at h
    split_ifs at h
    · rcases List.mem_cons.mp h with h | h
      · exact .inl h
      · exact .inr (List.mem_cons_of_mem _ h)
    · exact List.mem_cons.mp h
    · rcases List.mem_cons.mp h with h | h
      · exact .inr (h ▸ List.mem_cons_self)
      · exact (ih h).imp_right (List.mem_cons_of_mem _)

theorem mem_of_mem_insertAll {f : String × β} (h : f ∈ insertAll values fields) :
    f ∈ values ∨ f ∈ fields := by
  unfold insertAll at h
  induction values generalizing fields with
  | nil => exact .inr h
  | cons e rest ih =>
    rcases ih h with h | h
    · exact .inl (List.mem_cons_of_mem _ h)
    · rcases mem_of_mem_insert h with rfl | h
      · exact .inl List.mem_cons_self
      · exact .inr h

/-- Sorted lists that give the same value for every name are the same. -/
theorem Sorted.ext {a b : List (String × β)} (ha : Sorted a) (hb : Sorted b)
    (h : ∀ k, a.lookup k = b.lookup k) : a = b := by
  have hfirst {k m : String} {v : β} {c : List (String × β)} (hc : Sorted ((m, v) :: c))
      (hk : ((m, v) :: c).lookup k ≠ none) : m ≤ k := by
    rw [Ne, lookup_eq_none_iff, not_not, List.map_cons, List.mem_cons] at hk
    rcases hk with rfl | hk
    · exact le_rfl
    · exact (List.rel_of_pairwise_cons hc hk).le
  induction a generalizing b with
  | nil =>
    cases b with
    | nil => rfl
    | cons f b =>
      obtain ⟨m, w⟩ := f
      have := h m
      simp at this
  | cons e a ih =>
    obtain ⟨k, v⟩ := e
    cases b with
    | nil =>
      have := h k
      simp at this
    | cons f b =>
      obtain ⟨m, w⟩ := f
      have hkm := h k
      have hmk := h m
      have hle : k ≤ m := hfirst ha (by simp [hmk])
      have hge : m ≤ k := hfirst hb (by simp [← hkm])
      obtain rfl := le_antisymm hle hge
      obtain rfl : v = w := by simpa using hkm
      congr 1
      have hnot {c : List (String × β)} (hc : Sorted ((k, v) :: c)) : c.lookup k = none := by
        rw [lookup_eq_none_iff]
        exact (List.nodup_cons.mp hc.nodup).1
      refine ih (List.Pairwise.of_cons ha) (List.Pairwise.of_cons hb) fun j => ?_
      by_cases hj : j = k
      · rw [hj, hnot ha, hnot hb]
      · have := h j
        rwa [lookup_cons, lookup_cons, if_neg hj, if_neg hj] at this

end BucketOverflow.Fields
