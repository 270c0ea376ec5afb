import Mathlib.Data.List.Induction
import BucketOverflow.Json.Reader
import BucketOverflow.Proofs.Results

/-! Objects member by member. A text that is parsed as an object lists members in some order, some
of them perhaps under one name; the fields that are read give the last value listed under each
name. -/
namespace BucketOverflow.Json
open Text

variable {σ τ : Type} {text name : String} {cs rest : List Char} {j v : Json} {n : ℕ}
  {fields listed : Members}

/-- The last value that is listed under a name. -/
def last? (name : String) (listed : Members) : Option Json := listed.reverse.lookup name

/-- A member behind its key, listed after those before it. -/
def listedMember (value : Reader Json) (listed : Members) (key : String) : Reader Members :=
  fun cs => do
    let (_, r) ← colon cs
    let (v, r) ← value r
    return (listed ++ [(key, v)], r)

/-- The members of an object in the order of its text, whose values nest at most `levels` deep. -/
def listing (levels : ℕ) : Reader Members := fun cs =>
  match skipSpace cs with
  | '{' :: r => do
    let (listed, r) ← members (listedMember (value levels)) [] r
    return (listed, r.drop 1)
  | r => failIn .expectedValue r

/-- The members that the text of an object lists. -/
def readMembers (text : String) : Except Error Members := readText (listing 126) text

/-! Readers of members that keep step -/

/-- What a reader reads, with its value changed. -/
def mapRead (f : σ → τ) (r : Except Fault (σ × List Char)) : Except Fault (τ × List Char) :=
  r.map fun p => (f p.1, p.2)

variable {member : σ → String → Reader σ} {member' : τ → String → Reader τ}

/-- Two ways to take in members that keep step on each member keep step on all of them. -/
theorem membersFrom_map (f : σ → τ)
    (h : ∀ s key cs, member' (f s) key cs = mapRead f (member s key cs)) (bound : List Char)
    (s : σ) (cs : List Char) :
    membersFrom member' bound (f s) cs = mapRead f (membersFrom member bound s cs) := by
  induction bound generalizing s cs with
  | nil => rfl
  | cons c bound ih =>
    unfold membersFrom
    split
    · rename_i heq
      cases heq
    · rename_i text heq
      obtain ⟨-, rfl⟩ := List.cons.inj heq
      cases hkey : stringBody text with
      | error e => rfl
      | ok p =>
        obtain ⟨key, r⟩ := p
        simp only [bind, Except.bind, h]
        cases hmember : member s key r with
        | error e => rfl
        | ok p =>
          obtain ⟨s', r⟩ := p
          simp only [mapRead, Except.map]
          split
          · rfl
          · split
            · rfl
            · rfl
            · exact ih s' _
          · rfl
          · rfl
    · rfl

theorem members_map (f : σ → τ)
    (h : ∀ s key cs, member' (f s) key cs = mapRead f (member s key cs)) (s : σ)
    (cs : List Char) : members member' (f s) cs = mapRead f (members member s cs) := by
  unfold members
  split
  · rfl
  · rfl
  · exact membersFrom_map f h _ s _

/-- Sorting takes in one member more. -/
theorem sortFields_append (listed : Members) (key : String) (v : Json) :
    sortFields (listed ++ [(key, v)]) = Fields.insert key v (sortFields listed) := by
  simp [sortFields, Fields.insertAll]

/-- An object under construction is the sorted form of the members listed so far. -/
theorem members_valueMember (value : Reader Json) (cs : List Char) :
    members (valueMember value) [] cs =
      mapRead sortFields (members (listedMember value) [] cs) := by
  refine members_map sortFields (s := []) (fun s key cs => ?_) cs
  unfold valueMember listedMember
  cases colon cs with
  | error e => rfl
  | ok p =>
    simp only [bind, Except.bind]
    cases value p.2 with
    | error e => rfl
    | ok q => simp [mapRead, Except.map, sortFields_append, pure, Except.pure]

theorem mapRead_eq_ok {f : σ → τ} {r : Except Fault (σ × List Char)} {t : τ} :
    mapRead f r = .ok (t, rest) ↔ ∃ s, r = .ok (s, rest) ∧ f s = t := by
  rw [mapRead, map_eq_ok]
  constructor
  · rintro ⟨⟨s, rest'⟩, hr, hp⟩
    obtain ⟨hs, rfl⟩ := Prod.mk.inj hp
    exact ⟨s, hr, hs⟩
  · rintro ⟨s, hr, hs⟩
    exact ⟨(s, rest), hr, by rw [hs]⟩

/-! Objects -/

theorem toJson_ne_obj (x : Number) (fields : Members) : x.toJson ≠ .obj fields := by
  cases x <;> simp [Number.toJson]

/-- Only what begins with a brace is read as an object. -/
theorem skipSpace_of_value_obj (h : value (n + 1) cs = .ok (.obj fields, rest)) :
    ∃ r, skipSpace cs = '{' :: r := by
  rw [value] at h
  unfold valueWith at h
  split at h
  case h_8 r heq => exact ⟨r, heq⟩
  case h_9 =>
    split_ifs at h
    · simp only [bind_eq_ok, pure_eq_ok, Prod.mk.injEq, toJson_ne_obj, false_and, and_false,
        exists_false] at h
    · cases h
  case h_1 => cases h
  all_goals
    simp only [containerOf, bind_eq_ok, pure_eq_ok, Prod.mk.injEq, toJson_ne_obj, reduceCtorEq,
      false_and, and_false, exists_false] at h

theorem skipSpace_of_listing (h : listing n cs = .ok (listed, rest)) :
    ∃ r, skipSpace cs = '{' :: r := by
  unfold listing at h
  split at h
  · rename_i r heq
    exact ⟨r, heq⟩
  · cases h

/-- An object is read exactly where members are listed. -/
theorem value_eq_obj : value (n + 1) cs = .ok (.obj fields, rest) ↔
    ∃ listed, listing n cs = .ok (listed, rest) ∧ sortFields listed = fields := by
  have hread {r : List Char} (hr : skipSpace cs = '{' :: r) :
      value (n + 1) cs = mapRead (fun listed => .obj (sortFields listed)) (listing n cs) := by
    simp only [value, valueWith, listing, hr, containerOf, members_valueMember]
    cases members (listedMember (value n)) [] r <;> rfl
  constructor
  · intro h
    obtain ⟨r, hr⟩ := skipSpace_of_value_obj h
    obtain ⟨listed, hlisted, hfields⟩ := mapRead_eq_ok.mp ((hread hr).symm.trans h)
    exact ⟨listed, hlisted, Json.obj.inj hfields⟩
  · rintro ⟨listed, hlisted, rfl⟩
    obtain ⟨r, hr⟩ := skipSpace_of_listing hlisted
    exact (hread hr).trans (mapRead_eq_ok.mpr ⟨listed, hlisted, rfl⟩)

/-! Whole texts -/

theorem readText_eq_ok {reader : Reader σ} {s : σ} : readText reader text = .ok s ↔
    ∃ rest, reader text.toList = .ok (s, rest) ∧ skipSpace rest = [] := by
  unfold readText finish
  cases reader text.toList with
  | error e => simp [bind, Except.bind]
  | ok p =>
    obtain ⟨s', rest⟩ := p
    simp only [bind, Except.bind]
    cases hrest : skipSpace rest with
    | nil => simp [pure, Except.pure, hrest]
    | cons c r =>
      simp only [failIn, reduceCtorEq, Except.ok.injEq, Prod.mk.injEq, false_iff]
      rintro ⟨_, ⟨-, rfl⟩, hend⟩
      rw [hrest] at hend
      cases hend

/-- A text is parsed as an object exactly if it lists members, of which the last of each name
stays. -/
theorem parse_eq_obj : parse text = .ok (.obj fields) ↔
    ∃ listed, readMembers text = .ok listed ∧ sortFields listed = fields := by
  simp only [parse, readMembers, readText_eq_ok, maxLevels, value_eq_obj]
  constructor
  · rintro ⟨rest, ⟨listed, hlisted, hfields⟩, hend⟩
    exact ⟨listed, ⟨rest, hlisted, hend⟩, hfields⟩
  · rintro ⟨listed, ⟨rest, hlisted, hend⟩, hfields⟩
    exact ⟨rest, ⟨listed, hlisted, hfields⟩, hend⟩

/-! The fields that stay -/

theorem sorted_sortFields (listed : Members) : Fields.Sorted (sortFields listed) :=
  Fields.sorted_nil.insertAll listed

@[simp] theorem last?_append (listed : Members) (key : String) (v : Json) (name : String) :
    last? name (listed ++ [(key, v)]) = if name = key then some v else last? name listed := by
  rw [last?, List.reverse_append, List.reverse_singleton, List.singleton_append,
    Fields.lookup_cons, last?]

theorem field?_sortFields (name : String) (listed : Members) :
    field? name (sortFields listed) = last? name listed := by
  induction listed using List.reverseRecOn with
  | nil => rfl
  | append_singleton listed f ih =>
    obtain ⟨key, v⟩ := f
    rw [field?] at ih ⊢
    rw [sortFields_append, Fields.lookup_insert, ih, last?_append]

theorem mem_iff_field? (hn : (fields.map (·.1)).Nodup) {f : String × Json} :
    f ∈ fields ↔ field? f.1 fields = some f.2 := by
  constructor
  · intro h
    rw [field?, ← Fields.lookup_insertAll_nil hn]
    exact Fields.lookup_insertAll_of_mem hn h
  · exact Fields.mem_of_lookup

end BucketOverflow.Json
