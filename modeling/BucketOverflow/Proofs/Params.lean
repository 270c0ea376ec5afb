import BucketOverflow.Proofs.Overrides
import BucketOverflow.Proofs.Params.Json

/-! Parameters from a document. An object supplies fields by name, an array by position. What an
object leaves out comes from the base; what an array leaves out does not. A document leaves what it
gave as it is, and parameters are their own document over any base. -/
namespace BucketOverflow
open Json

/-- An item of a list by the place of its name. -/
theorem lookup_zip {names : List String} {items : List Json} (h : items.length ≤ names.length)
    (name : String) : (names.zip items).lookup name = items[names.idxOf name]? := by
  induction names generalizing items with
  | nil =>
    obtain rfl := List.length_eq_zero_iff.mp (Nat.le_zero.mp h)
    rfl
  | cons first names ih =>
    cases items with
    | nil => rfl
    | cons item items =>
      rw [List.zip_cons_cons, Fields.lookup_cons, ih (Nat.le_of_succ_le_succ h)]
      by_cases hname : name = first
      · rw [if_pos hname, List.idxOf_cons_eq _ hname.symm, List.getElem?_cons_zero]
      · rw [if_neg hname, List.idxOf_cons_ne _ (Ne.symm hname), List.getElem?_cons_succ]

/-- Items take their names in order, so that no name is given twice. -/
theorem nodup_names_zip {names : List String} (h : names.Nodup) (items : List Json) :
    ((names.zip items).map (·.1)).Nodup := by
  rw [List.zip_eq_zip_take_min, List.map_fst_zip (by simp)]
  exact h.sublist (List.take_sublist _ _)

namespace Params

variable {value : String → Option Json} {base fallback p : Params} {fields listed : Members}
  {items : List Json} {name : String} {v : Json} {d : Draft}

/-- Parameters whose fields each have the value that is supplied for them, or the fallback's if none
is. -/
structure Supplied (value : String → Option Json) (fallback p : Params) : Prop where
  capacity : Chosen Means64 none (value "capacity") fallback.capacity p.capacity
  items : Chosen Means64 none (value "items") fallback.items p.items
  paths : Chosen Means64 none (value "paths") fallback.paths p.paths
  maxDepth : Chosen Means32 none (value "max_depth") fallback.maxDepth p.maxDepth
  hopBudget : Chosen Means32 none (value "hop_budget") fallback.hopBudget p.hopBudget
  tailPolicy : Chosen MeansPolicy none (value "tail_policy") fallback.tailPolicy p.tailPolicy

/-- What is supplied has the type of its field. -/
theorem Supplied.typed (h : Supplied value fallback p) (hv : value name = some v) :
    Typed name v := by
  obtain ⟨hcapacity, hitems, hpaths, hmaxDepth, hhopBudget, htailPolicy⟩ := h
  unfold Typed
  split
  · rw [hv] at hcapacity
    exact ⟨_, hcapacity⟩
  · rw [hv] at hitems
    exact ⟨_, hitems⟩
  · rw [hv] at hpaths
    exact ⟨_, hpaths⟩
  · rw [hv] at hmaxDepth
    exact ⟨_, hmaxDepth⟩
  · rw [hv] at hhopBudget
    exact ⟨_, hhopBudget⟩
  · rw [hv] at htailPolicy
    exact ⟨_, htailPolicy⟩
  · trivial

/-- A draft of distinct fields holds what they supply. -/
theorem supplied_iff (hn : (fields.map (·.1)).Nodup) (h : Draft.ofFields fields = .ok d) :
    Supplied (fun name => field? name fields) fallback p ↔ d.withBase fallback = p := by
  have hcapacity :=
    Draft.layer_of_nodup rfl (fun _ _ _ _ h => (Draft.filled_of_set h).capacity) hn h
  have hitems := Draft.layer_of_nodup rfl (fun _ _ _ _ h => (Draft.filled_of_set h).items) hn h
  have hpaths := Draft.layer_of_nodup rfl (fun _ _ _ _ h => (Draft.filled_of_set h).paths) hn h
  have hmaxDepth :=
    Draft.layer_of_nodup rfl (fun _ _ _ _ h => (Draft.filled_of_set h).maxDepth) hn h
  have hhopBudget :=
    Draft.layer_of_nodup rfl (fun _ _ _ _ h => (Draft.filled_of_set h).hopBudget) hn h
  have htailPolicy :=
    Draft.layer_of_nodup rfl (fun _ _ _ _ h => (Draft.filled_of_set h).tailPolicy) hn h
  obtain ⟨capacity, items, paths, maxDepth, hopBudget, tailPolicy⟩ := p
  constructor
  · rintro ⟨hc, hi, hp, hm, hh, ht⟩
    simp only [Draft.withBase, mk.injEq]
    exact ⟨((chosen_iff unambiguous_means64 hcapacity).mp hc).symm,
      ((chosen_iff unambiguous_means64 hitems).mp hi).symm,
      ((chosen_iff unambiguous_means64 hpaths).mp hp).symm,
      ((chosen_iff unambiguous_means32 hmaxDepth).mp hm).symm,
      ((chosen_iff unambiguous_means32 hhopBudget).mp hh).symm,
      ((chosen_iff unambiguous_meansPolicy htailPolicy).mp ht).symm⟩
  · intro heq
    rw [← heq]
    exact ⟨(chosen_iff unambiguous_means64 hcapacity).mpr rfl,
      (chosen_iff unambiguous_means64 hitems).mpr rfl,
      (chosen_iff unambiguous_means64 hpaths).mpr rfl,
      (chosen_iff unambiguous_means32 hmaxDepth).mpr rfl,
      (chosen_iff unambiguous_means32 hhopBudget).mpr rfl,
      (chosen_iff unambiguous_meansPolicy htailPolicy).mpr rfl⟩

/-- Distinct fields make a draft exactly if they can be supplied. -/
theorem exists_ofFields_iff (hn : (fields.map (·.1)).Nodup) :
    (∃ d, Draft.ofFields fields = .ok d ∧ d.withBase fallback = p) ↔
      Supplied (fun name => field? name fields) fallback p := by
  constructor
  · rintro ⟨d, hd, heq⟩
    exact (supplied_iff hn hd).mpr heq
  · intro h
    obtain ⟨d, hd⟩ : ∃ d, Draft.ofFields fields = .ok d := by
      rw [Draft.ofFields, foldlM_isOk_iff Draft.set_isOk_iff]
      exact fun f hf => h.typed ((mem_iff_field? hn).mp hf)
    exact ⟨d, hd, (supplied_iff hn hd).mp h⟩

theorem ofJsonOver_obj : ofJsonOver base (.obj (sortFields listed)) = .ok p ↔
    Supplied (fun name => last? name listed) base p := by
  rw [ofJsonOver, map_eq_ok, exists_ofFields_iff (sorted_sortFields listed).nodup]
  simp only [field?_sortFields]

theorem ofItems_eq_ok : Draft.ofItems items = .ok d ↔
    Draft.ofFields (Draft.names.zip items) = .ok d ∧ items.length ≤ Draft.names.length := by
  rw [Draft.ofItems, bind_eq_ok]
  constructor
  · rintro ⟨d, hd, h⟩
    split_ifs at h with hlong
    obtain rfl := pure_eq_ok.mp h
    exact ⟨hd, not_lt.mp hlong⟩
  · rintro ⟨hd, hlen⟩
    exact ⟨d, hd, if_neg (not_lt.mpr hlen)⟩

theorem ofJsonOver_arr : ofJsonOver base (.arr items) = .ok p ↔
    items.length ≤ Draft.names.length ∧
      Supplied (fun name => items[Draft.names.idxOf name]?) Preset.analysis.params p := by
  have hn : ((Draft.names.zip items).map (·.1)).Nodup := nodup_names_zip (by decide) items
  have hplace (hlen : items.length ≤ Draft.names.length) (name : String) :
      field? name (Draft.names.zip items) = items[Draft.names.idxOf name]? := lookup_zip hlen name
  simp only [ofJsonOver, map_eq_ok, ofItems_eq_ok]
  constructor
  · rintro ⟨d, ⟨hd, hlen⟩, heq⟩
    have h := (exists_ofFields_iff hn).mp ⟨d, hd, heq⟩
    simp only [hplace hlen] at h
    exact ⟨hlen, h⟩
  · rintro ⟨hlen, h⟩
    simp only [← hplace hlen] at h
    obtain ⟨d, hd, heq⟩ := (exists_ofFields_iff hn).mpr h
    exact ⟨d, ⟨hd, hlen⟩, heq⟩

theorem readOver_eq_ok {text : String} :
    readOver base text = .ok p ↔ ∃ j, parse text = .ok j ∧ ofJsonOver base j = .ok p := by
  unfold readOver
  cases parse text <;> simp [mapError_eq_ok]

/-- Parameters are read from an object or from an array of at most as many items as there are
fields. Of a name that is listed twice the last value counts, of an array the item in the place of
the field. The fields that an object leaves out come from the base, those that an array leaves out
from the analysed set. -/
theorem readOver_eq_ok_iff (base : Params) (text : String) (p : Params) :
    readOver base text = .ok p ↔
      (∃ listed, readMembers text = .ok listed ∧ Supplied (fun name => last? name listed) base p) ∨
      ∃ items, parse text = .ok (.arr items) ∧ items.length ≤ Draft.names.length ∧
        Supplied (fun name => items[Draft.names.idxOf name]?) Preset.analysis.params p := by
  rw [readOver_eq_ok]
  constructor
  · rintro ⟨j, hparse, hp⟩
    cases j with
    | obj fields =>
      obtain ⟨listed, hlisted, rfl⟩ := parse_eq_obj.mp hparse
      exact .inl ⟨listed, hlisted, ofJsonOver_obj.mp hp⟩
    | arr items => exact .inr ⟨items, hparse, ofJsonOver_arr.mp hp⟩
    | _ => exact absurd hp wrongType_ne_ok
  · rintro (⟨listed, hlisted, h⟩ | ⟨items, hparse, h⟩)
    · exact ⟨_, parse_eq_obj.mpr ⟨listed, hlisted, rfl⟩, ofJsonOver_obj.mpr h⟩
    · exact ⟨_, hparse, ofJsonOver_arr.mpr h⟩

/-- One item over the deployed set: the other fields are those of the analysed set. -/
example : (readOver Preset.deployment.params "[64]").toOption =
    some ⟨64, 1000000, 1000000, 30, 1000, .saturating⟩ := by decide +kernel

/-! Documents over what they gave -/

/-- A draft adds nothing to what it was filled to. -/
theorem withBase_withBase (d : Draft) (base : Params) :
    d.withBase (d.withBase base) = d.withBase base := by
  have hkeep {α : Type} (x : Option α) (a : α) : x.getD (x.getD a) = x.getD a := by
    cases x <;> rfl
  simp only [Draft.withBase, hkeep]

theorem ofJsonOver_self {j : Json} (h : ofJsonOver base j = .ok p) : ofJsonOver p j = .ok p := by
  cases j with
  | obj fields =>
    obtain ⟨d, hd, rfl⟩ := map_eq_ok.mp h
    exact map_eq_ok.mpr ⟨d, hd, withBase_withBase d base⟩
  | arr items => exact h
  | _ => exact absurd h wrongType_ne_ok

/-- The fields of parameters supply all of them, so that nothing is left to the base. -/
theorem supplied_toJson (base p : Params) (h : p.toJson = .obj listed) :
    Supplied (fun name => last? name listed) base p := by
  obtain rfl := Json.obj.inj h
  have hpolicy : MeansPolicy (.str p.tailPolicy.name) p.tailPolicy := .inl rfl
  exact ⟨rfl, rfl, rfl, rfl, rfl, hpolicy⟩

theorem readOver_toText (base p : Params) : readOver base p.toText = .ok p := by
  have hdoc := ofJsonOver_obj.mpr (supplied_toJson base p rfl)
  exact readOver_eq_ok.mpr ⟨_, p.parse_toText rfl, hdoc⟩

/-- Over any base, parameters read back from their own text, and a text that is read gives the same
parameters when it is read again over what it gave. -/
theorem readOver_settled (base : Params) : (∀ p : Params, readOver base p.toText = .ok p) ∧
    ∀ text p, readOver base text = .ok p → readOver p text = .ok p := by
  refine ⟨readOver_toText base, fun text p h => ?_⟩
  obtain ⟨j, hparse, hdoc⟩ := readOver_eq_ok.mp h
  exact readOver_eq_ok.mpr ⟨j, hparse, ofJsonOver_self hdoc⟩

/-- An object over the deployed set that gives the items twice and the policy as an object. -/
theorem readOver_settled_repeated : ∃ text p, readOver Preset.deployment.params text = .ok p ∧
    p = ⟨50, 9, 262, 18, 1000, .literal⟩ ∧ readOver p text = .ok p := by
  let text := "\x7b\"items\": 7, \"tail_policy\": \x7b\"literal\": null\x7d, \"items\": 9\x7d"
  have h : readOver Preset.deployment.params text = .ok ⟨50, 9, 262, 18, 1000, .literal⟩ := by
    have hsome : (readOver Preset.deployment.params text).toOption =
        some ⟨50, 9, 262, 18, 1000, .literal⟩ := by decide +kernel
    cases hread : readOver Preset.deployment.params text with
    | error e => simp [hread, Except.toOption] at hsome
    | ok q => simpa [hread, Except.toOption] using hsome
  exact ⟨text, _, h, rfl, (readOver_settled _).2 _ _ h⟩

end Params
end BucketOverflow
