import BucketOverflow.Overrides
import BucketOverflow.Proofs.Files
import BucketOverflow.Proofs.Json.Decode
import BucketOverflow.Proofs.Json.Members
import BucketOverflow.Proofs.Json.Values
import BucketOverflow.Proofs.Sweep.Run

/-! Parameters from a preset, a file and single values. Each value is the single one if it is given,
else the last of its name in the file, else the preset's; what is resolved can be swept. -/
namespace BucketOverflow
open Json

/-! Values of parameters in a file -/

def Means64 (v : Json) (n : UInt64) : Prop := v = .ofNat n.toNat

def Means32 (v : Json) (n : UInt32) : Prop := v = .ofNat n.toNat

def MeansPolicy (v : Json) (t : TailPolicy) : Prop := Spells t.name v

variable {v : Json}

theorem toNatural64_eq_ok_means {n : ℕ} :
    v.toNatural64 = .ok n ↔ n < 0x10000000000000000 ∧ Means64 v (.ofNat n) := by
  rw [toNatural64_eq_ok, and_comm]
  refine and_congr_right fun hn => ?_
  rw [Means64, UInt64.toNat_ofNat_of_lt' hn]

theorem toNatural32_eq_ok_means {n : ℕ} :
    v.toNatural32 = .ok n ↔ n < 0x100000000 ∧ Means32 v (.ofNat n) := by
  rw [toNatural32_eq_ok, and_comm]
  refine and_congr_right fun hn => ?_
  rw [Means32, UInt32.toNat_ofNat_of_lt' hn]

theorem exists_toNatural64_eq_ok : (∃ n, v.toNatural64 = .ok n) ↔ ∃ n, Means64 v n := by
  constructor
  · rintro ⟨n, hn⟩
    exact ⟨_, (toNatural64_eq_ok_means.mp hn).2⟩
  · rintro ⟨n, hn⟩
    exact ⟨n.toNat, toNatural64_eq_ok.mpr ⟨hn, n.toNat_lt⟩⟩

theorem exists_toNatural32_eq_ok : (∃ n, v.toNatural32 = .ok n) ↔ ∃ n, Means32 v n := by
  constructor
  · rintro ⟨n, hn⟩
    exact ⟨_, (toNatural32_eq_ok_means.mp hn).2⟩
  · rintro ⟨n, hn⟩
    exact ⟨n.toNat, toNatural32_eq_ok.mpr ⟨hn, n.toNat_lt⟩⟩

theorem toVariant_eq_ok_means {t : TailPolicy} :
    toVariant TailPolicy.known v = .ok t ↔ MeansPolicy v t :=
  toVariant_eq_ok_iff (by decide) (by rintro (_ | _) <;> rfl)

theorem ofNat_inj {m n : ℕ} : ofNat m = ofNat n ↔ m = n := by simp [ofNat]

/-- A value means at most one thing. -/
def Unambiguous {α : Type} (means : Json → α → Prop) : Prop :=
  ∀ v a b, means v a → means v b → a = b

theorem unambiguous_means64 : Unambiguous Means64 :=
  fun _ _ _ hm hn => UInt64.toNat_inj.mp (ofNat_inj.mp (hm.symm.trans hn))

theorem unambiguous_means32 : Unambiguous Means32 :=
  fun _ _ _ hm hn => UInt32.toNat_inj.mp (ofNat_inj.mp (hm.symm.trans hn))

theorem unambiguous_meansPolicy : Unambiguous MeansPolicy :=
  fun _ _ _ ht hu =>
    Except.ok.inj ((toVariant_eq_ok_means.mpr ht).symm.trans (toVariant_eq_ok_means.mpr hu))

/-! Layers of values -/

/-- A part of a draft, where a file has this value or none. -/
def Layer {α : Type} (means : Json → α → Prop) (file : Option Json) (x : Option α) : Prop :=
  match file with
  | some v => ∃ a, x = some a ∧ means v a
  | none => x = none

/-- A value chosen from a flag, a file and a base, in this order. -/
def Chosen {α : Type} (means : Json → α → Prop) (flag : Option α) (file : Option Json)
    (base value : α) : Prop :=
  match flag, file with
  | some a, _ => value = a
  | none, some v => means v value
  | none, none => value = base

theorem chosen_iff {α : Type} {means : Json → α → Prop} {flag x : Option α} {file : Option Json}
    {base value : α} (hmeans : Unambiguous means)
    (h : Layer means file x) :
    Chosen means flag file base value ↔ value = flag.getD (x.getD base) := by
  cases flag with
  | some a => rfl
  | none =>
    cases file with
    | none =>
      obtain rfl : x = none := h
      rfl
    | some v =>
      obtain ⟨a, rfl, ha⟩ := h
      exact ⟨fun hv => hmeans v _ _ hv ha, fun hv => hv ▸ ha⟩

namespace Params

/-- The values that a field of parameters can take; other fields are free. -/
def Typed (name : String) (v : Json) : Prop :=
  match name with
  | "capacity" | "items" | "paths" => ∃ n, Means64 v n
  | "max_depth" | "hop_budget" => ∃ n, Means32 v n
  | "tail_policy" => ∃ t, MeansPolicy v t
  | _ => True

namespace Draft

variable {α : Type} {d d' : Draft} {name : String} {listed : Members}

theorem set_isOk_iff (d : Draft) (name : String) (v : Json) :
    (∃ d', d.set name v = .ok d') ↔ Typed name v := by
  unfold set Typed
  split
  case h_7 => simp [*]
  all_goals simp only [exists_map_eq_ok, exists_toNatural64_eq_ok, exists_toNatural32_eq_ok,
    toVariant_eq_ok_means]

/-- Each part is filled by the value of its own name alone. -/
structure Filled (name : String) (v : Json) (d d' : Draft) : Prop where
  capacity : if name = "capacity" then ∃ n, d'.capacity = some n ∧ Means64 v n
    else d'.capacity = d.capacity
  items : if name = "items" then ∃ n, d'.items = some n ∧ Means64 v n else d'.items = d.items
  paths : if name = "paths" then ∃ n, d'.paths = some n ∧ Means64 v n else d'.paths = d.paths
  maxDepth : if name = "max_depth" then ∃ n, d'.maxDepth = some n ∧ Means32 v n
    else d'.maxDepth = d.maxDepth
  hopBudget : if name = "hop_budget" then ∃ n, d'.hopBudget = some n ∧ Means32 v n
    else d'.hopBudget = d.hopBudget
  tailPolicy : if name = "tail_policy" then ∃ t, d'.tailPolicy = some t ∧ MeansPolicy v t
    else d'.tailPolicy = d.tailPolicy

theorem filled_of_set (h : d.set name v = .ok d') : Filled name v d d' := by
  unfold set at h
  split at h
  case h_1 | h_2 | h_3 =>
    obtain ⟨n, hn, rfl⟩ := map_eq_ok.mp h
    constructor <;> simp [(toNatural64_eq_ok_means.mp hn).2]
  case h_4 | h_5 =>
    obtain ⟨n, hn, rfl⟩ := map_eq_ok.mp h
    constructor <;> simp [(toNatural32_eq_ok_means.mp hn).2]
  case h_6 =>
    obtain ⟨t, ht, rfl⟩ := map_eq_ok.mp h
    constructor <;> simp [toVariant_eq_ok_means.mp ht]
  case h_7 =>
    cases h
    constructor <;> simp_all

/-- A draft that holds the last value of each name. -/
structure Layers (d : Draft) (listed : Members) : Prop where
  capacity : Layer Means64 (last? "capacity" listed) d.capacity
  items : Layer Means64 (last? "items" listed) d.items
  paths : Layer Means64 (last? "paths" listed) d.paths
  maxDepth : Layer Means32 (last? "max_depth" listed) d.maxDepth
  hopBudget : Layer Means32 (last? "hop_budget" listed) d.hopBudget
  tailPolicy : Layer MeansPolicy (last? "tail_policy" listed) d.tailPolicy

theorem layer_of_nodup {part : Draft → Option α} {means : Json → α → Prop} {fields : Members}
    (hempty : part empty = none)
    (hset : ∀ d k v d', d.set k v = .ok d' →
      if k = name then ∃ a, part d' = some a ∧ means v a else part d' = part d)
    (hn : (fields.map (·.1)).Nodup) (h : ofFields fields = .ok d) :
    Layer means (field? name fields) (part d) := by
  obtain ⟨hsome, hnone⟩ := foldlM_part set part (fun v x => ∃ a, x = some a ∧ means v a) hset hn h
  unfold Layer
  split
  case h_1 v hv => exact hsome v hv
  case h_2 hv => exact (hnone hv).trans hempty

theorem layer_of_ofFields {part : Draft → Option α} {means : Json → α → Prop}
    (hempty : part empty = none)
    (hset : ∀ d k v d', d.set k v = .ok d' →
      if k = name then ∃ a, part d' = some a ∧ means v a else part d' = part d)
    (h : ofFields (sortFields listed) = .ok d) : Layer means (last? name listed) (part d) := by
  rw [← field?_sortFields]
  exact layer_of_nodup hempty hset (sorted_sortFields listed).nodup h

theorem layers_of_ofFields (h : ofFields (sortFields listed) = .ok d) : d.Layers listed where
  capacity := layer_of_ofFields rfl (fun _ _ _ _ h => (filled_of_set h).capacity) h
  items := layer_of_ofFields rfl (fun _ _ _ _ h => (filled_of_set h).items) h
  paths := layer_of_ofFields rfl (fun _ _ _ _ h => (filled_of_set h).paths) h
  maxDepth := layer_of_ofFields rfl (fun _ _ _ _ h => (filled_of_set h).maxDepth) h
  hopBudget := layer_of_ofFields rfl (fun _ _ _ _ h => (filled_of_set h).hopBudget) h
  tailPolicy := layer_of_ofFields rfl (fun _ _ _ _ h => (filled_of_set h).tailPolicy) h

/-- A file makes a draft exactly if the last value of each name suits it. -/
theorem ofFields_isOk_iff : (∃ d, ofFields (sortFields listed) = .ok d) ↔
    ∀ name v, last? name listed = some v → Typed name v := by
  have hmem (f : String × Json) : f ∈ sortFields listed ↔ last? f.1 listed = some f.2 := by
    rw [mem_iff_field? (sorted_sortFields listed).nodup, field?_sortFields]
  rw [ofFields, foldlM_isOk_iff set_isOk_iff]
  simp only [hmem, Prod.forall]

end Draft
end Params

namespace Overrides

variable {o : Overrides} {fs : Files} {preset : Preset} {listed : Members}
  {policy : Option TailPolicy} {p : Params}

/-- The members of the file, or none if there is no file. -/
def FileLists (o : Overrides) (fs : Files) (listed : Members) : Prop :=
  match o.paramsFile with
  | some path => ∃ text, fs.readText path = .ok text ∧ readMembers text = .ok listed
  | none => listed = []

/-- Sources that can all be read: the preset and the policy are known if they are named, and the
file lists members of which the last of each name suits it. -/
structure Sources (o : Overrides) (fs : Files) (preset : Preset) (listed : Members)
    (policy : Option TailPolicy) : Prop where
  preset : match o.preset with
    | some name => Preset.ofName name = .ok preset
    | none => preset = .analysis
  file : o.FileLists fs listed
  typed : ∀ name v, last? name listed = some v → Params.Typed name v
  policy : match o.tailPolicy with
    | some name => ∃ t, TailPolicy.ofName name = .ok t ∧ some t = policy
    | none => policy = none

/-- Parameters that are each the flag's if it is given, else the file's, else the preset's. -/
structure Merged (o : Overrides) (preset : Preset) (listed : Members) (policy : Option TailPolicy)
    (p : Params) : Prop where
  capacity : Chosen Means64 o.capacity (last? "capacity" listed) preset.params.capacity p.capacity
  items : Chosen Means64 o.items (last? "items" listed) preset.params.items p.items
  paths : Chosen Means64 o.paths (last? "paths" listed) preset.params.paths p.paths
  maxDepth : Chosen Means32 o.maxDepth (last? "max_depth" listed) preset.params.maxDepth p.maxDepth
  hopBudget : Chosen Means32 o.hopBudget (last? "hop_budget" listed) preset.params.hopBudget
    p.hopBudget
  tailPolicy : Chosen MeansPolicy policy (last? "tail_policy" listed) preset.params.tailPolicy
    p.tailPolicy

/-- The parts that single values fill. -/
def flags (o : Overrides) (policy : Option TailPolicy) : Params.Draft :=
  ⟨o.capacity, o.items, o.paths, o.maxDepth, o.hopBudget, policy⟩

/-- Merging fills the gaps of the single values from the file, and those left from the preset. -/
theorem merged_iff {d : Params.Draft} (h : d.Layers listed) : Merged o preset listed policy p ↔
    p = (o.flags policy).withBase (d.withBase preset.params) := by
  obtain ⟨capacity, items, paths, maxDepth, hopBudget, tailPolicy⟩ := p
  constructor
  · rintro ⟨hcapacity, hitems, hpaths, hmaxDepth, hhopBudget, htailPolicy⟩
    simp only [flags, Params.Draft.withBase, Params.mk.injEq]
    exact ⟨(chosen_iff unambiguous_means64 h.capacity).mp hcapacity,
      (chosen_iff unambiguous_means64 h.items).mp hitems,
      (chosen_iff unambiguous_means64 h.paths).mp hpaths,
      (chosen_iff unambiguous_means32 h.maxDepth).mp hmaxDepth,
      (chosen_iff unambiguous_means32 h.hopBudget).mp hhopBudget,
      (chosen_iff unambiguous_meansPolicy h.tailPolicy).mp htailPolicy⟩
  · intro hp
    rw [hp]
    exact ⟨(chosen_iff unambiguous_means64 h.capacity).mpr rfl,
      (chosen_iff unambiguous_means64 h.items).mpr rfl,
      (chosen_iff unambiguous_means64 h.paths).mpr rfl,
      (chosen_iff unambiguous_means32 h.maxDepth).mpr rfl,
      (chosen_iff unambiguous_means32 h.hopBudget).mpr rfl,
      (chosen_iff unambiguous_meansPolicy h.tailPolicy).mpr rfl⟩

/-! Resolving -/

theorem choosePreset_eq_ok : o.choosePreset = .ok preset ↔ match o.preset with
    | some name => Preset.ofName name = .ok preset
    | none => preset = .analysis := by
  unfold choosePreset
  cases o.preset with
  | none => simp [eq_comm]
  | some name => rfl

theorem choosePolicy_eq_ok : o.choosePolicy = .ok policy ↔ match o.tailPolicy with
    | some name => ∃ t, TailPolicy.ofName name = .ok t ∧ some t = policy
    | none => policy = none := by
  unfold choosePolicy
  cases o.tailPolicy with
  | none => simp [eq_comm]
  | some name => exact map_eq_ok

theorem loadOver_eq_ok {base : Params} {path text : String}
    (hread : fs.readText path = .ok text) (hlisted : readMembers text = .ok listed) :
    Params.loadOver base fs path = .ok p ↔
      ∃ d, Params.Draft.ofFields (sortFields listed) = .ok d ∧ d.withBase base = p := by
  have hparse : parse text = .ok (.obj (sortFields listed)) :=
    parse_eq_obj.mpr ⟨listed, hlisted, rfl⟩
  simp only [Params.loadOver, bind_eq_ok, mapError_eq_ok, hread, Except.ok.injEq, exists_eq_left',
    Params.readOver, hparse, Params.ofJsonOver, map_eq_ok]

/-- The parameters of the preset and the file. -/
theorem fromFile_eq_ok (hobject : ∀ path ∈ o.paramsFile, ∀ text, fs.readText path = .ok text →
      ∃ listed, readMembers text = .ok listed) : o.fromFile fs preset = .ok p ↔
    ∃ listed, FileLists o fs listed ∧
      ∃ d, Params.Draft.ofFields (sortFields listed) = .ok d ∧ d.withBase preset.params = p := by
  unfold fromFile FileLists
  cases hpath : o.paramsFile with
  | none =>
    have hempty : Params.Draft.ofFields (sortFields []) = .ok .empty := rfl
    simp [hempty, Params.Draft.withBase, Params.Draft.empty]
  | some path =>
    simp only [mapError_eq_ok]
    constructor
    · intro h
      obtain ⟨text, hread, -⟩ := bind_eq_ok.mp h
      rw [mapError_eq_ok] at hread
      obtain ⟨listed, hlisted⟩ := hobject path hpath text hread
      exact ⟨listed, ⟨text, hread, hlisted⟩, (loadOver_eq_ok hread hlisted).mp h⟩
    · rintro ⟨listed, ⟨text, hread, hlisted⟩, hd⟩
      exact (loadOver_eq_ok hread hlisted).mpr hd

/-- Resolving succeeds on sources that can be read and whose merge is valid, with the merge. -/
theorem resolve_eq_ok_iff {r : Resolved}
    (hobject : ∀ path ∈ o.paramsFile, ∀ text, fs.readText path = .ok text →
      ∃ listed, readMembers text = .ok listed) : o.resolve fs = .ok r ↔
    ∃ listed policy, Sources o fs r.preset listed policy ∧
      Merged o r.preset listed policy r.params ∧ r.params.validate = .ok () := by
  have hresolve : o.resolve fs = .ok r ↔ ∃ preset, o.choosePreset = .ok preset ∧
      ∃ base, o.fromFile fs preset = .ok base ∧ ∃ policy, o.choosePolicy = .ok policy ∧
        ((o.flags policy).withBase base).validate = .ok () ∧
          ⟨preset, (o.flags policy).withBase base⟩ = r := by
    simp only [resolve, bind_eq_ok, mapError_eq_ok, pure_eq_ok, flags, Unique.exists_iff]
  rw [hresolve]
  constructor
  · rintro ⟨preset, hpreset, base, hbase, policy, hpolicy, hvalid, rfl⟩
    obtain ⟨listed, hfile, d, hd, rfl⟩ := (fromFile_eq_ok hobject).mp hbase
    refine ⟨listed, policy, ⟨choosePreset_eq_ok.mp hpreset, hfile, ?_, ?_⟩, ?_, hvalid⟩
    · exact Params.Draft.ofFields_isOk_iff.mp ⟨d, hd⟩
    · exact choosePolicy_eq_ok.mp hpolicy
    · exact (merged_iff (Params.Draft.layers_of_ofFields hd)).mpr rfl
  · rintro ⟨listed, policy, hsources, hmerged, hvalid⟩
    obtain ⟨d, hd⟩ := Params.Draft.ofFields_isOk_iff.mpr hsources.typed
    have hparams := (merged_iff (Params.Draft.layers_of_ofFields hd)).mp hmerged
    refine ⟨r.preset, choosePreset_eq_ok.mpr hsources.preset, d.withBase r.preset.params,
      (fromFile_eq_ok hobject).mpr ⟨listed, hsources.file, d, hd, rfl⟩, policy,
      choosePolicy_eq_ok.mpr hsources.policy, hparams ▸ hvalid, ?_⟩
    rw [← hparams]

/-- Sources that can be read have one merge. -/
theorem Sources.merge (h : Sources o fs preset listed policy) :
    ∃! p, Merged o preset listed policy p := by
  obtain ⟨d, hd⟩ := Params.Draft.ofFields_isOk_iff.mpr h.typed
  have hlayers := Params.Draft.layers_of_ofFields hd
  exact ⟨_, (merged_iff hlayers).mpr rfl, fun p hp => (merged_iff hlayers).mp hp⟩

/-- Sources that can be read have one merge. Resolving succeeds exactly where it is valid, with the
merge as the result, which can be swept. -/
theorem resolve_merged [MathLibrary] (o : Overrides) (fs : Files)
    (hobject : ∀ path ∈ o.paramsFile, ∀ text, fs.readText path = .ok text →
      ∃ listed, readMembers text = .ok listed) :
    (∀ preset listed policy, Sources o fs preset listed policy →
      ∃! p, Merged o preset listed policy p) ∧
    (∀ r, o.resolve fs = .ok r ↔ ∃ listed policy, Sources o fs r.preset listed policy ∧
      Merged o r.preset listed policy r.params ∧ r.params.validate = .ok ()) ∧
    ∀ r, o.resolve fs = .ok r → ∃ s, Sweep.run r.params = .ok s := by
  refine ⟨fun _ _ _ => Sources.merge, fun r => resolve_eq_ok_iff hobject, fun r hr => ?_⟩
  obtain ⟨listed, policy, -, -, hvalid⟩ := (resolve_eq_ok_iff hobject).mp hr
  exact ⟨_, Sweep.run_eq_grid hvalid⟩

/-- A file with no capacity to speak of, two values for the items, and a field that is not known. -/
def lateItems : Members :=
  [("capacity", .ofNat 0), ("items", .ofNat 7), ("note", .arr []), ("items", .ofNat 9),
    ("tail_policy", .str "literal")]

def lateText : String := (Json.obj lateItems).toCompact

/-- Each member of the file with its last value. -/
theorem exists_lateItems : ∃ listed, readMembers lateText = .ok listed ∧
    ∀ name, last? name listed = last? name lateItems := by
  have hread : Readable maxLevels (.obj lateItems) := by
    refine .obj ?_
    simp only [lateItems, List.mem_cons, List.not_mem_nil, or_false, forall_eq_or_imp, forall_eq]
    exact ⟨readable_ofNat (by decide), readable_ofNat (by decide), .arr (by simp),
      readable_ofNat (by decide), .text _⟩
  have hparse : parse lateText = .ok (.obj (sortFields lateItems)) := hread.parse_toCompact
  obtain ⟨listed, hlisted, hsort⟩ := parse_eq_obj.mp hparse
  refine ⟨listed, hlisted, fun name => ?_⟩
  rw [← field?_sortFields, hsort, field?_sortFields]

theorem typed_lateItems (name : String) (v : Json) (h : last? name lateItems = some v) :
    Params.Typed name v := by
  have hmem : (name, v) ∈ lateItems := List.mem_reverse.mp (Fields.mem_of_lookup h)
  simp only [lateItems, List.mem_cons, List.not_mem_nil, or_false, Prod.mk.injEq] at hmem
  rcases hmem with ⟨rfl, rfl⟩ | ⟨rfl, rfl⟩ | ⟨rfl, rfl⟩ | ⟨rfl, rfl⟩ | ⟨rfl, rfl⟩
  · exact ⟨0, rfl⟩
  · exact ⟨7, rfl⟩
  · trivial
  · exact ⟨9, rfl⟩
  · exact ⟨.literal, .inl rfl⟩

/-- A flag for the capacity keeps the zero in the file from harm. -/
theorem resolve_merged_over_zero : ∃ (o : Overrides) (fs : Files), o.paramsFile = some "p.json" ∧
    fs.readText "p.json" = .ok lateText ∧ o.capacity = some 5 ∧
    o.resolve fs = .ok ⟨.deployment, ⟨5, 9, 262, 18, 1000, .literal⟩⟩ ∧
    ∃ s, Sweep.run ⟨5, 9, 262, 18, 1000, .literal⟩ = .ok s := by
  let o : Overrides :=
    { empty with preset := some " Deployed", paramsFile := some "p.json", capacity := some 5 }
  let fs : Files := ⟨[], [(["p.json"], .file lateText.toUTF8)]⟩
  obtain ⟨listed, hlisted, hlast⟩ := exists_lateItems
  have hnames : Files.Names fs "p.json" ["p.json"] := ⟨by decide +kernel, by decide +kernel⟩
  have hread : fs.readText "p.json" = .ok lateText := Files.readText_of_read (hnames.read rfl)
  have hobject : ∀ path ∈ o.paramsFile, ∀ text, fs.readText path = .ok text →
      ∃ listed, readMembers text = .ok listed := by
    intro path hpath text htext
    obtain rfl : "p.json" = path := Option.some.inj hpath
    obtain rfl : lateText = text := Except.ok.inj (hread.symm.trans htext)
    exact ⟨listed, hlisted⟩
  obtain ⟨-, hiff, hrun⟩ := resolve_merged o fs hobject
  have hsources : o.Sources fs .deployment listed none := by
    refine ⟨rfl, ⟨lateText, hread, hlisted⟩, fun name v hv => ?_, rfl⟩
    rw [hlast] at hv
    exact typed_lateItems name v hv
  have hmerged : o.Merged .deployment listed none ⟨5, 9, 262, 18, 1000, .literal⟩ := by
    constructor <;> rw [hlast]
    · rfl
    · rfl
    · rfl
    · rfl
    · rfl
    · exact .inl rfl
  have hresolve := (hiff ⟨.deployment, ⟨5, 9, 262, 18, 1000, .literal⟩⟩).mpr
    ⟨listed, none, hsources, hmerged, rfl⟩
  exact ⟨o, fs, rfl, hread, rfl, hresolve, hrun _ hresolve⟩

end Overrides
end BucketOverflow
