import BucketOverflow.HopBudgets

/-!
Parameters from three sources: a named preset, a JSON file over it, and single values over both.
-/
namespace BucketOverflow

/-- Parameter values as a command line gives them. -/
structure Overrides where
  preset : Option String
  paramsFile : Option String
  capacity : Option UInt64
  items : Option UInt64
  paths : Option UInt64
  maxDepth : Option UInt32
  hopBudget : Option UInt32
  tailPolicy : Option String

/-- Parameters and the preset that they started from. -/
structure Resolved where
  preset : Preset
  params : Params

namespace Overrides

def empty : Overrides := ⟨none, none, none, none, none, none, none, none⟩

/-- The preset that is named, the analysed one by default. -/
def choosePreset (o : Overrides) : Except ParamFault Preset :=
  match o.preset with
  | some name => Preset.ofName name
  | none => .ok .analysis

/-- The preset's parameters under those of the file. -/
def fromFile (o : Overrides) (fs : Files) (preset : Preset) : Except ResolveFault Params :=
  match o.paramsFile with
  | some path => (Params.loadOver preset.params fs path).mapError (.paramsFile path)
  | none => .ok preset.params

/-- The tail policy that is named. -/
def choosePolicy (o : Overrides) : Except ParamFault (Option TailPolicy) :=
  match o.tailPolicy with
  | some name => (TailPolicy.ofName name).map some
  | none => .ok none

/-- The parameters, validated. -/
def resolve (o : Overrides) (fs : Files) : Except ResolveFault Resolved := do
  let preset ← o.choosePreset.mapError .param
  let base ← o.fromFile fs preset
  let policy ← o.choosePolicy.mapError .param
  let draft : Params.Draft := ⟨o.capacity, o.items, o.paths, o.maxDepth, o.hopBudget, policy⟩
  let params := draft.withBase base
  params.validate.mapError .param
  return ⟨preset, params⟩

end Overrides
end BucketOverflow
