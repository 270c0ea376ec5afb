import BucketOverflow.Json.Decode
import BucketOverflow.Params.Basic

/-!
Parameters in JSON. A document may leave fields out: an object's gaps are filled from a base set,
an array's from the analysed set.
-/
namespace BucketOverflow

/-- Parameters of which any may be missing. -/
structure Params.Draft where
  capacity : Option UInt64
  items : Option UInt64
  paths : Option UInt64
  maxDepth : Option UInt32
  hopBudget : Option UInt32
  tailPolicy : Option TailPolicy

namespace Params.Draft

def empty : Draft := ⟨none, none, none, none, none, none⟩

/-- The draft with its gaps filled. -/
def withBase (d : Draft) (base : Params) : Params where
  capacity := d.capacity.getD base.capacity
  items := d.items.getD base.items
  paths := d.paths.getD base.paths
  maxDepth := d.maxDepth.getD base.maxDepth
  hopBudget := d.hopBudget.getD base.hopBudget
  tailPolicy := d.tailPolicy.getD base.tailPolicy

/-- Takes in one named value; other names are passed over. -/
def set (d : Draft) (name : String) (v : Json) : Except Json.Cause Draft :=
  match name with
  | "capacity" => v.toNatural64.map fun n => { d with capacity := some (.ofNat n) }
  | "items" => v.toNatural64.map fun n => { d with items := some (.ofNat n) }
  | "paths" => v.toNatural64.map fun n => { d with paths := some (.ofNat n) }
  | "max_depth" => v.toNatural32.map fun n => { d with maxDepth := some (.ofNat n) }
  | "hop_budget" => v.toNatural32.map fun n => { d with hopBudget := some (.ofNat n) }
  | "tail_policy" => (v.toVariant TailPolicy.known).map fun t => { d with tailPolicy := some t }
  | _ => .ok d

/-- The names in the order of an array. -/
def names : List String := ["capacity", "items", "paths", "max_depth", "hop_budget", "tail_policy"]

def ofFields (fields : Json.Members) : Except Json.Cause Draft :=
  fields.foldlM (fun d f => d.set f.1 f.2) empty

def ofItems (items : List Json) : Except Json.Cause Draft := do
  let d ← ofFields (names.zip items)
  if names.length < items.length then
    .error (.invalidLength items.length "fewer elements in array")
  else return d

end Params.Draft

namespace Params

def kind : String := "struct ModelParams"

/-- The fields in their order. -/
def toJson (p : Params) : Json :=
  .obj [("capacity", .ofNat p.capacity.toNat), ("items", .ofNat p.items.toNat),
    ("paths", .ofNat p.paths.toNat), ("max_depth", .ofNat p.maxDepth.toNat),
    ("hop_budget", .ofNat p.hopBudget.toNat), ("tail_policy", .str p.tailPolicy.name)]

/-- Parameters from a document over a base set. -/
def ofJsonOver (base : Params) : Json → Except Json.Cause Params
  | .obj fields => (Draft.ofFields fields).map (·.withBase base)
  | .arr items => (Draft.ofItems items).map (·.withBase Preset.analysis.params)
  | j => j.wrongType kind

/-- Parameters from a JSON text over a base set; they are not validated. -/
def readOver (base : Params) (text : String) : Except Json.Error Params :=
  match Json.parse text with
  | .error e => .error e
  | .ok doc => (ofJsonOver base doc).mapError .unplaced

/-- Parameters from a JSON file over a base set. -/
def loadOver (base : Params) (fs : Files) (path : String) : Except ParamFault Params := do
  let text ← (fs.readText path).mapError .file
  (readOver base text).mapError .json

/-- The pretty JSON text. -/
def toText (p : Params) : String := p.toJson.toPretty

open Json in
/-- Parameters inside a larger text; gaps are filled from the analysed set. -/
def schema : Schema Draft Params where
  kind := kind
  slots := [
    ⟨"capacity", (·.capacity.isSome), fun d cs => do
      let (n, r) ← natural64 cs; return ({ d with capacity := some (.ofNat n) }, r)⟩,
    ⟨"items", (·.items.isSome), fun d cs => do
      let (n, r) ← natural64 cs; return ({ d with items := some (.ofNat n) }, r)⟩,
    ⟨"paths", (·.paths.isSome), fun d cs => do
      let (n, r) ← natural64 cs; return ({ d with paths := some (.ofNat n) }, r)⟩,
    ⟨"max_depth", (·.maxDepth.isSome), fun d cs => do
      let (n, r) ← natural32 cs; return ({ d with maxDepth := some (.ofNat n) }, r)⟩,
    ⟨"hop_budget", (·.hopBudget.isSome), fun d cs => do
      let (n, r) ← natural32 cs; return ({ d with hopBudget := some (.ofNat n) }, r)⟩,
    ⟨"tail_policy", (·.tailPolicy.isSome), fun d cs => do
      let (t, r) ← variant TailPolicy.known cs; return ({ d with tailPolicy := some t }, r)⟩]
  empty := .empty
  short := fun _ d => .ok d
  finish := fun d => .ok (d.withBase Preset.analysis.params)

end Params
end BucketOverflow
