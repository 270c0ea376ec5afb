import BucketOverflow.Params.Json
import BucketOverflow.Sweep.Basic

/-!
Sweeps in JSON.
-/
namespace BucketOverflow

def Peak.toJson (p : Peak) : Json :=
  .obj [("depth", .ofNat p.depth), ("probability", .ofBinary64 p.probability),
    ("expected_load", .ofBinary64 p.load)]

namespace Sweep

def toJson (s : Sweep) : Json :=
  .obj [("params", s.params.toJson),
    ("expected_loads", .arr (s.loads.map .ofBinary64)),
    ("probabilities", .arr (s.probabilities.map .ofBinary64)),
    ("regimes", .arr (s.regimes.map fun r => .str r.name))]

/-- A sweep of which any part may be missing. -/
structure Draft where
  params : Option Params
  loads : Option (List Binary64)
  probabilities : Option (List Binary64)
  regimes : Option (List Regime)

open Json in
def schema : Schema Draft Sweep where
  kind := "struct DepthSweep"
  slots := [
    ⟨"params", (·.params.isSome), fun d cs => do
      let (p, r) ← record Params.schema cs; return ({ d with params := some p }, r)⟩,
    ⟨"expected_loads", (·.loads.isSome), fun d cs => do
      let (v, r) ← list binary64 cs; return ({ d with loads := some v }, r)⟩,
    ⟨"probabilities", (·.probabilities.isSome), fun d cs => do
      let (v, r) ← list binary64 cs; return ({ d with probabilities := some v }, r)⟩,
    ⟨"regimes", (·.regimes.isSome), fun d cs => do
      let (v, r) ← list (variant Regime.known) cs; return ({ d with regimes := some v }, r)⟩]
  empty := ⟨none, none, none, none⟩
  short := tooShort "struct DepthSweep" 4
  finish := fun d => do
    let params ← required "params" d.params
    let loads ← required "expected_loads" d.loads
    let probabilities ← required "probabilities" d.probabilities
    let regimes ← required "regimes" d.regimes
    return ⟨params, loads, probabilities, regimes⟩

/-- The sweep that a JSON text holds; its sequences may differ in length. -/
def ofText (text : String) : Except Json.Error Sweep := Json.readText (Json.record schema) text

end Sweep
end BucketOverflow
