import BucketOverflow.Binary64.Elementary
import BucketOverflow.Decimal.Layout
import BucketOverflow.Sweep.Basic
import BucketOverflow.Text.Blank

/-!
A plain-text chart of probabilities against depth on a decimal logarithmic axis: one glyph for each
series and a column three characters wide for each depth. Only positive finite values have a place
on it.
-/
namespace BucketOverflow
open Text Binary64

variable [MathLibrary]

/-- Probabilities by depth under a legend label. -/
structure ChartSeries where
  label : String
  values : List Binary64

/-- A depth whose label runs over the end of the line below the axis, and the width of that line. -/
structure ChartFault where
  depth : Nat
  width : Nat
deriving DecidableEq

def ChartFault.message (f : ChartFault) : String :=
  "no room for the label of depth " ++ String.ofList (decimal f.depth) ++ " on a line of "
    ++ String.ofList (decimal f.width) ++ " characters"

/-- The probabilities of a sweep, labelled by its hop budget. -/
def Sweep.series (s : Sweep) : ChartSeries :=
  ⟨"ΔExp=" ++ String.ofList (decimal s.params.hopBudget.toNat), s.probabilities⟩

namespace Chart

def glyphs : List Char := ['*', 'o', '+', 'x', '#', '@']

/-- The mark of the series with this index; marks repeat. -/
def glyph (i : Nat) : Char := glyphs.getD (i % glyphs.length) ' '

def overlap : Char := '&'
def labelWidth : Nat := 8
def columnWidth : Nat := 3
def tickEvery : Nat := 5

def isPlotted (v : Binary64) : Bool := decide (zero false < v) && v.isFinite

/-- Whether there is anything to plot. -/
def isPlottable (series : List ChartSeries) : Bool := series.any fun s => s.values.any isPlotted

/-- The number of depths of the longest series. -/
def depthCount (series : List ChartSeries) : Nat :=
  (series.map (·.values.length)).foldl Nat.max 0

/-- The decimal logarithms of what is plotted. -/
def logs (series : List ChartSeries) : List Binary64 :=
  ((series.flatMap (·.values)).filter isPlotted).map log10

/-- The ends of the axis and its height in lines. -/
structure Axis where
  low : Binary64
  high : Binary64
  rows : Nat

namespace Axis

/-- Whole numbers around all logarithms, at least one apart, on at least two lines. -/
def around (logs : List Binary64) (rows : Nat) : Axis :=
  let high := (logs.foldl Binary64.max (inf true)).ceil
  let low := (logs.foldl Binary64.min (inf false)).floor
  ⟨if high ≤ low then high - one else low, high, Nat.max rows 2⟩

/-- The line of a logarithm, counted from the top. -/
def row (a : Axis) (log : Binary64) : Nat :=
  let frac := (a.high - log) / (a.high - a.low)
  Nat.min (frac * ofNat (a.rows - 1)).roundToNat (a.rows - 1)

/-- The logarithm written beside a line. -/
def valueAt (a : Axis) (r : Nat) : Binary64 :=
  a.high - (a.high - a.low) * ofNat r / ofNat (a.rows - 1)

/-- Labels stand beside the first, the middle and the last line. -/
def label (a : Axis) (r : Nat) : List Char :=
  if r = 0 || r = (a.rows - 1) / 2 || r = a.rows - 1 then
    (a.valueAt r).signed [] (fixedPlaces 1)
  else []

end Axis

/-- A mark put over what a cell shows. -/
def mark (shown new : Char) : Char :=
  if shown = ' ' || shown = new then new else overlap

/-- The lines of a series' points by depth. -/
def points (a : Axis) (s : ChartSeries) : Array (Option Nat) :=
  (s.values.map fun v => if isPlotted v then some (a.row v.log10) else none).toArray

/-- The points of all series at one depth. -/
def column (pts : List (Array (Option Nat))) (depth : Nat) : List (Option Nat) :=
  pts.map fun p => (p[depth]?).join

/-- What a line shows in a column: the marks of the points on it, in the order of the series. -/
def cell (r : Nat) (col : List (Option Nat)) : Char :=
  col.zipIdx.foldl (fun shown p => if p.1 = some r then mark shown (glyph p.2) else shown) ' '

def gridLine (a : Axis) (cols : List (List (Option Nat))) (r : Nat) : List Char :=
  padLeft labelWidth ' ' (a.label r) ++ [' ', '|']
    ++ trimRight (cols.flatMap fun col => [' ', cell r col, ' '])

/-- The depths that have a label below the axis. -/
def tickDepths (depths : Nat) : List Nat :=
  (List.range ((depths + tickEvery - 1) / tickEvery)).map (tickEvery * ·)

/-- The line of labels is as wide as the columns and one more of them. -/
def tickWidth (depths : Nat) : Nat := (depths + 1) * columnWidth

/-- A label starts below the middle of its column. -/
def tickStart (depth : Nat) : Nat := depth * columnWidth + 1

/-- The first label that does not fit on the line. -/
def tickFault? (depths : Nat) : Option ChartFault :=
  ((tickDepths depths).find? fun d => tickWidth depths < tickStart d + (decimal d).length).map
    fun d => ⟨d, tickWidth depths⟩

/-- The labels, each filled up to the start of the next. -/
def tickLine (depths : Nat) : List Char :=
  trimRight (' ' :: (tickDepths depths).flatMap fun d =>
    padRight (columnWidth * tickEvery) ' ' (decimal d))

def legend (series : List ChartSeries) : List Char :=
  [' ', ' '].intercalate (series.zipIdx.map fun (s, i) => glyph i :: ' ' :: s.label.toList)

/-- What a series leaves off the plot because it has no logarithm. -/
def omission (s : ChartSeries) : List (List Char) :=
  let n := (s.values.filter fun v => !decide (zero false < v)).length
  if n = 0 then []
  else ["note: ".toList ++ s.label.toList ++ " has ".toList ++ decimal n
    ++ " depth(s) with P = 0 (not plotted)".toList]

/-- The lines of a chart. -/
def lines (series : List ChartSeries) (title : String) (rows : Nat) : List (List Char) :=
  if !isPlottable series then [title.toList, "(no positive probabilities to plot)".toList]
  else
    let a := Axis.around (logs series) rows
    let depths := depthCount series
    let pts := series.map (points a)
    let cols := (List.range depths).map (column pts)
    let blank := List.replicate labelWidth ' '
    [title.toList, "log10 P(load > Z)".toList]
      ++ (List.range a.rows).map (gridLine a cols)
      ++ [blank ++ ' ' :: '+' :: List.replicate (depths * columnWidth) '-',
        blank ++ ' ' :: ' ' :: tickLine depths,
        blank ++ "  Depth (d)".toList,
        "Legend: ".toList ++ legend series]
      ++ (if 1 < series.length then [blank ++ overlap :: " overlapping series".toList] else [])
      ++ series.flatMap omission

/-- The lines of a chart, each ended. -/
def text (series : List ChartSeries) (title : String) (rows : Nat) : String :=
  String.ofList ((lines series title rows).flatMap (· ++ ['\n']))

/-- The chart, unless the label of a depth has no room. -/
def render (series : List ChartSeries) (title : String) (rows : Nat) : Except ChartFault String :=
  match if isPlottable series then tickFault? (depthCount series) else none with
  | some f => .error f
  | none => .ok (text series title rows)

end Chart
end BucketOverflow
