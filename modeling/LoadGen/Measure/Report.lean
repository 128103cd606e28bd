import LoadGen.Decimal.Fixed
import LoadGen.Json.Printer
import LoadGen.Json.Reader
import LoadGen.Measure.Board
import LoadGen.Text.Lines

namespace LoadGen

/-- The figures of one metric of one phase. -/
structure Row where
  phase : String
  metric : String
  summary : Summary

namespace Row

def fieldNames : List String := ["phase", "metric", "summary"]

def ofJson? (j : Json) : Option Row := do
  let r ← Record.ofJson? fieldNames j
  return {
    phase := ← r.required "phase" Json.text?
    metric := ← r.required "metric" Json.text?
    summary := ← r.required "summary" Summary.ofJson?
  }

def toJson (r : Row) : Json :=
  .ofFields [("phase", .text r.phase), ("metric", .text r.metric), ("summary", r.summary.toJson)]

def agrees (a b : Row) : Bool :=
  a.phase == b.phase && a.metric == b.metric && a.summary.agrees b.summary

def rateText (rate : Float) : String :=
  if rate < 10000.0 then Decimal.twoPlaces rate ++ " req/s"
  else if rate < 10000000.0 then Decimal.twoPlaces (rate / 1000.0) ++ "k req/s"
  else Decimal.twoPlaces (rate / 1000000.0) ++ "M req/s"

/-- Responses per second over the interval of the row, which lasts until now while it is open. -/
def throughput (r : Row) (now : Nat) : String :=
  let stop := r.summary.stop.getD now
  if stop ≤ r.summary.start then "<none>"
  else rateText
    (1000.0 * Histogram.ofNat r.summary.responses / Histogram.ofNat (stop - r.summary.start))

/-- Nanoseconds as milliseconds with two decimal places. -/
def millisText (nanos : Float) : String := Decimal.twoPlaces (nanos / 1000000.0)

def line (r : Row) (now : Nat) : String :=
  let s := r.summary
  r.phase ++ "/" ++ r.metric ++ ": " ++ toString s.requests ++ " requests, " ++
    toString s.responses ++ " responses, mean " ++ millisText s.mean ++ " ms, p50 " ++
    millisText (Histogram.ofNat s.p50) ++ " ms, p99 " ++ millisText (Histogram.ofNat s.p99) ++
    " ms, " ++ toString s.timeouts ++ " timeouts, " ++ toString s.connectionErrors ++
    " errors, " ++ toString s.invalid ++ " invalid, " ++ r.throughput now

end Row

/-- One row for each phase and metric, by phase and then by metric. -/
structure Report where
  rows : List Row

namespace Report

/-- Adds a snapshot to the bucket of its phase and metric. -/
def gather (d : Dict (Dict Bucket)) (s : Snapshot) : Except Panic (Dict (Dict Bucket)) := do
  let metrics := (d.get? s.phase).getD .empty
  let bucket ← match metrics.get? s.metric with
    | some b => b.merge s.bucket
    | none => .ok s.bucket
  return d.insert s.phase (metrics.insert s.metric bucket)

def ofBuckets (d : Dict (Dict Bucket)) : Report :=
  ⟨d.entries.flatMap fun (phase, metrics) =>
    metrics.entries.map fun (metric, bucket) => ⟨phase, metric, bucket.summary⟩⟩

def ofSnapshots (snapshots : List Snapshot) : Except Panic Report := do
  return ofBuckets (← snapshots.foldlM gather .empty)

def ofJson? (j : Json) : Option Report := do
  let r ← Record.ofJson? ["rows"] j
  let items ← r.required "rows" Json.list?
  return ⟨← items.mapM Row.ofJson?⟩

def toJson (r : Report) : Json := .ofFields [("rows", .list (r.rows.map Row.toJson))]

/-- Whether reading the written report gives back the same rows. -/
def survivesJson (r : Report) : Bool :=
  match (Json.parse? r.toJson.render).bind ofJson? with
  | some again =>
    r.rows.length == again.rows.length && (r.rows.zip again.rows).all fun (a, b) => a.agrees b
  | none => false

/-- What is printed of the report: a line for each row, or more where a name has line breaks. -/
def lines (r : Report) (now : Nat) : List String :=
  Text.lines (String.join (r.rows.map fun row => row.line now ++ "\n"))

end Report
end LoadGen
