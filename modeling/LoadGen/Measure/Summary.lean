import LoadGen.Json.Record

namespace LoadGen

/-- Counts and times of one metric over an interval. Times within it are in nanoseconds. -/
structure Summary where
  start : Nat
  stop : Option Nat
  requests : Nat
  responses : Nat
  timeouts : Nat
  invalid : Nat
  connectionErrors : Nat
  blocked : Nat
  min : Nat
  max : Nat
  mean : Float
  p50 : Nat
  p90 : Nat
  p99 : Nat
  p999 : Nat

namespace Summary

def fieldNames : List String :=
  ["start_millis", "end_millis", "requests", "responses", "timeouts", "invalid",
   "connection_errors", "blocked_nanos", "min_nanos", "max_nanos", "mean_nanos", "p50_nanos",
   "p90_nanos", "p99_nanos", "p999_nanos"]

def ofJson? (j : Json) : Option Summary := do
  let r ← Record.ofJson? fieldNames j
  return {
    start := ← r.required "start_millis" Json.word?
    stop := ← r.optional "end_millis" Json.word?
    requests := ← r.required "requests" Json.word?
    responses := ← r.required "responses" Json.word?
    timeouts := ← r.required "timeouts" Json.word?
    invalid := ← r.required "invalid" Json.word?
    connectionErrors := ← r.required "connection_errors" Json.word?
    blocked := ← r.required "blocked_nanos" Json.word?
    min := ← r.required "min_nanos" Json.word?
    max := ← r.required "max_nanos" Json.word?
    mean := ← r.required "mean_nanos" Json.float?
    p50 := ← r.required "p50_nanos" Json.word?
    p90 := ← r.required "p90_nanos" Json.word?
    p99 := ← r.required "p99_nanos" Json.word?
    p999 := ← r.required "p999_nanos" Json.word?
  }

def toJson (s : Summary) : Json := .ofFields [
  ("start_millis", .ofNat s.start), ("end_millis", .ofOption .ofNat s.stop),
  ("requests", .ofNat s.requests), ("responses", .ofNat s.responses),
  ("timeouts", .ofNat s.timeouts), ("invalid", .ofNat s.invalid),
  ("connection_errors", .ofNat s.connectionErrors), ("blocked_nanos", .ofNat s.blocked),
  ("min_nanos", .ofNat s.min), ("max_nanos", .ofNat s.max), ("mean_nanos", .float s.mean),
  ("p50_nanos", .ofNat s.p50), ("p90_nanos", .ofNat s.p90), ("p99_nanos", .ofNat s.p99),
  ("p999_nanos", .ofNat s.p999)]

/-- Equality of all figures; a mean that is no number equals nothing. -/
def agrees (a b : Summary) : Bool :=
  a.start == b.start && a.stop == b.stop && a.requests == b.requests &&
    a.responses == b.responses && a.timeouts == b.timeouts && a.invalid == b.invalid &&
    a.connectionErrors == b.connectionErrors && a.blocked == b.blocked && a.min == b.min &&
    a.max == b.max && a.mean == b.mean && a.p50 == b.p50 && a.p90 == b.p90 && a.p99 == b.p99 &&
    a.p999 == b.p999

end Summary
end LoadGen
