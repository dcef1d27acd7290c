import CarbonRelay.Router.Matching
import CarbonRelay.Server.Basic

/-!
# Rewriting a metric

`router_rewrite_metric` builds a new line from a metric that matched: the path in front of the
match, the replacement with its references filled in, the rest of the path, and the data. The result
has to fit into a buffer.
-/

namespace CarbonRelay

/-- `router.c:2763 enum rewrite_case`. -/
inductive RewriteCase
  | retain
  | lower
  | upper
  | retainDot
  | lowerDot
  | upperDot
  deriving DecidableEq, Repr

/-- A character of a match as it is inserted. -/
def RewriteCase.apply : RewriteCase → Char → Char
  | .retain, c => c
  | .lower, c => c.toLower
  | .upper, c => c.toUpper
  | .retainDot, c => if c = '.' then '_' else c
  | .lowerDot, c => if c = '.' then '_' else c.toLower
  | .upperDot, c => if c = '.' then '_' else c.toUpper

/-- The variables of the loop over the replacement; `out` is what is in `newmetric` so far. -/
structure RewriteState where
  out : Text
  escape : Nat
  ref : Nat
  rcase : RewriteCase
  deriving DecidableEq, Repr

/-- Whether so many bytes more leave room in `newmetric`. The count is converted to an unsigned
number, where a negative one is too large. -/
def fitsIn (out : Text) (n : Int) : Bool := 0 ≤ out.length + n ∧ out.length + n < metricBufsiz

/-- The reference behind a backslash, filled in. -/
def insertRef (outside : Int → Char) (metric : Text) (nmatch : Nat) (pmatch : Nat → Span)
    (st : RewriteState) : Text :=
  let (so, eo) := pmatch st.ref
  if 0 < st.ref ∧ st.ref ≤ nmatch ∧ 0 ≤ so ∧ fitsIn st.out (eo - so) then
    st.out ++ (slice outside metric so eo).map st.rcase.apply
  else st.out

/-- One turn of the loop over the replacement. -/
def rewriteChar (outside : Int → Char) (metric : Text) (nmatch : Nat) (pmatch : Nat → Span)
    (st : RewriteState) (c : Char) : RewriteState :=
  if c = '\\' ∧ st.escape = 0 then { st with escape := 1, rcase := .retain }
  else if st.escape = 1 ∧ st.rcase = .retain ∧ c = '_' then { st with rcase := .lower }
  else if st.escape = 1 ∧ st.rcase = .retain ∧ c = '^' then { st with rcase := .upper }
  else if st.escape = 1 ∧ c = '.' then
    { st with rcase := match st.rcase with
        | .lower => .lowerDot
        | .upper => .upperDot
        | _ => .retainDot }
  else if st.escape ≠ 0 ∧ c.isDigit then
    { st with escape := 2, ref := st.ref * 10 + (c.toNat - 48) }
  else
    let st := if st.escape ≠ 0 then
        { st with out := insertRef outside metric nmatch pmatch st, ref := 0 }
      else st
    -- behind another backslash the escape goes on
    if c = '\\' then st
    else
      { st with
        escape := 0
        rcase := .retain
        out := if st.out.length + 1 < metricBufsiz then st.out ++ [c] else st.out }

/-- `router.c:2748 router_rewrite_metric`: the new line and the position of its first space, if it
fits. The loop runs over the terminator of the replacement as well, which is then taken off again.
-/
def routerRewriteMetric (outside : Int → Char) (metric : Text) (firstspace : Nat)
    (replacement : Text) (nmatch : Nat) (pmatch : Nat → Span) : Option (Text × Nat) :=
  let (so, eo) := pmatch 0
  if ¬ fitsIn [] so then none
  else
    let st := (replacement ++ ['\x00']).foldl (rewriteChar outside metric nmatch pmatch)
      { out := slice outside metric 0 so, escape := 0, ref := 0, rcase := .retain }
    let out := st.out.dropLast
    if ¬ fitsIn out (firstspace - eo) then none
    else
      let out := out ++ slice outside metric eo firstspace
      let data := metric.drop firstspace
      if out.length + data.length < metricBufsiz then some (out ++ data, out.length) else none

end CarbonRelay
