import CarbonRelay.Router.Route
import Mathlib.Logic.Function.Basic

/-!
# The optimiser

`router_optimise` collects rules whose expressions end in the same letters into groups, so that one
look at a metric rules out all of a group. It walks through the rules and keeps a list of blocks,
linked in both directions: a block holds rules with a common tail, or one rule that cannot be in a
group. The blocks that a rule may still join are the ones behind `bstart`. A second walk makes the
new table of the blocks. The blocks are modelled with their links, by the number in which they were
allocated.
-/

namespace CarbonRelay

open Function

/-! ## The tail of an expression -/

/-- The characters of a tail. -/
def isTailChar (c : Char) : Bool := c.isAlpha ∨ c = '_'

/-- The backslashes in front of a parenthesis, read backwards: the text from the first other
character on, and whether the number of backslashes is odd. The first character of an expression is
not looked at. -/
def skipEscapes : Text → Bool → Text × Bool
  | c :: d :: s, esc => if c = '\\' then skipEscapes (d :: s) (!esc) else (c :: d :: s, esc)
  | s, esc => (s, esc)

/-- `router.c:1584`, the loop that strips off what cannot belong to a tail, with the number of open
parentheses. The text is the expression from `p` backwards to its start. As `bsum` is unsigned, it
is positive whenever it is not zero. -/
def stripTail : Nat → Int → Text → Text
  | n + 1, bsum, c :: d :: s =>
    if bsum ≠ 0 ∨ ¬ isTailChar c then
      if c = ')' ∨ c = '(' then
        let (s, esc) := skipEscapes (d :: s) false
        stripTail n (if esc then bsum else if c = ')' then bsum + 1 else bsum - 1) s
      else stripTail n bsum (d :: s)
    else c :: d :: s
  | _, _, s => s

/-- The size of `pblock`. A tail that fills it has its terminator written behind it. -/
def pblockSize : Nat := 64

/-- `router.c:1581`, the tail of an expression in reverse, if it is of any use. -/
def routeTail (pattern : Text) : Option Text :=
  let s := stripTail (pattern.length + 1) 0 ('\x00' :: pattern.reverse)
  if s.length ≤ 1 then none
  else
    let b := (s.takeWhile isTailChar).take pblockSize
    if b.length < 3 then none else some b

/-- `bsum` for a tail. -/
def tailSum (b : Text) : Nat := (b.map Char.toNat).sum

/-- The tail that decides which block a rule joins. Match-alls and rewrites are never in a group. -/
def Rule.tail (w : Rule) : Option Text :=
  match w.matchtype, w.dest with
  | .matchall, _ => none
  | _, .rewrite _ => none
  | _, _ => routeTail w.pattern

/-! ## Blocks -/

/-- `router.h struct _block`, without its links. The rules are those from `firstroute` to
`lastroute`. -/
structure Block where
  pattern : Option Text
  hash : Nat
  refcnt : Nat
  seqnr : Nat
  routes : List Rule
  deriving DecidableEq, Repr

/-- The blocks with their links, and the variables of the loop over the rules. `count` is the number
of blocks that were allocated; the first of them is a dummy. -/
structure Blocks where
  block : Nat → Block
  prev : Nat → Option Nat
  next : Nat → Option Nat
  count : Nat
  blast : Nat
  bstart : Option Nat
  rlast : Option Rule
  seq : Nat

/-- The start of the loop: the dummy. -/
def Blocks.init : Blocks where
  block _ := ⟨none, 0, 0, 0, []⟩
  prev _ := none
  next _ := none
  count := 1
  blast := 0
  bstart := some 0
  rlast := none
  seq := 1

/-- A new block behind the last one. -/
def Blocks.append (st : Blocks) (b : Block) : Blocks :=
  { st with
    block := update st.block st.count b
    prev := update st.prev st.count (some st.blast)
    next := update (update st.next st.blast (some st.count)) st.count none
    count := st.count + 1
    blast := st.count }

/-- A rule that cannot be in a group gets a block of its own, and the blocks in front of it are
closed. -/
def Blocks.addAlone (st : Blocks) (w : Rule) : Blocks :=
  let st := { st with seq := st.seq + 1 }.append ⟨none, 0, 1, st.seq, [w]⟩
  { st with bstart := some st.blast, rlast := none }

/-- `router.c:1677`, the search for the block with a tail, from a block on. A block without a
pattern has the hash zero, else it would be compared with a null pointer. -/
def Blocks.find (st : Blocks) (b : Text) : Nat → Option Nat → Option (Option Nat)
  | 0, _ => none
  | _ + 1, none => some none
  | n + 1, some i =>
    if (st.block i).hash ≠ tailSum b then st.find b n (st.next i)
    else
      match (st.block i).pattern with
      | none => none
      | some p => if p = b then some (some i) else st.find b n (st.next i)

/-- `router.c:1682`, a rule with a tail that no open block has. -/
def Blocks.addNew (st : Blocks) (w : Rule) (b : Text) : Blocks :=
  let st := st.append ⟨some b, tailSum b, 1, st.seq, [w]⟩
  if w.stop then { st with bstart := none, rlast := none, seq := st.seq + 1 } else st

/-- `router.c:1711`, a rule that joins a block. One with `stop` closes the blocks, and its block is
moved to the end. -/
def Blocks.join (st : Blocks) (w : Rule) (b : Text) (i : Nat) : Option Blocks :=
  let c := st.block i
  let c := { c with refcnt := c.refcnt + 1, routes := c.routes ++ [w] }
  let st := { st with block := update st.block i c }
  if st.rlast = none ∨ st.rlast.any (fun r => r.pattern = b) then
    if w.stop then
      let closed := fun st : Blocks =>
        { st with rlast := some w, bstart := none, seq := st.seq + 1 }
      match st.next i with
      | none => some (closed st)
      | some j =>
        match st.prev i with
        | none => none
        | some p =>
          let next := update st.next p (some j)
          let next := update next st.blast (some i)
          some (closed { st with blast := i, next := update next i none })
    else some st
  else some { st with bstart := some st.blast, rlast := none, seq := st.seq + 1 }

/-- One turn of the loop over the rules. -/
def Blocks.add (st : Blocks) (w : Rule) : Option Blocks :=
  match w.tail with
  | none => some (st.addAlone w)
  | some b =>
    match st.find b (st.count + 1) st.bstart with
    | none => none
    | some none => some (st.addNew w b)
    | some (some i) => st.join w b i

/-- The loop over the rules. -/
def Blocks.addAll : Blocks → List Rule → Option Blocks
  | st, [] => some st
  | st, w :: l =>
    match st.add w with
    | none => none
    | some st => st.addAll l

/-! ## The new table -/

/-- The result: the table, and whether the second walk lost track and left the rest of the blocks
out. -/
structure Optimised where
  routes : List Route
  lostTrack : Bool
  deriving DecidableEq, Repr

/-- `router.c:1745`, the walk over the blocks, with the sequence number it is at and the table so
far. -/
def reduceBlocks (block : Nat → Block) (next : Nat → Option Nat) :
    Nat → Nat → Option Nat → List Route → Option Optimised
  | 0, _, _, _ => none
  | _ + 1, _, none, routes => some ⟨routes, false⟩
  | n + 1, seq, some i, routes =>
    let b := block i
    if seq < b.seqnr then reduceBlocks block next n (seq + 1) (some i) routes
    else if b.seqnr < seq then some ⟨routes, true⟩
    else if b.refcnt = 0 then reduceBlocks block next n seq (next i) routes
    else if b.refcnt < 3 then
      reduceBlocks block next n seq (next i) (routes ++ b.routes.map .rule)
    else
      match b.pattern with
      | none => none
      | some name => reduceBlocks block next n seq (next i) (routes ++ [.group name b.routes])

/-- The dummy is put behind the last block, and the walk starts with the block that was behind it.
-/
def Blocks.reduce (st : Blocks) : Option Optimised :=
  let next := update st.next st.blast (some 0)
  let block := update st.block 0 { st.block 0 with seqnr := st.seq }
  reduceBlocks block (update next 0 none) (st.count + st.seq + 1) 1 (next 0) []

/-- `router.c:1510 router_optimise`. The threshold is compared as an unsigned number, so a negative
one is never reached. -/
def routerOptimise (threshold : Int) (routes : List Rule) : Option Optimised :=
  if threshold < 0 ∨ routes.length < threshold then some ⟨routes.map .rule, false⟩
  else
    match Blocks.init.addAll routes with
    | none => none
    | some st => st.reduce

end CarbonRelay
