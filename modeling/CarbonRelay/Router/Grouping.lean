import CarbonRelay.Router.Optimise
import CarbonRelay.Lib.FreePerm
import CarbonRelay.Lib.Linked

/-!
# What the optimiser does to a table

The list of blocks that the optimiser keeps is read as a `Grouping`: cells of rules, of which some
at the end may be open. `Grouping.Adds` says what a rule can do to a grouping. The rules of a
grouping are those of the table, rearranged around the rules that stop or are not in a group
(`Grouping.Holds.adds`).
-/

namespace CarbonRelay

open List Option

/-! ## Groupings -/

/-- Some rules next to each other: with a common tail, or one rule without. -/
structure Cell where
  tail : Option Text
  seqnr : Nat
  routes : List Rule
  deriving DecidableEq, Repr

/-- A rule joins a cell. -/
def Cell.push (c : Cell) (w : Rule) : Cell := { c with routes := c.routes ++ [w] }

/-- The cells in their order. A rule can join one of those that are open, if any are. -/
structure Grouping where
  closed : List Cell
  opened : Option (List Cell)
  seq : Nat

/-- All cells. -/
def Grouping.cells (g : Grouping) : List Cell := g.closed ++ g.opened.getD []

/-- What a rule does to a grouping. -/
inductive Grouping.Adds : Grouping → Rule → Grouping → Prop
  | alone {closed : List Cell} {opened : Option (List Cell)} {seq : Nat} {w : Rule} :
      w.tail = none →
      Grouping.Adds ⟨closed, opened, seq⟩ w
        ⟨closed ++ opened.getD [] ++ [⟨none, seq, [w]⟩], some [], seq + 1⟩
  | shut {closed : List Cell} {seq : Nat} {w : Rule} {b : Text} : w.tail = some b →
      Grouping.Adds ⟨closed, none, seq⟩ w
        ⟨closed ++ [⟨some b, seq, [w]⟩], none, if w.stop then seq + 1 else seq⟩
  | new {closed l : List Cell} {seq : Nat} {w : Rule} {b : Text} : w.tail = some b →
      w.stop = false →
      Grouping.Adds ⟨closed, some l, seq⟩ w ⟨closed, some (l ++ [⟨some b, seq, [w]⟩]), seq⟩
  | newStop {closed l : List Cell} {seq : Nat} {w : Rule} {b : Text} : w.tail = some b →
      w.stop = true →
      Grouping.Adds ⟨closed, some l, seq⟩ w ⟨closed ++ l ++ [⟨some b, seq, [w]⟩], none, seq + 1⟩
  | join {closed l m : List Cell} {c : Cell} {seq : Nat} {w : Rule} : w.tail = c.tail →
      c.tail ≠ none → w.stop = false →
      Grouping.Adds ⟨closed, some (l ++ c :: m), seq⟩ w ⟨closed, some (l ++ c.push w :: m), seq⟩
  | joinStop {closed l m : List Cell} {c : Cell} {seq : Nat} {w : Rule} : w.tail = c.tail →
      c.tail ≠ none → w.stop = true →
      Grouping.Adds ⟨closed, some (l ++ c :: m), seq⟩ w
        ⟨closed ++ (l ++ m ++ [c.push w]), none, seq + 1⟩

/-- A rule that the others must not change places with. -/
def Rule.Special (w : Rule) : Prop := w.stop = true ∨ w.tail = none

/-- The rules of some cells. -/
def flattenCells (l : List Cell) : List Rule := l.flatMap Cell.routes

/-- A cell is made of rules with its tail, or is one rule. -/
structure Cell.Ok (c : Cell) : Prop where
  tails : ∀ w ∈ c.routes, w.tail = c.tail
  alone : c.tail = none → c.routes.length = 1
  nonempty : c.routes ≠ []

/-- What holds of a grouping that was made from rules: it is a rearrangement of them around the
special ones, and the numbers of the cells go up. -/
structure Grouping.Holds (g : Grouping) (rules : List Rule) : Prop where
  perm : FreePerm Rule.Special rules (flattenCells g.cells)
  free : ∀ c ∈ g.opened.getD [], ∀ w ∈ c.routes, ¬ w.Special
  ok : ∀ c ∈ g.cells, c.Ok
  sorted : (g.closed.map Cell.seqnr).Pairwise (· ≤ ·)
  pos : 1 ≤ g.seq ∧ ∀ c ∈ g.closed, 1 ≤ c.seqnr
  le : ∀ c ∈ g.closed, c.seqnr ≤ g.seq
  current : ∀ c ∈ g.opened.getD [], c.seqnr = g.seq

section
variable {g g' : Grouping} {w : Rule} {rules : List Rule} {l m : List Cell} {c : Cell} {seq : Nat}

theorem flattenCells_append : flattenCells (l ++ m) = flattenCells l ++ flattenCells m :=
  flatMap_append

theorem flattenCells_cons : flattenCells (c :: l) = c.routes ++ flattenCells l := flatMap_cons

theorem mem_flattenCells : w ∈ flattenCells l ↔ ∃ c ∈ l, w ∈ c.routes := mem_flatMap

theorem Cell.Ok.single (t : Option Text) (seq : Nat) (h : w.tail = t) : Cell.Ok ⟨t, seq, [w]⟩ where
  tails v hv := by rw [mem_singleton.1 hv, h]
  alone _ := rfl
  nonempty := cons_ne_nil w []

theorem Cell.Ok.push (hc : c.Ok) (h : w.tail = c.tail) (htail : c.tail ≠ none) : (c.push w).Ok where
  tails v hv := by
    rcases mem_append.1 hv with hv | hv
    · exact hc.tails v hv
    · rw [mem_singleton.1 hv]
      exact h
  alone hnone := absurd hnone htail
  nonempty := by simp [Cell.push]

/-- The numbers go up when cells with the current number are put behind closed ones. -/
theorem pairwise_append_current (hsorted : (l.map Cell.seqnr).Pairwise (· ≤ ·))
    (hle : ∀ c ∈ l, c.seqnr ≤ seq) (hm : ∀ c ∈ m, c.seqnr = seq) :
    ((l ++ m).map Cell.seqnr).Pairwise (· ≤ ·) := by
  rw [map_append, pairwise_append]
  refine ⟨hsorted, ?_, ?_⟩
  · rw [pairwise_map]
    refine pairwise_of_forall_mem_list fun c hc d hd => ?_
    rw [hm c hc, hm d hd]
  · simp only [List.mem_map]
    rintro _ ⟨c, hc, rfl⟩ _ ⟨d, hd, rfl⟩
    rw [hm d hd]
    exact hle c hc

theorem Grouping.Holds.sorted_cells (h : g.Holds rules) :
    (g.cells.map Cell.seqnr).Pairwise (· ≤ ·) :=
  pairwise_append_current h.sorted h.le h.current

/-- A rule in a cell of its own behind all others. -/
theorem Grouping.Holds.perm_append (h : g.Holds rules) (t : Option Text) :
    FreePerm Rule.Special (rules ++ [w]) (flattenCells (g.cells ++ [⟨t, g.seq, [w]⟩])) := by
  rw [flattenCells_append]
  exact h.perm.append_right [w]

/-- The same when all cells are closed. -/
theorem Grouping.Holds.close (h : g.Holds rules) {t : Option Text} (hw : w.tail = t) {seq' : Nat}
    (hseq : g.seq ≤ seq') {opened : Option (List Cell)} (hopened : opened.getD [] = []) :
    Grouping.Holds ⟨g.cells ++ [⟨t, g.seq, [w]⟩], opened, seq'⟩ (rules ++ [w]) := by
  have hlast : ∀ c ∈ g.opened.getD [] ++ [⟨t, g.seq, [w]⟩], c.seqnr = g.seq := by
    intro c hc
    rcases mem_append.1 hc with hc | hc
    · exact h.current c hc
    · rw [mem_singleton.1 hc]
  have hcells : ∀ c ∈ g.cells, 1 ≤ c.seqnr ∧ c.seqnr ≤ g.seq := by
    intro c hc
    rcases mem_append.1 hc with hc | hc
    · exact ⟨h.pos.2 c hc, h.le c hc⟩
    · rw [h.current c hc]
      exact ⟨h.pos.1, Nat.le_refl _⟩
  refine ⟨?_, ?_, ?_, ?_, ⟨h.pos.1.trans hseq, ?_⟩, ?_, ?_⟩
  · rw [Grouping.cells, hopened, append_nil]
    exact h.perm_append t
  · rw [hopened]
    nofun
  · intro c hc
    rw [Grouping.cells, hopened, append_nil] at hc
    rcases mem_append.1 hc with hc | hc
    · exact h.ok c hc
    · rw [mem_singleton.1 hc]
      exact .single t g.seq hw
  · rw [Grouping.cells, append_assoc]
    exact pairwise_append_current h.sorted h.le hlast
  · intro c hc
    rcases mem_append.1 hc with hc | hc
    · exact (hcells c hc).1
    · rw [mem_singleton.1 hc]
      exact h.pos.1
  · intro c hc
    rcases mem_append.1 hc with hc | hc
    · exact (hcells c hc).2.trans hseq
    · rw [mem_singleton.1 hc]
      exact hseq
  · rw [hopened]
    nofun

/-- A rule that does not stop in an open cell of its own. -/
theorem Grouping.Holds.openNew {closed : List Cell} {b : Text}
    (h : Grouping.Holds ⟨closed, some l, seq⟩ rules) (hw : w.tail = some b)
    (hstop : w.stop = false) :
    Grouping.Holds ⟨closed, some (l ++ [⟨some b, seq, [w]⟩]), seq⟩ (rules ++ [w]) := by
  refine ⟨?_, ?_, ?_, h.sorted, h.pos, h.le, ?_⟩
  · have hperm : FreePerm Rule.Special (rules ++ [w])
        (flattenCells (closed ++ l ++ [⟨some b, seq, [w]⟩])) := h.perm_append (some b)
    rw [append_assoc] at hperm
    exact hperm
  · intro c hc v hv
    rcases mem_append.1 hc with hc | hc
    · exact h.free c hc v hv
    · rw [mem_singleton.1 hc] at hv
      rw [mem_singleton.1 hv, Rule.Special, hstop, hw]
      simp
  · intro c hc
    simp only [Grouping.cells, getD_some, ← append_assoc] at hc
    rcases mem_append.1 hc with hc | hc
    · exact h.ok c hc
    · rw [mem_singleton.1 hc]
      exact .single _ seq hw
  · intro c hc
    rcases mem_append.1 hc with hc | hc
    · exact h.current c hc
    · rw [mem_singleton.1 hc]

section
variable {closed : List Cell} (h : Grouping.Holds ⟨closed, some (l ++ c :: m), seq⟩ rules)
include h

theorem Grouping.Holds.free_cell : ∀ v ∈ c.routes, ¬ v.Special :=
  h.free c (mem_append_right l mem_cons_self)

theorem Grouping.Holds.free_behind : ∀ v ∈ flattenCells m, ¬ v.Special := by
  intro v hv
  obtain ⟨d, hd, hv⟩ := mem_flattenCells.1 hv
  exact h.free d (mem_append_right l (mem_cons_of_mem c hd)) v hv

theorem Grouping.Holds.perm_open : FreePerm Rule.Special rules
    (flattenCells (closed ++ l) ++ (c.routes ++ flattenCells m)) := by
  have hperm := h.perm
  rw [Grouping.cells, getD_some, ← append_assoc, flattenCells_append, flattenCells_cons] at hperm
  exact hperm

/-- A rule that does not stop joins an open cell. -/
theorem Grouping.Holds.join (hw : w.tail = c.tail) (htail : c.tail ≠ none)
    (hstop : w.stop = false) :
    Grouping.Holds ⟨closed, some (l ++ c.push w :: m), seq⟩ (rules ++ [w]) := by
  have hfree : ¬ w.Special := by
    rw [Rule.Special, hstop, hw]
    simp [htail]
  refine ⟨?_, ?_, ?_, h.sorted, h.pos, h.le, ?_⟩
  · have hmove : FreePerm Rule.Special (flattenCells m ++ [w]) ([w] ++ flattenCells m) :=
      .append_comm h.free_behind fun v hv => mem_singleton.1 hv ▸ hfree
    have hperm := (h.perm_open.append_right [w]).trans
      (by
        rw [append_assoc, append_assoc]
        exact (hmove.append_left c.routes).append_left (flattenCells (closed ++ l)))
    rw [Grouping.cells, getD_some, ← append_assoc, flattenCells_append,
      flattenCells_cons, Cell.push, append_assoc]
    exact hperm
  · intro d hd v hv
    rcases mem_append.1 hd with hd | hd
    · exact h.free d (mem_append_left _ hd) v hv
    · rcases mem_cons.1 hd with rfl | hd
      · rcases mem_append.1 hv with hv | hv
        · exact h.free_cell v hv
        · exact mem_singleton.1 hv ▸ hfree
      · exact h.free d (mem_append_right l (mem_cons_of_mem c hd)) v hv
  · intro d hd
    have hold : d = c.push w ∨ d ∈ closed ++ (l ++ c :: m) := by
      simp only [Grouping.cells, getD_some, mem_append, mem_cons] at hd ⊢
      tauto
    rcases hold with rfl | hold
    · exact (h.ok c (by simp [Grouping.cells])).push hw htail
    · exact h.ok d hold
  · intro d hd
    rcases mem_append.1 hd with hd | hd
    · exact h.current d (mem_append_left _ hd)
    · rcases mem_cons.1 hd with rfl | hd
      · exact h.current c (mem_append_right l mem_cons_self)
      · exact h.current d (mem_append_right l (mem_cons_of_mem c hd))

/-- A rule that stops joins an open cell, which goes to the end. -/
theorem Grouping.Holds.joinStop (hw : w.tail = c.tail) (htail : c.tail ≠ none) :
    Grouping.Holds ⟨closed ++ (l ++ m ++ [c.push w]), none, seq + 1⟩ (rules ++ [w]) := by
  have hmem : ∀ d ∈ l ++ m ++ [c.push w], d = c.push w ∨ d ∈ l ++ c :: m := by
    intro d hd
    simp only [mem_append, mem_cons, not_mem_nil, or_false] at hd ⊢
    tauto
  have hcurrent : ∀ d ∈ l ++ m ++ [c.push w], d.seqnr = seq := by
    intro d hd
    rcases hmem d hd with rfl | hd
    · exact h.current c (mem_append_right l mem_cons_self)
    · exact h.current d hd
  refine ⟨?_, nofun, ?_, pairwise_append_current h.sorted h.le hcurrent,
    ⟨Nat.le_succ_of_le h.pos.1, ?_⟩, ?_, nofun⟩
  · have hmove : FreePerm Rule.Special (c.routes ++ flattenCells m) (flattenCells m ++ c.routes) :=
      .append_comm h.free_cell h.free_behind
    have hperm := (h.perm_open.trans (hmove.append_left _)).append_right [w]
    simp only [Grouping.cells, getD_none, append_nil, flattenCells_append,
      flattenCells_cons, Cell.push, append_assoc] at hperm ⊢
    exact hperm
  · intro d hd
    rw [Grouping.cells, getD_none, append_nil] at hd
    rcases mem_append.1 hd with hd | hd
    · exact h.ok d (mem_append_left _ hd)
    · rcases hmem d hd with rfl | hd
      · exact (h.ok c (by simp [Grouping.cells])).push hw htail
      · exact h.ok d (mem_append_right closed hd)
  · intro d hd
    rcases mem_append.1 hd with hd | hd
    · exact h.pos.2 d hd
    · rw [hcurrent d hd]
      exact h.pos.1
  · intro d hd
    rcases mem_append.1 hd with hd | hd
    · exact Nat.le_succ_of_le (h.le d hd)
    · rw [hcurrent d hd]
      exact Nat.le_succ seq

end

theorem Grouping.Holds.adds (h : g.Holds rules) (hadds : Grouping.Adds g w g') :
    g'.Holds (rules ++ [w]) := by
  cases hadds with
  | alone hw => exact h.close hw (Nat.le_succ _) rfl
  | @shut closed seq w b hw =>
    have hle : seq ≤ if w.stop then seq + 1 else seq := by
      split
      · exact Nat.le_succ seq
      · exact Nat.le_refl seq
    have hclose : Grouping.Holds ⟨Grouping.cells ⟨closed, none, seq⟩ ++ [⟨some b, seq, [w]⟩], none,
        if w.stop then seq + 1 else seq⟩ (rules ++ [w]) := h.close hw hle rfl
    rw [Grouping.cells, getD_none, append_nil] at hclose
    exact hclose
  | new hw hstop => exact h.openNew hw hstop
  | newStop hw hstop => exact h.close hw (Nat.le_succ _) rfl
  | join hw htail hstop => exact h.join hw htail hstop
  | joinStop hw htail _ => exact h.joinStop hw htail

end

end CarbonRelay
