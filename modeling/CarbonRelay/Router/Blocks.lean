import CarbonRelay.Router.Grouping
import Mathlib.Data.List.TakeWhile

/-!
# The blocks of the optimiser

`Blocks.Reads` reads the linked blocks as a grouping. It holds at the start and after each rule
(`Blocks.add_reads`), so no search of the optimiser runs into a block without a pattern and no block
that is moved has a wrong predecessor. The second walk finds the blocks in the order of their
numbers, and makes a group of every block of three rules or more (`routerOptimise_grouping`).
-/

namespace CarbonRelay

open Function List

/-- What a block holds. -/
def Block.cell (b : Block) : Cell := ⟨b.pattern, b.seqnr, b.routes⟩

/-- The hash and the count of a block are those of its pattern and its rules. -/
structure Block.Ok (b : Block) : Prop where
  hash : b.hash = (b.pattern.map tailSum).getD 0
  refcnt : b.refcnt = b.routes.length

/-- The blocks in their order behind the dummy. -/
structure Blocks.Order (st : Blocks) (l : List Nat) : Prop where
  fwd : Linked.Fwd st.next 0 l
  last : st.next st.blast = none
  blast : st.blast = l.getLastD 0
  nodup : (0 :: l).Nodup
  lt : ∀ i ∈ 0 :: l, i < st.count

/-- The blocks hold the cells of a grouping. The open ones are behind `bstart`, and only their links
backwards matter. -/
structure Blocks.Reads (st : Blocks) (g : Grouping) (closed opened : List Nat) : Prop where
  order : st.Order (closed ++ opened)
  back : g.opened.isSome = true → Linked.Back st.prev (closed.getLastD 0) opened
  bstart : st.bstart = g.opened.map fun _ => closed.getLastD 0
  start : g.opened.isSome = true → (st.block (closed.getLastD 0)).hash = 0
  rlast : g.opened.isSome = true → st.rlast = none
  closedCells : closed.map (fun i => (st.block i).cell) = g.closed
  openedCells : opened.map (fun i => (st.block i).cell) = g.opened.getD []
  ok : ∀ i ∈ closed ++ opened, (st.block i).Ok
  dummy : st.block 0 = ⟨none, 0, 0, 0, []⟩
  seq : st.seq = g.seq

/-! ## The search for a block -/

theorem tailSum_pos {pattern b : Text} (h : routeTail pattern = some b) : 0 < tailSum b := by
  rw [routeTail] at h
  dsimp only at h
  split at h
  · cases h
  · split at h
    · cases h
    case isFalse hlen =>
      have hb := Option.some.inj h
      have hmem : ∀ c ∈ b, isTailChar c = true := by
        intro c hc
        rw [← hb] at hc
        exact mem_takeWhile_imp (mem_of_mem_take hc)
      obtain ⟨c, b', rfl⟩ : ∃ c b', b = c :: b' := by
        refine exists_cons_of_ne_nil fun hnil => ?_
        rw [hb, hnil] at hlen
        simp at hlen
      have hc : c.toNat ≠ 0 := by
        intro h0
        have hzero : c = '\x00' := Char.toNat_inj.1 h0
        have hletter := hmem c mem_cons_self
        rw [hzero] at hletter
        exact absurd hletter (by decide)
      rw [tailSum, map_cons, sum_cons]
      omega

theorem Rule.tail_eq_some {w : Rule} {b : Text} (h : w.tail = some b) :
    routeTail w.pattern = some b := by
  rw [Rule.tail] at h
  split at h
  · cases h
  · cases h
  · exact h

section
variable {st : Blocks} {b : Text} {a n : Nat} {l : List Nat}

/-- The search behind a block goes through the blocks behind it. -/
theorem Blocks.find_next (hb : 0 < tailSum b) (hfwd : Linked.Fwd st.next a l)
    (hlast : st.next (l.getLastD a) = none) (hok : ∀ i ∈ l, (st.block i).Ok) (hn : l.length < n) :
    st.find b n (st.next a) = some (l.find? fun i => (st.block i).pattern = some b) := by
  induction l generalizing a n with
  | nil =>
    obtain ⟨n, rfl⟩ := Nat.exists_eq_succ_of_ne_zero (Nat.ne_of_gt hn)
    rw [show st.next a = none from hlast]
    rfl
  | cons i l ih =>
    obtain ⟨n, rfl⟩ := Nat.exists_eq_succ_of_ne_zero (Nat.ne_of_gt (Nat.zero_lt_of_lt hn))
    obtain ⟨hai, hfwd⟩ := hfwd
    rw [getLastD_cons] at hlast
    have hih := ih hfwd hlast (fun j hj => hok j (mem_cons_of_mem i hj)) (Nat.lt_of_succ_lt_succ hn)
    have hhash := (hok i mem_cons_self).hash
    rw [hai, Blocks.find, find?_cons]
    split
    case isTrue hne =>
      have hpattern : (st.block i).pattern ≠ some b := by
        intro heq
        rw [heq] at hhash
        exact hne hhash
      simp only [hpattern, decide_false]
      exact hih
    case isFalse heq =>
      rw [not_not] at heq
      cases hp : (st.block i).pattern with
      | none =>
        rw [hp] at hhash
        exact absurd (heq.symm.trans hhash) (Nat.ne_of_gt hb)
      | some p =>
        by_cases hpb : p = b
        · simp [hpb]
        · simp [hpb, hih]

/-- The blocks are not more than were allocated. -/
theorem Blocks.Order.length_lt (h : st.Order l) : l.length < st.count := by
  have hsub : (0 :: l) ⊆ List.range st.count := fun i hi => mem_range.2 (h.lt i hi)
  have hle := (subperm_of_subset h.nodup hsub).length_le
  rw [length_cons, length_range] at hle
  exact hle

/-- The search finds the first open block with the tail. -/
theorem Blocks.Reads.find {g : Grouping} {closed opened : List Nat} (h : st.Reads g closed opened)
    (hb : 0 < tailSum b) : st.find b (st.count + 1) st.bstart =
      some (if g.opened.isSome then opened.find? fun i => (st.block i).pattern =
        some b else none) := by
  rw [h.bstart]
  cases hg : g.opened with
  | none => rfl
  | some cells =>
    have hopen : g.opened.isSome = true := by rw [hg]; rfl
    obtain ⟨-, hfwd⟩ := Linked.fwd_append.1 h.order.fwd
    have hlast : st.next (opened.getLastD (closed.getLastD 0)) = none := by
      have hend := h.order.last
      rw [h.order.blast, Linked.getLastD_append] at hend
      exact hend
    have hlen := h.order.length_lt
    rw [length_append] at hlen
    rw [Option.map_some, Blocks.find, if_pos, Option.isSome_some, if_pos rfl]
    · exact Blocks.find_next hb hfwd hlast (fun i hi => h.ok i (mem_append_right _ hi)) (by omega)
    · rw [h.start hopen]
      exact Nat.ne_of_lt hb

/-! ## A new block -/

variable {g : Grouping} {closed opened : List Nat} {c : Block} {w : Rule}

theorem Blocks.Order.append (h : st.Order l) (c : Block) :
    (st.append c).Order (l ++ [st.count]) := by
  have hfresh : st.count ∉ 0 :: l := fun hmem => Nat.lt_irrefl _ (h.lt _ hmem)
  have hnodup : (0 :: (l ++ [st.count])).Nodup := by
    have hperm : (st.count :: 0 :: l).Perm (0 :: (l ++ [st.count])) :=
      (perm_append_singleton st.count (0 :: l)).symm
    exact hperm.nodup_iff.1 (nodup_cons.2 ⟨hfresh, h.nodup⟩)
  refine ⟨?_, ?_, ?_, hnodup, fun i hi => ?_⟩
  · have hpush : Linked.Fwd _ 0 (l ++ [st.count]) := h.fwd.push h.nodup
    rw [← h.blast] at hpush
    refine hpush.congr hnodup fun j _ hj => ?_
    rw [Linked.getLastD_append] at hj
    exact update_of_ne hj _ _
  · exact update_self _ _ _
  · rw [Linked.getLastD_append]
    rfl
  · have hi : i ∈ 0 :: l ∨ i = st.count := by
      simpa [or_assoc] using hi
    rcases hi with hi | rfl
    · exact Nat.lt_succ_of_lt (h.lt i hi)
    · exact Nat.lt_succ_self _

theorem Blocks.append_block_of_lt {i : Nat} (h : i < st.count) :
    (st.append c).block i = st.block i :=
  update_of_ne (Nat.ne_of_lt h) _ _

theorem Blocks.append_block_count : (st.append c).block st.count = c := update_self _ _ _

theorem Blocks.Order.lt_of_mem (h : st.Order l) {i : Nat} (hi : i ∈ l) : i < st.count :=
  h.lt i (mem_cons_of_mem 0 hi)

theorem Blocks.Order.pos (h : st.Order l) : 0 < st.count := h.lt 0 mem_cons_self

/-- A new block leaves the cells of the others. -/
theorem Blocks.append_cells (hl : ∀ i ∈ l, i < st.count) :
    l.map (fun i => ((st.append c).block i).cell) = l.map fun i => (st.block i).cell := by
  refine map_congr_left fun i hi => ?_
  rw [Blocks.append_block_of_lt (hl i hi)]

section
variable (h : st.Reads g closed opened)
include h

theorem Blocks.Reads.append_ok (hc : c.Ok) :
    ∀ i ∈ closed ++ opened ++ [st.count], ((st.append c).block i).Ok := by
  intro i hi
  rcases mem_append.1 hi with hi | hi
  · rw [Blocks.append_block_of_lt (h.order.lt_of_mem hi)]
    exact h.ok i hi
  · rw [mem_singleton.1 hi, Blocks.append_block_count]
    exact hc

theorem Blocks.Reads.append_dummy : (st.append c).block 0 = ⟨none, 0, 0, 0, []⟩ := by
  rw [Blocks.append_block_of_lt h.order.pos]
  exact h.dummy

/-- The cells of all blocks, closed or open. -/
theorem Blocks.Reads.append_all_cells :
    (closed ++ opened ++ [st.count]).map (fun i => ((st.append c).block i).cell) =
      g.closed ++ g.opened.getD [] ++ [c.cell] := by
  have hlt : ∀ i ∈ closed ++ opened, i < st.count := fun i hi => h.order.lt_of_mem hi
  rw [map_append, Blocks.append_cells hlt, map_append, h.closedCells, h.openedCells,
    map_singleton, Blocks.append_block_count]

/-- A rule that cannot be in a group closes all blocks. -/
theorem Blocks.Reads.addAlone (w : Rule) : (st.addAlone w).Reads
    ⟨g.closed ++ g.opened.getD [] ++ [⟨none, g.seq, [w]⟩], some [], g.seq + 1⟩
    (closed ++ opened ++ [st.count]) [] := by
  have horder := h.order.append ⟨none, 0, 1, st.seq, [w]⟩
  have hlast : (closed ++ opened ++ [st.count]).getLastD 0 = st.count := by
    rw [Linked.getLastD_append]
    rfl
  refine ⟨?_, fun _ => trivial, ?_, fun _ => ?_, fun _ => rfl, ?_, rfl, ?_, h.append_dummy, ?_⟩
  · rw [append_nil]
    exact ⟨horder.fwd, horder.last, horder.blast, horder.nodup, horder.lt⟩
  · rw [Option.map_some, hlast]
    rfl
  · rw [hlast]
    exact congrArg Block.hash (Blocks.append_block_count (c := ⟨none, 0, 1, st.seq, [w]⟩))
  · refine (h.append_all_cells (c := ⟨none, 0, 1, st.seq, [w]⟩)).trans ?_
    rw [Block.cell, h.seq]
  · rw [append_nil]
    exact h.append_ok ⟨rfl, rfl⟩
  · exact congrArg Nat.succ h.seq

/-- A rule with a new tail when no block is open. -/
theorem Blocks.Reads.addNew_shut (hopen : g.opened = none) (w : Rule) (b : Text) :
    (st.addNew w b).Reads
      ⟨g.closed ++ [⟨some b, g.seq, [w]⟩], none, if w.stop then g.seq + 1 else g.seq⟩
      (closed ++ [st.count]) [] := by
  have hnil : opened = [] := by
    have hcells := h.openedCells
    rw [hopen, Option.getD_none, map_eq_nil_iff] at hcells
    exact hcells
  subst hnil
  have horder := h.order.append ⟨some b, tailSum b, 1, st.seq, [w]⟩
  have hcells : (closed ++ [st.count]).map (fun i => ((st.append
      ⟨some b, tailSum b, 1, st.seq, [w]⟩).block i).cell) = g.closed ++ [⟨some b, g.seq, [w]⟩] := by
    have hall := h.append_all_cells (c := ⟨some b, tailSum b, 1, st.seq, [w]⟩)
    rw [hopen, Option.getD_none, append_nil, append_nil] at hall
    rw [hall, Block.cell, h.seq]
  have hok := h.append_ok (c := ⟨some b, tailSum b, 1, st.seq, [w]⟩) ⟨rfl, rfl⟩
  have hstart := h.bstart
  rw [append_nil] at horder hok
  rw [hopen] at hstart
  rw [Blocks.addNew]
  split
  · refine ⟨?_, nofun, rfl, nofun, nofun, hcells, rfl, ?_, h.append_dummy, congrArg Nat.succ h.seq⟩
    · rw [append_nil]
      exact ⟨horder.fwd, horder.last, horder.blast, horder.nodup, horder.lt⟩
    · rw [append_nil]
      exact hok
  · refine ⟨?_, nofun, hstart, nofun, nofun, hcells, rfl, ?_, h.append_dummy, h.seq⟩
    · rw [append_nil]
      exact horder
    · rw [append_nil]
      exact hok

/-- A rule with a new tail that does not stop. -/
theorem Blocks.Reads.addNew_open {cells : List Cell}
    (hopen : g.opened = some cells) (b : Text) (hstop : w.stop = false) :
    (st.addNew w b).Reads ⟨g.closed, some (cells ++ [⟨some b, g.seq, [w]⟩]), g.seq⟩ closed
      (opened ++ [st.count]) := by
  have hsome : g.opened.isSome = true := by rw [hopen]; rfl
  have hlt : ∀ i ∈ closed ++ opened, i < st.count := fun i hi => h.order.lt_of_mem hi
  have hstartlt : closed.getLastD 0 < st.count := by
    rcases mem_cons.1 (Linked.getLastD_mem_cons 0 closed) with h0 | hmem
    · rw [h0]
      exact h.order.pos
    · exact hlt _ (mem_append_left _ hmem)
  rw [Blocks.addNew]
  rw [hstop, if_neg Bool.false_ne_true]
  refine ⟨?_, fun _ => ?_, ?_, fun _ => ?_, fun _ => h.rlast hsome, ?_, ?_, ?_,
    h.append_dummy, h.seq⟩
  · rw [← append_assoc]
    exact h.order.append _
  · have hback : Linked.Back _ (closed.getLastD 0) (opened ++ [st.count]) :=
      (h.back hsome).push fun hmem => Nat.lt_irrefl _ (hlt _ (mem_append_right closed hmem))
    rw [← Linked.getLastD_append, ← h.order.blast] at hback
    exact hback
  · have hstart := h.bstart
    rw [hopen] at hstart
    exact hstart
  · rw [Blocks.append_block_of_lt hstartlt]
    exact h.start hsome
  · rw [Blocks.append_cells fun i hi => hlt i (mem_append_left _ hi)]
    exact h.closedCells
  · have hcells := h.openedCells
    rw [hopen, Option.getD_some] at hcells
    rw [map_append, Blocks.append_cells fun i hi => hlt i (mem_append_right _ hi), hcells,
      map_singleton, Blocks.append_block_count, Block.cell, h.seq]
    rfl
  · rw [← append_assoc]
    exact h.append_ok ⟨rfl, rfl⟩

/-- A rule with a new tail that stops closes all blocks. -/
theorem Blocks.Reads.addNew_stop {cells : List Cell}
    (hopen : g.opened = some cells) (b : Text) (hstop : w.stop = true) :
    (st.addNew w b).Reads ⟨g.closed ++ cells ++ [⟨some b, g.seq, [w]⟩], none, g.seq + 1⟩
      (closed ++ opened ++ [st.count]) [] := by
  have horder := h.order.append ⟨some b, tailSum b, 1, st.seq, [w]⟩
  have hcells : (closed ++ opened ++ [st.count]).map (fun i => ((st.append
      ⟨some b, tailSum b, 1, st.seq, [w]⟩).block i).cell) =
      g.closed ++ cells ++ [⟨some b, g.seq, [w]⟩] := by
    rw [h.append_all_cells, hopen, Option.getD_some, Block.cell, h.seq]
  rw [Blocks.addNew]
  rw [hstop, if_pos rfl]
  refine ⟨?_, nofun, rfl, nofun, nofun, hcells, rfl, ?_, h.append_dummy, congrArg Nat.succ h.seq⟩
  · rw [append_nil]
    exact ⟨horder.fwd, horder.last, horder.blast, horder.nodup, horder.lt⟩
  · rw [append_nil]
    exact h.append_ok ⟨rfl, rfl⟩

end

/-! ## Joining a block -/

/-- The block that a rule joins. -/
def Block.push (b : Block) (w : Rule) : Block :=
  { b with refcnt := b.refcnt + 1, routes := b.routes ++ [w] }

/-- The blocks after a rule joined one, before anything is closed. -/
def Blocks.pushed (st : Blocks) (w : Rule) (i : Nat) : Blocks :=
  { st with block := update st.block i ((st.block i).push w) }

variable {m : List Nat} {i : Nat} {cells : List Cell}

theorem Block.Ok.push {c : Block} (h : c.Ok) (w : Rule) : (c.push w).Ok where
  hash := h.hash
  refcnt := by
    rw [Block.push, h.refcnt, length_append]
    rfl

theorem Blocks.pushed_block_ne {j : Nat} (h : j ≠ i) : (st.pushed w i).block j = st.block j :=
  update_of_ne h _ _

theorem Blocks.pushed_block_self : (st.pushed w i).block i = (st.block i).push w :=
  update_self _ _ _

theorem Blocks.pushed_cells {k : List Nat} (h : ∀ j ∈ k, j ≠ i) :
    k.map (fun j => ((st.pushed w i).block j).cell) = k.map fun j => (st.block j).cell := by
  refine map_congr_left fun j hj => ?_
  rw [Blocks.pushed_block_ne (h j hj)]

/-- A block that is taken out of the order is not among the others. -/
theorem Blocks.Order.ne_of_mem (h : st.Order (closed ++ (l ++ i :: m))) :
    (∀ j ∈ 0 :: closed, j ≠ i) ∧ (∀ j ∈ l, j ≠ i) ∧ ∀ j ∈ m, j ≠ i := by
  have hperm : (0 :: (closed ++ (l ++ i :: m))).Perm (i :: (0 :: closed ++ (l ++ m))) := by
    rw [← cons_append, ← append_assoc, ← append_assoc]
    exact perm_middle
  have hi := (nodup_cons.1 (hperm.nodup_iff.1 h.nodup)).1
  refine ⟨fun j hj heq => hi ?_, fun j hj heq => hi ?_, fun j hj heq => hi ?_⟩
  · exact heq ▸ mem_append_left _ hj
  · exact heq ▸ mem_append_right _ (mem_append_left _ hj)
  · exact heq ▸ mem_append_right _ (mem_append_right _ hj)

/-- A rule that joins an open block. -/
theorem Blocks.Reads.pushed (h : st.Reads g closed (l ++ i :: m)) (hopen : g.opened = some cells)
    (w : Rule) : (st.pushed w i).Reads
      ⟨g.closed, some (l.map (fun j => (st.block j).cell) ++ (st.block i).cell.push w ::
        m.map fun j => (st.block j).cell), g.seq⟩ closed (l ++ i :: m) := by
  have hsome : g.opened.isSome = true := by rw [hopen]; rfl
  obtain ⟨hclosed, hl, hm⟩ := h.order.ne_of_mem
  have hstart := h.bstart
  rw [hopen] at hstart
  refine ⟨⟨h.order.fwd, h.order.last, h.order.blast, h.order.nodup, h.order.lt⟩,
    fun _ => h.back hsome, hstart, fun _ => ?_, fun _ => h.rlast hsome, ?_, ?_, fun j hj => ?_,
      ?_, h.seq⟩
  · rw [Blocks.pushed_block_ne (hclosed _ (Linked.getLastD_mem_cons 0 closed))]
    exact h.start hsome
  · rw [Blocks.pushed_cells fun j hj => hclosed j (mem_cons_of_mem 0 hj)]
    exact h.closedCells
  · rw [map_append, map_cons, Blocks.pushed_cells hl, Blocks.pushed_cells hm,
      Blocks.pushed_block_self]
    rfl
  · by_cases hji : j = i
    · rw [hji, Blocks.pushed_block_self]
      exact (h.ok i (by simp)).push w
    · rw [Blocks.pushed_block_ne hji]
      exact h.ok j hj
  · rw [Blocks.pushed_block_ne (hclosed 0 mem_cons_self)]
    exact h.dummy

/-- The block with a rule that stops goes to the end, and all blocks are closed. -/
theorem Blocks.Reads.move {c : Cell} {cells₁ cells₂ : List Cell}
    (h : st.Reads ⟨g.closed, some (cells₁ ++ c :: cells₂), g.seq⟩ closed (l ++ i :: m))
    (hl : l.map (fun j => (st.block j).cell) = cells₁) (hi : (st.block i).cell = c)
    (hm : m.map (fun j => (st.block j).cell) = cells₂) {st' : Blocks}
    (hblock : st'.block = st.block) (hbstart : st'.bstart = none)
    (hseq : st'.seq = st.seq + 1) (horder : st'.Order (closed ++ (l ++ m ++ [i]))) :
    st'.Reads ⟨g.closed ++ (cells₁ ++ cells₂ ++ [c]), none, g.seq + 1⟩
      (closed ++ (l ++ m ++ [i])) [] := by
  refine ⟨?_, nofun, hbstart, nofun, nofun, ?_, rfl, fun j hj => ?_, ?_, ?_⟩
  · rw [append_nil]
    exact horder
  · have hclosed := h.closedCells
    rw [hblock, map_append, hclosed, map_append, map_append, hl, hm, map_singleton, hi]
  · rw [hblock]
    refine h.ok j ?_
    simp only [mem_append, mem_cons, not_mem_nil, or_false] at hj ⊢
    tauto
  · rw [hblock]
    exact h.dummy
  · rw [hseq]
    exact congrArg Nat.succ h.seq

/-- What joining a block comes to, where `rlast` is not set. -/
theorem Blocks.join_eq (hrlast : st.rlast = none) : st.join w b i = if w.stop then
      match st.next i with
      | none => some { st.pushed w i with rlast := some w, bstart := none, seq := st.seq + 1 }
      | some j =>
        match st.prev i with
        | none => none
        | some p => some { st.pushed w i with
            blast := i
            next := update (update (update st.next p (some j)) st.blast
              (some i)) i none
            rlast := some w
            bstart := none
            seq := st.seq + 1 }
    else some (st.pushed w i) :=
  if_pos (Or.inl hrlast)

/-- The order after the block of a rule that stops was moved. -/
theorem Blocks.Order.moveToEnd (h : st.Order (closed ++ (l ++ i :: m))) (hm : m ≠ []) {st' : Blocks}
    (hnext : st'.next = Linked.moveToEnd st.next ((closed ++ l).getLastD 0) i st.blast)
    (hblast : st'.blast = i) (hcount : st'.count = st.count) :
    st'.Order (closed ++ (l ++ m ++ [i])) := by
  have hassoc : closed ++ (l ++ i :: m) = closed ++ l ++ i :: m := (append_assoc ..).symm
  have hassoc' : closed ++ (l ++ m ++ [i]) = closed ++ l ++ m ++ [i] := by simp
  have hlast : st.blast = m.getLastD i := by
    rw [h.blast, hassoc, Linked.getLastD_append, getLastD_cons]
  have hperm : (closed ++ l ++ i :: m).Perm (closed ++ l ++ m ++ [i]) := by
    rw [append_assoc (closed ++ l)]
    exact (perm_append_singleton i m).symm.append_left _
  have hfwd := h.fwd
  have hnodup := h.nodup
  rw [hassoc] at hfwd hnodup
  rw [hassoc']
  refine ⟨?_, ?_, ?_, (hperm.cons 0).nodup_iff.1 hnodup, fun j hj => ?_⟩
  · rw [hnext, hlast]
    exact hfwd.moveToEnd hnodup hm
  · rw [hnext, hblast]
    exact update_self _ _ _
  · rw [hblast, Linked.getLastD_append]
    rfl
  · rw [hcount]
    refine h.lt j ?_
    rw [hassoc]
    exact (hperm.cons 0).symm.subset hj

/-- A rule that stops and joins an open block. -/
theorem Blocks.Reads.join_stop (h : st.Reads g closed (l ++ i :: m)) (hopen : g.opened = some cells)
    (hstop : w.stop = true) : ∃ st', st.join w b i = some st' ∧ st'.Reads
      ⟨g.closed ++ (l.map (fun j => (st.block j).cell) ++ m.map (fun j => (st.block j).cell) ++
        [(st.block i).cell.push w]), none, g.seq + 1⟩ (closed ++ (l ++ m ++ [i])) [] := by
  have hsome : g.opened.isSome = true := by rw [hopen]; rfl
  obtain ⟨-, hl, hm⟩ := h.order.ne_of_mem
  have hmove := @Blocks.Reads.move (st.pushed w i) l g closed m i _ _ _ (h.pushed hopen w)
    (Blocks.pushed_cells hl) (congrArg Block.cell Blocks.pushed_block_self) (Blocks.pushed_cells hm)
  rw [Blocks.join_eq (h.rlast hsome), if_pos hstop]
  cases m with
  | nil =>
    have hblast : st.blast = i := by
      rw [h.order.blast, Linked.getLastD_append, Linked.getLastD_append]
      rfl
    have hnext : st.next i = none := hblast ▸ h.order.last
    rw [hnext]
    have horder := h.order
    refine ⟨_, rfl, hmove rfl rfl rfl ?_⟩
    rw [append_nil]
    exact ⟨horder.fwd, horder.last, horder.blast, horder.nodup, horder.lt⟩
  | cons j m =>
    obtain ⟨-, hfwd⟩ := Linked.fwd_append.1 h.order.fwd
    obtain ⟨-, -, hnext, -⟩ := Linked.fwd_append.1 hfwd
    obtain ⟨-, hprev, -⟩ := Linked.back_append.1 (h.back hsome)
    rw [← Linked.getLastD_append] at hprev
    rw [hnext, hprev]
    refine ⟨_, rfl, hmove rfl rfl rfl ?_⟩
    refine h.order.moveToEnd (cons_ne_nil j m) ?_ rfl rfl
    rw [Linked.moveToEnd, hnext]

/-! ## All rules -/

variable {rules : List Rule}

/-- The optimiser does to the blocks what a rule does to a grouping. -/
theorem Blocks.add_reads (h : st.Reads g closed opened) (w : Rule) : ∃ st' g' closed' opened',
    st.add w = some st' ∧ Grouping.Adds g w g' ∧ st'.Reads g' closed' opened' := by
  rw [Blocks.add]
  cases hw : w.tail with
  | none => exact ⟨_, _, _, _, rfl, .alone hw, h.addAlone w⟩
  | some b =>
    have hfind := h.find (tailSum_pos (Rule.tail_eq_some hw))
    obtain ⟨gclosed, gopened, seq⟩ := g
    cases gopened with
    | none =>
      rw [Option.isSome_none, if_neg Bool.false_ne_true] at hfind
      simp only [hfind]
      exact ⟨_, _, _, _, rfl, .shut hw, h.addNew_shut rfl w b⟩
    | some cells =>
      rw [Option.isSome_some, if_pos rfl] at hfind
      cases hi : opened.find? fun i => (st.block i).pattern = some b with
      | none =>
        rw [hi] at hfind
        simp only [hfind]
        cases hstop : w.stop with
        | false => exact ⟨_, _, _, _, rfl, .new hw hstop, h.addNew_open rfl b hstop⟩
        | true => exact ⟨_, _, _, _, rfl, .newStop hw hstop, h.addNew_stop rfl b hstop⟩
      | some i =>
        rw [hi] at hfind
        simp only [hfind]
        obtain ⟨hpattern, l, m, rfl, -⟩ := List.find?_eq_some_iff_append.1 hi
        have hpattern := of_decide_eq_true hpattern
        have hcells : l.map (fun j => (st.block j).cell) ++ (st.block i).cell ::
            m.map (fun j => (st.block j).cell) = cells := by
          have hopened := h.openedCells
          rw [map_append, map_cons] at hopened
          exact hopened
        subst hcells
        have htail : w.tail = (st.block i).cell.tail := hw.trans hpattern.symm
        have hne : (st.block i).cell.tail ≠ none := by
          rw [← htail, hw]
          exact Option.some_ne_none b
        cases hstop : w.stop with
        | false =>
          refine ⟨_, _, _, _, ?_, .join htail hne hstop, h.pushed rfl w⟩
          rw [Blocks.join_eq (h.rlast rfl), hstop, if_neg Bool.false_ne_true]
        | true =>
          obtain ⟨st', hjoin, hreads⟩ := h.join_stop rfl hstop
          exact ⟨st', _, _, _, hjoin, .joinStop htail hne hstop, hreads⟩

/-- All rules together. -/
theorem Blocks.addAll_reads {done : List Rule} (h : st.Reads g closed opened) (hg : g.Holds done)
    (rules : List Rule) : ∃ st' g' closed' opened', st.addAll rules = some st' ∧
      st'.Reads g' closed' opened' ∧ g'.Holds (done ++ rules) := by
  induction rules generalizing st g closed opened done with
  | nil => exact ⟨st, g, closed, opened, rfl, h, (append_nil done).symm ▸ hg⟩
  | cons w rules ih =>
    obtain ⟨st₁, g₁, closed₁, opened₁, hadd, hadds, h₁⟩ := Blocks.add_reads h w
    obtain ⟨st', g', closed', opened', hall, h', hg'⟩ := ih h₁ (hg.adds hadds)
    rw [append_assoc] at hg'
    refine ⟨st', g', closed', opened', ?_, h', hg'⟩
    rw [Blocks.addAll, hadd]
    exact hall

theorem Blocks.init_reads : Blocks.init.Reads ⟨[], some [], 1⟩ [] [] where
  order := ⟨trivial, rfl, rfl, nodup_singleton 0, by simp [Blocks.init]⟩
  back _ := trivial
  bstart := rfl
  start _ := rfl
  rlast _ := rfl
  closedCells := rfl
  openedCells := rfl
  ok := nofun
  dummy := rfl
  seq := rfl

theorem Grouping.holds_nil : Grouping.Holds ⟨[], some [], 1⟩ [] where
  perm := .refl []
  free := nofun
  ok := nofun
  sorted := .nil
  pos := ⟨Nat.le_refl 1, nofun⟩
  le := nofun
  current := nofun

end

/-! ## The second walk -/

/-- The routes that are made of a cell. -/
def Cell.toRoutes (c : Cell) : List Route :=
  if c.routes.length < 3 then c.routes.map .rule
  else
    match c.tail with
    | none => []
    | some name => [.group name c.routes]

section
variable {block : Nat → Block} {next : Nat → Option Nat}

/-- The walk over blocks whose numbers go up takes all of them. -/
theorem reduceBlocks_eq {M n seq i : Nat} {l : List Nat} {routes : List Route}
    (hfwd : Linked.Fwd next i l) (hlast : next (l.getLastD i) = none)
    (hok : ∀ j ∈ i :: l, (block j).Ok ∧ (3 ≤ (block j).refcnt → (block j).pattern ≠ none))
    (hsorted : ((i :: l).map fun j => (block j).seqnr).Pairwise (· ≤ ·))
    (hseq : seq ≤ (block i).seqnr) (hM : ∀ j ∈ i :: l, (block j).seqnr ≤ M)
    (hn : l.length + 1 + (M - seq) < n) : reduceBlocks block next n seq (some i) routes =
      some ⟨routes ++ (i :: l).flatMap fun j => (block j).cell.toRoutes, false⟩ := by
  induction n generalizing seq i l routes with
  | zero => exact absurd hn (Nat.not_lt_zero _)
  | succ n ih =>
    have hMi := hM i mem_cons_self
    by_cases hlt : seq < (block i).seqnr
    · rw [reduceBlocks, if_pos hlt]
      exact ih hfwd hlast hok hsorted hlt hM (by omega)
    · have hnext : ∀ more, reduceBlocks block next n seq (next i) more =
          some ⟨more ++ l.flatMap fun j => (block j).cell.toRoutes, false⟩ := by
        intro more
        cases l with
        | nil =>
          obtain ⟨n, rfl⟩ := Nat.exists_eq_succ_of_ne_zero (n := n) (by simp at hn; omega)
          rw [show next i = none from hlast, reduceBlocks, flatMap_nil, append_nil]
        | cons j l =>
          obtain ⟨hij, hfwd⟩ := hfwd
          rw [getLastD_cons] at hlast
          rw [map_cons, pairwise_cons] at hsorted
          have hle := hsorted.1 _ (mem_map_of_mem mem_cons_self)
          rw [length_cons] at hn
          rw [hij]
          exact ih hfwd hlast (fun k hk => hok k (mem_cons_of_mem i hk)) hsorted.2
            (hseq.trans hle) (fun k hk => hM k (mem_cons_of_mem i hk)) (by omega)
      obtain ⟨hoki, hpattern⟩ := hok i mem_cons_self
      have hcell : (block i).cell.routes.length = (block i).refcnt := hoki.refcnt.symm
      rw [reduceBlocks, if_neg hlt, if_neg (by omega), flatMap_cons, ← append_assoc]
      by_cases h0 : (block i).refcnt = 0
      · have hempty : (block i).cell.toRoutes = [] := by
          have hnil := length_eq_zero_iff.1 (hcell.trans h0)
          rw [Cell.toRoutes, hnil]
          rfl
        rw [if_pos h0, hnext, hempty, append_nil]
      · rw [if_neg h0]
        by_cases h3 : (block i).refcnt < 3
        · rw [if_pos h3, hnext, Cell.toRoutes, if_pos (hcell ▸ h3)]
          rfl
        · rw [if_neg h3]
          obtain ⟨name, hname⟩ := Option.ne_none_iff_exists'.1 (hpattern (not_lt.1 h3))
          rw [hname]
          dsimp only
          rw [hnext, Cell.toRoutes, if_neg (hcell ▸ h3), Block.cell, hname]

end

/-- The links with the dummy at the end. -/
theorem Blocks.Order.reduceLinks {st : Blocks} {l : List Nat} (h : st.Order l) {i : Nat}
    {rest : List Nat} (hl : l ++ [0] = i :: rest) :
    update st.next st.blast (some 0) 0 = some i ∧
      Linked.Fwd (update (update st.next st.blast (some 0)) 0 none) i rest ∧
        rest.getLastD i = 0 := by
  have hpush : Linked.Fwd (update st.next (l.getLastD 0) (some 0)) 0 (l ++ [0]) :=
    h.fwd.push h.nodup
  have hend : (l ++ [0]).getLastD 0 = 0 := by
    rw [Linked.getLastD_append]
    rfl
  have hnodup : (l ++ [0]).Nodup := (perm_append_singleton 0 l).nodup_iff.2 h.nodup
  rw [hl] at hpush hend hnodup
  rw [getLastD_cons] at hend
  rw [h.blast]
  refine ⟨hpush.1, hpush.2.congr hnodup fun j _ hj => ?_, hend⟩
  rw [hend] at hj
  exact update_of_ne hj _ _

/-- The second walk makes the table of the cells of the grouping. -/
theorem Blocks.Reads.reduce {st : Blocks} {g : Grouping} {closed opened : List Nat}
    {rules : List Rule} (h : st.Reads g closed opened) (hg : g.Holds rules) :
    st.reduce = some ⟨g.cells.flatMap Cell.toRoutes, false⟩ := by
  obtain ⟨i, rest, hl⟩ : ∃ i rest, closed ++ opened ++ [0] = i :: rest :=
    exists_cons_of_ne_nil (by simp)
  obtain ⟨hstart, hfwd, hlast⟩ := h.order.reduceLinks hl
  let block := update st.block 0 { st.block 0 with seqnr := st.seq }
  have hblock0 : block 0 = ⟨none, 0, 0, st.seq, []⟩ := by
    simp only [block, update_self, h.dummy]
  have hblock : ∀ j ∈ closed ++ opened, block j = st.block j := by
    intro j hj
    have hne : j ≠ 0 := fun h0 => (nodup_cons.1 h.order.nodup).1 (h0 ▸ hj)
    exact update_of_ne hne _ _
  have hcells : (closed ++ opened).map (fun j => (block j).cell) = g.cells := by
    have hsame : (closed ++ opened).map (fun j => (block j).cell) =
        (closed ++ opened).map fun j => (st.block j).cell :=
      map_congr_left fun j hj => by rw [hblock j hj]
    rw [hsame, map_append, h.closedCells, h.openedCells, Grouping.cells]
  have hmem : ∀ j ∈ closed ++ opened, (block j).cell ∈ g.cells := fun j hj =>
    hcells ▸ mem_map_of_mem hj
  have hle : ∀ c ∈ g.cells, 1 ≤ c.seqnr ∧ c.seqnr ≤ g.seq := by
    intro c hc
    rcases mem_append.1 hc with hc | hc
    · exact ⟨hg.pos.2 c hc, hg.le c hc⟩
    · rw [hg.current c hc]
      exact ⟨hg.pos.1, Nat.le_refl _⟩
  have hlen := h.order.length_lt
  have hall : ∀ j ∈ i :: rest, j ∈ closed ++ opened ∨ j = 0 := fun j hj => by
    rw [← hl] at hj
    rcases mem_append.1 hj with hj | hj
    · exact .inl hj
    · exact .inr (mem_singleton.1 hj)
  have hnext0 : update (update st.next st.blast (some 0)) 0 none
      (rest.getLastD i) = none := by
    rw [hlast]
    exact update_self _ _ _
  have hseqs : ∀ j ∈ i :: rest, 1 ≤ (block j).seqnr ∧ (block j).seqnr ≤ st.seq := by
    intro j hj
    rw [h.seq]
    rcases hall j hj with hj | rfl
    · exact hle _ (hmem j hj)
    · rw [hblock0, h.seq]
      exact ⟨hg.pos.1, Nat.le_refl _⟩
  rw [Blocks.reduce]
  dsimp only
  rw [hstart, reduceBlocks_eq (M := st.seq) hfwd hnext0]
  · rw [← hl, nil_append, flatMap_append, flatMap_singleton, ← hcells, flatMap_map]
    change some (⟨_ ++ (block 0).cell.toRoutes, false⟩ : Optimised) = _
    rw [hblock0]
    simp [Cell.toRoutes, Block.cell, block]
  · intro j hj
    rcases hall j hj with hj | rfl
    · change (block j).Ok ∧ (3 ≤ (block j).refcnt → (block j).pattern ≠ none)
      have hok := hblock j hj ▸ h.ok j hj
      refine ⟨hok, fun h3 hnone => ?_⟩
      have hone := (hg.ok _ (hmem j hj)).alone hnone
      rw [hok.refcnt] at h3
      change (block j).routes.length = 1 at hone
      omega
    · change (block 0).Ok ∧ (3 ≤ (block 0).refcnt → (block 0).pattern ≠ none)
      rw [hblock0]
      exact ⟨⟨rfl, rfl⟩, fun h3 => absurd h3 (Nat.not_succ_le_zero 2)⟩
  · rw [← hl, map_append, pairwise_append]
    refine ⟨?_, pairwise_singleton _ _, ?_⟩
    · have hsorted := hg.sorted_cells
      rw [← hcells, map_map] at hsorted
      exact hsorted
    · intro a ha c hc
      obtain ⟨j, hj, rfl⟩ := mem_map.1 ha
      rw [mem_singleton.1 hc]
      change (block j).seqnr ≤ (block 0).seqnr
      rw [hblock0]
      exact (hseqs j (hl ▸ mem_append_left _ hj)).2
  · exact (hseqs i mem_cons_self).1
  · exact fun j hj => (hseqs j hj).2
  · have hlen' : (closed ++ opened).length = rest.length := by
      have hlens := congrArg List.length hl
      rw [length_append, length_singleton, length_cons] at hlens
      exact Nat.succ.inj hlens
    omega

/-- The table that the optimiser makes, from the cells of a grouping of its rules. -/
theorem routerOptimise_grouping (threshold : Int) (rules : List Rule)
    (h : 0 ≤ threshold ∧ threshold ≤ rules.length) : ∃ g : Grouping, g.Holds rules ∧
      routerOptimise threshold rules = some ⟨g.cells.flatMap Cell.toRoutes, false⟩ := by
  obtain ⟨st, g, closed, opened, hall, hreads, hg⟩ :=
    Blocks.addAll_reads Blocks.init_reads Grouping.holds_nil rules
  refine ⟨g, hg, ?_⟩
  rw [routerOptimise, if_neg (by omega), hall]
  exact hreads.reduce hg

/-! ## The optimised table -/

/-- The rules of a route. -/
def Route.rules : Route → List Rule
  | .rule w => [w]
  | .group _ members => members

/-- The rules of a table, with every group replaced by its members. -/
def flattenRoutes (table : List Route) : List Rule := table.flatMap Route.rules

/-- The rules that stop, match everything, rewrite, or have no usable tail. -/
def Rule.Fixed (w : Rule) : Prop :=
  w.stop = true ∨ w.matchtype = .matchall ∨ (∃ replacement, w.dest = .rewrite replacement) ∨
    routeTail w.pattern = none

theorem Rule.Fixed.special {w : Rule} (h : w.Fixed) : w.Special := by
  rcases h with hstop | hall | ⟨replacement, hrewrite⟩ | htail
  · exact .inl hstop
  · right
    simp only [Rule.tail, hall]
  · right
    rw [Rule.tail, hrewrite]
    split
    · rfl
    · rfl
    case h_3 hnot => exact absurd rfl (hnot replacement)
  · right
    rw [Rule.tail]
    split
    · rfl
    · rfl
    · exact htail

theorem flattenRoutes_rules (rules : List Rule) : flattenRoutes (rules.map .rule) = rules := by
  rw [flattenRoutes, flatMap_map]
  exact flatMap_singleton' rules

theorem flattenRoutes_cells {cells : List Cell} (h : ∀ c ∈ cells, c.Ok) :
    flattenRoutes (cells.flatMap Cell.toRoutes) = flattenCells cells := by
  rw [flattenRoutes, flatMap_assoc, flattenCells]
  refine flatMap_congr fun c hc => ?_
  rw [Cell.toRoutes]
  split
  · exact flattenRoutes_rules c.routes
  · split
    case h_1 hnone =>
      have hone := (h c hc).alone hnone
      omega
    case h_2 => exact append_nil _

theorem mem_group_cells {cells : List Cell} (h : ∀ c ∈ cells, c.Ok) {name : Text}
    {members : List Rule} (hg : Route.group name members ∈ cells.flatMap Cell.toRoutes) :
    3 ≤ members.length ∧ ∀ w ∈ members, w.tail = some name := by
  obtain ⟨c, hc, hg⟩ := mem_flatMap.1 hg
  rw [Cell.toRoutes] at hg
  split at hg
  · simp at hg
  · split at hg
    · cases hg
    case h_2 name' hname =>
      cases mem_singleton.1 hg
      refine ⟨by omega, fun w hw => ?_⟩
      rw [(h c hc).tails w hw, hname]

/-- The table of the optimiser: the rules rearranged around the special ones, with groups that have
a tail in common. -/
theorem routerOptimise_spec (threshold : Int) (rules : List Rule) : ∃ table,
    routerOptimise threshold rules = some ⟨table, false⟩ ∧
    FreePerm Rule.Special rules (flattenRoutes table) ∧
    ∀ name members, Route.group name members ∈ table →
      3 ≤ members.length ∧ ∀ w ∈ members, w.tail = some name := by
  by_cases h : 0 ≤ threshold ∧ threshold ≤ rules.length
  · obtain ⟨g, hg, hoptimise⟩ := routerOptimise_grouping threshold rules h
    refine ⟨_, hoptimise, ?_, fun name members => mem_group_cells hg.ok⟩
    rw [flattenRoutes_cells hg.ok]
    exact hg.perm
  · refine ⟨rules.map .rule, ?_, ?_, fun name members hmem => ?_⟩
    · rw [routerOptimise, if_pos (by omega)]
    · rw [flattenRoutes_rules]
      exact .refl rules
    · simp at hmem

/-- What the optimiser does to a table: it loses no rule and doubles none, its groups have three
rules or more and their tail in common, it never loses track, and a rule that is fixed keeps its
place in the order relative to every other rule. -/
theorem optimised_table (threshold : Int) (rules : List Rule) : ∃ table,
    routerOptimise threshold rules = some ⟨table, false⟩ ∧ (flattenRoutes table).Perm rules ∧
    (∀ name members, Route.group name members ∈ table →
      3 ≤ members.length ∧ ∀ w ∈ members, w.tail = some name) ∧
    ∀ a b : Rule, [a, b].Sublist rules → a.Fixed ∨ b.Fixed →
      [a, b].Sublist (flattenRoutes table) := by
  obtain ⟨table, hoptimise, hperm, hgroups⟩ := routerOptimise_spec threshold rules
  refine ⟨table, hoptimise, hperm.perm.symm, hgroups, fun a b hab hfixed => ?_⟩
  exact hperm.pair_sublist (hfixed.imp Rule.Fixed.special Rule.Fixed.special) hab

end CarbonRelay
