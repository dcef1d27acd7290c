import CarbonRelay.Router.Blocks
import CarbonRelay.Router.Result

/-!
# Skipped optimisations

The first walk of `router_optimise` moves the rules into the blocks: it cuts the `next` of every
rule, and links a rule that joins a block behind the last rule of that block. When a block cannot be
allocated it returns with a note that optimisation is skipped. Nothing is linked back then. So the
list of the router is what it was exactly if no rule was moved yet, that is, if the first block or
the block of the first rule could not be allocated (`skipped_intact_iff`). Else the list ends with
the block of the first rule.
-/

namespace CarbonRelay

open Function List

/-! ## The walk with its links -/

/-- The variables of the walk over the rules. A rule is known by its place in the list at the start,
and `rnext` has the `next` of the rules. `allocs` is the number of allocations so far. -/
structure Build extends Blocks where
  firstroute : Nat → Nat
  lastroute : Nat → Nat
  rnext : Nat → Option Nat
  rwalk : Option Nat
  allocs : Nat

/-- How the walk, or a turn of it, ends: with the note that optimisation is skipped, or at its end.
-/
inductive Turn
  | skipped (st : Build)
  | done (st : Build)

/-- `r->routes`. The walk does not change it. -/
def routesHead (rules : List Rule) : Option Nat := if rules.isEmpty then none else some 0

/-- The links of a list of rules. -/
def routesNext (rules : List Rule) (k : Nat) : Option Nat :=
  if k + 1 < rules.length then some (k + 1) else none

/-- The start of the loop, with the dummy. -/
def Build.init (rules : List Rule) : Build where
  toBlocks := .init
  firstroute _ := 0
  lastroute _ := 0
  rnext := routesNext rules
  rwalk := routesHead rules
  allocs := 1

/-- A rule in a block of its own, which is the last one that was allocated. -/
def Build.own (st : Build) (k : Nat) (blocks : Blocks) (allocs : Nat) : Build where
  toBlocks := blocks
  firstroute := update st.firstroute st.count k
  lastroute := update st.lastroute st.count k
  rnext := update st.rnext k none
  rwalk := st.rnext k
  allocs := st.allocs + allocs

/-- `ra_strdup` has failed. -/
def Blocks.dropPattern (st : Blocks) (i : Nat) : Blocks :=
  { st with block := update st.block i { st.block i with pattern := none } }

/-- `router.c:1685`, a rule with a tail that no open block has. The copy of the tail is not checked.
-/
def Build.addNew (alloc : Nat → Bool) (st : Build) (k : Nat) (w : Rule) (b : Text) : Build :=
  st.own k (if alloc (st.allocs + 1) then st.toBlocks.addNew w b
    else (st.toBlocks.addNew w b).dropPattern st.count) 2

/-- `router.c:1711`, a rule that joins a block. -/
def Build.join (st : Build) (k : Nat) (w : Rule) (b : Text) (i : Nat) : Option Build :=
  (st.toBlocks.join w b i).map fun blocks =>
    { toBlocks := blocks
      firstroute := st.firstroute
      lastroute := update st.lastroute i k
      rnext := update (update st.rnext (st.lastroute i) (some k)) k none
      rwalk := update st.rnext (st.lastroute i) (some k) k
      allocs := st.allocs }

/-- One turn of the loop over the rules, for the rule at `k`. -/
def Build.turn (alloc : Nat → Bool) (st : Build) (k : Nat) (w : Rule) : Option Turn :=
  match w.tail with
  | none => some (if alloc st.allocs then .done (st.own k (st.addAlone w) 1) else .skipped st)
  | some b =>
    match st.find b (st.count + 1) st.bstart with
    | none => none
    | some none => some (if alloc st.allocs then .done (st.addNew alloc k w b) else .skipped st)
    | some (some i) => (st.join k w b i).map .done

/-- The loop over the rules. -/
def Build.run (alloc : Nat → Bool) (rules : List Rule) : Nat → Build → Option Turn
  | 0, _ => none
  | n + 1, st =>
    match st.rwalk with
    | none => some (.done st)
    | some k =>
      match rules[k]? with
      | none => none
      | some w =>
        match st.turn alloc k w with
        | none => none
        | some (.skipped st) => some (.skipped st)
        | some (.done st) => st.run alloc rules n

/-- `router.c:1542`, the first walk. -/
def buildBlocks (alloc : Nat → Bool) (rules : List Rule) : Option Turn :=
  if alloc 0 then (Build.init rules).run alloc rules (rules.length + 1)
  else some (.skipped (.init rules))

/-- The ends of `router_optimise`. -/
inductive OptimiseEnd
  | skipped (st : Build)
  | optimised (table : Optimised)

/-- `router.c:1510 router_optimise`, where allocations of the first walk may fail. -/
def routerOptimiseAlloc (alloc : Nat → Bool) (threshold : Int) (rules : List Rule) :
    Option OptimiseEnd :=
  if threshold < 0 ∨ rules.length < threshold then some (.optimised ⟨rules.map .rule, false⟩)
  else
    match buildBlocks alloc rules with
    | none => none
    | some (.skipped st) => some (.skipped st)
    | some (.done st) => st.reduce.map .optimised

/-! ## The blocks of a turn -/

section
variable {st st' : Blocks} {w : Rule} {b : Text} {i n : Nat}

/-- A new block, which has a rule. -/
structure Blocks.Gains (st st' : Blocks) (w : Rule) : Prop where
  count : st'.count = st.count + 1
  others : ∀ i, i ≠ st.count → st'.block i = st.block i
  routes : (st'.block st.count).routes = [w]

theorem Blocks.gains_addAlone (st : Blocks) (w : Rule) : st.Gains (st.addAlone w) w where
  count := rfl
  others _ hi := update_of_ne hi _ _
  routes := by simp [Blocks.addAlone, Blocks.append]

theorem Blocks.gains_addNew (st : Blocks) (w : Rule) (b : Text) : st.Gains (st.addNew w b) w := by
  have hgains : st.Gains (st.append ⟨some b, tailSum b, 1, st.seq, [w]⟩) w :=
    ⟨rfl, fun _ hi => update_of_ne hi _ _, by simp [Blocks.append]⟩
  rw [Blocks.addNew]
  split
  · exact ⟨hgains.count, hgains.others, hgains.routes⟩
  · exact hgains

theorem Blocks.Gains.dropPattern (h : st.Gains st' w) : st.Gains (st'.dropPattern st.count) w where
  count := h.count
  others i hi := (update_of_ne hi _ _).trans (h.others i hi)
  routes := by simp [Blocks.dropPattern, h.routes]

theorem Blocks.join_block (h : st.join w b i = some st') :
    st'.count = st.count ∧ st'.block = update st.block i ((st.block i).push w) := by
  rw [Blocks.join] at h
  dsimp only at h
  split at h
  · split at h
    · split at h
      · cases h
        exact ⟨rfl, rfl⟩
      · split at h
        · cases h
        · cases h
          exact ⟨rfl, rfl⟩
    · cases h
      exact ⟨rfl, rfl⟩
  · cases h
    exact ⟨rfl, rfl⟩

/-- A block that the search finds has the tail as its pattern. -/
theorem Blocks.find_pattern {p : Option Nat} (h : st.find b n p = some (some i)) :
    (st.block i).pattern = some b := by
  induction n generalizing p with
  | zero => cases h
  | succ n ih =>
    cases p with
    | none => cases h
    | some j =>
      rw [Blocks.find] at h
      split at h
      · exact ih h
      · split at h
        · cases h
        · next p hp =>
          split at h
          · next heq =>
            cases h
            rw [hp, heq]
          · exact ih h

/-! ## The lists of the blocks -/

/-- Where the rules of the blocks are, for the rules in front of `k`. -/
structure Places (rules : List Rule) (block : Nat → Block) (k : Nat) (places : Nat → List Nat) :
    Prop where
  routes : ∀ i, (places i).map (rules[·]?) = (block i).routes.map some
  nodup : ∀ i, (places i).Nodup
  below : ∀ i, ∀ j ∈ places i, j < k
  apart : ∀ i i' j, j ∈ places i → j ∈ places i' → i = i'

/-- The rules in front of `k` were moved: the list that starts at the first rule of a block has the
rules of the block. The rules from `k` on are linked as they were. -/
structure Build.Inv (alloc : Nat → Bool) (rules : List Rule) (st : Build) (k : Nat)
    (places : Nat → List Nat) : Prop extends Places rules st.block k places where
  rwalk : st.rwalk = if k < rules.length then some k else none
  ahead : ∀ j, k ≤ j → st.rnext j = routesNext rules j
  pos : 0 < st.count
  blank : ∀ i, i = 0 ∨ st.count ≤ i → (st.block i).pattern = none ∧ places i = []
  whole : ∀ i, 0 < i → i < st.count → Linked.Whole st.rnext (some (st.firstroute i)) (places i)
  last : ∀ i, 0 < i → i < st.count → (places i).getLast? = some (st.lastroute i)
  start : k = 0 → st.allocs = 1 ∧ st.count = 1
  first : 0 < k → 1 < st.count ∧ st.firstroute 1 = 0 ∧ alloc 1 = true

variable {rules : List Rule} {block block' : Nat → Block} {k : Nat} {places : Nat → List Nat}

/-- The next rule is put into a block. -/
theorem Places.push (h : Places rules block k places) (hk : rules[k]? = some w)
    (hothers : ∀ j, j ≠ i → (block' j).routes = (block j).routes)
    (hi : (block' i).routes = (block i).routes ++ [w]) :
    Places rules block' (k + 1) (update places i (places i ++ [k])) := by
  have hfresh : ∀ j, k ∉ places j := fun j hmem => Nat.lt_irrefl k (h.below j k hmem)
  have hmem : ∀ j x, x ∈ update places i (places i ++ [k]) j → x ∈ places j ∨ x = k ∧ j = i := by
    intro j x hx
    rcases eq_or_ne j i with rfl | hj
    · rw [update_self] at hx
      exact (mem_append.1 hx).imp_right fun hx => ⟨mem_singleton.1 hx, rfl⟩
    · rw [update_of_ne hj] at hx
      exact .inl hx
  refine ⟨fun j => ?_, fun j => ?_, fun j x hx => ?_, fun j j' x hx hx' => ?_⟩
  · rcases eq_or_ne j i with rfl | hj
    · rw [update_self, hi, map_append, map_append, h.routes, map_singleton, hk, map_singleton]
    · rw [update_of_ne hj, hothers j hj]
      exact h.routes j
  · rcases eq_or_ne j i with rfl | hj
    · rw [update_self]
      exact (h.nodup j).append (nodup_singleton k) (disjoint_singleton.2 (hfresh j))
    · rw [update_of_ne hj]
      exact h.nodup j
  · rcases hmem j x hx with hx | ⟨rfl, -⟩
    · exact Nat.lt_succ_of_lt (h.below j x hx)
    · exact Nat.lt_succ_self x
  · rcases hmem j x hx with hold | ⟨hxk, hji⟩ <;> rcases hmem j' x hx' with hold' | ⟨hxk', hji'⟩
    · exact h.apart j j' x hold hold'
    · exact absurd (hxk' ▸ hold) (hfresh j)
    · exact absurd (hxk ▸ hold') (hfresh j')
    · exact hji.trans hji'.symm

end

section
variable {alloc : Nat → Bool} {rules : List Rule} {st st' : Build} {k n : Nat}
  {places : Nat → List Nat} {w : Rule} {b : Text}

theorem Build.init_inv (alloc : Nat → Bool) (rules : List Rule) :
    (Build.init rules).Inv alloc rules 0 fun _ => [] where
  routes _ := rfl
  nodup _ := nodup_nil
  below _ := nofun
  apart _ _ _ := nofun
  rwalk := by
    cases rules with
    | nil => rfl
    | cons w rules => simp [Build.init, routesHead]
  ahead _ _ := rfl
  pos := Nat.one_pos
  blank _ _ := ⟨rfl, rfl⟩
  whole i hpos hi := absurd hi (Nat.not_lt.2 hpos)
  last i hpos hi := absurd hi (Nat.not_lt.2 hpos)
  start _ := ⟨rfl, rfl⟩
  first h := absurd h (Nat.lt_irrefl 0)

theorem Build.Inv.fresh (h : st.Inv alloc rules k places) (i : Nat) : k ∉ places i :=
  fun hmem => Nat.lt_irrefl k (h.below i k hmem)

variable {blocks : Blocks}

section
variable (h : st.Inv alloc rules k places)
include h

/-- A rule in a block of its own. -/
theorem Build.Inv.own {m : Nat}
    (hk : rules[k]? = some w) (hgains : st.Gains blocks w) (halloc : alloc st.allocs = true) :
    (st.own k blocks m).Inv alloc rules (k + 1)
      (update places st.count (places st.count ++ [k])) := by
  have hnil : places st.count = [] := (h.blank st.count (.inr le_rfl)).2
  have hold : ∀ i, i < blocks.count → i ≠ st.count → i < st.count := by
    intro i hi hne
    rw [hgains.count] at hi
    omega
  have hplaces : Places rules blocks.block (k + 1)
      (update places st.count (places st.count ++ [k])) := by
    refine h.toPlaces.push hk (fun j hj => by rw [hgains.others j hj]) ?_
    have hroutes := h.routes st.count
    rw [hnil, map_nil, eq_comm, map_eq_nil_iff] at hroutes
    rw [hgains.routes, hroutes]
    rfl
  refine ⟨hplaces, h.ahead k le_rfl, ?_, ?_, ?_, ?_, ?_, nofun, ?_⟩
  · intro j hj
    exact (update_of_ne (Nat.ne_of_gt hj) _ _).trans (h.ahead j (Nat.le_of_succ_le hj))
  · exact hgains.count.symm ▸ Nat.succ_pos _
  · intro i hi
    have hi' : i = 0 ∨ st.count + 1 ≤ i := hi.imp_right fun hle => hgains.count ▸ hle
    have hic : i ≠ st.count := by
      have := h.pos
      omega
    show (blocks.block i).pattern = none ∧ _
    rw [hgains.others i hic, update_of_ne hic]
    exact h.blank i (hi'.imp_right Nat.le_of_succ_le)
  · intro i hpos hi
    rcases eq_or_ne i st.count with rfl | hic
    · rw [update_self, hnil]
      exact ⟨congrArg some (update_self _ _ _), update_self _ _ _⟩
    · have hfirst : (st.own k blocks m).firstroute i = st.firstroute i := update_of_ne hic _ _
      rw [update_of_ne hic, hfirst]
      refine (h.whole i hpos (hold i hi hic)).congr fun j hj => update_of_ne ?_ _ _
      exact fun heq => h.fresh i (heq ▸ hj)
  · intro i hpos hi
    rcases eq_or_ne i st.count with rfl | hic
    · have hlast : (st.own k blocks m).lastroute st.count = k := update_self _ _ _
      rw [update_self, hnil, hlast]
      rfl
    · have hlast : (st.own k blocks m).lastroute i = st.lastroute i := update_of_ne hic _ _
      rw [update_of_ne hic, hlast]
      exact h.last i hpos (hold i hi hic)
  · intro _
    show 1 < blocks.count ∧ _
    rw [hgains.count]
    rcases Nat.eq_zero_or_pos k with rfl | hpos
    · obtain ⟨hallocs, hcount⟩ := h.start rfl
      rw [hallocs] at halloc
      rw [hcount]
      exact ⟨Nat.lt_succ_self 1, (congrArg _ hcount.symm).trans (update_self _ _ _), halloc⟩
    · obtain ⟨hcount, hfirst, hone⟩ := h.first hpos
      exact ⟨Nat.lt_succ_of_lt hcount, (update_of_ne (Nat.ne_of_lt hcount) _ _).trans hfirst, hone⟩

/-- A rule that joins a block. -/
theorem Build.Inv.join {i : Nat} (hk : rules[k]? = some w)
    (hpattern : (st.block i).pattern ≠ none) (hjoin : st.join k w b i = some st') :
    st'.Inv alloc rules (k + 1) (update places i (places i ++ [k])) := by
  obtain ⟨blocks, hblocks, rfl⟩ := Option.map_eq_some_iff.1 hjoin
  obtain ⟨hcount, hblock⟩ := Blocks.join_block hblocks
  have hblank : ¬(i = 0 ∨ st.count ≤ i) := fun hi => hpattern (h.blank i hi).1
  obtain ⟨hi0, hilt⟩ := not_or.1 hblank
  have hipos : 0 < i := Nat.pos_of_ne_zero hi0
  have hi : i < st.count := Nat.lt_of_not_le hilt
  have hlast := h.last i hipos hi
  have hmem : st.lastroute i ∈ places i := mem_of_getLast? hlast
  have hlt : st.lastroute i < k := h.below i _ hmem
  have hplaces : Places rules blocks.block (k + 1) (update places i (places i ++ [k])) := by
    refine h.toPlaces.push hk (fun j hj => ?_) ?_
    · rw [hblock, update_of_ne hj]
    · rw [hblock, update_self]
      rfl
  refine ⟨hplaces, ?_, ?_, ?_, ?_, ?_, ?_, nofun, ?_⟩
  · exact (update_of_ne (Nat.ne_of_gt hlt) _ _).trans (h.ahead k le_rfl)
  · intro j hj
    have hjk : j ≠ k := Nat.ne_of_gt hj
    have hjl : j ≠ st.lastroute i := Nat.ne_of_gt (hlt.trans hj)
    exact ((update_of_ne hjk _ _).trans (update_of_ne hjl _ _)).trans
      (h.ahead j (Nat.le_of_succ_le hj))
  · exact hcount.symm ▸ h.pos
  · intro j hj
    have hj' : j = 0 ∨ st.count ≤ j := hj.imp_right fun hle => hcount ▸ hle
    have hji : j ≠ i := fun heq => hblank (heq ▸ hj')
    show (blocks.block j).pattern = none ∧ _
    rw [hblock, update_of_ne hji, update_of_ne hji]
    exact h.blank j hj'
  · intro j hpos hj
    rcases eq_or_ne j i with rfl | hji
    · rw [update_self]
      exact (h.whole j hpos hi).push hlast (h.nodup j) (h.fresh j)
    · rw [update_of_ne hji]
      refine (h.whole j hpos (hcount ▸ hj)).congr fun x hx => ?_
      have hxk : x ≠ k := fun heq => h.fresh j (heq ▸ hx)
      have hxl : x ≠ st.lastroute i := fun heq => hji (h.apart j i x hx (heq ▸ hmem))
      exact (update_of_ne hxk _ _).trans (update_of_ne hxl _ _)
  · intro j hpos hj
    rcases eq_or_ne j i with rfl | hji
    · have hnew : update st.lastroute j k j = k := update_self _ _ _
      rw [update_self]
      exact getLast?_concat.trans (congrArg some hnew.symm)
    · have hold : update st.lastroute i k j = st.lastroute j := update_of_ne hji _ _
      rw [update_of_ne hji]
      exact (h.last j hpos (hcount ▸ hj)).trans (congrArg some hold.symm)
  · intro _
    obtain ⟨hone, hfirst⟩ := h.first (Nat.zero_lt_of_lt hlt)
    exact ⟨hcount.symm ▸ hone, hfirst⟩

/-- A turn moves a rule, or leaves everything as it is. -/
theorem Build.Inv.turn {t : Turn} (hk : rules[k]? = some w)
    (hturn : st.turn alloc k w = some t) : match t with
      | .skipped st' => st' = st ∧ alloc st.allocs = false
      | .done st' => ∃ places', st'.Inv alloc rules (k + 1) places' := by
  rw [Build.turn] at hturn
  split at hturn
  · split at hturn
    · cases hturn
      exact ⟨_, h.own hk (st.gains_addAlone w) ‹_›⟩
    · cases hturn
      exact ⟨rfl, Bool.eq_false_iff.2 ‹_›⟩
  · split at hturn
    · cases hturn
    · split at hturn
      · cases hturn
        refine ⟨_, h.own hk ?_ ‹_›⟩
        split
        · exact st.gains_addNew w _
        · exact (st.gains_addNew w _).dropPattern
      · cases hturn
        exact ⟨rfl, Bool.eq_false_iff.2 ‹_›⟩
    · next hfind =>
      obtain ⟨st', hjoin, rfl⟩ := Option.map_eq_some_iff.1 hturn
      refine ⟨_, h.join hk ?_ hjoin⟩
      rw [Blocks.find_pattern hfind]
      exact nofun

theorem Build.Inv.rwalk_eq_some {j : Nat} (hj : st.rwalk = some j) : j = k ∧ k < rules.length := by
  have hrwalk := h.rwalk
  rw [hj] at hrwalk
  split at hrwalk
  · cases hrwalk
    exact ⟨rfl, ‹_›⟩
  · cases hrwalk

/-- A walk that is skipped was at a rule that it did not move. -/
theorem Build.Inv.run_skipped
    (hrun : st.run alloc rules n = some (.skipped st')) : ∃ k' places',
      st'.Inv alloc rules k' places' ∧ k' < rules.length ∧ alloc st'.allocs = false := by
  induction n generalizing st k places with
  | zero => cases hrun
  | succ n ih =>
    rw [Build.run] at hrun
    split at hrun
    · cases hrun
    · next j hj =>
      obtain ⟨rfl, hlt⟩ := h.rwalk_eq_some hj
      split at hrun
      · cases hrun
      · next w hw =>
        split at hrun
        · cases hrun
        · next hturn =>
          cases hrun
          obtain ⟨rfl, halloc⟩ := h.turn hw hturn
          exact ⟨_, places, h, hlt, halloc⟩
        · next hturn =>
          obtain ⟨places', h'⟩ := h.turn hw hturn
          exact ih h' hrun

end

/-! ## Walks that are not skipped -/

/-- Without a failure a turn is the turn that was modelled without the links. -/
theorem Build.turn_granted (hall : ∀ j, alloc j = true) (hadd : st.toBlocks.add w = some blocks)
    (k : Nat) : ∃ st', st.turn alloc k w = some (.done st') ∧ st'.toBlocks = blocks := by
  rw [Blocks.add] at hadd
  rw [Build.turn]
  cases htail : w.tail with
  | none =>
    simp only [htail, hall, if_true] at hadd ⊢
    cases hadd
    exact ⟨_, rfl, rfl⟩
  | some b =>
    cases hfind : st.find b (st.count + 1) st.bstart with
    | none =>
      simp only [htail, hfind] at hadd
      cases hadd
    | some found =>
      cases found with
      | none =>
        simp only [htail, hfind, hall, if_true] at hadd ⊢
        cases hadd
        exact ⟨_, rfl, if_pos (hall _)⟩
      | some i =>
        simp only [htail, hfind, Build.join] at hadd ⊢
        rw [hadd]
        exact ⟨_, rfl, rfl⟩

/-- The blocks of a walk without a failure are those of the walk without the links, and the lists of
the rules in them are linked. -/
theorem Build.Inv.run_granted (h : st.Inv alloc rules k places)
    (hall : ∀ j, alloc j = true) (hk : k ≤ rules.length) (hn : rules.length - k < n)
    (hadd : st.toBlocks.addAll (rules.drop k) = some blocks) :
    ∃ st' places', st.run alloc rules n = some (.done st') ∧ st'.toBlocks = blocks ∧
      st'.Inv alloc rules rules.length places' := by
  induction n generalizing st k places with
  | zero => exact absurd hn (Nat.not_lt_zero _)
  | succ n ih =>
    rw [Build.run, h.rwalk]
    rcases hk.lt_or_eq with hlt | rfl
    · have hw : rules[k]? = some rules[k] := getElem?_eq_getElem hlt
      rw [drop_eq_getElem_cons hlt, Blocks.addAll] at hadd
      split at hadd
      · cases hadd
      · next blocks' hblocks =>
        obtain ⟨st', hturn, hst'⟩ := Build.turn_granted hall hblocks k
        obtain ⟨places', h'⟩ := h.turn hw hturn
        rw [← hst'] at hadd
        simp only [if_pos hlt, hw, hturn]
        exact ih h' hlt (by omega) hadd
    · rw [drop_length] at hadd
      cases hadd
      simp only [if_neg (Nat.lt_irrefl _)]
      exact ⟨st, places, rfl, rfl, h⟩

end

/-- Without a failure the links make no difference. -/
theorem routerOptimiseAlloc_granted {alloc : Nat → Bool} (hall : ∀ j, alloc j = true)
    (threshold : Int) (rules : List Rule) :
    routerOptimiseAlloc alloc threshold rules =
      (routerOptimise threshold rules).map .optimised := by
  obtain ⟨blocks, -, -, -, hadd, -⟩ :=
    Blocks.addAll_reads Blocks.init_reads Grouping.holds_nil rules
  obtain ⟨st, places, hrun, hst, -⟩ := (Build.init_inv alloc rules).run_granted hall (Nat.zero_le _)
    (Nat.lt_succ_self _) hadd
  rw [Nat.sub_zero] at hrun
  rw [routerOptimiseAlloc, routerOptimise]
  split
  · rfl
  · rw [buildBlocks, if_pos (hall 0), hrun, hadd, ← hst]

/-! ## Walks that are skipped -/

/-- The rules from one on, linked as they are at the start. -/
theorem whole_range' (rules : List Rule) (m k : Nat) (h : k + m = rules.length) :
    Linked.Whole (routesNext rules) (if k < rules.length then some k else none) (range' k m) := by
  induction m generalizing k with
  | zero => exact if_neg (by omega)
  | succ m ih =>
    refine ⟨if_pos (by omega), ?_⟩
    exact ih (k + 1) (by omega)

/-- The list of the router at the start. -/
theorem whole_range (rules : List Rule) :
    Linked.Whole (routesNext rules) (routesHead rules) (List.range rules.length) := by
  have hhead : routesHead rules = if 0 < rules.length then some 0 else none := by
    cases rules with
    | nil => rfl
    | cons w rules => simp [routesHead]
  rw [hhead, range_eq_range']
  exact whole_range' rules rules.length 0 (Nat.zero_add _)

section
variable {alloc : Nat → Bool} {threshold : Int} {rules : List Rule} {st : Build}

/-- Where the walk was when it was skipped. -/
theorem buildBlocks_skipped (h : buildBlocks alloc rules = some (.skipped st)) :
    (st.rnext = routesNext rules ∧ (alloc 0 = false ∨ alloc 1 = false)) ∨
      ∃ k places, st.Inv alloc rules k places ∧ 0 < k ∧ k < rules.length ∧ alloc 0 = true := by
  rw [buildBlocks] at h
  split at h
  · next hzero =>
    obtain ⟨k, places, hinv, hlt, hfail⟩ := (Build.init_inv alloc rules).run_skipped h
    rcases Nat.eq_zero_or_pos k with rfl | hpos
    · rw [(hinv.start rfl).1] at hfail
      exact .inl ⟨funext fun j => hinv.ahead j (Nat.zero_le j), .inr hfail⟩
    · exact .inr ⟨k, places, hinv, hpos, hlt, hzero⟩
  · next hzero =>
    cases h
    exact .inl ⟨rfl, .inl (Bool.eq_false_iff.2 hzero)⟩

/-- What is left of the list of the router when rules were moved: the block of the first rule. -/
theorem Build.Inv.whole_first {k : Nat} {places : Nat → List Nat} (h : st.Inv alloc rules k places)
    (hk : 0 < k) (hlt : k < rules.length) :
    Linked.Whole st.rnext (routesHead rules) (places 1) := by
  obtain ⟨hcount, hfirst, -⟩ := h.first hk
  have hwhole := h.whole 1 Nat.one_pos hcount
  have hhead : routesHead rules = some 0 := by
    simp [routesHead, ne_nil_of_length_pos (Nat.zero_lt_of_lt hlt)]
  rw [hfirst] at hwhole
  rw [hhead]
  exact hwhole

/-- After an optimisation that was skipped the router has the list it had exactly if the first block
or the block of the first rule could not be allocated. -/
theorem skipped_intact_iff (h : routerOptimiseAlloc alloc threshold rules = some (.skipped st)) :
    Linked.Whole st.rnext (routesHead rules) (List.range rules.length) ↔
      alloc 0 = false ∨ alloc 1 = false := by
  have hbuild : buildBlocks alloc rules = some (.skipped st) := by
    rw [routerOptimiseAlloc] at h
    split at h
    · cases h
    · split at h
      · cases h
      · next hbuild =>
        cases h
        exact hbuild
      · obtain ⟨_, _, hend⟩ := Option.map_eq_some_iff.1 h
        cases hend
  rcases buildBlocks_skipped hbuild with ⟨hrnext, hfail⟩ | ⟨k, places, hinv, hpos, hlt, hzero⟩
  · rw [hrnext]
    exact iff_of_true (whole_range rules) hfail
  · refine iff_of_false (fun hwhole => ?_) ?_
    · have hrange := hwhole.unique (hinv.whole_first hpos hlt)
      have hmem : k ∈ places 1 := hrange ▸ mem_range.2 hlt
      exact Nat.lt_irrefl k (hinv.below 1 k hmem)
    · rw [hzero, (hinv.first hpos).2.2]
      simp

end

/-- Two rules, and no memory for the block of the first one. -/
theorem skipped_intact_first : ∃ st,
    routerOptimiseAlloc (· = 0) 1 [.bar 0 "one", .bar 1 "two"] = some (.skipped st) ∧
    Linked.Whole st.rnext (some 0) [0, 1] := by
  have hskipped : routerOptimiseAlloc (· = 0) 1 [.bar 0 "one", .bar 1 "two"] =
      some (.skipped (.init [.bar 0 "one", .bar 1 "two"])) := rfl
  exact ⟨_, hskipped, (skipped_intact_iff hskipped).2 (.inr rfl)⟩

/-- The rule `match * send to relay;`. -/
def Rule.all (id : Nat) : Rule :=
  { Rule.bar id "" with matchtype := .matchall, pattern := [], strmatch := [] }

/-- There is no memory for the block of the third rule. The first two have one block, and are what
is left. -/
theorem skipped_loses_rule : ∃ st,
    routerOptimiseAlloc (· < 3) 1 [.bar 0 "one", .bar 1 "two", .all 2] = some (.skipped st) ∧
    Linked.Whole st.rnext (routesHead [.bar 0 "one", .bar 1 "two", .all 2]) [0, 1] ∧
    ¬Linked.Whole st.rnext (routesHead [.bar 0 "one", .bar 1 "two", .all 2]) [0, 1, 2] :=
  ⟨_, rfl, by decide, by decide⟩

end CarbonRelay
