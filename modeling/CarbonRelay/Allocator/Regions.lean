import CarbonRelay.Lib.Machine
import Mathlib

/-!
# Memory by regions

`allocator.c`: the memory of a configuration is taken from a chain of regions, each of which hands
out its memory from the front and takes nothing back. The test whether a request fits is made with
the size that was asked for, what is handed out is rounded up, and the free memory is computed
without a sign. So it rests on the sizes of the regions and of what was handed out being multiples
of the word (`Region.Sound`) that nothing is handed out twice (`raMalloc_run`).
-/

namespace CarbonRelay

open List

/-! ## The code -/

/-- A region: where its memory starts, where the memory starts that is not handed out, and its size.
-/
structure Region where
  memoryRegion : Nat
  nextp : Nat
  sz : Nat
  deriving DecidableEq

/-- `ra->sz - (ra->nextp - ra->memory_region)`, which has no sign. -/
def Region.free (r : Region) : Nat := ((r.sz - (r.nextp - r.memoryRegion) : Int) % 2 ^ 64).toNat

/-- A request rounded up to words is handed out. -/
def Region.advance (r : Region) (sz : Nat) : Region :=
  let nsz := sz % 8
  { r with nextp := r.nextp + if nsz ≠ 0 then (sz + (8 - nsz)) % 2 ^ 64 else sz }

/-- `allocator.c:46 ra_alloc`: the size of the region for a request. -/
def raAllocSize (sz : Nat) : Nat :=
  let nsz := 256 * 1024
  if nsz < sz then (sz / 1024 + 1) * 1024 % 2 ^ 64 else nsz

/-- `allocator.c:46 ra_alloc`: a new region at the memory the system gives. -/
def raAlloc (memory sz : Nat) : Region := ⟨memory, memory, raAllocSize sz⟩

/-- `allocator.c:69 ra_new` -/
def raNew (memory : Nat) : List Region := [raAlloc memory 0]

/-- The loop over the regions there are: the block, and the chain after it. -/
def raWalk (sz : Nat) : List Region → Option (Nat × List Region)
  | [] => none
  | r :: ra =>
    if sz ≤ r.free then some (r.nextp, r.advance sz :: ra)
    else (raWalk sz ra).map fun (p, ra) => (p, r :: ra)

/-- `allocator.c:86 ra_malloc` on a chain: the block or `NULL`, and the chain after it, for the
answers of the system to the requests for new regions. There is no result if the loop goes on after
the last answer. -/
def raMalloc (sz : Nat) : List (Option Nat) → List Region → Option (Option Nat × List Region)
  | [], ra => (raWalk sz ra).map fun (p, ra) => (some p, ra)
  | answer :: answers, ra =>
    match raWalk sz ra, answer with
    | some (p, ra), _ => some (some p, ra)
    | none, none => some (none, ra)
    -- the loop goes on at the new region
    | none, some memory =>
      (raMalloc sz answers [raAlloc memory sz]).map fun (p, more) => (p, ra ++ more)

/-! ## Regions -/

/-- Two ranges, each given by its start and its size, have nothing in common. -/
def Separate (x y : Nat × Nat) : Prop := x.1 + x.2 ≤ y.1 ∨ y.1 + y.2 ≤ x.1

instance (x y : Nat × Nat) : Decidable (Separate x y) := inferInstanceAs (Decidable (_ ∨ _))

theorem Separate.symm {x y : Nat × Nat} (h : Separate x y) : Separate y x := Or.symm h

namespace Region

/-- Where a region starts, and its size. -/
def extent (r : Region) : Nat × Nat := (r.memoryRegion, r.sz)

/-- The part that is handed out is inside the region, and whole words are. -/
structure Sound (r : Region) : Prop where
  le : r.memoryRegion ≤ r.nextp
  within : r.nextp - r.memoryRegion ≤ r.sz
  words : 8 ∣ r.nextp - r.memoryRegion
  sizeWords : 8 ∣ r.sz
  size : r.sz < 2 ^ 64

/-- A block inside the part that is handed out, at a word of the region. -/
structure Holds (r : Region) (b : Nat × Nat) : Prop where
  le : r.memoryRegion ≤ b.1
  inside : b.1 + b.2 ≤ r.nextp
  words : 8 ∣ b.1 - r.memoryRegion

variable {r r' : Region} {b b' : Nat × Nat} {sz memory : Nat}

/-- The test does not wrap. -/
theorem Sound.free_eq (h : r.Sound) : r.free = r.sz - (r.nextp - r.memoryRegion) := by
  obtain ⟨hle, hwithin, -, -, hsize⟩ := h
  rw [free, Int.emod_eq_of_lt]
  all_goals omega

/-- Where a request fits, the request rounded up fits. -/
theorem Sound.advance (h : r.Sound) (hfits : sz ≤ r.free) : (r.advance sz).Sound := by
  rw [h.free_eq] at hfits
  obtain ⟨hle, hwithin, hwords, hsizeWords, hsize⟩ := h
  have hround : (if sz % 8 ≠ 0 then (sz + (8 - sz % 8)) % 2 ^ 64 else sz) = (sz + 7) / 8 * 8 := by
    split <;> omega
  constructor <;> simp only [Region.advance, hround] <;> omega

theorem holds_advance (h : r.Sound) (hfits : sz ≤ r.free) : (r.advance sz).Holds (r.nextp, sz) := by
  rw [h.free_eq] at hfits
  obtain ⟨hle, hwithin, hwords, hsizeWords, hsize⟩ := h
  refine ⟨hle, ?_, hwords⟩
  simp only [Region.advance]
  split <;> omega

theorem Holds.advance (h : r.Holds b) : (r.advance sz).Holds b :=
  ⟨h.le, Nat.le_add_right_of_le h.inside, h.words⟩

theorem Holds.separate (h : r.Holds b) (h' : r'.Holds b') (hr : r.Sound) (hr' : r'.Sound)
    (hseparate : Separate r.extent r'.extent) : Separate b b' := by
  obtain ⟨hle, hinside, -⟩ := h
  obtain ⟨hle', hinside', -⟩ := h'
  have hwithin := hr.within
  have hwithin' := hr'.within
  simp only [Separate, extent] at hseparate ⊢
  omega

/-- A request of which the size does not wrap fits into the region made for it. -/
theorem sound_raAlloc (hsz : sz < 2 ^ 64 - 1 - 1024) :
    (raAlloc memory sz).Sound ∧ sz ≤ (raAlloc memory sz).free := by
  have hsize : sz ≤ raAllocSize sz ∧ 8 ∣ raAllocSize sz ∧ raAllocSize sz < 2 ^ 64 := by
    simp only [raAllocSize]
    split <;> omega
  have hsound : (raAlloc memory sz).Sound := by
    constructor <;> simp only [raAlloc] <;> omega
  refine ⟨hsound, ?_⟩
  rw [hsound.free_eq]
  simpa [raAlloc] using hsize.1

end Region

/-! ## Chains -/

/-- What holds of a chain and of the blocks it has handed out. -/
structure Chain (blocks : List (Nat × Nat)) (ra : List Region) : Prop where
  sound : ∀ r ∈ ra, r.Sound
  regions : (ra.map Region.extent).Pairwise Separate
  held : ∀ b ∈ blocks, ∃ r ∈ ra, r.Holds b
  blocks : blocks.Pairwise Separate

/-- A request that fits into a region of the chain. -/
theorem Chain.advance {blocks : List (Nat × Nat)} {front back : List Region} {r : Region} {sz : Nat}
    (h : Chain blocks (front ++ r :: back)) (hfits : sz ≤ r.free) :
    Chain (blocks ++ [(r.nextp, sz)]) (front ++ r.advance sz :: back) := by
  obtain ⟨hsound, hregions, hheld, hblocks⟩ := h
  have hr : r.Sound := hsound r (mem_append_right _ mem_cons_self)
  have hmem {r' : Region} : r' ∈ front ++ r :: back ↔ r' = r ∨ r' ∈ front ++ back := by
    simp only [mem_append, mem_cons, or_left_comm]
  have hmem' {r' : Region} : r' ∈ front ++ r.advance sz :: back ↔ r' = r.advance sz ∨
      r' ∈ front ++ back := by
    simp only [mem_append, mem_cons, or_left_comm]
  refine ⟨fun r' hr' => ?_, ?_, fun b hb => ?_, ?_⟩
  · rcases hmem'.1 hr' with rfl | hr'
    · exact hr.advance hfits
    · exact hsound r' (hmem.2 (.inr hr'))
  · rw [map_append, map_cons] at hregions ⊢
    exact hregions
  · rcases mem_append.1 hb with hb | hb
    · obtain ⟨r', hr', hholds⟩ := hheld b hb
      rcases hmem.1 hr' with rfl | hr'
      · exact ⟨_, hmem'.2 (.inl rfl), hholds.advance⟩
      · exact ⟨r', hmem'.2 (.inr hr'), hholds⟩
    · obtain rfl := mem_singleton.1 hb
      exact ⟨_, hmem'.2 (.inl rfl), Region.holds_advance hr hfits⟩
  · refine pairwise_append.2 ⟨hblocks, pairwise_singleton _ _, fun b hb b' hb' => ?_⟩
    obtain rfl := mem_singleton.1 hb'
    obtain ⟨r', hr', hholds⟩ := hheld b hb
    rcases hmem.1 hr' with rfl | hr''
    · exact .inl hholds.inside
    · rw [map_append, map_cons, pairwise_middle Separate.symm, pairwise_cons,
        ← map_append] at hregions
      exact hholds.separate (Region.holds_advance hr hfits) (hsound r' hr') (hr.advance hfits)
        (hregions.1 _ (mem_map_of_mem hr'')).symm

variable {ra : List Region}

theorem Chain.append {blocks : List (Nat × Nat)} {r : Region} (h : Chain blocks ra)
    (hr : r.Sound) (hseparate : ∀ r' ∈ ra, Separate r'.extent r.extent) :
    Chain blocks (ra ++ [r]) where
  sound := forall_mem_append.2 ⟨h.sound, forall_mem_singleton.2 hr⟩
  regions := by
    rw [map_append, map_singleton]
    refine pairwise_append.2 ⟨h.regions, pairwise_singleton _ _, ?_⟩
    simpa using hseparate
  held b hb := by
    obtain ⟨r', hr', hholds⟩ := h.held b hb
    exact ⟨r', mem_append_left _ hr', hholds⟩
  blocks := h.blocks

/-- A walk hands out from the first region into which the request fits. -/
theorem raWalk_eq_some {sz p : Nat} {ra' : List Region} (h : raWalk sz ra = some (p, ra')) :
    ∃ front r back, ra = front ++ r :: back ∧ sz ≤ r.free ∧ p = r.nextp ∧
      ra' = front ++ r.advance sz :: back := by
  induction ra generalizing ra' with
  | nil => cases h
  | cons r ra ih =>
    rw [raWalk] at h
    split at h
    next hfits =>
      cases h
      exact ⟨[], r, ra, rfl, hfits, rfl, rfl⟩
    next =>
      obtain ⟨⟨p, ra'⟩, hwalk, heq⟩ := Option.map_eq_some_iff.1 h
      cases heq
      obtain ⟨front, s, back, rfl, hfits, rfl, rfl⟩ := ih hwalk
      exact ⟨r :: front, s, back, rfl, hfits, rfl, rfl⟩

/-! ## Runs -/

/-- A call of `ra_malloc`: the size, and the memory of the region the system gives if it is asked
for one. -/
structure RaRequest where
  sz : Nat
  memory : Nat

/-- A call that gets memory. -/
def raStep (ra : List Region) (q : RaRequest) : Option (List Region × Nat) :=
  match raMalloc q.sz [some q.memory] ra with
  | some (some p, ra) => some (ra, p)
  | _ => none

/-- The size does not wrap, and a region the system is asked for is none of the others'. -/
def RaRequest.Served (ra : List Region) (q : RaRequest) : Prop :=
  q.sz < 2 ^ 64 - 1 - 1024 ∧
    (raWalk q.sz ra = none → ∀ r ∈ ra, Separate r.extent (raAlloc q.memory q.sz).extent)

instance (ra : List Region) (q : RaRequest) : Decidable (q.Served ra) :=
  inferInstanceAs (Decidable (_ ∧ _))

/-- The blocks that answer the requests. -/
def raBlocks (calls : List (RaRequest × Nat)) : List (Nat × Nat) :=
  calls.map fun (q, p) => (p, q.sz)

theorem raStep_chain {calls : List (RaRequest × Nat)} {q : RaRequest}
    (h : Chain (raBlocks calls) ra) (hq : q.Served ra) :
    ∃ ra' p, raStep ra q = some (ra', p) ∧ Chain (raBlocks (calls ++ [(q, p)])) ra' := by
  obtain ⟨hsz, hseparate⟩ := hq
  simp only [raBlocks, map_append, map_singleton]
  cases hwalk : raWalk q.sz ra with
  | some x =>
    obtain ⟨p, ra'⟩ := x
    obtain ⟨front, r, back, rfl, hfits, rfl, rfl⟩ := raWalk_eq_some hwalk
    refine ⟨_, _, ?_, h.advance hfits⟩
    simp only [raStep, raMalloc, hwalk]
  | none =>
    obtain ⟨hsound, hfits⟩ := @Region.sound_raAlloc q.sz q.memory hsz
    refine ⟨_, _, ?_, (h.append hsound (hseparate hwalk)).advance hfits⟩
    simp only [raStep, raMalloc, hwalk, raWalk, if_pos hfits, Option.map_some]

/-- Every request is answered by a block inside a region, at a word of it, which has nothing in
common with the blocks before it, and the free memory is what is left of a region. -/
theorem raMalloc_run (memory : Nat) (qs : List RaRequest)
    (hqs : Machine.Along raStep (fun ra q => q.Served ra) (raNew memory) qs) :
    ∃ ra ps, Machine.run raStep (raNew memory) qs = some (ra, ps) ∧ ps.length = qs.length ∧
      (∀ b ∈ raBlocks (qs.zip ps), ∃ r ∈ ra, r.memoryRegion ≤ b.1 ∧
        b.1 + b.2 ≤ r.memoryRegion + r.sz ∧ 8 ∣ b.1 - r.memoryRegion) ∧
      (raBlocks (qs.zip ps)).Pairwise Separate ∧
      ∀ r ∈ ra, r.nextp - r.memoryRegion ≤ r.sz ∧ r.free = r.sz - (r.nextp - r.memoryRegion) := by
  have hnew : Chain (raBlocks []) (raNew memory) :=
    ⟨forall_mem_singleton.2 (Region.sound_raAlloc
      (by decide)).1, pairwise_singleton _ _, fun _ => nofun, .nil⟩
  obtain ⟨ra, ps, hrun, hlength, hchain⟩ :=
    Machine.exists_run_along (I := fun calls => Chain (raBlocks calls))
      (fun _ _ _ => raStep_chain) hnew hqs
  rw [nil_append] at hchain
  refine ⟨ra, ps, hrun, hlength, fun b hb => ?_, hchain.blocks, fun r hr => ?_⟩
  · obtain ⟨r, hr, hle, hinside, hwords⟩ := hchain.held b hb
    have hwithin := (hchain.sound r hr).within
    exact ⟨r, hr, hle, by omega, hwords⟩
  · exact ⟨(hchain.sound r hr).within, (hchain.sound r hr).free_eq⟩

theorem raMalloc_run_three : ∃ ra ps,
    Machine.run raStep (raNew 4096) [⟨5, 0⟩, ⟨300000, 1000000⟩, ⟨8, 0⟩] = some (ra, ps) ∧
      ps.length = 3 ∧
      (∀ b ∈ raBlocks ([⟨5, 0⟩, ⟨300000, 1000000⟩, ⟨8, 0⟩].zip ps), ∃ r ∈ ra, r.memoryRegion ≤ b.1 ∧
        b.1 + b.2 ≤ r.memoryRegion + r.sz ∧ 8 ∣ b.1 - r.memoryRegion) ∧
      (raBlocks ([⟨5, 0⟩, ⟨300000, 1000000⟩, ⟨8, 0⟩].zip ps)).Pairwise Separate ∧
      ∀ r ∈ ra, r.nextp - r.memoryRegion ≤ r.sz ∧ r.free = r.sz - (r.nextp - r.memoryRegion) :=
  raMalloc_run _ _ (by decide +kernel)

end CarbonRelay
