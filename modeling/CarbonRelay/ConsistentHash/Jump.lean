import CarbonRelay.ConsistentHash.Ring
import CarbonRelay.Lib.Draw

/-!
# The replicas of a jump hash

`jump_bucketpos` ends, and its bucket is one of those it was given (`exists_jumpBucketpos`). With
one more bucket a key stays where it is or moves to the new one. The selection of replicas takes a
bucket out by moving the last one into its place, so the servers it returns come from different
positions of the ring, whichever buckets are picked (`exists_jumpSelect`).
-/

namespace CarbonRelay

/-- Every turn moves `j` up, as the quotient is not below one. -/
theorem jump_up (j key : Nat) :
    j + 1 ≤ (j + 1) * 2 ^ 31 / ((key * 2862933555777941757 + 1) % 2 ^ 64 / 2 ^ 33 + 1) := by
  have hkey : (key * 2862933555777941757 + 1) % 2 ^ 64 / 2 ^ 33 + 1 ≤ 2 ^ 31 := by omega
  exact (Nat.le_div_iff_mul_le (Nat.succ_pos _)).2 (Nat.mul_le_mul_left _ hkey)

variable {bckcnt : Nat}

/-- The loop ends with the last `j` below the number of buckets. -/
theorem exists_jumpLoop : ∀ (fuel key b j : Nat), bckcnt + 1 ≤ j + fuel →
    0 < fuel → b < bckcnt → ∃ b', jumpLoop bckcnt fuel key b j = some b' ∧ b' < bckcnt
  | 0, _, _, _, _, h, _ => absurd h (Nat.lt_irrefl 0)
  | fuel + 1, key, b, j, hfuel, _, hb => by
    rw [jumpLoop]
    split
    · next hj =>
      have hup := jump_up j key
      exact exists_jumpLoop fuel _ j _ (by omega) (by omega) hj
    · exact ⟨b, rfl, hb⟩

/-- `jump_bucketpos` returns one of the buckets. -/
theorem exists_jumpBucketpos (key : Nat) (h : 0 < bckcnt) :
    ∃ b, jumpBucketpos key bckcnt = some b ∧ b < bckcnt :=
  exists_jumpLoop (bckcnt + 1) key 0 0 (by omega) (Nat.succ_pos _) h

/-! ## One more bucket -/

/-- With one more bucket the loop takes the same turns, and maybe one more, which ends in the new
bucket. -/
theorem jumpLoop_succ : ∀ (fuel key b j : Nat), bckcnt + 1 ≤ j + fuel → 0 < fuel →
    ∃ b₁ b₂, jumpLoop bckcnt fuel key b j = some b₁ ∧ jumpLoop (bckcnt + 1) (fuel + 1) key b j =
      some b₂ ∧ (b₂ = b₁ ∨ b₂ = bckcnt)
  | 0, _, _, _, _, h => absurd h (Nat.lt_irrefl 0)
  | fuel + 1, key, b, j, hfuel, _ => by
    have hup := jump_up j key
    rw [jumpLoop, jumpLoop]
    rcases Nat.lt_trichotomy j bckcnt with hlt | rfl | hgt
    · rw [if_pos hlt, if_pos (Nat.lt_succ_of_lt hlt)]
      exact jumpLoop_succ fuel _ j _ (by omega) (by omega)
    · rw [if_neg (Nat.lt_irrefl j), if_pos (Nat.lt_succ_self j), jumpLoop, if_neg (by omega)]
      exact ⟨b, j, rfl, rfl, .inr rfl⟩
    · rw [if_neg (by omega), if_neg (by omega)]
      exact ⟨b, b, rfl, rfl, .inl rfl⟩

/-- The bucket of a key is one of those there are. If one is added at the end, the key stays in its
bucket or moves to the new one. -/
theorem jumpBucketpos_grows (key bckcnt : Nat) (h : 1 ≤ bckcnt) :
    ∃ b b', jumpBucketpos key bckcnt = some b ∧ b < bckcnt ∧
      jumpBucketpos key (bckcnt + 1) = some b' ∧ b' < bckcnt + 1 ∧ (b' = b ∨ b' = bckcnt) := by
  obtain ⟨b, b', hb, hb', hgrows⟩ :=
    @jumpLoop_succ bckcnt (bckcnt + 1) key 0 0 (by omega) (Nat.succ_pos _)
  obtain ⟨_, heq, hlt⟩ := exists_jumpBucketpos key h
  cases heq.symm.trans hb
  refine ⟨b, b', hb, hlt, hb', ?_, hgrows⟩
  rcases hgrows with rfl | rfl
  · exact Nat.lt_succ_of_lt hlt
  · exact Nat.lt_succ_self _

theorem jumpBucketpos_grows_two : ∃ b b', jumpBucketpos 2 1 = some b ∧ b < 1 ∧
    jumpBucketpos 2 (1 + 1) = some b' ∧ b' < 1 + 1 ∧ (b' = b ∨ b' = 1) :=
  jumpBucketpos_grows 2 1 (by decide)

/-! ## The selection of replicas -/

section
variable {β : Type} {bucketpos : Nat → Nat → Nat}

/-- `consistent-hash.c:360`, as `jumpSelect`, with any function that gives a bucket. -/
def selectBy (bucketpos : Nat → Nat → Nat) : Nat → Nat → Nat → List β → Option (List β)
  | 0, _, _, _ => some []
  | i + 1, pos, hash, bcklst => do
    let dest ← bcklst[bucketpos hash (i + 1)]?
    let pos := (pos + 65535) % 65536
    if pos = 0 then some [dest]
    else
      let last ← bcklst[i]?
      let rest ← selectBy bucketpos i pos (xorshift hash) (bcklst.set (bucketpos hash (i + 1)) last)
      some (dest :: rest)

/-- The bucket as a number. -/
def bucketOf (hash i : Nat) : Nat := (jumpBucketpos hash i).getD 0

theorem jumpBucketpos_eq (hash : Nat) {i : Nat} (hi : 0 < i) :
    jumpBucketpos hash i = some (bucketOf hash i) := by
  obtain ⟨b, hb, -⟩ := exists_jumpBucketpos hash hi
  rw [bucketOf, hb]
  rfl

theorem bucketOf_lt (hash i : Nat) (hi : 0 < i) : bucketOf hash i < i := by
  obtain ⟨b, hb, hlt⟩ := exists_jumpBucketpos hash hi
  rw [bucketOf, hb]
  exact hlt

theorem jumpSelect_eq_selectBy (i pos hash : Nat) (bcklst : List Server) :
    jumpSelect i pos hash bcklst = selectBy bucketOf i pos hash bcklst := by
  induction i generalizing pos hash bcklst with
  | zero => rfl
  | succ i ih => simp only [jumpSelect, selectBy, jumpBucketpos_eq hash (Nat.succ_pos i),
    Option.bind_eq_bind,
      Option.bind_some, ih]

/-- The counter does not wrap around, so that many slots are filled. -/
theorem selectBy_eq_draw (i hash : Nat) {pos : Nat} (bcklst : List β) (hpos : 0 < pos)
    (hmax : pos < 65536) :
    selectBy bucketpos i pos hash bcklst = Draw.draw bucketpos xorshift i pos hash bcklst := by
  induction i generalizing pos hash bcklst with
  | zero => rfl
  | succ i ih =>
    have hdec : (pos + 65535) % 65536 = pos - 1 := by omega
    simp only [selectBy, Draw.draw, hdec, Option.bind_eq_bind]
    rcases Nat.eq_or_lt_of_le hpos with rfl | hlt
    · simp only [Nat.sub_self, if_true]
    · simp only [if_neg (show ¬pos - 1 = 0 by omega), if_neg (show ¬pos = 1 by omega),
        ih _ _ (show 0 < pos - 1 by omega) (by omega)]

/-- The selection fills as many slots as it is asked for, from different buckets. -/
theorem exists_jumpSelect (i pos hash : Nat) (bcklst : List Server) (hpos : 0 < pos)
    (hmax : pos < 65536)
    (hi : i ≤ bcklst.length) : ∃ ret rest, jumpSelect i pos hash bcklst = some ret ∧
      ret.length = min pos i ∧ (ret ++ rest).Perm (bcklst.take i) := by
  rw [jumpSelect_eq_selectBy, selectBy_eq_draw i hash bcklst hpos hmax]
  exact Draw.exists_draw bucketOf_lt xorshift hash hpos hi

/-- `consistent-hash.c:341`, the branch of `ch_get_nodes` for a jump hash. The array `bcklst` has
room for `CONN_DESTS_SIZE` servers. -/
def jumpNodes (bucketpos : Nat → Nat → Nat) (ring : ChRing) (replcnt : Nat) (metric : Text) :
    Option (List Server) :=
  if connDestsSize < ring.entrylist.length then none
  else selectBy bucketpos ring.entrylist.length replcnt (Fnv1a.hash64 metric)
    (ring.entrylist.map (·.server))

/-- A lookup in a jump hash is this branch with `jump_bucketpos`. -/
theorem chGetNodes_jump (hashpos : ChType → Text → Nat) (past fuel : Nat) {ring : ChRing}
    (replcnt : Nat) (metric : Text) (htype : ring.type = .jumpFnv1a)
    (hlength : ring.entrylist.length ≤ connDestsSize) :
    chGetNodes hashpos past fuel ring replcnt metric = jumpNodes bucketOf ring replcnt metric := by
  rw [chGetNodes, htype, jumpNodes, if_neg (Nat.not_lt.2 hlength)]
  exact jumpSelect_eq_selectBy _ _ _ _

/-- For any function that gives a bucket, the slots are filled from different positions of the ring.
-/
theorem jumpNodes_distinct (hbucketpos : ∀ hash i, 0 < i → bucketpos hash i < i) (ring : ChRing)
    (metric : Text)
    (replcnt : Nat) (hlength : ring.entrylist.length ≤ connDestsSize) (hpos : 1 ≤ replcnt)
    (hle : replcnt ≤ ring.entrylist.length) :
    ∃ positions : List (Fin ring.entrylist.length), positions.Nodup ∧ positions.length = replcnt ∧
      jumpNodes bucketpos ring replcnt metric =
        some (positions.map fun x => (ring.entrylist.get x).server) := by
  have hmax : replcnt < 65536 := by
    have : connDestsSize = 64 := rfl
    omega
  obtain ⟨positions, hnodup, hcount, hdraw⟩ :=
    Draw.exists_positions (l := ring.entrylist) hbucketpos xorshift (Fnv1a.hash64 metric) hpos hle
  refine ⟨positions, hnodup, hcount, ?_⟩
  rw [jumpNodes, if_neg (Nat.not_lt.2 hlength), selectBy_eq_draw _ _ _ hpos hmax,
    Draw.draw_map, hdraw, Option.map_some, List.map_map]
  rfl

end

/-- The last bucket is always taken. -/
theorem jumpNodes_distinct_last :
    ∃ positions : List (Fin 2), positions.Nodup ∧ positions.length = 2 ∧
      jumpNodes (fun _ i => i - 1) ⟨.jumpFnv1a, 1, [⟨0, .tcp 0 ['a'] 2003⟩, ⟨1, .tcp 1 ['b'] 2003⟩],
        2⟩ 2 ['m'] = some (positions.map fun x =>
          ([⟨0, .tcp 0 ['a'] 2003⟩, ⟨1, .tcp 1 ['b'] 2003⟩] : List ChRingEntry)[x].server) :=
  jumpNodes_distinct (fun _ _ hi => Nat.sub_lt hi Nat.one_pos)
    ⟨.jumpFnv1a, 1, [⟨0, .tcp 0 ['a'] 2003⟩, ⟨1, .tcp 1 ['b'] 2003⟩], 2⟩ ['m'] 2
      (by decide) (by decide) (by decide)

end CarbonRelay
