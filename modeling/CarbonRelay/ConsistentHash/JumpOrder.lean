import Mathlib.Order.WellFounded
import Mathlib.Logic.Equiv.Basic
import CarbonRelay.ConsistentHash.Fill

/-!
# The order of the buckets of a jump hash

The ring of a `jump_fnv1a_ch` cluster is the list of its buckets. `entrycmp_jump_fnv1a` compares two
instances as numbers when both are numbers, by the difference truncated to an `int`, and as texts
otherwise (`instcmp`). Each of the two comparisons is an order, but instances of both kinds can form
a cycle, and the truncated difference can call two numbers equal or each below the other.
`OrderedFrom` is what the instances have to meet for the order of the buckets to be well defined
(`BucketOrder`): seen from some number, the numbers lie in half of the range of an `int` without
meeting, and no text stands between two of them against their order.
-/

namespace CarbonRelay

open List

/-! ## Comparing instances -/

/-- The number an instance is for `strtol`, when that reads all of it. -/
def instNumber (i : Text) : Option Int :=
  if (Text.strtol i).2 = [] then some (Text.strtol i).1 else none

/-- `consistent-hash.c:165 entrycmp_jump_fnv1a`, for servers with the instances `i` and `j`. -/
def instcmp (i j : Text) : Int :=
  match instNumber i, instNumber j with
  | some v, some w => Int.bmod (v - w) (2 ^ 32)
  | _, _ => Text.strcmp i j

variable {i j : Text}

theorem instcmp_of_numbers {v w : Int} (hi : instNumber i = some v)
    (hj : instNumber j = some w) : instcmp i j = Int.bmod (v - w) (2 ^ 32) := by
  rw [instcmp, hi, hj]

theorem instcmp_of_left (hi : instNumber i = none) : instcmp i j = Text.strcmp i j := by
  rw [instcmp, hi]

theorem instcmp_of_right (hj : instNumber j = none) : instcmp i j = Text.strcmp i j := by
  rw [instcmp, hj]
  cases instNumber i <;> rfl

theorem entrycmp_jump (l r : ChRingEntry) :
    entrycmpJumpFnv1a l r =
      match l.server.inst, r.server.inst with
      | none, none => (l.pos : Int) - r.pos
      | none, some _ => 1
      | some _, none => -1
      | some i, some j => instcmp i j := by
  rw [entrycmpJumpFnv1a]
  cases l.server.inst <;> cases r.server.inst <;> try rfl
  next i j =>
  simp only [instcmp, instNumber]
  split_ifs <;> simp_all

/-- The distance of `v` from `base` going up, for a number that wraps around after 32 bits. -/
def wrapped (base v : Int) : Int := (v - base) % 2 ^ 32

/-- The instances `insts` have a well defined order: seen from `base`, the numbers among them are
less than half of the range apart, no two of them meet, and a text stands between two of them only
in their order. -/
structure OrderedFrom (base : Int) (insts : List Text) : Prop where
  range : ∀ i ∈ insts, ∀ v ∈ instNumber i, wrapped base v < 2 ^ 31
  distinct : ∀ i ∈ insts, ∀ j ∈ insts, ∀ v ∈ instNumber i, ∀ w ∈ instNumber j, i ≠ j →
    wrapped base v ≠ wrapped base w
  between : ∀ i ∈ insts, ∀ s ∈ insts, ∀ j ∈ insts, ∀ v ∈ instNumber i, ∀ w ∈ instNumber j,
    instNumber s = none → Text.strcmp i s < 0 → Text.strcmp s j < 0 →
      wrapped base v < wrapped base w

/-- Within half of the range the truncated difference is that of the distances. -/
theorem bmod_sub_eq {base v w : Int} (hv : wrapped base v < 2 ^ 31) (hw : wrapped base w < 2 ^ 31) :
    Int.bmod (v - w) (2 ^ 32) = wrapped base v - wrapped base w := by
  rw [Int.bmod_def]
  unfold wrapped at *
  split <;> omega

section ordered

variable {base : Int} {insts : List Text}

variable {i j : Text}

theorem OrderedFrom.instcmp_numbers (h : OrderedFrom base insts) (hi : i ∈ insts)
    (hj : j ∈ insts) {v w : Int} (hv : instNumber i = some v) (hw : instNumber j = some w) :
    instcmp i j = wrapped base v - wrapped base w := by
  rw [instcmp_of_numbers hv hw]
  exact bmod_sub_eq (h.range i hi v hv) (h.range j hj w hw)

/-- Texts of different kinds do not compare equal. -/
theorem strcmp_ne_zero_of_kinds {v : Int} (hi : instNumber i = some v)
    (hj : instNumber j = none) : Text.strcmp i j ≠ 0 := by
  intro h
  rw [Text.strcmp_eq_zero.1 h, hj] at hi
  cases hi

/-- Ordered instances are compared consistently. -/
theorem OrderedFrom.isComparatorOn (h : OrderedFrom base insts) :
    IsComparatorOn (· ∈ insts) instcmp where
  flip i j hi hj := by
    rcases hv : instNumber i with - | v
    · rw [instcmp_of_left hv, instcmp_of_right hv]
      exact Text.strcmp_isComparator.flip i j
    · rcases hw : instNumber j with - | w
      · rw [instcmp_of_left hw, instcmp_of_right hw]
        exact Text.strcmp_isComparator.flip i j
      · rw [h.instcmp_numbers hi hj hv hw, h.instcmp_numbers hj hi hw hv]
        omega
  trans i j k hi hj hk := by
    have hstr := Text.strcmp_isComparator
    have htrans := hstr.trans i j k
    rcases hv : instNumber i with - | v <;> rcases hw : instNumber j with - | w <;>
      rcases hx : instNumber k with - | x
    · rwa [instcmp_of_left hv, instcmp_of_left hw, instcmp_of_left hv]
    · rwa [instcmp_of_left hv, instcmp_of_left hw, instcmp_of_left hv]
    · rwa [instcmp_of_left hv, instcmp_of_right hx, instcmp_of_left hv]
    · rw [instcmp_of_left hv, h.instcmp_numbers hj hk hw hx, instcmp_of_left hv]
      intro hij hjk
      by_contra hik
      have hne := strcmp_ne_zero_of_kinds hw hv
      have hzero := hstr.eq_zero_comm (a := i) (b := j)
      have hki := hstr.flip i k
      have hki' := hstr.eq_zero_comm (a := i) (b := k)
      have := h.between k hk i hi j hj x hx w hw hv (by omega) (by omega)
      omega
    · rwa [instcmp_of_right hw, instcmp_of_left hw, instcmp_of_right hx]
    · rw [instcmp_of_right hw, instcmp_of_left hw, h.instcmp_numbers hi hk hv hx]
      intro hij hjk
      have hne := strcmp_ne_zero_of_kinds hv hw
      have hne' := strcmp_ne_zero_of_kinds hx hw
      have hzero := hstr.eq_zero_comm (a := j) (b := k)
      have := h.between i hi j hj k hk v hv x hx hw (by omega) (by omega)
      omega
    · rw [h.instcmp_numbers hi hj hv hw, instcmp_of_right hx, instcmp_of_right hx]
      intro hij hjk
      by_contra hik
      have hne := strcmp_ne_zero_of_kinds hw hx
      have hki := hstr.flip i k
      have hki' := hstr.eq_zero_comm (a := i) (b := k)
      have := h.between j hj k hk i hi w hw v hv hx (by omega) (by omega)
      omega
    · rw [h.instcmp_numbers hi hj hv hw, h.instcmp_numbers hj hk hw hx,
        h.instcmp_numbers hi hk hv hx]
      omega

/-- Ordered instances that compare equal are equal. -/
theorem OrderedFrom.eq_of_instcmp (h : OrderedFrom base insts) (hi : i ∈ insts)
    (hj : j ∈ insts) (hij : instcmp i j = 0) : i = j := by
  rcases hv : instNumber i with - | v
  · exact Text.strcmp_eq_zero.1 (instcmp_of_left hv ▸ hij)
  rcases hw : instNumber j with - | w
  · exact Text.strcmp_eq_zero.1 (instcmp_of_right hw ▸ hij)
  by_contra hne
  rw [h.instcmp_numbers hi hj hv hw] at hij
  exact h.distinct i hi j hj v hv w hw hne (by omega)

end ordered

/-- The distance of a number that the truncated difference puts above `base`, and not below. -/
theorem wrapped_lt {base v : Int} (h : Int.bmod (base - v) (2 ^ 32) < 0)
    (h' : ¬Int.bmod (v - base) (2 ^ 32) < 0) : wrapped base v < 2 ^ 31 := by
  rw [Int.bmod_def] at h h'
  unfold wrapped
  split at h <;> split at h' <;> omega

/-- Instances of which every two different ones are ordered, by a strict weak order, are ordered
from the smallest number. -/
theorem exists_orderedFrom {insts : List Text}
    (h : IsStrictWeakOn (· ∈ insts) fun i j => instcmp i j < 0)
    (htie : ∀ i ∈ insts, ∀ j ∈ insts, i ≠ j → instcmp i j < 0 ∨ instcmp j i < 0) :
    ∃ base, OrderedFrom base insts := by
  rcases Set.eq_empty_or_nonempty {i | i ∈ insts ∧ ∃ v, instNumber i = some v} with hnil | hne
  · have hnone : ∀ i ∈ insts, ∀ v, instNumber i ≠ some v := by
      intro i hi v hv
      exact (Set.ext_iff.1 hnil i).1 ⟨hi, v, hv⟩
    exact ⟨0, fun i hi v hv => absurd hv (hnone i hi v),
      fun i hi _ _ v hv => absurd hv (hnone i hi v),
      fun i hi _ _ _ _ v hv => absurd hv (hnone i hi v)⟩
  · obtain ⟨m, ⟨hm, base, hbase⟩, hmin⟩ := (measure (rankIn instcmp insts)).wf.has_min _ hne
    have hrange : ∀ i ∈ insts, ∀ v, instNumber i = some v → wrapped base v < 2 ^ 31 := by
      intro i hi v hv
      rcases eq_or_ne m i with rfl | hne
      · cases hbase.symm.trans hv
        simp [wrapped]
      · have him : ¬instcmp i m < 0 := fun him => hmin i ⟨hi, v, hv⟩ (rankIn_lt h hi hm him)
        have hmi := (htie m hm i hi hne).resolve_right him
        rw [instcmp_of_numbers hbase hv] at hmi
        rw [instcmp_of_numbers hv hbase] at him
        exact wrapped_lt hmi him
    have hcmp : ∀ i ∈ insts, ∀ j ∈ insts, ∀ v w, instNumber i = some v → instNumber j = some w →
        instcmp i j = wrapped base v - wrapped base w := by
      intro i hi j hj v w hv hw
      rw [instcmp_of_numbers hv hw]
      exact bmod_sub_eq (hrange i hi v hv) (hrange j hj w hw)
    refine ⟨base, hrange, fun i hi j hj v hv w hw hij => ?_,
      fun i hi s hs j hj v hv w hw hsn his hsj => ?_⟩
    · have := htie i hi j hj hij
      rw [hcmp i hi j hj v w hv hw, hcmp j hj i hi w v hw hv] at this
      omega
    · have := h.trans i s j hi hs hj (by rwa [instcmp_of_right hsn]) (by rwa [instcmp_of_left hsn])
      rw [hcmp i hi j hj v w hv hw] at this
      omega

/-! ## The entries of the ring -/

section entries

variable {hashpos : ChType → Text → Nat}

/-- The entries of the servers of a jump hash, as they are added. -/
abbrev bucketEntries (hashpos : ChType → Text → Nat) (servers : List Server) : List ChRingEntry :=
  chEntriesFrom hashpos .jumpFnv1a 0 servers

/-- The buckets of a ring that is sorted by `qsort`. -/
def buckets (hashpos : ChType → Text → Nat)
    (qsort : (ChRingEntry → ChRingEntry → Int) → List ChRingEntry → List ChRingEntry)
    (servers : List Server) : List Server :=
  (overwriteDuplicates (qsort entrycmpJumpFnv1a (bucketEntries hashpos servers))).map (·.server)

/-- The buckets are the servers of the sorted entries. -/
theorem buckets_eq {qsort : (ChRingEntry → ChRingEntry → Int) → List ChRingEntry → List ChRingEntry}
    (hperm : ∀ cmp l, (qsort cmp l).Perm l) (servers : List Server) :
    buckets hashpos qsort servers =
      (qsort entrycmpJumpFnv1a (bucketEntries hashpos servers)).map (·.server) := by
  rw [buckets, overwriteDuplicates_eq_self]
  refine (((hperm _ _).map _).nodup_iff).2 ?_
  rw [map_pos_chEntriesFrom]
  exact nodup_range'

/-- The comparison of two servers as buckets, whatever their positions. -/
def bucketcmp (s s' : Server) : Int := entrycmpJumpFnv1a ⟨0, s⟩ ⟨0, s'⟩

theorem bucketcmp_eq (s s' : Server) :
    bucketcmp s s' = compareOptionLast instcmp s.inst s'.inst := by
  rw [bucketcmp, entrycmp_jump]
  cases s.inst <;> cases s'.inst <;> rfl

/-- Entries at different positions of servers with different instances compare as the servers. -/
theorem entrycmp_eq_bucketcmp {e e' : ChRingEntry} (h : e.server.inst ≠ e'.server.inst ∨ e = e') :
    entrycmpJumpFnv1a e e' = bucketcmp e.server e'.server := by
  rw [bucketcmp, entrycmp_jump, entrycmp_jump]
  rcases h with h | rfl
  · cases hi : e.server.inst <;> cases hj : e'.server.inst <;> simp_all
  · cases hi : e.server.inst <;> simp

variable {servers : List Server}

/-- Two entries of servers with different instances. -/
theorem inst_ne_or_eq (hinst : (servers.map (·.inst)).Nodup)
    {e e' : ChRingEntry} (he : e ∈ bucketEntries hashpos servers)
    (he' : e' ∈ bucketEntries hashpos servers) : e.server.inst ≠ e'.server.inst ∨ e = e' := by
  rw [← map_server_chEntriesFrom hashpos 0 servers, map_map] at hinst
  by_contra hne
  obtain ⟨heq, hne⟩ := not_or.1 hne
  exact hne (inj_on_of_nodup_map hinst he he' (not_not.1 heq))

theorem exists_mem_bucketEntries {s : Server} (hs : s ∈ servers) :
    ∃ e ∈ bucketEntries hashpos servers, e.server = s := by
  rw [← map_server_chEntriesFrom hashpos 0 servers] at hs
  exact mem_map.1 hs

/-- The rank of an entry is that of its server. -/
theorem rankIn_bucketEntries (hinst : (servers.map (·.inst)).Nodup)
    {e : ChRingEntry} (he : e ∈ bucketEntries hashpos servers) :
    rankIn entrycmpJumpFnv1a (bucketEntries hashpos servers) e =
      rankIn bucketcmp servers e.server := by
  conv_rhs => rw [rankIn, ← map_server_chEntriesFrom hashpos 0 servers, countP_map]
  refine countP_congr fun x hx => ?_
  rw [entrycmp_eq_bucketcmp (inst_ne_or_eq hinst hx he), Function.comp_apply]

/-- Servers that are in the order of their ranks are the buckets, for insertion sort. -/
theorem buckets_rankSort (hinst : (servers.map (·.inst)).Nodup)
    (h : servers.Pairwise fun s s' => rankIn bucketcmp servers s ≤ rankIn bucketcmp servers s') :
    buckets hashpos rankSort servers = servers := by
  rw [buckets_eq SortsMembers.rankSort.perm, rankSort_eq_self, map_server_chEntriesFrom]
  conv at h => enter [2]; rw [← map_server_chEntriesFrom hashpos 0 servers]
  refine (pairwise_map.1 h).imp_of_mem fun {e e'} he he' hle => ?_
  rwa [rankIn_bucketEntries hinst he, rankIn_bucketEntries hinst he']

end entries

/-! ## The order of the buckets -/

/-- The instances of the servers that have one. -/
def instances (servers : List Server) : List Text := servers.filterMap (·.inst)

theorem mem_instances {servers : List Server} :
    i ∈ instances servers ↔ ∃ s ∈ servers, s.inst = some i :=
  mem_filterMap

/-- The jump hash of `servers` is well defined: the comparator is a strict weak order of the entries
of the ring, and the buckets and the servers of every metric are the same for every order that the
servers are listed in. -/
structure BucketOrder (hashpos : ChType → Text → Nat) (servers : List Server) : Prop where
  weak : IsStrictWeakOn (· ∈ bucketEntries hashpos servers) fun e e' => entrycmpJumpFnv1a e e' < 0
  order : ∀ qsort, SortsMembers qsort → ∀ servers', servers'.Perm servers →
    buckets hashpos qsort servers' = buckets hashpos qsort servers
  chosen : ∀ qsort, SortsMembers qsort → ∀ servers', servers'.Perm servers → ∀ ring ring',
    chRing hashpos qsort .jumpFnv1a servers = some ring →
    chRing hashpos qsort .jumpFnv1a servers' = some ring' → ∀ past fuel replcnt metric,
    chGetNodes hashpos past fuel ring' replcnt metric =
      chGetNodes hashpos past fuel ring replcnt metric

section order

variable {hashpos : ChType → Text → Nat} {servers : List Server}

variable {base : Int} {qsort : (ChRingEntry → ChRingEntry → Int) → List ChRingEntry →
    List ChRingEntry}

/-- Servers with ordered instances are compared consistently. -/
theorem bucketcmp_isComparatorOn (h : OrderedFrom base (instances servers)) :
    IsComparatorOn (· ∈ servers) bucketcmp := by
  refine ((h.isComparatorOn.optionLast.on fun s : Server => s.inst).mono ?_).congr ?_
  · exact fun s hs i hi => mem_instances.2 ⟨s, hs, hi⟩
  · exact fun s s' _ _ => bucketcmp_eq s s'

/-- Servers with ordered instances that compare equal have the same instance. -/
theorem inst_eq_of_bucketcmp (h : OrderedFrom base (instances servers)) {s s' : Server}
    (hs : s ∈ servers) (hs' : s' ∈ servers) (heq : bucketcmp s s' = 0) : s.inst = s'.inst := by
  rw [bucketcmp_eq] at heq
  cases hi : s.inst <;> cases hj : s'.inst <;> rw [hi, hj] at heq
  case some.some =>
    rw [h.eq_of_instcmp (mem_instances.2 ⟨s, hs, hi⟩) (mem_instances.2 ⟨s', hs', hj⟩) heq]
  all_goals cases heq

theorem entrycmp_isComparatorOn (hashpos : ChType → Text → Nat)
    (hinst : (servers.map (·.inst)).Nodup) (h : OrderedFrom base (instances servers)) :
    IsComparatorOn (· ∈ bucketEntries hashpos servers) entrycmpJumpFnv1a := by
  refine (((bucketcmp_isComparatorOn h).on ChRingEntry.server).mono ?_).congr ?_
  · exact fun e he => server_mem_of_mem_chEntriesFrom he
  · exact fun e e' he he' => entrycmp_eq_bucketcmp (inst_ne_or_eq hinst he he')

/-- The buckets are in the order of the comparator. -/
theorem sorted_buckets (hinst : (servers.map (·.inst)).Nodup)
    (h : OrderedFrom base (instances servers)) (hq : SortsMembers qsort) :
    (buckets hashpos qsort servers).Pairwise fun s s' => bucketcmp s s' ≤ 0 := by
  rw [buckets_eq hq.perm, pairwise_map]
  have hsorted := hq.sorted _ _ (entrycmp_isComparatorOn hashpos hinst h)
  refine hsorted.imp_of_mem fun {e e'} he he' hle => ?_
  have he := (hq.perm _ _).mem_iff.1 he
  have he' := (hq.perm _ _).mem_iff.1 he'
  rwa [← entrycmp_eq_bucketcmp (inst_ne_or_eq hinst he he')]

theorem perm_buckets (hashpos : ChType → Text → Nat) (hq : SortsMembers qsort)
    (servers : List Server) : (buckets hashpos qsort servers).Perm servers := by
  rw [buckets_eq hq.perm]
  have := (hq.perm entrycmpJumpFnv1a (bucketEntries hashpos servers)).map (·.server)
  rwa [map_server_chEntriesFrom] at this

theorem instances_perm {servers' : List Server} (h : servers'.Perm servers) :
    (instances servers').Perm (instances servers) :=
  h.filterMap _

theorem OrderedFrom.of_mem {insts insts' : List Text} (h : OrderedFrom base insts)
    (hmem : ∀ i ∈ insts', i ∈ insts) : OrderedFrom base insts' where
  range i hi := h.range i (hmem i hi)
  distinct i hi j hj := h.distinct i (hmem i hi) j (hmem j hj)
  between i hi s hs j hj := h.between i (hmem i hi) s (hmem s hs) j (hmem j hj)

/-- Servers with ordered instances have the same buckets for every listing. -/
theorem buckets_perm (hinst : (servers.map (·.inst)).Nodup)
    (h : OrderedFrom base (instances servers))
    (hq : SortsMembers qsort) {servers' : List Server} (hperm : servers'.Perm servers) :
    buckets hashpos qsort servers' = buckets hashpos qsort servers := by
  have hinst' : (servers'.map (·.inst)).Nodup := (hperm.map _).nodup_iff.2 hinst
  have h' := h.of_mem fun i hi => (instances_perm hperm).mem_iff.1 hi
  have hmem := fun s => (perm_buckets hashpos hq servers).mem_iff (a := s)
  have hmem' := fun s => (perm_buckets hashpos hq servers').mem_iff (a := s)
  refine List.Perm.eq_of_pairwise (fun a b ha hb hab hba => ?_) (sorted_buckets hinst' h' hq)
    (sorted_buckets hinst h hq)
    ((perm_buckets hashpos hq servers').trans (hperm.trans (perm_buckets hashpos hq servers).symm))
  have ha := hperm.mem_iff.1 ((hmem' a).1 ha)
  have hb := (hmem b).1 hb
  have hflip := (bucketcmp_isComparatorOn h).flip a b ha hb
  exact inj_on_of_nodup_map hinst ha hb (inst_eq_of_bucketcmp h ha hb (by omega))

/-- What a lookup in the ring reads of it are the buckets. -/
theorem chGetNodes_of_chRing
    (hne : servers ≠ []) {ring : ChRing} (h : chRing hashpos qsort .jumpFnv1a servers = some ring)
    (past fuel replcnt : Nat) (metric : Text) :
    chGetNodes hashpos past fuel ring replcnt metric =
      jumpSelect (buckets hashpos qsort servers).length replcnt (Fnv1a.hash64 metric)
        (buckets hashpos qsort servers) := by
  obtain ⟨_, rfl⟩ := (chRing_eq_some_iff hne).1 h
  rw [chGetNodes, buckets, length_map]
  rfl

theorem BucketOrder.of_ordered (hinst : (servers.map (·.inst)).Nodup)
    (h : OrderedFrom base (instances servers)) : BucketOrder hashpos servers where
  weak := (entrycmp_isComparatorOn hashpos hinst h).isStrictWeakOn
  order qsort hq servers' hperm := buckets_perm hinst h hq hperm
  chosen qsort hq servers' hperm ring ring' hring hring' past fuel replcnt metric := by
    rcases eq_or_ne servers [] with rfl | hne
    · cases hperm.eq_nil
      cases hring.symm.trans hring'
      rfl
    · have hne' : servers' ≠ [] := fun hnil => hne (hnil ▸ hperm).symm.eq_nil
      rw [chGetNodes_of_chRing hne hring, chGetNodes_of_chRing hne' hring',
        buckets_perm hinst h hq hperm]

/-! ### Servers that compare equal -/

theorem BucketOrder.weak_servers (h : BucketOrder hashpos servers)
    (hinst : (servers.map (·.inst)).Nodup) :
    IsStrictWeakOn (· ∈ servers) fun s s' => bucketcmp s s' < 0 := by
  refine h.weak.transfer (fun e s => e.server = s) (fun s hs => exists_mem_bucketEntries hs) ?_
  rintro e e' _ _ he he' rfl rfl
  rw [entrycmp_eq_bucketcmp (inst_ne_or_eq hinst he he')]

theorem BucketOrder.weak_instances (h : BucketOrder hashpos servers)
    (hinst : (servers.map (·.inst)).Nodup) :
    IsStrictWeakOn (· ∈ instances servers) fun i j => instcmp i j < 0 := by
  refine (h.weak_servers hinst).transfer (fun s i => s.inst = some i) ?_ ?_
  · exact fun i hi => mem_instances.1 hi
  · intro s s' i j _ _ hi hj
    rw [bucketcmp_eq, hi, hj]
    rfl

/-- Exchanging two members rearranges a list. -/
theorem perm_map_swap {l : List Server} (hl : l.Nodup) {a b : Server} (ha : a ∈ l) (hb : b ∈ l) :
    (l.map (Equiv.swap a b)).Perm l := by
  refine (perm_ext_iff_of_nodup (hl.map (Equiv.swap a b).injective) hl).2 fun x => ?_
  rw [mem_map]
  constructor
  · rintro ⟨y, hy, rfl⟩
    rw [Equiv.swap_apply_def]
    split_ifs <;> assumption
  · intro hx
    refine ⟨Equiv.swap a b x, ?_, Equiv.swap_apply_self a b x⟩
    rw [Equiv.swap_apply_def]
    split_ifs <;> assumption

/-- Two servers that compare equal can be exchanged in a listing without changing its order, so that
each of the two listings is sorted already and stays. -/
theorem BucketOrder.lt_or_lt (h : BucketOrder hashpos servers)
    (hinst : (servers.map (·.inst)).Nodup) {a b : Server} (ha : a ∈ servers) (hb : b ∈ servers)
    (hab : a ≠ b) : bucketcmp a b < 0 ∨ bucketcmp b a < 0 := by
  by_contra hnone
  obtain ⟨hnab, hnba⟩ := not_or.1 hnone
  have hrank := rankIn_eq (h.weak_servers hinst) ha hb hnab hnba
  have hperm₁ : (rankSort bucketcmp servers).Perm servers := SortsMembers.rankSort.perm _ _
  have hnodup : (rankSort bucketcmp servers).Nodup := hperm₁.nodup_iff.2 (List.Nodup.of_map _ hinst)
  have hswap := perm_map_swap hnodup (hperm₁.mem_iff.2 ha) (hperm₁.mem_iff.2 hb)
  have hperm₂ := hswap.trans hperm₁
  have hstays : ∀ l : List Server, l.Perm servers →
      (l.Pairwise fun s s' => rankIn bucketcmp servers s ≤ rankIn bucketcmp servers s') →
      buckets hashpos rankSort l = l := by
    intro l hl hsorted
    refine buckets_rankSort ((hl.map _).nodup_iff.2 hinst) (hsorted.imp fun {s s'} hle => ?_)
    rwa [rankIn_perm hl, rankIn_perm hl]
  have hsorted := pairwise_rankSort bucketcmp servers
  have hsame : ∀ s, rankIn bucketcmp servers (Equiv.swap a b s) = rankIn bucketcmp servers s := by
    intro s
    rw [Equiv.swap_apply_def]
    split_ifs with hsa hsb
    · rw [hsa, hrank]
    · rw [hsb, hrank]
    · rfl
  have heq : (rankSort bucketcmp servers).map (Equiv.swap a b) = rankSort bucketcmp servers := by
    rw [← hstays _ hperm₂ (pairwise_map.2 (by simpa only [hsame] using hsorted)),
      h.order _ .rankSort _ hperm₂, ← h.order _ .rankSort _ hperm₁, hstays _ hperm₁ hsorted]
  have hfix := map_inj_left.1 (heq.trans (map_id _).symm) a (hperm₁.mem_iff.2 ha)
  rw [Equiv.swap_apply_left] at hfix
  exact hab hfix.symm

end order

/-- The jump hash of servers with pairwise different instances is well defined exactly for ordered
instances. -/
theorem bucketOrder_iff (hashpos : ChType → Text → Nat) {servers : List Server}
    (hinst : (servers.map (·.inst)).Nodup) :
    BucketOrder hashpos servers ↔ ∃ base, OrderedFrom base (instances servers) := by
  constructor
  · intro h
    refine exists_orderedFrom (h.weak_instances hinst) fun i hi j hj hij => ?_
    obtain ⟨a, ha, hai⟩ := mem_instances.1 hi
    obtain ⟨b, hb, hbj⟩ := mem_instances.1 hj
    have hab : a ≠ b := by
      rintro rfl
      exact hij (Option.some.inj (hai.symm.trans hbj))
    have hlt := h.lt_or_lt hinst ha hb hab
    rwa [bucketcmp_eq, bucketcmp_eq, hai, hbj] at hlt
  · rintro ⟨base, h⟩
    exact .of_ordered hinst h

/-- The server with the instance `inst`. -/
def Server.withInst (id : Nat) (inst : Text) : Server := { Server.tcp id ['h'] 2003 with inst }

/-- Two numbers and a text behind them. -/
theorem bucketOrder_iff_numbers :
    BucketOrder (fun _ _ => 0) [.withInst 0 "2".toList, .withInst 1 "10".toList,
      .withInst 2 "a".toList] := by
  exact (bucketOrder_iff (fun _ _ => 0) (by decide)).2 ⟨0, by decide, by decide, by decide⟩

/-- `9` is before `10`, `10` before `1a`, and `1a` before `9`. -/
theorem instances_cycle :
    entrycmpJumpFnv1a ⟨0, .withInst 0 "9".toList⟩ ⟨1, .withInst 1 "10".toList⟩ < 0 ∧
    entrycmpJumpFnv1a ⟨1, .withInst 1 "10".toList⟩ ⟨2, .withInst 2 "1a".toList⟩ < 0 ∧
    entrycmpJumpFnv1a ⟨2, .withInst 2 "1a".toList⟩ ⟨0, .withInst 0 "9".toList⟩ < 0 := by
  decide

end CarbonRelay
