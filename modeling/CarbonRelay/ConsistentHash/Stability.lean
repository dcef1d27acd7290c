import CarbonRelay.ConsistentHash.Fill
import Mathlib.Data.List.Pairwise

/-!
# The rings do not depend on the order of definition, and are stable

For servers that differ in what the comparator looks at (`SameKey`), the sorted entries of a ring
are determined by the set of servers, so the order in which they are added, and the sorting routine,
do not matter (`chRing_perm`). When a server is removed, the sorted entries of the others stay in
their order. A position can change its owner only if the removed server owned it, and then a lookup
that passes the position meets the removed server. So a lookup that does not return the removed
server is not affected (`chReturns_erase`).
-/

namespace CarbonRelay

open List

variable {hashpos : ChType → Text → Nat} {type : ChType}
  {qsort qsort' : (ChRingEntry → ChRingEntry → Int) → List ChRingEntry → List ChRingEntry}
  {servers servers' : List Server}

instance : Std.Symm (fun s s' : Server => ¬ SameKey type s s') where
  symm s s' h h' := by
    refine h ?_
    cases type with
    | carbon | fnv1a => exact ⟨h'.1.symm, h'.2.symm⟩
    | jumpFnv1a => exact Eq.symm h'

/-- Servers that differ in their keys are told apart by them. -/
theorem eq_of_sameKey (hkey : servers.Pairwise fun s s' => ¬ SameKey type s s') {s s' : Server}
    (hs : s ∈ servers) (hs' : s' ∈ servers) (h : SameKey type s s') : s = s' := by
  by_contra hne
  exact hkey.forall hs hs' hne h

/-- The sorted entries of a ring. -/
def sortedEntries (hashpos : ChType → Text → Nat)
    (qsort : (ChRingEntry → ChRingEntry → Int) → List ChRingEntry → List ChRingEntry)
    (type : ChType) (servers : List Server) : List ChRingEntry :=
  qsort type.entrycmp (chEntriesFrom hashpos type 0 servers)

/-- A sorted entry belongs to one of the servers. -/
theorem server_mem_of_mem_sortedEntries (hq : Sorts qsort) {e : ChRingEntry}
    (he : e ∈ sortedEntries hashpos qsort type servers) : e.server ∈ servers :=
  server_mem_of_mem_chEntriesFrom ((hq.perm _ _).mem_iff.1 he)

/-- Servers with different keys fix the sorted entries, whatever their order and the sorting
routine. -/
theorem sortedEntries_perm (hashpos : ChType → Text → Nat) (ht : type ≠ .jumpFnv1a)
    (hq : Sorts qsort) (hq' : Sorts qsort')
    (hkey : servers.Pairwise fun s s' => ¬ SameKey type s s') (hperm : servers.Perm servers') :
    sortedEntries hashpos qsort type servers = sortedEntries hashpos qsort' type servers' := by
  refine eq_of_sorted_entries ht (hq.sorted _ _ (entrycmp_isComparator ht))
    (hq'.sorted _ _ (entrycmp_isComparator ht)) ?_ fun a ha b hb hab => ?_
  · refine (hq.perm _ _).trans (List.Perm.trans ?_ (hq'.perm _ _).symm)
    rw [chEntriesFrom_eq_flatMap ht, chEntriesFrom_eq_flatMap ht]
    exact hperm.flatMap_right _
  · exact eq_of_sameKey hkey (server_mem_of_mem_sortedEntries hq ha)
      (server_mem_of_mem_sortedEntries hq hb) hab

/-- The `carbon_ch` and `fnv1a_ch` rings do not depend on the order in which the servers are added,
nor on the sorting routine, and neither does what a lookup returns. -/
theorem chRing_perm (hashpos : ChType → Text → Nat) (type : ChType) (ht : type ≠ .jumpFnv1a)
    (hq : Sorts qsort) (hq' : Sorts qsort') (servers servers' : List Server)
    (hkey : servers.Pairwise fun s s' => ¬ SameKey type s s') (hperm : servers.Perm servers') :
    chRing hashpos qsort type servers = chRing hashpos qsort' type servers' ∧
      ∀ ring ring', servers ≠ [] → chRing hashpos qsort type servers = some ring →
        chRing hashpos qsort' type servers' = some ring' →
        ring.entrylist = ring'.entrylist ∧
          ∀ past past' r metric ret, ChReturns hashpos past ring r metric ret ↔
            ChReturns hashpos past' ring' r metric ret := by
  have hring : chRing hashpos qsort type servers = chRing hashpos qsort' type servers' := by
    rcases eq_or_ne servers [] with rfl | hne
    · rw [nil_perm.1 hperm]
      rfl
    · have hne' : servers' ≠ [] := fun h => hne (perm_nil.1 (h ▸ hperm))
      refine Option.ext fun ring => ?_
      rw [chRing_eq_some_iff hne, chRing_eq_some_iff hne', hperm.length_eq]
      have := sortedEntries_perm hashpos ht hq hq' hkey hperm
      rw [sortedEntries, sortedEntries] at this
      rw [this]
  refine ⟨hring, fun ring ring' hne h h' => ?_⟩
  obtain rfl : ring = ring' := Option.some.inj ((h.symm.trans hring).trans h')
  have hc := completed_chRing ht hq hne h
  have htype : ring.type ≠ .jumpFnv1a := type_chRing hne h ▸ ht
  exact ⟨rfl, fun past past' r metric ret =>
    (chReturns_iff htype hc).trans (chReturns_iff htype hc).symm⟩

/-- Two servers, added in both orders. -/
theorem chRing_perm_two : ∃ ring,
    chRing (fun _ key => key.length) insertSort .fnv1a [.tcp 0 ['a'] 2003, .tcp 1 ['a'] 2004] =
      some ring ∧
    chRing (fun _ key => key.length) insertSort .fnv1a [.tcp 1 ['a'] 2004, .tcp 0 ['a'] 2003] =
      some ring := by
  have hne : [Server.tcp 0 ['a'] 2003, .tcp 1 ['a'] 2004] ≠ [] := cons_ne_nil _ _
  have h := chRing_eq_some (fun _ key => key.length) insertSort .fnv1a hne (by decide)
  exact ⟨_, h, (chRing_perm (fun _ key => key.length) .fnv1a (by decide) .insertSort .insertSort
    _ _ (by decide) (.swap _ _ _)).1.symm.trans h⟩

/-! ## Removing a server -/

section
variable {w : List ChRingEntry} {pos r : Nat} {A : Server}

/-- Leaving out entries and walking commute. -/
theorem ringFrom_filter (p : ChRingEntry → Bool) :
    ringFrom (w.filter p) pos = (ringFrom w pos).filter p := by
  rw [ringFrom, ringFrom, filter_append, filter_filter, filter_filter, filter_filter, filter_filter]
  simp only [Bool.and_comm]

/-- Looking for an entry among those that a filter keeps. -/
theorem find_filter_of_imp {p q : ChRingEntry → Bool} (h : ∀ a, p a = true → q a = true) :
    (w.filter q).find? p = w.find? p := by
  rw [find?_filter]
  congr 1
  funext a
  rw [Bool.eq_iff_iff, decide_eq_true_eq]
  exact ⟨And.right, fun hp => ⟨h a hp, hp⟩⟩

/-- The first entry of a kind is still the first when other entries are left out. -/
theorem find_filter_of_find {p q : ChRingEntry → Bool} {a : ChRingEntry}
    (ha : w.find? p = some a) (hq : q a = true) : (w.filter q).find? p = some a := by
  obtain ⟨hp, l, l', rfl, hl⟩ := List.find?_eq_some_iff_append.1 ha
  have hnone : (l.filter q).find? p = none :=
    List.find?_eq_none.2 fun b hb => by simpa using hl b (mem_filter.1 hb).1
  rw [filter_append, filter_cons_of_pos hq, find?_append, hnone, Option.none_or,
    find?_cons_of_pos hp]

theorem mem_of_mem_ringFrom {e : ChRingEntry} (he : e ∈ ringFrom w pos) : e ∈ w := by
  rcases mem_append.1 he with he | he
  · exact (mem_filter.1 he).1
  · exact (mem_filter.1 he).1

/-- The first entry at a position is the first one met in a walk: a walk does not start between
entries at one position. -/
theorem find_ringFrom (w : List ChRingEntry) (pos q : Nat) :
    ((ringFrom w pos).find? fun a => decide (a.pos = q)) = w.find? fun a => decide (a.pos = q) := by
  rw [ringFrom, find?_append]
  rcases Nat.lt_or_ge q pos with hlt | hge
  · have hnone : ((w.filter fun e => decide (pos ≤ e.pos)).find? fun a => decide (a.pos = q)) =
        none := by
      simp only [find?_eq_none, mem_filter, decide_eq_true_eq]
      omega
    rw [hnone, Option.none_or, find_filter_of_imp fun a ha => by simp_all]
  · have hnone : ((w.filter fun e => decide (e.pos < pos)).find? fun a => decide (a.pos = q)) =
        none := by
      simp only [find?_eq_none, mem_filter, decide_eq_true_eq]
      omega
    rw [hnone, Option.or_none, find_filter_of_imp fun a ha => by simp_all]

/-- The servers met in a walk over the overwritten entries. -/
theorem map_server_ringFrom_overwrite (hs : w.Pairwise fun a b => a.pos ≤ b.pos) :
    (ringFrom (overwriteDuplicates w) pos).map (·.server) = (ringFrom w pos).map (owner w) := by
  rw [overwriteDuplicates_eq_map hs, ringFrom, ringFrom, filter_map, filter_map,
    ← map_append, map_map]
  rfl

/-- A lookup that does not meet `A` is not affected when the entries of `A` are left out. -/
theorem chNodes_filter (hs : w.Pairwise fun a b => a.pos ≤ b.pos)
    (hA : A ∉ chNodes (overwriteDuplicates w) pos r) :
    chNodes (overwriteDuplicates (w.filter fun e => decide (e.server ≠ A))) pos r =
      chNodes (overwriteDuplicates w) pos r := by
  rw [chNodes, map_server_ringFrom_overwrite hs] at hA
  rw [chNodes, chNodes, map_server_ringFrom_overwrite hs,
    map_server_ringFrom_overwrite (hs.sublist filter_sublist), ringFrom_filter]
  refine takeDistinct_map_filter _ (fun x hx _ hmem => ?_) fun P x Q hL hxA hmem => ?_
  · obtain ⟨a, ha⟩ := Option.isSome_iff_exists.1
      (find?_isSome (p := fun a => decide (a.pos = x.pos)).2
        ⟨x, mem_of_mem_ringFrom hx, decide_eq_true rfl⟩)
    rw [owner_of_find ha] at hmem ⊢
    have haA : a.server ≠ A := fun h => hA (h ▸ hmem)
    exact owner_of_find (find_filter_of_find ha (decide_eq_true haA))
  · have hfind := find_ringFrom w pos x.pos
    rw [hL, find?_append, find?_cons_of_pos (by simp)] at hfind
    cases hP : P.find? fun a => decide (a.pos = x.pos) with
    | none =>
      rw [hP, Option.none_or] at hfind
      rw [owner_of_find hfind.symm, of_not_not (of_decide_eq_false hxA)] at hmem
      exact absurd hmem hA
    | some o =>
      have hoP := mem_of_find?_eq_some hP
      have how : o ∈ w := mem_of_mem_ringFrom (hL ▸ mem_append_left _ hoP)
      have hpos : o.pos = x.pos := by simpa using find?_some hP
      exact ⟨o, hoP, owner_eq_of_pos_eq how hpos⟩

end

/-- The entries of the servers other than `A`. -/
theorem flatMap_chEntries_filter (A : Server) (servers : List Server) :
    (servers.filter (· != A)).flatMap (chEntries hashpos type 0) =
      (servers.flatMap (chEntries hashpos type 0)).filter fun e => decide (e.server ≠ A) := by
  induction servers with
  | nil => rfl
  | cons s servers ih =>
    rw [flatMap_cons, filter_append, ← ih]
    rcases eq_or_ne s A with rfl | hne
    · have hnil : (chEntries hashpos type 0 s).filter (fun e => decide (e.server ≠ s)) = [] :=
        filter_eq_nil_iff.2 fun e he => by simp [server_of_mem_chEntries he]
      rw [filter_cons_of_neg (by simp), hnil, nil_append]
    · have hself : (chEntries hashpos type 0 s).filter (fun e => decide (e.server ≠ A)) =
          chEntries hashpos type 0 s :=
        filter_eq_self.2 fun e he => by simp [server_of_mem_chEntries he, hne]
      rw [filter_cons_of_pos (by simpa using hne), hself, flatMap_cons]

/-- The sorted entries of a ring without `A` are those of the ring with the entries of `A` left out.
-/
theorem sortedEntries_erase (hashpos : ChType → Text → Nat) (ht : type ≠ .jumpFnv1a)
    (hq : Sorts qsort) (hq' : Sorts qsort')
    (hkey : servers.Pairwise fun s s' => ¬ SameKey type s s') (A : Server) :
    sortedEntries hashpos qsort' type (servers.erase A) =
      (sortedEntries hashpos qsort type servers).filter fun e => decide (e.server ≠ A) := by
  have hraw : (chEntriesFrom hashpos type 0 (servers.erase A)) =
      (chEntriesFrom hashpos type 0 servers).filter fun e => decide (e.server ≠ A) := by
    have hnodup : servers.Nodup := hkey.imp fun {a b} h heq =>
      h (by rw [heq]; cases type <;> simp [SameKey])
    rw [chEntriesFrom_eq_flatMap ht, chEntriesFrom_eq_flatMap ht, hnodup.erase_eq_filter]
    exact flatMap_chEntries_filter A servers
  refine eq_of_sorted_entries ht (hq'.sorted _ _ (entrycmp_isComparator ht))
    ((hq.sorted _ _ (entrycmp_isComparator ht)).sublist filter_sublist) ?_ ?_
  · rw [sortedEntries, hraw]
    exact (hq'.perm _ _).trans ((hq.perm _ _).filter _).symm
  · intro a ha b hb hab
    exact eq_of_sameKey hkey (mem_of_mem_erase (server_mem_of_mem_sortedEntries hq' ha))
      (mem_of_mem_erase (server_mem_of_mem_sortedEntries hq' hb)) hab

/-- A lookup returns servers of the cluster. -/
theorem mem_of_chReturns (hq : Sorts qsort) (ht : type ≠ .jumpFnv1a) (hne : servers ≠ [])
    {ring : ChRing} (h : chRing hashpos qsort type servers = some ring) {past r : Nat}
    {metric : Text} {ret : List Server} (hret : ChReturns hashpos past ring r metric ret)
    {s : Server} (hs : s ∈ ret) : s ∈ servers := by
  obtain ⟨rfl, _⟩ := (chReturns_iff (type_chRing hne h ▸ ht) (completed_chRing ht hq hne h)).1 hret
  obtain ⟨e, he, rfl⟩ := mem_map.1 ((mem_of_mem_takeDistinct hs).resolve_left not_mem_nil)
  exact server_mem_of_mem_chRing hq hne h (mem_of_mem_ringFrom he)

/-- Removing a server from a `carbon_ch` or `fnv1a_ch` cluster leaves every lookup alone that did
not return it. With one replica, only the metrics of the removed server get another one. -/
theorem chReturns_erase (hashpos : ChType → Text → Nat) (type : ChType) (ht : type ≠ .jumpFnv1a)
    (hq : Sorts qsort) (hq' : Sorts qsort') (servers : List Server)
    (hkey : servers.Pairwise fun s s' => ¬ SameKey type s s') (A : Server) (hA : A ∈ servers)
    (ring : ChRing) (h : chRing hashpos qsort type servers = some ring) :
    ∃ ring', chRing hashpos qsort' type (servers.erase A) = some ring' ∧
      ∀ past past' r metric ret, 1 ≤ r → ChReturns hashpos past ring r metric ret → A ∉ ret →
        ChReturns hashpos past' ring' r metric ret := by
  have hne : servers ≠ [] := ne_nil_of_mem hA
  have hc := completed_chRing ht hq hne h
  have htype : ring.type ≠ .jumpFnv1a := type_chRing hne h ▸ ht
  rcases eq_or_ne (servers.erase A) [] with hnil | hne'
  · refine ⟨_, by rw [hnil]; rfl, fun past past' r metric ret hr hret hmem => ?_⟩
    have hlen := ((chReturns_iff htype hc).1 hret).2
    obtain ⟨s, hs⟩ := exists_mem_of_length_pos (l := ret) (by omega)
    have hsA : s ≠ A := fun heq => hmem (heq ▸ hs)
    have := (mem_erase_of_ne hsA).2 (mem_of_chReturns hq ht hne h hret hs)
    rw [hnil] at this
    cases this
  · have hlen : (servers.erase A).length ≤ connDestsSize :=
      length_erase_le.trans ((chRing_eq_some_iff hne).1 h).1
    have h' := chRing_eq_some hashpos qsort' type hne' hlen
    refine ⟨_, h', fun past past' r metric ret _ hret hmem => ?_⟩
    obtain ⟨rfl, hr⟩ := (chReturns_iff htype hc).1 hret
    obtain ⟨_, rfl⟩ := (chRing_eq_some_iff hne).1 h
    refine (chReturns_iff ht (completed_chRing ht hq' hne' h')).2 ⟨?_, hr⟩
    have hsorted := sortedEntries_erase hashpos ht hq hq' hkey A
    rw [sortedEntries, sortedEntries] at hsorted
    rw [hsorted]
    exact (chNodes_filter (sorted_qsort ht hq _) hmem).symm

/-- Of two servers at the same positions the first keeps its metrics when the second is removed. -/
theorem chReturns_erase_second : ∃ ring ring',
    chRing (fun _ _ => 0) insertSort .carbon [.tcp 0 ['a'] 2003, .tcp 1 ['b'] 2003] = some ring ∧
    ChReturns (fun _ _ => 0) 0 ring 1 ['m'] [.tcp 0 ['a'] 2003] ∧
    chRing (fun _ _ => 0) insertSort .carbon [.tcp 0 ['a'] 2003] = some ring' ∧
    ChReturns (fun _ _ => 0) 0 ring' 1 ['m'] [.tcp 0 ['a'] 2003] := by
  have hne : [Server.tcp 0 ['a'] 2003, .tcp 1 ['b'] 2003] ≠ [] := cons_ne_nil _ _
  have h := chRing_eq_some (fun _ _ => 0) insertSort .carbon hne (by decide)
  have hret : ChReturns (fun _ _ => 0) 0 _ 1 ['m'] [.tcp 0 ['a'] 2003] :=
    (chReturns_iff (by decide) (completed_chRing (by decide) .insertSort hne h)).2
      (by decide +kernel)
  obtain ⟨ring', h', hkeep⟩ := chReturns_erase _ .carbon (by decide) .insertSort .insertSort _
    (by decide) (.tcp 1 ['b'] 2003) (by decide) _ h
  exact ⟨_, ring', h, hret, h', hkeep 0 0 1 ['m'] _ (by decide) hret (by decide)⟩

end CarbonRelay
