import CarbonRelay.ConsistentHash.Lookup
import CarbonRelay.Lib.Comparator

/-!
# What a filled ring holds

A cluster makes its ring with `ch_new` for the number of its servers and adds them one by one
(`chRing`). The last addition sorts the entries of all servers (`foldl_chAddnode`) and gives every
entry the server of the first entry at its position (`overwriteDuplicates_eq_map`). For `carbon_ch`
and `fnv1a_ch` the order is that of a comparator (`entrycmp_isComparator`) whose ties are entries of
servers that agree in `SameKey`, and the result is a completed ring
(`completed_overwriteDuplicates`).
-/

namespace CarbonRelay

open List

variable {hashpos : ChType → Text → Nat} {type : ChType}
  {qsort : (ChRingEntry → ChRingEntry → Int) → List ChRingEntry → List ChRingEntry}

/-- The ring of a cluster of `servers`: `ch_new` for their number, then `ch_addnode` for each. -/
def chRing (hashpos : ChType → Text → Nat)
    (qsort : (ChRingEntry → ChRingEntry → Int) → List ChRingEntry → List ChRingEntry)
    (type : ChType) (servers : List Server) : Option ChRing :=
  (chNew type servers.length).map (servers.foldl (chAddnode hashpos qsort))

/-! ## The entries before sorting -/

/-- The entries of `servers` in the order they are added, when `cnt` entries are in the ring. -/
def chEntriesFrom (hashpos : ChType → Text → Nat) (type : ChType) :
    Nat → List Server → List ChRingEntry
  | _, [] => []
  | cnt, s :: servers =>
    chEntries hashpos type cnt s ++ chEntriesFrom hashpos type (cnt + type.hashReplicas) servers

@[simp] theorem length_chEntries (cnt : Nat) (s : Server) :
    (chEntries hashpos type cnt s).length = type.hashReplicas := by
  cases type <;> simp [chEntries, ChType.hashReplicas]

@[simp] theorem length_chEntriesFrom (cnt : Nat) (servers : List Server) :
    (chEntriesFrom hashpos type cnt servers).length = type.hashReplicas * servers.length := by
  induction servers generalizing cnt with
  | nil => rfl
  | cons s servers ih =>
    rw [chEntriesFrom, length_append, length_chEntries, ih, length_cons, Nat.mul_succ, Nat.add_comm]

theorem ChType.hashReplicas_pos (type : ChType) : 0 < type.hashReplicas := by
  cases type <;> decide

variable {e : ChRingEntry} {servers : List Server} {ring : ChRing} {w l : List ChRingEntry}

theorem server_of_mem_chEntries {cnt : Nat} {s : Server}
    (he : e ∈ chEntries hashpos type cnt s) : e.server = s := by
  cases type <;> simp only [chEntries, mem_map, mem_singleton] at he
  case jumpFnv1a => rw [he]
  all_goals
    obtain ⟨i, _, rfl⟩ := he
    rfl

/-- An entry belongs to one of the servers. -/
theorem server_mem_of_mem_chEntriesFrom {cnt : Nat}
    (he : e ∈ chEntriesFrom hashpos type cnt servers) : e.server ∈ servers := by
  induction servers generalizing cnt with
  | nil => cases he
  | cons s servers ih =>
    rcases mem_append.1 he with he | he
    · exact server_of_mem_chEntries he ▸ mem_cons_self
    · exact mem_cons_of_mem s (ih he)

/-- The entries of a `carbon_ch` or `fnv1a_ch` ring do not depend on what is in the ring. -/
theorem chEntriesFrom_eq_flatMap (ht : type ≠ .jumpFnv1a) (cnt : Nat) (servers : List Server) :
    chEntriesFrom hashpos type cnt servers = servers.flatMap (chEntries hashpos type 0) := by
  induction servers generalizing cnt with
  | nil => rfl
  | cons s servers ih =>
    have : chEntries hashpos type cnt s = chEntries hashpos type 0 s := by
      cases type <;> first | rfl | exact absurd rfl ht
    rw [chEntriesFrom, ih, flatMap_cons, this]

/-- A server of a jump hash has one entry, at its place in the list. -/
theorem map_server_chEntriesFrom (hashpos : ChType → Text → Nat) (cnt : Nat)
    (servers : List Server) :
    (chEntriesFrom hashpos .jumpFnv1a cnt servers).map (·.server) = servers := by
  induction servers generalizing cnt with
  | nil => rfl
  | cons s servers ih =>
    simp only [chEntriesFrom, chEntries, ih, map_cons, singleton_append]

theorem map_pos_chEntriesFrom (cnt : Nat) (servers : List Server) :
    (chEntriesFrom hashpos .jumpFnv1a cnt servers).map (·.pos) = range' cnt servers.length := by
  induction servers generalizing cnt with
  | nil => rfl
  | cons s servers ih =>
    simp only [chEntriesFrom, chEntries, ih, map_cons, singleton_append, length_cons,
      range'_succ, ChType.hashReplicas]

/-- Adding the last servers of a ring sorts the entries of all and overwrites the duplicates. -/
theorem foldl_chAddnode (hne : servers ≠ [])
    (hsize : ring.entrylist.length + ring.type.hashReplicas * servers.length = ring.entrysize) :
    servers.foldl (chAddnode hashpos qsort) ring =
      { ring with
        entrylist := overwriteDuplicates (qsort ring.type.entrycmp
          (ring.entrylist ++ chEntriesFrom hashpos ring.type ring.entrylist.length servers)) } := by
  induction servers generalizing ring with
  | nil => exact absurd rfl hne
  | cons s servers ih =>
    rw [foldl_cons]
    cases servers with
    | nil =>
      rw [foldl_nil, chAddnode]
      simp only [length_append, length_chEntries, chEntriesFrom, append_nil]
      rw [if_pos (by simpa using hsize)]
    | cons s' servers =>
      have hpos := ring.type.hashReplicas_pos
      rw [length_cons, Nat.mul_succ, length_cons, Nat.mul_succ] at hsize
      have hadd : chAddnode hashpos qsort ring s = { ring with
          entrylist := ring.entrylist ++ chEntries hashpos ring.type ring.entrylist.length s } := by
        rw [chAddnode]
        simp only [length_append, length_chEntries]
        rw [if_neg (by omega)]
      rw [hadd, ih (cons_ne_nil s' servers)]
      · simp only [length_append, length_chEntries, append_assoc]
        rfl
      · simp only [length_append, length_chEntries, length_cons, Nat.mul_succ]
        omega

/-- The ring of a cluster with at most `CONN_DESTS_SIZE` servers. -/
theorem chRing_eq_some (hashpos : ChType → Text → Nat)
    (qsort : (ChRingEntry → ChRingEntry → Int) → List ChRingEntry → List ChRingEntry)
    (type : ChType) (hne : servers ≠ []) (hlen : servers.length ≤ connDestsSize) :
    chRing hashpos qsort type servers = some
      { type
        hashReplicas := type.hashReplicas
        entrylist := overwriteDuplicates
          (qsort type.entrycmp (chEntriesFrom hashpos type 0 servers))
        entrysize := type.hashReplicas * servers.length } := by
  rw [chRing, chNew, if_neg (Nat.not_lt.2 hlen), Option.map_some, foldl_chAddnode hne (by simp)]
  rfl

theorem chRing_eq_some_iff (hne : servers ≠ []) :
    chRing hashpos qsort type servers = some ring ↔ servers.length ≤ connDestsSize ∧
      ring =
        { type
          hashReplicas := type.hashReplicas
          entrylist := overwriteDuplicates (qsort type.entrycmp
            (chEntriesFrom hashpos type 0 servers))
          entrysize := type.hashReplicas * servers.length } := by
  rcases Nat.lt_or_ge connDestsSize servers.length with hlt | hle
  · simp [chRing, chNew, hlt, Nat.not_le.2 hlt]
  · rw [chRing_eq_some hashpos qsort type hne hle, Option.some.injEq, eq_comm]
    exact (and_iff_right hle).symm

theorem type_chRing (hne : servers ≠ [])
    (h : chRing hashpos qsort type servers = some ring) : ring.type = type := by
  obtain ⟨_, rfl⟩ := (chRing_eq_some_iff hne).1 h
  rfl

/-! ## The order of the entries -/

/-- What the comparators look at when two entries are at one position. -/
def SameKey : ChType → Server → Server → Prop
  | .carbon, s, s' => s.ip = s'.ip ∧ s.inst = s'.inst
  | .fnv1a, s, s' => s.ip = s'.ip ∧ s.port = s'.port
  | .jumpFnv1a, s, s' => s = s'

instance : ∀ (type : ChType) (s s' : Server), Decidable (SameKey type s s')
  | .carbon, s, s' => inferInstanceAs (Decidable (s.ip = s'.ip ∧ s.inst = s'.inst))
  | .fnv1a, s, s' => inferInstanceAs (Decidable (s.ip = s'.ip ∧ s.port = s'.port))
  | .jumpFnv1a, s, s' => inferInstanceAs (Decidable (s = s'))

/-- The comparison by position that both comparators start with. -/
theorem pos_isComparator : IsComparator fun l r : ChRingEntry => (l.pos : Int) - r.pos :=
  IsComparator.sub.on ChRingEntry.pos

section
variable (ht : type ≠ .jumpFnv1a)
include ht

/-- The comparators of `carbon_ch` and `fnv1a_ch` order the entries consistently. -/
theorem entrycmp_isComparator : IsComparator type.entrycmp := by
  have hip := Text.strcmp_isComparator.on fun e : ChRingEntry => e.server.ip
  cases type with
  | carbon =>
    have hinst := Text.strcmp_isComparator.optionLast.on fun e : ChRingEntry => e.server.inst
    refine (pos_isComparator.andThen (hip.andThen hinst)).congr fun l r => ?_
    simp only [ChType.entrycmp, entrycmpCarbon, ne_eq, Int.sub_eq_zero, Int.natCast_inj]
    split
    · rfl
    · split
      · rfl
      · cases l.server.inst <;> cases r.server.inst <;> rfl
  | fnv1a =>
    have hport := IsComparator.sub.on fun e : ChRingEntry => e.server.port
    refine (pos_isComparator.andThen (hip.andThen hport)).congr fun l r => ?_
    simp only [ChType.entrycmp, entrycmpFnv1a, ne_eq, Int.sub_eq_zero, Int.natCast_inj]
  | jumpFnv1a => exact absurd rfl ht

/-- Entries that compare equal are at one position and of servers with the same key. -/
theorem entrycmp_eq_zero {l r : ChRingEntry} (h : type.entrycmp l r = 0) :
    l.pos = r.pos ∧ SameKey type l.server r.server := by
  cases type with
  | carbon =>
    simp only [ChType.entrycmp, entrycmpCarbon] at h
    split at h
    · omega
    · next hpos =>
      refine ⟨not_not.1 hpos, ?_⟩
      split at h
      · next hip => exact absurd h hip
      · next hip =>
        refine ⟨Text.strcmp_eq_zero.1 (not_not.1 hip), ?_⟩
        revert h
        cases l.server.inst <;> cases r.server.inst <;> simp [Text.strcmp_eq_zero]
  | fnv1a =>
    simp only [ChType.entrycmp, entrycmpFnv1a] at h
    split at h
    · omega
    · next hpos =>
      refine ⟨not_not.1 hpos, ?_⟩
      split at h
      · next hip => exact absurd h hip
      · next hip => exact ⟨Text.strcmp_eq_zero.1 (not_not.1 hip), by omega⟩
  | jumpFnv1a => exact absurd rfl ht

/-- Both comparators order by position first. -/
theorem pos_le_of_entrycmp {l r : ChRingEntry} (h : type.entrycmp l r ≤ 0) : l.pos ≤ r.pos := by
  refine Nat.le_of_not_lt fun hlt => ?_
  have hne : l.pos ≠ r.pos := by omega
  cases type with
  | carbon => simp only [ChType.entrycmp, entrycmpCarbon, if_pos hne] at h; omega
  | fnv1a => simp only [ChType.entrycmp, entrycmpFnv1a, if_pos hne] at h; omega
  | jumpFnv1a => exact ht rfl

/-- Two sorted lists of the same entries are equal, when no two servers have the same key. -/
theorem eq_of_sorted_entries {w' : List ChRingEntry}
    (hw : w.Pairwise fun a b => type.entrycmp a b ≤ 0)
    (hw' : w'.Pairwise fun a b => type.entrycmp a b ≤ 0) (hperm : w.Perm w')
    (hkey : ∀ a ∈ w, ∀ b ∈ w, SameKey type a.server b.server → a.server = b.server) : w = w' := by
  refine eq_of_sorted_perm (entrycmp_isComparator ht) hw hw' hperm fun a ha b hb hab => ?_
  obtain ⟨hpos, hsame⟩ := entrycmp_eq_zero ht hab
  have hserver := hkey a ha b hb hsame
  cases a; cases b
  cases hpos; cases hserver
  rfl

end

/-! ## The overwritten duplicates -/

/-- The server of the first entry at the position of `e`. -/
def owner (w : List ChRingEntry) (e : ChRingEntry) : Server :=
  match w.find? fun a => decide (a.pos = e.pos) with
  | some a => a.server
  | none => e.server

/-- The owner of a position, where there is an entry. -/
theorem owner_of_find {a : ChRingEntry}
    (h : (w.find? fun a => decide (a.pos = e.pos)) = some a) : owner w e = a.server := by
  rw [owner, h]

/-- The entries at one position have the same owner. -/
theorem owner_eq_of_pos_eq {e' : ChRingEntry} (he : e ∈ w)
    (hpos : e.pos = e'.pos) : owner w e = owner w e' := by
  have hsome : (w.find? fun a => decide (a.pos = e.pos)).isSome :=
    List.find?_isSome.2 ⟨e, he, decide_eq_true rfl⟩
  obtain ⟨a, ha⟩ := Option.isSome_iff_exists.1 hsome
  rw [owner_of_find ha, owner_of_find (hpos ▸ ha)]

theorem owner_cons (b : ChRingEntry) (w : List ChRingEntry) (e : ChRingEntry) :
    owner (b :: w) e = if b.pos = e.pos then b.server else owner w e := by
  rw [owner]
  split_ifs with h
  · rw [find?_cons_of_pos (by simpa using h)]
  · rw [find?_cons_of_neg (by simpa using h), owner]

/-- The loop gives every entry the server of the first entry at its position. -/
theorem overwriteFrom_eq_map (hs : (e :: l).Pairwise fun a b => a.pos ≤ b.pos) :
    overwriteFrom e l = (e :: l).map fun a => { a with server := owner (e :: l) a } := by
  induction l generalizing e with
  | nil => simp [overwriteFrom, owner]
  | cons e' l ih =>
    obtain ⟨hle, hs'⟩ := pairwise_cons.1 hs
    rw [overwriteFrom, map_cons]
    congr 1
    · simp [owner_cons]
    · split
      · next hpos =>
        have hs'' : ({ e' with server := e.server } :: l).Pairwise fun a b => a.pos ≤ b.pos :=
          pairwise_cons.2 (pairwise_cons.1 hs')
        rw [ih hs'', map_cons, map_cons]
        congr 1
        · simp [owner_cons, hpos]
        · refine map_congr_left fun a _ => ?_
          rw [owner_cons, owner_cons e, owner_cons e', hpos]
          split <;> rfl
      · next hpos =>
        rw [ih hs']
        refine map_congr_left fun a ha => ?_
        have hlt : e.pos ≠ a.pos := by
          have hee' := hle e' mem_cons_self
          have hea : e'.pos ≤ a.pos := by
            rcases mem_cons.1 ha with rfl | ha
            · exact Nat.le_refl _
            · exact (pairwise_cons.1 hs').1 a ha
          omega
        rw [owner_cons e, if_neg hlt]

/-- `ch_addnode` gives every entry the server of the first entry at its position. -/
theorem overwriteDuplicates_eq_map (hs : w.Pairwise fun a b => a.pos ≤ b.pos) :
    overwriteDuplicates w = w.map fun a => { a with server := owner w a } := by
  cases w with
  | nil => rfl
  | cons e l => exact overwriteFrom_eq_map hs

/-- No entry is overwritten when all are at different positions. -/
theorem overwriteFrom_eq_cons (h : ((e :: l).map (·.pos)).Nodup) : overwriteFrom e l = e :: l := by
  induction l generalizing e with
  | nil => rfl
  | cons e' l ih =>
    rw [map_cons, nodup_cons] at h
    have hne : e.pos ≠ e'.pos := fun heq => h.1 (heq ▸ mem_cons_self)
    rw [overwriteFrom, if_neg hne, ih h.2]

theorem overwriteDuplicates_eq_self (h : (w.map (·.pos)).Nodup) : overwriteDuplicates w = w := by
  cases w with
  | nil => rfl
  | cons e l => exact overwriteFrom_eq_cons h

/-- The overwriting brings in no new servers. -/
theorem server_mem_of_mem_overwriteFrom {a : ChRingEntry}
    (ha : a ∈ overwriteFrom e l) : a.server ∈ (e :: l).map (·.server) := by
  induction l generalizing e with
  | nil => exact mem_map_of_mem ha
  | cons e' l ih =>
    rw [overwriteFrom] at ha
    rcases mem_cons.1 ha with rfl | ha
    · exact mem_cons_self
    · have := ih ha
      rw [map_cons] at this ⊢
      rcases mem_cons.1 this with h | h
      · rw [h]
        split
        · exact mem_cons_self
        · exact mem_cons_of_mem _ (mem_map_of_mem mem_cons_self)
      · exact mem_cons_of_mem _ (mem_cons_of_mem _ h)

/-- The entries of a ring belong to the listed servers. -/
theorem server_mem_of_mem_chRing (hq : Sorts qsort) (hne : servers ≠ [])
    (h : chRing hashpos qsort type servers = some ring) (he : e ∈ ring.entrylist) :
    e.server ∈ servers := by
  obtain ⟨_, rfl⟩ := (chRing_eq_some_iff hne).1 h
  have hperm := hq.perm type.entrycmp (chEntriesFrom hashpos type 0 servers)
  cases hw : qsort type.entrycmp (chEntriesFrom hashpos type 0 servers) with
  | nil => rw [hw] at he; cases he
  | cons a l =>
    rw [hw] at he hperm
    obtain ⟨b, hb, hbe⟩ := mem_map.1 (server_mem_of_mem_overwriteFrom he)
    exact hbe ▸ server_mem_of_mem_chEntriesFrom (hperm.mem_iff.1 hb)

/-- What the last `ch_addnode` leaves is a completed ring. -/
theorem completed_overwriteDuplicates (hs : w.Pairwise fun a b => a.pos ≤ b.pos)
    (htwo : 2 ≤ w.length) : Completed (overwriteDuplicates w) := by
  rw [overwriteDuplicates_eq_map hs]
  refine ⟨pairwise_map.2 hs, fun e he e' he' hpos => ?_, by simpa using htwo⟩
  obtain ⟨a, ha, rfl⟩ := mem_map.1 he
  obtain ⟨a', _, rfl⟩ := mem_map.1 he'
  exact owner_eq_of_pos_eq ha hpos

/-- The sorted entries of a `carbon_ch` or `fnv1a_ch` ring are in the order of their positions. -/
theorem sorted_qsort (ht : type ≠ .jumpFnv1a) (hq : Sorts qsort) (l : List ChRingEntry) :
    (qsort type.entrycmp l).Pairwise fun a b => a.pos ≤ b.pos :=
  (hq.sorted _ l (entrycmp_isComparator ht)).imp fun h => pos_le_of_entrycmp ht h

/-- The ring of a `carbon_ch` or `fnv1a_ch` cluster with a server is completed. -/
theorem completed_chRing (ht : type ≠ .jumpFnv1a) (hq : Sorts qsort)
    (hne : servers ≠ []) (h : chRing hashpos qsort type servers = some ring) :
    Completed ring.entrylist := by
  obtain ⟨_, rfl⟩ := (chRing_eq_some_iff hne).1 h
  refine completed_overwriteDuplicates (sorted_qsort ht hq _) ?_
  rw [(hq.perm _ _).length_eq, length_chEntriesFrom]
  have hlen := length_pos_iff.2 hne
  cases type with
  | carbon | fnv1a => simp only [ChType.hashReplicas]; omega
  | jumpFnv1a => exact absurd rfl ht

/-- A lookup in a `carbon_ch` or `fnv1a_ch` ring that the last `ch_addnode` has completed, for no
more servers than there are in it: it returns the first distinct ones on the way around the ring
from the first entry at or after the position of the metric, wherever that is and whatever stands
behind the entries. -/
theorem chReturns_firstEntry (ht : type ≠ .jumpFnv1a) (hq : Sorts qsort) {servers : List Server}
    (hne : servers ≠ []) {ring : ChRing} (h : chRing hashpos qsort type servers = some ring)
    {r : Nat}
    (hr : r ≤ (ring.entrylist.map (·.server)).dedup.length) (position : ChType → Text → Nat)
    (metric : Text) (past : Nat) :
    ChReturns position past ring r metric (takeDistinct r []
      ((rotateFrom ring.entrylist (firstEntry ring.entrylist (position type metric))).map
        (·.server))) := by
  have htype := type_chRing hne h
  subst htype
  exact chReturns_rotateFrom ht (completed_chRing ht hq hne h) hr past

/-- Two servers, of which one is looked up. -/
theorem chReturns_firstEntry_one : ∃ ring,
    chRing (fun _ key => key.length) insertSort .carbon [.tcp 0 ['a'] 2003, .tcp 1 ['b'] 2003] =
      some ring ∧
    ChReturns (fun _ _ => 3) 0 ring 1 ['m'] (takeDistinct 1 []
      ((rotateFrom ring.entrylist (firstEntry ring.entrylist 3)).map (·.server))) := by
  have hne : [Server.tcp 0 ['a'] 2003, .tcp 1 ['b'] 2003] ≠ [] := cons_ne_nil _ _
  have h := chRing_eq_some (fun _ key => key.length) insertSort .carbon hne (by decide)
  have htwo := (completed_chRing (by decide) .insertSort hne h).two_le
  refine ⟨_, h, chReturns_firstEntry (by decide) .insertSort hne h ?_ (fun _ _ => 3) ['m'] 0⟩
  refine length_pos_iff.2 fun hnil => ?_
  rw [dedup_eq_nil, map_eq_nil_iff] at hnil
  rw [hnil] at htwo
  exact absurd htwo (by decide)

end CarbonRelay
