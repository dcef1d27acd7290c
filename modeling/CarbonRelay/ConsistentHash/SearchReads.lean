import CarbonRelay.ConsistentHash.Fill

/-!
# What the search in a ring reads

The upper end of the range that the binary search of `ch_get_nodes` looks at starts behind the last
entry. The search reads the entry at the upper end when it has come to the one in front of it. If
all entries are before the position, that is still the cell behind the last one.
-/

namespace CarbonRelay

open List

variable {es : List ChRingEntry} {past pos : Nat}

/-- `chSearch` with the indices of the entries that are read. -/
def searchReads (entries : List ChRingEntry) (past pos : Nat) :
    Nat → Nat → Nat → Option (Nat × List Nat)
  | 0, _, _ => none
  | fuel + 1, i, j =>
    let t := (i + j) / 2
    if posAt entries past t = pos then some (t, [t])
    else if posAt entries past t < pos then
      if t + 1 = j then
        if posAt entries past j < pos then some (j + 1, [t, j]) else some (j, [t, j])
      else (searchReads entries past pos fuel t j).map fun (r, reads) => (r, t :: reads)
    else
      if i + 1 = t then
        if pos ≤ posAt entries past i then some (i, [t, i]) else some (t, [t, i])
      else (searchReads entries past pos fuel i t).map fun (r, reads) => (r, t :: reads)

theorem map_fst_searchReads (es : List ChRingEntry) (past pos fuel i j : Nat) :
    (searchReads es past pos fuel i j).map Prod.fst = chSearch es past pos fuel i j := by
  induction fuel generalizing i j with
  | zero => rfl
  | succ fuel ih =>
    rw [searchReads, chSearch]
    split
    · rfl
    · split
      · split
        · split <;> rfl
        · rw [← ih, Option.map_map]
          rfl
      · split
        · split <;> rfl
        · rw [← ih, Option.map_map]
          rfl

/-- The search ends, and everything it reads is in the ring. -/
def SearchInRange (es : List ChRingEntry) (past pos : Nat) : Prop :=
  ∃ fuel₀, ∀ fuel, fuel₀ ≤ fuel → ∃ t reads,
    searchReads es past pos fuel 0 es.length = some (t, reads) ∧ ∀ x ∈ reads, x < es.length

/-- The upper end of the range is behind the last entry, or an entry after the position. -/
theorem searchReads_in_range (past : Nat) (hs : es.Pairwise fun e e' => e.pos ≤ e'.pos) :
    ∀ (fuel i j : Nat), i + 2 ≤ j → j ≤ es.length → j - i ≤ fuel →
      (j < es.length → ∃ e, es[j]? = some e ∧ pos < e.pos) →
      ∃ t reads, searchReads es past pos fuel i j = some (t, reads) ∧
        ((∀ x ∈ reads, x < es.length) ↔ ∃ e ∈ es, pos ≤ e.pos)
  | 0, i, j, hij, _, hfuel, _ => by omega
  | fuel + 1, i, j, hij, hj, hfuel, hhi => by
    have ht : (i + j) / 2 < es.length := by omega
    have he : es[(i + j) / 2]? = some es[(i + j) / 2] := getElem?_eq_getElem ht
    have hmem : es[(i + j) / 2] ∈ es := getElem_mem ht
    have hcons {reads : List Nat} (h : (∀ x ∈ reads, x < es.length) ↔ ∃ e ∈ es, pos ≤ e.pos) :
        (∀ x ∈ (i + j) / 2 :: reads, x < es.length) ↔ ∃ e ∈ es, pos ≤ e.pos := by
      rw [forall_mem_cons, and_iff_right ht, h]
    rw [searchReads]
    simp only [posAt_eq he]
    split
    · next heq =>
      refine ⟨_, _, rfl, iff_of_true ?_ ⟨_, hmem, heq.ge⟩⟩
      exact forall_mem_singleton.2 ht
    · split
      · next hlt =>
        split
        · next htj =>
          have hreads : (∀ x ∈ [(i + j) / 2, j], x < es.length) ↔ ∃ e ∈ es, pos ≤ e.pos := by
            refine hcons (forall_mem_singleton.trans ?_)
            constructor
            · intro hjlt
              obtain ⟨e, hje, hpos⟩ := hhi hjlt
              exact ⟨e, mem_of_getElem? hje, hpos.le⟩
            · rintro ⟨e, hmem', hpos⟩
              by_contra hjlt
              obtain ⟨x, hx⟩ := mem_iff_getElem?.1 hmem'
              have hxlt := (List.getElem?_eq_some_iff.1 hx).1
              have := pos_le_pos hs hx he (by omega)
              omega
          split
          · exact ⟨_, _, rfl, hreads⟩
          · exact ⟨_, _, rfl, hreads⟩
        · obtain ⟨t, reads, hsearch, hreads⟩ :=
            searchReads_in_range past hs fuel ((i + j) / 2) j (by omega) hj (by omega) hhi
          rw [hsearch]
          exact ⟨_, _, rfl, hcons hreads⟩
      · next hnlt =>
        have hafter : pos < es[(i + j) / 2].pos := by omega
        split
        · have hreads : (∀ x ∈ [(i + j) / 2, i], x < es.length) ↔ ∃ e ∈ es, pos ≤ e.pos :=
            hcons (iff_of_true (forall_mem_singleton.2 (by omega)) ⟨_, hmem, hafter.le⟩)
          split
          · exact ⟨_, _, rfl, hreads⟩
          · exact ⟨_, _, rfl, hreads⟩
        · obtain ⟨t, reads, hsearch, hreads⟩ :=
            searchReads_in_range past hs fuel i ((i + j) / 2) (by omega)
            (by omega) (by omega) fun _ => ⟨_, he, hafter⟩
          rw [hsearch]
          exact ⟨_, _, rfl, hcons hreads⟩

theorem searchInRange_iff_of_completed (past pos : Nat) (hc : Completed es) :
    SearchInRange es past pos ↔ ∃ e ∈ es, pos ≤ e.pos := by
  have htwo := hc.two_le
  have hspec fuel (hfuel : es.length ≤ fuel) :=
    @searchReads_in_range es pos past hc.sorted fuel 0 es.length
    (by omega) le_rfl (by omega) fun h => absurd h (Nat.lt_irrefl _)
  constructor
  · rintro ⟨fuel₀, h⟩
    obtain ⟨t, reads, hsearch, hreads⟩ := hspec (max fuel₀ es.length) (le_max_right _ _)
    obtain ⟨_, _, hsearch', hwithin⟩ := h (max fuel₀ es.length) (le_max_left _ _)
    cases hsearch.symm.trans hsearch'
    exact hreads.1 hwithin
  · intro h
    refine ⟨es.length, fun fuel hfuel => ?_⟩
    obtain ⟨t, reads, hsearch, hreads⟩ := hspec fuel hfuel
    exact ⟨t, reads, hsearch, hreads.2 h⟩

variable {hashpos : ChType → Text → Nat}
  {qsort : (ChRingEntry → ChRingEntry → Int) → List ChRingEntry → List ChRingEntry} {type : ChType}

/-- The search in a completed ring reads the ring only if there is an entry at or after the
position. -/
theorem searchInRange_iff (ht : type ≠ .jumpFnv1a) (hq : Sorts qsort) {servers : List Server}
    (hne : servers ≠ []) {ring : ChRing} (h : chRing hashpos qsort type servers = some ring)
    (past pos : Nat) :
    SearchInRange ring.entrylist past pos ↔ ∃ e ∈ ring.entrylist, pos ≤ e.pos :=
  searchInRange_iff_of_completed past pos (completed_chRing ht hq hne h)

/-- Every entry is at or after position 0. -/
theorem searchInRange_zero : ∃ ring,
    chRing (fun _ _ => 0) insertSort .fnv1a [.tcp 0 ['a'] 2003] = some ring ∧
      SearchInRange ring.entrylist 0 0 := by
  have hne : [Server.tcp 0 ['a'] 2003] ≠ [] := cons_ne_nil _ _
  have h := chRing_eq_some (fun _ _ => 0) insertSort .fnv1a hne (by decide)
  have htwo := (completed_chRing (by decide) .insertSort hne h).two_le
  refine ⟨_, h, (searchInRange_iff (by decide) .insertSort hne h 0 0).2 ?_⟩
  obtain ⟨e, he⟩ := exists_mem_of_length_pos (Nat.lt_of_lt_of_le Nat.two_pos htwo)
  exact ⟨e, he, Nat.zero_le _⟩

/-- No entry is at or after position 1. -/
theorem search_reads_behind : ∃ ring,
    chRing (fun _ _ => 0) insertSort .fnv1a [.tcp 0 ['a'] 2003] = some ring ∧
      ¬SearchInRange ring.entrylist 0 1 := by
  have hne : [Server.tcp 0 ['a'] 2003] ≠ [] := cons_ne_nil _ _
  have h := chRing_eq_some (fun _ _ => 0) insertSort .fnv1a hne (by decide)
  refine ⟨_, h, fun hrange => ?_⟩
  obtain ⟨e, he, hpos⟩ :=
    (searchInRange_iff_of_completed 0 1 (completed_chRing (by decide) .insertSort hne h)).1 hrange
  have hall : ∀ e ∈ overwriteDuplicates (insertSort ChType.fnv1a.entrycmp
      (chEntriesFrom (fun _ _ => 0) .fnv1a 0 [.tcp 0 ['a'] 2003])), e.pos = 0 := by
    decide +kernel
  rw [hall e he] at hpos
  exact absurd hpos (by decide)

end CarbonRelay
