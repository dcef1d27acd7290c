import CarbonRelay.ConsistentHash.Ring
import CarbonRelay.Lib.DistinctWalk

/-!
# What a lookup in a completed ring returns

A completed ring is sorted by position, and all entries at one position have the same server
(`Completed`). On such a ring the binary search ends at an entry from which the walk meets the
servers in the order of `ringFrom`: the entries at or after the position of the metric, then those
before it. So a lookup returns the first distinct servers of that order (`chReturns_iff`), whatever
the memory behind the entries holds, and does not return when there are too few
(`chGetNodes_eq_none`).
-/

namespace CarbonRelay

open List

variable {es : List ChRingEntry} {past pos r : Nat}

/-- What `ch_addnode` leaves behind when it has added the last server of a `carbon_ch` or `fnv1a_ch`
ring. -/
structure Completed (es : List ChRingEntry) : Prop where
  sorted : es.Pairwise fun e e' => e.pos ≤ e'.pos
  owner : ∀ e ∈ es, ∀ e' ∈ es, e.pos = e'.pos → e.server = e'.server
  two_le : 2 ≤ es.length

/-- The entries of a sorted ring in the order of a walk that starts at the first entry at or after
`pos`, and goes on at entry 0 behind the last. -/
def ringFrom (es : List ChRingEntry) (pos : Nat) : List ChRingEntry :=
  es.filter (fun e => decide (pos ≤ e.pos)) ++ es.filter fun e => decide (e.pos < pos)

/-- The first `r` distinct servers of that walk. -/
def chNodes (es : List ChRingEntry) (pos r : Nat) : List Server :=
  takeDistinct r [] ((ringFrom es pos).map (·.server))

/-! ## The binary search -/

/-- Entry `t` is at `pos`, or it divides the entries before `pos` from those after it. -/
def Found (es : List ChRingEntry) (pos t : Nat) : Prop :=
  (∃ e, es[t]? = some e ∧ e.pos = pos) ∨
    ((∀ x e, es[x]? = some e → x < t → e.pos < pos) ∧
      ∀ x e, es[x]? = some e → t ≤ x → pos < e.pos)

variable {e : ChRingEntry} {fuel t : Nat} {ret : List Server}

theorem posAt_eq {x : Nat} (h : es[x]? = some e) : posAt es past x = e.pos := by
  rw [posAt, h]

/-- In a sorted list the position grows with the index. -/
theorem pos_le_pos (hs : es.Pairwise fun e e' => e.pos ≤ e'.pos) {x y : Nat} {e' : ChRingEntry}
    (hx : es[x]? = some e) (hy : es[y]? = some e') (hxy : x ≤ y) : e.pos ≤ e'.pos := by
  obtain ⟨hx', rfl⟩ := List.getElem?_eq_some_iff.1 hx
  obtain ⟨hy', rfl⟩ := List.getElem?_eq_some_iff.1 hy
  rcases Nat.lt_or_eq_of_le hxy with hlt | rfl
  · exact pairwise_iff_getElem.1 hs x y hx' hy' hlt
  · exact Nat.le_refl _

/-- The search ends at a dividing entry. The range `i`, `j` is such that the entries up to `i` are
before `pos`, unless `i` is still 0, and those from `j` on are after it. -/
theorem chSearch_found (past pos : Nat) (hs : es.Pairwise fun e e' => e.pos ≤ e'.pos) :
    ∀ (fuel i j : Nat), i + 2 ≤ j → j ≤ es.length → j - i ≤ fuel →
      (i = 0 ∨ ∀ x e, es[x]? = some e → x ≤ i → e.pos < pos) →
      (∀ x e, es[x]? = some e → j ≤ x → pos < e.pos) →
      ∃ t, chSearch es past pos fuel i j = some t ∧ Found es pos t
  | 0, i, j, hij, _, hfuel, _, _ => by omega
  | fuel + 1, i, j, hij, hj, hfuel, hlo, hhi => by
    obtain ⟨e, he⟩ : ∃ e, es[(i + j) / 2]? = some e := ⟨_, getElem?_eq_getElem (by omega)⟩
    rw [chSearch]
    simp only [posAt_eq he]
    split
    · next heq => exact ⟨_, rfl, .inl ⟨e, he, heq⟩⟩
    · next hne =>
      split
      · next hlt =>
        have hle : ∀ x e', es[x]? = some e' → x ≤ (i + j) / 2 → e'.pos < pos := fun x e' hx hxt =>
          Nat.lt_of_le_of_lt (pos_le_pos hs hx he hxt) hlt
        split
        · next htj =>
          split
          · next hjpos =>
            have hjn : j = es.length := by
              refine Nat.le_antisymm hj (Nat.le_of_not_lt fun hjn => ?_)
              have hje := getElem?_eq_getElem hjn
              rw [posAt_eq hje] at hjpos
              have := hhi j _ hje (Nat.le_refl j)
              omega
            refine ⟨_, rfl, .inr ⟨fun x e' hx _ => ?_, fun x e' hx hjx => ?_⟩⟩
            · have := (List.getElem?_eq_some_iff.1 hx).1
              exact hle x e' hx (by omega)
            · have := (List.getElem?_eq_some_iff.1 hx).1
              omega
          · exact ⟨_, rfl, .inr ⟨fun x e' hx hxj => hle x e' hx (by omega), hhi⟩⟩
        · exact chSearch_found past pos hs fuel _ j (by omega) hj (by omega) (.inr hle) hhi
      · next hnlt =>
        have hge : ∀ x e', es[x]? = some e' → (i + j) / 2 ≤ x → pos < e'.pos :=
          fun x e' hx hxt => by
          have := pos_le_pos hs he hx hxt
          omega
        split
        · next hit =>
          obtain ⟨e₀, he₀⟩ : ∃ e₀, es[i]? = some e₀ := ⟨_, getElem?_eq_getElem (by omega)⟩
          rw [posAt_eq he₀]
          split
          · next hpos =>
            refine ⟨_, rfl, ?_⟩
            rcases Nat.lt_or_eq_of_le hpos with hlt | heq
            · refine .inr ⟨fun x e' hx hxi => ?_, fun x e' hx hix => ?_⟩
              · rcases hlo with rfl | hlo
                · omega
                · exact hlo x e' hx (by omega)
              · exact Nat.lt_of_lt_of_le hlt (pos_le_pos hs he₀ hx hix)
            · exact .inl ⟨e₀, he₀, heq.symm⟩
          · next hpos =>
            refine ⟨_, rfl, .inr ⟨fun x e' hx hxt => ?_, hge⟩⟩
            have := pos_le_pos hs hx he₀ (by omega)
            omega
        · exact chSearch_found past pos hs fuel i _ (by omega) (by omega) (by omega) hlo hge

/-- More fuel does not change the end of a search. -/
theorem chSearch_mono {i j : Nat} (h : chSearch es past pos fuel i j = some t) :
    ∀ {fuel'}, fuel ≤ fuel' → chSearch es past pos fuel' i j = some t := by
  induction fuel generalizing i j with
  | zero => cases h
  | succ fuel ih =>
    intro fuel' hle
    obtain ⟨fuel', rfl⟩ : ∃ k, fuel' = k + 1 := ⟨fuel' - 1, by omega⟩
    rw [chSearch] at h ⊢
    have hle' : fuel ≤ fuel' := by omega
    split_ifs at h ⊢
    all_goals first | exact h | exact ih h hle'

/-! ## The walk -/

/-- The entries of a ring in the order of a walk that starts at entry `t`. -/
def rotateFrom (es : List ChRingEntry) (t : Nat) : List ChRingEntry := es.drop t ++ es.take t

theorem chWalk_full (h : ¬ ret.length < r) : chWalk es r (fuel + 1) t ret = some ret := by
  rw [chWalk, if_neg h]

/-- Behind the last entry the walk goes on at entry 0. -/
theorem chWalk_wrap (ht : es.length ≤ t) : chWalk es r fuel t ret = chWalk es r fuel 0 ret := by
  cases fuel with
  | zero => rfl
  | succ fuel => simp only [chWalk, if_pos ht, ite_self]

/-- One turn of the walk collects the server of the entry it is at. -/
theorem chWalk_succ (he : es[t]? = some e) (hr : ret.length < r) :
    chWalk es r (fuel + 1) t ret = chWalk es r fuel (t + 1) (takeDistinct r ret [e.server]) := by
  have ht : ¬ es.length ≤ t := Nat.not_le.2 (List.getElem?_eq_some_iff.1 he).1
  rw [chWalk, if_pos hr]
  simp only [if_neg ht, he]
  split
  · next hmem => rw [takeDistinct_cons_mem hmem, takeDistinct_nil]
  · next hmem => rw [takeDistinct_cons_not_mem hr hmem, takeDistinct_nil]

/-- The walk from entry `t` to the end of the list. -/
theorem chWalk_drop : ∀ (k : Nat) {t : Nat} {ret : List Server}, t + k = es.length →
    chWalk es r (k + (fuel + 1)) t ret =
      chWalk es r (fuel + 1) es.length (takeDistinct r ret ((es.drop t).map (·.server)))
  | 0, t, ret, ht => by
    obtain rfl : t = es.length := by omega
    rw [drop_length, map_nil, takeDistinct_nil, Nat.zero_add]
  | k + 1, t, ret, ht => by
    by_cases hr : ret.length < r
    · have hlt : t < es.length := by omega
      rw [drop_eq_getElem_cons hlt, map_cons,
        show k + 1 + (fuel + 1) = k + (fuel + 1) + 1 by omega,
        chWalk_succ (getElem?_eq_getElem hlt) hr, chWalk_drop k (by omega),
        ← takeDistinct_append, singleton_append]
    · rw [show k + 1 + (fuel + 1) = k + 1 + fuel + 1 by omega, takeDistinct_full hr,
        chWalk_full hr, chWalk_full hr]

/-- The walk from entry `t` once around the ring and on to the end of the list. -/
theorem chWalk_rotate_of_le (ht : t ≤ es.length) :
    chWalk es r (es.length - t + (es.length + (fuel + 1))) t [] = chWalk es r (fuel + 1) es.length
        (takeDistinct r [] ((rotateFrom es t).map (·.server))) := by
  have hlap : takeDistinct r (takeDistinct r [] ((es.drop t).map (·.server)))
      (es.map (·.server)) = takeDistinct r [] ((rotateFrom es t).map (·.server)) := by
    have hsplit : es.map (·.server) = (es.take t).map (·.server) ++ (es.drop t).map (·.server) := by
      rw [← map_append, take_append_drop]
    have hrot : takeDistinct r (takeDistinct r [] ((es.drop t).map (·.server)))
        ((es.take t).map (·.server)) = takeDistinct r [] ((rotateFrom es t).map (·.server)) := by
      rw [rotateFrom, map_append, takeDistinct_append]
    rw [hsplit, takeDistinct_append, hrot, rotateFrom, map_append]
    exact takeDistinct_of_walked fun a ha => mem_append_left _ ha
  rw [← Nat.add_assoc es.length fuel 1, chWalk_drop _ (by omega), Nat.add_assoc,
    chWalk_wrap (Nat.le_refl _), chWalk_drop _ (by omega), drop_zero, hlap]

/-- Some turns of the walk from `t` collect from the whole ring in the order `rotateFrom es t`. -/
theorem chWalk_rotate (es : List ChRingEntry) (r t : Nat) :
    ∃ k, ∀ fuel, chWalk es r (k + (fuel + 1)) t [] =
    chWalk es r (fuel + 1) es.length (takeDistinct r [] ((rotateFrom es t).map (·.server))) := by
  rcases Nat.lt_or_ge es.length t with hlt | hle
  · have hrot : rotateFrom es t = rotateFrom es 0 := by
      rw [rotateFrom, rotateFrom, drop_eq_nil_of_le (Nat.le_of_lt hlt),
        take_of_length_le (Nat.le_of_lt hlt), drop_zero, take_zero, append_nil,
        nil_append]
    refine ⟨es.length - 0 + es.length, fun fuel => ?_⟩
    rw [chWalk_wrap (Nat.le_of_lt hlt), hrot, Nat.add_assoc, chWalk_rotate_of_le (Nat.zero_le _)]
  · refine ⟨es.length - t + es.length, fun fuel => ?_⟩
    rw [Nat.add_assoc, chWalk_rotate_of_le hle]

/-- A walk that has met every server of the ring, but not enough of them, goes on for ever. -/
theorem chWalk_stuck (hall : ∀ e ∈ es, e.server ∈ ret) (hr : ret.length < r) :
    ∀ (fuel t : Nat), chWalk es r fuel t ret = none
  | 0, _ => rfl
  | fuel + 1, t => by
    rw [chWalk, if_pos hr]
    simp only
    split
    · rfl
    · next e he =>
      rw [if_pos (hall e (mem_of_getElem? he))]
      exact chWalk_stuck hall hr fuel _

/-- More fuel does not change the end of a walk. -/
theorem chWalk_mono {fuel t : Nat} {ret ret' : List Server}
    (h : chWalk es r fuel t ret = some ret') :
    ∀ {fuel'}, fuel ≤ fuel' → chWalk es r fuel' t ret = some ret' := by
  induction fuel generalizing t ret with
  | zero => cases h
  | succ fuel ih =>
    intro fuel' hle
    obtain ⟨fuel', rfl⟩ : ∃ k, fuel' = k + 1 := ⟨fuel' - 1, by omega⟩
    have hle' : fuel ≤ fuel' := by omega
    rw [chWalk] at h ⊢
    split at h
    · next hr =>
      rw [if_pos hr]
      simp only at h ⊢
      split at h
      · cases h
      · split at h
        · next hmem => rw [if_pos hmem]; exact ih h hle'
        · next hmem => rw [if_neg hmem]; exact ih h hle'
    · next hr => rw [if_neg hr]; exact h

/-! ## The lookup -/

/-- A sorted list is its entries before `pos`, then the others. -/
theorem filter_append_filter (hs : es.Pairwise fun e e' => e.pos ≤ e'.pos) :
    es = es.filter (fun e => decide (e.pos < pos)) ++ es.filter fun e => decide (pos ≤ e.pos) := by
  induction es with
  | nil => rfl
  | cons e es ih =>
    obtain ⟨he, hs⟩ := pairwise_cons.1 hs
    rcases Nat.lt_or_ge e.pos pos with hlt | hge
    · rw [filter_cons_of_pos (by simpa using hlt),
        filter_cons_of_neg (by simpa using hlt), cons_append, ← ih hs]
    · have hnil : es.filter (fun e => decide (e.pos < pos)) = [] :=
        filter_eq_nil_iff.2 fun a ha => by
          have := he a ha
          simp only [decide_eq_true_eq]
          omega
      have hall : es.filter (fun e => decide (pos ≤ e.pos)) = es :=
        filter_eq_self.2 fun a ha => by
          have := he a ha
          simp only [decide_eq_true_eq]
          omega
      rw [filter_cons_of_neg (by simpa using hge), filter_cons_of_pos (by simpa using hge),
        hnil, hall, nil_append]

/-- The order of a walk when the entries from a point on are known to be at or after `pos`. -/
theorem ringFrom_append {l d : List ChRingEntry} (hd : ∀ a ∈ d, pos ≤ a.pos) :
    ringFrom (l ++ d) pos =
      l.filter (fun e => decide (pos ≤ e.pos)) ++ d ++ l.filter fun e => decide (e.pos < pos) := by
  have hge : d.filter (fun e => decide (pos ≤ e.pos)) = d :=
    filter_eq_self.2 fun a ha => decide_eq_true (hd a ha)
  have hlt : d.filter (fun e => decide (e.pos < pos)) = [] :=
    filter_eq_nil_iff.2 fun a ha => by simpa using hd a ha
  rw [ringFrom, filter_append, filter_append, hge, hlt, append_nil]

/-- From where the search ends, the walk meets the servers in the order of `ringFrom`: at an exact
match only copies of the first server are moved from the front to the end. -/
theorem takeDistinct_rotateFrom (hc : Completed es) (ht : Found es pos t) :
    takeDistinct r [] ((rotateFrom es t).map (·.server)) = chNodes es pos r := by
  have hsplit := take_append_drop t es
  rcases ht with ⟨e, he, rfl⟩ | ⟨hlo, hhi⟩
  · rcases Nat.eq_zero_or_pos r with rfl | hr
    · rw [chNodes, takeDistinct_full (Nat.not_lt_zero _), takeDistinct_full (Nat.not_lt_zero _)]
    obtain ⟨hlt, rfl⟩ := List.getElem?_eq_some_iff.1 he
    have hcons := drop_eq_getElem_cons hlt
    have hs := hc.sorted
    rw [← hsplit] at hs
    obtain ⟨hst, hsd, hcross⟩ := pairwise_append.1 hs
    have hge : ∀ a ∈ es.drop t, es[t].pos ≤ a.pos := by
      rw [hcons] at hsd ⊢
      exact forall_mem_cons.2 ⟨Nat.le_refl _, (pairwise_cons.1 hsd).1⟩
    have hcopies : ∀ b ∈ ((es.take t).filter (fun a => decide (es[t].pos ≤ a.pos))).map (·.server),
        b = es[t].server := by
      intro b hb
      obtain ⟨a, ha, rfl⟩ := mem_map.1 hb
      obtain ⟨hat, hap⟩ := mem_filter.1 ha
      have hle := hcross a hat es[t] (hcons ▸ mem_cons_self)
      exact hc.owner a (mem_of_mem_take hat) es[t] (getElem_mem hlt)
        (Nat.le_antisymm hle (of_decide_eq_true hap))
    have hring : ringFrom es es[t].pos = (es.take t).filter (fun a => decide (es[t].pos ≤ a.pos)) ++
        es[t] :: (es.drop (t + 1) ++ (es.take t).filter fun a => decide (a.pos < es[t].pos)) := by
      have := ringFrom_append (l := es.take t) hge
      rw [hsplit] at this
      rw [this, hcons, append_assoc, cons_append]
    have hrot : rotateFrom es t = es[t] :: (es.drop (t + 1) ++
        (es.take t).filter fun a => decide (a.pos < es[t].pos)) ++
        (es.take t).filter fun a => decide (es[t].pos ≤ a.pos) := by
      rw [rotateFrom, hcons, cons_append, cons_append, append_assoc, ← filter_append_filter hst]
    rw [chNodes, hring, hrot, map_append, map_cons]
    conv_rhs => rw [map_append, map_cons, takeDistinct_rotate_copies hr hcopies]
  · have htake : ∀ a ∈ es.take t, a.pos < pos := by
      intro a ha
      obtain ⟨x, hx, hxa⟩ := mem_take_iff_getElem.1 ha
      exact hlo x a (List.getElem?_eq_some_iff.2 ⟨by omega, hxa⟩) (by omega)
    have hdrop : ∀ a ∈ es.drop t, pos ≤ a.pos := by
      intro a ha
      obtain ⟨x, hx, hxa⟩ := mem_drop_iff_getElem.1 ha
      exact Nat.le_of_lt (hhi (t + x) a (List.getElem?_eq_some_iff.2 ⟨by omega, hxa⟩) (by omega))
    have hring := ringFrom_append (l := es.take t) hdrop
    rw [hsplit, filter_eq_nil_iff.2 fun a ha => by simpa using htake a ha,
      filter_eq_self.2 fun a ha => decide_eq_true (htake a ha), nil_append] at hring
    rw [chNodes, hring, rotateFrom]

/-- The walk from where the search ended returns when the ring has enough servers. -/
theorem chWalk_of_found (hc : Completed es) (ht : Found es pos t)
    (hr : (chNodes es pos r).length = r) :
    ∃ k, ∀ fuel, k ≤ fuel → chWalk es r fuel t [] = some (chNodes es pos r) := by
  obtain ⟨k, hk⟩ := chWalk_rotate es r t
  refine ⟨k + (0 + 1), fun fuel hle => chWalk_mono ?_ hle⟩
  rw [hk, takeDistinct_rotateFrom hc ht, chWalk_full (by omega)]

/-- The servers of the ring are in a walk that found too few. -/
theorem mem_chNodes_of_length_lt (hr : (chNodes es pos r).length < r)
    (he : e ∈ es) : e.server ∈ chNodes es pos r := by
  refine mem_takeDistinct_of_length_lt hr _ (mem_map_of_mem ?_)
  rcases Nat.lt_or_ge e.pos pos with hlt | hge
  · exact mem_append_right _ (mem_filter.2 ⟨he, decide_eq_true hlt⟩)
  · exact mem_append_left _ (mem_filter.2 ⟨he, decide_eq_true hge⟩)

/-- The walk from where the search ended does not return when the ring has too few servers. -/
theorem chWalk_eq_none_of_found (hc : Completed es) (ht : Found es pos t)
    (hr : (chNodes es pos r).length < r) (fuel : Nat) : chWalk es r fuel t [] = none := by
  obtain ⟨k, hk⟩ := chWalk_rotate es r t
  refine Option.eq_none_iff_forall_ne_some.2 fun ret hret => ?_
  have hmore := chWalk_mono hret (show fuel ≤ k + (fuel + 1) by omega)
  rw [hk, takeDistinct_rotateFrom hc ht,
    chWalk_stuck (fun e he => mem_chNodes_of_length_lt hr he) hr] at hmore
  cases hmore

section
variable {hashpos : ChType → Text → Nat} {ring : ChRing} {metric : Text} {ret : List Server}

/-- The search of a lookup in a completed ring. -/
theorem exists_found (past pos : Nat) (hc : Completed es) : ∃ t, Found es pos t ∧
    ∀ fuel, es.length ≤ fuel → chSearch es past pos fuel 0 es.length = some t := by
  obtain ⟨t, ht, hfound⟩ := chSearch_found past pos hc.sorted es.length 0 es.length hc.two_le
    (Nat.le_refl _) (by omega) (.inl rfl) fun x e hx hle =>
      absurd (List.getElem?_eq_some_iff.1 hx).1 (by omega)
  exact ⟨t, hfound, fun fuel hle => chSearch_mono ht hle⟩

/-- A lookup in a ring is the search and the walk. -/
theorem chGetNodes_ring (ht : ring.type ≠ .jumpFnv1a) (fuel : Nat) :
    chGetNodes hashpos past fuel ring r metric =
      (chSearch ring.entrylist past (hashpos ring.type metric) fuel 0 ring.entrylist.length).bind
        fun t => chWalk ring.entrylist r fuel t [] := by
  rw [chGetNodes]
  split
  · next hj => exact absurd hj ht
  · rfl

/-- A lookup in a completed ring with enough servers returns the first distinct ones from the
position of the metric on, whatever stands behind the entries. -/
theorem chReturns_chNodes (past : Nat) (ht : ring.type ≠ .jumpFnv1a) (hc : Completed ring.entrylist)
    (hr : (chNodes ring.entrylist (hashpos ring.type metric) r).length = r) :
    ChReturns hashpos past ring r metric (chNodes ring.entrylist (hashpos ring.type metric) r) := by
  obtain ⟨t, hfound, hsearch⟩ := exists_found past (hashpos ring.type metric) hc
  obtain ⟨k, hk⟩ := chWalk_of_found hc hfound hr
  refine ⟨max k ring.entrylist.length, fun fuel hle => ?_⟩
  rw [chGetNodes_ring ht, hsearch fuel (by omega), Option.bind_some, hk fuel (by omega)]

/-- A lookup in a completed ring with too few servers does not return. -/
theorem chGetNodes_eq_none (ht : ring.type ≠ .jumpFnv1a) (hc : Completed ring.entrylist)
    (hr : (chNodes ring.entrylist (hashpos ring.type metric) r).length < r) (fuel : Nat) :
    chGetNodes hashpos past fuel ring r metric = none := by
  obtain ⟨t, hfound, hsearch⟩ := exists_found past (hashpos ring.type metric) hc
  rw [chGetNodes_ring ht]
  refine Option.eq_none_iff_forall_ne_some.2 fun ret hret => ?_
  obtain ⟨t', ht', hwalk⟩ := Option.bind_eq_some_iff.1 hret
  have hmore := chSearch_mono ht' (Nat.le_max_left fuel ring.entrylist.length)
  rw [hsearch _ (Nat.le_max_right _ _)] at hmore
  cases hmore
  rw [chWalk_eq_none_of_found hc hfound hr] at hwalk
  cases hwalk

/-- What a lookup in a completed ring returns. -/
theorem chReturns_iff (ht : ring.type ≠ .jumpFnv1a) (hc : Completed ring.entrylist) :
    ChReturns hashpos past ring r metric ret ↔
      ret = chNodes ring.entrylist (hashpos ring.type metric) r ∧ ret.length = r := by
  constructor
  · rintro ⟨fuel₀, h⟩
    have hlen : (chNodes ring.entrylist (hashpos ring.type metric) r).length = r := by
      refine Nat.le_antisymm (length_takeDistinct_le (Nat.zero_le r))
        (Nat.le_of_not_lt fun hlt => ?_)
      have := h fuel₀ (Nat.le_refl _)
      rw [chGetNodes_eq_none ht hc hlt] at this
      cases this
    obtain ⟨fuel₁, h'⟩ := chReturns_chNodes past ht hc hlen
    have heq := (h _ (Nat.le_max_left fuel₀ fuel₁)).symm.trans (h' _ (Nat.le_max_right fuel₀ fuel₁))
    cases heq
    exact ⟨rfl, hlen⟩
  · rintro ⟨rfl, hlen⟩
    exact chReturns_chNodes past ht hc hlen

end

/-- The number of servers a lookup can find is that of the distinct servers in the ring. -/
theorem length_chNodes_eq_iff : (chNodes es pos r).length = r ↔
    r ≤ (es.map (·.server)).dedup.length := by
  have hperm : ((ringFrom es pos).map (·.server)).dedup.length =
      (es.map (·.server)).dedup.length := by
    have : (ringFrom es pos).Perm es := by
      have := filter_append_perm (fun e => decide (pos ≤ e.pos)) es
      simpa only [ringFrom, ← decide_not, Nat.not_le] using this
    exact (this.map _).dedup.length_eq
  constructor
  · intro h
    have := length_takeDistinct_le_dedup (r := r) (l := (ringFrom es pos).map (·.server))
    rw [hperm] at this
    exact h ▸ this
  · intro h
    exact length_takeDistinct_eq (hperm ▸ h)

/-! ## The walk from the first entry -/

/-- The first entry at or after `pos`, or entry 0 if there is none. -/
def firstEntry (es : List ChRingEntry) (pos : Nat) : Nat :=
  (es.findIdx? fun e => decide (pos ≤ e.pos)).getD 0

/-- In a sorted ring, the entries at or after `pos` are those from the first one of them on. -/
theorem ringFrom_eq_rotateFrom (hs : es.Pairwise fun e e' => e.pos ≤ e'.pos) :
    ringFrom es pos = rotateFrom es (firstEntry es pos) := by
  rw [firstEntry, rotateFrom]
  cases hfind : es.findIdx? fun e => decide (pos ≤ e.pos) with
  | none =>
    have hall : ∀ e ∈ es, e.pos < pos := fun e he => by
      simpa using List.findIdx?_eq_none_iff.1 hfind e he
    rw [ringFrom, filter_eq_nil_iff.2 fun e he => by simpa using hall e he,
      filter_eq_self.2 fun e he => decide_eq_true (hall e he)]
    simp
  | some t =>
    obtain ⟨hlt, ht, hbefore⟩ := List.findIdx?_eq_some_iff_getElem.1 hfind
    have htake : ∀ a ∈ es.take t, a.pos < pos := by
      intro a ha
      obtain ⟨x, hx, rfl⟩ := mem_take_iff_getElem.1 ha
      simpa using hbefore x (by omega)
    have hdrop : ∀ a ∈ es.drop t, pos ≤ a.pos := by
      intro a ha
      obtain ⟨x, hx, rfl⟩ := mem_drop_iff_getElem.1 ha
      have hle : es[t].pos ≤ es[t + x].pos := pos_le_pos hs (getElem?_eq_getElem hlt)
        (getElem?_eq_getElem (by omega)) (Nat.le_add_right t x)
      exact (of_decide_eq_true ht).trans hle
    have hring := ringFrom_append (l := es.take t) hdrop
    rwa [take_append_drop, filter_eq_nil_iff.2 fun a ha => by simpa using htake a ha,
      filter_eq_self.2 fun a ha => decide_eq_true (htake a ha), nil_append] at hring

/-- A lookup for no more servers than there are in a completed ring returns the first distinct ones
on the way around the ring from the first entry at or after the position of the metric. -/
theorem chReturns_rotateFrom {hashpos : ChType → Text → Nat} {ring : ChRing} {metric : Text}
    (ht : ring.type ≠ .jumpFnv1a) (hc : Completed ring.entrylist)
    (hr : r ≤ (ring.entrylist.map (·.server)).dedup.length) (past : Nat) :
    ChReturns hashpos past ring r metric (takeDistinct r []
      ((rotateFrom ring.entrylist (firstEntry ring.entrylist (hashpos ring.type metric))).map
        (·.server))) := by
  rw [← ringFrom_eq_rotateFrom hc.sorted]
  exact chReturns_chNodes past ht hc (length_chNodes_eq_iff.2 hr)

end CarbonRelay
