import CarbonRelay.Dispatcher.Listeners

/-!
# How listeners are compared

`router_contains_listener` compares two listeners by their addresses in a canonical form, unless
they were given by name. To find out, it looks for a character of the text that is not in an
address. The search is by `strchr`, which also finds the terminator, so for a text of such
characters only it goes on behind the end.
-/

namespace CarbonRelay

open List Option

/-- A listener in memory: what is behind the text of its address, and whether its list of addresses
was released. -/
structure PlacedListener where
  listener : Listener
  behind : Text
  released : Bool
  nul : ∀ ip, listener.ip = some ip → '\x00' ∉ ip
  deriving DecidableEq

namespace PlacedListener

/-! ## The comparison -/

def addressChars : List Char := "0123456789.:".toList

/-- `strchr` finds a character in these, and also the one behind them. -/
def strchrFinds (c : Char) : Bool := addressChars.contains c || c == '\x00'

/-- Where the loop ends, if it does so before the end of the memory. -/
def scanEnd (chars : Text) : Option Nat := chars.findIdx? fun c => !strchrFinds c

/-- The text of one side. For a text that is looked at there is its length with the last position
that was read. -/
def comparedText (l : PlacedListener) (hnbuf : Text) : Option (Text × List (Nat × Nat)) :=
  match l.listener.ip with
  | none => some (hnbuf, [])
  | some ip =>
    (scanEnd (ip ++ '\x00' :: l.behind)).map fun p =>
      (if (ip ++ '\x00' :: l.behind)[p]? ≠ some '\x00' then ip else hnbuf, [(ip.length, p)])

/-- The text of the first address. -/
def hnbuf (l : PlacedListener) (unknown : Text) : Text :=
  if l.released then unknown else l.listener.addr

def unknownLeft : Text := "unknown left".toList

def unknownRight : Text := "unknown right".toList

/-- The comparison of transport and protocol. -/
def SameKind (l r : PlacedListener) : Prop :=
  l.listener.transport = r.listener.transport ∧ l.listener.ssl = r.listener.ssl ∧
    l.listener.ctype = r.listener.ctype

instance (l r : PlacedListener) : Decidable (l.SameKind r) :=
  inferInstanceAs (Decidable (_ ∧ _ ∧ _))

/-- The comparison of the ports, and of the certificates if there are any. -/
def SamePort (l r : PlacedListener) : Prop :=
  l.listener.port = r.listener.port ∧
    (l.listener.ssl = true → l.listener.pemtime = r.listener.pemtime)

instance (l r : PlacedListener) : Decidable (l.SamePort r) := inferInstanceAs (Decidable (_ ∧ _))

/-- `router.c:2507 router_contains_listener`: the listener that is found, and the reads of the two
loops. -/
def containsListener (l : PlacedListener) :
    List PlacedListener → Option (Option PlacedListener × List (Nat × Nat))
  | [] => some (none, [])
  | r :: rs =>
    if l.SameKind r then
      if l.listener.ctype = .unix then
        if l.listener.ip = r.listener.ip then some (some r, []) else containsListener l rs
      else
        match l.comparedText (l.hnbuf unknownLeft), r.comparedText (r.hnbuf unknownRight) with
        | some (lt, lreads), some (rt, rreads) =>
          if l.SamePort r ∧ lt = rt then some (some r, lreads ++ rreads)
          else (containsListener l rs).map fun (found, reads) => (found, lreads ++ rreads ++ reads)
        | _, _ => none
    else containsListener l rs

/-! ## What it is for -/

/-- The address is given by digits, dots and colons. -/
def Numeric (l : PlacedListener) : Prop :=
  ∃ ip, l.listener.ip = some ip ∧ ∀ c ∈ ip, c ∈ addressChars

instance (ip : Text) : Decidable (∀ c ∈ ip, c ∈ addressChars) := decidableBAll _ ip

/-- The address in its canonical form, or the text if it is a name. -/
def address (l : PlacedListener) : Option Text :=
  match l.listener.ip with
  | some ip =>
    if ∀ c ∈ ip, c ∈ addressChars then if l.released then none else some l.listener.addr
    else some ip
  | none => if l.released then none else some l.listener.addr

/-- Two listeners are the same. -/
def Same (l r : PlacedListener) : Prop :=
  l.SameKind r ∧ l.SamePort r ∧ l.address ≠ none ∧ l.address = r.address

instance (l r : PlacedListener) : Decidable (l.Same r) :=
  inferInstanceAs (Decidable (_ ∧ _ ∧ _ ∧ _))

/-- No read is behind the end of the text. -/
def ReadsWithin (reads : List (Nat × Nat)) : Prop := ∀ x ∈ reads, x.2 ≤ x.1

/-- The first listener that is the same is found, with reads inside the texts only. -/
def ContainsRight (l : PlacedListener) (rs : List PlacedListener) : Prop :=
  ∃ reads, l.containsListener rs = some (rs.find? fun r => l.Same r, reads) ∧ ReadsWithin reads

/-- Two listeners can be compared: they have names or no address at all, and the name of one is not
the text that stands for released addresses of the other. -/
structure Comparable (l r : PlacedListener) : Prop where
  left : ¬l.Numeric
  right : ¬r.Numeric
  placeholders : l.SamePort r →
    ¬(l.address = none ∧ r.address = some unknownLeft) ∧
      ¬(l.address = some unknownRight ∧ r.address = none)

/-- All listeners that are looked at, up to the one that is the same, can be compared. -/
def NamesOnly (l : PlacedListener) : List PlacedListener → Prop
  | [] => True
  | r :: rs => (l.SameKind r → l.Comparable r) ∧ (l.Same r ∨ NamesOnly l rs)

/-! ## One side -/

variable {l r : PlacedListener} {rs : List PlacedListener} {ip hn : Text} {p : Nat}

theorem strchrFinds_iff {c : Char} : strchrFinds c = true ↔ c ∈ addressChars ∨ c = '\x00' := by
  simp [strchrFinds]

/-- The loop ends at a character that is neither in an address nor the end. -/
theorem not_mem_of_scanEnd {chars : Text} (h : scanEnd chars = some p) :
    ∃ c, chars[p]? = some c ∧ c ∉ addressChars ∧ c ≠ '\x00' := by
  obtain ⟨hp, hc, -⟩ := List.findIdx?_eq_some_iff_getElem.1 h
  refine ⟨chars[p], getElem?_eq_getElem hp, ?_⟩
  rw [Bool.not_eq_true', Bool.eq_false_iff, ne_eq, strchrFinds_iff, not_or] at hc
  exact hc

/-- So the text that was given is always the one that is compared. -/
theorem comparedText_eq (hip : l.listener.ip = some ip) :
    l.comparedText hn = (scanEnd (ip ++ '\x00' :: l.behind)).map fun p =>
      (ip, [(ip.length, p)]) := by
  rw [comparedText, hip]
  refine Option.map_congr fun p hp => ?_
  obtain ⟨c, hc, -, hne⟩ := not_mem_of_scanEnd hp
  rw [hc, if_pos fun heq => hne (Option.some.inj heq)]

/-- A name has a character that ends the loop. -/
theorem scanEnd_of_name {c : Char} (hc : c ∈ ip) (hnot : c ∉ addressChars) (hnul : '\x00' ∉ ip)
    (rest : Text) : ∃ p, scanEnd (ip ++ rest) = some p ∧ p < ip.length := by
  have hfinds : strchrFinds c = false := by
    rw [Bool.eq_false_iff, ne_eq, strchrFinds_iff]
    rintro (hmem | rfl)
    · exact hnot hmem
    · exact hnul hc
  have hex : ∃ x ∈ ip, (!strchrFinds x) = true := ⟨c, hc, by rw [hfinds]; rfl⟩
  have hlt := findIdx_lt_length.2 hex
  refine ⟨ip.findIdx fun c => !strchrFinds c, ?_, hlt⟩
  rw [scanEnd, findIdx?_append, findIdx?_eq_some_of_exists hex]
  rfl

/-- For an address the loop goes on behind the end. -/
theorem length_lt_of_scanEnd (hall : ∀ c ∈ ip, c ∈ addressChars) {rest : Text}
    (h : scanEnd (ip ++ '\x00' :: rest) = some p) : ip.length < p := by
  obtain ⟨c, hc, hnot, hnul⟩ := not_mem_of_scanEnd h
  by_contra hle
  rcases Nat.lt_or_eq_of_le (Nat.not_lt.1 hle) with hlt | rfl
  · rw [getElem?_append_left hlt] at hc
    exact hnot (hall c (mem_of_getElem? hc))
  · rw [getElem?_append_right le_rfl, Nat.sub_self] at hc
    cases hc
    exact hnul rfl

theorem comparedText_of_not_numeric (hl : ¬l.Numeric) (unknown : Text) :
    ∃ reads, l.comparedText (l.hnbuf unknown) = some (l.address.getD unknown, reads) ∧
      ReadsWithin reads := by
  cases hip : l.listener.ip with
  | none =>
    refine ⟨[], ?_, fun _ => nofun⟩
    simp only [comparedText, address, hip, hnbuf]
    cases l.released with
    | true => rfl
    | false => rfl
  | some ip =>
    have hname : ¬∀ c ∈ ip, c ∈ addressChars := fun hall => hl ⟨ip, hip, hall⟩
    obtain ⟨c, hc, hnot⟩ : ∃ c ∈ ip, c ∉ addressChars := by simpa using hname
    obtain ⟨p, hscan, hlt⟩ := scanEnd_of_name hc hnot (l.nul ip hip) ('\x00' :: l.behind)
    refine ⟨[(ip.length, p)], ?_, forall_mem_singleton.2 hlt.le⟩
    rw [comparedText_eq hip, hscan]
    simp only [address, hip, if_neg hname, map_some, getD_some]

theorem not_readsWithin_of_numeric (hl : l.Numeric) {t : Text} {reads : List (Nat × Nat)}
    (h : l.comparedText hn = some (t, reads)) : ¬ReadsWithin reads := by
  obtain ⟨ip, hip, hall⟩ := hl
  rw [comparedText_eq hip, map_eq_some_iff] at h
  obtain ⟨p, hscan, heq⟩ := h
  cases heq
  intro hwithin
  exact Nat.not_lt.2 (hwithin _ (mem_singleton_self _)) (length_lt_of_scanEnd hall hscan)

/-! ## Both sides -/

theorem SameKind.symm (h : l.SameKind r) : r.SameKind l := ⟨h.1.symm, h.2.1.symm, h.2.2.symm⟩

theorem same_comm : l.Same r ↔ r.Same l := by
  have hsymm {l r : PlacedListener} : l.Same r → r.Same l := by
    rintro ⟨hkind, ⟨hport, hpem⟩, hne, haddress⟩
    refine ⟨hkind.symm, ⟨hport.symm, fun hssl => (hpem (hkind.2.1.trans hssl)).symm⟩, ?_,
      haddress.symm⟩
    rwa [← haddress]
  exact ⟨hsymm, hsymm⟩

/-- The texts are compared as the addresses, apart from the two that stand for released ones. -/
theorem getD_eq_getD_iff : l.address.getD unknownLeft = r.address.getD unknownRight ↔
    (l.address ≠ none ∧ l.address = r.address) ∨
      (l.address = none ∧ r.address = some unknownLeft) ∨
        (l.address = some unknownRight ∧ r.address = none) := by
  have hne : unknownLeft ≠ unknownRight := by decide
  cases l.address with
  | none =>
    cases r.address with
    | none => simpa using hne
    | some b => simp [eq_comm]
  | some a =>
    cases r.address with
    | none => simp
    | some b => simp

theorem Comparable.match_iff (h : l.Comparable r) (hkind : l.SameKind r) :
    l.SamePort r ∧ l.address.getD unknownLeft = r.address.getD unknownRight ↔ l.Same r := by
  rw [getD_eq_getD_iff]
  constructor
  · rintro ⟨hport, haddress | hleft | hright⟩
    · exact ⟨hkind, hport, haddress⟩
    · exact absurd hleft (h.placeholders hport).1
    · exact absurd hright (h.placeholders hport).2
  · rintro ⟨-, hport, haddress⟩
    exact ⟨hport, .inl haddress⟩

theorem containsListener_cons_of_not_kind (h : ¬l.SameKind r) :
    l.containsListener (r :: rs) = l.containsListener rs := by
  rw [containsListener, if_neg h]

theorem contains_right_iff_of_not_kind (h : ¬l.SameKind r) :
    l.ContainsRight (r :: rs) ↔ l.ContainsRight rs := by
  have hsame : ¬l.Same r := fun hsame => h hsame.1
  simp only [ContainsRight, containsListener_cons_of_not_kind h, find?_cons, hsame, decide_false]

section
variable (hunix : l.listener.ctype ≠ .unix)
include hunix

section
variable (hkind : l.SameKind r)
include hkind

/-- What is done with a listener of the same kind, with the texts that are compared. -/
theorem containsListener_cons {lt rt : Text} {lreads rreads : List (Nat × Nat)}
    (hleft : l.comparedText (l.hnbuf unknownLeft) = some (lt, lreads))
    (hright : r.comparedText (r.hnbuf unknownRight) = some (rt, rreads)) :
    l.containsListener (r :: rs) = if l.SamePort r ∧ lt = rt then some (some r, lreads ++ rreads)
      else (l.containsListener rs).map fun (found, reads) =>
        (found, lreads ++ rreads ++ reads) := by
  rw [containsListener, if_pos hkind, if_neg hunix, hleft, hright]

theorem containsListener_cons_eq_none
    (h : l.comparedText (l.hnbuf unknownLeft) = none ∨
      r.comparedText (r.hnbuf unknownRight) = none) :
    l.containsListener (r :: rs) = none := by
  rw [containsListener, if_pos hkind, if_neg hunix]
  split
  · next hleft hright =>
    rw [hleft, hright] at h
    rcases h with h | h <;> cases h
  · rfl

/-- A read behind the end of a text is not undone by what follows. -/
theorem not_contains_right_of_numeric (h : l.Numeric ∨ r.Numeric) : ¬l.ContainsRight (r :: rs) := by
  rintro ⟨reads, hcontains, hwithin⟩
  cases hleft : l.comparedText (l.hnbuf unknownLeft) with
  | none =>
    rw [containsListener_cons_eq_none hunix hkind (.inl hleft)] at hcontains
    cases hcontains
  | some left =>
    cases hright : r.comparedText (r.hnbuf unknownRight) with
    | none =>
      rw [containsListener_cons_eq_none hunix hkind (.inr hright)] at hcontains
      cases hcontains
    | some right =>
      rw [containsListener_cons hunix hkind hleft hright] at hcontains
      have hreads : ReadsWithin left.2 ∧ ReadsWithin right.2 := by
        split at hcontains
        · obtain ⟨-, rfl⟩ := Prod.mk.inj (Option.some.inj hcontains)
          exact forall_mem_append.1 hwithin
        · obtain ⟨_, _, heq⟩ := map_eq_some_iff.1 hcontains
          obtain ⟨-, rfl⟩ := Prod.mk.inj heq
          exact forall_mem_append.1 (forall_mem_append.1 hwithin).1
      rcases h with h | h
      · exact not_readsWithin_of_numeric h hleft hreads.1
      · exact not_readsWithin_of_numeric h hright hreads.2

/-- One listener of the same kind, neither of them with an address. -/
theorem contains_right_cons_iff (hl : ¬l.Numeric)
    (hr : ¬r.Numeric) : l.ContainsRight (r :: rs) ↔ l.Comparable r ∧
      (l.Same r ∨ l.ContainsRight rs) := by
  obtain ⟨lreads, hleft, hlwithin⟩ := comparedText_of_not_numeric hl unknownLeft
  obtain ⟨rreads, hright, hrwithin⟩ := comparedText_of_not_numeric hr unknownRight
  have hcons : l.containsListener (r :: rs) = _ := containsListener_cons hunix hkind hleft hright
  have hreads : ReadsWithin (lreads ++ rreads) := forall_mem_append.2 ⟨hlwithin, hrwithin⟩
  constructor
  · rintro ⟨reads, hcontains, hwithin⟩
    rw [hcons] at hcontains
    split at hcontains
    · have hfind := (Prod.mk.inj (Option.some.inj hcontains)).1
      have hsame := find?_some hfind.symm
      rw [decide_eq_true_eq] at hsame
      have hne := hsame.2.2.1
      have haddress := hsame.2.2.2
      refine ⟨⟨hl, hr, fun _ => ⟨fun h => hne h.1, fun h => hne (haddress.trans h.2)⟩⟩, .inl hsame⟩
    · next hmatch =>
      have hnot : ¬l.Same r := fun hsame =>
        hmatch ⟨hsame.2.1, getD_eq_getD_iff.2 (.inl hsame.2.2)⟩
      refine ⟨⟨hl, hr, fun hport => ⟨fun h => ?_, fun h => ?_⟩⟩, .inr ?_⟩
      · exact hmatch ⟨hport, getD_eq_getD_iff.2 (.inr (.inl h))⟩
      · exact hmatch ⟨hport, getD_eq_getD_iff.2 (.inr (.inr h))⟩
      · obtain ⟨⟨found, reads'⟩, hrest, heq⟩ := map_eq_some_iff.1 hcontains
        obtain ⟨hfound, rfl⟩ := Prod.mk.inj heq
        refine ⟨reads', ?_, (forall_mem_append.1 hwithin).2⟩
        rw [hrest, hfound, find?_cons_of_neg (by simpa using hnot)]
  · rintro ⟨hcomparable, hrest⟩
    have hmatch := hcomparable.match_iff hkind
    by_cases hsame : l.Same r
    · refine ⟨lreads ++ rreads, ?_, hreads⟩
      rw [hcons, if_pos (hmatch.2 hsame), find?_cons_of_pos (by simpa using hsame)]
    · obtain ⟨reads, hcontains, hwithin⟩ := hrest.resolve_left hsame
      refine ⟨lreads ++ rreads ++ reads, ?_, forall_mem_append.2 ⟨hreads, hwithin⟩⟩
      rw [hcons, if_neg fun h => hsame (hmatch.1 h), hcontains,
        find?_cons_of_neg (by simpa using hsame)]
      rfl

end

end

/-! ## The comparison of a reload -/

theorem address_eq_name (hl : ¬l.Numeric) (hreleased : l.released = false) :
    l.address = some l.listener.name := by
  unfold address Listener.name
  cases hip : l.listener.ip with
  | none => simp [hreleased]
  | some ip =>
    have hname : ¬∀ c ∈ ip, c ∈ addressChars := fun hall => hl ⟨ip, hip, hall⟩
    simp only [if_neg hname, getD_some]

theorem same_iff_listenerMatches (hunix : l.listener.ctype ≠ .unix)
    (hl : ¬l.Numeric ∧ l.released = false) (hr : l.SameKind r → ¬r.Numeric ∧ r.released = false) :
    l.Same r ↔ listenerMatches l.listener r.listener = true := by
  by_cases hkind : l.SameKind r
  · have hlr := hr hkind
    simp only [Same, SameKind, SamePort, address_eq_name hl.1 hl.2, address_eq_name hlr.1 hlr.2,
      listenerMatches, hunix, if_false, decide_eq_true_eq, Option.some.injEq, ne_eq, reduceCtorEq,
        not_false_eq_true, true_and]
    tauto
  · refine iff_of_false (fun h => hkind h.1) fun h => hkind ?_
    rw [listenerMatches, decide_eq_true_eq] at h
    exact ⟨h.1, h.2.1, h.2.2.1⟩

/-- Where names are compared, a reload finds the listener that is the same. -/
theorem routerContainsListener_eq (hunix : l.listener.ctype ≠ .unix)
    (hl : ¬l.Numeric ∧ l.released = false)
    (hrs : ∀ r ∈ rs, l.SameKind r → ¬r.Numeric ∧ r.released = false) :
    routerContainsListener (rs.map (·.listener)) l.listener =
      (rs.find? fun r => l.Same r).map (·.listener) := by
  induction rs with
  | nil => rfl
  | cons r rs ih =>
    obtain ⟨hr, hrs⟩ := forall_mem_cons.1 hrs
    have hmatches := same_iff_listenerMatches hunix hl hr
    rw [routerContainsListener, map_cons]
    by_cases hsame : l.Same r
    · rw [find?_cons_of_pos (hmatches.1 hsame), find?_cons_of_pos (by simpa using hsame)]
      rfl
    · rw [find?_cons_of_neg fun h => hsame (hmatches.2 h), find?_cons_of_neg (by simpa using hsame)]
      exact ih hrs

/-! ## The result -/

/-- The right listener is found, with reads in the texts only, if no address is looked at. -/
theorem contains_right_iff (l : PlacedListener) (rs : List PlacedListener)
    (hl : l.listener.ctype = .tcp ∨ l.listener.ctype = .udp) :
    (∀ r : PlacedListener, l.Same r ↔ r.Same l) ∧ (l.ContainsRight rs ↔ l.NamesOnly rs) := by
  have hunix : l.listener.ctype ≠ .unix := by
    rcases hl with h | h <;> rw [h] <;> decide
  refine ⟨fun r => same_comm, ?_⟩
  induction rs with
  | nil => exact iff_of_true ⟨[], rfl, fun _ => nofun⟩ trivial
  | cons r rs ih =>
    rw [NamesOnly, ← ih]
    by_cases hkind : l.SameKind r
    · by_cases hnumeric : l.Numeric ∨ r.Numeric
      · refine iff_of_false (not_contains_right_of_numeric hunix hkind hnumeric) fun h => ?_
        exact hnumeric.elim (h.1 hkind).left (h.1 hkind).right
      · obtain ⟨hl, hr⟩ := not_or.1 hnumeric
        rw [contains_right_cons_iff hunix hkind hl hr, forall_prop_of_true hkind]
    · have hsame : ¬l.Same r := fun hsame => hkind hsame.1
      rw [contains_right_iff_of_not_kind hkind, forall_prop_of_false hkind, true_and,
        or_iff_right hsame]

/-- A listener on the local host. -/
def localhost (ip : Text) (hip : '\x00' ∉ ip) : PlacedListener where
  listener := ⟨0, .plain, false, .tcp, some ip, 2003, 0, "127.0.0.1".toList, []⟩
  behind := ['x']
  released := false
  nul := by
    rintro _ ⟨⟩
    exact hip

theorem contains_right_named : (localhost "localhost".toList (by decide)).ContainsRight
    [localhost "localhost".toList (by decide)] := by
  refine ((contains_right_iff _ _ (.inl rfl)).2).2 ⟨fun _ => ?_, .inl (by decide)⟩
  have hname : ¬(localhost "localhost".toList (by decide)).Numeric := by
    rintro ⟨_, ⟨⟩, hall⟩
    exact absurd (hall 'l' (by decide)) (by decide)
  exact ⟨hname, hname, fun _ => ⟨by decide, by decide⟩⟩

/-- Two forms of one address are read behind their ends and not recognised. -/
theorem numeric_not_found :
    (localhost "127.0.0.1".toList (by decide)).Same (localhost "127.1".toList (by decide)) ∧
      (localhost "127.0.0.1".toList
        (by decide)).containsListener [localhost "127.1".toList (by decide)] =
        some (none, [(9, 10), (5, 6)]) := by
  decide

end PlacedListener

end CarbonRelay
