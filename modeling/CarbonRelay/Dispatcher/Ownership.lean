import CarbonRelay.Dispatcher.Listeners
import Mathlib.Data.List.Perm.Basic
import Mathlib.Data.List.Nodup

/-!
# Who owns the sockets of the listeners

After every reload the open sockets should be those in the `socks` of the current listeners, each in
one of them, and a listener that is kept should have the sockets it had. A reload hands over the
sockets of the listeners in the table only, and UDP listeners are not in it: the sockets of one that
is kept stay open and belong to nobody. `listeners_owned_iff` says which reloads do this, and that
besides them only a unix listener that could not be bound, or a UDP listener with a socket that was
closed, breaks the rule.
-/

namespace CarbonRelay

open List

/-- The open sockets are those of the listeners, each of one. -/
def Relay.Owned (R : Relay) : Prop :=
  R.sockets.opened.Nodup ∧ (R.listeners.flatMap Listener.socks).Perm R.sockets.opened

/-- What a reload should achieve. -/
structure Reloaded (old : List Listener) (R : Relay) : Prop where
  owned : R.Owned
  kept : ∀ o ∈ old, ∀ l ∈ R.listeners, listenerMatches o l = true → l.socks = o.socks

/-- A socket that was closed is left in the listener. -/
def BindOutcome.leavesClosed : BindOutcome → Bool
  | .stale _ => true
  | .unserved _ _ closed _ => closed
  | _ => false

/-- Every listener with sockets that is kept is in the table, and no other one is left with a socket
that was closed: a unix listener that could not be bound, or a UDP listener for which no connection
could be added. -/
def KeepsSockets (R : Relay) : ReloadStep → Prop
  | .unchanged => True
  | .reload cfg =>
    (∀ o ∈ R.listeners, o.socks ≠ [] → (∃ p ∈ cfg, listenerMatches o p.1 = true) →
      o.id ∈ R.sockets.table) ∧
    ∀ p ∈ cfg, routerContainsListener R.listeners p.1 = none → p.2.leavesClosed = false

/-! ## Matching -/

section
variable {l r t : Listener} {old : List Listener}

theorem listenerMatches_iff : listenerMatches l r = true ↔
    l.transport = r.transport ∧ l.ssl = r.ssl ∧ l.ctype = r.ctype ∧
      if l.ctype = .unix then l.ip = r.ip
      else l.port = r.port ∧ l.name = r.name ∧ (l.ssl = true → l.pemtime = r.pemtime) := by
  rw [listenerMatches, decide_eq_true_iff]

theorem listenerMatches_symm (h : listenerMatches l r = true) : listenerMatches r l = true := by
  rw [listenerMatches_iff] at h ⊢
  obtain ⟨htransport, hssl, hctype, h⟩ := h
  refine ⟨htransport.symm, hssl.symm, hctype.symm, ?_⟩
  rw [← hctype, ← hssl]
  by_cases hunix : l.ctype = .unix
  · rw [if_pos hunix] at h ⊢
    exact h.symm
  · rw [if_neg hunix] at h ⊢
    exact ⟨h.1.symm, h.2.1.symm, fun hs => (h.2.2 hs).symm⟩

theorem listenerMatches_trans (h : listenerMatches l r = true) (h' : listenerMatches r t = true) :
    listenerMatches l t = true := by
  rw [listenerMatches_iff] at h h' ⊢
  obtain ⟨htransport, hssl, hctype, h⟩ := h
  obtain ⟨htransport', hssl', hctype', h'⟩ := h'
  refine ⟨htransport.trans htransport', hssl.trans hssl', hctype.trans hctype', ?_⟩
  rw [← hctype, ← hssl] at h'
  by_cases hunix : l.ctype = .unix
  · rw [if_pos hunix] at h h' ⊢
    exact h.trans h'
  · rw [if_neg hunix] at h h' ⊢
    exact ⟨h.1.trans h'.1, h.2.1.trans h'.2.1, fun hs => (h.2.2 hs).trans (h'.2.2 hs)⟩

/-- The listeners of a configuration do not match each other. -/
def Apart (ls : List Listener) : Prop := ls.Pairwise fun l r => listenerMatches l r = false

/-- In a configuration, a listener matches itself only. -/
theorem Apart.eq (hapart : Apart old) (hl : l ∈ old) (hr : r ∈ old)
    (h : listenerMatches l r = true) : l = r := by
  induction old with
  | nil => cases hl
  | cons o old ih =>
    obtain ⟨ho, hold⟩ := pairwise_cons.1 hapart
    rcases mem_cons.1 hl with rfl | hl'
    · rcases mem_cons.1 hr with rfl | hr'
      · rfl
      · exact absurd h (Bool.eq_false_iff.1 (ho r hr'))
    · rcases mem_cons.1 hr with rfl | hr'
      · exact absurd (listenerMatches_symm h) (Bool.eq_false_iff.1 (ho l hl'))
      · exact ih hold hl' hr'

theorem routerContainsListener_eq_some (hapart : Apart old) :
    routerContainsListener old l = some r ↔ r ∈ old ∧ listenerMatches l r = true := by
  constructor
  · intro h
    exact ⟨mem_of_find?_eq_some h, find?_some h⟩
  · rintro ⟨hr, hmatch⟩
    cases hfind : routerContainsListener old l with
    | none => exact absurd hmatch (List.find?_eq_none.1 hfind r hr)
    | some t =>
      have hmatch' : listenerMatches l t = true := find?_some hfind
      rw [hapart.eq (mem_of_find?_eq_some hfind) hr
        (listenerMatches_trans (listenerMatches_symm hmatch') hmatch)]

end

/-! ## Closing what is gone -/

section
variable {old new pre : List Listener} {S : Sockets}

theorem append_diff_self {α : Type*} [DecidableEq α] (l m : List α) : (l ++ m).diff l = m := by
  induction l with
  | nil => rw [nil_append, diff_nil]
  | cons a l ih => rw [cons_append, diff_cons, erase_cons_head, ih]

/-- Closing the sockets of a listener that is gone. -/
theorem removed_opened (l : Listener) (S : Sockets) :
    (shutdownclose (dispatchRemovelistener l S).2 (dispatchRemovelistener l S).1).opened =
      S.opened.diff l.socks := by
  rw [dispatchRemovelistener]
  split
  · rfl
  · split
    · rfl
    · rfl

theorem mem_removed_table {l : Listener} {i : Nat} (h : i ≠ l.id) :
    i ∈ (shutdownclose (dispatchRemovelistener l S).2 (dispatchRemovelistener l S).1).table ↔
      i ∈ S.table := by
  rw [dispatchRemovelistener]
  split
  · exact Iff.rfl
  · split
    · exact mem_erase_of_ne h
    · exact Iff.rfl

/-- The listeners of the old configuration that the new one has. -/
def keptOf (new old : List Listener) : List Listener :=
  old.filter fun l => (routerContainsListener new l).isSome

theorem closeRemoved_opened (new : List Listener) (pre : List Nat)
    (hopened : (pre ++ old.flatMap Listener.socks).Perm S.opened) :
    (pre ++ (keptOf new old).flatMap Listener.socks).Perm (closeRemoved new old S).opened := by
  induction old generalizing pre S with
  | nil => exact hopened
  | cons l old ih =>
    rw [closeRemoved, keptOf, filter_cons]
    rw [flatMap_cons] at hopened
    cases hfind : routerContainsListener new l with
    | none =>
      rw [if_neg (by simp), if_pos rfl]
      refine ih _ ?_
      rw [removed_opened]
      have hperm : (l.socks ++ (pre ++ old.flatMap Listener.socks)).Perm S.opened :=
        (perm_append_comm_assoc ..).trans hopened
      have hdiff := hperm.diff_right l.socks
      rwa [append_diff_self] at hdiff
    | some r =>
      rw [if_pos Option.isSome_some, if_neg (Option.some_ne_none r), flatMap_cons, ← append_assoc]
      refine ih _ ?_
      rwa [append_assoc]

theorem closeRemoved_nodup (h : S.opened.Nodup) : (closeRemoved new old S).opened.Nodup := by
  induction old generalizing S with
  | nil => exact h
  | cons l old ih =>
    rw [closeRemoved]
    split
    · refine ih ?_
      rw [removed_opened]
      exact h.diff
    · exact ih h

/-- A listener that is kept stays in the table. -/
theorem mem_closeRemoved_table {i : Nat}
    (h : ∀ l ∈ old, l.id = i → routerContainsListener new l ≠ none) :
    i ∈ (closeRemoved new old S).table ↔ i ∈ S.table := by
  induction old generalizing S with
  | nil => exact Iff.rfl
  | cons l old ih =>
    have ih := fun {S} => ih (S := S) fun r hr => h r (mem_cons_of_mem l hr)
    rw [closeRemoved]
    split
    case isTrue hgone =>
      rw [ih, mem_removed_table]
      exact fun hi => h l mem_cons_self hi.symm hgone
    case isFalse => exact ih

end

/-! ## Taking over and opening sockets -/

/-- The sockets that a listener of the new configuration ends up with. -/
def socksAfter (old : List Listener) (table : List Nat) (p : Listener × BindOutcome) : List Nat :=
  match routerContainsListener old p.1 with
  | some o => if o.id ∈ table then o.socks else []
  | none =>
    match p.2 with
    | .opened socks => socks
    | .failed => []
    | .stale s => [s]
    | .unserved before s _ after => before ++ s :: after

/-- The sockets that are opened for a listener of the new configuration. -/
def openedFor (old : List Listener) (p : Listener × BindOutcome) : List Nat :=
  match routerContainsListener old p.1 with
  | some _ => []
  | none =>
    match p.2 with
    | .opened socks => socks
    | .unserved before s closed after => if closed then before ++ after else before ++ s :: after
    | _ => []

section
variable {old ls : List Listener} {S S' : Sockets} {l n : Listener} {b : BindOutcome}

theorem dispatchAddlistener_opened (l : Listener) (socks : List Nat) (S : Sockets) :
    (dispatchAddlistener l (.opened socks) S).opened = S.opened := by
  unfold dispatchAddlistener
  split
  · rfl
  · split
    · rfl
    · rfl

/-- The socket that is closed was not open before. -/
theorem dispatchAddlistener_unserved {before after : List Nat} {s : Nat} {closed : Bool}
    (hudp : l.ctype = .udp) (hnodup : (before ++ s :: after).Nodup) (hfresh : s ∉ S.opened) :
    (dispatchAddlistener { l with socks := before ++ s :: after } (.unserved before s closed after)
      { S with opened := S.opened ++ (before ++ s :: after) }).opened =
        S.opened ++ if closed then before ++ after else before ++ s :: after := by
  have hs : s ∉ before := fun hs => (disjoint_of_nodup_append hnodup) hs mem_cons_self
  rw [dispatchAddlistener, if_pos hudp]
  cases closed with
  | false => rfl
  | true =>
    dsimp only
    rw [if_pos rfl, if_pos rfl, erase_append_right _ hfresh, erase_append_right _ hs,
      erase_cons_head]

theorem mem_dispatchAddlistener_table {i : Nat} (h : i ≠ l.id) :
    i ∈ (dispatchAddlistener l b S).table ↔ i ∈ S.table := by
  unfold dispatchAddlistener
  split
  · cases b <;> exact Iff.rfl
  · split
    · simp [h]
    · exact Iff.rfl

/-- What a reload does with a listener of the new configuration. -/
inductive Reloads (old : List Listener) (l : Listener) (S : Sockets) :
    BindOutcome → Listener → Sockets → Prop
  | taken {o : Listener} {b : BindOutcome} (hfind : routerContainsListener old l = some o)
      (hin : o.id ∈ S.table) : Reloads old l S b { l with socks := o.socks }
        { S with table := S.table.map fun i => if i = o.id then l.id else i }
  /-- The sockets stay with the old listener. -/
  | lost {o : Listener} {b : BindOutcome} (hfind : routerContainsListener old l = some o)
      (hout : o.id ∉ S.table) : Reloads old l S b { l with socks := [] } S
  | bound {socks : List Nat} (hfind : routerContainsListener old l = none) (hnodup : socks.Nodup)
      (hfresh : ∀ s ∈ socks, s ∉ S.opened) : Reloads old l S (.opened socks) { l with socks }
        (dispatchAddlistener { l with socks } (.opened socks)
          { S with opened := S.opened ++ socks })
  | failed (hfind : routerContainsListener old l = none) :
      Reloads old l S .failed { l with socks := [] } S
  | stale {s : Nat} (hfind : routerContainsListener old l = none) :
      Reloads old l S (.stale s) { l with socks := [s] } S
  | unserved {before after : List Nat} {s : Nat} {closed : Bool}
      (hfind : routerContainsListener old l = none) (hudp : l.ctype = .udp)
      (hnodup : (before ++ s :: after).Nodup) (hfresh : ∀ t ∈ before ++ s :: after, t ∉ S.opened) :
      Reloads old l S (.unserved before s closed after) { l with socks := before ++ s :: after }
        (dispatchAddlistener { l with socks := before ++ s :: after }
          (.unserved before s closed after) { S with opened := S.opened ++ (before ++ s :: after) })

theorem reloads_of_reloadListener (h : reloadListener old l b S = some (n, S')) :
    Reloads old l S b n S' := by
  rw [reloadListener] at h
  cases hfind : routerContainsListener old l with
  | some o =>
    rw [hfind] at h
    have h := Option.some.inj h
    rw [dispatchTransplantlistener] at h
    by_cases hin : o.id ∈ S.table
    · rw [if_pos hin] at h
      cases h
      exact .taken hfind hin
    · rw [if_neg hin] at h
      cases h
      exact .lost hfind hin
  | none =>
    rw [hfind] at h
    cases b with
    | opened socks =>
      simp only [bindlisten] at h
      by_cases hfresh : socks.Nodup ∧ (∀ s ∈ socks, s ∉ S.opened) ∧
        (l.ctype = .unix → socks.length = 1)
      · rw [if_pos hfresh] at h
        cases h
        exact .bound hfind hfresh.1 hfresh.2.1
      · rw [if_neg hfresh] at h
        cases h
    | failed => cases h; exact .failed hfind
    | stale s =>
      simp only [bindlisten] at h
      by_cases hstale : l.ctype = .unix ∧ s ∉ S.opened
      · rw [if_pos hstale] at h
        cases h
        exact .stale hfind
      · rw [if_neg hstale] at h
        cases h
    | unserved before s closed after =>
      simp only [bindlisten] at h
      by_cases hfresh : (before ++ s :: after).Nodup ∧ (∀ t ∈ before ++ s :: after, t ∉ S.opened) ∧
          l.ctype = .udp
      · rw [if_pos hfresh] at h
        cases h
        exact .unserved hfind hfresh.2.2 hfresh.1 hfresh.2.1
      · rw [if_neg hfresh] at h
        cases h

section
variable (h : Reloads old l S b n S')
include h

theorem Reloads.eq :
    n = { l with socks := socksAfter old S.table (l, b) } ∧
      S'.opened = S.opened ++ openedFor old (l, b) := by
  rw [socksAfter, openedFor]
  cases h with
  | taken hfind hin => simp [hfind, hin]
  | lost hfind hout => simp [hfind, hout]
  | bound hfind => simp [hfind, dispatchAddlistener_opened]
  | failed hfind => simp [hfind]
  | stale hfind => simp [hfind]
  | unserved hfind hudp hnodup hfresh =>
    rw [dispatchAddlistener_unserved hudp hnodup (hfresh _ (mem_append_right _ mem_cons_self))]
    simp [hfind]

theorem Reloads.nodup (hnodup : S.opened.Nodup) : S'.opened.Nodup := by
  cases h with
  | bound hfind hsocks hfresh =>
    rw [dispatchAddlistener_opened]
    exact hnodup.append hsocks fun s hs hs' => hfresh s hs' hs
  | @unserved before after s closed hfind hudp hsocks hfresh =>
    rw [dispatchAddlistener_unserved hudp hsocks (hfresh _ (mem_append_right _ mem_cons_self))]
    have hall := hnodup.append hsocks fun s hs hs' => hfresh s hs' hs
    refine hall.sublist (Sublist.append_left ?_ _)
    split
    · exact Sublist.append_left (sublist_cons_self s after) before
    · exact Sublist.refl _
  | _ => exact hnodup

/-- The other listeners stay in the table. -/
theorem Reloads.mem_table {i : Nat} (hl : i ≠ l.id)
    (ho : ∀ o, routerContainsListener old l = some o → i ≠ o.id) : i ∈ S'.table ↔ i ∈ S.table := by
  cases h with
  | @taken o b hfind hin =>
    have hne := ho o hfind
    constructor
    · intro hi
      obtain ⟨j, hj, hji⟩ := mem_map.1 hi
      split at hji
      case isTrue => exact absurd hji.symm hl
      case isFalse => exact hji ▸ hj
    · intro hi
      exact mem_map.2 ⟨i, hi, if_neg hne⟩
  | bound | unserved => exact mem_dispatchAddlistener_table hl
  | _ => exact Iff.rfl

end

/-- What a reload does with all listeners of the new configuration. -/
theorem reloadListeners_eq {cfg : List (Listener × BindOutcome)} (hold : Apart old)
    (hids : (old.map Listener.id).Nodup) (hnew : Apart (cfg.map Prod.fst))
    (hdisjoint : ∀ o ∈ old, o.id ∉ (cfg.map Prod.fst).map Listener.id)
    (h : reloadListeners old cfg S = some (ls, S')) :
    ls = cfg.map (fun p => { p.1 with socks := socksAfter old S.table p }) ∧
      S'.opened = S.opened ++ cfg.flatMap (openedFor old) ∧ (S.opened.Nodup → S'.opened.Nodup) := by
  induction cfg generalizing S ls with
  | nil => cases h; exact ⟨rfl, (append_nil _).symm, id⟩
  | cons p cfg ih =>
    obtain ⟨l, b⟩ := p
    rw [reloadListeners] at h
    split at h
    case h_1 => cases h
    case h_2 n S₁ hl =>
      split at h
      case h_1 => cases h
      case h_2 ns S₂ hrest =>
        cases h
        obtain ⟨hl_apart, hnew⟩ := pairwise_cons.1 hnew
        have hreloads := reloads_of_reloadListener hl
        obtain ⟨rfl, hopened⟩ := hreloads.eq
        have hdisjoint' : ∀ o ∈ old, o.id ∉ (cfg.map Prod.fst).map Listener.id :=
          fun o ho hmem => hdisjoint o ho (mem_cons_of_mem _ hmem)
        obtain ⟨rfl, hopened', hnodup⟩ := ih hnew hdisjoint' hrest
        refine ⟨?_, ?_, fun h => hnodup (hreloads.nodup h)⟩
        · rw [map_cons]
          refine congrArg _ (map_congr_left fun p hp => ?_)
          have htable : ∀ o, routerContainsListener old p.1 = some o →
              (o.id ∈ S₁.table ↔ o.id ∈ S.table) := by
            intro o ho
            obtain ⟨hmem, hmatch⟩ := (routerContainsListener_eq_some hold).1 ho
            refine hreloads.mem_table (fun hid => hdisjoint o hmem ?_) fun o' ho' hid => ?_
            · rw [hid]
              exact mem_cons_self
            · obtain ⟨hmem', hmatch'⟩ := (routerContainsListener_eq_some hold).1 ho'
              cases inj_on_of_nodup_map hids hmem hmem' hid
              have hapart := hl_apart p.1 (mem_map_of_mem hp)
              rw [listenerMatches_trans hmatch' (listenerMatches_symm hmatch)] at hapart
              cases hapart
          rw [socksAfter, socksAfter]
          cases hfind : routerContainsListener old p.1 with
          | none => rfl
          | some o => simp only [htable o hfind]
        · rw [hopened', hopened, flatMap_cons, append_assoc]

/-! ## A reload -/

/-- The closed sockets that are left in a listener of the new configuration. -/
def staleFor (old : List Listener) (p : Listener × BindOutcome) : List Nat :=
  match routerContainsListener old p.1 with
  | some _ => []
  | none =>
    match p.2 with
    | .stale s => [s]
    | .unserved _ s closed _ => if closed then [s] else []
    | _ => []

/-- The listeners that those of the new configuration take their sockets from. -/
def foundBy (old : List Listener) (cfg : List (Listener × BindOutcome)) : List Listener :=
  cfg.filterMap fun p => routerContainsListener old p.1

variable {cfg : List (Listener × BindOutcome)} {table : List Nat}

/-- Where the sockets of the new listeners come from, if every listener they match is in the table.
-/
theorem socksAfter_perm
    (h : ∀ p ∈ cfg, ∀ o, routerContainsListener old p.1 = some o → o.socks ≠ [] → o.id ∈ table) :
    (cfg.flatMap (socksAfter old table)).Perm ((foundBy old cfg).flatMap Listener.socks ++
      (cfg.flatMap (openedFor old) ++ cfg.flatMap (staleFor old))) := by
  induction cfg with
  | nil => exact .nil
  | cons p cfg ih =>
    have ih := ih fun q hq => h q (mem_cons_of_mem p hq)
    simp only [flatMap_cons, foundBy, filterMap_cons]
    cases hfind : routerContainsListener old p.1 with
    | some o =>
      have hsocks : socksAfter old table p = o.socks := by
        simp only [socksAfter, hfind]
        by_cases hnil : o.socks = []
        · rw [hnil, ite_self]
        · exact if_pos (h p mem_cons_self o hfind hnil)
      simp only [hsocks, openedFor, staleFor, hfind, nil_append, flatMap_cons, append_assoc]
      exact ih.append_left o.socks
    | none =>
      have hsocks : (socksAfter old table p).Perm (openedFor old p ++ staleFor old p) := by
        simp only [socksAfter, openedFor, staleFor, hfind]
        cases p.2 with
        | unserved before s closed after =>
          cases closed with
          | false => simp
          | true => exact perm_middle.trans (perm_append_singleton s _).symm
        | _ => simp
      refine (hsocks.append ih).trans (perm_iff_count.2 fun s => ?_)
      simp only [foundBy, count_append]
      omega

/-- The listeners that are kept are those that the new ones take their sockets from. -/
theorem foundBy_perm (hold : Apart old) (hids : (old.map Listener.id).Nodup)
    (hnew : Apart (cfg.map Prod.fst)) : (foundBy old cfg).Perm (keptOf (cfg.map Prod.fst) old) := by
  have hnodup : (foundBy old cfg).Nodup := by
    refine List.Pairwise.filterMap _ ?_ (pairwise_map.1 hnew)
    intro p q hpq o ho o' ho' heq
    obtain ⟨-, hmatch⟩ := (routerContainsListener_eq_some hold).1 ho
    obtain ⟨-, hmatch'⟩ := (routerContainsListener_eq_some hold).1 ho'
    subst heq
    rw [listenerMatches_trans hmatch (listenerMatches_symm hmatch')] at hpq
    cases hpq
  have hkept : (keptOf (cfg.map Prod.fst) old).Nodup := hids.of_map.filter _
  refine (perm_ext_iff_of_nodup hnodup hkept).2 fun o => ?_
  rw [foundBy, mem_filterMap, keptOf, mem_filter, routerContainsListener, find?_isSome]
  constructor
  · rintro ⟨p, hp, hfind⟩
    obtain ⟨ho, hmatch⟩ := (routerContainsListener_eq_some hold).1 hfind
    exact ⟨ho, p.1, mem_map_of_mem hp, listenerMatches_symm hmatch⟩
  · rintro ⟨ho, n, hn, hmatch⟩
    obtain ⟨p, hp, rfl⟩ := mem_map.1 hn
    exact ⟨p, hp, (routerContainsListener_eq_some hold).2 ⟨ho, listenerMatches_symm hmatch⟩⟩

theorem staleFor_eq_nil {p : Listener × BindOutcome} : staleFor old p = [] ↔
    (routerContainsListener old p.1 = none → p.2.leavesClosed = false) := by
  rw [staleFor]
  cases routerContainsListener old p.1 with
  | some o => exact iff_of_true rfl fun h => absurd h (Option.some_ne_none o)
  | none => cases p.2 <;> simp [BindOutcome.leavesClosed]

/-- What holds of the relay between reloads, as long as they go well. -/
structure Relay.Good (R : Relay) : Prop where
  apart : Apart R.listeners
  ids : (R.listeners.map Listener.id).Nodup
  owned : R.Owned

/-- What a reload does, by way of the sockets `S₁` that are left when the removed listeners are
closed. -/
structure ReloadParts (R : Relay) (cfg : List (Listener × BindOutcome)) (R' : Relay)
    (S₁ : Sockets) : Prop where
  accepted : acceptedListeners R.listeners (cfg.map Prod.fst)
  listeners : R'.listeners =
    cfg.map fun p => { p.1 with socks := socksAfter R.listeners S₁.table p }
  opened : R'.sockets.opened = S₁.opened ++ cfg.flatMap (openedFor R.listeners)
  nodup : R'.sockets.opened.Nodup
  found : ((foundBy R.listeners cfg).flatMap Listener.socks).Perm S₁.opened
  table : ∀ o ∈ R.listeners, (∃ p ∈ cfg, listenerMatches o p.1 = true) →
    (o.id ∈ S₁.table ↔ o.id ∈ R.sockets.table)

variable {R R' : Relay} {S₁ : Sockets}

theorem exists_reloadParts (hgood : R.Good) (h : doReload R cfg = some R') :
    ∃ S₁, ReloadParts R cfg R' S₁ := by
  rw [doReload] at h
  split at h
  case isFalse => cases h
  case isTrue haccepted =>
    split at h
    case h_1 => cases h
    case h_2 ls S' hreload =>
      cases h
      obtain ⟨hlisteners, hopened, hnodup⟩ :=
        reloadListeners_eq hgood.apart hgood.ids haccepted.1.2.2 haccepted.1.2.1 hreload
      refine ⟨_, haccepted.1, hlisteners, hopened, hnodup (closeRemoved_nodup hgood.owned.1), ?_,
        ?_⟩
      · have hkept := foundBy_perm hgood.apart hgood.ids haccepted.1.2.2
        have hopen := closeRemoved_opened (cfg.map Prod.fst) [] hgood.owned.2
        exact (hkept.flatMap_right _).trans hopen
      · rintro o ho ⟨p, hp, hmatch⟩
        refine mem_closeRemoved_table fun l hl hid hgone => ?_
        cases inj_on_of_nodup_map hgood.ids hl ho hid
        exact absurd hmatch (List.find?_eq_none.1 hgone p.1 (mem_map_of_mem hp))

/-- The listeners that are kept have their sockets exactly if those with sockets were in the table.
-/
theorem ReloadParts.kept_iff (hgood : R.Good) (h : ReloadParts R cfg R' S₁) :
    (∀ o ∈ R.listeners, ∀ l ∈ R'.listeners, listenerMatches o l = true → l.socks = o.socks) ↔
      ∀ o ∈ R.listeners, o.socks ≠ [] → (∃ p ∈ cfg, listenerMatches o p.1 = true) →
        o.id ∈ R.sockets.table := by
  have hsocks {o : Listener} {p : Listener × BindOutcome} (ho : o ∈ R.listeners) (hp : p ∈ cfg)
      (hmatch : listenerMatches o p.1 = true) : socksAfter R.listeners S₁.table p =
        if o.id ∈ R.sockets.table then o.socks else [] := by
    have hfind : routerContainsListener R.listeners p.1 = some o :=
      (routerContainsListener_eq_some hgood.apart).2 ⟨ho, listenerMatches_symm hmatch⟩
    simp only [socksAfter, hfind, h.table o ho ⟨p, hp, hmatch⟩]
  rw [h.listeners]
  constructor
  · rintro hkept o ho hne ⟨p, hp, hmatch⟩
    have heq := hkept o ho _ (mem_map_of_mem hp) hmatch
    by_contra hout
    rw [hsocks ho hp hmatch, if_neg hout] at heq
    exact hne heq.symm
  · intro hin o ho l hl hmatch
    obtain ⟨p, hp, rfl⟩ := mem_map.1 hl
    show socksAfter R.listeners S₁.table p = o.socks
    rw [hsocks ho hp hmatch]
    by_cases hnil : o.socks = []
    · rw [hnil, ite_self]
    · exact if_pos (hin o ho hnil ⟨p, hp, hmatch⟩)

/-- If the sockets of the listeners that are kept are handed over, the open sockets are those of the
listeners exactly if no closed socket is left in one. -/
theorem ReloadParts.owned_iff (hgood : R.Good) (h : ReloadParts R cfg R' S₁)
    (hkept : ∀ o ∈ R.listeners, o.socks ≠ [] → (∃ p ∈ cfg, listenerMatches o p.1 = true) →
      o.id ∈ R.sockets.table) :
    R'.Owned ↔ ∀ p ∈ cfg, routerContainsListener R.listeners p.1 = none →
      p.2.leavesClosed = false := by
  have hunion : (R'.listeners.flatMap Listener.socks).Perm
      (R'.sockets.opened ++ cfg.flatMap (staleFor R.listeners)) := by
    rw [h.listeners, flatMap_map, h.opened, append_assoc]
    refine (socksAfter_perm fun p hp o hfind hne => ?_).trans (h.found.append_right _)
    obtain ⟨ho, hmatch⟩ := (routerContainsListener_eq_some hgood.apart).1 hfind
    have hmatch' := listenerMatches_symm hmatch
    exact (h.table o ho ⟨p, hp, hmatch'⟩).2 (hkept o ho hne ⟨p, hp, hmatch'⟩)
  have hstale : cfg.flatMap (staleFor R.listeners) = [] ↔
      ∀ p ∈ cfg, routerContainsListener R.listeners p.1 = none → p.2.leavesClosed = false := by
    rw [flatMap_eq_nil_iff]
    exact forall₂_congr fun p _ => staleFor_eq_nil
  rw [← hstale]
  constructor
  · intro howned
    have hlen := (hunion.symm.trans howned.2).length_eq
    rw [length_append] at hlen
    exact eq_nil_of_length_eq_zero (by omega)
  · intro hnil
    rw [hnil, append_nil] at hunion
    exact ⟨h.nodup, hunion⟩

theorem doReload_iff (hgood : R.Good) (h : doReload R cfg = some R') :
    (Reloaded R.listeners R' ↔ KeepsSockets R (.reload cfg)) ∧
      (KeepsSockets R (.reload cfg) → R'.Good) := by
  obtain ⟨S₁, hparts⟩ := exists_reloadParts hgood h
  have hiff : Reloaded R.listeners R' ↔ KeepsSockets R (.reload cfg) := by
    constructor
    · rintro ⟨howned, hkept⟩
      have hkept := (hparts.kept_iff hgood).1 hkept
      exact ⟨hkept, (hparts.owned_iff hgood hkept).1 howned⟩
    · rintro ⟨hkept, hstale⟩
      exact ⟨(hparts.owned_iff hgood hkept).2 hstale, (hparts.kept_iff hgood).2 hkept⟩
  refine ⟨hiff, fun hkeeps => ⟨?_, ?_, (hiff.2 hkeeps).owned⟩⟩
  · rw [hparts.listeners, Apart, pairwise_map]
    exact pairwise_map.1 hparts.accepted.2.2
  · rw [hparts.listeners, map_map]
    have hids := hparts.accepted.1
    rwa [map_map] at hids

end

/-! ## Runs -/

theorem relayStart_good {cfg : List (Listener × List Nat)} {R : Relay}
    (h : relayStart cfg = some R) : R.Good := by
  have hempty : Relay.Good ⟨[], ⟨[], [], []⟩⟩ := ⟨.nil, .nil, .nil, .nil⟩
  rw [relayStart] at h
  split at h
  case isFalse => cases h
  case isTrue =>
    refine (doReload_iff hempty h).2 ⟨nofun, fun p hp _ => ?_⟩
    obtain ⟨q, -, rfl⟩ := mem_map.1 hp
    rfl

/-- From every start of the relay and for every sequence of reloads: after each of them the open
sockets are those of the current listeners, each of one, and a listener that was kept has its
sockets, exactly if in every reload each listener that is kept and has sockets is in the table,
which UDP listeners are not, and no other one is left with a socket that was closed. -/
theorem listeners_owned_iff {cfg : List (Listener × List Nat)} {R R' : Relay}
    {steps : List ReloadStep}
    {log : List (List (List Listener × Relay))} (hstart : relayStart cfg = some R)
    (hrun : Machine.run reloadStep R steps = some (R', log)) :
    (∀ e ∈ log.flatten, Reloaded e.1 e.2) ↔ Machine.Along reloadStep KeepsSockets R steps := by
  refine Machine.run_exact (I := Relay.Good) (fun R a R' l hgood hstep => ?_)
    (relayStart_good hstart) hrun
  cases a with
  | unchanged =>
    cases hstep
    exact ⟨iff_of_true nofun trivial, fun _ => hgood⟩
  | reload cfg =>
    obtain ⟨_, hreload, hr⟩ := Option.map_eq_some_iff.1 hstep
    cases hr
    rw [forall_mem_singleton]
    exact doReload_iff hgood hreload

/-- A listener for lines on all addresses. -/
def anyListener (id : Nat) (ctype : ConProto) (port : Nat) : Listener where
  id
  transport := .plain
  ssl := false
  ctype
  ip := none
  port
  pemtime := 0
  addr := "0.0.0.0".toList
  socks := []

/-- A TCP listener is kept, and another one opened. -/
theorem listeners_owned_tcp :
    ∃ R R' log, relayStart [(anyListener 0 .tcp 2003, [3])] = some R ∧
      Machine.run reloadStep R [.reload [(anyListener 1 .tcp 2003, .failed),
        (anyListener 2 .tcp 2004, .opened [4])]] = some (R', log) ∧
      ∀ e ∈ log.flatten, Reloaded e.1 e.2 := by
  have hstart : relayStart [(anyListener 0 .tcp 2003, [3])] = some ⟨_, _⟩ := rfl
  refine ⟨_, _, _, hstart, rfl,
    (@listeners_owned_iff _ _ _ [.reload [(anyListener 1 .tcp 2003, .failed),
    (anyListener 2 .tcp 2004, .opened [4])]] _ hstart rfl).2 ⟨⟨?_, ?_⟩, trivial⟩⟩
  · decide +kernel
  · decide +kernel

/-- A UDP listener is kept in one reload and removed in the next: its socket stays open. -/
theorem udp_socket_leaked :
    ∃ R R' log, relayStart [(anyListener 0 .udp 2003, [3])] = some R ∧
      Machine.run reloadStep R [.reload [(anyListener 1 .udp 2003, .failed),
        (anyListener 2 .tcp 2004, .opened [4])], .reload [(anyListener 3 .tcp 2004, .failed)]] =
          some (R', log) ∧
      R'.listeners = [{ anyListener 3 .tcp 2004 with socks := [4] }] ∧ R'.sockets.opened = [3, 4] ∧
      ¬ ∀ e ∈ log.flatten, Reloaded e.1 e.2 := by
  refine ⟨_, _, _, rfl, rfl, rfl, rfl, fun hall => ?_⟩
  have hlast := (hall _ (mem_cons_of_mem _ mem_cons_self)).owned.2
  exact absurd hlast.length_eq (by decide)

end CarbonRelay
