import CarbonRelay.Dispatcher.Connections

/-!
# The counters of connections

The counter of a worker should be the number of open connections assigned to it, and accepted minus
closed connections the number of open client connections. The first fails when a connection is added
to a slot in use, when its event cannot be made, and when a UDP listener is removed; the second when
an event cannot be made and at every close, which is counted twice. `counters_exact_iff` says that
there is nothing else.
-/

namespace CarbonRelay

open List

/-- The entry is a connection of the worker. -/
def assigned (d : Nat) : Option OpenConn → Bool
  | some conn => conn.worker = d
  | none => false

/-- The entry is a connection of a client. -/
def isClient : Option OpenConn → Bool
  | some conn => conn.kind = .client
  | none => false

namespace Connections

/-- Every worker's counter is the number of its open connections. -/
def CountersExact (S : Connections) : Prop := ∀ d, S.workers d = S.table.countP (assigned d)

/-- `acceptedconnections - closedconnections` is the number of open client connections. -/
def BalanceExact (S : Connections) : Prop :=
  (S.accepted + (2 ^ 64 - S.closed)) % 2 ^ 64 = S.table.countP isClient

/-- The slot of the socket is in use. -/
def Occupied (S : Connections) (sock : Nat) : Prop := ∃ conn, S.table[sock]? = some (some conn)

/-- The connection is set up but for its event. -/
def FailsLate (S : Connections) (sock : Nat) (u : SetUp) : Prop :=
  ¬ S.Occupied sock ∧ (S.table.length ≤ sock → u.realloc = true) ∧ u.connectionNew = true ∧
    u.strmNew = true ∧ u.eventNew = false

/-- The steps that keep the counters of the workers exact. -/
def KeepsCounters (S : Connections) : ConnectionsStep → Prop
  | .accept sock u | .addAggr sock u | .addUdp sock u => ¬ S.Occupied sock ∧ ¬ S.FailsLate sock u
  | .removeUdp _ => False
  | .close _ => True

/-- The steps that keep the balance exact. -/
def KeepsBalance (S : Connections) : ConnectionsStep → Prop
  | .accept sock u | .addAggr sock u | .addUdp sock u => ¬ S.FailsLate sock u
  | .removeUdp _ => False
  | .close _ => False

instance (S : Connections) (sock : Nat) : Decidable (S.Occupied sock) :=
  match h : S.table[sock]? with
  | some (some conn) => isTrue ⟨conn, h⟩
  | some none => isFalse (by simp [Occupied, h])
  | none => isFalse (by simp [Occupied, h])

instance (S : Connections) (sock : Nat) (u : SetUp) : Decidable (S.FailsLate sock u) :=
  inferInstanceAs (Decidable (_ ∧ _ ∧ _ ∧ _ ∧ _))

instance (S : Connections) : ∀ a, Decidable (KeepsCounters S a)
  | .accept _ _ | .addAggr _ _ | .addUdp _ _ => inferInstanceAs (Decidable (_ ∧ _))
  | .removeUdp _ => isFalse id
  | .close _ => isTrue trivial

instance (S : Connections) : ∀ a, Decidable (KeepsBalance S a)
  | .accept _ _ | .addAggr _ _ | .addUdp _ _ => inferInstanceAs (Decidable (¬ _))
  | .removeUdp _ | .close _ => isFalse id

/-- What holds in every state. -/
structure OK (S : Connections) : Prop where
  length : S.table.length ≤ 2 ^ 31 + growSize
  worker : ∀ conn, some conn ∈ S.table → 1 ≤ conn.worker
  workers : ∀ d, S.workers d < 2 ^ 64
  accepted : S.accepted < 2 ^ 64
  closed : S.closed < 2 ^ 64

end Connections

open Connections

/-! ## Counting entries -/

section
variable {table t : List (Option OpenConn)} {sock : Nat} {p : Option OpenConn → Bool}

/-- The table with free slots behind it. -/
def Grown (table t : List (Option OpenConn)) : Prop := ∃ k, t = table ++ List.replicate k none

theorem Grown.refl (table : List (Option OpenConn)) : Grown table table :=
  ⟨0, (append_nil table).symm⟩

theorem Grown.countP (h : Grown table t) (hp : p none = false) : t.countP p = table.countP p := by
  obtain ⟨k, rfl⟩ := h
  rw [countP_append, countP_replicate, hp]
  rfl

variable {conn : OpenConn}

theorem Grown.mem (h : Grown table t) (hmem : some conn ∈ t) : some conn ∈ table := by
  obtain ⟨k, rfl⟩ := h
  rcases mem_append.1 hmem with hmem | hmem
  · exact hmem
  · cases eq_of_mem_replicate hmem

theorem countP_set_some (hfree : t[sock]? = some none) (hp : p none = false) (conn : OpenConn) :
    (t.set sock (some conn)).countP p = t.countP p + if p (some conn) then 1 else 0 := by
  obtain ⟨hlt, hget⟩ := List.getElem?_eq_some_iff.1 hfree
  rw [countP_set hlt, hget, hp]
  simp

theorem countP_set_none (hused : t[sock]? = some (some conn)) (hp : p none = false) :
    (t.set sock none).countP p + (if p (some conn) then 1 else 0) = t.countP p := by
  obtain ⟨hlt, hget⟩ := List.getElem?_eq_some_iff.1 hused
  rw [countP_set hlt, hget, hp]
  by_cases hconn : p (some conn) = true
  · have hpos : 0 < t.countP p := countP_pos_iff.2 ⟨_, hget ▸ getElem_mem hlt, hconn⟩
    simp only [hconn, if_true, Bool.false_eq_true, if_false]
    omega
  · simp [hconn]

theorem set_none_self (hfree : t[sock]? = some none) : t.set sock none = t := by
  obtain ⟨hlt, hget⟩ := List.getElem?_eq_some_iff.1 hfree
  rw [← hget]
  exact set_getElem_self hlt

/-! ## Adding a connection -/

variable {S S' : Connections} {kind : ConnKind} {u : SetUp}

theorem sizeDecr_sizeIncr {c : Nat} (h : c < 2 ^ 64) : sizeDecr (sizeIncr c) = c := by
  rw [sizeDecr, sizeIncr]
  omega

theorem lowLoop_pos {workers : Nat → Nat} {k i min d : Nat} (hi : 1 ≤ i) (hd : 1 ≤ d) :
    1 ≤ lowLoop workers k i min d := by
  induction k generalizing i min d with
  | zero => exact hd
  | succ k ih =>
    rw [lowLoop]
    split
    · exact ih (Nat.le_add_left 1 i) hi
    · exact ih (Nat.le_add_left 1 i) hd

theorem lowWorker_pos (S : Connections) : 1 ≤ S.lowWorker := lowLoop_pos (by decide) (by decide)

/-- What adding a connection does. -/
inductive Adds (S : Connections) (sock : Nat) (kind : ConnKind) (u : SetUp) : Connections → Prop
  /-- The slot is in use: the counter of the worker stays increased. -/
  | occupied (h : S.Occupied sock) : Adds S sock kind u (S.count S.lowWorker sizeIncr)
  /-- An allocation fails. -/
  | early {t : List (Option OpenConn)} (hfree : ¬ S.Occupied sock) (hlate : ¬ S.FailsLate sock u)
      (ht : Grown S.table t) (hlen : t.length ≤ 2 ^ 31 + growSize) :
      Adds S sock kind u { S with table := t }
  /-- The event fails: the counter of the worker is decreased twice. -/
  | late {t : List (Option OpenConn)} (hlate : S.FailsLate sock u) (ht : Grown S.table t)
      (hlen : t.length ≤ 2 ^ 31 + growSize) :
      Adds S sock kind u { S.count S.lowWorker sizeDecr with
        table := t, closed := sizeIncr (sizeIncr S.closed), errors := sizeIncr S.errors }
  | added {t : List (Option OpenConn)} (hfree : ¬ S.Occupied sock) (hlate : ¬ S.FailsLate sock u)
      (ht : Grown S.table t) (hlen : t.length ≤ 2 ^ 31 + growSize) (hslot : t[sock]? = some none) :
      Adds S sock kind u { S.count S.lowWorker sizeIncr with
        table := t.set sock (some ⟨S.lowWorker, kind⟩)
        accepted := if kind = .client then sizeIncr S.accepted else S.accepted }

theorem count_count (S : Connections) (d : Nat) (f g : Nat → Nat) :
    (S.count d f).count d g = S.count d (g ∘ f) := by
  simp [Connections.count]

theorem count_incr_decr (hS : S.OK) (d : Nat) : (S.count d sizeIncr).count d sizeDecr = S := by
  rw [count_count, Connections.count, Function.comp_apply, sizeDecr_sizeIncr (hS.workers d),
    Function.update_eq_self]

/-- The part behind the allocation of the connection. -/
theorem adds_of_setUp (hS : S.OK) {t : List (Option OpenConn)} (hfree : ¬ S.Occupied sock)
    (hrealloc : S.table.length ≤ sock → u.realloc = true) (hconn : u.connectionNew = true)
    (ht : Grown S.table t) (hlen : t.length ≤ 2 ^ 31 + growSize) (hslot : t[sock]? = some none)
    {r : Connections × Bool}
    (hr : setUpConnection sock S.lowWorker kind u { S.count S.lowWorker sizeIncr with table := t } =
      r) :
    Adds S sock kind u
      (if r.2 = true ∧ kind ≠ .client then { r.1 with accepted := sizeDecr r.1.accepted }
      else r.1) := by
  subst hr
  rw [setUpConnection]
  by_cases hstrm : u.strmNew = true
  · rw [if_pos hstrm]
    by_cases hevent : u.eventNew = true
    · have hlate : ¬ S.FailsLate sock u := fun h => Bool.false_ne_true (h.2.2.2.2.symm.trans hevent)
      rw [if_pos hevent]
      have hadded : Adds S sock kind u _ := .added hfree hlate ht hlen hslot
      by_cases hkind : kind = .client
      · rw [if_pos hkind] at hadded
        rw [if_neg fun h => h.2 hkind]
        exact hadded
      · rw [if_neg hkind] at hadded
        rw [if_pos ⟨rfl, hkind⟩]
        dsimp only
        rw [show sizeDecr (sizeIncr (S.count S.lowWorker sizeIncr).accepted) = S.accepted from
          sizeDecr_sizeIncr hS.accepted]
        exact hadded
    · have hlate : S.FailsLate sock u := ⟨hfree, hrealloc, hconn, hstrm, Bool.eq_false_iff.2 hevent⟩
      rw [if_neg hevent, if_neg fun h => Bool.false_ne_true h.1]
      show Adds S sock kind u
        { ((S.count S.lowWorker sizeIncr).count S.lowWorker sizeDecr).count S.lowWorker
          sizeDecr with
          table := t.set sock none
          closed := sizeIncr (sizeIncr S.closed)
          errors := sizeIncr S.errors }
      rw [count_incr_decr hS, set_none_self hslot]
      exact .late hlate ht hlen
  · have hlate : ¬ S.FailsLate sock u := fun h => hstrm h.2.2.2.1
    rw [if_neg hstrm, if_neg fun h => Bool.false_ne_true h.1]
    show Adds S sock kind u
      { (S.count S.lowWorker sizeIncr).count S.lowWorker sizeDecr with table := t }
    rw [count_incr_decr hS]
    exact .early hfree hlate ht hlen

theorem adds_of_add (hS : S.OK) (hsock : sock < 2 ^ 31) (h : S.add sock kind u = some S') :
    Adds S sock kind u S' := by
  have hclient (T : Connections) :
      (if false = true ∧ kind ≠ .client then { T with accepted := sizeDecr T.accepted } else T) =
        T :=
    if_neg fun h => Bool.false_ne_true h.1
  rw [Connections.add] at h
  split at h
  case h_1 => cases h
  case h_2 T ok hadd =>
    have h : (if ok = true ∧ kind ≠
        .client then { T with accepted := sizeDecr T.accepted } else T) = S' := by
      by_cases hboth : ok = true ∧ kind ≠ .client
      · rw [if_pos hboth] at h ⊢
        exact Option.some.inj h
      · rw [if_neg hboth] at h ⊢
        exact Option.some.inj h
    rw [← h]
    rw [dispatchAddconnection] at hadd
    split at hadd
    case h_1 conn hget =>
      cases hadd
      rw [hclient]
      exact .occupied ⟨conn, hget⟩
    case h_2 hget =>
      have hfree : ¬ S.Occupied sock := fun ⟨conn, hconn⟩ => by
        cases hget.symm.trans hconn
      obtain ⟨hlt, -⟩ := List.getElem?_eq_some_iff.1 hget
      split at hadd
      case isFalse => cases hadd
      case isTrue hconn =>
        exact adds_of_setUp hS hfree (fun hle => absurd hlt (Nat.not_lt.2 hle)) hconn
          (.refl S.table) hS.length hget (Option.some.inj hadd)
    case h_3 hget =>
      have hle : S.table.length ≤ sock := List.getElem?_eq_none_iff.1 hget
      have hfree : ¬ S.Occupied sock := fun ⟨conn, hconn⟩ => by
        cases hget.symm.trans hconn
      split at hadd
      case isFalse hrealloc =>
        cases hadd
        rw [hclient, count_incr_decr hS]
        exact .early hfree (fun hlate => hrealloc (hlate.2.1 hle)) (.refl S.table) hS.length
      case isTrue hrealloc =>
        have hgrown : Grown S.table
          (S.table ++ List.replicate (sock + growSize - S.table.length) none) := ⟨_, rfl⟩
        have hlen : (S.table ++ List.replicate (sock + growSize - S.table.length)
            (none : Option OpenConn)).length = sock + growSize := by
          rw [length_append, length_replicate]
          omega
        have hslot : (S.table ++ List.replicate (sock + growSize - S.table.length) none)[sock]? =
            some none := by
          rw [getElem?_append_right hle, getElem?_replicate, if_pos]
          rw [growSize]
          omega
        split at hadd
        case isTrue hconn =>
          exact adds_of_setUp hS hfree (fun _ => hrealloc) hconn hgrown (by rw [hlen]; omega) hslot
            (Option.some.inj hadd)
        case isFalse hconn =>
          cases hadd
          rw [hclient]
          show Adds S sock kind u { (S.count S.lowWorker sizeIncr).count S.lowWorker sizeDecr with
            table := S.table ++ List.replicate (sock + growSize - S.table.length) none }
          rw [count_incr_decr hS]
          exact .early hfree (fun hlate => hconn hlate.2.2.1) hgrown (by rw [hlen]; omega)

/-! ## What the steps keep -/

variable {d : Nat}

theorem count_workers_self (S : Connections) (d : Nat) (f : Nat → Nat) :
    (S.count d f).workers d = f (S.workers d) := Function.update_self ..

theorem count_workers_of_ne (S : Connections) {d e : Nat} (f : Nat → Nat) (h : e ≠ d) :
    (S.count d f).workers e = S.workers e := Function.update_of_ne h ..

theorem workers_count_lt (hS : S.OK) {f : Nat → Nat} (hf : ∀ c, f c < 2 ^ 64) (d e : Nat) :
    (S.count d f).workers e < 2 ^ 64 := by
  by_cases h : e = d
  · subst h
    rw [count_workers_self]
    exact hf _
  · rw [count_workers_of_ne S f h]
    exact hS.workers e

theorem sizeIncr_lt (c : Nat) : sizeIncr c < 2 ^ 64 := Nat.mod_lt _ (by decide)

theorem sizeDecr_lt (c : Nat) : sizeDecr c < 2 ^ 64 := Nat.mod_lt _ (by decide)

section
variable (hS : S.OK)
include hS

theorem Connections.OK.adds (h : Adds S sock kind u S') : S'.OK := by
  cases h with
  | occupied => exact { hS with workers := workers_count_lt hS sizeIncr_lt _ }
  | early hfree hlate ht hlen =>
    exact { hS with length := hlen, worker := fun conn hmem => hS.worker conn (ht.mem hmem) }
  | late hlate ht hlen =>
    exact
      { hS with
        length := hlen
        worker := fun conn hmem => hS.worker conn (ht.mem hmem)
        workers := workers_count_lt hS sizeDecr_lt _
        closed := sizeIncr_lt _ }
  | added hfree hlate ht hlen hslot =>
    refine ⟨?_, fun conn hmem => ?_, workers_count_lt hS sizeIncr_lt _, ?_, hS.closed⟩
    · rw [length_set]
      exact hlen
    · rcases mem_or_eq_of_mem_set hmem with hmem | heq
      · exact hS.worker conn (ht.mem hmem)
      · cases heq
        exact lowWorker_pos S
    · show (if kind = .client then sizeIncr S.accepted else S.accepted) < 2 ^ 64
      split
      · exact sizeIncr_lt _
      · exact hS.accepted

theorem Connections.OK.close (d sock : Nat) : (S.dispatchCloseconnection d sock).OK := by
  refine ⟨?_, fun conn hmem => ?_, workers_count_lt hS sizeDecr_lt _, hS.accepted, sizeIncr_lt _⟩
  · rw [dispatchCloseconnection, length_set]
    exact hS.length
  · rcases mem_or_eq_of_mem_set hmem with hmem | heq
    · exact hS.worker conn hmem
    · cases heq

/-- There are far fewer connections than a counter can hold. -/
theorem Connections.OK.countP_lt (p : Option OpenConn → Bool) : S.table.countP p < 2 ^ 63 :=
  calc S.table.countP p ≤ S.table.length := countP_le_length
    _ ≤ 2 ^ 31 + growSize := hS.length
    _ < 2 ^ 63 := by decide

theorem CountersExact.adds (hexact : S.CountersExact) (h : Adds S sock kind u S') :
    S'.CountersExact ↔ ¬ S.Occupied sock ∧ ¬ S.FailsLate sock u := by
  have hS' := hS.adds h
  cases h with
  | occupied hused =>
    refine iff_of_false (fun hexact' => ?_) fun hnot => hnot.1 hused
    have hlow := hexact' S.lowWorker
    rw [count_workers_self] at hlow
    have hlt := hS.workers S.lowWorker
    rw [hexact S.lowWorker] at hlow hlt
    rw [sizeIncr, show (S.count S.lowWorker sizeIncr).table = S.table from rfl] at hlow
    omega
  | early hfree hlate ht hlen =>
    refine iff_of_true (fun d => ?_) ⟨hfree, hlate⟩
    rw [ht.countP rfl]
    exact hexact d
  | late hlate ht hlen =>
    refine iff_of_false (fun hexact' => ?_) fun hnot => hnot.2 hlate
    have hlow := hexact' S.lowWorker
    have hlt := hS.workers S.lowWorker
    rw [ht.countP rfl, ← hexact S.lowWorker] at hlow
    have hdecr : sizeDecr (S.workers S.lowWorker) = S.workers S.lowWorker :=
      (count_workers_self ..).symm.trans hlow
    rw [sizeDecr] at hdecr
    omega
  | added hfree hlate ht hlen hslot =>
    refine iff_of_true (fun d => ?_) ⟨hfree, hlate⟩
    rw [countP_set_some hslot rfl, ht.countP rfl, ← hexact d, assigned]
    have hlt : S.workers d < 2 ^ 63 := hexact d ▸ hS.countP_lt _
    show (S.count S.lowWorker sizeIncr).workers d = _
    by_cases hd : d = S.lowWorker
    · subst hd
      rw [count_workers_self, sizeIncr]
      simp only [decide_true, if_true]
      omega
    · rw [count_workers_of_ne _ _ hd, if_neg]
      · rfl
      · simpa using Ne.symm hd

theorem BalanceExact.adds (hexact : S.BalanceExact) (h : Adds S sock kind u S') :
    S'.BalanceExact ↔ ¬ S.FailsLate sock u := by
  have hcount := hS.countP_lt isClient
  have hclosed := hS.closed
  have haccepted := hS.accepted
  rw [BalanceExact] at hexact
  cases h with
  | occupied hused => exact iff_of_true hexact fun hlate => hlate.1 hused
  | early hfree hlate ht hlen =>
    refine iff_of_true ?_ hlate
    rw [BalanceExact, ht.countP rfl]
    exact hexact
  | late hlate ht hlen =>
    refine iff_of_false (fun hexact' => ?_) (not_not.2 hlate)
    rw [BalanceExact, ht.countP rfl, ← hexact] at hexact'
    simp only [sizeIncr, Connections.count] at hexact'
    omega
  | added hfree hlate ht hlen hslot =>
    refine iff_of_true ?_ hlate
    rw [BalanceExact, countP_set_some hslot rfl, ht.countP rfl, ← hexact, isClient]
    simp only [Connections.count]
    by_cases hkind : kind = .client
    · simp only [hkind, if_true, decide_true, sizeIncr]
      omega
    · simp only [hkind, if_false, decide_false, Bool.false_eq_true, Nat.add_zero]

theorem CountersExact.close (hexact : S.CountersExact) (hused : S.table[sock]? = some (some conn)) :
    (S.dispatchCloseconnection conn.worker sock).CountersExact := by
  intro d
  have hset := countP_set_none (p := assigned d) hused rfl
  have hlt := hS.workers d
  show (S.count conn.worker sizeDecr).workers d = (S.table.set sock none).countP (assigned d)
  rw [← hexact d, assigned] at hset
  by_cases hd : d = conn.worker
  · rw [if_pos (by simpa using hd.symm)] at hset
    rw [hd, count_workers_self, ← hd, sizeDecr]
    omega
  · rw [if_neg (by simpa using Ne.symm hd)] at hset
    rw [count_workers_of_ne S _ hd]
    exact hset.symm

/-- The counter of the listener worker, which has no connections, wraps. -/
theorem not_countersExact_removeUdp (hexact : S.CountersExact) :
    ¬ (S.dispatchCloseconnection 0 sock).CountersExact := by
  have hnone : ∀ e ∈ S.table, ¬ assigned 0 e = true := by
    intro e he h
    cases e with
    | none => cases h
    | some conn =>
      have := hS.worker conn he
      have := of_decide_eq_true h
      omega
  have hzero : S.workers 0 = 0 := (hexact 0).trans (countP_eq_zero.2 hnone)
  have hzero' : (S.table.set sock none).countP (assigned 0) = 0 := by
    refine countP_eq_zero.2 fun e he => ?_
    rcases mem_or_eq_of_mem_set he with he | rfl
    · exact hnone e he
    · exact Bool.false_ne_true
  intro hexact'
  have h := (count_workers_self S 0 sizeDecr).symm.trans ((hexact' 0).trans hzero')
  rw [hzero] at h
  exact absurd h (by decide)

/-- A close is counted twice. -/
theorem not_balanceExact_close (hexact : S.BalanceExact) (d : Nat)
    (hused : S.table[sock]? = some (some conn)) :
    ¬ (S.dispatchCloseconnection d sock).BalanceExact := by
  intro hexact'
  have hset := countP_set_none (p := isClient) hused rfl
  have hcount := hS.countP_lt isClient
  have hclosed := hS.closed
  have haccepted := hS.accepted
  rw [BalanceExact] at hexact hexact'
  have hexact' : (S.accepted + (2 ^ 64 - sizeIncr (sizeIncr S.closed))) % 2 ^ 64 =
      (S.table.set sock none).countP isClient := hexact'
  rw [sizeIncr, sizeIncr] at hexact'
  split at hset <;> omega

/-- One step of the dispatchers. -/
theorem connectionsStep_exact {a : ConnectionsStep} {o : List Connections}
    (h : connectionsStep S a = some (S', o)) : o = [S'] ∧ S'.OK ∧
      (S.CountersExact → (S'.CountersExact ↔ S.KeepsCounters a)) ∧
      (S.BalanceExact → (S'.BalanceExact ↔ S.KeepsBalance a)) := by
  obtain ⟨_, hT, h⟩ := Option.map_eq_some_iff.1 h
  cases h
  refine ⟨rfl, ?_⟩
  have hadd {kind : ConnKind} {sock : Nat} {u : SetUp}
      (h : (if sock < 2 ^ 31 then S.add sock kind u else none) = some S') :
      Adds S sock kind u S' := by
    split at h
    case isTrue hsock => exact adds_of_add hS hsock h
    case isFalse => cases h
  cases a with
  | accept sock u | addAggr sock u | addUdp sock u =>
    have hadds := hadd hT
    exact ⟨hS.adds hadds, fun hexact => CountersExact.adds hS hexact hadds,
      fun hexact => BalanceExact.adds hS hexact hadds⟩
  | removeUdp sock =>
    dsimp only at hT
    split at hT
    case h_2 => cases hT
    case h_1 conn hused =>
      cases hT
      exact ⟨hS.close 0 sock, fun hexact => iff_of_false (not_countersExact_removeUdp hS hexact) id,
        fun hexact => iff_of_false (not_balanceExact_close hS hexact 0 hused) id⟩
  | close sock =>
    dsimp only at hT
    split at hT
    case h_2 => cases hT
    case h_1 conn hused =>
      cases hT
      exact ⟨hS.close _ sock, fun hexact =>
        iff_of_true (CountersExact.close hS hexact hused) trivial,
        fun hexact => iff_of_false (not_balanceExact_close hS hexact _ hused) id⟩

end

end

/-! ## Runs -/

/-- What every step keeps exactly on a condition holds in all states of a run exactly if every step
meets its condition. -/
theorem run_exact_iff {E : Connections → Prop} {C : Connections → ConnectionsStep → Prop}
    (hstep : ∀ S a S' o, S.OK → E S → connectionsStep S a = some (S', o) →
      o = [S'] ∧ S'.OK ∧ (E S' ↔ C S a))
    {S S' : Connections} {steps : List ConnectionsStep} {log : List (List Connections)} (hS : S.OK)
    (hE : E S) (hrun : Machine.run connectionsStep S steps = some (S', log)) :
    (∀ T ∈ log.flatten, E T) ↔ Machine.Along connectionsStep C S steps := by
  refine Machine.run_exact (I := fun S => S.OK ∧ E S) (fun S a S' o hSE h => ?_) ⟨hS, hE⟩ hrun
  obtain ⟨rfl, hS', hiff⟩ := hstep S a S' o hSE.1 hSE.2 h
  rw [forall_mem_singleton]
  exact ⟨hiff, fun hc => ⟨hS', hiff.2 hc⟩⟩

theorem Connections.new_ok (workercnt : Nat) : (Connections.new workercnt).OK :=
  ⟨Nat.zero_le _, nofun, fun _ => Nat.two_pow_pos 64,
    Nat.two_pow_pos 64, Nat.two_pow_pos 64⟩

/-- In every run of the dispatchers, the counter of each worker is always the number of open
connections assigned to it exactly if no connection is added to a slot in use or fails at its event
and no UDP listener is removed, and accepted minus closed connections is always the number of open
client connections exactly if no connection is ever closed. -/
theorem counters_exact_iff {workercnt : Nat} {steps : List ConnectionsStep} {S : Connections}
    {log : List (List Connections)}
    (hrun : Machine.run connectionsStep (Connections.new workercnt) steps = some (S, log)) :
    ((∀ T ∈ log.flatten, T.CountersExact) ↔
      Machine.Along connectionsStep KeepsCounters (Connections.new workercnt) steps) ∧
    ((∀ T ∈ log.flatten, T.BalanceExact) ↔
      Machine.Along connectionsStep KeepsBalance (Connections.new workercnt) steps) := by
  have hnew := Connections.new_ok workercnt
  have hbalance : (Connections.new workercnt).BalanceExact := by
    show (0 + (2 ^ 64 - 0)) % 2 ^ 64 = 0
    decide
  refine ⟨run_exact_iff ?_ hnew (fun _ => rfl) hrun, run_exact_iff ?_ hnew hbalance hrun⟩
  · intro S a S' o hS hE h
    obtain ⟨ho, hS', hcounters, -⟩ := connectionsStep_exact hS h
    exact ⟨ho, hS', hcounters hE⟩
  · intro S a S' o hS hE h
    obtain ⟨ho, hS', -, hbalance⟩ := connectionsStep_exact hS h
    exact ⟨ho, hS', hbalance hE⟩

/-- A client is accepted, and a pipe of the aggregator added, by one worker. -/
theorem counters_exact_two :
    ∃ S log, Machine.run connectionsStep (Connections.new 1)
        [.accept 7 ⟨true, true, true, true⟩, .addAggr 8 ⟨true, true, true, true⟩] = some (S, log) ∧
      (∀ T ∈ log.flatten, T.CountersExact) ∧ ∀ T ∈ log.flatten, T.BalanceExact := by
  refine Machine.exists_of_isSome (by decide +kernel) fun S log hrun => ?_
  obtain ⟨hcounters, hbalance⟩ := counters_exact_iff hrun
  exact ⟨hcounters.2 (by decide +kernel), hbalance.2 (by decide +kernel)⟩

/-- A client connects and leaves, and a UDP listener with one socket is added and removed. No
connection is left, but the counter of the listener worker has wrapped, that of the other worker is
1, and four connections are counted as closed where one was accepted. -/
theorem closed_connections_miscounted :
    ∃ S log, Machine.run connectionsStep (Connections.new 1)
        [.accept 7 ⟨true, true, true, true⟩, .addUdp 8 ⟨true, true, true, true⟩, .close 7,
          .removeUdp 8] = some (S, log) ∧
      (∃ T ∈ log.flatten, T.workers 0 = 2 ^ 64 - 1 ∧ T.workers 1 = 1 ∧ T.accepted = 1 ∧
        T.closed = 4 ∧ ∀ e ∈ T.table, e = none) ∧
      ¬ ((∀ T ∈ log.flatten, T.CountersExact) ∧ ∀ T ∈ log.flatten, T.BalanceExact) := by
  have hlast : (Machine.run connectionsStep (Connections.new 1)
      [.accept 7 ⟨true, true, true, true⟩, .addUdp 8 ⟨true, true, true, true⟩, .close 7,
        .removeUdp 8]).map (fun r => r.2.flatten.getLast?.map fun T =>
          (T.workers 0, T.workers 1, T.accepted, T.closed, T.table.all Option.isNone)) =
      some (some (2 ^ 64 - 1, 1, 1, 4, true)) := by
    decide +kernel
  obtain ⟨⟨S, log⟩, hrun, hlast⟩ := Option.map_eq_some_iff.1 hlast
  obtain ⟨T, hT, hvalues⟩ := Option.map_eq_some_iff.1 hlast
  simp only [Prod.mk.injEq, all_eq_true] at hvalues
  obtain ⟨hlistener, hworker, haccepted, hclosed, htable⟩ := hvalues
  have hmem : T ∈ log.flatten := mem_of_getLast? hT
  refine ⟨S, log, hrun, ⟨T, hmem, hlistener, hworker, haccepted, hclosed, ?_⟩, fun hall => ?_⟩
  · exact fun e he => Option.isNone_iff_eq_none.1 (htable e he)
  · have hzero : T.table.countP (assigned 0) = 0 := by
      refine countP_eq_zero.2 fun e he => ?_
      rw [Option.isNone_iff_eq_none.1 (htable e he)]
      exact Bool.false_ne_true
    have hwrapped := hall.1 T hmem 0
    rw [hlistener, hzero] at hwrapped
    exact absurd hwrapped (by decide)

end CarbonRelay
