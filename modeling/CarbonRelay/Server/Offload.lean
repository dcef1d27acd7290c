import CarbonRelay.Server.Send
import Mathlib.Data.List.MinMax

/-!
# Which server takes an offloaded metric

A server that has failed, or whose queue is nearly full, is to leave its metrics to a secondary that
works. The loop of `server_send` that looks for one (`server.c:1758`) asks the server itself, not
the secondary, whether it has failed. A server that has failed thus finds none, however much room
its secondaries have; and one that has not takes the running secondary with the most room, failed or
not.

`selectQueue_eq` gives the loop as an `argmax` over the running secondaries. From it follows when a
call does what it should (`offloadsRight_iff`): a failed server must have no usable secondary with
more room, and for another one the running secondary with the most room must not have failed.
-/

namespace CarbonRelay

open List Option

/-! ## The loop over the secondaries -/

/-- The running secondary with the most room, the first of them if there are several. -/
def roomiest (D : Destinations) (i : Nat) (js : List Nat) : Option Nat :=
  (js.filter fun j => i ≠ j ∧ D.running j = true).argmax D.free

/-- The running secondary with the most room, if that is enough. -/
def bestSecondary (D : Destinations) (i : Nat) : Option Nat :=
  (roomiest D i (D.servers i).secondaries).filter fun j =>
    D.free i + 4 * (D.servers i).bsize < D.free j

section
variable {D : Destinations} {i : Nat}

variable {j : Nat}

theorem roomiest_cons_of_running {js : List Nat} (hij : i ≠ j) (hrun : D.running j = true) :
    roomiest D i (j :: js) = (roomiest D i js).elim (some j) fun c =>
      if D.free j < D.free c then some c else some j := by
  rw [roomiest, filter_cons_of_pos (by simp [hij, hrun]), argmax_cons, ← roomiest]
  cases roomiest D i js <;> rfl

theorem roomiest_cons_of_not_running {js : List Nat} (h : ¬(i ≠ j ∧ D.running j = true)) :
    roomiest D i (j :: js) = roomiest D i js := by
  rw [roomiest, filter_cons_of_neg (by simpa using h), ← roomiest]

/-- The loop of a server that has failed finds nothing. -/
theorem selectQueue_of_failed (hfailed : D.failed i = true) (js : List Nat) (sel : Nat × Nat) :
    selectQueue D i js sel = sel := by
  rcases selectQueue_cases js sel with heq | ⟨_, _, _, hnot, _⟩
  · exact heq
  · rw [hfailed] at hnot
    cases hnot

/-- The loop of a server that has not failed finds the running secondary with the most room, if that
is more than what it starts with. -/
theorem selectQueue_eq (hfailed : D.failed i = false) (js : List Nat) (sel : Nat × Nat) :
    selectQueue D i js sel = ((roomiest D i js).filter fun j => sel.2 < D.free j).elim sel fun j =>
      ((D.servers j).queue, D.free j) := by
  induction js generalizing sel with
  | nil => rfl
  | cons j js ih =>
    rw [selectQueue]
    by_cases hcan : i ≠ j ∧ D.running j = true
    · rw [if_pos ⟨hcan.1, hfailed, hcan.2⟩, roomiest_cons_of_running hcan.1 hcan.2]
      dsimp only
      split
      case isTrue hlt =>
        rw [ih]
        cases roomiest D i js with
        | none => simp [filter_some, hlt]
        | some c =>
          by_cases hc : D.free j < D.free c
          · simp [filter_some, hc, hlt.trans hc]
          · simp [filter_some, hc, hlt]
      case isFalse hlt =>
        rw [ih]
        cases roomiest D i js with
        | none => simp [filter_some, hlt]
        | some c =>
          by_cases hc : D.free j < D.free c
          · simp [hc]
          · have hle : ¬sel.2 < D.free c := by omega
            simp [filter_some, hc, hlt, hle]
    · rw [if_neg fun h => hcan ⟨h.1, h.2.2⟩, roomiest_cons_of_not_running hcan]
      exact ih sel

theorem mem_secondaries_of_bestSecondary (h : bestSecondary D i = some j) :
    j ∈ (D.servers i).secondaries ∧ D.running j = true ∧ D.free i + 4 * (D.servers i).bsize <
      D.free j := by
  obtain ⟨hbest, hroom⟩ := filter_eq_some_iff.1 h
  obtain ⟨hmem, hcan⟩ := mem_filter.1 (argmax_mem hbest)
  exact ⟨hmem, (of_decide_eq_true hcan).2, of_decide_eq_true hroom⟩

/-- Servers with different room have different queues. -/
theorem Destinations.queue_ne_of_free_lt {n : Nat} (h : D.free i + n < D.free j) :
    (D.servers j).queue ≠ (D.servers i).queue := by
  intro heq
  rw [Destinations.free, Destinations.free, heq] at h
  omega

theorem offloadQueue_of_failed (hfailed : D.failed i = true) (force : Bool) :
    offloadQueue D i force = none := by
  simp [offloadQueue, selectQueue_of_failed hfailed]

/-- Where a server that has not failed offloads to. -/
theorem offloadQueue_eq (hfailed : D.failed i = false) : offloadQueue D i false =
    if queueFreeCritical (D.free i) (D.servers i).toServerState = true then
      (bestSecondary D i).map fun j => (D.servers j).queue
    else none := by
  rw [offloadQueue]
  dsimp only
  rw [selectQueue_eq hfailed, ← bestSecondary]
  cases hbest : bestSecondary D i with
  | none => simp
  | some j =>
    obtain ⟨hmem, -, hroom⟩ := mem_secondaries_of_bestSecondary hbest
    have hne := Destinations.queue_ne_of_free_lt hroom
    simp [hfailed, ne_nil_of_mem hmem, hne]

/-- The queue that takes a metric is the one it is offloaded to, or the server's own. -/
theorem serverSend_queue {d : Text} {force : Bool} {D' : Destinations} {e : SendEvent}
    (h : serverSend D i d force = some (D', e)) :
    (∃ k, offloadQueue D i force = some k ∧ e.queue = some k) ∨
      offloadQueue D i force = none ∧ ∀ k, e.queue = some k → k = (D.servers i).queue := by
  have henq : ∀ {E : Destinations} {k : Nat}, enqueueIn E i d (D.free i) k = some (D', e) →
      e.queue = some k := by
    intro E k h
    rw [enqueueIn] at h
    split at h
    · cases h
    · cases h
      rfl
  rw [serverSend] at h
  dsimp only at h
  split at h
  case h_1 k hk => exact .inl ⟨k, hk, henq h⟩
  case h_2 hnone =>
    refine .inr ⟨hnone, fun k hk => ?_⟩
    split at h
    · split at h
      · exact Option.some.inj (hk.symm.trans (henq h))
      · cases h
        cases hk
    · exact Option.some.inj (hk.symm.trans (henq h))

/-! ## Usable secondaries -/

/-- A server that metrics can be left to. -/
def Usable (D : Destinations) (j : Nat) : Prop := D.running j = true ∧ D.failed j = false

/-- Server `j` has room for more than four batches more than server `i`. -/
def MoreRoom (D : Destinations) (i j : Nat) : Prop :=
  D.free i + 4 * (D.servers i).bsize < D.free j

/-- The call `e` for server `i` leaves a metric to a usable secondary only, and does so if the
server has failed and there is one with more room. -/
structure OffloadsRight (D : Destinations) (i : Nat) (e : SendEvent) : Prop where
  usable : ∀ k ≠ (D.servers i).queue, e.queue = some k →
    ∃ j ∈ (D.servers i).secondaries, (D.servers j).queue = k ∧ Usable D j
  failed : D.failed i = true → (∃ j ∈ (D.servers i).secondaries, Usable D j ∧ MoreRoom D i j) →
    ∃ j ∈ (D.servers i).secondaries, (D.servers j).queue ≠ (D.servers i).queue ∧
      e.queue = some (D.servers j).queue

/-- A failed server has no usable secondary with more room; for one that has not failed and whose
queue is nearly full, the running secondary with the most room, if that is enough, is a usable one.
-/
structure OffloadSafe (D : Destinations) (i : Nat) : Prop where
  failed : D.failed i = true → ∀ j ∈ (D.servers i).secondaries, Usable D j → ¬MoreRoom D i j
  working : D.failed i = false → queueFreeCritical (D.free i) (D.servers i).toServerState = true →
    ∀ j, bestSecondary D i = some j →
      ∃ j' ∈ (D.servers i).secondaries, (D.servers j').queue = (D.servers j).queue ∧ Usable D j'

variable {D' : Destinations} {d : Text} {e : SendEvent}

/-- The metric of a failed server stays with it. -/
theorem offloadsRight_iff_of_failed (hsend : serverSend D i d false = some (D', e))
    (hfailed : D.failed i = true) :
    OffloadsRight D i e ↔ ∀ j ∈ (D.servers i).secondaries, Usable D j → ¬MoreRoom D i j := by
  have hown : ∀ k, e.queue = some k → k = (D.servers i).queue := by
    rcases serverSend_queue hsend with ⟨k, hk, -⟩ | ⟨-, h⟩
    · rw [offloadQueue_of_failed hfailed] at hk
      cases hk
    · exact h
  constructor
  · intro h j hj husable hroom
    obtain ⟨j', -, hne, hj'⟩ := h.failed hfailed ⟨j, hj, husable, hroom⟩
    exact hne (hown _ hj')
  · intro h
    refine ⟨fun k hk he => absurd (hown k he) hk, fun _ ⟨j, hj, husable, hroom⟩ => ?_⟩
    exact absurd hroom (h j hj husable)

/-- The metric of a server that has not failed goes to the best secondary, if the queue is nearly
full. -/
theorem offloadsRight_iff_of_working (hsend : serverSend D i d false = some (D', e))
    (hfailed : D.failed i = false) :
    OffloadsRight D i e ↔ (queueFreeCritical (D.free i) (D.servers i).toServerState = true →
      ∀ j, bestSecondary D i = some j →
        ∃ j' ∈ (D.servers i).secondaries, (D.servers j').queue = (D.servers j).queue ∧
          Usable D j') := by
  have hqueue := serverSend_queue hsend
  rw [offloadQueue_eq hfailed] at hqueue
  constructor
  · intro h hcrit j hbest
    obtain ⟨-, -, hroom⟩ := mem_secondaries_of_bestSecondary hbest
    rw [if_pos hcrit, hbest] at hqueue
    rcases hqueue with ⟨k, hk, he⟩ | ⟨hnone, -⟩
    · cases hk
      exact h.usable _ (Destinations.queue_ne_of_free_lt hroom) he
    · cases hnone
  · intro h
    refine ⟨fun k hk he => ?_, fun hnot => nomatch hfailed.symm.trans hnot⟩
    rcases hqueue with ⟨k', hk', he'⟩ | ⟨-, hown⟩
    · cases he.symm.trans he'
      split at hk'
      case isTrue hcrit =>
        obtain ⟨j, hbest, rfl⟩ := map_eq_some_iff.1 hk'
        exact h hcrit j hbest
      case isFalse => cases hk'
    · exact absurd (hown k he) hk

end

/-- A call of `server_send` offloads as it should if, and only if, it need not ask its secondaries
whether they have failed. -/
theorem offloadsRight_iff {D : Destinations} (hD : DestOK D) (i : Nat) (d : Text) :
    (∃ D' e, serverSend D i d false = some (D', e) ∧ OffloadsRight D i e) ↔ OffloadSafe D i := by
  obtain ⟨D', e, hsend, -⟩ := hD.serverSend i d false
  have hcall : (∃ D' e, serverSend D i d false = some (D', e) ∧ OffloadsRight D i e) ↔
      OffloadsRight D i e := by
    refine ⟨fun ⟨D₁, e₁, h₁, h⟩ => ?_, fun h => ⟨D', e, hsend, h⟩⟩
    cases h₁.symm.trans hsend
    exact h
  rw [hcall]
  cases hfailed : D.failed i with
  | true =>
    rw [offloadsRight_iff_of_failed hsend hfailed]
    exact ⟨fun h => ⟨fun _ => h, fun hnot => nomatch hfailed.symm.trans hnot⟩,
      fun h => h.failed hfailed⟩
  | false =>
    rw [offloadsRight_iff_of_working hsend hfailed]
    exact ⟨fun h => ⟨fun hnot => (nomatch hfailed.symm.trans hnot), fun _ => h⟩,
      fun h => h.working hfailed⟩

/-- Two servers, the second of which is the secondary of the first. The first one has room for one
metric, the second for six. -/
def twoDestinations (failure₀ failure₁ : Nat) : Destinations where
  servers j := if j = 0 then plainDestination 0 failure₀ [1] else plainDestination 1 failure₁ []
  queues k := queueNew (if k = 0 then 1 else 6)

theorem destOK_twoDestinations (failure₀ failure₁ : Nat) :
    DestOK (twoDestinations failure₀ failure₁) := by
  refine ⟨fun k => ⟨[], Queue.represents_queueNew ?_⟩, fun i => ?_, fun i => ?_⟩
  · split <;> decide
  · rw [twoDestinations]
    dsimp only
    split <;> exact Nat.zero_le _
  · rw [twoDestinations]
    dsimp only
    split <;> exact show 1 < 2 ^ serverStallBits by decide

/-- With two servers that work, the metric goes to the second one, which has more room. -/
theorem offloadsRight_working : ∃ D' e, serverSend (twoDestinations 0 0) 0 ['a'] false =
    some (D', e) ∧ e.queue = some 1 ∧ OffloadsRight (twoDestinations 0 0) 0 e := by
  have hsafe : OffloadSafe (twoDestinations 0 0) 0 := by
    refine ⟨nofun, fun _ _ j hj => ?_⟩
    cases hj
    exact ⟨1, mem_singleton_self 1, rfl, rfl, rfl⟩
  obtain ⟨D', e, hsend, h⟩ := (offloadsRight_iff (destOK_twoDestinations 0 0) 0 ['a']).2 hsafe
  have he := congrArg (Option.map fun r => r.2.queue) hsend
  exact ⟨D', e, hsend, (Option.some.inj he).symm, h⟩

/-- A server that works leaves its metric to the second one, which has failed; and one that has
failed keeps its metric, although the second one works and has room. -/
theorem offloads_wrong :
    (∃ D' e, serverSend (twoDestinations 0 1) 0 ['a'] false = some (D', e) ∧ e.queue = some 1 ∧
      (twoDestinations 0 1).failed 1 = true ∧ ¬OffloadsRight (twoDestinations 0 1) 0 e) ∧
    ∃ D' e, serverSend (twoDestinations 1 0) 0 ['a'] false = some (D', e) ∧ e.queue = some 0 ∧
      Usable (twoDestinations 1 0) 1 ∧ MoreRoom (twoDestinations 1 0) 0 1 ∧
      ¬OffloadsRight (twoDestinations 1 0) 0 e := by
  refine ⟨⟨_, _, rfl, rfl, rfl, fun h => ?_⟩, _, _, rfl, rfl, ⟨rfl, rfl⟩, ?_, fun h => ?_⟩
  · obtain ⟨j, hj, -, -, hfailed⟩ := h.usable 1 (by decide) rfl
    cases mem_singleton.1 hj
    cases hfailed
  · exact show 1 + 4 * 1 < 6 by decide
  · obtain ⟨j, hj, -, hqueue⟩ := h.failed rfl ⟨1, mem_singleton_self 1, ⟨rfl, rfl⟩,
      show 1 + 4 * 1 < 6 by decide⟩
    cases mem_singleton.1 hj
    cases hqueue

end CarbonRelay
