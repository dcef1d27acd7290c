import CarbonRelay.Server.Draining

/-!
# What a call of `server_queueread` leaves alone

A call may change the threshold of its own server (`throttled`). Behind that it changes no server
but for the connections and the counters (`serverQueueread_kept`), whatever it meets.
-/

namespace CarbonRelay

open Function

/-- The servers agree, but for connection `n` of server `i` and the counters of dropped and requeued
metrics. -/
def Kept (i n : Nat) (P P' : Pool) : Prop :=
  ∀ j, ∃ conns dropped requeue, P'.servers j = { P.servers j with conns, dropped, requeue } ∧
    ∀ m, j ≠ i ∨ m ≠ n → conns m = (P.servers j).conns m

section
variable {P P' P'' : Pool} {self n qfree : Nat}

theorem Pool.setConn_conns (P : Pool) (i n : Nat) (c : ServerConn) :
    ((P.setConn i n c).servers i).conns n = c := by
  simp [Pool.setConn, Pool.setServer]

theorem Kept.refl (i n : Nat) (P : Pool) : Kept i n P P := fun _ => ⟨_, _, _, rfl, fun _ _ => rfl⟩

theorem Kept.trans {i : Nat} (h : Kept i n P P') (h' : Kept i n P' P'') : Kept i n P P'' := by
  intro j
  obtain ⟨c, d, r, hj, hc⟩ := h j
  obtain ⟨c', d', r', hj', hc'⟩ := h' j
  refine ⟨c', d', r', by rw [hj', hj], fun m hm => ?_⟩
  rw [hc' m hm, hj]
  exact hc m hm

theorem Kept.setConn (self n : Nat) (c : ServerConn) (P : Pool) :
    Kept self n P (P.setConn self n c) := by
  intro j
  rw [Pool.setConn, Pool.setServer]
  dsimp only
  by_cases hj : j = self
  · subst hj
    rw [update_self]
    refine ⟨_, _, _, rfl, fun m hm => ?_⟩
    rw [update_of_ne (hm.resolve_left fun h => h rfl)]
  · rw [update_of_ne hj]
    exact ⟨_, _, _, rfl, fun _ _ => rfl⟩

theorem Kept.counters (self n i dropped requeue : Nat) (P : Pool) :
    Kept self n P (P.setServer i { P.servers i with dropped, requeue }) := by
  intro j
  rw [Pool.setServer]
  dsimp only
  by_cases hj : j = i
  · rw [hj, update_self]
    exact ⟨_, _, _, rfl, fun _ _ => rfl⟩
  · rw [update_of_ne hj]
    exact ⟨_, _, _, rfl, fun _ _ => rfl⟩

theorem Kept.closeIdle (self n : Nat) (st : ReadState) :
    Kept self n st.pool (closeIdle self n st).pool := by
  rw [CarbonRelay.closeIdle]
  dsimp only
  split
  · split
    · exact .setConn self n _ st.pool
    · exact .refl self n st.pool
  · exact .refl self n st.pool

theorem sendFrom_kept {source : Nat} {outs : List SendOutcome} {ret : Int}
    (h : sendFrom self source n outs P = some (P', ret)) : Kept self n P P' := by
  rw [sendFrom] at h
  split at h
  case h_1 => cases h
  case h_2 r hr =>
    cases h
    exact (Kept.setConn self n r.conn P).trans (.counters self n source _ _ _)

theorem sendSecondaries_kept {js : List Nat} {len : Nat} {total : Option Nat}
    {sends rest : List (List SendOutcome)}
    (h : sendSecondaries self n qfree js len sends P = some (P', total, rest)) :
    Kept self n P P' := by
  induction js generalizing len sends P with
  | nil =>
    cases h
    exact .refl self n _
  | cons j js ih =>
    unfold sendSecondaries at h
    split at h
    case isFalse => exact ih h
    case isTrue =>
      split at h
      case h_1 => cases h
      case h_2 outs sends =>
        split at h
        case h_1 => cases h
        case h_2 P₁ ret hsend =>
          dsimp only at h
          split at h
          case isTrue =>
            cases h
            exact sendFrom_kept hsend
          case isFalse =>
            have hcount : Kept self n P₁ (P₁.setServer j
                { P₁.servers j with requeue := (P₁.servers j).requeue + ret.toNat }) :=
              .counters self n j _ _ P₁
            exact ((sendFrom_kept hsend).trans hcount).trans (ih h)

theorem sendOwn_kept {sends rest : List (List SendOutcome)} {ret : Int}
    (h : sendOwn self n qfree sends P = some (P', ret, rest)) : Kept self n P P' := by
  unfold sendOwn at h
  split at h
  case isFalse =>
    cases h
    exact .refl self n P
  case isTrue =>
    split at h
    case h_1 => cases h
    case h_2 outs sends =>
      obtain ⟨⟨P₁, ret₁⟩, hsend, hr⟩ := Option.map_eq_some_iff.1 h
      cases hr
      exact sendFrom_kept hsend

variable {q : Queueread}

theorem sendAll_kept {sends : List (List SendOutcome)} {st : ReadState}
    (h : sendAll self n qfree sends st = some q) : Kept self n st.pool q.pool := by
  rw [sendAll] at h
  split at h
  case h_1 => cases h
  case h_2 P₁ len sends₁ hown =>
    have hkept := sendOwn_kept hown
    split at h
    case isTrue =>
      split at h
      case isFalse => cases h
      case isTrue =>
        cases h
        exact hkept
    case isFalse =>
      dsimp only at h
      split at h
      case h_2 => cases h
      case h_1 P₂ total hsec =>
        cases h
        split at hsec
        case isTrue => exact hkept.trans (sendSecondaries_kept hsec)
        case isFalse =>
          cases hsec
          exact hkept

theorem connectAndSend_kept {io : ReadIO} {st : ReadState}
    (h : connectAndSend self n qfree io st = some q) : Kept self n st.pool q.pool := by
  rw [connectAndSend] at h
  dsimp only at h
  split at h
  case isFalse => exact sendAll_kept h
  case isTrue =>
    have hconn := Kept.setConn self n (readerConnect ((st.pool.servers self).conns n) io.connect).1
      st.pool
    split at h
    case isTrue => exact hconn.trans (sendAll_kept h)
    case isFalse =>
      split at h
      case isFalse => cases h
      case isTrue =>
        cases h
        exact hconn

theorem throttled_servers_ne {self j : Nat} (h : j ≠ self) :
    (throttled P self).servers j = P.servers j := by
  rw [throttled]
  split
  · exact update_of_ne h _ _
  · rfl

theorem serverQueueread_kept {shutdown : KeepRunning} {idle : Nat} {io : ReadIO}
    (h : serverQueueread self n shutdown idle io P = some q) :
    Kept self n (throttled P self) q.pool := by
  have hidle := Kept.closeIdle self n ⟨throttled P self, idle, 0⟩
  rw [serverQueueread_eq] at h
  dsimp only at h
  split at h
  case isTrue =>
    cases h
    exact hidle
  case isFalse =>
    split at h
    case isTrue =>
      split at h
      case isTrue =>
        cases h
        exact hidle
      case isFalse => exact hidle.trans (connectAndSend_kept h)
    case isFalse => exact connectAndSend_kept h

end

end CarbonRelay
