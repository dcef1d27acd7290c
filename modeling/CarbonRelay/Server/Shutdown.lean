import CarbonRelay.Server.Draining
import CarbonRelay.Server.Conservation

/-!
# Leaving the loop of a reader at shutdown

A reader that is told to stop should leave its loop only when its time is up, its last call of
`server_queueread` failed, or its own queue and those of its secondaries are empty. Whether the call
fails is decided by the outcomes it meets (`Fails`), and how full the queues are after one that does
not fail by the numbers of metrics before it: it takes one batch of the own queue, and one for each
secondary that is in trouble and fuller than the own queue (`Lowered`). The reader of a server
without secondaries leaves after one such call; with secondaries, a queue that is at most half full
counts as empty. `exits_justified_iff` gives the states in which a pass leaves the loop rightly.
-/

namespace CarbonRelay

open Function List Option

/-! ## How far the levels fall -/

section
variable {self qfree : Nat} {P P' : Pool}

/-- A secondary whose queue has `l` metrics is read from: its queue has less room than the own one
had, and less than its threshold, or it failed. -/
def ReadsAt (P : Pool) (self qfree j l : Nat) : Prop :=
  let sqfree := queueSize (P.queueOf j) - l
  self ≠ j ∧ sqfree < qfree ∧
    (queueFreeCritical sqfree (P.servers j) = true ∨ serverFailed (P.servers j) ≠ 0)

/-- Some of the servers `js`, in their order, hold the queue `k` and are read from at the levels it
has then, and their batches bring it from `l` metrics to `target` at most. -/
def Lowered (P : Pool) (self qfree k target : Nat) : Nat → List Nat → Prop
  | l, [] => l ≤ target
  | l, j :: js =>
    l ≤ target ∨ Lowered P self qfree k target l js ∨
      ((P.servers j).queue = k ∧ ReadsAt P self qfree j l ∧
        Lowered P self qfree k target (l - (P.servers self).bsize) js)

/-- With a queue of its own for every secondary, one batch has to do. -/
theorem lowered_iff_of_nodup {k target l : Nat} {js : List Nat}
    (hnodup : (js.map fun j => (P.servers j).queue).Nodup) :
    Lowered P self qfree k target l js ↔ l ≤ target ∨
      (l ≤ target + (P.servers self).bsize ∧
        ∃ j ∈ js, (P.servers j).queue = k ∧ ReadsAt P self qfree j l) := by
  have hfree : ∀ {l js}, k ∉ (js.map fun j => (P.servers j).queue) →
      (Lowered P self qfree k target l js ↔ l ≤ target) := by
    intro l js hk
    induction js with
    | nil => exact Iff.rfl
    | cons j js ih =>
      rw [map_cons, mem_cons, not_or] at hk
      rw [Lowered, ih hk.2, or_iff_left_of_imp]
      rintro (h | ⟨hq, -⟩)
      · exact h
      · exact absurd hq.symm hk.1
  induction js with
  | nil => simp [Lowered]
  | cons j js ih =>
    rw [map_cons, nodup_cons] at hnodup
    have hrest := ih hnodup.2
    simp only [Lowered, hrest, exists_mem_cons_iff]
    by_cases hk : (P.servers j).queue = k
    · subst hk
      have hother : ∀ i ∈ js, (P.servers i).queue ≠ (P.servers j).queue :=
        fun i hi heq => hnodup.1 (heq ▸ mem_map_of_mem hi)
      rw [hfree hnodup.1, Nat.sub_le_iff_le_add]
      grind
    · grind

/-- A batch more is no loss. -/
theorem Lowered.less {k target l : Nat} {js : List Nat} (h : Lowered P self qfree k target l js) :
    Lowered P self qfree k target (l - (P.servers self).bsize) js := by
  induction js generalizing l with
  | nil => exact (Nat.sub_le ..).trans h
  | cons j js ih =>
    rcases h with h | h | ⟨-, -, h⟩
    · exact .inl ((Nat.sub_le ..).trans h)
    · exact .inr (.inl (ih h))
    · exact .inr (.inl h)

theorem secondaryLevels_le (js : List Nat) (L : Nat → Nat) (k : Nat) :
    secondaryLevels P self qfree js L k ≤ L k := by
  induction js generalizing L with
  | nil => exact le_refl _
  | cons j js ih =>
    rw [secondaryLevels]
    split
    · refine (ih _).trans ?_
      rw [takeBatch]
      by_cases hk : k = (P.servers j).queue
      · subst hk
        rw [update_self]
        exact Nat.sub_le ..
      · rw [update_of_ne hk]
    · exact ih L

/-- The walk over the secondaries reads as early as it can, which lowers the level as far as
possible. -/
theorem secondaryLevels_le_iff {k target : Nat} (js : List Nat) (L : Nat → Nat) :
    secondaryLevels P self qfree js L k ≤ target ↔ Lowered P self qfree k target (L k) js := by
  induction js generalizing L with
  | nil => exact Iff.rfl
  | cons j js ih =>
    have hreadsAt : readsFromAt P L self qfree j = true ↔
        ReadsAt P self qfree j (L (P.servers j).queue) := by
      rw [readsFromAt, decide_eq_true_iff]
      rfl
    have hle : L k ≤ target → secondaryLevels P self qfree (j :: js) L k ≤ target :=
      (secondaryLevels_le ..).trans
    rw [Lowered]
    by_cases hreads : readsFromAt P L self qfree j = true
    · rw [secondaryLevels, if_pos hreads] at hle ⊢
      rw [ih] at hle ⊢
      by_cases hk : (P.servers j).queue = k
      · subst hk
        rw [takeBatch, update_self] at hle ⊢
        constructor
        · exact fun h => .inr (.inr ⟨rfl, hreadsAt.1 hreads, h⟩)
        · rintro (h | h | ⟨-, -, h⟩)
          · exact hle h
          · exact h.less
          · exact h
      · rw [takeBatch, update_of_ne (Ne.symm hk)] at hle ⊢
        constructor
        · exact fun h => .inr (.inl h)
        · rintro (h | h | ⟨hq, -⟩)
          · exact hle h
          · exact h
          · exact absurd hq hk
    · rw [secondaryLevels, if_neg hreads] at hle ⊢
      rw [ih] at hle ⊢
      constructor
      · exact fun h => .inr (.inl h)
      · rintro (h | h | ⟨hq, hreads', -⟩)
        · exact hle h
        · exact h
        · subst hq
          exact absurd (hreadsAt.2 hreads') hreads

/-- A reader that is told to stop gets to sending: it does not leave the queue to others, and there
is something in its own queue or a secondary that is more than half full. -/
def Works (P : Pool) (self : Nat) : Prop :=
  ¬ LeavesToOthers P self ∧
    ¬ (queueFree (P.queueOf self) = queueSize (P.queueOf self) ∧ nothingToDo P self .stop = true)

instance (P : Pool) (self : Nat) : Decidable (Works P self) := inferInstanceAs (Decidable (_ ∧ _))

/-- The level of a queue behind the batch of the own queue, if that is sent. -/
def ownLevel (P : Pool) (self k : Nat) : Nat :=
  if Works P self ∧ queueFree (P.queueOf self) < queueSize (P.queueOf self) then
    takeBatch P self (P.servers self).queue P.levels k
  else P.levels k

/-- The secondaries that are walked over. -/
def walked (P : Pool) (self : Nat) : List Nat :=
  if Works P self ∧ (P.servers self).sharedQueue = false then (P.servers self).secondaries else []

/-- A call that does not fail leaves at most `target` metrics in the queue `k`. -/
def LoweredTo (P : Pool) (self k target : Nat) : Prop :=
  Lowered P self (queueFree (P.queueOf self)) k target (ownLevel P self k) (walked P self)

theorem levelsAfter_eq : levelsAfter P self = secondaryLevels P self (queueFree (P.queueOf self))
    (walked P self) (ownLevel P self) := by
  rw [levelsAfter, roomAt_levels]
  dsimp only [sentLevels]
  by_cases hworks : Works P self
  · have hown : ownLevel P self =
        if queueFree (P.queueOf self) < queueSize (P.queueOf self) then
          takeBatch P self (P.servers self).queue P.levels
        else P.levels := by
      funext k
      rw [ownLevel]
      split_ifs <;> tauto
    have hleaves := hworks.1
    unfold LeavesToOthers at hleaves
    have hwalked : walked P self =
        if (P.servers self).sharedQueue = false ∧ (P.servers self).secondaries ≠ [] then
          (P.servers self).secondaries
        else [] := by
      rw [walked]
      split_ifs <;> simp_all
    rw [if_neg hleaves, if_neg hworks.2, ← hown, hwalked]
    split_ifs
    · rfl
    · rfl
  · have hown : ownLevel P self = P.levels := by
      funext k
      rw [ownLevel, if_neg fun h => hworks h.1]
    have hwalked : walked P self = [] := if_neg fun h => hworks h.1
    rw [hwalked, secondaryLevels, hown]
    by_cases hleaves : LeavesToOthers P self
    · exact if_pos hleaves
    · have hnothing : queueFree (P.queueOf self) = queueSize (P.queueOf self) ∧
          nothingToDo P self .stop = true := not_not.1 fun h => hworks ⟨hleaves, h⟩
      unfold LeavesToOthers at hleaves
      rw [if_neg hleaves, if_pos hnothing]

theorem levelsAfter_le_iff {k target : Nat} :
    levelsAfter P self k ≤ target ↔ LoweredTo P self k target := by
  rw [levelsAfter_eq, secondaryLevels_le_iff]
  rfl

/-! ## Leaving the loop -/

/-- A reader that was told to stop left rightly. -/
def ReaderExit.Justified : ReaderExit → Prop
  | .forced => True
  | .stopped elapsed ret waiting => elapsed = true ∨ ret < 0 ∨ ∀ l ∈ waiting, l = 0

/-- A pass whose call does not fail leaves the reader in its loop, since another secondary is alive
or stays more than half full, or brings its own queue and those of its secondaries to no metrics. -/
def StaysOrDrains (P : Pool) (self : Nat) : Prop :=
  (∃ j ∈ (P.servers self).secondaries, self ≠ j ∧
    (serverAlive (P.servers j) = true ∨
      ¬ LoweredTo P self (P.servers j).queue (queueSize (P.queueOf j) / 2))) ∨
  ∀ j ∈ self :: (P.servers self).secondaries, LoweredTo P self (P.servers j).queue 0

/-- A server without secondaries is drained by one call exactly if its queue holds one batch at
most. -/
theorem staysOrDrains_alone_iff (hnone : (P.servers self).secondaries = [])
    (hq : queueLen (P.queueOf self) ≤ queueSize (P.queueOf self)) :
    StaysOrDrains P self ↔ queueLen (P.queueOf self) ≤ (P.servers self).bsize := by
  have hlevel : P.levels (P.servers self).queue = queueLen (P.queueOf self) := rfl
  have hnothing : nothingToDo P self .stop = true := by simp [nothingToDo, hnone]
  have hwalked : walked P self = [] := by rw [walked, hnone, ite_self]
  have hroom : queueFree (P.queueOf self) < queueSize (P.queueOf self) ↔
      queueLen (P.queueOf self) ≠ 0 := by
    rw [queueFree, queueSize] at *
    omega
  have hworks : Works P self ↔ queueLen (P.queueOf self) ≠ 0 := by
    have hleaves : ¬ LeavesToOthers P self := fun h => h.1 hnone
    have hempty : queueFree (P.queueOf self) = queueSize (P.queueOf self) ↔
        ¬ queueFree (P.queueOf self) < queueSize (P.queueOf self) := by
      rw [queueFree, queueSize]
      omega
    rw [Works, ← hroom, hnothing, hempty]
    tauto
  have hown : ownLevel P self (P.servers self).queue =
      queueLen (P.queueOf self) - (P.servers self).bsize := by
    rw [ownLevel, takeBatch, update_self, hlevel]
    split_ifs with h
    · rfl
    · have hzero : queueLen (P.queueOf self) = 0 :=
        not_not.1 fun hne => h ⟨hworks.2 hne, hroom.2 hne⟩
      rw [hzero, Nat.zero_sub]
  simp [StaysOrDrains, hnone, LoweredTo, hwalked, Lowered, hown, Nat.sub_eq_zero_iff_le]

theorem Frame.mayLeave_iff (h : Frame self P P') (hlevels : P'.levels = levelsAfter P self) :
    mayLeave P' self = true ↔ ¬ ∃ j ∈ (P.servers self).secondaries, self ≠ j ∧
      (CarbonRelay.serverAlive (P.servers j) = true ∨
        ¬ LoweredTo P self (P.servers j).queue (queueSize (P.queueOf j) / 2)) := by
  have hhalf : ∀ j, overHalf (P'.queueOf j) = false ↔
      LoweredTo P self (P.servers j).queue (queueSize (P.queueOf j) / 2) := by
    intro j
    have hlen : queueLen (P'.queueOf j) = levelsAfter P self (P.servers j).queue := by
      rw [← hlevels, ← h.queue]
      rfl
    have hsize : queueSize (P'.queueOf j) = queueSize (P.queueOf j) := by
      rw [Pool.queueOf, h.queue, h.size, Pool.queueOf]
    rw [← levelsAfter_le_iff, ← hlen, ← hsize, overHalf, decide_eq_false_iff_not, queueFree,
      queueSize]
    omega
  simp only [not_exists, not_and, not_or, not_not, Bool.not_eq_true, ← hhalf]
  rw [mayLeave, decide_eq_true_iff, h.secondaries, or_iff_right_of_imp]
  · refine forall₃_congr fun j _ hj => ?_
    rw [h.serverAlive hj, and_comm]
  · intro hnone j hj
    rw [hnone] at hj
    exact absurd hj not_mem_nil

theorem Frame.waiting_iff (h : Frame self P P') (hlevels : P'.levels = levelsAfter P self) :
    (∀ l ∈ waiting P' self, l = 0) ↔
      ∀ j ∈ self :: (P.servers self).secondaries, LoweredTo P self (P.servers j).queue 0 := by
  rw [waiting, List.forall_mem_map, h.secondaries]
  refine forall₂_congr fun j _ => ?_
  rw [← levelsAfter_le_iff, ← hlevels, ← h.queue, Nat.le_zero]
  rfl

end

/-! ## Calls that fail -/

/-- The outcomes with which `server_queuesend` returns -1: the connection is not ready at first, or
the last outcome is one that closes it, or the flush at the end of the batch failed. -/
def Broken (outs : List SendOutcome) : Prop :=
  outs.head? ≠ some (.poll .ready) ∨
    match outs.tail.reverse with
    | .flush false :: .poll _ :: _ => True
    | last :: _ => last.closes = true
    | [] => False

section
variable {used : List SendOutcome} {c : SendCounts} {st st' : SendState}

theorem broken_of_closes {last : SendOutcome} (h : last.closes = true) :
    Broken (.poll .ready :: (used ++ [last])) := by
  refine .inr ?_
  rw [tail_cons, reverse_append, reverse_singleton, singleton_append]
  cases last with
  | flush ok => cases h
  | poll o => exact h
  | write o => exact h

theorem not_broken {last : SendOutcome} (h : last.closes = false)
    (hflush : last = .flush false → ∃ o before, used = before ++ [.write o]) :
    ¬ Broken (.poll .ready :: (used ++ [last])) := by
  rintro (hhead | hlast)
  · exact hhead rfl
  rw [tail_cons, reverse_append, reverse_singleton, singleton_append] at hlast
  have hopen : ¬ last.closes = true := by simp [h]
  cases last with
  | poll o => exact hopen hlast
  | write o => exact hopen hlast
  | flush ok =>
    cases ok with
    | true => exact hopen hlast
    | false =>
      obtain ⟨o, before, rfl⟩ := hflush rfl
      rw [reverse_append, reverse_singleton, singleton_append] at hlast
      exact hopen hlast

/-- The flush at the end of a batch closes the connection exactly if the outcomes say so. -/
theorem finalFlush_closes_iff (used : List SendOutcome) (hlt : c.flushed < c.total)
    (hfd : 0 < st.conn.fd) (h : finalFlush c st = some st') (hnil : st'.outs = []) :
    st'.conn.fd < 0 ↔ Broken (.poll .ready :: (used ++ st.outs)) := by
  obtain ⟨houts, hfd', -⟩ | ⟨o, ho, houts, hfd', -⟩ | ⟨houts, hfd', -⟩ := finalFlush_cases hlt hfd h
  · have hopen := @not_broken (used ++ [.poll .ready]) (.flush true) rfl (fun heq => by cases heq)
    rw [append_assoc] at hopen
    rw [houts, hnil]
    exact iff_of_false (by omega) hopen
  · have hopen := @not_broken used (.poll o)
      (by rcases ho with rfl | rfl <;> rfl) (fun heq => by cases heq)
    rw [houts, hnil]
    exact iff_of_false (by omega) hopen
  · refine iff_of_true (by omega) ?_
    rcases houts with houts | ⟨o, ho, houts⟩
    · rw [houts, hnil]
      exact .inr (by simp)
    · rw [houts, hnil]
      exact broken_of_closes (by rcases ho with rfl | rfl <;> rfl)

/-- The loop and the flush behind it close the connection exactly if the outcomes say so. -/
theorem sendLoop_closes_iff {batch : List Text} {st₁ : SendState} (hops : st.ops = [])
    (hfd : 0 < st.conn.fd) (hloop : sendLoop batch ⟨0, 0, 0⟩ st = some (c, st₁))
    (hflush : finalFlush c st₁ = some st') (hnil : st'.outs = []) :
    st'.conn.fd < 0 ↔ Broken (.poll .ready :: st.outs) := by
  have hstart : Sending [] ⟨0, 0, 0⟩ st.ops := ⟨rfl, rfl, by rw [hops]; rfl⟩
  have hskip : ¬ c.flushed < c.total → st' = st₁ := fun hnlt => by
    rw [finalFlush, if_neg hnlt] at hflush
    exact (Option.some.inj hflush).symm
  cases sendLoop_exit hstart hfd hloop with
  | complete used houts hs hfd₁ hsended =>
    rw [houts]
    by_cases hlt : c.flushed < c.total
    · exact finalFlush_closes_iff used hlt hfd₁ hflush hnil
    · obtain rfl := hskip hlt
      rcases hsended with ⟨-, -, rfl⟩ | hpos
      · rw [hnil]
        exact iff_of_false (by omega) (by simp [Broken])
      · exact absurd (by have := hs.flushed_add; omega) hlt
  | closed used last houts hlast hfd₁ =>
    rw [finalFlush_closed hfd₁] at hflush
    cases hflush
    rw [houts, hnil]
    exact iff_of_true (by omega) (broken_of_closes hlast)
  | flushFailed used written houts hs hfd₁ =>
    rw [houts]
    by_cases hlt : c.flushed < c.total
    · have hiff := finalFlush_closes_iff (used ++ [.write .enobufs, .flush false]) hlt hfd₁
        hflush hnil
      rw [append_assoc] at hiff
      exact hiff
    · obtain rfl := hskip hlt
      have hopen := @not_broken (used ++ [.write .enobufs]) (.flush false) rfl fun _ =>
        ⟨_, used, rfl⟩
      rw [append_assoc] at hopen
      rw [hnil]
      exact iff_of_false (by omega) hopen
  | hungUp used o ho written houts hs hfd₁ hflushed =>
    obtain rfl := hskip (by omega)
    rw [houts, hnil]
    refine iff_of_false (by omega) (not_broken ?_ fun heq => by cases heq)
    rcases ho with rfl | rfl <;> rfl

theorem serverQueuesend_fails_iff {conn : ServerConn} {bsize dropped : Nat} {squeue : Queue Text}
    {outs : List SendOutcome} {r : SendResult}
    (h : serverQueuesend conn bsize squeue dropped outs = some r) : r.ret < 0 ↔ Broken outs := by
  cases serverQueuesend_path h with
  | unready _ _ _ _ _ _ _ hhead hret =>
    rw [hret]
    exact iff_of_true (by decide) (.inl hhead)
  | empty squeue' hfd houts hvector hr =>
    rw [hr, houts]
    exact iff_of_false (lt_irrefl 0) (by simp [Broken])
  | batch squeue' vector outs' c st₁ st₂ hfd houts hvector hne hloop hflush hnil hfinish =>
    have hret : r.ret < 0 ↔ st₂.conn.fd < 0 := by
      rw [finishBatch] at hfinish
      split at hfinish
      case isTrue hopen =>
        cases hfinish
        exact iff_of_false (by simp) (by omega)
      case isFalse hclosed =>
        obtain ⟨lost, -, hfinish⟩ := bind_eq_some_iff.1 hfinish
        cases hfinish
        exact iff_of_true (not_le.1 neg_one_not_nonneg) (by omega)
    rw [hret, houts]
    exact sendLoop_closes_iff rfl hfd hloop hflush hnil

end

section
variable {self n qfree idle : Nat} {P P' : Pool} {sends rest : List (List SendOutcome)}

theorem sendFrom_fails_iff {source : Nat} {outs : List SendOutcome} {ret : Int}
    (h : sendFrom self source n outs P = some (P', ret)) : ret < 0 ↔ Broken outs := by
  rw [sendFrom] at h
  split at h
  case h_1 => cases h
  case h_2 r hr =>
    cases h
    exact serverQueuesend_fails_iff hr

theorem sendSecondaries_fails_iff {js : List Nat} {len : Nat} {total : Option Nat}
    (h : sendSecondaries self n qfree js len sends P = some (P', total, rest)) :
    ∃ used, sends = used ++ rest ∧ (total = none ↔ ∃ outs ∈ used, Broken outs) := by
  induction js generalizing len sends P with
  | nil => cases h; exact ⟨[], rfl, by simp⟩
  | cons j js ih =>
    unfold sendSecondaries at h
    split at h
    case isFalse => exact ih h
    case isTrue =>
      split at h
      case h_1 => cases h
      case h_2 outs sends =>
        split at h
        case h_1 => cases h
        case h_2 P₁ ret hsend =>
          have hfails := sendFrom_fails_iff hsend
          dsimp only at h
          split at h
          case isTrue hret =>
            cases h
            exact ⟨[outs], rfl, iff_of_true rfl ⟨outs, mem_singleton_self outs, hfails.1 hret⟩⟩
          case isFalse hret =>
            obtain ⟨used, rfl, hnone⟩ := ih h
            exact ⟨outs :: used, rfl, by simpa [mt hfails.2 hret] using hnone⟩

theorem sendOwn_fails_iff {len : Int} (h : sendOwn self n qfree sends P = some (P', len, rest)) :
    ∃ used, sends = used ++ rest ∧ (len < 0 ↔ ∃ outs ∈ used, Broken outs) := by
  unfold sendOwn at h
  split at h
  case isFalse => cases h; exact ⟨[], rfl, by simp⟩
  case isTrue =>
    split at h
    case h_1 => cases h
    case h_2 outs sends =>
      obtain ⟨⟨P₁, ret⟩, hsend, heq⟩ := map_eq_some_iff.1 h
      cases heq
      exact ⟨[outs], rfl, by simpa using sendFrom_fails_iff hsend⟩

theorem sendAll_fails_iff {st : ReadState} {q : Queueread}
    (h : sendAll self n qfree sends st = some q) : q.ret < 0 ↔ ∃ outs ∈ sends, Broken outs := by
  rw [sendAll] at h
  split at h
  case h_1 => cases h
  case h_2 P₁ len sends₁ hsend =>
    obtain ⟨used, rfl, hlen⟩ := sendOwn_fails_iff hsend
    split at h
    case isTrue hneg =>
      split at h
      case isFalse => cases h
      case isTrue hnil =>
        cases h
        rw [hnil, append_nil]
        exact iff_of_true (not_le.1 neg_one_not_nonneg) (hlen.1 hneg)
    case isFalse hneg =>
      have hused := mt hlen.2 hneg
      dsimp only at h
      split at h
      case h_2 => cases h
      case h_1 P₂ total hsec =>
        cases h
        have htotal : total = none ↔ ∃ outs ∈ sends₁, Broken outs := by
          split at hsec
          case isTrue =>
            obtain ⟨used', heq, hnone⟩ := sendSecondaries_fails_iff hsec
            rw [heq, append_nil]
            exact hnone
          case isFalse => cases hsec; simp
        have hret : (total.elim (-1) Nat.cast : Int) < 0 ↔ total = none := by
          cases total <;> simp
        rw [hret, htotal]
        simp only [mem_append, or_and_right, exists_or]
        exact (or_iff_right hused).symm

/-- The connection is closed when a call that works gets to it, by then or since it was idle for
long. -/
def Reconnects (P : Pool) (self n idle : Nat) : Prop :=
  ((P.servers self).conns n).fd < 0 ∨
    (queueFree (P.queueOf self) = queueSize (P.queueOf self) ∧ (P.servers self).ctype = .tcp ∧
      disconnectWaitTime < idle)

/-- The outcomes with which `server_queueread` returns -1: it has something to do and cannot
connect, or one of its calls of `server_queuesend` breaks. -/
def Fails (P : Pool) (self n idle : Nat) (io : ReadIO) : Prop :=
  Works P self ∧
    ((Reconnects P self n idle ∧ ∀ fd, io.connect = .connected fd → fd % 256 = 255) ∨
      ∃ outs ∈ io.sends, Broken outs)

theorem connectAndSend_fails_iff {io : ReadIO} {st : ReadState} {q : Queueread}
    (h : connectAndSend self n qfree io st = some q) :
    q.ret < 0 ↔ (((st.pool.servers self).conns n).fd < 0 ∧
        ∀ fd, io.connect = .connected fd → fd % 256 = 255) ∨
      ∃ outs ∈ io.sends, Broken outs := by
  have hconnect : ∀ c, (readerConnect c io.connect).2 = true ↔
      ¬ ∀ fd, io.connect = .connected fd → fd % 256 = 255 := by
    intro c
    cases io.connect <;> simp [readerConnect]
  rw [connectAndSend] at h
  dsimp only at h
  split at h
  case isFalse hopen =>
    rw [sendAll_fails_iff h, or_iff_right fun hc => hopen hc.1]
  case isTrue hclosed =>
    split at h
    case isTrue hok =>
      rw [sendAll_fails_iff h, or_iff_right fun hc => (hconnect _).1 hok hc.2]
    case isFalse hfailed =>
      split at h
      case isFalse => cases h
      case isTrue =>
        cases h
        refine iff_of_true (not_le.1 neg_one_not_nonneg) (.inl ⟨hclosed, ?_⟩)
        exact not_not.1 (mt (hconnect _).2 hfailed)

theorem closeIdle_reconnects_iff
    (hempty : queueFree (P.queueOf self) = queueSize (P.queueOf self)) :
    (((closeIdle self n ⟨throttled P self, idle, 0⟩).pool.servers self).conns n).fd < 0 ↔
      Reconnects P self n idle := by
  obtain ⟨t, ht⟩ := exists_throttled_eq P self
  rw [closeIdle, Reconnects]
  dsimp only
  rw [ht]
  dsimp only
  have hother : ∀ c : ServerConn, ((((throttled P self).setConn self n c).servers self).conns n) =
      c := by
    intro c
    simp [Pool.setConn, Pool.setServer]
  split_ifs with htcp hidle
  · rw [hother]
    exact iff_of_true (by simp) (.inr ⟨hempty, htcp.1, hidle⟩)
  · rw [ht]
    exact (or_iff_left fun hc => hidle hc.2.2).symm
  · rw [ht]
    refine (or_iff_left_of_imp fun hc => ?_).symm
    exact not_le.1 fun hopen => htcp ⟨hc.2.1, hopen⟩

theorem serverQueueread_fails_iff {io : ReadIO} {q : Queueread}
    (h : serverQueueread self n .stop idle io P = some q) : q.ret < 0 ↔ Fails P self n idle io := by
  rw [serverQueueread_eq] at h
  dsimp only at h
  split at h
  case isTrue hleaves =>
    cases h
    exact iff_of_false (lt_irrefl 0) fun hfails => hfails.1.1 hleaves
  case isFalse hleaves =>
    split at h
    case isTrue hempty =>
      split at h
      case isTrue hnothing =>
        cases h
        exact iff_of_false (lt_irrefl 0) fun hfails => hfails.1.2 ⟨hempty, hnothing⟩
      case isFalse hnothing =>
        have hworks : Works P self := ⟨hleaves, fun hboth => hnothing hboth.2⟩
        rw [connectAndSend_fails_iff h, closeIdle_reconnects_iff hempty, Fails]
        exact (and_iff_right hworks).symm
    case isFalse hroom =>
      have hworks : Works P self := ⟨hleaves, fun hboth => hroom hboth.1⟩
      obtain ⟨t, ht⟩ := exists_throttled_eq P self
      have hfd : (((throttled P self).servers self).conns n).fd < 0 ↔ Reconnects P self n idle := by
        rw [ht, Reconnects, or_iff_left fun hidle => hroom hidle.1]
      rw [connectAndSend_fails_iff h, hfd, Fails]
      exact (and_iff_right hworks).symm

end

/-- A pass of a reader that is told to stop, made in time, with outcomes that do not make its call
fail, leaves the reader in its loop or the queues empty. -/
def DrainsInTime (timeout : Int) (S : Readers) : ReadersStep → Prop
  | .pass self n inp =>
    let r := readerSees .stop inp.now (S.reader self n)
    (S.reader self n).running = true → (S.pool.servers self).keepRunning = .stop →
      inp.ended - r.started < timeout → ¬ Fails S.pool self n r.idle inp.io →
      StaysOrDrains S.pool self
  | _ => True

/-- One pass of a reader. -/
theorem readerPass_justified {timeout : Int} {self n : Nat} {inp : PassInput} {S S' : Readers}
    {es : List ReaderExit} (hrunning : (S.reader self n).running = true)
    (h : readerPass timeout self n inp S = some (S', es)) :
    (∀ e ∈ es, e.Justified) ↔ DrainsInTime timeout S (.pass self n inp) := by
  rw [readerPass] at h
  dsimp only at h
  split at h
  case isTrue hforce =>
    cases h
    refine iff_of_true ?_ fun _ hstop => ?_
    · exact forall_mem_singleton.2 trivial
    · rw [hforce] at hstop
      cases hstop
  case isFalse =>
    split at h
    case h_1 => cases h
    case h_2 q hq =>
      split at h
      case isFalse hrun =>
        cases h
        exact iff_of_true nofun fun _ hstop => absurd hstop hrun
      case isTrue hstop =>
        rw [hstop] at h hq
        split at h
        case isTrue helapsed =>
          cases h
          refine iff_of_true (forall_mem_singleton.2 (.inl rfl)) fun _ _ htime => ?_
          exact absurd helapsed (not_le.2 htime)
        case isFalse helapsed =>
          have hiff : DrainsInTime timeout S (.pass self n inp) ↔
              (0 ≤ q.ret → StaysOrDrains S.pool self) := by
            rw [← not_lt, serverQueueread_fails_iff hq]
            exact ⟨fun hd => hd hrunning hstop (not_le.1 helapsed), fun hd _ _ _ => hd⟩
          rw [hiff]
          by_cases hret : 0 ≤ q.ret
          · obtain ⟨hframe, hlevels⟩ := serverQueueread_levels hq hret
            have hframe' := hframe.trans (.setConn self n
              { (q.pool.servers self).conns n with alive := q.ret ≠ 0 } q.pool)
            have hleave := hframe'.mayLeave_iff hlevels
            split at h
            case isTrue hmay =>
              cases h
              rw [forall_mem_singleton, ReaderExit.Justified, hframe'.waiting_iff hlevels]
              have hnot := hleave.1 hmay
              constructor
              · rintro (helapsed | hfailed | hdrains) -
                · cases helapsed
                · exact absurd hret (not_le.2 hfailed)
                · exact .inr hdrains
              · exact fun hd => .inr (.inr ((hd hret).resolve_left hnot))
            case isFalse hmay =>
              cases h
              refine iff_of_true nofun fun _ => .inl ?_
              exact not_not.1 fun hnot => hmay (hleave.2 hnot)
          · split at h
            case isTrue =>
              cases h
              refine iff_of_true (forall_mem_singleton.2 (.inr (.inl ?_))) fun h => absurd h hret
              exact not_le.1 hret
            case isFalse =>
              cases h
              exact iff_of_true nofun fun h => absurd h hret

/-- One step of the system. -/
theorem readersStep_justified {timeout : Int} {S S' : Readers} {a : ReadersStep}
    {es : List ReaderExit} (h : readersStep timeout S a = some (S', es)) :
    (∀ e ∈ es, e.Justified) ↔ DrainsInTime timeout S a := by
  have hnil : ∀ e ∈ ([] : List ReaderExit), e.Justified := nofun
  cases a with
  | enter self n now => cases h; exact iff_of_true hnil trivial
  | pass self n inp =>
    rw [readersStep] at h
    split at h
    case isTrue hrunning => exact readerPass_justified hrunning h
    case isFalse hrunning =>
      cases h
      exact iff_of_true hnil fun hrun => absurd hrun hrunning
  | enqueue k m =>
    rw [readersStep] at h
    split at h
    case h_1 => cases h
    case h_2 => cases h; exact iff_of_true hnil trivial
  | shutdown i swap => cases h; exact iff_of_true hnil trivial

/-- In every run of servers and readers, from any state, each reader that was told to stop leaves
its loop only when its time is up, its last call failed or all queues are empty, exactly if every
pass that is made in time by such a reader, and whose call does not fail, drains the queues or
leaves the reader in its loop. -/
theorem exits_justified_iff {timeout : Int} {S S' : Readers} {steps : List ReadersStep}
    {log : List (List ReaderExit)}
    (hrun : Machine.run (readersStep timeout) S steps = some (S', log)) :
    (∀ e ∈ log.flatten, e.Justified) ↔
      Machine.Along (readersStep timeout) (DrainsInTime timeout) S steps := by
  exact Machine.run_exact (I := fun _ => True)
    (fun S a S' es _ h => ⟨readersStep_justified h, fun _ => trivial⟩) trivial hrun

/-- Servers without secondaries that send one metric at a time, with empty queues of two. -/
def aloneReaders : Readers where
  pool := ⟨fun _ => aloneServer, fun _ => queueNew 2⟩
  reader := fun _ _ => ⟨0, .keepRunning, 0, false⟩

/-- A pass in which the reader connects and the batch is sent. -/
def sendingPass : PassInput :=
  ⟨10, 10, ⟨.connected 5, [[.poll .ready, .write .written, .poll .ready, .flush true]]⟩⟩

/-- The reader of a server with one metric is told to stop. -/
theorem exits_justified_one :
    ∃ S log, Machine.run (readersStep 120) aloneReaders [.enter 0 0 10, .enqueue 0 ['a'],
        .shutdown 0 false, .pass 0 0 sendingPass] = some (S, log) ∧ ∀ e ∈ log.flatten,
          e.Justified := by
  refine Machine.exists_of_isSome
    (by decide +kernel) fun S log hrun => (exits_justified_iff hrun).2 ?_
  refine ⟨trivial, trivial, trivial, fun _ _ _ _ => (staysOrDrains_alone_iff rfl ?_).2 ?_, trivial⟩
  · decide +kernel
  · decide +kernel

/-- The reader of a server with two metrics is told to stop: it sends one batch, of one metric, and
leaves the other in the queue. -/
theorem second_batch_left_behind :
    ∃ S log, Machine.run (readersStep 120) aloneReaders [.enter 0 0 10, .enqueue 0 ['a'],
        .enqueue 0 ['b'], .shutdown 0 false, .pass 0 0 sendingPass] = some (S, log) ∧
      log.flatten = [.stopped false 1 [1]] ∧ ¬ ∀ e ∈ log.flatten, e.Justified := by
  refine @Machine.exists_of_outputs _ _ _ _ [[], [], [], [], [.stopped false 1 [1]]]
    (by decide +kernel) fun S => ⟨rfl, fun hall => ?_⟩
  rcases hall (.stopped false 1 [1]) (by simp) with h | h | h
  · cases h
  · exact absurd h (by decide)
  · exact absurd (h 1 (by simp)) (by decide)

end CarbonRelay
