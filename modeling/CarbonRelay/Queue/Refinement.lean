import CarbonRelay.Queue.Basic
import CarbonRelay.Lib.BoundedDeque
import CarbonRelay.Lib.Circular

/-!
# The queue is a bounded deque

`Queue.Layout q xs` says where a ring buffer keeps the list `xs`: `read` and `write` may rest at the
end of the array (a wrap is taken lazily), the list starts at `read`, and `write` is the cell behind
its last element. `Queue.Represents` adds that `len` is the list's length. Every operation of
`queue.c` keeps it and does to the list what the bounded deque does (`queueStep_refines`); by
simulation so does every sequence of calls (`queue_refines_boundedDeque`), and no call leaves the
array.
-/

namespace CarbonRelay

open List Option
open Circular

universe u

variable {α : Type u} {q : Queue α} {xs : List α}

/-- Where the ring buffer `q` keeps the list `xs`. A full and an empty buffer have the same `read`
and `write`, which is why the two cases of `write` are apart. -/
structure Queue.Layout (q : Queue α) (xs : List α) : Prop where
  length_queue : q.queue.length = q.size
  size_pos : 0 < q.size
  read_le : q.read ≤ q.size
  write_le : q.write ≤ q.size
  length_le : xs.length ≤ q.size
  write_eq : xs.length < q.size → wrap q.size q.write = slot q.size q.read xs.length
  write_full : xs.length = q.size → wrap q.size q.write = wrap q.size q.read
  holds : Circular.Holds q.queue q.size q.read xs

/-- The list that the ring buffer `q` stands for. -/
structure Queue.Represents (q : Queue α) (xs : List α) : Prop extends q.Layout xs where
  len_eq : q.len = xs.length

/-- A new queue is empty. -/
theorem Queue.represents_queueNew {size : Nat} (h : 0 < size) :
    (queueNew size : Queue α).Represents [] where
  length_queue := length_replicate
  size_pos := h
  read_le := Nat.zero_le _
  write_le := Nat.zero_le _
  length_le := Nat.zero_le _
  write_eq _ := (slot_zero (Nat.zero_le _)).symm
  write_full _ := rfl
  holds := Circular.holds_nil
  len_eq := rfl

/-! ## Moving the two indices -/

theorem Queue.wrapRead_eq (q : Queue α) : q.wrapRead = { q with read := wrap q.size q.read } := by
  unfold Queue.wrapRead wrap; split <;> rfl

theorem Queue.wrapWrite_eq (q : Queue α) :
    q.wrapWrite = { q with write := wrap q.size q.write } := by
  unfold Queue.wrapWrite wrap; split <;> rfl

namespace Queue.Layout

/-- Reading one entry of a non-empty queue returns the first element and moves past it. -/
theorem next {x : α} (h : q.Layout (x :: xs)) :
    ∃ q', q.next = some (q', some x) ∧ q'.len = q.len ∧ q'.size = q.size ∧ q'.Layout xs := by
  have hlen : xs.length + 1 ≤ q.size := h.length_le
  refine ⟨{ q with read := wrap q.size q.read + 1 }, ?_, rfl, rfl, ?_⟩
  · simp only [Queue.next, wrapRead_eq, h.holds.head h.read_le]
  · refine ⟨h.length_queue, h.size_pos, wrap_lt h.size_pos h.read_le, h.write_le,
      Nat.le_of_succ_le hlen, fun hlt => ?_, fun hf => absurd hf (Nat.ne_of_lt hlen),
      h.holds.tail hlen⟩
    show wrap q.size q.write = slot q.size (wrap q.size q.read + 1) xs.length
    rcases Nat.lt_or_eq_of_le hlen with hlt' | hfull
    · rw [slot_wrap_succ hlt']
      exact h.write_eq hlt'
    · rw [h.write_full hfull]
      unfold slot wrap; split <;> split <;> omega

/-- Writing behind the last element of a queue that has room appends an element. -/
theorem store_back (h : q.Layout xs) (hlt : xs.length < q.size) (x : α) :
    ∃ q', q.wrapWrite.store q.wrapWrite.write x = some q' ∧ q'.len = q.len ∧ q'.size = q.size ∧
      { q' with write := q'.write + 1, len := q'.len + 1 }.Layout (xs ++ [x]) := by
  have hwlt : wrap q.size q.write < q.queue.length := by
    rw [h.length_queue]; exact wrap_lt h.size_pos h.write_le
  refine ⟨{ q with write := wrap q.size q.write, queue := q.queue.set (wrap q.size q.write) x }, ?_,
    rfl, rfl, ?_⟩
  · rw [wrapWrite_eq, Queue.store, if_pos hwlt]
  · rw [h.write_eq hlt]
    refine ⟨?_, h.size_pos, h.read_le, slot_lt h.read_le hlt, ?_, fun hlt' => ?_, fun hf => ?_,
      h.holds.set_back h.read_le hlt h.length_queue⟩
    · exact length_set.trans h.length_queue
    · rw [length_append]; exact hlt
    · rw [length_append] at hlt' ⊢
      exact wrap_slot_succ h.read_le hlt'
    · rw [length_append] at hf
      exact wrap_slot_succ_full h.read_le hf

/-- The loop of `queue_dequeue_vector` returns the next `k` elements and moves past them; `len` is
left for the caller to lower. -/
theorem dequeueLoop : ∀ (k : Nat) {q : Queue α} {xs : List α}, q.Layout xs → k ≤ xs.length →
    ∃ q', queueDequeueLoop k q = some (q', (xs.take k).map some) ∧ q'.len = q.len ∧
      q'.size = q.size ∧ q'.Layout (xs.drop k)
  | 0, q, _, h, _ => ⟨q, rfl, rfl, rfl, h⟩
  | k + 1, _, [], _, hk => absurd hk (Nat.not_succ_le_zero k)
  | k + 1, q, x :: xs, h, hk => by
    obtain ⟨q₁, hq₁, hlen₁, hsize₁, h₁⟩ := h.next
    obtain ⟨q₂, hq₂, hlen₂, hsize₂, h₂⟩ := dequeueLoop k h₁ (Nat.le_of_succ_le_succ hk)
    refine ⟨q₂, ?_, hlen₂.trans hlen₁, hsize₂.trans hsize₁, h₂⟩
    simp only [queueDequeueLoop, hq₁, hq₂, take_succ_cons, map_cons]

/-- The length field is not part of the layout. -/
theorem setLen (h : q.Layout xs) (l : Nat) : { q with len := l }.Layout xs :=
  ⟨h.length_queue, h.size_pos, h.read_le, h.write_le, h.length_le, h.write_eq,
    h.write_full, h.holds⟩

end Queue.Layout

/-! ## The operations -/

namespace Queue.Represents

section
variable (h : q.Represents xs)
include h

/-- The overflow branch drops the first element of a full queue and nothing else. -/
theorem dropOldest :
    ∃ q', queueDropOldest q = some (q', if xs.length = q.size then xs.take 1 else []) ∧
      q'.size = q.size ∧ q'.Represents (if xs.length = q.size then xs.tail else xs) := by
  by_cases hf : xs.length = q.size
  · rw [queueDropOldest, if_pos (h.len_eq.trans hf), if_pos hf, if_pos hf]
    cases xs with
    | nil => exact absurd hf (Nat.ne_of_lt h.size_pos)
    | cons x xs =>
      obtain ⟨q', hq, hlen, hsize, hl⟩ := h.next
      refine ⟨{ q' with len := q'.len - 1 }, by rw [hq]; rfl, hsize, hl.setLen _, ?_⟩
      rw [hlen, h.len_eq]; rfl
  · rw [queueDropOldest, if_neg (fun he => hf (h.len_eq.symm.trans he)), if_neg hf, if_neg hf]
    exact ⟨q, rfl, rfl, h⟩

/-- `queue_enqueue` appends, and on a full queue first drops the front element. -/
theorem enqueue (x : α) :
    ∃ q', queueEnqueue q x = some (q', if xs.length = q.size then xs.take 1 else []) ∧
      q'.size = q.size ∧ q'.Represents ((if xs.length = q.size then xs.tail else xs) ++ [x]) := by
  obtain ⟨q₁, hdrop, hsize, h₁⟩ := h.dropOldest
  have hlt : (if xs.length = q.size then xs.tail else xs).length < q₁.size := by
    have := h.length_le
    have := h.size_pos
    rw [hsize]
    split
    · rw [length_tail]; omega
    · omega
  obtain ⟨q₂, hstore, hlen, hsize₂, hl⟩ := h₁.store_back hlt x
  refine ⟨{ q₂ with write := q₂.write + 1, len := q₂.len + 1 }, ?_, hsize₂.trans hsize, hl, ?_⟩
  · simp only [queueEnqueue, hdrop, hstore]
  · rw [hlen, h₁.len_eq, length_append]; rfl

/-- `queue_dequeue` removes the front element. -/
theorem dequeue :
    ∃ q', queueDequeue q = some (q', xs.head?) ∧ q'.size = q.size ∧ q'.Represents xs.tail := by
  cases xs with
  | nil =>
    have h0 : q.len = 0 := h.len_eq
    exact ⟨q, by rw [queueDequeue, if_pos h0]; rfl, rfl, h⟩
  | cons x xs =>
    have hne : q.len ≠ 0 := by rw [h.len_eq]; exact Nat.succ_ne_zero _
    obtain ⟨q', hq, hlen, hsize, hl⟩ := h.next
    refine ⟨{ q' with len := q'.len - 1 }, ?_, hsize, hl.setLen _, ?_⟩
    · rw [queueDequeue, if_neg hne, hq]; rfl
    · rw [hlen, h.len_eq]; rfl

/-- `queue_dequeue_vector` removes and returns the first elements, as many as asked for and there.
-/
theorem dequeueVector (k : Nat) :
    ∃ q', queueDequeueVector q k = some (q', (xs.take k).map some) ∧ q'.size = q.size ∧
      q'.Represents (xs.drop k) := by
  by_cases h0 : q.len = 0
  · have hnil : xs = [] := eq_nil_of_length_eq_zero (h.len_eq.symm.trans h0)
    subst hnil
    exact ⟨q, by rw [queueDequeueVector, if_pos h0, take_nil]; rfl, rfl, by
      rw [drop_nil]; exact h⟩
  · have hmin : ∃ k', (if k > q.len then q.len else k) = k' ∧ k' ≤ xs.length ∧
        xs.take k = xs.take k' ∧ xs.drop k = xs.drop k' := by
      rw [h.len_eq]
      split
      · next hk =>
        refine ⟨_, rfl, Nat.le_refl _, ?_, ?_⟩
        · rw [take_length, take_of_length_le (Nat.le_of_lt hk)]
        · rw [drop_length, drop_of_length_le (Nat.le_of_lt hk)]
      · next hk => exact ⟨k, rfl, Nat.le_of_not_lt hk, rfl, rfl⟩
    obtain ⟨k', hk', hle, htake, hdrop⟩ := hmin
    obtain ⟨q', hq, hlen, hsize, hl⟩ := h.dequeueLoop k' hle
    refine ⟨{ q' with len := q'.len - k' }, ?_, hsize, ?_, ?_⟩
    · rw [queueDequeueVector, if_neg h0, hk', htake]
      simp only [hq]
    · rw [hdrop]; exact hl.setLen _
    · rw [hlen, h.len_eq, hdrop, length_drop]

theorem of_dequeueVector {k : Nat} {q' : Queue α} {vector : List (Option α)}
    (hq : queueDequeueVector q k = some (q', vector)) :
    vector = (xs.take k).map some ∧ q'.Represents (xs.drop k) := by
  obtain ⟨q₁, hq₁, -, h₁⟩ := h.dequeueVector k
  cases hq.symm.trans hq₁
  exact ⟨rfl, h₁⟩

/-- `queue_putback` prepends, and refuses when the queue is full. -/
theorem putback (x : α) :
    ∃ q', queuePutback q x = some (q', decide (xs.length ≠ q.size)) ∧ q'.size = q.size ∧
      q'.Represents (if xs.length = q.size then xs else x :: xs) := by
  by_cases hf : xs.length = q.size
  · rw [queuePutback, if_pos (h.len_eq.trans hf), if_pos hf]
    exact ⟨q, by simp [hf], rfl, h⟩
  · have hlt : xs.length < q.size := Nat.lt_of_le_of_ne h.length_le hf
    obtain ⟨r', hr'⟩ : ∃ r', r' + 1 = if q.read = 0 then q.size else q.read := by
      have := h.size_pos
      split
      · exact ⟨q.size - 1, by omega⟩
      · exact ⟨q.read - 1, by omega⟩
    have hread : (if q.read = 0 then { q with read := q.size } else q) =
        { q with read := r' + 1 } := by
      rw [hr']; split <;> rfl
    have hrlt : r' < q.size := by have := h.read_le; split at hr' <;> omega
    rw [queuePutback, if_neg (fun he => hf (h.len_eq.symm.trans he)), if_neg hf, hread]
    refine ⟨{ q with read := r', queue := q.queue.set r' x, len := q.len + 1 }, ?_, rfl, ?_, ?_⟩
    · simp only [Queue.store, Nat.add_sub_cancel, h.length_queue, if_pos hrlt]
      rw [decide_eq_true hf]
    · refine ⟨length_set.trans h.length_queue, h.size_pos, Nat.le_of_lt hrlt, h.write_le, hlt,
        fun hlt' => ?_, fun hf' => ?_, h.holds.set_front h.read_le hlt h.length_queue hr'⟩
      · rw [h.write_eq hlt]
        exact (slot_pred_succ hlt' hr').symm
      · rw [h.write_eq hlt]
        change xs.length + 1 = q.size at hf'
        have := h.read_le
        show slot q.size q.read xs.length = wrap q.size r'
        unfold slot wrap; split at hr' <;> split <;> split <;> omega
    · rw [h.len_eq]; rfl

/-- Read around the array, the entries of a queue are the list it stands for. -/
theorem entries_eq : q.entries = xs.map some := by
  refine ext_getElem ?_ fun i hi hi' => ?_
  · simp [Queue.entries, h.len_eq]
  · have hlt : i < xs.length := by simpa using hi'
    have hmod : (q.read + i) % q.size = slot q.size q.read i := by
      have hin := Nat.lt_of_lt_of_le hlt h.length_le
      have hr := h.read_le
      unfold slot
      split
      · next hlt => exact Nat.mod_eq_of_lt hlt
      · next hge =>
        rw [Nat.mod_eq_sub_mod (Nat.le_of_not_lt hge), Nat.mod_eq_of_lt]
        omega
    simp only [Queue.entries, getElem_map, getElem_range, hmod, h.holds i hlt, join_some]

/-- The two counts of a queue add up to its size. -/
theorem queueLen_add_queueFree : queueLen q + queueFree q = q.size := by
  have hle : q.len ≤ q.size := h.len_eq ▸ h.length_le
  unfold queueFree queueLen
  exact Nat.add_sub_cancel' hle

end

end Queue.Represents

/-! ## Sequences of calls -/

/-- What a call does to the list of entries: the abstract behaviour of the queue. -/
def dequeStep {cap : Nat} (hcap : 0 < cap) (d : BoundedDeque α cap) :
    QueueOp α → Option (BoundedDeque α cap × QueueOut α)
  | .enqueue p => some ((d.pushBack hcap p).1, .freed (d.pushBack hcap p).2)
  | .dequeue => some (d.popFront.1, .entry d.popFront.2)
  | .dequeueVector len => some ((d.popFrontN len).1, .vector ((d.popFrontN len).2.map some))
  | .putback p => some ((d.pushFront p).1, .stored (d.pushFront p).2)

/-- Every call on the ring buffer does what the bounded deque does, and returns the same. -/
theorem queueStep_refines {cap : Nat} (hcap : 0 < cap) (q : Queue α) (d : BoundedDeque α cap)
    (op : QueueOp α) (d' : BoundedDeque α cap) (out : QueueOut α)
    (h : q.size = cap ∧ q.Represents d.items) (hd : dequeStep hcap d op = some (d', out)) :
    ∃ q', queueStep q op = some (q', out) ∧ q'.size = cap ∧ q'.Represents d'.items := by
  obtain ⟨rfl, hq⟩ := h
  cases op with
  | enqueue p =>
    cases hd
    obtain ⟨q', he, hsize, hrep⟩ := hq.enqueue p
    by_cases hf : d.items.length = q.size
    · rw [if_pos hf] at he hrep
      obtain ⟨h1, h2⟩ := BoundedDeque.pushBack_full hcap hf p
      exact ⟨q', by simp only [queueStep, he, h2, map_some], hsize, h1 ▸ hrep⟩
    · rw [if_neg hf] at he hrep
      obtain ⟨h1, h2⟩ := BoundedDeque.pushBack_not_full hcap hf p
      exact ⟨q', by simp only [queueStep, he, h2, map_some], hsize, h1 ▸ hrep⟩
  | dequeue =>
    cases hd
    obtain ⟨q', he, hsize, hrep⟩ := hq.dequeue
    exact ⟨q', by simp only [queueStep, he, map_some]; rfl, hsize, hrep⟩
  | dequeueVector len =>
    cases hd
    obtain ⟨q', he, hsize, hrep⟩ := hq.dequeueVector len
    exact ⟨q', by simp only [queueStep, he, map_some]; rfl, hsize, hrep⟩
  | putback p =>
    cases hd
    obtain ⟨q', he, hsize, hrep⟩ := hq.putback p
    by_cases hf : d.items.length = q.size
    · rw [if_pos hf] at hrep
      rw [BoundedDeque.pushFront_full hf p]
      exact ⟨q', by simp [queueStep, he, hf], hsize, hrep⟩
    · rw [if_neg hf] at hrep
      obtain ⟨h1, h2⟩ := BoundedDeque.pushFront_not_full hf p
      exact ⟨q', by simp only [queueStep, he, map_some, h2, decide_eq_true hf], hsize, h1 ▸ hrep⟩

/-- The ring buffer of `queue.c` refines the bounded deque: for every capacity and every sequence of
calls the run of the ring buffer is defined, so every array index it uses is in range; its outputs
are those of the deque; its entries in logical order are the deque's elements; and the counts of
used and free entries add up to the capacity. -/
theorem queue_refines_boundedDeque {cap : Nat} (hcap : 0 < cap) (ops : List (QueueOp α)) :
    ∃ q d outs, Machine.run queueStep (queueNew cap) ops = some (q, outs) ∧
      Machine.run (dequeStep hcap) BoundedDeque.empty ops = some (d, outs) ∧
      q.entries = d.items.map some ∧ q.queue.length = cap ∧ queueLen q + queueFree q = cap := by
  have htotal : ∀ (d : BoundedDeque α cap) (op : QueueOp α), ∃ r, dequeStep hcap d op = some r := by
    intro d op
    cases op <;> exact ⟨_, rfl⟩
  obtain ⟨d, outs, hd⟩ := Machine.exists_run htotal ops BoundedDeque.empty
  obtain ⟨q, hq, hsize, hrep⟩ := Machine.run_simulates (queueStep_refines hcap)
    ⟨rfl, Queue.represents_queueNew hcap⟩ hd
  exact ⟨q, d, outs, hq, hd, hrep.entries_eq, hrep.length_queue.trans hsize,
    hrep.queueLen_add_queueFree.trans hsize⟩

/-- The refinement at capacity two, on a run that overflows, wraps and puts back. -/
theorem queue_refines_boundedDeque_two : 0 < 2 ∧ ∃ q d outs, Machine.run queueStep (queueNew 2)
        [.enqueue 'a', .enqueue 'b', .enqueue 'c', .dequeue, .putback 'd', .putback 'e',
          .dequeueVector 3] = some (q, outs) ∧
            Machine.run (dequeStep (Nat.succ_pos 1)) BoundedDeque.empty
        [.enqueue 'a', .enqueue 'b', .enqueue 'c', .dequeue, .putback 'd', .putback 'e',
          .dequeueVector 3] = some (d, outs) ∧
      q.entries = d.items.map some ∧ q.queue.length = 2 ∧ queueLen q + queueFree q = 2 :=
  ⟨Nat.succ_pos 1, queue_refines_boundedDeque (Nat.succ_pos 1) _⟩

end CarbonRelay
