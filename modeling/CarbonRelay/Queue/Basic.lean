import CarbonRelay.Lib.Machine

/-!
# The metric queue

The ring-buffer queue of `queue.c`, which every server reads from and every dispatcher writes to. An
operation runs under the queue's lock, so it is one step. The array of pointers is a list of cells;
an access outside of it has no meaning, so every operation that reads or writes a cell returns an
`Option`, and `none` is an access out of range.
-/

namespace CarbonRelay

universe u

variable {α : Type u}

/-- `struct _queue` (`queue.c:24`) without its lock. `queue` is the array of pointers (`none` is
`NULL`), and `size` is the source's `end`. -/
structure Queue (α : Type u) where
  queue : List (Option α)
  size : Nat
  write : Nat
  read : Nat
  len : Nat
deriving Repr, DecidableEq

/-- `queue_new` (`queue.c:38`), both allocations succeeding. -/
def queueNew (size : Nat) : Queue α :=
  { queue := List.replicate size none, size, write := 0, read := 0, len := 0 }

namespace Queue

/-- `if (q->read == q->end) q->read = 0;` -/
def wrapRead (q : Queue α) : Queue α :=
  if q.read = q.size then { q with read := 0 } else q

/-- `if (q->write == q->end) q->write = 0;` -/
def wrapWrite (q : Queue α) : Queue α :=
  if q.write = q.size then { q with write := 0 } else q

/-- `q->queue[i] = p;` -/
def store (q : Queue α) (i : Nat) (p : α) : Option (Queue α) :=
  if i < q.queue.length then some { q with queue := q.queue.set i (some p) } else none

/-- The pointer at `q->read`, after the wrap, and the queue with `read` behind it:
`q->queue[q->read++]`. -/
def next (q : Queue α) : Option (Queue α × Option α) :=
  let q := q.wrapRead
  match q.queue[q.read]? with
  | none => none
  | some p => some ({ q with read := q.read + 1 }, p)

end Queue

/-- The overflow branch of `queue_enqueue` (`queue.c:102`): a full queue frees its oldest entry. The
freed entries are returned; freeing `NULL` does nothing. -/
def queueDropOldest (q : Queue α) : Option (Queue α × List α) :=
  if q.len = q.size then
    match q.next with
    | none => none
    | some (q, p) => some ({ q with len := q.len - 1 }, p.toList)
  else some (q, [])

/-- `queue_enqueue` (`queue.c:86`): the new queue, and the entries it freed. -/
def queueEnqueue (q : Queue α) (p : α) : Option (Queue α × List α) :=
  match queueDropOldest q with
  | none => none
  | some (q, freed) =>
    let q := q.wrapWrite
    match q.store q.write p with
    | none => none
    | some q => some ({ q with write := q.write + 1, len := q.len + 1 }, freed)

/-- `queue_dequeue` (`queue.c:122`). -/
def queueDequeue (q : Queue α) : Option (Queue α × Option α) :=
  if q.len = 0 then some (q, none)
  else
    match q.next with
    | none => none
    | some (q, ret) => some ({ q with len := q.len - 1 }, ret)

/-- The loop of `queue_dequeue_vector` (`queue.c:157`) with `i` rounds to go. -/
def queueDequeueLoop : Nat → Queue α → Option (Queue α × List (Option α))
  | 0, q => some (q, [])
  | i + 1, q =>
    match q.next with
    | none => none
    | some (q, p) =>
      match queueDequeueLoop i q with
      | none => none
      | some (q, ret) => some (q, p :: ret)

/-- `queue_dequeue_vector` (`queue.c:146`): the new queue and the vector `ret`, whose length is the
number the function returns. -/
def queueDequeueVector (q : Queue α) (len : Nat) : Option (Queue α × List (Option α)) :=
  if q.len = 0 then some (q, [])
  else
    let len := if len > q.len then q.len else len
    match queueDequeueLoop len q with
    | none => none
    | some (q, ret) => some ({ q with len := q.len - len }, ret)

/-- `queue_putback` (`queue.c:176`). -/
def queuePutback (q : Queue α) (p : α) : Option (Queue α × Bool) :=
  if q.len = q.size then some (q, false)
  else
    let q := if q.read = 0 then { q with read := q.size } else q
    let q := { q with read := q.read - 1 }
    match q.store q.read p with
    | none => none
    | some q => some ({ q with len := q.len + 1 }, true)

/-- `queue_len` (`queue.c:201`). -/
def queueLen (q : Queue α) : Nat := q.len

/-- `queue_free` (`queue.c:215`). -/
def queueFree (q : Queue α) : Nat := q.size - queueLen q

/-- `queue_size` (`queue.c:224`). -/
def queueSize (q : Queue α) : Nat := q.size

/-- A call on the queue. -/
inductive QueueOp (α : Type u) where
  | enqueue (p : α)
  | dequeue
  | dequeueVector (len : Nat)
  | putback (p : α)

/-- What a call hands back: the entries it freed, the entry or the vector it returned, or whether it
stored its argument. -/
inductive QueueOut (α : Type u) where
  | freed (ps : List α)
  | entry (p : Option α)
  | vector (ret : List (Option α))
  | stored (ok : Bool)
deriving DecidableEq

/-- The queue as a machine over calls. -/
def queueStep (q : Queue α) : QueueOp α → Option (Queue α × QueueOut α)
  | .enqueue p => (queueEnqueue q p).map fun r => (r.1, .freed r.2)
  | .dequeue => (queueDequeue q).map fun r => (r.1, .entry r.2)
  | .dequeueVector len => (queueDequeueVector q len).map fun r => (r.1, .vector r.2)
  | .putback p => (queuePutback q p).map fun r => (r.1, .stored r.2)

/-- The stored entries in logical order: `len` cells from `read` on, around the array. -/
def Queue.entries (q : Queue α) : List (Option α) :=
  (List.range q.len).map fun i => (q.queue[(q.read + i) % q.size]?).join

end CarbonRelay
