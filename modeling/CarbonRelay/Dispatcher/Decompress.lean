import CarbonRelay.Dispatcher.Basic
import CarbonRelay.Lib.Machine

/-!
# Compressed input

A connection reads a compressed stream through a buffer of its own: what the next stream returns is
put at the end of the buffer, and the decompressor is called on what is in it. This module models
the buffers of the `lz4` and `snappy` streams of `dispatcher.c`; the results of reads and of the
decompressors are inputs.

* `lzreadbuf` moves its position in the buffer only when there was output. What `LZ4F_decompress`
  consumed without giving output, such as the header of a frame, is passed to it again, so every
  byte is consumed once exactly if no such call is followed by another (`lz_consumed_once_iff`).
* `snappyread` takes the length of the output off its fill level, not that of the input
  (`snappy_ipos_iff`).
-/

namespace CarbonRelay

open List

/-- `dispatcher.c:126 connection_ended`. -/
def connectionEnded : ReadResult → Bool
  | .data _ | .again => false
  | .eof | .error => true

/-! ## The lz4 stream -/

/-- What `LZ4F_decompress` gives: an error, or how much of its input it consumed and its output. -/
inductive Decompress
  | error
  | ok (srcsize : Nat) (out : Text)
  deriving DecidableEq, Repr

/-- The stream: its input buffer `ibuf` up to `ipos`, the position `iloc` in it, whether the
connection has ended, and how many bytes were ever read. Every byte has its number in the stream,
which the source does not keep. -/
structure LzStrm where
  ibuf : List (Char × Nat)
  iloc : Nat
  isize : Nat
  closing : Bool
  count : Nat
  iloc_le : iloc ≤ ibuf.length
  ipos_le : ibuf.length ≤ isize

/-- What is recorded of a stream: bytes that were received, and a call of `LZ4F_decompress` with the
input it was passed. -/
inductive LzLog
  | received (bytes : List (Char × Nat))
  | decompressed (src : List (Char × Nat)) (r : Decompress)
  deriving DecidableEq, Repr

/-- The part of the buffer behind `iloc`. -/
def LzStrm.pending (s : LzStrm) : List (Char × Nat) := s.ibuf.drop s.iloc

/-- `dispatcher.c:416 lzreadbuf`, with the result of `LZ4F_decompress` if that is called. A result
that takes more input or room than there is has no meaning. -/
def lzreadbuf (sze : Nat) (r : Decompress) (s : LzStrm) :
    Option (ReadResult × LzStrm × List LzLog) :=
  if s.pending = [] then some (.eof, s, [])
  else
    match r with
    | .error =>
      -- ENOBUFS or EBADMSG, or EAGAIN
      let overflow := s.iloc = 0 ∧ s.ibuf.length = s.isize
      some (if overflow ∨ s.closing then .error else .again, s, [.decompressed s.pending .error])
    | .ok srcsize out =>
      if h : s.iloc + srcsize ≤ s.ibuf.length ∧ out.length ≤ sze then
        let call := .decompressed s.pending (.ok srcsize out)
        if out = [] then some (if s.closing then .eof else .again, s, [call])
        else some (.data out, { s with iloc := s.iloc + srcsize, iloc_le := h.1 }, [call])
      else none

/-- `dispatcher.c:384`, the consumed part of the buffer is dropped. -/
def LzStrm.compact (s : LzStrm) : LzStrm :=
  { s with
    ibuf := s.pending
    iloc := 0
    iloc_le := Nat.zero_le _
    ipos_le := (drop_sublist _ _).length_le.trans s.ipos_le }

/-- Bytes are read to the end of the buffer, where there is room for them. -/
def LzStrm.fill (s : LzStrm) (bytes : Text) (h : s.ibuf.length + bytes.length ≤ s.isize) : LzStrm :=
  { s with
    ibuf := s.ibuf ++ bytes.zipIdx s.count
    closing := false
    count := s.count + bytes.length
    iloc_le := by rw [length_append]; exact Nat.le_add_right_of_le s.iloc_le
    ipos_le := by rw [length_append, length_zipIdx]; exact h }

/-- `dispatcher.c:394`, the next stream is read, and what is in the buffer is decompressed. Without
new data too, as the start of the next frame may be there. -/
def lzreadNext (sze : Nat) (read : ReadResult) (r : Decompress) (s : LzStrm) :
    Option (ReadResult × LzStrm × List LzLog) :=
  match read with
  | .data bytes =>
    if h : bytes ≠ [] ∧ s.ibuf.length + bytes.length ≤ s.isize then
      (lzreadbuf sze r (s.fill bytes h.2)).map fun (ret, s', log) =>
        (ret, s', .received (bytes.zipIdx s.count) :: log)
    else none
  | read =>
    if s.ibuf = [] then some (read, { s with closing := connectionEnded read }, [])
    else lzreadbuf sze r { s with closing := connectionEnded read }

/-- `dispatcher.c:379 lzread`, with the result of the read of the next stream. -/
def lzread (sze : Nat) (read : ReadResult) (r : Decompress) (s : LzStrm) :
    Option (ReadResult × LzStrm × List LzLog) :=
  if 0 < s.iloc then lzreadNext sze read r s.compact
  else if s.isize ≤ s.ibuf.length then some (.error, s, [])
  else lzreadNext sze read r s

/-- A call on the stream. -/
inductive LzCall
  | read (sze : Nat) (read : ReadResult) (r : Decompress)
  | readbuf (sze : Nat) (r : Decompress)
  deriving DecidableEq, Repr

/-- The stream as a machine over calls. -/
def lzStep (s : LzStrm) : LzCall → Option (LzStrm × List LzLog)
  | .read sze read r => (lzread sze read r s).map Prod.snd
  | .readbuf sze r => (lzreadbuf sze r s).map Prod.snd

/-- `dispatcher.c:491 lznew`, which leaves `closing` as it finds it. -/
def lznew (isize : Nat) (closing : Bool) : LzStrm where
  ibuf := []
  iloc := 0
  isize := if 65536 < isize then isize else 65536
  closing := closing
  count := 0
  iloc_le := Nat.le_refl 0
  ipos_le := Nat.zero_le _

/-! ### Bytes passed and consumed -/

/-- The bytes a record says were received. -/
def LzLog.bytes : LzLog → List (Char × Nat)
  | .received bytes => bytes
  | .decompressed .. => []

/-- The bytes a record says were passed to `LZ4F_decompress`. -/
def LzLog.passed : LzLog → List (Char × Nat)
  | .received _ => []
  | .decompressed src _ => src

/-- The bytes a record says were consumed. -/
def LzLog.consumed : LzLog → List (Char × Nat)
  | .decompressed src (.ok srcsize _) => src.take srcsize
  | .received _ | .decompressed _ .error => []

/-- A call that consumed something and gave no output. -/
def LzLog.silent : LzLog → Bool
  | .decompressed _ (.ok srcsize out) => decide (0 < srcsize) && out.isEmpty
  | .received _ | .decompressed _ .error => false

def LzLog.isCall : LzLog → Bool
  | .received _ => false
  | .decompressed .. => true

/-- No byte that was consumed is passed again. -/
def PassedOnce (log : List LzLog) : Prop := log.Pairwise fun l l' => l.consumed.Disjoint l'.passed

/-- What was consumed is the front of what was received, each byte once. -/
def ConsumedOnce (log : List LzLog) : Prop :=
  log.flatMap LzLog.consumed <+: log.flatMap LzLog.bytes ∧ PassedOnce log

/-- No call of `LZ4F_decompress` comes after one that consumed something and gave no output. -/
def SilentLast (log : List LzLog) : Prop :=
  log.Pairwise fun l l' => l.silent = true → l'.isCall = false

instance (log : List LzLog) : Decidable (SilentLast log) :=
  inferInstanceAs (Decidable (log.Pairwise _))

/-- The records so far and what is pending: all bytes are consumed or pending; or the last call was
silent, so that a consumed byte is pending; or such a byte was passed again. -/
inductive LzState (log : List LzLog) (pending : List (Char × Nat)) : Prop
  | clean (hsilent : ∀ l ∈ log, l.silent = false) (honce : PassedOnce log)
      (hbytes : log.flatMap LzLog.bytes = log.flatMap LzLog.consumed ++ pending)
  | stuck (hlast : SilentLast log) (hsilent : ∃ l ∈ log, l.silent = true) (honce : ConsumedOnce log)
      (hpending : ∃ l ∈ log, ∃ b ∈ l.consumed, b ∈ pending)
  | replayed (hlast : ¬SilentLast log) (honce : ¬PassedOnce log)

/-- What is pending after a call. -/
def Decompress.after (pending : List (Char × Nat)) : Decompress → List (Char × Nat)
  | .error => pending
  | .ok srcsize out => if out = [] then pending else pending.drop srcsize

section
variable {log : List LzLog} {pending : List (Char × Nat)}

theorem silentLast_of_forall (h : ∀ l ∈ log, l.silent = false) : SilentLast log :=
  List.Pairwise.imp_of_mem (fun hl _ _ hs => absurd hs (Bool.eq_false_iff.1 (h _ hl)))
    (pairwise_of_forall fun _ _ => trivial)

theorem LzState.consumedOnce_iff (h : LzState log pending) : ConsumedOnce log ↔ SilentLast log := by
  cases h with
  | clean hsilent honce hbytes =>
    exact iff_of_true ⟨hbytes ▸ prefix_append _ _, honce⟩ (silentLast_of_forall hsilent)
  | stuck hlast _ honce _ => exact iff_of_true honce hlast
  | replayed hlast honce => exact iff_of_false (fun h => honce h.2) hlast

theorem LzState.received (h : LzState log pending) (bytes : List (Char × Nat)) :
    LzState (log ++ [.received bytes]) (pending ++ bytes) := by
  have hkept : PassedOnce log → PassedOnce (log ++ [.received bytes]) := by
    intro honce
    refine pairwise_append.2 ⟨honce, pairwise_singleton _ _, fun l _ l' hl' => ?_⟩
    rw [mem_singleton.1 hl']
    exact disjoint_nil_right _
  cases h with
  | clean hsilent honce hbytes =>
    refine .clean ?_ (hkept honce) ?_
    · exact forall_mem_append.2 ⟨hsilent, forall_mem_singleton.2 rfl⟩
    · simp [hbytes, LzLog.bytes, LzLog.consumed]
  | stuck hlast hsilent honce hpending =>
    obtain ⟨l, hl, hs⟩ := hsilent
    obtain ⟨l', hl', b, hb, hmem⟩ := hpending
    refine .stuck ?_ ⟨l, mem_append_left _ hl, hs⟩ ⟨?_, hkept honce.2⟩
      ⟨l', mem_append_left _ hl', b, hb, mem_append_left _ hmem⟩
    · refine pairwise_append.2 ⟨hlast, pairwise_singleton _ _, fun l _ l' hl' _ => ?_⟩
      rw [mem_singleton.1 hl']
      rfl
    · simpa [LzLog.bytes, LzLog.consumed] using honce.1.trans (prefix_append _ bytes)
  | replayed hlast honce =>
    exact .replayed (fun h => hlast (pairwise_append.1 h).1)
      (fun h => honce (pairwise_append.1 h).1)

/-- A call from a clean state: it is passed what was not consumed. -/
theorem LzState.decompressed_clean {r : Decompress} (hsilent : ∀ l ∈ log, l.silent = false)
    (honce : PassedOnce log) (hbytes : log.flatMap LzLog.bytes =
      log.flatMap LzLog.consumed ++ pending)
    (hnodup : (log.flatMap LzLog.bytes).Nodup) (hne : pending ≠ []) :
    LzState (log ++ [.decompressed pending r]) (r.after pending) := by
  have honce' : PassedOnce (log ++ [.decompressed pending r]) := by
    refine pairwise_append.2 ⟨honce, pairwise_singleton _ _, fun l hl l' hl' b hb hb' => ?_⟩
    rw [mem_singleton.1 hl'] at hb'
    rw [hbytes] at hnodup
    exact disjoint_of_nodup_append hnodup (mem_flatMap.2 ⟨l, hl, hb⟩) hb'
  have hclean (hlast : (LzLog.decompressed pending r).silent = false)
      (hafter : (LzLog.decompressed pending r).consumed ++ r.after pending = pending) :
      LzState (log ++ [.decompressed pending r]) (r.after pending) := by
    refine .clean (forall_mem_append.2 ⟨hsilent, forall_mem_singleton.2 hlast⟩) honce' ?_
    rw [flatMap_append, flatMap_append, flatMap_singleton, flatMap_singleton, hbytes,
      append_assoc _ _ (r.after pending), hafter]
    exact append_nil _
  cases r with
  | error => exact hclean rfl rfl
  | ok srcsize out =>
    by_cases hout : out = []
    · subst hout
      cases srcsize with
      | zero => exact hclean rfl rfl
      | succ n =>
        refine .stuck ?_ ⟨_, mem_concat_self, rfl⟩ ⟨?_, honce'⟩ ?_
        · refine pairwise_append.2
            ⟨silentLast_of_forall hsilent, pairwise_singleton _ _, fun l hl _ _ hs => ?_⟩
          exact absurd hs (Bool.eq_false_iff.1 (hsilent l hl))
        · rw [flatMap_append, flatMap_append, flatMap_singleton, flatMap_singleton, hbytes]
          refine (prefix_append_right_inj _).2 ?_ |>.trans (prefix_append _ _)
          exact take_prefix _ _
        · obtain ⟨b, rest, rfl⟩ := exists_cons_of_ne_nil hne
          exact ⟨_, mem_concat_self, b, mem_cons_self, mem_cons_self⟩
    · refine hclean ?_ ?_
      · simp [LzLog.silent, hout]
      · simp [LzLog.consumed, Decompress.after, hout]

theorem LzState.decompressed {r : Decompress} (h : LzState log pending)
    (hnodup : (log.flatMap LzLog.bytes).Nodup) (hne : pending ≠ []) :
    LzState (log ++ [.decompressed pending r]) (r.after pending) := by
  cases h with
  | clean hsilent honce hbytes => exact decompressed_clean hsilent honce hbytes hnodup hne
  | stuck hlast hsilent honce hpending =>
    obtain ⟨l, hl, hs⟩ := hsilent
    obtain ⟨l', hl', b, hb, hmem⟩ := hpending
    refine .replayed (fun h => ?_) (fun h => ?_)
    · cases (pairwise_append.1 h).2.2 l hl _ (mem_singleton_self _) hs
    · exact (pairwise_append.1 h).2.2 l' hl' _ (mem_singleton_self _) hb hmem
  | replayed hlast honce =>
    exact .replayed (fun h => hlast (pairwise_append.1 h).1)
      (fun h => honce (pairwise_append.1 h).1)

end

/-! ### Runs -/

/-- The state of a stream with the records so far. -/
structure LzInv (log : List LzLog) (s : LzStrm) : Prop where
  state : LzState log s.pending
  numbered : (log.flatMap LzLog.bytes).map Prod.snd = List.range s.count

section
variable {log l : List LzLog} {s s' : LzStrm} {sze : Nat} {r : Decompress} {ret : ReadResult}

theorem LzInv.nodup (h : LzInv log s) : (log.flatMap LzLog.bytes).Nodup :=
  List.Nodup.of_map Prod.snd (h.numbered ▸ nodup_range)

theorem LzStrm.compact_pending (s : LzStrm) : s.compact.pending = s.pending := drop_zero

/-- What `lzreadbuf` does: nothing, or one call on what is pending. -/
theorem lzreadbuf_cases (h : lzreadbuf sze r s = some (ret, s', l)) :
    l = [] ∧ s' = s ∨ s.pending ≠ [] ∧ l = [.decompressed s.pending r] ∧
      s'.pending = r.after s.pending ∧ s'.count = s.count := by
  unfold lzreadbuf at h
  split at h
  case isTrue => cases h; exact .inl ⟨rfl, rfl⟩
  case isFalse hne =>
    refine .inr ⟨hne, ?_⟩
    split at h
    case h_1 => cases h; exact ⟨rfl, rfl, rfl⟩
    case h_2 srcsize out =>
      split at h
      case isFalse => cases h
      case isTrue hfits =>
        split at h
        case isTrue hout => cases h; exact ⟨rfl, (if_pos hout).symm, rfl⟩
        case isFalse hout =>
          cases h
          refine ⟨rfl, ?_, rfl⟩
          rw [Decompress.after, if_neg hout, LzStrm.pending, LzStrm.pending, drop_drop]

section
variable (h : LzInv log s)
include h

theorem LzInv.readbuf (hread : lzreadbuf sze r s = some (ret, s', l)) : LzInv (log ++ l) s' := by
  rcases lzreadbuf_cases hread with ⟨rfl, rfl⟩ | ⟨hne, rfl, hpending, hcount⟩
  · rwa [append_nil]
  · refine ⟨hpending ▸ h.state.decompressed h.nodup hne, ?_⟩
    rw [hcount, flatMap_append]
    exact (congrArg _ (append_nil _)).trans h.numbered

/-- Bytes that arrive take the next numbers. -/
theorem LzInv.fill {bytes : Text} (hfits : s.ibuf.length + bytes.length ≤ s.isize) :
    LzInv (log ++ [.received (bytes.zipIdx s.count)]) (s.fill bytes hfits) := by
  have hpending : (s.fill bytes hfits).pending = s.pending ++ bytes.zipIdx s.count :=
    drop_append_of_le_length s.iloc_le
  refine ⟨hpending ▸ h.state.received _, ?_⟩
  rw [flatMap_append, flatMap_singleton, map_append, h.numbered]
  have hrange := List.range'_append_1 (s := 0) (m := s.count) (n := bytes.length)
  simpa [LzLog.bytes, LzStrm.fill, range_eq_range'] using hrange

theorem LzInv.compacted : LzInv log s.compact :=
  ⟨s.compact_pending.symm ▸ h.state, h.numbered⟩

theorem LzInv.readNext {read : ReadResult}
    (hread : lzreadNext sze read r s = some (ret, s', l)) : LzInv (log ++ l) s' := by
  have hended (closing : Bool) : LzInv log { s with closing } := ⟨h.state, h.numbered⟩
  unfold lzreadNext at hread
  split at hread
  case h_1 bytes =>
    split at hread
    case isFalse => cases hread
    case isTrue hfits =>
      obtain ⟨⟨ret₁, s₁, l₁⟩, hbuf, heq⟩ := Option.map_eq_some_iff.1 hread
      cases heq
      have hinv := (h.fill hfits.2).readbuf hbuf
      rwa [append_assoc] at hinv
  case h_2 =>
    split at hread
    case isTrue =>
      cases hread
      rw [append_nil]
      exact hended _
    case isFalse => exact (hended _).readbuf hread

theorem LzInv.read {read : ReadResult} (hread : lzread sze read r s = some (ret, s', l)) :
    LzInv (log ++ l) s' := by
  rw [lzread] at hread
  split at hread
  case isTrue => exact h.compacted.readNext hread
  case isFalse =>
    split at hread
    case isTrue =>
      cases hread
      rwa [append_nil]
    case isFalse => exact h.readNext hread

theorem LzInv.step {call : LzCall} (hstep : lzStep s call = some (s', l)) :
    LzInv (log ++ l) s' := by
  cases call with
  | read sze read r =>
    obtain ⟨⟨ret, s₁, l₁⟩, hread, heq⟩ := Option.map_eq_some_iff.1 hstep
    cases heq
    exact h.read hread
  | readbuf sze r =>
    obtain ⟨⟨ret, s₁, l₁⟩, hread, heq⟩ := Option.map_eq_some_iff.1 hstep
    cases heq
    exact h.readbuf hread

end

end

theorem lznew_inv (isize : Nat) (closing : Bool) : LzInv [] (lznew isize closing) :=
  ⟨.clean (forall_mem_nil _) List.Pairwise.nil rfl, rfl⟩

/-- Over all calls on a stream, what is consumed is the front of what is received, each byte once,
exactly if no call of `LZ4F_decompress` follows one that consumed something and gave no output. -/
theorem lz_consumed_once_iff {isize : Nat} {closing : Bool} {calls : List LzCall} {s : LzStrm}
    {log : List (List LzLog)} (h : Machine.run lzStep (lznew isize closing) calls = some (s, log)) :
    ConsumedOnce log.flatten ↔ SilentLast log.flatten := by
  have hinv := Machine.run_trace_invariant (I := LzInv) (p := fun _ => True)
    (fun _ _ _ _ _ _ hinv hstep => hinv.step hstep) (fun _ _ => trivial) (lznew_inv isize closing) h
  exact hinv.state.consumedOnce_iff

/-- The headers of a frame and of a stored block: the magic number, the descriptor, and the size of
the block with the bit for stored ones. -/
def frameHeader (size : Char) : Text :=
  ['\x04', '\x22', '\x4d', '\x18', '\x60', '\x40', '\x82', size, '\x00', '\x00', '\x80']

/-- A frame with the stored block `a\n` and the mark for the end. -/
def storedFrame : Text :=
  frameHeader '\x02' ++ ['a', '\n', '\x00', '\x00', '\x00', '\x00']

/-- A frame that arrives as one. -/
theorem lz_consumed_once_whole : ∃ s log, Machine.run lzStep (lznew 8192 false)
      [.read 100 (.data storedFrame) (.ok 17 ['a', '\n']), .readbuf 98 .error] = some (s, log) ∧
    ConsumedOnce log.flatten := by
  have hrun : Machine.run lzStep (lznew 8192 false)
      [.read 100 (.data storedFrame) (.ok 17 ['a', '\n']), .readbuf 98 .error] = some (_, _) := rfl
  exact ⟨_, _, hrun, (lz_consumed_once_iff hrun).2 (by decide)⟩

/-- The headers of a frame and of a stored block of thirteen bytes arrive first: they are consumed,
and passed and consumed once more as the content of the block. -/
theorem lz_header_replayed : ∃ s log, Machine.run lzStep (lznew 8192 false)
      [.read 100 (.data (frameHeader '\x0d')) (.ok 11 []),
        .read 100 (.data ['a', '\n']) (.ok 13 (frameHeader '\x0d' ++ ['a', '\n']))] =
          some (s, log) ∧
    ¬log.flatten.flatMap LzLog.consumed <+: log.flatten.flatMap LzLog.bytes :=
  ⟨_, _, rfl, by decide⟩

/-! ## The snappy stream -/

/-- What `snappy_uncompress` gives: it has consumed all its input, or that is not a whole block, or
there is no room for the output. -/
inductive Uncompress
  | ok (out : Text)
  | invalidInput
  | bufferTooSmall
  deriving DecidableEq, Repr

/-- The stream. `ipos` is a `size_t`; `ibuf` has the bytes below it, as long as it stays below
`isize`. `waiting` counts the bytes received that were neither decompressed nor discarded, which the
source does not keep. -/
structure SnappyStrm where
  ibuf : Text
  ipos : Nat
  isize : Nat
  closing : Bool
  waiting : Nat
  deriving DecidableEq, Repr

/-- `size_t` subtraction. -/
def sizeSub (a b : Nat) : Nat := (a + 2 ^ 64 - b) % 2 ^ 64

/-- `dispatcher.c:552`, the bytes in the buffer are uncompressed. `again` is what `errno` was left
at. Output that is longer than the room `sze` for it, a `size_t`, has no meaning. -/
def snappyUncompress (sze : Nat) (again : Bool) (r : Uncompress) (s : SnappyStrm) :
    Option (ReadResult × SnappyStrm) :=
  match r with
  | .ok out =>
    if out.length ≤ sze ∧ sze < 2 ^ 64 then
      let ipos := sizeSub s.ipos out.length
      let s := { s with ipos, ibuf := (s.ibuf.drop out.length).take ipos, waiting := 0 }
      some (if out = [] then .eof else .data out, s)
    else none
  | .bufferTooSmall =>
    some (if again then .again else .error, { s with ipos := 0, ibuf := [], waiting := 0 })
  | .invalidInput => some (if again then .again else .error, s)

/-- `dispatcher.c:533 snappyread`. A read behind the end of the buffer has no meaning. -/
def snappyread (sze : Nat) (read : ReadResult) (again : Bool) (r : Uncompress) (s : SnappyStrm) :
    Option (ReadResult × SnappyStrm) :=
  if s.isize < s.ipos then none
  else
    match read with
    | .data bytes =>
      if bytes ≠ [] ∧ s.ipos + bytes.length ≤ s.isize then
        snappyUncompress sze again r
          { s with
            ibuf := s.ibuf ++ bytes
            ipos := s.ipos + bytes.length
            closing := false
            waiting := s.waiting + bytes.length }
      else none
    | read => some (read, { s with closing := connectionEnded read })

/-- A call of `snappyread` with the results it meets. -/
structure SnappyCall where
  sze : Nat
  read : ReadResult
  again : Bool
  r : Uncompress
  deriving DecidableEq, Repr

/-- The call gets data and uncompresses it. -/
def SnappyCall.succeeds (call : SnappyCall) : Bool :=
  match call.read, call.r with
  | .data _, .ok _ => true
  | _, _ => false

/-- What is recorded of a call: whether it succeeded, and the stream after it. -/
structure SnappyReturn where
  ok : Bool
  strm : SnappyStrm
  deriving DecidableEq, Repr

def snappyStep (s : SnappyStrm) (call : SnappyCall) : Option (SnappyStrm × List SnappyReturn) :=
  (snappyread call.sze call.read call.again call.r s).map fun (_, s') => (s', [⟨call.succeeds, s'⟩])

/-- `dispatcher.c:589 snappynew`. -/
def snappynew (isize : Nat) (closing : Bool) : SnappyStrm := ⟨[], 0, isize, closing, 0⟩

/-- The fill level is in the buffer, and after a successful call it counts what was not
decompressed. -/
def SnappyReturn.Counts (e : SnappyReturn) : Prop :=
  e.strm.ipos ≤ e.strm.isize ∧ (e.ok = true → e.strm.ipos = e.strm.waiting)

/-- If the call uncompresses something, its output is as long as what was in the buffer. -/
def SameLength (s : SnappyStrm) (call : SnappyCall) : Prop :=
  match call.read, call.r with
  | .data bytes, .ok out => out.length = s.ipos + bytes.length
  | _, _ => True

instance decidableSameLength (s : SnappyStrm) : DecidablePred (SameLength s)
  | ⟨_, .data bytes, _, .ok out⟩ => inferInstanceAs (Decidable (out.length = s.ipos + bytes.length))
  | ⟨_, .data _, _, .invalidInput⟩ | ⟨_, .data _, _, .bufferTooSmall⟩
  | ⟨_, .eof, _, _⟩ | ⟨_, .again, _, _⟩ | ⟨_, .error, _, _⟩ => inferInstanceAs (Decidable True)

theorem sizeSub_eq_zero_iff {a b : Nat} (ha : a < 2 ^ 64) (hb : b < 2 ^ 64) :
    sizeSub a b = 0 ↔ b = a := by
  unfold sizeSub
  omega

/-- The fill level is in the buffer, whose size is a `size_t`. -/
def SnappyStrm.InBuffer (s : SnappyStrm) : Prop := s.ipos ≤ s.isize ∧ s.isize < 2 ^ 64

section
variable {s s' : SnappyStrm} {call : SnappyCall} {l : List SnappyReturn}

theorem snappyUncompress_spec {sze : Nat} {again : Bool} {r : Uncompress} {ret : ReadResult}
    (h : snappyUncompress sze again r s = some (ret, s')) (hs : s.InBuffer) :
    s'.isize = s.isize ∧ match r with
      | .ok out => s'.waiting = 0 ∧ (s'.ipos = 0 ↔ out.length = s.ipos)
      | _ => s'.ipos ≤ s.ipos := by
  cases r with
  | ok out =>
    simp only [snappyUncompress] at h
    split at h
    case isFalse => cases h
    case isTrue hlen =>
      cases h
      exact ⟨rfl, rfl, sizeSub_eq_zero_iff (hs.1.trans_lt hs.2) (hlen.1.trans_lt hlen.2)⟩
  | invalidInput => cases h; exact ⟨rfl, Nat.le_refl _⟩
  | bufferTooSmall => cases h; exact ⟨rfl, Nat.zero_le _⟩

/-- A call keeps the fill level what it should be exactly if its output is as long as its input. -/
theorem snappyStep_counts (hs : s.InBuffer) (h : snappyStep s call = some (s', l)) :
    ((∀ e ∈ l, e.Counts) ↔ SameLength s call) ∧ (SameLength s call → s'.InBuffer) := by
  obtain ⟨sze, read, again, r⟩ := call
  obtain ⟨⟨ret, s₁⟩, hread, heq⟩ := Option.map_eq_some_iff.1 h
  cases heq
  rw [forall_mem_singleton]
  simp only [snappyread, if_neg (Nat.not_lt.2 hs.1)] at hread
  cases read with
  | eof | again | error =>
    cases hread
    exact ⟨iff_of_true ⟨hs.1, nofun⟩ trivial, fun _ => hs⟩
  | data bytes =>
    simp only at hread
    split at hread
    case isFalse => cases hread
    case isTrue hfits =>
      obtain ⟨hsize, hspec⟩ := snappyUncompress_spec hread ⟨hfits.2, hs.2⟩
      simp only at hsize
      cases r with
      | ok out =>
        obtain ⟨hwaiting, hzero⟩ := hspec
        refine ⟨⟨fun hcounts => hzero.1 ((hcounts.2 rfl).trans hwaiting), fun hsame => ?_⟩,
          fun hsame => ?_⟩
        · have hipos := hzero.2 hsame
          exact ⟨hipos ▸ Nat.zero_le _, fun _ => hipos.trans hwaiting.symm⟩
        · exact ⟨hzero.2 hsame ▸ Nat.zero_le _, hsize ▸ hs.2⟩
      | invalidInput | bufferTooSmall =>
        have hle : s'.ipos ≤ s'.isize := hsize ▸ hspec.trans hfits.2
        exact ⟨iff_of_true ⟨hle, nofun⟩ trivial, fun _ => ⟨hle, hsize ▸ hs.2⟩⟩

end

/-- Over all calls on a stream, the fill level stays in the buffer and counts what was not
decompressed exactly if the output of every call that uncompressed something was as long as its
input. -/
theorem snappy_ipos_iff {isize : Nat} {closing : Bool} {calls : List SnappyCall} {s : SnappyStrm}
    {log : List (List SnappyReturn)} (hsize : isize < 2 ^ 64)
    (h : Machine.run snappyStep (snappynew isize closing) calls = some (s, log)) :
    (∀ e ∈ log.flatten, e.Counts) ↔
      Machine.Along snappyStep SameLength (snappynew isize closing) calls :=
  Machine.run_exact (I := SnappyStrm.InBuffer) (fun _ _ _ _ hs hstep => snappyStep_counts hs hstep)
    ⟨Nat.zero_le _, hsize⟩ h

/-- A block for `aaaaa`, a literal and a copy of four bytes, that is as long as its output. Its
length arrives first. -/
theorem snappy_ipos_same : ∃ s log, Machine.run snappyStep (snappynew 8192 false)
      [⟨100, .data ['\x05'], true, .invalidInput⟩,
        ⟨100, .data ['\x00', 'a', '\x01', '\x01'], true, .ok "aaaaa".toList⟩] =
        some (s, log) ∧ ∀ e ∈ log.flatten, e.Counts := by
  exact Machine.exists_of_isSome rfl fun s log hrun =>
    (snappy_ipos_iff (by decide) hrun).2 (by decide)

/-- Five bytes, a literal and a copy of eleven, that uncompress to twelve: the fill level wraps
around. A literal of three bytes that uncompresses to one: two of them stay. -/
theorem snappy_ipos_wraps :
    (∃ s log, Machine.run snappyStep (snappynew 8192 false)
        [⟨100, .data ['\x0c', '\x00', 'a', '\x1d', '\x01'], true, .ok "aaaaaaaaaaaa".toList⟩] =
          some (s, log) ∧
      s.ipos = 2 ^ 64 - 7) ∧
    ∃ s log, Machine.run snappyStep (snappynew 8192 false)
        [⟨100, .data ['\x01', '\x00', 'a'], true, .ok ['a']⟩] = some (s, log) ∧ s.ipos = 2 ∧
          s.waiting = 0 :=
  ⟨⟨_, _, rfl, by decide⟩, _, _, rfl, by decide, rfl⟩

end CarbonRelay
