import CarbonRelay.Dispatcher.Decompress
import CarbonRelay.Server.Basic

/-!
# The input of gzip streams

A gzip stream of `dispatcher.c` has its input in a buffer that four variables describe: `ipos` is
the end of what was read, and `next_in` and `avail_in`, which zlib moves, are where `inflate` goes
on and how much is left for it. `gzipread` moves what is left to the front and reads behind it. The
memory of the buffer is modelled as such, without an end, so what is read or written behind the
buffer would be seen.

All calls agree on what is left: it is the range from `next_in` up to `ipos`, every call of
`inflate` is handed exactly what was received and not taken before, and the reads stay inside the
buffer (`gzip_input_run`).
-/

namespace CarbonRelay

open List

/-! ## The code -/

/-- What `inflate` returns. -/
inductive ZCode
  | ok
  | streamEnd
  | dataError
  | memError
  | bufError
  | other
  deriving DecidableEq

/-- What zlib does: the value returned, how much input `inflate` takes, its output, and how much
input `inflateSync` takes if that is called. -/
structure Inflated where
  code : ZCode
  consumed : Nat
  out : Text
  synced : Nat

/-- What `errno` is set to. -/
inductive GzErrno
  | ebadmsg
  | enomem
  | eagain
  deriving DecidableEq

/-- The value returned, and what `errno` was set to. -/
structure GzRet where
  ret : Int
  errno : Option GzErrno
  deriving DecidableEq

/-- The stream. `ibuf` is the memory from the start of the buffer on, `nextIn` the distance of
`next_in` from there, and `finish` tells that the mode of `inflate` is `Z_FINISH`. -/
structure GzStrm where
  ibuf : Nat → Char
  isize : Nat
  ipos : Nat
  nextIn : Nat
  availIn : Nat
  finish : Bool
  closing : Bool

/-- What is recorded of a stream: a read to a position, for how much and what was stored; and the
input zlib was handed with how much of it was taken. -/
inductive GzLog
  | read (pos size : Nat) (bytes : Text)
  | taken (src : Text) (n : Nat)

/-- Bytes are stored at a position. -/
def store (mem : Nat → Char) (pos : Nat) (bytes : Text) : Nat → Char := fun i =>
  if pos ≤ i then bytes.getD (i - pos) (mem i) else mem i

namespace GzStrm

/-- The input that is left for `inflate`. -/
def unread (s : GzStrm) : Text := (range' s.nextIn s.availIn).map s.ibuf

/-- zlib takes input. -/
def advance (s : GzStrm) (n : Nat) : GzStrm :=
  { s with nextIn := s.nextIn + n, availIn := s.availIn - n }

/-- `dispatcher.c:301`, the end of `gzipreadbuf`. -/
def returned (s : GzStrm) (iret : Int) (errno : Option GzErrno) : GzRet :=
  if iret < 1 then
    if s.ipos = s.isize then ⟨iret, some .ebadmsg⟩
    else if s.closing = false then ⟨iret, some .eagain⟩
    else ⟨iret, errno⟩
  else ⟨iret, errno⟩

/-- `dispatcher.c:235`, what is left is moved to the front. -/
def compact (s : GzStrm) : GzStrm :=
  if s.nextIn ≠ 0 then { s with ibuf := store s.ibuf 0 s.unread, nextIn := 0, ipos := s.availIn }
  else s

end GzStrm

/-- `dispatcher.c:266 gzipreadbuf`. A result of zlib that takes more input or room than there is has
no meaning. -/
def gzipreadbuf (sze : Nat) (z : Inflated) (s : GzStrm) : Option (GzRet × GzStrm × List GzLog) :=
  if z.consumed + z.synced ≤ s.availIn ∧ z.out.length ≤ sze then
    let log := [.taken s.unread z.consumed]
    let s := s.advance z.consumed
    match z.code with
    | .ok | .streamEnd => some (s.returned z.out.length none, s, log)
    | .dataError =>
      let s' := s.advance z.synced
      some (s'.returned (-1) none, s', log ++ [.taken s.unread z.synced])
    | .memError => some (⟨-1, some .enomem⟩, s, log)
    | .bufError => some (s.returned (-5) (some .eagain), s, log)
    | .other => some (s.returned (-1) none, s, log)
  else none

/-- `dispatcher.c:224 gzipread`, with the result of the read of the next stream. `avail_in` has 32
bits. -/
def gzipread (sze : Nat) (read : ReadResult) (z : Inflated) (s : GzStrm) :
    Option (GzRet × GzStrm × List GzLog) :=
  if s.isize ≤ (s.availIn + 1) % 2 ^ 32 then some (⟨-1, some .ebadmsg⟩, s, [])
  else
    let s := s.compact
    let size := sizeSub s.isize s.ipos
    let s' := { s with closing := connectionEnded read, finish := s.finish || connectionEnded read }
    match read with
    | .data bytes =>
      if bytes ≠ [] ∧ bytes.length ≤ size then
        (gzipreadbuf sze z { s' with
          ibuf := store s.ibuf s.ipos bytes
          availIn := (s.availIn + bytes.length) % 2 ^ 32
          ipos := s.ipos + bytes.length }).map fun (ret, s', log) =>
            (ret, s', .read s.ipos size bytes :: log)
      else none
    | .eof => some (⟨0, none⟩, s', [.read s.ipos size []])
    | .again | .error =>
      (gzipreadbuf sze z s').map fun (ret, s', log) => (ret, s', .read s.ipos size [] :: log)

/-- A call on the stream. -/
inductive GzCall
  | read (sze : Nat) (read : ReadResult) (z : Inflated)
  | readbuf (sze : Nat) (z : Inflated)

def gzStep (s : GzStrm) : GzCall → Option (GzStrm × List GzLog)
  | .read sze read z => (gzipread sze read z s).map Prod.snd
  | .readbuf sze z => (gzipreadbuf sze z s).map Prod.snd

/-- `dispatcher.c:330 gzipnew`, with the size that `connection_strm_new` asks for. The memory and
`closing` are as they are found. -/
def gzipnew (mem : Nat → Char) (closing : Bool) : GzStrm :=
  ⟨mem, metricBufsiz, 0, 0, 0, false, closing⟩

/-! ## What zlib is handed -/

def GzLog.received : GzLog → Text
  | .read _ _ bytes => bytes
  | .taken .. => []

/-- What zlib took. -/
def GzLog.consumed : GzLog → Text
  | .read .. => []
  | .taken src n => src.take n

/-- The read is inside the buffer. -/
def GzLog.Within : GzLog → Prop
  | .read pos size bytes => pos + size ≤ metricBufsiz ∧ bytes.length ≤ size
  | .taken .. => True

/-- From some input that is left to other such input: each time zlib was handed all that was
received and not taken before. -/
def Handed : Text → List GzLog → Text → Prop
  | u, [], u' => u = u'
  | u, .read _ _ bytes :: log, u' => Handed (u ++ bytes) log u'
  | u, .taken src n :: log, u' => src = u ∧ n ≤ u.length ∧ Handed (u.drop n) log u'

section
variable {u v w : Text} {l l' : List GzLog}

theorem Handed.append (h : Handed u l v) (h' : Handed v l' w) : Handed u (l ++ l') w := by
  induction l generalizing u with
  | nil =>
    obtain rfl : u = v := h
    exact h'
  | cons e l ih =>
    cases e with
    | read pos size bytes => exact ih h
    | taken src n => exact ⟨h.1, h.2.1, ih h.2.2⟩

theorem Handed.conserves (h : Handed u l v) :
    u ++ l.flatMap GzLog.received = l.flatMap GzLog.consumed ++ v := by
  induction l generalizing u with
  | nil => simpa [Handed] using h
  | cons e l ih =>
    cases e with
    | read pos size bytes => simpa [GzLog.received, GzLog.consumed] using ih h
    | taken src n =>
      obtain ⟨rfl, -, h⟩ := h
      have hrest := ih h
      simp only [flatMap_cons, GzLog.received, GzLog.consumed, nil_append]
      rw [append_assoc, ← hrest, ← append_assoc, take_append_drop]

end

/-! ## The variables -/

variable {mem : Nat → Char}

theorem map_store_of_le {pos a n : Nat} {bytes : Text} (h : a + n ≤ pos) :
    (range' a n).map (store mem pos bytes) = (range' a n).map mem := by
  refine map_congr_left fun i hi => if_neg ?_
  have hi := mem_range'_1.1 hi
  omega

theorem map_store {pos : Nat} {bytes : Text} :
    (range' pos bytes.length).map (store mem pos bytes) = bytes := by
  refine ext_getElem (by simp) fun i hi hi' => ?_
  simp [store, getElem?_eq_getElem hi']

namespace GzStrm

variable {s s' : GzStrm} {sze n : Nat} {z : Inflated} {ret : GzRet} {log : List GzLog}

/-- The variables agree. -/
structure Sound (s : GzStrm) : Prop where
  unread : s.nextIn + s.availIn = s.ipos
  within : s.ipos ≤ s.isize
  size : s.isize = metricBufsiz

@[simp] theorem length_unread : s.unread.length = s.availIn := by simp [GzStrm.unread]

/-- What a call does. -/
structure Keeps (s : GzStrm) (log : List GzLog) (s' : GzStrm) : Prop where
  sound : s'.Sound
  handed : Handed s.unread log s'.unread
  within : ∀ e ∈ log, e.Within

theorem Sound.taken (h : s.Sound) (hn : n ≤ s.availIn) :
    s.Keeps [.taken s.unread n] (s.advance n) := by
  refine ⟨⟨?_, h.within, h.size⟩, ⟨rfl, hn.trans_eq length_unread.symm, ?_⟩,
    forall_mem_singleton.2 trivial⟩
  · have hunread := h.unread
    simp only [advance]
    omega
  · simp only [Handed, GzStrm.unread, advance, ← map_drop, drop_range', Nat.mul_one]

theorem Keeps.trans {s'' : GzStrm} {log' : List GzLog} (h : s.Keeps log s')
    (h' : s'.Keeps log' s'') : s.Keeps (log ++ log') s'' :=
  ⟨h'.sound, h.handed.append h'.handed, forall_mem_append.2 ⟨h.within, h'.within⟩⟩

theorem Sound.gzipreadbuf (h : s.Sound) (hcall : gzipreadbuf sze z s = some (ret, s', log)) :
    s.Keeps log s' := by
  unfold CarbonRelay.gzipreadbuf at hcall
  split at hcall
  case isFalse => cases hcall
  case isTrue hfits =>
    have htaken := h.taken (n := z.consumed) (by omega)
    have hsynced := htaken.sound.taken (n := z.synced) (by simp only [advance]; omega)
    cases hcode : z.code with
    | dataError =>
      simp only [hcode] at hcall
      cases hcall
      exact htaken.trans hsynced
    | _ =>
      simp only [hcode] at hcall
      cases hcall
      exact htaken

theorem Keeps.gzipreadbuf {s'' : GzStrm} {log' : List GzLog} (h : s.Keeps log s')
    (hcall : gzipreadbuf sze z s' = some (ret, s'', log')) : s.Keeps (log ++ log') s'' :=
  h.trans (h.sound.gzipreadbuf hcall)

theorem Sound.compact (h : s.Sound) : s.compact.Sound ∧ s.compact.unread = s.unread := by
  unfold GzStrm.compact
  split
  next =>
    have hunread := h.unread
    have hwithin := h.within
    refine ⟨⟨Nat.zero_add _, by dsimp only; omega, h.size⟩, ?_⟩
    have hstore := @map_store s.ibuf 0 s.unread
    rw [length_unread] at hstore
    exact hstore
  next => exact ⟨h, rfl⟩

theorem Sound.sizeSub_eq (h : s.Sound) : sizeSub s.isize s.ipos = metricBufsiz - s.ipos := by
  obtain ⟨-, hwithin, hsize⟩ := h
  have hmetric : metricBufsiz = 32768 := rfl
  rw [sizeSub]
  omega

/-- A read behind what is left. -/
theorem Sound.read {bytes : Text} {closing finish : Bool} (h : s.Sound)
    (hbytes : bytes.length ≤ sizeSub s.isize s.ipos) :
    s.Keeps [.read s.ipos (sizeSub s.isize s.ipos) bytes]
      { s with
        ibuf := store s.ibuf s.ipos bytes, availIn := (s.availIn + bytes.length) % 2 ^ 32
        ipos := s.ipos + bytes.length, closing, finish } := by
  rw [h.sizeSub_eq] at hbytes ⊢
  obtain ⟨hunread, hwithin, hsize⟩ := h
  have hmetric : metricBufsiz = 32768 := rfl
  have havail : (s.availIn + bytes.length) % 2 ^ 32 = s.availIn + bytes.length := by omega
  refine ⟨⟨?_, ?_, hsize⟩, ?_, forall_mem_singleton.2 ⟨by omega, hbytes⟩⟩
  · dsimp only
    omega
  · dsimp only
    omega
  · simp only [Handed, GzStrm.unread, havail]
    rw [← range'_append_1, map_append, map_store_of_le hunread.le, hunread, map_store]

/-- A read that stores nothing. -/
theorem Sound.readNothing {closing finish : Bool} (h : s.Sound) :
    s.Keeps [.read s.ipos (sizeSub s.isize s.ipos) []] { s with closing, finish } := by
  refine ⟨⟨h.unread, h.within, h.size⟩, append_nil _, forall_mem_singleton.2 ⟨?_, Nat.zero_le _⟩⟩
  have hwithin := h.within.trans_eq h.size
  rw [h.sizeSub_eq]
  omega

theorem Sound.gzipread {read : ReadResult} (h : s.Sound)
    (hcall : gzipread sze read z s = some (ret, s', log)) : s.Keeps log s' := by
  unfold CarbonRelay.gzipread at hcall
  split at hcall
  case isTrue =>
    cases hcall
    exact ⟨h, rfl, fun _ => nofun⟩
  case isFalse =>
    obtain ⟨hsound, hunread⟩ := h.compact
    suffices hkeeps : s.compact.Keeps log s' from ⟨hkeeps.sound, hunread ▸ hkeeps.handed,
        hkeeps.within⟩
    cases read with
    | data bytes =>
      dsimp only at hcall
      split at hcall
      case isFalse => cases hcall
      case isTrue hbytes =>
        obtain ⟨⟨ret, s', log⟩, hbuf, heq⟩ := Option.map_eq_some_iff.1 hcall
        cases heq
        exact (hsound.read hbytes.2).gzipreadbuf hbuf
    | eof =>
      cases hcall
      exact hsound.readNothing
    | again | error =>
      obtain ⟨⟨ret, s', log⟩, hbuf, heq⟩ := Option.map_eq_some_iff.1 hcall
      cases heq
      exact hsound.readNothing.gzipreadbuf hbuf

end GzStrm

/-! ## Runs -/

theorem gzStep_keeps {s s' : GzStrm} {c : GzCall} {log : List GzLog} (h : s.Sound)
    (hstep : gzStep s c = some (s', log)) : s.Keeps log s' := by
  cases c with
  | read sze read z =>
    obtain ⟨⟨ret, s', log⟩, hcall, heq⟩ := Option.map_eq_some_iff.1 hstep
    cases heq
    exact h.gzipread hcall
  | readbuf sze z =>
    obtain ⟨⟨ret, s', log⟩, hcall, heq⟩ := Option.map_eq_some_iff.1 hstep
    cases heq
    exact h.gzipreadbuf hcall

/-- Whatever is read and whatever zlib takes: the variables agree, every call of zlib was handed all
that was received and not taken before, nothing is taken twice or left out, and the reads are inside
the buffer. -/
theorem gzip_input_run {closing : Bool} {calls : List GzCall} {s : GzStrm}
    {logs : List (List GzLog)} (hrun : Machine.run gzStep (gzipnew mem closing) calls =
      some (s, logs)) :
    (s.nextIn + s.availIn = s.ipos ∧ s.ipos ≤ s.isize) ∧ Handed [] logs.flatten s.unread ∧
      logs.flatten.flatMap GzLog.received = logs.flatten.flatMap GzLog.consumed ++ s.unread ∧
      ∀ e ∈ logs.flatten, e.Within := by
  have hnew : (gzipnew mem closing).Keeps [] (gzipnew mem closing) :=
    ⟨⟨rfl, Nat.zero_le _, rfl⟩, rfl, fun _ => nofun⟩
  have hinv := Machine.run_trace_invariant (p := fun _ => True)
    (I := fun tr s => (gzipnew mem closing).Keeps tr s)
    (fun tr s c s' o _ h hstep => h.trans (gzStep_keeps h.sound hstep)) (fun _ _ => trivial)
    hnew hrun
  rw [nil_append] at hinv
  exact ⟨⟨hinv.sound.unread, hinv.sound.within⟩, hinv.handed, hinv.handed.conserves, hinv.within⟩

/-- Two reads with a part left in between, which is moved to the front, and corrupt input. -/
def gzipCalls : List GzCall :=
  [.read 100 (.data "abcdef".toList) ⟨.ok, 4, "out".toList, 0⟩,
    .read 100 (.data "ghi".toList) ⟨.dataError, 1, [], 2⟩,
    .read 100 .eof ⟨.ok, 0, [], 0⟩,
    .readbuf 100 ⟨.streamEnd, 2, "end".toList, 0⟩]

theorem gzip_input_run_two : ∃ s logs,
    Machine.run gzStep (gzipnew (fun _ => 'x') false) gzipCalls = some (s, logs) ∧
      (s.nextIn + s.availIn = s.ipos ∧ s.ipos ≤ s.isize) ∧ Handed [] logs.flatten s.unread ∧
      logs.flatten.flatMap GzLog.received = logs.flatten.flatMap GzLog.consumed ++ s.unread ∧
      ∀ e ∈ logs.flatten, e.Within :=
  Machine.exists_of_isSome (by decide) fun _ _ => gzip_input_run

end CarbonRelay
