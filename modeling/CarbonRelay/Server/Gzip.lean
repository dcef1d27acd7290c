import CarbonRelay.Server.Framing

/-!
# Deflated output

`gzipflush` hands its buffer to `deflate` with an output block of `METRIC_BUFSIZ` bytes, and writes
the block to the next stream, until all input is consumed. `CarbonRelay.Server.Stream` takes what
comes of a round as given; here the rounds are read off the counters that `deflate` updates
(`gzipflushDeflate_eq`). A block that is filled to its end ends the loop without having been
written, and the buffer is given up all the same. So a flush loses nothing exactly if no call of
`deflate` fills its block (`gzip_lossless_iff`).
-/

namespace CarbonRelay

open List

/-! ## Calls of `deflate` -/

/-- What a call of `deflate` does: how much input it consumes, what it puts into the output block,
and whether it returns `Z_OK`. -/
structure Deflate where
  consumed : Nat
  out : Text
  ok : Bool
  deriving DecidableEq, Repr

/-- The call returns `Z_OK` with `avail_out` at 0. -/
def Deflate.Fills (d : Deflate) : Prop := d.ok = true ∧ d.out.length = metricBufsiz

instance (d : Deflate) : Decidable d.Fills := inferInstanceAs (Decidable (_ ∧ _))

/-- `server.c:275`, the block is written to the next stream. `strmwrite` takes all or nothing, so
there is no second round. -/
def writeBlock (conn : Nat) (cbuf : Text) (next : Obuf) : Option Obuf :=
  if cbuf = [] then some next else sockwrite conn cbuf next

/-- The loop ends here, when no call is left. -/
def endLoop (ok : Bool) (next : Obuf) : List Deflate → Option (Bool × Obuf)
  | [] => some (ok, next)
  | _ :: _ => none

/-- `server.c:262`, the loop of `gzipflush` with `availIn` bytes to go, over the calls of `deflate`
it makes: whether it goes on to flush, and the next stream. A call that takes more than it is given
has no meaning. -/
def deflateLoop (conn : Nat) : Nat → Obuf → List Deflate → Option (Bool × Obuf)
  | _, _, [] => none
  | availIn, next, d :: calls =>
    if d.consumed ≤ availIn ∧ d.out.length ≤ metricBufsiz then
      if d.ok then
        -- "too large output block, unlikely given the input, discard"
        if d.out.length = metricBufsiz then endLoop true next calls
        else
          match writeBlock conn d.out next with
          | none => endLoop false next calls
          | some next =>
            if availIn - d.consumed = 0 then endLoop true next calls
            else deflateLoop conn (availIn - d.consumed) next calls
      else endLoop false next calls
    else none

/-- `server.c:249 gzipflush`, over the calls of `deflate` it makes. -/
def gzipflushDeflate (conn : Nat) (s : Strm) (calls : List Deflate) (sys : List SysOut) :
    Option (Flushed Strm) :=
  flushNext s ((deflateLoop conn s.top.bytes.length s.next calls).map fun (ok, next) =>
    (ok, next, sys))

/-! ## What the rounds write -/

/-- The buffer with a text at its end. -/
def Obuf.append (o : Obuf) (conn : Nat) (buf : Text) : Obuf :=
  ⟨o.bytes ++ octets conn o.count buf, o.count + buf.length⟩

section
variable {conn availIn : Nat} {next next' : Obuf} {ok : Bool} {calls : List Deflate} {d : Deflate}

theorem octets_append (conn n : Nat) (buf buf' : Text) :
    octets conn n (buf ++ buf') = octets conn n buf ++ octets conn (n + buf.length) buf' := by
  simp [octets, zipIdx_append]

theorem Obuf.append_append (o : Obuf) (conn : Nat) (buf buf' : Text) :
    (o.append conn buf).append conn buf' = o.append conn (buf ++ buf') := by
  simp [Obuf.append, octets_append, Nat.add_assoc]

theorem Obuf.append_nil (o : Obuf) (conn : Nat) : o.append conn [] = o := by
  simp [Obuf.append, octets]

theorem sockwrite_eq_some {buf : Text} {o o' : Obuf} (h : sockwrite conn buf o = some o') :
    o' = o.append conn buf := by
  rw [sockwrite] at h
  split at h
  case isTrue => cases h
  case isFalse => exact (Option.some.inj h).symm

theorem writeBlock_eq_some {cbuf : Text} {o o' : Obuf} (h : writeBlock conn cbuf o = some o') :
    o' = o.append conn cbuf := by
  rw [writeBlock] at h
  split at h
  case isTrue hnil => rw [hnil, Obuf.append_nil, Option.some.inj h]
  case isFalse => exact sockwrite_eq_some h

theorem endLoop_eq_some {ok' : Bool} (h : endLoop ok next calls = some (ok', next')) :
    calls = [] ∧ ok' = ok ∧ next' = next := by
  cases calls with
  | nil => cases h; exact ⟨rfl, rfl, rfl⟩
  | cons d calls => cases h

/-- How the loop ends: it fails, or all input is consumed and all output is written, or the last
call has filled its block, which is not written. -/
inductive DeflateEnd (conn availIn : Nat) (next : Obuf) (calls : List Deflate) : Bool → Obuf → Prop
  | failed (next' : Obuf) (hroom : ∀ d ∈ calls, ¬d.Fills) : DeflateEnd conn availIn next calls
    false next'
  | drained (hroom : ∀ d ∈ calls, ¬d.Fills)
    (hconsumed : (calls.map Deflate.consumed).sum = availIn) :
      DeflateEnd conn availIn next calls true (next.append conn (calls.flatMap Deflate.out))
  | discarded (front : List Deflate) (d : Deflate) (hcalls : calls = front ++ [d])
    (hfills : d.Fills) :
      DeflateEnd conn availIn next calls true (next.append conn (front.flatMap Deflate.out))

/-- A round that is written and leaves input. -/
theorem DeflateEnd.round (hroom : ¬d.Fills) (hle : d.consumed ≤ availIn)
    (h : DeflateEnd conn (availIn - d.consumed) (next.append conn d.out) calls ok next') :
    DeflateEnd conn availIn next (d :: calls) ok next' := by
  cases h with
  | failed _ hroom' => exact .failed _ (forall_mem_cons.2 ⟨hroom, hroom'⟩)
  | drained hroom' hconsumed =>
    rw [Obuf.append_append]
    refine .drained (forall_mem_cons.2 ⟨hroom, hroom'⟩) ?_
    rw [map_cons, sum_cons, hconsumed]
    omega
  | discarded front last hcalls hfills =>
    rw [Obuf.append_append]
    exact .discarded (d :: front) last (by rw [hcalls, cons_append]) hfills

/-- A loop that goes on to flush without a block filled has consumed and written everything. -/
theorem DeflateEnd.drained_of_room (h : DeflateEnd conn availIn next calls true next')
    (hroom : ∀ d ∈ calls, ¬d.Fills) : (calls.map Deflate.consumed).sum = availIn ∧
      next' = next.append conn (calls.flatMap Deflate.out) := by
  cases h with
  | drained _ hconsumed => exact ⟨hconsumed, rfl⟩
  | discarded front d hcalls hfills =>
    refine absurd hfills (hroom d ?_)
    rw [hcalls]
    exact mem_concat_self

theorem deflateLoop_end (h : deflateLoop conn availIn next calls = some (ok, next')) :
    DeflateEnd conn availIn next calls ok next' := by
  fun_induction deflateLoop conn availIn next calls with
  | case1 | case7 => cases h
  | case2 availIn next d calls hfits hok hfull =>
    obtain ⟨rfl, rfl, rfl⟩ := endLoop_eq_some h
    have hend : DeflateEnd conn availIn next' [d] true
        (next'.append conn ([].flatMap Deflate.out)) :=
      .discarded [] d rfl ⟨hok, hfull⟩
    rwa [flatMap_nil, Obuf.append_nil] at hend
  | case3 availIn next d calls hfits hok hroom hwrite =>
    obtain ⟨rfl, rfl, rfl⟩ := endLoop_eq_some h
    exact .failed _ (forall_mem_singleton.2 fun hfills => hroom hfills.2)
  | case4 availIn next d calls hfits hok hroom next₁ hwrite hdone =>
    obtain ⟨rfl, rfl, rfl⟩ := endLoop_eq_some h
    rw [writeBlock_eq_some hwrite, ← append_nil d.out]
    refine .drained (forall_mem_singleton.2 fun hfills => hroom hfills.2) ?_
    rw [map_singleton, sum_singleton]
    omega
  | case5 availIn next d calls hfits hok hroom next₁ hwrite hmore ih =>
    rw [writeBlock_eq_some hwrite] at ih h
    exact (ih h).round (fun hfills => hroom hfills.2) hfits.1
  | case6 availIn next d calls hfits hok =>
    obtain ⟨rfl, rfl, rfl⟩ := endLoop_eq_some h
    exact .failed _ (forall_mem_singleton.2 fun hfills => hok hfills.1)

/-! ## The streams of a connection -/

/-- What `CarbonRelay.Server.Stream` calls the outcome of a round. -/
def compressResults : Nat → List Deflate → List SysOut
  | _, [] => []
  | availIn, d :: calls =>
    let r : CompressResult :=
      if d.ok then
        if d.out.length = metricBufsiz then .full
        else .out d.out (decide (availIn - d.consumed ≠ 0))
      else .error
    .compress r :: compressResults (availIn - d.consumed) calls

variable {s : Strm} {sys : List SysOut}

section
variable (hfits : next.bytes.length ≤ metricBufsiz)
include hfits

/-- A block without bytes is as good as written. -/
theorem sockwrite_eq_writeBlock (cbuf : Text) :
    sockwrite conn cbuf next = writeBlock conn cbuf next := by
  rw [writeBlock]
  split
  case isTrue hnil =>
    have happend : next.append conn [] = next := next.append_nil conn
    subst hnil
    rw [sockwrite, if_neg (by simpa using hfits)]
    exact congrArg some happend
  case isFalse => rfl

theorem writeBlock_fits {cbuf : Text} {next' : Obuf}
    (h : writeBlock conn cbuf next = some next') : next'.bytes.length ≤ metricBufsiz := by
  rw [← sockwrite_eq_writeBlock hfits, sockwrite] at h
  split at h
  case isTrue => cases h
  case isFalse hle =>
    cases h
    rw [length_append, length_octets]
    exact Nat.not_lt.1 hle

theorem gzipDeflate_compressResults {r : Bool × Obuf}
    (h : deflateLoop conn availIn next calls = some r) :
    gzipDeflate conn next (compressResults availIn calls ++ sys) = some (r.1, r.2, sys) := by
  fun_induction deflateLoop conn availIn next calls with
  | case1 | case7 => cases h
  | case2 availIn next d calls _ hok hfull =>
    obtain ⟨rfl, hr, hnext⟩ := endLoop_eq_some h
    simp [compressResults, gzipDeflate, hok, hfull, hr, hnext]
  | case3 availIn next d calls _ hok hroom hwrite =>
    obtain ⟨rfl, hr, hnext⟩ := endLoop_eq_some h
    simp [compressResults, gzipDeflate, hok, hroom, hr, hnext, sockwrite_eq_writeBlock hfits,
      hwrite]
  | case4 availIn next d calls _ hok hroom next₁ hwrite hdone =>
    obtain ⟨rfl, hr, hnext⟩ := endLoop_eq_some h
    simp [compressResults, gzipDeflate, hok, hroom, hr, hnext, sockwrite_eq_writeBlock hfits,
      hwrite, hdone]
  | case5 availIn next d calls _ hok hroom next₁ hwrite hmore ih =>
    have hrest := ih (writeBlock_fits hfits hwrite) h
    simp [compressResults, gzipDeflate, hok, hroom, sockwrite_eq_writeBlock hfits, hwrite,
      hmore, hrest]
  | case6 availIn next d calls _ hok =>
    obtain ⟨rfl, hr, hnext⟩ := endLoop_eq_some h
    simp [compressResults, gzipDeflate, hok, hr, hnext]

end

variable {r : Flushed Strm}

/-- A flush over its calls of `deflate` is a flush of the stream of a connection. -/
theorem gzipflushDeflate_eq (hfits : s.next.bytes.length ≤ metricBufsiz)
    (h : gzipflushDeflate conn s calls sys = some r) :
    gzipflush conn s (compressResults s.top.bytes.length calls ++ sys) = some r := by
  rw [gzipflushDeflate] at h
  cases hloop : deflateLoop conn s.top.bytes.length s.next calls with
  | none =>
    rw [hloop] at h
    cases h
  | some r₁ =>
    rw [hloop] at h
    rw [gzipflush, gzipDeflate_compressResults hfits hloop]
    exact h

/-! ## Nothing is lost -/

/-- What a flush owes: one that succeeds has consumed the whole buffer, and the next stream has sent
all that `deflate` gave, in order, after what it held before; one that fails keeps the buffer. -/
structure GzipLossless (conn : Nat) (s : Strm) (calls : List Deflate) (r : Flushed Strm) :
    Prop where
  consumed : r.ok = true → (calls.map Deflate.consumed).sum = s.top.bytes.length
  sent : r.ok = true → r.sent = (s.next.append conn (calls.flatMap Deflate.out)).bytes
  kept : r.ok = false → r.strm.top = s.top

/-- A socket that takes all it is given. -/
theorem exists_sockflush_ok (o : Obuf) :
    ∃ sys, sockflush o sys = some ⟨true, o.reset, o.bytes, []⟩ := by
  by_cases hnil : o.bytes = []
  · refine ⟨[], ?_⟩
    rw [sockflush, if_pos hnil, Obuf.reset, ← hnil]
  · refine ⟨[.write (.wrote o.bytes.length)], ?_⟩
    simp [sockflush, hnil, serverMaxSend, flushLoop]

theorem flushNext_ok {sys : List SysOut} (h : flushNext s (some (ok, next, sys)) = some r)
    (hr : r.ok = true) : ok = true ∧ r.sent = next.bytes := by
  cases ok with
  | false => cases h; cases hr
  | true =>
    refine ⟨rfl, ?_⟩
    simp only [flushNext] at h
    split at h
    case h_1 => cases h
    case h_2 r₁ hflush =>
      cases h
      rcases sockflush_cases hflush with ⟨-, hsent, -⟩ | ⟨hok, -⟩
      · exact hsent
      · cases hok.symm.trans hr

theorem flushNext_failed {sys : List SysOut}
    (h : flushNext s (some (ok, next, sys)) = some r) (hr : r.ok = false) : r.strm.top = s.top := by
  cases ok with
  | false => cases h; rfl
  | true =>
    simp only [flushNext] at h
    split at h
    case h_1 => cases h
    case h_2 r₁ hflush =>
      cases h
      exact if_neg (Bool.eq_false_iff.1 hr)

/-- What the next stream holds after a block was discarded is short of that block. -/
theorem append_discarded_ne {front : List Deflate} {d : Deflate} (hfills : d.Fills) :
    (next.append conn (front.flatMap Deflate.out)).bytes ≠
      (next.append conn ((front ++ [d]).flatMap Deflate.out)).bytes := by
  intro heq
  have hlen := congrArg List.length heq
  simp only [Obuf.append, length_append, length_octets, flatMap_append, flatMap_singleton,
    hfills.2] at hlen
  simp [metricBufsiz] at hlen

end

/-- A flush that makes the calls `calls` of `deflate` loses nothing, whatever the socket does,
exactly if no call fills its output block. -/
theorem gzip_lossless_iff {conn : Nat} {s : Strm} {calls : List Deflate}
    (h : (deflateLoop conn s.top.bytes.length s.next calls).isSome = true) :
    (∀ sys r, gzipflushDeflate conn s calls sys = some r → GzipLossless conn s calls r) ↔
      ∀ d ∈ calls, ¬d.Fills := by
  obtain ⟨⟨ok, next⟩, hloop⟩ := Option.isSome_iff_exists.1 h
  simp only [gzipflushDeflate, hloop, Option.map_some]
  have hend := deflateLoop_end hloop
  constructor
  · intro hall
    cases hend with
    | failed _ hroom | drained hroom _ => exact hroom
    | discarded front d hcalls hfills =>
      obtain ⟨sys, hsock⟩ := exists_sockflush_ok (s.next.append conn (front.flatMap Deflate.out))
      have hlossless := hall sys _ (by rw [flushNext, hsock])
      subst hcalls
      exact absurd (hlossless.sent rfl) (append_discarded_ne hfills)
  · intro hroom sys r hflush
    refine ⟨fun hr => ?_, fun hr => ?_, flushNext_failed hflush⟩
    · obtain ⟨rfl, -⟩ := flushNext_ok hflush hr
      exact (hend.drained_of_room hroom).1
    · obtain ⟨rfl, hsent⟩ := flushNext_ok hflush hr
      rw [hsent, (hend.drained_of_room hroom).2]

/-- A stream with a text in its buffer. -/
def gzipStrm (buf : Text) : Strm := ⟨some .gzip, ⟨octets 0 0 buf, buf.length⟩, ⟨[], 0⟩⟩

/-- What zlib gives for the line `a 1` and a partial flush: the header of a gzip stream and a block.
-/
def deflatedLine : Deflate where
  consumed := 4
  out := ['\x1f', '\x8b', '\x08', '\x00', '\x00', '\x00', '\x00', '\x00', '\x00', '\x03',
    '\x4a', '\x54', '\x30', '\xe4', '\x02', '\x08']
  ok := true

/-- A line that deflates in one round. -/
theorem gzip_lossless_line :
    (deflateLoop 0 4 (gzipStrm "a 1\n".toList).next [deflatedLine]).isSome = true ∧
    ∀ sys r, gzipflushDeflate 0 (gzipStrm "a 1\n".toList) [deflatedLine] sys = some r →
      GzipLossless 0 (gzipStrm "a 1\n".toList) [deflatedLine] r :=
  ⟨by decide, (gzip_lossless_iff (by decide)).2 (by decide)⟩

/-- A buffer of `METRIC_BUFSIZ` bytes that deflates to as many: the flush succeeds, nothing is sent,
and the buffer is empty. -/
theorem gzip_block_lost : ∃ r, gzipflushDeflate 0 (gzipStrm (List.replicate metricBufsiz 'a'))
      [⟨metricBufsiz, List.replicate metricBufsiz 'z', true⟩] [] = some r ∧
    r.ok = true ∧ r.sent = [] ∧ r.strm.top.bytes = [] := by
  let s := gzipStrm (List.replicate metricBufsiz 'a')
  have hlen : s.top.bytes.length = metricBufsiz := (length_octets ..).trans length_replicate
  refine ⟨⟨true, { s with top := s.top.reset }, [], []⟩, ?_, rfl, rfl, rfl⟩
  rw [gzipflushDeflate, hlen]
  simp only [deflateLoop, length_replicate, le_refl, and_self, if_true, endLoop, Option.map_some]
  rfl

end CarbonRelay
