import CarbonRelay.Cluster.Basic
import Mathlib.Data.List.TakeWhile

/-!
# Addresses in the configuration

`router_validate_address` takes an address apart: behind the last colon there is the port, and a
host with colons stands in brackets. It does so in place, with terminators over the colon and the
bracket. The port is read by `strtol`, which also takes white space and a sign in front of the
digits.
-/

namespace CarbonRelay

open List

/-- The fields of `hint` that are set: the kind of socket, and whether the host has to be an
address. -/
structure AddrHint where
  udp : Bool
  numericHost : Bool
  deriving DecidableEq, Repr

/-- The resolver of the system, and whether there is memory for the hint. -/
structure Resolver (α : Type) where
  getaddrinfo : Option Text → Text → AddrHint → Option α
  malloc : Bool

/-- What is returned for an address that is valid. Without a host it is the one of any interface. -/
structure Address (α : Type) where
  ip : Option Text
  port : Nat
  saddr : Option α
  hint : Option AddrHint
  deriving DecidableEq, Repr

variable {α : Type}

/-- `conffile.h:25 GRAPHITE_PORT`. -/
def graphitePort : Nat := 2003

/-- The loop that looks for the last colon. -/
def lastColon (ip : Text) : Option Nat :=
  ip.zipIdx.foldl (fun lastcolon x => if x.1 = ':' then some x.2 else lastcolon) none

/-- The text in `errbuf`, which has room for 39 characters. -/
def invalidPort (port : Text) : Text :=
  ("invalid port number '".toList ++ port ++ "'".toList).take 39

/-- The port behind the last colon. -/
def validPort (ip : Text) : Option Nat → Except Text Nat
  | none => .ok graphitePort
  | some lastcolon =>
    let (lport, endp) := Text.strtol (ip.drop (lastcolon + 1))
    if lport < 1 ∨ 65535 < lport ∨ endp ≠ [] then .error (invalidPort (ip.drop (lastcolon + 1)))
    else .ok lport.toNat

/-- The start of the host and the characters, with the terminators that are written over them. -/
def hostChars (ip : Text) (lastcolon : Option Nat) : Except Text (Nat × Text) :=
  let chars := lastcolon.elim ip fun i => ip.set i '\x00'
  if chars.head? = some '[' then
    let closing := lastcolon.getD ip.length - 1
    if chars[closing]? = some ']' then .ok (1, chars.set closing '\x00')
    else .error "expected ']'".toList
  else .ok (0, chars)

/-- The string at a position. -/
def cstr (chars : Text) (start : Nat) : Text := (chars.drop start).takeWhile (· ≠ '\x00')

/-- A numeric address is resolved right away. Otherwise the hint is kept, so that it can be done
again. -/
def resolveAddress (env : Resolver α) (ip : Option Text) (port : Nat) (proto : ConProto) :
    Except Text (Address α) :=
  match env.getaddrinfo ip (Text.decimal port) ⟨proto = .udp, true⟩ with
  | some saddr => .ok ⟨ip, port, some saddr, none⟩
  | none =>
    if env.malloc then
      .ok ⟨ip, port, env.getaddrinfo ip (Text.decimal port) ⟨proto = .udp, false⟩,
        some ⟨proto = .udp, false⟩⟩
    else .error "out of memory copying hint structure".toList

/-- `router.c:476 router_validate_address`. In front of an empty text there is nothing to read. -/
def routerValidateAddress (env : Resolver α) (ip : Text) (proto : ConProto) :
    Option (Except Text (Address α)) :=
  match ip.getLast? with
  | none => none
  | some last =>
    let lastcolon := if last = ']' then none else lastColon ip
    some do
      let port ← validPort ip lastcolon
      let (start, chars) ← hostChars ip lastcolon
      resolveAddress env (if lastcolon = some start then none else some (cstr chars start))
        port proto

/-! ## The colon, the port and the host -/

section
variable {env : Resolver α} {proto : ConProto} {h host port : Text} {n : Nat}

theorem foldl_lastColon {l : List (Char × Nat)} (hl : ∀ x ∈ l, x.1 ≠ ':') (acc : Option Nat) :
    l.foldl (fun lastcolon x => if x.1 = ':' then some x.2 else lastcolon) acc = acc := by
  induction l generalizing acc with
  | nil => rfl
  | cons x l ih =>
    obtain ⟨hx, hl⟩ := forall_mem_cons.1 hl
    rw [foldl_cons, if_neg hx]
    exact ih hl acc

theorem fst_ne_of_mem_zipIdx {l : Text} {k : Nat} (hl : ':' ∉ l) : ∀ x ∈ l.zipIdx k, x.1 ≠ ':' := by
  intro x hx heq
  exact hl (heq ▸ fst_mem_of_mem_zipIdx hx)

theorem lastColon_eq_none (hh : ':' ∉ h) : lastColon h = none :=
  foldl_lastColon (fst_ne_of_mem_zipIdx hh) none

theorem lastColon_append (hport : ':' ∉ port) :
    lastColon (host ++ ':' :: port) = some host.length := by
  rw [lastColon, zipIdx_append, foldl_append, zipIdx_cons, foldl_cons, if_pos rfl]
  rw [foldl_lastColon (fst_ne_of_mem_zipIdx hport), Nat.zero_add]

theorem validPort_append : validPort (host ++ ':' :: port) (some host.length) =
    if (Text.strtol port).1 < 1 ∨ 65535 < (Text.strtol port).1 ∨ (Text.strtol port).2 ≠ [] then
      .error (invalidPort port)
    else .ok (Text.strtol port).1.toNat := by
  have hdrop : (host ++ ':' :: port).drop (host.length + 1) = port := by simp
  simp only [validPort, hdrop]

theorem validPort_decimal (hn : 1 ≤ n) (hle : n ≤ 65535) :
    validPort (host ++ ':' :: Text.decimal n) (some host.length) = .ok n := by
  have hread : Text.strtol (Text.decimal n) = ((n : Int), []) := Text.strtol_decimal (by omega)
  rw [validPort_append, hread]
  simp only [ne_eq, not_true_eq_false, or_false, Int.toNat_natCast]
  rw [if_neg (by omega)]

theorem cstr_append {l r : Text} (hl : '\x00' ∉ l) : cstr (l ++ '\x00' :: r) 0 = l := by
  rw [cstr, drop_zero, takeWhile_append_of_pos]
  · simp
  · intro c hc
    rw [decide_eq_true_eq]
    rintro rfl
    exact hl hc

/-- A host. -/
structure IsHost (h : Text) : Prop where
  ne_nil : h ≠ []
  opening : '[' ∉ h
  closing : ']' ∉ h
  nul : '\x00' ∉ h

theorem IsHost.head_ne (hh : IsHost h) (r : Text) : (h ++ r).head? ≠ some '[' := by
  obtain ⟨c, t, rfl⟩ := exists_cons_of_ne_nil hh.ne_nil
  intro heq
  cases heq
  exact hh.opening mem_cons_self

/-! ## Addresses that are valid -/

/-- The address is valid, and these are its parts. -/
def ReadsAs (env : Resolver α) (proto : ConProto) (text h : Text) (n : Nat) : Prop :=
  ∃ a, routerValidateAddress env text proto = some (.ok a) ∧ a.ip = some h ∧ a.port = n

theorem resolveAddress_ok (hmem : env.malloc = true) (ip : Option Text) (n : Nat)
    (proto : ConProto) : ∃ a, resolveAddress env ip n proto = .ok a ∧ a.ip = ip ∧ a.port = n := by
  unfold resolveAddress
  split
  · exact ⟨_, rfl, rfl, rfl⟩
  · rw [if_pos hmem]
    exact ⟨_, rfl, rfl, rfl⟩

theorem readsAs_of_parts {text : Text} (hmem : env.malloc = true) {last : Char}
    {lastcolon : Option Nat} (start : Nat) (chars : Text) (hlast : text.getLast? = some last)
    (hcolon : (if last = ']' then none else lastColon text) = lastcolon)
    (hport : validPort text lastcolon = .ok n)
    (hhost : hostChars text lastcolon = .ok (start, chars))
    (hstart : lastcolon ≠ some start) (hstr : cstr chars start = h) :
    ReadsAs env proto text h n := by
  obtain ⟨a, ha, hip, hn⟩ := resolveAddress_ok hmem (some h) n proto
  refine ⟨a, ?_, hip, hn⟩
  simp only [routerValidateAddress, hlast, hcolon, hport, hhost, bind, Except.bind,
    if_neg hstart, hstr, ha]

theorem isDigit_of_mem_decimal {c : Char} (hc : c ∈ Text.decimal n) : c.isDigit = true :=
  Nat.isDigit_of_mem_toDigits (by decide) (by decide) hc

theorem colon_not_mem_decimal : ':' ∉ Text.decimal n :=
  fun hmem => absurd (isDigit_of_mem_decimal hmem) (by decide)

theorem getLast?_decimal (host : Text) (n : Nat) :
    ∃ d, (host ++ ':' :: Text.decimal n).getLast? = some d ∧ d ≠ ']' := by
  have hne : Text.decimal n ≠ [] := Nat.toDigits_ne_nil
  refine ⟨(Text.decimal n).getLast hne, ?_, ?_⟩
  · rw [getLast?_append_of_ne_nil _ (cons_ne_nil _ _), getLast?_cons_of_ne_nil hne,
      getLast?_eq_some_getLast hne]
  · intro heq
    exact absurd (isDigit_of_mem_decimal (heq ▸ getLast_mem hne)) (by decide)

/-- The colon is overwritten. -/
theorem elim_set_colon : (some host.length).elim (host ++ ':' :: port)
    (fun i => (host ++ ':' :: port).set i '\x00') = host ++ '\x00' :: port := by
  simp

/-- The closing bracket is overwritten. -/
theorem hostChars_brackets {ip r : Text} {lastcolon : Option Nat}
    (hchars : lastcolon.elim ip (fun i => ip.set i '\x00') = '[' :: h ++ ']' :: r)
    (hclosing : lastcolon.getD ip.length - 1 = h.length + 1) :
    hostChars ip lastcolon = .ok (1, '[' :: (h ++ '\x00' :: r)) := by
  simp [hostChars, hchars, hclosing]

section
variable (hmem : env.malloc = true)
include hmem

theorem readsAs_host_port (hh : IsHost h) (hn : 1 ≤ n) (hle : n ≤ 65535) :
    ReadsAs env proto (h ++ ':' :: Text.decimal n) h n := by
  obtain ⟨d, hlast, hd⟩ := getLast?_decimal h n
  refine readsAs_of_parts hmem 0 (h ++ '\x00' :: Text.decimal n) hlast
    ((if_neg hd).trans (lastColon_append colon_not_mem_decimal)) (validPort_decimal hn hle) ?_ ?_
      (cstr_append hh.nul)
  · simp only [hostChars, elim_set_colon, hh.head_ne, if_false]
  · simpa using hh.ne_nil

theorem readsAs_brackets_port (hh : IsHost h) (hn : 1 ≤ n) (hle : n ≤ 65535) :
    ReadsAs env proto ('[' :: h ++ ']' :: ':' :: Text.decimal n) h n := by
  have htext : '[' :: h ++ ']' :: ':' :: Text.decimal n = ('[' :: h ++ [']']) ++ ':' ::
      Text.decimal n := by simp
  obtain ⟨d, hlast, hd⟩ := getLast?_decimal ('[' :: h ++ [']']) n
  rw [htext]
  refine readsAs_of_parts hmem 1 ('[' :: (h ++ '\x00' :: '\x00' :: Text.decimal n)) hlast
    ((if_neg hd).trans (lastColon_append colon_not_mem_decimal)) (validPort_decimal hn hle) ?_ ?_
      (cstr_append hh.nul)
  · refine hostChars_brackets ?_ (by simp)
    rw [elim_set_colon]
    simp
  · simp

theorem readsAs_host (hh : IsHost h) (hcolon : ':' ∉ h) : ReadsAs env proto h h graphitePort := by
  have hlast := getLast?_eq_some_getLast hh.ne_nil
  have hne : h.getLast hh.ne_nil ≠ ']' := fun heq => hh.closing (heq ▸ getLast_mem hh.ne_nil)
  refine readsAs_of_parts hmem 0 h hlast ((if_neg hne).trans (lastColon_eq_none hcolon)) rfl
    ?_ nofun ?_
  · have hhead := hh.head_ne []
    rw [append_nil] at hhead
    simp only [hostChars, Option.elim_none, hhead, if_false]
  · rw [cstr, drop_zero, takeWhile_eq_self_iff]
    intro c hc
    rw [decide_eq_true_eq]
    rintro rfl
    exact hh.nul hc

theorem readsAs_brackets (hh : IsHost h) :
    ReadsAs env proto ('[' :: h ++ [']']) h graphitePort := by
  have hlast : ('[' :: h ++ [']']).getLast? = some ']' := getLast?_concat
  refine readsAs_of_parts hmem 1 ('[' :: (h ++ ['\x00'])) hlast (if_pos rfl) rfl ?_ nofun
    (cstr_append hh.nul)
  exact hostChars_brackets rfl (by simp)

end

/-! ## Addresses that are not -/

/-- A decimal number that is a port. -/
structure IsPort (port : Text) : Prop where
  ne_nil : port ≠ []
  digits : ∀ c ∈ port, c.isDigit = true
  range : 1 ≤ (Text.digits 0 port).1 ∧ (Text.digits 0 port).1 ≤ 65535

/-- What is read as a port: there may be white space and a plus sign in front of it. -/
def LenientPort (port : Text) : Prop :=
  ∃ blanks sign digits, port = blanks ++ sign ++ digits ∧ (∀ c ∈ blanks, Text.isSpace c = true) ∧
    (sign = [] ∨ sign = ['+']) ∧ IsPort digits

/-- The text from the start up to a sign that is not a minus. -/
theorem sign_split {s : Text} (hs : (Text.sign s).1 = false) :
    ∃ sign, s = sign ++ (Text.sign s).2 ∧ (sign = [] ∨ sign = ['+']) := by
  unfold Text.sign at hs ⊢
  split
  · cases hs
  · exact ⟨['+'], rfl, .inr rfl⟩
  · exact ⟨[], rfl, .inl rfl⟩

theorem isDigit_of_digits {s : Text} {acc : Nat} (hs : (Text.digits acc s).2 = []) :
    ∀ c ∈ s, c.isDigit = true := by
  induction s generalizing acc with
  | nil => exact fun _ => nofun
  | cons c s ih =>
    rw [Text.digits] at hs
    split at hs
    · next hc => exact forall_mem_cons.2 ⟨hc, ih hs⟩
    · cases hs

/-- `strtol` takes all of a text for a port only if it is one. -/
theorem lenientPort_of_strtol (hlow : ¬(Text.strtol port).1 < 1)
    (hhigh : ¬65535 < (Text.strtol port).1)
    (hend : (Text.strtol port).2 = []) : LenientPort port := by
  unfold Text.strtol at hlow hhigh hend
  simp only at hlow hhigh hend
  split at hend
  · next hdigit =>
    rw [if_pos hdigit] at hlow hhigh
    have hneg : (Text.sign (port.dropWhile Text.isSpace)).1 = false := by
      by_contra hneg
      simp only [Bool.not_eq_false] at hneg
      simp only [hneg, if_true] at hlow
      omega
    simp only [hneg, Bool.false_eq_true, if_false] at hlow hhigh
    obtain ⟨sign, hsplit, hsign⟩ := sign_split hneg
    refine ⟨port.takeWhile Text.isSpace, sign, _, ?_, fun c hc => mem_takeWhile_imp hc, hsign, ?_,
      isDigit_of_digits hend, by omega⟩
    · rw [append_assoc, ← hsplit, takeWhile_append_dropWhile]
    · intro hnil
      rw [hnil] at hdigit
      cases hdigit
  · rw [if_neg ‹_›] at hlow
    exact absurd Int.zero_lt_one hlow

theorem rejected_of_not_lenientPort (hport : ':' ∉ port)
    (hlast : (host ++ ':' :: port).getLast? ≠ some ']') (hlenient : ¬LenientPort port) :
    routerValidateAddress env (host ++ ':' :: port) proto = some (.error (invalidPort port)) := by
  have hne : host ++ ':' :: port ≠ [] := by simp
  have hsome := getLast?_eq_some_getLast hne
  have hbracket : (host ++ ':' :: port).getLast hne ≠ ']' := fun heq => hlast (heq ▸ hsome)
  have hreject : (Text.strtol port).1 < 1 ∨ 65535 < (Text.strtol port).1 ∨
      (Text.strtol port).2 ≠ [] := by
    by_contra hnot
    simp only [not_or, not_not] at hnot
    exact hlenient (lenientPort_of_strtol hnot.1 hnot.2.1 hnot.2.2)
  have hvalid := (@validPort_append host port).trans (if_pos hreject)
  simp only [routerValidateAddress, hsome, if_neg hbracket, lastColon_append hport, hvalid, bind,
    Except.bind]

end

/-- If the hint for the resolver can be allocated, addresses are read as they are printed. What is
read as a port is a number, or one behind white space and a plus sign. -/
theorem addresses_read (env : Resolver α) (proto : ConProto) :
    (env.malloc = true →
      (∀ h n, IsHost h → 1 ≤ n → n ≤ 65535 →
        ReadsAs env proto (h ++ ':' :: Text.decimal n) h n ∧
          ReadsAs env proto ('[' :: h ++ ']' :: ':' :: Text.decimal n) h n) ∧
      ∀ h, IsHost h → (':' ∉ h → ReadsAs env proto h h graphitePort) ∧
        ReadsAs env proto ('[' :: h ++ [']']) h graphitePort) ∧
    ∀ host port, ':' ∉ port → (host ++ ':' :: port).getLast? ≠ some ']' → ¬LenientPort port →
      routerValidateAddress env (host ++ ':' :: port) proto = some (.error (invalidPort port)) := by
  refine ⟨fun hmem => ⟨fun h n hh hn hle => ⟨?_, ?_⟩, fun h hh => ⟨fun hcolon => ?_, ?_⟩⟩,
    fun host port => ?_⟩
  · exact readsAs_host_port hmem hh hn hle
  · exact readsAs_brackets_port hmem hh hn hle
  · exact readsAs_host hmem hh hcolon
  · exact readsAs_brackets hmem hh
  · exact rejected_of_not_lenientPort

theorem addresses_read_host : ReadsAs (⟨fun _ _ _ => none, true⟩ : Resolver Unit) .tcp
    ("host".toList ++ ':' :: Text.decimal 2005) "host".toList 2005 :=
  (((addresses_read ⟨fun _ _ _ => none, true⟩ .tcp).1 rfl).1 "host".toList 2005
    ⟨by decide, by decide, by decide, by decide⟩ (by decide) (by decide)).1

/-- A port with a sign is accepted. -/
theorem signed_port_accepted : ¬IsPort "+80".toList ∧
    routerValidateAddress (⟨fun _ _ _ => none, true⟩ : Resolver Unit) "host:+80".toList .tcp =
      some (.ok ⟨some "host".toList, 80, none, some ⟨false, false⟩⟩) := by
  refine ⟨fun h => ?_, rfl⟩
  exact absurd (h.digits '+' (by decide)) (by decide)

end CarbonRelay
