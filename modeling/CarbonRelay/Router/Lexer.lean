import CarbonRelay.Lib.Scanner

/-!
# The scanner of the configuration file

`conffile.l` has the words of the configuration language. Which of them are known depends on the
start condition, and names are read in conditions of their own, in which most words are names as
well. A name is either made of the characters of `IDCHR`, with blanks behind backslashes, or it is
quoted. In quotes a backslash is dropped, and the character behind it is kept.
-/

namespace CarbonRelay

open List
open Scanner
open Ere (Matches)

/-! ## Tokens and rules -/

/-- The start conditions. -/
inductive Start
  | initial
  | cl
  | ma
  | re
  | ag
  | se
  | st
  | li
  | qu
  | idcl
  | idma
  | idag
  | idin
  | idli
  deriving DecidableEq, Repr

/-- The tokens without a value. -/
inductive Keyword
  | crCLUSTER | crFORWARD | crANY_OF | crFAILOVER | crLB | crUSEALL | crCARBON_CH | crFNV1A_CH
  | crJUMP_FNV1A_CH | crREPLICATION | crDYNAMIC | crFILE | crIP | crPROTO | crUDP | crTCP | crTYPE
  | crLINEMODE | crSYSLOGMODE | crTRANSPORT | crPLAIN | crGZIP | crLZ4 | crSNAPPY | crSSL
  | crCONNECTIONS | crTHRESHOLD_START | crTHRESHOLD_END | crTTL | crMATCH | crVALIDATE | crELSE
  | crLOG | crDROP | crROUTE | crUSING | crSEND | crTO | crBLACKHOLE | crSTOP | crREWRITE | crINTO
  | crAGGREGATE | crEVERY | crSECONDS | crEXPIRE | crAFTER | crTIMESTAMP | crAT | crSTART
  | crMIDDLE | crEND | crOF | crBUCKET | crCOMPUTE | crSUM | crCOUNT | crMAX | crMIN | crAVERAGE
  | crMEDIAN | crVARIANCE | crSTDDEV | crWRITE | crSTATISTICS | crSUBMIT | crRESET | crCOUNTERS
  | crINTERVAL | crPREFIX | crWITH | crLISTEN | crUNIX | crINCLUDE
  deriving DecidableEq

/-- What the scanner returns. -/
inductive LexToken
  | keyword (k : Keyword)
  | char (c : Char)
  | string (v : Text)
  | intval (n : Nat)
  | percentile (n : Nat)
  | unexpected (v : Text)
  deriving DecidableEq

/-- What is done for a match. The words may set `identstate` and begin another condition. -/
inductive Action
  | word (t : LexToken) (identstate next : Option Start)
  | percentile
  | openQuote
  | closeQuote
  | unterminated
  | escape
  | quoted
  | skip
  | intval
  | ident
  | semicolon
  | unexpected
  deriving DecidableEq

/-- A rule with the conditions in which it is active. Without a list these are all of them. -/
structure LexRule where
  conds : Option (List Start)
  pattern : Ere
  action : Action
  deriving DecidableEq

/-- A word that is returned. -/
def LexRule.plain (conds : List Start) (w : String) (t : LexToken) : LexRule :=
  ⟨some conds, word w.toList, .word t none none⟩

/-- A word that begins another condition. -/
def LexRule.begins (conds : List Start) (w : String) (t : LexToken) (next : Start) : LexRule :=
  ⟨some conds, word w.toList, .word t none (some next)⟩

/-- A word behind which there is a name. -/
def LexRule.names (conds : List Start) (w : String) (t : LexToken) (identstate next : Start) :
    LexRule :=
  ⟨some conds, word w.toList, .word t (some identstate) (some next)⟩

/-! ## Patterns -/

def digit : CharSet := ⟨false, [('0', '9')]⟩

/-- `.`, everything but a newline. -/
def notNewline : CharSet := ⟨true, [('\n', '\n')]⟩

/-- `IDCHR`. -/
def idchr : CharSet :=
  ⟨false, [('a', 'z'), ('A', 'Z'), ('0', '9')] ++
    "[]()\x7b\x7d|\\^?*$&%<>:/,._+-".toList.map fun c => (c, c)⟩

/-- `{IDCHR}+(\\[ ]{IDCHR}+)*`. -/
def identifier : Ere := .cat (plus (.one idchr)) (.star (Ere.lits ['\\', ' '] (plus (.one idchr))))

/-- `[^\\\n\"]`. -/
def notSpecial : CharSet := ⟨true, [('\\', '\\'), ('\n', '\n'), ('"', '"')]⟩

/-! ## The rules -/

/-- The words. -/
def wordRules : List LexRule :=
  [.names [.initial] "cluster" (.keyword .crCLUSTER) .cl .idcl,
    .names [.cl] "forward" (.keyword .crFORWARD) .idcl .idcl,
    .names [.cl] "any_of" (.keyword .crANY_OF) .idcl .idcl,
    .names [.cl] "failover" (.keyword .crFAILOVER) .idcl .idcl,
    .names [.cl] "lb" (.keyword .crLB) .idcl .idcl,
    .plain [.idcl] "useall" (.keyword .crUSEALL),
    .names [.cl] "carbon_ch" (.keyword .crCARBON_CH) .idcl .idcl,
    .names [.cl] "fnv1a_ch" (.keyword .crFNV1A_CH) .idcl .idcl,
    .names [.cl] "jump_fnv1a_ch" (.keyword .crJUMP_FNV1A_CH) .idcl .idcl,
    .plain [.idcl] "replication" (.keyword .crREPLICATION),
    .plain [.idcl] "dynamic" (.keyword .crDYNAMIC),
    .names [.cl] "file" (.keyword .crFILE) .idcl .idcl,
    .plain [.idcl] "ip" (.keyword .crIP),
    .plain [.idcl] "proto" (.keyword .crPROTO),
    .plain [.idcl] "udp" (.keyword .crUDP),
    .plain [.idcl] "tcp" (.keyword .crTCP),
    .plain [.idcl] "type" (.keyword .crTYPE),
    .plain [.idcl] "linemode" (.keyword .crLINEMODE),
    .plain [.idcl] "syslog" (.keyword .crSYSLOGMODE),
    .plain [.idcl] "transport" (.keyword .crTRANSPORT),
    .plain [.idcl] "plain" (.keyword .crPLAIN),
    .plain [.idcl] "gzip" (.keyword .crGZIP),
    .plain [.idcl] "lz4" (.keyword .crLZ4),
    .plain [.idcl] "snappy" (.keyword .crSNAPPY),
    .plain [.idcl] "ssl" (.keyword .crSSL),
    .plain [.idcl] "=" (.char '='),
    .plain [.idcl] "connections" (.keyword .crCONNECTIONS),
    .plain [.idcl] "threshold_start" (.keyword .crTHRESHOLD_START),
    .plain [.idcl] "threshold_end" (.keyword .crTHRESHOLD_END),
    .plain [.idcl] "ttl" (.keyword .crTTL),
    .names [.initial] "match" (.keyword .crMATCH) .idma .idma,
    .plain [.idma] "*" (.char '*'),
    .names [.idma] "validate" (.keyword .crVALIDATE) .ma .idma,
    .plain [.ma] "else" (.keyword .crELSE),
    .plain [.ma] "log" (.keyword .crLOG),
    .plain [.ma] "drop" (.keyword .crDROP),
    .begins [.ma, .idma] "route" (.keyword .crROUTE) .ma,
    .names [.ma] "using" (.keyword .crUSING) .ma .idma,
    .begins [.ma, .idma] "send" (.keyword .crSEND) .ma,
    .names [.ma] "to" (.keyword .crTO) .idcl .idcl,
    .plain [.idcl] "blackhole" (.keyword .crBLACKHOLE),
    .plain [.ma, .idcl] "stop" (.keyword .crSTOP),
    .names [.initial] "rewrite" (.keyword .crREWRITE) .re .idma,
    .names [.re] "into" (.keyword .crINTO) .re .idma,
    .names [.initial] "aggregate" (.keyword .crAGGREGATE) .idag .idag,
    .begins [.idag] "every" (.keyword .crEVERY) .ag,
    .plain [.ag] "seconds" (.keyword .crSECONDS),
    .plain [.ag] "expire" (.keyword .crEXPIRE),
    .plain [.ag] "after" (.keyword .crAFTER),
    .plain [.ag] "timestamp" (.keyword .crTIMESTAMP),
    .plain [.ag] "at" (.keyword .crAT),
    .plain [.ag] "start" (.keyword .crSTART),
    .plain [.ag] "middle" (.keyword .crMIDDLE),
    .plain [.ag] "end" (.keyword .crEND),
    .plain [.ag] "of" (.keyword .crOF),
    .plain [.ag] "bucket" (.keyword .crBUCKET),
    .plain [.ag] "compute" (.keyword .crCOMPUTE),
    .plain [.ag] "summary" (.keyword .crSUM),
    .plain [.ag] "sum" (.keyword .crSUM),
    .plain [.ag] "count" (.keyword .crCOUNT),
    .plain [.ag] "cnt" (.keyword .crCOUNT),
    .plain [.ag] "maximum" (.keyword .crMAX),
    .plain [.ag] "max" (.keyword .crMAX),
    .plain [.ag] "minimum" (.keyword .crMIN),
    .plain [.ag] "min" (.keyword .crMIN),
    .plain [.ag] "average" (.keyword .crAVERAGE),
    .plain [.ag] "avg" (.keyword .crAVERAGE),
    .plain [.ag] "median" (.keyword .crMEDIAN),
    ⟨some [.ag], Ere.lits "percentile".toList (.star (.one digit)), .percentile⟩,
    .plain [.ag] "variance" (.keyword .crVARIANCE),
    .plain [.ag] "stddev" (.keyword .crSTDDEV),
    .plain [.ag] "write" (.keyword .crWRITE),
    .names [.ag] "to" (.keyword .crTO) .ag .idag,
    .begins [.ag] "send" (.keyword .crSEND) .ma,
    .begins [.initial] "send" (.keyword .crSEND) .se,
    .begins [.se] "statistics" (.keyword .crSTATISTICS) .ma,
    .begins [.initial] "statistics" (.keyword .crSTATISTICS) .st,
    .plain [.st] "submit" (.keyword .crSUBMIT),
    .plain [.st] "every" (.keyword .crEVERY),
    .plain [.st] "seconds" (.keyword .crSECONDS),
    .plain [.st] "reset" (.keyword .crRESET),
    .plain [.st] "counters" (.keyword .crCOUNTERS),
    .plain [.st] "after" (.keyword .crAFTER),
    .plain [.st] "interval" (.keyword .crINTERVAL),
    .plain [.st] "prefix" (.keyword .crPREFIX),
    .names [.st] "with" (.keyword .crWITH) .st .idag,
    .begins [.st] "send" (.keyword .crSEND) .ma,
    .begins [.initial] "listen" (.keyword .crLISTEN) .li,
    .plain [.li] "type" (.keyword .crTYPE),
    .names [.li] "linemode" (.keyword .crLINEMODE) .li .idli,
    .plain [.idli] "transport" (.keyword .crTRANSPORT),
    .plain [.idli] "plain" (.keyword .crPLAIN),
    .names [.idli] "gzip" (.keyword .crGZIP) .li .idli,
    .names [.idli] "lz4" (.keyword .crLZ4) .li .idli,
    .names [.idli] "snappy" (.keyword .crSNAPPY) .li .idli,
    .names [.idli] "ssl" (.keyword .crSSL) .idli .idli,
    .begins [.li, .idli] "proto" (.keyword .crPROTO) .li,
    .names [.li] "udp" (.keyword .crUDP) .li .idli,
    .names [.li] "tcp" (.keyword .crTCP) .li .idli,
    .names [.li] "unix" (.keyword .crUNIX) .li .idli,
    .names [.initial] "include" (.keyword .crINCLUDE) .initial .idin]

/-- The conditions in which names are read. -/
def nameConds : List Start := [.idcl, .idma, .idag, .idin, .idli]

def openQuoteRule : LexRule := ⟨some nameConds, word ['"'], .openQuote⟩

def closeQuoteRule : LexRule := ⟨some [.qu], word ['"'], .closeQuote⟩

def unterminatedRule : LexRule := ⟨some [.qu], word ['\n'], .unterminated⟩

def escapeRule : LexRule := ⟨some [.qu], Ere.lits ['\\'] (.one notNewline), .escape⟩

def quotedRule : LexRule := ⟨some [.qu], plus (.one notSpecial), .quoted⟩

/-- Comments and white space. -/
def layoutRules : List LexRule :=
  [⟨none, Ere.lits ['#'] (.cat (.star (.one notNewline)) (word ['\n'])), .skip⟩,
    ⟨none, plus (.one ⟨false, [(' ', ' '), ('\t', '\t'), ('\r', '\r')]⟩), .skip⟩,
    ⟨none, plus (.one (.single '\n')), .skip⟩]

def intvalRule : LexRule := ⟨some [.idcl, .ag, .st], plus (.one digit), .intval⟩

def identRule : LexRule := ⟨some nameConds, identifier, .ident⟩

/-- The rules at the end. -/
def lastRules : List LexRule :=
  [⟨none, word [';'], .semicolon⟩, ⟨none, .one notNewline, .unexpected⟩]

/-- `conffile.l`, all rules in their order. -/
def lexRules : List LexRule :=
  wordRules ++ openQuoteRule :: closeQuoteRule :: unterminatedRule :: escapeRule :: quotedRule ::
    layoutRules ++ intvalRule :: identRule :: lastRules

/-- The rule applies in a condition. -/
def LexRule.active (r : LexRule) (cond : Start) : Bool := r.conds.all (·.contains cond)

/-- The rules of a condition. -/
def rulesOf (cond : Start) : List LexRule := lexRules.filter (·.active cond)

/-! ## Scanning -/

/-- The condition, the one that follows a name, and what is in `string_buf` up to `strbuf`, which is
not set at the start of a call. -/
structure LexState where
  cond : Start
  identstate : Start
  strbuf : Option Text
  deriving DecidableEq

/-- The size of `string_buf`. -/
def stringBufSize : Nat := 1024

/-- `atoi`, for digits. -/
def atoi (s : Text) : Nat := s.foldl (fun n c => n * 10 + (c.toNat - '0'.toNat)) 0

/-- What a rule comes to: a token is returned, the scanner goes on, or it ends with an error. -/
inductive Lexed
  | token (t : LexToken) (L : LexState)
  | more (L : LexState)
  | failed

/-- Characters are put into `string_buf`. It may not become full. -/
def LexState.store (L : LexState) (s : Text) : Lexed :=
  match L.strbuf with
  | none => .failed
  | some b =>
    if stringBufSize ≤ b.length + s.length then .failed
    else .more { L with strbuf := some (b ++ s) }

/-- A token is returned, and a condition begins. -/
def LexState.ret (L : LexState) (t : LexToken) (next : Start) : Lexed :=
  .token t { L with cond := next, strbuf := none }

/-- The action of a rule, for the text that it matched. -/
def Action.run (a : Action) (yytext : Text) (L : LexState) : Lexed :=
  match a with
  | .word t identstate next =>
    { L with identstate := identstate.getD L.identstate }.ret t (next.getD L.cond)
  | .percentile => L.ret (.percentile (atoi (yytext.drop "percentile".length))) L.cond
  | .openQuote => .more { L with cond := .qu, strbuf := some [] }
  | .closeQuote =>
    match L.strbuf with
    | none => .failed
    -- the copy ends at a NUL
    | some b => if b = [] then .failed else L.ret (.string (b.takeWhile (· ≠ '\x00'))) L.identstate
  | .unterminated => .failed
  | .escape => L.store (yytext.drop 1)
  | .quoted => L.store (yytext.takeWhile (· ≠ '\x00'))
  | .skip => .more L
  | .intval => L.ret (.intval (atoi yytext)) L.cond
  | .ident => L.ret (.string yytext) L.identstate
  | .semicolon => L.ret (.char ';') .initial
  | .unexpected => L.ret (.unexpected yytext) L.cond

/-- The tokens of a text, and whether the end was reached without an error. -/
def scan : Nat → LexState → Text → List LexToken × Bool
  | 0, _, _ => ([], false)
  | _ + 1, L, [] => ([], L.cond ≠ .qu)
  | n + 1, L, c :: text =>
    match pick LexRule.pattern (c :: text) (rulesOf L.cond) with
    | none => ([], false)
    | some (r, len) =>
      match r.action.run ((c :: text).take len) L with
      | .failed => ([], false)
      | .more L => scan n L ((c :: text).drop len)
      | .token t L => (t :: (scan n L ((c :: text).drop len)).1,
        (scan n L ((c :: text).drop len)).2)

/-- `yylex`, called until the end. -/
def lexAll (L : LexState) (text : Text) : List LexToken × Bool := scan (text.length + 1) L text

/-- The tokens from a condition on, with the condition that follows a name. -/
def yylex (cond identstate : Start) (text : Text) : List LexToken × Bool :=
  lexAll ⟨cond, identstate, none⟩ text

/-! ### Equations without the number of turns -/

variable {L : LexState}

variable {text : Text}

theorem scan_eq_scan {m n : Nat} (hm : text.length < m) (hn : text.length < n) :
    scan m L text = scan n L text := by
  induction m generalizing L text n with
  | zero => cases hm
  | succ m ih =>
    obtain ⟨n, rfl⟩ := Nat.exists_eq_add_one_of_ne_zero (Nat.ne_zero_of_lt hn)
    cases text with
    | nil => rfl
    | cons c text =>
      rw [scan, scan]
      cases hpick : pick LexRule.pattern (c :: text) (rulesOf L.cond) with
      | none => rfl
      | some picked =>
        obtain ⟨r, len⟩ := picked
        obtain ⟨_, _, _, hpicked⟩ := exists_picked hpick
        have hdrop : ((c :: text).drop len).length < (c :: text).length := by
          have hpos := hpicked.pos
          rw [length_drop, length_cons]
          omega
        have hrest L' := @ih L' ((c :: text).drop len) n (by omega) (by omega)
        simp only [hrest]

@[simp] theorem lexAll_nil (L : LexState) : lexAll L [] = ([], decide (L.cond ≠ .qu)) := rfl

/-- The rule that is picked says how it goes on. -/
theorem lexAll_eq_of_pick {r : LexRule} {len : Nat} (htext : text ≠ [])
    (h : pick LexRule.pattern text (rulesOf L.cond) = some (r, len)) :
    lexAll L text =
      match r.action.run (text.take len) L with
      | .failed => ([], false)
      | .more L => lexAll L (text.drop len)
      | .token t L => (t :: (lexAll L (text.drop len)).1, (lexAll L (text.drop len)).2) := by
  obtain ⟨c, text, rfl⟩ := exists_cons_of_ne_nil htext
  obtain ⟨_, _, _, hpicked⟩ := exists_picked h
  have hpos := hpicked.pos
  have hrest L' : scan (c :: text).length L' ((c :: text).drop len) =
      lexAll L' ((c :: text).drop len) := by
    refine scan_eq_scan ?_ (Nat.lt_succ_self _)
    rw [length_drop, length_cons]
    omega
  rw [lexAll, scan, h]
  simp only [hrest]

theorem lexAll_of_pick_eq_none (htext : text ≠ [])
    (h : pick LexRule.pattern text (rulesOf L.cond) = none) : lexAll L text = ([], false) := by
  obtain ⟨c, text, rfl⟩ := exists_cons_of_ne_nil htext
  rw [lexAll, scan, h]

/-! ## The rules of the conditions for names -/

/-- The words of a condition. -/
def wordsOf (cond : Start) : List LexRule := wordRules.filter (·.active cond)

/-- The texts of these words. -/
def reserved : Start → List String
  | .idcl => ["useall", "replication", "dynamic", "ip", "proto", "udp", "tcp", "type",
    "linemode", "syslog",
      "transport", "plain", "gzip", "lz4", "snappy", "ssl", "=", "connections", "threshold_start",
      "threshold_end", "ttl", "blackhole", "stop"]
  | .idma => ["*", "validate", "route", "send"]
  | .idag => ["every"]
  | _ => []

/-- Numbers are something else in one of the conditions. -/
def numberRules (cond : Start) : List LexRule := if cond = .idcl then [intvalRule] else []

/-- The conditions in which printed names are read. -/
def printedConds : List Start := [.idcl, .idma, .idag]

variable {cond next : Start} {c d : Char} {b s t : Text} {r : LexRule}

/-- The rules in front of the one for names. -/
def beforeIdent (cond : Start) : List LexRule :=
  wordsOf cond ++ openQuoteRule :: layoutRules ++ numberRules cond

/-- Tokens other than names are returned. -/
def Action.other : Action → Bool
  | .word (.keyword _) _ _ | .word (.char _) _ _ | .intval | .semicolon | .unexpected => true
  | _ => false

/-- What the table of rules has for these conditions. -/
theorem rules_facts : ∀ cond ∈ printedConds,
    rulesOf cond = beforeIdent cond ++ identRule :: lastRules ∧ identRule ∉ beforeIdent cond ∧
    (wordsOf cond).map (·.pattern) = (reserved cond).map (fun w => word w.toList) ∧
    (∀ r ∈ rulesOf cond, r.action.other = true ∨ r ∈ openQuoteRule :: layoutRules ∨ r = identRule) ∧
    ∀ r ∈ wordsOf cond ++ (layoutRules ++ numberRules cond ++ [identRule]),
      starts '"' r.pattern = false := by
  decide +kernel

section
variable (hcond : cond ∈ printedConds)
include hcond

theorem rulesOf_eq : rulesOf cond = beforeIdent cond ++ identRule :: lastRules :=
  (rules_facts cond hcond).1

theorem identRule_not_mem_beforeIdent : identRule ∉ beforeIdent cond :=
  (rules_facts cond hcond).2.1

theorem forall_wordsOf_iff {P : Ere → Prop} :
    (∀ r ∈ wordsOf cond, P r.pattern) ↔ ∀ w ∈ reserved cond, P (word w.toList) := by
  obtain ⟨-, -, hmap, -⟩ := rules_facts cond hcond
  rw [← forall_mem_map (P := P), hmap, forall_mem_map]

theorem rule_kinds : ∀ r ∈ rulesOf cond,
    r.action.other = true ∨ r ∈ openQuoteRule :: layoutRules ∨ r = identRule :=
  (rules_facts cond hcond).2.2.2.1

end

theorem Action.run_other {a : Action} (ha : a.other = true) (yytext : Text) (L : LexState) :
    ∃ t L', a.run yytext L = .token t L' ∧ ∀ v, t ≠ .string v := by
  unfold Action.other at ha
  split at ha
  case h_6 => cases ha
  all_goals exact ⟨_, _, rfl, fun _ => nofun⟩

/-! ## Names without quotes -/

/-- Such a name is neither a quote nor layout. -/
theorem matchLength_openQuote_layout (hc : idchr.mem c = true) :
    ∀ r ∈ openQuoteRule :: layoutRules, matchLength r.pattern (c :: t) = 0 := by
  have hnot {l : List Char} {r : Ere} (hl : l.all (fun d => !idchr.mem d) = true) :
      starts c (.cat (.one ⟨false, l.map fun d => (d, d)⟩) r) = false := by
    rw [Bool.eq_false_iff]
    intro hmem
    simp only [starts, nullable, Bool.false_and, Bool.or_false, mem_singles] at hmem
    simpa [hc] using List.all_eq_true.1 hl c hmem
  intro r hr
  refine matchLength_eq_zero ?_
  simp only [layoutRules, mem_cons, not_mem_nil, or_false] at hr
  rcases hr with rfl | rfl | rfl | rfl
  · exact hnot (l := ['"']) (by decide)
  · exact hnot (l := ['#']) (by decide)
  · exact hnot (l := [' ', '\t', '\r']) (by decide)
  · exact hnot (l := ['\n']) (by decide)

/-- Of the rules only the one for names returns the text as a name. -/
theorem lexAll_name_iff_pick (hcond : cond ∈ printedConds) (hnext : next ≠ .qu)
    (hc : idchr.mem c = true) : lexAll ⟨cond, next, none⟩ (c :: t) = ([.string (c :: t)], true) ↔
      pick LexRule.pattern (c :: t) (rulesOf cond) = some (identRule, (c :: t).length) := by
  constructor
  · intro h
    cases hpick : pick LexRule.pattern (c :: t) (rulesOf cond) with
    | none =>
      rw [lexAll_of_pick_eq_none (cons_ne_nil c t) hpick] at h
      cases h
    | some picked =>
      obtain ⟨r, len⟩ := picked
      obtain ⟨front, back, hsplit, hpicked⟩ := exists_picked hpick
      have hr : r ∈ rulesOf cond := hsplit ▸ mem_append_right _ mem_cons_self
      rw [lexAll_eq_of_pick (cons_ne_nil c t) hpick] at h
      rcases rule_kinds hcond r hr with hother | hlayout | rfl
      · obtain ⟨tok, L, hrun, hne⟩ := Action.run_other hother ((c :: t).take len) ⟨cond, next, none⟩
        rw [hrun] at h
        exact absurd (cons.inj (Prod.mk.inj h).1).1 (hne _)
      · exact absurd (hpicked.length.symm.trans (matchLength_openQuote_layout hc r hlayout))
          hpicked.pos.ne'
      · have htake : (c :: t).take len = c :: t :=
          LexToken.string.inj (cons.inj (Prod.mk.inj h).1).1
        have hle := matchLength_le_length identRule.pattern (c :: t)
        have hlength := congrArg List.length htake
        rw [hpicked.length] at hle
        rw [length_take, min_eq_left hle] at hlength
        rw [hlength]
  · intro h
    rw [lexAll_eq_of_pick (cons_ne_nil c t) h]
    simp [identRule, Action.run, LexState.ret, hnext]

/-- The text is returned as a name if the rule for names matches all of it and no rule in front
does. -/
theorem lexAll_name_iff (hcond : cond ∈ printedConds) (hnext : next ≠ .qu)
    (hc : idchr.mem c = true) : lexAll ⟨cond, next, none⟩ (c :: t) = ([.string (c :: t)], true) ↔
      Matches (c :: t) identifier 0 (c :: t).length ∧ (∀ w ∈ reserved cond, w.toList ≠ c :: t) ∧
        (cond = .idcl → ∃ d ∈ c :: t, digit.mem d = false) := by
  have hlength : (c :: t) ≠ [] := cons_ne_nil c t
  have hwords : (∀ r ∈ wordsOf cond, matchLength r.pattern (c :: t) < (c :: t).length) ↔
      ∀ w ∈ reserved cond, w.toList ≠ c :: t := by
    rw [forall_wordsOf_iff hcond (P := fun e => matchLength e (c :: t) < (c :: t).length)]
    exact forall₂_congr fun w _ => matchLength_word_lt_iff hlength
  have hnumber : (∀ r ∈ numberRules cond, matchLength r.pattern (c :: t) < (c :: t).length) ↔
      (cond = .idcl → ∃ d ∈ c :: t, digit.mem d = false) := by
    rw [numberRules]
    split
    · next hidcl =>
      simp only [mem_singleton, forall_eq, hidcl, true_implies]
      exact matchLength_plus_one_lt_iff
    · next hidcl => simp [hidcl]
  rw [lexAll_name_iff_pick hcond hnext hc, rulesOf_eq hcond,
    pick_append_cons_iff (identRule_not_mem_beforeIdent hcond), ← hwords, ← hnumber]
  constructor
  · intro h
    have hpos := h.pos
    refine ⟨?_, fun r hr => h.front r ?_, fun r hr => h.front r ?_⟩
    · have hmatches := matches_matchLength (h.length.symm ▸ hpos)
      rwa [h.length] at hmatches
    · exact mem_append_left _ (mem_append_left _ hr)
    · exact mem_append_right _ hr
  · rintro ⟨hmatches, hwords, hnumber⟩
    refine ⟨?_, Nat.succ_pos _, fun r hr => ?_, fun r _ => matchLength_le_length _ _⟩
    · exact le_antisymm (matchLength_le_length _ _) (le_matchLength hmatches)
    · rcases mem_append.1 hr with hr | hr
      · rcases mem_append.1 hr with hr | hr
        · exact hwords r hr
        · rw [matchLength_openQuote_layout hc r hr]
          exact Nat.succ_pos _
      · exact hnumber r hr

/-! ## Names in quotes -/

theorem rulesOf_qu : rulesOf .qu =
    closeQuoteRule :: unterminatedRule :: escapeRule :: quotedRule ::
      (layoutRules ++ lastRules) := by
  decide

theorem matchLength_last_le : ∀ r ∈ lastRules, matchLength r.pattern s ≤ 1 := by
  refine forall_mem_cons.2 ⟨matchLength_word_le _ _, ?_⟩
  exact forall_mem_singleton.2 (matchLength_one_le _ _)

/-- The rule that is picked where no other but the last ones can start. -/
theorem pick_of_starts {front back : List LexRule} {n : Nat}
    (hrules : rulesOf cond = front ++ r :: (back ++ lastRules))
    (hlength : matchLength r.pattern (c :: t) = n) (hpos : 0 < n)
    (hnot : ∀ r ∈ front ++ back, starts c r.pattern = false) :
    pick LexRule.pattern (c :: t) (rulesOf cond) = some (r, n) := by
  have hzero : ∀ r ∈ front ++ back, matchLength r.pattern (c :: t) = 0 := fun r hr =>
    matchLength_eq_zero (hnot r hr)
  rw [hrules]
  refine Picked.pick_eq ⟨hlength, hpos, fun r hr => ?_, fun r hr => ?_⟩
  · rw [hzero r (mem_append_left _ hr)]
    exact hpos
  · rcases mem_append.1 hr with hr | hr
    · rw [hzero r (mem_append_right _ hr)]
      exact Nat.zero_le n
    · exact (matchLength_last_le r hr).trans hpos

theorem matchLength_quote : matchLength (word ['"']) ('"' :: t) = 1 :=
  le_antisymm (matchLength_word_le _ _)
    (le_matchLength (matches_word.2 ⟨prefix_append ['"'] t, rfl⟩))

/-- A quote starts a name in quotes. -/
theorem pick_openQuote (hcond : cond ∈ printedConds) :
    pick LexRule.pattern ('"' :: t) (rulesOf cond) = some (openQuoteRule, 1) := by
  refine @pick_of_starts _ _ _ _ (wordsOf cond) (layoutRules ++ numberRules cond ++ [identRule]) 1
    ?_ matchLength_quote Nat.one_pos ?_
  · rw [rulesOf_eq hcond, beforeIdent]
    simp only [append_assoc, cons_append, nil_append]
  · exact (rules_facts cond hcond).2.2.2.2

theorem pick_closeQuote : pick LexRule.pattern ('"' :: t) (rulesOf .qu) =
    some (closeQuoteRule, 1) :=
  @pick_of_starts _ _ _ _ [] (unterminatedRule :: escapeRule :: quotedRule :: layoutRules) 1
    rulesOf_qu matchLength_quote Nat.one_pos (by decide)

theorem pick_escape (hd : d ≠ '\n') :
    pick LexRule.pattern ('\\' :: d :: t) (rulesOf .qu) = some (escapeRule, 2) := by
  have hmem : notNewline.mem d = true := (mem_neg_singles (l := ['\n'])).2 (by simpa using hd)
  refine @pick_of_starts _ _ _ _ [closeQuoteRule, unterminatedRule] (quotedRule :: layoutRules) 2
    rulesOf_qu ?_ Nat.two_pos (by decide)
  refine le_antisymm (matchLength_le fun m hm => ?_)
    (le_matchLength (Ere.matches_lits.2 ⟨?_, rfl, d, rfl, hmem⟩))
  · exact (Ere.matches_lits.1 hm).2.1.le
  · exact prefix_append ['\\'] (d :: t)

theorem mem_notSpecial : notSpecial.mem c = true ↔ c ∉ ['\\', '\n', '"'] :=
  mem_neg_singles (l := ['\\', '\n', '"'])

/-- Layout is part of the name. -/
theorem matchLength_layout_le (hs : '\n' ∉ s) : ∀ r ∈ layoutRules,
    matchLength r.pattern s ≤ (s.takeWhile notSpecial.mem).length := by
  have hmem {k : Nat} (hk : ['\n'] <+: s.drop k) : '\n' ∈ s :=
    mem_of_mem_drop (hk.subset (mem_singleton_self '\n'))
  intro r hr
  simp only [layoutRules, mem_cons, not_mem_nil, or_false] at hr
  rcases hr with rfl | rfl | rfl
  · refine matchLength_le fun m hm => ?_
    obtain ⟨k, -, hword⟩ := (Ere.matches_lits.1 hm).2
    exact absurd (hmem (Ere.matches_lits.1 hword).1) hs
  · refine (matchLength_plus_one _ _).le.trans (le_length_takeWhile_iff.2 fun k hk => ?_)
    obtain ⟨c, hc, hblank⟩ := le_length_takeWhile_iff.1 le_rfl k hk
    refine ⟨c, hc, mem_notSpecial.2 fun h => ?_⟩
    have hblank := (mem_singles (l := [' ', '\t', '\r'])).1 hblank
    simp only [mem_cons, not_mem_nil, or_false] at h hblank
    rcases h with rfl | rfl | rfl <;> revert hblank <;> decide
  · refine (matchLength_plus_one _ _).le.trans (le_length_takeWhile_iff.2 fun k hk => ?_)
    obtain ⟨c, hc, hnewline⟩ := le_length_takeWhile_iff.1 le_rfl k hk
    cases Ere.mem_single.1 hnewline
    exact absurd (mem_of_getElem? hc) hs

theorem pick_quoted (hc : notSpecial.mem c = true) (hs : '\n' ∉ c :: t) :
    pick LexRule.pattern (c :: t) (rulesOf .qu) =
      some (quotedRule, ((c :: t).takeWhile notSpecial.mem).length) := by
  have hpos : 0 < ((c :: t).takeWhile notSpecial.mem).length := by
    rw [takeWhile_cons_of_pos hc]
    exact Nat.succ_pos _
  have hnot : c ∉ ['\\', '\n', '"'] := mem_notSpecial.1 hc
  simp only [mem_cons, not_mem_nil, or_false, not_or] at hnot
  rw [rulesOf_qu]
  show pick _ _ ([closeQuoteRule, unterminatedRule, escapeRule] ++ _ ::
    (layoutRules ++ lastRules)) = _
  refine Picked.pick_eq ⟨matchLength_plus_one _ _, hpos, fun r hr => ?_, forall_mem_append.2
    ⟨matchLength_layout_le hs, fun r hr => (matchLength_last_le r hr).trans hpos⟩⟩
  rw [matchLength_eq_zero]
  · exact hpos
  · simp only [mem_cons, not_mem_nil, or_false] at hr
    rcases hr with rfl | rfl | rfl <;>
      simp [closeQuoteRule, unterminatedRule, escapeRule, word, Ere.lits, starts, nullable,
        Bool.eq_false_iff, Ere.mem_single, hnot]

/-! ### What is returned -/

theorem lexAll_openQuote (hcond : cond ∈ printedConds) :
    lexAll ⟨cond, next, none⟩ ('"' :: t) = lexAll ⟨.qu, next, some []⟩ t := by
  rw [lexAll_eq_of_pick (cons_ne_nil _ _) (pick_openQuote hcond)]
  rfl

theorem lexAll_closeQuote (hb : b ≠ []) : lexAll ⟨.qu, next, some b⟩ ('"' :: t) =
    (.string (b.takeWhile (· ≠ '\x00')) :: (lexAll ⟨next, next, none⟩ t).1,
      (lexAll ⟨next, next, none⟩ t).2) := by
  rw [lexAll_eq_of_pick (cons_ne_nil _ _) pick_closeQuote]
  simp [closeQuoteRule, Action.run, hb, LexState.ret]

theorem lexAll_closeQuote_nil : lexAll ⟨.qu, next, some []⟩ ('"' :: t) = ([], false) := by
  rw [lexAll_eq_of_pick (cons_ne_nil _ _) pick_closeQuote]
  rfl

theorem lexAll_escape (hd : d ≠ '\n') : lexAll ⟨.qu, next, some b⟩ ('\\' :: d :: t) =
    if stringBufSize ≤ b.length + 1 then ([], false)
    else lexAll ⟨.qu, next, some (b ++ [d])⟩ t := by
  rw [lexAll_eq_of_pick (cons_ne_nil _ _) (pick_escape hd)]
  by_cases hlarge : stringBufSize ≤ b.length + 1
  · simp [escapeRule, Action.run, LexState.store, hlarge]
  · simp [escapeRule, Action.run, LexState.store, hlarge]

theorem lexAll_quoted (hc : notSpecial.mem c = true) (hs : '\n' ∉ c :: t) :
    lexAll ⟨.qu, next, some b⟩ (c :: t) =
      let run := ((c :: t).takeWhile notSpecial.mem).takeWhile (· ≠ '\x00')
      if stringBufSize ≤ b.length + run.length then ([], false)
      else lexAll ⟨.qu, next, some (b ++ run)⟩ ((c :: t).dropWhile notSpecial.mem) := by
  have htake : (c :: t).take ((c :: t).takeWhile notSpecial.mem).length =
      (c :: t).takeWhile notSpecial.mem :=
    (prefix_iff_eq_take.1 (List.takeWhile_prefix _)).symm
  have hdrop : (c :: t).drop ((c :: t).takeWhile notSpecial.mem).length =
      (c :: t).dropWhile notSpecial.mem := by
    have hleft := @drop_left _ ((c :: t).takeWhile notSpecial.mem)
      ((c :: t).dropWhile notSpecial.mem)
    rwa [takeWhile_append_dropWhile] at hleft
  rw [lexAll_eq_of_pick (cons_ne_nil _ _) (pick_quoted hc hs), htake, hdrop]
  simp only [quotedRule, Action.run, LexState.store]
  by_cases hlarge : stringBufSize ≤
      b.length + (((c :: t).takeWhile notSpecial.mem).takeWhile (· ≠ '\x00')).length
  · rw [if_pos hlarge, if_pos hlarge]
  · rw [if_neg hlarge, if_neg hlarge]

theorem lexAll_backslash_last :
    lexAll ⟨.qu, next, some b⟩ ['\\'] = ([.unexpected ['\\']], false) := by
  have hpick : pick LexRule.pattern ['\\'] (rulesOf .qu) =
      some (⟨none, .one notNewline, .unexpected⟩, 1) := by
    decide
  rw [lexAll_eq_of_pick (cons_ne_nil _ _) hpick]
  rfl

/-- A name is not longer than what is in the quotes. It is as long only if nothing in them is
special. -/
theorem quoted_length_le {v : Text} (ht : '\n' ∉ t)
    (h : lexAll ⟨.qu, next, some b⟩ t = ([.string v], true)) :
    v.length + 1 ≤ b.length + t.length ∧
      (v.length + 1 = b.length + t.length → '\\' ∉ t ∧ '"' ∉ t.dropLast) := by
  induction hn : t.length using Nat.strong_induction_on generalizing b t with
  | _ n ih =>
    subst hn
    rcases t with _ | ⟨c, t⟩
    · cases h
    rcases Bool.eq_false_or_eq_true (notSpecial.mem c) with hc | hc
    · rw [lexAll_quoted hc ht] at h
      have hsplit : (c :: t).takeWhile notSpecial.mem ++ (c :: t).dropWhile notSpecial.mem =
          c :: t :=
        takeWhile_append_dropWhile
      have hrun {d : Char} (hd : d ∈ (c :: t).takeWhile notSpecial.mem) : notSpecial.mem d = true :=
        mem_takeWhile_imp hd
      have hpos : 0 < ((c :: t).takeWhile notSpecial.mem).length := by
        rw [takeWhile_cons_of_pos hc]
        exact Nat.succ_pos _
      generalize (c :: t).takeWhile notSpecial.mem = run at h hsplit hrun hpos
      generalize (c :: t).dropWhile notSpecial.mem = rest at h hsplit
      rw [← hsplit] at ht ⊢
      simp only at h
      split at h
      · cases h
      have hnul := (List.takeWhile_prefix (fun c => decide (c ≠ '\x00')) (l := run)).length_le
      obtain ⟨hle, heq⟩ := ih rest.length (by rw [← hsplit, length_append]; omega)
        (fun hmem => ht (mem_append_right _ hmem)) h rfl
      rw [length_append] at hle heq ⊢
      refine ⟨by omega, fun hlength => ?_⟩
      obtain ⟨hbackslash, hquote⟩ := heq (by omega)
      have hrest : rest ≠ [] := by
        rintro rfl
        cases h
      rw [dropLast_append_of_ne_nil hrest]
      refine ⟨fun hmem => ?_, fun hmem => ?_⟩
      · rcases mem_append.1 hmem with hmem | hmem
        · exact mem_notSpecial.1 (hrun hmem) (by decide)
        · exact hbackslash hmem
      · rcases mem_append.1 hmem with hmem | hmem
        · exact mem_notSpecial.1 (hrun hmem) (by decide)
        · exact hquote hmem
    · have hspecial : c ∈ ['\\', '\n', '"'] := by
        by_contra hnot
        rw [mem_notSpecial.2 hnot] at hc
        cases hc
      simp only [mem_cons, not_mem_nil, or_false] at hspecial
      rcases hspecial with rfl | rfl | rfl
      · rcases t with _ | ⟨d, t⟩
        · rw [lexAll_backslash_last] at h
          cases h
        have hd : d ≠ '\n' := fun hd => ht (by simp [hd])
        rw [lexAll_escape hd] at h
        split at h
        · cases h
        obtain ⟨hle, -⟩ := ih t.length
          (by simp only [length_cons]; omega) (fun hmem => ht (by simp [hmem])) h rfl
        simp only [length_append, length_cons, length_nil] at hle ⊢
        exact ⟨by omega, fun hlength => by omega⟩
      · exact absurd mem_cons_self ht
      · rcases eq_or_ne b [] with rfl | hb
        · rw [lexAll_closeQuote_nil] at h
          cases h
        rw [lexAll_closeQuote hb] at h
        obtain rfl := LexToken.string.inj (cons.inj (Prod.mk.inj h).1).1
        have hle := (List.takeWhile_prefix (fun c => decide (c ≠ '\x00')) (l := b)).length_le
        rw [length_cons]
        refine ⟨by omega, fun hlength => ?_⟩
        rw [eq_nil_of_length_eq_zero (show t.length = 0 by omega)]
        decide

/-- The copy of a name without a NUL is the name. -/
theorem takeWhile_nul (hs : '\x00' ∉ s) : s.takeWhile (· ≠ '\x00') = s := by
  rw [takeWhile_eq_self_iff]
  intro c hc
  rw [decide_eq_true_eq]
  rintro rfl
  exact hs hc

/-- Without special characters, a name is read from the quotes as it is. -/
theorem lexAll_between_quotes (hnext : next ≠ .qu) (hs : s ≠ [])
    (hplain : ∀ c ∈ s, notSpecial.mem c = true)
    (hnul : '\x00' ∉ s) (hlength : s.length < stringBufSize) :
    lexAll ⟨.qu, next, some []⟩ (s ++ ['"']) = ([.string s], true) := by
  obtain ⟨c, t, rfl⟩ := exists_cons_of_ne_nil hs
  have hnewline : '\n' ∉ c :: (t ++ ['"']) := by
    intro hmem
    rw [← cons_append, mem_append] at hmem
    rcases hmem with hmem | hmem
    · exact mem_notSpecial.1 (hplain _ hmem) (by decide)
    · exact absurd hmem (by decide)
  have htake : (c :: (t ++ ['"'])).takeWhile notSpecial.mem = c :: t := by
    rw [← cons_append, takeWhile_append_of_pos hplain]
    exact append_nil _
  have hdrop : (c :: (t ++ ['"'])).dropWhile notSpecial.mem = ['"'] := by
    rw [← cons_append, dropWhile_append_of_pos hplain]
    rfl
  rw [cons_append, lexAll_quoted (hplain c mem_cons_self) hnewline, htake, hdrop,
    takeWhile_nul hnul]
  simp only [length_nil, Nat.zero_add, nil_append]
  rw [if_neg (Nat.not_le.2 hlength), lexAll_closeQuote hs, takeWhile_nul hnul, lexAll_nil,
    decide_eq_true hnext]

end CarbonRelay
