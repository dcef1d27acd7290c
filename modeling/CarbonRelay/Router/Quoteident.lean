import CarbonRelay.Router.Lexer

/-!
# Names are printed and read

The configuration is printed with the names as the scanner read them, and `router_quoteident` puts
quotes around those that are not made of the characters of a name. The characters in the quotes stay
as they are. So a quote or a backslash in such a name is read as something else, and a name without
quotes may be a word or a number of the condition in which it is read.
-/

namespace CarbonRelay

open List
open Scanner
open Ere (Matches)

/-! ## Printing -/

/-- The characters other than letters and digits that need no quotes. -/
def allowodd : List Char := "[]()\x7b\x7d|\\^?*$%<>:/,._+-".toList

/-- The character can stand outside of quotes. -/
def needsNoQuote (c : Char) : Bool :=
  'a' ≤ c && c ≤ 'z' || 'A' ≤ c && c ≤ 'Z' || '0' ≤ c && c ≤ '9' || allowodd.contains c

/-- The character at a position calls for quotes. A blank behind a backslash does not. -/
def oddAt (ident : Text) (idpos : Nat) (c : Char) : Bool :=
  !needsNoQuote c && !(1 < idpos && c == ' ' && ident[idpos - 1]? == some '\\')

/-- One turn of the loop: the buffer, and whether it is needed. -/
def quoteTurn (ident : Text) (q : Text × Bool) (x : Char × Nat) : Text × Bool :=
  (q.1 ++ [x.1], q.2 || oddAt ident x.2 x.1)

/-- `router.c:1921 router_quoteident`. -/
def routerQuoteident (ident : Text) : Text :=
  let q := ident.zipIdx.foldl (quoteTurn ident) (['"'], false)
  if q.2 then q.1 ++ ['"'] else ident

/-- The name is printed with quotes. -/
def needquote (ident : Text) : Bool := ident.zipIdx.any fun x => oddAt ident x.2 x.1

variable {cond next : Start} {c : Char} {s : Text} {i : Nat}

theorem foldl_quoteTurn (ident : Text) (l : List (Char × Nat)) (q : Text × Bool) :
    l.foldl (quoteTurn ident) q =
      (q.1 ++ l.map Prod.fst, q.2 || l.any fun x => oddAt ident x.2 x.1) := by
  induction l generalizing q with
  | nil => simp
  | cons x l ih => simp [ih, quoteTurn, Bool.or_assoc]

theorem routerQuoteident_eq (ident : Text) :
    routerQuoteident ident = if needquote ident then '"' :: (ident ++ ['"']) else ident := by
  simp only [routerQuoteident, foldl_quoteTurn, zipIdx_map_fst, Bool.false_or, needquote]
  rfl

theorem needquote_eq_false_iff : needquote s = false ↔ ∀ i c, s[i]? = some c →
    oddAt s i c = false := by
  rw [needquote, any_eq_false]
  constructor
  · intro h i c hc
    simpa using h (c, i) (mem_zipIdx_iff_getElem?.2 hc)
  · rintro h ⟨c, i⟩ hx
    simp [h i c (mem_zipIdx_iff_getElem?.1 hx)]

/-- What needs no quotes is a character of a name. -/
theorem idchr_of_needsNoQuote (h : needsNoQuote c = true) : idchr.mem c = true := by
  have hodd : allowodd ⊆ "[]()\x7b\x7d|\\^?*$&%<>:/,._+-".toList := by decide
  rw [needsNoQuote, Bool.or_eq_true] at h
  rw [idchr, CharSet.mem, any_append, Bool.bne_false, Bool.or_eq_true]
  refine h.imp (fun halnum => ?_) fun hallowed => ?_
  · simpa [or_assoc] using halnum
  · exact any_singles.2 (hodd (contains_iff_mem.1 hallowed))

/-- Without quotes, a character is one of a name, or it is a blank behind a backslash. -/
theorem idchr_or_blank (h : needquote s = false) (hc : s[i]? = some c) :
    idchr.mem c = true ∨ c = ' ' ∧ 1 < i ∧ s[i - 1]? = some '\\' := by
  have hodd := needquote_eq_false_iff.1 h i c hc
  rw [oddAt, Bool.and_eq_false_iff] at hodd
  rcases hodd with hodd | hodd
  · exact .inl (idchr_of_needsNoQuote (by simpa using hodd))
  · simp only [Bool.not_eq_false', Bool.and_eq_true, decide_eq_true_eq, beq_iff_eq] at hodd
    exact .inr ⟨hodd.1.2, hodd.1.1, hodd.2⟩

/-! ## Blanks in names -/

/-- There is a character behind every blank, and the next blank is not the one behind it. -/
def BlanksApart (s : Text) : Prop := ∀ i, s[i]? = some ' ' → i + 1 < s.length ∧ s[i + 2]? ≠ some ' '

theorem not_blank_of_idchr (h : idchr.mem c = true) : c ≠ ' ' := by
  rintro rfl
  exact absurd h (by decide)

theorem idchr_of_ne_blank (h : needquote s = false) (hi : i < s.length) (hne : s[i]? ≠ some ' ') :
    ∃ c, s[i]? = some c ∧ idchr.mem c = true := by
  have hc : s[i]? = some s[i] := getElem?_eq_getElem hi
  refine ⟨s[i], hc, (idchr_or_blank h hc).resolve_right fun hblank => hne ?_⟩
  rw [hc, hblank.1]

theorem pair_prefix_drop_iff {a b : Char} :
    [a, b] <+: s.drop i ↔ s[i]? = some a ∧ s[i + 1]? = some b := by
  have hfirst : (s.drop i)[0]? = s[i]? := getElem?_drop
  have hsecond : (s.drop i)[1]? = s[i + 1]? := getElem?_drop
  rw [← hfirst, ← hsecond]
  match s.drop i with
  | [] => simp
  | [x] => simp
  | x :: y :: l => simp [eq_comm]

/-- Behind a blank or at the start, the rest of the name is matched. -/
theorem matches_identifier_rest (hquote : needquote s = false) (hblanks : BlanksApart s)
    (hi : i < s.length) (hfirst : s[i]? ≠ some ' ') (hstart : i = 0 ∨ s[i - 1]? = some ' ') :
    Matches s identifier i s.length := by
  induction hn : s.length - i using Nat.strong_induction_on generalizing i with
  | _ n ih =>
    subst hn
    by_cases hblank : ∃ k, i ≤ k ∧ s[k]? = some ' '
    · obtain ⟨⟨hik, hk⟩, hmin⟩ := And.intro (Nat.find_spec hblank) fun k =>
        Nat.find_min hblank (m := k)
      generalize Nat.find hblank = k at hik hk hmin
      have hlt : i < k := lt_of_le_of_ne hik fun heq => hfirst (heq ▸ hk)
      obtain ⟨-, hk1, hbackslash⟩ := (idchr_or_blank hquote hk).resolve_left fun h =>
        not_blank_of_idchr h rfl
      have hgap : i + 1 < k := by
        rcases hstart with rfl | hstart
        · exact hk1
        · refine lt_of_le_of_ne hlt fun heq => ?_
          have hpos : 0 < i := by
            by_contra hzero
            rw [Nat.eq_zero_of_not_pos hzero] at hfirst hstart
            exact hfirst hstart
          have hnext := (hblanks (i - 1) hstart).2
          rw [show i - 1 + 2 = k by omega] at hnext
          exact hnext hk
      have hnext : s[k + 1]? ≠ some ' ' := by
        intro h
        obtain ⟨-, -, hprev⟩ := (idchr_or_blank hquote h).resolve_left fun h =>
          not_blank_of_idchr h rfl
        rw [Nat.add_sub_cancel, hk] at hprev
        cases hprev
      have hin := (hblanks k hk).1
      obtain ⟨m, hplus, hstar⟩ := ih (s.length - (k + 1)) (by omega) hin hnext (.inr hk) rfl
      refine ⟨k - 1, matches_plus_one.2 ⟨by omega, fun j hij hjk => ?_⟩, .head ?_ hstar⟩
      · exact idchr_of_ne_blank hquote (by omega) fun h => hmin j (by omega) ⟨hij, h⟩
      · refine Ere.matches_lits.2 ⟨pair_prefix_drop_iff.2 ⟨hbackslash, ?_⟩, ?_⟩
        · rw [Nat.sub_add_cancel (by omega)]
          exact hk
        · rw [show k - 1 + ['\\', ' '].length = k + 1 by simp; omega]
          exact hplus
    · refine ⟨s.length, matches_plus_one.2 ⟨hi, fun j hij hj => ?_⟩, .refl⟩
      exact idchr_of_ne_blank hquote hj fun h => hblank ⟨j, hij, h⟩

/-- Where the rule for names stops, there is no blank before the last character. -/
theorem blanks_of_matches_identifier {n : Nat} (h : Matches s identifier 0 n) :
    ∀ k < n, s[k]? = some ' ' → k + 1 < n ∧ (k + 2 < n → s[k + 2]? ≠ some ' ') := by
  have hplain {i j : Nat} (hplus : Matches s (plus (.one idchr)) i j) {k : Nat} (hik : i ≤ k)
      (hkj : k < j) : s[k]? ≠ some ' ' := by
    intro hk
    obtain ⟨c, hc, hmem⟩ := (matches_plus_one.1 hplus).2 k hik hkj
    rw [hk] at hc
    cases hc
    exact not_blank_of_idchr hmem rfl
  obtain ⟨a, hplus, hstar⟩ := h
  induction hstar with
  | refl => exact fun k hk hblank => absurd hblank (hplain hplus (Nat.zero_le k) hk)
  | @tail m j _ hstep ih =>
    obtain ⟨hpair, hrest⟩ := Ere.matches_lits.1 hstep
    obtain ⟨hbackslash, -⟩ := pair_prefix_drop_iff.1 hpair
    have hlt : m + 2 < j := (matches_plus_one.1 hrest).1
    have hafter {k : Nat} (hmk : m ≤ k) (hkj : k < j) (hk : s[k]? = some ' ') : k = m + 1 := by
      by_contra hne
      rcases Nat.eq_or_lt_of_le hmk with rfl | hmk
      · rw [hbackslash] at hk
        cases hk
      · exact hplain hrest (show m + 2 ≤ k by omega) hkj hk
    intro k hk hblank
    by_cases hkm : k < m
    · obtain ⟨hnext, hgap⟩ := ih k hkm hblank
      refine ⟨by omega, fun _ h => ?_⟩
      rcases Nat.lt_or_ge (k + 2) m with hlt' | hge
      · exact hgap hlt' h
      · have := hafter (k := k + 2) (by omega) (by omega) h
        omega
    · obtain rfl := hafter (by omega) hk hblank
      refine ⟨hlt, fun hlt' => ?_⟩
      exact hplain hrest (by simp) hlt'

theorem matches_identifier_iff (hs : s ≠ []) (hquote : needquote s = false) :
    Matches s identifier 0 s.length ↔ BlanksApart s := by
  constructor
  · intro h i hi
    have hlt : i < s.length := (List.getElem?_eq_some_iff.1 hi).1
    obtain ⟨hnext, hgap⟩ := blanks_of_matches_identifier h i hlt hi
    refine ⟨hnext, fun h2 => hgap (List.getElem?_eq_some_iff.1 h2).1 h2⟩
  · intro hblanks
    refine matches_identifier_rest hquote hblanks (length_pos_of_ne_nil hs) (fun hfirst => ?_)
      (.inl rfl)
    rcases idchr_or_blank hquote hfirst with h | h
    · exact not_blank_of_idchr h rfl
    · exact absurd h.2.1 (Nat.not_lt_zero 1)

/-! ## Reading -/

/-- A name that the scanner can return. -/
structure IsName (s : Text) : Prop where
  ne_nil : s ≠ []
  newline : '\n' ∉ s
  nul : '\x00' ∉ s
  length : s.length < stringBufSize

/-- A name without quotes is no word and no number where it is read. -/
structure ReadPlain (cond : Start) (s : Text) : Prop where
  blanks : BlanksApart s
  word : ∀ w ∈ reserved cond, w.toList ≠ s
  number : cond = .idcl → ∃ c ∈ s, digit.mem c = false

/-- A name in quotes has nothing that is special there. -/
structure ReadQuoted (s : Text) : Prop where
  quote : '"' ∉ s
  backslash : '\\' ∉ s

theorem yylex_plain_iff (hcond : cond ∈ printedConds) (hnext : next ≠ .qu) (hs : IsName s)
    (hquote : needquote s = false) : yylex cond next s = ([.string s], true) ↔
      ReadPlain cond s := by
  obtain ⟨c, t, rfl⟩ := exists_cons_of_ne_nil hs.ne_nil
  have hc : idchr.mem c = true := by
    rcases idchr_or_blank (i := 0) hquote rfl with h | h
    · exact h
    · exact absurd h.2.1 (Nat.not_lt_zero 1)
  rw [yylex, lexAll_name_iff hcond hnext hc, matches_identifier_iff hs.ne_nil hquote]
  exact ⟨fun h => ⟨h.1, h.2.1, h.2.2⟩, fun h => ⟨h.blanks, h.word, h.number⟩⟩

theorem yylex_quoted_iff (hcond : cond ∈ printedConds) (hnext : next ≠ .qu) (hs : IsName s) :
    yylex cond next ('"' :: (s ++ ['"'])) = ([.string s], true) ↔ ReadQuoted s := by
  rw [yylex, lexAll_openQuote hcond]
  constructor
  · intro h
    have hnewline : '\n' ∉ s ++ ['"'] := by simpa using hs.newline
    obtain ⟨hbackslash, hquote⟩ := (quoted_length_le hnewline h).2 (by simp)
    rw [dropLast_concat] at hquote
    exact ⟨hquote, fun hmem => hbackslash (mem_append_left _ hmem)⟩
  · intro h
    refine lexAll_between_quotes hnext hs.ne_nil (fun c hc => mem_notSpecial.2 fun hspecial => ?_)
      hs.nul hs.length
    simp only [mem_cons, not_mem_nil, or_false] at hspecial
    rcases hspecial with rfl | rfl | rfl
    · exact h.backslash hc
    · exact hs.newline hc
    · exact h.quote hc

/-- A printed name is read back if it has nothing special in its quotes, or is a name without them.
-/
theorem quoteident_read_iff (hcond : cond ∈ [.idcl, .idma, .idag]) (hnext : next ≠ .qu)
    (hs : IsName s) : yylex cond next (routerQuoteident s) = ([.string s], true) ↔
      if needquote s then ReadQuoted s else ReadPlain cond s := by
  rw [routerQuoteident_eq]
  cases hquote : needquote s with
  | true => simpa using yylex_quoted_iff hcond hnext hs
  | false => simpa using yylex_plain_iff hcond hnext hs hquote

theorem quoteident_read_blank : needquote "a b".toList = true ∧
    yylex .idcl .cl (routerQuoteident "a b".toList) = ([.string "a b".toList], true) := by
  have hquote : needquote "a b".toList = true := rfl
  have hs : IsName "a b".toList := ⟨by decide, by decide, by decide, by decide⟩
  refine ⟨hquote, (quoteident_read_iff (by decide) (by decide) hs).2 ?_⟩
  rw [if_pos hquote]
  exact ⟨by decide, by decide⟩

/-- A cluster may be named like a word of its condition, or have a quote in its name. -/
theorem printed_name_lost :
    (yylex .idcl .cl "\"tcp\"".toList = ([.string "tcp".toList], true) ∧
      yylex .idcl .cl (routerQuoteident "tcp".toList) = ([.keyword .crTCP], true)) ∧
    yylex .idcl .cl "\"a\\\"b\"".toList = ([.string "a\"b".toList], true) ∧
      yylex .idcl .cl (routerQuoteident "a\"b".toList) ≠ ([.string "a\"b".toList], true) := by
  decide +kernel

end CarbonRelay
