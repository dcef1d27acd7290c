import Mathlib.Data.List.Basic

/-!
# Reading configuration files

`router_readconfig` reads a file into a router, and an `include` statement calls it again for the
same router. The files that a path leads to form a tree; what the system says about each of them is
part of the tree. The model records what happens to the router: when it is made, used and freed,
when the place of an error is stored in it and when that place is looked up.

A file whose parse fails looks up the place of the error and frees the router, and so does every
file around it that includes it, since its own parse fails in turn (`readconfig_failed`). Only
`router_yyerror` stores a place, and it is not called for an include that failed. So every failure
in an included file is met again where the router is freed already, or where no place was stored.
-/

namespace CarbonRelay

open List Option

/-! ## Trees of files -/

/-- What keeps a regular file from being parsed: there is no memory for the allocator of the parser,
for the buffer or for the scanner, or the file cannot be opened. -/
inductive Refusal
  | allocator
  | buffer
  | open
  | scanner
  deriving DecidableEq, Repr

/-- What the system says about a path that is not a pattern. -/
inductive FileStatus
  | missing
  | irregular
  | refused (why : Refusal)
  | readable
  deriving DecidableEq, Repr

/-- Why `glob` gives no files. -/
inductive GlobError
  | nospace
  | aborted
  | nomatch
  deriving DecidableEq, Repr

mutual

/-- A path: a pattern that matches files or does not, or a file with its contents. -/
inductive ConfPath
  | noglob (error : GlobError)
  | glob (files : ConfPaths)
  | file (status : FileStatus) (content : Content)

/-- The files that a pattern matches, of which there is one at least. -/
inductive ConfPaths
  | one (path : ConfPath)
  | cons (path : ConfPath) (rest : ConfPaths)

/-- The statements of a file as the parser meets them, up to the first that it does not take. Most
errors are reported to `router_yyerror`, but not those of the statements that end in `YYABORT`. -/
inductive Content
  | nil
  | invalid (reported : Bool)
  | statement (rest : Content)
  | include (path : ConfPath) (rest : Content)

end

/-- What happens to the router. A new one has no place of an error: `router_new` does not set it. -/
inductive RouterEvent
  | made
  | used
  /-- `router.c:438`, `router_yyerror` stores the place of an error. -/
  | reported
  /-- `router.c:1407`, the place of the error is looked up. -/
  | looked
  | freed
  deriving DecidableEq, Repr

mutual

/-- `router.c:1245 router_readconfig`, for a router or for none: whether a router is returned, and
what happens to it. -/
def routerReadconfig : Bool → ConfPath → Bool × List RouterEvent
  | _, .noglob _ => (false, [])
  | orig, .glob files => readGlob orig files
  | _, .file .missing _ => (false, [])
  | _, .file .irregular _ => (false, [])
  | orig, .file (.refused _) _ => (false, (if orig then [] else [.made]) ++ [.freed])
  | orig, .file .readable content =>
    let (ok, es) := routerYyparse content
    let start := (if orig then [] else [.made]) ++ [.used]
    if ok then (true, start ++ es ++ if orig then [] else [.used])
    else (false, start ++ es ++ [.looked, .freed])

/-- `router.c:1297`, the files that a pattern matches. -/
def readGlob : Bool → ConfPaths → Bool × List RouterEvent
  | ret, .one path => routerReadconfig ret path
  | ret, .cons path rest =>
    let (ok, es) := routerReadconfig ret path
    if ok then
      let (ok, es') := readGlob true rest
      (ok, es ++ es')
    else (false, es)

/-- The parser: whether it takes the file. `conffile.y:1094`, an include that fails is an error. -/
def routerYyparse : Content → Bool × List RouterEvent
  | .nil => (true, [])
  | .invalid reported => (false, .used :: if reported then [.reported] else [])
  | .statement rest =>
    let (ok, es) := routerYyparse rest
    (ok, .used :: es)
  | .include path rest =>
    let (ok, es) := routerReadconfig true path
    if ok then
      let (ok, es') := routerYyparse rest
      (ok, es ++ es')
    else (false, es)

end

/-! ## What is meant -/

mutual

/-- What reading a path is for: all files that are reached are parsed, and a pattern without files
changes nothing. The result is whether there is a router, unless something failed. -/
def ConfPath.intended : Bool → ConfPath → Option Bool
  | orig, .noglob .nomatch => some orig
  | _, .noglob _ => none
  | orig, .glob files => files.intended orig
  | _, .file .readable content => if content.intended then some true else none
  | _, .file _ _ => none

/-- The files of a pattern, one after another. -/
def ConfPaths.intended : Bool → ConfPaths → Option Bool
  | ret, .one path => path.intended ret
  | ret, .cons path rest => (path.intended ret).bind fun ret => rest.intended ret

/-- A file is valid, with the files it includes. -/
def Content.intended : Content → Bool
  | .nil => true
  | .invalid _ => false
  | .statement rest => rest.intended
  | .include path rest => (path.intended true).isSome && rest.intended

end

/-- Reading a path from scratch: a router is returned if and only if every file that is reached is
parsed; otherwise a router that was made is freed once, and is not used behind that. The place of an
error is looked up only where one was stored. -/
structure ConfPath.ReadsWell (path : ConfPath) : Prop where
  result : (routerReadconfig false path).1 = ((path.intended false).getD false)
  freed : (routerReadconfig false path).1 = false →
    (routerReadconfig false path).2.count .freed = (routerReadconfig false path).2.count .made
  unused : ∀ front rest, (routerReadconfig false path).2 = front ++ .freed :: rest → rest = []
  stored : ∀ front rest, (routerReadconfig false path).2 = front ++ .looked :: rest →
    .reported ∈ front

/-! ## The first failure -/

/-- What reading stops at: a pattern without files, another path that gives no regular file, a file
that is refused, or an error of the parser. -/
inductive FailureKind
  | unmatched
  | unread
  | refused
  | invalid (reported : Bool)
  deriving DecidableEq, Repr

/-- Where reading stops, and in how many files that include each other. -/
structure Failure where
  depth : Nat
  kind : FailureKind
  deriving DecidableEq, Repr

/-- The failure as seen from a file that includes it. -/
def Failure.inside (f : Failure) : Failure := { f with depth := f.depth + 1 }

mutual

/-- The first failure in reading a path. -/
def ConfPath.failure : ConfPath → Option Failure
  | .noglob error => some ⟨0, if error = .nomatch then .unmatched else .unread⟩
  | .glob files => files.failure
  | .file .missing _ => some ⟨0, .unread⟩
  | .file .irregular _ => some ⟨0, .unread⟩
  | .file (.refused _) _ => some ⟨0, .refused⟩
  | .file .readable content => content.failure

def ConfPaths.failure : ConfPaths → Option Failure
  | .one path => path.failure
  | .cons path rest => path.failure.or rest.failure

/-- The failure as seen from outside of the file. -/
def Content.failure : Content → Option Failure
  | .nil => none
  | .invalid reported => some ⟨0, .invalid reported⟩
  | .statement rest => rest.failure
  | .include path rest => (path.failure.map Failure.inside).or rest.failure

end

mutual

/-- Whether a router is made, which the first file does. -/
def ConfPath.makes : ConfPath → Bool
  | .noglob _ => false
  | .glob files => files.makes
  | .file .missing _ => false
  | .file .irregular _ => false
  | .file _ _ => true

def ConfPaths.makes : ConfPaths → Bool
  | .one path => path.makes
  | .cons path _ => path.makes

end

/-! ## Traces -/

/-- What the file at which reading stops does to the router. -/
def FailureKind.trace : FailureKind → List RouterEvent
  | .unmatched => []
  | .unread => []
  | .refused => [.freed]
  | .invalid reported => (if reported then [.reported] else []) ++ [.looked, .freed]

/-- What the files around it do in turn. -/
def Failure.trace (f : Failure) : List RouterEvent :=
  f.kind.trace ++ (replicate f.depth [.looked, .freed]).flatten

/-- A trace of a router that is made and used, and no more. -/
def Clean (es : List RouterEvent) : Prop := ∀ e ∈ es, e = .made ∨ e = .used

/-- A trace that ends with what a failure does. -/
def Ends (f : Failure) (es : List RouterEvent) : Prop :=
  ∃ front, Clean front ∧ es = front ++ f.trace

section
variable {f : Failure} {es es' : List RouterEvent}

theorem Clean.append (h : Clean es) (h' : Clean es') : Clean (es ++ es') := by
  intro e he
  exact (mem_append.1 he).elim (h e) (h' e)

theorem Clean.not_mem (h : Clean es) : .reported ∉ es ∧ .looked ∉ es ∧ .freed ∉ es := by
  refine ⟨fun he => ?_, fun he => ?_, fun he => ?_⟩
  all_goals simpa using h _ he

theorem Ends.append (hes : Clean es) (h : Ends f es') : Ends f (es ++ es') := by
  obtain ⟨front, hfront, rfl⟩ := h
  exact ⟨es ++ front, hes.append hfront, (append_assoc ..).symm⟩

/-- Another file around it looks up the place and frees the router once more. -/
theorem Ends.inside (h : Ends f es) : Ends f.inside (es ++ [.looked, .freed]) := by
  obtain ⟨front, hfront, rfl⟩ := h
  refine ⟨front, hfront, ?_⟩
  rw [Failure.trace, Failure.trace, Failure.inside]
  dsimp only
  rw [replicate_succ', flatten_append]
  simp

end

/-! ## What a failure does -/

/-- Whether reading succeeds, what it does to the router, and what was meant: where nothing fails a
router is returned that was not freed; otherwise the trace ends with what the failure does. -/
def Reads (failure : Option Failure) (read : Bool × List RouterEvent) (intended : Option Bool) :
    Prop :=
  match failure with
  | none => read.1 = true ∧ Clean read.2 ∧ intended = some true
  | some f => read.1 = false ∧ Ends f read.2 ∧ (f.kind ≠ .unmatched → intended = none)

section
variable {f g : Option Failure} {read read' : Bool × List RouterEvent} {intended : Option Bool}

/-- One after the other: the second is read where the first succeeds. -/
theorem Reads.next {k : Bool → Option Bool} (h : Reads f read intended)
    (h' : Reads g read' (k true)) :
    Reads (f.or g) (if read.1 then (read'.1, read.2 ++ read'.2) else (false, read.2))
      (intended.bind k) := by
  cases f with
  | none =>
    obtain ⟨hok, hfree, rfl⟩ := h
    rw [hok, if_pos rfl, none_or, bind_some]
    cases g with
    | none =>
      obtain ⟨hok', hfree', hi⟩ := h'
      exact ⟨hok', hfree.append hfree', hi⟩
    | some g =>
      obtain ⟨hok', hends, hi⟩ := h'
      exact ⟨hok', hends.append hfree, hi⟩
  | some f =>
    obtain ⟨hok, hends, hi⟩ := h
    rw [hok, if_neg Bool.false_ne_true, some_or]
    refine ⟨rfl, hends, ?_⟩
    intro hmatched
    rw [hi hmatched, bind_none]

/-- The file around a file that fails looks up the place and frees the router as well. -/
theorem Reads.inside (h : Reads f read intended) : Reads (f.map Failure.inside)
    (read.1, read.2 ++ if read.1 then [] else [.looked, .freed]) intended := by
  cases f with
  | none =>
    obtain ⟨hok, hclean, hi⟩ := h
    refine ⟨hok, ?_, hi⟩
    rw [hok, if_pos rfl, append_nil]
    exact hclean
  | some f =>
    obtain ⟨hok, hends, hi⟩ := h
    refine ⟨hok, ?_, hi⟩
    rw [hok, if_neg Bool.false_ne_true]
    exact hends.inside

theorem Reads.prepend {es : List RouterEvent} (hes : Clean es) (h : Reads f read intended) :
    Reads f (read.1, es ++ read.2) intended := by
  cases f with
  | none =>
    obtain ⟨hok, hclean, hi⟩ := h
    exact ⟨hok, hes.append hclean, hi⟩
  | some f =>
    obtain ⟨hok, hends, hi⟩ := h
    exact ⟨hok, hends.append hes, hi⟩

end

mutual

theorem readconfig_failed (orig : Bool) : ∀ path : ConfPath,
    Reads path.failure (routerReadconfig orig path) (path.intended orig)
  | .noglob error => by
    refine ⟨rfl, ⟨[], by simp [Clean], ?_⟩, ?_⟩
    · cases error <;> rfl
    · cases error <;> simp [ConfPath.intended]
  | .glob files => by
    simpa only [ConfPath.failure, routerReadconfig, ConfPath.intended] using
      readGlob_failed orig files
  | .file .missing _ => ⟨rfl, ⟨[], by simp [Clean], rfl⟩, fun _ => rfl⟩
  | .file .irregular _ => ⟨rfl, ⟨[], by simp [Clean], rfl⟩, fun _ => rfl⟩
  | .file (.refused _) _ => by
    refine ⟨rfl, ⟨if orig then [] else [.made], ?_, rfl⟩, fun _ => rfl⟩
    cases orig <;> simp [Clean]
  | .file .readable content => by
    have hdefaults : Reads none (true, if orig then [] else [.used]) (some true) :=
      ⟨rfl, by cases orig <;> simp [Clean], rfl⟩
    have hstart : Clean ((if orig then [] else [.made]) ++ [.used]) := by
      cases orig <;> simp [Clean]
    have h := ((parse_failed content).next (k := some) hdefaults).prepend hstart
    simp only [ConfPath.failure, routerReadconfig, ConfPath.intended]
    cases hok : (routerYyparse content).1 <;> simpa [hok] using h

theorem readGlob_failed (ret : Bool) : ∀ files : ConfPaths,
    Reads files.failure (readGlob ret files) (files.intended ret)
  | .one path => by
    simpa only [ConfPaths.failure, readGlob, ConfPaths.intended] using readconfig_failed ret path
  | .cons path rest => by
    simpa only [ConfPaths.failure, readGlob, ConfPaths.intended] using
      (readconfig_failed ret path).next (readGlob_failed true rest)

/-- A file that is not taken has yet to look up the place and to free the router. -/
theorem parse_failed : ∀ content : Content,
    Reads content.failure ((routerYyparse content).1,
        (routerYyparse content).2 ++ if (routerYyparse content).1 then [] else [.looked, .freed])
      (if content.intended then some true else none)
  | .nil => ⟨rfl, by simp [routerYyparse, Clean], rfl⟩
  | .invalid reported => by
    refine ⟨rfl, ⟨[.used], by simp [Clean], ?_⟩, fun _ => rfl⟩
    cases reported <;> rfl
  | .statement rest => by
    have hused : Clean [.used] := by simp [Clean]
    exact (parse_failed rest).prepend hused
  | .include path rest => by
    have h := (readconfig_failed true path).inside.next
      (k := fun _ => if rest.intended then some true else none) (parse_failed rest)
    have hi : ((path.intended true).bind fun _ => if rest.intended then some true else none) =
        if (path.intended true).isSome && rest.intended then some true else none := by
      cases path.intended true <;> simp
    rw [hi] at h
    simp only [Content.failure, routerYyparse, Content.intended]
    cases hok : (routerReadconfig true path).1 <;> simpa [hok] using h

end

/-! ## When a router is made -/

mutual

/-- No router is made inside of another file. -/
theorem made_not_mem_readconfig : ∀ path : ConfPath, .made ∉ (routerReadconfig true path).2
  | .noglob _ => by simp [routerReadconfig]
  | .glob files => by simpa only [routerReadconfig] using made_not_mem_readGlob files
  | .file .missing _ => by simp [routerReadconfig]
  | .file .irregular _ => by simp [routerReadconfig]
  | .file (.refused _) _ => by simp [routerReadconfig]
  | .file .readable content => by
    have h := made_not_mem_parse content
    cases hok : (routerYyparse content).1 <;> simp [routerReadconfig, hok, h]

theorem made_not_mem_readGlob : ∀ files : ConfPaths, .made ∉ (readGlob true files).2
  | .one path => by simpa only [readGlob] using made_not_mem_readconfig path
  | .cons path rest => by
    have h := made_not_mem_readconfig path
    have h' := made_not_mem_readGlob rest
    cases hok : (routerReadconfig true path).1 <;> simp [readGlob, hok, h, h']

theorem made_not_mem_parse : ∀ content : Content, .made ∉ (routerYyparse content).2
  | .nil => by simp [routerYyparse]
  | .invalid reported => by cases reported <;> simp [routerYyparse]
  | .statement rest => by simp [routerYyparse, made_not_mem_parse rest]
  | .include path rest => by
    have h := made_not_mem_readconfig path
    have h' := made_not_mem_parse rest
    cases hok : (routerReadconfig true path).1 <;> simp [routerYyparse, hok, h, h']

end

mutual

theorem readconfig_made : ∀ path : ConfPath, (routerReadconfig false path).2.count .made =
    path.makes.toNat
  | .noglob _ => rfl
  | .glob files => by simpa only [routerReadconfig, ConfPath.makes] using readGlob_made files
  | .file .missing _ => rfl
  | .file .irregular _ => rfl
  | .file (.refused _) _ => rfl
  | .file .readable content => by
    have h := count_eq_zero_of_not_mem (made_not_mem_parse content)
    cases hok : (routerYyparse content).1 <;> simp [routerReadconfig, ConfPath.makes, hok, h]

theorem readGlob_made : ∀ files : ConfPaths, (readGlob false files).2.count .made =
    files.makes.toNat
  | .one path => by simpa only [readGlob, ConfPaths.makes] using readconfig_made path
  | .cons path rest => by
    have h := readconfig_made path
    have h' := count_eq_zero_of_not_mem (made_not_mem_readGlob rest)
    cases hok : (routerReadconfig false path).1 <;> simp [readGlob, ConfPaths.makes, hok, h, h']

end

mutual

/-- Without a router, reading stopped at the first path. -/
theorem failure_of_not_makes : ∀ path : ConfPath, path.makes = false →
    ∃ kind, path.failure = some ⟨0, kind⟩ ∧ (kind = .unmatched ∨ kind = .unread)
  | .noglob error, _ => ⟨_, rfl, by cases error <;> simp⟩
  | .glob files, h => by simpa only [ConfPath.failure] using failure_of_not_makes_files files h
  | .file .missing _, _ => ⟨_, rfl, .inr rfl⟩
  | .file .irregular _, _ => ⟨_, rfl, .inr rfl⟩
  | .file (.refused _) _, h => by cases h
  | .file .readable _, h => by cases h

theorem failure_of_not_makes_files : ∀ files : ConfPaths, files.makes = false →
    ∃ kind, files.failure = some ⟨0, kind⟩ ∧ (kind = .unmatched ∨ kind = .unread)
  | .one path, h => by simpa only [ConfPaths.failure] using failure_of_not_makes path h
  | .cons path _, h => by
    obtain ⟨kind, hf, hkind⟩ := failure_of_not_makes path h
    exact ⟨kind, by rw [ConfPaths.failure, hf, some_or], hkind⟩

end

/-- A failure that is met as it should be: not in an included file, and either with a router that
the file frees, having stored the place of an error that it looks up, or before any router is made.
-/
def Failure.Proper (makes : Bool) (f : Failure) : Prop :=
  f.depth = 0 ∧
    match f.kind with
    | .unmatched => makes = false
    | .unread => makes = false
    | .refused => True
    | .invalid reported => reported = true

section
variable {f : Failure} {front es : List RouterEvent}

/-- A failure in an included file is met again by the file around it. -/
theorem Ends.depth_eq_zero (h : Ends f es)
    (hunused : ∀ front rest, es = front ++ .freed :: rest → rest = [])
    (hstored : ∀ front rest, es = front ++ .looked :: rest → .reported ∈ front) : f.depth = 0 := by
  obtain ⟨front, hclean, rfl⟩ := h
  obtain ⟨depth, kind⟩ := f
  cases depth with
  | zero => rfl
  | succ depth =>
    rw [Failure.trace] at hunused hstored
    dsimp only at hunused hstored
    rw [replicate_succ, flatten_cons] at hunused hstored
    cases kind with
    | unmatched => exact absurd (hstored front _ rfl) hclean.not_mem.1
    | unread => exact absurd (hstored front _ rfl) hclean.not_mem.1
    | refused => exact absurd (hunused front _ rfl) (by simp)
    | invalid reported =>
      refine absurd (hunused (front ++ (if reported then [.reported] else []) ++ [.looked])
        ([.looked, .freed] ++ (replicate depth [.looked, .freed]).flatten) ?_) (by simp)
      simp [FailureKind.trace]

/-- A part of a trace without some event is in front of every place where the event is. -/
theorem isPrefix_of_not_mem {e : RouterEvent} {rest es' rest' : List RouterEvent} (h : e ∉ es)
    (heq : es ++ e :: rest = es' ++ e :: rest') : es <+: es' := by
  obtain ⟨c, rfl, -⟩ | ⟨c, rfl, hc⟩ := append_eq_append_iff.1 heq
  · exact prefix_append es c
  · cases c with
    | nil => exact (append_nil es').symm ▸ prefix_rfl
    | cons a c =>
      obtain ⟨rfl, -⟩ := cons.inj hc
      exact absurd (by simp) h

theorem unused_of_not_mem {es' rest : List RouterEvent} (h : .freed ∉ es)
    (heq : es ++ [.freed] = es' ++ .freed :: rest) : rest = [] := by
  have hle := (isPrefix_of_not_mem h heq).length_le
  have hlength := congrArg length heq
  rw [length_append, length_append, length_cons, length_cons, length_nil] at hlength
  exact eq_nil_of_length_eq_zero (by omega)

end

section
variable {makes : Bool} {f : Failure} {front : List RouterEvent} (h : f.Proper makes)
  (hclean : Clean front)
include h

theorem Failure.Proper.trace_eq : f.trace = f.kind.trace := by
  rw [Failure.trace, h.1, replicate_zero, flatten_nil, append_nil]

include hclean

theorem Failure.Proper.count (hmakes : f.kind ≠ .unmatched → f.kind ≠ .unread → makes = true) :
    (front ++ f.trace).count .freed = makes.toNat := by
  rw [h.trace_eq, count_append, count_eq_zero_of_not_mem hclean.not_mem.2.2, Nat.zero_add]
  have hproper := h.2
  cases hkind : f.kind with
  | unmatched | unread =>
    rw [hkind] at hproper
    rw [hproper]
    rfl
  | refused => rw [hmakes (by simp [hkind]) (by simp [hkind])]; rfl
  | invalid reported =>
    rw [hmakes (by simp [hkind]) (by simp [hkind])]
    cases reported <;> rfl

theorem Failure.Proper.unused {front' rest : List RouterEvent}
    (heq : front ++ f.trace = front' ++ .freed :: rest) : rest = [] := by
  have hfreed := hclean.not_mem.2.2
  rw [h.trace_eq] at heq
  have hproper := h.2
  cases hkind : f.kind with
  | unmatched | unread =>
    rw [hkind, FailureKind.trace, append_nil] at heq
    exact absurd (by simp [heq]) hfreed
  | refused =>
    rw [hkind] at heq
    exact unused_of_not_mem hfreed heq
  | invalid reported =>
    rw [hkind] at heq hproper
    rw [show reported = true from hproper] at heq
    refine @unused_of_not_mem (front ++ [.reported, .looked]) front' rest (by simp [hfreed]) ?_
    rw [append_assoc]
    exact heq

theorem Failure.Proper.stored {front' rest : List RouterEvent}
    (heq : front ++ f.trace = front' ++ .looked :: rest) : .reported ∈ front' := by
  have hlooked := hclean.not_mem.2.1
  have hmem : RouterEvent.looked ∈ front ++ f.trace := by simp [heq]
  rw [h.trace_eq] at heq hmem
  have hproper := h.2
  cases hkind : f.kind with
  | unmatched | unread | refused =>
    rw [hkind] at hmem
    exact absurd hmem (by simp [FailureKind.trace, hlooked])
  | invalid reported =>
    rw [hkind] at heq hproper
    rw [show reported = true from hproper] at heq
    have hfronts : front ++ [.reported] <+: front' :=
      @isPrefix_of_not_mem (front ++ [.reported]) .looked [.freed] front' rest (by simp [hlooked])
        (by rw [append_assoc]; exact heq)
    exact hfronts.subset (by simp)

end

/-- Reading does what it is meant to if and only if the first failure is met as it should be, and is
not a pattern without files whose file and the files behind it would have been read. -/
theorem readsWell_iff (path : ConfPath) : path.ReadsWell ↔
    ∀ f, path.failure = some f → f.Proper path.makes ∧
      (f.kind = .unmatched → (path.intended false).getD false = false) := by
  have h := readconfig_failed false path
  have hmade := readconfig_made path
  constructor
  · intro hwell f hf
    rw [hf] at h
    obtain ⟨hok, hends, -⟩ := h
    have hdepth := hends.depth_eq_zero hwell.unused hwell.stored
    refine ⟨⟨hdepth, ?_⟩, fun _ => by rw [← hwell.result, hok]⟩
    obtain ⟨front, hclean, hes⟩ := hends
    obtain ⟨depth, kind⟩ := f
    cases hdepth
    have hcount := hwell.freed hok
    rw [hmade, hes] at hcount
    cases kind with
    | unmatched | unread =>
      rw [Failure.trace, FailureKind.trace, replicate_zero, flatten_nil, append_nil, append_nil,
        count_eq_zero_of_not_mem hclean.not_mem.2.2] at hcount
      exact Bool.toNat_eq_zero.1 hcount.symm
    | refused => trivial
    | invalid reported =>
      cases reported with
      | true => rfl
      | false => exact absurd (hwell.stored front _ hes) hclean.not_mem.1
  · intro hf
    cases hfailure : path.failure with
    | none =>
      rw [hfailure] at h
      obtain ⟨hok, hclean, hi⟩ := h
      refine ⟨by rw [hok, hi, getD_some], ?_, ?_, ?_⟩
      · intro hno
        rw [hok] at hno
        exact absurd hno Bool.false_ne_true.symm
      · intro front rest heq
        exact absurd (by simp [heq]) hclean.not_mem.2.2
      · intro front rest heq
        exact absurd (by simp [heq]) hclean.not_mem.2.1
    | some f =>
      obtain ⟨hproper, hmatched⟩ := hf f hfailure
      rw [hfailure] at h
      obtain ⟨hok, ⟨front, hclean, hes⟩, hi⟩ := h
      have hmakes : f.kind ≠ .unmatched → f.kind ≠ .unread → path.makes = true := by
        intro hunmatched hunread
        by_contra hnot
        obtain ⟨kind, hkind, hor⟩ := failure_of_not_makes path (Bool.not_eq_true _ ▸ hnot)
        rw [hfailure] at hkind
        cases hkind
        exact absurd hor (not_or.2 ⟨hunmatched, hunread⟩)
      refine ⟨?_, ?_, ?_, ?_⟩
      · rw [hok]
        by_cases hkind : f.kind = .unmatched
        · rw [hmatched hkind]
        · rw [hi hkind, getD_none]
      · intro _
        rw [hmade, hes]
        exact hproper.count hclean hmakes
      · intro front' rest heq
        exact hproper.unused hclean (hes ▸ heq)
      · intro front' rest heq
        exact hproper.stored hclean (hes ▸ heq)

/-- A file with an error that is included: both files free the router, which is used in between. -/
theorem included_error_frees_twice :
    let path := ConfPath.file .readable (.include (.file .readable (.invalid true)) .nil)
    routerReadconfig false path =
        (false, [.made, .used, .used, .used, .reported, .looked, .freed, .looked, .freed]) ∧
      ¬ path.ReadsWell :=
  ⟨rfl, fun h => absurd (h.freed rfl) (by decide)⟩

/-- An included pattern without files: the configuration is given up, not left as it is. -/
example :
    let path := ConfPath.file .readable (.include (.noglob .nomatch) .nil)
    routerReadconfig false path = (false, [.made, .used, .looked, .freed]) ∧
      path.intended false = some true :=
  ⟨rfl, rfl⟩

end CarbonRelay
