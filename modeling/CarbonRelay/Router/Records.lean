import CarbonRelay.Router.Slots
import CarbonRelay.Server.Stream
import CarbonRelay.Dispatcher.Cleansing

/-!
# The records of destinations

For every destination slot `router_route_intern` builds a record: a length, and the metric as the
destination takes it. For syslog servers and for files with addresses the metric is formatted by
`snprintf` into a buffer of `METRIC_BUFSIZ` bytes, and the length is the one `snprintf` returns,
which is that of the whole text even where the buffer was too small for it. A record is well formed
exactly if the formatted text has room in the buffer (`record_wellFormed_iff`). The dispatcher
accepts lines that fill the buffer by themselves.
-/

namespace CarbonRelay

open List

/-! ## Records -/

/-- How a destination takes a metric. -/
inductive Format
  | linemode
  | linemodeip
  | syslog
  deriving DecidableEq, Repr

/-- The text that a metric is formatted to. -/
def Format.text (env : RouteEnv) (metric : Text) : Format → Text
  | .linemode => metric
  | .linemodeip => env.srcaddr ++ [' '] ++ metric
  | .syslog =>
    "<30>1 ".toList ++ env.now ++ [' '] ++ env.srcaddr ++ " carbon-c-relay - - - ".toList ++ metric

/-- What `set_metric` is given: the length `len`, and the text there is at `fmtmetric`, up to its
terminator. -/
structure Record where
  len : Nat
  bytes : Text
  deriving DecidableEq, Repr

/-- `snprintf` into `newmetric`: the length of the text, and as much of it as has room. -/
def snprintfMetric (t : Text) : Record := ⟨t.length, t.take (metricBufsiz - 1)⟩

/-- `router.c:2900`, the formats. -/
def buildRecord (env : RouteEnv) (metric : Text) : Format → Record
  | .linemode => ⟨metric.length, metric⟩
  | format => snprintfMetric (format.text env metric)

/-- `router.c:3033 set_metric`, the copy of `len` bytes. Behind the terminator it reads what is not
there. -/
def Record.copied (r : Record) : Option Text :=
  if r.len ≤ r.bytes.length + 1 then some ((r.bytes ++ ['\x00']).take r.len) else none

/-- The length is that of the text, which ends with its newline, and an empty stream takes it. -/
structure Record.WellFormed (r : Record) : Prop where
  len : r.len = r.bytes.length
  newline : r.bytes.getLast? = some '\n'
  fits : r.len ≤ metricBufsiz
  taken : ∀ conn count, (sockwrite conn r.bytes ⟨[], count⟩).isSome = true

/-- A line with its newline, in a buffer of `METRIC_BUFSIZ` bytes. -/
structure IsLine (metric : Text) : Prop where
  length : metric.length < metricBufsiz
  newline : metric.getLast? = some '\n'

section
variable {env : RouteEnv} {metric : Text}

theorem sockwrite_empty {buf : Text} (h : buf.length ≤ metricBufsiz) (conn count : Nat) :
    (sockwrite conn buf ⟨[], count⟩).isSome = true := by
  rw [sockwrite, if_neg (by simpa using h)]
  rfl

theorem Format.text_eq_append (env : RouteEnv) (metric : Text) (format : Format) :
    ∃ head, format.text env metric = head ++ metric := by
  cases format with
  | linemode => exact ⟨[], rfl⟩
  | linemodeip => exact ⟨_, rfl⟩
  | syslog => exact ⟨_, rfl⟩

theorem IsLine.ne_nil (h : IsLine metric) : metric ≠ [] := by
  rintro rfl
  cases h.newline

/-- A text behind another one. -/
theorem getLast?_append_of_line (head : Text) (h : IsLine metric) :
    (head ++ metric).getLast? = some '\n' := by
  rw [getLast?_append_of_ne_nil _ h.ne_nil, h.newline]

theorem snprintfMetric_wellFormed_iff {t : Text} (ht : t.getLast? = some '\n') :
    (snprintfMetric t).WellFormed ↔ t.length < metricBufsiz := by
  constructor
  · intro h
    have hlen : t.length = (t.take (metricBufsiz - 1)).length := h.len
    rw [length_take] at hlen
    have hpos : 0 < metricBufsiz := by decide
    omega
  · intro h
    have htake : t.take (metricBufsiz - 1) = t := take_of_length_le (by omega)
    rw [snprintfMetric, htake]
    exact ⟨rfl, ht, h.le, sockwrite_empty h.le⟩

/-- The record of a line is well formed exactly if the formatted text has room in the buffer. -/
theorem IsLine.wellFormed_iff (h : IsLine metric) (env : RouteEnv) (format : Format) :
    (buildRecord env metric format).WellFormed ↔ (format.text env metric).length <
      metricBufsiz := by
  obtain ⟨head, htext⟩ := format.text_eq_append env metric
  have hlast : (format.text env metric).getLast? = some '\n' := by
    rw [htext]
    exact getLast?_append_of_line head h
  cases format with
  | linemode => exact iff_of_true ⟨rfl, h.newline, h.length.le,
    sockwrite_empty h.length.le⟩ h.length
  | linemodeip | syslog => exact snprintfMetric_wellFormed_iff hlast

/-! ## The records of the model -/

theorem formatted_eq_copied (t : Text) : formatted t = (snprintfMetric t).copied := by
  have hpos : 0 < metricBufsiz := by decide
  rw [formatted, Record.copied, snprintfMetric]
  simp only [length_take]
  split
  case isTrue hlt =>
    rw [if_pos (by omega), take_of_length_le (by omega : t.length ≤ metricBufsiz - 1), take_left]
  case isFalse hge =>
    split
    case isTrue heq =>
      have hend : (t.take (metricBufsiz - 1) ++ ['\x00']).length ≤ t.length := by
        rw [length_append, length_take, length_singleton]
        omega
      rw [if_pos (by omega), take_of_length_le hend]
    case isFalse hne => rw [if_neg (by omega)]

/-- The format for a server, outside of files with addresses. -/
def Server.format (s : Server) : Format :=
  match s.type with
  | .syslogmode => .syslog
  | .linemode => .linemode

theorem routerFormatLinemodeip_eq : routerFormatLinemodeip env metric =
    (buildRecord env metric .linemodeip).copied :=
  formatted_eq_copied _

theorem produceMetric_eq (s : Server) :
    produceMetric env metric s = (buildRecord env metric s.format).copied := by
  cases htype : s.type with
  | syslogmode =>
    simp only [produceMetric, Server.format, htype]
    exact formatted_eq_copied _
  | linemode => simp [produceMetric, Server.format, htype, buildRecord, Record.copied]

end

/-! ## Lines along a run -/

/-- The line of a call, with its first space in it. -/
structure RouteFrame.AtLine (fr : RouteFrame) : Prop where
  line : IsLine fr.metric
  inside : fr.firstspace < fr.metric.length

/-- A slot holds the copy of a record that was built from a line. -/
def HoldsRecord (env : RouteEnv) (slot : Server × Text) : Prop :=
  ∃ metric format, IsLine metric ∧ (format = .linemodeip ∨ format = slot.1.format) ∧
    (buildRecord env metric format).copied = some slot.2

/-- The call is at a line, and all slots hold records of lines. -/
def BuildsRecords (env : RouteEnv) : CallInvariant := fun _ fr out =>
  fr.AtLine ∧ ∀ slot ∈ out.ret, HoldsRecord env slot

/-- The call is at this line. -/
def SameMetric (metric : Text) : CallInvariant := fun _ fr _ => fr.metric = metric

section
variable {outside : Int → Char} {metric metric' replacement : Text}
  {firstspace firstspace' nmatch : Nat} {pmatch : Nat → Span}

/-- A rewritten metric keeps its data, and with it the newline. -/
theorem routerRewriteMetric_line
    (h : routerRewriteMetric outside metric firstspace replacement nmatch pmatch =
      some (metric', firstspace')) (hline : IsLine metric) (hinside : firstspace < metric.length) :
    IsLine metric' ∧ firstspace' < metric'.length := by
  simp only [routerRewriteMetric] at h
  split at h
  case isTrue => cases h
  case isFalse =>
    split at h
    case isTrue => cases h
    case isFalse =>
      split at h
      case isFalse => cases h
      case isTrue hroom =>
        cases h
        have hpos : 0 < (metric.drop firstspace).length := by
          rw [length_drop]
          omega
        refine ⟨⟨?_, ?_⟩, ?_⟩
        · rw [length_append]
          exact hroom
        · rw [getLast?_append_of_ne_nil _ (length_pos_iff.1 hpos), getLast?_drop,
            if_neg (by omega), hline.newline]
        · simp only [length_append]
          omega

end

section
variable {P : Server × Text → Prop} {format : Server → Option Text} {l : List Server}
  {out out' : RouteOut}

theorem pushServers_forall {retsize : Nat} {full : Bool}
    (hformat : ∀ s t, format s = some t → P (s, t))
    (h : pushServers retsize format l out = some (full, out')) (hout : ∀ slot ∈ out.ret, P slot) :
    ∀ slot ∈ out'.ret, P slot := by
  induction l generalizing out with
  | nil =>
    cases h
    exact hout
  | cons s l ih =>
    rw [pushServers] at h
    split at h
    case isTrue =>
      cases h
      exact hout
    case isFalse =>
      cases hs : format s with
      | none => simp [hs] at h
      | some t =>
        simp only [hs] at h
        exact ih h (forall_mem_append.2 ⟨hout, forall_mem_singleton.2 (hformat s t hs)⟩)

theorem setMetrics_forall (hformat : ∀ s t, format s = some t → P (s, t))
    (h : setMetrics format l out = some out') (hout : ∀ slot ∈ out.ret, P slot) :
    ∀ slot ∈ out'.ret, P slot :=
  pushServers_forall hformat (pushServers_of_setMetrics h) hout

variable {D : Type} {env : RouteEnv} {w : RuleOf D} {fr : RouteFrame}

/-- The servers of a cluster get records of the line. -/
theorem pushCluster_records {cl : Cluster} {full sent : Bool} {out' : RouteOut}
    (h : pushCluster env w cl fr out = some (full, sent, out'))
    (hinv : BuildsRecords env false fr out) :
    ∀ slot ∈ out'.ret, HoldsRecord env slot := by
  have hproduce : ∀ s t, produceMetric env fr.metric s = some t → HoldsRecord env (s, t) :=
    fun s t ht => ⟨fr.metric, s.format, hinv.1.line, .inr rfl, produceMetric_eq s ▸ ht⟩
  have hip : ∀ (s : Server) t, routerFormatLinemodeip env fr.metric = some t →
      HoldsRecord env (s, t) :=
    fun s t ht => ⟨fr.metric, .linemodeip, hinv.1.line, .inl rfl, routerFormatLinemodeip_eq ▸ ht⟩
  rcases pushCluster_cases h with ⟨-, hring⟩ | ⟨-, -, l, -, hpush⟩
  · rcases pushNodes_cases hring with ⟨-, -, -, rfl⟩ | ⟨-, -, -, rfl⟩ | ⟨_, nodes, -, -, -, -, hset⟩
    · exact hinv.2
    · exact hinv.2
    · exact setMetrics_forall hproduce hset hinv.2
  · refine pushServers_forall (fun s t ht => ?_) hpush hinv.2
    rw [Cluster.produce] at ht
    split at ht
    · exact hip s t ht
    · exact hproduce s t ht

theorem targetStep_records {t : Target} {s : DestStep} (h : targetStep env w t fr out = some s)
    (hinv : BuildsRecords env false fr out) : BuildsRecords env s.full s.frame s.out := by
  cases t with
  | blackhole =>
    cases h
    exact hinv
  | cluster cl =>
    obtain ⟨⟨full, sent, out'⟩, hpush, rfl⟩ := Option.map_eq_some_iff.1 h
    exact ⟨⟨hinv.1.line, hinv.1.inside⟩, pushCluster_records hpush hinv⟩

theorem BuildsRecords.of_line {full full' : Bool} {fr fr' : RouteFrame} {out' : RouteOut}
    (h : BuildsRecords env full fr out) (hmetric : fr'.metric = fr.metric)
    (hfirstspace : fr'.firstspace = fr.firstspace) (hret : out'.ret = out.ret) :
    BuildsRecords env full' fr' out' :=
  ⟨⟨hmetric ▸ h.1.line, hmetric ▸ hfirstspace ▸ h.1.inside⟩, hret ▸ h.2⟩

theorem destStep_records {w : Rule} {d : Dest} {last : Bool} {s : DestStep}
    (hd : ∀ routes, d ≠ .stub routes) (h : destStep env w d last fr out = some s)
    (hinv : BuildsRecords env false fr out) : BuildsRecords env s.full s.frame s.out := by
  rcases destStep_cases h with ⟨t, rfl, ht⟩ | ⟨routes, _, rfl, -, -⟩ | ⟨_, _, _, -, hrewrite, rfl⟩ |
    ⟨_, _, _, rfl⟩ | ⟨_, _, _, rfl, -⟩
  · exact targetStep_records ht hinv
  · exact absurd rfl (hd routes)
  · obtain ⟨hline, hinside⟩ := routerRewriteMetric_line hrewrite hinv.1.line hinv.1.inside
    exact ⟨⟨hline, hinside⟩, hinv.2⟩
  · exact hinv.of_line rfl rfl rfl
  · exact hinv.of_line rfl rfl rfl

/-! ## Stubs and groups -/

theorem newline_notMem_stubname (fmt : PointerFormat) (type : StubType) (addr : Nat) :
    '\n' ∉ stubname fmt type addr := by
  have hhead : '\n' ∉ type.head := by cases type <;> decide
  have haddr : '\n' ∉ fmt.text addr := fun hmem => absurd (fmt.plain hmem) (by decide)
  have htail : '\n' ∉ "__".toList := by decide
  intro hmem
  rcases mem_append.1 (mem_of_mem_take hmem) with hmem | hmem
  · exact (mem_append.1 hmem).elim hhead haddr
  · exact htail hmem

/-- What is left of a line behind a text without a newline. -/
theorem IsLine.drop {metric front : Text} (h : IsLine metric) (hfront : front <+: metric)
    (hnl : '\n' ∉ front) : IsLine (metric.drop front.length) ∧ front.length < metric.length := by
  obtain ⟨rest, rfl⟩ := hfront
  have hrest : rest ≠ [] := by
    rintro rfl
    rw [append_nil] at h
    exact hnl (mem_of_getLast? h.newline)
  rw [drop_left]
  refine ⟨⟨?_, ?_⟩, ?_⟩
  · have hlen := h.length
    rw [length_append] at hlen
    omega
  · rw [← h.newline, getLast?_append_of_ne_nil _ hrest]
  · rw [length_append]
    exact Nat.lt_add_of_pos_right (length_pos_iff.2 hrest)

/-- The rules behind a stub get the line without it. -/
theorem routeStub_records {w : Rule} {routes : List (RuleOf Target)} {out' : RouteOut}
    (hfront : w.pattern <+: fr.metric) (hnl : '\n' ∉ w.pattern)
    (h : routeStub env w routes fr out = some out') (hinv : BuildsRecords env false fr out) :
    ∀ slot ∈ out'.ret, HoldsRecord env slot := by
  obtain ⟨t, hrun, rfl⟩ := Option.map_eq_some_iff.1 h
  rw [t.finish_ret]
  obtain ⟨hline, hlt⟩ := hinv.1.line.drop hfront hnl
  have hframe : BuildsRecords (env.behind fr.metric w.pattern.length) false
      ((env.behind fr.metric w.pattern.length).frame (fr.metric.drop w.pattern.length)
        (fr.firstspace - w.pattern.length)) out := by
    refine ⟨⟨hline, ?_⟩, hinv.2⟩
    have hinside := hinv.1.inside
    show fr.firstspace - w.pattern.length < (fr.metric.drop w.pattern.length).length
    rw [length_drop]
    omega
  refine (routeRules_keeps (fun m _ fr out t hrule hinv => ?_) hrun hframe).2
  refine routeRule_invariant ⟨fun _ _ _ h => h.of_line rfl rfl rfl, fun _ _ _ h =>
    h.of_line rfl rfl rfl,
    fun _ _ _ _ _ _ => targetStep_records⟩ hrule hinv

theorem routeRule_records {fmt : PointerFormat} {unset : Nat → Unset} {w : Rule} {t : RouteStep}
    (hmade : Rule.Made fmt unset w) (h : routeRule env (destStep env) w fr out = some t)
    (hinv : BuildsRecords env false fr out) : BuildsRecords env t.full t.frame t.out := by
  cases hmade with
  | plain _ hdest hdests =>
    refine routeRule_invariant ⟨fun _ _ _ h => h.of_line rfl rfl rfl, fun _ _ _ h =>
      h.of_line rfl rfl rfl,
      fun d hd _ _ _ _ => destStep_records fun routes heq => ?_⟩ h hinv
    rcases mem_cons.1 hd with rfl | hd
    · exact hdest routes heq
    · obtain ⟨t, rfl⟩ := hdests d hd
      cases heq
  | stub type addr id send =>
    rw [routeRule] at h
    dsimp only at h
    split at h
    case isFalse =>
      cases h
      exact hinv.of_line rfl rfl rfl
    case isTrue hmatch =>
      have hfront : stubname fmt type addr <+: fr.metric := by
        by_contra hfront
        rw [← isPrefixOf_iff_prefix] at hfront
        simp [routerMetricMatches, stubCatch, hfront] at hmatch
      have hstub {fr' : RouteFrame} {out' : RouteOut}
          (h : routeDests (destStep env) (stubCatch unset id (stubname fmt type addr) send)
            [.stub [send]] fr' out' = some t)
          (hmetric : fr'.metric = fr.metric) (hfirstspace : fr'.firstspace = fr.firstspace)
          (hret : out'.ret = out.ret) : BuildsRecords env t.full t.frame t.out := by
        have hinv' : BuildsRecords env false fr' out' := hinv.of_line hmetric hfirstspace hret
        simp only [routeDests, destStep] at h
        cases hrun : routeStub env (stubCatch unset id (stubname fmt type addr) send)
          [send] fr' out' with
        | none =>
          rw [hrun] at h
          cases h
        | some o =>
          rw [hrun] at h
          cases h
          refine ⟨⟨hinv'.1.line, hinv'.1.inside⟩, routeStub_records ?_ ?_ hrun hinv'⟩
          · rw [hmetric]
            exact hfront
          · exact newline_notMem_stubname fmt type addr
      exact hstub h rfl rfl rfl

end

/-- The rules of a group do not rewrite. -/
theorem Rule.Made.ne_rewrite {fmt : PointerFormat} {unset : Nat → Unset} {w : Rule} {name : Text}
    (hmade : Rule.Made fmt unset w) (htail : w.tail = some name) {d : Dest}
    (hd : d ∈ w.dest :: w.dests) (replacement : Text) : d ≠ .rewrite replacement := by
  rintro rfl
  have hfirst : w.dest ≠ .rewrite replacement := by
    intro hdest
    rw [Rule.tail, hdest] at htail
    cases hmatch : w.matchtype <;> simp [hmatch] at htail
  cases hmade with
  | stub type addr id send => cases mem_singleton.1 hd
  | plain _ _ hdests =>
    rcases mem_cons.1 hd with heq | hd
    · exact hfirst heq.symm
    · obtain ⟨t, heq⟩ := hdests _ hd
      cases heq

theorem routeTable_records {fmt : PointerFormat} {unset : Nat → Unset} {table : List Route}
    {env : RouteEnv} {fr : RouteFrame} {out : RouteOut} {s : RouteStep}
    (hmade : ∀ w ∈ flattenRoutes table, Rule.Made fmt unset w)
    (hgroup : ∀ name members, .group name members ∈ table → ∀ w ∈ members, w.tail = some name)
    (h : routeTable env table fr out = some s) (hinv : BuildsRecords env false fr out) :
    BuildsRecords env s.full s.frame s.out := by
  refine routeTable_invariant (I := BuildsRecords env) (fun _ _ h => h.of_line rfl rfl rfl)
    (fun w hw _ _ _ => ?_) (fun name members hmem fr out t hrun hinv => ?_) h hinv
  · exact routeRule_records (hmade w (mem_flatMap.2 ⟨_, hw, mem_singleton_self w⟩))
  · have hmembers : ∀ w ∈ members, Rule.Made fmt unset w :=
      fun w hw => hmade w (mem_flatMap.2 ⟨_, hmem, hw⟩)
    have hrecords : BuildsRecords env t.full t.frame t.out :=
      routeRules_keeps (fun w hw _ _ _ => routeRule_records (hmembers w hw)) hrun
        ⟨⟨hinv.1.line, hinv.1.inside⟩, hinv.2⟩
    have hsame : SameMetric fr.metric t.full t.frame t.out :=
      routeRules_invariant (fun w hw =>
        ⟨fun _ _ _ h => h, fun _ _ _ h => h, fun d hd _ _ _ _ hstep hsame =>
        (destStep_line ((hmembers w hw).ne_rewrite (hgroup name members hmem w hw) hd)
          hstep).1.trans hsame⟩) hrun rfl
    refine ⟨⟨?_, ?_⟩, ?_⟩
    · exact hrecords.1.line
    · show fr.firstspace < t.frame.metric.length
      rw [hsame]
      exact hinv.1.inside
    · rw [t.finish_ret]
      exact hrecords.2

/-! ## Accepted lines -/

section
variable {D : Dispatcher} {b : Bool} {l line : Text} {firstspace : Nat}

/-- The first space is one of the bytes written so far. -/
def LineState.Inside (s : LineState) : Prop := ∀ k, s.firstspace = some k → k < s.metric.length

theorem LineState.Inside.push {s : LineState} (h : s.Inside) (c : Char) : (s.push c).Inside := by
  intro k hk
  rw [LineState.push, length_append]
  exact Nat.lt_add_right _ (h k hk)

theorem parseChar_inside {s : LineState} (h : s.Inside) (c : Char) : (parseChar D s c).Inside := by
  rw [parseChar]
  split
  · split
    · exact h
    · rw [pushSeparator]
      split
      · intro k hk
        cases hk
        simp
      · split
        · exact h.push _
        · exact h
  · split
    · intro k hk
      cases hk
      simp
    · split <;> exact h.push _

theorem parseLine_inside (D : Dispatcher) (b : Bool) (l : Text) : (parseLine D b l).Inside := by
  have hfold : ∀ (x : Text) (s : LineState), s.Inside → (x.foldl (parseChar D) s).Inside := by
    intro x
    induction x with
    | nil => exact fun _ h => h
    | cons c x ih => exact fun s h => ih _ (parseChar_inside h c)
  exact hfold _ _ nofun

/-- An accepted line that has room in its buffer. -/
theorem isLine_of_lineResult (h : lineResult D b l = some (line, firstspace))
    (hlen : line.length ≤ metricBufsiz - 1) : IsLine line ∧ firstspace < line.length := by
  obtain ⟨rfl, hfs⟩ := lineResult_eq_some h
  have hinside := parseLine_inside D b l firstspace hfs
  have hpos : 0 < metricBufsiz := by decide
  refine ⟨⟨by omega, getLast?_concat⟩, ?_⟩
  rw [length_append]
  exact Nat.lt_add_right _ hinside

end

/-- The record of an accepted line is well formed exactly if the formatted text has room in the
buffer of the router, for every format. And along every run, over the table of any configuration,
what is in the slots are records of such lines: the line itself, what rewrites made of it, and what
is left of it behind a stub. -/
theorem record_wellFormed_iff {D : Dispatcher} {b : Bool} {l line : Text} {firstspace : Nat}
    (h : lineResult D b l = some (line, firstspace)) (hlen : line.length ≤ metricBufsiz - 1)
    (env : RouteEnv) :
    (∀ format : Format,
      (buildRecord env line format).WellFormed ↔ (format.text env line).length < metricBufsiz) ∧
    ∀ fmt unset statements threshold opt out,
      (configure fmt unset statements).optimise threshold = some opt →
      routerRoute env opt.routes line firstspace = some out → ∀ slot ∈ out.ret, ∃ metric format,
        IsLine metric ∧ (format = .linemodeip ∨ format = slot.1.format) ∧
        (buildRecord env metric format).copied = some slot.2 ∧
        ((buildRecord env metric format).WellFormed ↔ (format.text env metric).length <
          metricBufsiz) := by
  obtain ⟨hline, hinside⟩ := isLine_of_lineResult h hlen
  refine ⟨hline.wellFormed_iff env,
    fun fmt unset statements threshold opt out hopt hroute slot hslot => ?_⟩
  replace hopt := RouteTable.optimise_eq_some hopt
  have hmade : ∀ w ∈ flattenRoutes opt.routes, Rule.Made fmt unset w :=
    fun w hw => configure_made fmt unset statements w (mem_of_routerOptimise hopt hw)
  have hgroup : ∀ name members, .group name members ∈ opt.routes → ∀ w ∈ members,
      w.tail = some name := by
    obtain ⟨table, htable, -, hgroup⟩ :=
      routerOptimise_spec threshold (configure fmt unset statements).routes
    rw [htable] at hopt
    cases hopt
    exact fun name members hmem => (hgroup name members hmem).2
  obtain ⟨s, hrun, rfl⟩ := Option.map_eq_some_iff.1 hroute
  rw [s.finish_ret] at hslot
  have hrecords : BuildsRecords env s.full s.frame s.out :=
    routeTable_records hmade hgroup hrun ⟨⟨hline, hinside⟩, forall_mem_nil _⟩
  obtain ⟨metric, format, hmetric, hformat, hcopied⟩ := hrecords.2 slot hslot
  exact ⟨metric, format, hmetric, hformat, hcopied, hmetric.wellFormed_iff env format⟩

/-- A short line for a syslog server. -/
theorem record_wellFormed_short :
    lineResult (dispatchInit "-_:#".toList 32768 32768) true "a 1 2\n".toList =
      some ("a 1 2\n".toList, 1) ∧ (buildRecord .basic "a 1 2\n".toList .syslog).WellFormed := by
  have hline : lineResult (dispatchInit "-_:#".toList 32768 32768) true "a 1 2\n".toList =
      some ("a 1 2\n".toList, 1) := by decide
  exact ⟨hline, ((record_wellFormed_iff hline (by decide) .basic).1 .syslog).2 (by decide)⟩

/-! ### A line that fills the buffer -/

/-- Letters are copied. -/
theorem foldl_parseChar_replicate (D : Dispatcher) (n : Nat) (s : LineState) :
    (List.replicate n 'a').foldl (parseChar D) s =
      { s with metric := s.metric ++ List.replicate n 'a' } := by
  induction n generalizing s with
  | zero => simp
  | succ n ih =>
    have hchar : parseChar D s 'a' = s.push 'a' := by simp [parseChar, isSeparator, copied]
    rw [replicate_succ, foldl_cons, hchar, ih]
    simp [LineState.push]

/-- The other formats put something in front. -/
theorem Format.length_lt_text (env : RouteEnv) (metric : Text) {format : Format}
    (h : format ≠ .linemode) : metric.length < (format.text env metric).length := by
  have hbehind : ∀ (head : Text) (c : Char) (tail : Text),
      metric.length < (head ++ c :: tail ++ metric).length := by
    intro head c tail
    simp only [length_append, length_cons]
    omega
  cases format with
  | linemode => exact (h rfl).elim
  | linemodeip => exact hbehind env.srcaddr ' ' []
  | syslog => exact hbehind _ ' ' "carbon-c-relay - - - ".toList

/-- A line whose metric has `n + 1` letters. -/
def longLine (n : Nat) : Text := List.replicate n 'a' ++ "a 1 2\n".toList

theorem longLine_length (n : Nat) : (longLine n).length = n + 6 := by simp [longLine]

theorem lineResult_longLine {D : Dispatcher} {n : Nat} (hinp : n + 5 ≤ D.maxinplen - 1)
    (hmetric : n + 1 ≤ D.maxmetriclen) (b : Bool) :
    lineResult D b (longLine n) = some (longLine n, n + 1) := by
  have hdrop : (longLine n).dropLast = List.replicate n 'a' ++ "a 1 2".toList := by
    rw [longLine, dropLast_append_of_ne_nil (by decide)]
    rfl
  have hparse : parseLine D b (longLine n) =
      ⟨List.replicate n 'a' ++ "a 1 2".toList, some (n + 1), b⟩ := by
    rw [parseLine, hdrop, foldl_append, foldl_parseChar_replicate]
    simp [parseChar, isSeparator, newLine, pushSeparator, tabToSpace, copied, LineState.push]
  have hlen : (List.replicate n 'a' ++ "a 1 2".toList).length = n + 5 := by simp
  rw [lineResult, hparse]
  refine (if_neg ?_).trans ?_
  · rw [hlen]
    rintro (h | h | h)
    · simp at h
    · omega
    · omega
  · simp [longLine]

/-- The longest line there is room for. With the address in front, and as a syslog message, it has
not. -/
theorem longest_line_malformed : ∃ line firstspace,
    lineResult (dispatchInit "-_:#".toList 32768 32768) true line = some (line, firstspace) ∧
    line.length = metricBufsiz - 1 ∧
    (buildRecord .basic line .linemode).WellFormed ∧
    ¬(buildRecord .basic line .linemodeip).WellFormed ∧
      ¬(buildRecord .basic line .syslog).WellFormed := by
  obtain ⟨line, haccepted, hlen⟩ : ∃ line,
    lineResult (dispatchInit "-_:#".toList 32768 32768) true line =
      some (line, metricBufsiz - 6) ∧ line.length = metricBufsiz - 1 :=
    ⟨longLine (metricBufsiz - 7),
      lineResult_longLine (by decide) (by decide) true, longLine_length _⟩
  have hline := (isLine_of_lineResult haccepted hlen.le).1
  have hpos : 1 ≤ metricBufsiz := by decide
  refine ⟨line, metricBufsiz - 6, haccepted, hlen, ?_, ?_, ?_⟩
  · exact (hline.wellFormed_iff .basic .linemode).2 hline.length
  · rw [hline.wellFormed_iff, not_lt, ← Nat.sub_add_cancel hpos, ← hlen]
    exact Format.length_lt_text RouteEnv.basic line (by decide)
  · rw [hline.wellFormed_iff, not_lt, ← Nat.sub_add_cancel hpos, ← hlen]
    exact Format.length_lt_text RouteEnv.basic line (by decide)

end CarbonRelay
