import CarbonRelay.Aggregator.Rows

/-!
# The invocations of a compute

The invariant of the hash table of a compute, from the rows up: an invocation (`InvOK`), a chain
(`ChainOK`) and the whole compute (`ComputeOK`). A chain has at most one invocation for each name,
all of its names hash to it, and nothing is pending for a name of the chain without an invocation.
An event is about one compute and one name, so each element of these lists owns a part of the trace,
and the passes over them are instances of the frame rule `mapEmit_framed`.
-/

namespace CarbonRelay

open List

universe u

variable {V : Type u}

/-- What stays fixed while an aggregator runs: the arithmetic and the sorting routine, the interval,
the number of buckets, and the types and percentiles of the computes. -/
structure AggrParams (V : Type u) where
  F : FloatOps V
  qsort : (V → V → Int) → List V → List V
  sorts : Sorts qsort
  interval : Nat
  interval_pos : 0 < interval
  bucketcnt : Nat
  conf : List (ComputeType × Nat)
  percentile_lt : ∀ {i : Nat} {type : ComputeType} {percentile : Nat},
    conf[i]? = some (type, percentile) → type.ranked = true → percentile < 100

/-- The events so far are right. -/
abbrev AggrParams.TraceOK (P : AggrParams V) (tr : List (AggrEvent V)) : Prop :=
  CarbonRelay.TraceOK P.F P.qsort P.interval P.conf tr

/-- The aggregator has the interval and the number of buckets. -/
structure AggrParams.Fits (P : AggrParams V) (s : Aggregator V) : Prop where
  interval : s.interval = P.interval
  bucketcnt : s.bucketcnt = P.bucketcnt

/-! ## Invocations -/

/-- An invocation of compute `i` after the events `tr`. -/
structure InvOK (P : AggrParams V) (type : ComputeType) (i : Nat) (tr : List (AggrEvent V))
    (inv : Invocation V) : Prop where
  hash : inv.hash = Fnv1a.hash32 inv.metric
  count : inv.buckets.length = P.bucketcnt
  row : RowOK P.F type P.interval i inv.metric tr inv.buckets

/-- What a step on one invocation does: its events are about it and are right, and it is kept. -/
structure InvKept (P : AggrParams V) (type : ComputeType) (i : Nat) (tr es : List (AggrEvent V))
    (inv inv' : Invocation V) : Prop where
  trace : P.TraceOK (tr ++ es)
  ok : InvOK P type i (tr ++ es) inv'
  key : ∀ e ∈ es, e.key = (i, inv.metric)
  metric : inv'.metric = inv.metric

section
variable {P : AggrParams V} {s : Aggregator V} {type : ComputeType} {i : Nat}
  {tr es : List (AggrEvent V)} {inv inv' : Invocation V}

theorem InvOK.frame (h : InvOK P type i tr inv) (hes : ∀ e ∈ es, e.key ≠ (i, inv.metric)) :
    InvOK P type i (tr ++ es) inv :=
  ⟨h.hash, h.count, h.row.congr fun _ => pending_append_of_key hes⟩

theorem InvKept.refl (htr : P.TraceOK tr) (h : InvOK P type i tr inv) :
    InvKept P type i tr [] inv inv := by
  refine ⟨?_, ?_, nofun, rfl⟩
  · rwa [append_nil]
  · rwa [append_nil]

/-- A dropped metric changes nothing. -/
theorem InvKept.dropped (htr : P.TraceOK tr) (h : InvOK P type i tr inv) :
    InvKept P type i tr [.dropped i inv.metric] inv inv where
  trace := htr.concat trivial
  ok := ⟨h.hash, h.count, h.row.congr fun _ => pending_append_singleton _⟩
  key e he := by cases mem_singleton.1 he; rfl
  metric := rfl

variable {epoch now : Int} {r running : Bool} {val : V} {F : FloatOps V} {o : PutOracle}

/-- The bucket at `itime / interval` is the one whose interval has the time in it. -/
theorem Spaced.mem_interval {interval : Nat} {t : Int} {bs : List (Bucket V)} {b : Bucket V}
    (hpos : 0 < interval) (h : Spaced interval t bs) (hle : t ≤ epoch)
    (hb : bs[((epoch - t) / interval).toNat]? = some b) :
    b.start ≤ epoch ∧ epoch < b.start + interval := by
  have hpos' : (0 : Int) < interval := by exact_mod_cast hpos
  have hdiv := Int.emod_add_mul_ediv (epoch - t) interval
  have hmod := Int.emod_nonneg (epoch - t) hpos'.ne'
  have hlt := Int.emod_lt_of_pos (epoch - t) hpos'
  rw [h.start_eq hb, Int.toNat_of_nonneg (Int.ediv_nonneg (by omega) hpos'.le), mul_comm]
  constructor <;> linarith

/-- A value for an invocation is dropped, or it is accepted for the bucket of its time. -/
theorem InvOK.put (hs : P.Fits s) (htr : P.TraceOK tr) (h : InvOK P type i tr inv)
    (hput : putInvocation P.F s i type.store r epoch val inv = some (inv', es)) :
    InvKept P type i tr es inv inv' := by
  obtain ⟨t, ht⟩ := h.row.spaced
  rw [putInvocation, hs.interval] at hput
  cases hhead : inv.buckets.head? with
  | none => rw [hhead] at hput; cases hput
  | some b₀ =>
    have hstart : b₀.start = t := by
      rw [head?_eq_getElem?] at hhead
      rw [ht.start_eq hhead, Nat.cast_zero, zero_mul, add_zero]
    simp only [hhead, hstart] at hput
    split at hput
    case isTrue => cases hput; exact .dropped htr h
    case isFalse hold =>
      split at hput
      case isTrue => cases hput; exact .dropped htr h
      case isFalse =>
        split at hput
        case h_1 => cases hput
        case h_2 b hb =>
          split at hput
          case isTrue => cases hput; exact .dropped htr h
          case isFalse hstate =>
            cases hput
            have hopen : b.state = .open := by
              cases hb' : b.state with
              | «open» => rfl
              | expire => exact absurd hb' hstate
            exact {
              trace := htr.concat (ht.mem_interval P.interval_pos (by omega) hb)
              ok := ⟨h.hash, by rw [length_set,
                h.count], h.row.put P.interval_pos hb hopen r epoch val⟩
              key := fun e he => by cases mem_singleton.1 he; rfl
              metric := rfl }

theorem metric_putInvocation {n : Bool}
    (hput : putInvocation F s i n r epoch val inv = some (inv', es)) :
    inv'.metric = inv.metric := by
  rw [putInvocation] at hput
  grind

theorem metric_scanInvocation {qsort : (V → V → Int) → List V → List V}
    {c : Compute V} (hscan : scanInvocation F qsort s running now i c inv = some (inv', es)) :
    inv'.metric = inv.metric := by
  rw [scanInvocation] at hscan
  split at hscan
  · cases hscan
  · cases hscan; rfl

/-- A value for an invocation is put into a bucket of the array or dropped. -/
theorem InvOK.exists_put (hs : P.Fits s) (hcnt : 0 < P.bucketcnt) (h : InvOK P type i tr inv)
    (n r : Bool) (epoch : Int) (val : V) :
    ∃ res, putInvocation P.F s i n r epoch val inv = some res := by
  have hlen : 0 < inv.buckets.length := h.count ▸ hcnt
  have hpos : (0 : Int) < P.interval := by exact_mod_cast P.interval_pos
  rw [putInvocation, head?_eq_getElem?, getElem?_eq_getElem hlen]
  dsimp only
  split
  case isTrue => exact ⟨_, rfl⟩
  case isFalse hold =>
    split
    case isTrue => exact ⟨_, rfl⟩
    case isFalse hnew =>
      have hk : ((epoch - inv.buckets[0].start) / s.interval).toNat < inv.buckets.length := by
        rw [h.count, ← hs.bucketcnt, Int.toNat_lt (Int.ediv_nonneg (by omega) (by omega))]
        exact Int.ediv_lt_of_lt_mul (by rw [hs.interval]; exact hpos) (by omega)
      rw [getElem?_eq_getElem hk]
      dsimp only
      split <;> exact ⟨_, rfl⟩

/-- The scan of an invocation. -/
theorem InvOK.scan {c : Compute V} (hconf : P.conf[i]? = some (c.type, c.percentile))
    (htr : P.TraceOK tr) (h : InvOK P c.type i tr inv)
    (hscan : scanInvocation P.F P.qsort s running now i c inv = some (inv', es)) :
    InvKept P c.type i tr es inv inv' := by
  rw [scanInvocation] at hscan
  split at hscan
  case h_1 => cases hscan
  case h_2 buckets es₁ hrow =>
    cases hscan
    obtain ⟨htr', hrow', hlen, hkey⟩ :=
      h.row.scan P.sorts (P.percentile_lt hconf) hconf htr P.interval_pos hrow
    exact ⟨htr', ⟨h.hash, hlen.trans h.count, hrow'⟩, hkey, rfl⟩

/-- An invocation that is not removed is kept. -/
theorem InvOK.clean (h : InvOK P type i tr inv)
    (hclean : cleanInvocation P.interval inv = some inv') :
    InvOK P type i tr inv' ∧ inv'.metric = inv.metric := by
  obtain ⟨hrow, hlen⟩ := h.row.rotate P.interval_pos (n := inv.buckets.length)
  rw [cleanInvocation] at hclean
  split at hclean
  case isTrue => cases hclean
  case isFalse =>
    cases hclean
    exact ⟨⟨h.hash, hlen.trans h.count, hrow⟩, rfl⟩

/-- Nothing is pending for an invocation that is removed. -/
theorem InvOK.clean_eq_none (h : InvOK P type i tr inv)
    (hclean : cleanInvocation P.interval inv = none) (start : Int) :
    pending tr i inv.metric start = [] := by
  obtain ⟨hrow, -⟩ := h.row.rotate P.interval_pos (n := inv.buckets.length)
  rw [cleanInvocation] at hclean
  split at hclean
  case isTrue hempty =>
    exact hrow.pending_eq_nil (fun b hb => of_decide_eq_true (all_eq_true.1 hempty b hb)) start
  case isFalse => cases hclean

/-! ## Chains -/

/-- The event is about compute `i` and a name of chain `k`. -/
def AggrEvent.InChain (i k : Nat) (e : AggrEvent V) : Prop :=
  e.key.1 = i ∧ omhtbucket (Fnv1a.hash32 e.key.2) = k

/-- Chain `k` of the hash table of compute `i` after the events `tr`. -/
structure ChainOK (P : AggrParams V) (type : ComputeType) (i k : Nat) (tr : List (AggrEvent V))
    (chain : List (Invocation V)) : Prop where
  invocations : ∀ inv ∈ chain, InvOK P type i tr inv
  bucket : ∀ inv ∈ chain, omhtbucket (Fnv1a.hash32 inv.metric) = k
  nodup : (chain.map Invocation.metric).Nodup
  absent : ∀ metric, omhtbucket (Fnv1a.hash32 metric) = k → metric ∉ chain.map Invocation.metric →
    ∀ start, pending tr i metric start = []

variable {k : Nat} {chain chain' : List (Invocation V)} {metric : Text}

/-- A chain without invocations, at the start. -/
theorem chainOK_nil : ChainOK P type i k [] [] where
  invocations _ hinv := absurd hinv not_mem_nil
  bucket _ hinv := absurd hinv not_mem_nil
  nodup := nodup_nil
  absent _ _ _ _ := rfl

/-- A chain is left alone by events about other chains. -/
theorem ChainOK.frame (h : ChainOK P type i k tr chain) (hes : ∀ e ∈ es, ¬ e.InChain i k) :
    ChainOK P type i k (tr ++ es) chain where
  invocations inv hinv := (h.invocations inv hinv).frame fun e he hkey =>
    hes e he ⟨by rw [hkey], by rw [hkey]; exact h.bucket inv hinv⟩
  bucket := h.bucket
  nodup := h.nodup
  absent metric hk hmem start := by
    rw [pending_append_of_key fun e he hkey => hes e he ⟨by rw [hkey], by rw [hkey]; exact hk⟩]
    exact h.absent metric hk hmem start

/-- A pass over a chain, from what it does to one invocation. -/
theorem ChainOK.mapEmit {f : Nat → Invocation V → Option (Invocation V × List (AggrEvent V))}
    (hf : ∀ n tr inv inv' es, P.TraceOK tr → InvOK P type i tr inv → f n inv = some (inv', es) →
      InvKept P type i tr es inv inv')
    (hmetric : ∀ n inv inv' es, f n inv = some (inv', es) → inv'.metric = inv.metric)
    (htr : P.TraceOK tr) (h : ChainOK P type i k tr chain)
    (hmap : mapEmit f 0 chain = some (chain', es)) :
    P.TraceOK (tr ++ es) ∧ ChainOK P type i k (tr ++ es) chain' ∧ ∀ e ∈ es, e.InChain i k := by
  have hmetrics : chain'.map Invocation.metric = chain.map Invocation.metric :=
    map_mapEmit hmetric hmap
  obtain ⟨htr', hgood, habout⟩ := mapEmit_framed P.TraceOK (fun _ tr inv => InvOK P type i tr inv)
    (fun _ inv e => e.key = (i, inv.metric))
    (fun n tr inv inv' es htr hinv hstep =>
      have hkept := hf n tr inv inv' es htr hinv hstep
      ⟨hkept.trace, hkept.ok, hkept.key, fun e he => by rw [he, hkept.metric]⟩)
    (fun _ _ _ _ hinv hes => hinv.frame hes) htr
    (fun j inv hj => h.invocations inv (mem_of_getElem? hj))
    (fun j k a b hjk ha hb e hea heb => hjk <| by
      have hname : a.metric = b.metric := (Prod.mk.inj (hea.symm.trans heb)).2
      have hget : (chain.map Invocation.metric)[j]? = (chain.map Invocation.metric)[k]? := by
        rw [getElem?_map, getElem?_map, ha, hb, Option.map_some, Option.map_some, hname]
      refine (getElem?_inj ?_ h.nodup).1 hget
      rw [length_map]
      exact (List.getElem?_eq_some_iff.1 ha).1) hmap
  have hin : ∀ e ∈ es, ∃ inv ∈ chain, e.key = (i, inv.metric) := fun e he =>
    let ⟨_, inv, hj, hkey⟩ := habout e he
    ⟨inv, mem_of_getElem? hj, hkey⟩
  refine ⟨htr', ⟨fun inv hinv => ?_, fun inv hinv => ?_, hmetrics ▸ h.nodup, ?_⟩, fun e he => ?_⟩
  · obtain ⟨j, hj⟩ := mem_iff_getElem?.1 hinv
    exact hgood j inv hj
  · have hmem : inv.metric ∈ chain.map Invocation.metric := hmetrics ▸ mem_map_of_mem hinv
    obtain ⟨inv₀, hinv₀, heq⟩ := mem_map.1 hmem
    exact heq ▸ h.bucket inv₀ hinv₀
  · intro metric hk hmem start
    rw [hmetrics] at hmem
    rw [pending_append_of_key fun e he hkey => ?_]
    · exact h.absent metric hk hmem start
    · obtain ⟨inv, hinv, hkey'⟩ := hin e he
      exact hmem ((Prod.mk.inj (hkey'.symm.trans hkey)).2 ▸ mem_map_of_mem hinv)
  · obtain ⟨inv, hinv, hkey⟩ := hin e he
    exact ⟨by rw [hkey], by rw [hkey]; exact h.bucket inv hinv⟩

/-- In a correct chain the hash adds nothing to the name. -/
theorem isFor_iff {inv : Invocation V} (h : inv.hash = Fnv1a.hash32 inv.metric) :
    inv.isFor metric = true ↔ inv.metric = metric := by
  rw [Invocation.isFor, decide_eq_true_iff]
  exact ⟨fun hfor => hfor.2, fun heq => ⟨heq ▸ h, heq⟩⟩

/-- As a chain has one invocation of a name at most, putting a value into the first one is a pass
that puts it into all of them. -/
theorem putChain_eq_mapEmit {n : Bool} (hhash : ∀ inv ∈ chain, inv.hash = Fnv1a.hash32 inv.metric)
    (hnodup : (chain.map Invocation.metric).Nodup) (m : Nat) :
    putChain F s i n r epoch val metric chain =
      mapEmit (fun _ inv => if inv.isFor metric then
        putInvocation F s i n r epoch val inv else some (inv, [])) m chain := by
  induction chain generalizing m with
  | nil => rfl
  | cons inv chain ih =>
    rw [map_cons, nodup_cons] at hnodup
    have hhash' : ∀ inv ∈ chain, inv.hash = Fnv1a.hash32 inv.metric := fun inv' hinv' =>
      hhash inv' (mem_cons_of_mem inv hinv')
    rw [putChain, mapEmit]
    by_cases hfor : inv.isFor metric
    · rw [if_pos hfor, if_pos hfor, mapEmit_eq_self fun _ inv' hinv' => if_neg ?_]
      · cases putInvocation F s i n r epoch val inv with
        | none => rfl
        | some p => simp only [append_nil]
      · rw [isFor_iff (hhash' inv' hinv')]
        rw [isFor_iff (hhash inv mem_cons_self)] at hfor
        exact fun heq => hnodup.1 (hfor.trans heq.symm ▸ mem_map_of_mem hinv')
    · rw [if_neg hfor, if_neg hfor, ih hhash' hnodup.2 (m + 1)]
      cases mapEmit _ (m + 1) chain <;> rfl

/-- A new row starts one interval after another. -/
theorem spaced_range {interval : Nat} {t : Int} {b : Nat → Bucket V}
    (hb : ∀ j, (b j).start = t + j * interval) (n : Nat) :
    Spaced interval t ((List.range n).map b) := by
  induction n with
  | zero => trivial
  | succ n ih =>
    rw [range_succ, map_append]
    exact ih.concat (by rw [length_map, length_range]; exact hb n)

/-- A chain with a new invocation, where it had none of the name. -/
theorem ChainOK.findOrAdd (hs : P.Fits s) (h : ChainOK P type i k tr chain)
    (hk : omhtbucket (Fnv1a.hash32 metric) = k)
    (hfind : findOrAdd P.F s now metric o chain = some chain') : ChainOK P type i k tr chain' := by
  rw [CarbonRelay.findOrAdd] at hfind
  split at hfind
  case isTrue => cases hfind; exact h
  case isFalse hany =>
    have hmem : metric ∉ chain.map Invocation.metric := fun hmem => by
      obtain ⟨inv, hinv, hname⟩ := mem_map.1 hmem
      exact hany (any_eq_true.2 ⟨inv, hinv, (isFor_iff (h.invocations inv hinv).hash).2 hname⟩)
    split at hfind
    case isTrue => cases hfind; exact h
    case isFalse =>
      split at hfind
      case isTrue => cases hfind
      case isFalse =>
        split at hfind
        case isTrue => cases hfind; exact h
        case isFalse =>
          cases hfind
          have hnew : InvOK P type i tr (newInvocation P.F s now metric o.rand) := by
            refine ⟨rfl, by rw [newInvocation, length_map, length_range, hs.bucketcnt], ?_⟩
            rw [← hs.interval]
            refine rowOK_empty ⟨_, spaced_range (fun _ => rfl) _⟩ (fun b hb => ?_)
              (h.absent metric hk hmem)
            obtain ⟨j, -, rfl⟩ := mem_map.1 hb
            exact ⟨rfl, rfl⟩
          exact {
            invocations := forall_mem_cons.2 ⟨hnew, h.invocations⟩
            bucket := forall_mem_cons.2 ⟨hk, h.bucket⟩
            nodup := nodup_cons.2 ⟨hmem, h.nodup⟩
            absent := fun metric' hk' hmem' =>
              h.absent metric' hk' fun hmem => hmem' (mem_cons_of_mem _ hmem) }

/-- The clean-up of a chain. -/
theorem ChainOK.clean (h : ChainOK P type i k tr chain) :
    ChainOK P type i k tr (chain.filterMap (cleanInvocation P.interval)) := by
  have hmetric : ∀ inv inv' : Invocation V, cleanInvocation P.interval inv = some inv' →
      inv'.metric = inv.metric := fun inv inv' hclean => by
    rw [cleanInvocation] at hclean
    split at hclean
    · cases hclean
    · cases hclean; rfl
  have hsub := map_filterMap_sublist (g := Invocation.metric) hmetric chain
  refine ⟨fun inv hinv => ?_, fun inv hinv => ?_, hsub.nodup h.nodup,
    fun metric hk hmem start => ?_⟩
  · obtain ⟨inv₀, hinv₀, hclean⟩ := mem_filterMap.1 hinv
    exact ((h.invocations inv₀ hinv₀).clean hclean).1
  · obtain ⟨inv₀, hinv₀, hclean⟩ := mem_filterMap.1 hinv
    exact hmetric inv₀ inv hclean ▸ h.bucket inv₀ hinv₀
  · by_cases hold : metric ∈ chain.map Invocation.metric
    · obtain ⟨inv, hinv, rfl⟩ := mem_map.1 hold
      cases hclean : cleanInvocation P.interval inv with
      | none => exact (h.invocations inv hinv).clean_eq_none hclean start
      | some inv' =>
        exact absurd (hmetric inv inv' hclean ▸
          mem_map_of_mem (mem_filterMap.2 ⟨inv, hinv, hclean⟩)) hmem
    · exact h.absent metric hk hold start

/-! ## Computes -/

/-- Compute `i` after the events `tr`. -/
structure ComputeOK (P : AggrParams V) (i : Nat) (tr : List (AggrEvent V)) (c : Compute V) :
    Prop where
  conf : P.conf[i]? = some (c.type, c.percentile)
  needed : c.entriesNeeded = c.type.store
  size : c.invocationsHt.length = 2 ^ aggrHtPowSize
  chains : ∀ k chain, c.invocationsHt[k]? = some chain → ChainOK P c.type i k tr chain

/-- What a step on one compute does: its events are about it and are right, and it is kept. -/
structure ComputeKept (P : AggrParams V) (i : Nat) (tr es : List (AggrEvent V)) (c' : Compute V) :
    Prop where
  trace : P.TraceOK (tr ++ es)
  ok : ComputeOK P i (tr ++ es) c'
  key : ∀ e ∈ es, e.key.1 = i

theorem omhtbucket_lt (omhash : Nat) : omhtbucket omhash < 2 ^ aggrHtPowSize :=
  Nat.and_lt_two_pow _ (by decide)

variable {c c' : Compute V}

theorem ComputeOK.frame (h : ComputeOK P i tr c) (hes : ∀ e ∈ es, e.key.1 ≠ i) :
    ComputeOK P i (tr ++ es) c :=
  ⟨h.conf, h.needed, h.size, fun k chain hk =>
    (h.chains k chain hk).frame fun e he hin => hes e he hin.1⟩

/-- The chain of a name, for every name. -/
theorem ComputeOK.exists_chain (h : ComputeOK P i tr c) (omhash : Nat) :
    ∃ chain, c.invocationsHt[omhtbucket omhash]? = some chain :=
  ⟨_, getElem?_eq_getElem (h.size ▸ omhtbucket_lt omhash)⟩

/-- A value for a compute goes to the chain of its name. -/
theorem putCompute_eq {rewrite : Text → Option Text}
    {metric : Text} {chain chain₁ chain₂ : List (Invocation V)}
    (hname : rewrite c.metric = some metric)
    (hk : c.invocationsHt[omhtbucket (Fnv1a.hash32 metric)]? = some chain)
    (hfind : findOrAdd F s now metric o chain = some chain₁)
    (hput : putChain F s i c.entriesNeeded o.realloc epoch val metric chain₁ = some (chain₂, es)) :
    putCompute F s now epoch val rewrite o i c = some ({ c with
      invocationsHt := c.invocationsHt.set (omhtbucket (Fnv1a.hash32 metric)) chain₂ }, es) := by
  simp only [putCompute, hname, hk, hfind, hput]

/-- A value for compute `i`. -/
theorem ComputeOK.put (hs : P.Fits s) (htr : P.TraceOK tr) (h : ComputeOK P i tr c)
    {rewrite : Text → Option Text}
    (hput : putCompute P.F s now epoch val rewrite o i c = some (c', es)) :
    ComputeKept P i tr es c' := by
  rw [putCompute, h.needed] at hput
  split at hput
  case h_1 =>
    cases hput
    exact ⟨by rwa [append_nil], by rwa [append_nil], nofun⟩
  case h_2 metric _ =>
    dsimp only at hput
    obtain ⟨chain, hchain⟩ := h.exists_chain (Fnv1a.hash32 metric)
    rw [hchain] at hput
    dsimp only at hput
    split at hput
    case h_1 => cases hput
    case h_2 chain₁ hfind =>
      have hok₁ := (h.chains _ chain hchain).findOrAdd hs rfl hfind
      split at hput
      case h_1 => cases hput
      case h_2 chain₂ es₂ hchain₂ =>
        cases hput
        rw [putChain_eq_mapEmit (fun inv hinv => (hok₁.invocations inv hinv).hash) hok₁.nodup
          0] at hchain₂
        obtain ⟨htr', hok₂, hin⟩ := hok₁.mapEmit
          (fun _ tr inv inv' es htr hinv hstep => by
            split at hstep
            · exact hinv.put hs htr hstep
            · cases hstep; exact .refl htr hinv)
          (fun _ inv inv' es hstep => by
            split at hstep
            · exact metric_putInvocation hstep
            · cases hstep; rfl) htr hchain₂
        refine ⟨htr', ⟨h.conf, rfl, by rw [length_set, h.size], fun k chain' hk => ?_⟩,
          fun e he => (hin e he).1⟩
        rw [getElem?_set] at hk
        split at hk
        case isTrue heq =>
          split at hk
          case isTrue => cases hk; exact heq ▸ hok₂
          case isFalse => cases hk
        case isFalse hne =>
          exact (h.chains k chain' hk).frame fun e he hin' => hne ((hin e he).2.symm.trans hin'.2)

/-- A value for compute `i` always has a result. -/
theorem ComputeOK.exists_put (h : ComputeOK P i tr c) (hs : P.Fits s) (hcnt : 0 < P.bucketcnt)
    (now epoch : Int) (val : V) (rewrite : Text → Option Text) (o : PutOracle) :
    ∃ r, putCompute P.F s now epoch val rewrite o i c = some r := by
  cases hname : rewrite c.metric with
  | none => exact ⟨(c, []), by rw [putCompute, hname]⟩
  | some metric =>
    obtain ⟨chain, hchain⟩ := h.exists_chain (Fnv1a.hash32 metric)
    obtain ⟨chain₁, hfind⟩ : ∃ chain₁, findOrAdd P.F s now metric o chain = some chain₁ := by
      rw [findOrAdd, if_neg (hs.interval ▸ P.interval_pos.ne' : s.interval ≠ 0)]
      split_ifs <;> exact ⟨_, rfl⟩
    have hok := (h.chains _ chain hchain).findOrAdd hs rfl hfind
    obtain ⟨⟨chain₂, es⟩, hput⟩ := exists_mapEmit (l := chain₁) (n := 0)
      (f := fun _ inv => if inv.isFor metric then
        putInvocation P.F s i c.entriesNeeded o.realloc epoch val inv else some (inv, []))
      fun _ inv hinv => by
        split
        · exact (hok.invocations inv (mem_of_getElem? hinv)).exists_put hs hcnt ..
        · exact ⟨_, rfl⟩
    rw [← putChain_eq_mapEmit (fun inv hinv => (hok.invocations inv hinv).hash) hok.nodup] at hput
    exact ⟨_, putCompute_eq hname hchain hfind hput⟩

theorem scanCompute_eq {qsort : (V → V → Int) → List V → List V} {ht : List (List (Invocation V))}
    (hmap : mapEmit (fun _ chain =>
      mapEmit (fun _ inv => scanInvocation F qsort s running now i c inv)
      0 chain) 0 c.invocationsHt = some (ht, es)) :
    scanCompute F qsort s running now i c = some ({ c with invocationsHt := ht }, es) := by
  simp only [scanCompute, hmap]

/-- The scan of compute `i`. -/
theorem ComputeOK.scan (htr : P.TraceOK tr) (h : ComputeOK P i tr c)
    (hscan : scanCompute P.F P.qsort s running now i c = some (c', es)) :
    ComputeKept P i tr es c' := by
  rw [scanCompute] at hscan
  split at hscan
  case h_1 => cases hscan
  case h_2 ht es₁ hmap =>
    cases hscan
    obtain ⟨htr', hgood, habout⟩ := mapEmit_framed P.TraceOK
      (fun k tr chain => ChainOK P c.type i k tr chain) (fun k _ e => e.InChain i k)
      (fun k tr chain chain' es htr hok hstep => by
        obtain ⟨htr', hok', hin⟩ :=
          hok.mapEmit (fun _ _ _ _ _ htr hinv hstep => hinv.scan h.conf htr hstep)
          (fun _ _ _ _ hstep => metric_scanInvocation hstep) htr hstep
        exact ⟨htr', hok', hin, fun _ hin => hin⟩)
      (fun _ _ _ _ hok hes => hok.frame hes) htr
      (fun k chain hk => by rw [Nat.zero_add]; exact h.chains k chain hk)
      (fun j k _ _ hjk _ _ e hj hk => hjk (by simpa using hj.2.symm.trans hk.2)) hmap
    refine ⟨htr', ⟨h.conf, h.needed, ?_, fun k chain hk => ?_⟩, fun e he => ?_⟩
    · exact (mapEmit_getElem? hmap).1.trans h.size
    · have := hgood k chain hk
      rwa [Nat.zero_add] at this
    · obtain ⟨_, _, _, hin⟩ := habout e he
      exact hin.1

/-- The clean-up of a compute. -/
theorem ComputeOK.clean (h : ComputeOK P i tr c) :
    ComputeOK P i tr { c with
      invocationsHt := c.invocationsHt.map fun chain =>
        chain.filterMap (cleanInvocation P.interval) } := by
  refine ⟨h.conf, h.needed, by rw [length_map, h.size], fun k chain hk => ?_⟩
  rw [getElem?_map, Option.map_eq_some_iff] at hk
  obtain ⟨chain₀, hk, rfl⟩ := hk
  exact (h.chains k chain₀ hk).clean

end

end CarbonRelay
