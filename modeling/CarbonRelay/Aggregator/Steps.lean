import Mathlib.Data.List.TakeWhile
import CarbonRelay.Aggregator.Conservation

/-!
# What a step leaves of the invocations

Every invocation of an aggregator after a step comes from one before it, or was created by it. This
module says so once for each of the three steps: taking in a metric changes neither the name nor the
expiry time nor the starts and states of the buckets (`SameRow`) and puts the value into one of them
at most (`Took`), a pass that writes aggregates scans every invocation, and a pass that cleans up
rotates it. For the pass that writes, the facts about single invocations and the trace are carried
to the whole aggregator (`aggregatorExpire_framed`).
-/

namespace CarbonRelay

open List

universe u

variable {V : Type u}

/-- The states and the starts of the buckets. -/
def Invocation.row (inv : Invocation V) : List (BucketState × Int) :=
  inv.buckets.map fun b => (b.state, b.start)

/-- Two invocations that differ in what the buckets hold only. -/
structure SameRow (inv inv' : Invocation V) : Prop where
  metric : inv'.metric = inv.metric
  expire : inv'.expire = inv.expire
  row : inv'.row = inv.row

theorem SameRow.refl (inv : Invocation V) : SameRow inv inv := ⟨rfl, rfl, rfl⟩

theorem SameRow.symm {inv inv' : Invocation V} (h : SameRow inv inv') : SameRow inv' inv :=
  ⟨h.metric.symm, h.expire.symm, h.row.symm⟩

/-- A bucket of the one invocation stands in the place of one of the other. -/
theorem SameRow.exists_mem {inv inv' : Invocation V} (h : SameRow inv inv') {b' : Bucket V}
    (hb' : b' ∈ inv'.buckets) : ∃ b ∈ inv.buckets, b.state = b'.state ∧ b.start = b'.start := by
  have hmem : (b'.state, b'.start) ∈ inv.row := h.row ▸ mem_map_of_mem hb'
  obtain ⟨b, hb, heq⟩ := mem_map.1 hmem
  exact ⟨b, hb, Prod.mk.inj heq⟩

/-- Compute `i` has an invocation of the name. -/
def Aggregator.HasName (s : Aggregator V) (i : Nat) (metric : Text) : Prop :=
  ∃ inv, s.HasInvocation i inv ∧ inv.metric = metric

theorem exists_mem_of_forall₂ {α β : Type*} {R : α → β → Prop} {l : List α} {l' : List β} {a : α}
    (h : List.Forall₂ R l l') (ha : a ∈ l) : ∃ b ∈ l', R a b := by
  induction h with
  | nil => cases ha
  | @cons _ b _ l' hab _ ih =>
    rcases mem_cons.1 ha with rfl | ha
    · exact ⟨b, mem_cons_self, hab⟩
    · obtain ⟨b', hb', h⟩ := ih ha
      exact ⟨b', mem_cons_of_mem b hb', h⟩

/-! ## Taking in a metric -/

section
variable {F : FloatOps V} {s : Aggregator V} {i : Nat} {n r : Bool} {now epoch : Int} {val : V}
  {metric : Text} {rewrite : Text → Option Text} {o : PutOracle} {inv inv' : Invocation V}
  {chain chain' : List (Invocation V)} {c c' : Compute V} {es : List (AggrEvent V)}

/-- No aggregate is written. -/
def Unwritten (es : List (AggrEvent V)) : Prop :=
  ∀ i metric start ts val, AggrEvent.emitted i metric start ts val ∉ es

theorem unwritten_nil : Unwritten ([] : List (AggrEvent V)) := fun _ _ _ _ _ => not_mem_nil

/-- An invocation that a value was put into, or that did not take it: the buckets are those from
before, and one of them has the value. -/
structure Took (F : FloatOps V) (n r : Bool) (inv inv' : Invocation V) : Prop
    extends SameRow inv inv' where
  buckets : ∀ b' ∈ inv'.buckets, b' ∈ inv.buckets ∨ ∃ b ∈ inv.buckets, ∃ val,
    b' = putBucket F n r val b

theorem Took.refl (F : FloatOps V) (n r : Bool) (inv : Invocation V) : Took F n r inv inv :=
  ⟨.refl inv, fun _ hb => .inl hb⟩

theorem putInvocation_took (h : putInvocation F s i n r epoch val inv = some (inv', es)) :
    Took F n r inv inv' ∧ Unwritten es := by
  rw [putInvocation] at h
  split at h
  case h_1 => cases h
  case h_2 b₀ _ =>
    have hdropped : Took F n r inv inv ∧ Unwritten [AggrEvent.dropped (V := V) i inv.metric] :=
      ⟨.refl F n r inv, fun _ _ _ _ _ he => by cases mem_singleton.1 he⟩
    dsimp only at h
    split at h
    case isTrue => cases h; exact hdropped
    case isFalse =>
      split at h
      case isTrue => cases h; exact hdropped
      case isFalse =>
        split at h
        case h_1 => cases h
        case h_2 b hb =>
          split at h
          case isTrue => cases h; exact hdropped
          case isFalse =>
            cases h
            refine ⟨⟨⟨rfl, rfl, map_set_of_eq hb rfl⟩, fun b' hb' => ?_⟩,
              fun _ _ _ _ _ he => by cases mem_singleton.1 he⟩
            rcases mem_or_eq_of_mem_set hb' with hmem | rfl
            · exact .inl hmem
            · exact .inr ⟨b, mem_of_getElem? hb, val, rfl⟩

/-- A value put into a chain leaves every invocation in its place. -/
theorem putChain_took (h : putChain F s i n r epoch val metric chain = some (chain', es)) :
    List.Forall₂ (Took F n r) chain chain' ∧ Unwritten es := by
  induction chain generalizing chain' es with
  | nil => cases h; exact ⟨.nil, unwritten_nil⟩
  | cons inv chain ih =>
    rw [putChain] at h
    split at h
    case isTrue =>
      split at h
      case h_1 => cases h
      case h_2 inv' es' hput =>
        cases h
        obtain ⟨htook, hes⟩ := putInvocation_took hput
        exact ⟨.cons htook (forall₂_same.2 fun inv _ => .refl F n r inv), hes⟩
    case isFalse =>
      split at h
      case h_1 => cases h
      case h_2 chain₁ es₁ hput =>
        cases h
        obtain ⟨hrows, hes⟩ := ih hput
        exact ⟨.cons (.refl F n r inv) hrows, hes⟩

/-- The memory for a new invocation can be allocated. -/
def PutOracle.Allocates (o : PutOracle) : Prop :=
  (o.invocationAlloc = true ∧ o.metricAlloc = true) ∧ o.bucketsAlloc = true

/-- The chain a value is put into is the one it was, or has a new invocation in front. -/
theorem findOrAdd_cases (h : findOrAdd F s now metric o chain = some chain') :
    chain' = chain ∨ (o.Allocates ∧ chain.any (Invocation.isFor metric) = false ∧
      chain' = newInvocation F s now metric o.rand :: chain) := by
  rw [findOrAdd] at h
  split at h
  case isTrue => cases h; exact .inl rfl
  case isFalse hany =>
    split at h
    case isTrue => cases h; exact .inl rfl
    case isFalse hnames =>
      split at h
      case isTrue => cases h
      case isFalse =>
        split at h
        case isTrue => cases h; exact .inl rfl
        case isFalse hbuckets =>
          cases h
          exact .inr ⟨⟨not_not.1 hnames, not_not.1 hbuckets⟩, eq_false_of_ne_true hany, rfl⟩

/-- The invocation is in the hash table of the compute. -/
def Compute.Has (c : Compute V) (inv : Invocation V) : Prop :=
  ∃ (k : Nat) (chain : List (Invocation V)), c.invocationsHt[k]? = some chain ∧ inv ∈ chain

/-- What a value does to the invocations of a compute. -/
theorem putCompute_has (h : putCompute F s now epoch val rewrite o i c = some (c', es)) :
    Unwritten es ∧ ∀ inv', c'.Has inv' →
      (∃ inv, c.Has inv ∧ Took F c.entriesNeeded o.realloc inv inv') ∨
      ∃ metric chain, o.Allocates ∧ rewrite c.metric = some metric ∧
        c.invocationsHt[omhtbucket (Fnv1a.hash32 metric)]? = some chain ∧
        chain.any (Invocation.isFor metric) = false ∧
        Took F c.entriesNeeded o.realloc (newInvocation F s now metric o.rand) inv' := by
  rw [putCompute] at h
  split at h
  case h_1 => cases h; exact ⟨unwritten_nil, fun inv hinv => .inl ⟨inv, hinv, .refl _ _ _ inv⟩⟩
  case h_2 metric hname =>
    dsimp only at h
    split at h
    case h_1 => cases h
    case h_2 chain hchain =>
      split at h
      case h_1 => cases h
      case h_2 chain₁ hfind =>
        split at h
        case h_1 => cases h
        case h_2 chain₂ es₂ hput =>
          cases h
          obtain ⟨htooks, hes⟩ := putChain_took hput
          refine ⟨hes, fun inv' hinv' => ?_⟩
          obtain ⟨k, chain', hk, hmem⟩ := hinv'
          rw [getElem?_set] at hk
          split at hk
          case isFalse => exact .inl ⟨inv', ⟨k, chain', hk, hmem⟩, .refl _ _ _ inv'⟩
          case isTrue =>
            split at hk
            case isFalse => cases hk
            case isTrue =>
              cases hk
              obtain ⟨inv, hinv, htook⟩ := exists_mem_of_forall₂ htooks.flip hmem
              rcases findOrAdd_cases hfind with rfl | ⟨halloc, hany, rfl⟩
              · exact .inl ⟨inv, ⟨_, chain₁, hchain, hinv⟩, htook⟩
              · rcases mem_cons.1 hinv with rfl | hinv
                · exact .inr ⟨metric, chain, halloc, hname, hchain, hany, htook⟩
                · exact .inl ⟨inv, ⟨_, chain, hchain, hinv⟩, htook⟩

end

theorem hasInvocation_iff {s : Aggregator V} {i : Nat} {inv : Invocation V} :
    s.HasInvocation i inv ↔ ∃ c, s.computes[i]? = some c ∧ c.Has inv := by
  constructor
  · rintro ⟨c, k, chain, hc, hk, hmem⟩
    exact ⟨c, hc, k, chain, hk, hmem⟩
  · rintro ⟨c, hc, k, chain, hk, hmem⟩
    exact ⟨c, k, chain, hc, hk, hmem⟩

section
variable {P : AggrParams V} {tr es : List (AggrEvent V)} {s s' : Aggregator V} {i : Nat}

variable {c : Compute V} {chain : List (Invocation V)} {running : Bool} {now : Int}
  {inv' inv : Invocation V} {F : FloatOps V} {qsort : (V → V → Int) → List V → List V}

/-- A name is looked for in its own chain only, and not found there if the compute does not have it.
-/
theorem AggrOK.not_hasName (h : AggrOK P tr s) (hc : s.computes[i]? = some c)
    {metric : Text} (hchain : c.invocationsHt[omhtbucket (Fnv1a.hash32 metric)]? = some chain)
    (hany : chain.any (Invocation.isFor metric) = false) : ¬ s.HasName i metric := by
  rintro ⟨inv, ⟨c', k, chain', hc', hk, hmem⟩, rfl⟩
  cases hc.symm.trans hc'
  have hok := (h.computes i c hc).chains k chain' hk
  cases hok.bucket inv hmem
  cases hchain.symm.trans hk
  have hfor : inv.isFor inv.metric = true := (isFor_iff (hok.invocations inv hmem).hash).2 rfl
  exact Bool.false_ne_true (hany.symm.trans (any_eq_true.2 ⟨inv, hmem, hfor⟩))

/-- The chain of a name that the compute does not have, in which it is not found. -/
theorem AggrOK.exists_chain_of_not_hasName (h : AggrOK P tr s)
    (hc : s.computes[i]? = some c) {metric : Text} (hnew : ¬ s.HasName i metric) :
    ∃ chain, c.invocationsHt[omhtbucket (Fnv1a.hash32 metric)]? = some chain ∧
      chain.any (Invocation.isFor metric) = false := by
  have hok := h.computes i c hc
  obtain ⟨chain, hchain⟩ := hok.exists_chain (Fnv1a.hash32 metric)
  refine ⟨chain, hchain, any_eq_false.2 fun inv hinv hfor => ?_⟩
  rw [isFor_iff ((hok.chains _ chain hchain).invocations inv hinv).hash] at hfor
  exact hnew ⟨inv, ⟨c, _, chain, hc, hchain, hinv⟩, hfor⟩

/-- A metric can make a new invocation: the aggregator runs, there is a space between the value and
the time, and memory can be allocated. -/
def PutOracle.Creates (o : PutOracle) (running : Bool) (data : Text) : Prop :=
  running = true ∧ ' ' ∈ data ∧ o.Allocates

theorem mem_of_parseData {atof : Text → V} {data : Text} {r : V × Int}
    (h : parseData atof data = some r) : ' ' ∈ data := by
  by_contra hnot
  have hnil : data.dropWhile (· ≠ ' ') = [] :=
    dropWhile_eq_nil_iff.2 fun c hc => decide_eq_true fun heq => hnot (heq ▸ hc)
  rw [parseData, hnil] at h
  cases h

/-- Taking in a metric: nothing is written, and an invocation is one from before or a new one of a
name that had none. -/
theorem AggrOK.putmetric_hasInvocation (h : AggrOK P tr s) {atof : Text → V}
    {data : Text} {rewrite : Text → Option Text} {oracle : Nat → PutOracle}
    (hput : aggregatorPutmetric P.F atof running now data rewrite oracle s = some (s', es)) :
    Unwritten es ∧ ∀ i inv', s'.HasInvocation i inv' →
      (∃ c inv, s.computes[i]? = some c ∧ s.HasInvocation i inv ∧
        Took P.F c.entriesNeeded (oracle i).realloc inv inv') ∨
      ∃ c metric, (oracle i).Creates running data ∧ s.computes[i]? = some c ∧ rewrite c.metric =
        some metric ∧ ¬ s.HasName i metric ∧ Took P.F c.entriesNeeded (oracle i).realloc
          (newInvocation P.F s now metric (oracle i).rand) inv' := by
  have hsame : ∀ i inv, s.HasInvocation i inv → ∃ c inv₀, s.computes[i]? = some c ∧
      s.HasInvocation i inv₀ ∧ Took P.F c.entriesNeeded (oracle i).realloc inv₀ inv := by
    intro i inv hinv
    obtain ⟨c, hc, -⟩ := hasInvocation_iff.1 hinv
    exact ⟨c, inv, hc, hinv, .refl _ _ _ inv⟩
  rw [aggregatorPutmetric] at hput
  split at hput
  case isTrue =>
    cases hput
    exact ⟨unwritten_nil, fun i inv hinv => .inl (hsame i inv hinv)⟩
  case isFalse hrunning =>
    split at hput
    case h_1 =>
      cases hput
      exact ⟨unwritten_nil, fun i inv hinv => .inl (hsame i inv hinv)⟩
    case h_2 val epoch hdata =>
      split at hput
      case h_1 => cases hput
      case h_2 computes es₁ hmap =>
        cases hput
        refine ⟨fun i metric start ts val he => ?_, fun i inv' hinv' => ?_⟩
        · obtain ⟨j, c, c', es', -, hstep, he⟩ := mem_mapEmit hmap he
          exact (putCompute_has hstep).1 i metric start ts val he
        · obtain ⟨c', hc', hhas⟩ := hasInvocation_iff.1 hinv'
          obtain ⟨c, es', hc, hstep⟩ := mapEmit_getElem?_inv hmap hc'
          rw [Nat.zero_add] at hstep
          rcases (putCompute_has hstep).2 inv' hhas with ⟨inv, hinv, htook⟩ |
            ⟨metric, chain, halloc, hname, hchain, hany, htook⟩
          · exact .inl ⟨c, inv, hc, hasInvocation_iff.2 ⟨c, hc, hinv⟩, htook⟩
          · exact .inr ⟨c, metric, ⟨not_not.1 hrunning, mem_of_parseData hdata, halloc⟩, hc, hname,
              h.not_hasName hc hchain hany, htook⟩

/-! ## Cleaning up -/

/-- An invocation after the clean-up is one from before with its buckets rotated. -/
theorem aggregatorCleanup_hasInvocation (hinv' : (aggregatorCleanup s).HasInvocation i inv') :
    ∃ inv, s.HasInvocation i inv ∧ cleanInvocation s.interval inv = some inv' := by
  obtain ⟨c', k, chain', hc', hk, hmem⟩ := hinv'
  rw [aggregatorCleanup, getElem?_map, Option.map_eq_some_iff] at hc'
  obtain ⟨c, hc, rfl⟩ := hc'
  rw [getElem?_map, Option.map_eq_some_iff] at hk
  obtain ⟨chain, hk, rfl⟩ := hk
  obtain ⟨inv, hinv, hclean⟩ := mem_filterMap.1 hmem
  exact ⟨inv, ⟨c, k, chain, hc, hk, hinv⟩, hclean⟩

theorem cleanInvocation_eq_some {interval : Nat}
    (h : cleanInvocation interval inv = some inv') : inv' =
      { inv with buckets := rotateBuckets interval inv.buckets.length inv.buckets } := by
  rw [cleanInvocation] at h
  split at h
  · cases h
  · cases h; rfl

/-! ## Writing aggregates -/

/-- The time after which the buckets of an invocation are past, from their starts on. -/
def Invocation.limit (inv : Invocation V) (s : Aggregator V) (running : Bool) : Int :=
  if running then inv.expire else s.expire

/-- The scan of an invocation changes its buckets only, and writes for it only. -/
theorem scanInvocation_eq_some (h : scanInvocation F qsort s running now i c inv =
      some (inv', es)) :
    ∃ front back, inv.buckets = front ++ back ∧
      ((∀ b ∈ front, b.start + inv.limit s running < now) ∧
        ∃ b ∈ back.head?, now ≤ b.start + inv.limit s running) ∧
      inv' = { inv with buckets := front.map (markExpired F qsort c) ++ back } ∧
      es = front.filterMap (emission F qsort s i c inv.metric) := by
  rw [scanInvocation] at h
  split at h
  case h_1 => cases h
  case h_2 buckets es₁ hscan =>
    cases h
    obtain ⟨front, back, hsplit, hpast, rfl, rfl⟩ := scanBuckets_eq_some hscan
    exact ⟨front, back, hsplit, hpast, rfl, rfl⟩

/-- The scan of an invocation is defined if it has a bucket that is not past. -/
theorem exists_scanInvocation (h : ∃ b ∈ inv.buckets, now ≤ b.start + inv.limit s running) :
    ∃ r, scanInvocation F qsort s running now i c inv = some r := by
  obtain ⟨⟨buckets, es⟩, hscan⟩ := exists_scanBuckets F qsort s i c inv.metric h
  rw [Invocation.limit] at hscan
  rw [scanInvocation, hscan]
  exact ⟨_, rfl⟩

theorem key_scanInvocation (h : scanInvocation F qsort s running now i c inv = some (inv', es)) :
    ∀ e ∈ es, e.key = (i, inv.metric) := by
  intro e he
  obtain ⟨front, back, -, -, -, rfl⟩ := scanInvocation_eq_some h
  obtain ⟨b, -, hb⟩ := mem_filterMap.1 he
  rw [emission] at hb
  split at hb
  · cases hb; rfl
  · cases hb

/-- The names of a chain are different, and all of them belong to it. -/
structure ChainPlaced (k : Nat) (chain : List (Invocation V)) : Prop where
  bucket : ∀ inv ∈ chain, omhtbucket (Fnv1a.hash32 inv.metric) = k
  nodup : (chain.map Invocation.metric).Nodup

theorem ChainPlaced.congr {k : Nat} {chain' : List (Invocation V)} (h : ChainPlaced k chain)
    (heq : chain'.map Invocation.metric = chain.map Invocation.metric) : ChainPlaced k chain' := by
  refine ⟨fun inv hinv => ?_, heq ▸ h.nodup⟩
  have hmem : inv.metric ∈ chain.map Invocation.metric := heq ▸ mem_map_of_mem hinv
  obtain ⟨inv₀, hinv₀, hname⟩ := mem_map.1 hmem
  exact hname ▸ h.bucket inv₀ hinv₀

theorem ChainPlaced.index_inj {k : Nat} (h : ChainPlaced k chain)
    {m n : Nat} {a b : Invocation V} (ha : chain[m]? = some a) (hb : chain[n]? = some b)
    (hname : a.metric = b.metric) : m = n := by
  have hget : (chain.map Invocation.metric)[m]? = (chain.map Invocation.metric)[n]? := by
    rw [getElem?_map, getElem?_map, ha, hb, Option.map_some, Option.map_some, hname]
  refine (getElem?_inj ?_ h.nodup).1 hget
  rw [length_map]
  exact (List.getElem?_eq_some_iff.1 ha).1

/-- All chains of the hash table are in order. -/
def Compute.Placed (c : Compute V) : Prop :=
  ∀ k chain, c.invocationsHt[k]? = some chain → ChainPlaced k chain

section
variable {T : List (AggrEvent V) → Prop} {J : Nat → List (AggrEvent V) → Invocation V → Prop}
  {F : FloatOps V} {qsort : (V → V → Int) → List V → List V} {running : Bool} {now : Int}
  {c c' : Compute V}

section
variable (hstep : ∀ tr inv inv' es, T tr → J i tr inv → scanInvocation F qsort s running now i c
    inv = some (inv', es) → T (tr ++ es) ∧ J i (tr ++ es) inv')
include hstep

section
variable (hframe : ∀ tr es inv, J i tr inv → (∀ e ∈ es, e.key ≠ (i, inv.metric)) →
    J i (tr ++ es) inv)
include hframe

/-- A scan of a chain keeps what the scan of each of its invocations keeps. -/
theorem scanChain_framed {k : Nat} {chain chain' : List (Invocation V)}
    (hplaced : ChainPlaced k chain) (hT : T tr) (hJ : ∀ inv ∈ chain, J i tr inv)
    (hmap : mapEmit (fun _ inv => scanInvocation F qsort s running now i c inv) 0 chain =
      some (chain', es)) :
    T (tr ++ es) ∧ (∀ inv ∈ chain', J i (tr ++ es) inv) ∧ ChainPlaced k chain' ∧
      ∀ e ∈ es, e.InChain i k := by
  obtain ⟨hT', hgood, habout⟩ := mapEmit_framed T (fun _ tr inv => J i tr inv)
    (fun _ inv e => e.key = (i, inv.metric))
    (fun _ tr inv inv' es hT hJ h =>
      have hkept := hstep tr inv inv' es hT hJ h
      ⟨hkept.1, hkept.2, key_scanInvocation h, fun e he => by rw [he, metric_scanInvocation h]⟩)
    (fun _ tr es inv hJ hes => hframe tr es inv hJ hes) hT
    (fun j inv hj => hJ inv (mem_of_getElem? hj))
    (fun j k a b hjk ha hb e hea heb =>
      hjk (hplaced.index_inj ha hb (Prod.mk.inj (hea.symm.trans heb)).2)) hmap
  refine ⟨hT', fun inv hinv => ?_,
    hplaced.congr (map_mapEmit (fun _ _ _ _ h => metric_scanInvocation h) hmap), fun e he => ?_⟩
  · obtain ⟨j, hj⟩ := mem_iff_getElem?.1 hinv
    exact hgood j inv hj
  · obtain ⟨j, inv, hj, hkey⟩ := habout e he
    exact ⟨by rw [hkey], by rw [hkey]; exact hplaced.bucket inv (mem_of_getElem? hj)⟩

/-- A scan of a compute keeps what the scan of each of its invocations keeps. -/
theorem scanCompute_framed (hplaced : c.Placed) (hT : T tr) (hJ : ∀ inv, c.Has inv → J i tr inv)
    (hscan : scanCompute F qsort s running now i c = some (c', es)) :
    T (tr ++ es) ∧ (∀ inv, c'.Has inv → J i (tr ++ es) inv) ∧ c'.Placed ∧ ∀ e ∈ es,
      e.key.1 = i := by
  rw [scanCompute] at hscan
  split at hscan
  case h_1 => cases hscan
  case h_2 ht es₁ hmap =>
    cases hscan
    obtain ⟨hT', hgood, habout⟩ := mapEmit_framed T
      (fun k tr chain => (∀ inv ∈ chain, J i tr inv) ∧ ChainPlaced k chain)
      (fun k _ e => e.InChain i k)
      (fun k tr chain chain' es hT hgood hmap => by
        obtain ⟨hT', hJ', hplaced', hin⟩ := scanChain_framed hstep hframe hgood.2 hT hgood.1 hmap
        exact ⟨hT', ⟨hJ', hplaced'⟩, hin, fun _ he => he⟩)
      (fun k tr es chain hgood hes =>
        ⟨fun inv hinv => hframe tr es inv (hgood.1 inv hinv) fun e he hkey =>
          hes e he ⟨by rw [hkey], by rw [hkey]; exact hgood.2.bucket inv hinv⟩, hgood.2⟩) hT
      (fun k chain hk => by
        rw [Nat.zero_add]
        exact ⟨fun inv hinv => hJ inv ⟨k, chain, hk, hinv⟩, hplaced k chain hk⟩)
      (fun j k _ _ hjk _ _ e hj hk => hjk (by simpa using hj.2.symm.trans hk.2)) hmap
    refine ⟨hT', fun inv hinv => ?_, fun k chain hk => ?_, fun e he => ?_⟩
    · obtain ⟨k, chain, hk, hmem⟩ := hinv
      exact (hgood k chain hk).1 inv hmem
    · have := (hgood k chain hk).2
      rwa [Nat.zero_add] at this
    · obtain ⟨_, _, _, hin⟩ := habout e he
      exact hin.1

end

end

/-- The time a pass compares with: when the relay shuts down, buckets that have completed are past.
-/
def expireTime (s : Aggregator V) (running : Bool) (now : Int) : Int :=
  now + if running then 0 else (s.expire : Int) - s.interval

variable {sent : Nat → Bool}

section
variable (hexp : aggregatorExpire F qsort running now sent s = some (s', es))
include hexp

/-- An invocation after the pass that writes aggregates is one from before that was scanned. -/
theorem aggregatorExpire_hasInvocation
    {inv' : Invocation V} (hinv' : s'.HasInvocation i inv') : ∃ c inv es', s.HasInvocation i inv ∧
      scanInvocation F qsort s running (expireTime s running now) i c inv = some (inv', es') := by
  rw [aggregatorExpire] at hexp
  dsimp only at hexp
  split at hexp
  case h_1 => cases hexp
  case h_2 computes es₁ hmap =>
    cases hexp
    obtain ⟨c', k, chain', hc', hk', hmem'⟩ := hinv'
    obtain ⟨c, es₂, hc, hscan⟩ := mapEmit_getElem?_inv hmap hc'
    rw [Nat.zero_add, scanCompute] at hscan
    split at hscan
    case h_1 => cases hscan
    case h_2 ht es₃ hchains =>
      cases hscan
      obtain ⟨chain, es₄, hk, hchain⟩ := mapEmit_getElem?_inv hchains hk'
      obtain ⟨j, hj'⟩ := mem_iff_getElem?.1 hmem'
      obtain ⟨inv, es₅, hj, hinv⟩ := mapEmit_getElem?_inv hchain hj'
      exact ⟨c, inv, es₅, ⟨c, k, chain, hc, hk, mem_of_getElem? hj⟩, hinv⟩

/-- An invocation before the pass is scanned. -/
theorem aggregatorExpire_hasInvocation_of
    {inv : Invocation V} (hinv : s.HasInvocation i inv) : ∃ c inv' es', s'.HasInvocation i inv' ∧
      scanInvocation F qsort s running (expireTime s running now) i c inv = some (inv', es') := by
  rw [aggregatorExpire] at hexp
  dsimp only at hexp
  split at hexp
  case h_1 => cases hexp
  case h_2 computes es₁ hmap =>
    cases hexp
    obtain ⟨c, k, chain, hc, hk, hmem⟩ := hinv
    obtain ⟨c', es₂, hc', hscan⟩ := (mapEmit_getElem? hmap).2 i c hc
    rw [Nat.zero_add, scanCompute] at hscan
    split at hscan
    case h_1 => cases hscan
    case h_2 ht es₃ hchains =>
      cases hscan
      obtain ⟨chain', es₄, hk', hchain⟩ := (mapEmit_getElem? hchains).2 k chain hk
      obtain ⟨j, hj⟩ := mem_iff_getElem?.1 hmem
      obtain ⟨inv', es₅, hj', hinv'⟩ := (mapEmit_getElem? hchain).2 j inv hj
      exact ⟨c, inv', es₅, ⟨_, k, chain', hc', hk', mem_of_getElem? hj'⟩, hinv'⟩

end

/-- The pass is defined exactly if the scan of every invocation is. -/
theorem exists_aggregatorExpire_iff :
    (∃ r, aggregatorExpire F qsort running now sent s = some r) ↔ ∀ i inv, s.HasInvocation i inv →
      ∃ b ∈ inv.buckets, expireTime s running now ≤ b.start + inv.limit s running := by
  constructor
  · rintro ⟨⟨s', es⟩, hexp⟩ i inv hinv
    obtain ⟨c, inv', es', -, hscan⟩ := aggregatorExpire_hasInvocation_of hexp hinv
    obtain ⟨front, back, hsplit, ⟨-, b, hb, hle⟩, -, -⟩ := scanInvocation_eq_some hscan
    exact ⟨b, hsplit ▸ mem_append_right front (mem_of_mem_head? hb), hle⟩
  · intro h
    have hscan : ∀ i c, s.computes[i]? = some c →
        ∃ r, scanCompute F qsort s running (expireTime s running now) i c = some r := by
      intro i c hc
      obtain ⟨⟨ht, es⟩, hmap⟩ := exists_mapEmit (l := c.invocationsHt) (n := 0)
        (f := fun _ chain => mapEmit (fun _ inv => scanInvocation F qsort s running
          (expireTime s running now) i c inv) 0 chain) fun k chain hk =>
        exists_mapEmit fun j inv hj => exists_scanInvocation
          (h i inv ⟨c, k, chain, hc, hk, mem_of_getElem? hj⟩)
      exact ⟨_, scanCompute_eq hmap⟩
    obtain ⟨⟨computes, es⟩, hmap⟩ := exists_mapEmit (l := s.computes) (n := 0)
      (f := scanCompute F qsort s running (expireTime s running now)) fun i c hc => by
        rw [Nat.zero_add]
        exact hscan i c hc
    rw [expireTime] at hmap
    rw [aggregatorExpire]
    dsimp only
    rw [hmap]
    exact ⟨_, rfl⟩

/-- The pass that writes aggregates keeps what the scan of each invocation keeps. -/
theorem aggregatorExpire_framed
    (hstep : ∀ i c tr inv inv' es, T tr → J i tr inv →
      scanInvocation F qsort s running (expireTime s running now) i c inv = some (inv', es) →
      T (tr ++ es) ∧ J i (tr ++ es) inv')
    (hframe : ∀ i tr es inv, J i tr inv → (∀ e ∈ es, e.key ≠ (i, inv.metric)) → J i (tr ++ es) inv)
    (hplaced : ∀ (i : Nat) (c : Compute V), s.computes[i]? = some c → c.Placed) (hT : T tr)
    (hJ : ∀ i inv, s.HasInvocation i inv → J i tr inv)
    (hexp : aggregatorExpire F qsort running now sent s = some (s', es)) :
    T (tr ++ es) ∧ ∀ i inv, s'.HasInvocation i inv → J i (tr ++ es) inv := by
  rw [aggregatorExpire] at hexp
  dsimp only at hexp
  split at hexp
  case h_1 => cases hexp
  case h_2 computes es₁ hmap =>
    cases hexp
    obtain ⟨hT', hgood, -⟩ := mapEmit_framed T
      (fun i tr c => (∀ inv, c.Has inv → J i tr inv) ∧ c.Placed) (fun i _ e => e.key.1 = i)
      (fun i tr c c' es hT hgood h => by
        obtain ⟨hT', hJ', hplaced', hkey⟩ :=
          scanCompute_framed (hstep i c) (hframe i) hgood.2 hT hgood.1 h
        exact ⟨hT', ⟨hJ', hplaced'⟩, hkey, fun _ he => he⟩)
      (fun i tr es c hgood hes =>
        ⟨fun inv hinv => hframe i tr es inv (hgood.1 inv hinv) fun e he hkey =>
          hes e he (by rw [hkey]), hgood.2⟩) hT
      (fun i c hc => by
        rw [Nat.zero_add]
        exact ⟨fun inv hinv => hJ i inv (hasInvocation_iff.2 ⟨c, hc, hinv⟩), hplaced i c hc⟩)
      (fun j k _ _ hjk _ _ e hj hk => hjk (by simpa using hj.symm.trans hk)) hmap
    refine ⟨hT', fun i inv hinv => ?_⟩
    obtain ⟨c, hc, hhas⟩ := hasInvocation_iff.1 hinv
    have := (hgood i c hc).1 inv hhas
    rwa [Nat.zero_add] at this

end

theorem AggrOK.placed (h : AggrOK P tr s) (hc : s.computes[i]? = some c) : c.Placed :=
  fun k chain hk =>
    have hchain := (h.computes i c hc).chains k chain hk
    ⟨hchain.bucket, hchain.nodup⟩

end

end CarbonRelay
