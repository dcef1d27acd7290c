import Mathlib.Data.List.Basic

/-!
# Traversals that write to a shared trace

`mapEmit f n l` replaces the elements of a list one after another, each by a partial function of its
index that also writes to a trace. The rule of this file (`mapEmit_framed`) is about elements that
own disjoint parts of the trace: when rewriting one element keeps its invariant, and the invariant
of an element is not touched by what is not about it, the traversal keeps the invariants of all.
-/

open List

universe u v

variable {α : Type u} {ε : Type v}

/-- Replace the elements of a list, the first of which has index `n`, and collect what is written.
-/
def mapEmit (f : Nat → α → Option (α × List ε)) : Nat → List α → Option (List α × List ε)
  | _, [] => some ([], [])
  | n, a :: l =>
    match f n a with
    | none => none
    | some (a', es) =>
      match mapEmit f (n + 1) l with
      | none => none
      | some (l', es') => some (a' :: l', es ++ es')

variable {f : Nat → α → Option (α × List ε)}

theorem mapEmit_cons_eq_some {n : Nat} {a : α} {l r : List α}
    {es : List ε} : mapEmit f n (a :: l) = some (r, es) ↔
      ∃ a' es₁ l' es₂, f n a = some (a', es₁) ∧ mapEmit f (n + 1) l = some (l', es₂) ∧
        r = a' :: l' ∧ es = es₁ ++ es₂ := by
  rw [mapEmit]
  cases hf : f n a with
  | none => simp
  | some p =>
    obtain ⟨a', es₁⟩ := p
    cases hl : mapEmit f (n + 1) l with
    | none => simp
    | some q =>
      obtain ⟨l', es₂⟩ := q
      simp only [Option.some.injEq, Prod.mk.injEq, exists_and_left]
      constructor
      · rintro ⟨rfl, rfl⟩
        exact ⟨a', es₁, ⟨rfl, rfl⟩, l', es₂, ⟨rfl, rfl⟩, rfl, rfl⟩
      · rintro ⟨_, _, ⟨rfl, rfl⟩, _, _, ⟨rfl, rfl⟩, rfl, rfl⟩
        exact ⟨rfl, rfl⟩

/-- Every element is replaced by what the function gives for it. -/
theorem mapEmit_getElem? : ∀ {l l' : List α} {n : Nat}
    {es : List ε}, mapEmit f n l = some (l', es) →
    l'.length = l.length ∧ ∀ j a, l[j]? = some a → ∃ a' es', l'[j]? = some a' ∧
      f (n + j) a = some (a', es')
  | [], _, _, _, h => by cases h; exact ⟨rfl, fun j a ha => by cases ha⟩
  | a :: l, r, n, es, h => by
    obtain ⟨a', es₁, l', es₂, hf, hl, rfl, rfl⟩ := mapEmit_cons_eq_some.1 h
    obtain ⟨hlen, hget⟩ := mapEmit_getElem? hl
    refine ⟨by rw [length_cons, length_cons, hlen], fun j b hb => ?_⟩
    cases j with
    | zero => cases hb; exact ⟨a', es₁, rfl, hf⟩
    | succ j =>
      obtain ⟨b', es', hb', hf'⟩ := hget j b hb
      exact ⟨b', es', hb', by rw [← hf']; congr 1; omega⟩

/-- Every element of the result replaces one of the list. -/
theorem mapEmit_getElem?_inv {l l' : List α} {n j : Nat}
    {es : List ε} {a' : α} (h : mapEmit f n l = some (l', es)) (ha' : l'[j]? = some a') :
    ∃ a es', l[j]? = some a ∧ f (n + j) a = some (a', es') := by
  obtain ⟨hlen, hget⟩ := mapEmit_getElem? h
  have hj : j < l.length := hlen ▸ (List.getElem?_eq_some_iff.1 ha').1
  obtain ⟨a'', es', ha'', hf⟩ := hget j l[j] (getElem?_eq_getElem hj)
  cases ha'.symm.trans ha''
  exact ⟨l[j], es', getElem?_eq_getElem hj, hf⟩

/-- What is written is written for an element. -/
theorem mem_mapEmit : ∀ {l l' : List α} {n : Nat} {es : List ε}
    {e : ε}, mapEmit f n l = some (l', es) → e ∈ es →
    ∃ j a a' es', l[j]? = some a ∧ f (n + j) a = some (a', es') ∧ e ∈ es'
  | [], _, _, _, _, h, he => by cases h; cases he
  | a :: l, r, n, es, e, h, he => by
    obtain ⟨a', es₁, l', es₂, hf, hl, rfl, rfl⟩ := mapEmit_cons_eq_some.1 h
    rcases List.mem_append.1 he with he | he
    · exact ⟨0, a, a', es₁, rfl, hf, he⟩
    · obtain ⟨j, b, b', es', hb, hfb, he⟩ := mem_mapEmit hl he
      exact ⟨j + 1, b, b', es', hb, by rw [← hfb]; congr 1; omega, he⟩

/-- What is written for an element is written by the traversal. -/
theorem mem_of_mapEmit : ∀ {l l' : List α} {n j : Nat}
    {es es' : List ε} {a a' : α} {e : ε}, mapEmit f n l = some (l', es) → l[j]? = some a →
    f (n + j) a = some (a', es') → e ∈ es' → e ∈ es
  | [], _, _, _, _, _, _, _, _, _, ha, _, _ => by cases ha
  | a :: l, r, n, j, es, es', b, b', e, h, hb, hf, he => by
    obtain ⟨a', es₁, l', es₂, hfa, hl, rfl, rfl⟩ := mapEmit_cons_eq_some.1 h
    cases j with
    | zero =>
      cases hb
      cases hfa.symm.trans hf
      exact mem_append_left _ he
    | succ j =>
      have hf' : f (n + 1 + j) b = some (b', es') := by rw [← hf]; congr 1; omega
      exact mem_append_right _ (mem_of_mapEmit hl hb hf' he)

/-- A traversal that rewrites nothing. -/
theorem mapEmit_eq_self : ∀ {l : List α} {n : Nat},
    (∀ m, ∀ a ∈ l, f m a = some (a, [])) → mapEmit f n l = some (l, [])
  | [], _, _ => rfl
  | a :: l, n, h => mapEmit_cons_eq_some.2 ⟨a, [], l, [], h n a mem_cons_self,
      mapEmit_eq_self fun m b hb => h m b (mem_cons_of_mem a hb), rfl, rfl⟩

/-- A traversal that rewrites one element, all others being the same and not rewritten. -/
theorem mapEmit_set_replicate {a b b' : α} {es : List ε}
    (ha : ∀ m, f m a = some (a, [])) : ∀ {m n k : Nat}, k < m → f (n + k) b = some (b', es) →
    mapEmit f n ((replicate m a).set k b) = some ((replicate m a).set k b', es)
  | m + 1, n, 0, _, hb => by
    rw [replicate_succ, set_cons_zero, set_cons_zero, mapEmit_cons_eq_some]
    exact ⟨b', es, _, [], hb, mapEmit_eq_self fun j c hc => (List.mem_replicate.1 hc).2 ▸ ha j, rfl,
      (append_nil es).symm⟩
  | m + 1, n, k + 1, hk, hb => by
    rw [replicate_succ, set_cons_succ, set_cons_succ, mapEmit_cons_eq_some]
    have hb' : f (n + 1 + k) b = some (b', es) := by rw [← hb]; congr 1; omega
    exact ⟨a, [], _, es, ha n, mapEmit_set_replicate ha (Nat.lt_of_succ_lt_succ hk) hb', rfl, rfl⟩

/-- A traversal is defined if every rewriting is. -/
theorem exists_mapEmit : ∀ {l : List α} {n : Nat},
    (∀ j a, l[j]? = some a → ∃ r, f (n + j) a = some r) → ∃ r, mapEmit f n l = some r
  | [], _, _ => ⟨_, rfl⟩
  | a :: l, n, h => by
    obtain ⟨⟨a', es₁⟩, ha⟩ := h 0 a rfl
    obtain ⟨⟨l', es₂⟩, hl⟩ := exists_mapEmit (l := l) (n := n + 1) fun j b hb => by
      rw [Nat.add_right_comm, Nat.add_assoc]
      exact h (j + 1) b hb
    exact ⟨_, mapEmit_cons_eq_some.2 ⟨a', es₁, l', es₂, ha, hl, rfl, rfl⟩⟩

/-- What every rewriting keeps of its element, the traversal keeps of the list. -/
theorem map_mapEmit {β : Type*} {g : α → β}
    (hf : ∀ n a a' es, f n a = some (a', es) → g a' = g a) : ∀ {l l' : List α} {n : Nat}
    {es : List ε}, mapEmit f n l = some (l', es) → l'.map g = l.map g
  | [], _, _, _, h => by cases h; rfl
  | a :: l, r, n, es, h => by
    obtain ⟨a', es₁, l', es₂, ha, hl, rfl, rfl⟩ := mapEmit_cons_eq_some.1 h
    rw [map_cons, map_cons, hf n a a' es₁ ha, map_mapEmit hf hl]

/-- What is kept of the elements that are not dropped is in the order it was in before. -/
theorem map_filterMap_sublist {β : Type*} {g : α → β} {f : α → Option α}
    (hf : ∀ a a', f a = some a' → g a' = g a) (l : List α) :
    ((l.filterMap f).map g).Sublist (l.map g) := by
  induction l with
  | nil => exact List.Sublist.refl _
  | cons a l ih =>
    rw [filterMap_cons]
    cases ha : f a with
    | none => exact ih.cons _
    | some a' =>
      rw [map_cons, map_cons, hf a a' ha]
      exact ih.cons_cons _

/-- A traversal keeps an invariant `T` of the trace and an invariant `Good` of the elements, when
each rewriting keeps both and writes only what is about its element, and the elements are about
different things. -/
theorem mapEmit_framed (T : List ε → Prop)
    (Good : Nat → List ε → α → Prop) (About : Nat → α → ε → Prop)
    (hstep : ∀ n tr a a' es, T tr → Good n tr a → f n a = some (a', es) →
      T (tr ++ es) ∧ Good n (tr ++ es) a' ∧ (∀ e ∈ es, About n a e) ∧
        ∀ e, About n a' e → About n a e)
    (hframe : ∀ n tr es a, Good n tr a → (∀ e ∈ es, ¬ About n a e) → Good n (tr ++ es) a) :
    ∀ {l l' : List α} {n : Nat} {tr es : List ε}, T tr →
      (∀ j a, l[j]? = some a → Good (n + j) tr a) →
      (∀ j k a b, j ≠ k → l[j]? = some a → l[k]? = some b →
        ∀ e, About (n + j) a e → ¬ About (n + k) b e) →
      mapEmit f n l = some (l', es) →
      T (tr ++ es) ∧ (∀ j a, l'[j]? = some a → Good (n + j) (tr ++ es) a) ∧
        ∀ e ∈ es, ∃ j a, l[j]? = some a ∧ About (n + j) a e
  | [], l', n, tr, es, hT, hgood, _, h => by
    cases h
    rw [append_nil]
    exact ⟨hT, hgood, nofun⟩
  | a :: l, r, n, tr, es, hT, hgood, hsep, h => by
    obtain ⟨a', es₁, l', es₂, hf, hl, rfl, rfl⟩ := mapEmit_cons_eq_some.1 h
    have hindex : ∀ j, n + 1 + j = n + (j + 1) := fun j => by omega
    obtain ⟨hT₁, hgood₁, habout₁, hsub⟩ := hstep n tr a a' es₁ hT (hgood 0 a rfl) hf
    have hgood' : ∀ j b, l[j]? = some b → Good (n + 1 + j) (tr ++ es₁) b := fun j b hb => by
      rw [hindex]
      exact hframe _ _ _ b (hgood (j + 1) b hb) fun e he hb' =>
        hsep 0 (j + 1) a b (by omega) rfl hb e (habout₁ e he) hb'
    have hsep' : ∀ j k b c, j ≠ k → l[j]? = some b → l[k]? = some c →
        ∀ e, About (n + 1 + j) b e → ¬ About (n + 1 + k) c e := fun j k b c hjk hb hc => by
      rw [hindex, hindex]
      exact hsep (j + 1) (k + 1) b c (by omega) hb hc
    obtain ⟨hT₂, hgood₂, habout₂⟩ := mapEmit_framed T Good About hstep hframe hT₁ hgood' hsep' hl
    rw [← append_assoc]
    refine ⟨hT₂, fun j b hb => ?_, fun e he => ?_⟩
    · cases j with
      | zero =>
        cases hb
        refine hframe _ _ _ _ hgood₁ fun e he ha' => ?_
        obtain ⟨j, b, hb, hbe⟩ := habout₂ e he
        rw [hindex] at hbe
        exact hsep 0 (j + 1) a b (by omega) rfl hb e (hsub e ha') hbe
      | succ j =>
        rw [← hindex]
        exact hgood₂ j b hb
    · rcases List.mem_append.1 he with he | he
      · exact ⟨0, a, rfl, habout₁ e he⟩
      · obtain ⟨j, b, hb, hbe⟩ := habout₂ e he
        exact ⟨j + 1, b, hb, by rw [← hindex]; exact hbe⟩
