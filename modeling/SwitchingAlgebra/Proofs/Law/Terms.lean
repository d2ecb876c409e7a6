/-
# Soundness of the laws of chains

Each law of chains answers with new terms in which some term holds exactly if some old one does.
Terms are chains of the dual kind, which hold if all of their factors do, so the laws are read here
as laws of sums of products, for both kinds of chain at once.

* `TermsRefine` relates new terms to old ones;
* every law of `Law.Terms` answers with terms that refine the given ones.
-/
import Mathlib.Data.Finset.Card
import SwitchingAlgebra.Law.Terms
import SwitchingAlgebra.Proofs.Law.Clash
import SwitchingAlgebra.Proofs.Polarity

namespace SwitchingAlgebra.Law

/-! ## Refinement of terms -/

/-- Some new term holds exactly if some old one does, and the new terms are over no other names. -/
structure TermsRefine (k : Chain) (new old : List Expr) : Prop where
  holds : ∀ ρ, (∃ t ∈ new, k.Holds ρ t) ↔ ∃ t ∈ old, k.Holds ρ t
  finished : ∀ p, (∀ t ∈ old, t.Over p) → ∀ t ∈ new, t.Over p

variable {k : Chain} {terms : List Expr}

/-- The chain of refining terms refines the chain of the terms. -/
theorem TermsRefine.join {new : List Expr} {e : Expr} (h : TermsRefine k new (k.factors e)) :
    (k.join new).Refines e := by
  refine ⟨fun ρ => ?_, fun p hp => ?_⟩
  · rw [Chain.eval_eq_iff_holds k, Chain.holds_join, h.holds ρ, ← Chain.holds_iff_terms]
  · exact Chain.over_join (h.finished p fun t ht => Chain.over_of_mem_factors hp ht)

/-- Leaving out terms that hold only together with another one. -/
theorem termsRefine_of_subset {new : List Expr} (hsub : new ⊆ terms)
    (hkept : ∀ ρ, ∀ t ∈ terms, k.Holds ρ t → ∃ u ∈ new, k.Holds ρ u) :
    TermsRefine k new terms := by
  refine ⟨fun ρ => ⟨?_, ?_⟩, fun p hp t ht => hp t (hsub ht)⟩
  · rintro ⟨t, ht, hold⟩
    exact ⟨t, hsub ht, hold⟩
  · rintro ⟨t, ht, hold⟩
    exact hkept ρ t ht hold

/-! ## Places in lists -/

/-- A pair that is found stands in the list in this order. -/
theorem exists_of_firstPair? {α β : Type} {f : α → α → Option β} {xs : List α} {y : β}
    (h : firstPair? f xs = some y) :
    ∃ a b, [a, b].Sublist xs ∧ f a b = some y := by
  induction xs with
  | nil => simp [firstPair?] at h
  | cons x xs ih =>
    unfold firstPair? at h
    split at h
    · rename_i z hz
      obtain ⟨b, hb, hfb⟩ := List.exists_of_findSome?_eq_some hz
      refine ⟨x, b, ?_, hfb.trans h⟩
      exact (List.singleton_sublist.mpr hb).cons_cons x
    · obtain ⟨a, b, hab, hf⟩ := ih h
      exact ⟨a, b, hab.cons x, hf⟩

/-- Places increase along a list. -/
theorem pairwise_zipIdx {α : Type} (xs : List α) : xs.zipIdx.Pairwise (·.2 < ·.2) := by
  have h : (xs.zipIdx.map Prod.snd).Pairwise (· < ·) := by
    rw [List.zipIdx_map_snd]
    exact List.pairwise_lt_range'
  exact List.pairwise_map.mp h

/-- A pair found among the factors of terms comes from two terms, the first before the second. -/
theorem exists_terms_of_firstPair? {β : Type}
    {f : List Expr × Nat → List Expr × Nat → Option β} {y : β}
    (h : firstPair? f (terms.map k.dual.factors).zipIdx = some y) :
    ∃ i j a b, i < j ∧ terms[i]? = some a ∧ terms[j]? = some b ∧
      f (k.dual.factors a, i) (k.dual.factors b, j) = some y := by
  obtain ⟨⟨as, i⟩, ⟨bs, j⟩, hsub, hf⟩ := exists_of_firstPair? h
  have hij : i < j := by
    have hpair := (pairwise_zipIdx (terms.map k.dual.factors)).sublist hsub
    simpa using hpair
  have ha := List.mem_zipIdx_iff_getElem?.mp (hsub.subset (List.mem_cons_self ..))
  have hb := List.mem_zipIdx_iff_getElem?.mp
    (hsub.subset (List.mem_cons_of_mem _ (List.mem_singleton.mpr rfl)))
  simp only [List.getElem?_map, Option.map_eq_some_iff] at ha hb
  obtain ⟨a, ha, rfl⟩ := ha
  obtain ⟨b, hb, rfl⟩ := hb
  exact ⟨i, j, a, b, hij, ha, hb, hf⟩

/-- The terms after merging two: the merged one, and those at other places. -/
theorem mem_mergeAt {t a merged : Expr} {i j : Nat} (hij : i < j) (hi : terms[i]? = some a) :
    t ∈ mergeAt terms i j merged ↔ t = merged ∨ ∃ n, n ≠ i ∧ n ≠ j ∧ terms[n]? = some t := by
  have hlen : i < terms.length := (List.getElem?_eq_some_iff.mp hi).1
  unfold mergeAt
  rw [List.mem_eraseIdx_iff_getElem?]
  constructor
  · rintro ⟨n, hnj, hn⟩
    rw [List.getElem?_set] at hn
    by_cases hni : i = n
    · subst hni
      rw [if_pos rfl, if_pos hlen] at hn
      exact Or.inl (Option.some.inj hn).symm
    · rw [if_neg hni] at hn
      exact Or.inr ⟨n, Ne.symm hni, hnj, hn⟩
  · rintro (rfl | ⟨n, hni, hnj, hn⟩)
    · exact ⟨i, Nat.ne_of_lt hij, by rw [List.getElem?_set, if_pos rfl, if_pos hlen]⟩
    · exact ⟨n, hnj, by rw [List.getElem?_set, if_neg (Ne.symm hni), hn]⟩

/-- Merging two terms into one that holds exactly if one of them does. -/
theorem termsRefine_mergeAt {a b merged : Expr} {i j : Nat} (hij : i < j) (hi : terms[i]? = some a)
    (hj : terms[j]? = some b) (hholds : ∀ ρ, k.Holds ρ merged ↔ k.Holds ρ a ∨ k.Holds ρ b)
    (hover : ∀ p, a.Over p → b.Over p → merged.Over p) :
    TermsRefine k (mergeAt terms i j merged) terms := by
  refine ⟨fun ρ => ⟨?_, ?_⟩, fun p hp t ht => ?_⟩
  · rintro ⟨t, ht, hold⟩
    rcases (mem_mergeAt hij hi).mp ht with rfl | ⟨n, _, _, hn⟩
    · rcases (hholds ρ).mp hold with hold | hold
      · exact ⟨a, List.mem_of_getElem? hi, hold⟩
      · exact ⟨b, List.mem_of_getElem? hj, hold⟩
    · exact ⟨t, List.mem_of_getElem? hn, hold⟩
  · rintro ⟨t, ht, hold⟩
    obtain ⟨n, hn⟩ := List.mem_iff_getElem?.mp ht
    have hmerged : merged ∈ mergeAt terms i j merged := (mem_mergeAt hij hi).mpr (Or.inl rfl)
    by_cases hni : n = i
    · have hta : t = a := Option.some.inj (hn.symm.trans (hni ▸ hi))
      exact ⟨merged, hmerged, (hholds ρ).mpr (Or.inl (hta ▸ hold))⟩
    · by_cases hnj : n = j
      · have htb : t = b := Option.some.inj (hn.symm.trans (hnj ▸ hj))
        exact ⟨merged, hmerged, (hholds ρ).mpr (Or.inr (htb ▸ hold))⟩
      · exact ⟨t, (mem_mergeAt hij hi).mpr (Or.inr ⟨n, hni, hnj, hn⟩), hold⟩
  · rcases (mem_mergeAt hij hi).mp ht with rfl | ⟨n, _, _, hn⟩
    · exact hover p (hp a (List.mem_of_getElem? hi)) (hp b (List.mem_of_getElem? hj))
    · exact hp t (List.mem_of_getElem? hn)

/-! ## Complementary operands -/

/-- Among operands that clash one always holds. -/
theorem exists_holds_of_hasClash {operands : List Expr} (h : hasClash operands)
    (ρ : String → Bool) : ∃ t ∈ operands, k.Holds ρ t := by
  obtain ⟨_, _, a, _, _, ha, hb, rfl⟩ := not_pairwise_not_iff.mp (hasClash_iff.mp h)
  by_cases hold : k.Holds ρ a
  · exact ⟨a, List.mem_of_getElem? ha, hold⟩
  · exact ⟨a.negate, List.mem_of_getElem? hb, Chain.holds_negate.mpr hold⟩

/-! ## Absorption -/

theorem within_iff {first second : List Expr} : within first second = true ↔ first ⊆ second := by
  simp [within, List.subset_def]

/-- Items with the places of their images. -/
theorem zip_zipIdx_map {α β : Type} (f : α → β) (xs : List α) :
    xs.zip (xs.map f).zipIdx = xs.zipIdx.map fun x => (x.1, f x.1, x.2) := by
  apply List.ext_getElem
  · simp
  · intro n h1 h2
    simp

/-- A term is kept if no term absorbs it. -/
theorem mem_unabsorbed {t : Expr} :
    t ∈ unabsorbed k terms ↔ ∃ n, terms[n]? = some t ∧
      ∀ m u, terms[m]? = some u → absorbs (k.dual.factors u, m) (k.dual.factors t, n) = false := by
  unfold unabsorbed
  simp only [zip_zipIdx_map, List.mem_map, List.mem_filter, Bool.not_eq_true', List.any_eq_false,
    Bool.not_eq_true]
  constructor
  · rintro ⟨_, ⟨⟨⟨u, n⟩, hu, rfl⟩, hkept⟩, rfl⟩
    refine ⟨n, List.mem_zipIdx_iff_getElem?.mp hu, fun m v hv => hkept (k.dual.factors v, m) ?_⟩
    rw [List.mem_zipIdx_iff_getElem?, List.getElem?_map, hv]
    rfl
  · rintro ⟨n, hn, hkept⟩
    refine ⟨(t, k.dual.factors t, n), ⟨⟨(t, n), List.mem_zipIdx_iff_getElem?.mpr hn, rfl⟩, ?_⟩, rfl⟩
    rintro ⟨fs, m⟩ hm
    rw [List.mem_zipIdx_iff_getElem?, List.getElem?_map, Option.map_eq_some_iff] at hm
    obtain ⟨v, hv, rfl⟩ := hm
    exact hkept m v hv

/-- A term that absorbs another one has fewer factors, or as many and an earlier place. -/
theorem lex_of_absorbs {first second : List Expr × Nat} (h : absorbs first second) :
    first.1 ⊆ second.1 ∧ (first.1.toFinset.card < second.1.toFinset.card ∨
      first.1.toFinset.card = second.1.toFinset.card ∧ first.2 < second.2) := by
  unfold absorbs at h
  rw [Bool.and_eq_true, within_iff, Bool.or_eq_true, Bool.not_eq_true', decide_eq_true_eq] at h
  obtain ⟨hsub, h⟩ := h
  have hfin : first.1.toFinset ⊆ second.1.toFinset := fun x hx => by
    rw [List.mem_toFinset] at hx ⊢
    exact hsub hx
  refine ⟨hsub, ?_⟩
  rcases Nat.lt_or_ge first.1.toFinset.card second.1.toFinset.card with hlt | hge
  · exact Or.inl hlt
  · have heq : first.1.toFinset = second.1.toFinset := Finset.eq_of_subset_of_card_le hfin hge
    refine Or.inr ⟨by rw [heq], ?_⟩
    rcases h with h | h
    · have hback : within second.1 first.1 = true := within_iff.mpr fun x hx => by
        rw [← List.mem_toFinset, heq, List.mem_toFinset]
        exact hx
      rw [hback] at h
      exact absurd h (by simp)
    · exact h

/-- Every term has the factors of some kept term. -/
theorem exists_unabsorbed (n : Nat) (t : Expr) (hn : terms[n]? = some t) :
    ∃ u ∈ unabsorbed k terms, k.dual.factors u ⊆ k.dual.factors t := by
  by_cases habs : ∃ m v, terms[m]? = some v ∧
    absorbs (k.dual.factors v, m) (k.dual.factors t, n) = true
  · obtain ⟨m, v, hm, habs⟩ := habs
    -- the absorbing term comes earlier in the order of number of factors and place
    have hlex := lex_of_absorbs habs
    obtain ⟨u, hu, hsub⟩ := exists_unabsorbed m v hm
    exact ⟨u, hu, List.Subset.trans hsub hlex.1⟩
  · refine ⟨t, mem_unabsorbed.mpr ⟨n, hn, fun m v hv => ?_⟩, List.Subset.refl _⟩
    by_contra hne
    exact habs ⟨m, v, hv, by simpa using hne⟩
termination_by ((k.dual.factors t).toFinset.card, n)
decreasing_by
  rcases hlex.2 with hlt | ⟨heq, hlt⟩
  · exact Prod.Lex.left _ _ hlt
  · rw [show (k.dual.factors v).toFinset.card = (k.dual.factors t).toFinset.card from heq]
    exact Prod.Lex.right _ hlt

/-- Absorbed terms are superfluous. -/
theorem termsRefine_unabsorbed : TermsRefine k (unabsorbed k terms) terms := by
  apply termsRefine_of_subset
  · intro t ht
    obtain ⟨n, hn, _⟩ := mem_unabsorbed.mp ht
    exact List.mem_of_getElem? hn
  · intro ρ t ht hold
    obtain ⟨n, hn⟩ := List.mem_iff_getElem?.mp ht
    obtain ⟨u, hu, hsub⟩ := exists_unabsorbed (k := k) n t hn
    exact ⟨u, hu, Chain.holds_iff_factors.mpr fun f hf =>
      Chain.holds_iff_factors.mp hold f (hsub hf)⟩

/-! ## Redundancy -/

/-- The single item that only the first list has. -/
theorem of_distinct_filter_eq {xs ys : List Expr} {c : Expr}
    (h : distinct (xs.filter (!ys.contains ·)) = [c]) :
    c ∈ xs ∧ c ∉ ys ∧ ∀ f ∈ xs, f ≠ c → f ∈ ys := by
  have hmem : ∀ f, (f ∈ xs ∧ f ∉ ys) ↔ f = c := by
    intro f
    rw [← List.mem_singleton, ← h, mem_distinct]
    simp
  obtain ⟨hxs, hys⟩ := (hmem c).mpr rfl
  refine ⟨hxs, hys, fun f hf hne => ?_⟩
  by_contra hnot
  exact hne ((hmem f).mp ⟨hf, hnot⟩)

/-- What two lists of factors share beside a pair of complementary factors. -/
theorem of_sharedBeside? {first second shared : List Expr}
    (h : sharedBeside? first second = some shared) :
    ∃ a b, a.isComplement b ∧ shared = first.filter (· ≠ a) ∧
      (a ∈ first ∧ a ∉ second ∧ ∀ f ∈ first, f ≠ a → f ∈ second) ∧
      (b ∈ second ∧ b ∉ first ∧ ∀ f ∈ second, f ≠ b → f ∈ first) := by
  unfold sharedBeside? at h
  split at h
  · rename_i a b ha hb
    split at h
    · rename_i hab
      exact ⟨a, b, hab, (Option.some.inj h).symm, of_distinct_filter_eq ha,
        of_distinct_filter_eq hb⟩
    · simp at h
  · simp at h

/-- The shared factors of two terms that agree but for complementary factors hold where one of the
terms does. -/
theorem holds_shared {a b : Expr} {shared : List Expr}
    (h : sharedBeside? (k.dual.factors a) (k.dual.factors b) = some shared) (ρ : String → Bool) :
    k.Holds ρ (k.dual.join shared) ↔ k.Holds ρ a ∨ k.Holds ρ b := by
  obtain ⟨x, y, hxy, rfl, ⟨_, hxb, hfirst⟩, ⟨_, _, hsecond⟩⟩ := of_sharedBeside? h
  have hclash : k.Holds ρ x ↔ ¬ k.Holds ρ y := Chain.holds_of_isComplement hxy
  rw [Chain.holds_join_dual, Chain.holds_iff_factors (e := a), Chain.holds_iff_factors (e := b)]
  simp only [List.mem_filter, decide_eq_true_eq, and_imp]
  constructor
  -- exactly one of `x` and `y` holds, and it completes the shared factors to its term
  · intro hall
    by_cases hold : k.Holds ρ x
    · refine Or.inl fun f hf => ?_
      by_cases hfx : f = x
      · exact hfx ▸ hold
      · exact hall f hf hfx
    · refine Or.inr fun f hf => ?_
      by_cases hfy : f = y
      · exact hfy ▸ not_not.mp (mt hclash.mpr hold)
      · exact hall f (hsecond f hf hfy) fun hfx => hxb (hfx ▸ hf)
  · rintro (hall | hall) f hf hne
    · exact hall f hf
    · exact hall f (hfirst f hf hne)

/-- Merging terms that agree but for complementary factors. -/
theorem termsRefine_of_merged? {new : List Expr} (h : merged? k terms = some new) :
    TermsRefine k new terms := by
  unfold merged? adjacentPair? at h
  obtain ⟨⟨i, j, shared⟩, hpair, rfl⟩ := Option.map_eq_some_iff.mp h
  obtain ⟨i', j', a, b, hij, hi, hj, hf⟩ := exists_terms_of_firstPair? hpair
  obtain ⟨shared', hshared, heq⟩ := Option.map_eq_some_iff.mp hf
  simp only [Prod.mk.injEq] at heq
  obtain ⟨rfl, rfl, rfl⟩ := heq
  refine termsRefine_mergeAt hij hi hj (holds_shared hshared) fun p ha _ => ?_
  obtain ⟨x, _, _, rfl, _⟩ := of_sharedBeside? hshared
  exact Chain.over_join fun t ht => Chain.over_of_mem_factors ha (List.mem_filter.mp ht).1

/-! ## Consensus -/

/-- The consensus of two lists of factors drops one pair of complementary factors. -/
theorem of_consensusOf? {first second needed : List Expr}
    (h : consensusOf? first second = some needed) : ∃ a ∈ first, ∃ b ∈ second, a.isComplement b ∧
      needed = first.filter (· ≠ a) ++ second.filter (· ≠ b) := by
  unfold consensusOf? at h
  split at h
  · rename_i a b hclash
    have hmem : (a, b) ∈ first.flatMap fun a => (second.filter a.isComplement).map (a, ·) := by
      rw [hclash]
      exact List.mem_singleton.mpr rfl
    simp only [List.mem_flatMap, List.mem_map, List.mem_filter, Prod.mk.injEq] at hmem
    obtain ⟨x, hx, y, ⟨hy, hxy⟩, rfl, rfl⟩ := hmem
    exact ⟨x, hx, y, hy, hxy, (Option.some.inj h).symm⟩
  · simp at h

/-- Where all factors of the consensus of two terms hold, one of the terms does. -/
theorem holds_of_consensus {a b : Expr} {needed : List Expr}
    (h : consensusOf? (k.dual.factors a) (k.dual.factors b) = some needed) {ρ : String → Bool}
    (hneeded : ∀ f ∈ needed, k.Holds ρ f) : k.Holds ρ a ∨ k.Holds ρ b := by
  obtain ⟨x, _, y, _, hxy, rfl⟩ := of_consensusOf? h
  have hclash : k.Holds ρ x ↔ ¬ k.Holds ρ y := Chain.holds_of_isComplement hxy
  rw [Chain.holds_iff_factors (e := a), Chain.holds_iff_factors (e := b)]
  by_cases hold : k.Holds ρ x
  · refine Or.inl fun f hf => ?_
    by_cases hfx : f = x
    · exact hfx ▸ hold
    · exact hneeded f (by simp [hf, hfx])
  · refine Or.inr fun f hf => ?_
    by_cases hfy : f = y
    · exact hfy ▸ not_not.mp (mt hclash.mpr hold)
    · exact hneeded f (by simp [hf, hfy])

/-- Removing a term with all factors of the consensus of two others. -/
theorem termsRefine_of_withoutConsensus? {new : List Expr}
    (h : withoutConsensus? k terms = some new) : TermsRefine k new terms := by
  unfold withoutConsensus? at h
  split at h
  · simp at h
  obtain ⟨n, hplace, rfl⟩ := Option.map_eq_some_iff.mp h
  obtain ⟨i, j, a, b, _, hi, hj, hf⟩ := exists_terms_of_firstPair? hplace
  obtain ⟨needed, hneeded, hfound⟩ := Option.bind_eq_some_iff.mp hf
  unfold placeWith? at hfound
  obtain ⟨⟨own, n'⟩, hfind, rfl⟩ := Option.map_eq_some_iff.mp hfound
  have hcond := List.find?_some hfind
  simp only [Bool.and_eq_true, decide_eq_true_eq, within_iff] at hcond
  obtain ⟨⟨hni, hnj⟩, hsub⟩ := hcond
  have hown := List.mem_zipIdx_iff_getElem?.mp (List.mem_of_find?_eq_some hfind)
  simp only [List.getElem?_map, Option.map_eq_some_iff] at hown
  obtain ⟨c, hc, rfl⟩ := hown
  have hkept : ∀ {m u}, terms[m]? = some u → m ≠ n' → u ∈ terms.eraseIdx n' := fun hu hm =>
    List.mem_eraseIdx_iff_getElem?.mpr ⟨_, hm, hu⟩
  apply termsRefine_of_subset (List.eraseIdx_sublist ..).subset
  intro ρ t ht hold
  obtain ⟨m, hm⟩ := List.mem_iff_getElem?.mp ht
  by_cases hmn : m = n'
  -- the erased term has every factor of the consensus, so `a` or `b` holds in its stead, and both
  -- are kept
  · have htc : t = c := Option.some.inj (hm.symm.trans (hmn ▸ hc))
    have hall : ∀ f ∈ needed, k.Holds ρ f := fun f hf =>
      Chain.holds_iff_factors.mp (htc ▸ hold) f (hsub hf)
    rcases holds_of_consensus hneeded hall with hold | hold
    · exact ⟨a, hkept hi (Ne.symm hni), hold⟩
    · exact ⟨b, hkept hj (Ne.symm hnj), hold⟩
  · exact ⟨t, hkept hm hmn, hold⟩

/-! ## Factoring -/

/-- Factoring splits both lists of factors into the shared ones and the others. -/
theorem of_factored? {first second : List Expr} {e : Expr} (h : factored? k first second = some e) :
    ∃ common left right,
      e = .bin k.dual.op (k.dual.join common) (.bin k.op (k.dual.join left) (k.dual.join right)) ∧
      (∀ f, f ∈ first ↔ f ∈ common ∨ f ∈ left) ∧ (∀ f, f ∈ second ↔ f ∈ common ∨ f ∈ right) := by
  unfold factored? at h
  simp only [Option.ite_none_left_eq_some, Option.some.injEq] at h
  refine ⟨_, _, _, h.2.symm, fun f => ?_, fun f => ?_⟩
  · simp only [List.mem_filter, List.contains_iff_mem, Bool.not_eq_true']
    by_cases hs : f ∈ second <;> simp [hs]
  · simp only [List.mem_filter, List.contains_iff_mem, Bool.not_eq_true']
    by_cases hf : f ∈ first <;> simp [hf]

/-- Putting shared factors of two terms outside. -/
theorem holds_factored {a b e : Expr}
    (h : factored? k (k.dual.factors a) (k.dual.factors b) = some e) (ρ : String → Bool) :
    k.Holds ρ e ↔ k.Holds ρ a ∨ k.Holds ρ b := by
  obtain ⟨common, left, right, rfl, hfirst, hsecond⟩ := of_factored? h
  rw [Chain.holds_bin_dual, Chain.holds_bin, Chain.holds_join_dual, Chain.holds_join_dual,
    Chain.holds_join_dual, Chain.holds_iff_factors (e := a), Chain.holds_iff_factors (e := b)]
  simp only [hfirst, hsecond, or_imp, forall_and]
  exact and_or_left

/-- Putting shared factors of the first terms that have any outside. -/
theorem termsRefine_of_withFactored? {new : List Expr} (h : withFactored? k terms = some new) :
    TermsRefine k new terms := by
  unfold withFactored? at h
  obtain ⟨⟨i, j, e⟩, hpair, rfl⟩ := Option.map_eq_some_iff.mp h
  obtain ⟨i', j', a, b, hij, hi, hj, hf⟩ := exists_terms_of_firstPair? hpair
  obtain ⟨e', hfactored, heq⟩ := Option.map_eq_some_iff.mp hf
  simp only [Prod.mk.injEq] at heq
  obtain ⟨rfl, rfl, rfl⟩ := heq
  refine termsRefine_mergeAt hij hi hj (holds_factored hfactored) fun p ha hb => ?_
  obtain ⟨common, left, right, rfl, hfirst, hsecond⟩ := of_factored? hfactored
  have hover : ∀ f, f ∈ k.dual.factors a ∨ f ∈ k.dual.factors b → f.Over p := fun f hf =>
    hf.elim (Chain.over_of_mem_factors ha) (Chain.over_of_mem_factors hb)
  refine ⟨Chain.over_join fun f hf => ?_, Chain.over_join fun f hf => ?_,
    Chain.over_join fun f hf => ?_⟩
  · exact hover f (Or.inl ((hfirst f).mpr (Or.inl hf)))
  · exact hover f (Or.inl ((hfirst f).mpr (Or.inr hf)))
  · exact hover f (Or.inr ((hsecond f).mpr (Or.inr hf)))

/-! ## Complement absorption -/

/-- Where a term does not hold, another one holds without the factors complementary to it. -/
theorem holds_shortened {single term e : Expr} (h : shortened? k single term = some e)
    {ρ : String → Bool} (hsingle : ¬ k.Holds ρ single) : k.Holds ρ e ↔ k.Holds ρ term := by
  unfold shortened? at h
  simp only [Option.ite_none_left_eq_some, Option.some.injEq] at h
  obtain ⟨_, rfl⟩ := h
  rw [Chain.holds_join_dual, Chain.holds_iff_factors (e := term)]
  simp only [List.mem_filter, Bool.not_eq_true', and_imp]
  constructor
  · intro hall f hf
    by_cases hc : f.isComplement single = true
    · exact (Chain.holds_of_isComplement hc).mpr hsingle
    · exact hall f hf (by simpa using hc)
  · exact fun hall f hf _ => hall f hf

/-- A shortened term is over the names of the term. -/
theorem over_shortened {single term e : Expr} (h : shortened? k single term = some e)
    {p : String → Prop} (hp : term.Over p) : e.Over p := by
  unfold shortened? at h
  simp only [Option.ite_none_left_eq_some, Option.some.injEq] at h
  obtain ⟨_, rfl⟩ := h
  exact Chain.over_join fun f hf => Chain.over_of_mem_factors hp (List.mem_filter.mp hf).1

/-- Changing a term only where another one does not hold. -/
theorem termsRefine_set {single term e : Expr} {i j : Nat} (hij : i ≠ j)
    (hi : terms[i]? = some single) (hj : terms[j]? = some term)
    (hholds : ∀ ρ, ¬ k.Holds ρ single → (k.Holds ρ e ↔ k.Holds ρ term))
    (hover : ∀ p, term.Over p → e.Over p) : TermsRefine k (terms.set j e) terms := by
  have hlen : j < terms.length := (List.getElem?_eq_some_iff.mp hj).1
  have hkept : ∀ {m u}, terms[m]? = some u → m ≠ j → u ∈ terms.set j e := fun hu hm =>
    List.mem_iff_getElem?.mpr ⟨_, by rw [List.getElem?_set_ne (Ne.symm hm), hu]⟩
  refine ⟨fun ρ => ?_, fun p hp t ht => ?_⟩
  -- where `single` holds, it makes both lists hold; elsewhere `e` and `term` hold together
  · by_cases hsingle : k.Holds ρ single
    · exact iff_of_true ⟨single, hkept hi hij, hsingle⟩ ⟨single, List.mem_of_getElem? hi, hsingle⟩
    · constructor
      · rintro ⟨t, ht, hold⟩
        rcases List.mem_or_eq_of_mem_set ht with ht | rfl
        · exact ⟨t, ht, hold⟩
        · exact ⟨term, List.mem_of_getElem? hj, (hholds ρ hsingle).mp hold⟩
      · rintro ⟨t, ht, hold⟩
        obtain ⟨m, hm⟩ := List.mem_iff_getElem?.mp ht
        by_cases hmj : m = j
        · have htt : t = term := Option.some.inj (hm.symm.trans (hmj ▸ hj))
          exact ⟨e, List.mem_set hlen e, (hholds ρ hsingle).mpr (htt ▸ hold)⟩
        · exact ⟨t, hkept hm hmj, hold⟩
  · rcases List.mem_or_eq_of_mem_set ht with ht | rfl
    · exact hp t ht
    · exact hover p (hp term (List.mem_of_getElem? hj))

/-- Shortening the first term that has a factor complementary to another term. -/
theorem termsRefine_of_withShortened? {new : List Expr} (h : withShortened? k terms = some new) :
    TermsRefine k new terms := by
  unfold withShortened? at h
  obtain ⟨⟨single, i⟩, hi, h⟩ := List.exists_of_findSome?_eq_some h
  simp only [Option.ite_none_left_eq_some] at h
  obtain ⟨⟨term, j⟩, hj, h⟩ := List.exists_of_findSome?_eq_some h.2
  simp only [Option.ite_none_left_eq_some, Option.map_eq_some_iff] at h
  obtain ⟨hij, e, hshort, rfl⟩ := h
  exact termsRefine_set hij (List.mem_zipIdx_iff_getElem?.mp hi)
    (List.mem_zipIdx_iff_getElem?.mp hj) (fun _ => holds_shortened hshort) fun _ =>
    over_shortened hshort

end SwitchingAlgebra.Law
