/-
# Counts

Some numbers of trees add up over operators: the leaves of a tree, and its nodes if the tree itself
is counted twice. A law of chains makes all of them smaller at once, because it answers with terms
that count less together: it drops a term, or a factor of one.

* `IsCount` says what these numbers have in common, `total` is the number of a list of trees;
* `IsCount.join` and `IsCount.total_operands` are the number of a chain;
* `IsCount.lt_of_identity` and the theorems after it are the laws that make every count smaller
  wherever they are used.
-/
import Mathlib.Algebra.Order.BigOperators.Group.List
import Mathlib.Algebra.Order.Ring.Nat
import SwitchingAlgebra.Law.Replacement
import SwitchingAlgebra.Proofs.Law.Soundness

namespace SwitchingAlgebra

/-- A positive number for every tree that adds up over operators and is smallest for truth
values. -/
structure IsCount (m : Expr → Nat) : Prop where
  bin : ∀ op l r, m (.bin op l r) = m l + m r
  const_pos : ∀ b, 0 < m (.const b)
  const_le : ∀ b e, m (.const b) ≤ m e

/-- The number of all trees of a list together. -/
def total (m : Expr → Nat) (es : List Expr) : Nat :=
  (es.map m).sum

/-! ## Lists -/

section Lists

variable {m : Expr → Nat}

@[simp] theorem total_cons (x : Expr) (xs : List Expr) : total m (x :: xs) = m x + total m xs := by
  simp [total]

theorem total_le {xs ys : List Expr} (h : xs.Sublist ys) : total m xs ≤ total m ys :=
  (h.map m).sum_le_sum fun _ _ => Nat.zero_le _

/-- Items left out of a list take something off a sum of positive numbers. -/
theorem total_lt (hm : ∀ e, 0 < m e) {xs ys : List Expr} (h : xs.Sublist ys)
    (hlength : xs.length ≠ ys.length) : total m xs < total m ys := by
  induction h with
  | slnil => exact absurd rfl hlength
  | @cons xs ys y h ih =>
    rw [total_cons]
    exact (total_le h).trans_lt (Nat.lt_add_of_pos_left (hm y))
  | cons_cons y h ih =>
    rw [total_cons, total_cons]
    exact Nat.add_lt_add_left (ih fun heq => hlength (congrArg (· + 1) heq)) _

/-- Replacing an item. -/
theorem total_set {xs : List Expr} {i : Nat} {x : Expr} (hi : xs[i]? = some x) (y : Expr) :
    total m (xs.set i y) + m x = total m xs + m y := by
  induction xs generalizing i with
  | nil => simp at hi
  | cons z zs ih =>
    cases i with
    | zero =>
      obtain rfl : z = x := by simpa using hi
      simp only [List.set_cons_zero, total_cons]
      omega
    | succ i =>
      have hrest := ih (i := i) (by simpa using hi)
      simp only [List.set_cons_succ, total_cons]
      omega

/-- Removing an item. -/
theorem total_eraseIdx {xs : List Expr} {i : Nat} {x : Expr} (hi : xs[i]? = some x) :
    total m (xs.eraseIdx i) + m x = total m xs := by
  obtain ⟨hlt, rfl⟩ := List.getElem?_eq_some_iff.mp hi
  have hperm := ((List.getElem_cons_eraseIdx_perm hlt).map m).sum_eq
  rw [List.map_cons, List.sum_cons] at hperm
  unfold total
  omega

/-- The two parts that a condition splits a list into. -/
theorem total_filter_add (p : Expr → Bool) (xs : List Expr) :
    total m (xs.filter p) + total m (xs.filter (!p ·)) = total m xs := by
  have hperm := ((List.filter_append_perm p xs).map m).sum_eq
  rwa [List.map_append, List.sum_append] at hperm

end Lists

namespace IsCount

variable {m : Expr → Nat} {k : Chain} {e e' : Expr} {terms new : List Expr}

/-- No tree counts nothing. -/
theorem pos (hm : IsCount m) (e : Expr) : 0 < m e :=
  (hm.const_pos true).trans_le (hm.const_le true e)

/-! ## Chains -/

/-- The operands of a tree count what it does. -/
theorem total_operands (hm : IsCount m) (op : Op) (e : Expr) : total m (e.operands op) = m e := by
  induction e with
  | bin o l r ihl ihr =>
    by_cases h : o = op
    · subst h
      rw [Expr.operands_bin_self, hm.bin, ← ihl, ← ihr]
      simp [total]
    · simp [total, Expr.operands, Expr.operandsOnto, h]
  | _ => simp [total, Expr.operands, Expr.operandsOnto]

/-- The distinct operands of a tree count no more. -/
theorem total_factors_le (hm : IsCount m) (k : Chain) (e : Expr) : total m (k.factors e) ≤ m e :=
  (total_le (sublist_distinct _)).trans (hm.total_operands k.op e).le

/-- A chain counts what its operands do. -/
theorem join (hm : IsCount m) {es : List Expr} (h : es ≠ []) : m (k.join es) = total m es := by
  cases es with
  | nil => exact absurd rfl h
  | cons e es =>
    show m (es.foldl (.bin k.op) e) = total m (e :: es)
    induction es generalizing e with
    | nil => simp [total]
    | cons t ts ih =>
      rw [List.foldl_cons, ih (.bin k.op e t) (List.cons_ne_nil _ _), total_cons, total_cons,
        total_cons, hm.bin]
      omega

/-- A chain counts what its operands do, or what its unit does. -/
theorem join_le (hm : IsCount m) (es : List Expr) :
    m (k.join es) ≤ max (m (.const k.unit)) (total m es) := by
  cases es with
  | nil => exact Nat.le_max_left _ _
  | cons e es => exact (hm.join (List.cons_ne_nil e es)).le.trans (Nat.le_max_right _ _)

/-- A chain counts more than a truth value. -/
theorem const_lt (hm : IsCount m) (h : k.isChain e) (b : Bool) : m (.const b) < m e := by
  obtain ⟨⟨l, r⟩, hparts⟩ := Option.isSome_iff_exists.mp h
  obtain rfl := Chain.parts?_eq_some.mp hparts
  rw [hm.bin]
  exact (hm.const_le b l).trans_lt (Nat.lt_add_of_pos_right (hm.pos r))

/-! ## Laws of single nodes -/

/-- Dropping the unit of a chain. -/
theorem lt_of_identity (hm : IsCount m) (h : (Law.identity k).replacement? e = some e') :
    m e' < m e := by
  obtain ⟨⟨l, r⟩, hparts, hout⟩ := Option.bind_eq_some_iff.mp h
  obtain rfl := Chain.parts?_eq_some.mp hparts
  rw [hm.bin]
  dsimp only at hout
  split at hout
  · obtain rfl := Option.some.inj hout
    exact Nat.lt_add_of_pos_right (hm.pos r)
  · obtain ⟨_, hout⟩ := Option.ite_none_right_eq_some.mp hout
    obtain rfl := Option.some.inj hout
    exact Nat.lt_add_of_pos_left (hm.pos l)

/-- Deciding a chain by one operand. -/
theorem lt_of_annihilation (hm : IsCount m) (h : (Law.annihilation k).replacement? e = some e') :
    m e' < m e := by
  obtain ⟨⟨l, r⟩, hparts, hout⟩ := Option.bind_eq_some_iff.mp h
  obtain ⟨_, hzero⟩ := Option.ite_none_right_eq_some.mp hout
  obtain rfl := Option.some.inj hzero
  exact hm.const_lt (Option.isSome_of_mem hparts) k.zero

/-- A chain with complementary operands. -/
theorem lt_of_complement (hm : IsCount m) (h : (Law.complement k).replacement? e = some e') :
    m e' < m e := by
  obtain ⟨hchain, h⟩ := Option.ite_none_right_eq_some.mp h
  obtain rfl := Option.some.inj h
  exact hm.const_lt (Bool.and_eq_true_iff.mp hchain).1 k.zero

/-- Dropping repeated operands. -/
theorem lt_of_idempotence (hm : IsCount m) (h : (Law.idempotence k).replacement? e = some e') :
    m e' < m e := by
  obtain ⟨hrepeated, h⟩ := Option.ite_none_right_eq_some.mp h
  obtain rfl := Option.some.inj h
  obtain ⟨hchain, hlength⟩ := Bool.and_eq_true_iff.mp hrepeated
  have hlt := total_lt hm.pos (sublist_distinct (e.operands k.op)) (by simpa using hlength)
  have hjoin := hm.join_le (k := k) (distinct (e.operands k.op))
  have hunit := hm.const_lt hchain k.unit
  rw [hm.total_operands] at hlt
  omega

/-! ## Laws of chains -/

/-- A chain of terms that count less. -/
theorem lt_of_onTerms (hm : IsCount m) {f : List Expr → Option (List Expr)}
    (hf : ∀ terms new, f terms = some new → total m new < total m terms)
    (h : Law.onTerms k f e = some e') : m e' < m e := by
  obtain ⟨hchain, h⟩ := Option.ite_none_right_eq_some.mp h
  obtain ⟨new, hnew, rfl⟩ := Option.map_eq_some_iff.mp h
  have hlt := hf _ _ hnew
  have hle := hm.total_factors_le k e
  have hjoin := hm.join_le (k := k) new
  have hunit := hm.const_lt hchain k.unit
  omega

/-- Dropping absorbed terms. -/
theorem lt_of_absorption (hm : IsCount m) (h : (Law.absorption k).replacement? e = some e') :
    m e' < m e := by
  have hterms : Law.onTerms k (fun terms =>
      if (Law.unabsorbed k terms).length = terms.length then none
        else some (Law.unabsorbed k terms)) e = some e' := h
  refine hm.lt_of_onTerms (fun terms new hnew => ?_) hterms
  obtain ⟨hlength, hnew⟩ := Option.ite_none_left_eq_some.mp hnew
  -- the terms that stay are among the terms
  have hsub : (Law.unabsorbed k terms).Sublist terms := by
    have hzip : (terms.zip (terms.map k.dual.factors).zipIdx).map Prod.fst = terms := by
      rw [Law.zip_zipIdx_map, List.map_map]
      exact List.zipIdx_map_fst 0 terms
    refine (List.filter_sublist.map Prod.fst).trans ?_
    rw [hzip]
  exact Option.some.inj hnew ▸ total_lt hm.pos hsub hlength

/-- Merging two terms into one that counts less than both. -/
theorem total_mergeAt_lt {a b merged : Expr} {i j : Nat} (hij : i < j) (hi : terms[i]? = some a)
    (hj : terms[j]? = some b) (hmerged : m merged < m a + m b) :
    total m (Law.mergeAt terms i j merged) < total m terms := by
  have hset := total_set (m := m) hi merged
  have herase : total m (Law.mergeAt terms i j merged) + m b = total m (terms.set i merged) :=
    total_eraseIdx (by rw [List.getElem?_set_ne (Nat.ne_of_lt hij), hj])
  omega

/-- Merging terms that agree but for complementary factors. -/
theorem total_lt_of_merged? (hm : IsCount m) (h : Law.merged? k terms = some new) :
    total m new < total m terms := by
  unfold Law.merged? Law.adjacentPair? at h
  obtain ⟨⟨i, j, shared⟩, hpair, rfl⟩ := Option.map_eq_some_iff.mp h
  obtain ⟨i', j', a, b, hij, hi, hj, hf⟩ := Law.exists_terms_of_firstPair? hpair
  obtain ⟨shared', hshared, heq⟩ := Option.map_eq_some_iff.mp hf
  simp only [Prod.mk.injEq] at heq
  obtain ⟨rfl, rfl, rfl⟩ := heq
  refine total_mergeAt_lt hij hi hj ?_
  obtain ⟨x, _, _, rfl, _⟩ := Law.of_sharedBeside? hshared
  have hjoin := hm.join_le (k := k.dual) ((k.dual.factors a).filter (· ≠ x))
  have hkept : total m ((k.dual.factors a).filter (· ≠ x)) ≤ m a :=
    (total_le List.filter_sublist).trans (hm.total_factors_le k.dual a)
  have hunit := hm.const_le k.dual.unit a
  have hb := hm.pos b
  dsimp only at *
  omega

/-- Removing a term with all factors of a consensus. -/
theorem total_lt_of_withoutConsensus? (hm : IsCount m)
    (h : Law.withoutConsensus? k terms = some new) : total m new < total m terms := by
  unfold Law.withoutConsensus? at h
  obtain ⟨_, h⟩ := Option.ite_none_left_eq_some.mp h
  obtain ⟨n, hplace, rfl⟩ := Option.map_eq_some_iff.mp h
  obtain ⟨i, j, a, b, _, _, _, hf⟩ := Law.exists_terms_of_firstPair? hplace
  obtain ⟨needed, _, hfound⟩ := Option.bind_eq_some_iff.mp hf
  unfold Law.placeWith? at hfound
  obtain ⟨⟨own, n'⟩, hfind, rfl⟩ := Option.map_eq_some_iff.mp hfound
  have hown := List.mem_zipIdx_iff_getElem?.mp (List.mem_of_find?_eq_some hfind)
  simp only [List.getElem?_map, Option.map_eq_some_iff] at hown
  obtain ⟨c, hc, _⟩ := hown
  have herase := total_eraseIdx (m := m) hc
  have hpos := hm.pos c
  simp only at *
  omega

/-- Two terms have their shared factors once when these are outside. -/
theorem factored?_lt (hm : IsCount m) {a b : Expr}
    (h : Law.factored? k (k.dual.factors a) (k.dual.factors b) = some e) : m e < m a + m b := by
  generalize hfirst : k.dual.factors a = first at h
  generalize hsecond : k.dual.factors b = second at h
  have ha : total m first ≤ m a := hfirst ▸ hm.total_factors_le k.dual a
  have hb : total m second ≤ m b := hsecond ▸ hm.total_factors_le k.dual b
  unfold Law.factored? at h
  simp only [Option.ite_none_left_eq_some, Option.some.injEq, Bool.or_eq_true, List.isEmpty_iff,
    not_or] at h
  obtain ⟨⟨⟨hcommon, hleft⟩, hright⟩, rfl⟩ := h
  generalize hshared : first.filter second.contains = common at *
  have hmem : ∀ f, f ∈ common ↔ f ∈ first ∧ f ∈ second := fun f => by
    rw [← hshared, List.mem_filter, List.contains_iff_mem]
  have hfirst : total m common + total m (first.filter (!common.contains ·)) = total m first := by
    rw [← total_filter_add second.contains first, hshared]
    congr 2
    refine List.filter_congr fun f hf => ?_
    simp [hmem, hf]
  have hsecond : total m (second.filter (!common.contains ·)) < total m second := by
    refine total_lt hm.pos List.filter_sublist (Nat.ne_of_lt ?_)
    obtain ⟨c, hc⟩ := List.exists_mem_of_ne_nil common hcommon
    refine List.length_filter_lt_length_iff_exists.mpr ⟨c, ((hmem c).mp hc).2, ?_⟩
    simpa using hc
  rw [hm.bin, hm.bin, hm.join hcommon, hm.join hleft, hm.join hright]
  omega

/-- Putting shared factors outside. -/
theorem total_lt_of_withFactored? (hm : IsCount m) (h : Law.withFactored? k terms = some new) :
    total m new < total m terms := by
  unfold Law.withFactored? at h
  obtain ⟨⟨i, j, e⟩, hpair, rfl⟩ := Option.map_eq_some_iff.mp h
  obtain ⟨i', j', a, b, hij, hi, hj, hf⟩ := Law.exists_terms_of_firstPair? hpair
  obtain ⟨e', hfactored, heq⟩ := Option.map_eq_some_iff.mp hf
  simp only [Prod.mk.injEq] at heq
  obtain ⟨rfl, rfl, rfl⟩ := heq
  exact total_mergeAt_lt hij hi hj (hm.factored?_lt hfactored)

end IsCount

end SwitchingAlgebra
