/-
# Values of normal forms

Bringing sums, products and parities into normal form keeps their truth value. As for expressions, a
chain of either kind is decided by one of its arguments; a parity is kept by every reordering and by
cancelling equal arguments.

* `value_chain`, `value_complement`, `value_exclusive` for the forms that are built;
* `value_ofHead` for any operator.
-/
import Mathlib.Tactic.Common
import SwitchingAlgebra.Symbolic.Normal

namespace SwitchingAlgebra.Symbolic

/-! ## Parities -/

/-- A parity is kept by every reordering. -/
theorem parity_perm {xs ys : List Bool} (h : xs.Perm ys) : parity xs = parity ys := by
  induction h with
  | nil => rfl
  | cons x _ ih =>
    unfold parity
    rw [ih]
  | swap x y xs =>
    simp only [parity]
    cases x <;> cases y <;> cases parity xs <;> rfl
  | trans _ _ ih ih' => exact ih.trans ih'

/-- The parity of two lists together. -/
theorem parity_append (xs ys : List Bool) : parity (xs ++ ys) = (parity xs != parity ys) := by
  induction xs with
  | nil => cases h : parity ys <;> simp [parity, h]
  | cons x xs ih =>
    simp only [List.cons_append, parity, ih]
    cases x <;> cases parity xs <;> cases parity ys <;> rfl

namespace Term

variable (ρ : String → Bool)

theorem value_app (head : Head) (args : List Term) :
    (app head args).value ρ = head.apply (args.map (value ρ)) := by
  rw [value, values_eq_map]

/-- The order of the arguments of a sorted term. -/
theorem perm_sorted (args : List Term) :
    ((args.mergeSort precedes).map (value ρ)).Perm (args.map (value ρ)) :=
  (List.mergeSort_perm args precedes).map _

/-! ## Chains -/

/-- A chain of values is decided by one of them. -/
theorem apply_chainHead (k : Chain) (xs : List Bool) :
    (chainHead k).apply xs = k.zero ↔ k.zero ∈ xs := by
  cases k <;> simp [chainHead, Head.apply, Chain.zero]

/-- A chain is decided by one of its arguments. -/
theorem value_app_chain (k : Chain) (args : List Term) :
    (app (chainHead k) args).value ρ = k.zero ↔ ∃ t ∈ args, t.value ρ = k.zero := by
  rw [value_app, apply_chainHead, List.mem_map]

/-- A term is decided by one of the arguments that it gives to a chain. -/
theorem value_argumentsOf_chain (k : Chain) (t : Term) :
    (∃ u ∈ argumentsOf (chainHead k) t, u.value ρ = k.zero) ↔ t.value ρ = k.zero := by
  unfold argumentsOf
  split
  · rename_i h args
    split
    · rename_i hhead
      rw [hhead, value_app_chain]
    · simp
  · simp

theorem value_unit_ne (k : Chain) : (truth k.unit).value ρ ≠ k.zero := by
  cases k <;> simp [value, Chain.unit, Chain.zero]

/-- A chain in normal form is decided by one of its arguments. -/
theorem value_chain (k : Chain) (args : List Term) :
    (chain k args).value ρ = k.zero ↔ ∃ t ∈ args, t.value ρ = k.zero := by
  unfold chain
  split
  · rename_i hzero
    exact iff_of_true (by rw [value]) ⟨truth k.zero, hzero, by rw [value]⟩
  · -- what is kept decides the chain together with what was left out
    have hkept :
        (∃ t ∈ distinct ((args.filter (· ≠ truth k.unit)).flatMap (argumentsOf (chainHead k))),
          t.value ρ = k.zero) ↔ ∃ t ∈ args, t.value ρ = k.zero := by
      constructor
      · rintro ⟨u, hu, hvalue⟩
        obtain ⟨t, ht, hut⟩ := List.mem_flatMap.mp (mem_distinct.mp hu)
        exact ⟨t, (List.mem_filter.mp ht).1, (value_argumentsOf_chain ρ k t).mp ⟨u, hut, hvalue⟩⟩
      · rintro ⟨t, ht, hvalue⟩
        obtain ⟨u, hu, huvalue⟩ := (value_argumentsOf_chain ρ k t).mpr hvalue
        have hne : t ≠ truth k.unit := fun h => value_unit_ne ρ k (h ▸ hvalue)
        exact ⟨u, mem_distinct.mpr (List.mem_flatMap.mpr
          ⟨t, List.mem_filter.mpr ⟨ht, by simp [hne]⟩, hu⟩), huvalue⟩
    rw [← hkept]
    split
    · rename_i hnil
      rw [hnil]
      simpa using value_unit_ne ρ k
    · rename_i t hsingle
      rw [hsingle]
      simp
    · unfold sorted
      rw [value_app_chain]
      simp only [List.mem_mergeSort]

/-! ## Complements -/

theorem value_complement (t : Term) : (complement t).value ρ = !t.value ρ := by
  unfold complement
  split <;> simp [value, values, Head.apply]

/-! ## Parities in normal form -/

/-- The parity of the arguments that a term gives to a parity. -/
theorem parity_argumentsOf (t : Term) :
    parity ((argumentsOf .xor t).map (value ρ)) = t.value ρ := by
  unfold argumentsOf
  split
  · rename_i h args
    split
    · rename_i hhead
      rw [hhead, value_app]
      rfl
    · simp [parity]
  · simp [parity]

/-- The parity of the arguments that several terms give to a parity. -/
theorem parity_flatMap_argumentsOf (args : List Term) :
    parity ((args.flatMap (argumentsOf .xor)).map (value ρ)) = parity (args.map (value ρ)) := by
  induction args with
  | nil => rfl
  | cons t ts ih =>
    rw [List.flatMap_cons, List.map_append, parity_append, parity_argumentsOf, ih]
    rfl

/-- Arguments that are 0 do not count. -/
theorem parity_filter (args : List Term) :
    parity ((args.filter (· ≠ truth false)).map (value ρ)) = parity (args.map (value ρ)) := by
  induction args with
  | nil => rfl
  | cons t ts ih =>
    by_cases h : t = truth false
    · rw [List.filter_cons_of_neg (by simp [h]), ih, h]
      simp [parity, value]
    · rw [List.filter_cons_of_pos (by simp [h]), List.map_cons, List.map_cons]
      simp only [parity, ih]

theorem parity_erase {kept : List Term} {t : Term} (h : t ∈ kept) :
    parity (kept.map (value ρ)) = (t.value ρ != parity ((kept.erase t).map (value ρ))) :=
  parity_perm ((List.perm_cons_erase h).map _)

/-- A toggled argument counts once more. -/
theorem parity_toggle (kept : List Term) (t : Term) :
    parity ((toggle kept t).map (value ρ)) = (parity (kept.map (value ρ)) != t.value ρ) := by
  unfold toggle
  split
  · rename_i h
    rw [parity_erase ρ h]
    cases t.value ρ <;> cases parity ((kept.erase t).map (value ρ)) <;> rfl
  · rw [List.map_append, parity_append]
    simp [parity]

/-- Toggling arguments one by one. -/
theorem parity_foldl_toggle (kept args : List Term) :
    parity ((args.foldl toggle kept).map (value ρ))
      = (parity (kept.map (value ρ)) != parity (args.map (value ρ))) := by
  induction args generalizing kept with
  | nil => simp [parity]
  | cons t ts ih =>
    rw [List.foldl_cons, ih, parity_toggle, List.map_cons]
    simp only [parity]
    cases parity (kept.map (value ρ)) <;> cases t.value ρ <;> cases parity (ts.map (value ρ)) <;>
      rfl

/-- The parity of arguments that are put together. -/
theorem value_parityOf (kept : List Term) :
    (parityOf kept).value ρ = parity (kept.map (value ρ)) := by
  unfold parityOf
  split
  · rw [value]
    rfl
  · simp [parity]
  · unfold sorted
    rw [value_app]
    exact parity_perm (perm_sorted ρ _)

/-- A parity in normal form has the parity of the values of its arguments. -/
theorem value_exclusive (args : List Term) :
    (exclusive args).value ρ = parity (args.map (value ρ)) := by
  have hkept :
      parity ((((args.filter (· ≠ truth false)).flatMap (argumentsOf .xor)).foldl toggle []).map
        (value ρ)) = parity (args.map (value ρ)) := by
    rw [parity_foldl_toggle, parity_flatMap_argumentsOf, parity_filter]
    simp [parity]
  unfold exclusive
  simp only
  rw [← hkept]
  split
  · rename_i h
    rw [value_complement, value_parityOf, parity_erase ρ h.2, value]
    simp
  · exact value_parityOf ρ _

/-! ## Any operator -/

/-- A term as it is built from outside has the value of its operator. -/
theorem value_ofHead (head : Head) (args : List Term) :
    (ofHead head args).value ρ = head.apply (args.map (value ρ)) := by
  have hchain : ∀ k, (chain k args).value ρ = (chainHead k).apply (args.map (value ρ)) := by
    intro k
    apply k.eq_of_eq_zero_iff
    rw [value_chain, apply_chainHead, List.mem_map]
  cases head with
  | and => exact hchain .product
  | or => exact hchain .sum
  | xor => exact value_exclusive ρ args
  | equivalent =>
    show (sorted .equivalent (distinct args)).value ρ = _
    unfold sorted
    rw [value_app]
    simp only [Head.apply]
    rw [Bool.eq_iff_iff]
    simp [mem_distinct]
  | not | nand | nor | xnor | implies | ite => exact value_app ρ _ args

end Term

end SwitchingAlgebra.Symbolic
