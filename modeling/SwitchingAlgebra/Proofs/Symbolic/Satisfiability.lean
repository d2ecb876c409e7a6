/-
# Satisfiability is decided

Giving a value to a symbol gives the term the value that it has where the symbol has that value, so
splitting over all symbols of a term meets all of its values.

* `value_assign` is about one assignment, `isSatisfiableOver_iff` about the splitting over a list of
  symbols;
* `isSatisfiable_iff`: the decision is right for every term.
-/
import SwitchingAlgebra.Proofs.Symbolic.Normal
import SwitchingAlgebra.Proofs.Symbolic.Shape

namespace SwitchingAlgebra.Symbolic.Term

/-! ## Assigned values -/

/-- The values of an assignment, and other values for the names that it does not list. -/
def overridden (a : Assignment) (ρ : String → Bool) (name : String) : Bool :=
  (lastValue? name a).getD (ρ name)

variable (a : Assignment) (ρ : String → Bool)

/-- An operator over assigned arguments has the value of the operator. -/
theorem value_assign_app (head : Head) (args : List Term) :
    ((app head args).assign a).value ρ = head.apply (values ρ (assignAll a args)) := by
  unfold assign
  split
  · exact nomatch ‹app head args = truth _›
  · exact nomatch ‹app head args = symbol _›
  · exact nomatch ‹app head args = number _›
  · rename_i t heq
    cases heq
    rw [value_complement, assignAll, assignAll]
    simp [values, Head.apply]
  · rename_i heq
    cases heq
    rw [value_ofHead, values_eq_map]

mutual

/-- An assigned term has the value that the term has under the assignment. -/
theorem value_assign : ∀ t : Term, (t.assign a).value ρ = t.value (overridden a ρ)
  | truth b => by rw [assign, value, value]
  | number n => by rw [assign, value, value]
  | symbol name => by
    unfold assign overridden
    cases h : lastValue? name a with
    | none => simp [value, h]
    | some b => simp [value, h]
  | app head args => by rw [value_assign_app, values_assignAll args, value]

/-- Assigned arguments have the values that the arguments have under the assignment. -/
theorem values_assignAll : ∀ ts : List Term, values ρ (assignAll a ts) = values (overridden a ρ) ts
  | [] => by rw [assignAll, values, values]
  | t :: ts => by rw [assignAll, values, values, value_assign t, values_assignAll ts]

end

/-! ## Symbols -/

variable {ρ} {σ : String → Bool}

mutual

/-- The value of a term depends on the values of its symbols only. -/
theorem value_congr : ∀ t : Term, (∀ x ∈ t.symbols, ρ x = σ x) → t.value ρ = t.value σ
  | truth _, _ | number _, _ => by rw [value, value]
  | symbol name, h => by
    rw [value, value]
    exact h name (mem_symbols_symbol.mpr rfl)
  | app head args, h => by
    rw [value, value, values_congr args fun t ht x hx => h x (mem_symbols_app.mpr ⟨t, ht, hx⟩)]

/-- The values of a list of terms depend on the values of their symbols only. -/
theorem values_congr :
    ∀ ts : List Term, (∀ t ∈ ts, ∀ x ∈ t.symbols, ρ x = σ x) → values ρ ts = values σ ts
  | [], _ => by rw [values, values]
  | t :: ts, h => by
    rw [values, values, value_congr t (h t List.mem_cons_self),
      values_congr ts fun u hu => h u (List.mem_cons_of_mem t hu)]

end

/-! ## Splitting -/

/-- All names that are not listed read 0. -/
def ZeroOutside (names : List String) (ρ : String → Bool) : Prop :=
  ∀ x, x ∉ names → ρ x = false

/-- Splitting over one symbol meets the values that have it as a further name. -/
theorem exists_assign_iff (name : String) (names : List String) (t : Term) :
    (∃ b, ∃ ρ, ZeroOutside names ρ ∧ (t.assign [(name, b)]).value ρ = true) ↔
      ∃ ρ, ZeroOutside (name :: names) ρ ∧ t.value ρ = true := by
  constructor
  · rintro ⟨b, ρ, hρ, hvalue⟩
    rw [value_assign] at hvalue
    refine ⟨overridden [(name, b)] ρ, fun x hx => ?_, hvalue⟩
    obtain ⟨hne, hx⟩ := List.ne_and_not_mem_of_not_mem_cons hx
    simp [overridden, lastValue?, Ne.symm hne, hρ x hx]
  · -- the symbol gets the value that it has, and may then read 0 itself
    rintro ⟨ρ, hρ, hvalue⟩
    refine ⟨ρ name, fun x => if x ∈ names then ρ x else false, fun x hx => if_neg hx, ?_⟩
    rw [value_assign, ← hvalue]
    congr 1
    funext x
    unfold overridden lastValue? lastValue?
    by_cases hname : name = x
    · simp [hname]
    · by_cases hx : x ∈ names
      · simp [hname, hx]
      · simp [hname, hx, hρ x (List.not_mem_cons_of_ne_of_not_mem (Ne.symm hname) hx)]

/-- Splitting over a list of symbols meets the values under which all other symbols are 0. -/
theorem isSatisfiableOver_iff (names : List String) (t : Term) :
    isSatisfiableOver names t = true ↔ ∃ ρ, ZeroOutside names ρ ∧ t.value ρ = true := by
  induction names generalizing t with
  | nil =>
    unfold isSatisfiableOver
    constructor
    · exact fun h => ⟨fun _ => false, fun _ _ => rfl, h⟩
    · rintro ⟨ρ, hρ, hvalue⟩
      rwa [show ρ = fun _ => false from funext fun x => hρ x List.not_mem_nil] at hvalue
  | cons name names ih =>
    unfold isSatisfiableOver
    split
    · -- what is decided has its value under all values of the symbols
      rename_i b
      simp only [value]
      exact ⟨fun h => ⟨fun _ => false, fun _ _ => rfl, h⟩, fun ⟨_, _, h⟩ => h⟩
    · rw [Bool.or_eq_true, ih, ih, ← exists_assign_iff, Bool.exists_bool]

/-- A term is found satisfiable exactly if some values make it true. -/
theorem isSatisfiable_iff (t : Term) : isSatisfiable t = true ↔ ∃ ρ, t.value ρ = true := by
  unfold isSatisfiable
  rw [isSatisfiableOver_iff]
  constructor
  · exact fun ⟨ρ, _, hvalue⟩ => ⟨ρ, hvalue⟩
  · rintro ⟨ρ, hvalue⟩
    refine ⟨fun x => if x ∈ t.symbols then ρ x else false, fun x hx => if_neg hx, ?_⟩
    rw [← hvalue]
    exact value_congr t fun x hx => if_pos hx

end SwitchingAlgebra.Symbolic.Term
