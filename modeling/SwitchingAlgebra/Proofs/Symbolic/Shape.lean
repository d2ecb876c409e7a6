/-
# Shapes of symbolic terms

Which operators occur in a term, over how many arguments, and which symbols it has. Bringing terms
into normal form keeps such a shape, because it joins two arguments or more and complements one.

* `Term.Over` holds for terms whose operators suit their numbers of arguments and whose symbols all
  have a property;
* `Accepting` says what a condition on the numbers of arguments must allow, `Over.ofHead` that it is
  then kept;
* `Over.symbols` narrows the property to the symbols that occur.
-/
import SwitchingAlgebra.Proofs.Refinement
import SwitchingAlgebra.Symbolic.Satisfiability

namespace SwitchingAlgebra.Symbolic

/-- A term of operators that suit their numbers of arguments, over symbols with a property. -/
inductive Term.Over (suits : Head → Nat → Prop) (p : String → Prop) : Term → Prop where
  | truth (b : Bool) : Over suits p (.truth b)
  | symbol {name : String} (hname : p name) : Over suits p (.symbol name)
  | app {head : Head} {args : List Term} (hsuits : suits head args.length)
      (hargs : ∀ t ∈ args, Over suits p t) :
    Over suits p (.app head args)

/-- A condition on the numbers of arguments that allows what normal forms are built of. -/
structure Accepting (suits : Head → Nat → Prop) : Prop where
  chain : ∀ k n, 2 ≤ n → suits (chainHead k) n
  parity : ∀ n, 2 ≤ n → suits .xor n
  complement : suits .not 1
  equivalent : ∀ m n, 0 < m → m ≤ n → suits .equivalent n → suits .equivalent m

namespace Term

variable {suits suits' : Head → Nat → Prop} {p q : String → Prop}

/-- Weakening both conditions. -/
theorem Over.mono (hsuits : ∀ head n, suits head n → suits' head n)
    (hpq : ∀ x, p x → q x) {t : Term} (h : t.Over suits p) : t.Over suits' q := by
  induction h with
  | truth b => exact .truth b
  | symbol hname => exact .symbol (hpq _ hname)
  | app hhead _ ih => exact .app (hsuits _ _ hhead) ih

/-! ## Normal forms -/

/-- The arguments that a term gives to an operator. -/
theorem Over.of_mem_argumentsOf {head : Head} {t u : Term} (h : t.Over suits p)
    (hu : u ∈ argumentsOf head t) : u.Over suits p := by
  unfold argumentsOf at hu
  split at hu
  · split at hu
    · cases h with
      | app _ hargs => exact hargs u hu
    · rwa [List.mem_singleton.mp hu]
  · rwa [List.mem_singleton.mp hu]

theorem Over.sorted {head : Head} {args : List Term} (hhead : suits head args.length)
    (h : ∀ t ∈ args, t.Over suits p) : (sorted head args).Over suits p :=
  .app (by rwa [List.length_mergeSort]) fun t ht => h t (List.mem_mergeSort.mp ht)

/-- A complement in normal form. -/
theorem Over.complement (hsuits : Accepting suits) {t : Term} (h : t.Over suits p) :
    (complement t).Over suits p := by
  unfold Term.complement
  split
  · exact .truth _
  · cases h with
    | app _ hargs => exact hargs _ (List.mem_singleton.mpr rfl)
  · exact .app hsuits.complement fun u hu => by rwa [List.mem_singleton.mp hu]

/-- A chain in normal form. -/
theorem Over.chain (hsuits : Accepting suits) (k : Chain) {args : List Term}
    (h : ∀ t ∈ args, t.Over suits p) : (chain k args).Over suits p := by
  have hkept :
      ∀ t ∈ distinct ((args.filter (· ≠ .truth k.unit)).flatMap (argumentsOf (chainHead k))),
        t.Over suits p := by
    intro t ht
    obtain ⟨u, hu, htu⟩ := List.mem_flatMap.mp (mem_distinct.mp ht)
    exact (h u (List.mem_filter.mp hu).1).of_mem_argumentsOf htu
  unfold Term.chain
  split
  · exact .truth _
  · generalize distinct ((args.filter (· ≠ .truth k.unit)).flatMap (argumentsOf (chainHead k)))
      = kept at hkept
    match kept with
    | [] => exact .truth _
    | [t] => exact hkept t (List.mem_singleton.mpr rfl)
    | _ :: _ :: _ => exact .sorted (hsuits.chain k _ (by simp)) hkept

/-- The arguments of a parity come from what is toggled. -/
theorem mem_foldl_toggle {t : Term} (kept args : List Term) (ht : t ∈ args.foldl toggle kept) :
    t ∈ kept ∨ t ∈ args := by
  induction args generalizing kept with
  | nil => exact Or.inl ht
  | cons u us ih =>
    rcases ih (toggle kept u) ht with hmem | hmem
    · unfold toggle at hmem
      split at hmem
      · exact Or.inl (List.mem_of_mem_erase hmem)
      · rcases List.mem_append.mp hmem with hmem | hmem
        · exact Or.inl hmem
        · exact Or.inr (by rw [List.mem_singleton.mp hmem]; exact List.mem_cons_self)
    · exact Or.inr (List.mem_cons_of_mem u hmem)

/-- A parity of arguments that are put together. -/
theorem Over.parityOf (hsuits : Accepting suits) {kept : List Term}
    (h : ∀ t ∈ kept, t.Over suits p) : (parityOf kept).Over suits p := by
  match kept with
  | [] => exact .truth false
  | [t] => exact h t (List.mem_singleton.mpr rfl)
  | _ :: _ :: _ => exact .sorted (hsuits.parity _ (by simp)) h

/-- A parity in normal form. -/
theorem Over.exclusive (hsuits : Accepting suits) {args : List Term}
    (h : ∀ t ∈ args, t.Over suits p) : (exclusive args).Over suits p := by
  have hkept : ∀ t ∈ ((args.filter (· ≠ .truth false)).flatMap (argumentsOf .xor)).foldl toggle [],
      t.Over suits p := by
    intro t ht
    obtain ⟨u, hu, htu⟩ :=
      List.mem_flatMap.mp ((mem_foldl_toggle _ _ ht).resolve_left List.not_mem_nil)
    exact (h u (List.mem_filter.mp hu).1).of_mem_argumentsOf htu
  unfold Term.exclusive
  simp only
  split
  · exact (Over.parityOf hsuits fun t ht => hkept t (List.mem_of_mem_erase ht)).complement hsuits
  · exact Over.parityOf hsuits hkept

/-- A term as it is built from outside. -/
theorem Over.ofHead (hsuits : Accepting suits) {head : Head} {args : List Term}
    (hhead : suits head args.length) (h : ∀ t ∈ args, t.Over suits p) :
    (ofHead head args).Over suits p := by
  cases head with
  | and => exact Over.chain hsuits .product h
  | or => exact Over.chain hsuits .sum h
  | xor => exact Over.exclusive hsuits h
  | equivalent =>
    refine .sorted ?_ fun t ht => h t (mem_distinct.mp ht)
    cases args with
    | nil => exact hhead
    | cons t ts =>
      exact hsuits.equivalent _ _ (by simp [distinct]) (sublist_distinct _).length_le hhead
  | not | nand | nor | xnor | implies | ite => exact .app hhead h

/-! ## Symbols -/

mutual

/-- Collecting the symbols of a term keeps what was found before. -/
theorem mem_symbolsOnto {x : String} : ∀ (t : Term) (found : List String),
    x ∈ t.symbolsOnto found ↔ x ∈ found ∨ x ∈ t.symbols
  | truth _, _ | number _, _ => by simp [symbols, symbolsOnto]
  | symbol _, _ => by simp [symbols, symbolsOnto, Expr.mem_insertName, or_comm]
  | app _ args, found => by
    unfold symbols
    rw [symbolsOnto, symbolsOnto, mem_symbolsOntoAll args found, mem_symbolsOntoAll args []]
    simp

/-- Collecting the symbols of a list of terms keeps what was found before. -/
theorem mem_symbolsOntoAll {x : String} : ∀ (ts : List Term) (found : List String),
    x ∈ symbolsOntoAll ts found ↔ x ∈ found ∨ ∃ t ∈ ts, x ∈ t.symbols
  | [], _ => by simp [symbolsOntoAll]
  | t :: ts, found => by
    rw [symbolsOntoAll, mem_symbolsOntoAll ts, mem_symbolsOnto t found]
    simp [or_assoc]

end

@[simp] theorem mem_symbols_symbol {x name : String} : x ∈ (symbol name).symbols ↔ x = name := by
  simp [symbols, symbolsOnto, Expr.insertName]

/-- An operator has the symbols of all of its arguments. -/
@[simp] theorem mem_symbols_app {x : String} {head : Head} {args : List Term} :
    x ∈ (app head args).symbols ↔ ∃ t ∈ args, x ∈ t.symbols := by
  unfold symbols
  rw [symbolsOnto, mem_symbolsOntoAll]
  simp [symbols]

/-- Every symbol of a term has the property. -/
theorem Over.of_mem_symbols {t : Term} (h : t.Over suits p) {x : String} (hx : x ∈ t.symbols) :
    p x := by
  induction h with
  | truth _ => exact absurd hx (by simp [symbols, symbolsOnto])
  | symbol hname => rwa [mem_symbols_symbol.mp hx]
  | app _ _ ih =>
    obtain ⟨t, ht, hxt⟩ := mem_symbols_app.mp hx
    exact ih t ht hxt

/-- A term is over its own symbols. -/
theorem Over.symbols {t : Term} (h : t.Over suits p) : t.Over suits (· ∈ t.symbols) := by
  induction h with
  | truth b => exact .truth b
  | symbol _ => exact .symbol (mem_symbols_symbol.mpr rfl)
  | app hhead _ ih =>
    exact .app hhead fun t ht => (ih t ht).mono (fun _ _ h => h) fun x hx =>
      mem_symbols_app.mpr ⟨t, ht, hx⟩

end Term

end SwitchingAlgebra.Symbolic
