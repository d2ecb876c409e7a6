/-
# Symbolic terms as expressions

Every term of operators over one argument or more is read as a finished tree. Its value is that of
the term, with one exception: a complemented parity of other than two arguments is read like an
equivalence, as saying that all arguments are equal.

* `exprOfHead_eq_ok` is about one operator over any number of expressions;
* `Term.reading` is what a term is read as, `Term.built` the term as it is built from below;
* `toExpr_xnor_evaluates_iff`: for complemented parities of symbols two is the only number that is
  read rightly;
* `toExpr_evaluates` is the theorem for terms of any depth.
-/
import Mathlib.Data.List.Basic
import SwitchingAlgebra.Proofs.Polarity
import SwitchingAlgebra.Proofs.Symbolic.Normal
import SwitchingAlgebra.Proofs.Symbolic.Shape

namespace SwitchingAlgebra.Symbolic

/-! ## Operators that are read -/

/-- The operators that are read, with their numbers of arguments. -/
def Head.Reads : Head → Nat → Prop
  | .not, n => n = 1
  | .implies, n => n = 2
  | .ite, _ => False
  | _, n => 0 < n

/-- The operators that are read as what they are. -/
def Head.ReadsRightly (head : Head) (n : Nat) : Prop :=
  head.Reads n ∧ (head = .xnor → n = 2)

/-- What an operator over a number of arguments is read as. -/
def Head.readAs (head : Head) (n : Nat) : Head :=
  if head = .xnor ∧ n ≠ 2 then .equivalent else head

/-- Arguments that are 0 have an even parity. -/
theorem parity_replicate_false (n : Nat) : parity (List.replicate n false) = false := by
  induction n with
  | zero => rfl
  | succ n ih => simp [List.replicate_succ, parity, ih]

/-- A complemented parity is read as what it is for two arguments only. -/
theorem Head.apply_readAs_xnor_iff {n : Nat} (hn : 0 < n) :
    (∀ xs : List Bool, xs.length = n → (Head.xnor.readAs n).apply xs = Head.xnor.apply xs) ↔
      n = 2 := by
  constructor
  · intro h
    by_contra hne
    have hequivalent : Head.xnor.readAs n = .equivalent := if_pos ⟨rfl, hne⟩
    rw [hequivalent] at h
    match n, hn, hne with
    | 1, _, _ => exact absurd (h [true] rfl) (by decide)
    | n + 3, _, _ =>
      -- two arguments that are 1 beside others that are 0
      have hvalue := h (true :: true :: List.replicate (n + 1) false) (by simp)
      simp [apply, parity, parity_replicate_false, List.replicate_succ] at hvalue
  · rintro rfl xs _
    rfl

/-- Normal forms are read if their arguments are. -/
theorem accepting_reads : Accepting Head.Reads where
  chain k n hn := by cases k <;> exact Nat.lt_of_lt_of_le Nat.two_pos hn
  parity n hn := Nat.lt_of_lt_of_le Nat.two_pos hn
  complement := rfl
  equivalent _ _ hm _ _ := hm

/-- Normal forms are read as what they are if their arguments are. -/
theorem accepting_readsRightly : Accepting Head.ReadsRightly where
  chain k n hn := ⟨accepting_reads.chain k n hn, by cases k <;> exact nofun⟩
  parity n hn := ⟨accepting_reads.parity n hn, nofun⟩
  complement := ⟨rfl, nofun⟩
  equivalent _ _ hm _ _ := ⟨hm, nofun⟩

/-! ## Expressions of operators -/

/-- A tree is finished over names with a property, and its value is a truth function of the values
of expressions. -/
structure Computes (p : String → Prop) (f : List Bool → Bool) (es : List Expr) (e : Expr) :
    Prop where
  finished : e.Over p
  eval : ∀ ρ, e.eval ρ = f (es.map (·.eval ρ))

section Operators

variable {p : String → Prop} {es : List Expr}

/-- Joining at least one expression by the operator of a chain. -/
theorem joinOp_eq_ok (k : Chain) (h : 0 < es.length) : joinOp k.op es = .ok (k.join es) := by
  cases es with
  | nil => exact absurd h (Nat.lt_irrefl 0)
  | cons e es => rfl

/-- A parity grouped to the left. -/
theorem computes_foldl_xor {e : Expr} (h : ∀ t ∈ e :: es, t.Over p) :
    Computes p parity (e :: es) (es.foldl (.bin .xor) e) := by
  induction es generalizing e with
  | nil => exact ⟨h e List.mem_cons_self, fun ρ => by simp [parity]⟩
  | cons t ts ih =>
    obtain ⟨he, hts⟩ := List.forall_mem_cons.mp h
    obtain ⟨ht, hts⟩ := List.forall_mem_cons.mp hts
    have hrest : Computes p parity (.bin .xor e t :: ts) (ts.foldl (.bin .xor) (.bin .xor e t)) :=
      ih (List.forall_mem_cons.mpr ⟨⟨he, ht⟩, hts⟩)
    refine ⟨hrest.finished, fun ρ => (hrest.eval ρ).trans ?_⟩
    simp only [List.map_cons, parity, Expr.eval, Op.apply]
    cases e.eval ρ <;> cases t.eval ρ <;> cases parity (ts.map (·.eval ρ)) <;> rfl

variable (hes : ∀ e ∈ es, e.Over p)
include hes

/-- The chain of expressions. -/
theorem computes_join (k : Chain) : Computes p (chainHead k).apply es (k.join es) where
  finished := Chain.over_join hes
  eval ρ := by
    apply k.eq_of_eq_zero_iff
    rw [Term.apply_chainHead, List.mem_map]
    exact Chain.holds_join

/-- The complement of a chain. -/
theorem computes_complement (k : Chain) :
    Computes p (fun xs => !(chainHead k).apply xs) es (.not (k.join es)) where
  finished := (computes_join hes k).finished
  eval ρ := congrArg (!·) ((computes_join hes k).eval ρ)

/-- The product of all expressions or of all their complements. -/
theorem computes_equivalent :
    Computes p Head.equivalent.apply es
      (.bin .or (Chain.product.join es) (Chain.product.join (es.map .not))) := by
  have hnegated : ∀ e ∈ es.map Expr.not, e.Over p := by
    intro e he
    obtain ⟨t, ht, rfl⟩ := List.mem_map.mp he
    exact hes t ht
  have hall := computes_join hes .product
  have hnone := computes_join hnegated .product
  refine ⟨⟨hall.finished, hnone.finished⟩, fun ρ => ?_⟩
  simp only [Expr.eval, Op.apply, hall.eval, hnone.eval, List.map_map]
  simp [Head.apply, chainHead, Expr.eval, Function.comp_def]

/-- An operator that keeps two arguments under one node. -/
theorem exprOfHead_of_pair (whole : Term) {head : Head} {op : Op} (hlength : es.length = 2)
    (hpair : ∀ l r, exprOfHead whole head [l, r] = .ok (.bin op l r))
    (hop : ∀ x y, op.apply x y = (head.readAs 2).apply [x, y]) :
    ∃ e, exprOfHead whole head es = .ok e ∧ Computes p (head.readAs es.length).apply es e := by
  obtain ⟨l, r, rfl⟩ := List.length_eq_two.mp hlength
  exact ⟨.bin op l r, hpair l r, ⟨hes l (by simp), hes r (by simp)⟩, fun _ => hop _ _⟩

/-- An operator that is read has a tree over any expressions, and computes what the operator is read
as. -/
theorem exprOfHead_eq_ok (whole : Term) {head : Head} (hhead : head.Reads es.length) :
    ∃ e, exprOfHead whole head es = .ok e ∧ Computes p (head.readAs es.length).apply es e := by
  have hnopair : es.length ≠ 2 → ∀ l r, es = [l, r] → False :=
    fun hlength l r heq => hlength (heq ▸ rfl)
  cases head with
  | not =>
    obtain ⟨e, rfl⟩ := List.length_eq_one_iff.mp hhead
    exact ⟨.not e, rfl, hes e List.mem_cons_self, fun _ => rfl⟩
  | and => exact ⟨_, joinOp_eq_ok .product hhead, computes_join hes .product⟩
  | or => exact ⟨_, joinOp_eq_ok .sum hhead, computes_join hes .sum⟩
  | xor =>
    obtain ⟨e, es, rfl⟩ := List.exists_cons_of_length_pos hhead
    exact ⟨_, rfl, computes_foldl_xor hes⟩
  -- two arguments stay under one node, any other number of them is written out
  | nand =>
    by_cases hlength : es.length = 2
    · exact exprOfHead_of_pair hes whole hlength (fun _ _ => rfl) (by decide)
    · have hlong : exprOfHead whole .nand es = (joinOp Chain.product.op es).map .not := by
        rw [exprOfHead, Chain.op]
        exact hnopair hlength
      rw [hlong, joinOp_eq_ok .product hhead]
      exact ⟨_, rfl, computes_complement hes .product⟩
  | nor =>
    by_cases hlength : es.length = 2
    · exact exprOfHead_of_pair hes whole hlength (fun _ _ => rfl) (by decide)
    · have hlong : exprOfHead whole .nor es = (joinOp Chain.sum.op es).map .not := by
        rw [exprOfHead, Chain.op]
        exact hnopair hlength
      rw [hlong, joinOp_eq_ok .sum hhead]
      exact ⟨_, rfl, computes_complement hes .sum⟩
  | xnor =>
    by_cases hlength : es.length = 2
    · exact exprOfHead_of_pair hes whole hlength (fun _ _ => rfl) (by decide)
    · have hread : Head.xnor.readAs es.length = .equivalent := if_pos ⟨rfl, hlength⟩
      rw [hread, exprOfHead]
      · exact ⟨_, rfl, computes_equivalent hes⟩
      · exact hnopair hlength
  | equivalent =>
    by_cases hlength : es.length = 2
    · exact exprOfHead_of_pair hes whole hlength (fun _ _ => rfl) (by decide)
    · rw [exprOfHead]
      · exact ⟨_, rfl, computes_equivalent hes⟩
      · exact hnopair hlength
  | implies =>
    obtain ⟨l, r, rfl⟩ := List.length_eq_two.mp hhead
    exact ⟨.bin .or (.not l) r, rfl, ⟨hes l (by simp), hes r (by simp)⟩, fun ρ => rfl⟩
  | ite => exact hhead.elim

end Operators

namespace Term

variable {p : String → Prop}

/-! ## What is read -/

mutual

/-- The term that a term is read as. -/
def reading : Term → Term
  | truth b => truth b
  | symbol name => symbol name
  | number n => number n
  | app head args => app (head.readAs args.length) (readings args)

/-- The terms that a list of arguments is read as. -/
def readings : List Term → List Term
  | [] => []
  | t :: ts => t.reading :: readings ts

end

mutual

/-- The term built from below, with each operator in the form in which it is built from outside. -/
def built : Term → Term
  | truth b => truth b
  | symbol name => symbol name
  | number n => number n
  | app head args => ofHead head (builtAll args)

/-- The terms built from a list of arguments. -/
def builtAll : List Term → List Term
  | [] => []
  | t :: ts => t.built :: builtAll ts

end

/-- Arguments are read one by one. -/
theorem readings_eq_map (ts : List Term) : readings ts = ts.map reading := by
  induction ts with
  | nil => rfl
  | cons t ts ih => rw [readings, ih, List.map_cons]

/-- Arguments are built one by one. -/
theorem builtAll_eq_map (ts : List Term) : builtAll ts = ts.map built := by
  induction ts with
  | nil => rfl
  | cons t ts ih => rw [builtAll, ih, List.map_cons]

/-- A term whose operators are read as what they are is read as itself. -/
theorem reading_eq_self {t : Term} (h : t.Over Head.ReadsRightly p) : t.reading = t := by
  induction h with
  | truth _ | symbol _ => rfl
  | app hhead _ ih =>
    rw [reading, readings_eq_map, List.map_congr_left ih, List.map_id']
    congr 1
    exact if_neg fun hxnor => hxnor.2 (hhead.2 hxnor.1)

/-- Building a term keeps its shape. -/
theorem Over.built {suits : Head → Nat → Prop} (hsuits : Accepting suits) {t : Term}
    (h : t.Over suits p) : t.built.Over suits p := by
  induction h with
  | truth b => exact .truth b
  | symbol hname => exact .symbol hname
  | app hhead _ ih =>
    rw [Term.built, builtAll_eq_map]
    refine .ofHead hsuits (by rwa [List.length_map]) fun u hu => ?_
    obtain ⟨t, ht, rfl⟩ := List.mem_map.mp hu
    exact ih t ht

/-- Building a term keeps its value. -/
theorem value_built (ρ : String → Bool) {suits : Head → Nat → Prop} {t : Term}
    (h : t.Over suits p) : t.built.value ρ = t.value ρ := by
  induction h with
  | truth _ | symbol _ => rfl
  | app _ _ ih =>
    rw [built, value_ofHead, builtAll_eq_map, List.map_map, value_app]
    exact congrArg _ (List.map_congr_left ih)

/-! ## Reading terms -/

/-- Reading an operator reads its arguments first. -/
theorem toExpr_app {head : Head} (h : head ≠ .ite) (args : List Term) :
    (app head args).toExpr = toExprs args >>= exprOfHead (app head args) head := by
  cases head with
  | ite => exact absurd rfl h
  | _ => rfl

/-- Arguments that are all read. -/
theorem toExprs_eq_ok {args : List Term}
    (h : ∀ t ∈ args, ∃ e, t.toExpr = .ok e ∧ e.Over p ∧ ∀ ρ, e.eval ρ = t.reading.value ρ) :
    ∃ es, toExprs args = .ok es ∧ es.length = args.length ∧ (∀ e ∈ es, e.Over p) ∧
      ∀ ρ, es.map (·.eval ρ) = args.map fun t => t.reading.value ρ := by
  induction args with
  | nil => exact ⟨[], rfl, rfl, nofun, fun _ => rfl⟩
  | cons t ts ih =>
    obtain ⟨e, he, hover, heval⟩ := h t List.mem_cons_self
    obtain ⟨es, hes, hlength, hovers, hevals⟩ := ih fun u hu => h u (List.mem_cons_of_mem t hu)
    refine ⟨e :: es, ?_, by rw [List.length_cons, List.length_cons, hlength], ?_, fun ρ => ?_⟩
    · simp [toExprs, he, hes, bind, Except.bind, pure, Except.pure]
    · exact List.forall_mem_cons.mpr ⟨hover, hovers⟩
    · rw [List.map_cons, List.map_cons, heval, hevals]

/-- A term of operators that are read has a finished tree over its symbols, with the value of what
it is read as. -/
theorem toExpr_eq_ok {t : Term} (h : t.Over Head.Reads p) :
    ∃ e, t.toExpr = .ok e ∧ e.Over p ∧ ∀ ρ, e.eval ρ = t.reading.value ρ := by
  induction h with
  | truth b => exact ⟨.const b, rfl, trivial, fun _ => rfl⟩
  | symbol hname => exact ⟨.var _, rfl, hname, fun _ => rfl⟩
  | @app head args hhead _ ih =>
    obtain ⟨es, hes, hlength, hovers, hevals⟩ := toExprs_eq_ok ih
    obtain ⟨e, he, hcomputes⟩ := exprOfHead_eq_ok hovers (app head args) (hlength ▸ hhead)
    refine ⟨e, ?_, hcomputes.finished, fun ρ => ?_⟩
    · have hne : head ≠ .ite := by
        rintro rfl
        exact hhead
      rw [toExpr_app hne, hes]
      exact he
    · rw [hcomputes.eval ρ, hevals ρ, reading, value_app, readings_eq_map, List.map_map, hlength]
      rfl

/-- A complemented parity of different symbols is read with its value exactly if there are two. -/
theorem toExpr_xnor_evaluates_iff {names : List String} (hnodup : names.Nodup)
    (hpos : 0 < names.length) : (∃ e, (app .xnor (names.map symbol)).toExpr = .ok e ∧
      ∀ ρ, e.evaluate ρ = .ok ((app .xnor (names.map symbol)).value ρ)) ↔ names.length = 2 := by
  have hreads : (app .xnor (names.map symbol)).Over Head.Reads fun _ => True := by
    refine .app (by rwa [List.length_map]) fun t ht => ?_
    obtain ⟨name, _, rfl⟩ := List.mem_map.mp ht
    exact .symbol trivial
  obtain ⟨e, he, hover, heval⟩ := toExpr_eq_ok hreads
  have hread : ∀ ρ, e.evaluate ρ = .ok ((Head.xnor.readAs names.length).apply (names.map ρ)) := by
    intro ρ
    rw [hover.evaluate_eq, heval, reading, value_app, readings_eq_map]
    simp [Function.comp_def, reading, value]
  have hvalue : ∀ ρ, (app .xnor (names.map symbol)).value ρ = Head.xnor.apply (names.map ρ) := by
    intro ρ
    rw [value_app]
    simp [Function.comp_def, value]
  rw [← Head.apply_readAs_xnor_iff hpos]
  constructor
  · rintro ⟨e', he', h⟩ xs hxs
    obtain rfl : e' = e := Except.ok.inj (he'.symm.trans he)
    -- each symbol gets the value at its place
    have hplaces : (names.map fun name => xs.getD (names.idxOf name) false) = xs := by
      refine List.ext_getElem (by rw [List.length_map, hxs]) fun i hi hi' => ?_
      rw [List.getElem_map, List.Nodup.idxOf_getElem hnodup, List.getD_eq_getElem?_getD,
        List.getElem?_eq_getElem hi', Option.getD_some]
    have hboth := h fun name => xs.getD (names.idxOf name) false
    rw [hread, hvalue, hplaces] at hboth
    exact Except.ok.inj hboth
  · intro h
    exact ⟨e, he, fun ρ => by rw [hread, hvalue, h _ (List.length_map _)]⟩

/-- **Reading symbolic terms.** Take a term of true, false, symbols, complements, implications of
two arguments and other operators over one argument or more, and the term as it is or as it is built
from below. It is read as a tree which has under every assignment the value of what the term is read
as; this is the value of the term itself if all of its complemented parities have two arguments. -/
theorem toExpr_evaluates {t s : Term} (h : t.Over Head.Reads fun _ => True)
    (hs : s = t ∨ s = t.built) :
    ∃ e, s.toExpr = .ok e ∧ (∀ ρ, e.evaluate ρ = .ok (s.reading.value ρ)) ∧
      (t.Over Head.ReadsRightly (fun _ => True) → ∀ ρ, e.evaluate ρ = .ok (t.value ρ)) := by
  have hshape : ∀ suits, Accepting suits → (t.Over suits fun _ => True) →
      s.Over suits fun _ => True := by
    intro suits hsuits ht
    rcases hs with rfl | rfl
    · exact ht
    · exact ht.built hsuits
  have hvalue : ∀ ρ, s.value ρ = t.value ρ := by
    intro ρ
    rcases hs with rfl | rfl
    · rfl
    · exact value_built ρ h
  obtain ⟨e, he, hover, heval⟩ := toExpr_eq_ok (hshape _ accepting_reads h)
  refine ⟨e, he, fun ρ => ?_, fun hright ρ => ?_⟩
  · rw [hover.evaluate_eq, heval]
  · rw [hover.evaluate_eq, heval, reading_eq_self (hshape _ accepting_readsRightly hright), hvalue]

/-- A complemented parity of a complemented product of three symbols and of an implication is read
with its value. -/
theorem toExpr_evaluates_of_pair :
    (app .xnor [app .nand [symbol "A", symbol "B", symbol "C"],
      app .implies [symbol "A", truth false]]).Over Head.Reads (fun _ => True) ∧
    ∃ e, (app .xnor [app .nand [symbol "A", symbol "B", symbol "C"],
        app .implies [symbol "A", truth false]]).toExpr = .ok e ∧
      ∀ ρ, e.evaluate ρ = .ok ((!(ρ "A" && ρ "B" && ρ "C")) == (!ρ "A")) := by
  have hright : (app .xnor [app .nand [symbol "A", symbol "B", symbol "C"],
      app .implies [symbol "A", truth false]]).Over Head.ReadsRightly fun _ => True := by
    refine .app ⟨Nat.two_pos, fun _ => rfl⟩ (List.forall_mem_cons.mpr ⟨?_,
      List.forall_mem_singleton.mpr ?_⟩)
    · refine .app ⟨Nat.succ_pos 2, nofun⟩ ?_
      simpa using ⟨.symbol trivial, .symbol trivial, .symbol trivial⟩
    · refine .app ⟨rfl, nofun⟩ ?_
      simpa using ⟨.symbol trivial, .truth false⟩
  have hreads := hright.mono (fun _ _ h => h.1) fun _ h => h
  obtain ⟨e, he, -, hvalue⟩ := toExpr_evaluates hreads (Or.inl rfl)
  refine ⟨hreads, e, he, fun ρ => (hvalue hright ρ).trans (congrArg _ ?_)⟩
  simp only [value, values, Head.apply, parity]
  cases ρ "A" <;> cases ρ "B" <;> cases ρ "C" <;> rfl

/-- A complemented parity of three symbols is not read with its value. -/
theorem not_toExpr_evaluates_of_three :
    (app .xnor [symbol "A", symbol "B", symbol "C"]).Over Head.Reads (fun _ => True) ∧
    ¬ ∃ e, (app .xnor [symbol "A", symbol "B", symbol "C"]).toExpr = .ok e ∧
      ∀ ρ, e.evaluate ρ = .ok ((app .xnor [symbol "A", symbol "B", symbol "C"]).value ρ) := by
  constructor
  · refine .app (Nat.succ_pos 2) ?_
    simpa using ⟨.symbol trivial, .symbol trivial, .symbol trivial⟩
  · have hlength := (@toExpr_xnor_evaluates_iff ["A", "B", "C"] (by decide) (by decide)).mp
    exact fun h => absurd (hlength h) (by decide)

end Term

end SwitchingAlgebra.Symbolic
