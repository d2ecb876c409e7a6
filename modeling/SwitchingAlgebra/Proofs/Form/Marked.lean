/-
# Reading sums of products back

The text of a sum of products has no signs for products, so letters that stand next to each other
may spell a word of the reader. Nothing else stands in the way: the text is read back, and as a tree
with the same value.

* `exists_markedProduct`, `exists_markedText`: the text of a product and of a sum, with the factors
  it is made of;
* `markedText_readable` says when the text is read, and when as what was written;
* `markedText_misread` has products that are not.
-/
import SwitchingAlgebra.Form.Marked
import SwitchingAlgebra.Proofs.Formula.Sums
import SwitchingAlgebra.Proofs.Polarity

namespace SwitchingAlgebra

open Formula

/-- The tree is a sum of products of literals and truth values, where a single operand is a sum or
product too. -/
def Expr.IsSumOfProducts (e : Expr) : Prop :=
  ∀ t ∈ e.operands .or, ∀ f ∈ t.operands .and, f.isLiteral = true ∨ ∃ b, f = .const b

/-! ## What is written -/

/-- A literal of a capital letter and a truth value are written as factors. -/
theorem exists_markedLiteral {f : Expr} (hf : f.isLiteral = true ∨ ∃ b, f = .const b)
    (hover : f.Over IsCapital) : ∃ text, markedLiteral f = .ok text ∧ Factor f text.toList := by
  rcases hf with hliteral | ⟨b, rfl⟩
  · unfold Expr.isLiteral at hliteral
    split at hliteral
    · obtain ⟨c, hc, rfl⟩ := hover
      exact ⟨_, rfl, by simpa using Factor.letter hc⟩
    · obtain ⟨c, hc, rfl⟩ := hover
      exact ⟨_, rfl, by simpa [mark] using (Factor.letter hc).marked⟩
    · cases hliteral
  · cases b
    · exact ⟨"0", rfl, Factor.digit false⟩
    · exact ⟨"1", rfl, Factor.digit true⟩

/-- The text of a product of these factors, in their order. -/
def factorsText (factors : List Expr) : Except Fault String := do
  let pieces ← (factors.filter (· ≠ .const true)).mapM markedLiteral
  let text := String.join pieces
  return if text = "" then "1" else text

/-- The variable of the first factor is listed no later than that of the second one. -/
def listedBefore (names : List String) (x y : Expr) : Bool :=
  nameRank names (literalName x) ≤ nameRank names (literalName y)

/-- The factors of a product are put into the order of the variables. -/
theorem markedProduct_eq (names : List String) (t : Expr) :
    markedProduct names t = factorsText ((t.operands .and).mergeSort (listedBefore names)) :=
  rfl

/-- Factors are written one behind the other without the ones, or as a single one. -/
theorem exists_factorsText {factors : List Expr}
    (hfactors : ∀ f ∈ factors, f.isLiteral = true ∨ ∃ b, f = .const b)
    (hover : ∀ f ∈ factors, f.Over IsCapital) :
    ∃ text kept, factorsText factors = .ok text ∧ Juxtaposed kept text.toList ∧
      ∀ ρ, (Chain.product.join kept).eval ρ = (Chain.product.join factors).eval ρ := by
  have hmem : ∀ {f}, f ∈ factors.filter (· ≠ .const true) ↔ f ∈ factors ∧ f ≠ .const true := by simp
  have hvalue : ∀ ρ, (Chain.product.join (factors.filter (· ≠ .const true))).eval ρ =
      (Chain.product.join factors).eval ρ := by
    intro ρ
    rw [Chain.eval_eq_iff_holds .product, Chain.holds_join, Chain.holds_join]
    constructor
    · rintro ⟨f, hf, hholds⟩
      exact ⟨f, (hmem.mp hf).1, hholds⟩
    · rintro ⟨f, hf, hholds⟩
      refine ⟨f, hmem.mpr ⟨hf, ?_⟩, hholds⟩
      rintro rfl
      exact Chain.not_holds_unit hholds
  have hwritten : ∀ f ∈ factors.filter (· ≠ .const true), ∃ text, markedLiteral f = .ok text ∧
      Factor f text.toList :=
    fun f hf => exists_markedLiteral (hfactors f (hmem.mp hf).1) (hover f (hmem.mp hf).1)
  unfold factorsText
  generalize factors.filter (· ≠ .const true) = kept at hvalue hwritten
  choose! piece hpiece using hwritten
  have hpieces : kept.mapM markedLiteral = .ok (kept.map piece) :=
    mapM_eq_ok_map fun f hf => (hpiece f hf).1
  rw [hpieces]
  by_cases hne : kept = []
  · subst hne
    exact ⟨"1", [.const true], rfl,
      ⟨List.cons_ne_nil _ _, _, List.Forall₂.cons (Factor.digit true) .nil, rfl⟩, hvalue⟩
  · have hjuxtaposed : Juxtaposed kept (String.join (kept.map piece)).toList := by
      refine ⟨hne, kept.map fun f => (piece f).toList, ?_, ?_⟩
      · rw [List.forall₂_map_right_iff, List.forall₂_same]
        exact fun f hf => (hpiece f hf).2
      · rw [String.toList_join, List.flatMap_map]
        rfl
    refine ⟨_, kept, rfl, ?_, hvalue⟩
    rwa [if_neg (mt String.toList_eq_nil_iff.mpr hjuxtaposed.markedRuns.1)]

/-- A product is written as factors one behind the other that have the same value. -/
theorem exists_markedProduct (names : List String) {t : Expr}
    (ht : ∀ f ∈ t.operands .and, f.isLiteral = true ∨ ∃ b, f = .const b)
    (hover : t.Over IsCapital) :
    ∃ text factors, markedProduct names t = .ok text ∧ Juxtaposed factors text.toList ∧
      ∀ ρ, (Chain.product.join factors).eval ρ = t.eval ρ := by
  have hmem : ∀ {f}, f ∈ (t.operands .and).mergeSort (listedBefore names) ↔ f ∈ t.operands .and :=
    List.mem_mergeSort
  obtain ⟨text, kept, hwritten, hkept, hvalue⟩ := exists_factorsText (fun f hf => ht f (hmem.mp hf))
    fun f hf => Chain.over_of_mem_operands hover (hmem.mp hf)
  refine ⟨text, kept, hwritten, hkept, fun ρ => (hvalue ρ).trans ?_⟩
  rw [Chain.eval_eq_iff_holds .product, Chain.holds_join, Chain.holds_iff_operands (e := t)]
  exact exists_congr fun f => and_congr_left' hmem

/-- Truth values are written like other sums. -/
theorem markedText_eq (names : List String) (e : Expr) :
    markedText names e = ((e.operands .or).mapM (markedProduct names)).map
      (" + ".intercalate ·) := by
  cases e with
  | const b =>
    have hoperands : ∀ op, (Expr.const b).operands op = [.const b] := fun op => rfl
    have hproduct : markedProduct names (.const b) = .ok (if b then "1" else "0") := by
      simp only [markedProduct, hoperands, List.mergeSort_singleton]
      cases b <;> rfl
    rw [hoperands, List.mapM_cons, hproduct]
    cases b <;> rfl
  | _ => rfl

/-- Factors that stand in the order of the variables already are written as they stand. -/
theorem markedText_of_pairwise {names : List String} {e : Expr}
    (h : ∀ t ∈ e.operands .or,
      (t.operands .and).Pairwise fun x y => listedBefore names x y = true) :
    markedText names e = ((e.operands .or).mapM fun t => factorsText (t.operands .and)).map
      (" + ".intercalate ·) := by
  have hproduct : ∀ t ∈ e.operands .or,
      markedProduct names t = factorsText (t.operands .and) := fun t ht => by
    rw [markedProduct_eq, List.mergeSort_of_pairwise (h t ht)]
  rw [markedText_eq, mapM_congr hproduct]

/-- A sum of products is written as the sum of its products. -/
theorem exists_markedText (names : List String) {e : Expr} (he : e.IsSumOfProducts)
    (hover : e.Over IsCapital) :
    ∃ text ps terms, markedText names e = .ok text ∧ text.toList = sumText ps ∧ terms ≠ [] ∧
      List.Forall₂ Juxtaposed terms ps ∧
      ∀ ρ, (Chain.sum.join (terms.map Chain.product.join)).eval ρ = e.eval ρ := by
  have hwritten : ∀ t ∈ e.operands .or, ∃ text factors, markedProduct names t = .ok text ∧
      Juxtaposed factors text.toList ∧
      ∀ ρ, (Chain.product.join factors).eval ρ = t.eval ρ := fun t ht =>
    exists_markedProduct names (he t ht) (Chain.over_of_mem_operands hover ht)
  choose! product factors hproduct using hwritten
  have hproducts :
      (e.operands .or).mapM (markedProduct names) = .ok ((e.operands .or).map product) :=
    mapM_eq_ok_map fun t ht => (hproduct t ht).1
  refine ⟨" + ".intercalate ((e.operands .or).map product),
    (e.operands .or).map fun t => (product t).toList, (e.operands .or).map factors, ?_, ?_, ?_, ?_,
    fun ρ => ?_⟩
  · rw [markedText_eq, hproducts]
    rfl
  · rw [String.toList_intercalate, List.map_map]
    rfl
  · simpa using Chain.operands_ne_nil .or e
  · rw [List.forall₂_map_left_iff, List.forall₂_map_right_iff, List.forall₂_same]
    exact fun t ht => (hproduct t ht).2.1
  · have hholds : ∀ t ∈ e.operands .or, Chain.sum.Holds ρ (Chain.product.join (factors t)) ↔
        Chain.sum.Holds ρ t :=
      fun t ht => (Chain.eval_eq_iff_holds .sum).mp ((hproduct t ht).2.2 ρ)
    rw [Chain.eval_eq_iff_holds .sum, Chain.holds_join, Chain.holds_iff_operands (e := e)]
    simp only [List.map_map, List.mem_map, Function.comp_apply, exists_exists_and_eq_and]
    exact exists_congr fun t => and_congr_right (hholds t)

/-! ## What is read -/

/-- **Sums of products are read back.** A sum of products of literals of capital letters and truth
values has a text, whatever variables are listed. The text is read exactly if no reserved word
occurs in it and no run of letters between its marks, blanks and ends is a word for an operator. If
moreover no such run is a word for a truth value, what is read agrees with what was written. -/
theorem markedText_readable (names : List String) {e : Expr} (he : e.WellFormed)
    (hnames : ∀ name ∈ e.names, IsCapital name) (hsum : e.IsSumOfProducts) :
    ∃ text, markedText names e = .ok text ∧
      ((∃ t, Expr.parse text = .ok t) ↔
        reservedWord? text.toList = none ∧ FreeOfOperators text.toList) ∧
      (reservedWord? text.toList = none → FreeOfWords text.toList →
        ∃ t, Expr.parse text = .ok t ∧ t.Agrees e) := by
  have hover : e.Over IsCapital := Expr.over_isCapital_iff.mpr ⟨he, hnames⟩
  obtain ⟨text, ps, terms, hwritten, htext, hne, hterms, hvalue⟩ :=
    exists_markedText names hsum hover
  obtain ⟨hne', hps⟩ := forall_markedRuns hne hterms
  refine ⟨text, hwritten, exists_parse_sumText_iff htext hne' hps, fun hreserved hfree => ?_⟩
  have hread := parse_sumText htext hne hterms hreserved hfree
  have hread' := (Expr.over_isCapital_iff.mp (Expr.over_of_parse hread)).1
  exact ⟨_, hread, Expr.agrees_of_eval hread' he hvalue⟩

/-- A sum with a one and a zero among its factors. -/
theorem markedText_readable_of_ones :
    let e := Expr.bin .or (.bin .and (.bin .and (.not (.var "A")) (.var "B")) (.const true))
      (.bin .and (.var "C") (.const false))
    e.WellFormed ∧ (∀ name ∈ e.names, IsCapital name) ∧ e.IsSumOfProducts ∧
      markedText ["A", "B", "C"] e = .ok "A'B + C0" ∧ ∃ t, Expr.parse "A'B + C0" = .ok t ∧
      t.Agrees e := by
  intro e
  have hA : IsCapital "A" := ⟨'A', rfl, rfl⟩
  have hB : IsCapital "B" := ⟨'B', rfl, rfl⟩
  have hC : IsCapital "C" := ⟨'C', rfl, rfl⟩
  have hover : e.Over IsCapital := ⟨⟨⟨hA, hB⟩, trivial⟩, hC, trivial⟩
  obtain ⟨he, hnames⟩ := Expr.over_isCapital_iff.mp hover
  have hsum : e.IsSumOfProducts := by
    simp [e, Expr.IsSumOfProducts, Expr.operands, Expr.operandsOnto, Expr.isLiteral]
  have hwritten : markedText ["A", "B", "C"] e = .ok "A'B + C0" :=
    markedText_of_pairwise (by decide)
  obtain ⟨text, htext, -, hread⟩ := markedText_readable ["A", "B", "C"] he hnames hsum
  obtain rfl := Except.ok.inj (htext.symm.trans hwritten)
  exact ⟨he, hnames, hsum, hwritten, hread (by decide) (by decide)⟩

/-- Letters of a product that spell a word for an operator are not read at all, and letters that
spell a word for a truth value are read as that. -/
theorem markedText_misread :
    let sum := Expr.bin .and (.var "O") (.var "R")
    let truth := Expr.bin .and (.bin .and (.bin .and (.var "T") (.var "R")) (.var "U")) (.var "E")
    (sum.WellFormed ∧ sum.IsSumOfProducts ∧
      (∀ name ∈ sum.names, IsCapital name ∧ name ∈ ["O", "R"]) ∧
      markedText ["O", "R"] sum = .ok "OR" ∧ ∀ t, Expr.parse "OR" ≠ .ok t) ∧
    truth.WellFormed ∧ truth.IsSumOfProducts ∧
      (∀ name ∈ truth.names, IsCapital name ∧ name ∈ ["T", "R", "U", "E"]) ∧
      markedText ["T", "R", "U", "E"] truth = .ok "TRUE" ∧ Expr.parse "TRUE" = .ok (.const true) ∧
      ¬ (Expr.const true).Agrees truth := by
  intro sum truth
  have hO : IsCapital "O" := ⟨'O', rfl, rfl⟩
  have hR : IsCapital "R" := ⟨'R', rfl, rfl⟩
  have hT : IsCapital "T" := ⟨'T', rfl, rfl⟩
  have hU : IsCapital "U" := ⟨'U', rfl, rfl⟩
  have hE : IsCapital "E" := ⟨'E', rfl, rfl⟩
  have hover : sum.Over IsCapital := ⟨hO, hR⟩
  have hover' : truth.Over IsCapital := ⟨⟨⟨hT, hR⟩, hU⟩, hE⟩
  obtain ⟨hwell, hnames⟩ := Expr.over_isCapital_iff.mp hover
  obtain ⟨hwell', hnames'⟩ := Expr.over_isCapital_iff.mp hover'
  have hlisted : sum.names ⊆ ["O", "R"] := by decide
  have hlisted' : truth.names ⊆ ["T", "R", "U", "E"] := by decide
  have hproduct : sum.IsSumOfProducts ∧ truth.IsSumOfProducts := by
    simp [sum, truth, Expr.IsSumOfProducts, Expr.operands, Expr.operandsOnto, Expr.isLiteral]
  have herror :
      Expr.parse "OR" = .error (.unreadable (.missingLeft '+') (some "+") (some "+")) := by decide
  have hwritten : markedText ["O", "R"] sum = .ok "OR" := markedText_of_pairwise (by decide)
  have hwritten' : markedText ["T", "R", "U", "E"] truth = .ok "TRUE" :=
    markedText_of_pairwise (by decide)
  refine ⟨⟨hwell, hproduct.1, fun name hname => ⟨hnames name hname, hlisted hname⟩, hwritten,
    fun t ht => ?_⟩, hwell', hproduct.2, fun name hname => ⟨hnames' name hname, hlisted' hname⟩,
    hwritten', by decide, fun h => ?_⟩
  · cases herror.symm.trans ht
  · obtain ⟨b, hone, hzero⟩ := h fun _ => false
    exact absurd (hone.trans hzero.symm) (by decide)

end SwitchingAlgebra
