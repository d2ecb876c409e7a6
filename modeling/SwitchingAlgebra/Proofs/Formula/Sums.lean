/-
# Sums of products without signs

A product without signs puts its factors one behind the other, and a sum of such products puts the
sign of sums between them. Neither needs brackets, so what the text stands for is known from its
factors alone.

* `Factor` are the texts of single factors, `Juxtaposed` those of products;
* `exists_marked_join`: a chain of marked texts is a marked text of the chain;
* `exists_parse_sumText_iff` says which sums of products are read, `parse_sumText` as which tree.
-/
import SwitchingAlgebra.Expr.Chain
import SwitchingAlgebra.Proofs.Formula.Marks
import SwitchingAlgebra.Proofs.Formula.Words

namespace SwitchingAlgebra

/-- The sign between the operands of a chain; products have none. -/
def Chain.separator : Chain → List Char
  | sum => ['+']
  | product => []

namespace Formula

/-! ## Chains -/

/-- A separator stands before each text but the first. -/
theorem intercalate_cons (separator text : List Char) (texts : List (List Char)) :
    separator.intercalate (text :: texts) = text ++ texts.flatMap (separator ++ ·) := by
  induction texts generalizing text with
  | nil => simp
  | cons next texts ih =>
    rw [List.intercalate_cons_cons, ih, List.flatMap_cons, List.append_assoc, List.append_assoc]

/-- Operands that bind tightly enough need no brackets in a chain. -/
theorem exists_marked_bin (k : Chain) {l r : Expr} {m n : Bool}
    {left left' right right' : List Char} (hl : Marked l m left left')
    (hr : Marked r n right right') (hleft : k.op.binding ≤ l.binding)
    (hright : k.op.binding < r.binding) :
    ∃ resolved, Marked (.bin k.op l r) false (left ++ (k.separator ++ right)) resolved := by
  have hl' : decide (l.binding < k.op.binding) = false := decide_eq_false (Nat.not_lt.mpr hleft)
  have hr' : decide (r.binding ≤ k.op.binding) = false := decide_eq_false (Nat.not_le.mpr hright)
  cases k with
  | sum =>
    have hbin := Marked.operator Op.or hl hr
    rw [show decide (l.binding < Op.or.binding) = false from hl',
      show decide (r.binding ≤ Op.or.binding) = false from hr'] at hbin
    exact ⟨_, hbin⟩
  | product =>
    have hbin := Marked.product hl hr
    rw [show decide (l.binding < Op.and.binding) = false from hl',
      show decide (r.binding ≤ Op.and.binding) = false from hr'] at hbin
    exact ⟨_, hbin⟩

/-- The text is a marked one of a tree that needs no brackets as a right operand in the chain. -/
def MarkedOperand (k : Chain) (e : Expr) (text : List Char) : Prop :=
  k.op.binding < e.binding ∧ ∃ m resolved, Marked e m text resolved

/-- A chain goes on with more operands. -/
theorem exists_marked_foldl {k : Chain} {e : Expr} {m : Bool} {text resolved : List Char}
    (he : Marked e m text resolved) (hbinding : k.op.binding ≤ e.binding) {es : List Expr}
    {texts : List (List Char)} (h : List.Forall₂ (MarkedOperand k) es texts) :
    k.op.binding ≤ (es.foldl (.bin k.op) e).binding ∧
      ∃ m resolved, Marked (es.foldl (.bin k.op) e) m (text ++ texts.flatMap (k.separator ++ ·))
      resolved := by
  induction h generalizing e m text resolved with
  | nil =>
    rw [List.flatMap_nil, List.append_nil]
    exact ⟨hbinding, m, resolved, he⟩
  | cons hfirst _ ih =>
    obtain ⟨hlt, n, resolved', hmarked⟩ := hfirst
    obtain ⟨resolved'', hbin⟩ := exists_marked_bin k he hmarked hbinding hlt
    have hrest := ih hbin (Nat.le_refl _)
    rwa [List.append_assoc, ← List.flatMap_cons] at hrest

/-- A chain of marked texts is a marked text of the chain. -/
theorem exists_marked_join {k : Chain} {es : List Expr} {texts : List (List Char)} (hne : es ≠ [])
    (h : List.Forall₂ (MarkedOperand k) es texts) :
    k.op.binding ≤ (k.join es).binding ∧
      ∃ m resolved, Marked (k.join es) m (k.separator.intercalate texts) resolved := by
  cases h with
  | nil => exact absurd rfl hne
  | cons hfirst hrest =>
    obtain ⟨hlt, m, resolved, hmarked⟩ := hfirst
    rw [intercalate_cons]
    exact exists_marked_foldl hmarked (Nat.le_of_lt hlt) hrest

/-! ## Products -/

/-- The text of a factor: a letter, a digit, or one of them with a mark behind it. -/
inductive Factor : Expr → List Char → Prop where
  | letter {c : Char} (h : c.isUpper = true) : Factor (.var c.toString) [c]
  | digit (b : Bool) : Factor (.const b) [if b then '1' else '0']
  | marked {e : Expr} {c : Char} (h : Factor e [c]) : Factor (.not e) [c, mark]

/-- Every letter or digit is a factor. -/
theorem IsLeaf.exists_factor {c : Char} (h : IsLeaf c) : ∃ e, Factor e [c] := by
  rcases h with h | rfl | rfl
  · exact ⟨_, Factor.letter h⟩
  · exact ⟨_, Factor.digit false⟩
  · exact ⟨_, Factor.digit true⟩

namespace Factor

variable {e : Expr} {c : Char} {text : List Char}

/-- A factor without a mark is a leaf. -/
theorem isLeaf (h : Factor e [c]) : IsLeaf c := by
  cases h with
  | letter h => exact Or.inl h
  | digit b => cases b <;> exact Or.inr (by decide)

/-- A factor is a marked text. -/
theorem exists_marked (h : Factor e text) : ∃ resolved, Marked e true text resolved := by
  induction h with
  | letter h => exact ⟨_, Marked.letter h⟩
  | digit b => exact ⟨_, Marked.digit b⟩
  | @marked e c h ih =>
    obtain ⟨resolved, hmarked⟩ := ih
    have hbinary : e.isBinary = false := by cases h <;> rfl
    have hafter := Marked.after (Or.inl rfl) hmarked
    rw [hbinary] at hafter
    exact ⟨_, hafter⟩

/-- A factor binds more tightly than every operator. -/
theorem markedOperand (h : Factor e text) : MarkedOperand .product e text := by
  obtain ⟨resolved, hmarked⟩ := h.exists_marked
  have hbinding : Op.and.binding < e.binding := by cases h <;> simp [Op.binding, Expr.binding]
  exact ⟨hbinding, true, resolved, hmarked⟩

/-- There is something in a factor, and it may be put before runs of letters and digits. -/
theorem markedRuns (h : Factor e text) {rest : List Char} (hrest : MarkedRuns rest) :
    text ≠ [] ∧ MarkedRuns (text ++ rest) := by
  cases h with
  | letter h => exact ⟨List.cons_ne_nil _ _, hrest.cons (Or.inl h)⟩
  | digit b => exact ⟨List.cons_ne_nil _ _, hrest.cons (Factor.digit b).isLeaf⟩
  | marked h =>
    have hruns := MarkedRuns.marked (List.cons_ne_nil _ []) (List.forall_mem_singleton.mpr h.isLeaf)
      hrest
    exact ⟨List.cons_ne_nil _ _, hruns⟩

end Factor

/-- The text has the factors one behind the other. -/
def Juxtaposed (factors : List Expr) (text : List Char) : Prop :=
  factors ≠ [] ∧ ∃ texts, List.Forall₂ Factor factors texts ∧ text = texts.flatten

/-- Factors one behind the other are a marked text of their product. -/
theorem Juxtaposed.markedOperand {factors : List Expr} {text : List Char}
    (h : Juxtaposed factors text) : MarkedOperand .sum (Chain.product.join factors) text := by
  obtain ⟨hne, texts, hfactors, rfl⟩ := h
  obtain ⟨hbinding, hmarked⟩ :=
    exists_marked_join hne (hfactors.imp fun _ _ => Factor.markedOperand)
  have htext : Chain.product.separator.intercalate texts = texts.flatten := by
    cases texts with
    | nil => rfl
    | cons text texts =>
      rw [intercalate_cons]
      simp [Chain.separator]
  rw [htext] at hmarked
  exact ⟨Nat.lt_of_lt_of_le (by decide) hbinding, hmarked⟩

/-- Factors one behind the other are runs of letters and digits. -/
theorem Juxtaposed.markedRuns {factors : List Expr} {text : List Char}
    (h : Juxtaposed factors text) : text ≠ [] ∧ MarkedRuns text := by
  obtain ⟨hne, texts, hfactors, rfl⟩ := h
  have hruns : MarkedRuns texts.flatten := by
    clear hne
    induction hfactors with
    | nil => exact MarkedRuns.nil
    | cons hfirst _ ih => exact (hfirst.markedRuns ih).2
  cases hfactors with
  | nil => exact absurd rfl hne
  | cons hfirst _ =>
    refine ⟨fun hnil => ?_, hruns⟩
    exact (hfirst.markedRuns MarkedRuns.nil).1 (List.append_eq_nil_iff.mp hnil).1

/-- Texts of products are not empty, and have nothing in them but letters, digits and marks. -/
theorem forall_markedRuns {terms : List (List Expr)} {ps : List (List Char)} (hne : terms ≠ [])
    (h : List.Forall₂ Juxtaposed terms ps) : ps ≠ [] ∧ ∀ p ∈ ps, p ≠ [] ∧ MarkedRuns p := by
  constructor
  · rintro rfl
    exact hne (List.forall₂_nil_right_iff.mp h)
  · exact ((List.forall₂_and_left ps terms).mp (h.flip.imp fun p factors hfactors =>
      ⟨Juxtaposed.markedRuns hfactors, hfactors⟩)).1

/-- A run of letters and digits is a product of them. -/
theorem exists_factors_run {run : List Char} (h : ∀ c ∈ run, IsLeaf c) :
    ∃ factors, List.Forall₂ Factor factors (run.map ([·])) := by
  induction run with
  | nil => exact ⟨[], List.Forall₂.nil⟩
  | cons c run ih =>
    obtain ⟨hc, hrun⟩ := List.forall_mem_cons.mp h
    obtain ⟨e, he⟩ := hc.exists_factor
    obtain ⟨factors, hfactors⟩ := ih hrun
    exact ⟨e :: factors, List.Forall₂.cons he hfactors⟩

/-- Runs of letters and digits have factors one behind the other. -/
theorem MarkedRuns.exists_juxtaposed {text : List Char} (h : MarkedRuns text) (hne : text ≠ []) :
    ∃ factors, Juxtaposed factors text := by
  have hfactors : ∃ factors texts, List.Forall₂ Factor factors texts ∧ text = texts.flatten := by
    clear hne
    induction h with
    | @last run h =>
      obtain ⟨factors, hfactors⟩ := exists_factors_run h
      exact ⟨factors, _, hfactors, (List.flatMap_singleton' run).symm⟩
    | @marked run rest hne h _ ih =>
      -- the mark belongs to the last character of the run
      obtain ⟨front, c, rfl⟩ : ∃ front c, run = front ++ [c] :=
        ⟨run.dropLast, run.getLast hne, (List.dropLast_append_getLast hne).symm⟩
      obtain ⟨hfront, hc⟩ := List.forall_mem_append.mp h
      obtain ⟨factors, hfactors⟩ := exists_factors_run hfront
      obtain ⟨e, he⟩ := (hc c List.mem_cons_self).exists_factor
      obtain ⟨factors', texts, hrest, rfl⟩ := ih
      refine ⟨factors ++ .not e :: factors', front.map ([·]) ++ [c, mark] :: texts, ?_, ?_⟩
      · exact List.rel_append hfactors (List.Forall₂.cons he.marked hrest)
      · have hfront : (front.map ([·])).flatten = front := List.flatMap_singleton' front
        rw [List.flatten_append, hfront]
        simp
  obtain ⟨factors, texts, hall, rfl⟩ := hfactors
  refine ⟨factors, fun hnil => hne ?_, texts, hall, rfl⟩
  rw [hnil] at hall
  cases hall
  rfl

/-! ## Sums -/

/-- Without blanks a sum of products is read as the sum of the products. -/
theorem read_sum {terms : List (List Expr)} {ps : List (List Char)} (hne : terms ≠ [])
    (h : List.Forall₂ Juxtaposed terms ps) :
    ((resolve (['+'].intercalate ps)).bind fun resolved => readFilled (fillBrackets resolved)) =
      .ok (Chain.sum.join (terms.map Chain.product.join)) := by
  have hoperands : List.Forall₂ (MarkedOperand .sum) (terms.map Chain.product.join) ps :=
    List.forall₂_map_left_iff.mpr (h.imp fun _ _ => Juxtaposed.markedOperand)
  obtain ⟨-, m, resolved, hmarked⟩ := exists_marked_join (by simpa using hne) hoperands
  exact hmarked.read

variable {text : String} {ps : List (List Char)}

/-- A sum of products is read from what it is rewritten to, unless a reserved word occurs in it. -/
theorem parse_sumText_eq_ok_iff (htext : text.toList = sumText ps) (hne : ps ≠ [])
    (hps : ∀ p ∈ ps, p ≠ [] ∧ MarkedRuns p) {e : Expr} :
    Expr.parse text = .ok e ↔ reservedWord? text.toList = none ∧
      ((resolve (['+'].intercalate (ps.map rewritten))).bind fun resolved =>
        readFilled (fillBrackets resolved)) = .ok e := by
  rw [parse_eq_beforeMarks, htext, ← rewritten_sumText]
  constructor
  · intro h
    obtain ⟨before, hbefore, hread⟩ := bind_eq_ok_iff.mp h
    obtain ⟨hreserved, rfl⟩ := (beforeMarks_sumText_iff hne hps).mp hbefore
    exact ⟨hreserved, hread⟩
  · rintro ⟨hreserved, hread⟩
    exact bind_eq_ok_iff.mpr ⟨_, (beforeMarks_sumText_iff hne hps).mpr ⟨hreserved, rfl⟩, hread⟩

/-- A sum of products without words is read as the sum of the products. -/
theorem parse_sumText (htext : text.toList = sumText ps) {terms : List (List Expr)}
    (hne : terms ≠ []) (h : List.Forall₂ Juxtaposed terms ps)
    (hreserved : reservedWord? text.toList = none) (hfree : FreeOfWords text.toList) :
    Expr.parse text = .ok (Chain.sum.join (terms.map Chain.product.join)) := by
  obtain ⟨hne', hps⟩ := forall_markedRuns hne h
  have hsame : ps.map rewritten = ps := by
    rw [FreeOfWords, htext, forall_wordRuns_sumText lookup_wordSigns_nil] at hfree
    exact (List.map_congr_left fun p hp => (hps p hp).2.rewritten_eq (hfree p hp)).trans
      (List.map_id ps)
  refine (parse_sumText_eq_ok_iff htext hne' hps).mpr ⟨hreserved, ?_⟩
  rw [hsame]
  exact read_sum hne h

/-- A sum of products is read exactly if no reserved word occurs in it and no run of letters is a
word for an operator. -/
theorem exists_parse_sumText_iff (htext : text.toList = sumText ps) (hne : ps ≠ [])
    (hps : ∀ p ∈ ps, p ≠ [] ∧ MarkedRuns p) :
    (∃ e, Expr.parse text = .ok e) ↔ reservedWord? text.toList = none ∧
      FreeOfOperators text.toList := by
  have hfree : FreeOfOperators text.toList ↔ ∀ p ∈ ps, FreeOfOperators p := by
    have hnil : ∀ sign ∈ wordSigns.lookup [], sign = '0' ∨ sign = '1' := by
      rw [lookup_wordSigns_nil]
      exact fun _ hsign => nomatch hsign
    rw [FreeOfOperators, htext, forall_wordRuns_sumText hnil]
    rfl
  simp only [parse_sumText_eq_ok_iff htext hne hps, exists_and_left]
  refine and_congr_right fun _ => ⟨?_, fun hwords => ?_⟩
  · rintro ⟨e, he⟩
    refine hfree.mpr fun p hp => ?_
    by_contra hwords
    exact (((hps p hp).2.dangling hwords).intercalate (List.mem_map_of_mem hp)).not_ok e he
  · have hterms : ∀ p ∈ ps, ∃ factors, Juxtaposed factors (rewritten p) := by
      intro p hp
      obtain ⟨hruns, hne⟩ := (hps p hp).2.rewritten (hfree.mp hwords p hp)
      exact hruns.exists_juxtaposed (hne (hps p hp).1)
    choose! factors hfactors using hterms
    have hall : List.Forall₂ Juxtaposed (ps.map factors) (ps.map rewritten) := by
      rw [List.forall₂_map_left_iff, List.forall₂_map_right_iff, List.forall₂_same]
      exact hfactors
    exact ⟨_, read_sum (by simpa using hne) hall⟩

end Formula

end SwitchingAlgebra
