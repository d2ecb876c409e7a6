/-
# Marked texts

Compact notation with complement marks and with products written without a sign. Resolving the marks
from left to right turns every mark of such a text into a complement before its operand, and nothing
else changes.

* `Passes`, `Closed` say which operands a mark finds: leaves and groups, with complements before
  them;
* `Marked` are the marked texts of a tree, each with its resolved text;
* `Resolves` says that the loop takes one text to another in every surrounding without marks before
  it;
* `Marked.read`: a marked text of a tree is read as the tree.
-/
import SwitchingAlgebra.Proofs.Formula.Ending
import SwitchingAlgebra.Proofs.Formula.RoundTrip

namespace SwitchingAlgebra.Formula

open Text
open Style (explicit)

/-! ## Operands of a mark -/

/-- The search backwards for the bracket that opens a group goes through the whole text. -/
def Passes (text : List Char) : Prop :=
  ∀ depth group back, splitGroup (depth + 1) group (text.reverse ++ back)
    = splitGroup (depth + 1) (text ++ group) back

/-- The search goes through a character that is no bracket. -/
theorem passes_singleton {c : Char} (hopening : c ≠ '(') (hclosing : c ≠ ')') : Passes [c] := by
  intro depth group back
  rw [List.reverse_singleton, List.singleton_append, splitGroup, if_neg hclosing, if_neg hopening,
    List.singleton_append]

/-- The search goes through two texts one after the other. -/
theorem Passes.append {x y : List Char} (hx : Passes x) (hy : Passes y) : Passes (x ++ y) := by
  intro depth group back
  rw [List.reverse_append, List.append_assoc, hy, hx, List.append_assoc]

/-- The search goes through a group. -/
theorem Passes.group {text : List Char} (h : Passes text) : Passes ('(' :: (text ++ [')'])) := by
  intro depth group back
  have hreverse :
      ('(' :: (text ++ [')'])).reverse ++ back = ')' :: (text.reverse ++ '(' :: back) := by simp
  rw [hreverse, splitGroup, if_pos rfl, h, splitGroup, if_neg (by decide), if_pos rfl,
    if_neg (by omega)]
  simp

/-- The search goes through a text in brackets, if asked for. -/
theorem Passes.enclosed {text : List Char} (h : Passes text) (brackets : Bool) :
    Passes (enclosed brackets text) := by
  cases brackets with
  | false => exact h
  | true => exact h.group

/-- A leaf or a group, with any number of complements before it. -/
inductive Closed : List Char → Prop where
  | leaf {c : Char} (h : IsLeaf c) : Closed [c]
  | group {text : List Char} (h : Passes text) : Closed ('(' :: (text ++ [')']))
  | complement {text : List Char} (h : Closed text) : Closed ('!' :: text)

/-- Capitals are letters. -/
theorem isLetter_of_isUpper {c : Char} (h : c.isUpper = true) : isLetter c = true := by
  have hascii : c.toNat < 128 := by
    have hrange := isUpper_iff.mp h
    omega
  rw [isLetter, if_pos hascii]
  exact isAlpha_of_isUpper h

/-- A text in matching brackets is an operand of a mark, and without them if it is one by itself. -/
theorem Passes.closed_enclosed {text : List Char} (hpasses : Passes text) {brackets : Bool}
    (h : brackets = false → Closed text) : Closed (SwitchingAlgebra.enclosed brackets text) := by
  cases brackets with
  | false => exact h rfl
  | true => exact Closed.group hpasses

/-- A mark behind such an operand becomes a complement before it. -/
theorem Closed.resolveMark {text : List Char} (h : Closed text) (back after : List Char) :
    resolveMark (text.reverse ++ back) after = .ok (back.reverse ++ '!' :: (text ++ after)) := by
  induction h generalizing back with
  | leaf h =>
    rename_i c
    have hletter : (isLetter c || decide (c = '0') || decide (c = '1')) = true := by
      rcases h with h | rfl | rfl
      · rw [isLetter_of_isUpper h]
        rfl
      · rfl
      · rfl
    rw [List.reverse_singleton, List.singleton_append, Formula.resolveMark, if_pos hletter]
    rfl
  | group h =>
    rename_i text
    have hreverse :
        ('(' :: (text ++ [')'])).reverse ++ back = ')' :: (text.reverse ++ '(' :: back) := by simp
    have hsplit : splitGroup 0 [] (')' :: (text.reverse ++ '(' :: back))
        = some (back.reverse, '(' :: (text ++ [')'])) := by
      rw [splitGroup, if_pos rfl, h, splitGroup, if_neg (by decide), if_pos rfl, if_pos rfl]
    rw [hreverse, Formula.resolveMark, if_neg (by decide), if_pos rfl, hsplit]
    simp
  | complement _ ih =>
    rename_i text _
    have hreverse : ('!' :: text).reverse ++ back = text.reverse ++ '!' :: back := by simp
    rw [hreverse, ih]
    simp

/-! ## Resolving a part of a text -/

/-- Wherever a text comes to a result with the second part in it and no mark before that, it does
with the first part in its place. -/
def Resolves (text resolved : List Char) : Prop :=
  ∀ front after result, mark ∉ front → Runs resolveFirst (front ++ (resolved ++ after)) result →
    Runs resolveFirst (front ++ (text ++ after)) result

theorem resolves_refl (text : List Char) : Resolves text text :=
  fun _ _ _ _ h => h

theorem Resolves.trans {x y z : List Char} (hxy : Resolves x y) (hyz : Resolves y z) :
    Resolves x z :=
  fun front after result hfront h => hxy front after result hfront (hyz front after result hfront h)

/-- Two parts are resolved one after the other. -/
theorem Resolves.append {x x' y y' : List Char} (hx : Resolves x x') (hmark : mark ∉ x')
    (hy : Resolves y y') : Resolves (x ++ y) (x' ++ y') := by
  intro front after result hfront h
  have hleft : mark ∉ front ++ x' := fun hmem => (List.mem_append.mp hmem).elim hfront hmark
  have hsecond : Runs resolveFirst (front ++ (x' ++ (y ++ after))) result := by
    rw [← List.append_assoc]
    refine hy (front ++ x') after result hleft ?_
    simpa using h
  simpa using hx front (y ++ after) result hfront hsecond

/-- Brackets are no marks. -/
theorem mark_notMem_enclosed {text : List Char} (h : mark ∉ text) (brackets : Bool) :
    mark ∉ enclosed brackets text := by
  have hbrackets : mark ≠ '(' ∧ mark ≠ ')' := by decide
  cases brackets with
  | false => exact h
  | true => simp [h, hbrackets]

/-- The marks of a text in brackets are those of the text. -/
theorem Resolves.enclosed {text resolved : List Char} (h : Resolves text resolved)
    (hmark : mark ∉ resolved) (brackets : Bool) :
    Resolves (enclosed brackets text) (enclosed brackets resolved) := by
  cases brackets with
  | false => exact h
  | true => exact (resolves_refl ['(']).append (by decide) (h.append hmark (resolves_refl [')']))

/-- A mark behind an operand becomes a complement before it. -/
theorem Closed.resolves {text : List Char} (h : Closed text) (hmark : mark ∉ text) :
    Resolves (text ++ [mark]) ('!' :: text) := by
  intro front after result hfront hrun
  have hback : mark ∉ text.reverse ++ front.reverse := by
    simp [hfront, hmark]
  have hfirst : resolveFirst ((text.reverse ++ front.reverse).reverse ++ mark :: after)
      = some (Formula.resolveMark (text.reverse ++ front.reverse) after) :=
      resolveFirst_append hback
  rw [h.resolveMark, List.reverse_append, List.reverse_reverse, List.reverse_reverse] at hfirst
  refine Runs.more (y := front ++ ('!' :: text ++ after)) ?_ hrun
  simpa using hfirst

/-! ## Signs in products -/

/-- Where two texts meet a sign is put in if an operand ends and the next one begins. -/
theorem signProducts_append {x y : List Char} {a b : Char} (hx : x.getLast? = some a)
    (hy : y.head? = some b) : signProducts (x ++ y) = signProducts x ++
      if endsFactor a && beginsFactor b then '*' :: signProducts y else signProducts y := by
  obtain ⟨rest, rfl⟩ := List.head?_eq_some_iff.mp hy
  obtain ⟨c, x, rfl⟩ : ∃ c tail, x = c :: tail :=
    List.exists_cons_of_ne_nil (by rintro rfl; exact nomatch hx)
  rw [List.cons_append, signProducts_cons, signProducts_cons, signProducts_cons, List.cons_append]
  congr 1
  induction x generalizing c with
  | nil =>
    obtain rfl : c = a := Option.some.inj hx
    exact signedAfter_cons c b rest
  | cons d x ih =>
    rw [List.getLast?_cons_cons] at hx
    rw [List.cons_append, signedAfter_cons, signedAfter_cons, ih d hx]
    split <;> rfl

/-- Putting in signs takes nothing away. -/
theorem sublist_signProducts (text : List Char) : text.Sublist (signProducts text) := by
  induction text using signProducts.induct with
  | case1 x y rest hproduct ih =>
    unfold signProducts
    rw [if_pos hproduct]
    exact (ih.cons '*').cons_cons x
  | case2 x y rest hproduct ih =>
    unfold signProducts
    rw [if_neg hproduct]
    exact ih.cons_cons x
  | case3 text hshort =>
    unfold signProducts
    split
    · exact absurd rfl (hshort _ _ _)
    · exact List.Sublist.refl _

/-- No sign is put into an empty pair of brackets. -/
theorem isChain_of_signProducts {text : List Char}
    (h : (signProducts text).IsChain fun x y => ¬ (x = '(' ∧ y = ')')) :
    text.IsChain fun x y => ¬ (x = '(' ∧ y = ')') := by
  induction text using signProducts.induct with
  | case1 x y rest hproduct ih =>
    unfold signProducts at h
    rw [if_pos hproduct] at h
    refine List.isChain_cons_cons.mpr ⟨?_, ih h.tail.tail⟩
    rintro ⟨rfl, rfl⟩
    exact absurd hproduct (by decide)
  | case2 x y rest hproduct ih =>
    unfold signProducts at h
    rw [if_neg hproduct] at h
    have hpair := h
    rw [signProducts_cons] at hpair
    exact List.isChain_cons_cons.mpr ⟨(List.isChain_cons_cons.mp hpair).1, ih h.tail⟩
  | case3 text hshort =>
    unfold signProducts at h
    split at h
    · exact absurd rfl (hshort _ _ _)
    · exact h

/-- The text begins and ends like an operand of a product. -/
structure IsFactor (text : List Char) : Prop where
  begins : ∃ c, text.head? = some c ∧ beginsFactor c = true
  ends : ∃ c, text.getLast? = some c ∧ endsFactor c = true

namespace IsFactor

variable {x y : List Char}

theorem leaf {c : Char} (h : IsLeaf c) : IsFactor [c] :=
  ⟨⟨c, rfl, h.factor.2⟩, ⟨c, rfl, h.factor.1⟩⟩

/-- Brackets around a text make a factor. -/
theorem enclosed (h : IsFactor x) (brackets : Bool) : IsFactor (enclosed brackets x) := by
  cases brackets with
  | false => exact h
  | true =>
    exact ⟨⟨'(', rfl, rfl⟩, ⟨')', by rw [enclosed_true, ← List.cons_append, List.getLast?_concat],
      rfl⟩⟩

theorem complement (h : IsFactor x) : IsFactor ('!' :: x) := by
  obtain ⟨c, hc, hends⟩ := h.ends
  exact ⟨⟨'!', rfl, rfl⟩, ⟨c, by rw [List.getLast?_cons, hc]; rfl, hends⟩⟩

/-- Two factors with something between them make a factor. -/
theorem join (hx : IsFactor x) (middle : List Char) (hy : IsFactor y) :
    IsFactor (x ++ (middle ++ y)) := by
  obtain ⟨c, hc, hbegins⟩ := hx.begins
  obtain ⟨d, hd, hends⟩ := hy.ends
  refine ⟨⟨c, by rw [List.head?_append, hc]; rfl, hbegins⟩, ⟨d, ?_, hends⟩⟩
  rw [← List.append_assoc, List.getLast?_append, hd]
  rfl

end IsFactor

/-- Signs are put into a text in brackets as into the text. -/
theorem signProducts_enclosed {text : List Char} (h : IsFactor text) (brackets : Bool) :
    signProducts (enclosed brackets text) = enclosed brackets (signProducts text) := by
  cases brackets with
  | false => rfl
  | true =>
    obtain ⟨c, hc, -⟩ := h.begins
    obtain ⟨d, hd, -⟩ := h.ends
    have hhead : (text ++ [')']).head? = some c := by
      rw [List.head?_append, hc]
      rfl
    rw [enclosed_true, enclosed_true, ← List.singleton_append, signProducts_append rfl hhead,
      signProducts_append hd rfl, Bool.and_comm (endsFactor d)]
    rfl

/-- Signs are put into the operand of a complement only. -/
theorem signProducts_complement {text : List Char} (h : IsFactor text) (brackets : Bool) :
    signProducts ('!' :: enclosed brackets text)
      = '!' :: enclosed brackets (signProducts text) := by
  obtain ⟨c, hc, -⟩ := (h.enclosed brackets).begins
  rw [← List.singleton_append, signProducts_append rfl hc, signProducts_enclosed h]
  rfl

/-- Signs are put into the operands of an operator only. -/
theorem signProducts_operator {left right : List Char} (hl : IsFactor left) (op : Op)
    (hr : IsFactor right) :
    signProducts (left ++ ([op.character] ++ right)) = signProducts left ++
      ([op.character] ++ signProducts right) := by
  obtain ⟨c, hc, -⟩ := hl.ends
  obtain ⟨d, hd, -⟩ := hr.begins
  have hop : beginsFactor op.character = false ∧ endsFactor op.character = false := by
    cases op <;> decide
  have hsign : signProducts ([op.character] ++ right) = [op.character] ++ signProducts right := by
    rw [signProducts_append (a := op.character) rfl hd, hop.2]
    rfl
  rw [signProducts_append (b := op.character) hc rfl, hop.1, hsign, Bool.and_false]
  rfl

/-- A sign is put between the operands of a product. -/
theorem signProducts_product {left right : List Char} (hl : IsFactor left) (hr : IsFactor right) :
    signProducts (left ++ right) = signProducts left ++
      ([Op.and.character] ++ signProducts right) := by
  obtain ⟨c, hc, hends⟩ := hl.ends
  obtain ⟨d, hd, hbegins⟩ := hr.begins
  rw [signProducts_append hc hd, hends, hbegins]
  rfl

/-! ## Marked texts of a tree -/

/-- The marked texts of a tree, each with its resolved text. The Boolean says whether a mark may
follow as it is: the text is a leaf, or ends with a mark. -/
inductive Marked : Expr → Bool → List Char → List Char → Prop where
  | letter {c : Char} (h : c.isUpper = true) : Marked (.var c.toString) true [c] [c]
  | digit (b : Bool) : Marked (.const b) true [if b then '1' else '0'] [if b then '1' else '0']
  | before {e : Expr} {m : Bool} {text resolved : List Char} (h : Marked e m text resolved) :
    Marked (.not e) false ('!' :: enclosed e.isBinary text) ('!' :: enclosed e.isBinary resolved)
  | after {e : Expr} {m : Bool} {text resolved : List Char} (hm : m = true ∨ e.isBinary = true)
    (h : Marked e m text resolved) :
    Marked (.not e) true (enclosed e.isBinary text ++ [mark]) ('!' :: enclosed e.isBinary resolved)
  | operator (op : Op) {l r : Expr} {m n : Bool} {left left' right right' : List Char}
      (hl : Marked l m left left')
    (hr : Marked r n right right') :
    Marked (.bin op l r) false
      (enclosed (l.binding < op.binding) left ++
        ([op.character] ++ enclosed (r.binding ≤ op.binding) right))
      (enclosed (l.binding < op.binding) left' ++
        ([op.character] ++ enclosed (r.binding ≤ op.binding) right'))
  | product {l r : Expr} {m n : Bool} {left left' right right' : List Char}
      (hl : Marked l m left left')
    (hr : Marked r n right right') :
    Marked (.bin .and l r) false
      (enclosed (l.binding < Op.and.binding) left ++ enclosed (r.binding ≤ Op.and.binding) right)
      (enclosed (l.binding < Op.and.binding) left' ++ enclosed (r.binding ≤ Op.and.binding) right')

namespace Marked

variable {e : Expr} {m : Bool} {text resolved : List Char}

/-- Marked texts are those of trees over capital letters. -/
theorem over_isCapital (h : Marked e m text resolved) : e.Over IsCapital := by
  induction h with
  | letter h => exact ⟨_, h, rfl⟩
  | digit b => exact trivial
  | before _ ih | after _ _ ih => exact ih
  | operator op _ _ ihl ihr | product _ _ ihl ihr => exact ⟨ihl, ihr⟩

/-- A resolved text is a factor. -/
theorem isFactor (h : Marked e m text resolved) : IsFactor resolved := by
  induction h with
  | letter h => exact IsFactor.leaf (Or.inl h)
  | digit b => cases b <;> exact IsFactor.leaf (Or.inr (by decide))
  | before _ ih | after _ _ ih => exact (ih.enclosed _).complement
  | operator op _ _ ihl ihr => exact (ihl.enclosed _).join [op.character] (ihr.enclosed _)
  | product _ _ ihl ihr => exact (ihl.enclosed _).join [] (ihr.enclosed _)

/-- There is something in a resolved text. -/
theorem resolved_ne_nil (h : Marked e m text resolved) : resolved ≠ [] := by
  obtain ⟨c, hc, -⟩ := h.isFactor.begins
  rintro rfl
  exact nomatch hc

/-- With signs in its products a resolved text is the text of the tree in compact notation. -/
theorem signProducts_eq (h : Marked e m text resolved) :
    signProducts resolved = explicit.written e := by
  induction h with
  | letter h => exact (Style.written_capital explicit _).symm
  | digit b => cases b <;> rfl
  | before h ih | after _ h ih =>
    rw [signProducts_complement h.isFactor, ih, Style.written_not]
    rfl
  | operator op hl hr ihl ihr =>
    rw [signProducts_operator (hl.isFactor.enclosed _) op (hr.isFactor.enclosed _),
      signProducts_enclosed hl.isFactor, signProducts_enclosed hr.isFactor, ihl, ihr,
      Style.written_bin]
    rfl
  | product hl hr ihl ihr =>
    rw [signProducts_product (hl.isFactor.enclosed _) (hr.isFactor.enclosed _),
      signProducts_enclosed hl.isFactor, signProducts_enclosed hr.isFactor, ihl, ihr,
      Style.written_bin]
    rfl

/-- A resolved text is made of the characters of compact notation. -/
theorem isSymbol (h : Marked e m text resolved) : ∀ c ∈ resolved, IsSymbol c := by
  have hsub := sublist_signProducts resolved
  rw [h.signProducts_eq] at hsub
  exact fun c hc => (derives_written h.over_isCapital).isSymbol c (hsub.subset hc)

/-- A resolved text has no marks. -/
theorem mark_notMem (h : Marked e m text resolved) : mark ∉ resolved := by
  intro hmem
  rcases h.isSymbol mark hmem with hupper | hlist
  · exact absurd hupper (by decide)
  · exact absurd hlist (by decide)

/-- A resolved text has something in every pair of brackets. -/
theorem isChain (h : Marked e m text resolved) :
    resolved.IsChain fun x y => ¬ (x = '(' ∧ y = ')') := by
  have hwritten : (explicit.written e).IsChain fun x y => ¬ (x = '(' ∧ y = ')') := by
    rw [written_eq]
    exact (isOperand_pieces h.over_isCapital).isChain_spelled (by decide)
  rw [← h.signProducts_eq] at hwritten
  exact isChain_of_signProducts hwritten

/-- The brackets of a resolved text match. -/
theorem passes (h : Marked e m text resolved) : Passes resolved := by
  have hcomplement : Passes ['!'] := passes_singleton (by decide) (by decide)
  induction h with
  | letter h =>
    have hleaf : IsLeaf _ := Or.inl h
    exact passes_singleton (hleaf.ne (by decide) (by decide) (by decide))
      (hleaf.ne (by decide) (by decide) (by decide))
  | digit b => cases b <;> exact passes_singleton (by decide) (by decide)
  | before _ ih | after _ _ ih => exact hcomplement.append (ih.enclosed _)
  | operator op _ _ ihl ihr =>
    have hop : Passes [op.character] := by
      cases op <;> exact passes_singleton (by decide) (by decide)
    exact (ihl.enclosed _).append (hop.append (ihr.enclosed _))
  | product _ _ ihl ihr => exact (ihl.enclosed _).append (ihr.enclosed _)

/-- Where a mark may follow as it is, the resolved text is an operand of it. -/
theorem closed (h : Marked e m text resolved) (hm : m = true) : Closed resolved := by
  induction h with
  | letter h => exact Closed.leaf (Or.inl h)
  | digit b => cases b <;> exact Closed.leaf (Or.inr (by decide))
  | before _ _ | operator _ _ _ _ _ | product _ _ _ _ => exact nomatch hm
  | after hoperand h ih =>
    refine (h.passes.closed_enclosed fun hbrackets => ih ?_).complement
    exact hoperand.resolve_right (by simp [hbrackets])

/-- Resolving its marks takes a marked text to its resolved text. -/
theorem resolves (h : Marked e m text resolved) : Resolves text resolved := by
  induction h with
  | letter _ | digit _ => exact resolves_refl _
  | before h ih => exact (resolves_refl ['!']).append (by decide) (ih.enclosed h.mark_notMem _)
  | @after e _ _ resolved hoperand h ih =>
    have hclosed : Closed (enclosed e.isBinary resolved) :=
      h.passes.closed_enclosed fun hbrackets =>
        h.closed (hoperand.resolve_right (by simp [hbrackets]))
    have hmark := mark_notMem_enclosed h.mark_notMem
    exact ((ih.enclosed h.mark_notMem _).append (hmark _) (resolves_refl [mark])).trans
      (hclosed.resolves (hmark _))
  | operator op hl hr ihl ihr =>
    have hop : mark ∉ [op.character] := by cases op <;> decide
    refine (ihl.enclosed hl.mark_notMem _).append (mark_notMem_enclosed hl.mark_notMem _) ?_
    exact (resolves_refl [op.character]).append hop (ihr.enclosed hr.mark_notMem _)
  | product hl hr ihl ihr =>
    exact (ihl.enclosed hl.mark_notMem _).append (mark_notMem_enclosed hl.mark_notMem _)
      (ihr.enclosed hr.mark_notMem _)

/-- All marks of a marked text are resolved. -/
theorem resolve_eq (h : Marked e m text resolved) : resolve text = .ok resolved := by
  have hrun : Runs resolveFirst text (.ok resolved) := by
    have hdone := Runs.done (resolveFirst_eq_none h.mark_notMem)
    simpa using h.resolves [] [] (.ok resolved) List.not_mem_nil (by simpa using hdone)
  have hends : isEndless text = false := by
    by_contra hendless
    exact not_runs_of_isEndless (Bool.not_eq_false _ ▸ hendless) _ hrun
  exact (runs_resolve hends).unique hrun

/-- There is something in a marked text. -/
theorem ne_nil (h : Marked e m text resolved) : text ≠ [] := by
  have hresolve := h.resolve_eq
  rintro rfl
  exact h.resolved_ne_nil (Except.ok.inj hresolve).symm

/-- A marked text of a tree is read as the tree. -/
theorem read (h : Marked e m text resolved) :
    ((resolve text).bind fun resolved => readFilled (fillBrackets resolved)) = .ok e := by
  have hderives : Derives 1 (signProducts resolved) e := by
    rw [h.signProducts_eq]
    exact derives_written h.over_isCapital
  rw [h.resolve_eq]
  exact readFilled_of_derives h.resolved_ne_nil h.isSymbol h.isChain hderives

end Marked

end SwitchingAlgebra.Formula
