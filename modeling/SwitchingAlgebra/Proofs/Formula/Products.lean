/-
# Signs in products

A product without signs is written by putting operands side by side, and every character inside such
a run both ends an operand and begins the next one. The pattern for a missing sign takes one
character and only looks at the one behind it, so from left to right all pairs of neighbours are
met, overlapping ones too, and a sign makes no new pair.

* `missingSign` is the pattern, `substitute_missingSign` its substitution;
* `signProducts_eq_flatMap` says of each character what is put behind it;
* `withProducts_exact`: one pass does it all.
-/
import SwitchingAlgebra.Proofs.Formula.Acceptance

namespace SwitchingAlgebra.Formula

open Text

/-- The end of an operand, if the next one begins right behind it; it gets a sign. The beginning of
the next one is no part of the match. -/
def missingSign : Matcher := fun _ text =>
  match text with
  | x :: y :: _ => if endsFactor x && beginsFactor y then some ([x, '*'], 0) else none
  | _ => none

/-- A pass puts signs where the pattern matches. -/
theorem substitute_missingSign (text : List Char) :
    substitute missingSign text = signProducts text := by
  unfold substitute
  generalize none = previous
  induction text using signProducts.induct generalizing previous with
  | case1 x y rest hproduct ih =>
    rw [substituteFrom, missingSign, signProducts]
    simp only [if_pos hproduct, ih, List.cons_append, List.nil_append]
  | case2 x y rest hproduct ih =>
    rw [substituteFrom, missingSign, signProducts]
    simp only [if_neg hproduct, ih]
  | case3 text hshort =>
    cases text with
    | nil => rfl
    | cons x text =>
      cases text with
      | nil => rfl
      | cons y rest => exact absurd rfl (hshort x y rest)

/-- What stands at a place of a text with a sign in every product: the character, and a sign if it
ends an operand and the next character begins one. -/
def signedAt (text : List Char) (entry : Char × Nat) : List Char :=
  if endsFactor entry.1 && text[entry.2 + 1]?.any beginsFactor then [entry.1, '*'] else [entry.1]

/-- Behind the first character the rest of a text is signed as it would be alone. -/
theorem flatMap_signedAt_cons (x : Char) (text : List Char) :
    (x :: text).zipIdx.flatMap (signedAt (x :: text)) = signedAt (x :: text) (x, 0) ++
      text.zipIdx.flatMap (signedAt text) := by
  rw [List.zipIdx_cons, List.flatMap_cons, List.zipIdx_succ, List.flatMap_map]
  rfl

/-- A pass leaves every character where it is and decides by its neighbour whether it puts a sign
behind it. -/
theorem signProducts_eq_flatMap (text : List Char) :
    signProducts text = text.zipIdx.flatMap (signedAt text) := by
  induction text using signProducts.induct with
  | case1 x y rest hproduct ih =>
    have hsigned : signedAt (x :: y :: rest) (x, 0) = [x, '*'] := if_pos hproduct
    rw [flatMap_signedAt_cons, hsigned, ← ih, signProducts, if_pos hproduct]
    rfl
  | case2 x y rest hproduct ih =>
    have hplain : signedAt (x :: y :: rest) (x, 0) = [x] := if_neg hproduct
    rw [flatMap_signedAt_cons, hplain, ← ih, signProducts, if_neg hproduct]
    rfl
  | case3 text hshort =>
    cases text with
    | nil => rfl
    | cons x text =>
      cases text with
      | nil =>
        have hplain : signedAt [x] (x, 0) = [x] := if_neg (by simp)
        rw [flatMap_signedAt_cons, hplain]
        rfl
      | cons y rest => exact absurd rfl (hshort x y rest)

/-- In the text with signs there is one sign more behind every character that ends an operand right
before the next one begins, and nothing else is changed. The first pass puts in all of them: with
any number of further passes the result is the same, and none is missing in the result. -/
theorem withProducts_exact (text : List Char) :
    withProducts text = text.zipIdx.flatMap (signedAt text) ∧
      withProducts text = substitute missingSign text ∧
      (∀ passes, settle (substitute missingSign) (passes + 1) text = substitute missingSign text) ∧
      withProducts (withProducts text) = withProducts text := by
  have hpass : substitute missingSign = signProducts := funext substitute_missingSign
  have hfixed := signProducts_signProducts text
  rw [hpass, withProducts_eq]
  refine ⟨signProducts_eq_flatMap text, rfl, fun passes => ?_, ?_⟩
  · unfold settle
    split
    · rename_i hsame
      exact hsame.symm
    · exact settle_of_fixed hfixed passes
  · rw [withProducts_eq, hfixed]

example : withProducts "A1(B!C)0D+E".toList = "A*1*(B*!C)*0*D+E".toList := by decide

end SwitchingAlgebra.Formula
