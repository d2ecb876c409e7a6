/-
# Capital letters of prepared texts

A prepared text has no small letters: `upper` leaves none, and no later stage adds a letter.

* `noSmall_compact` follows the stages of the compact notation;
* `noSmall_prepare` is the result for the whole preparation.
-/
import SwitchingAlgebra.Proofs.Formula.Descent
import SwitchingAlgebra.Proofs.Formula.Stages
import SwitchingAlgebra.Proofs.Text.Upper

namespace SwitchingAlgebra.Formula

open Text

/-! ## Stages after upper case -/

/-- The upper-case form of a text has no small letter. -/
theorem noSmall_upper (text : List Char) : NoSmall (upper text) := by
  intro c hc
  obtain ⟨d, -, hd⟩ := List.mem_flatMap.mp hc
  exact isLower_of_mem_upperChar hd

/-- Resolving a mark puts in nothing but a sign. -/
theorem noSmall_resolveMark {back after text : List Char} (hback : NoSmall back)
    (hafter : NoSmall after) (h : resolveMark back after = .ok text) : NoSmall text := by
  cases back with
  | nil =>
    obtain rfl := Except.ok.inj h
    refine noSmall_append.mpr ⟨fun c hc => ?_, noSmall_cons.mpr ⟨rfl, hafter⟩⟩
    exact noSmall_cons.mpr ⟨(rfl : mark.isLower = false),
      hafter⟩ c ((List.dropLast_prefix _).subset hc)
  | cons d before =>
    obtain ⟨start, group, happend, rfl⟩ := exists_of_resolveMark (List.cons_ne_nil d before) h
    have hall : NoSmall (start ++ group) := by
      rw [happend]
      exact fun c hc => hback c (List.mem_reverse.mp hc)
    obtain ⟨hstart, hgroup⟩ := noSmall_append.mp hall
    refine noSmall_append.mpr ⟨noSmall_append.mpr ⟨hstart, ?_⟩, hafter⟩
    exact noSmall_cons.mpr ⟨rfl, hgroup⟩

/-- Resolving the first mark puts in nothing but a sign. -/
theorem noSmall_resolveFirst {text next : List Char} (htext : NoSmall text)
    (h : resolveFirst text = some (.ok next)) : NoSmall next := by
  unfold resolveFirst at h
  split at h
  · exact nomatch h
  · rename_i c after hdrop
    have hafter : NoSmall after := fun d hd =>
      htext d ((List.dropWhile_suffix _).subset (hdrop ▸ List.mem_cons_of_mem c hd))
    have hback : NoSmall (text.takeWhile (· ≠ mark)).reverse := fun d hd =>
      htext d ((List.takeWhile_prefix _).subset (List.mem_reverse.mp hd))
    exact noSmall_resolveMark hback hafter (Option.some.inj h)

/-- Resolving marks puts in nothing but signs. -/
theorem noSmall_resolveMarks {bound : Nat} {text result : List Char} (htext : NoSmall text)
    (h : resolveMarks bound text = .ok result) : NoSmall result := by
  induction bound generalizing text with
  | zero => exact Except.ok.inj h ▸ htext
  | succ bound ih =>
    unfold resolveMarks at h
    split at h
    · exact Except.ok.inj h ▸ htext
    · exact nomatch h
    · rename_i next hfirst
      exact ih (noSmall_resolveFirst htext hfirst) h

/-- Resolving all marks puts in nothing but signs. -/
theorem noSmall_resolve {text result : List Char} (htext : NoSmall text)
    (h : resolve text = .ok result) : NoSmall result := by
  unfold resolve at h
  split at h
  · exact nomatch h
  · exact noSmall_resolveMarks htext h

/-- Filling brackets puts in no letter. -/
theorem noSmall_fillBrackets {text : List Char} (htext : NoSmall text) :
    NoSmall (fillBrackets text) := by
  intro c hc
  rcases mem_fillBrackets c hc with rfl | hmem
  · rfl
  · exact htext c hmem

theorem noSmall_compact {text compacted : List Char} (h : compact text = .ok compacted) :
    NoSmall compacted := by
  obtain ⟨plain, resolved, -, hresolved, rfl, -⟩ := exists_of_compact h
  exact noSmall_fillBrackets (noSmall_resolve (noSmall_upper _) hresolved)

/-- Signs in products are no letters. -/
theorem noSmall_signProducts (text : List Char) (htext : NoSmall text) :
    NoSmall (signProducts text) := by
  induction text using signProducts.induct with
  | case1 x y rest hproduct ih =>
    obtain ⟨hx, hrest⟩ := noSmall_cons.mp htext
    unfold signProducts
    rw [if_pos hproduct]
    exact noSmall_cons.mpr ⟨hx, noSmall_cons.mpr ⟨rfl, ih hrest⟩⟩
  | case2 x y rest hproduct ih =>
    obtain ⟨hx, hrest⟩ := noSmall_cons.mp htext
    unfold signProducts
    rw [if_neg hproduct]
    exact noSmall_cons.mpr ⟨hx, ih hrest⟩
  | case3 text hshort =>
    unfold signProducts
    split
    · exact absurd rfl (hshort _ _ _)
    · exact htext

/-- A prepared text has no small letters. -/
theorem noSmall_prepare {text prepared : List Char} (h : prepare text = .ok prepared) :
    NoSmall prepared := by
  simp only [prepare, bind, Except.bind] at h
  split at h
  · exact nomatch h
  · rename_i compacted hcompacted
    split at h
    · exact nomatch h
    · split at h
      · exact nomatch h
      · obtain rfl := Except.ok.inj h
        exact settle_induction noSmall_signProducts maxProductPasses (noSmall_compact hcompacted)

/-- The tokens of a text are its characters. -/
theorem eq_of_tokens {text read : List Char} (h : tokens text = .ok read) : read = text := by
  unfold tokens at h
  split at h
  · exact nomatch h
  · exact (Except.ok.inj h).symm

end SwitchingAlgebra.Formula
