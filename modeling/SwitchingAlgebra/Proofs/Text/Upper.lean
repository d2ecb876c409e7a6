/-
# Upper case

The upper-case form of a text has no small letters, and no character below the letters that the text
has not. Letters are below code point 123, so what is asked of every letter is decided by going
through the code points.
-/
import Mathlib.Data.List.Basic
import SwitchingAlgebra.Text.Upper

namespace SwitchingAlgebra.Text

/-- What is found in a table is one of its entries. -/
theorem mem_of_lookup {α β : Type} [BEq α] [LawfulBEq α] {table : List (α × β)}
    {key : α} {value : β} (h : table.lookup key = some value) : (key, value) ∈ table := by
  obtain ⟨before, after, rfl, -⟩ := List.lookup_eq_some_iff.mp h
  exact List.mem_append_right before List.mem_cons_self

theorem isLower_iff {c : Char} : c.isLower = true ↔ 97 ≤ c.toNat ∧ c.toNat ≤ 122 := by
  show (decide (c.val ≥ 'a'.val) && decide (c.val ≤ 'z'.val)) = true ↔ _
  simp [UInt32.le_iff_toNat_le, ← Char.toNat_val]

theorem isUpper_iff {c : Char} : c.isUpper = true ↔ 65 ≤ c.toNat ∧ c.toNat ≤ 90 := by
  show (decide (c.val ≥ 'A'.val ∧ c.val ≤ 'Z'.val)) = true ↔ _
  simp [UInt32.le_iff_toNat_le, ← Char.toNat_val]

/-- Letters have code points below 123. -/
theorem toNat_lt_of_isAlpha {c : Char} (h : c.isAlpha = true) : c.toNat < 123 := by
  rcases Bool.or_eq_true_iff.mp (show (c.isUpper || c.isLower) = true from h) with hupper | hlower
  · have hrange := isUpper_iff.mp hupper
    omega
  · have hrange := isLower_iff.mp hlower
    omega

/-- What holds for all code points below a bound holds for all characters there. -/
theorem of_toNat_lt {p : Char → Prop} (bound : Nat)
    (hall : ∀ n < bound, p (Char.ofNat n)) {c : Char} (hc : c.toNat < bound) : p c := by
  have hcode := hall c.toNat hc
  rwa [Char.ofNat_toNat] at hcode

/-- The code of a character is the code point that it is made from, or 0 where that is none. -/
theorem toNat_ofNat (n : Nat) : (Char.ofNat n).toNat = n ∨ (Char.ofNat n).toNat = 0 := by
  by_cases hvalid : n.isValidChar
  · left
    rw [Char.ofNat, dif_pos hvalid]
    rfl
  · right
    rw [Char.ofNat, dif_neg hvalid]
    rfl

/-- A code point outside the range is no small letter. -/
theorem isLower_ofNat {n : Nat} (h : n < 97 ∨ 122 < n) : (Char.ofNat n).isLower = false := by
  by_contra hlower
  rw [Bool.not_eq_false, isLower_iff] at hlower
  rcases toNat_ofNat n with hn | hn
  · omega
  · omega

theorem isLower_toUpper {c : Char} (h : c.toNat < 128) : c.toUpper.isLower = false :=
  of_toNat_lt (p := fun c => c.toUpper.isLower = false) 128 (by decide) h

/-- A character is its own capital or the small letter of its capital. -/
theorem eq_toUpper_or (c : Char) : c = c.toUpper ∨ c = c.toUpper.toLower := by
  by_cases hsmall : 'a'.val ≤ c.val ∧ c.val ≤ 'z'.val
  · have hrange : 97 ≤ c.toNat ∧ c.toNat ≤ 122 := by
      simpa [UInt32.le_iff_toNat_le, ← Char.toNat_val] using hsmall
    have hlower := isLower_iff.mpr hrange
    right
    exact of_toNat_lt (p := fun c => c.isLower = true → c = c.toUpper.toLower) 123 (by decide)
      (by omega) hlower
  · left
    delta Char.toUpper
    rw [dif_neg hsmall]

theorem toUpper_eq_self {c : Char} (h : c.isUpper = true) : c.toUpper = c := by
  have hrange := isUpper_iff.mp h
  exact of_toNat_lt (p := fun c => c.isUpper = true → c.toUpper = c) 91 (by decide) (by omega) h

/-- No upper-case form of several characters has a small letter. -/
theorem isLower_expandingCase {n : Nat} {codes : List Nat}
    (h : expandingCase.lookup n = some codes) :
    ∀ code ∈ codes, (Char.ofNat code).isLower = false := by
  have hall : ∀ entry ∈ expandingCase, ∀ code ∈ entry.2, code < 97 ∨ 122 < code := by decide
  intro code hcode
  exact isLower_ofNat (hall (n, codes) (mem_of_lookup h) code hcode)

/-- No run of letters has upper-case forms among the small letters. -/
theorem isLower_caseRun {n : Nat} {r : CaseRun}
    (h : (caseRuns1 ++ caseRuns2).find? (·.covers n) = some r) :
    (Char.ofNat (n + r.shift).toNat).isLower = false := by
  have hall : ∀ r ∈ caseRuns1 ++ caseRuns2, 122 < r.first + r.shift ∨ r.last + r.shift < 97 := by
    decide +kernel
  have hcovers := List.find?_some h
  simp only [CaseRun.covers, Bool.and_eq_true, decide_eq_true_eq] at hcovers
  apply isLower_ofNat
  rcases hall r (List.mem_of_find?_eq_some h) with hlt | hlt
  · right
    omega
  · left
    omega

/-- The upper-case form of a character has no small letter. -/
theorem isLower_of_mem_upperChar {c d : Char} (h : d ∈ upperChar c) : d.isLower = false := by
  unfold upperChar at h
  split at h
  · rename_i hascii
    obtain rfl := List.mem_singleton.mp h
    exact isLower_toUpper hascii
  · rename_i hascii
    split at h
    · rename_i codes hcodes
      obtain ⟨code, hcode, rfl⟩ := List.mem_map.mp h
      exact isLower_expandingCase hcodes code hcode
    · split at h
      · rename_i r hr
        obtain rfl := List.mem_singleton.mp h
        exact isLower_caseRun hr
      · obtain rfl := List.mem_singleton.mp h
        by_contra hlower
        rw [Bool.not_eq_false, isLower_iff] at hlower
        omega

/-- Every character has an upper-case form. -/
theorem upperChar_ne_nil (c : Char) : upperChar c ≠ [] := by
  unfold upperChar
  split
  · exact List.cons_ne_nil _ _
  · split
    · rename_i codes hcodes
      have hall : ∀ entry ∈ expandingCase, entry.2 ≠ [] := by decide
      rw [ne_eq, List.map_eq_nil_iff]
      exact hall (c.toNat, codes) (mem_of_lookup hcodes)
    · split <;> exact List.cons_ne_nil _ _

/-- Characters below the letters are only their own upper-case form. -/
theorem eq_of_mem_upperChar {c d : Char} (h : d ∈ upperChar c) (hpos : 0 < d.toNat)
    (hlt : d.toNat < 65) : d = c := by
  -- no other character has an upper-case form among them
  have hcode : ∀ {n : Nat}, d = Char.ofNat n → n < 65 := by
    rintro n rfl
    rcases toNat_ofNat n with heq | hzero
    · omega
    · omega
  unfold upperChar at h
  split at h
  · rename_i hascii
    obtain rfl := List.mem_singleton.mp h
    exact of_toNat_lt (p := fun c => c.toUpper.toNat < 65 → c.toUpper = c) 128
      (by decide) hascii hlt
  · split at h
    · rename_i codes hcodes
      have hall : ∀ entry ∈ expandingCase, ∀ code ∈ entry.2, 65 ≤ code := by decide
      obtain ⟨code, hcode', heq⟩ := List.mem_map.mp h
      have hge := hall (c.toNat, codes) (mem_of_lookup hcodes) code hcode'
      have hless := hcode heq.symm
      omega
    · split at h
      · rename_i r hr
        have hall : ∀ r ∈ caseRuns1 ++ caseRuns2, 65 ≤ r.first + r.shift := by decide +kernel
        have hcovers := List.find?_some hr
        simp only [CaseRun.covers, Bool.and_eq_true, decide_eq_true_eq] at hcovers
        have hge := hall r (List.mem_of_find?_eq_some hr)
        have hless := hcode (List.mem_singleton.mp h)
        omega
      · exact List.mem_singleton.mp h

end SwitchingAlgebra.Text
