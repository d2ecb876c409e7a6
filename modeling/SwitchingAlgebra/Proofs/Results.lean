/-
# Results of operations that may fail

What comes after an operation works on its result. An operation on single items succeeds on a list
if it does on every item, and gives their results in order.

* `bind_eq_ok_iff`, `map_eq_ok_iff` lead from a result back to the results that it was made from;
* `mapM_eq_ok_iff`, `mapM_eq_ok_map`, `exists_mapM_iff`, `mem_mapM` are about lists.
-/
import Mathlib.Data.List.Forall2

namespace SwitchingAlgebra

variable {α β γ ε : Type} {f : α → Except ε β} {as : List α} {bs : List β}

/-! ## One operation after another -/

/-- Two operations after each other succeed if the second one does on the result of the first. -/
theorem bind_eq_ok_iff {g : β → Except ε γ} {x : Except ε β} {c : γ} :
    (x >>= g) = .ok c ↔ ∃ b, x = .ok b ∧ g b = .ok c := by
  cases x with
  | error fault => exact iff_of_false (fun h => nomatch h) fun ⟨_, h, _⟩ => nomatch h
  | ok b => exact ⟨fun h => ⟨b, rfl, h⟩, fun ⟨_, h, h'⟩ => Except.ok.inj h ▸ h'⟩

theorem pure_eq_ok_iff {b c : β} : (pure b : Except ε β) = .ok c ↔ b = c :=
  Except.ok.injEq b c ▸ Iff.rfl

/-- A result that is changed is that of the operation, changed. -/
theorem map_eq_ok_iff {g : β → γ} {x : Except ε β} {c : γ} :
    x.map g = .ok c ↔ ∃ b, x = .ok b ∧ g b = c := by
  cases x with
  | error fault => exact iff_of_false (fun h => nomatch h) fun ⟨_, h, _⟩ => nomatch h
  | ok b =>
    exact ⟨fun h => ⟨b, rfl, Except.ok.inj h⟩,
      fun ⟨_, h, h'⟩ => Except.ok.inj h ▸ congrArg Except.ok h'⟩

/-! ## One operation on all items -/

/-- The results of a list are those of its items, in order. -/
theorem mapM_eq_ok_iff : as.mapM f = .ok bs ↔ List.Forall₂ (fun a b => f a = .ok b) as bs := by
  induction as generalizing bs with
  | nil =>
    rw [List.mapM_nil, List.forall₂_nil_left_iff, pure_eq_ok_iff]
    exact eq_comm
  | cons a as ih =>
    rw [List.mapM_cons, List.forall₂_cons_left_iff]
    simp only [bind_eq_ok_iff, pure_eq_ok_iff, ih]
    constructor
    · rintro ⟨b, hfirst, rest, hrest, rfl⟩
      exact ⟨b, rest, hfirst, hrest, rfl⟩
    · rintro ⟨b, rest, hfirst, hrest, rfl⟩
      exact ⟨b, hfirst, rest, hrest, rfl⟩

/-- An operation that gives what a function says on every item gives on the list what the function
says. -/
theorem mapM_eq_ok_map {g : α → β} (h : ∀ a ∈ as, f a = .ok (g a)) :
    as.mapM f = .ok (as.map g) := by
  rw [mapM_eq_ok_iff, List.forall₂_map_right_iff, List.forall₂_same]
  exact h

/-- Operations that do the same on every item do the same on the list. -/
theorem mapM_congr {g : α → Except ε β} (h : ∀ a ∈ as, f a = g a) : as.mapM f = as.mapM g := by
  induction as with
  | nil => rfl
  | cons a as ih =>
    obtain ⟨ha, has⟩ := List.forall_mem_cons.mp h
    rw [List.mapM_cons, List.mapM_cons, ha, ih has]

/-- A list has results exactly if every item has one. -/
theorem exists_mapM_iff : (∃ bs, as.mapM f = .ok bs) ↔ ∀ a ∈ as, ∃ b, f a = .ok b := by
  induction as with
  | nil => exact iff_of_true ⟨[], rfl⟩ fun _ h => nomatch h
  | cons a as ih =>
    rw [List.forall_mem_cons, ← ih]
    simp only [mapM_eq_ok_iff, List.forall₂_cons_left_iff]
    constructor
    · rintro ⟨_, b, bs, hfirst, hrest, -⟩
      exact ⟨⟨b, hfirst⟩, bs, hrest⟩
    · rintro ⟨⟨b, hfirst⟩, bs, hrest⟩
      exact ⟨b :: bs, b, bs, hfirst, hrest, rfl⟩

/-- The results of a list are the results of its items. -/
theorem mem_mapM (h : as.mapM f = .ok bs) {b : β} : b ∈ bs ↔ ∃ a ∈ as, f a = .ok b := by
  rw [mapM_eq_ok_iff] at h
  induction h with
  | nil => simp
  | @cons a b' as bs hfirst _ ih =>
    have heq : b = b' ↔ f a = .ok b := by rw [hfirst, Except.ok.injEq, eq_comm]
    rw [List.mem_cons, ih, heq, List.exists_mem_cons_iff]

end SwitchingAlgebra
