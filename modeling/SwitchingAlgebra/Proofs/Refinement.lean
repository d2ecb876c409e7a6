/-
# Refinement of expressions

A tree refines another one if it has the same value under every assignment and is finished over the
same names wherever the other one is. Replacing nodes by refinements of them refines the whole tree.

* `Expr.Over` holds for finished trees whose names all have a property, so `WellFormed` is one case
  of it;
* `Expr.Refines` is kept by `transform`, whatever the replacements are made by.
-/
import SwitchingAlgebra.Expr.Eval

namespace SwitchingAlgebra

namespace Expr

/-! ## Names of a tree -/

/-- Inserting a name adds that name and no other. -/
theorem mem_insertName {x name : String} {found : List String} :
    x ∈ insertName name found ↔ x = name ∨ x ∈ found := by
  induction found with
  | nil => simp [insertName]
  | cons other rest ih =>
    unfold insertName
    split
    · rename_i h
      simp [h]
    · split
      · simp
      · simp [ih, or_left_comm]

/-- Collecting the names of a tree keeps what was found before. -/
theorem mem_namesOnto {x : String} (e : Expr) (found : List String) :
    x ∈ e.namesOnto found ↔ x ∈ found ∨ x ∈ e.names := by
  unfold names
  induction e generalizing found with
  | var name => simp [namesOnto, mem_insertName, or_comm]
  | const _ | hole => simp [namesOnto]
  | not e ih => exact ih found
  | bin _ l r ihl ihr | bare l r ihl ihr =>
    simp only [namesOnto]
    rw [ihr (l.namesOnto found), ihr (l.namesOnto []), ihl found]
    exact or_assoc

@[simp] theorem mem_names_var {x name : String} : x ∈ (var name).names ↔ x = name := by
  simp [names, namesOnto, insertName]

@[simp] theorem mem_names_const {x : String} {b : Bool} : ¬ x ∈ (const b).names := by
  simp [names, namesOnto]

@[simp] theorem mem_names_not {x : String} {e : Expr} : x ∈ (not e).names ↔ x ∈ e.names :=
  Iff.rfl

/-- An operator has the names of both operands. -/
@[simp] theorem mem_names_bin {x : String} {op : Op} {l r : Expr} :
    x ∈ (bin op l r).names ↔ x ∈ l.names ∨ x ∈ r.names := by
  show x ∈ r.namesOnto (l.namesOnto []) ↔ _
  rw [mem_namesOnto, mem_namesOnto l []]
  simp

/-- The value of a tree depends on the values of its names only. -/
theorem eval_congr {ρ σ : String → Bool} {e : Expr} (h : ∀ x ∈ e.names, ρ x = σ x) :
    e.eval ρ = e.eval σ := by
  induction e with
  | var name => exact h name (by simp)
  | const _ | bare _ _ _ _ | hole => rfl
  | not e ih =>
    simp only [eval]
    rw [ih h]
  | bin op l r ihl ihr =>
    simp only [eval]
    rw [ihl fun x hx => h x (by simp [hx]), ihr fun x hx => h x (by simp [hx])]

theorem eval_negate {ρ : String → Bool} (e : Expr) : e.negate.eval ρ = !e.eval ρ := by
  cases e <;> simp [negate, eval]

/-! ## Trees over names with a property -/

/-- A tree without holes and bare nodes whose names all satisfy `p`. -/
def Over (p : String → Prop) : Expr → Prop
  | var name => p name
  | const _ => True
  | not e => e.Over p
  | bin _ l r => l.Over p ∧ r.Over p
  | bare _ _ => False
  | hole => False

/-- A tree is well formed exactly if it is finished over nonempty names. -/
theorem wellFormed_iff_over (e : Expr) : e.WellFormed ↔ e.Over (· ≠ "") := by
  induction e with
  | var _ | const _ | bare _ _ _ _ | hole => exact Iff.rfl
  | not e ih => exact ih
  | bin _ l r ihl ihr => exact and_congr ihl ihr

/-- Weakening the property of the names. -/
theorem Over.mono {p q : String → Prop} (hpq : ∀ x, p x → q x) {e : Expr} (h : e.Over p) :
    e.Over q := by
  induction e with
  | var name => exact hpq name h
  | const _ => trivial
  | not e ih => exact ih h
  | bin _ l r ihl ihr => exact ⟨ihl h.1, ihr h.2⟩
  | bare _ _ _ _ | hole => exact h

/-- Two properties of the names together. -/
theorem Over.and {p q : String → Prop} {e : Expr} (hp : e.Over p) (hq : e.Over q) :
    e.Over fun x => p x ∧ q x := by
  induction e with
  | var _ => exact ⟨hp, hq⟩
  | const _ => trivial
  | not e ih => exact ih hp hq
  | bin _ l r ihl ihr => exact ⟨ihl hp.1 hq.1, ihr hp.2 hq.2⟩
  | bare _ _ _ _ | hole => exact hp

/-- Every name of a tree has the property. -/
theorem Over.of_mem_names {p : String → Prop} {e : Expr} (h : e.Over p) {x : String}
    (hx : x ∈ e.names) : p x := by
  induction e with
  | var name =>
    rw [mem_names_var.mp hx]
    exact h
  | const _ => exact absurd hx mem_names_const
  | not e ih => exact ih h hx
  | bin _ l r ihl ihr =>
    rcases mem_names_bin.mp hx with hx | hx
    · exact ihl h.1 hx
    · exact ihr h.2 hx
  | bare _ _ _ _ | hole => exact h.elim

/-- A finished tree is not missing. -/
theorem Over.isHole_eq_false {p : String → Prop} {e : Expr} (h : e.Over p) : e.isHole = false := by
  cases e with
  | hole => exact h.elim
  | _ => rfl

/-- A finished tree evaluates to the value of its truth function, whatever its names are. -/
theorem Over.evaluate_eq {p : String → Prop} {e : Expr} (h : e.Over p) (ρ : String → Bool) :
    e.evaluate ρ = .ok (e.eval ρ) := by
  induction e with
  | var _ | const _ => rfl
  | not e ih =>
    have hpresent : e.isHole = false := Over.isHole_eq_false (p := p) h
    simp [evaluate, eval, hpresent, ih h, bind, Except.bind, pure, Except.pure]
  | bin op l r ihl ihr =>
    simp [evaluate, eval, h.1.isHole_eq_false, h.2.isHole_eq_false, ihl h.1, ihr h.2, bind,
      Except.bind, pure, Except.pure]
  | bare _ _ _ _ | hole => exact h.elim

/-- A finished tree is over its own names. -/
theorem Over.names {p : String → Prop} {e : Expr} (h : e.Over p) : e.Over (· ∈ e.names) := by
  induction e with
  | var _ => exact mem_names_var.mpr rfl
  | const _ => trivial
  | not e ih => exact ih h
  | bin _ l r ihl ihr =>
    exact ⟨(ihl h.1).mono fun x hx => mem_names_bin.mpr (Or.inl hx),
      (ihr h.2).mono fun x hx => mem_names_bin.mpr (Or.inr hx)⟩
  | bare _ _ _ _ | hole => exact h

/-- A well formed tree is over its own names, none of them empty. -/
theorem WellFormed.over {e : Expr} (h : e.WellFormed) : e.Over fun x => x ≠ "" ∧ x ∈ e.names :=
  have h := (wellFormed_iff_over e).mp h
  h.and h.names

/-! ## Agreement -/

/-- Both trees have a value under every assignment, and it is the same. -/
def Agrees (e' e : Expr) : Prop :=
  ∀ ρ, ∃ b, e'.evaluate ρ = .ok b ∧ e.evaluate ρ = .ok b

/-- Well formed trees agree if they have the same truth function. -/
theorem agrees_of_eval {e' e : Expr} (h' : e'.WellFormed) (h : e.WellFormed)
    (heval : ∀ ρ, e'.eval ρ = e.eval ρ) : Agrees e' e :=
  fun ρ => ⟨e.eval ρ, by rw [evaluate_eq_ok_eval ρ h', heval ρ], evaluate_eq_ok_eval ρ h⟩

/-- Well formed trees agree exactly if they have the same truth function. -/
theorem agrees_iff {e' e : Expr} (h' : e'.WellFormed) (h : e.WellFormed) :
    Agrees e' e ↔ ∀ ρ, e'.eval ρ = e.eval ρ := by
  refine ⟨fun hagrees ρ => ?_, agrees_of_eval h' h⟩
  obtain ⟨b, hb', hb⟩ := hagrees ρ
  rw [evaluate_eq_ok_eval ρ h'] at hb'
  rw [evaluate_eq_ok_eval ρ h] at hb
  exact Except.ok.inj (hb'.trans hb.symm)

/-! ## Refinement -/

/-- The first tree has the value of the second under every assignment, and is finished over names
with a property wherever the second is. -/
structure Refines (e' e : Expr) : Prop where
  eval : ∀ ρ, e'.eval ρ = e.eval ρ
  finished : ∀ p, e.Over p → e'.Over p

namespace Refines

theorem refl (e : Expr) : Refines e e :=
  ⟨fun _ => rfl, fun _ h => h⟩

theorem trans {a b c : Expr} (hab : Refines a b) (hbc : Refines b c) : Refines a c :=
  ⟨fun ρ => (hab.eval ρ).trans (hbc.eval ρ), fun p h => hab.finished p (hbc.finished p h)⟩

theorem not {e' e : Expr} (h : Refines e' e) : Refines (.not e') (.not e) := by
  refine ⟨fun ρ => ?_, fun p hp => h.finished p hp⟩
  simp only [Expr.eval, h.eval ρ]

theorem bin {l' l r' r : Expr} (op : Op) (hl : Refines l' l) (hr : Refines r' r) :
    Refines (.bin op l' r') (.bin op l r) := by
  refine ⟨fun ρ => ?_, fun p hp => ⟨hl.finished p hp.1, hr.finished p hp.2⟩⟩
  simp only [Expr.eval, hl.eval ρ, hr.eval ρ]

theorem bare (l' l r' r : Expr) : Refines (.bare l' r') (.bare l r) :=
  ⟨fun _ => rfl, fun _ hp => hp⟩

theorem wellFormed {e' e : Expr} (h : Refines e' e) (he : e.WellFormed) : e'.WellFormed :=
  (wellFormed_iff_over e').mpr (h.finished _ ((wellFormed_iff_over e).mp he))

theorem names {e' e : Expr} (h : Refines e' e) (he : e.WellFormed) : e'.names ⊆ e.names :=
  fun _ hx => ((h.finished _ he.over).of_mem_names hx).2

theorem agrees {e' e : Expr} (h : Refines e' e) (he : e.WellFormed) : Agrees e' e :=
  agrees_of_eval (h.wellFormed he) he h.eval

end Refines

/-! ## Replacing nodes -/

section Transform

variable {f : Expr → Option Expr} (hf : ∀ e e', f e = some e' → Refines e' e)
include hf

/-- A node with its replacement, if there is one. -/
theorem step_refines (e : Expr) : Refines (transform.step f e) e := by
  unfold transform.step
  cases h : f e with
  | none => exact Refines.refl e
  | some e' => exact hf e e' h

/-- If every replacement refines its node, the transformed tree refines the tree. -/
theorem transform_refines (e : Expr) : Refines (e.transform f) e := by
  induction e with
  | var _ | const _ | hole => exact step_refines hf _
  | not e ih => exact (step_refines hf _).trans ih.not
  | bin op l r ihl ihr => exact (step_refines hf _).trans (Refines.bin op ihl ihr)
  | bare l r _ _ => exact (step_refines hf _).trans (Refines.bare _ _ _ _)

end Transform

end Expr

end SwitchingAlgebra
