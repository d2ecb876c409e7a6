/-
# Influence of variables on a table

The row of a table with one bit flipped is that of the same assignment with one name flipped. So a
tree depends on a name exactly if some entry of its truth vector differs from the one whose place
differs in the bit of the name, and these are the entries that the influence of the name counts.

* `Expr.DependsOn` says when a tree depends on a name, `dependsOn_iff_exists_row` finds a row that
  shows it;
* `influence_eq_ok`: the influence of names that is counted over all assignments;
* `flipShare_pos`: it is positive if some row shows that the tree depends on the name.
-/
import Mathlib.Algebra.Order.Field.Basic
import Mathlib.Algebra.Order.Field.Rat
import Mathlib.Logic.Function.Basic
import SwitchingAlgebra.Proofs.Table.Columns
import SwitchingAlgebra.Table.Influence

namespace SwitchingAlgebra

variable {names : List String} {name : String} {place : Nat} {e : Expr}

/-! ## Dependence -/

/-- Over a list of names, the value of the tree changes with the value of one name under some
assignment. -/
def Expr.DependsOn (names : List String) (e : Expr) (name : String) : Prop :=
  ∃ ρ, e.evaluate (listed names (Function.update ρ name false))
    ≠ e.evaluate (listed names (Function.update ρ name true))

/-- A well formed tree depends on a name if its truth function does. -/
theorem Expr.dependsOn_iff_eval (he : e.WellFormed) : e.DependsOn names name ↔
    ∃ ρ, e.eval (listed names (Function.update ρ name false))
      ≠ e.eval (listed names (Function.update ρ name true)) := by
  unfold DependsOn
  simp only [evaluate_eq_ok_eval _ he, ne_eq, Except.ok.injEq]

/-- Listed names read what their values are changed to. -/
theorem listed_update_of_mem (h : name ∈ names) (ρ : String → Bool) (b : Bool) :
    listed names (Function.update ρ name b) = Function.update (listed names ρ) name b := by
  funext other
  unfold listed
  by_cases heq : other = name
  · subst heq
    rw [if_pos h, Function.update_self, Function.update_self]
  · rw [Function.update_of_ne heq, Function.update_of_ne heq]

/-! ## Flipped bits -/

/-- The row that differs from another one in the bit of a place. -/
def flipRow (n place i : Nat) : Nat :=
  i ^^^ 2 ^ (n - 1 - place)

theorem flipRow_lt {n i : Nat} (hplace : place < n) (hi : i < 2 ^ n) : flipRow n place i < 2 ^ n :=
  Nat.xor_lt_two_pow hi (Nat.pow_lt_pow_right (by decide) (by omega))

/-- The bits of a flipped row are those of the row, but for one place. -/
theorem bitAt_flipRow {n other : Nat} (hplace : place < n) (hother : other < n) (i : Nat) :
    bitAt n other (flipRow n place i) = if other = place then !bitAt n other i
      else bitAt n other i := by
  unfold bitAt flipRow
  rw [Nat.testBit_xor, Nat.testBit_two_pow]
  split
  · rename_i h
    simp [h]
  · rename_i h
    have hne : n - 1 - place ≠ n - 1 - other := by omega
    simp [hne]

/-- The assignment of a flipped row flips the name at the place. -/
theorem value_flipRow (hnames : names.Nodup) (hname : names[place]? = some name) (i : Nat) :
    (rowAssignment names (flipRow names.length place i)).value
      = Function.update (rowAssignment names i).value name
      (!(rowAssignment names i).value name) := by
  funext other
  by_cases hmem : other ∈ names
  · obtain ⟨place', hother⟩ := List.mem_iff_getElem?.mp hmem
    obtain ⟨hplace, -⟩ := List.getElem?_eq_some_iff.mp hname
    obtain ⟨hplace', -⟩ := List.getElem?_eq_some_iff.mp hother
    rw [value_rowAssignment hnames hother, bitAt_flipRow hplace hplace']
    split
    · rename_i h
      subst h
      obtain rfl : other = name := Option.some.inj (hother.symm.trans hname)
      rw [Function.update_self, value_rowAssignment hnames hother]
    · rename_i h
      have hne : other ≠ name := by
        rintro rfl
        exact h ((List.getElem?_inj hplace' hnames).mp (hother.trans hname.symm))
      rw [Function.update_of_ne hne, value_rowAssignment hnames hother]
  · have hne : other ≠ name := fun heq => hmem (heq ▸ List.mem_of_getElem? hname)
    rw [Function.update_of_ne hne, value_rowAssignment_of_not_mem hmem,
      value_rowAssignment_of_not_mem hmem]

/-- A row reads the names that are not listed as 0. -/
theorem listed_rowAssignment (names : List String) (i : Nat) :
    listed names (rowAssignment names i).value = (rowAssignment names i).value := by
  funext other
  unfold listed
  split
  · rfl
  · exact (value_rowAssignment_of_not_mem ‹_› i).symm

/-- A well formed tree depends on a name exactly if its value differs between some row and the one
with the name flipped. -/
theorem dependsOn_iff_exists_row (hnames : names.Nodup) (hname : names[place]? = some name)
    (he : e.WellFormed) :
    e.DependsOn names name ↔ ∃ i < 2 ^ names.length, e.eval (rowAssignment names i).value
      ≠ e.eval (rowAssignment names (flipRow names.length place i)).value := by
  rw [Expr.dependsOn_iff_eval he]
  have hmem : name ∈ names := List.mem_of_getElem? hname
  constructor
  · rintro ⟨ρ, hρ⟩
    obtain ⟨i, hi, hvalue, -⟩ := exists_row_of_assignment hnames (Function.update ρ name false)
    rw [listed_update_of_mem hmem] at hvalue
    refine ⟨i, hi, ?_⟩
    rwa [value_flipRow hnames hname, hvalue, Function.update_self, Function.update_idem,
      ← listed_update_of_mem hmem, ← listed_update_of_mem hmem]
  · rintro ⟨i, -, hi⟩
    refine ⟨(rowAssignment names i).value, ?_⟩
    rw [listed_update_of_mem hmem, listed_update_of_mem hmem, listed_rowAssignment]
    rw [value_flipRow hnames hname] at hi
    -- the row itself is the one with the value that it gives the name
    have hself :
        Function.update (rowAssignment names i).value name ((rowAssignment names i).value name)
          = (rowAssignment names i).value := Function.update_eq_self ..
    cases hvalue : (rowAssignment names i).value name with
    | false =>
      rw [hvalue] at hself hi
      rwa [hself]
    | true =>
      rw [hvalue] at hself hi
      rw [hself]
      exact hi.symm

/-! ## Influence -/

/-- How often a flip counts in a column over a range. -/
theorem flipCount_map_range {n place : Nat} (hplace : place < n) (f : Nat → Bool) :
    flipCount ((List.range (2 ^ n)).map f).toArray (n - 1 - place)
      = (List.range (2 ^ n)).countP fun i => f i != f (flipRow n place i) := by
  have hentry : ∀ i < 2 ^ n, ((List.range (2 ^ n)).map f).toArray.getD i false = f i := by
    intro i hi
    simp [Array.getD_eq_getD_getElem?, hi]
  unfold flipCount
  rw [List.size_toArray, List.length_map, List.length_range]
  refine List.countP_congr fun i hi => ?_
  rw [List.mem_range] at hi
  rw [hentry i hi]
  exact hentry _ (flipRow_lt hplace hi) ▸ Iff.rfl

/-- The share of rows in which flipping the name at a place flips the value of a tree. -/
def flipShare (names : List String) (e : Expr) (place : Nat) : Rat :=
  ((List.range (2 ^ names.length)).countP fun i => e.eval (rowAssignment names i).value
    != e.eval (rowAssignment names (flipRow names.length place i)).value :
    Nat) / (2 ^ names.length : Nat)

/-- The influence of names that are few enough is the share of rows in which flipping them
counts. -/
theorem influence_eq_ok {settings : Settings}
    (hcount : (names.length : Int) ≤ settings.maxCountedVariables) (he : e.WellFormed) :
    influence settings names e
      = .ok (names.zipIdx.map fun (name, place) => (name, flipShare names e place)) := by
  unfold influence
  rw [if_pos hcount]
  split
  · rename_i hempty
    rw [List.isEmpty_iff.mp hempty]
    rfl
  · unfold countedInfluence
    rw [truthVector_eq names he]
    simp only [bind, Except.bind, pure, Except.pure]
    congr 1
    refine List.map_congr_left fun entry hentry => ?_
    obtain ⟨name, place⟩ := entry
    have hplace : place < names.length :=
      (List.getElem?_eq_some_iff.mp (List.mk_mem_zipIdx_iff_getElem?.mp hentry)).1
    rw [flipCount_map_range hplace, List.size_toArray, List.length_map, List.length_range]
    rfl

/-- A share is positive if flipping counts in some row. -/
theorem flipShare_pos {place : Nat} : 0 < flipShare names e place ↔ ∃ i < 2 ^ names.length,
    e.eval (rowAssignment names i).value
      ≠ e.eval (rowAssignment names (flipRow names.length place i)).value := by
  have hrows : (0 : Rat) < (2 ^ names.length : Nat) := by exact_mod_cast Nat.two_pow_pos _
  unfold flipShare
  rw [div_pos_iff_of_pos_right hrows, Nat.cast_pos, List.countP_pos_iff]
  simp only [List.mem_range, bne_iff_ne]

end SwitchingAlgebra
