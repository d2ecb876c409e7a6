/-
# Arcs along an axis

The places along a circle fall into arcs that cannot be made longer. Every place lies on an arc: the
way back from it reaches a place that is missing, and the arc starts right after the first such
place.

* `lt_runLength` says how far a run goes;
* `mem_iff_exists_arc`: the places are those of the arcs;
* `arcs_congr`: only the set of places counts.
-/
import Mathlib.Data.Nat.Find
import Mathlib.Order.Basic
import SwitchingAlgebra.Karnaugh.Regions
import SwitchingAlgebra.Proofs.Karnaugh.Rectangle

namespace SwitchingAlgebra.Karnaugh

variable {places : List Nat} {size : Nat}

/-! ## Runs -/

/-- A run takes a step if all places up to it are there. -/
theorem lt_runLength {start bound step : Nat} :
    step < runLength places size start bound ↔ step < bound ∧
      ∀ t ≤ step, (start + t) % size ∈ places := by
  induction bound generalizing start step with
  | zero => exact iff_of_false (Nat.not_lt_zero step) fun h => Nat.not_lt_zero step h.1
  | succ bound ih =>
    rw [runLength]
    split
    · rename_i hstart
      rw [List.contains_iff_mem] at hstart
      cases step with
      | zero =>
        refine iff_of_true (Nat.succ_pos _) ⟨Nat.succ_pos _, fun t ht => ?_⟩
        rw [Nat.le_zero.mp ht]
        exact hstart
      | succ step =>
        rw [Nat.succ_lt_succ_iff, Nat.succ_lt_succ_iff, ih]
        refine and_congr_right fun _ => ⟨fun h t ht => ?_, fun h t ht => ?_⟩
        · cases t with
          | zero => exact hstart
          | succ t =>
            rw [← Nat.add_assoc, Nat.add_right_comm]
            exact h t (Nat.le_of_succ_le_succ ht)
        · rw [Nat.add_right_comm, Nat.add_assoc]
          exact h (t + 1) (Nat.succ_le_succ ht)
    · rename_i hstart
      rw [List.contains_iff_mem] at hstart
      exact iff_of_false (Nat.not_lt_zero step) fun h => hstart (h.2 0 (Nat.zero_le step))

/-- A run is not longer than its bound. -/
theorem runLength_le (places : List Nat) (size start bound : Nat) :
    runLength places size start bound ≤ bound :=
  Nat.le_of_not_lt fun h => Nat.lt_irrefl bound (lt_runLength.mp h).1

/-- Only the set of places counts for a run. -/
theorem runLength_congr {places' : List Nat} (h : ∀ p, p ∈ places ↔ p ∈ places')
    (size start bound : Nat) :
    runLength places size start bound = runLength places' size start bound :=
  eq_of_forall_lt_iff fun step => by simp only [lt_runLength, h]

/-! ## Arcs -/

/-- If all places of a circle are there, they are one arc. -/
theorem arcs_of_forall_mem (h : ∀ p < size, p ∈ places) : arcs places size = [(0, size)] := by
  unfold arcs
  rw [if_pos]
  rw [List.filter_eq_self.mpr fun p hp => List.contains_iff_mem.mpr (h p (List.mem_range.mp hp)),
    List.length_range]

/-- If a place is missing, the arcs are the runs from the places that follow a missing one. -/
theorem mem_arcs {missing : Nat} (hlt : missing < size) (hmissing : missing ∉ places)
    {arc : Nat × Nat} :
    arc ∈ arcs places size ↔ arc.1 < size ∧ arc.1 ∈ places ∧ (arc.1 + size - 1) % size ∉ places ∧
      arc.2 = runLength places size arc.1 size := by
  have hshort : ((List.range size).filter places.contains).length ≠ size := by
    intro hfull
    have hall := List.length_filter_eq_length_iff.mp (hfull.trans List.length_range.symm)
    exact hmissing (List.contains_iff_mem.mp (hall missing (List.mem_range.mpr hlt)))
  obtain ⟨start, length⟩ := arc
  unfold arcs
  simp only [if_neg hshort, List.mem_map, List.mem_filter, List.mem_range, Bool.not_eq_true',
    List.contains_eq_mem, decide_eq_true_eq, decide_eq_false_iff_not, Prod.mk.injEq]
  constructor
  · rintro ⟨p, ⟨⟨hp, hmem⟩, hbefore⟩, rfl, rfl⟩
    exact ⟨hp, hmem, hbefore, rfl⟩
  · rintro ⟨hp, hmem, hbefore, rfl⟩
    exact ⟨start, ⟨⟨hp, hmem⟩, hbefore⟩, rfl, rfl⟩

/-- An arc is not longer than the circle. -/
theorem length_le_of_mem_arcs {arc : Nat × Nat} (h : arc ∈ arcs places size) : arc.2 ≤ size := by
  by_cases hall : ∀ p < size, p ∈ places
  · rw [arcs_of_forall_mem hall, List.mem_singleton] at h
    rw [h]
  · simp only [not_forall] at hall
    obtain ⟨missing, hlt, hmissing⟩ := hall
    rw [((mem_arcs hlt hmissing).mp h).2.2.2]
    exact runLength_le ..

/-- The first place of a run and its length, if a place is there but not all are. -/
theorem exists_run {missing : Nat} (hlt : missing < size) (hmissing : missing ∉ places) {p : Nat}
    (hp : p < size) (hmem : p ∈ places) :
    ∃ start < size, (start + size - 1) % size ∉ places ∧
      ∃ step < runLength places size start size, (start + step) % size = p := by
  -- how far the way back from the place is to the first one that is missing
  have hback : ∃ k, (p + size - k) % size ∉ places ∧ k ≤ size := by
    by_cases hle : missing ≤ p
    · refine ⟨p - missing, ?_, by omega⟩
      rwa [show p + size - (p - missing) = missing + size by omega, Nat.add_mod_right,
        Nat.mod_eq_of_lt hlt]
    · refine ⟨p + size - missing, ?_, by omega⟩
      rwa [show p + size - (p + size - missing) = missing by omega, Nat.mod_eq_of_lt hlt]
  classical
  obtain ⟨hfirst, hbound⟩ := Nat.find_spec hback
  have hearlier : ∀ k < Nat.find hback, (p + size - k) % size ∈ places := by
    intro k hk
    by_contra hnot
    exact Nat.find_min hback hk ⟨hnot, by omega⟩
  generalize Nat.find hback = k at hfirst hbound hearlier
  cases k with
  | zero =>
    rw [Nat.sub_zero, Nat.add_mod_right, Nat.mod_eq_of_lt hp] at hfirst
    exact absurd hmem hfirst
  | succ k =>
    have hsize : 0 < size := by omega
    have hreached : ∀ t ≤ k, ((p + size - k) % size + t) % size = (p + size - (k - t)) % size := by
      intro t ht
      rw [Nat.mod_add_mod, show p + size - k + t = p + size - (k - t) by omega]
    refine ⟨(p + size - k) % size, Nat.mod_lt _ hsize, ?_, k,
      lt_runLength.mpr ⟨by omega, fun t ht => ?_⟩, ?_⟩
    · have hpred : ((p + size - k) % size + size - 1) % size = (p + size - (k + 1)) % size := by
        rw [Nat.add_sub_assoc hsize, Nat.mod_add_mod,
          show p + size - k + (size - 1) = p + size - (k + 1) + size by omega, Nat.add_mod_right]
      rwa [hpred]
    · rw [hreached t ht]
      exact hearlier _ (by omega)
    · rw [hreached k (Nat.le_refl k), Nat.sub_self, Nat.sub_zero, Nat.add_mod_right,
        Nat.mod_eq_of_lt hp]

/-- A place is there if it lies on an arc. -/
theorem mem_iff_exists_arc {p : Nat} (hp : p < size) :
    p ∈ places ↔ ∃ arc ∈ arcs places size, inArc arc.1 arc.2 size p = true := by
  simp only [inArc_iff hp]
  by_cases hall : ∀ p < size, p ∈ places
  · rw [arcs_of_forall_mem hall]
    refine iff_of_true (hall p hp) ⟨_, List.mem_singleton.mpr rfl, p, hp, ?_⟩
    rw [Nat.zero_add, Nat.mod_eq_of_lt hp]
  · simp only [not_forall] at hall
    obtain ⟨missing, hlt, hmissing⟩ := hall
    constructor
    · intro hmem
      obtain ⟨start, hstart, hbefore, step, hstep, hreached⟩ := exists_run hlt hmissing hp hmem
      have hfirst : start ∈ places := by
        have hzero := (lt_runLength.mp hstep).2 0 (Nat.zero_le step)
        rwa [Nat.add_zero, Nat.mod_eq_of_lt hstart] at hzero
      exact ⟨(start, _), (mem_arcs hlt hmissing).mpr ⟨hstart, hfirst, hbefore, rfl⟩, step,
        hstep, hreached⟩
    · rintro ⟨arc, harc, step, hstep, rfl⟩
      rw [((mem_arcs hlt hmissing).mp harc).2.2.2] at hstep
      exact (lt_runLength.mp hstep).2 step (Nat.le_refl step)

/-- Only the set of places counts for the arcs. -/
theorem arcs_congr {places' : List Nat} (h : ∀ p, p ∈ places ↔ p ∈ places') (size : Nat) :
    arcs places size = arcs places' size := by
  have hcontains : ∀ p, places.contains p = places'.contains p := by
    intro p
    rw [Bool.eq_iff_iff, List.contains_iff_mem, List.contains_iff_mem, h]
  unfold arcs
  simp only [hcontains, funext hcontains, runLength_congr h]

end SwitchingAlgebra.Karnaugh
