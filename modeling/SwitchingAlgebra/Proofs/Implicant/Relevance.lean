/-
# Variables of a sum of prime implicants

A digit of a prime cube cannot be freed, so the tree depends on the variables that the prime
implicants ask for. And no other tree with the same values can do without these. So the variables of
the sum are those that the tree depends on, which are the ones with positive influence.

* `IsPrimeCube.exists_flip`: a fixed digit of a prime cube is needed in some row;
* `relevance_exact` is the theorem about the sum and the influence.
-/
import SwitchingAlgebra.Proofs.Implicant.Cover
import SwitchingAlgebra.Proofs.Table.Influence

namespace SwitchingAlgebra

open Digit

/-! ## Digits of prime cubes -/

theorem Digit.admits_not {d : Digit} {b : Bool} (h : ¬ d.Admits b) : d.Admits (!b) := by
  cases d <;> cases b <;> simp_all [Admits]

/-- A fixed digit of a prime cube is needed: in some row outside of the set flipping its bit leads
into the set. -/
theorem Digit.IsPrimeCube.exists_flip {n : Nat} {S : Int → Prop} {ds : List Digit}
    (h : IsPrimeCube n S ds) {place : Nat} {d : Digit} (hd : ds[place]? = some d) (hne : d ≠ free) :
    ∃ i : Nat, i < 2 ^ n ∧ ¬ S i ∧ S (flipRow n place i) := by
  obtain ⟨rfl, hinside, hprime⟩ := h
  obtain ⟨m, hm, hnot⟩ := hprime place d hd hne
  have hplace : place < ds.length := (List.getElem?_eq_some_iff.mp hd).1
  obtain ⟨⟨h0, hlt, hbits⟩, -⟩ := (inCube_set hplace free m).mp hm
  obtain ⟨i, rfl⟩ := Int.eq_ofNat_of_zero_le h0
  have hi : i < 2 ^ ds.length := by exact_mod_cast hlt
  rw [Int.toNat_natCast] at hbits
  have hcube : ∀ j : Nat, j < 2 ^ ds.length → d.Admits (bitAt ds.length place j) →
      (∀ other e, other ≠ place → ds[other]? = some e → e.Admits (bitAt ds.length other j)) →
      InCube ds j := by
    intro j hj hadmits hothers
    rw [← set_getElem? hd, inCube_set hplace, Int.toNat_natCast]
    exact ⟨⟨Int.natCast_nonneg j, by exact_mod_cast hj, hothers⟩, hadmits⟩
  refine ⟨i, hi, hnot, hinside _ (hcube _ (flipRow_lt hplace hi) ?_ fun other e hother he => ?_)⟩
  · rw [bitAt_flipRow hplace hplace, if_pos rfl]
    exact admits_not fun hadmits => hnot (hinside i (hcube i hi hadmits hbits))
  · rw [bitAt_flipRow hplace (List.getElem?_eq_some_iff.mp he).1, if_neg hother]
    exact hbits other e hother he

/-! ## Variables of the sum -/

namespace Implicant

variable {names : List String} {e : Expr}

/-- The sum for a well formed tree over distinct names is over the names that the tree depends
on. -/
theorem over_dependsOn (hnames : names.Nodup) (he : e.WellFormed) {sum : Expr}
    (h : minimize names [] e = .ok sum) : sum.Over fun name => e.DependsOn names name := by
  have hmem : ∀ i : Nat, (i : Int) ∈ ((List.range (2 ^ names.length)).filter fun i =>
      e.eval (rowAssignment names i).value).map Int.ofNat ↔
        i < 2 ^ names.length ∧ e.eval (rowAssignment names i).value = true := by
    intro i
    rw [mem_minterms_of_rows, List.mem_filter, List.mem_range]
  obtain ⟨chosen, hmin, hprime, -⟩ := minimize_eq_ok (trueRows_eq names he) fun i hi =>
    List.mem_range.mp (List.mem_filter.mp hi).1
  obtain rfl := Except.ok.inj (hmin.symm.trans h)
  refine Chain.over_join fun t ht => ?_
  obtain ⟨p, hp, rfl⟩ := List.mem_map.mp ht
  refine over_term_of_fixed fun place d name hd hne hname => ?_
  obtain ⟨i, hi, hfalse, htrue⟩ := (hprime p hp).2.exists_flip hd hne
  rw [hmem] at hfalse htrue
  refine (dependsOn_iff_exists_row hnames hname he).mpr ⟨i, hi, ?_⟩
  rw [htrue.2]
  exact fun htrue' => hfalse ⟨hi, htrue'⟩

/-- A tree with the values of another one over listed names has all names that the other one depends
on. -/
theorem mem_names_of_dependsOn (he : e.WellFormed) {sum : Expr}
    (heval : ∀ ρ, sum.eval ρ = e.eval (listed names ρ)) {name : String}
    (h : e.DependsOn names name) : name ∈ sum.names := by
  by_contra hnot
  obtain ⟨ρ, hρ⟩ := (Expr.dependsOn_iff_eval he).mp h
  rw [← heval, ← heval] at hρ
  refine hρ (Expr.eval_congr fun other hother => ?_)
  have hne : other ≠ name := fun heq => hnot (heq ▸ hother)
  rw [Function.update_of_ne hne, Function.update_of_ne hne]

/-- Over distinct names, few enough for their influence to be counted over all assignments, a well
formed tree has a sum of prime implicants, and each name has an influence. The names of the sum are
those that the tree depends on, and the influence of a name is positive exactly if the tree depends
on it. -/
theorem relevance_exact {settings : Settings} {names : List String} (hnames : names.Nodup)
    (hcount : (names.length : Int) ≤ settings.maxCountedVariables) {e : Expr} (he : e.WellFormed) :
    ∃ sum scores, minimize names [] e = .ok sum ∧ influence settings names e = .ok scores ∧
      scores.map Prod.fst = names ∧ (∀ name, name ∈ sum.names ↔ e.DependsOn names name) ∧
      ∀ entry ∈ scores, e.DependsOn names entry.1 ↔ 0 < entry.2 := by
  obtain ⟨sum, hsum, -, heval⟩ := minimize_correct hnames he
  refine ⟨sum, _, hsum, influence_eq_ok hcount he, ?_,
    fun name => ⟨?_, mem_names_of_dependsOn he heval⟩, ?_⟩
  · simp [Function.comp_def]
  · exact (over_dependsOn hnames he hsum).of_mem_names
  · intro entry hentry
    obtain ⟨⟨name, place⟩, hplace, rfl⟩ := List.mem_map.mp hentry
    rw [flipShare_pos]
    exact dependsOn_iff_exists_row hnames (List.mk_mem_zipIdx_iff_getElem?.mp hplace) he

/-- Three names, one of which cancels out and one of which the tree does not have. -/
theorem relevance_exact_of_cancelled : ["A", "B", "C"].Nodup ∧
    ((["A", "B", "C"].length : Int) ≤ ({} : Settings).maxCountedVariables) ∧
    (Expr.bin .or (.bin .and (.var "A") (.var "B"))
      (.bin .and (.var "A") (.not (.var "B")))).WellFormed ∧
    ∃ sum, minimize ["A", "B", "C"] []
      (.bin .or (.bin .and (.var "A") (.var "B")) (.bin .and (.var "A") (.not (.var "B"))))
        = .ok sum ∧
      "A" ∈ sum.names ∧ "B" ∉ sum.names ∧ "C" ∉ sum.names := by
  have hnames : ["A", "B", "C"].Nodup := by decide
  have hcount : (["A", "B", "C"].length : Int) ≤ ({} : Settings).maxCountedVariables := by decide
  have he :
      (Expr.bin .or (.bin .and (.var "A") (.var "B"))
        (.bin .and (.var "A") (.not (.var "B")))).WellFormed := by
    decide
  obtain ⟨sum, -, hsum, -, -, hdepends, -⟩ := relevance_exact hnames hcount he
  refine ⟨hnames, hcount, he, sum, hsum, ?_, ?_, ?_⟩
  · rw [hdepends, dependsOn_iff_exists_row hnames (show ["A", "B", "C"][0]? = some "A" from rfl) he]
    decide
  · rw [hdepends, dependsOn_iff_exists_row hnames (show ["A", "B", "C"][1]? = some "B" from rfl) he]
    decide
  · rw [hdepends, dependsOn_iff_exists_row hnames (show ["A", "B", "C"][2]? = some "C" from rfl) he]
    decide

end Implicant

end SwitchingAlgebra
