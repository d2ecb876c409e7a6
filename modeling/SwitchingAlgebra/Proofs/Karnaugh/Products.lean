/-
# Rows of a product

The rows of a product are found from its literals one after the other. A later literal of a variable
takes the place of an earlier one, and a literal of a name that is not listed has no effect. So the
rows are those where the product is true, if there are any such rows; a product that is true in no
row has rows all the same.

* `LastLiteral`, `HoldsLast` say which literals count;
* `mem_productRows`, `isCube_productRows` are the rows that are found;
* `holdsLast_of_eval`, `eval_of_holdsLast` compare them with those where the product is true.
-/
import SwitchingAlgebra.Karnaugh.Regions
import SwitchingAlgebra.Proofs.Karnaugh.Cubes
import SwitchingAlgebra.Proofs.Polarity
import SwitchingAlgebra.Proofs.Table.Columns
import SwitchingAlgebra.Proofs.Results

namespace SwitchingAlgebra.Karnaugh

open Digit

/-! ## Literals in order -/

/-- The last literal of a name among factors, by its value. -/
def LastLiteral (name : String) (value : Bool) (factors : List Expr) : Prop :=
  ∃ before after, factors = before ++ Expr.literal name value :: after ∧
    ∀ other, Expr.literal name other ∉ after

/-- What a product asks for if only the last literal of each listed name counts. -/
def HoldsLast (names : List String) (product : Expr) (ρ : String → Bool) : Prop :=
  .const false ∉ product.operands .and ∧
    ∀ name ∈ names, ∀ value, LastLiteral name value (product.operands .and) → ρ name = value

variable {name : String} {value : Bool} {f : Expr} {fs : List Expr}

theorem literal_inj {name' : String} {value' : Bool} :
    Expr.literal name value = Expr.literal name' value' ↔ name = name' ∧ value = value' := by
  cases value <;> cases value' <;> simp [Expr.literal]

/-- The last literal comes among the later factors, or it comes first and has no later one. -/
theorem lastLiteral_cons : LastLiteral name value (f :: fs) ↔
    LastLiteral name value fs ∨ (f = Expr.literal name value ∧
      ∀ other, Expr.literal name other ∉ fs) := by
  constructor
  · rintro ⟨before, after, heq, hlast⟩
    cases before with
    | nil =>
      obtain ⟨rfl, rfl⟩ := List.cons.inj heq
      exact Or.inr ⟨rfl, hlast⟩
    | cons g before =>
      obtain ⟨rfl, rfl⟩ := List.cons.inj heq
      exact Or.inl ⟨before, after, rfl, hlast⟩
  · rintro (⟨before, after, rfl, hlast⟩ | ⟨rfl, hlast⟩)
    · exact ⟨f :: before, after, rfl, hlast⟩
    · exact ⟨[], fs, rfl, hlast⟩

theorem LastLiteral.mem (h : LastLiteral name value fs) : Expr.literal name value ∈ fs := by
  obtain ⟨before, after, rfl, -⟩ := h
  exact List.mem_append_right before List.mem_cons_self

/-- A name with a literal has a last one. -/
theorem exists_lastLiteral (h : Expr.literal name value ∈ fs) :
    ∃ value', LastLiteral name value' fs := by
  induction fs generalizing value with
  | nil => exact nomatch h
  | cons f fs ih =>
    by_cases hlater : ∃ other, Expr.literal name other ∈ fs
    · obtain ⟨other, hother⟩ := hlater
      obtain ⟨value', hlast⟩ := ih hother
      exact ⟨value', lastLiteral_cons.mpr (Or.inl hlast)⟩
    · have hnone : ∀ other, Expr.literal name other ∉ fs :=
        fun other hother => hlater ⟨other, hother⟩
      have hfirst : f = Expr.literal name value :=
        ((List.mem_cons.mp h).resolve_right (hnone value)).symm
      exact ⟨value, lastLiteral_cons.mpr (Or.inr ⟨hfirst, hnone⟩)⟩

/-! ## Values that are fixed -/

/-- The factor that fixes a value, or the one that fixes none. -/
def factorOf : Option (String × Bool) → Expr
  | some (name, value) => Expr.literal name value
  | none => .const true

/-- The factors that a product may have. -/
theorem fixedValue?_eq_ok_iff {v : Option (String × Bool)} :
    fixedValue? f = .ok v ↔ f = factorOf v := by
  constructor
  · intro h
    unfold fixedValue? at h
    split at h
    · exact (Except.ok.inj h) ▸ rfl
    · exact (Except.ok.inj h) ▸ rfl
    · exact (Except.ok.inj h) ▸ rfl
    · exact nomatch h
  · rintro rfl
    cases v with
    | none => rfl
    | some entry =>
      obtain ⟨name, value⟩ := entry
      cases value <;> rfl

/-- The value that is fixed for a name is that of its last literal. -/
theorem lastValue?_eq_some_iff {vs : List (Option (String × Bool))} :
    lastValue? name (vs.filterMap id) = some value ↔ LastLiteral name value (vs.map factorOf) := by
  induction vs generalizing value with
  | nil => exact iff_of_false (fun h => nomatch h) fun h => nomatch h.mem
  | cons v vs ih =>
    rw [List.map_cons, lastLiteral_cons]
    cases v with
    | none =>
      have hconst : factorOf none ≠ Expr.literal name value := by
        cases value <;> exact fun h => nomatch h
      rw [or_iff_left fun h => hconst h.1]
      exact ih
    | some entry =>
      obtain ⟨other, b⟩ := entry
      show lastValue? name ((other, b) :: vs.filterMap id) = some value ↔ _
      rw [lastValue?]
      cases hlater : lastValue? name (vs.filterMap id) with
      | some y =>
        have hy := ih.mp hlater
        rw [or_iff_left fun h => h.2 y hy.mem, ← ih, hlater]
      | none =>
        have hnone : ∀ b, Expr.literal name b ∉ vs.map factorOf := by
          intro b hb
          obtain ⟨value', hlast⟩ := exists_lastLiteral hb
          exact absurd (hlater.symm.trans (ih.mpr hlast)) (by simp)
        rw [or_iff_right fun h => hnone value h.mem, and_iff_left hnone]
        show (if other = name then some b else none) = some value ↔ Expr.literal other b = _
        rw [literal_inj, Option.ite_none_right_eq_some, Option.some.injEq]

/-! ## Rows -/

variable {names : List String} {product : Expr} {rows : List Nat}

/-- The values that are fixed by factors. -/
theorem mapM_fixedValue?_eq_ok_iff {vs : List (Option (String × Bool))} :
    fs.mapM fixedValue? = .ok vs ↔ fs = vs.map factorOf := by
  rw [mapM_eq_ok_iff]
  simp only [fixedValue?_eq_ok_iff]
  rw [← List.forall₂_map_right_iff, List.forall₂_eq_eq_eq]

/-- The rows of a product are those that agree with the values that its factors fix. -/
theorem productRows_eq_ok_iff : productRows names product = .ok rows ↔
    ∃ vs : List (Option (String × Bool)), product.operands .and = vs.map factorOf ∧
      rows = (List.range (2 ^ names.length)).filter fun i =>
      agrees (vs.filterMap id) (rowAssignment names i) := by
  unfold productRows
  simp only [bind_eq_ok_iff, pure_eq_ok_iff, mapM_fixedValue?_eq_ok_iff]
  exact exists_congr fun vs => and_congr_right fun _ => eq_comm

/-- A product has rows if its factors are literals and constants 1. -/
theorem exists_productRows_iff (names : List String) :
    (∃ rows, productRows names product = .ok rows) ↔ ∀ f ∈ product.operands .and, f = .const true ∨
      ∃ name value, f = Expr.literal name value := by
  have hfactor : ∀ f, (∃ v, fixedValue? f = .ok v) ↔ f = .const true ∨
      ∃ name value, f = Expr.literal name value := by
    intro f
    simp only [fixedValue?_eq_ok_iff, Option.exists, Prod.exists]
    rfl
  simp only [← hfactor]
  rw [← exists_mapM_iff]
  simp only [productRows_eq_ok_iff, ← mapM_fixedValue?_eq_ok_iff]
  constructor
  · rintro ⟨_, vs, hvs, -⟩
    exact ⟨vs, hvs⟩
  · rintro ⟨vs, hvs⟩
    exact ⟨_, vs, hvs, rfl⟩

/-- A row of distinct names agrees with the fixed values if its names do. -/
theorem agrees_rowAssignment (hnames : names.Nodup) {fixed : Assignment} {i : Nat} :
    agrees fixed (rowAssignment names i) = true ↔
      ∀ name ∈ names, ∀ value, lastValue? name fixed = some value →
      (rowAssignment names i).value name = value := by
  have hentry : ∀ (place : Nat) (name : String), names[place]? = some name →
      (name, (rowAssignment names i).value name) ∈ rowAssignment names i := by
    intro place name hname
    rw [value_rowAssignment hnames hname]
    exact List.mem_map.mpr ⟨(name, place), List.mk_mem_zipIdx_iff_getElem?.mpr hname, rfl⟩
  have hvalue :
      ∀ entry ∈ rowAssignment names i, entry.2 = (rowAssignment names i).value entry.1 := by
    intro entry hmem
    obtain ⟨⟨name, place⟩, hplace, rfl⟩ := List.mem_map.mp hmem
    exact (value_rowAssignment hnames (List.mk_mem_zipIdx_iff_getElem?.mp hplace) i).symm
  unfold agrees
  rw [List.all_eq_true]
  constructor
  · intro h name hmem value hfixed
    obtain ⟨place, hname⟩ := List.mem_iff_getElem?.mp hmem
    have hagrees := h _ (hentry place name hname)
    simp only [hfixed, decide_eq_true_eq] at hagrees
    exact hagrees
  · intro h entry hmem
    have hlisted : entry.1 ∈ names := map_fst_rowAssignment names i ▸ List.mem_map_of_mem hmem
    simp only
    cases hfixed : lastValue? entry.1 fixed with
    | none => exact decide_eq_true (hvalue entry hmem)
    | some wanted => exact decide_eq_true ((hvalue entry hmem).trans (h _ hlisted _ hfixed))

/-- The rows of a product over distinct names are those where its last literals hold. -/
theorem mem_productRows (hnames : names.Nodup)
    (h : productRows names product = .ok rows) {i : Nat} :
    i ∈ rows ↔ i < 2 ^ names.length ∧ HoldsLast names product (rowAssignment names i).value := by
  obtain ⟨vs, hfactors, rfl⟩ := productRows_eq_ok_iff.mp h
  have hzero : .const false ∉ vs.map factorOf := by
    intro hmem
    obtain ⟨v, -, hv⟩ := List.mem_map.mp hmem
    exact nomatch fixedValue?_eq_ok_iff.mpr hv.symm
  rw [List.mem_filter, List.mem_range, agrees_rowAssignment hnames]
  unfold HoldsLast
  rw [hfactors, and_iff_right hzero]
  simp only [lastValue?_eq_some_iff]

/-- The rows of a product over distinct names form a cube. -/
theorem isCube_productRows (hnames : names.Nodup) (h : productRows names product = .ok rows) :
    IsCube rows := by
  obtain ⟨vs, -, rfl⟩ := productRows_eq_ok_iff.mp h
  have hlt : ∀ i ∈ (List.range (2 ^ names.length)).filter fun i =>
      agrees (vs.filterMap id) (rowAssignment names i), i < 2 ^ names.length :=
        fun i hi => List.mem_range.mp (List.mem_filter.mp hi).1
  let digit (name : String) : Digit := (lastValue? name (vs.filterMap id)).elim .free ofBit
  have hadmits : ∀ name b, (digit name).Admits b ↔
      ∀ value, lastValue? name (vs.filterMap id) = some value → b = value := by
    intro name b
    show (((lastValue? name (vs.filterMap id)).elim .free ofBit).Admits b) ↔ _
    cases lastValue? name (vs.filterMap id) with
    | none => exact iff_of_true trivial fun _ h => nomatch h
    | some value =>
      exact admits_ofBit.trans ⟨fun h _ heq => h.trans (Option.some.inj heq), fun h => h value rfl⟩
  refine (isCube_iff_exists_digits hlt).mpr ⟨names.map digit, List.length_map _, fun i => ?_⟩
  have hcast : (i : Int) < 2 ^ names.length ↔ i < 2 ^ names.length := by norm_cast
  unfold InCube
  rw [List.mem_filter, List.mem_range, agrees_rowAssignment hnames, List.length_map, hcast,
    Int.toNat_natCast, and_iff_right (Int.natCast_nonneg i)]
  refine and_congr_right fun _ => ⟨fun hvalues place d hd => ?_,
    fun hdigits name hmem value hfixed => ?_⟩
  · rw [List.getElem?_map, Option.map_eq_some_iff] at hd
    obtain ⟨name, hname, rfl⟩ := hd
    rw [hadmits, ← value_rowAssignment hnames hname]
    exact hvalues name (List.mem_of_getElem? hname)
  · obtain ⟨place, hname⟩ := List.mem_iff_getElem?.mp hmem
    rw [value_rowAssignment hnames hname]
    have hd : (names.map digit)[place]? = some (digit name) := by rw [List.getElem?_map, hname]; rfl
    exact (hadmits name _).mp (hdigits place _ hd) value hfixed

/-! ## Rows where a product is true -/

/-- A product is true if all of its factors are. -/
theorem eval_product_iff {ρ : String → Bool} :
    product.eval ρ = true ↔ ∀ f ∈ product.operands .and, f.eval ρ = true := by
  have hfalse : product.eval ρ = false ↔ ∃ f ∈ product.operands .and, f.eval ρ = false :=
    Chain.holds_iff_operands (k := .product)
  rw [← Bool.not_eq_false, hfalse]
  simp

/-- Where a product is true, its last literals hold. -/
theorem holdsLast_of_eval {ρ : String → Bool} (h : product.eval ρ = true) :
    HoldsLast names product ρ := by
  have hfactors := eval_product_iff.mp h
  refine ⟨fun hmem => ?_, fun name _ value hlast => ?_⟩
  · exact absurd (hfactors _ hmem) (by simp [Expr.eval])
  · exact (eval_literal name value).mp (hfactors _ hlast.mem)

/-- If a product of literals is true in some row, it is true wherever its last literals hold: all
literals of a listed name then have one value, and all other literals ask for 0. -/
theorem eval_of_holdsLast
    (hfactors : ∀ f ∈ product.operands .and, f = .const true ∨
      ∃ name value, f = Expr.literal name value)
    {ρ σ : String → Bool} (hσ : product.eval σ = true) (hother : ∀ name ∉ names, ρ name = σ name)
    (h : HoldsLast names product ρ) : product.eval ρ = true := by
  have hvalues := eval_product_iff.mp hσ
  refine eval_product_iff.mpr fun f hf => ?_
  obtain rfl | ⟨name, value, rfl⟩ := hfactors f hf
  · rfl
  have hvalue : σ name = value := (eval_literal name value).mp (hvalues _ hf)
  refine (eval_literal name value).mpr ?_
  by_cases hname : name ∈ names
  · obtain ⟨last, hlast⟩ := exists_lastLiteral hf
    have hvalue' : σ name = last := (eval_literal name last).mp (hvalues _ hlast.mem)
    rw [h.2 name hname last hlast, ← hvalue', hvalue]
  · rw [hother name hname, hvalue]

end SwitchingAlgebra.Karnaugh
