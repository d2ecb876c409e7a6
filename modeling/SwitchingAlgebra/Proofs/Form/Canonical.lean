/-
# Canonical forms are complete invariants

Both canonical forms are read off the output column of the truth table: for each row with the value
that decides the chain there is a clause of all names that decides it in that row only. So a form
has the value of its tree, forms are equal only if the columns are, and complementing the column
exchanges the two kinds of form.

* `Chain.ofColumn` is the form of either kind, `canonicalSum_eq`, `canonicalProduct_eq` say that it
  is what is made;
* `Chain.holds_ofColumn`: a form is decided in the rows where its column is;
* `Chain.ofColumn_injective`, `Chain.exchanged_ofColumn` follow from it;
* `canonical_exact` puts them together for trees.
-/
import Mathlib.Data.List.Sort
import SwitchingAlgebra.Form.Canonical
import SwitchingAlgebra.Proofs.Polarity
import SwitchingAlgebra.Proofs.Table.Agreement

namespace SwitchingAlgebra

/-! ## Output columns -/

/-- The true places of a column are those of its true entries. -/
theorem mem_truePlaces {column : List Bool} {i : Nat} :
    i ∈ truePlaces column ↔ column[i]? = some true := by
  unfold truePlaces
  simp [List.mem_zipIdx_iff_getElem?]

/-- The true places of a column are in increasing order. -/
theorem pairwise_truePlaces (column : List Bool) : (truePlaces column).Pairwise (· < ·) := by
  have hplaces : (column.zipIdx.map Prod.snd).Pairwise (· < ·) := by
    rw [List.zipIdx_map_snd]
    exact List.pairwise_lt_range'
  exact hplaces.sublist (List.filter_sublist.map _)

/-- An output column has an entry for each row. -/
theorem length_of_truthVector {names : List String} {e : Expr} {column : List Bool}
    (h : truthVector names e = .ok column) : column.length = 2 ^ names.length := by
  rcases e.over_or_meets with hover | ⟨cause, -, hcolumn⟩
  · obtain rfl := Except.ok.inj ((column_eq hover).symm.trans h)
    simp
  · exact nomatch (hcolumn _ _).symm.trans h

/-- The output column of a complement. -/
theorem truthVector_not (names : List String) {e : Expr} (he : e.WellFormed) :
    truthVector names (.not e) = (truthVector names e).map (List.map (!·)) := by
  have hnot : (Expr.not e).WellFormed := he
  rw [truthVector_eq names he, truthVector_eq names hnot]
  simp [Except.map, Expr.eval]

/-! ## Forms of columns -/

namespace Chain

/-- The clause of a row: the literals of all names that decide the chain in that row. -/
def clause (k : Chain) (names : List String) (i : Nat) : Expr :=
  k.dual.join (names.zipIdx.map fun (name, place) => Expr.literal name
    (bitAt names.length place i == k.zero))

/-- The chain of the clauses of the rows in which a column decides it. -/
def ofColumn (k : Chain) (names : List String) (column : List Bool) : Expr :=
  k.join ((truePlaces (column.map (· == k.zero))).map (k.clause names))

variable {k : Chain} {ρ : String → Bool} {names : List String}

theorem holds_literal (name : String) (b : Bool) :
    k.Holds ρ (Expr.literal name (b == k.zero)) ↔ ρ name = b := by
  unfold Holds Expr.literal
  cases k <;> cases b <;> simp [zero, Expr.eval]

/-- A clause holds under the assignments of its row. -/
theorem holds_clause {i : Nat} : k.Holds ρ (k.clause names i) ↔
    ∀ (place : Nat) (name : String), names[place]? = some name →
    bitAt names.length place i = ρ name := by
  unfold clause
  rw [holds_join_dual, List.forall_mem_map]
  simp only [holds_literal, Prod.forall, List.mem_zipIdx_iff_getElem?]
  exact ⟨fun h place name hname => (h name place hname).symm,
    fun h name place hname => (h place name hname).symm⟩

/-- A clause has the listed names only. -/
theorem over_clause (k : Chain) (names : List String) (i : Nat) :
    (k.clause names i).Over (· ∈ names) := by
  refine over_join fun literal hliteral => ?_
  obtain ⟨⟨name, place⟩, hname, rfl⟩ := List.mem_map.mp hliteral
  have hmem : name ∈ names := List.mem_of_getElem? (List.mem_zipIdx_iff_getElem?.mp hname)
  exact over_literal hmem _

/-- A form has the listed names only. -/
theorem over_ofColumn (k : Chain) (names : List String) (column : List Bool) :
    (k.ofColumn names column).Over (· ∈ names) := by
  refine over_join fun clause hclause => ?_
  obtain ⟨i, -, rfl⟩ := List.mem_map.mp hclause
  exact over_clause k names i

/-- In a row a form is decided exactly if its column is. -/
theorem holds_ofColumn {column : List Bool} (hlength : column.length = 2 ^ names.length) {i : Nat}
    (hi : i < 2 ^ names.length)
    (hrow : ∀ (place : Nat) (name : String), names[place]? = some name →
      bitAt names.length place i = ρ name) :
    k.Holds ρ (k.ofColumn names column) ↔ column[i]? = some k.zero := by
  have hmem : ∀ j, j ∈ truePlaces (column.map (· == k.zero)) ↔ column[j]? = some k.zero := by
    intro j
    rw [mem_truePlaces, List.getElem?_map, Option.map_eq_some_iff]
    simp
  unfold ofColumn
  rw [holds_join, ← hmem]
  constructor
  · -- a clause that holds belongs to a row with the same bits
    rintro ⟨clause, hclause, hholds⟩
    obtain ⟨j, hj, rfl⟩ := List.mem_map.mp hclause
    have hjlt : j < 2 ^ names.length := by
      rw [← hlength]
      exact (List.getElem?_eq_some_iff.mp ((hmem j).mp hj)).1
    have hrows : i = j := by
      refine row_ext hi hjlt fun place hplace => ?_
      have hname := List.getElem?_eq_getElem hplace
      rw [hrow place _ hname, holds_clause.mp hholds place _ hname]
    exact hrows ▸ hj
  · exact fun hplace => ⟨k.clause names i, List.mem_map_of_mem hplace, holds_clause.mpr hrow⟩

/-- Forms of different columns are different. -/
theorem ofColumn_injective (hnames : names.Nodup) {xs ys : List Bool}
    (hxs : xs.length = 2 ^ names.length) (hys : ys.length = 2 ^ names.length)
    (h : k.ofColumn names xs = k.ofColumn names ys) : xs = ys := by
  refine List.ext_getElem (hxs.trans hys.symm) fun i hi hi' => ?_
  rw [hxs] at hi
  have hrow : ∀ (place : Nat) (name : String), names[place]? = some name →
      bitAt names.length place i = (rowAssignment names i).value name :=
    fun place name hname => (value_rowAssignment hnames hname i).symm
  apply k.eq_of_eq_zero_iff
  rw [← Option.some_inj, ← List.getElem?_eq_getElem, ← holds_ofColumn hxs hi hrow, h,
    holds_ofColumn hys hi hrow, List.getElem?_eq_getElem, Option.some_inj]

/-- The form of the output column of a well formed tree has its value where names that are not
listed read 0. -/
theorem eval_ofColumn (hnames : names.Nodup) {e : Expr} (he : e.WellFormed) {column : List Bool}
    (h : truthVector names e = .ok column) :
    (k.ofColumn names column).eval ρ = e.eval (listed names ρ) := by
  obtain ⟨i, hi, hvalue, hrow⟩ := exists_row_of_assignment hnames ρ
  have hentry : column[i]? = some (e.eval (listed names ρ)) := by
    obtain rfl := Except.ok.inj ((truthVector_eq names he).symm.trans h)
    rw [List.getElem?_map, List.getElem?_range hi, Option.map_some, hvalue]
  apply k.eq_of_eq_zero_iff
  rw [← Option.some_inj (a := e.eval _), ← hentry]
  exact holds_ofColumn (length_of_truthVector h) hi hrow

end Chain

/-! ## Forms that are made -/

/-- A bit of a row as a number of either sign. -/
theorem signedBit_ofNat (bit i : Nat) : signedBit bit (Int.ofNat i) = i.testBit bit := by
  unfold signedBit
  rw [Nat.testBit_eq_decide_div_mod_eq]
  congr 1
  rw [eq_iff_iff]
  have hpow : Nat.pow 2 bit = 2 ^ bit := rfl
  rw [hpow]
  show (i : Int) / ((2 ^ bit : Nat) : Int) % 2 = 1 ↔ _
  omega

/-- The canonical sum is the sum for the output column. -/
theorem canonicalSum_eq (names : List String) (e : Expr) :
    canonicalSum names e = (truthVector names e).map (Chain.sum.ofColumn names) := by
  have hform : ∀ column,
      Expr.ofMinterms names ((truePlaces column).map Int.ofNat)
        = Chain.sum.ofColumn names column := by
    intro column
    -- the true places are in increasing order already
    have hsorted : ((truePlaces column).map Int.ofNat).Pairwise (· < ·) :=
      List.pairwise_map.mpr ((pairwise_truePlaces column).imp Int.ofNat_lt.mpr)
    have hincreasing : increasing ((truePlaces column).map Int.ofNat)
        = (truePlaces column).map Int.ofNat :=
      (pairwise_increasing _).eq_of_mem_iff hsorted fun _ => mem_increasing
    have htrue : ∀ b : Bool, (b == true) = b := by decide
    have hcolumn : column.map (· == Chain.sum.zero) = column := by simp [Chain.zero]
    unfold Expr.ofMinterms Chain.ofColumn
    rw [hincreasing, hcolumn, List.map_map]
    refine congrArg _ (List.map_congr_left fun i _ => congrArg _ (List.map_congr_left ?_))
    rintro ⟨name, place⟩ -
    show Expr.literal name (signedBit (names.length - 1 - place) (Int.ofNat i)) = _
    rw [signedBit_ofNat]
    exact congrArg _ (htrue _).symm
  unfold canonicalSum trueRows
  cases truthVector names e with
  | error fault => rfl
  | ok column => exact congrArg Except.ok (hform column)

/-- The canonical product is the product for the output column. -/
theorem canonicalProduct_eq (names : List String) (e : Expr) :
    canonicalProduct names e = (truthVector names e).map (Chain.product.ofColumn names) := by
  have hfalse : ∀ b : Bool, (b == false) = !b := by decide
  unfold canonicalProduct Chain.ofColumn Chain.clause rowAssignment
  simp only [List.map_map, Function.comp_def, Chain.zero, hfalse]
  rfl

/-! ## Dual trees -/

/-- The tree with sums and products, 0 and 1, and each variable and its complement exchanged. -/
def Expr.exchanged : Expr → Expr
  | .var name => .not (.var name)
  | .not (.var name) => .var name
  | .const b => .const !b
  | .bin .and l r => .bin .or l.exchanged r.exchanged
  | .bin .or l r => .bin .and l.exchanged r.exchanged
  | e => e

theorem Expr.exchanged_literal (name : String) (value : Bool) :
    (Expr.literal name value).exchanged = Expr.literal name !value := by
  cases value <;> rfl

namespace Chain

variable {k : Chain}

/-- A chain becomes a chain of the other kind. -/
theorem exchanged_join (es : List Expr) :
    (k.join es).exchanged = k.dual.join (es.map Expr.exchanged) := by
  cases es with
  | nil => cases k <;> rfl
  | cons e es =>
    show (es.foldl (.bin k.op) e).exchanged
      = (es.map Expr.exchanged).foldl (.bin k.dual.op) e.exchanged
    induction es generalizing e with
    | nil => rfl
    | cons t ts ih =>
      rw [List.foldl_cons, ih, List.map_cons, List.foldl_cons]
      cases k <;> rfl

/-- A form becomes the form of the other kind for the complemented column. -/
theorem exchanged_ofColumn (names : List String) (column : List Bool) :
    (k.ofColumn names column).exchanged = k.dual.ofColumn names (column.map (!·)) := by
  have hclause : ∀ i, (k.clause names i).exchanged = k.dual.clause names i := by
    intro i
    unfold clause
    rw [exchanged_join, List.map_map]
    refine congrArg _ (List.map_congr_left ?_)
    rintro ⟨name, place⟩ -
    show (Expr.literal name _).exchanged = Expr.literal name _
    rw [Expr.exchanged_literal, zero_dual]
    cases k.zero <;> cases bitAt names.length place i <;> rfl
  have hcolumn : (column.map (!·)).map (· == k.dual.zero) = column.map (· == k.zero) := by
    rw [List.map_map, zero_dual]
    refine List.map_congr_left fun b _ => ?_
    cases k.zero <;> cases b <;> rfl
  unfold ofColumn
  rw [exchanged_join, hcolumn, List.map_map]
  exact congrArg _ (List.map_congr_left fun i _ => hclause i)

end Chain

/-! ## Forms of trees -/

/-- Forms of one kind are equal exactly if the output columns are. -/
theorem map_ofColumn_eq_iff {k : Chain} {names : List String} (hnames : names.Nodup) {e e' : Expr} :
    (truthVector names e).map (k.ofColumn names) = (truthVector names e').map (k.ofColumn names) ↔
      truthVector names e = truthVector names e' := by
  constructor
  · intro h
    cases hcolumn : truthVector names e with
    | error fault =>
      cases hcolumn' : truthVector names e' with
      | error fault' =>
        rw [hcolumn, hcolumn'] at h
        exact congrArg _ (Except.error.inj h)
      | ok ys =>
        rw [hcolumn, hcolumn'] at h
        exact nomatch h
    | ok xs =>
      cases hcolumn' : truthVector names e' with
      | error fault' =>
        rw [hcolumn, hcolumn'] at h
        exact nomatch h
      | ok ys =>
        rw [hcolumn, hcolumn'] at h
        have hlength := length_of_truthVector hcolumn
        have hlength' := length_of_truthVector hcolumn'
        exact congrArg _ (Chain.ofColumn_injective hnames hlength hlength' (Except.ok.inj h))
  · exact congrArg _

/-- **Canonical forms.** Over a list of distinct names every well formed tree has a canonical sum
and a canonical product, and both agree with it where names that are not listed read 0. The product
is the sum of the complement with sums and products, 0 and 1, and the two literals of each variable
exchanged. Two trees have the same canonical sum exactly if they have the same output column, and
the same canonical product exactly then; trees that are not finished have neither, and complain
alike. -/
theorem canonical_exact {names : List String} (hnames : names.Nodup) :
    (∀ e : Expr, e.WellFormed → ∃ sum product, canonicalSum names e = .ok sum ∧
      canonicalProduct names e = .ok product ∧ sum.AgreesListed names e ∧
      product.AgreesListed names e ∧
      canonicalProduct names e = (canonicalSum names (.not e)).map Expr.exchanged) ∧
    ∀ e e' : Expr,
      (canonicalSum names e = canonicalSum names e' ↔ truthVector names e = truthVector names e') ∧
      (canonicalProduct names e = canonicalProduct names e' ↔
        truthVector names e = truthVector names e') := by
  simp only [canonicalSum_eq, canonicalProduct_eq]
  refine ⟨fun e he => ?_, fun e e' => ⟨map_ofColumn_eq_iff hnames, map_ofColumn_eq_iff hnames⟩⟩
  have hcolumn := truthVector_eq names he
  have hagrees : ∀ k : Chain, (k.ofColumn names _).AgreesListed names e := fun k =>
    Expr.agreesListed_of_eval (k.over_ofColumn names _) he fun ρ =>
      Chain.eval_ofColumn hnames he hcolumn
  refine ⟨_, _, congrArg _ hcolumn, congrArg _ hcolumn, hagrees .sum, hagrees .product, ?_⟩
  rw [truthVector_not names he, hcolumn]
  simp only [Except.map, Chain.exchanged_ofColumn, List.map_map]
  simp [Function.comp_def, Chain.dual]

/-- A parity has the canonical sum of a sum that spells it out, and not the canonical product of its
complement. -/
theorem canonical_exact_of_parity :
    let names := ["A", "B"]
    let e := Expr.bin .xor (.var "A") (.var "B")
    let e' := Expr.bin .or (.bin .and (.not (.var "A")) (.var "B"))
      (.bin .and (.var "A") (.not (.var "B")))
    names.Nodup ∧ e.WellFormed ∧
      (∃ sum product, canonicalSum names e = .ok sum ∧ canonicalProduct names e = .ok product ∧
        sum.AgreesListed names e ∧ product.AgreesListed names e ∧
        canonicalProduct names e = (canonicalSum names (.not e)).map Expr.exchanged) ∧
      canonicalSum names e = canonicalSum names e' ∧
      canonicalProduct names e ≠ canonicalProduct names (.not e) := by
  intro names e e'
  have hnames : names.Nodup := by decide
  have he : e.WellFormed := by decide
  obtain ⟨hforms, hequal⟩ := canonical_exact hnames
  have hcolumn : truthVector names e = .ok [false, true, true, false] := by cbv
  have hspelled : truthVector names e' = .ok [false, true, true, false] := by cbv
  have hcomplement : truthVector names (.not e) = .ok [true, false, false, true] := by cbv
  refine ⟨hnames, he, hforms e he, (hequal e e').1.mpr (hcolumn.trans hspelled.symm), fun h => ?_⟩
  have hcolumns := (hequal e (.not e)).2.mp h
  rw [hcolumn, hcomplement] at hcolumns
  exact absurd (Except.ok.inj hcolumns) (by decide)

end SwitchingAlgebra
