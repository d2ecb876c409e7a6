/-
# Labels of groups

The groups of a map have labels, and the sum of their products has a text. Labels are put together
from the variables of a group in the order of the map; the text is found by taking the sum apart,
leaving out ones and sorting literals. Both say the same for every tree that is true somewhere, also
where the sum is a shortcut for the single group of a full map.

* `minimize_eq_join`: the shortcut is the sum of the products of the groups as well;
* `factorsText_term`: the text of the product of a group is its label, unless that is empty;
* `label_ne_empty`: the label of a group is never empty, even if a variable has no name;
* `labels_eq_markedText` is the result.
-/
import SwitchingAlgebra.Proofs.Form.Marked
import SwitchingAlgebra.Proofs.Karnaugh.Map
import SwitchingAlgebra.Proofs.Karnaugh.Regions
import SwitchingAlgebra.Proofs.Law.Terms

namespace SwitchingAlgebra.Karnaugh

variable {layout : Layout} {map : Map} {f : Nat → Bool} {g : Group}

/-! ## Full maps -/

/-- The whole map fits if all cells are true. -/
theorem fits_whole (h : map.Shows f) (hfull : ∀ i < 2 ^ map.layout.names.length, f i = true) :
    (⟨0, map.layout.rows, 0, map.layout.cols⟩ : Rectangle).Fits map where
  listed := ⟨⟨_, rfl⟩, ⟨_, rfl⟩, Nat.le_refl _, Nat.le_refl _⟩
  ones cell hcell := by
    have hmem := Rectangle.cells_subset _ map.layout hcell
    exact (h.cells cell hmem).trans (hfull _ (h.minterm_lt hmem))
  cube := by
    have hmem : ∀ m, m ∈ (wholeMap map.layout).minterms ↔ m < 2 ^ map.layout.names.length := by
      intro m
      rw [mem_wholeMap, h.bits]
    refine ⟨0, 2 ^ map.layout.names.length - 1,
      fun m => (hmem m).trans ⟨fun hm bit hbit => ?_, fun hm => ?_⟩⟩
    · rw [Nat.testBit_two_pow_sub_one, decide_eq_false_iff_not] at hbit
      rw [testBit_of_row hm (Nat.le_of_not_lt hbit), Nat.zero_testBit]
    · refine Nat.lt_pow_two_of_testBit m fun bit hbit => ?_
      rw [hm bit (by rw [Nat.testBit_two_pow_sub_one]; exact decide_eq_false (Nat.not_lt.mpr hbit)),
        Nat.zero_testBit]

/-- Every candidate of a full map has all cells. -/
theorem cells_subset_of_full (h : map.Shows f)
    (hfull : ∀ i < 2 ^ map.layout.names.length, f i = true) (hg : g ∈ candidates map) :
    map.layout.cells ⊆ g.cells := by
  obtain ⟨whole, hwhole, hsubset⟩ := exists_candidate_of_fits (fits_whole h hfull)
  have hcells : map.layout.cells ⊆ whole.cells := by
    intro cell hcell
    refine hsubset ((cells_subset_iff (List.Subset.refl _)
      (Rectangle.cells_subset _ map.layout)).mpr ?_ hcell)
    intro m hm
    obtain ⟨cell', hcell', rfl⟩ := mem_mintermsOf.mp hm
    exact (mem_wholeMap map.layout).mpr (Layout.minterm_lt hcell')
  obtain rfl : g = whole :=
    eq_of_cells_subset hg hwhole (List.Subset.trans (fits_of_mem_candidates hg).cells hcells)
  exact hcells

/-- A full map has one candidate. -/
theorem eq_of_full (h : map.Shows f) (hfull : ∀ i < 2 ^ map.layout.names.length, f i = true)
    {g' : Group} (hg : g ∈ candidates map) (hg' : g' ∈ candidates map) : g = g' :=
  eq_of_cells_subset hg hg' (List.Subset.trans (fits_of_mem_candidates hg).cells
    (cells_subset_of_full h hfull hg'))

/-- No variable is constant over the candidate of a full map. -/
theorem literals_of_full (h : map.Shows f) (hfull : ∀ i < 2 ^ map.layout.names.length, f i = true)
    (hg : g ∈ candidates map) : literals map.layout g = [] := by
  have hfits := fits_of_mem_candidates hg
  have hmem : ∀ i < 2 ^ map.layout.names.length, i ∈ g.minterms := by
    intro i hi
    obtain ⟨cell, hcell, rfl⟩ := h.exists_cell hi
    rw [hfits.minterms]
    exact mem_mintermsOf.mpr ⟨cell, cells_subset_of_full h hfull hg hcell, rfl⟩
  refine List.eq_nil_iff_forall_not_mem.mpr ?_
  rintro ⟨name, value⟩ hliteral
  obtain ⟨place, hname, hvalue⟩ := (mem_literals (ne_nil_of_isSubcube hfits.cube)).mp hliteral
  obtain ⟨i, hi, hbits⟩ := exists_row map.layout.names.length fun _ => !value
  have hbit := hvalue i (hmem i hi)
  rw [hbits place (List.getElem?_eq_some_iff.mp hname).1] at hbit
  exact Bool.not_ne_self value hbit

variable {names : List String} {e : Expr} {selected : List Group}

/-- Where the map has a true cell, there are selected groups, and the sum on the map is that of
their products, also if it is said without them. -/
theorem minimize_eq_join (h : map.Shows f) (hmap : Map.ofExpr names e = .ok map)
    (hgroups : groups map = .ok selected) (htrue : ∃ i < 2 ^ map.layout.names.length, f i = true) :
    selected ≠ [] ∧ minimize names e = .ok (Chain.sum.join (selected.map (term map.layout))) := by
  obtain ⟨i, hi, hone⟩ := htrue
  obtain ⟨selected', hgroups', hselected, hnodup, hones⟩ := groups_eq_ok map
  obtain rfl : selected = selected' := Except.ok.inj (hgroups.symm.trans hgroups')
  obtain ⟨cell, hcell, rfl⟩ := h.exists_cell hi
  obtain ⟨g, hg, -⟩ := hones cell (List.mem_filter.mpr ⟨hcell, (h.cells cell hcell).trans hone⟩)
  refine ⟨List.ne_nil_of_mem hg, ?_⟩
  obtain ⟨sum, hsum, rfl | ⟨b, rfl, hconst⟩⟩ := minimize_eq_ok h hmap hgroups
  · exact hsum
  · -- the map is full, so the only group is one without literals
    obtain rfl : b = true := (hconst _ hi).symm.trans hone
    have hsingle : selected = [g] := by
      by_contra hne
      rcases (hnodup.ne_singleton_iff g).mp hne with hnil | ⟨g', hg', hother⟩
      · exact List.ne_nil_of_mem hg hnil
      · exact hother (eq_of_full h hconst (hselected hg') (hselected hg))
    have hterm : term map.layout g = .const true := by
      unfold term
      rw [literals_of_full h hconst (hselected hg)]
      rfl
    rw [hsum, hsingle, List.map_singleton, hterm]
    rfl

/-! ## Texts of products -/

/-- A name stands at its place among distinct names. -/
theorem nameRank_eq (hnames : names.Nodup) {name : String} {place : Nat}
    (hname : names[place]? = some name) : nameRank names name = place := by
  have hentry : names.zipIdx[place]? = some (name, place) := by simp [hname]
  have hlast : ∀ later, place < later → (names.zipIdx.map Prod.fst)[later]? ≠ some name := by
    intro later hlater heq
    rw [List.zipIdx_map_fst] at heq
    obtain ⟨hlt, -⟩ := List.getElem?_eq_some_iff.mp hname
    exact Nat.ne_of_lt hlater ((List.getElem?_inj hlt hnames).mp (hname.trans heq.symm))
  unfold nameRank
  rw [lastValue?_of_last hentry hlast, Option.getD_some]

/-- The literals of a group stand in the order of the variables. -/
theorem pairwise_literals (hnames : layout.names.Nodup) (hne : g.minterms ≠ []) :
    (literals layout g).Pairwise fun x y =>
      nameRank layout.names x.1 ≤ nameRank layout.names y.1 := by
  have hbits : ∀ place, g.minterms.map (bitAt layout.names.length place) ≠ [] :=
    fun place => mt List.map_eq_nil_iff.mp hne
  unfold literals
  refine List.pairwise_filterMap.mpr ((Law.pairwise_zipIdx layout.names).imp_of_mem ?_)
  rintro ⟨x, place⟩ ⟨y, place'⟩ hx hy hlt ⟨name, value⟩ hliteral ⟨name', value'⟩ hliteral'
  obtain ⟨rfl, -⟩ := (literal_eq_some_iff (hbits place)).mp hliteral
  obtain ⟨rfl, -⟩ := (literal_eq_some_iff (hbits place')).mp hliteral'
  rw [nameRank_eq hnames (List.mk_mem_zipIdx_iff_getElem?.mp hx),
    nameRank_eq hnames (List.mk_mem_zipIdx_iff_getElem?.mp hy)]
  exact Nat.le_of_lt hlt

/-- The text of a literal. -/
def literalText (l : String × Bool) : String :=
  if l.2 then l.1 else l.1 ++ "'"

theorem markedLiteral_literal (l : String × Bool) :
    markedLiteral (Expr.literal l.1 l.2) = .ok (literalText l) := by
  obtain ⟨name, value⟩ := l
  cases value <;> rfl

theorem literalName_literal (name : String) (value : Bool) :
    literalName (Expr.literal name value) = name := by
  cases value <;> rfl

/-- A literal has one operand of either kind. -/
theorem operands_literal (op : Op) (name : String) (value : Bool) :
    (Expr.literal name value).operands op = [Expr.literal name value] := by
  cases value <;> rfl

/-- The factors of the product of a group are its literals, or a single one. -/
theorem operands_term (layout : Layout) (g : Group) : (term layout g).operands .and =
    if literals layout g = [] then [.const true]
      else (literals layout g).map fun l => Expr.literal l.1 l.2 := by
  unfold term
  split
  · rename_i hnil
    rw [hnil]
    rfl
  · rename_i hne
    refine Chain.operands_join_eq_self (k := .product) (mt List.map_eq_nil_iff.mp hne)
      (List.forall_mem_map.mpr ?_)
    exact fun l _ => operands_literal .and l.1 l.2

/-- The factors of the product of a group are sorted already. -/
theorem pairwise_operands_term (hnames : layout.names.Nodup) (hne : g.minterms ≠ []) :
    ((term layout g).operands .and).Pairwise fun x y => listedBefore layout.names x y = true := by
  rw [operands_term]
  split
  · exact List.pairwise_singleton _ _
  · refine List.pairwise_map.mpr ((pairwise_literals hnames hne).imp fun {x y} hle => ?_)
    unfold listedBefore
    rw [literalName_literal, literalName_literal]
    exact decide_eq_true hle

/-- The product of a group is a single operand of a sum. -/
theorem operands_or_term (layout : Layout) (g : Group) :
    (term layout g).operands .or = [term layout g] := by
  refine Chain.operands_join_dual (k := .sum) (List.forall_mem_map.mpr ?_)
  exact fun l _ => operands_literal .or l.1 l.2

theorem label_of_nil (h : literals layout g = []) : label layout g = "1" := by
  unfold label
  rw [h]

/-- A group is labelled with the texts of its literals. -/
theorem label_of_ne_nil (h : literals layout g ≠ []) :
    label layout g = String.join ((literals layout g).map literalText) := by
  unfold label
  split
  · exact absurd ‹_› h
  · rfl

/-- The text of the product of a group is its label, unless the label is empty. -/
theorem factorsText_term (h : label layout g ≠ "") :
    factorsText ((term layout g).operands .and) = .ok (label layout g) := by
  rw [operands_term]
  by_cases hnil : literals layout g = []
  · rw [if_pos hnil, label_of_nil hnil]
    decide
  · have hkept : ((literals layout g).map fun l => Expr.literal l.1 l.2).filter (· ≠ .const true)
        = (literals layout g).map fun l => Expr.literal l.1 l.2 := by
      refine List.filter_eq_self.mpr (List.forall_mem_map.mpr ?_)
      rintro ⟨name, value⟩ -
      cases value <;> rfl
    have hpieces : ((literals layout g).map fun l => Expr.literal l.1 l.2).mapM markedLiteral
        = .ok ((literals layout g).map literalText) := by
      rw [List.mapM_map]
      exact mapM_eq_ok_map fun l _ => markedLiteral_literal l
    rw [label_of_ne_nil hnil] at h ⊢
    rw [if_neg hnil]
    unfold factorsText
    rw [hkept, hpieces]
    show Except.ok (if _ = "" then _ else _) = _
    rw [if_neg h]

/-! ## Labels that would be empty -/

/-- If a label were empty, the only variable of the group would be one without a name, and asked to
be true. -/
theorem literals_of_label_eq_empty (h : label layout g = "") :
    literals layout g ≠ [] ∧ ∀ l ∈ literals layout g, l = ("", true) := by
  have hne : literals layout g ≠ [] := by
    intro hnil
    rw [label_of_nil hnil] at h
    exact absurd h (by decide)
  refine ⟨hne, ?_⟩
  rw [label_of_ne_nil hne, ← String.toList_eq_nil_iff, String.toList_join, List.flatMap_map,
    List.flatMap_eq_nil_iff] at h
  rintro ⟨name, value⟩ hl
  have htext := String.toList_eq_nil_iff.mp (h _ hl)
  cases value with
  | false => simp [literalText] at htext
  | true => rw [show name = "" from htext]

/-- A candidate for a well formed tree has some label: a variable without a name does not occur in
the tree, so it is never constant over a candidate by itself. -/
theorem label_ne_empty (he : e.WellFormed) (hnames : map.layout.names.Nodup)
    (h : map.Shows fun i => e.eval (rowAssignment map.layout.names i).value)
    (hg : g ∈ candidates map) : label map.layout g ≠ "" := by
  intro hlabel
  obtain ⟨hne, hliterals⟩ := literals_of_label_eq_empty hlabel
  have hfits := fits_of_mem_candidates hg
  refine hne (literals_of_full h (fun i _ => ?_) hg)
  -- the row with the name set to 1 lies in the group, and the tree has the same value there
  obtain ⟨j, hj, hvalue, hbits⟩ := exists_row_of_assignment hnames
    (Function.update (rowAssignment map.layout.names i).value "" true)
  have hterm :
      (term map.layout g).eval (Function.update (rowAssignment map.layout.names i).value "" true)
        = true :=
    eval_term_iff.mpr fun l hl => by rw [hliterals l hl, Function.update_self]
  have hmem :=
    (eval_term_iff_mem hfits.cube (fun m hm => (minterm_of_group h hfits hm).1) hj hbits).mp hterm
  refine (Expr.eval_congr fun name hname => ?_).trans (minterm_of_group h hfits hmem).2
  have hnamed : name ≠ "" := ((Expr.wellFormed_iff_over e).mp he).of_mem_names hname
  rw [hvalue]
  unfold listed
  split
  · rw [Function.update_of_ne hnamed]
  · exact value_rowAssignment_of_not_mem ‹_› i

/-! ## Texts of sums -/

/-- **Labels are the text of the sum.** For a well formed tree over 2 to 6 distinct names that is
true somewhere, the labels of the selected groups, joined as the products of a sum, are the text of
the sum on the map. -/
theorem labels_eq_markedText (hmin : 2 ≤ names.length) (hmax : names.length ≤ 6)
    (hnames : names.Nodup) (he : e.WellFormed)
    (htrue : ∃ ρ, e.evaluate (listed names ρ) = .ok true) :
    ∃ map selected sum, Map.ofExpr names e = .ok map ∧ groups map = .ok selected ∧
      minimize names e = .ok sum ∧
      markedText names sum = .ok (" + ".intercalate (selected.map (label map.layout))) := by
  obtain ⟨map, hmap, rfl, h⟩ := Map.ofExpr_eq_ok hmin hmax he
  obtain ⟨selected, hgroups, hselected, -, -⟩ := groups_eq_ok map
  have hone : ∃ i < 2 ^ map.layout.names.length,
      e.eval (rowAssignment map.layout.names i).value = true := by
    obtain ⟨ρ, hρ⟩ := htrue
    obtain ⟨i, hi, hvalue, -⟩ := exists_row_of_assignment hnames ρ
    rw [Expr.evaluate_eq_ok_eval _ he, ← hvalue] at hρ
    exact ⟨i, hi, Except.ok.inj hρ⟩
  obtain ⟨hne, hsum⟩ := minimize_eq_join h hmap hgroups hone
  refine ⟨map, selected, _, hmap, hgroups, hsum, ?_⟩
  have hoperands : (Chain.sum.join (selected.map (term map.layout))).operands .or
      = selected.map (term map.layout) := by
    refine Chain.operands_join_eq_self (k := .sum) (mt List.map_eq_nil_iff.mp hne)
      (List.forall_mem_map.mpr ?_)
    exact fun g _ => operands_or_term map.layout g
  have hsorted : ∀ t ∈ selected.map (term map.layout),
      (t.operands .and).Pairwise fun x y => listedBefore map.layout.names x y = true := by
    refine List.forall_mem_map.mpr fun g hg => ?_
    exact pairwise_operands_term hnames
      (ne_nil_of_isSubcube (fits_of_mem_candidates (hselected hg)).cube)
  have htexts : (selected.map (term map.layout)).mapM (fun t => factorsText (t.operands .and))
      = .ok (selected.map (label map.layout)) := by
    rw [List.mapM_map]
    exact mapM_eq_ok_map fun g hg => factorsText_term (label_ne_empty he hnames h (hselected hg))
  rw [markedText_of_pairwise (by rw [hoperands]; exact hsorted), hoperands, htexts]
  rfl

/-- The parity of two variables on a map that has them the other way round. -/
theorem labels_eq_markedText_of_parity :
    2 ≤ ["B", "A"].length ∧ ["B", "A"].length ≤ 6 ∧ ["B", "A"].Nodup ∧
      (Expr.bin .xor (.var "A") (.var "B")).WellFormed ∧
    (∃ ρ, (Expr.bin .xor (.var "A") (.var "B")).evaluate (listed ["B", "A"] ρ) = .ok true) ∧
    ∃ map selected sum, Map.ofExpr ["B", "A"] (.bin .xor (.var "A") (.var "B")) = .ok map ∧
      groups map = .ok selected ∧ minimize ["B", "A"] (.bin .xor (.var "A") (.var "B")) = .ok sum ∧
      markedText ["B", "A"] sum = .ok (" + ".intercalate (selected.map (label map.layout))) := by
  have hmin : 2 ≤ ["B", "A"].length := by decide
  have hmax : ["B", "A"].length ≤ 6 := by decide
  have hnames : ["B", "A"].Nodup := by decide
  have he : (Expr.bin .xor (.var "A") (.var "B")).WellFormed := by decide
  have htrue : ∃ ρ,
      (Expr.bin .xor (.var "A") (.var "B")).evaluate (listed ["B", "A"] ρ) = .ok true :=
    ⟨(· == "A"), by decide⟩
  exact ⟨hmin, hmax, hnames, he, htrue, labels_eq_markedText hmin hmax hnames he htrue⟩

end SwitchingAlgebra.Karnaugh
