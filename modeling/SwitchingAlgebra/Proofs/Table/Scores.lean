/-
# Scores as shares

The influence of a name is the share of assignments under which flipping the name flips the value of
the tree: of all assignments to the names where these are few enough, and of the rows of a sample
otherwise, whatever the sample is.

* `Expr.shareOfAll` and `Expr.shareOfRows` are the shares, without the bits and columns that they
  are counted with;
* `shareOfAll_eq_flipShare`: the rows of a table are the assignments, and flipping a bit flips a
  name;
* `sampledInfluence_eq_ok`: complementing a column flips its name in every row;
* `influence_shares` is the result, with what it says of names that never or always count.
-/
import Mathlib.Data.Fintype.BigOperators
import Mathlib.Data.Fintype.Pi
import SwitchingAlgebra.Proofs.Results
import SwitchingAlgebra.Proofs.Table.Influence

namespace SwitchingAlgebra

variable {names : List String} {name : String} {e : Expr}

/-! ## Flips -/

/-- Flipping the name under the assignment changes the value of the tree. -/
def Expr.Flips (e : Expr) (name : String) (ρ : String → Bool) : Prop :=
  e.evaluate ρ ≠ e.evaluate (Function.update ρ name (!ρ name))

instance (e : Expr) (name : String) : DecidablePred (e.Flips name) :=
  fun _ => inferInstanceAs (Decidable (_ ≠ _))

/-- The value of a well formed tree changes if its truth function does. -/
theorem Expr.flips_iff_eval (he : e.WellFormed) (ρ : String → Bool) :
    e.Flips name ρ ↔ e.eval ρ ≠ e.eval (Function.update ρ name (!ρ name)) := by
  unfold Flips
  simp only [evaluate_eq_ok_eval _ he, ne_eq, Except.ok.injEq]

/-- Comparing both values decides whether the flip changes the value. -/
theorem Expr.bne_eval_update (he : e.WellFormed) (name : String) (ρ : String → Bool) :
    (e.eval ρ != e.eval (Function.update ρ name (!ρ name))) = decide (e.Flips name ρ) := by
  rw [Bool.eq_iff_iff, bne_iff_ne, decide_eq_true_iff, flips_iff_eval he]

/-- A tree depends on a listed name if flipping it changes the value under some assignment. -/
theorem Expr.dependsOn_iff_exists_flips (hname : name ∈ names) :
    e.DependsOn names name ↔ ∃ ρ, e.Flips name (listed names ρ) := by
  unfold DependsOn Flips
  simp only [listed_update_of_mem hname]
  constructor
  · rintro ⟨ρ, hρ⟩
    refine ⟨Function.update ρ name false, ?_⟩
    rwa [listed_update_of_mem hname, Function.update_self, Function.update_idem]
  · rintro ⟨ρ, hρ⟩
    refine ⟨ρ, ?_⟩
    -- one of the two values is the one that the name has
    have hself : Function.update (listed names ρ) name (listed names ρ name) = listed names ρ :=
      Function.update_eq_self ..
    cases hvalue : listed names ρ name with
    | false =>
      rw [hvalue] at hself hρ
      rwa [hself]
    | true =>
      rw [hvalue] at hself hρ
      rw [hself]
      exact hρ.symm

/-! ## All assignments -/

/-- The values of all names where those of the listed names are given; other names read 0. -/
def spread (names : List String) (a : {name // name ∈ names} → Bool) (name : String) : Bool :=
  if h : name ∈ names then a ⟨name, h⟩ else false

/-- The share of all assignments to the listed names under which flipping the name changes the value
of the tree. -/
def Expr.shareOfAll (names : List String) (e : Expr) (name : String) : Rat :=
  (Finset.univ.filter fun a : {name // name ∈ names} → Bool => e.Flips name (spread names a)).card /
    Fintype.card ({name // name ∈ names} → Bool)

/-- There are `2 ^ n` assignments to `n` distinct names. -/
theorem card_assignments (hnames : names.Nodup) :
    Fintype.card ({name // name ∈ names} → Bool) = 2 ^ names.length := by
  have hcard : Fintype.card {name // name ∈ names} = names.length := by
    rw [Fintype.card_of_subtype names.toFinset fun _ => List.mem_toFinset,
      List.toFinset_card_of_nodup hnames]
  rw [Fintype.card_fun, Fintype.card_bool, hcard]

/-- Other names than the listed ones read 0 anyway. -/
theorem listed_spread (names : List String) (a : {name // name ∈ names} → Bool) :
    listed names (spread names a) = spread names a := by
  funext name
  by_cases hname : name ∈ names <;> simp [listed, spread, hname]

/-- The values that a row gives the listed names are all that it gives. -/
theorem spread_rowAssignment (names : List String) (i : Nat) :
    spread names (fun name => (rowAssignment names i).value name)
      = (rowAssignment names i).value := by
  funext name
  unfold spread
  split
  · rfl
  · exact (value_rowAssignment_of_not_mem ‹_› i).symm

/-- Every assignment to distinct names is that of one row. -/
theorem countP_rows (hnames : names.Nodup) (p : (String → Bool) → Prop) [DecidablePred p] :
    ((List.range (2 ^ names.length)).countP fun i => p (rowAssignment names i).value)
      = (Finset.univ.filter fun a : {name // name ∈ names} → Bool => p (spread names a)).card := by
  have hrange : ((List.range (2 ^ names.length)).countP fun i => p (rowAssignment names i).value)
      = ((Finset.range (2 ^ names.length)).filter fun i => p (rowAssignment names i).value).card :=
    List.countP_eq_length_filter
  rw [hrange]
  refine Finset.card_bij (fun i _ name => (rowAssignment names i).value name) ?_ ?_ ?_
  · intro i hi
    rw [Finset.mem_filter] at hi ⊢
    rw [spread_rowAssignment]
    exact ⟨Finset.mem_univ _, hi.2⟩
  · intro i hi j hj heq
    rw [Finset.mem_filter, Finset.mem_range] at hi hj
    refine row_ext hi.1 hj.1 fun place hplace => ?_
    have hname : names[place]? = some names[place] := List.getElem?_eq_getElem hplace
    have hvalue := congrFun heq ⟨names[place], List.getElem_mem hplace⟩
    rwa [value_rowAssignment hnames hname, value_rowAssignment hnames hname] at hvalue
  · intro a ha
    rw [Finset.mem_filter] at ha
    obtain ⟨i, hi, hvalue, -⟩ := exists_row_of_assignment hnames (spread names a)
    rw [listed_spread] at hvalue
    refine ⟨i, ?_, ?_⟩
    · rw [Finset.mem_filter, Finset.mem_range, hvalue]
      exact ⟨hi, ha.2⟩
    · funext name
      rw [hvalue]
      exact dif_pos name.2

/-- The share that is counted with the rows of a table is the share of all assignments. -/
theorem shareOfAll_eq_flipShare (hnames : names.Nodup) (he : e.WellFormed) {place : Nat}
    (hname : names[place]? = some name) : e.shareOfAll names name = flipShare names e place := by
  unfold Expr.shareOfAll flipShare
  simp only [value_flipRow hnames hname, Expr.bne_eval_update he]
  rw [countP_rows hnames (e.Flips name), card_assignments hnames]

/-! ## The rows of a sample -/

/-- The columns of a matrix of values. -/
def columnsOf (names : List String) (rows : List (List Bool)) : List (String × List Bool) :=
  names.zipIdx.map fun (name, place) => (name, rows.map (·.getD place false))

theorem map_fst_columnsOf (names : List String) (rows : List (List Bool)) :
    (columnsOf names rows).map Prod.fst = names := by
  simp [columnsOf, Function.comp_def]

/-- The assignment of a row of a matrix. -/
def assignmentOf (names : List String) (row : List Bool) : Assignment :=
  names.zipIdx.map fun (name, place) => (name, row.getD place false)

/-- The share of the rows of a matrix in which flipping the name changes the value of the tree. -/
def Expr.shareOfRows (names : List String) (rows : List (List Bool)) (e : Expr) (name : String) :
    Rat :=
  (rows.countP fun row => e.Flips name (assignmentOf names row).value : Nat) / (rows.length : Nat)

/-- A row of a matrix reads other names than the listed ones as 0. -/
theorem listed_assignmentOf (names : List String) (row : List Bool) :
    listed names (assignmentOf names row).value = (assignmentOf names row).value := by
  funext name
  unfold listed
  split
  · rfl
  · rename_i hname
    have hnone : lastValue? name (assignmentOf names row) = none :=
      lastValue?_eq_none (by simpa [assignmentOf, Function.comp_def] using hname)
    show false = (lastValue? name (assignmentOf names row)).getD false
    rw [hnone]
    rfl

/-- Behind other columns a further one is found first. -/
theorem lastValue?_concat {α : Type} (xs : List (String × α)) (entry : String × α) (name : String) :
    lastValue? name (xs ++ [entry]) = if entry.1 = name then some entry.2
      else lastValue? name xs := by
  induction xs with
  | nil => rfl
  | cons x xs ih =>
    rw [List.cons_append, lastValue?, lastValue?, ih]
    by_cases heq : entry.1 = name <;> simp [heq]

/-- Complementing the column of a name flips the name in every row. -/
theorem getD_flipped (rows : List (List Bool)) (hname : name ∈ names) (other : String) :
    (lastValue? other (columnsOf names rows ++
        [(name, ((lastValue? name (columnsOf names rows)).getD []).map (!·))])).getD
          (List.replicate rows.length false)
      = rows.map fun row => Function.update (assignmentOf names row).value name
          (!(assignmentOf names row).value name) other := by
  have hcolumns :
      ∀ name, (lastValue? name (columnsOf names rows)).getD (List.replicate rows.length false)
        = rows.map fun row => (assignmentOf names row).value name :=
    getD_columns names rows fun row place => row.getD place false
  rw [lastValue?_concat]
  by_cases heq : name = other
  · subst heq
    obtain ⟨column, hcolumn⟩ : ∃ column, lastValue? name (columnsOf names rows) = some column :=
      exists_lastValue? (by rwa [map_fst_columnsOf])
    have hvalues := hcolumns name
    rw [hcolumn, Option.getD_some] at hvalues
    rw [if_pos rfl, Option.getD_some, hcolumn, Option.getD_some, hvalues, List.map_map]
    refine List.map_congr_left fun row _ => ?_
    rw [Function.update_self]
    rfl
  · rw [if_neg heq, hcolumns]
    exact List.map_congr_left fun row _ => (Function.update_of_ne (Ne.symm heq) ..).symm

/-- Columns differ where their functions do. -/
theorem differences_map {ι : Type} (rows : List ι) (f g : ι → Bool) :
    differences (rows.map f) (rows.map g) = rows.countP fun row => f row != g row := by
  unfold differences
  rw [List.zipWith_map, List.zipWith_self, List.count, List.countP_map]
  exact List.countP_congr fun row _ => by simp

/-- The influence over a sample is the share of its rows, whatever they are. -/
theorem sampledInfluence_eq_ok (names : List String) (rows : List (List Bool)) (he : e.WellFormed) :
    sampledInfluence (columnsOf names rows) rows.length e
      = .ok (names.map fun name => (name, e.shareOfRows names rows name)) := by
  have hover := (Expr.wellFormed_iff_over e).mp he
  have hbase : e.column (columnsOf names rows) rows.length
      = .ok (rows.map fun row => e.eval (assignmentOf names row).value) :=
    column_eq_map (getD_columns names rows fun row place => row.getD place false) hover
  have hscores :
      (columnsOf names rows).map ((fun name => (name, e.shareOfRows names rows name)) ∘ Prod.fst)
        = names.map fun name => (name, e.shareOfRows names rows name) := by
    rw [← List.map_map, map_fst_columnsOf]
  unfold sampledInfluence
  rw [hbase, ← hscores]
  refine mapM_eq_ok_map fun entry hentry => ?_
  obtain ⟨name, _⟩ := entry
  have hname : name ∈ names := map_fst_columnsOf names rows ▸ List.mem_map_of_mem hentry
  have hflipped := column_eq_map (getD_flipped rows hname) hover
  simp only [hflipped, bind, Except.bind, pure, Except.pure, differences_map,
    Expr.bne_eval_update he]
  rfl

/-- Cutting gives as many rows as are asked for, of full length if there are enough items. -/
theorem cutRows_shape {α : Type} (columns rows : Nat) (items : List α)
    (h : rows * columns ≤ items.length) : (Random.cutRows columns rows items).length = rows ∧
      ∀ row ∈ Random.cutRows columns rows items, row.length = columns := by
  induction rows generalizing items with
  | zero => exact ⟨rfl, List.forall_mem_nil _⟩
  | succ rows ih =>
    rw [Nat.succ_mul] at h
    obtain ⟨hlength, hrows⟩ := ih (items.drop columns) (by rw [List.length_drop]; omega)
    refine ⟨congrArg (· + 1) hlength, List.forall_mem_cons.mpr ⟨?_, hrows⟩⟩
    rw [List.length_take]
    omega

/-- Two bits are taken from each output. -/
theorem length_bitsFrom (count state : Nat) : (Random.bitsFrom count state).length = 2 * count := by
  induction count generalizing state with
  | zero => rfl
  | succ count ih =>
    simp only [Random.bitsFrom, List.length_cons, ih]
    omega

/-- The rows of a random sample are as many and as long as they are asked for. -/
theorem bitRows_shape (rows columns : Nat) : (Random.bitRows rows columns).length = rows ∧
    ∀ row ∈ Random.bitRows rows columns, row.length = columns := by
  refine cutRows_shape columns rows _ ?_
  rw [length_bitsFrom]
  omega

/-! ## Shares at the ends -/

/-- A name that the tree does not depend on is never flipped with effect. -/
theorem Expr.not_flips (hname : name ∈ names) (h : ¬ e.DependsOn names name) {ρ : String → Bool}
    (hρ : listed names ρ = ρ) : ¬ e.Flips name ρ := by
  intro hflips
  exact h ((dependsOn_iff_exists_flips hname).mpr ⟨ρ, hρ.symm ▸ hflips⟩)

/-- A name that the tree does not depend on has share 0. -/
theorem share_eq_zero (hname : name ∈ names) (h : ¬ e.DependsOn names name) :
    e.shareOfAll names name = 0 ∧ ∀ rows, e.shareOfRows names rows name = 0 := by
  constructor
  · have hnone :
        (Finset.univ.filter fun a : {name // name ∈ names} → Bool => e.Flips name (spread names a))
          = ∅ :=
      Finset.filter_eq_empty_iff.mpr fun a _ => Expr.not_flips hname h (listed_spread names a)
    unfold Expr.shareOfAll
    rw [hnone, Finset.card_empty, Nat.cast_zero, zero_div]
  · intro rows
    have hnone : (rows.countP fun row => e.Flips name (assignmentOf names row).value) = 0 := by
      refine List.countP_eq_zero.mpr fun row _ => ?_
      simpa using Expr.not_flips hname h (listed_assignmentOf names row)
    unfold Expr.shareOfRows
    rw [hnone, Nat.cast_zero, zero_div]

/-- A name whose flip always changes the value has share 1. -/
theorem share_eq_one (h : ∀ ρ, e.Flips name (listed names ρ)) :
    e.shareOfAll names name = 1 ∧ ∀ rows, rows ≠ [] → e.shareOfRows names rows name = 1 := by
  constructor
  · have hall :
        (Finset.univ.filter fun a : {name // name ∈ names} → Bool => e.Flips name (spread names a))
          = Finset.univ :=
      Finset.filter_true_of_mem fun a _ => listed_spread names a ▸ h (spread names a)
    unfold Expr.shareOfAll
    rw [hall, Finset.card_univ]
    exact div_self (Nat.cast_ne_zero.mpr Fintype.card_ne_zero)
  · intro rows hrows
    have hall : (rows.countP fun row => e.Flips name (assignmentOf names row).value)
        = rows.length := by
      refine List.countP_eq_length.mpr fun row _ => ?_
      have hflips := h (assignmentOf names row).value
      rw [listed_assignmentOf] at hflips
      exact decide_eq_true hflips
    unfold Expr.shareOfRows
    rw [hall]
    exact div_self (Nat.cast_ne_zero.mpr (List.length_pos_iff.mpr hrows).ne')

/-! ## The influence of names -/

/-- The influence of distinct names that are few enough is their share of all assignments. -/
theorem influence_eq_shareOfAll (hnames : names.Nodup) (he : e.WellFormed) {settings : Settings}
    (hcount : (names.length : Int) ≤ settings.maxCountedVariables) :
    influence settings names e = .ok (names.map fun name => (name, e.shareOfAll names name)) := by
  have hscores : names.zipIdx.map ((fun name => (name, e.shareOfAll names name)) ∘ Prod.fst)
      = names.map fun name => (name, e.shareOfAll names name) := by
    rw [← List.map_map, List.zipIdx_map_fst]
  rw [influence_eq_ok hcount he, ← hscores]
  refine congrArg Except.ok (List.map_congr_left ?_)
  rintro ⟨name, place⟩ hentry
  have hshare := shareOfAll_eq_flipShare hnames he (List.mk_mem_zipIdx_iff_getElem?.mp hentry)
  exact congrArg (Prod.mk name) hshare.symm

/-- The influence of more names is their share of the rows of a random sample. -/
theorem influence_eq_shareOfRows (he : e.WellFormed) {settings : Settings}
    (hcount : settings.maxCountedVariables < names.length) :
    influence settings names e = .ok (names.map fun name =>
      (name, e.shareOfRows names (Random.bitRows settings.samples.toNat names.length) name)) := by
  have hsampled := sampledInfluence_eq_ok names (Random.bitRows settings.samples.toNat names.length)
    he
  rw [(bitRows_shape _ _).1] at hsampled
  unfold influence
  split
  · rename_i hempty
    rw [List.isEmpty_iff.mp hempty]
    rfl
  · rw [if_neg (Int.not_le.mpr hcount)]
    exact hsampled

/-- **Scores are shares.** The influence of distinct names on a well formed tree is the share of all
assignments under which flipping the name changes the value; with more names than are counted it is
the share of the rows of the sample matrix, and so it is for every matrix in its place. So a name
that the tree does not depend on scores 0, and a name whose flip always changes the value scores 1,
in both ways. -/
theorem influence_shares (hnames : names.Nodup) (he : e.WellFormed) :
    (∀ settings : Settings, (names.length : Int) ≤ settings.maxCountedVariables →
      influence settings names e = .ok (names.map fun name => (name, e.shareOfAll names name))) ∧
    (∀ settings : Settings, settings.maxCountedVariables < names.length →
      let rows := Random.bitRows settings.samples.toNat names.length
      rows.length = settings.samples.toNat ∧ (∀ row ∈ rows, row.length = names.length) ∧
        influence settings names e = .ok (names.map fun name => (name,
          e.shareOfRows names rows name))) ∧
    (∀ rows : List (List Bool), sampledInfluence (columnsOf names rows) rows.length e
      = .ok (names.map fun name => (name, e.shareOfRows names rows name))) ∧
    ∀ name ∈ names,
      (¬ e.DependsOn names name →
        e.shareOfAll names name = 0 ∧ ∀ rows, e.shareOfRows names rows name = 0) ∧
      ((∀ ρ, e.Flips name (listed names ρ)) →
        e.shareOfAll names name = 1 ∧ ∀ rows, rows ≠ [] → e.shareOfRows names rows name = 1) := by
  refine ⟨fun settings => influence_eq_shareOfAll hnames he, fun settings hcount => ?_,
    fun rows => sampledInfluence_eq_ok names rows he,
    fun name hname => ⟨share_eq_zero hname, share_eq_one⟩⟩
  obtain ⟨hlength, hrows⟩ := bitRows_shape settings.samples.toNat names.length
  exact ⟨hlength, hrows, influence_eq_shareOfRows he hcount⟩

/-- A parity of two names and of a third one that does not count although it occurs. -/
theorem influence_shares_of_parity :
    let names := ["A", "B", "C"]
    let e := Expr.bin .xor (.var "A") (.bin .or (.var "B") (.bin .and (.var "C") (.not (.var "C"))))
    let scores : List (String × Rat) := [("A", 1), ("B", 1), ("C", 0)]
    (names.Nodup ∧ e.WellFormed) ∧ influence {} names e = .ok scores ∧
      ∀ rows, rows ≠ [] → sampledInfluence (columnsOf names rows) rows.length e = .ok scores := by
  intro names e scores
  have hnames : names.Nodup := by decide
  have he : e.WellFormed := by decide
  have hflips : ∀ ρ, e.Flips "A" (listed names ρ) ∧ e.Flips "B" (listed names ρ) := by
    intro ρ
    rw [Expr.flips_iff_eval he, Expr.flips_iff_eval he]
    simp [e, Expr.eval, Op.apply]
  have hidle : ¬ e.DependsOn names "C" := by
    rw [Expr.dependsOn_iff_eval he]
    simp [e, names, Expr.eval, Op.apply, listed]
  obtain ⟨hcounted, -, hsampled, hends⟩ := influence_shares hnames he
  obtain ⟨ha, ha'⟩ := (hends "A" (by decide)).2 fun ρ => (hflips ρ).1
  obtain ⟨hb, hb'⟩ := (hends "B" (by decide)).2 fun ρ => (hflips ρ).2
  obtain ⟨hc, hc'⟩ := (hends "C" (by decide)).1 hidle
  refine ⟨⟨hnames, he⟩, ?_, fun rows hrows => ?_⟩
  · rw [hcounted {} (by decide)]
    simp only [names, List.map_cons, List.map_nil, ha, hb, hc, scores]
  · rw [hsampled rows]
    simp only [names, List.map_cons, List.map_nil, ha' rows hrows, hb' rows hrows, hc' rows, scores]

end SwitchingAlgebra
