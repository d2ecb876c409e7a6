/-
# Columns of a truth table

The output column of a well formed tree has its value in every row, and every assignment to the
listed names is a row.

* `Op.applyColumns_eq_zipWith`: the operations on columns have the same table as the operators;
* `truthVector_eq`, `trueRows_eq` say what the columns are;
* `value_rowAssignment` says what a row assigns, `exists_row_of_assignment` finds the row of an
  assignment;
* `Expr.AgreesListed` compares trees where only listed names count.
-/
import SwitchingAlgebra.Proofs.Refinement
import SwitchingAlgebra.Proofs.Table.Rows

namespace SwitchingAlgebra

/-! ## Values by name -/

/-- The value of a name is found among changed values where it was found before. -/
theorem lastValue?_map {α β : Type} (f : α → β) (name : String) (xs : List (String × α)) :
    lastValue? name (xs.map fun entry => (entry.1, f entry.2)) = (lastValue? name xs).map f := by
  induction xs with
  | nil => rfl
  | cons entry xs ih =>
    simp only [List.map_cons, lastValue?, ih]
    cases lastValue? name xs with
    | some y => rfl
    | none =>
      show (if entry.1 = name then some (f entry.2) else none)
        = (if entry.1 = name then some entry.2 else none).map f
      split <;> rfl

/-- A name that is not listed has no value. -/
theorem lastValue?_eq_none {α : Type} {name : String} {xs : List (String × α)}
    (h : name ∉ xs.map Prod.fst) : lastValue? name xs = none := by
  induction xs with
  | nil => rfl
  | cons entry xs ih =>
    obtain ⟨hne, hrest⟩ := List.ne_and_not_mem_of_not_mem_cons h
    simp only [lastValue?, ih hrest]
    rw [if_neg (Ne.symm hne)]

/-- A name that is listed has a value. -/
theorem exists_lastValue? {α : Type} {name : String} {xs : List (String × α)}
    (h : name ∈ xs.map Prod.fst) : ∃ x, lastValue? name xs = some x := by
  induction xs with
  | nil => exact absurd h List.not_mem_nil
  | cons entry xs ih =>
    rw [lastValue?]
    cases hrest : lastValue? name xs with
    | some x => exact ⟨x, rfl⟩
    | none =>
      rcases List.mem_cons.mp h with hentry | hmem
      · exact ⟨entry.2, if_pos hentry.symm⟩
      · obtain ⟨x, hx⟩ := ih hmem
        exact absurd (hrest.symm.trans hx) (by simp)

/-- A name has the value that stands at its last place. -/
theorem lastValue?_of_last {α : Type} {name : String} {x : α} {xs : List (String × α)} {place : Nat}
    (hplace : xs[place]? = some (name, x))
    (hlast : ∀ later, place < later → (xs.map Prod.fst)[later]? ≠ some name) :
    lastValue? name xs = some x := by
  induction xs generalizing place with
  | nil => exact nomatch hplace
  | cons entry xs ih =>
    cases place with
    | zero =>
      obtain rfl : entry = (name, x) := Option.some.inj hplace
      have hrest : name ∉ xs.map Prod.fst := fun hmem => by
        obtain ⟨later, hlater⟩ := List.mem_iff_getElem?.mp hmem
        exact hlast (later + 1) (Nat.succ_pos later) hlater
      simp only [lastValue?, lastValue?_eq_none hrest, if_true]
    | succ place =>
      have hvalue := ih hplace fun later hlater => hlast (later + 1) (Nat.succ_lt_succ hlater)
      simp only [lastValue?, hvalue]

/-! ## Output columns -/

/-- The columns of rows that have an entry at every place hold the values that the rows give the
names. -/
theorem getD_columns {ι : Type} (names : List String) (rows : List ι) (entry : ι → Nat → Bool)
    (name : String) :
    (lastValue? name (names.zipIdx.map fun (name, place) => (name, rows.map (entry · place)))).getD
        (List.replicate rows.length false)
      = rows.map fun row => Assignment.value (names.zipIdx.map fun (name, place) =>
        (name, entry row place)) name := by
  have hcolumn := lastValue?_map (fun place => rows.map (entry · place)) name names.zipIdx
  have hrow : ∀ row, _ = (lastValue? name names.zipIdx).map (entry row) :=
    fun row => lastValue?_map (entry row) name names.zipIdx
  unfold Assignment.value
  simp only [hcolumn, hrow]
  cases lastValue? name names.zipIdx with
  | some place => rfl
  | none => simp [List.map_const']

/-- The operations on columns are the operators, entry by entry. -/
theorem Op.applyColumns_eq_zipWith (op : Op) (xs ys : List Bool) :
    op.applyColumns xs ys = xs.zipWith op.apply ys := by
  cases op with
  | and | or | xor => rfl
  | nand | nor => exact List.map_zipWith
  | xnor =>
    have hequal : ∀ x y : Bool, (!(x ^^ y)) = (x == y) := by decide
    refine List.map_zipWith.trans ?_
    simp only [hequal]
    rfl

/-- The column of a finished tree has its value in every row, if the input columns hold the values
of their names. -/
theorem column_eq_map {ι : Type} {inputs : List (String × List Bool)} {rows : List ι}
    {value : ι → String → Bool}
    (hinputs : ∀ name, (lastValue? name inputs).getD (List.replicate rows.length false)
      = rows.map (value · name)) {p : String → Prop} {e : Expr} (h : e.Over p) :
    e.column inputs rows.length = .ok (rows.map fun row => e.eval (value row)) := by
  induction e with
  | var name => exact congrArg Except.ok (hinputs name)
  | const b => simp [Expr.column, Expr.eval, List.map_const']
  | not e ih =>
    have hpresent : e.isHole = false := Expr.Over.isHole_eq_false (p := p) h
    simp only [Expr.column, hpresent, ih h, bind, Except.bind, pure, Except.pure]
    simp [Expr.eval]
  | bin op l r ihl ihr =>
    simp only [Expr.column, h.1.isHole_eq_false, h.2.isHole_eq_false, ihl h.1, ihr h.2, bind,
      Except.bind, pure, Except.pure]
    simp [Expr.eval, Op.applyColumns_eq_zipWith, List.zipWith_map]
  | bare _ _ _ _ | hole => exact h.elim

/-- The column of a finished tree over the rows of a list of names. -/
theorem column_eq {names : List String} {p : String → Prop} {e : Expr} (h : e.Over p) :
    e.column (inputColumns names) (2 ^ names.length)
      = .ok ((List.range (2 ^ names.length)).map fun i =>
        e.eval (rowAssignment names i).value) := by
  have hcolumn := column_eq_map
    (getD_columns names (List.range (2 ^ names.length)) fun i place => bitAt names.length place i) h
  rwa [List.length_range] at hcolumn

/-- The output column of a well formed tree has its value in every row. -/
theorem truthVector_eq (names : List String) {e : Expr} (h : e.WellFormed) :
    truthVector names e
      = .ok ((List.range (2 ^ names.length)).map fun i => e.eval (rowAssignment names i).value) :=
  column_eq ((Expr.wellFormed_iff_over e).mp h)

/-- The true places of a column over a range are those where its function is true. -/
theorem truePlaces_map_range (f : Nat → Bool) (n : Nat) :
    truePlaces ((List.range n).map f) = (List.range n).filter f := by
  unfold truePlaces
  have hzip : ((List.range n).map f).zipIdx = (List.range n).map fun i => (f i, i) := by
    apply List.ext_getElem
    · simp
    · intro i h1 h2
      simp
  rw [hzip, List.filter_map, List.map_map]
  exact List.map_id _

/-- The true rows of a finished tree. -/
theorem trueRows_of_over (names : List String) {p : String → Prop} {e : Expr} (h : e.Over p) :
    trueRows names e
      = .ok ((List.range (2 ^ names.length)).filter fun i =>
        e.eval (rowAssignment names i).value) := by
  have hvector : truthVector names e = _ := column_eq h
  unfold trueRows
  rw [hvector, ← truePlaces_map_range]
  rfl

/-- The true rows of a well formed tree. -/
theorem trueRows_eq (names : List String) {e : Expr} (h : e.WellFormed) :
    trueRows names e
      = .ok ((List.range (2 ^ names.length)).filter fun i =>
        e.eval (rowAssignment names i).value) :=
  trueRows_of_over names ((Expr.wellFormed_iff_over e).mp h)

/-! ## Rows of assignments -/

theorem map_fst_rowAssignment (names : List String) (i : Nat) :
    (rowAssignment names i).map Prod.fst = names := by
  simp [rowAssignment, Function.comp_def]

/-- A row gives each name the bit of its last place. -/
theorem value_rowAssignment_of_last {names : List String} {place : Nat} {name : String}
    (hname : names[place]? = some name) (hlast : ∀ later, place < later → names[later]? ≠ some name)
    (i : Nat) : (rowAssignment names i).value name = bitAt names.length place i := by
  have hentry : (rowAssignment names i)[place]? = some (name, bitAt names.length place i) := by
    simp [rowAssignment, hname]
  have hvalue : lastValue? name (rowAssignment names i) = some (bitAt names.length place i) := by
    refine lastValue?_of_last hentry fun later hlater => ?_
    rw [map_fst_rowAssignment]
    exact hlast later hlater
  show (lastValue? name (rowAssignment names i)).getD false = _
  rw [hvalue]
  rfl

/-- A row gives each of distinct names the bit of its place. -/
theorem value_rowAssignment {names : List String} (h : names.Nodup) {place : Nat} {name : String}
    (hname : names[place]? = some name) (i : Nat) :
    (rowAssignment names i).value name = bitAt names.length place i := by
  refine value_rowAssignment_of_last hname (fun later hlater heq => ?_) i
  obtain ⟨hlt, _⟩ := List.getElem?_eq_some_iff.mp hname
  exact absurd ((List.getElem?_inj hlt h).mp (hname.trans heq.symm)) (Nat.ne_of_lt hlater)

/-- A row reads every name that is not listed as 0. -/
theorem value_rowAssignment_of_not_mem {names : List String} {name : String}
    (h : name ∉ names) (i : Nat) : (rowAssignment names i).value name = false := by
  show (lastValue? name (rowAssignment names i)).getD false = _
  rw [lastValue?_eq_none (by rwa [map_fst_rowAssignment])]
  rfl

/-- The assignment that reads the names that are not listed as 0. -/
def listed (names : List String) (ρ : String → Bool) (name : String) : Bool :=
  if name ∈ names then ρ name else false

/-- Every assignment to distinct names is a row. -/
theorem exists_row_of_assignment {names : List String} (h : names.Nodup) (ρ : String → Bool) :
    ∃ i < 2 ^ names.length, (rowAssignment names i).value = listed names ρ ∧
      ∀ (place : Nat) (name : String), names[place]? = some name →
      bitAt names.length place i = ρ name := by
  obtain ⟨i, hi, hbits⟩ := exists_row names.length fun place => ρ (names.getD place "")
  have hplace : ∀ (place : Nat) (name : String), names[place]? = some name →
      bitAt names.length place i = ρ name := by
    intro place name hname
    rw [hbits place (List.getElem?_eq_some_iff.mp hname).1, List.getD_eq_getElem?_getD, hname]
    rfl
  refine ⟨i, hi, ?_, hplace⟩
  funext name
  unfold listed
  split
  · rename_i hmem
    obtain ⟨place, hname⟩ := List.mem_iff_getElem?.mp hmem
    rw [value_rowAssignment h hname, hplace place name hname]
  · rename_i hnot
    exact value_rowAssignment_of_not_mem hnot i

/-! ## Agreement over listed names -/

/-- Both trees have a value under every assignment, and it is the same if names that are not listed
read 0 in the second tree. -/
def Expr.AgreesListed (names : List String) (e' e : Expr) : Prop :=
  ∀ ρ, ∃ b, e'.evaluate ρ = .ok b ∧ e.evaluate (listed names ρ) = .ok b

/-- A tree over listed names agrees with a well formed tree if it has its truth function. -/
theorem Expr.agreesListed_of_eval {names : List String} {e' e : Expr} (h' : e'.Over (· ∈ names))
    (h : e.WellFormed) (heval : ∀ ρ, e'.eval ρ = e.eval (listed names ρ)) :
    Expr.AgreesListed names e' e := by
  intro ρ
  refine ⟨e'.eval ρ, h'.evaluate_eq ρ, ?_⟩
  rw [evaluate_eq_ok_eval _ h, heval ρ]

end SwitchingAlgebra
