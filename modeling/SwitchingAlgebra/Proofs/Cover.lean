/-
# Covers hold all points

The selected items are different ones among the given ones, each of them holds some point, and
together they hold every point that any given item holds.

* `select_subset`, `exists_select`: they are given items, and hold what any given item holds;
* `Successive` is what every step of the selection keeps, `successive_select` says it of the whole
  selection, and `Successive.useful`, `Successive.length_add_le` say what follows;
* `mem_select`: an item that alone holds some point is selected;
* `Greedy` is the loop without a bound, `greedy_addGreedily` says that it ends;
* `Insistent` is the loop that does not look at what it gains, `exists_insistent_iff` says when it
  ends.
-/
import Mathlib.Tactic.Common
import SwitchingAlgebra.Cover

namespace SwitchingAlgebra.Cover

variable {α κ : Type} {holds : α → κ → Bool} {weight : α → Nat} {items chosen : List α}
  {points : List κ}

/-! ## The best item -/

/-- There is a best one among some items. -/
theorem firstBest?_ne_none {less : α → α → Bool} {x : α} (h : x ∈ items) :
    firstBest? less items ≠ none := by
  cases items with
  | nil => exact nomatch h
  | cons y ys =>
    unfold firstBest?
    split
    · exact Option.some_ne_none _
    · split <;> exact Option.some_ne_none _

/-- No item holds more of the points than the best one. -/
theorem gain_le_of_firstBest? {best : α}
    (h : firstBest? (worse holds weight points) items = some best) :
    ∀ x ∈ items, gain holds points x ≤ gain holds points best := by
  induction items generalizing best with
  | nil => exact nomatch h
  | cons x xs ih =>
    unfold firstBest? at h
    split at h
    · rename_i hnone
      obtain rfl := Option.some.inj h
      have hempty : xs = [] := List.eq_nil_iff_forall_not_mem.mpr fun y hy =>
        firstBest?_ne_none hy hnone
      rw [hempty]
      simp
    · rename_i y hy
      split at h
      · rename_i hworse
        obtain rfl := Option.some.inj h
        intro z hz
        rcases List.mem_cons.mp hz with rfl | hz
        · simp only [worse, Bool.or_eq_true, Bool.and_eq_true, decide_eq_true_eq] at hworse
          omega
        · exact ih hy z hz
      · rename_i hworse
        obtain rfl := Option.some.inj h
        simp only [worse, Bool.or_eq_true, Bool.and_eq_true, decide_eq_true_eq, not_or] at hworse
        intro z hz
        rcases List.mem_cons.mp hz with rfl | hz
        · exact Nat.le_refl _
        · exact Nat.le_trans (ih hy z hz) (by omega)

/-! ## Selected items are given ones -/

/-- What is added as essential is a given item. -/
theorem addEssential_subset [DecidableEq α] (hchosen : chosen ⊆ items) (point : κ) :
    addEssential holds items chosen point ⊆ items := by
  unfold addEssential
  split
  · rename_i x hx
    have hmem : x ∈ items := (List.mem_filter.mp (hx ▸ List.mem_singleton.mpr rfl)).1
    split
    · exact hchosen
    · exact List.append_subset.mpr ⟨hchosen, List.cons_subset.mpr ⟨hmem, List.nil_subset _⟩⟩
  · exact hchosen

/-- The essential items are given ones. -/
theorem essentials_subset [DecidableEq α] (holds : α → κ → Bool) (items : List α)
    (points : List κ) : essentials holds items points ⊆ items := by
  have hfold : ∀ chosen, chosen ⊆ items →
      points.foldl (addEssential holds items) chosen ⊆ items := by
    induction points with
    | nil => exact fun _ h => h
    | cons point points ih => exact fun chosen h => ih _ (addEssential_subset h point)
  exact hfold [] (List.nil_subset _)

/-- What is added greedily is a given item. -/
theorem addGreedily_subset (bound : Nat) (hchosen : chosen ⊆ items) :
    addGreedily holds weight items points bound chosen ⊆ items := by
  induction bound generalizing chosen with
  | zero => exact hchosen
  | succ bound ih =>
    unfold addGreedily
    simp only
    split
    · exact hchosen
    · rename_i best hbest
      split
      · exact hchosen
      · exact ih (List.append_subset.mpr
          ⟨hchosen, List.cons_subset.mpr ⟨mem_of_firstBest? hbest, List.nil_subset _⟩⟩)

theorem select_subset [DecidableEq α] (holds : α → κ → Bool) (weight : α → Nat) (items : List α)
    (points : List κ) : select holds weight items points ⊆ items :=
  addGreedily_subset _ (essentials_subset holds items points)

/-! ## Selected items hold all points -/

theorem mem_uncovered {point : κ} :
    point ∈ uncovered holds chosen points ↔ point ∈ points ∧
      ∀ x ∈ chosen, holds x point = false := by
  simp [uncovered]

/-- An item that holds some of the uncovered points leaves fewer of them. -/
theorem length_uncovered_lt {x : α} (h : gain holds (uncovered holds chosen points) x ≠ 0) :
    (uncovered holds (chosen ++ [x]) points).length < (uncovered holds chosen points).length := by
  have hsplit : uncovered holds (chosen ++ [x]) points
      = (uncovered holds chosen points).filter fun point => !holds x point := by
    unfold uncovered
    rw [List.filter_filter]
    refine List.filter_congr fun point _ => ?_
    simp [Bool.and_comm]
  rw [hsplit]
  obtain ⟨point, hpoint, hholds⟩ := List.countP_pos_iff.mp (Nat.pos_of_ne_zero h)
  exact List.length_filter_lt_length_iff_exists.mpr ⟨point, hpoint, by simp [hholds]⟩

/-- What was chosen stays chosen. -/
theorem subset_addGreedily (bound : Nat) (chosen : List α) :
    chosen ⊆ addGreedily holds weight items points bound chosen := by
  induction bound generalizing chosen with
  | zero => exact List.Subset.refl _
  | succ bound ih =>
    unfold addGreedily
    simp only
    split
    · exact List.Subset.refl _
    · split
      · exact List.Subset.refl _
      · exact List.Subset.trans (List.subset_append_left _ _) (ih _)

/-- Adding items greedily covers what any item holds, if there are as many steps as uncovered
points. -/
theorem exists_addGreedily {bound : Nat}
    (hbound : (uncovered holds chosen points).length ≤ bound) {point : κ} (hpoint : point ∈ points)
    {x : α} (hx : x ∈ items) (hholds : holds x point = true) :
    ∃ y ∈ addGreedily holds weight items points bound chosen, holds y point = true := by
  by_cases hcovered : ∃ y ∈ chosen, holds y point = true
  · obtain ⟨y, hy, hyholds⟩ := hcovered
    exact ⟨y, subset_addGreedily bound chosen hy, hyholds⟩
  have huncovered : point ∈ uncovered holds chosen points :=
    mem_uncovered.mpr ⟨hpoint, fun y hy => Bool.eq_false_iff.mpr fun h => hcovered ⟨y, hy, h⟩⟩
  -- every step leaves fewer uncovered points, and the step that covers the point may be any of them
  induction bound generalizing chosen with
  | zero =>
    have hempty := List.eq_nil_of_length_eq_zero (Nat.le_zero.mp hbound)
    rw [hempty] at huncovered
    exact nomatch huncovered
  | succ bound ih =>
    have hgain : gain holds (uncovered holds chosen points) x ≠ 0 :=
      Nat.ne_of_gt (List.countP_pos_iff.mpr ⟨point, huncovered, hholds⟩)
    unfold addGreedily
    simp only
    split
    · rename_i hnone
      exact absurd hnone (firstBest?_ne_none hx)
    · rename_i best hbest
      -- the best item gains as much as the one that holds the point, so the search goes on
      have hle := gain_le_of_firstBest? hbest x hx
      rw [if_neg (by omega)]
      by_cases hbestHolds : holds best point = true
      · exact ⟨best, subset_addGreedily bound _ (by simp), hbestHolds⟩
      · have hlt := length_uncovered_lt
          (show gain holds (uncovered holds chosen points) best ≠ 0 by omega)
        refine ih (by omega) ?_ ?_
        · rintro ⟨y, hy, hyholds⟩
          rcases List.mem_append.mp hy with hy | hy
          · exact hcovered ⟨y, hy, hyholds⟩
          · exact hbestHolds (List.mem_singleton.mp hy ▸ hyholds)
        · refine mem_uncovered.mpr ⟨hpoint, fun y hy => ?_⟩
          rcases List.mem_append.mp hy with hy | hy
          · exact (mem_uncovered.mp huncovered).2 y hy
          · exact Bool.eq_false_iff.mpr (List.mem_singleton.mp hy ▸ hbestHolds)

/-- Every point that some item holds is held by a selected one. -/
theorem exists_select [DecidableEq α] (weight : α → Nat) {point : κ} (hpoint : point ∈ points)
    {x : α} (hx : x ∈ items) (hholds : holds x point = true) :
    ∃ y ∈ select holds weight items points, holds y point = true :=
  exists_addGreedily (List.length_filter_le _ _) hpoint hx hholds

/-! ## Items chosen one after the other -/

/-- Items chosen one after the other, each for a point that none of the earlier ones holds. -/
inductive Successive (holds : α → κ → Bool) (points : List κ) : List α → Prop where
  | none : Successive holds points []
  | append {chosen : List α} {x : α} {point : κ} (earlier : Successive holds points chosen)
    (hopen : point ∈ uncovered holds chosen points) (hholds : holds x point = true) :
    Successive holds points (chosen ++ [x])

/-- Choosing for points is choosing for more points. -/
theorem Successive.mono {points' : List κ} (h : Successive holds points chosen)
    (hpoints : points ⊆ points') : Successive holds points' chosen := by
  induction h with
  | none => exact .none
  | append _ hopen hholds ih =>
    obtain ⟨hpoint, hfree⟩ := mem_uncovered.mp hopen
    exact ih.append (mem_uncovered.mpr ⟨hpoints hpoint, hfree⟩) hholds

/-- Every item takes a point off the uncovered ones, so there are no more items than points. -/
theorem Successive.length_add_le (h : Successive holds points chosen) :
    chosen.length + (uncovered holds chosen points).length ≤ points.length := by
  induction h with
  | none =>
    rw [List.length_nil, Nat.zero_add]
    exact List.length_filter_le _ _
  | append _ hopen hholds ih =>
    have hgain := Nat.ne_of_gt (List.countP_pos_iff.mpr ⟨_, hopen, hholds⟩)
    have hfewer := length_uncovered_lt hgain
    rw [List.length_append, List.length_singleton]
    omega

/-- The chosen items are different, and each of them holds one of the points. -/
structure Useful (holds : α → κ → Bool) (points : List κ) (chosen : List α) : Prop where
  nodup : chosen.Nodup
  exists_point : ∀ x ∈ chosen, ∃ point ∈ points, holds x point = true

/-- Every item holds a point that an earlier one does not hold. -/
theorem Successive.pairwise (h : Successive holds points chosen) :
    chosen.Pairwise fun x y => ∃ point ∈ points, holds x point = false ∧ holds y point = true := by
  induction h with
  | none => exact List.Pairwise.nil
  | append _ hopen hholds ih =>
    obtain ⟨hpoint, hfree⟩ := mem_uncovered.mp hopen
    refine List.pairwise_append.mpr ⟨ih, List.pairwise_singleton _ _, fun y hy z hz => ?_⟩
    exact ⟨_, hpoint, hfree y hy, List.mem_singleton.mp hz ▸ hholds⟩

/-- Items that are chosen for points that no earlier one holds are different. -/
theorem Successive.useful (h : Successive holds points chosen) : Useful holds points chosen where
  nodup := by
    refine h.pairwise.imp ?_
    rintro x _ ⟨point, -, hfree, hholds⟩ rfl
    exact Bool.eq_false_iff.mp hfree hholds
  exists_point := by
    induction h with
    | none => exact fun _ hx => nomatch hx
    | append _ hopen hholds ih =>
      intro y hy
      rcases List.mem_append.mp hy with hy | hy
      · exact ih y hy
      · exact ⟨_, (mem_uncovered.mp hopen).1, List.mem_singleton.mp hy ▸ hholds⟩

/-- An item that is added as essential is the only one that holds the point, so no earlier one
does. -/
theorem Successive.addEssential [DecidableEq α] (h : Successive holds points chosen)
    (hchosen : chosen ⊆ items) {point : κ} (hpoint : point ∈ points) :
    Successive holds points (addEssential holds items chosen point) := by
  unfold Cover.addEssential
  split
  · rename_i x hx
    have hmem : x ∈ items.filter (holds · point) := hx ▸ List.mem_singleton.mpr rfl
    split
    · exact h
    · rename_i hnew
      refine h.append (mem_uncovered.mpr ⟨hpoint,
        fun y hy => Bool.eq_false_iff.mpr fun hyholds => ?_⟩) (List.mem_filter.mp hmem).2
      have honly : y ∈ items.filter (holds · point) := List.mem_filter.mpr ⟨hchosen hy, hyholds⟩
      rw [hx] at honly
      exact hnew (List.mem_singleton.mp honly ▸ hy)
  · exact h

/-- The essential items are chosen one after the other. -/
theorem successive_essentials [DecidableEq α] (holds : α → κ → Bool) (items : List α)
    (points : List κ) : Successive holds points (essentials holds items points) := by
  have hfold : ∀ rest ⊆ points, ∀ chosen ⊆ items, Successive holds points chosen →
      Successive holds points (rest.foldl (addEssential holds items) chosen) := by
    intro rest
    induction rest with
    | nil => exact fun _ _ _ h => h
    | cons point rest ih =>
      intro hrest chosen hchosen h
      obtain ⟨hpoint, hrest⟩ := List.cons_subset.mp hrest
      exact ih hrest _ (addEssential_subset hchosen point) (h.addEssential hchosen hpoint)
  exact hfold points (List.Subset.refl _) [] (List.nil_subset _) .none

/-- An item that is added greedily holds a point that none of the chosen ones holds. -/
theorem Successive.addGreedily (bound : Nat) (h : Successive holds points chosen) :
    Successive holds points (addGreedily holds weight items points bound chosen) := by
  induction bound generalizing chosen with
  | zero => exact h
  | succ bound ih =>
    unfold Cover.addGreedily
    simp only
    split
    · exact h
    · split
      · exact h
      · rename_i hgain
        obtain ⟨point, hopen, hholds⟩ := List.countP_pos_iff.mp (Nat.pos_of_ne_zero hgain)
        exact ih (h.append hopen hholds)

/-- The selected items are chosen one after the other. -/
theorem successive_select [DecidableEq α] (holds : α → κ → Bool) (weight : α → Nat) (items : List α)
    (points : List κ) : Successive holds points (select holds weight items points) :=
  (successive_essentials holds items points).addGreedily _

/-- The selected items are different and hold some point each. -/
theorem useful_select [DecidableEq α] (holds : α → κ → Bool) (weight : α → Nat) (items : List α)
    (points : List κ) : Useful holds points (select holds weight items points) :=
  (successive_select holds weight items points).useful

/-! ## Essential items are selected -/

/-- What was chosen stays chosen when an essential item is added. -/
theorem subset_addEssential [DecidableEq α] (holds : α → κ → Bool) (items chosen : List α)
    (point : κ) : chosen ⊆ addEssential holds items chosen point := by
  unfold addEssential
  split
  · split
    · exact List.Subset.refl _
    · exact List.subset_append_left _ _
  · exact List.Subset.refl _

/-- An item that alone holds some of the points is essential. -/
theorem mem_essentials [DecidableEq α] {x : α} {point : κ} (hpoint : point ∈ points)
    (hx : items.filter (holds · point) = [x]) : x ∈ essentials holds items points := by
  have hkeep : ∀ (rest : List κ) (chosen : List α),
      chosen ⊆ rest.foldl (addEssential holds items) chosen := by
    intro rest
    induction rest with
    | nil => exact fun chosen => List.Subset.refl chosen
    | cons point rest ih => exact fun chosen => List.Subset.trans (subset_addEssential ..) (ih _)
  have hadded : ∀ chosen, x ∈ addEssential holds items chosen point := by
    intro chosen
    unfold addEssential
    rw [hx]
    simp only
    split
    · assumption
    · exact List.mem_append_right _ (List.mem_singleton.mpr rfl)
  obtain ⟨before, after, rfl⟩ := List.append_of_mem hpoint
  unfold essentials
  rw [List.foldl_append, List.foldl_cons]
  exact hkeep after _ (hadded _)

/-- An entry of a list that alone has a property is all that a filter by it leaves. -/
theorem filter_eq_singleton {p : α → Bool} {before after : List α} {x : α} (hx : p x = true)
    (halone : ∀ other ∈ before ++ after, p other = false) :
    (before ++ x :: after).filter p = [x] := by
  have hothers : ∀ others ⊆ before ++ after, others.filter p = [] := fun others hsubset =>
    List.filter_eq_nil_iff.mpr fun other hother =>
      Bool.eq_false_iff.mp (halone other (hsubset hother))
  rw [List.filter_append, List.filter_cons_of_pos hx, hothers before (List.subset_append_left _ _),
    hothers after (List.subset_append_right _ _), List.nil_append]

/-- An item that alone holds some of the points is selected. -/
theorem mem_select [DecidableEq α] (weight : α → Nat) {x : α} {point : κ} (hpoint : point ∈ points)
    (hx : items.filter (holds · point) = [x]) : x ∈ select holds weight items points :=
  subset_addGreedily _ _ (mem_essentials hpoint hx)

/-! ## The loop of the selection -/

/-- The loop that adds items, with what it ends in: while some point is uncovered, the best item for
the uncovered points is added, unless it holds none of them. -/
inductive Greedy (holds : α → κ → Bool) (weight : α → Nat) (items : List α) (points : List κ) :
    List α → List α → Prop where
  | covered {chosen : List α} (h : uncovered holds chosen points = []) :
    Greedy holds weight items points chosen chosen
  | useless {chosen : List α} {best : α} (hopen : uncovered holds chosen points ≠ [])
    (hbest : firstBest? (worse holds weight (uncovered holds chosen points)) items = some best)
    (hgain : gain holds (uncovered holds chosen points) best = 0) :
    Greedy holds weight items points chosen chosen
  | more {chosen found : List α} {best : α} (hopen : uncovered holds chosen points ≠ [])
    (hbest : firstBest? (worse holds weight (uncovered holds chosen points)) items = some best)
    (hgain : gain holds (uncovered holds chosen points) best ≠ 0)
    (rest : Greedy holds weight items points (chosen ++ [best]) found) :
    Greedy holds weight items points chosen found

/-- With items to choose from, the loop ends after at most as many rounds as there are uncovered
points. -/
theorem greedy_addGreedily {bound : Nat} (hitems : items ≠ [])
    (hbound : (uncovered holds chosen points).length ≤ bound) :
    Greedy holds weight items points chosen
      (addGreedily holds weight items points bound chosen) := by
  induction bound generalizing chosen with
  | zero => exact .covered (List.eq_nil_of_length_eq_zero (Nat.le_zero.mp hbound))
  | succ bound ih =>
    obtain ⟨x, hx⟩ := List.exists_mem_of_ne_nil items hitems
    have hsome : firstBest? (worse holds weight (uncovered holds chosen points)) items ≠ none :=
      firstBest?_ne_none hx
    obtain ⟨best, hbest⟩ := Option.ne_none_iff_exists'.mp hsome
    unfold addGreedily
    simp only [hbest]
    by_cases hopen : uncovered holds chosen points = []
    · have hnone : gain holds (uncovered holds chosen points) best = 0 := by rw [hopen]; rfl
      rw [if_pos hnone]
      exact .covered hopen
    · split
      · rename_i hgain
        exact .useless hopen hbest hgain
      · rename_i hgain
        have hfewer := length_uncovered_lt hgain
        exact .more hopen hbest hgain (ih (by omega))

/-- The loop that adds items, with what it ends in: while some point is uncovered, the best item for
the uncovered points is added, whether it holds some of them or not. -/
inductive Insistent (holds : α → κ → Bool) (weight : α → Nat) (items : List α) (points : List κ) :
    List α → List α → Prop where
  | covered {chosen : List α} (h : uncovered holds chosen points = []) :
    Insistent holds weight items points chosen chosen
  | more {chosen found : List α} {best : α} (hopen : uncovered holds chosen points ≠ [])
    (hbest : firstBest? (worse holds weight (uncovered holds chosen points)) items = some best)
    (rest : Insistent holds weight items points (chosen ++ [best]) found) :
    Insistent holds weight items points chosen found

/-- A point that is uncovered before a round is held by the item of the round or is uncovered after
it. -/
theorem holds_or_mem_uncovered {x : α} {point : κ} (h : point ∈ uncovered holds chosen points) :
    holds x point = true ∨ point ∈ uncovered holds (chosen ++ [x]) points := by
  obtain ⟨hpoint, hfree⟩ := mem_uncovered.mp h
  cases hx : holds x point with
  | true => exact Or.inl rfl
  | false =>
    refine Or.inr (mem_uncovered.mpr ⟨hpoint, fun y hy => ?_⟩)
    rcases List.mem_append.mp hy with hy | hy
    · exact hfree y hy
    · exact List.mem_singleton.mp hy ▸ hx

/-- The insistent loop ends only where every uncovered point is held by some item. -/
theorem Insistent.exists_holds {found : List α}
    (h : Insistent holds weight items points chosen found) :
    ∀ point ∈ uncovered holds chosen points, ∃ x ∈ items, holds x point = true := by
  induction h with
  | covered h =>
    intro point hpoint
    rw [h] at hpoint
    exact nomatch hpoint
  | more _ hbest _ ih =>
    intro point hpoint
    rcases holds_or_mem_uncovered hpoint with hholds | hopen
    · exact ⟨_, mem_of_firstBest? hbest, hholds⟩
    · exact ih point hopen

/-- Where every uncovered point is held by some item the best item always gains some, and both loops
are the same. -/
theorem Greedy.insistent {found : List α} (h : Greedy holds weight items points chosen found)
    (hall : ∀ point ∈ uncovered holds chosen points, ∃ x ∈ items, holds x point = true) :
    Insistent holds weight items points chosen found := by
  induction h with
  | covered h => exact .covered h
  | useless hopen hbest hgain =>
    obtain ⟨point, hpoint⟩ := List.exists_mem_of_ne_nil _ hopen
    obtain ⟨x, hx, hholds⟩ := hall point hpoint
    have hle := gain_le_of_firstBest? hbest x hx
    have hpos : 0 < gain holds _ x := List.countP_pos_iff.mpr ⟨point, hpoint, hholds⟩
    omega
  | more hopen hbest _ _ ih =>
    refine .more hopen hbest (ih fun point hpoint => hall point ?_)
    obtain ⟨hmem, hfree⟩ := mem_uncovered.mp hpoint
    exact mem_uncovered.mpr ⟨hmem, fun y hy => hfree y (List.mem_append_left _ hy)⟩

/-- Where every uncovered point is held by some item, the insistent loop ends in what is added
greedily. -/
theorem insistent_addGreedily
    (hall : ∀ point ∈ uncovered holds chosen points, ∃ x ∈ items, holds x point = true) :
    Insistent holds weight items points chosen (addGreedily holds weight items points points.length
      chosen) := by
  have hgreedy : Greedy holds weight items points chosen
      (addGreedily holds weight items points points.length chosen) := by
    by_cases hitems : items = []
    · -- without items there is nothing to cover
      have hnone : uncovered holds chosen points
          = [] := List.eq_nil_iff_forall_not_mem.mpr fun point hpoint => by
        obtain ⟨x, hx, -⟩ := hall point hpoint
        rw [hitems] at hx
        exact nomatch hx
      have hsame : addGreedily holds weight items points points.length chosen = chosen := by
        cases points with
        | nil => rfl
        | cons point points =>
          rw [hitems]
          rfl
      rw [hsame]
      exact .covered hnone
    · exact greedy_addGreedily hitems (List.length_filter_le _ _)
  exact hgreedy.insistent hall

/-- The insistent loop ends exactly where every uncovered point is held by some item. -/
theorem exists_insistent_iff : (∃ found, Insistent holds weight items points chosen found) ↔
    ∀ point ∈ uncovered holds chosen points, ∃ x ∈ items, holds x point = true :=
  ⟨fun ⟨_, h⟩ => h.exists_holds, fun hall => ⟨_, insistent_addGreedily hall⟩⟩

end SwitchingAlgebra.Cover
