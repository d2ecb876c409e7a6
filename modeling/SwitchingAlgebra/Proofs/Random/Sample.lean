/-
# What random trees are like

Whatever is drawn, a random tree has an operator and is as flat as its level allows, so its text is
read back as the tree. Each draw is taken from a source of any kind; what it yields is said of every
state of the source.

* `Random.Yields` is a property of everything that draws can give, with `pure` and `bind` as its
  rules;
* `SampleOptions.Fits` is what the parts of a random tree have in common, `yields_leaf`,
  `yields_branch` and `yields_term` follow the definitions;
* `SampleOptions.tree_reads_back` is about the whole tree and its text.
-/
import SwitchingAlgebra.Proofs.Formula.Overlined
import SwitchingAlgebra.Proofs.Formula.RoundTrip
import SwitchingAlgebra.Random.Sample

namespace SwitchingAlgebra

/-! ## Everything that draws can give -/

namespace Random

variable {σ α β : Type} {p : α → Prop} {q : β → Prop} {draws : StateM σ α}

/-- Whether everything that can be drawn has a property. -/
def Yields (p : α → Prop) (draws : StateM σ α) : Prop :=
  ∀ s, p (draws s).1

theorem Yields.pure {a : α} (h : p a) : Yields p (pure a : StateM σ α) :=
  fun _ => h

/-- What comes after draws may use what they yield. -/
theorem Yields.bind {next : α → StateM σ β} (h : Yields p draws)
    (hnext : ∀ a, p a → Yields q (next a)) : Yields q (draws >>= next) :=
  fun s => hnext _ (h s) _

/-- What comes after draws may not need to know what they yield. -/
theorem Yields.after (draws : StateM σ α) {next : α → StateM σ β} (hnext : ∀ a, Yields q (next a)) :
    Yields q (draws >>= next) :=
  fun _ => hnext _ _

theorem Yields.mono {p' : α → Prop} (h : Yields p draws) (hp : ∀ a, p a → p' a) : Yields p' draws :=
  fun s => hp _ (h s)

theorem yields_choice (source : Source σ) (first : α) (rest : List α) :
    Yields (· ∈ first :: rest) (source.choice first rest) :=
  fun _ => List.get_mem _ _

end Random

/-! ## Trees of sums, products and complements -/

/-- Whether a tree is made of sums, products and complements over variables with the given names
and, if there may be constants, over truth values. -/
def Expr.IsMadeOf (names : List String) (constants : Bool) : Expr → Prop
  | var name => name ∈ names
  | const _ => constants = true
  | not e => e.IsMadeOf names constants
  | bin op l r => (op = .and ∨ op = .or) ∧ l.IsMadeOf names constants ∧ r.IsMadeOf names constants
  | bare _ _ | hole => False

/-- Such a tree is finished, and its names are among the given ones. -/
theorem Expr.IsMadeOf.over {p : String → Prop} {names : List String} {constants : Bool} {e : Expr}
    (h : e.IsMadeOf names constants) (hnames : ∀ name ∈ names, p name) : e.Over p := by
  induction e with
  | var name => exact hnames name h
  | const _ => trivial
  | not e ih => exact ih h
  | bin op l r ihl ihr => exact ⟨ihl h.2.1, ihr h.2.2⟩
  | bare _ _ _ _ | hole => exact h.elim

/-- Whether a tree has a sum or a product in it. -/
def Expr.HasChain (e : Expr) : Prop :=
  ∃ l r, .bin .and l r ∈ e.nodes ∨ .bin .or l r ∈ e.nodes

/-- A sum or product has one. -/
theorem Expr.hasChain_bin {op : Op} (hop : op = .and ∨ op = .or) (l r : Expr) :
    (bin op l r).HasChain := by
  refine ⟨l, r, ?_⟩
  rcases hop with rfl | rfl
  · exact Or.inl (List.mem_cons_self ..)
  · exact Or.inr (List.mem_cons_self ..)

/-- The complement of a tree that has one has it, too. -/
theorem Expr.HasChain.not {e : Expr} (h : e.HasChain) : (Expr.not e).HasChain := by
  obtain ⟨l, r, h⟩ := h
  exact ⟨l, r, h.imp (List.mem_cons_of_mem _) (List.mem_cons_of_mem _)⟩

namespace SampleOptions

open SwitchingAlgebra.Random (Yields scripted yields_choice)

variable {σ : Type} (source : Random.Source σ) (options : SampleOptions)

/-- What a part of a random tree is made of, how deep it is at most, and how many complements are on
a path in it. -/
structure Fits (depth lines : Nat) (e : Expr) : Prop where
  isMadeOf : e.IsMadeOf (options.first :: options.used) options.constants
  depth_le : e.depth ≤ depth
  lines_le : e.lines ≤ lines

variable {options} {depth lines : Nat}

theorem Fits.mono {depth' lines' : Nat} {e : Expr} (h : options.Fits depth lines e)
    (hdepth : depth ≤ depth') (hlines : lines ≤ lines') : options.Fits depth' lines' e :=
  ⟨h.isMadeOf, h.depth_le.trans hdepth, h.lines_le.trans hlines⟩

/-- A complement needs room for one more node and one more complement. -/
theorem Fits.not {e : Expr} (h : options.Fits depth lines e) :
    options.Fits (depth + 1) (lines + 1) (.not e) :=
  ⟨h.isMadeOf, Nat.succ_le_succ h.depth_le, Nat.succ_le_succ h.lines_le⟩

/-- A sum or product needs room for one more node. -/
theorem Fits.bin {op : Op} {l r : Expr} (hop : op = .and ∨ op = .or)
    (hl : options.Fits depth lines l) (hr : options.Fits depth lines r) :
    options.Fits (depth + 1) lines (.bin op l r) :=
  ⟨⟨hop, hl.isMadeOf, hr.isMadeOf⟩, Nat.succ_le_succ (Nat.max_le.mpr ⟨hl.depth_le, hr.depth_le⟩),
    Nat.max_le.mpr ⟨hl.lines_le, hr.lines_le⟩⟩

variable (options)

/-- A variable fits with one node. -/
theorem yields_anyVariable : Yields (options.Fits 1 0) (options.anyVariable source) :=
  (yields_choice source options.first options.used).bind fun _ hname =>
    Yields.pure ⟨hname, le_rfl, le_rfl⟩

/-- A literal fits with two nodes, one of them a complement. -/
theorem yields_anyLiteral : Yields (options.Fits 2 1) (options.anyLiteral source) := by
  refine (options.yields_anyVariable source).bind fun e he => Yields.after _ fun negated => ?_
  split
  · exact Yields.pure he.not
  · exact Yields.pure (he.mono (by decide) (by decide))

/-- A leaf is a literal or a constant that is allowed. -/
theorem yields_leaf : Yields (options.Fits 2 1) (options.leaf source) := by
  unfold leaf
  split
  · rename_i hconstants
    refine Yields.after _ fun constant => ?_
    split
    · exact Yields.after _ fun b => Yields.pure ⟨hconstants, Nat.le_succ 1, Nat.zero_le 1⟩
    · exact options.yields_anyLiteral source
  · exact options.yields_anyLiteral source

/-- A sum or product of parts that fit, or its complement. -/
theorem yields_branch {operand : StateM σ Expr} (h : Yields (options.Fits depth lines) operand) :
    Yields (fun e => options.Fits (depth + 2) (lines + 1) e ∧
      e.HasChain) (options.branch source operand) := by
  refine Yields.after _ fun product => h.bind fun left hleft => h.bind fun right hright => ?_
  have hop : (if product then Op.and else Op.or) = .and ∨
      (if product then Op.and else Op.or) = .or := by
    cases product
    · exact Or.inr rfl
    · exact Or.inl rfl
  have hfits := Fits.bin hop hleft hright
  have hchain := Expr.hasChain_bin hop left right
  refine Yields.after _ fun negated => ?_
  split
  · exact Yields.pure ⟨hfits.not, hchain.not⟩
  · exact Yields.pure ⟨hfits.mono (Nat.le_succ _) (Nat.le_succ _), hchain⟩

/-- A tree of a level of two or more is a sum or a product or the complement of one, whose operands
are trees of the level below or leaves. -/
theorem yields_term_of_operand (level : Nat)
    (h : Yields (options.Fits (2 * (level + 1)) (level + 1)) (options.term source (level + 1))) :
    Yields (fun e => options.Fits (2 * (level + 2)) (level + 2) e ∧
      e.HasChain) (options.term source (level + 2)) := by
  refine options.yields_branch source (Yields.after _ fun nested => ?_)
  split
  · exact h
  · exact (options.yields_leaf source).mono fun e he =>
      he.mono (show 2 ≤ 2 * (level + 1) by omega) (show 1 ≤ level + 1 by omega)

/-- **A tree is as flat as its level.** -/
theorem yields_term (level : Nat) :
    Yields (options.Fits (2 * (level + 1)) (level + 1)) (options.term source (level + 1)) := by
  induction level with
  | zero => exact options.yields_leaf source
  | succ level ih => exact (options.yields_term_of_operand source level ih).mono fun e he => he.1

/-- A tree with an operator is as flat as its level, but for levels that leave no room for an
operator. -/
theorem yields_forcedTerm (level : Nat) :
    Yields (fun e => options.Fits (2 * max 2 level) (max 2 level) e ∧ e.HasChain)
      (options.forcedTerm source level) := by
  unfold forcedTerm
  split
  · rename_i hlevel
    rw [max_eq_left (by omega)]
    exact options.yields_branch source (options.yields_leaf source)
  · obtain ⟨level, rfl⟩ := Nat.exists_eq_add_of_le' (show 2 ≤ level by omega)
    rw [max_eq_right (Nat.le_add_left 2 level)]
    exact options.yields_term_of_operand source level (options.yields_term source level)

/-! ## Whole trees -/

/-- The names in use are the first ones, two more than the complexity as far as there are so many,
but at least one. -/
theorem cons_used : options.first :: options.used = (options.first :: options.others).take
    (max 1 (min (2 + options.complexity) (options.first :: options.others).length)).toNat := by
  have hlength : ((options.first :: options.others).length : Int) = options.others.length + 1 := by
    simp
  obtain ⟨n, hn⟩ :
      ∃ n, (max 1 (min (2 + options.complexity) (options.first :: options.others).length)).toNat
        = n + 1 :=
    Nat.exists_eq_add_of_le' (by omega)
  rw [hn, List.take_succ_cons, used, extra]
  refine congrArg _ ?_
  -- where there are not so many names, all of them are in use
  by_cases hle : 2 + options.complexity ≤ (options.first :: options.others).length
  · rw [show n = (2 + options.complexity).toNat - 1 by omega]
  · rw [List.take_of_length_le (by omega), List.take_of_length_le (by omega)]

/-- **A random tree has an operator, is flat, and is read back from its text.** Whatever is drawn,
from a seed or from any other source, a random tree over options whose names are capital letters has
a sum or a product in it. It is made of sums, products and complements over the first names, two
more than the complexity as far as there are so many but at least one, and over truth values only if
there may be constants. It has at most twice as many levels as the complexity, and at most as many
complements on a path as the complexity, where a complexity below two counts as two. Its text in the
form that the options ask for is read back as the tree itself, if it is not one with overlines for a
complexity of more than fifty. -/
theorem tree_reads_back {options : SampleOptions}
    (hnames : ∀ name ∈ options.first :: options.others, IsCapital name) (s : σ) :
    let e := (options.tree source s).1
    e.HasChain ∧
    e.IsMadeOf ((options.first :: options.others).take
      (max 1 (min (2 + options.complexity) (options.first :: options.others).length)).toNat)
      options.constants ∧
    (e.depth : Int) ≤ max 4 (2 * options.complexity) ∧ (e.lines : Int) ≤ max 2 options.complexity ∧
    ((options.form = .typeset → options.overline = true → options.complexity ≤ 50) →
      (options.written e).bind Expr.parse = .ok e) := by
  intro e
  obtain ⟨hfits, hchain⟩ := options.yields_forcedTerm source options.complexity.toNat s
  have hmade := hfits.isMadeOf
  have hdepth : e.depth ≤ 2 * max 2 options.complexity.toNat := hfits.depth_le
  have hlines : e.lines ≤ max 2 options.complexity.toNat := hfits.lines_le
  rw [cons_used] at hmade
  have hover : e.Over IsCapital :=
    hmade.over fun name hname => hnames name (List.mem_of_mem_take hname)
  refine ⟨hchain, hmade, by omega, by omega, fun hform => ?_⟩
  unfold written
  cases hwritten : options.form with
  | standard => exact Expr.parse_of_render (Or.inl rfl) hover
  | typeset =>
    cases hoverline : options.overline with
    | false => exact Expr.parse_of_render (Or.inr rfl) hover
    | true =>
      have hcomplexity := hform hwritten hoverline
      exact Overline.parse_of_lines_le hover (show e.lines ≤ 50 by omega)

/-- A tree that is written with overlines, from a script of draws. -/
theorem tree_reads_back_of_script :
    (∀ name ∈ ["A", "B"], IsCapital name) ∧
    (tree scripted { others := ["B"], complexity := 2, form := .typeset, overline := true }
      ⟨[100, 900, 1, 100, 100, 0, 900, 100], 0⟩).1 = .not (.bin .and (.not (.var "B")) (.var "A")) ∧
    (written { others := ["B"], complexity := 2, form := .typeset, overline := true }
      (.not (.bin .and (.not (.var "B")) (.var "A")))).bind Expr.parse =
        .ok (.not (.bin .and (.not (.var "B")) (.var "A"))) := by
  have hnames : ∀ name ∈ ["A", "B"], IsCapital name := by
    simp only [List.mem_cons, List.not_mem_nil, or_false, forall_eq_or_imp, forall_eq]
    exact ⟨⟨'A', rfl, rfl⟩, ⟨'B', rfl, rfl⟩⟩
  have htree : (tree scripted
      { others := ["B"], complexity := 2, form := .typeset, overline := true }
      ⟨[100, 900, 1, 100, 100, 0, 900, 100], 0⟩).1
        = .not (.bin .and (.not (.var "B")) (.var "A")) := by
    decide
  exact ⟨hnames, htree, htree ▸ (tree_reads_back scripted hnames _).2.2.2.2 fun _ _ => by decide⟩

end SampleOptions

end SwitchingAlgebra
