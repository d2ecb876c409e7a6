/-
# Written formulas are shortest

The descent takes nothing as a tree but what the grammar derives, and in the grammar brackets can be
left out nowhere else than the writer leaves them out. So among all rows of tokens that are read as
a tree, the written one is shorter than every other, and has fewer brackets.

* `Sound` is what every reader keeps: what it takes is derived;
* `AtMost` compares texts, `Derives.atMost_written` every derived text with the written one;
* `written_shortest` is the result.
-/
import SwitchingAlgebra.Proofs.Formula.RoundTrip

namespace SwitchingAlgebra.Formula

open Style (explicit)
open Text

variable {text other rest : List Char} {e : Expr}

/-! ## What is read is derived -/

/-- What the reader takes from the front of a text stands in the grammar for the tree, if that is
over capital letters. -/
def Sound (reader : Reader) (k : Nat) : Prop :=
  ∀ text e rest, reader text = .ok (e, rest) → ∃ front, text = front ++ rest ∧
    (e.Over IsCapital → Derives k front e)

/-- Operators of a level go on with what is derived before them. -/
theorem Sound.continueLevel {next : Reader} {strength : Nat} (hnext : Sound next (strength + 1))
    {bound : Nat} {front : List Char} {left : Expr}
    (hleft : left.Over IsCapital → Derives strength front left)
    (h : Formula.continueLevel next strength bound left text = .ok (e, rest)) :
    ∃ more, text = more ++ rest ∧ (e.Over IsCapital → Derives strength (front ++ more) e) := by
  induction bound generalizing front left text with
  | zero =>
    obtain ⟨rfl, rfl⟩ := Prod.mk.inj (Except.ok.inj h)
    exact ⟨[], rfl, by rwa [List.append_nil]⟩
  | succ bound ih =>
    cases text with
    | nil =>
      obtain ⟨rfl, rfl⟩ := Prod.mk.inj (Except.ok.inj h)
      exact ⟨[], rfl, by rwa [List.append_nil]⟩
    | cons c text =>
      unfold Formula.continueLevel at h
      split at h
      · obtain ⟨rfl, rfl⟩ := Prod.mk.inj (Except.ok.inj h)
        exact ⟨[], rfl, by rwa [List.append_nil]⟩
      · rename_i op hop
        split at h
        · rename_i hstrength
          cases hright : next text with
          | error stop =>
            rw [hright] at h
            exact nomatch h
          | ok found =>
            obtain ⟨right, rest'⟩ := found
            rw [hright] at h
            obtain ⟨operand, rfl, hoperand⟩ := hnext text right rest' hright
            obtain rfl := eq_character_of_operator? hop
            subst hstrength
            have hjoined : (Expr.bin op left right).Over IsCapital →
                Derives op.binding (front ++ op.character :: operand) (.bin op left right) :=
              fun hover => (hleft hover.1).operator op (hoperand hover.2)
            obtain ⟨more, rfl, hmore⟩ := ih hjoined h
            exact ⟨op.character :: (operand ++ more), by simp, by simpa using hmore⟩
        · obtain ⟨rfl, rfl⟩ := Prod.mk.inj (Except.ok.inj h)
          exact ⟨[], rfl, by rwa [List.append_nil]⟩

/-- A level of operators takes what is derived if its operands are. -/
theorem Sound.readLevel {next : Reader} {strength : Nat} (hnext : Sound next (strength + 1)) :
    Sound (Formula.readLevel next strength) strength := by
  intro text e rest h
  unfold Formula.readLevel at h
  cases hleft : next text with
  | error stop =>
    rw [hleft] at h
    exact nomatch h
  | ok found =>
    obtain ⟨left, rest'⟩ := found
    rw [hleft] at h
    obtain ⟨front, rfl, hfront⟩ := hnext text left rest' hleft
    obtain ⟨more, rfl, hmore⟩ := hnext.continueLevel (fun hover => (hfront hover).tighter) h
    exact ⟨front ++ more, by simp, hmore⟩

/-- All levels of operators take what is derived if the unary expressions are. -/
theorem Sound.readSum {unary : Reader} (hunary : Sound unary 4) : Sound (Formula.readSum unary) 1 :=
  hunary.readLevel.readLevel.readLevel

/-- A leaf is derived from its character. -/
theorem sound_readLeaf : Sound readLeaf 5 := by
  intro text e rest h
  cases text with
  | nil => cases h
  | cons c text =>
    simp only [readLeaf] at h
    split at h
    · rename_i hc
      obtain ⟨rfl, rfl⟩ := Prod.mk.inj (Except.ok.inj h)
      exact ⟨['0'], by rw [hc]; rfl, fun _ => Derives.constant false⟩
    · split at h
      · rename_i hc
        obtain ⟨rfl, rfl⟩ := Prod.mk.inj (Except.ok.inj h)
        exact ⟨['1'], by rw [hc]; rfl, fun _ => Derives.constant true⟩
      · split at h
        · obtain ⟨rfl, rfl⟩ := Prod.mk.inj (Except.ok.inj h)
          refine ⟨[c], rfl, fun hover => ?_⟩
          obtain ⟨c', hupper, hname⟩ := hover
          obtain rfl : c = c' := by simpa using congrArg String.toList hname
          exact Derives.letter hupper
        · cases h

/-- Complements, groups and leaves are derived from what is taken, however deep they are. -/
theorem sound_readUnary (bound : Nat) : Sound (readUnary bound) 4 := by
  have hleaf : Sound readLeaf 4 := by
    intro text e rest h
    obtain ⟨front, htext, hfront⟩ := sound_readLeaf text e rest h
    exact ⟨front, htext, fun hover => (hfront hover).tighter⟩
  induction bound with
  | zero => exact hleaf
  | succ bound ih =>
    intro text e rest h
    cases text with
    | nil => exact hleaf [] e rest h
    | cons c text =>
      unfold readUnary at h
      split at h
      · rename_i hc
        cases hoperand : readUnary bound text with
        | error stop =>
          rw [hoperand] at h
          cases h
        | ok found =>
          obtain ⟨operand, rest'⟩ := found
          rw [hoperand] at h
          obtain ⟨front, rfl, hfront⟩ := ih text operand rest' hoperand
          obtain ⟨rfl, rfl⟩ := Prod.mk.inj (Except.ok.inj h)
          exact ⟨'!' :: front, by rw [hc]; rfl, fun hover => (hfront hover).complement⟩
      · split at h
        · rename_i hc
          cases hgroup : readSum (readUnary bound) text with
          | error stop =>
            rw [hgroup] at h
            cases h
          | ok found =>
            obtain ⟨group, rest'⟩ := found
            rw [hgroup] at h
            obtain ⟨front, rfl, hfront⟩ := ih.readSum text group rest' hgroup
            obtain ⟨rfl, rfl⟩ := eq_of_closeGroup h
            exact ⟨'(' :: (front ++ [')']), by simp [hc], fun hover => (hfront hover).group.tighter⟩
        · exact hleaf (c :: text) e rest h

/-- Tokens that are read as a tree over capital letters stand for it in the grammar. -/
theorem derives_of_readTokens {tokens source : List Char} (h : readTokens tokens source = .ok e)
    (he : e.Over IsCapital) : Derives 1 tokens e := by
  unfold readTokens at h
  split at h
  · exact nomatch h
  · rename_i e' hread
    obtain rfl := Except.ok.inj h
    obtain ⟨front, hfront, hderives⟩ := (sound_readUnary _).readSum tokens e' [] hread
    rw [hfront, List.append_nil]
    exact hderives he
  · exact nomatch h

/-- What is derived is a tree over capital letters. -/
theorem Derives.over {k : Nat} (h : Derives k text e) : e.Over IsCapital := by
  induction h with
  | constant _ => trivial
  | letter h => exact ⟨_, h, rfl⟩
  | group _ ih | complement _ ih | tighter _ ih => exact ih
  | operator _ _ _ ihl ihr => exact ⟨ihl, ihr⟩

/-! ## Comparing texts -/

/-- The texts are equal, or the first is shorter and has fewer opening brackets. -/
def AtMost (x y : List Char) : Prop :=
  x = y ∨ x.length < y.length ∧ x.count '(' < y.count '('

namespace AtMost

variable {x x' y y' z : List Char}

theorem refl (x : List Char) : AtMost x x :=
  Or.inl rfl

/-- Comparisons of texts chain. -/
theorem trans (hxy : AtMost x y) (hyz : AtMost y z) : AtMost x z := by
  rcases hxy with rfl | hxy
  · exact hyz
  · rcases hyz with rfl | hyz
    · exact Or.inr hxy
    · exact Or.inr ⟨hxy.1.trans hyz.1, hxy.2.trans hyz.2⟩

/-- Texts are compared part by part. -/
theorem append (h : AtMost x y) (h' : AtMost x' y') : AtMost (x ++ x') (y ++ y') := by
  rcases h with rfl | ⟨hlength, hcount⟩ <;> rcases h' with rfl | ⟨hlength', hcount'⟩
  · exact refl _
  all_goals
    right
    simp only [List.length_append, List.count_append]
    omega

theorem cons (c : Char) (h : AtMost x y) : AtMost (c :: x) (c :: y) :=
  (refl [c]).append h

theorem group (h : AtMost x y) : AtMost (enclosed true x) (enclosed true y) :=
  (h.append (refl [')'])).cons '('

/-- Brackets make a text longer. -/
theorem enclosed {b b' : Bool} (h : b = true → b' = true) (x : List Char) :
    AtMost (enclosed b x) (SwitchingAlgebra.enclosed b' x) := by
  cases b with
  | true =>
    rw [h rfl]
    exact refl _
  | false =>
    cases b' with
    | false => exact refl _
    | true =>
      right
      simp only [enclosed_true, enclosed_false, List.length_cons, List.length_append,
        List.count_cons, List.count_append]
      exact ⟨by omega, by simp⟩

end AtMost

/-! ## The written text is the least -/

/-- The text of a tree, in brackets where its place asks for them, is at most any text that is
derived there. -/
theorem Derives.atMost_written {k : Nat} (h : Derives k text e) :
    AtMost (SwitchingAlgebra.enclosed (e.binding < k) (explicit.written e)) text := by
  induction h with
  | constant b => exact AtMost.refl _
  | letter h =>
    rw [Style.written_capital]
    exact AtMost.refl _
  | @group text e h ih =>
    -- a group costs a pair of brackets, whether its place asks for them or not
    have hbinding : ¬ e.binding < 1 := Nat.not_lt.mpr (derives_written_binding h.over).1
    rw [decide_eq_false hbinding] at ih
    exact (AtMost.enclosed (fun _ => rfl) _).trans ih.group
  | @complement text e h ih =>
    rw [← Expr.Over.isBinary_eq h.over] at ih
    rw [Style.written_not]
    exact ih.cons '!'
  | @operator op left right l r hl hr ihl ihr =>
    have hplace : decide (r.binding < op.binding + 1) = decide (r.binding ≤ op.binding) :=
      decide_eq_decide.mpr Nat.lt_succ_iff
    rw [hplace] at ihr
    rw [Style.written_bin, show (Expr.bin op l r).binding = op.binding from rfl,
      decide_eq_false (Nat.lt_irrefl _)]
    exact ihl.append (ihr.cons op.character)
  | @tighter k text e h ih =>
    have hbrackets : decide (e.binding < k) = true → decide (e.binding < k + 1) = true := by
      simp only [decide_eq_true_eq]
      omega
    exact (AtMost.enclosed hbrackets _).trans ih

/-- The tokens of a text in the plain style, where the sign for equivalence is one token. -/
def plainTokens (text : String) : List Char :=
  substitute (literally "<=>".toList ['=']) text.toList

/-- The tokens of a tree in the plain style are those of the compact notation. -/
theorem plainTokens_written (h : e.Over IsCapital) :
    plainTokens (String.ofList (Style.plain.written e)) = explicit.written e := by
  have htext : (String.ofList (Style.plain.written e)).toList = Style.plain.written e :=
    String.toList_ofList
  unfold plainTokens
  rw [htext, written_eq, written_eq]
  exact (isOperand_pieces h).substitute_plain

/-- **Written formulas are shortest.** A well formed tree whose names are capital letters is written
with tokens that are read as the tree, and every other row of tokens that is read as the tree is
longer and has more opening brackets. -/
theorem written_shortest (he : e.WellFormed) (hnames : ∀ name ∈ e.names, IsCapital name) :
    ∃ text, Style.plain.render e = .ok text ∧ tokens (plainTokens text) = .ok (plainTokens text) ∧
      (∀ source, readTokens (plainTokens text) source = .ok e) ∧
      ∀ other source, readTokens other source = .ok e → other ≠ plainTokens text →
        (plainTokens text).length < other.length ∧
        (plainTokens text).count '(' < other.count '(' := by
  have hover := Expr.over_isCapital_iff.mpr ⟨he, hnames⟩
  have hrender : Style.plain.render e = .ok (String.ofList (Style.plain.written e)) := by
    unfold Style.render
    rw [(Expr.defect?_eq_none_iff e).mpr he]
  have hwritten := derives_written hover
  refine ⟨_, hrender, ?_⟩
  rw [plainTokens_written hover]
  refine ⟨tokens_eq_ok hwritten.isSymbol, readTokens_of_derives hwritten,
    fun other source hread hne => ?_⟩
  have hatMost := (derives_of_readTokens hread hover).atMost_written
  have hbinding : ¬ e.binding < 1 := Nat.not_lt.mpr (derives_written_binding hover).1
  rw [decide_eq_false hbinding] at hatMost
  exact hatMost.resolve_left fun heq => hne heq.symm

/-- Brackets of a right operand that binds as tightly as its operator, and of the operand of a
complement. -/
theorem written_shortest_of_groups :
    let e :=
      Expr.bin .xnor (.var "A") (.bin .xnor (.var "B") (.not (.bin .or (.var "C") (.const true))))
    let text := "A<=>(B<=>!(C+1))"
    (e.WellFormed ∧ ∀ name ∈ e.names, IsCapital name) ∧ Style.plain.render e = .ok text ∧
      plainTokens text = "A=(B=!(C+1))".toList ∧
      (∀ source, readTokens (plainTokens text) source = .ok e) ∧
      ∀ other source, readTokens other source = .ok e → other ≠ plainTokens text →
        (plainTokens text).length < other.length ∧
        (plainTokens text).count '(' < other.count '(' := by
  intro e text
  have he : e.WellFormed := by decide
  have hnames : ∀ name ∈ e.names, IsCapital name := by
    intro name hname
    have hmem : name = "A" ∨ name = "B" ∨ name = "C" := by simpa [e] using hname
    rcases hmem with rfl | rfl | rfl
    · exact ⟨'A', rfl, rfl⟩
    · exact ⟨'B', rfl, rfl⟩
    · exact ⟨'C', rfl, rfl⟩
  have hrender : Style.plain.render e = .ok text := by decide
  obtain ⟨text', hrender', -, hread, hother⟩ := written_shortest he hnames
  obtain rfl : text = text' := Except.ok.inj (hrender.symm.trans hrender')
  exact ⟨⟨he, hnames⟩, hrender, by decide, hread, hother⟩

end SwitchingAlgebra.Formula
