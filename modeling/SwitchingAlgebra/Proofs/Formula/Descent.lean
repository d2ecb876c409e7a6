/-
# Readers of the descent

What each reader takes from the front of a text, and that nothing but trees over capital letters is
read from texts without small ones.

* `Reads` says that a reader takes a tree from the front of a text, `ReadsInto` that a level of
  operators starts with it and goes on;
* `OverCapitals` is what every reader keeps.
-/
import SwitchingAlgebra.Formula.Descent
import SwitchingAlgebra.Proofs.Formula.Written

namespace SwitchingAlgebra.Formula

open Style (explicit)

/-! ## Readers of one text -/

/-- The rest of a text does not begin with an operator that binds as tightly as `strength` or
more. -/
def Stops (strength : Nat) (rest : List Char) : Prop :=
  ∀ c ∈ rest.head?, ∀ op, operator? c = some op → op.binding < strength

/-- The reader takes the tree from the front of its text and leaves the rest. -/
def Reads (reader : Reader) (strength : Nat) (text : List Char) (e : Expr) : Prop :=
  ∀ rest, Stops strength rest → reader (text ++ rest) = .ok (e, rest)

/-- A level of operators takes the tree from the front of its text, then goes on with operators of
the level. -/
def ReadsInto (next : Reader) (strength : Nat) (text : List Char) (e : Expr) : Prop :=
  ∀ rest, Stops (strength + 1) rest → ∃ bound ≥ rest.length,
    readLevel next strength (text ++ rest) = continueLevel next strength bound e rest

/-- Weaker operators stop a stronger level as well. -/
theorem Stops.mono {k k' : Nat} (h : k ≤ k') {rest : List Char} (hrest : Stops k rest) :
    Stops k' rest :=
  fun c hc op hop => Nat.lt_of_lt_of_le (hrest c hc op hop) h

/-- Nothing is an operator that binds like a complement. -/
theorem stops_four (rest : List Char) : Stops 4 rest :=
  fun _ _ op _ => Nat.lt_succ_of_le op.binding_le.1

/-- A closing bracket stops every level. -/
theorem stops_closing (k : Nat) (rest : List Char) : Stops k (')' :: rest) := by
  intro c hc op hop
  obtain rfl : ')' = c := Option.some.inj hc
  exact nomatch hop

/-- A level ends where no operator of it follows. -/
theorem continueLevel_of_stops {next : Reader} {strength : Nat} {rest : List Char}
    (h : Stops strength rest) (bound : Nat) (left : Expr) :
    continueLevel next strength bound left rest = .ok (left, rest) := by
  cases bound with
  | zero => rfl
  | succ bound =>
    cases rest with
    | nil => rfl
    | cons c rest =>
      unfold continueLevel
      split
      · rfl
      · rename_i op hop
        have hlt := h c rfl op hop
        rw [if_neg (by omega)]

/-- What the next level reads, a level starts with. -/
theorem Reads.into {next : Reader} {k : Nat} {text : List Char} {e : Expr}
    (h : Reads next (k + 1) text e) : ReadsInto next k text e := by
  intro rest hrest
  refine ⟨rest.length, Nat.le_refl _, ?_⟩
  unfold readLevel
  rw [h rest hrest]
  rfl

/-- What a level starts with, it reads where no operator of it follows. -/
theorem ReadsInto.reads {next : Reader} {k : Nat} {text : List Char} {e : Expr}
    (h : ReadsInto next k text e) : Reads (readLevel next k) k text e := by
  intro rest hrest
  obtain ⟨bound, -, heq⟩ := h rest (hrest.mono (Nat.le_succ k))
  rw [heq, continueLevel_of_stops hrest]

/-- A level goes on with an operator of it and an operand of the next level. -/
theorem ReadsInto.bin {next : Reader} {op : Op} {left right : List Char} {l r : Expr}
    (hl : ReadsInto next op.binding left l) (hr : Reads next (op.binding + 1) right r) :
    ReadsInto next op.binding (left ++ (explicit.sign op ++ right)) (.bin op l r) := by
  intro rest hrest
  have hsign : Stops (op.binding + 1) (op.character :: (right ++ rest)) := by
    intro c hc op' hop'
    obtain rfl : op.character = c := Option.some.inj hc
    rw [operator?_character] at hop'
    obtain rfl : op = op' := Option.some.inj hop'
    exact Nat.lt_succ_self _
  -- the sign itself is left for the level to go on with, so one step of the bound remains for it
  obtain ⟨bound, hbound, heq⟩ := hl _ hsign
  rw [List.length_cons, List.length_append] at hbound
  obtain ⟨bound, rfl⟩ : ∃ b, bound = b + 1 := ⟨bound - 1, by omega⟩
  refine ⟨bound, by omega, ?_⟩
  have htext :
      left ++ (explicit.sign op ++ right) ++ rest = left ++ op.character :: (right ++ rest) := by
    simp [explicit]
  rw [htext, heq]
  simp only [continueLevel, operator?_character, if_pos]
  rw [hr rest hrest]
  rfl

/-! ## Levels over a reader of unary expressions -/

/-- The reader of a level: the unary expressions, then one level of operators after the other. -/
def tower (unary : Reader) : Nat → Reader
  | 0 => unary
  | j + 1 => readLevel (tower unary j) (3 - j)

/-- What a level of the tower reads, all levels above it read. -/
theorem Reads.tower {unary : Reader} {i j : Nat} {text : List Char} {e : Expr} (hij : i ≤ j)
    (hj : j ≤ 3) (h : Reads (tower unary i) (4 - i) text e) :
    Reads (tower unary j) (4 - j) text e := by
  obtain ⟨d, rfl⟩ := Nat.exists_eq_add_of_le hij
  induction d with
  | zero => exact h
  | succ d ih =>
    have hstep := ih (by omega) (by omega)
    rw [show 4 - (i + d) = 3 - (i + d) + 1 by omega] at hstep
    rw [show 4 - (i + (d + 1)) = 3 - (i + d) by omega]
    exact hstep.into.reads

/-- What the unary reader reads, all levels start with. -/
theorem Reads.into_tower {unary : Reader} {j : Nat} {text : List Char} {e : Expr} (hj : j ≤ 2)
    (h : Reads unary 4 text e) : ReadsInto (Formula.tower unary j) (3 - j) text e := by
  have hreads : Reads (Formula.tower unary j) (4 - j) text e :=
    Reads.tower (Nat.zero_le j) (by omega) h
  rw [show 4 - j = 3 - j + 1 by omega] at hreads
  exact hreads.into

/-- What one level starts with, all levels below it start with. -/
theorem ReadsInto.into_tower {unary : Reader} {i j : Nat} {text : List Char} {e : Expr}
    (hij : i ≤ j) (hj : j ≤ 2) (h : ReadsInto (Formula.tower unary i) (3 - i) text e) :
    ReadsInto (Formula.tower unary j) (3 - j) text e := by
  rcases Nat.eq_or_lt_of_le hij with rfl | hlt
  · exact h
  · have hreads : Reads (Formula.tower unary (i + 1)) (4 - (i + 1)) text e := by
      rw [show 4 - (i + 1) = 3 - i by omega]
      exact h.reads
    have htower := hreads.tower hlt (by omega)
    rw [show 4 - j = 3 - j + 1 by omega] at htower
    exact htower.into

/-- A group in brackets is read like a leaf. -/
theorem reads_group {bound : Nat} {text : List Char} {e : Expr}
    (h : Reads (tower (readUnary bound) 3) 1 text e) :
    Reads (readUnary (bound + 1)) 4 ('(' :: (text ++ [')'])) e := by
  intro rest _
  have htext : '(' :: (text ++ [')']) ++ rest = '(' :: (text ++ ')' :: rest) := by simp
  rw [htext]
  unfold readUnary
  rw [if_neg (by decide), if_pos rfl]
  rw [show readSum (readUnary bound) = tower (readUnary bound) 3 from rfl,
    h _ (stops_closing 1 rest)]
  rfl

/-- A complement is read with its operand. -/
theorem reads_not {bound : Nat} {text : List Char} {e : Expr}
    (h : Reads (readUnary bound) 4 text e) :
    Reads (readUnary (bound + 1)) 4 ('!' :: text) (.not e) := by
  intro rest _
  rw [List.cons_append]
  unfold readUnary
  rw [if_pos rfl, h rest (stops_four rest)]
  rfl

/-- A leaf is read from its character. -/
theorem reads_leaf {bound : Nat} {c : Char} {e : Expr} (hne : c ≠ '!') (hne' : c ≠ '(')
    (h : ∀ rest, readLeaf (c :: rest) = .ok (e, rest)) : Reads (readUnary bound) 4 [c] e := by
  intro rest _
  cases bound with
  | zero => exact h rest
  | succ bound =>
    rw [List.singleton_append]
    unfold readUnary
    rw [if_neg hne, if_neg hne', h]

/-! ## What is read from any text -/

/-- A text without small letters. -/
def NoSmall (text : List Char) : Prop :=
  ∀ c ∈ text, c.isLower = false

theorem noSmall_append {xs ys : List Char} : NoSmall (xs ++ ys) ↔ NoSmall xs ∧ NoSmall ys :=
  List.forall_mem_append

theorem noSmall_cons {c : Char} {rest : List Char} :
    NoSmall (c :: rest) ↔ c.isLower = false ∧ NoSmall rest :=
  List.forall_mem_cons

/-- From texts without small letters the reader takes trees over capital letters only. -/
def OverCapitals (reader : Reader) : Prop :=
  ∀ text e rest, NoSmall text → reader text = .ok (e, rest) → e.Over IsCapital ∧ NoSmall rest

/-- Operators join trees over capital letters. -/
theorem OverCapitals.continueLevel {next : Reader} (hnext : OverCapitals next)
    {strength bound : Nat} {left e : Expr} {text rest : List Char} (hleft : left.Over IsCapital)
    (htext : NoSmall text)
    (h : Formula.continueLevel next strength bound left text = .ok (e, rest)) :
    e.Over IsCapital ∧ NoSmall rest := by
  induction bound generalizing left text with
  | zero =>
    obtain ⟨rfl, rfl⟩ := Prod.mk.inj (Except.ok.inj h)
    exact ⟨hleft, htext⟩
  | succ bound ih =>
    cases text with
    | nil =>
      obtain ⟨rfl, rfl⟩ := Prod.mk.inj (Except.ok.inj h)
      exact ⟨hleft, htext⟩
    | cons c text =>
      unfold Formula.continueLevel at h
      split at h
      · obtain ⟨rfl, rfl⟩ := Prod.mk.inj (Except.ok.inj h)
        exact ⟨hleft, htext⟩
      · split at h
        · cases hright : next text with
          | error stop =>
            rw [hright] at h
            exact nomatch h
          | ok found =>
            obtain ⟨right, rest'⟩ := found
            obtain ⟨hover, hrest⟩ := hnext text right rest' (noSmall_cons.mp htext).2 hright
            rw [hright] at h
            exact ih (show Expr.Over IsCapital (.bin _ left right) from ⟨hleft, hover⟩) hrest h
        · obtain ⟨rfl, rfl⟩ := Prod.mk.inj (Except.ok.inj h)
          exact ⟨hleft, htext⟩

/-- A level of operators over a reader of trees over capital letters is one. -/
theorem OverCapitals.readLevel {next : Reader} (hnext : OverCapitals next) (strength : Nat) :
    OverCapitals (Formula.readLevel next strength) := by
  intro text e rest htext h
  unfold Formula.readLevel at h
  cases hleft : next text with
  | error stop =>
    rw [hleft] at h
    exact nomatch h
  | ok found =>
    obtain ⟨left, rest'⟩ := found
    obtain ⟨hover, hrest⟩ := hnext text left rest' htext hleft
    rw [hleft] at h
    exact hnext.continueLevel hover hrest h

/-- All levels of operators over a reader of trees over capital letters are one. -/
theorem OverCapitals.readSum {unary : Reader} (hunary : OverCapitals unary) :
    OverCapitals (Formula.readSum unary) :=
  ((hunary.readLevel 3).readLevel 2).readLevel 1

/-- A leaf is a truth value or a capital letter, where small letters do not occur. -/
theorem overCapitals_readLeaf : OverCapitals readLeaf := by
  intro text e rest htext h
  cases text with
  | nil => cases h
  | cons c text =>
    simp only [readLeaf] at h
    split at h
    · obtain ⟨rfl, rfl⟩ := Prod.mk.inj (Except.ok.inj h)
      exact ⟨trivial, (noSmall_cons.mp htext).2⟩
    · split at h
      · obtain ⟨rfl, rfl⟩ := Prod.mk.inj (Except.ok.inj h)
        exact ⟨trivial, (noSmall_cons.mp htext).2⟩
      · split at h
        · rename_i halpha
          obtain ⟨rfl, rfl⟩ := Prod.mk.inj (Except.ok.inj h)
          have hlower := htext c List.mem_cons_self
          have hupper : (c.isUpper || c.isLower) = true := halpha
          rw [hlower, Bool.or_false] at hupper
          exact ⟨⟨c, hupper, rfl⟩, (noSmall_cons.mp htext).2⟩
        · cases h

/-- A group is closed by its bracket alone. -/
theorem eq_of_closeGroup {group e : Expr} {text rest : List Char}
    (h : closeGroup group text = .ok (e, rest)) : text = ')' :: rest ∧ group = e := by
  cases text with
  | nil => exact nomatch h
  | cons c text =>
    simp only [closeGroup] at h
    split at h
    · rename_i hc
      obtain ⟨rfl, rfl⟩ := Prod.mk.inj (Except.ok.inj h)
      exact ⟨by rw [hc], rfl⟩
    · exact nomatch h

/-- Complements, groups and leaves are trees over capital letters, however deep they are. -/
theorem overCapitals_readUnary (bound : Nat) : OverCapitals (readUnary bound) := by
  induction bound with
  | zero => exact overCapitals_readLeaf
  | succ bound ih =>
    intro text e rest htext h
    cases text with
    | nil => exact overCapitals_readLeaf [] e rest htext h
    | cons c text =>
      unfold readUnary at h
      split at h
      · cases hoperand : readUnary bound text with
        | error stop =>
          rw [hoperand] at h
          exact nomatch h
        | ok found =>
          obtain ⟨operand, rest'⟩ := found
          obtain ⟨hover, hrest⟩ := ih text operand rest' (noSmall_cons.mp htext).2 hoperand
          rw [hoperand] at h
          obtain ⟨rfl, rfl⟩ := Prod.mk.inj (Except.ok.inj h)
          exact ⟨hover, hrest⟩
      · split at h
        · cases hgroup : readSum (readUnary bound) text with
          | error stop =>
            rw [hgroup] at h
            exact nomatch h
          | ok found =>
            obtain ⟨group, rest'⟩ := found
            obtain ⟨hover, hrest⟩ := ih.readSum text group rest' (noSmall_cons.mp htext).2 hgroup
            rw [hgroup] at h
            obtain ⟨rfl, rfl⟩ := eq_of_closeGroup h
            exact ⟨hover, (noSmall_cons.mp hrest).2⟩
        · exact overCapitals_readLeaf (c :: text) e rest htext h

/-- Whatever tokens without small letters are read as is a tree over capital letters. -/
theorem over_of_readTokens {tokens text : List Char} {e : Expr} (htokens : NoSmall tokens)
    (h : readTokens tokens text = .ok e) : e.Over IsCapital := by
  unfold readTokens at h
  split at h
  · exact nomatch h
  · rename_i e' hread
    obtain rfl := Except.ok.inj h
    exact ((overCapitals_readUnary _).readSum tokens e' [] htokens hread).1
  · exact nomatch h

end SwitchingAlgebra.Formula
