/-
# Scanning compact notation

A text in compact notation, character by character: where an operand may begin or end, and how many
groups are open.

* `Symbol` sorts the characters by what they are for;
* `Flows` is the scan;
* `Derives.flows`, `exists_derives_of_flows`: the scan accepts what the grammar derives.
-/
import SwitchingAlgebra.Proofs.Formula.Grammar

namespace SwitchingAlgebra.Formula

/-! ## Symbols -/

/-- A character that stands for an operand by itself. -/
def IsLeaf (c : Char) : Prop :=
  c.isUpper = true ∨ c = '0' ∨ c = '1'

instance (c : Char) : Decidable (IsLeaf c) :=
  inferInstanceAs (Decidable (_ ∨ _))

/-- The characters of compact notation. -/
def IsSymbol (c : Char) : Prop :=
  c.isUpper = true ∨ c ∈ ['0', '1', '(', ')', '!', '*', '+', '^', '@', '#', '=']

/-- What a character of compact notation is for. -/
inductive Symbol : Char → Prop where
  | leaf {c : Char} (h : IsLeaf c) : Symbol c
  | opening : Symbol '('
  | closing : Symbol ')'
  | complement : Symbol '!'
  | operator (op : Op) : Symbol op.character

/-- Every character of compact notation has one of the uses. -/
theorem IsSymbol.symbol {c : Char} (h : IsSymbol c) : Symbol c := by
  rcases h with h | h
  · exact Symbol.leaf (Or.inl h)
  · simp only [List.mem_cons, List.not_mem_nil, or_false] at h
    rcases h with rfl | rfl | rfl | rfl | rfl | rfl | rfl | rfl | rfl | rfl | rfl
    · exact Symbol.leaf (Or.inr (Or.inl rfl))
    · exact Symbol.leaf (Or.inr (Or.inr rfl))
    · exact Symbol.opening
    · exact Symbol.closing
    · exact Symbol.complement
    · exact Symbol.operator .and
    · exact Symbol.operator .or
    · exact Symbol.operator .xor
    · exact Symbol.operator .nand
    · exact Symbol.operator .nor
    · exact Symbol.operator .xnor

/-- What the grammar derives is made of the characters of compact notation. -/
theorem Derives.isSymbol {k : Nat} {text : List Char} {e : Expr} (h : Derives k text e) :
    ∀ c ∈ text, IsSymbol c := by
  induction h with
  | constant b => cases b <;> exact List.forall_mem_singleton.mpr (Or.inr (by decide))
  | letter h => exact List.forall_mem_singleton.mpr (Or.inl h)
  | group _ ih =>
    refine List.forall_mem_cons.mpr ⟨Or.inr (by decide), List.forall_mem_append.mpr ⟨ih, ?_⟩⟩
    exact List.forall_mem_singleton.mpr (Or.inr (by decide))
  | complement _ ih => exact List.forall_mem_cons.mpr ⟨Or.inr (by decide), ih⟩
  | operator op _ _ ihl ihr =>
    exact List.forall_mem_append.mpr ⟨ihl,
      List.forall_mem_cons.mpr ⟨Or.inr (by cases op <;> decide), ihr⟩⟩
  | tighter _ ih => exact ih

/-- An operand both begins and ends with a leaf. -/
theorem IsLeaf.factor {c : Char} (h : IsLeaf c) : endsFactor c = true ∧ beginsFactor c = true := by
  unfold endsFactor beginsFactor
  rcases h with h | rfl | rfl
  · simp [h]
  · decide
  · decide

/-- A leaf is no other symbol. -/
theorem IsLeaf.ne {c : Char} (h : IsLeaf c) {d : Char} (hd : d.isUpper = false) (h0 : d ≠ '0')
    (h1 : d ≠ '1') : c ≠ d := by
  rintro rfl
  rcases h with h | h | h
  · exact Bool.false_ne_true (hd.symm.trans h)
  · exact h0 h
  · exact h1 h

/-! ## The scan -/

/-- The text may stand where `depth` groups are open and an operand has to begin, or has just
ended. -/
inductive Flows : Nat → Bool → List Char → Prop where
  | finish : Flows 0 true []
  | leaf {depth : Nat} {c : Char} {rest : List Char} (hc : IsLeaf c) (h : Flows depth true rest) :
    Flows depth false (c :: rest)
  | complement {depth : Nat} {rest : List Char} (h : Flows depth false rest) :
      Flows depth false ('!' :: rest)
  | opening {depth : Nat} {rest : List Char} (h : Flows (depth + 1) false rest) :
      Flows depth false ('(' :: rest)
  | closing {depth : Nat} {rest : List Char} (h : Flows depth true rest) :
      Flows (depth + 1) true (')' :: rest)
  | operator {depth : Nat} {rest : List Char} (op : Op) (h : Flows depth false rest) :
    Flows depth true (op.character :: rest)

/-- A text may end where no group is open and an operand has ended. -/
theorem flows_nil_iff {depth : Nat} {ended : Bool} :
    Flows depth ended [] ↔ ended = true ∧ depth = 0 := by
  constructor
  · intro h
    cases h
    exact ⟨rfl, rfl⟩
  · rintro ⟨rfl, rfl⟩
    exact Flows.finish

/-- A leaf stands for itself. -/
theorem exists_derives_leaf {c : Char} (h : IsLeaf c) : ∃ e, Derives 5 [c] e := by
  rcases h with h | rfl | rfl
  · exact ⟨_, Derives.letter h⟩
  · exact ⟨_, Derives.constant false⟩
  · exact ⟨_, Derives.constant true⟩

/-- What the grammar derives brings the scan from the start of an operand behind its end. -/
theorem Derives.flows {k : Nat} {text : List Char} {e : Expr} (h : Derives k text e) {depth : Nat}
    {rest : List Char} (hrest : Flows depth true rest) : Flows depth false (text ++ rest) := by
  induction h generalizing depth rest with
  | constant b => cases b with
    | false => exact Flows.leaf (Or.inr (Or.inl rfl)) hrest
    | true => exact Flows.leaf (Or.inr (Or.inr rfl)) hrest
  | letter h => exact Flows.leaf (Or.inl h) hrest
  | group _ ih =>
    rw [List.cons_append, List.append_assoc]
    exact Flows.opening (ih (Flows.closing hrest))
  | complement _ ih => exact Flows.complement (ih hrest)
  | operator op _ _ ihl ihr =>
    rw [List.append_assoc, List.cons_append]
    exact ihl (Flows.operator op (ihr hrest))
  | tighter _ ih => exact ih hrest

/-- The scan goes on behind a text of the level, and no operator of the level follows it. -/
def Splits (k depth : Nat) (text : List Char) : Prop :=
  ∃ front e rest, text = front ++ rest ∧ Derives k front e ∧ Flows depth true rest ∧ Stops k rest

/-- Behind the end of an operand, operators of a level and their right operands are taken as long as
they follow. -/
theorem Flows.extend {k n : Nat}
    (hnext : ∀ depth text, text.length < n → Flows depth false text → Splits (k + 1) depth text)
    {depth m : Nat} {front rest : List Char} {e : Expr} (hm : rest.length ≤ m)
    (hn : rest.length ≤ n) (hfront : Derives k front e) (hrest : Flows depth true rest)
    (hstops : Stops (k + 1) rest) : Splits k depth (front ++ rest) := by
  induction m generalizing front rest e with
  | zero =>
    obtain rfl : rest = [] := List.length_eq_zero_iff.mp (Nat.le_zero.mp hm)
    exact ⟨front, e, [], rfl, hfront, hrest, fun _ hc => nomatch hc⟩
  | succ m ih =>
    have hsplit := hrest
    cases hrest with
    | finish => exact ⟨front, e, [], rfl, hfront, hsplit, fun _ hc => nomatch hc⟩
    | closing _ => exact ⟨front, e, _, rfl, hfront, hsplit, stops_closing k _⟩
    | operator op h =>
      rename_i rest
      rw [List.length_cons] at hm hn
      have hle : op.binding < k + 1 := hstops _ rfl op (operator?_character op)
      by_cases hlt : op.binding < k
      · refine ⟨front, e, _, rfl, hfront, hsplit, fun c hc op' hop' => ?_⟩
        obtain rfl : op.character = c := Option.some.inj hc
        rw [operator?_character] at hop'
        obtain rfl : op = op' := Option.some.inj hop'
        exact hlt
      · obtain rfl : op.binding = k := by omega
        obtain ⟨right, r, rest', rfl, hright, hrest', hstops'⟩ := hnext depth rest (by omega) h
        rw [List.length_append] at hm hn
        have htext : front ++ op.character :: (right ++ rest') = front ++ op.character :: right ++
            rest' := by simp
        rw [htext]
        exact ih (by omega) (by omega) (Derives.operator op hfront hright) hrest' hstops'

/-- Where an operand has to begin, a text of every level of operators and complements does. -/
theorem Flows.splits {n depth : Nat} {text : List Char} (hn : text.length ≤ n)
    (h : Flows depth false text) : ∀ j k, j + k = 4 → Splits k depth text := by
  induction n generalizing depth text with
  | zero =>
    obtain rfl : text = [] := List.length_eq_zero_iff.mp (Nat.le_zero.mp hn)
    exact nomatch h
  | succ n ihn =>
    intro j
    induction j with
    | zero =>
      intro k hk
      obtain rfl : k = 4 := by omega
      cases h with
      | leaf hc h =>
        obtain ⟨e, he⟩ := exists_derives_leaf hc
        exact ⟨_, e, _, rfl, he.tighter, h, stops_four _⟩
      | complement h =>
        obtain ⟨front, e, rest, rfl, he, hrest, hstops⟩ := ihn (Nat.le_of_succ_le_succ hn) h 0 4 rfl
        exact ⟨'!' :: front, _, rest, rfl, he.complement, hrest, hstops⟩
      | opening h =>
        obtain ⟨front, e, rest, rfl, he, hrest, hstops⟩ := ihn (Nat.le_of_succ_le_succ hn) h 3 1 rfl
        -- the loosest level stops at no operator, so only the bracket that closes the group can
        -- follow
        cases hrest with
        | closing hrest =>
          exact ⟨'(' :: (front ++ [')']), e, _, by simp, he.group.tighter, hrest, stops_four _⟩
        | operator op _ =>
          have hlt : op.binding < 1 := hstops _ rfl op (operator?_character op)
          exact absurd op.binding_le.2 (by omega)
    | succ j ihj =>
      intro k hk
      obtain ⟨front, e, rest, rfl, he, hrest, hstops⟩ := ihj (k + 1) (by omega)
      rw [List.length_append] at hn
      refine Flows.extend (n := n + 1) (fun depth text htext hflows => ?_) (Nat.le_refl _)
        (by omega) he.tighter hrest hstops
      exact ihn (Nat.le_of_lt_succ htext) hflows j (k + 1) (by omega)

/-- What the scan accepts, the grammar derives. -/
theorem exists_derives_of_flows {text : List Char} (h : Flows 0 false text) :
    ∃ e, Derives 1 text e := by
  obtain ⟨front, e, rest, rfl, he, hrest, hstops⟩ := h.splits (Nat.le_refl _) 3 1 rfl
  cases hrest with
  | finish =>
    rw [List.append_nil]
    exact ⟨e, he⟩
  | operator op _ =>
    have hlt : op.binding < 1 := hstops _ rfl op (operator?_character op)
    exact absurd op.binding_le.2 (by omega)

end SwitchingAlgebra.Formula
