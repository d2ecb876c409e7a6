/-
# Which texts are read

The checks look at neighbouring characters and count brackets; what passes them is exactly what the
grammar derives, and the descent reads all of it.

* `flows_signProducts_iff`: the scan accepts what passes the checks;
* `withProducts_eq`: one pass puts a sign into every product;
* `readChecked_exact` puts both together with the grammar.
-/
import SwitchingAlgebra.Proofs.Formula.Scan
import SwitchingAlgebra.Proofs.Formula.Stages

namespace SwitchingAlgebra.Formula

/-! ## The checks -/

/-- A leaf is no operator. -/
theorem IsLeaf.isOperator {c : Char} (h : IsLeaf c) : isOperator c = false := by
  unfold Formula.isOperator operator?
  split
  iterate 6 exact absurd rfl (h.ne (by decide) (by decide) (by decide))
  rfl

/-- Behind the end of an operand an operator has its left one, elsewhere it lacks it. -/
theorem Symbol.lacksLeft {c : Char} (h : Symbol c) : lacksLeft (some c) = !endsFactor c := by
  cases h with
  | leaf h =>
    have hopening : c ≠ '(' := h.ne (by decide) (by decide) (by decide)
    have hcomplement : c ≠ '!' := h.ne (by decide) (by decide) (by decide)
    simp [Formula.lacksLeft, hopening, hcomplement, h.isOperator, h.factor.1]
  | opening | closing | complement => rfl
  | operator op => cases op <;> rfl

/-- Before the beginning of an operand a sign has its right one, elsewhere it lacks it. -/
theorem Symbol.lacksRight {c : Char} (h : Symbol c) : lacksRight (some c) = !beginsFactor c := by
  cases h with
  | leaf h =>
    have hclosing : c ≠ ')' := h.ne (by decide) (by decide) (by decide)
    simp [Formula.lacksRight, hclosing, h.isOperator, h.factor.2]
  | opening | closing | complement => rfl
  | operator op => cases op <;> rfl

/-- Besides operators only a closing bracket does not begin an operand. -/
theorem Symbol.isOperator_eq {c : Char} (h : Symbol c) :
    isOperator c = (!beginsFactor c && decide (c ≠ ')')) := by
  cases h with
  | leaf h => rw [h.isOperator, h.factor.2, Bool.not_true, Bool.false_and]
  | opening | closing | complement => rfl
  | operator op => cases op <;> rfl

/-- Besides operators and complements only an opening bracket does not end an operand. -/
theorem Symbol.isSign_iff {c : Char} (h : Symbol c) :
    isOperator c = true ∨ c = '!' ↔ endsFactor c = false ∧ c ≠ '(' := by
  cases h with
  | leaf h =>
    have hcomplement : c ≠ '!' := h.ne (by decide) (by decide) (by decide)
    simp [h.isOperator, h.factor.1, hcomplement]
  | opening | closing | complement => decide
  | operator op => cases op <;> decide

/-- Where no brackets are empty, one of two neighbours has to be the operand of the other. -/
theorem joins_iff {x y : Char} (hx : Symbol x) (hy : Symbol y) (hpair : ¬ (x = '(' ∧ y = ')')) :
    Joins x y ↔ endsFactor x = true ∨ beginsFactor y = true := by
  unfold Joins
  rw [hx.lacksLeft, hy.lacksRight, hx.isSign_iff, hy.isOperator_eq]
  cases hends : endsFactor x <;> cases hbegins : beginsFactor y <;> simp
  exact fun hclosing hopening => hpair ⟨hopening, hclosing⟩

/-- How many groups are open behind a character, unless it closes one where none is open. -/
def openAfter (depth : Nat) (c : Char) : Option Nat :=
  if c = '(' then some (depth + 1)
  else if c = ')' then
    match depth with
    | 0 => none
    | depth + 1 => some depth
  else some depth

/-- Characters other than brackets open and close nothing. -/
theorem openAfter_other {c : Char} (hopening : c ≠ '(') (hclosing : c ≠ ')') (depth : Nat) :
    openAfter depth c = some depth := by
  simp only [openAfter, if_neg hopening, if_neg hclosing]

/-- Behind an opening bracket a group is open. -/
theorem pos_of_openAfter_opening {depth d : Nat} (h : openAfter depth '(' = some d) : 0 < d := by
  obtain rfl : depth + 1 = d := Option.some.inj h
  exact Nat.succ_pos depth

/-- Brackets match at the end of a text if no group is open there. -/
theorem unmatchedFrom_nil_eq_none_iff {text back : List Char} {depth : Nat} :
    unmatchedFrom text depth back [] = none ↔ depth = 0 := by
  unfold unmatchedFrom
  split <;> simp [*]

/-- Brackets match from a character on if it closes no group too many and brackets match behind
it. -/
theorem unmatchedFrom_cons_eq_none_iff {text back rest : List Char} {depth : Nat} {c : Char} :
    unmatchedFrom text depth back (c :: rest) = none ↔
      ∃ d, openAfter depth c = some d ∧ unmatchedFrom text d (c :: back) rest = none := by
  by_cases hopening : c = '('
  · simp [unmatchedFrom, openAfter, hopening]
  · by_cases hclosing : c = ')'
    · cases depth <;> simp [unmatchedFrom, openAfter, hclosing]
    · rw [openAfter_other hopening hclosing,
        unmatchedFrom_other text depth back rest ⟨hopening, hclosing⟩]
      simp

/-- The scan takes a character that begins an operand exactly where one has to begin. -/
theorem flows_cons_iff {depth : Nat} {ended : Bool} {c : Char} {rest : List Char} (hc : Symbol c) :
    Flows depth ended (c :: rest) ↔
      ended = (!beginsFactor c) ∧ ∃ d, openAfter depth c = some d ∧
      Flows d (endsFactor c) rest := by
  have hleaf : ∀ {c : Char}, IsLeaf c → openAfter depth c = some depth := fun hc =>
    openAfter_other (hc.ne (by decide) (by decide) (by decide))
      (hc.ne (by decide) (by decide) (by decide)) depth
  have hop : ∀ op : Op, beginsFactor op.character = false ∧ endsFactor op.character = false ∧
      openAfter depth op.character = some depth := by
    intro op
    cases op <;> exact ⟨rfl, rfl, rfl⟩
  constructor
  · intro h
    cases h with
    | leaf hc h =>
      rw [hc.factor.1, hc.factor.2]
      exact ⟨rfl, depth, hleaf hc, h⟩
    | complement h => exact ⟨rfl, depth, rfl, h⟩
    | opening h => exact ⟨rfl, depth + 1, rfl, h⟩
    | closing h => exact ⟨rfl, _, rfl, h⟩
    | operator op h =>
      obtain ⟨hbegins, hends, hopen⟩ := hop op
      rw [hbegins, hends]
      exact ⟨rfl, depth, hopen, h⟩
  · rintro ⟨rfl, d, hopen, h⟩
    cases hc with
    | leaf hc =>
      rw [hc.factor.1] at h
      obtain rfl := Option.some.inj ((hleaf hc).symm.trans hopen)
      rw [hc.factor.2]
      exact Flows.leaf hc h
    | complement =>
      obtain rfl : depth = d := Option.some.inj hopen
      exact Flows.complement h
    | opening =>
      obtain rfl : depth + 1 = d := Option.some.inj hopen
      exact Flows.opening h
    | closing =>
      cases depth with
      | zero => exact nomatch hopen
      | succ depth =>
        obtain rfl : depth = d := Option.some.inj hopen
        exact Flows.closing h
    | operator op =>
      obtain ⟨hbegins, hends, hdepth⟩ := hop op
      rw [hends] at h
      obtain rfl := Option.some.inj (hdepth.symm.trans hopen)
      rw [hbegins]
      exact Flows.operator op h

/-- What `signProducts` makes of the text behind a character. -/
def signedAfter (x : Char) : List Char → List Char
  | [] => []
  | y :: rest =>
    if endsFactor x && beginsFactor y then '*' :: y :: signedAfter y rest
      else y :: signedAfter y rest

/-- The next character gets a sign before it where an operand ends right before another begins. -/
theorem signedAfter_cons (x y : Char) (rest : List Char) : signedAfter x (y :: rest) =
    if endsFactor x && beginsFactor y then '*' :: y :: signedAfter y rest
      else y :: signedAfter y rest :=
  rfl

/-- A character stays where it is, only what is behind it gets signs. -/
theorem signProducts_cons (x : Char) (rest : List Char) :
    signProducts (x :: rest) = x :: signedAfter x rest := by
  induction rest generalizing x with
  | nil => rfl
  | cons y rest ih =>
    rw [signProducts, signedAfter, ih y]
    split <;> rfl

/-- Behind a character and the next one, which may get a sign before it, the scan is where the next
one leads. -/
theorem flows_signedAfter_cons_iff {x y : Char} {rest : List Char} {depth : Nat} (hy : Symbol y) :
    Flows depth (endsFactor x) (signedAfter x (y :: rest)) ↔
      (endsFactor x = true ∨ beginsFactor y = true) ∧ ∃ d, openAfter depth y = some d ∧
      Flows d (endsFactor y) (signedAfter y rest) := by
  have hsign : ∀ rest, Flows depth true ('*' :: rest) ↔ Flows depth false rest := by
    intro rest
    show Flows depth true (Op.and.character :: rest) ↔ _
    rw [flows_cons_iff (Symbol.operator .and)]
    constructor
    · rintro ⟨-, d, hd, h⟩
      obtain rfl : depth = d := Option.some.inj hd
      exact h
    · intro h
      exact ⟨rfl, depth, rfl, h⟩
  rw [signedAfter_cons]
  cases hends : endsFactor x <;> cases hbegins : beginsFactor y <;>
    simp [hsign, flows_cons_iff hy, hbegins]

/-- Brackets match behind a character as they do behind the next one. -/
theorem unmatchedFrom_signedAfter_cons_iff (x y : Char) (rest text back : List Char) (depth : Nat) :
    ∃ back', unmatchedFrom text depth back (signedAfter x (y :: rest)) = none ↔
      ∃ d, openAfter depth y = some d ∧ unmatchedFrom text d back' (signedAfter y rest) = none := by
  rw [signedAfter_cons]
  split
  · refine ⟨y :: '*' :: back, ?_⟩
    rw [unmatchedFrom_other text depth back _ (by decide), unmatchedFrom_cons_eq_none_iff]
  · exact ⟨y :: back, unmatchedFrom_cons_eq_none_iff⟩

/-- The scan accepts what is behind a character and signed exactly if the checks find nothing
there. -/
theorem flows_signedAfter_iff {x : Char} {rest : List Char} (hall : ∀ c ∈ x :: rest, Symbol c)
    (hpair : (x :: rest).IsChain fun x y => ¬ (x = '(' ∧ y = ')')) {depth : Nat}
    (hdepth : x = '(' → 0 < depth) (text back : List Char) :
    Flows depth (endsFactor x) (signedAfter x rest) ↔
      Joined (x :: rest) ∧ unmatchedFrom text depth back (signedAfter x rest) = none := by
  have hx := hall x List.mem_cons_self
  induction rest generalizing x depth back with
  | nil =>
    have hsign : isOperator x = false ∧ x ≠ '!' ↔ ¬ (endsFactor x = false ∧ x ≠ '(') := by
      rw [← hx.isSign_iff, not_or, Bool.not_eq_true]
    show Flows depth (endsFactor x) [] ↔ _ ∧ unmatchedFrom text depth back [] = none
    rw [flows_nil_iff, joined_singleton, hsign, unmatchedFrom_nil_eq_none_iff]
    -- behind an opening bracket a group is open, so a text that ends there is refused by the
    -- brackets
    by_cases hopening : x = '('
    · have hpos := hdepth hopening
      constructor
      · rintro ⟨-, hzero⟩
        omega
      · rintro ⟨-, hzero⟩
        omega
    · simp [hopening]
  | cons y rest ih =>
    have hy := hall y (List.mem_cons_of_mem x List.mem_cons_self)
    obtain ⟨hxy, hpair⟩ := List.isChain_cons_cons.mp hpair
    obtain ⟨back', hback⟩ := unmatchedFrom_signedAfter_cons_iff x y rest text back depth
    rw [flows_signedAfter_cons_iff hy, hback, joined_cons_cons, joins_iff hx hy hxy]
    have hstep : ∀ d, openAfter depth y = some d → (Flows d (endsFactor y) (signedAfter y rest) ↔
        Joined (y :: rest) ∧ unmatchedFrom text d back' (signedAfter y rest) = none) := by
      intro d hd
      refine ih (fun c hc => hall c (List.mem_cons_of_mem x hc)) hpair (fun hopening => ?_) back' hy
      exact pos_of_openAfter_opening (hopening ▸ hd)
    constructor
    · rintro ⟨hjoins, d, hd, hflows⟩
      obtain ⟨hjoined, hmatch⟩ := (hstep d hd).mp hflows
      exact ⟨⟨hjoins, hjoined⟩, d, hd, hmatch⟩
    · rintro ⟨⟨hjoins, hjoined⟩, d, hd, hmatch⟩
      exact ⟨hjoins, d, hd, (hstep d hd).mpr ⟨hjoined, hmatch⟩⟩

/-- The scan accepts the signed text exactly if the text lacks no operand and the brackets match. -/
theorem flows_signProducts_iff {text : List Char} (hne : text ≠ []) (hall : ∀ c ∈ text, Symbol c)
    (hpair : text.IsChain fun x y => ¬ (x = '(' ∧ y = ')')) :
    Flows 0 false (signProducts text) ↔ missingOperand? text = none ∧
      unmatched? (signProducts text) = none := by
  obtain ⟨x, rest, rfl⟩ := List.exists_cons_of_ne_nil hne
  have hx := hall x List.mem_cons_self
  rw [missingOperand?_eq_none_iff, unmatched?, signProducts_cons, flows_cons_iff hx,
    unmatchedFrom_cons_eq_none_iff]
  have hstep : ∀ d, openAfter 0 x = some d → (Flows d (endsFactor x) (signedAfter x rest) ↔
      Joined (x :: rest) ∧
        unmatchedFrom (x :: signedAfter x rest) d [x] (signedAfter x rest) = none) := by
    intro d hd
    exact flows_signedAfter_iff hall hpair
      (fun hopening => pos_of_openAfter_opening (hopening ▸ hd)) _ _
  constructor
  · rintro ⟨hbegins, d, hd, hflows⟩
    obtain ⟨hjoined, hmatch⟩ := (hstep d hd).mp hflows
    refine ⟨⟨fun c hc => ?_, hjoined⟩, d, hd, hmatch⟩
    obtain rfl : x = c := Option.some.inj hc
    rw [hx.isOperator_eq, ← hbegins, Bool.false_and]
  · rintro ⟨⟨hhead, hjoined⟩, d, hd, hmatch⟩
    refine ⟨?_, d, hd, (hstep d hd).mpr ⟨hjoined, hmatch⟩⟩
    -- a closing bracket at the beginning would close a group where none is open
    have hclosing : x ≠ ')' := by
      rintro rfl
      exact nomatch hd
    have hoperator := hhead x rfl
    rw [hx.isOperator_eq, decide_eq_true hclosing, Bool.and_true] at hoperator
    exact hoperator.symm

/-! ## Signs in products -/

/-- Signed texts have a sign in every product. -/
theorem signProducts_signProducts (text : List Char) :
    signProducts (signProducts text) = signProducts text := by
  refine signProducts_eq_self ?_
  cases text with
  | nil => exact List.isChain_nil
  | cons x rest =>
    rw [signProducts_cons]
    induction rest generalizing x with
    | nil => exact List.isChain_singleton x
    | cons y rest ih =>
      rw [signedAfter_cons]
      split
      · refine List.isChain_cons_cons.mpr ⟨fun h => absurd h.2 (by decide), ?_⟩
        exact List.isChain_cons_cons.mpr ⟨fun h => absurd h.1 (by decide), ih y⟩
      · rename_i hpair
        exact List.isChain_cons_cons.mpr ⟨by simpa using hpair, ih y⟩

/-- One pass puts in all signs. -/
theorem withProducts_eq (text : List Char) : withProducts text = signProducts text := by
  unfold withProducts maxProductPasses settle
  split
  · rename_i hfixed
    exact hfixed.symm
  · exact settle_of_fixed (signProducts_signProducts text) _

/-- Signed texts keep to the characters of compact notation. -/
theorem isSymbol_signProducts {text : List Char} (h : ∀ c ∈ text, IsSymbol c) :
    ∀ c ∈ signProducts text, IsSymbol c := by
  cases text with
  | nil => exact h
  | cons x rest =>
    rw [signProducts_cons]
    induction rest generalizing x with
    | nil => exact h
    | cons y rest ih =>
      obtain ⟨hx, hrest⟩ := List.forall_mem_cons.mp h
      have hafter := ih y hrest
      rw [signedAfter_cons]
      split
      · exact List.forall_mem_cons.mpr ⟨hx, List.forall_mem_cons.mpr ⟨Or.inr (by decide), hafter⟩⟩
      · exact List.forall_mem_cons.mpr ⟨hx, hafter⟩

/-- The characters of compact notation are its tokens. -/
theorem tokens_eq_ok {text : List Char} (h : ∀ c ∈ text, IsSymbol c) : tokens text = .ok text := by
  have hnone : text.find? (!isToken ·) = none := by
    refine List.find?_eq_none.mpr fun c hc => ?_
    have htoken : isToken c = true := by
      rcases h c hc with hupper | hmem
      · simp [isToken, isAlpha_of_isUpper hupper]
      · have hall : ['0', '1', '(', ')', '!', '*', '+', '^', '@', '#', '='].all isToken = true := by
          decide
        exact List.all_eq_true.mp hall c hmem
    simp [htoken]
  unfold tokens
  rw [hnone]

/-! ## Reading with the checks -/

/-- The expression that a text in compact notation stands for, after signs are put into its products
and if it passes the checks. -/
def readChecked (text : List Char) : Except Fault Expr :=
  match missingOperand? text with
  | some fault => .error fault
  | none =>
    match unmatched? (withProducts text) with
    | some fault => .error fault
    | none => readCompact (withProducts text)

/-- A formula is read from its compact notation. -/
theorem parse_eq (formula : String) :
    Expr.parse formula = (compact formula.toList).bind readChecked := by
  unfold Expr.parse prepare
  cases compact formula.toList with
  | error fault => rfl
  | ok text =>
    simp only [bind, Except.bind, readChecked]
    cases missingOperand? text with
    | some fault => rfl
    | none =>
      cases unmatched? (withProducts text) with
      | some fault => rfl
      | none => rfl

/-- Compact notation has something in it, and something in every pair of brackets. -/
theorem compact_ne_nil {source text : List Char} (h : compact source = .ok text) :
    text ≠ [] ∧ ¬ ['(', ')'] <:+: text := by
  obtain ⟨plain, resolved, -, -, rfl, hne⟩ := exists_of_compact h
  exact ⟨hne, isChain_iff_not_mem_pair.mp (isChain_fillBrackets resolved)⟩

/-- The texts that pass both checks are those that the grammar derives when signs are put into their
products. -/
theorem exists_derives_iff {text : List Char} (hne : text ≠ []) (hall : ∀ c ∈ text, IsSymbol c)
    (hpair : ¬ ['(', ')'] <:+: text) :
    (∃ e, Derives 1 (signProducts text) e) ↔ missingOperand? text = none ∧
      unmatched? (withProducts text) = none := by
  rw [withProducts_eq,
    ← flows_signProducts_iff hne (fun c hc => (hall c hc).symbol)
    (isChain_iff_not_mem_pair.mpr hpair)]
  constructor
  · rintro ⟨e, he⟩
    have hflows := he.flows Flows.finish
    rwa [List.append_nil] at hflows
  · exact exists_derives_of_flows

/-- A text that the grammar derives with signs in its products is read as its tree. -/
theorem readChecked_of_derives {text : List Char} (hne : text ≠ []) (hall : ∀ c ∈ text, IsSymbol c)
    (hpair : ¬ ['(', ')'] <:+: text) {e : Expr} (h : Derives 1 (signProducts text) e) :
    readChecked text = .ok e := by
  obtain ⟨hoperands, hbrackets⟩ := (exists_derives_iff hne hall hpair).mp ⟨e, h⟩
  unfold readChecked
  rw [hoperands, hbrackets, withProducts_eq]
  show (tokens (signProducts text)).bind (readTokens · (signProducts text)) = .ok e
  rw [tokens_eq_ok (isSymbol_signProducts hall)]
  exact readTokens_of_derives h _

/-- Compact notation is never empty and has no empty brackets. Every such text of its characters is
read exactly as the tree that the grammar derives from it with signs in its products, and no text
stands for two trees. If there is no such tree, one of the checks refuses the text: what passes both
is read to its end. -/
theorem readChecked_exact :
    (∀ source text, compact source = .ok text → text ≠ [] ∧ ¬ ['(', ')'] <:+: text) ∧
    (∀ text e e', Derives 1 text e → Derives 1 text e' → e = e') ∧
    ∀ text : List Char, text ≠ [] → (∀ c ∈ text, IsSymbol c) → ¬ ['(', ')'] <:+: text →
      (∀ e, readChecked text = .ok e ↔ Derives 1 (signProducts text) e) ∧
      ((¬ ∃ e, Derives 1 (signProducts text) e) → ∃ fault : Fault, fault.IsUnreadable ∧
        readChecked text = .error fault ∧ (missingOperand? text = some fault ∨
          missingOperand? text = none ∧ unmatched? (withProducts text) = some fault)) ∧
      (missingOperand? text = none → unmatched? (withProducts text) = none →
        tokens (withProducts text) = .ok (withProducts text) ∧
          ∃ e, readTokens (withProducts text) (withProducts text) = .ok e) := by
  refine ⟨fun source text => compact_ne_nil, fun text e e' => Derives.unique,
    fun text hne hall hpair => ?_⟩
  have hiff := exists_derives_iff hne hall hpair
  refine ⟨fun e => ⟨fun hread => ?_, readChecked_of_derives hne hall hpair⟩, fun hnone => ?_,
    fun hoperands hbrackets => ?_⟩
  · -- what is read has passed the checks, so something is derived, and that is what is read
    have hchecks : missingOperand? text = none ∧ unmatched? (withProducts text) = none := by
      unfold readChecked at hread
      split at hread
      · exact nomatch hread
      · rename_i hoperands
        split at hread
        · exact nomatch hread
        · rename_i hbrackets
          exact ⟨hoperands, hbrackets⟩
    obtain ⟨e', he'⟩ := hiff.mpr hchecks
    rw [readChecked_of_derives hne hall hpair he'] at hread
    exact Except.ok.inj hread ▸ he'
  · unfold readChecked
    cases hoperands : missingOperand? text with
    | some fault => exact ⟨fault, isUnreadable_of_missingOperand? hoperands, rfl, Or.inl rfl⟩
    | none =>
      cases hbrackets : unmatched? (withProducts text) with
      | some fault => exact ⟨fault, isUnreadable_of_unmatched? hbrackets, rfl, Or.inr ⟨rfl, rfl⟩⟩
      | none => exact absurd (hiff.mpr ⟨hoperands, hbrackets⟩) hnone
  · obtain ⟨e, he⟩ := hiff.mpr ⟨hoperands, hbrackets⟩
    rw [withProducts_eq]
    exact ⟨tokens_eq_ok (isSymbol_signProducts hall), e, readTokens_of_derives he _⟩

/-- A complement in a chain of products without signs, and a group that is not closed. -/
theorem readChecked_exact_of_products :
    Derives 1 ['A', '*', '!', '(', 'B', '+', 'C', ')', '*', 'D']
      (.bin .and (.bin .and (.var "A") (.not (.bin .or (.var "B") (.var "C")))) (.var "D")) ∧
    ∃ fault : Fault, fault.IsUnreadable ∧ readChecked ['A', '(', 'B'] = .error fault ∧
      unmatched? ['A', '*', '(', 'B'] = some fault := by
  obtain ⟨-, -, hexact⟩ := readChecked_exact
  constructor
  · obtain ⟨hread, -⟩ := hexact ['A', '!', '(', 'B', '+', 'C', ')', 'D'] (by decide)
      (by simp [IsSymbol]) (by decide)
    exact (hread _).mp (by decide)
  · obtain ⟨hread, hrefused, -⟩ :=
      hexact ['A', '(', 'B'] (by decide) (by simp [IsSymbol]) (by decide)
    have herror : readChecked ['A', '(', 'B']
        = .error (.unreadable .unclosed (some "(") (some "A*(B")) := by decide
    have hnone : ¬ ∃ e, Derives 1 (signProducts ['A', '(', 'B']) e := by
      rintro ⟨e, he⟩
      rw [(hread e).mpr he] at herror
      exact nomatch herror
    obtain ⟨fault, hfault, hrefuse, hcheck⟩ := hrefused hnone
    have hbrackets : unmatched? ['A', '*', '(', 'B'] = some fault := by
      rcases hcheck with hcheck | ⟨-, hcheck⟩
      · have hpass : missingOperand? ['A', '(', 'B'] = none := by decide
        exact nomatch hpass.symm.trans hcheck
      · exact hcheck
    exact ⟨fault, hfault, hrefuse, hbrackets⟩

end SwitchingAlgebra.Formula
