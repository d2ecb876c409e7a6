/-
# The history of a derivation

A record of a derivation is kept step by step, and the bound is looked at only after the next step
was found. What it says at the end is what happened: the steps lead from the first tree to the last,
each with the first law of the list that changes the text, they are counted, and the bound is said
to have ended the derivation only if it has.

* `Derivation.nextStep?_eq`: the next step is the first change;
* `leads_stepsFrom`, `isFirstChange_of_mem`, `length_stepsFrom_le`, `bounded_iff` and
  `stepsFrom_take` are about steps, `tally_countsOf` is about counting them;
* `Record.complete_ofSteps` says that a record is continued by the steps from its tree on,
  `record_eq` that it is a record of the derivation;
* `record_faithful` puts all of this together.
-/
import SwitchingAlgebra.Derivation.Record
import SwitchingAlgebra.Proofs.Derivation.Irreducible

namespace SwitchingAlgebra

namespace Derivation

variable {laws : List Law} {e : Expr}

/-! ## First changes -/

/-- The first law of a list that changes the text of a tree. -/
def firstChange? (laws : List Law) (e : Expr) : Option Law :=
  laws.find? fun law => Style.plain.written (law.apply e) ≠ Style.plain.written e

/-- The next step of a derivation is the first change, whether or not it is asked first if the law
can be used. -/
theorem nextStep?_eq (laws : List Law) (e : Expr) :
    nextStep? laws e = (firstChange? laws e).map fun law => ⟨law, e, law.apply e⟩ := by
  unfold nextStep? firstChange?
  induction laws with
  | nil => rfl
  | cons law laws ih =>
    rw [List.findSome?_cons, ih, List.find?_cons]
    cases hcan : law.canApply e with
    | false => simp [Law.apply_eq_self hcan]
    | true => by_cases h : Style.plain.written (law.apply e) = Style.plain.written e <;> simp [h]

/-- Whether a step is made with the first law of a list that changes the text of the tree before
it. -/
def Step.IsFirstChange (laws : List Law) (step : Step) : Prop :=
  firstChange? laws step.before = some step.law ∧ step.after = step.law.apply step.before

/-- A next step is such a step from the tree. -/
theorem isFirstChange_of_nextStep? {step : Step} (h : nextStep? laws e = some step) :
    step.before = e ∧ step.IsFirstChange laws := by
  rw [nextStep?_eq, Option.map_eq_some_iff] at h
  obtain ⟨law, hlaw, rfl⟩ := h
  exact ⟨rfl, hlaw, rfl⟩

/-- There is a next step if some law of the list changes the text. -/
theorem isSome_nextStep?_iff : (nextStep? laws e).isSome ↔
    ∃ law ∈ laws, Style.plain.written (law.apply e) ≠ Style.plain.written e := by
  rw [nextStep?_eq, Option.isSome_map, firstChange?, List.find?_isSome]
  simp only [decide_eq_true_eq]

/-! ## Steps from a tree on -/

/-- Whether steps lead from a tree to another one: the first starts from the tree, each later one
starts from the tree after the step before it, and the last one ends with the other tree. -/
def Leads : Expr → List Step → Expr → Prop
  | e, [], result => result = e
  | e, step :: steps, result => step.before = e ∧ Leads step.after steps result

/-- The steps of a derivation lead to its end. -/
theorem leads_stepsFrom (bound : Nat) (e : Expr) :
    Leads e (stepsFrom laws bound e).1 (endOf e (stepsFrom laws bound e).1) := by
  induction bound, e using stepsFrom_induction laws with
  | hnone bound e h =>
    rw [stepsFrom_of_none bound h]
    rfl
  | hzero e step h =>
    rw [stepsFrom_zero h]
    rfl
  | hsucc bound e step h ih =>
    rw [stepsFrom_succ bound h, endOf_cons]
    exact ⟨(isFirstChange_of_nextStep? h).1, ih⟩

/-- Every step of a derivation is made with the first law that changes the text. -/
theorem isFirstChange_of_mem (bound : Nat) (e : Expr) :
    ∀ step ∈ (stepsFrom laws bound e).1, step.IsFirstChange laws := by
  exact forall_mem_stepsFrom (p := fun _ => True)
    (fun _ _ _ hnext => ⟨(isFirstChange_of_nextStep? hnext).2, trivial⟩) bound trivial

/-- A derivation has no more steps than the bound allows. -/
theorem length_stepsFrom_le (bound : Nat) (e : Expr) :
    (stepsFrom laws bound e).1.length ≤ bound := by
  induction bound, e using stepsFrom_induction laws with
  | hnone bound e h =>
    rw [stepsFrom_of_none bound h]
    exact Nat.zero_le bound
  | hzero e step h => rw [stepsFrom_zero h, List.length_nil]
  | hsucc bound e step h ih =>
    rw [stepsFrom_succ bound h]
    exact Nat.succ_le_succ ih

/-- The bound has ended a derivation if all its steps are made and there is a further one. -/
theorem bounded_iff (bound : Nat) (e : Expr) : (stepsFrom laws bound e).2 = true ↔
    (stepsFrom laws bound e).1.length = bound ∧
    (nextStep? laws (endOf e (stepsFrom laws bound e).1)).isSome := by
  induction bound, e using stepsFrom_induction laws with
  | hnone bound e h =>
    rw [stepsFrom_of_none bound h]
    simp [endOf, h]
  | hzero e step h =>
    rw [stepsFrom_zero h]
    simp [endOf, h]
  | hsucc bound e step h ih =>
    rw [stepsFrom_succ bound h, endOf_cons, ih, List.length_cons, Nat.add_right_cancel_iff]

/-- A larger bound only adds steps. -/
theorem stepsFrom_take {bound bound' : Nat} (h : bound ≤ bound') (e : Expr) :
    (stepsFrom laws bound e).1 = (stepsFrom laws bound' e).1.take bound := by
  induction bound, e using stepsFrom_induction laws generalizing bound' with
  | hnone bound e hnext =>
    rw [stepsFrom_of_none bound hnext, stepsFrom_of_none bound' hnext, List.take_nil]
  | hzero e step hnext => rw [stepsFrom_zero hnext, List.take_zero]
  | hsucc bound e step hnext ih =>
    obtain ⟨bound', rfl⟩ := Nat.exists_eq_add_of_le' (Nat.le_trans (Nat.le_add_left 1 bound) h)
    rw [stepsFrom_succ bound hnext, stepsFrom_succ bound' hnext, List.take_succ_cons,
      ih (Nat.le_of_succ_le_succ h)]

/-! ## Counting -/

/-- How often each law was used, by its name. -/
def countsOf (steps : List Step) : List (String × Nat) :=
  let used := steps.map Step.law
  (distinct used).map fun law => (law.name, used.count law)

theorem name_injective {law law' : Law} (h : law.name = law'.name) : law = law' := by
  have hnodup : (Law.all.map Law.name).Nodup := by decide
  exact List.inj_on_of_nodup_map hnodup (Law.mem_all law) (Law.mem_all law') h

/-- A further item is kept at its first place. -/
theorem distinct_concat {α : Type} [DecidableEq α] (xs : List α) (x : α) :
    distinct (xs ++ [x]) = if x ∈ xs then distinct xs else distinct xs ++ [x] := by
  induction xs with
  | nil => rfl
  | cons y ys ih =>
    rw [List.cons_append, distinct, distinct, ih]
    by_cases hxy : x = y
    · subst hxy
      split <;> simp
    · have hmem : x ∈ y :: ys ↔ x ∈ ys := by simp [hxy]
      simp only [hmem]
      split
      · rfl
      · simp [hxy]

/-- One more use changes the number of its law, or brings in the law. -/
theorem tally_map (law : Law) (count : Law → Nat) (used : List Law) (h : used.Nodup) :
    tally law.name (used.map fun other => (other.name, count other)) =
      if law ∈ used then used.map fun other => (other.name, if other = law then count other + 1
        else count other)
      else used.map (fun other => (other.name, count other)) ++ [(law.name, 1)] := by
  induction used with
  | nil => rfl
  | cons other used ih =>
    obtain ⟨hother, hused⟩ := List.nodup_cons.mp h
    rw [List.map_cons, tally, ih hused]
    by_cases heq : other = law
    · subst heq
      have hrest :
          used.map (fun law => (law.name, if law = other then count law + 1 else count law))
            = used.map fun law => (law.name, count law) :=
        List.map_congr_left fun law hlaw => by rw [if_neg (ne_of_mem_of_not_mem hlaw hother)]
      simp [hrest]
    · have hname : ¬ other.name = law.name := fun hname => heq (name_injective hname)
      have hmem : law ∈ other :: used ↔ law ∈ used := by simp [Ne.symm heq]
      simp only [hname, hmem, if_false]
      split <;> simp [heq]

/-- Counting a further step. -/
theorem tally_countsOf (step : Step) (steps : List Step) :
    tally step.law.name (countsOf steps) = countsOf (steps ++ [step]) := by
  unfold countsOf
  rw [tally_map step.law _ _ (nodup_distinct _), List.map_append, List.map_singleton]
  simp only [mem_distinct, distinct_concat, List.count_append, List.count_singleton]
  by_cases hused : step.law ∈ steps.map Step.law
  · rw [if_pos hused, if_pos hused]
    refine List.map_congr_left fun law _ => ?_
    by_cases heq : law = step.law
    · subst heq
      simp
    · simp [heq, Ne.symm heq]
  · rw [if_neg hused, if_neg hused, List.map_append, List.map_singleton,
      List.count_eq_zero_of_not_mem hused]
    congr 1
    · refine List.map_congr_left fun law hlaw => ?_
      have hne : step.law ≠ law := fun heq => hused (heq ▸ mem_distinct.mp hlaw)
      simp [hne]
    · simp

/-- One more use adds one to the number of all uses. -/
theorem sum_tally (name : String) (uses : List (String × Nat)) :
    ((tally name uses).map Prod.snd).sum = (uses.map Prod.snd).sum + 1 := by
  induction uses with
  | nil => rfl
  | cons use uses ih =>
    rw [tally]
    split
    · simp only [List.map_cons, List.sum_cons]
      omega
    · simp only [List.map_cons, List.sum_cons, ih]
      omega

/-- All uses together are the steps. -/
theorem sum_countsOf (steps : List Step) : ((countsOf steps).map Prod.snd).sum = steps.length := by
  induction steps using List.reverseRecOn with
  | nil => rfl
  | append_singleton steps step ih =>
    rw [← tally_countsOf, sum_tally, ih, List.length_append, List.length_singleton]

/-! ## Records -/

namespace Record

/-- The record that says of some steps what has happened. -/
def ofSteps (e : Expr) (steps : List Step) (bounded : Bool) : Record where
  start := e
  current := endOf e steps
  text := Style.plain.written (endOf e steps)
  steps := steps
  uses := countsOf steps
  count := steps.length
  bounded := bounded

/-- The change that a record finds is the next step, if the text that it keeps is the text of its
tree. -/
theorem change?_eq (laws : List Law) {r : Record} (htext : r.text = Style.plain.written r.current) :
    r.change? laws = (nextStep? laws r.current).map fun step =>
      (step.law, step.after, Style.plain.written step.after) := by
  unfold change? nextStep?
  rw [List.map_findSome?]
  congr 1
  funext law
  simp only [htext, Function.comp_apply]
  split
  · split <;> rfl
  · rfl

/-- A step is recorded with everything that is kept. -/
theorem extend_ofSteps (e : Expr) (steps : List Step) (law : Law) (after : Expr) :
    (ofSteps e steps false).extend law after (Style.plain.written after) =
      ofSteps e (steps ++ [⟨law, endOf e steps, after⟩]) false := by
  have hend : endOf e (steps ++ [⟨law, endOf e steps, after⟩]) = after := by simp [endOf]
  simp only [extend, ofSteps, hend, ← tally_countsOf, List.length_append, List.length_singleton]

/-- **A record says what happens.** It is continued by the steps from its last tree on, as far as
the bound allows. -/
theorem complete_ofSteps (laws : List Law) (bound : Nat) (e : Expr) (steps : List Step) :
    (ofSteps e steps false).complete laws (steps.length + bound) =
      ofSteps e (steps ++ (stepsFrom laws bound (endOf e steps)).1)
      (stepsFrom laws bound (endOf e steps)).2 := by
  have hcurrent (steps : List Step) : (ofSteps e steps false).current = endOf e steps := rfl
  induction bound generalizing steps with
  | zero =>
    unfold complete
    rw [change?_eq laws rfl, hcurrent]
    cases hnext : nextStep? laws (endOf e steps) with
    | none => simp [stepsFrom_of_none _ hnext]
    | some step => simp [stepsFrom_zero hnext, ofSteps]
  | succ bound ih =>
    unfold complete
    rw [change?_eq laws rfl, hcurrent]
    cases hnext : nextStep? laws (endOf e steps) with
    | none => simp [stepsFrom_of_none _ hnext]
    | some step =>
      have hstep : (⟨step.law, endOf e steps, step.after⟩ : Step) = step := by
        rw [← (isFirstChange_of_nextStep? hnext).1]
      have hend : endOf e (steps ++ [step]) = step.after := by simp [endOf]
      have hlt : (ofSteps e steps false).count < steps.length + (bound + 1) := by
        show steps.length < _
        omega
      have hbound : steps.length + (bound + 1) = (steps ++ [step]).length + bound := by
        rw [List.length_append, List.length_singleton]
        omega
      rw [Option.map_some]
      simp only [hlt, if_true]
      rw [extend_ofSteps, hstep, hbound, ih, hend, stepsFrom_succ bound hnext, List.append_assoc,
        List.singleton_append]

end Record

/-- The record of a derivation says what has happened in it. -/
theorem record_eq (laws : List Law) (bound : Int) (e : Expr) :
    record laws bound e = (run laws bound e).map fun d =>
      Record.ofSteps d.start d.steps d.bounded := by
  unfold record run
  split
  · rfl
  · cases e.defect? with
    | some fault => rfl
    | none =>
      have hcomplete := Record.complete_ofSteps laws bound.toNat e []
      rw [List.length_nil, Nat.zero_add] at hcomplete
      exact congrArg Except.ok hcomplete

/-- **The history of a derivation is what happened.** For every list of laws and every bound that
allows a step, the derivation from a well formed tree has a record. Its steps lead from the tree to
the result, each with the first law of the list that changes the text. The count is the number of
steps, which the bound allows, and the sum of the numbers of uses, each of which is the number of
steps with the law of that name. The bound is said to have ended the derivation exactly if there are
as many steps as it allows and some law would still change the text. With a larger bound the record
begins with the same steps. -/
theorem record_faithful (he : e.WellFormed) (laws : List Law) {bound : Int} (hbound : 1 ≤ bound) :
    ∃ r, record laws bound e = .ok r ∧
      r.start = e ∧ Leads e r.steps r.current ∧
      (∀ step ∈ r.steps, firstChange? laws step.before = some step.law ∧
        step.after = step.law.apply step.before) ∧
      r.count = r.steps.length ∧ (r.uses.map Prod.snd).sum = r.steps.length ∧
      (r.steps.length : Int) ≤ bound ∧ r.uses = countsOf r.steps ∧
      (r.bounded = true ↔ (r.steps.length : Int) = bound ∧
        ∃ law ∈ laws, Style.plain.written (law.apply r.current) ≠ Style.plain.written r.current) ∧
      ∀ bound' : Int, bound ≤ bound' → ∃ r', record laws bound' e = .ok r' ∧
        r.steps = r'.steps.take (min bound.toNat r'.steps.length) := by
  have hrecord : ∀ bound : Int, 1 ≤ bound → record laws bound e =
      .ok (Record.ofSteps e (stepsFrom laws bound.toNat e).1 (stepsFrom laws bound.toNat e).2) := by
    intro bound hbound
    rw [record_eq, run_eq_ok laws hbound he]
    rfl
  have hlength : (stepsFrom laws bound.toNat e).1.length ≤ bound.toNat :=
    length_stepsFrom_le bound.toNat e
  refine ⟨_, hrecord bound hbound, rfl, leads_stepsFrom bound.toNat e,
    isFirstChange_of_mem bound.toNat e, rfl, sum_countsOf _, ?_, rfl, ?_, fun bound' hbound' =>
    ⟨_, hrecord bound' (by omega), ?_⟩⟩
  · show ((stepsFrom laws bound.toNat e).1.length : Int) ≤ bound
    omega
  · show (stepsFrom laws bound.toNat e).2 = true ↔ _
    rw [bounded_iff, isSome_nextStep?_iff]
    refine and_congr_left' ?_
    show _ ↔ ((stepsFrom laws bound.toNat e).1.length : Int) = bound
    omega
  · show (stepsFrom laws bound.toNat e).1 = _
    rw [stepsFrom_take (Int.toNat_le_toNat hbound')]
    exact List.take_eq_take_min

/-- A tree that two steps are enough for: with a bound of two the bound has not ended the
derivation, with a bound of one it has. -/
theorem record_faithful_at_bound :
    (Expr.not (.not (.bin .and (.var "A") (.var "A")))).WellFormed ∧ (1 : Int) ≤ 1 ∧ (1 : Int) ≤ 2 ∧
      (∃ r, record [.doubleNegation, .idempotence .product] 2
          (.not (.not (.bin .and (.var "A") (.var "A")))) = .ok r ∧
        r.count = 2 ∧ r.bounded = false ∧
        Leads (.not (.not (.bin .and (.var "A") (.var "A")))) r.steps (.var "A")) ∧
      ∃ r, record [.doubleNegation, .idempotence .product] 1
          (.not (.not (.bin .and (.var "A") (.var "A")))) = .ok r ∧
        r.steps.length = 1 ∧ ∃ law ∈ [Law.doubleNegation, .idempotence .product],
          Style.plain.written (law.apply r.current) ≠ Style.plain.written r.current := by
  have he : (Expr.not (.not (.bin .and (.var "A") (.var "A")))).WellFormed := by decide
  refine ⟨he, by decide, by decide, ?_, ?_⟩
  · obtain ⟨r, hr, -, hleads, -⟩ :=
      record_faithful he [.doubleNegation, .idempotence .product] (show (1 : Int) ≤ 2 by decide)
    refine ⟨r, hr, ?_⟩
    rw [record_eq, run_eq_ok _ (by decide) he] at hr
    cases hr
    exact ⟨by decide, by decide, hleads⟩
  · obtain ⟨r, hr, -, -, -, -, -, -, -, hbounded, -⟩ :=
      record_faithful he [.doubleNegation, .idempotence .product] (show (1 : Int) ≤ 1 by decide)
    have htrue : r.bounded = true := by
      rw [record_eq, run_eq_ok _ (by decide) he] at hr
      cases hr
      decide
    obtain ⟨hlength, hlaw⟩ := hbounded.mp htrue
    exact ⟨r, hr, Int.ofNat_inj.mp hlength, hlaw⟩

end Derivation

end SwitchingAlgebra
