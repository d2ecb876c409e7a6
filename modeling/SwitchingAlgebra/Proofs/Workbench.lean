/-
# What a workbench answers

A workbench answers every call as if it had no caches: each stored answer is the one that would be
computed for its key, and the key of a call says everything that its computation reads.

* `value_ordered`: the order of an assignment does not matter, so it may be left out of the key;
* `Workbench.Sound` is the invariant of the caches, `Call.answers_perform` its step;
* `Workbench.run_eq_fresh` is the theorem for all sequences of calls.
-/
import Mathlib.Data.List.Basic
import SwitchingAlgebra.Proofs.Recency
import SwitchingAlgebra.Proofs.Table.Columns
import SwitchingAlgebra.Workbench

namespace SwitchingAlgebra

/-! ## Assignments in order -/

/-- The value of a name is found among the entries of that name, the last one counting. -/
theorem lastValue?_eq_getLast? {β : Type} (name : String) (a : List (String × β)) :
    lastValue? name a = ((a.filter (·.1 = name)).getLast?).map Prod.snd := by
  induction a with
  | nil => rfl
  | cons entry rest ih =>
    obtain ⟨other, x⟩ := entry
    unfold lastValue?
    rw [ih]
    by_cases hname : other = name
    · rw [List.filter_cons_of_pos (by simpa using hname), List.getLast?_cons]
      cases (rest.filter (·.1 = name)).getLast? <;> simp [hname]
    · rw [List.filter_cons_of_neg (by simpa using hname)]
      cases (rest.filter (·.1 = name)).getLast? <;> simp [hname]

/-- Sorting an assignment leaves the entries of each name in their order. -/
theorem filter_ordered (name : String) (a : Assignment) :
    (Workbench.ordered a).filter (·.1 = name) = a.filter (·.1 = name) := by
  have htrans : ∀ x y z : String × Bool, decide (x.1 ≤ y.1) = true → decide (y.1 ≤ z.1) = true →
      decide (x.1 ≤ z.1) = true := by
    intro x y z hxy hyz
    rw [decide_eq_true_eq] at hxy hyz ⊢
    exact String.le_trans hxy hyz
  have htotal : ∀ x y : String × Bool, (decide (x.1 ≤ y.1) || decide (y.1 ≤ x.1)) = true := by
    intro x y
    simpa using String.le_total x.1 y.1
  -- sorting is stable, and entries of one name are sorted as they stand
  have hpairwise : (a.filter (·.1 = name)).Pairwise fun x y => decide (x.1 ≤ y.1) = true := by
    refine List.Pairwise.imp_of_mem (fun {x y} hx hy _ => ?_)
      (List.pairwise_of_forall fun _ _ => True.intro)
    have hxname : x.1 = name := by simpa using (List.mem_filter.mp hx).2
    have hyname : y.1 = name := by simpa using (List.mem_filter.mp hy).2
    have hname : x.1 = y.1 := hxname.trans hyname.symm
    exact decide_eq_true (hname.subst (motive := fun other => x.1 ≤ other) (String.le_refl x.1))
  have hsub : (a.filter (·.1 = name)).Sublist (Workbench.ordered a) :=
    List.sublist_mergeSort htrans htotal hpairwise List.filter_sublist
  have hfilter := hsub.filter (·.1 = name)
  rw [List.filter_filter] at hfilter
  simp only [Bool.and_self] at hfilter
  refine (hfilter.eq_of_length ?_).symm
  exact ((List.mergeSort_perm a _).filter _).length_eq.symm

/-- The order of an assignment does not matter for its values. -/
theorem value_ordered (a : Assignment) :
    Assignment.value (Workbench.ordered a) = Assignment.value a := by
  funext name
  unfold Assignment.value
  rw [lastValue?_eq_getLast?, lastValue?_eq_getLast?, filter_ordered]

namespace Workbench

/-! ## Calls -/

/-- A call of a workbench. Assignments may be to anything that counts as true or false. -/
inductive Call (α : Type) where
  | evaluate (e : Expr) (a : List (String × α))
  | findMinterms (e : Expr) (names : Option (List String))
  | findInfluence (e : Expr) (names : Option (List String))
  | findOrder (e : Expr)
  | findMap (e : Expr) (names : Option (List String))
  | clear

/-- What a call answers. -/
inductive Answer where
  | value (b : Bool)
  | minterms (rows : List Nat)
  | influence (scores : List (String × Rat))
  | order (names : List String)
  | map (m : Karnaugh.Map)
  | cleared

/-- Everything that is stored, without the counts of lookups. -/
def stored (bench : Workbench) :=
  (bench.values.entries, bench.minterms.entries, bench.influences.entries, bench.maps.entries)

variable {α : Type} (truth : α → Bool)

/-- Answers a call. -/
def Call.perform (bench : Workbench) : Call α → Except Fault Answer × Workbench
  | evaluate e a => ((bench.evaluateBy truth e a).1.map .value, (bench.evaluateBy truth e a).2)
  | findMinterms e names =>
    ((bench.findMinterms e names).1.map .minterms, (bench.findMinterms e names).2)
  | findInfluence e names =>
    ((bench.findInfluence e names).1.map .influence, (bench.findInfluence e names).2)
  | findOrder e => ((bench.findOrder e).1.map .order, (bench.findOrder e).2)
  | findMap e names => ((bench.findMap e names).1.map .map, (bench.findMap e names).2)
  | clear => (.ok .cleared, bench.clear)

/-- What a call computes without any cache. -/
def Call.fresh (settings : Settings) : Call α → Except Fault Answer
  | evaluate e a => (e.evaluate fun name => ((lastValue? name a).map truth).getD false).map .value
  | findMinterms e names => (trueRows (namesOr names e) e).map .minterms
  | findInfluence e names => (influence settings (namesOr names e) e).map .influence
  | findOrder e => ((influence settings e.names e).map byInfluence).map Answer.order
  | findMap e names => (Karnaugh.Map.ofExpr (namesOr names e) e).map .map
  | clear => .ok .cleared

/-- Answers calls one after the other. -/
def run (bench : Workbench) : List (Call α) → List (Except Fault Answer) × Workbench
  | [] => ([], bench)
  | call :: calls =>
    let next := call.perform truth bench
    let rest := run next.2 calls
    (next.1 :: rest.1, rest.2)

/-! ## Sound caches -/

/-- Every stored answer is the one that is computed for its key. -/
structure Sound (settings : Settings) (bench : Workbench) : Prop where
  settings_eq : bench.settings = settings
  values : bench.values.Sound fun key => key.1.evaluate key.2.value
  minterms : bench.minterms.Sound fun key => trueRows key.2 key.1
  influences : bench.influences.Sound fun key => influence settings key.2 key.1
  maps : bench.maps.Sound fun key => Karnaugh.Map.ofExpr key.2 key.1

/-- A new workbench is sound, and there is one for all settings that are checked and leave no
capacity negative. -/
theorem exists_ofSettings {settings : Settings} (hchecked : settings.checked = .ok settings)
    (hvalues : 0 ≤ settings.valueCapacity) (hminterms : 0 ≤ settings.mintermCapacity)
    (hinfluences : 0 ≤ settings.influenceCapacity) (hmaps : 0 ≤ settings.mapCapacity) :
    ∃ bench, ofSettings settings = .ok bench ∧ bench.Sound settings := by
  obtain ⟨values, hv, hvsound⟩ := Recency.exists_ofCapacity (ε := Fault)
    (fun key : Expr × Assignment => key.1.evaluate key.2.value) hvalues
  obtain ⟨minterms, hm, hmsound⟩ := Recency.exists_ofCapacity (ε := Fault)
    (fun key : Expr × List String => trueRows key.2 key.1) hminterms
  obtain ⟨influences, hi, hisound⟩ := Recency.exists_ofCapacity (ε := Fault)
    (fun key : Expr × List String => influence settings key.2 key.1) hinfluences
  obtain ⟨maps, hp, hpsound⟩ := Recency.exists_ofCapacity (ε := Fault)
    (fun key : Expr × List String => Karnaugh.Map.ofExpr key.2 key.1) hmaps
  refine ⟨⟨settings, values, minterms, influences, maps⟩, ?_,
    ⟨rfl, hvsound, hmsound, hisound, hpsound⟩⟩
  simp only [ofSettings, hchecked, hv, hm, hi, hp, bind, Except.bind, pure, Except.pure]

/-- What answering must do: answer as computed without caches, keep the caches sound, and leave them
as they were when the computation fails. -/
structure Answers {β : Type} (settings : Settings) (bench : Workbench) (fresh : Except Fault β)
    (answered : Except Fault β × Workbench) : Prop where
  answer : answered.1 = fresh
  sound : answered.2.Sound settings
  stored_of_error : ∀ fault, fresh = .error fault → answered.2.stored = bench.stored

/-- An answer may be put in another form. -/
theorem Answers.map {β γ : Type} {settings : Settings} {bench : Workbench} {fresh : Except Fault β}
    {answered : Except Fault β × Workbench} (h : Answers settings bench fresh answered)
    (f : β → γ) : Answers settings bench (fresh.map f) (answered.1.map f, answered.2) where
  answer := congrArg (Except.map f) h.answer
  sound := h.sound
  stored_of_error fault hfault := by
    cases fresh with
    | ok value => exact nomatch hfault
    | error other => exact h.stored_of_error other rfl

section Methods

variable {settings : Settings} {bench : Workbench}

/-- The key of an evaluation says everything that it reads: the values of the names, in whatever
order. -/
theorem evaluate_eq_of_key (e : Expr) (a : List (String × α)) :
    (e.evaluate fun name => ((lastValue? name a).map truth).getD false)
      = e.evaluate (Assignment.value (ordered (a.map fun (name, x) => (name, truth x)))) := by
  rw [value_ordered]
  congr 1
  funext name
  unfold Assignment.value
  rw [lastValue?_map]

theorem answers_evaluateBy (h : bench.Sound settings) (e : Expr) (a : List (String × α)) :
    Answers settings bench (e.evaluate fun name => ((lastValue? name a).map truth).getD false)
      (bench.evaluateBy truth e a) := by
  let key := (e, ordered (a.map fun (name, x) => (name, truth x)))
  let compute := fun _ : Unit => e.evaluate fun name => ((lastValue? name a).map truth).getD false
  have hkey : compute () = key.1.evaluate key.2.value := evaluate_eq_of_key truth e a
  refine ⟨(h.values.fetch_fst hkey).trans hkey.symm, { h with values := h.values.fetch hkey }, ?_⟩
  intro fault hfault
  have hentries := h.values.entries_fetch_of_error hkey hfault
  exact congrArg (·, bench.minterms.entries, bench.influences.entries, bench.maps.entries) hentries

theorem answers_findMinterms (h : bench.Sound settings) (e : Expr) (names : Option (List String)) :
    Answers settings bench (trueRows (namesOr names e) e) (bench.findMinterms e names) := by
  let key := (e, namesOr names e)
  let compute := fun _ : Unit => trueRows key.2 key.1
  have hkey : compute () = trueRows key.2 key.1 := rfl
  refine ⟨h.minterms.fetch_fst hkey, { h with minterms := h.minterms.fetch hkey }, ?_⟩
  intro fault hfault
  have hentries := h.minterms.entries_fetch_of_error hkey hfault
  exact congrArg (bench.values.entries, ·, bench.influences.entries, bench.maps.entries) hentries

theorem answers_findInfluence (h : bench.Sound settings) (e : Expr) (names : Option (List String)) :
    Answers settings bench (influence settings (namesOr names e) e)
      (bench.findInfluence e names) := by
  let key := (e, namesOr names e)
  let compute := fun _ : Unit => influence bench.settings key.2 key.1
  have hkey : compute () = influence settings key.2 key.1 := by rw [← h.settings_eq]
  refine ⟨h.influences.fetch_fst hkey, { h with influences := h.influences.fetch hkey }, ?_⟩
  intro fault hfault
  have hentries := h.influences.entries_fetch_of_error hkey (hkey.trans hfault)
  exact congrArg (bench.values.entries, bench.minterms.entries, ·, bench.maps.entries) hentries

theorem answers_findMap (h : bench.Sound settings) (e : Expr) (names : Option (List String)) :
    Answers settings bench (Karnaugh.Map.ofExpr (namesOr names e) e) (bench.findMap e names) := by
  let key := (e, namesOr names e)
  let compute := fun _ : Unit => Karnaugh.Map.ofExpr key.2 key.1
  have hkey : compute () = Karnaugh.Map.ofExpr key.2 key.1 := rfl
  refine ⟨h.maps.fetch_fst hkey, { h with maps := h.maps.fetch hkey }, ?_⟩
  intro fault hfault
  have hentries := h.maps.entries_fetch_of_error hkey hfault
  exact congrArg (bench.values.entries, bench.minterms.entries,
    bench.influences.entries, ·) hentries

/-- A sound workbench answers every call as if it had no caches, and stays sound. -/
theorem Call.answers_perform (h : bench.Sound settings) (call : Call α) :
    Answers settings bench (call.fresh truth settings) (call.perform truth bench) := by
  cases call with
  | evaluate e a => exact (answers_evaluateBy truth h e a).map Answer.value
  | findMinterms e names => exact (answers_findMinterms h e names).map Answer.minterms
  | findInfluence e names => exact (answers_findInfluence h e names).map Answer.influence
  | findOrder e => exact ((answers_findInfluence h e none).map byInfluence).map Answer.order
  | findMap e names => exact (answers_findMap h e names).map Answer.map
  | clear =>
    refine ⟨rfl, ⟨h.settings_eq, ?_, ?_, ?_, ?_⟩, fun fault hfault => nomatch hfault⟩
    all_goals exact Recency.sound_clear _ _

end Methods

/-! ## Sequences of calls -/

/-- Answering calls keeps a workbench sound, and each is answered as if there were no caches. -/
theorem Sound.run {settings : Settings} {bench : Workbench} (h : bench.Sound settings)
    (calls : List (Call α)) :
    (run truth bench calls).1 = calls.map (Call.fresh truth settings) ∧
      (run truth bench calls).2.Sound settings := by
  induction calls generalizing bench with
  | nil => exact ⟨rfl, h⟩
  | cons call calls ih =>
    have hcall := call.answers_perform truth h
    obtain ⟨hanswers, hsound⟩ := ih hcall.sound
    exact ⟨congrArg₂ List.cons hcall.answer hanswers, hsound⟩

/-- **Caches do not show in the answers.** With checked settings and capacities that are not
negative there is a workbench. It answers every sequence of calls as if each were computed afresh,
failures included. After any such sequence, a call whose computation fails leaves everything stored
as it was. -/
theorem run_eq_fresh (settings : Settings) (hchecked : settings.checked = .ok settings)
    (hvalues : 0 ≤ settings.valueCapacity) (hminterms : 0 ≤ settings.mintermCapacity)
    (hinfluences : 0 ≤ settings.influenceCapacity) (hmaps : 0 ≤ settings.mapCapacity) :
    ∃ bench, ofSettings settings = .ok bench ∧ ∀ calls : List (Call α),
      (bench.run truth calls).1 = calls.map (Call.fresh truth settings) ∧
      ∀ (call : Call α) (fault : Fault), call.fresh truth settings = .error fault →
        (call.perform truth (bench.run truth calls).2).2.stored
          = (bench.run truth calls).2.stored := by
  obtain ⟨bench, hbench, hsound⟩ := exists_ofSettings hchecked hvalues hminterms hinfluences hmaps
  refine ⟨bench, hbench, fun calls => ?_⟩
  obtain ⟨hanswers, hafter⟩ := hsound.run truth calls
  exact ⟨hanswers, fun call => (call.answers_perform truth hafter).stored_of_error⟩

/-- One entry for values and none for minterms: the second call is answered from the cache, although
the order of the assignment and the numbers for true are others; the third stores nothing. -/
theorem run_eq_fresh_of_one_entry :
    ∃ bench, ofSettings { valueCapacity := 1, mintermCapacity := 0 } = .ok bench ∧
      (bench.run (fun n : Int => n != 0)
        [.evaluate (.bin .and (.var "A") (.var "B")) [("A", 1), ("B", 2)],
          .evaluate (.bin .and (.var "A") (.var "B")) [("B", -1), ("A", 7)],
          .evaluate (.not .hole) [],
          .findMinterms (.bin .and (.var "A") (.var "B")) (some ["B", "A"]),
          .clear]).1
        = [.ok (.value true), .ok (.value true), .error (.malformed .missingNegand),
          .ok (.minterms [3]), .ok .cleared] := by
  obtain ⟨bench, hbench, hrun⟩ := run_eq_fresh (fun n : Int => n != 0)
    { valueCapacity := 1, mintermCapacity := 0 } rfl (by decide) (by decide) (by decide) (by decide)
  exact ⟨bench, hbench, (hrun _).1.trans rfl⟩

end Workbench

end SwitchingAlgebra
