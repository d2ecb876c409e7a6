/-
# Cubes

The points of a list of digits are the numbers whose bits agree with its fixed digits. They form a
cube with one dimension for each free digit.

* `Digit.InCube` says which points belong to a list of digits, `IsPrimeCube` which cubes are prime
  in a set;
* `inCube_set_free` splits a cube into halves, `merge?_eq_some_iff` says that merging is the
  converse;
* `inCube_ofMinterm`: the digits of a minterm have that point only;
* `IsPrimeCube.eq_of_subset`: a prime cube lies in no other cube of the set.
-/
import SwitchingAlgebra.Implicant.Basic
import SwitchingAlgebra.Proofs.Table.Rows

namespace SwitchingAlgebra.Digit

/-! ## Points of a cube -/

/-- The digit allows the bit. -/
def Admits : Digit → Bool → Prop
  | free, _ => True
  | zero, b => b = false
  | one, b => b = true

/-- The number is a point of the cube: it has a bit for each digit, and its bits agree with the
fixed ones. -/
def InCube (ds : List Digit) (m : Int) : Prop :=
  0 ≤ m ∧ m < 2 ^ ds.length ∧
    ∀ (place : Nat) (d : Digit), ds[place]? = some d → d.Admits (bitAt ds.length place m.toNat)

/-- A cube of `n` digits is prime in a set if it lies in the set, and no longer does when any fixed
digit is freed. -/
def IsPrimeCube (n : Nat) (S : Int → Prop) (ds : List Digit) : Prop :=
  ds.length = n ∧ (∀ m, InCube ds m → S m) ∧
    ∀ (place : Nat) (d : Digit), ds[place]? = some d → d ≠ free →
    ∃ m, InCube (ds.set place free) m ∧ ¬ S m

/-- Two different fixed digits allow both bits. -/
theorem admits_or_admits {d d' : Digit} (h : d ≠ d') (hd : d ≠ free) (hd' : d' ≠ free) (b : Bool) :
    d.Admits b ∨ d'.Admits b := by
  cases d <;> cases d' <;> cases b <;> simp_all [Admits]

/-- The points of a cube with one digit changed, by the other digits and the new one. -/
theorem inCube_set {ds : List Digit} {place : Nat} (hplace : place < ds.length)
    (d : Digit) (m : Int) : InCube (ds.set place d) m ↔ (0 ≤ m ∧ m < 2 ^ ds.length ∧
      ∀ (other : Nat) (e : Digit), other ≠ place → ds[other]? = some e →
      e.Admits (bitAt ds.length other m.toNat)) ∧
        d.Admits (bitAt ds.length place m.toNat) := by
  unfold InCube
  rw [List.length_set]
  constructor
  · rintro ⟨h0, hlt, hbits⟩
    refine ⟨⟨h0, hlt, fun other e hne he => hbits other e ?_⟩, hbits place d ?_⟩
    · rw [List.getElem?_set_ne (Ne.symm hne), he]
    · rw [List.getElem?_set_self hplace]
  · rintro ⟨⟨h0, hlt, hbits⟩, hd⟩
    refine ⟨h0, hlt, fun other e he => ?_⟩
    by_cases hother : other = place
    · subst hother
      rw [List.getElem?_set_self hplace] at he
      exact Option.some.inj he ▸ hd
    · rw [List.getElem?_set_ne (Ne.symm hother)] at he
      exact hbits other e hother he

/-- A cube with a digit set to what it was. -/
theorem set_getElem? {ds : List Digit} {place : Nat} {d : Digit} (h : ds[place]? = some d) :
    ds.set place d = ds := by
  obtain ⟨hlt, rfl⟩ := List.getElem?_eq_some_iff.mp h
  exact List.set_getElem_self hlt

/-- Freeing a digit joins the cubes of two different fixed digits at its place. -/
theorem inCube_set_free {ds : List Digit} {place : Nat} (hplace : place < ds.length) {d d' : Digit}
    (h : d ≠ d') (hd : d ≠ free) (hd' : d' ≠ free) (m : Int) :
    InCube (ds.set place free) m ↔ InCube (ds.set place d) m ∨ InCube (ds.set place d') m := by
  rw [inCube_set hplace, inCube_set hplace, inCube_set hplace, ← and_or_left]
  exact and_congr_right fun _ => iff_of_true trivial (admits_or_admits h hd hd' _)

/-- Every cube has a point. -/
theorem exists_inCube (ds : List Digit) : ∃ m, InCube ds m := by
  obtain ⟨i, hi, hbits⟩ := exists_row ds.length fun place => ds[place]? = some one
  refine ⟨i, Int.natCast_nonneg i, by exact_mod_cast hi, fun place d hd => ?_⟩
  have hplace : place < ds.length := (List.getElem?_eq_some_iff.mp hd).1
  rw [Int.toNat_natCast, hbits place hplace, hd]
  cases d <;> simp [Admits]

/-! ## Merging -/

/-- Lists of one length agree only if they are equal. -/
theorem agree_iff {xs ys : List Digit} (h : xs.length = ys.length) :
    agree xs ys = true ↔ xs = ys := by
  induction xs generalizing ys with
  | nil =>
    rw [List.eq_nil_of_length_eq_zero h.symm]
    simp [agree]
  | cons x xs ih =>
    cases ys with
    | nil => simp at h
    | cons y ys => simp [agree, ih (Nat.succ.inj h)]

/-- Merging succeeds exactly if the digits differ at one place, where both are fixed, and frees that
place. -/
theorem merge?_eq_some_iff {xs ys zs : List Digit} (h : xs.length = ys.length) :
    merge? xs ys = some zs ↔ ∃ place d d', xs[place]? = some d ∧ d ≠ d' ∧ d ≠ free ∧ d' ≠ free ∧
      ys = xs.set place d' ∧ zs = xs.set place free := by
  induction xs generalizing ys zs with
  | nil =>
    rw [List.eq_nil_of_length_eq_zero h.symm]
    simp [merge?]
  | cons x xs ih =>
    cases ys with
    | nil => simp at h
    | cons y ys =>
      have hlen : xs.length = ys.length := Nat.succ.inj h
      constructor
      · intro hmerge
        unfold merge? at hmerge
        split at hmerge
        · -- equal first digits: the place lies in the rest
          rename_i hxy
          obtain ⟨zs, hzs, rfl⟩ := Option.map_eq_some_iff.mp hmerge
          obtain ⟨place, d, d', hd, hne, hfree, hfree', rfl, rfl⟩ := (ih hlen).mp hzs
          exact ⟨place + 1, d, d', hd, hne, hfree, hfree', by rw [List.set_cons_succ, hxy], rfl⟩
        · -- different first digits: this is the place, and the rest must be equal
          rename_i hxy
          split at hmerge
          · simp at hmerge
          · rename_i hfree
            simp only [Bool.or_eq_true, decide_eq_true_eq, not_or] at hfree
            simp only [Option.ite_none_right_eq_some, Option.some.injEq, agree_iff hlen] at hmerge
            obtain ⟨rfl, rfl⟩ := hmerge
            exact ⟨0, x, y, rfl, hxy, hfree.1, hfree.2, rfl, rfl⟩
      · rintro ⟨place, d, d', hd, hne, hfree, hfree', hys, rfl⟩
        cases place with
        | zero =>
          obtain rfl : x = d := Option.some.inj hd
          obtain ⟨rfl, rfl⟩ := List.cons.inj hys
          unfold merge?
          rw [if_neg hne, if_neg (by simp [hfree, hfree']), if_pos ((agree_iff rfl).mpr rfl)]
          rfl
        | succ place =>
          rw [List.set_cons_succ] at hys
          obtain ⟨rfl, rfl⟩ := List.cons.inj hys
          unfold merge?
          rw [if_pos rfl, (ih (by simp)).mpr ⟨place, d, d', hd, hne, hfree, hfree', rfl, rfl⟩]
          rfl

/-! ## Digits of a minterm -/

/-- The digits of a minterm are its bits. -/
theorem ofMinterm_eq {n : Nat} {m : Int} (h0 : 0 ≤ m) (hlt : m < 2 ^ n) :
    ofMinterm n m = (List.range n).map fun place => ofBit (bitAt n place m.toNat) := by
  obtain ⟨k, rfl⟩ := Int.eq_ofNat_of_zero_le h0
  have hk : k < 2 ^ n := by exact_mod_cast hlt
  cases n with
  | zero => rfl
  | succ n =>
    have hlog : k.log2 + 1 ≤ n + 1 := by
      by_cases hk0 : k = 0
      · subst hk0
        simp
      · have := (Nat.log2_lt hk0).mpr hk
        omega
    have hneg : ¬ ((k : Int) < 0) := by omega
    unfold ofMinterm binary
    rw [if_neg (by omega), if_neg hneg]
    apply List.ext_getElem
    · simp
      omega
    · -- the leading places are filled up with zeros, which the number has there as well
      intro place h1 h2
      simp only [List.length_map, List.length_range] at h2
      simp only [List.nil_append, List.length_nil, List.length_map, List.length_reverse,
        List.length_range, Int.natAbs_natCast, Int.toNat_natCast, List.getElem_map,
        List.getElem_range]
      rw [List.getElem_append]
      split
      · rename_i hplace
        simp only [List.length_replicate] at hplace
        have hbit : k.testBit (n - place) = false := by
          apply Nat.testBit_lt_two_pow
          exact Nat.lt_of_lt_of_le Nat.lt_log2_self (Nat.pow_le_pow_right (by decide) (by omega))
        simp [bitAt, hbit, ofBit]
      · rename_i hplace
        simp only [List.length_replicate] at hplace
        simp only [List.getElem_map, List.getElem_reverse, List.getElem_range, List.length_range,
          List.length_replicate, bitAt]
        congr 2
        omega

theorem length_ofMinterm {n : Nat} {m : Int} (h0 : 0 ≤ m) (hlt : m < 2 ^ n) :
    (ofMinterm n m).length = n := by
  simp [ofMinterm_eq h0 hlt]

theorem getElem?_ofMinterm {n : Nat} {m : Int} (h0 : 0 ≤ m) (hlt : m < 2 ^ n) {place : Nat}
    (hplace : place < n) : (ofMinterm n m)[place]? = some (ofBit (bitAt n place m.toNat)) := by
  simp [ofMinterm_eq h0 hlt, List.getElem?_range hplace]

/-- The digits of a minterm are fixed. -/
theorem count_free_ofMinterm {n : Nat} {m : Int} (h0 : 0 ≤ m) (hlt : m < 2 ^ n) :
    (ofMinterm n m).count free = 0 := by
  rw [ofMinterm_eq h0 hlt, List.count_eq_zero]
  intro hmem
  obtain ⟨place, _, h⟩ := List.mem_map.mp hmem
  revert h
  cases bitAt n place m.toNat <;> simp [ofBit]

theorem admits_ofBit {b c : Bool} : (ofBit b).Admits c ↔ c = b := by
  cases b <;> simp [ofBit, Admits]

/-- The digits of a minterm have that point only. -/
theorem inCube_ofMinterm {n : Nat} {m x : Int} (h0 : 0 ≤ m) (hlt : m < 2 ^ n) :
    InCube (ofMinterm n m) x ↔ x = m := by
  unfold InCube
  rw [length_ofMinterm h0 hlt]
  constructor
  · rintro ⟨hx0, hxlt, hbits⟩
    have hrow : x.toNat = m.toNat := by
      apply row_ext (n := n)
      · exact (Int.toNat_lt hx0).mpr (by exact_mod_cast hxlt)
      · exact (Int.toNat_lt h0).mpr (by exact_mod_cast hlt)
      · exact fun place hplace => admits_ofBit.mp (hbits place _ (getElem?_ofMinterm h0 hlt hplace))
    omega
  · rintro rfl
    refine ⟨h0, hlt, fun place d hd => ?_⟩
    have hplace : place < n := by
      rw [← length_ofMinterm h0 hlt]
      exact (List.getElem?_eq_some_iff.mp hd).1
    rw [getElem?_ofMinterm h0 hlt hplace] at hd
    exact Option.some.inj hd ▸ admits_ofBit.mpr rfl

/-- A cube without free digits has the digits of any of its points. -/
theorem eq_ofMinterm_of_inCube {ds : List Digit} {m : Int} (hfree : ds.count free = 0)
    (hm : InCube ds m) : ds = ofMinterm ds.length m := by
  obtain ⟨h0, hlt, hbits⟩ := hm
  apply List.ext_getElem?
  intro place
  by_cases hplace : place < ds.length
  · rw [getElem?_ofMinterm h0 hlt hplace]
    have hd : ds[place]? = some ds[place] := List.getElem?_eq_getElem hplace
    have hadmits := hbits place _ hd
    have hne : ds[place] ≠ free :=
      fun heq => List.count_eq_zero.mp hfree (heq ▸ List.getElem_mem hplace)
    rw [hd]
    revert hadmits hne
    cases ds[place] <;> cases bitAt ds.length place m.toNat <;> simp [Admits, ofBit]
  · rw [List.getElem?_eq_none (by omega), List.getElem?_eq_none]
    rw [length_ofMinterm h0 hlt]
    omega

/-! ## Cubes in cubes -/

/-- Every bit that a digit of a cube admits is the bit of a point. -/
theorem exists_inCube_of_admits {ds : List Digit} {place : Nat} {d : Digit}
    (hd : ds[place]? = some d) {b : Bool} (hb : d.Admits b) :
    ∃ m, InCube ds m ∧ bitAt ds.length place m.toNat = b := by
  have hplace : place < ds.length := (List.getElem?_eq_some_iff.mp hd).1
  obtain ⟨m, hm⟩ := exists_inCube (ds.set place (ofBit b))
  obtain ⟨hothers, hbit⟩ := (inCube_set hplace _ m).mp hm
  have hvalue := admits_ofBit.mp hbit
  refine ⟨m, ?_, hvalue⟩
  rw [← set_getElem? hd]
  exact (inCube_set hplace d m).mpr ⟨hothers, hvalue ▸ hb⟩

/-- A cube that lies in another one admits fewer bits at every place. -/
theorem admits_of_subset {ds ds' : List Digit} (hlength : ds'.length = ds.length)
    (hsubset : ∀ m, InCube ds m → InCube ds' m) {place : Nat} {d d' : Digit}
    (hd : ds[place]? = some d) (hd' : ds'[place]? = some d') {b : Bool} (hb : d.Admits b) :
    d'.Admits b := by
  obtain ⟨m, hm, rfl⟩ := exists_inCube_of_admits hd hb
  rw [← hlength]
  exact (hsubset m hm).2.2 place d' hd'

/-- A digit that admits no fewer bits is free or the same. -/
theorem eq_free_or_eq_of_admits {d d' : Digit} (h : ∀ b, d.Admits b → d'.Admits b) :
    d' = free ∨ d' = d := by
  have hfalse := h false
  have htrue := h true
  cases d <;> cases d' <;> simp_all [Admits]

/-- A prime cube lies in no other cube that lies in the set. -/
theorem IsPrimeCube.eq_of_subset {n : Nat} {S : Int → Prop} {ds ds' : List Digit}
    (h : IsPrimeCube n S ds) (hlength : ds'.length = n) (hinside : ∀ m, InCube ds' m → S m)
    (hsubset : ∀ m, InCube ds m → InCube ds' m) : ds' = ds := by
  obtain ⟨hn, -, hprime⟩ := h
  have hlengths : ds'.length = ds.length := hlength.trans hn.symm
  refine List.ext_getElem hlengths fun place hplace' hplace => ?_
  have hd := List.getElem?_eq_getElem hplace
  have hd' := List.getElem?_eq_getElem hplace'
  rcases eq_free_or_eq_of_admits fun b => admits_of_subset hlengths hsubset hd hd' with hfree | heq
  · by_contra hne
    -- with the digit freed the cube would still lie in the other one
    obtain ⟨m, hm, hout⟩ := hprime place _ hd fun heq => hne (hfree.trans heq.symm)
    obtain ⟨⟨h0, hlt, hothers⟩, -⟩ := (inCube_set hplace free m).mp hm
    refine hout (hinside m ⟨h0, hlengths ▸ hlt, fun other e he => ?_⟩)
    by_cases hother : other = place
    · subst hother
      rw [hd', hfree] at he
      exact Option.some.inj he ▸ trivial
    · have hlt' : other < ds.length := hlengths ▸ (List.getElem?_eq_some_iff.mp he).1
      rw [hlengths]
      exact admits_of_subset hlengths hsubset (List.getElem?_eq_getElem hlt') he
        (hothers other _ hother (List.getElem?_eq_getElem hlt'))
  · exact heq

end SwitchingAlgebra.Digit
