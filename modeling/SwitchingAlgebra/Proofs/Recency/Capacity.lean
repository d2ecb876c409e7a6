/-
# The capacity of caches

What a cache stores is determined by what was touched, and with more room it stores more: if values
are only fetched, the larger of two caches holds all keys of the smaller one in the same order, so
it finds at least as many.

* `Includes` relates a smaller cache to a larger one, `Includes.fetch` is its step and
  `Includes.fetchAll` its run;
* `serves_latest` says both, for all requests and all capacities.
-/
import SwitchingAlgebra.Proofs.Recency.History

namespace SwitchingAlgebra

namespace Recency

variable {κ ν ε : Type}

/-- Giving up no more items of a longer list keeps it longer. -/
theorem rtake_sublist_rtake {xs ys : List κ} {m n : Nat} (h : xs.Sublist ys)
    (hle : ys.length - n ≤ xs.length - m) : (xs.rtake m).Sublist (ys.rtake n) :=
  (h.drop _).trans (List.drop_sublist_drop_left ys hle)

/-- Adding an item to a full list gives up another one. -/
theorem length_rtake_concat {xs : List κ} {x : κ} {n : Nat} (h : xs.length = n) :
    ((xs ++ [x]).rtake n).length = n := by
  rw [List.rtake, List.length_drop, List.length_append, List.length_singleton, h]
  omega

variable [DecidableEq κ]

/-- Moving a key to the end keeps a list part of another. -/
theorem moved_sublist_moved {xs ys : List κ} (h : xs.Sublist ys) (key : κ) :
    (moved key xs).Sublist (moved key ys) :=
  (h.filter _).append (List.Sublist.refl [key])

/-- A key that is new is added. -/
theorem moved_of_not_mem {key : κ} {keys : List κ} (h : key ∉ keys) :
    moved key keys = keys ++ [key] := by
  rw [moved, List.filter_eq_self.mpr fun x hx => decide_eq_true (ne_of_mem_of_not_mem hx h)]

/-! ## Fetching -/

section
variable {m n : Nat} {small large : Recency κ ν} {history history' : List (Event κ ν)}

/-- Fetching a value that is stored moves its key to the end. -/
theorem fetch_of_mem {cache : Recency κ ν} {key : κ} (h : key ∈ cache.keys) (outcome : Except ε ν) :
    (cache.fetch key fun _ => outcome).2.keys = moved key cache.keys ∧
      (cache.fetch key fun _ => outcome).2.hits = cache.hits + 1 := by
  have hkeys := keys_find cache key
  obtain ⟨value, hpeek⟩ := Option.isSome_iff_exists.mp (mem_keys_iff.mp h)
  rw [if_pos h] at hkeys
  unfold fetch fetchWith
  unfold find at hkeys ⊢
  simp only [hpeek] at hkeys ⊢
  exact ⟨hkeys, trivial⟩

/-- Fetching a missing value puts it, if it can be computed. -/
theorem fetch_of_not_mem {cache : Recency κ ν} {key : κ} (h : key ∉ cache.keys)
    (hroom : cache.keys.length ≤ cache.capacity) (outcome : Except ε ν) :
    (cache.fetch key fun _ => outcome).2.keys =
        (if outcome.isOk then (cache.keys ++ [key]).rtake cache.capacity else cache.keys) ∧
      (cache.fetch key fun _ => outcome).2.hits = cache.hits := by
  have hpeek : cache.peek? key = none := by
    rwa [mem_keys_iff, Option.not_isSome_iff_eq_none] at h
  unfold fetch fetchWith find
  simp only [hpeek]
  cases outcome with
  | error e => exact ⟨rfl, rfl⟩
  | ok value =>
    have hmisses : ({ cache with misses := cache.misses + 1 } : Recency κ ν).keys.length
      ≤ cache.capacity := hroom
    have hkeys := keys_put hmisses key value
    refine ⟨hkeys.trans ?_, (put_frame _ key value).2.1⟩
    exact congrArg (List.rtake · cache.capacity) (moved_of_not_mem h)

/-- The larger of two caches holds the keys of the smaller one in the same order, and has found as
many or more. Either both hold the same keys, or the smaller one is full. -/
structure Includes (small large : Recency κ ν) : Prop where
  sublist : small.keys.Sublist large.keys
  full : small.keys = large.keys ∨ small.keys.length = small.capacity
  hits_le : small.hits ≤ large.hits

/-- **Fetching keeps all keys of the smaller cache in the larger one.** -/
theorem Includes.fetch (h : Includes small large) (hmn : m ≤ n) (hsmall : Reflects m small history)
    (hlarge : Reflects n large history') (key : κ) (outcome : Except ε ν) :
    Includes (small.fetch key fun _ => outcome).2 (large.fetch key fun _ => outcome).2 := by
  have hcapacity : (small.fetch key fun _ => outcome).2.capacity = m :=
    (hsmall.serve (.fetch key [] outcome)).capacity_eq
  have hroom : small.keys.length ≤ small.capacity := hsmall.capacity_eq.symm ▸ hsmall.length_keys_le
  have hroom' : large.keys.length ≤ large.capacity :=
    hlarge.capacity_eq.symm ▸ hlarge.length_keys_le
  by_cases hmem : key ∈ small.keys
  · -- both caches find the key
    obtain ⟨hkeys, hhits⟩ := fetch_of_mem hmem outcome
    obtain ⟨hkeys', hhits'⟩ := fetch_of_mem (h.sublist.subset hmem) outcome
    refine ⟨?_, ?_, ?_⟩
    · rw [hkeys, hkeys']
      exact moved_sublist_moved h.sublist key
    · rw [hkeys, hkeys', hcapacity, length_moved_of_mem hsmall.nodup_keys hmem,
        ← hsmall.capacity_eq]
      exact h.full.imp_left (congrArg _)
    · rw [hhits, hhits']
      exact Nat.succ_le_succ h.hits_le
  obtain ⟨hkeys, hhits⟩ := fetch_of_not_mem hmem hroom outcome
  by_cases hmem' : key ∈ large.keys
  · -- only the larger one finds it, so the smaller one is full
    obtain ⟨hkeys', hhits'⟩ := fetch_of_mem hmem' outcome
    have hfull := h.full.resolve_left fun heq => hmem (heq ▸ hmem')
    have hmoved : (small.keys ++ [key]).Sublist (moved key large.keys) :=
      moved_of_not_mem hmem ▸ moved_sublist_moved h.sublist key
    refine ⟨?_, Or.inr ?_, ?_⟩
    · rw [hkeys, hkeys']
      split
      · exact (List.drop_sublist _ _).trans hmoved
      · exact (List.sublist_append_left _ _).trans hmoved
    · rw [hkeys, hcapacity, ← hsmall.capacity_eq]
      split
      · exact length_rtake_concat hfull
      · exact hfull
    · rw [hhits, hhits']
      exact h.hits_le.trans (Nat.le_succ _)
  · -- neither finds it
    obtain ⟨hkeys', hhits'⟩ := fetch_of_not_mem hmem' hroom' outcome
    rw [hsmall.capacity_eq] at hkeys hroom
    rw [hlarge.capacity_eq] at hkeys' hroom'
    have hfull : small.keys = large.keys ∨ small.keys.length = m := hsmall.capacity_eq ▸ h.full
    refine ⟨?_, ?_, ?_⟩
    · rw [hkeys, hkeys']
      split
      · refine rtake_sublist_rtake (h.sublist.append_right [key]) ?_
        rw [List.length_append, List.length_append, List.length_singleton]
        rcases hfull with heq | hfull
        · rw [heq]
          omega
        · omega
      · exact h.sublist
    · rw [hkeys, hkeys', hcapacity]
      split
      · rcases hroom.lt_or_eq with hlt | hfull'
        · -- no key was given up so far, and none is now
          have heq := hfull.resolve_right hlt.ne
          left
          rw [← heq, rtake_eq_self, rtake_eq_self]
          all_goals
            rw [List.length_append, List.length_singleton]
            omega
        · exact Or.inr (length_rtake_concat hfull')
      · exact hfull
    · rw [hhits, hhits']
      exact h.hits_le

/-- The request for a value whose computation does not use the cache. -/
def fetching (fetch : κ × Except ε ν) : Request κ ν ε :=
  .fetch fetch.1 [] fetch.2

/-- If values are only fetched, the larger cache goes on holding the keys of the smaller one. -/
theorem Includes.fetchAll (h : Includes small large) (hmn : m ≤ n)
    (hsmall : Reflects m small history) (hlarge : Reflects n large history')
    (fetches : List (κ × Except ε ν)) :
    Includes (small.serveAll (fetches.map fetching)) (large.serveAll (fetches.map fetching)) := by
  induction fetches generalizing small large history history' with
  | nil => exact h
  | cons fetch fetches ih =>
    exact ih (h.fetch hmn hsmall hlarge fetch.1 fetch.2) (hsmall.serve (fetching fetch))
      (hlarge.serve (fetching fetch))

end

/-- **A cache stores what was touched last.** For every capacity that is not negative there is an
empty cache. After any requests, its keys are the different keys touched since it was cleared, each
once in the order of their last touch, as many of the latest as there is room for. A stored key is
found with the value that was put last for it, and every lookup of the history was answered in this
way; hits and misses are the lookups since the cache was cleared. A cache of a larger capacity finds
at least as many keys, if values are only fetched and their computations make no requests of their
own, so that both caches get the same ones. -/
theorem serves_latest {capacity : Int} (hcapacity : 0 ≤ capacity) :
    ∃ empty : Recency κ ν, ofCapacity capacity = .ok empty ∧
      (∀ requests : List (Request κ ν ε),
        let cache := empty.serveAll requests
        let history := empty.eventsOfAll requests
        cache.keys = latest capacity.toNat (touches history) ∧ cache.keys.Nodup ∧
        (∀ key, cache.contains key = true ↔ key ∈ cache.keys) ∧
        (∀ key ∈ cache.keys, ∃ value, lastPut? key history = some value ∧
          (cache.find key).1 = some value ∧
          ∀ compute : Recency κ ν → Except ε ν × Recency κ ν,
            (cache.fetchWith key compute).1 = .ok value) ∧
        (∀ key, key ∉ cache.keys → (cache.find key).1 = none) ∧
        (∀ earlier key found, earlier ++ [.lookup key found] <+: history →
          found = answer? capacity.toNat earlier key) ∧
        cache.hits + cache.misses = (sinceClear history).countP Event.isLookup) ∧
      ∀ larger : Int, capacity ≤ larger → ∃ roomy : Recency κ ν, ofCapacity larger = .ok roomy ∧
        ∀ fetches : List (κ × Except ε ν),
          (empty.serveAll (fetches.map fetching)).hits
            ≤ (roomy.serveAll (fetches.map fetching)).hits := by
  refine ⟨_, ofCapacity_eq hcapacity, fun requests => ?_,
    fun larger hlarger => ⟨_, ofCapacity_eq (by omega), ?_⟩⟩
  · intro cache history
    have h : Reflects capacity.toNat cache history :=
      (Reflects.new capacity.toNat).serveAll requests
    refine ⟨h.keys_eq, h.nodup_keys, fun key => ?_, fun key hkey => ?_, fun key hkey => ?_,
      h.answered, ?_⟩
    · simp [contains, keys]
    · obtain ⟨value, hpeek⟩ := Option.isSome_iff_exists.mp (mem_keys_iff.mp hkey)
      have hput := h.values _ (mem_of_peek? hpeek)
      refine ⟨value, hput, ?_, fun compute => ?_⟩
      · rw [find, hpeek]
      · rw [fetchWith, find, hpeek]
    · rw [h.find_fst, answer?, ← h.keys_eq, if_neg hkey]
    · rw [Event.countP_isLookup, ← h.hits_eq, ← h.misses_eq]
  · intro fetches
    have hsmall : Reflects capacity.toNat ({ capacity := capacity.toNat } : Recency κ ν) [] :=
      Reflects.new _
    have hlarge : Reflects larger.toNat ({ capacity := larger.toNat } : Recency κ ν) [] :=
      Reflects.new _
    have hincludes :
        Includes ({ capacity := capacity.toNat } : Recency κ ν) { capacity := larger.toNat } :=
      ⟨List.Sublist.refl _, Or.inl rfl, le_rfl⟩
    exact (hincludes.fetchAll (Int.toNat_le_toNat hlarger) hsmall hlarge fetches).hits_le

/-- Room for two entries: a lookup keeps one of them, and a computation that uses the cache puts
another one first. -/
theorem serves_latest_of_nested :
    (0 : Int) ≤ 2 ∧ (2 : Int) ≤ 3 ∧ ∃ empty : Recency Nat Nat, ofCapacity 2 = .ok empty ∧
      (empty.serveAll ([.put 1 10, .put 2 20, .find 1,
        .fetch 3 [.fetch 4 [] (.ok 40), .find 1] (.ok 30)] :
        List (Request Nat Nat Unit))).keys = [1, 3] ∧
      ∃ roomy : Recency Nat Nat, ofCapacity 3 = .ok roomy ∧
        (empty.serveAll ([(1, .ok 10), (2, .ok 20), (3, .error ()), (3, .ok 30),
            (1, .ok 10)].map fetching)).hits ≤
          (roomy.serveAll ([(1, .ok 10), (2, .ok 20), (3, .error ()), (3, .ok 30),
            (1, .ok 10)].map fetching)).hits := by
  obtain ⟨empty, hempty, hserves, hlarger⟩ :=
    serves_latest (κ := Nat) (ν := Nat) (ε := Unit) (show (0 : Int) ≤ 2 by decide)
  obtain ⟨roomy, hroomy, hhits⟩ := hlarger 3 (by decide)
  refine ⟨by decide, by decide, empty, hempty, (hserves _).1.trans ?_, roomy, hroomy, hhits _⟩
  cases (ofCapacity_eq (show (0 : Int) ≤ 2 by decide)).symm.trans hempty
  decide

end Recency

end SwitchingAlgebra
