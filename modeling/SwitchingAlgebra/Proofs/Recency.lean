/-
# What caches answer

A cache is sound if every stored value is the one that would be computed for its key. Looking up,
storing and giving up entries keep that, so a sound cache only ever answers what is computed without
it.

* `Recency.Sound` is the invariant, `Sound.fetch` its step;
* `Sound.fetch_fst`: the answer of a sound cache;
* `Sound.entries_fetch_of_error`: a failed computation stores nothing.
-/
import SwitchingAlgebra.Recency

namespace SwitchingAlgebra

namespace Recency

variable {κ ν ε : Type}

/-- Every stored value is the one that `fresh` gives for its key. -/
def Sound (fresh : κ → Except ε ν) (cache : Recency κ ν) : Prop :=
  ∀ entry ∈ cache.entries, fresh entry.1 = .ok entry.2

theorem sound_clear (fresh : κ → Except ε ν) (cache : Recency κ ν) : Sound fresh cache.clear :=
  fun _ h => nomatch h

/-- There is an empty cache for every capacity that is not negative. -/
theorem ofCapacity_eq {capacity : Int} (h : 0 ≤ capacity) :
    ofCapacity capacity = .ok ({ capacity := capacity.toNat } : Recency κ ν) := by
  unfold ofCapacity
  rw [if_neg (Int.not_lt.mpr h)]

/-- A new cache is sound, and there is one for every capacity that is not negative. -/
theorem exists_ofCapacity (fresh : κ → Except ε ν) {capacity : Int} (h : 0 ≤ capacity) :
    ∃ cache : Recency κ ν, ofCapacity capacity = .ok cache ∧ Sound fresh cache :=
  ⟨{ capacity := capacity.toNat }, ofCapacity_eq h, fun _ hentry => nomatch hentry⟩

variable [DecidableEq κ]

/-- What is looked up in a cache is stored in it. -/
theorem mem_of_peek? {cache : Recency κ ν} {key : κ} {value : ν}
    (h : cache.peek? key = some value) : (key, value) ∈ cache.entries := by
  obtain ⟨before, after, hentries, -⟩ := List.lookup_eq_some_iff.mp h
  rw [hentries]
  exact List.mem_append_right before List.mem_cons_self

/-- Touching a key leaves the entries of the other keys and brings in its own. -/
theorem mem_touch_iff {cache : Recency κ ν} {key : κ} {value : ν} {entry : κ × ν} :
    entry ∈ cache.touch key value ↔ (entry ∈ cache.entries ∧ entry.1 ≠ key) ∨
      entry = (key, value) := by
  rw [touch, List.mem_append, List.mem_filter, List.mem_singleton, decide_eq_true_eq]

/-- Touching an entry brings in nothing but that entry. -/
theorem mem_touch {cache : Recency κ ν} {key : κ} {value : ν} {entry : κ × ν}
    (h : entry ∈ cache.touch key value) : entry ∈ cache.entries ∨ entry = (key, value) :=
  (mem_touch_iff.mp h).imp_left And.left

namespace Sound

variable {fresh : κ → Except ε ν} {cache : Recency κ ν} {key : κ}

/-- A looked-up value is the one that would be computed. -/
theorem of_peek? (h : Sound fresh cache) {value : ν} (hpeek : cache.peek? key = some value) :
    fresh key = .ok value :=
  h (key, value) (mem_of_peek? hpeek)

/-- Looking up keeps a cache sound: the entry that moves was there before. -/
theorem find (h : Sound fresh cache) (key : κ) : Sound fresh (cache.find key).2 := by
  unfold Recency.find
  split
  · rename_i value hpeek
    intro entry hentry
    rcases mem_touch hentry with hentry | rfl
    · exact h entry hentry
    · exact h.of_peek? hpeek
  · exact h

/-- Storing a computed value keeps a cache sound, whichever entries are given up for it. -/
theorem put (h : Sound fresh cache) {value : ν} (hvalue : fresh key = .ok value) :
    Sound fresh (cache.put key value) := by
  unfold Recency.put
  split
  · exact h
  · intro entry hentry
    rcases mem_touch (List.mem_of_mem_drop hentry) with hentry | rfl
    · exact h entry hentry
    · exact hvalue

variable {compute : Unit → Except ε ν}

/-- A sound cache answers what is computed without it. -/
theorem fetch_fst (h : Sound fresh cache) (hcompute : compute () = fresh key) :
    (cache.fetch key compute).1 = fresh key := by
  unfold Recency.fetch fetchWith Recency.find
  cases hpeek : cache.peek? key with
  | some value => exact (h.of_peek? hpeek).symm
  | none =>
    rw [← hcompute]
    dsimp only
    cases compute () with
    | ok value => rfl
    | error fault => rfl

/-- Answering keeps a cache sound. -/
theorem fetch (h : Sound fresh cache) (hcompute : compute () = fresh key) :
    Sound fresh (cache.fetch key compute).2 := by
  have hfind := h.find key
  unfold Recency.fetch fetchWith
  cases hfound : cache.find key with
  | mk found next =>
    rw [hfound] at hfind
    cases found with
    | some value => exact hfind
    | none =>
      dsimp only
      cases hresult : compute () with
      | ok value => exact hfind.put (hcompute.symm.trans hresult)
      | error fault => exact hfind

/-- A failed computation leaves the stored entries as they were: its key had none. -/
theorem entries_fetch_of_error (h : Sound fresh cache)
    (hcompute : compute () = fresh key) {fault : ε} (hfault : compute () = .error fault) :
    (cache.fetch key compute).2.entries = cache.entries := by
  have hnone : cache.peek? key = none := by
    cases hpeek : cache.peek? key with
    | none => rfl
    | some value => exact nomatch (h.of_peek? hpeek).symm.trans (hcompute.symm.trans hfault)
  unfold Recency.fetch fetchWith Recency.find
  simp only [hnone, hfault]

end Sound

end Recency

end SwitchingAlgebra
