/-
# What caches remember

What a cache stores can be read off its history. A key is touched when an entry is put for it and
when it is looked up and found. The keys of a cache are the most recently touched ones, as many as
there is room for, and the value of each is the one that was put last.

* `Event` is what happens to a cache, `Request` what it is asked for, where a computation may use
  the cache itself;
* `latest` are the most recently touched keys of a history;
* `Reflects` is what a history says of a cache, `Reflects.find`, `put` and `clear` are its steps;
* `Reflects.serveAll` is the run.
-/
import Mathlib.Data.List.DropRight
import Mathlib.Data.List.Nodup
import SwitchingAlgebra.Expr.Chain
import SwitchingAlgebra.Proofs.Recency

namespace SwitchingAlgebra

namespace Recency

variable {κ ν ε : Type}

/-! ## Histories -/

/-- What happens to a cache: a key is looked up, with the value that is found, an entry is put, or
all entries are removed. -/
inductive Event (κ ν : Type) where
  | lookup (key : κ) (found : Option ν)
  | put (key : κ) (value : ν)
  | clear

namespace Event

/-- Whether all entries are removed. -/
def isClear : Event κ ν → Bool
  | clear => true
  | _ => false

/-- Whether a key is looked up and found. -/
def isHit : Event κ ν → Bool
  | lookup _ found => found.isSome
  | _ => false

/-- Whether a key is looked up and not found. -/
def isMiss : Event κ ν → Bool
  | lookup _ found => found.isNone
  | _ => false

/-- Whether a key is looked up. -/
def isLookup : Event κ ν → Bool
  | lookup _ _ => true
  | _ => false

/-- The key that is touched: one that is put, or that is looked up and found. -/
def touched? : Event κ ν → Option κ
  | lookup key (some _) | put key _ => some key
  | _ => none

/-- The value that is put for a key. -/
def putFor? [DecidableEq κ] (key : κ) : Event κ ν → Option ν
  | put other value => if other = key then some value else none
  | _ => none

/-- A lookup finds its key or not. -/
theorem countP_isLookup (events : List (Event κ ν)) :
    events.countP isLookup = events.countP isHit + events.countP isMiss := by
  induction events with
  | nil => rfl
  | cons event events ih =>
    rw [List.countP_cons, List.countP_cons, List.countP_cons, ih]
    rcases event with ⟨_, _ | _⟩ | _ | _ <;> simp [isLookup, isHit, isMiss] <;> omega

end Event

/-- What happened since all entries were removed the last time. -/
def sinceClear (history : List (Event κ ν)) : List (Event κ ν) :=
  history.rtakeWhile fun event => !event.isClear

/-- The keys touched since then, with repetitions, the latest at the end. -/
def touches (history : List (Event κ ν)) : List κ :=
  (sinceClear history).filterMap Event.touched?

/-- Nothing but a removal of all entries ends what happened since the last one. -/
theorem sinceClear_concat (history : List (Event κ ν)) (event : Event κ ν) :
    sinceClear (history ++ [event]) = if event.isClear then []
      else sinceClear history ++ [event] := by
  unfold sinceClear
  rw [List.rtakeWhile_concat]
  cases event.isClear <;> rfl

/-- A further event touches one key or none. -/
theorem touches_concat (history : List (Event κ ν)) {event : Event κ ν}
    (h : event.isClear = false) :
    touches (history ++ [event]) = touches history ++ event.touched?.toList := by
  unfold touches
  rw [sinceClear_concat, h]
  simp only [Bool.false_eq_true, if_false, List.filterMap_append, List.filterMap_cons,
    List.filterMap_nil]
  cases event.touched? <;> rfl

theorem rtake_eq_self {n : Nat} {keys : List κ} (h : keys.length ≤ n) : keys.rtake n = keys := by
  rw [List.rtake, Nat.sub_eq_zero_of_le h, List.drop_zero]

variable [DecidableEq κ]

/-- The last `n` different keys, each at its last place. -/
def latest (n : Nat) (keys : List κ) : List κ :=
  ((distinct keys.reverse).take n).reverse

/-- The value that was put last for a key. -/
def lastPut? (key : κ) (history : List (Event κ ν)) : Option ν :=
  (history.filterMap (Event.putFor? key)).getLast?

/-! ## The latest keys -/

/-- A touched key moves to the end. -/
def moved (key : κ) (keys : List κ) : List κ :=
  keys.filter (· ≠ key) ++ [key]

theorem nodup_latest (n : Nat) (keys : List κ) : (latest n keys).Nodup :=
  List.nodup_reverse.mpr ((List.take_sublist n _).nodup (nodup_distinct _))

theorem length_latest_le (n : Nat) (keys : List κ) : (latest n keys).length ≤ n := by
  rw [latest, List.length_reverse]
  exact List.length_take_le n _

/-- Leaving out an item before or after taking some is the same but for the last one taken. -/
theorem take_filter_take {key : κ} {keys : List κ} (h : keys.Nodup) (n : Nat) :
    ((keys.take (n + 1)).filter (· ≠ key)).take n = (keys.filter (· ≠ key)).take n := by
  induction keys generalizing n with
  | nil => rfl
  | cons other keys ih =>
    obtain ⟨hother, hkeys⟩ := List.nodup_cons.mp h
    rw [List.take_succ_cons]
    by_cases heq : other = key
    · subst heq
      have hfilter {xs : List κ} (hsub : xs ⊆ keys) : xs.filter (· ≠ other) = xs :=
        List.filter_eq_self.mpr fun x hx => decide_eq_true (ne_of_mem_of_not_mem (hsub hx) hother)
      rw [List.filter_cons_of_neg (by simp), List.filter_cons_of_neg (by simp),
        hfilter (List.take_subset n keys), hfilter (List.Subset.refl keys),
        List.take_take, min_self]
    · rw [List.filter_cons_of_pos (by simpa using heq),
        List.filter_cons_of_pos (by simpa using heq)]
      cases n with
      | zero => rfl
      | succ n => rw [List.take_succ_cons, List.take_succ_cons, ih hkeys]

/-- A touched key moves to the end of the latest keys; the one that was touched first goes where
there is no room for it. -/
theorem latest_concat (n : Nat) (keys : List κ) (key : κ) :
    latest n (keys ++ [key]) = (moved key (latest n keys)).rtake n := by
  have hrtake (xs : List κ) : (xs.reverse ++ [key]).rtake n = ((key :: xs).take n).reverse := by
    rw [← List.reverse_cons, List.rtake_eq_reverse_take_reverse, List.reverse_reverse]
  rw [moved, latest, latest, List.filter_reverse, hrtake, List.reverse_append,
    List.reverse_singleton, List.singleton_append, distinct]
  cases n with
  | zero => rfl
  | succ n => rw [List.take_succ_cons, List.take_succ_cons, take_filter_take (nodup_distinct _)]

/-! ## Requests -/

/-- What a cache is asked for. The computation of a missing value makes requests itself before it
gives the value, or fails. -/
inductive Request (κ ν ε : Type) where
  | find (key : κ)
  | put (key : κ) (value : ν)
  | fetch (key : κ) (inner : List (Request κ ν ε)) (outcome : Except ε ν)
  | clear

mutual

/-- The cache after a request. -/
def serve (cache : Recency κ ν) : Request κ ν ε → Recency κ ν
  | .find key => (cache.find key).2
  | .put key value => cache.put key value
  | .fetch key inner outcome => (cache.fetchWith key fun cache => (outcome, cache.serveAll inner)).2
  | .clear => cache.clear

/-- The cache after some requests. -/
def serveAll (cache : Recency κ ν) : List (Request κ ν ε) → Recency κ ν
  | [] => cache
  | request :: requests => (cache.serve request).serveAll requests

end

mutual

/-- What a request makes happen. Where a value is fetched and missing, the requests of its
computation come next, and then the value is put, if there is one. -/
def eventsOf (cache : Recency κ ν) : Request κ ν ε → List (Event κ ν)
  | .find key => [.lookup key (cache.find key).1]
  | .put key value => [.put key value]
  | .fetch key inner outcome =>
    match (cache.find key).1, outcome with
    | some value, _ => [.lookup key (some value)]
    | none, .ok value =>
      .lookup key none :: ((cache.find key).2.eventsOfAll inner ++ [.put key value])
    | none, .error _ => .lookup key none :: (cache.find key).2.eventsOfAll inner
  | .clear => [.clear]

/-- What some requests make happen. -/
def eventsOfAll (cache : Recency κ ν) : List (Request κ ν ε) → List (Event κ ν)
  | [] => []
  | request :: requests => cache.eventsOf request ++ (cache.serve request).eventsOfAll requests

end

/-! ## What a history says -/

/-- The answer to a lookup after a history, if there is room for `n` entries. -/
def answer? (n : Nat) (history : List (Event κ ν)) (key : κ) : Option ν :=
  if key ∈ latest n (touches history) then lastPut? key history else none

/-- What a history says of a cache with room for `n` entries: its keys are the latest that were
touched, its values those that were put last, its counts are those of the lookups, and every lookup
was answered accordingly. -/
structure Reflects (n : Nat) (cache : Recency κ ν) (history : List (Event κ ν)) : Prop where
  capacity_eq : cache.capacity = n
  keys_eq : cache.keys = latest n (touches history)
  values : ∀ entry ∈ cache.entries, lastPut? entry.1 history = some entry.2
  hits_eq : cache.hits = (sinceClear history).countP Event.isHit
  misses_eq : cache.misses = (sinceClear history).countP Event.isMiss
  answered : ∀ earlier key found, earlier ++ [.lookup key found] <+: history →
    found = answer? n earlier key

/-! ## Steps -/

section

variable {n : Nat} {cache : Recency κ ν} {history : List (Event κ ν)}

/-- A further event puts a value for a key, or leaves the value that was put last. -/
theorem lastPut?_concat (key : κ) (history : List (Event κ ν)) (event : Event κ ν) :
    lastPut? key (history ++ [event]) = (event.putFor? key).or (lastPut? key history) := by
  unfold lastPut?
  rw [List.filterMap_append, List.filterMap_cons, List.filterMap_nil]
  cases event.putFor? key with
  | none => simp
  | some value => simp

/-- The keys of a moved entry. -/
theorem keys_touch (cache : Recency κ ν) (key : κ) (value : ν) :
    (cache.touch key value).map Prod.fst = moved key cache.keys := by
  unfold touch moved keys
  rw [List.map_append, List.map_singleton, List.filter_map]
  rfl

/-- A key is stored if it has a value. -/
theorem mem_keys_iff {key : κ} : key ∈ cache.keys ↔ (cache.peek? key).isSome = true := by
  unfold keys peek?
  rw [List.lookup_isSome_iff, List.mem_map]
  exact exists_congr fun entry => and_congr_right fun _ => by rw [beq_iff_eq, eq_comm]

/-- Putting an entry moves its key to the end and gives up the keys that there is no room for. -/
theorem keys_put (h : cache.keys.length ≤ cache.capacity) (key : κ) (value : ν) :
    (cache.put key value).keys = (moved key cache.keys).rtake cache.capacity := by
  unfold put
  split
  · rename_i hzero
    rw [hzero, Nat.le_zero, List.length_eq_zero_iff] at h
    rw [h, hzero, List.rtake_zero]
  · unfold keys
    simp only [List.map_drop, keys_touch]
    rw [← List.length_map Prod.fst, keys_touch]
    rfl

/-- Putting an entry leaves the capacity and the counts. -/
theorem put_frame (cache : Recency κ ν) (key : κ) (value : ν) :
    (cache.put key value).capacity = cache.capacity ∧ (cache.put key value).hits = cache.hits ∧
      (cache.put key value).misses = cache.misses := by
  unfold put
  split <;> exact ⟨rfl, rfl, rfl⟩

/-- A key that is found moves to the end. -/
theorem keys_find (cache : Recency κ ν) (key : κ) :
    (cache.find key).2.keys = if key ∈ cache.keys then moved key cache.keys else cache.keys := by
  unfold find
  cases hpeek : cache.peek? key with
  | some value =>
    rw [if_pos (mem_keys_iff.mpr (by rw [hpeek]; rfl))]
    exact keys_touch cache key value
  | none =>
    rw [if_neg fun hmem => by simp [mem_keys_iff, hpeek] at hmem]
    rfl

/-- A key that is stored already needs no more room. -/
theorem length_moved_of_mem {key : κ} {keys : List κ} (hkeys : keys.Nodup) (h : key ∈ keys) :
    (moved key keys).length = keys.length := by
  have hfilter : keys.filter (· ≠ key) = keys.erase key := by
    rw [hkeys.erase_eq_filter]
    exact List.filter_congr fun x _ => Bool.eq_iff_iff.mpr (by simp)
  rw [moved, hfilter, List.length_append, List.length_singleton, List.length_erase_of_mem h]
  have hpos := List.length_pos_of_mem h
  omega

namespace Reflects

/-- Nothing has happened to a new cache. -/
theorem new (n : Nat) : Reflects n ({ capacity := n } : Recency κ ν) [] := by
  refine ⟨rfl, ?_, (fun _ hentry => nomatch hentry), rfl, rfl, ?_⟩
  · simp [keys, touches, sinceClear, latest, distinct]
  · intro earlier key found hearlier
    simp at hearlier

/-- A lookup is answered as the history says. -/
theorem find_fst (h : Reflects n cache history) (key : κ) :
    (cache.find key).1 = answer? n history key := by
  unfold answer? find
  rw [← h.keys_eq]
  cases hpeek : cache.peek? key with
  | some value =>
    rw [if_pos (mem_keys_iff.mpr (by rw [hpeek]; rfl))]
    exact (h.values _ (mem_of_peek? hpeek)).symm
  | none => rw [if_neg fun hmem => by simp [mem_keys_iff, hpeek] at hmem]

theorem nodup_keys (h : Reflects n cache history) : cache.keys.Nodup :=
  h.keys_eq ▸ nodup_latest n _

theorem length_keys_le (h : Reflects n cache history) : cache.keys.length ≤ n :=
  h.keys_eq ▸ length_latest_le n _

/-- An event that puts nothing leaves the values that were put last. -/
theorem values_concat (h : Reflects n cache history) (event : Event κ ν)
    (hevent : ∀ key, event.putFor? key = none) :
    ∀ entry ∈ cache.entries, lastPut? entry.1 (history ++ [event]) = some entry.2 := by
  intro entry hentry
  rw [lastPut?_concat, hevent, Option.none_or, h.values entry hentry]

/-- If a further event is answered as the history says, all events are. -/
theorem answered_concat (h : Reflects n cache history) (event : Event κ ν)
    (hevent : ∀ key found, event = .lookup key found → found = answer? n history key) :
    ∀ earlier key found, earlier ++ [.lookup key found] <+: history ++ [event] →
      found = answer? n earlier key := by
  intro earlier key found hearlier
  rcases List.prefix_concat_iff.mp hearlier with heq | hearlier
  · obtain ⟨rfl, hlast⟩ := List.append_inj' heq rfl
    exact hevent key found (List.singleton_inj.mp hlast).symm
  · exact h.answered earlier key found hearlier

/-- **A lookup is a step of the history.** A key that is found is touched. -/
theorem find (h : Reflects n cache history) (key : κ) :
    Reflects n (cache.find key).2 (history ++ [.lookup key (cache.find key).1]) := by
  have hkeys := keys_find cache key
  have hanswered := h.answered_concat (.lookup key (cache.find key).1) fun key' found heq => by
    cases heq
    exact h.find_fst key
  have hvalues := h.values_concat (.lookup key (cache.find key).1) fun _ => rfl
  unfold Recency.find at hkeys hanswered hvalues ⊢
  cases hpeek : cache.peek? key with
  | some value =>
    have hmem : key ∈ cache.keys := mem_keys_iff.mpr (by rw [hpeek]; rfl)
    have hfits : (moved key cache.keys).length ≤ n :=
      (length_moved_of_mem h.nodup_keys hmem).trans_le h.length_keys_le
    simp only [hpeek] at hkeys hanswered hvalues ⊢
    refine ⟨h.capacity_eq, ?_, ?_, ?_, ?_, hanswered⟩
    · rw [hkeys, if_pos hmem, touches_concat _ rfl, ← rtake_eq_self hfits, h.keys_eq]
      exact (latest_concat n _ key).symm
    · intro entry hentry
      rcases mem_touch hentry with hentry | rfl
      · exact hvalues entry hentry
      · exact hvalues _ (mem_of_peek? hpeek)
    · simp [sinceClear_concat, Event.isClear, Event.isHit, h.hits_eq]
    · simp [sinceClear_concat, Event.isClear, Event.isMiss, h.misses_eq]
  | none =>
    simp only [hpeek] at hanswered hvalues ⊢
    refine ⟨h.capacity_eq, ?_, hvalues, ?_, ?_, hanswered⟩
    · rw [touches_concat _ rfl]
      exact h.keys_eq.trans (congrArg _ (List.append_nil _).symm)
    · simp [sinceClear_concat, Event.isClear, Event.isHit, h.hits_eq]
    · simp [sinceClear_concat, Event.isClear, Event.isMiss, h.misses_eq]

/-- **Putting an entry is a step of the history.** Its key is touched, and the key that was touched
first goes where there is no room for it. -/
theorem put (h : Reflects n cache history) (key : κ) (value : ν) :
    Reflects n (cache.put key value) (history ++ [.put key value]) := by
  have hanswered := h.answered_concat (.put key value) fun key' found heq => nomatch heq
  have hkeys : (cache.put key value).keys = latest n (touches (history ++ [.put key value])) := by
    have hroom : cache.keys.length ≤ cache.capacity := h.capacity_eq.symm ▸ h.length_keys_le
    rw [keys_put hroom, touches_concat _ rfl, h.keys_eq, h.capacity_eq]
    exact (latest_concat n _ key).symm
  obtain ⟨hcapacity, hhits, hmisses⟩ := put_frame cache key value
  refine ⟨hcapacity.trans h.capacity_eq, hkeys, ?_, ?_, ?_, hanswered⟩
  · intro entry hentry
    rw [lastPut?_concat, Event.putFor?]
    unfold Recency.put at hentry
    split at hentry
    · rename_i hzero
      -- without room there are no entries
      have hlength := h.length_keys_le
      rw [← h.capacity_eq, hzero, keys, List.length_map, Nat.le_zero, List.length_eq_zero_iff]
        at hlength
      exact nomatch hlength ▸ hentry
    · rcases mem_touch_iff.mp (List.mem_of_mem_drop hentry) with ⟨hentry, hne⟩ | rfl
      · rw [if_neg (Ne.symm hne), Option.none_or, h.values entry hentry]
      · rw [if_pos rfl, Option.some_or]
  · rw [hhits]
    simp [sinceClear_concat, Event.isClear, Event.isHit, h.hits_eq]
  · rw [hmisses]
    simp [sinceClear_concat, Event.isClear, Event.isMiss, h.misses_eq]

/-- **Removing all entries is a step of the history.** -/
theorem clear (h : Reflects n cache history) : Reflects n cache.clear (history ++ [.clear]) := by
  have hanswered := h.answered_concat .clear fun key' found heq => nomatch heq
  have hsince : sinceClear (history ++ [Event.clear]) = [] := by
    rw [sinceClear_concat]
    rfl
  refine ⟨h.capacity_eq, ?_, (fun _ hentry => nomatch hentry), ?_, ?_, hanswered⟩
  · rw [touches, hsince]
    simp [latest, distinct, Recency.clear, keys]
  · rw [hsince]
    rfl
  · rw [hsince]
    rfl

end Reflects

end

/-! ## Runs -/

namespace Reflects

variable {n : Nat}

mutual

/-- What a request makes happen continues the history. -/
theorem serve {cache : Recency κ ν} {history : List (Event κ ν)} (h : Reflects n cache history) :
    ∀ request : Request κ ν ε, Reflects n (cache.serve request) (history ++ cache.eventsOf request)
  | .find key => h.find key
  | .put key value => h.put key value
  | .fetch key inner outcome => by
    have hfind := h.find key
    have hinner := hfind.serveAll inner
    unfold Recency.serve eventsOf fetchWith
    cases hfound : cache.find key with
    | mk found next =>
      rw [hfound] at hfind hinner
      cases found with
      | some value => exact hfind
      | none =>
        rw [List.append_assoc, List.singleton_append] at hinner
        cases outcome with
        | ok value =>
          have hput := hinner.put key value
          rwa [List.append_assoc, List.cons_append] at hput
        | error _ => exact hinner
  | .clear => h.clear

/-- **A cache can be read off its history.** Whatever it is asked for, its keys, values and counts,
and the answers that it gave, are those that its history says. -/
theorem serveAll {cache : Recency κ ν} {history : List (Event κ ν)} (h : Reflects n cache history) :
    ∀ requests : List (Request κ ν ε), Reflects n (cache.serveAll requests) (history ++
      cache.eventsOfAll requests)
  | [] => by
    rw [eventsOfAll, List.append_nil]
    exact h
  | request :: requests => by
    rw [eventsOfAll, ← List.append_assoc]
    exact (h.serve request).serveAll requests

end

end Reflects

end Recency

end SwitchingAlgebra
