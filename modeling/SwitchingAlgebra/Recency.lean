/-
# Recency caches

A cache holds a limited number of entries and gives up the one that was not touched for the longest
time. Reading and writing an entry touch it. A cache without room stores nothing.

* `find` looks a key up, `put` stores an entry;
* `fetch` looks a key up and computes and stores its value where it is missing.
-/
import SwitchingAlgebra.Fault

namespace SwitchingAlgebra

/-- A cache: its entries, the one touched last at the end, and how often a lookup succeeded and
failed. -/
structure Recency (κ ν : Type) where
  capacity : Nat
  entries : List (κ × ν) := []
  hits : Nat := 0
  misses : Nat := 0

namespace Recency

variable {κ ν : Type} [DecidableEq κ]

/-- An empty cache with room for so many entries. -/
def ofCapacity (capacity : Int) : Except Fault (Recency κ ν) :=
  if capacity < 0 then .error (.invalid .capacity) else .ok { capacity := capacity.toNat }

/-- The keys, the one touched last at the end. -/
def keys (cache : Recency κ ν) : List κ :=
  cache.entries.map Prod.fst

/-- Whether a key has an entry. -/
def contains (cache : Recency κ ν) (key : κ) : Bool :=
  cache.entries.any (·.1 = key)

/-- The value of a key, without touching it. -/
def peek? (cache : Recency κ ν) (key : κ) : Option ν :=
  cache.entries.lookup key

/-- The entries with one moved or added to the end. -/
def touch (cache : Recency κ ν) (key : κ) (value : ν) : List (κ × ν) :=
  cache.entries.filter (·.1 ≠ key) ++ [(key, value)]

/-- Looks a key up. -/
def find (cache : Recency κ ν) (key : κ) : Option ν × Recency κ ν :=
  match cache.peek? key with
  | some value =>
    (some value, { cache with entries := cache.touch key value, hits := cache.hits + 1 })
  | none => (none, { cache with misses := cache.misses + 1 })

/-- Stores an entry and gives up the oldest ones that there is no room for. -/
def put (cache : Recency κ ν) (key : κ) (value : ν) : Recency κ ν :=
  if cache.capacity = 0 then cache
  else
    let entries := cache.touch key value
    { cache with entries := entries.drop (entries.length - cache.capacity) }

/-- Looks a key up; where it is missing, computes the value, which may use the cache itself, and
stores it. -/
def fetchWith {ε : Type} (cache : Recency κ ν) (key : κ)
    (compute : Recency κ ν → Except ε ν × Recency κ ν) : Except ε ν × Recency κ ν :=
  match cache.find key with
  | (some value, cache) => (.ok value, cache)
  | (none, cache) =>
    match compute cache with
    | (.ok value, cache) => (.ok value, cache.put key value)
    | (.error e, cache) => (.error e, cache)

/-- Looks a key up; where it is missing, stores the computed value. -/
def fetch {ε : Type} (cache : Recency κ ν) (key : κ) (compute : Unit → Except ε ν) :
    Except ε ν × Recency κ ν :=
  cache.fetchWith key fun cache => (compute (), cache)

/-- The cache without entries and counts. -/
def clear (cache : Recency κ ν) : Recency κ ν :=
  { capacity := cache.capacity }

end Recency

end SwitchingAlgebra
