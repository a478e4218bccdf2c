import Mathlib

/-!
# A cache whose entries expire

A cache keeps a value under a key for a time to live.  Times are integers; a read after the expiry
of an entry finds nothing.  A time to live beyond `longest` is cut to it, and a negative one stores
nothing.

* `get`, `set`, `delete` — the operations.
* **`lookup_set_self`**, **`lookup_set_ne`** — the entry under a key behind a store.
* **`get_of_lt`**, **`lookup_of_get`** — a read finds the live entries.
-/

namespace Kengen.TtlCache

variable {K V : Type}

/-- Points in time, and durations. -/
abbrev Time := ℤ

structure Stored (V : Type) where
  value : V
  expires : Time
deriving DecidableEq, Repr

/-- The entries, the expired ones included. -/
abbrev Cache (K V : Type) := K → Option (Stored V)

def empty : Cache K V := fun _ => none

/-- The value of a key at a time. -/
def get (cache : Cache K V) (now : Time) (key : K) : Option V :=
  match cache key with
  | none => none
  | some stored => if now < stored.expires then some stored.value else none

section Operations

variable [DecidableEq K] (longest : Time)

def set (cache : Cache K V) (now : Time) (key : K) (value : V) (ttl : Time) : Cache K V :=
  if ttl < 0 then cache else Function.update cache key (some ⟨value, now + min ttl longest⟩)

def delete (cache : Cache K V) (key : K) : Cache K V := Function.update cache key none

variable {longest} {cache : Cache K V} {now : Time} {key key' : K} {value : V} {ttl : Time}

theorem lookup_set_self (h : 0 ≤ ttl) :
    set longest cache now key value ttl key = some ⟨value, now + min ttl longest⟩ := by
  rw [set, if_neg (not_lt.mpr h), Function.update_self]

/-- Other keys are not touched. -/
theorem lookup_set_ne (h : key' ≠ key) : set longest cache now key value ttl key' = cache key' := by
  unfold set
  split
  · rfl
  · exact Function.update_of_ne h _ _

/-- What is found behind a store was there or is stored. -/
theorem lookup_set_cases {stored : Stored V}
    (h : set longest cache now key value ttl key' = some stored) :
    cache key' = some stored ∨ (key' = key ∧ stored = ⟨value, now + min ttl longest⟩) := by
  unfold set at h
  split at h
  · exact .inl h
  · by_cases heq : key' = key
    · rw [heq, Function.update_self] at h
      exact .inr ⟨heq, (Option.some.inj h).symm⟩
    · rw [Function.update_of_ne heq] at h
      exact .inl h

theorem lookup_delete_ne (h : key' ≠ key) : delete cache key key' = cache key' :=
  Function.update_of_ne h _ _

/-- What is found behind a deletion was there. -/
theorem lookup_of_delete {stored : Stored V} (h : delete cache key key' = some stored) :
    cache key' = some stored := by
  by_cases heq : key' = key
  · rw [heq, delete, Function.update_self] at h
    cases h
  · rwa [lookup_delete_ne heq] at h

end Operations

/-- A live entry is found. -/
theorem get_of_lt {cache : Cache K V} {now : Time} {key : K} {stored : Stored V}
    (h : cache key = some stored) (hlt : now < stored.expires) :
    get cache now key = some stored.value := by
  rw [get, h]
  exact if_pos hlt

/-- What is found is a live entry. -/
theorem lookup_of_get {cache : Cache K V} {now : Time} {key : K} {value : V}
    (h : get cache now key = some value) :
    ∃ stored, cache key = some stored ∧ now < stored.expires ∧ stored.value = value := by
  unfold get at h
  split at h
  · cases h
  rename_i stored hstored
  split_ifs at h with hlt
  exact ⟨stored, hstored, hlt, Option.some.inj h⟩

end Kengen.TtlCache
