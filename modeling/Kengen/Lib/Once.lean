import Mathlib

/-!
# First come, first sent

A map remembers the keys that were offered: what comes first for a key is sent, and what comes
later is dropped (`LoadOrStore`).

* `Once`, `Once.offer`, `Once.offerAll` — the keys and what was sent.
* **`Once.offer_inv`** — the step: no key is sent twice.
* **`Once.nodup_offerAll`**, **`Once.sent_subset`**, **`Once.keys_sent`** — what is sent of a list:
  each of its keys once, and nothing else.
-/

namespace Kengen

open List

variable {κ ω : Type} [DecidableEq κ]

/-- The keys that are stored, and what was sent. -/
structure Once (κ ω : Type) where
  stored : List κ
  sent : List ω
deriving DecidableEq

namespace Once

def empty : Once κ ω := ⟨[], []⟩

/-- `LoadOrStore`, and the send if the key was not there. -/
def offer (key : ω → κ) (s : Once κ ω) (x : ω) : Once κ ω :=
  if key x ∈ s.stored then s else ⟨key x :: s.stored, s.sent ++ [x]⟩

def offerAll (key : ω → κ) (xs : List ω) : Once κ ω := xs.foldl (offer key) empty

/-- What was sent has different keys, and they are stored. -/
structure Inv (key : ω → κ) (s : Once κ ω) : Prop where
  nodup : (s.sent.map key).Nodup
  stored : ∀ x ∈ s.sent, key x ∈ s.stored

variable {key : ω → κ} {s : Once κ ω}

omit [DecidableEq κ] in
theorem inv_empty : Inv key (empty : Once κ ω) := ⟨nodup_nil, forall_mem_nil _⟩

/-- **The step.** -/
theorem offer_inv (h : Inv key s) (x : ω) : Inv key (offer key s x) := by
  unfold offer
  split
  · exact h
  · rename_i hnew
    refine ⟨?_, fun y hy => ?_⟩
    · rw [map_append, map_singleton]
      refine List.Nodup.append h.nodup (nodup_singleton _) ?_
      intro k hk hx
      obtain ⟨y, hy, rfl⟩ := mem_map.mp hk
      rw [← mem_singleton.mp hx] at hnew
      exact hnew (h.stored y hy)
    · rcases mem_append.mp hy with hy | hy
      · exact mem_cons_of_mem _ (h.stored y hy)
      · rw [mem_singleton.mp hy]
        exact mem_cons_self

/-- **No key is sent twice.** -/
theorem nodup_offerAll (key : ω → κ) (xs : List ω) : ((offerAll key xs).sent.map key).Nodup :=
  (foldlRecOn xs (offer key) inv_empty fun _ h x _ => offer_inv h x).nodup

variable {xs : List ω} {x : ω}

/-- **Nothing else is sent.** -/
theorem sent_subset (h : x ∈ (offerAll key xs).sent) : x ∈ xs := by
  refine foldlRecOn (motive := fun s => ∀ y ∈ s.sent, y ∈ xs) xs (offer key) (forall_mem_nil _)
    (fun s hs y hy => ?_) x h
  unfold offer
  split
  · exact hs
  · exact forall_mem_append.mpr ⟨hs, forall_mem_singleton.mpr hy⟩

theorem foldl_keys_sent (hs : ∀ k ∈ s.stored, k ∈ s.sent.map key)
    (hx : key x ∈ s.stored ∨ x ∈ xs) : key x ∈ (xs.foldl (offer key) s).sent.map key := by
  induction xs generalizing s with
  | nil => exact hs _ (hx.resolve_right not_mem_nil)
  | cons y xs ih =>
    have hoffer : key x ∈ (offer key s y).stored ∨ x ∈ xs := by
      unfold offer
      rcases hx with hx | hx
      · split
        · exact .inl hx
        · exact .inl (mem_cons_of_mem _ hx)
      · rcases mem_cons.mp hx with rfl | hx
        · split
          · exact .inl ‹_›
          · exact .inl mem_cons_self
        · exact .inr hx
    refine ih (fun k hk => ?_) hoffer
    unfold offer at hk ⊢
    split at hk
    · rename_i hmem
      rw [if_pos hmem]
      exact hs k hk
    · rename_i hmem
      rw [if_neg hmem, map_append, mem_append]
      rcases mem_cons.mp hk with rfl | hk
      · exact .inr (mem_singleton_self _)
      · exact .inl (hs k hk)

/-- **Every key is sent.** -/
theorem keys_sent (h : x ∈ xs) : key x ∈ (offerAll key xs).sent.map key :=
  foldl_keys_sent (forall_mem_nil _) (.inr h)

end Once

end Kengen
