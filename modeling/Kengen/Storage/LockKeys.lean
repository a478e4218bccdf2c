import Kengen.Lib.Once
import Kengen.Memory.Write
import Kengen.Tuple.Forms
import Kengen.Tuple.Indexes

/-!
# The order of write locks

A write of an SQL backend first locks the rows of its keys.  `MakeTupleLockKeys` of `sqlcommon.go`
collects the keys of the deletes and the writes, leaves out those whose joined fields it has seen,
and sorts the rest by their fields.

* `TupleLockKey`, `lockKey`, `makeTupleLockKeys` — the keys and their list.
* `WaitsFor` — a writer waits for the holder of its next lock.
* **`lock_order_canonical`** — the list depends on the set of keys only and holds each of them once,
  in ascending order; writers that take their locks in list order never wait in a cycle.
-/

namespace Kengen.Sql

open Strings Kengen.Tuple List

structure TupleLockKey where
  objectType : Str
  objectID : Str
  relation : Str
  user : Str
  userType : Str
deriving DecidableEq

namespace TupleLockKey

/-- The fields, in the order in which they are joined and compared. -/
def fields (k : TupleLockKey) : List Str :=
  [k.objectType, k.objectID, k.relation, k.user, k.userType]

def joined (k : TupleLockKey) : Str := [0].intercalate k.fields

/-- The comparison of `sort.Slice`. -/
def less (a b : TupleLockKey) : Bool :=
  if a.objectType ≠ b.objectType then decide (a.objectType < b.objectType)
  else if a.objectID ≠ b.objectID then decide (a.objectID < b.objectID)
  else if a.relation ≠ b.relation then decide (a.relation < b.relation)
  else if a.user ≠ b.user then decide (a.user < b.user)
  else decide (a.userType < b.userType)

end TupleLockKey

open TupleLockKey

/-- The lock key of a tuple; its condition is not read. -/
def lockKey (tk : TupleKeyWithoutCondition) : TupleLockKey where
  objectType := (splitObject tk.object).1
  objectID := (splitObject tk.object).2
  relation := tk.relation
  user := tk.user
  userType := str (if isUserSet tk.user then "userset" else "user")

/-- The keys of a request, in the order of the two loops. -/
def requestKeys (request : Memory.WriteRequest) : List TupleKeyWithoutCondition :=
  request.deletes ++ request.writes.map (·.toTupleKeyWithoutCondition)

/-- **`MakeTupleLockKeys`** of the deletes and the writes of a request. -/
def makeTupleLockKeys (request : Memory.WriteRequest) : List TupleLockKey :=
  (Once.offerAll joined ((requestKeys request).map lockKey)).sent.insertionSort
    fun a b => less b a = false

/-- In the order of the fields, each key once. -/
abbrev Ascending (keys : List TupleLockKey) : Prop := keys.Pairwise fun a b => fields a < fields b

/-- Writer `i` has taken the first `taken i` of its locks: its next lock is held by `j`. -/
def WaitsFor {ι κ : Type} (locks : ι → List κ) (taken : ι → ℕ) (i j : ι) : Prop :=
  ∃ k, (locks i)[taken i]? = some k ∧ k ∈ (locks j).take (taken j)

/-! ### Keys and their fields -/

variable {a b : TupleLockKey} {tk tk' : TupleKeyWithoutCondition}

theorem fields_injective : Function.Injective fields := by
  rintro ⟨⟩ ⟨⟩ h
  simpa [fields] using h

/-- **The comparison is the lexicographic order of the fields.** -/
theorem less_iff : less a b = true ↔ fields a < fields b := by
  have hstep : ∀ (x y : Str) (c : Bool),
      (if x ≠ y then decide (x < y) else c) = true ↔ x < y ∨ x = y ∧ c = true := by
    intro x y c
    by_cases h : x = y
    · simp [h]
    · simp [h]
  simp only [less, fields, hstep, cons_lt_cons_iff, decide_eq_true_eq, not_lt_nil, and_false,
    or_false]

/-- **Equal joined fields are equal keys**: an object and a relation have no NUL byte, and after the
user there is one that is the last. -/
theorem joined_inj (h : tk.WellFormed) (h' : tk'.WellFormed)
    (heq : joined (lockKey tk) = joined (lockKey tk')) : tk = tk' := by
  have hplain : ∀ {s : Str}, PlainStr s → (0 : UInt8) ∉ s :=
    fun h => h.not_mem (by decide) (by decide)
  have hrelation : ∀ {s : Str}, isValidRelation s = true → (0 : UInt8) ∉ s :=
    fun h => hplain (isValidRelation_iff.mp h).2.1
  have hlast : ∀ b : Bool, (0 : UInt8) ∉ str (if b then "userset" else "user") := by decide
  obtain ⟨object, relation, user⟩ := tk
  obtain ⟨object', relation', user'⟩ := tk'
  obtain ⟨a, b, rfl, -, -, ha, hb⟩ := isValidObject_iff.mp h.object
  obtain ⟨a', b', rfl, -, -, ha', hb'⟩ := isValidObject_iff.mp h'.object
  simp only [joined, fields, lockKey, splitObject_build ha.no_colon,
    splitObject_build ha'.no_colon, intercalate, intersperse, flatten_cons, flatten_nil,
    append_nil, cons_append, nil_append] at heq
  obtain ⟨rfl, heq⟩ := cut_first (hplain ha) (hplain ha') heq
  obtain ⟨rfl, heq⟩ := cut_first (hplain hb) (hplain hb') heq
  obtain ⟨rfl, heq⟩ := cut_first (hrelation h.relation) (hrelation h'.relation) heq
  obtain ⟨rfl, -⟩ := cut_last (hlast _) (hlast _) heq
  rfl

/-! ### The list -/

section Requests

variable {request : Memory.WriteRequest} (h : request.WellFormed)
include h

theorem wellFormed_of_mem (htk : tk ∈ requestKeys request) : tk.WellFormed := by
  rcases mem_append.mp htk with htk | htk
  · exact h.deletes tk htk
  · obtain ⟨w, hw, rfl⟩ := mem_map.mp htk
    exact h.writes w hw

theorem mem_makeTupleLockKeys :
    a ∈ makeTupleLockKeys request ↔ ∃ tk ∈ requestKeys request, lockKey tk = a := by
  rw [makeTupleLockKeys, mem_insertionSort, ← mem_map]
  refine ⟨Once.sent_subset, fun ha => ?_⟩
  -- what was sent has the same joined fields, so it is the same key
  obtain ⟨b, hb, heq⟩ := mem_map.mp (Once.keys_sent ha : joined a ∈ _)
  obtain ⟨tk, htk, rfl⟩ := mem_map.mp ha
  obtain ⟨tk', htk', rfl⟩ := mem_map.mp (Once.sent_subset hb)
  rwa [← joined_inj (wellFormed_of_mem h htk') (wellFormed_of_mem h htk) heq]

omit h in
theorem ascending_makeTupleLockKeys :
    Ascending (makeTupleLockKeys request) := by
  have hle : ∀ a b, less b a = false ↔ fields a ≤ fields b := fun a b => by
    rw [← Bool.not_eq_true, less_iff]
    exact not_lt
  have htotal : Std.Total fun a b => less b a = false :=
    ⟨fun a b => ((le_total _ _).imp (hle a b).mpr (hle b a).mpr)⟩
  have htrans : IsTrans TupleLockKey fun a b => less b a = false :=
    ⟨fun a b c hab hbc => (hle a c).mpr (((hle a b).mp hab).trans ((hle b c).mp hbc))⟩
  have hsorted := pairwise_insertionSort (fun a b => less b a = false)
    (Once.offerAll joined ((requestKeys request).map lockKey)).sent
  have hnodup : (makeTupleLockKeys request).Nodup :=
    (perm_insertionSort _ _).nodup_iff.mpr (Once.nodup_offerAll joined _).of_map
  exact (hsorted.and hnodup).imp fun ⟨hab, hne⟩ =>
    lt_of_le_of_ne ((hle _ _).mp hab) (fields_injective.ne hne)

end Requests

/-! ### Waiting -/

/-- **Along a chain of waiting writers the keys ascend.** -/
theorem ascending_waits {ι : Type} {locks : ι → List TupleLockKey} {taken : ι → ℕ}
    (h : ∀ i, Ascending (locks i)) {i j : ι}
    (hwait : Relation.TransGen (WaitsFor locks taken) i j) :
    ∃ k, (locks i)[taken i]? = some k ∧ ∀ next, (locks j)[taken j]? = some next →
      fields k < fields next := by
  have hnext : ∀ {j k next}, k ∈ (locks j).take (taken j) → (locks j)[taken j]? = some next →
      fields k < fields next := by
    intro j k next hk hnext
    obtain ⟨n, hn, rfl⟩ := mem_take_iff_getElem.mp hk
    obtain ⟨hlt, rfl⟩ := List.getElem?_eq_some_iff.mp hnext
    exact pairwise_iff_getElem.mp (h j) _ _ _ _ (by omega)
  induction hwait with
  | single hw =>
    obtain ⟨k, hk, hheld⟩ := hw
    exact ⟨k, hk, fun _ => hnext hheld⟩
  | tail _ hw ih =>
    obtain ⟨k, hk, hlt⟩ := ih
    obtain ⟨k', hk', hheld⟩ := hw
    exact ⟨k, hk, fun _ hn => (hlt k' hk').trans (hnext hheld hn)⟩

/-- **The order of locks is canonical.**  For every family of requests with valid keys: each list
ascends in the order of the fields and holds each key of its request once; requests with the same
keys, in any order and with any repetitions and conditions, have the same list; two lists order
their common keys in the same way; and no writer ever waits for itself over others. -/
theorem lock_order_canonical {ι : Type} (requests : ι → Memory.WriteRequest)
    (h : ∀ i, (requests i).WellFormed) :
    let locks i := makeTupleLockKeys (requests i)
    (∀ i, Ascending (locks i))
    ∧ (∀ i, locks i ~ (requestKeys (requests i)).dedup.map lockKey)
    ∧ (∀ i j, (∀ tk, tk ∈ requestKeys (requests i) ↔ tk ∈ requestKeys (requests j)) →
        locks i = locks j)
    ∧ (∀ i j, (locks i).filter (· ∈ locks j) = (locks j).filter (· ∈ locks i))
    ∧ ∀ taken i, ¬ Relation.TransGen (WaitsFor locks taken) i i := by
  intro locks
  have hasc : ∀ i, Ascending (locks i) := fun i => ascending_makeTupleLockKeys
  have hunique : ∀ {l l'}, Ascending l → Ascending l' → (∀ k, k ∈ l ↔ k ∈ l') → l = l' := by
    intro l l' hl hl' hmem
    refine map_injective_iff.mpr fields_injective
      ((pairwise_map.mpr hl).eq_of_mem_iff (pairwise_map.mpr hl') fun s => ?_)
    simp only [mem_map, hmem]
  refine ⟨hasc, fun i => ?_, fun i j hkeys => ?_, fun i j => ?_, fun taken i hcycle => ?_⟩
  · have hinj : ((requestKeys (requests i)).dedup.map lockKey).Nodup :=
      (nodup_dedup _).map_on fun tk htk tk' htk' heq => joined_inj
        (wellFormed_of_mem (h i) (mem_dedup.mp htk)) (wellFormed_of_mem (h i) (mem_dedup.mp htk'))
        (congrArg joined heq)
    refine (perm_ext_iff_of_nodup ((hasc i).imp fun hlt heq => ?_) hinj).mpr fun k => ?_
    · exact lt_irrefl _ (heq ▸ hlt)
    · rw [mem_makeTupleLockKeys (h i), mem_map]
      simp only [mem_dedup]
  · refine hunique (hasc i) (hasc j) fun k => ?_
    rw [mem_makeTupleLockKeys (h i), mem_makeTupleLockKeys (h j)]
    simp only [hkeys]
  · refine hunique ((hasc i).filter _) ((hasc j).filter _) fun k => ?_
    simp only [mem_filter, decide_eq_true_eq, and_comm]
  · obtain ⟨k, hk, hlt⟩ := ascending_waits hasc hcycle
    exact lt_irrefl _ (hlt k hk)

/-- A request that deletes a key twice and writes another one twice. -/
theorem lock_order_canonical_rewritten :
    (makeTupleLockKeys Memory.rewriteHistory[1]).map (·.user) = [str "user:anne", str "user:bob"]
      ∧ Ascending (makeTupleLockKeys Memory.rewriteHistory[1]) :=
  ⟨by decide, (lock_order_canonical (fun i : Fin 2 => Memory.rewriteHistory[i])
    (by decide)).1 1⟩

end Kengen.Sql
