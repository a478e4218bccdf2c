import Kengen.Model.Data

/-!
# Authorization models as rewrite rules, and what Check means by them

The commands outside the weighted resolvers read a model as it was written: each
relation of a type has a rewrite rule, a tree of direct assignment, references
to other relations, unions, intersections and exclusions.

* `Rewrite`, `Relation`, `TypeSystem` — the model, with `getRelation`.
* `validateTupleForRead` — the filter every read of tuples goes through: a tuple
  that the model's type restrictions do not allow is skipped.
* `Environment` — a model, the stored tuples and the request's context.
  `Environment.passing` are the tuples that pass the filter and their condition.
* `Environment.check` — Check by recursion on a depth, and `Environment.Related`,
  the answer it settles on when the depth is not limited.
* `Environment.Acyclic` — no userset depends on itself through the tuples;
  **`acyclic_of_ranked`** decides it for models whose relations can be ranked.

`check` evaluates a rewrite rule with the answers of the depth below: an
assignment of the user, of the wildcard of its type, or of a userset the user is
in; every operand of an intersection; the base without the subtract side.
-/

namespace Kengen

open List

/-! ### Models -/

/-- A rewrite rule (`openfgav1.Userset`). -/
inductive Rewrite where
  | this
  | computedUserset (relation : String)
  | tupleToUserset (tupleset computedUserset : String)
  | union {n : ℕ} (child : Fin n → Rewrite)
  | intersection {n : ℕ} (child : Fin n → Rewrite)
  | difference (base subtract : Rewrite)

/-- What a type restriction allows of its type: objects, the usersets of a
relation, or the typed wildcard. -/
inductive Facet where
  | object
  | relation (name : String)
  | wildcard
deriving DecidableEq, Repr

/-- One type restriction, with the condition its tuples carry (`noCond` for none). -/
structure RelationReference where
  type : String
  relationOrWildcard : Facet
  condition : String := noCond
deriving DecidableEq, Repr

/-- A relation of a type; it has type restrictions when tuples may be written to it. -/
structure Relation where
  rewrite : Rewrite
  typeInfo : Option (List RelationReference)

/-- An authorization model. -/
structure TypeSystem where
  types : List (String × List (String × Relation))
  conditions : List String := []

/-- Why a relation was not found. -/
inductive RelationErr where
  | objectTypeUndefined
  | relationUndefined
deriving DecidableEq, Repr

variable (ts : TypeSystem)

/-- `GetRelation`. -/
def TypeSystem.getRelation (objectType relation : String) :
    Except RelationErr Relation :=
  match ts.types.lookup objectType with
  | none => .error .objectTypeUndefined
  | some relations =>
    match relations.lookup relation with
    | none => .error .relationUndefined
    | some r => .ok r

/-- The tuplesets a rewrite rule goes through. -/
def Rewrite.tuplesets : Rewrite → List String
  | .this => []
  | .computedUserset _ => []
  | .tupleToUserset tupleset _ => [tupleset]
  | .union (n := n) child => (List.finRange n).flatMap fun i => (child i).tuplesets
  | .intersection (n := n) child => (List.finRange n).flatMap fun i => (child i).tuplesets
  | .difference base subtract => base.tuplesets ++ subtract.tuplesets

/-- The rule is a direct assignment alone. -/
def Rewrite.isThis : Rewrite → Bool
  | .this => true
  | _ => false

/-- `IsTuplesetRelation`, on a relation that exists. -/
def TypeSystem.isTuplesetRelation (objectType relation : String) : Bool :=
  match ts.types.lookup objectType with
  | none => false
  | some relations => relations.any fun r => decide (relation ∈ r.2.rewrite.tuplesets)

/-! ### The tuples a model allows -/

/-- The type of a tuple's user (`GetType`). -/
def User.objectType : User → String
  | .object o => o.type
  | .userset o _ => o.type
  | .wildcard t => t

/-- The facet of a type restriction that a user needs. -/
def User.facet : User → Facet
  | .object _ => .object
  | .userset _ r => .relation r
  | .wildcard _ => .wildcard

/-- `validateTuplesetRestrictions`: a tupleset relation is a direct assignment of objects. -/
def TypeSystem.validateTuplesetRestrictions (r : Relation) (t : TupleKey) :
    Bool :=
  if ts.isTuplesetRelation t.object.type t.relation then
    r.rewrite.isThis && decide (t.user.facet = .object)
  else true

variable (restrictions : List RelationReference) (t : TupleKey)

/-- `validateTypeRestrictions`. -/
def validateTypeRestrictions : Bool :=
  restrictions.any fun ref => decide (ref.type = t.user.objectType
    ∧ ref.relationOrWildcard = t.user.facet)

/-- `validateCondition`: a restriction with the tuple's condition, or without one
for a tuple that has none. -/
def TypeSystem.validateCondition : Bool :=
  decide (t.condition.name = noCond ∨ t.condition.name ∈ ts.conditions)
    && restrictions.any fun ref => decide (ref.type = t.user.objectType
      ∧ ref.condition = t.condition.name ∧ ref.relationOrWildcard = t.user.facet)

/-- `ValidateTupleForRead`. -/
def TypeSystem.validateTupleForRead : Bool :=
  match ts.getRelation t.object.type t.relation with
  | .error _ => false
  | .ok r => ts.validateTuplesetRestrictions r t
    && match r.typeInfo with
      | none => true
      | some restrictions =>
        validateTypeRestrictions restrictions t && ts.validateCondition restrictions t

/-! ### The environment of a request -/

/-- The model, the tuples and the context that a request is evaluated in. -/
structure Environment where
  typesystem : TypeSystem
  store : Store
  cel : Cel
  context : String := ""

variable (env : Environment)

/-- `Read` of an object and a relation, through `FilterInvalidTuples`. -/
def Environment.read (object : Object) (relation : String) :
    List TupleKey :=
  env.store.tuples.filter fun t => decide (t.object = object ∧ t.relation = relation)
    && env.typesystem.validateTupleForRead t

/-- The condition of a tuple in the request's context. -/
def Environment.conditionMet (t : TupleKey) : Except Err Bool :=
  evaluateTupleCondition env.cel t env.context

/-- The tuples of an object and a relation whose condition is met. -/
def Environment.passing (object : Object) (relation : String) :
    List TupleKey :=
  (env.read object relation).filter fun t =>
    match env.conditionMet t with
    | .ok met => met
    | .error _ => false

/-- `SplitObject` of a user string: the object a tupleset leads to. -/
def User.splitObject : User → Object
  | .object o => o
  | .userset o r => ⟨o.type, o.id ++ ("#" ++ r)⟩
  | .wildcard t => ⟨t, "*"⟩

/-! ### What Check means -/

/-- One rewrite rule for `user`, given the relations `related` of the depth below. -/
def Environment.Holds (env : Environment) (user : Object) (related : Object → String → Prop)
    (object : Object) (relation : String) : Rewrite → Prop
  | .this => ∃ t ∈ env.passing object relation,
      t.user = .object user ∨ t.user = .wildcard user.type
        ∨ ∃ o r, t.user = .userset o r ∧ related o r
  | .computedUserset r => related object r
  | .tupleToUserset tupleset computed =>
      ∃ t ∈ env.passing object tupleset, related t.user.splitObject computed
  | .union child => ∃ i, env.Holds user related object relation (child i)
  | .intersection (n := n) child =>
      0 < n ∧ ∀ i, env.Holds user related object relation (child i)
  | .difference base subtract =>
      env.Holds user related object relation base
        ∧ ¬ env.Holds user related object relation subtract

/-- Check for `user` with a limited depth. -/
def Environment.check (env : Environment) (user : Object) : ℕ → Object → String → Prop
  | 0, _, _ => False
  | depth + 1, object, relation =>
    match env.typesystem.getRelation object.type relation with
    | .error _ => False
    | .ok r => env.Holds user (env.check user depth) object relation r.rewrite

/-- **The semantics of Check**: the answer that every large enough depth gives. -/
def Environment.Related (user object : Object) (relation : String) : Prop :=
  ∃ depth, ∀ deeper, depth ≤ deeper → env.check user deeper object relation

/-! ### Acyclic tuple graphs -/

/-- The usersets that a rewrite rule of a userset refers to. -/
def Environment.RefersTo (env : Environment) (object : Object) (relation : String) :
    Rewrite → Object × String → Prop
  | .this, q => ∃ t ∈ env.passing object relation, t.user = .userset q.1 q.2
  | .computedUserset r, q => q = (object, r)
  | .tupleToUserset tupleset computed, q =>
      ∃ t ∈ env.passing object tupleset, q = (t.user.splitObject, computed)
  | .union child, q => ∃ i, env.RefersTo object relation (child i) q
  | .intersection child, q => ∃ i, env.RefersTo object relation (child i) q
  | .difference base subtract, q =>
      env.RefersTo object relation base q ∨ env.RefersTo object relation subtract q

/-- The tuple graph: `p` refers to `q` by its rewrite rule and the tuples. -/
def Environment.Refers (p q : Object × String) : Prop :=
  ∃ r, env.typesystem.getRelation p.1.type p.2 = .ok r ∧ env.RefersTo p.1 p.2 r.rewrite q

/-- No userset depends on itself. -/
def Environment.Acyclic : Prop :=
  ∀ p, ¬ Relation.TransGen env.Refers p p

/-- The relations that a rewrite rule refers to by name. -/
def Rewrite.references : Rewrite → List String
  | .this => []
  | .computedUserset relation => [relation]
  | .tupleToUserset _ computed => [computed]
  | .union (n := n) child => (List.finRange n).flatMap fun i => (child i).references
  | .intersection (n := n) child => (List.finRange n).flatMap fun i => (child i).references
  | .difference base subtract => base.references ++ subtract.references

/-- A relation stands in the list it is looked up in. -/
theorem mem_of_lookup {β : Type} {key : String} {value : β} {l : List (String × β)}
    (h : l.lookup key = some value) : (key, value) ∈ l := by
  obtain ⟨_, _, rfl, -⟩ := lookup_eq_some_iff.mp h
  simp

theorem getRelation_mem {ts : TypeSystem} {objectType relation : String} {r : Relation}
    (h : ts.getRelation objectType relation = .ok r) :
    ∃ relations, (objectType, relations) ∈ ts.types ∧ (relation, r) ∈ relations := by
  unfold TypeSystem.getRelation at h
  split at h
  · cases h
  rename_i relations hrelations
  split at h
  · cases h
  rename_i hr
  cases h
  exact ⟨_, mem_of_lookup hrelations, mem_of_lookup hr⟩

/-- The names of the relations of the model. -/
def TypeSystem.relationNames : List String :=
  ts.types.flatMap fun entry => entry.2.map Prod.fst

theorem relation_mem_relationNames {ts : TypeSystem} {objectType relation : String} {r : Relation}
    (h : ts.getRelation objectType relation = .ok r) : relation ∈ ts.relationNames := by
  obtain ⟨_, hentry, hmem⟩ := getRelation_mem h
  exact mem_flatMap.mpr ⟨_, hentry, mem_map.mpr ⟨_, hmem, rfl⟩⟩

/-- The relation of a userset. -/
def User.usersetRelations : User → List String
  | .userset _ relation => [relation]
  | _ => []

/-- The relations are ranked: rules and userset tuples refer to smaller ranks only. -/
def Environment.Ranked (rank : String → ℕ) : Prop :=
  (∀ entry ∈ env.typesystem.types, ∀ r ∈ entry.2,
      ∀ name ∈ r.2.rewrite.references, rank name < rank r.1)
    ∧ ∀ t ∈ env.store.tuples, ∀ name ∈ t.user.usersetRelations, rank name < rank t.relation

instance (env : Environment) (rank : String → ℕ) : Decidable (env.Ranked rank) :=
  inferInstanceAs (Decidable (_ ∧ _))

theorem mem_store_of_passing {env : Environment} {object : Object} {relation : String}
    {t : TupleKey} (h : t ∈ env.passing object relation) :
    t ∈ env.store.tuples ∧ t.object = object ∧ t.relation = relation := by
  have hread := (mem_filter.mp h).1
  simp only [Environment.read, mem_filter, Bool.and_eq_true, decide_eq_true_eq] at hread
  exact ⟨hread.1, hread.2.1⟩

/-- The objects of the passing tuples that assign one of the users. -/
theorem mem_objectsRead {env : Environment} {objectType relation : String} {users : List User}
    {o : Object} :
    o ∈ (env.store.tuples.filter fun t => decide (t.object.type = objectType
        ∧ t ∈ env.passing t.object relation ∧ t.user ∈ users)).map TupleKey.object
      ↔ o.type = objectType ∧ ∃ t ∈ env.passing o relation, t.user ∈ users := by
  simp only [mem_map, mem_filter, decide_eq_true_eq]
  constructor
  · rintro ⟨t, ⟨-, htype, ht, huser⟩, rfl⟩
    exact ⟨htype, t, ht, huser⟩
  · rintro ⟨htype, t, ht, huser⟩
    obtain ⟨hmem, rfl, -⟩ := mem_store_of_passing ht
    exact ⟨t, ⟨hmem, htype, ht, huser⟩, rfl⟩

theorem refersTo_rank {env : Environment} {rank : String → ℕ} (h : env.Ranked rank)
    {object : Object} {relation : String} {rewrite : Rewrite}
    (hrefs : ∀ name ∈ rewrite.references, rank name < rank relation) {q : Object × String}
    (hq : env.RefersTo object relation rewrite q) : rank q.2 < rank relation := by
  induction rewrite with
  | this =>
    obtain ⟨t, ht, huser⟩ := hq
    obtain ⟨hmem, -, rfl⟩ := mem_store_of_passing ht
    exact h.2 t hmem q.2 (by simp [huser, User.usersetRelations])
  | computedUserset =>
    obtain rfl := hq
    exact hrefs _ (mem_singleton.mpr rfl)
  | tupleToUserset =>
    obtain ⟨t, -, rfl⟩ := hq
    exact hrefs _ (mem_singleton.mpr rfl)
  | union child ih | intersection child ih =>
    obtain ⟨i, hi⟩ := hq
    refine ih i (fun name hname => hrefs name ?_) hi
    exact mem_flatMap.mpr ⟨i, mem_finRange i, hname⟩
  | difference base subtract ihb ihs =>
    rcases hq with hb | hs
    · exact ihb (fun name hname => hrefs name (mem_append_left _ hname)) hb
    · exact ihs (fun name hname => hrefs name (mem_append_right _ hname)) hs

/-- A relation that lowers a rank has no cycles. -/
theorem not_transGen_of_rank {α : Type} {r : α → α → Prop} (rank : α → ℕ)
    (h : ∀ p q, r p q → rank q < rank p) (p : α) : ¬ Relation.TransGen r p p := by
  intro hp
  have hlt : Relation.TransGen (· > ·) (rank p) (rank p) := Relation.TransGen.lift rank h p p hp
  rw [Relation.transGen_eq_self] at hlt
  exact lt_irrefl _ hlt

/-- **A ranked environment is acyclic.** -/
theorem acyclic_of_ranked {env : Environment} (rank : String → ℕ) (h : env.Ranked rank) :
    env.Acyclic := by
  refine not_transGen_of_rank (fun p => rank p.2) ?_
  rintro p q ⟨r, hr, hq⟩
  obtain ⟨_, hentry, hmem⟩ := getRelation_mem hr
  exact refersTo_rank h (h.1 _ hentry _ hmem) hq

end Kengen
