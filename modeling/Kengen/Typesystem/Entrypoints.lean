import Kengen.Typesystem.Rewrites

/-!
# The entrypoint test of model validation

`hasEntrypoints` walks the rewrite rule of a relation and looks for a type whose objects can be
assigned.  It keeps a map of the relations it has visited: for each type a map from the relations to
a flag, which is set when the relation is found to be directly assignable.

A call copies the outer map only.  The inner maps of the types that were there before are shared
with the caller, and what is written into them stays visible when the call has returned; the inner
map of a type that the call adds is its own.  The operands of an operator are called with the map
that the operator was given, and each call first sets the flag of its relation back.

* `Marks`, `mark`, `restrict` — the visited map, and what a caller sees of it behind a call.
* `walk`, `hasEntrypoints` — the test, by recursion on the rewrite rule and with a bound on the
  number of relations on the way.
* `validateEntrypoints` — the test as `validateRelation` runs it.
* **`anyLoop_ok`**, **`allLoop_ok`** — what the loops of the test do.
-/

namespace Kengen.Entrypoints

open List

/-- A relation of a type. -/
abbrev RelationKey := String × String

/-! ### The visited map -/

/-- `visitedRelations`. -/
abbrev Marks := String → Option (String → Option Bool)

def markOf (v : Marks) (k : RelationKey) : Option Bool := (v k.1).bind fun relations => relations k.2

def mark (v : Marks) (k : RelationKey) (b : Bool) : Marks :=
  Function.update v k.1 (some (Function.update ((v k.1).getD fun _ => none) k.2 (some b)))

/-- What the owner of the outer map sees of the inner one: the types that it knows. -/
def restrict (outer inner : Marks) : Marks := fun type =>
  if (outer type).isSome then inner type else none

theorem markOf_mark_self (v : Marks) (k : RelationKey) (b : Bool) :
    markOf (mark v k b) k = some b := by
  simp [markOf, mark]

variable {k : RelationKey}

theorem markOf_mark_ne (v : Marks) {k' : RelationKey} (b : Bool) (h : k' ≠ k) :
    markOf (mark v k b) k' = markOf v k' := by
  unfold markOf mark
  by_cases htype : k'.1 = k.1
  · have hrelation : k'.2 ≠ k.2 := fun hrelation => h (Prod.ext htype hrelation)
    rw [htype, Function.update_self]
    cases v k.1 <;> simp [Function.update_of_ne hrelation]
  · rw [Function.update_of_ne htype]

variable {b : Bool}

theorem markOf_restrict {outer inner : Marks}
    (h : markOf (restrict outer inner) k = some b) : markOf inner k = some b := by
  unfold markOf restrict at h
  split at h
  · exact h
  · cases h

theorem isSome_of_markOf {v : Marks} (h : markOf v k = some b) : (v k.1).isSome = true := by
  unfold markOf at h
  obtain ⟨_, hrelations, -⟩ := Option.bind_eq_some_iff.mp h
  rw [hrelations]
  rfl

/-! ### The test -/

inductive Error where
  | undefined (k : RelationKey)
  /-- `ErrInvalidRelation`: an operator with less than two children. -/
  | invalidRelation (k : RelationKey)
  | noEntrypoints
  | noEntryPointsLoop
  | outOfFuel
deriving DecidableEq, Repr

/-- What a call returns, with the visited map as its caller sees it. -/
structure Verdict where
  hasEntrypoint : Bool
  loop : Bool
  visited : Marks

abbrev Visit := Marks → Except Error Verdict

/-- A loop that returns at the first item with an entrypoint. -/
def anyLoop {ι : Type} (visit : ι → Visit) : List ι → Marks → Bool → Except Error Verdict
  | [], v, loop => .ok ⟨false, loop, v⟩
  | item :: items, v, loop =>
    match visit item v with
    | .error e => .error e
    | .ok verdict =>
      if verdict.hasEntrypoint then .ok ⟨true, false, verdict.visited⟩
      else anyLoop visit items verdict.visited (loop || verdict.loop)

/-- A loop that returns at the first item without an entrypoint. -/
def allLoop {ι : Type} (visit : ι → Visit) : List ι → Marks → Except Error Verdict
  | [], v => .ok ⟨true, false, v⟩
  | item :: items, v =>
    match visit item v with
    | .error e => .error e
    | .ok verdict =>
      if verdict.hasEntrypoint then allLoop visit items verdict.visited
      else .ok ⟨false, verdict.loop, verdict.visited⟩

variable (ts : TypeSystem)

def find (k : RelationKey) : Except Error Relation :=
  match ts.getRelation k.1 k.2 with
  | .ok relation => .ok relation
  | .error _ => .error (.undefined k)

/-- `GetDirectlyRelatedUserTypes`. -/
def relatedTypes (relation : Relation) : List RelationReference := relation.typeInfo.getD []

variable (call : RelationKey → Visit)

/-- One type restriction of an assignable relation.  A userset that was visited is skipped, whatever
its flag is. -/
def assignVisit (k : RelationKey) (assignable : RelationReference) : Visit := fun v =>
  match assignable.relationOrWildcard with
  | .object => .ok ⟨true, false, mark v k true⟩
  | .wildcard => .ok ⟨true, false, mark v k true⟩
  | .relation name =>
    match find ts (assignable.type, name) with
    | .error e => .error e
    | .ok _ =>
      match markOf v (assignable.type, name) with
      | some _ => .ok ⟨false, false, v⟩
      | none => (call (assignable.type, name) v).map fun verdict => { verdict with loop := false }

/-- The relation of a computed userset: the flag of a relation that was visited is its answer. -/
def computedVisit (k : RelationKey) : Visit := fun v =>
  match find ts k with
  | .error e => .error e
  | .ok _ =>
    match markOf v k with
    | some hasEntrypoint => .ok ⟨hasEntrypoint, true, v⟩
    | none => call k v

/-- One type of a tupleset; it need not have the computed relation. -/
def tuplesetVisit (computed : String) (assignable : RelationReference) : Visit := fun v =>
  match ts.getRelation assignable.type computed with
  | .error _ => .ok ⟨false, false, v⟩
  | .ok _ =>
    match markOf v (assignable.type, computed) with
    | some hasEntrypoint => .ok ⟨hasEntrypoint, false, v⟩
    | none => (call (assignable.type, computed) v).map fun verdict => { verdict with loop := false }

/-- The caller sees the types that it knows. -/
def leave (visited : Marks) (r : Except Error Verdict) : Except Error Verdict :=
  r.map fun verdict => { verdict with visited := restrict visited verdict.visited }

/-- **The body of `hasEntrypoints`**, with the calls for other relations given. -/
def walk (k : RelationKey) : Rewrite → Visit
  | .this => fun visited =>
    match find ts k with
    | .error e => .error e
    | .ok relation => leave visited
        (anyLoop (assignVisit ts call k) (relatedTypes relation) (mark visited k false) false)
  | .computedUserset computed => fun visited =>
    match find ts k with
    | .error e => .error e
    | .ok _ => leave visited (computedVisit ts call (k.1, computed) (mark visited k false))
  | .tupleToUserset tupleset computed => fun visited =>
    match find ts k with
    | .error e => .error e
    | .ok _ =>
      match find ts (k.1, tupleset) with
      | .error e => .error e
      | .ok relation => leave visited
          (anyLoop (tuplesetVisit ts call computed) (relatedTypes relation) (mark visited k false)
            false)
  | .union (n := n) child => fun visited =>
    match find ts k with
    | .error e => .error e
    | .ok _ =>
      if n < 2 then .error (.invalidRelation k)
      else anyLoop (fun i => walk k (child i)) (List.finRange n)
        (restrict visited (mark visited k false)) false
  | .intersection (n := n) child => fun visited =>
    match find ts k with
    | .error e => .error e
    | .ok _ =>
      if n < 2 then .error (.invalidRelation k)
      else allLoop (fun i => walk k (child i)) (List.finRange n)
        (restrict visited (mark visited k false))
  | .difference base subtract => fun visited =>
    match find ts k with
    | .error e => .error e
    | .ok _ => allLoop (fun isSubtract => if isSubtract then walk k subtract else walk k base)
        [false, true] (restrict visited (mark visited k false))

/-- `hasEntrypoints`, for at most as many relations on the way as the fuel says. -/
def hasEntrypoints : ℕ → RelationKey → Rewrite → Visit
  | 0, _, _ => fun _ => .error .outOfFuel
  | fuel + 1, k, rewrite => walk ts (fun k' v =>
      match find ts k' with
      | .error e => .error e
      | .ok relation => hasEntrypoints fuel k' relation.rewrite v) k rewrite

/-- The relations of the model. -/
def relationKeys : List RelationKey :=
  ts.types.flatMap fun (type, relations) => relations.map fun (relation, _) => (type, relation)

/-- The entrypoint test of `validateRelation`. -/
def validateEntrypoints (k : RelationKey) : Except Error Unit :=
  match find ts k with
  | .error e => .error e
  | .ok relation =>
    match hasEntrypoints ts ((relationKeys ts).length + 1) k relation.rewrite (fun _ => none) with
    | .error e => .error e
    | .ok verdict =>
      if verdict.hasEntrypoint then .ok ()
      else .error (if verdict.loop then .noEntryPointsLoop else .noEntrypoints)

/-! ### What the loops do -/

/-- The items are visited one after the other, with the same answer each. -/
inductive Steps {ι : Type} (visit : ι → Visit) (answer : Bool) : List ι → Marks → Marks → Prop
  | nil (v : Marks) : Steps visit answer [] v v
  | cons {item : ι} {items : List ι} {v v' : Marks} {loop : Bool} {v₁ : Marks}
      (hvisit : visit item v = .ok ⟨answer, loop, v₁⟩) (hrest : Steps visit answer items v₁ v') :
      Steps visit answer (item :: items) v v'

variable {ι : Type} {visit : ι → Visit} {items : List ι} {v v' : Marks} {verdict : Verdict}

variable (visit) in
/-- All items are visited with the same answer, or the loop stops at one with the other answer. -/
def Looped (answer : Bool) (items : List ι) (v : Marks) (verdict : Verdict) : Prop :=
  (verdict.hasEntrypoint = answer ∧ Steps visit answer items v verdict.visited)
    ∨ (verdict.hasEntrypoint = !answer ∧ ∃ before item after v₁ loop',
      items = before ++ item :: after ∧ Steps visit answer before v v₁
        ∧ visit item v₁ = .ok ⟨!answer, loop', verdict.visited⟩)

theorem Looped.cons {answer loop : Bool} {item : ι} (hvisit : visit item v = .ok ⟨answer, loop, v'⟩)
    (h : Looped visit answer items v' verdict) :
    Looped visit answer (item :: items) v verdict := by
  rcases h with ⟨hans, hsteps⟩ | ⟨hans, before, item', after, v₂, l, rfl, hsteps, hlast⟩
  · exact .inl ⟨hans, .cons hvisit hsteps⟩
  · exact .inr ⟨hans, item :: before, item', after, v₂, l, rfl, .cons hvisit hsteps, hlast⟩

/-- **A loop for one entrypoint** visits all items in vain, or stops at one that has it. -/
theorem anyLoop_ok {loop : Bool} (h : anyLoop visit items v loop = .ok verdict) :
    Looped visit false items v verdict := by
  induction items generalizing v loop with
  | nil =>
    cases h
    exact .inl ⟨rfl, .nil v⟩
  | cons item items ih =>
    rw [anyLoop] at h
    split at h
    · cases h
    rename_i first hvisit
    obtain ⟨answer, loop', _⟩ := first
    cases answer with
    | true =>
      cases h
      exact .inr ⟨rfl, [], item, items, v, loop', rfl, .nil v, hvisit⟩
    | false => exact (ih h).cons hvisit

/-- **A loop for all entrypoints** visits all items, or stops at one that has none. -/
theorem allLoop_ok (h : allLoop visit items v = .ok verdict) :
    Looped visit true items v verdict := by
  induction items generalizing v with
  | nil =>
    cases h
    exact .inl ⟨rfl, .nil v⟩
  | cons item items ih =>
    rw [allLoop] at h
    split at h
    · cases h
    rename_i first hvisit
    obtain ⟨answer, loop', _⟩ := first
    cases answer with
    | false =>
      cases h
      exact .inr ⟨rfl, [], item, items, v, loop', rfl, .nil v, hvisit⟩
    | true => exact (ih h).cons hvisit

variable {I : Marks → Prop}

/-- What each visit keeps, a sequence of visits keeps. -/
theorem Steps.invariant {answer : Bool} (h : Steps visit answer items v v')
    (hvisit : ∀ item ∈ items, ∀ v loop v₁, I v → visit item v = .ok ⟨answer, loop, v₁⟩ → I v₁)
    (hv : I v) : I v' := by
  induction h with
  | nil v => exact hv
  | cons hfirst _ ih =>
    refine ih (fun item hitem => hvisit item (mem_cons_of_mem _ hitem)) ?_
    exact hvisit _ mem_cons_self _ _ _ hv hfirst

/-- The visit of each item. -/
theorem Steps.exists_visit {answer : Bool} (h : Steps visit answer items v v') {item : ι}
    (hitem : item ∈ items)
    (hvisit : ∀ item ∈ items, ∀ v loop v₁, I v → visit item v = .ok ⟨answer, loop, v₁⟩ → I v₁)
    (hv : I v) : ∃ v₁ loop v₂, I v₁ ∧ visit item v₁ = .ok ⟨answer, loop, v₂⟩ := by
  induction h with
  | nil v => cases hitem
  | cons hfirst _ ih =>
    rcases mem_cons.mp hitem with rfl | hitem
    · exact ⟨_, _, _, hv, hfirst⟩
    · refine ih hitem (fun item hitem => hvisit item (mem_cons_of_mem _ hitem)) ?_
      exact hvisit _ mem_cons_self _ _ _ hv hfirst

theorem Looped.invariant {answer : Bool} (h : Looped visit answer items v verdict)
    (hvisit : ∀ item ∈ items, ∀ v verdict, I v → visit item v = .ok verdict → I verdict.visited)
    (hv : I v) : I verdict.visited := by
  rcases h with ⟨-, hsteps⟩ | ⟨-, _, item, _, v₁, loop', rfl, hsteps, hlast⟩
  · exact hsteps.invariant (fun item hitem v loop v₁ hv hok => hvisit item hitem v _ hv hok) hv
  · refine hvisit item (by simp) v₁ ⟨_, loop', verdict.visited⟩ ?_ hlast
    refine hsteps.invariant (fun item' hitem' v loop v₁ hv hok => ?_) hv
    exact hvisit item' (mem_append_left _ hitem') v _ hv hok

end Kengen.Entrypoints
