import Kengen.Typesystem.Rewrites

/-!
# Cycles of computed relations

`HasCycle` follows the computed usersets of a rewrite rule and looks for a relation that is on its
own path.  Each call writes its relation into the map that it is given and goes on with a clone of
it.  The operands of an operator share one clone, but all that they write into it is the relation
that they belong to.

* `hasCycleWalk`, `hasCycle` — the test, with a bound on the number of relations on the path.
* `Computes` — the relation's rule has a computed userset, at any depth.
* **`hasCycle_exact`** — the test returns, and it finds a cycle exactly if there is one.
-/

namespace Kengen

open List

/-- The computed usersets of a rewrite rule. -/
def Rewrite.computedRelations : Rewrite → List String
  | .this => []
  | .computedUserset relation => [relation]
  | .tupleToUserset _ _ => []
  | .union (n := n) child => (List.finRange n).flatMap fun i => (child i).computedRelations
  | .intersection (n := n) child => (List.finRange n).flatMap fun i => (child i).computedRelations
  | .difference base subtract => base.computedRelations ++ subtract.computedRelations

namespace Cycles

inductive Error where
  | undefined (err : RelationErr)
  | outOfFuel
deriving DecidableEq, Repr

section Test

variable (relationName : String)

/-- The loop over the children, which share one map. -/
def anyChild {ι : Type} (visit : ι → Finset String → Except Error Bool) :
    List ι → Finset String → Except Error Bool
  | [], _ => .ok false
  | child :: children, visitedCopy =>
    match visit child visitedCopy with
    | .error e => .error e
    | .ok true => .ok true
    | .ok false => anyChild visit children (insert relationName visitedCopy)

/-- **The body of `hasCycle`**, with the calls for other relations given. -/
def hasCycleWalk (call : String → Finset String → Except Error Bool) :
    Rewrite → Finset String → Except Error Bool
  | .this, _ => .ok false
  | .tupleToUserset _ _, _ => .ok false
  | .computedUserset rewrittenRelation, visited =>
    if rewrittenRelation ∈ insert relationName visited then .ok true
    else call rewrittenRelation (insert relationName visited)
  | .union (n := n) child, visited => anyChild relationName (fun i => hasCycleWalk call (child i))
      (List.finRange n) (insert relationName visited)
  | .intersection (n := n) child, visited => anyChild relationName
      (fun i => hasCycleWalk call (child i)) (List.finRange n) (insert relationName visited)
  | .difference base subtract, visited => anyChild relationName
      (fun isSubtract => if isSubtract then hasCycleWalk call subtract else hasCycleWalk call base)
      [false, true] (insert relationName visited)

end Test

variable (ts : TypeSystem) (objectType : String)

/-- `hasCycle`, for at most as many relations on the path as the fuel says. -/
def hasCycleFrom : ℕ → String → Finset String → Except Error Bool
  | 0, _, _ => .error .outOfFuel
  | fuel + 1, relationName, visited =>
    match ts.getRelation objectType relationName with
    | .error e => .error (.undefined e)
    | .ok r => hasCycleWalk relationName (hasCycleFrom fuel) r.rewrite visited

/-- `HasCycle`. -/
def hasCycle (relationName : String) : Except Error Bool :=
  hasCycleFrom ts objectType (ts.relationNames.length + 1) relationName ∅

/-- The first relation's rule has the second one as a computed userset. -/
def Computes (p q : String) : Prop :=
  ∃ r, ts.getRelation objectType p = .ok r ∧ q ∈ r.rewrite.computedRelations

/-- All computed references of the type resolve. -/
def Resolves : Prop := ∀ p q, Computes ts objectType p q → ∃ r, ts.getRelation objectType q = .ok r

/-- The test does not run out of fuel, and it decides the proposition if the references resolve. -/
def Settled (result : Except Error Bool) (p : Prop) : Prop :=
  result ≠ .error .outOfFuel
    ∧ (Resolves ts objectType → ∃ b, result = .ok b ∧ (b = true ↔ p))

variable {ts} {objectType}

variable {relationName : String} {visited V : Finset String}

theorem Settled.congr {result : Except Error Bool} {p q : Prop} (h : Settled ts objectType result p)
    (hpq : q ↔ p) : Settled ts objectType result q := by
  rwa [propext hpq]

/-- **The loop over the children** decides whether one of them has a cycle. -/
theorem settled_anyChild {ι : Type} {visit : ι → Finset String → Except Error Bool} {p : ι → Prop}
    {children : List ι} (hself : relationName ∈ V)
    (h : ∀ child ∈ children, Settled ts objectType (visit child V) (p child)) :
    Settled ts objectType (anyChild relationName visit children V) (∃ child ∈ children, p child) := by
  induction children with
  | nil => exact ⟨nofun, fun _ => ⟨false, rfl, by simp⟩⟩
  | cons child children ih =>
    obtain ⟨⟨hfuel, hdecides⟩, hrest⟩ := forall_mem_cons.mp h
    obtain ⟨hfuel', hdecides'⟩ := ih hrest
    rw [anyChild, Finset.insert_eq_of_mem hself, exists_mem_cons_iff]
    rcases hvisit : visit child V with e | _ | _
    · refine ⟨by simpa [hvisit] using hfuel, fun hresolves => ?_⟩
      obtain ⟨b, hb, -⟩ := hdecides hresolves
      simp [hvisit] at hb
    · refine ⟨hfuel', fun hresolves => ?_⟩
      obtain ⟨b, hb, hp⟩ := hdecides hresolves
      obtain ⟨b', hb', hp'⟩ := hdecides' hresolves
      cases hvisit.symm.trans hb
      exact ⟨b', hb', by simp [hp', ← hp]⟩
    · refine ⟨nofun, fun hresolves => ?_⟩
      obtain ⟨b, hb, hp⟩ := hdecides hresolves
      cases hvisit.symm.trans hb
      exact ⟨true, rfl, by simp [hp.mp rfl]⟩

/-- **A walk** decides whether a computed userset is on the path or has a cycle. -/
theorem settled_walk {call : String → Finset String → Except Error Bool} {p : String → Prop}
    {rewrite : Rewrite} (hcall : ∀ q ∈ rewrite.computedRelations, q ∉ V →
      Settled ts objectType (call q V) (p q)) (hV : insert relationName visited = V) :
    Settled ts objectType (hasCycleWalk relationName call rewrite visited)
      (∃ q ∈ rewrite.computedRelations, q ∈ V ∨ p q) := by
  have hself : relationName ∈ V := hV ▸ Finset.mem_insert_self _ _
  have hsame : insert relationName V = V := Finset.insert_eq_of_mem hself
  induction rewrite generalizing visited with
  | this | tupleToUserset =>
    exact ⟨nofun, fun _ => ⟨false, rfl, by simp [Rewrite.computedRelations]⟩⟩
  | computedUserset q =>
    simp only [hasCycleWalk, hV, Rewrite.computedRelations, mem_singleton, exists_eq_left]
    split
    · exact ⟨nofun, fun _ => ⟨true, rfl, by simp [*]⟩⟩
    · exact (hcall q (by simp [Rewrite.computedRelations]) ‹_›).congr (by simp [*])
  | union child ih | intersection child ih =>
    rw [hasCycleWalk, hV]
    refine (settled_anyChild hself fun i _ => ih i (fun q hq => hcall q ?_) hsame).congr ?_
    · exact mem_flatMap.mpr ⟨i, mem_finRange i, hq⟩
    · simp only [Rewrite.computedRelations, mem_flatMap]
      grind
  | difference base subtract ihb ihs =>
    rw [hasCycleWalk, hV]
    refine (settled_anyChild (p := fun isSubtract => ∃ q ∈ (if isSubtract then subtract else
      base).computedRelations, q ∈ V ∨ p q) hself fun isSubtract _ => ?_).congr ?_
    · cases isSubtract with
      | false => exact ihb (fun q hq => hcall q (mem_append_left _ hq)) hsame
      | true => exact ihs (fun q hq => hcall q (mem_append_right _ hq)) hsame
    · simp [Rewrite.computedRelations, or_and_right, exists_or]

/-- The path comes to a relation that it has visited, or to one that depends on itself. -/
def Meets (ts : TypeSystem) (objectType relationName : String) (visited : Finset String) : Prop :=
  ∃ q, Relation.TransGen (Computes ts objectType) relationName q
    ∧ (q ∈ insert relationName visited ∨ Relation.TransGen (Computes ts objectType) q q)

theorem meets_iff : Meets ts objectType relationName visited ↔
    ∃ q, Computes ts objectType relationName q ∧ (q ∈ insert relationName visited
      ∨ Meets ts objectType q (insert relationName visited)) := by
  constructor
  · rintro ⟨x, hx, hmeets⟩
    obtain ⟨q, hq, hrest⟩ := Relation.TransGen.head'_iff.mp hx
    refine ⟨q, hq, ?_⟩
    rcases Relation.reflTransGen_iff_eq_or_transGen.mp hrest with rfl | hrest
    · exact hmeets.imp_right fun h => ⟨_, h, .inr h⟩
    · exact .inr ⟨x, hrest, hmeets.imp_left (Finset.mem_insert_of_mem ·)⟩
  · rintro ⟨q, hq, hmem | ⟨x, hx, hmeets⟩⟩
    · exact ⟨q, .single hq, .inl hmem⟩
    · refine ⟨x, .head hq hx, ?_⟩
      rcases hmeets with hmem | hmeets
      · rcases Finset.mem_insert.mp hmem with rfl | hmem
        · exact .inr hx
        · exact .inl hmem
      · exact .inr hmeets

/-- **A call** for a relation that is not on the path. -/
theorem settled_hasCycleFrom {fuel : ℕ} (hnot : relationName ∉ visited)
    (hfuel : (ts.relationNames.toFinset \ visited).card < fuel)
    (hdefined : Resolves ts objectType → ∃ r, ts.getRelation objectType relationName = .ok r) :
    Settled ts objectType (hasCycleFrom ts objectType fuel relationName visited)
      (Meets ts objectType relationName visited) := by
  induction fuel generalizing relationName visited with
  | zero => cases hfuel
  | succ fuel ih =>
    rw [hasCycleFrom]
    cases hr : ts.getRelation objectType relationName with
    | error =>
      refine ⟨nofun, fun hresolves => ?_⟩
      obtain ⟨r, hr'⟩ := hdefined hresolves
      cases hr.symm.trans hr'
    | ok r =>
      refine (settled_walk (p := fun q => Meets ts objectType q (insert relationName visited))
        (fun q hq hq' => ih hq' ?_ fun hresolves => hresolves _ q ⟨r, hr, hq⟩) rfl).congr ?_
      · have hmem : relationName ∈ ts.relationNames.toFinset \ visited := by
          simp [relation_mem_relationNames hr, hnot]
        have hfewer := Finset.card_erase_lt_of_mem hmem
        rw [Finset.sdiff_insert]
        omega
      · rw [meets_iff]
        simp [Computes, hr]

/-- **`HasCycle` is exact**: it returns, and if all computed references resolve, then it says whether
a chain of computed usersets comes to a relation twice. -/
theorem hasCycle_exact (ts : TypeSystem) (objectType relationName : String) :
    hasCycle ts objectType relationName ≠ .error .outOfFuel
      ∧ ∀ r, ts.getRelation objectType relationName = .ok r → Resolves ts objectType →
        ∃ b, hasCycle ts objectType relationName = .ok b
          ∧ (b = true ↔ ∃ q, Relation.ReflTransGen (Computes ts objectType) relationName q
            ∧ Relation.TransGen (Computes ts objectType) q q) := by
  cases hr : ts.getRelation objectType relationName with
  | error => simp [hasCycle, hasCycleFrom, hr]
  | ok r =>
    have hcard : (ts.relationNames.toFinset \ ∅).card < ts.relationNames.length + 1 := by
      simpa using Nat.lt_succ_of_le (toFinset_card_le ts.relationNames)
    obtain ⟨hfuel, hdecides⟩ := settled_hasCycleFrom (Finset.notMem_empty relationName) hcard
      fun _ => ⟨r, hr⟩
    refine ⟨hfuel, fun _ _ hresolves => ?_⟩
    obtain ⟨b, hb, hmeets⟩ := hdecides hresolves
    refine ⟨b, hb, hmeets.trans ⟨?_, ?_⟩⟩
    · rintro ⟨q, hq, hmem | hcycle⟩
      · obtain rfl : q = relationName := by simpa using hmem
        exact ⟨q, .refl, hq⟩
      · exact ⟨q, hq.to_reflTransGen, hcycle⟩
    · rintro ⟨q, hq, hcycle⟩
      rcases Relation.reflTransGen_iff_eq_or_transGen.mp hq with rfl | hq
      · exact ⟨q, hcycle, .inl (Finset.mem_insert_self _ _)⟩
      · exact ⟨q, hq, .inr hcycle⟩

/-- Both operands of a union refer to one relation. -/
def siblings : TypeSystem where
  types := [("document", [
    ("editor", ⟨.this, some []⟩),
    ("viewer", ⟨.union fun _ : Fin 2 => .computedUserset "editor", none⟩)])]

/-- The relation that both refer to is no cycle. -/
theorem hasCycle_exact_siblings : hasCycle siblings "document" "viewer" = .ok false
    ∧ ¬ ∃ q, Relation.ReflTransGen (Computes siblings "document") "viewer" q
      ∧ Relation.TransGen (Computes siblings "document") q q := by
  have hok : hasCycle siblings "document" "viewer" = .ok false := by decide
  have hresolves : Resolves siblings "document" := by
    rintro p q ⟨r, hr, hq⟩
    have hp := relation_mem_relationNames hr
    simp only [siblings, TypeSystem.relationNames, flatMap_cons, flatMap_nil, map_cons,
      map_nil, append_nil, mem_cons, not_mem_nil, or_false] at hp
    rcases hp with rfl | rfl <;> cases hr
    · cases hq
    · exact ⟨_, by simp [Rewrite.computedRelations] at hq; rw [hq]; rfl⟩
  obtain ⟨b, hb, hiff⟩ := (hasCycle_exact siblings "document" "viewer").2 _ rfl hresolves
  cases hok.symm.trans hb
  exact ⟨hok, fun h => nomatch hiff.mpr h⟩

end Cycles

end Kengen
