import Kengen.Tuple.Messages

/-!
# Authorization of writes by modules

With access control a client may write to a store when it has `can_call_write` on the store, or on
each module whose types the request touches, and then in at most `maxModulesInRequest` modules.

* `extractModulesFromTuples` — the modules of the tuples; one tuple without a module ends the loop
  with no module at all.
* `individualAuthorize`, `moduleAuthorize`, `authorize` — the internal `Check` calls.
* **`extractModules_spec`** — the modules found are those of all tuples, or none.
* **`write_confined`** — who passes without the relation on the store writes in modules only, in few
  of them, and has the relation on each.

The outcomes of `Check`, the type definitions and `parser.GetModuleForObjectTypeRelation` are
parameters.  A map is listed in any order, and the goroutines of `moduleAuthorize` send their errors
in any order: the lists `modules` and `finished` of a statement are permutations.
-/

namespace Kengen.Authz

open Strings Kengen.Tuple List

/-! ### The modules of a request -/

/-- `openfgav1.WriteRequest`. -/
structure WriteRequest where
  writes : List Tuple.TupleKey
  deletes : List TupleKeyWithoutCondition

/-- The tuples in the order of `GetModulesForWriteRequest`. -/
def WriteRequest.tuples (req : WriteRequest) : List TupleKeyWithoutCondition :=
  req.writes.map (·.toTupleKeyWithoutCondition) ++ req.deletes

/-- The type system and the parser: type definitions, and the module of a type's relation. -/
structure Modules (δ : Type) where
  getTypeDefinition : Str → Option δ
  getModule : δ → Str → Except Str Str

variable {δ : Type} {M : Modules δ}

/-- The loop of `extractModulesFromTuples`, with the modules found before. -/
def extractModules (M : Modules δ) (found : List Str) :
    List TupleKeyWithoutCondition → Except Str (List Str)
  | [] => .ok found
  | tk :: rest =>
    match M.getTypeDefinition (splitObject tk.object).1 with
    | none => .error (str "type '" ++ (splitObject tk.object).1 ++ str "' not found")
    | some definition =>
      match M.getModule definition tk.relation with
      | .error e => .error e
      | .ok module => if module = [] then .ok [] else extractModules M (found.insert module) rest

/-- `GetModulesForWriteRequest`. -/
def getModulesForWriteRequest (M : Modules δ) (req : WriteRequest) : Except Str (List Str) :=
  extractModules M [] req.tuples

/-! ### The checks -/

/-- The part of `openfgav1.CheckRequest` that is not the authorizer's configuration. -/
structure CheckRequest where
  tupleKey : TupleKeyWithoutCondition
  contextualTuples : List TupleKeyWithoutCondition
deriving DecidableEq

/-- The outcomes of the internal `Check` calls. -/
abbrev Check := CheckRequest → Except Str Bool

def maxModulesInRequest : ℕ := 1

def canCallWrite : Str := str "can_call_write"

/-- `StoreIDType.String`. -/
def storeObject (storeID : Str) : Str := str "store:" ++ storeID

/-- `ModuleIDType.String`. -/
def moduleObject (storeID module : Str) : Str := str "module:" ++ storeID ++ byte '|' :: module

/-- `getSystemAccessTuple`. -/
def getSystemAccessTuple (storeID : Str) : TupleKeyWithoutCondition :=
  ⟨storeObject storeID, str "system", str "system:fga"⟩

/-- The check that `Authorize` makes of the store. -/
def storeCheck (clientID storeID : Str) : CheckRequest :=
  ⟨⟨storeObject storeID, canCallWrite, str "application:" ++ clientID⟩,
    [getSystemAccessTuple storeID]⟩

/-- The check that `moduleAuthorize` makes of a module. -/
def moduleCheck (clientID storeID module : Str) : CheckRequest :=
  ⟨⟨moduleObject storeID module, canCallWrite, str "application:" ++ clientID⟩,
    [⟨moduleObject storeID module, str "store", storeObject storeID⟩, getSystemAccessTuple storeID]⟩

variable (check : Check)

/-- `individualAuthorize`. -/
def individualAuthorize (req : CheckRequest) : Except Str Unit :=
  match check req with
  | .error e => .error (str "check returned error: " ++ e)
  | .ok allowed => if allowed then .ok () else .error (str "check returned not allowed")

/-- `moduleAuthorize`: the errors in the channel, in the order in which the checks `finished`. -/
def moduleAuthorize (clientID storeID : Str) (finished : List Str) :
    Except Str Unit :=
  let errors := finished.filterMap fun module =>
    match individualAuthorize check (moduleCheck clientID storeID module) with
    | .error e => some e
    | .ok () => none
  match errors with
  | [] => .ok ()
  | e :: _ => .error e

/-- `Authorize` for `apimethod.Write`; an empty client id is that of a context without claims. -/
def authorize (clientID storeID : Str) (modules finished : List Str) :
    Except Str Unit :=
  if clientID = [] then .error (str "client ID not found in context or is empty")
  else
    match individualAuthorize check (storeCheck clientID storeID) with
    | .ok () => .ok ()
    | .error e =>
      if modules = [] then .error e
      else if maxModulesInRequest < modules.length then
        .error (str "the principal cannot write tuples of more than 1 module(s) in a single request "
          ++ str "(modules in request: " ++ str (toString modules.length) ++ str ")")
      else moduleAuthorize check clientID storeID finished

/-! ### What passes -/

/-- The tuple belongs to the module, which has a name. -/
def BelongsTo (M : Modules δ) (tk : TupleKeyWithoutCondition) (module : Str) : Prop :=
  ∃ definition, M.getTypeDefinition (splitObject tk.object).1 = some definition ∧
    M.getModule definition tk.relation = .ok module ∧ module ≠ []

/-- The tuple's type and relation have no module. -/
def HasNoModule (M : Modules δ) (tk : TupleKeyWithoutCondition) : Prop :=
  ∃ definition, M.getTypeDefinition (splitObject tk.object).1 = some definition ∧
    M.getModule definition tk.relation = .ok []

/-- **The modules found** hold every tuple, or there are none. -/
theorem extractModules_spec {tks : List TupleKeyWithoutCondition} {found modules : List Str}
    (h : extractModules M found tks = .ok modules) :
    modules = [] ∨ found ⊆ modules ∧ ∀ tk ∈ tks, ∃ module ∈ modules, BelongsTo M tk module := by
  induction tks generalizing found with
  | nil =>
    cases h
    exact .inr ⟨Subset.refl _, fun _ h => absurd h not_mem_nil⟩
  | cons tk rest ih =>
    rw [extractModules] at h
    split at h
    · cases h
    rename_i definition hdefinition
    split at h
    · cases h
    rename_i module hmodule
    split_ifs at h with hname
    · cases h
      exact .inl rfl
    · refine (ih h).imp_right fun ⟨hsub, hrest⟩ => ?_
      obtain ⟨hhead, hfound⟩ : module ∈ modules ∧ found ⊆ modules :=
        ⟨hsub (mem_insert_self), fun m hm => hsub (mem_insert_of_mem hm)⟩
      exact ⟨hfound, forall_mem_cons.2 ⟨⟨module, hhead, definition, hdefinition, hmodule, hname⟩,
        hrest⟩⟩

theorem allowed_of_individualAuthorize {check : Check} {req : CheckRequest}
    (h : individualAuthorize check req = .ok ()) : check req = .ok true := by
  rw [individualAuthorize] at h
  split at h
  · cases h
  rename_i allowed hcheck
  cases allowed
  · cases h
  · exact hcheck

/-- **No error in the channel** means that every check allowed. -/
theorem allowed_of_moduleAuthorize {check : Check} {clientID storeID : Str} {finished : List Str}
    (h : moduleAuthorize check clientID storeID finished = .ok ()) {module : Str}
    (hm : module ∈ finished) : check (moduleCheck clientID storeID module) = .ok true := by
  rw [moduleAuthorize] at h
  split at h
  · rename_i herrors
    have hnone := filterMap_eq_nil_iff.1 herrors module hm
    split at hnone
    · cases hnone
    · exact allowed_of_individualAuthorize ‹_›
  · cases h

/-- **Writes are confined to permitted modules.**  A client without the relation on the store that
passes writes and deletes tuples of at most `maxModulesInRequest` modules, and has the relation on
each of these modules of the store; no tuple without a module passes. -/
theorem write_confined (M : Modules δ) (req : WriteRequest) (check : Check) (clientID storeID : Str)
    (found modules finished : List Str) (hfound : getModulesForWriteRequest M req = .ok found)
    (hmodules : modules ~ found) (hfinished : finished ~ modules)
    (hok : authorize check clientID storeID modules finished = .ok ())
    (hlacks : check (storeCheck clientID storeID) ≠ .ok true) :
    (∀ tk ∈ req.tuples, ∃ module ∈ modules, BelongsTo M tk module) ∧
      modules.length ≤ maxModulesInRequest ∧
      (∀ module ∈ modules, check (moduleCheck clientID storeID module) = .ok true) ∧
      ∀ tk ∈ req.tuples, ¬ HasNoModule M tk := by
  have hclient : clientID ≠ [] := by
    rintro rfl
    cases hok
  rw [authorize, if_neg hclient] at hok
  split at hok
  · exact absurd (allowed_of_individualAuthorize ‹_›) hlacks
  split_ifs at hok with hnone hmax
  have hbelongs : ∀ tk ∈ req.tuples, ∃ module ∈ modules, BelongsTo M tk module := by
    rcases extractModules_spec hfound with rfl | ⟨-, h⟩
    · exact absurd hmodules.eq_nil hnone
    · exact fun tk htk => (h tk htk).imp fun module h => ⟨hmodules.mem_iff.2 h.1, h.2⟩
  refine ⟨hbelongs, not_lt.1 hmax,
    fun module hm => allowed_of_moduleAuthorize hok (hfinished.mem_iff.2 hm), ?_⟩
  rintro tk htk ⟨_, hdefinition, hmodule⟩
  -- the parser gives one answer, so a tuple of some module is not one of none
  obtain ⟨module, -, _, hdefinition', hmodule', hname⟩ := hbelongs tk htk
  cases hdefinition.symm.trans hdefinition'
  cases hmodule.symm.trans hmodule'
  exact hname rfl

/-- Types that are modules. -/
def typeModules : Modules Str := ⟨some, fun definition _ => .ok definition⟩

/-- Two writes and a delete in the module `doc`. -/
def docRequest : WriteRequest where
  writes := [⟨⟨str "doc:1", str "viewer", str "user:a"⟩, none⟩,
    ⟨⟨str "doc:2", str "editor", str "user:a"⟩, none⟩]
  deletes := [⟨str "doc:1", str "viewer", str "user:b"⟩]

/-- The client may write in this module, and has no relation on the store. -/
def docCheck : Check := fun req =>
  .ok (decide (req = moduleCheck (str "c") (str "s") (str "doc")))

theorem write_confined_doc :
    (∀ tk ∈ docRequest.tuples, ∃ module ∈ [str "doc"], BelongsTo typeModules tk module) ∧
      [str "doc"].length ≤ maxModulesInRequest ∧
      (∀ module ∈ [str "doc"], docCheck (moduleCheck (str "c") (str "s") module) = .ok true) ∧
      ∀ tk ∈ docRequest.tuples, ¬ HasNoModule typeModules tk :=
  write_confined typeModules docRequest docCheck (str "c") (str "s") [str "doc"] [str "doc"]
    [str "doc"] (by decide) (.refl _) (.refl _) (by decide) (by decide)

end Kengen.Authz
