import Kengen.Check.RecursiveRuns

/-!
# The recursive strategy comes to an end

The number of tuples bounds the work of a search, and the loading before it is
bounded by the messages of the two sides.  So the strategy does not run forever.
What can keep it from returning is its own pool: `recursiveMatch` hands all ids of
the first level to the pool before it receives the first response.

* **`execWeight_step`** — every step lowers a weight.
* **`execProgress`** — the strategy goes on until it returns, unless its pool is jammed.
* **`execMeets_step`** — without other errors on the way it returns no error but the one of the
  left side, unless it is cancelled.
-/

namespace Kengen

namespace Recursive

open PoolSearch List

/-! ### The strategy does not run forever -/

section Ends

variable {r : Resolver} {req : Request} {limit : ℕ} {e : Edge} {kind : RecursiveType} {edge : Edge}

/-- The ids that tuples lead to. -/
def knownIds (r : Resolver) (req : Request) (kind : RecursiveType) : List User :=
  (r.datastore.tuples ++ req.contextualTuples).map kind.mapTuple

/-- The number of tuples. -/
def tupleCount (r : Resolver) (req : Request) : ℕ :=
  r.datastore.tuples.length + req.contextualTuples.length

theorem length_insertSortedTuple_le (key : TupleKey → String) (slice : List TupleKey)
    (t : TupleKey) : (insertSortedTuple key slice t).length ≤ slice.length + 1 := by
  induction slice with
  | nil => simp [insertSortedTuple]
  | cons s slice ih =>
    unfold insertSortedTuple
    split
    · split <;> simp
    · simpa using ih

theorem length_byObject_le (o : Object) (relation : String) (ut : UserType) :
    (req.byObject o relation ut).length ≤ req.contextualTuples.length := by
  have hfold : ∀ (key : TupleKey → String) (ts acc : List TupleKey),
      (ts.foldl (insertSortedTuple key) acc).length ≤ acc.length + ts.length := by
    intro key ts
    induction ts with
    | nil => simp
    | cons t ts ih =>
      intro acc
      have hle := ih (insertSortedTuple key acc t)
      have hins := length_insertSortedTuple_le key acc t
      rw [foldl_cons, length_cons]
      omega
  refine (hfold _ _ []).trans ?_
  rw [length_nil, Nat.zero_add]
  exact length_filter_le _ _

/-- The tuples that are gone through come from the store and the request. -/
theorem recursiveTuples_known (o : Object) (relation : String) :
    (∀ t ∈ recursiveTuples r (req.cloneWithTupleKey o relation) kind edge, IsTuple r req t)
      ∧ (recursiveTuples r (req.cloneWithTupleKey o relation) kind edge).length
        ≤ tupleCount r req := by
  have happ : ∀ (rel : String) (ut : UserType) (p : TupleKey → Bool),
      (∀ t ∈ req.byObject o rel ut ++ r.datastore.tuples.filter p, IsTuple r req t)
        ∧ (req.byObject o rel ut ++ r.datastore.tuples.filter p).length ≤ tupleCount r req := by
    intro rel ut p
    constructor
    · intro t ht
      rcases mem_append.mp ht with ht | ht
      · exact .inr (Request.of_mem_byObject ht).1
      · exact .inl (mem_of_mem_filter ht)
    · have hctx : (req.byObject o rel ut).length ≤ req.contextualTuples.length :=
        length_byObject_le o rel ut
      have hstored := length_filter_le p r.datastore.tuples
      rw [length_append, tupleCount]
      omega
  unfold recursiveTuples
  split
  · unfold usersetTuples
    split
    · exact happ _ _ _
    · simp
  · exact happ _ _ _
  · simp

/-- The search is within the tuples. -/
theorem searchFor_bounded (ids : List String) :
    (searchFor r req limit kind edge ids).Bounded (knownIds r req kind) (tupleCount r req) := by
  constructor
  · intro u p hp
    rcases u with o | ⟨o, rel⟩ | w
    · obtain ⟨t, ht, rfl⟩ := mem_map.mp hp
      exact mem_map_of_mem (mem_append.mpr ((recursiveTuples_known o _).1 t ht))
    · cases hp
    · cases hp
  · intro u
    rcases u with o | ⟨o, rel⟩ | w
    · have hlen := @recursiveTuples_known r req kind edge o req.relation |>.2
      simpa [searchFor, buildTupleMapperForID] using hlen
    · exact Nat.zero_le _
    · exact Nat.zero_le _

/-- What is left to do. -/
def execWeight (r : Resolver) (req : Request) (kind : RecursiveType) : State → ℕ
  | .bootstrap b => (b.left.elim 0 fun l => l.length + 1)
    + (b.right.elim 0 fun t => (tupleCount r req + 7) * t.length + 1)
    + (tupleCount r req + 6) * b.idsFromObject.length
    + (tupleCount r req + 3) * (knownIds r req kind).length + 3
  | .matching _ s => s.weight (knownIds r req kind) (tupleCount r req) + 1
  | .returned _ => 0

/-- A search that has started has no result yet, and its frames are within the tuples. -/
def ExecShaped (r : Resolver) (req : Request) (kind : RecursiveType) : State → Prop
  | .matching _ s => Shaped (knownIds r req kind) s ∧ s.result = none
  | _ => True

theorem takeLeft_weight {b : Bootstrap} {msgs : List (Msg String)} (h : b.left = some msgs) :
    execWeight r req kind (takeLeft b msgs) < execWeight r req kind (.bootstrap b) := by
  rcases msgs with _ | ⟨t | _, msgs⟩ <;> simp only [takeLeft]
  · split <;> simp only [execWeight, h, Option.elim_some, Option.elim_none] <;> omega
  · split
    · simp only [execWeight]
      omega
    · rename_i b' hsome
      have hd := drainLeft_some hsome
      simp only [execWeight, hd.left, hd.right, hd.object, h, Option.elim_some, length_cons]
      omega
  · split <;> simp only [execWeight, h, Option.elim_some, length_cons] <;> omega

theorem takeRight_weight {b : Bootstrap} {t : Trace User} (h : b.right = some t) :
    execWeight r req kind (takeRight b t) < execWeight r req kind (.bootstrap b) := by
  rcases t with _ | ⟨_ | v, t⟩ <;> simp only [takeRight]
  · split <;> simp only [execWeight, h, Option.elim_some, Option.elim_none] <;> omega
  · simp only [execWeight, h, Option.elim_some, length_cons, Nat.mul_succ]
    omega
  · split <;>
      simp only [execWeight, h, Option.elim_some, length_cons, Nat.mul_succ] <;> omega

/-- A search that starts has less to do than the loading before it. -/
theorem startMatch_weight {b : Bootstrap} {order : List User}
    (hperm : order.Perm b.idsFromObject.dedup) :
    execWeight r req kind (.matching b { pending := order })
      < execWeight r req kind (.bootstrap b) := by
  have hlen : order.length ≤ b.idsFromObject.length := by
    rw [hperm.length_eq]
    exact (dedup_sublist _).length_le
  have hpending := Nat.mul_le_mul_left (tupleCount r req + 5) hlen
  have hunvisited : unvisited (knownIds r req kind) [] = (knownIds r req kind).length := by
    simp [unvisited]
  have hsplit : (tupleCount r req + 6) * b.idsFromObject.length
      = (tupleCount r req + 5) * b.idsFromObject.length + b.idsFromObject.length :=
    Nat.succ_mul (tupleCount r req + 5) b.idsFromObject.length
  simp only [execWeight, PoolSearch.State.weight, State.frames, hunvisited, hsplit,
    flatten_nil, map_nil, sum_nil, length_nil, Option.isSome_none,
    Option.isNone_none, if_true, Bool.false_eq_true, if_false]
  omega

/-- **Every step lowers the weight.** -/
theorem execWeight_step (hedge : recursiveEdge r.model e = some (kind, edge)) {s s' : State}
    {c : Choice} (h : ExecShaped r req kind s) (hstep : step r req limit e s c = some s') :
    ExecShaped r req kind s' ∧ execWeight r req kind s' < execWeight r req kind s := by
  unfold step at hstep
  split at hstep
  · obtain ⟨msgs, hmsgs, rfl⟩ := Option.map_eq_some_iff.mp hstep
    refine ⟨?_, takeLeft_weight hmsgs⟩
    rcases msgs with _ | ⟨t | err, msgs⟩ <;> simp only [takeLeft] <;> split <;> trivial
  · obtain ⟨t, ht, rfl⟩ := Option.map_eq_some_iff.mp hstep
    refine ⟨?_, takeRight_weight ht⟩
    rcases t with _ | ⟨err | v, t⟩ <;> simp only [takeRight] <;> first | trivial | split <;> trivial
  · split_ifs at hstep with hclosed
    rw [hedge] at hstep
    cases hstep
    exact ⟨⟨⟨by simp, by simp [State.frames]⟩, rfl⟩, startMatch_weight hclosed.2.2⟩
  · rename_i b s c
    rw [hedge, Option.bind_some] at hstep
    obtain ⟨_, hs₁, heq⟩ := Option.map_eq_some_iff.mp hstep
    have hlt := weight_step (searchFor_bounded b.idsFromUser) h.1 hs₁
    unfold searched at heq
    split at heq
    · rename_i hres
      subst heq
      exact ⟨⟨shaped_step (searchFor_bounded b.idsFromUser) h.1 hs₁, hres⟩, by
        simp only [execWeight]; omega⟩
    · subst heq
      exact ⟨trivial, by simp only [execWeight]; omega⟩
  · cases hstep
    exact ⟨trivial, by simp only [execWeight]; omega⟩
  · cases hstep
    exact ⟨trivial, by simp only [execWeight]; omega⟩
  · cases hstep

/-- **The strategy goes on until it returns**, unless its pool is jammed. -/
theorem execProgress (hlimit : 0 < limit) (hedge : recursiveEdge r.model e = some (kind, edge))
    {s : State} (h : ExecShaped r req kind s) (hs : ∀ res, s ≠ .returned res) :
    Jammed r req limit e s ∨ ∃ c s', c ≠ .cancel ∧ step r req limit e s c = some s' := by
  rcases s with b | ⟨b, s⟩ | res
  · refine .inr ?_
    rcases hleft : b.left with _ | msgs
    · rcases hright : b.right with _ | t
      · refine ⟨.startMatch b.idsFromObject.dedup,
          .matching b { pending := b.idsFromObject.dedup }, by simp, ?_⟩
        simp only [step, hleft, hright, Option.isNone_none, List.Perm.refl, and_self, if_true,
          hedge]
      · exact ⟨.right, takeRight b t, by simp, by simp [step, hright]⟩
    · exact ⟨.left, takeLeft b msgs, by simp, by simp [step, hleft]⟩
  · have hp := progress (S := searchFor r req limit kind edge b.idsFromUser) hlimit h.1 h.2
    rcases hp with hjam | ⟨c, s', hs'⟩
    · refine .inl ?_
      intro p hp
      obtain rfl : (kind, edge) = p := Option.some.inj (hedge.symm.trans hp)
      exact hjam
    · refine .inr ⟨.search c, searched b s', by simp, ?_⟩
      simp only [step, hedge, Option.bind_some, hs', Option.map_some]
  · exact absurd rfl (hs res)

end Ends

/-! ### Errors on the way -/

section Clean

variable {r : Resolver} {req : Request} {limit : ℕ} {e : Edge} {kind : RecursiveType} {edge : Edge}

/-- What the loading meets: `failure` is the error of the left side, if it has one.  It has been met
or is still to come. -/
structure Meeting (failure : Option Err) (b : Bootstrap) : Prop where
  known : b.err = failure
    ∨ b.err = none ∧ ∃ t, Msg.iter t ∈ b.left.getD [] ∧ traceError t = failure
  left : ∀ m ∈ b.left.getD [],
    ∃ t, m = .iter t ∧ ∀ err ∈ traceError t, err.isCancelled ∨ failure = some err
  right : ∀ x ∈ b.right.getD [], ∃ v, x = .ok v
  object : failure.isSome → b.idsFromObject = [] → b.right.getD [] ≠ []

/-- Only the failure of the left side is met. -/
def ExecMeets (failure : Option Err) : State → Prop
  | .bootstrap b => Meeting failure b
  | .matching b s => b.err = failure ∧ NoError s
  | .returned res => res = refuse failure ∨ res = .ok true

variable {failure : Option Err} {b : Bootstrap}

theorem takeLeft_meets (hf : ∀ err ∈ failure, err.isCancelled = false) (h : Meeting failure b)
    {msgs : List (Msg String)} (hmsgs : b.left = some msgs) :
    ExecMeets failure (takeLeft b msgs) := by
  obtain ⟨hknown, hleft, hright, hobject⟩ := h
  rw [hmsgs, Option.getD_some] at hknown hleft
  rcases msgs with _ | ⟨t | err, msgs⟩ <;> simp only [takeLeft]
  · -- the end of the left side: its error has been met
    have herr : b.err = failure := hknown.resolve_right (by simp)
    split
    · rw [herr]
      exact .inl rfl
    · exact ⟨.inl herr, by simp, hright, hobject⟩
  · split
    · exact .inr rfl
    · rename_i b' hsome
      have hd := drainLeft_some hsome
      obtain ⟨_, ⟨⟩, ht⟩ := hleft _ (mem_cons_self ..)
      refine ⟨?_, ?_, by rwa [hd.right], by rwa [hd.right, hd.object]⟩
      · rw [hd.err, hd.left]
        by_cases hmet : traceError t = failure
        · rcases failure with _ | err
          · exact .inl (by simpa [hmet] using hknown.elim id And.left)
          · exact .inl (by simp [hmet, Option.filter, hf err rfl])
        · -- an error other than the failure is a cancellation
          have hquiet : (traceError t).filter (!·.isCancelled) = none := by
            rw [Option.filter_eq_none_iff]
            intro err herr
            have := (ht err herr).resolve_right fun heq => hmet (herr.trans heq.symm)
            simp [this]
          rw [hquiet, Option.none_or]
          refine hknown.imp id fun h => ?_
          obtain ⟨hnone, u, hu, hfail⟩ := h
          refine ⟨hnone, u, ?_, hfail⟩
          exact (mem_cons.mp hu).resolve_left fun heq => hmet (Msg.iter.inj heq ▸ hfail)
      · rw [hd.left]
        exact fun m hm => hleft m (mem_cons_of_mem _ hm)
  · obtain ⟨t, ht, -⟩ := hleft _ (mem_cons_self ..)
    cases ht

theorem takeRight_meets (h : Meeting failure b) {t : Trace User} (ht : b.right = some t) :
    ExecMeets failure (takeRight b t) := by
  obtain ⟨hknown, hleft, hright, hobject⟩ := h
  rw [ht, Option.getD_some] at hright hobject
  rcases t with _ | ⟨err | v, t⟩ <;> simp only [takeRight]
  · split
    · rename_i hempty
      rcases failure with _ | err
      · exact .inl (by rw [hknown.elim id And.left])
      · exact absurd rfl (hobject rfl hempty)
    · rename_i hids
      exact ⟨hknown, hleft, by simp, fun _ hempty => absurd hempty hids⟩
  · obtain ⟨v, hv⟩ := hright _ (mem_cons_self ..)
    cases hv
  · split
    · exact .inr rfl
    · exact ⟨hknown, hleft, fun x hx => hright x (mem_cons_of_mem _ hx), by simp⟩

/-- **No step makes an error**, unless the caller gives up. -/
theorem execMeets_step (hedge : recursiveEdge r.model e = some (kind, edge))
    (hdecided : ∀ ids, (searchFor r req limit kind edge ids).Decided)
    (hf : ∀ err ∈ failure, err.isCancelled = false) {s s' : State} {c : Choice}
    (h : ExecMeets failure s) (hc : c ≠ .cancel) (hstep : step r req limit e s c = some s') :
    ExecMeets failure s' := by
  unfold step at hstep
  split at hstep
  · obtain ⟨_, hmsgs, rfl⟩ := Option.map_eq_some_iff.mp hstep
    exact takeLeft_meets hf h hmsgs
  · obtain ⟨t, ht, rfl⟩ := Option.map_eq_some_iff.mp hstep
    exact takeRight_meets h ht
  · rename_i b order
    split_ifs at hstep with hclosed
    rw [hedge] at hstep
    cases hstep
    refine ⟨h.known.resolve_right ?_, by simp [State.frames], by simp, rfl, by simp⟩
    simp [Option.isNone_iff_eq_none.mp hclosed.1]
  · rename_i b s c
    rw [hedge, Option.bind_some] at hstep
    obtain ⟨_, hs₁, rfl⟩ := Option.map_eq_some_iff.mp hstep
    have hclean := noError_step (hdecided b.idsFromUser) h.2 hs₁
    unfold searched
    split
    · exact ⟨h.1, hclean⟩
    · rename_i res hres
      rw [h.1]
      rcases res with err | _ | _
      · exact absurd hres (hclean.result err)
      · exact .inl rfl
      · exact .inr rfl
  · exact absurd rfl hc
  · exact absurd rfl hc
  · cases hstep

theorem traceError_of_untilCancelled {α : Type} {t : Trace α} {xs : List α}
    (h : untilCancelled t = okTrace xs) :
    (∀ err ∈ traceError t, err.isCancelled) ∧ valuesBefore t = xs := by
  induction t generalizing xs with
  | nil =>
    obtain rfl : xs = [] := map_eq_nil_iff.mp h.symm
    exact ⟨by simp [traceError], rfl⟩
  | cons x t ih =>
    rcases x with err | x
    · unfold untilCancelled at h
      split at h
      · rename_i hc
        obtain rfl : xs = [] := map_eq_nil_iff.mp h.symm
        exact ⟨by simpa [traceError] using hc, rfl⟩
      · rcases xs with _ | ⟨y, ys⟩
        · cases h
        · cases (List.cons.inj h).1
    · rcases xs with _ | ⟨y, ys⟩
      · cases h
      · obtain ⟨hxy, htail⟩ := List.cons.inj h
        cases hxy
        obtain ⟨herr, hvalues⟩ := ih htail
        exact ⟨herr, by rw [valuesBefore, hvalues]⟩

/-- A channel without errors brings the values that are read from it. -/
theorem messages_of_fromChannel {msgs : List (Msg String)} {xs : List String}
    (h : fromChannel msgs = okTrace xs) :
    (∀ m ∈ msgs, ∃ t, m = .iter t ∧ ∀ err ∈ traceError t, err.isCancelled)
      ∧ messageIds msgs = xs := by
  induction msgs generalizing xs with
  | nil =>
    obtain rfl : xs = [] := map_eq_nil_iff.mp h.symm
    exact ⟨by simp, rfl⟩
  | cons m msgs ih =>
    rcases m with t | err
    · obtain ⟨ys, _, rfl, hys, hzs⟩ := map_eq_append_iff.mp h.symm
      obtain ⟨herr, hvalues⟩ := traceError_of_untilCancelled hys.symm
      obtain ⟨hrest, hids⟩ := ih hzs.symm
      refine ⟨fun m hm => ?_, by rw [messageIds, hvalues, hids]⟩
      rcases mem_cons.mp hm with rfl | hm
      · exact ⟨t, rfl, herr⟩
      · exact hrest m hm
    · rcases xs with _ | ⟨y, ys⟩
      · cases h
      · cases (List.cons.inj h).1

end Clean

end Recursive

end Kengen
