import Kengen.ReverseExpand.Query

/-!
# The candidate maps of reverse expansion

`trySendCandidate` remembers the objects it has sent in the candidate map of its query.  The handlers
of intersections and exclusions work on a clone of the query with a map of its own.  For candidates
that still have to be checked the clone has a channel of its own, too; but an exclusion whose excluded
edge does not lead to the user type runs its clone on the channel it was given.

* `Clone`, `Query.clone` — which map and which channel the edges behind an edge work on.
* `Job`, `Query.sendStep` — the traversal with all candidate maps: the edges that are left, and the
  objects that are about to be offered to a map.
* **`expandEdge_frames`** — the handlers that wait for a Check are those with a channel of their own.
* **`sendInv_step`**, **`run_sendInv`** — what is sent on the channel of the result went through its map.

A move takes a pending job, gives it up (its goroutine ends with an error or finds its context
cancelled), or loses the send that it has stored.
-/

namespace Kengen.ReverseExpand

open List

/-- How a handler clones the query: not at all, with a new candidate map, or with a new map and a new
channel whose candidates are checked. -/
inductive Clone where
  | same
  | renewed
  | nested
deriving DecidableEq, Repr

/-- Something to do: an edge of `loopOverEdges`, or an object for `trySendCandidate`.  The maps are
those of the query and of the queries that wait for its candidates. -/
inductive Job where
  | edge (task : Task) (maps : List ℕ)
  | candidate (object : Object) (frames : List Frame) (maps : List ℕ)
deriving DecidableEq, Repr

/-- What a scheduler can do with a pending job. -/
inductive Move where
  | take (i : ℕ)
  | giveUp (i : ℕ)
  | lose (i : ℕ)
deriving DecidableEq, Repr

structure SendState where
  visited : List String
  pending : List Job
  /-- The next map. -/
  next : ℕ
  /-- The objects that are stored in the candidate maps. -/
  stored : List (ℕ × Object)
  /-- What was sent on the channel of the result. -/
  sent : List Object
deriving DecidableEq

namespace Query

variable (q : Query)

/-- The clone that the edges behind an edge work on. -/
def clone (t : Task) : Clone :=
  match t.edge.edgeType, t.edge.toNode with
  | .rewrite, .operatorNode .intersection _ => .nested
  | .rewrite, .operatorNode .exclusion uid =>
    match (q.getEdgesFromNode (.operatorNode .exclusion uid)).bind q.getEdgesForExclusion with
    | some (_, none) => .renewed
    | _ => .nested
  | _, _ => .same

/-- The maps behind an edge. -/
def mapsBehind (t : Task) (next : ℕ) (maps : List ℕ) : List ℕ :=
  match q.clone t with
  | .same => maps
  | .renewed => next :: maps.tail
  | .nested => next :: maps

/-- The objects that `queryForTuples` finds at the end of a path. -/
def leafObjects (t : Task) : List Object :=
  match t.edge.edgeType, t.relationStack with
  | .direct, top :: rest =>
    (q.readStartingWithUser top.type top.relation (q.leafFilter t.edge.toNode)).flatMap (q.climb rest)
  | _, _ => []

/-- The jobs of an edge, or none if it fails. -/
def edgeJobs (t : Task) (next : ℕ) (maps : List ℕ) : List Job :=
  match q.expandEdge t with
  | none => []
  | some ts => ts.map (fun t' => .edge t' (q.mapsBehind t next maps))
      ++ (q.leafObjects t).map fun o => .candidate o t.frames maps

/-- `callCheckForCandidate`: a candidate that passes is looked up further. -/
def checkedJobs (o : Object) (f : Frame) (frames : List Frame) (maps : List ℕ) : List Job :=
  if q.passes f o then (q.climb f.relationStack o).map fun o' => .candidate o' frames maps else []

/-- Take a job out of the pending ones. -/
def take (s : SendState) (i : ℕ) : Job → SendState
  | .edge t maps =>
    if q.search.seen s.visited t then { s with pending := s.pending.eraseIdx i }
    else { s with
      visited := (key t).toList ++ s.visited
      pending := s.pending.eraseIdx i ++ q.edgeJobs t s.next maps
      next := s.next + 1 }
  | .candidate o frames maps =>
    match maps with
    | [] => { s with pending := s.pending.eraseIdx i }
    | m :: rest =>
      if (m, o) ∈ s.stored then { s with pending := s.pending.eraseIdx i }
      else match frames with
        | [] => { s with
            pending := s.pending.eraseIdx i, stored := (m, o) :: s.stored, sent := s.sent ++ [o] }
        | f :: frames => { s with
            pending := s.pending.eraseIdx i ++ q.checkedJobs o f frames rest
            stored := (m, o) :: s.stored }

/-- The context ends between `LoadOrStore` and the send. -/
def lose (s : SendState) (i : ℕ) : Job → SendState
  | .candidate o _ (m :: _) =>
    { s with pending := s.pending.eraseIdx i, stored := (m, o) :: s.stored }
  | _ => { s with pending := s.pending.eraseIdx i }

/-- One move. -/
def sendStep (s : SendState) : Move → Option SendState
  | .take i => (s.pending[i]?).map (q.take s i)
  | .giveUp i => (s.pending[i]?).map fun _ => { s with pending := s.pending.eraseIdx i }
  | .lose i => (s.pending[i]?).map (lose s i)

/-- The start: the edges of the target, on the first map. -/
def sendInit : SendState := ⟨[], q.start.map fun t => .edge t [0], 1, [], []⟩

def sendRun (moves : List Move) : Option SendState := Runs.run q.sendStep q.sendInit moves

/-! ### The handlers -/

variable {q}

variable {n : Node} {t : Task}

theorem dispatch_frames {stack : List Entry} {frames : List Frame}
    (h : t ∈ q.dispatch n stack frames) : t.frames = frames := by
  obtain ⟨e, -, rfl⟩ := mem_map.mp h
  rfl

variable {t' : Task} {ts : List Task}

theorem replaceTop_frames (h : q.replaceTop t = some ts)
    (ht' : t' ∈ ts) : t'.frames = t.frames := by
  unfold replaceTop at h
  split at h
  · cases h
  · cases h
    exact dispatch_frames ht'

theorem findCandidates_frames {e : Edge} {checked : List Edge} {relation : String}
    {isAllowed : Bool} (h : q.findCandidates t e checked relation isAllowed = some ts)
    (ht' : t' ∈ ts) : ∃ f, t'.frames = f :: t.frames := by
  obtain ⟨_, -, rfl⟩ := Option.map_eq_some_iff.mp h
  obtain ⟨_, -, rfl⟩ := mem_map.mp ht'
  exact ⟨_, rfl⟩

theorem intersectionHandler_frames
    (h : q.intersectionHandler t n = some ts) (ht' : t' ∈ ts) : ∃ f, t'.frames = f :: t.frames := by
  unfold intersectionHandler at h
  split at h
  · cases h
  split at h
  · split_ifs at h
    exact findCandidates_frames h ht'
  · cases h

theorem exclusionHandler_frames (h : q.exclusionHandler t n = some ts) (ht' : t' ∈ ts) :
    (∃ base, (q.getEdgesFromNode n).bind q.getEdgesForExclusion = some (base, none)
        ∧ t'.frames = t.frames)
      ∨ (∃ base excluded, (q.getEdgesFromNode n).bind q.getEdgesForExclusion
          = some (base, some excluded) ∧ ∃ f, t'.frames = f :: t.frames) := by
  unfold exclusionHandler at h
  split at h
  · cases h
  · rename_i base hedges
    obtain ⟨_, -, rfl⟩ := Option.map_eq_some_iff.mp h
    obtain ⟨e, -, rfl⟩ := mem_map.mp ht'
    exact .inl ⟨base, hedges, rfl⟩
  · rename_i base excluded hedges
    split_ifs at h
    exact .inr ⟨base, excluded, hedges, findCandidates_frames h ht'⟩

/-- **The frames behind an edge**: one more where the clone has a channel of its own. -/
theorem expandEdge_frames (h : q.expandEdge t = some ts) (ht' : t' ∈ ts) :
    (q.clone t ≠ .nested ∧ t'.frames = t.frames)
      ∨ (q.clone t = .nested ∧ ∃ f, t'.frames = f :: t.frames) := by
  have hsame : q.clone t = .same → t'.frames = t.frames → q.clone t ≠ .nested
      ∧ t'.frames = t.frames := fun hclone hframes => ⟨by simp [hclone], hframes⟩
  unfold expandEdge at h
  split at h
  case h_1 hkind =>
    have hclone : q.clone t = .same := by simp only [clone, hkind]
    split at h
    · cases h
    split at h
    · cases h
      exact .inl (hsame hclone (dispatch_frames ht'))
    · cases h
      cases ht'
  case h_2 hkind =>
    have hclone : q.clone t = .same := by simp only [clone, hkind]
    split at h
    · cases h
      exact .inl (hsame hclone (dispatch_frames ht'))
    · exact .inl (hsame hclone (replaceTop_frames h ht'))
  case h_3 hkind =>
    have hclone : q.clone t = .same := by simp only [clone, hkind]
    split at h
    · cases h
    · cases h
      exact .inl (hsame hclone (dispatch_frames ht'))
  case h_4 hkind =>
    split at h
    case h_1 uid hto =>
      have hclone : q.clone t = .nested := by simp only [clone, hkind, hto]
      exact .inr ⟨hclone, intersectionHandler_frames h ht'⟩
    case h_2 uid hto =>
      rcases exclusionHandler_frames h ht' with ⟨base, hedges, hframes⟩ | ⟨base, _, hedges, hframes⟩
      · have hclone : q.clone t = .renewed := by simp only [clone, hkind, hto, hedges]
        exact .inl ⟨by simp [hclone], hframes⟩
      · have hclone : q.clone t = .nested := by simp only [clone, hkind, hto, hedges]
        exact .inr ⟨hclone, hframes⟩
    case h_3 uid hto =>
      have hclone : q.clone t = .same := by simp only [clone, hkind, hto]
      cases h
      exact .inl (hsame hclone (dispatch_frames ht'))
    case h_4 hnot₁ hnot₂ hnot₃ =>
      have hclone : q.clone t = .same := by
        unfold clone
        rw [hkind]
        split
        · exact absurd ‹_› (hnot₁ _)
        · exact absurd ‹_› (hnot₂ _)
        · rfl
      exact .inl (hsame hclone (replaceTop_frames h ht'))
  case h_5 hkind =>
    have hclone : q.clone t = .same := by simp only [clone, hkind]
    cases h
    exact .inl (hsame hclone (dispatch_frames ht'))
  case h_6 hkind =>
    have hclone : q.clone t = .same := by simp only [clone, hkind]
    cases h
    exact .inl (hsame hclone (dispatch_frames ht'))

/-! ### What goes through the first map -/

/-- One map for each pending Check, on top of the first one. -/
def Rooted : List Frame → List ℕ → Prop
  | [], maps => maps = [0]
  | _ :: frames, maps => ∃ m rest, maps = m :: rest ∧ Rooted frames rest

variable (q) in
/-- The jobs of the traversal. -/
def GoodJob : Job → Prop
  | .edge t maps => q.search.Reach q.start t ∧ Rooted t.frames maps
  | .candidate _ frames maps => Rooted frames maps

variable (q) in
/-- No exclusion is reached whose excluded edge does not lead to the user type. -/
def ExcludedConnected : Prop := ∀ t, q.search.Reach q.start t → q.clone t ≠ .renewed

variable (q) in
/-- What was sent is different, and stored in the first map. -/
structure SendInv (s : SendState) : Prop where
  jobs : ∀ j ∈ s.pending, q.GoodJob j
  nodup : s.sent.Nodup
  stored : ∀ o ∈ s.sent, (0, o) ∈ s.stored

theorem edgeJobs_good (hconnected : q.ExcludedConnected) {maps : List ℕ} (next : ℕ)
    (h : q.GoodJob (.edge t maps)) : ∀ j ∈ q.edgeJobs t next maps, q.GoodJob j := by
  obtain ⟨hreach, hrooted⟩ := h
  intro j hj
  unfold edgeJobs at hj
  split at hj
  · cases hj
  rename_i ts hts
  rcases mem_append.mp hj with hj | hj
  · obtain ⟨_, ht', rfl⟩ := mem_map.mp hj
    refine ⟨.child hreach hts ht', ?_⟩
    have hrenewed := hconnected t hreach
    unfold mapsBehind
    rcases expandEdge_frames hts ht' with ⟨hnot, hframes⟩ | ⟨hclone, f, hframes⟩
    · have hclone : q.clone t = .same := by
        cases hcase : q.clone t with
        | same => rfl
        | renewed => exact absurd hcase hrenewed
        | nested => exact absurd hcase hnot
      rw [hclone, hframes]
      exact hrooted
    · rw [hclone, hframes]
      exact ⟨next, maps, rfl, hrooted⟩
  · obtain ⟨o, -, rfl⟩ := mem_map.mp hj
    exact hrooted

theorem checkedJobs_good {o : Object} {f : Frame} {frames : List Frame} {maps : List ℕ}
    (h : Rooted frames maps) : ∀ j ∈ q.checkedJobs o f frames maps, q.GoodJob j := by
  intro j hj
  unfold checkedJobs at hj
  split at hj
  · obtain ⟨_, -, rfl⟩ := mem_map.mp hj
    exact h
  · cases hj

variable {s : SendState}

/-- A job leaves, and good ones come. -/
theorem SendInv.jobs_append (h : q.SendInv s) (i : ℕ) {jobs : List Job}
    (hjobs : ∀ j ∈ jobs, q.GoodJob j) : ∀ j ∈ s.pending.eraseIdx i ++ jobs, q.GoodJob j := by
  intro j hj
  rcases mem_append.mp hj with hj | hj
  · exact h.jobs j (mem_of_mem_eraseIdx hj)
  · exact hjobs j hj

theorem SendInv.jobs_erase (h : q.SendInv s) (i : ℕ) : ∀ j ∈ s.pending.eraseIdx i, q.GoodJob j :=
  fun j hj => h.jobs j (mem_of_mem_eraseIdx hj)

theorem sendInv_take (hconnected : q.ExcludedConnected) (h : q.SendInv s) (i : ℕ)
    {j : Job} (hj : q.GoodJob j) : q.SendInv (q.take s i j) := by
  cases j with
  | edge =>
    simp only [take]
    split
    · exact ⟨h.jobs_erase i, h.nodup, h.stored⟩
    · exact ⟨h.jobs_append i (edgeJobs_good hconnected s.next hj), h.nodup, h.stored⟩
  | candidate o frames =>
    simp only [take]
    split
    · exact ⟨h.jobs_erase i, h.nodup, h.stored⟩
    · rename_i m rest
      split
      · exact ⟨h.jobs_erase i, h.nodup, h.stored⟩
      · rename_i hnew
        split
        -- on the channel of the result the map is the first one
        · obtain ⟨rfl, -⟩ := List.cons.inj hj
          refine ⟨h.jobs_erase i, ?_, ?_⟩
          · refine List.Nodup.append h.nodup (nodup_singleton o) ?_
            intro x hx hxo
            rw [mem_singleton.mp hxo] at hx
            exact hnew (h.stored o hx)
          · intro x hx
            rcases mem_append.mp hx with hx | hx
            · exact mem_cons_of_mem _ (h.stored x hx)
            · rw [mem_singleton.mp hx]
              exact mem_cons_self
        · rename_i f frames
          obtain ⟨_, _, heq, hrooted⟩ := hj
          cases heq
          refine ⟨h.jobs_append i (checkedJobs_good hrooted), h.nodup, fun x hx => ?_⟩
          exact mem_cons_of_mem _ (h.stored x hx)

/-- **The step.** -/
theorem sendInv_step (hconnected : q.ExcludedConnected) {s' : SendState} {m : Move}
    (h : q.SendInv s) (hs : q.sendStep s m = some s') : q.SendInv s' := by
  cases m with
  | take i =>
    obtain ⟨j, hj, rfl⟩ := Option.map_eq_some_iff.mp hs
    exact sendInv_take hconnected h i (h.jobs j (mem_of_getElem? hj))
  | giveUp i =>
    obtain ⟨j, -, rfl⟩ := Option.map_eq_some_iff.mp hs
    exact ⟨h.jobs_erase i, h.nodup, h.stored⟩
  | lose i =>
    obtain ⟨j, -, rfl⟩ := Option.map_eq_some_iff.mp hs
    unfold lose
    split
    · exact ⟨h.jobs_erase i, h.nodup, fun x hx => mem_cons_of_mem _ (h.stored x hx)⟩
    · exact ⟨h.jobs_erase i, h.nodup, h.stored⟩

theorem sendInv_init : q.SendInv q.sendInit := by
  refine ⟨fun j hj => ?_, nodup_nil, forall_mem_nil _⟩
  obtain ⟨t, ht, rfl⟩ := mem_map.mp hj
  obtain ⟨e, -, rfl⟩ := mem_map.mp ht
  exact ⟨.start ht, rfl⟩

/-- **A whole run.** -/
theorem run_sendInv (hconnected : q.ExcludedConnected) {moves : List Move}
    (hrun : q.sendRun moves = some s) : q.SendInv s :=
  Runs.run_keeps (fun _ _ _ hs h => sendInv_step hconnected hs h) sendInv_init hrun

end Query

end Kengen.ReverseExpand
