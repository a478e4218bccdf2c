import Kengen.Lib.Runs

/-!
# A graph search by a pool of goroutines with one shared set of visited objects

The search starts from some objects and asks whether a target can be reached
from them in one step or more.  Each object that is taken up is read by a frame;
a frame goes through the entries of its object.  An entry names an object and
has a condition.  An object that was visited before is passed over; otherwise it
is marked visited, **then** its condition is looked at, and if that is true the
object is a target, which is announced on a channel, or it is taken up.

A pool has room for `limit` goroutines, and a goroutine is a stack of frames: a
frame for a new object gets a goroutine of its own if the pool has room, else it
is put on top of the frame that found it.  The main routine first hands all start
objects to the pool, waiting for room, and only then receives what is announced.
The channel holds `limit` messages.

* **`stepped_of_step`** — the steps, one by one.
* **`acts_act`** — the moves of a frame, one by one.
-/

namespace Kengen.PoolSearch

open List

variable {Id ε : Type}

/-- What is searched. -/
structure Search (Id ε : Type) where
  /-- the entries of an object, each with the outcome of its condition -/
  read : Id → List (Id × Except ε Bool)
  target : Id → Bool
  /-- the errors that end a frame without a message -/
  quiet : ε → Bool
  limit : ℕ

/-- One call of the resolver: it reads the entries of an object or sends its message. -/
inductive Frame (Id ε : Type) where
  | reading (id : Id) (rest : List (Id × Except ε Bool)) (onceValid : Bool) (lastErr : Option ε)
  | sending (msg : Except ε Unit)
deriving DecidableEq

/-- The state of a search.  `current` is the start object that waits for room in the pool;
`taken` records the objects that were taken up. -/
structure State (Id ε : Type) where
  pending : List Id
  current : Option Id := none
  visited : List Id := []
  taken : List Id := []
  routines : List (List (Frame Id ε)) := []
  buffer : List (Except ε Unit) := []
  err : Option ε := none
  result : Option (Except ε Bool) := none

/-- The choices of the scheduler: the main routine goes on, or a goroutine does. -/
inductive Choice where
  | store
  | launch
  | move (i : ℕ)
  | receive
  | close
deriving DecidableEq, Repr

/-- What a move of a frame does: what is left of the frame, and what it marks, takes up and
sends. -/
structure Effect (Id ε : Type) where
  frame : Option (Frame Id ε)
  mark : Option Id := none
  child : Option Id := none
  message : Option (Except ε Unit) := none

/-- The frame that reads an object. -/
def Search.open (S : Search Id ε) (id : Id) : Frame Id ε := .reading id (S.read id) false none

/-- A goroutine ends with its last frame. -/
def keep (stack : List (Frame Id ε)) : List (List (Frame Id ε)) :=
  if stack = [] then [] else [stack]

/-- All frames of a state. -/
def State.frames (s : State Id ε) : List (Frame Id ε) := s.routines.flatten

section Step

variable [DecidableEq Id] (S : Search Id ε)

/-- The move of a frame. -/
def act (visited : List Id) : Frame Id ε → Effect Id ε
  | .sending msg => { frame := none, message := some msg }
  | .reading _ [] onceValid lastErr =>
    match onceValid, lastErr with
    | false, some e => { frame := if S.quiet e then none else some (.sending (.error e)) }
    | _, _ => { frame := none }
  | .reading id ((x, cond) :: rest) onceValid lastErr =>
    if x ∈ visited then { frame := some (.reading id rest onceValid lastErr) }
    else match cond with
      | .error e => { frame := some (.reading id rest onceValid (some e)), mark := some x }
      | .ok false => { frame := some (.reading id rest onceValid lastErr), mark := some x }
      | .ok true =>
        if S.target x then { frame := some (.sending (.ok ())), mark := some x }
        else { frame := some (.reading id rest true lastErr), mark := some x, child := some x }

/-- The goroutines after a move of the top frame of one of them. -/
def place (before after : List (List (Frame Id ε))) (stack : List (Frame Id ε))
    (eff : Effect Id ε) : List (List (Frame Id ε)) :=
  let stack := eff.frame.toList ++ stack
  match eff.child with
  | none => before ++ keep stack ++ after
  | some x =>
    if before.length + 1 + after.length < S.limit then before ++ keep stack ++ after ++ [[S.open x]]
    else before ++ (S.open x :: stack) :: after

/-- One step. -/
def step (s : State Id ε) : Choice → Option (State Id ε)
  | .store =>
    match s.result, s.current, s.pending with
    | none, none, id :: pending =>
      some { s with
        pending := pending, current := some id, visited := id :: s.visited, taken := id :: s.taken }
    | _, _, _ => none
  | .launch =>
    match s.result, s.current with
    | none, some id =>
      if s.routines.length < S.limit then
        some { s with current := none, routines := [S.open id] :: s.routines }
      else none
    | _, _ => none
  | .move i =>
    match s.result, s.routines.drop i with
    | none, (f :: stack) :: after =>
      let eff := act S s.visited f
      -- a message waits for room in the channel
      if eff.message.isSome ∧ S.limit ≤ s.buffer.length then none
      else
        some { s with
          visited := eff.mark.toList ++ s.visited
          taken := eff.child.toList ++ s.taken
          routines := place S (s.routines.take i) after stack eff
          buffer := s.buffer ++ eff.message.toList }
    | _, _ => none
  | .receive =>
    match s.result, s.current, s.pending, s.buffer with
    | none, none, [], .ok () :: _ => some { s with result := some (.ok true) }
    | none, none, [], .error e :: buffer => some { s with buffer := buffer, err := some e }
    | _, _, _, _ => none
  | .close =>
    match s.result, s.current, s.pending, s.routines, s.buffer with
    | none, none, [], [], [] =>
      some { s with result := some (match s.err with | none => .ok false | some e => .error e) }
    | _, _, _, _, _ => none

/-- An entry with a true condition is passed over only if its object has been taken up. -/
def Settled (s : State Id ε) : Choice → Prop
  | .move i =>
    match s.routines.drop i with
    | (.reading _ ((x, .ok true) :: _) _ _ :: _) :: _ => x ∈ s.visited → x ∈ s.taken
    | _ => True
  | _ => True

instance (s : State Id ε) (c : Choice) : Decidable (Settled s c) := by
  unfold Settled
  split
  · split <;> infer_instance
  · infer_instance

end Step

/-- The search is jammed: the main routine waits for room in the pool, and the whole pool for room
in the channel. -/
def Jammed (S : Search Id ε) (s : State Id ε) : Prop :=
  s.current.isSome ∧ S.limit ≤ s.routines.length ∧ S.limit ≤ s.buffer.length
    ∧ ∀ stack ∈ s.routines, ∃ msg rest, stack = .sending msg :: rest

/-! ### One move in terms of frames -/

theorem flatten_keep (stack : List (Frame Id ε)) : (keep stack).flatten = stack := by
  unfold keep
  split
  · rename_i h
    rw [h]
    rfl
  · simp

/-- The frames after a move, up to order. -/
theorem flatten_place (S : Search Id ε) (before after : List (List (Frame Id ε)))
    (stack : List (Frame Id ε)) (eff : Effect Id ε) :
    (place S before after stack eff).flatten.Perm
      (eff.child.toList.map S.open
        ++ (eff.frame.toList ++ (before.flatten ++ (stack ++ after.flatten)))) := by
  have hmove : (before.flatten ++ (eff.frame.toList ++ (stack ++ after.flatten))).Perm
      (eff.frame.toList ++ (before.flatten ++ (stack ++ after.flatten))) := by
    rw [← append_assoc, ← append_assoc eff.frame.toList]
    exact perm_append_comm.append_right _
  unfold place
  rcases hchild : eff.child with _ | x
  · simpa [flatten_keep] using hmove
  · dsimp only
    split
    · have hflat : (before ++ keep (eff.frame.toList ++ stack) ++ after ++ [[S.open x]]).flatten
          = (before.flatten ++ (eff.frame.toList ++ (stack ++ after.flatten))) ++ [S.open x] := by
        simp [flatten_keep]
      rw [hflat]
      exact (hmove.append_right _).trans perm_append_comm
    · have hflat : (before ++ (S.open x :: (eff.frame.toList ++ stack)) :: after).flatten
          = before.flatten ++ (S.open x :: (eff.frame.toList ++ (stack ++ after.flatten))) := by
        simp
      rw [hflat]
      exact perm_middle.trans (hmove.cons _)

section Moves

variable [DecidableEq Id]

/-- The moves of a frame. -/
inductive Acts (S : Search Id ε) (visited : List Id) : Frame Id ε → Effect Id ε → Prop
  | send (msg : Except ε Unit) :
      Acts S visited (.sending msg) { frame := none, message := some msg }
  | fail (id : Id) (e : ε) :
      Acts S visited (.reading id [] false (some e)) { frame := some (.sending (.error e)) }
  | done (id : Id) (v : Bool) (lastErr : Option ε) :
      Acts S visited (.reading id [] v lastErr) { frame := none }
  | pass (id x : Id) (cond : Except ε Bool) (rest : List (Id × Except ε Bool)) (v : Bool)
      (lastErr : Option ε) (hx : x ∈ visited) :
      Acts S visited (.reading id ((x, cond) :: rest) v lastErr)
        { frame := some (.reading id rest v lastErr) }
  | mark (id x : Id) (cond : Except ε Bool) (rest : List (Id × Except ε Bool)) (v : Bool)
      (lastErr lastErr' : Option ε) (hx : x ∉ visited) (hcond : cond ≠ .ok true)
      (herr : ∀ e, lastErr' = some e → lastErr = some e ∨ cond = .error e) :
      Acts S visited (.reading id ((x, cond) :: rest) v lastErr)
        { frame := some (.reading id rest v lastErr'), mark := some x }
  | found (id x : Id) (rest : List (Id × Except ε Bool)) (v : Bool) (lastErr : Option ε)
      (hx : x ∉ visited) (htarget : S.target x = true) :
      Acts S visited (.reading id ((x, .ok true) :: rest) v lastErr)
        { frame := some (.sending (.ok ())), mark := some x }
  | take (id x : Id) (rest : List (Id × Except ε Bool)) (v : Bool) (lastErr : Option ε)
      (hx : x ∉ visited) (htarget : S.target x = false) :
      Acts S visited (.reading id ((x, .ok true) :: rest) v lastErr)
        { frame := some (.reading id rest true lastErr), mark := some x, child := some x }

theorem acts_act (S : Search Id ε) (visited : List Id) (f : Frame Id ε) :
    Acts S visited f (act S visited f) := by
  rcases f with ⟨id, _ | ⟨⟨x, cond⟩, rest⟩, v, lastErr⟩ | msg
  · rcases v with _ | _ <;> rcases lastErr with _ | e <;> simp only [act]
    · exact .done id _ _
    · split
      · exact .done id _ _
      · exact .fail id e
    · exact .done id _ _
    · exact .done id _ _
  · by_cases hx : x ∈ visited
    · have heq : act S visited (.reading id ((x, cond) :: rest) v lastErr)
          = { frame := some (.reading id rest v lastErr) } := by
        simp [act, hx]
      rw [heq]
      exact .pass id x cond rest v lastErr hx
    · rcases cond with e | _ | _ <;> simp only [act, if_neg hx]
      · exact .mark id x _ rest v lastErr _ hx (by simp) (by simp)
      · exact .mark id x _ rest v lastErr _ hx (by simp) (by simp)
      · by_cases ht : S.target x = true
        · simp only [ht, if_true]
          exact .found id x rest v lastErr hx ht
        · simp only [ht]
          exact .take id x rest v lastErr hx (by simpa using ht)
  · exact .send msg

/-- A move of the frame `f` beside the frames `others`. -/
structure Moved (S : Search Id ε) (s s' : State Id ε) (f : Frame Id ε)
    (others : List (Frame Id ε)) : Prop where
  before : s.frames.Perm (f :: others)
  after : s'.frames.Perm ((act S s.visited f).child.toList.map S.open
    ++ ((act S s.visited f).frame.toList ++ others))
  visited : s'.visited = (act S s.visited f).mark.toList ++ s.visited
  taken : s'.taken = (act S s.visited f).child.toList ++ s.taken
  buffer : s'.buffer = s.buffer ++ (act S s.visited f).message.toList
  pending : s'.pending = s.pending
  current : s'.current = s.current
  err : s'.err = s.err
  result : s'.result = none

/-- A step of the main routine or of a goroutine. -/
inductive Stepped (S : Search Id ε) (s s' : State Id ε) : Choice → Prop
  | store (id : Id) (pending : List Id) (hpending : s.pending = id :: pending)
      (hcurrent : s.current = none)
      (heq : s' = { s with
        pending := pending, current := some id, visited := id :: s.visited,
        taken := id :: s.taken }) : Stepped S s s' .store
  | launch (id : Id) (hcurrent : s.current = some id)
      (heq : s' = { s with current := none, routines := [S.open id] :: s.routines }) :
      Stepped S s s' .launch
  | move (i : ℕ) (f : Frame Id ε) (stack : List (Frame Id ε)) (after : List (List (Frame Id ε)))
      (hdrop : s.routines.drop i = (f :: stack) :: after) (others : List (Frame Id ε))
      (hmoved : Moved S s s' f others) : Stepped S s s' (.move i)
  | found (buffer : List (Except ε Unit)) (hbuffer : s.buffer = .ok () :: buffer)
      (heq : s' = { s with result := some (.ok true) }) : Stepped S s s' .receive
  | failed (e : ε) (buffer : List (Except ε Unit)) (hbuffer : s.buffer = .error e :: buffer)
      (heq : s' = { s with buffer := buffer, err := some e }) : Stepped S s s' .receive
  | close (hcurrent : s.current = none) (hpending : s.pending = []) (hroutines : s.routines = [])
      (hbuffer : s.buffer = [])
      (heq : s' = { s with
        result := some (match s.err with | none => .ok false | some e => .error e) }) :
      Stepped S s s' .close

/-- Every step is one of these, and only a state without a result has one. -/
theorem stepped_of_step {S : Search Id ε} {s s' : State Id ε} {c : Choice}
    (h : step S s c = some s') : s.result = none ∧ Stepped S s s' c := by
  rcases c with _ | _ | i | _ | _ <;> simp only [step] at h
  · split at h
    · rename_i id pending hresult hcurrent hpending
      exact ⟨hresult, .store id pending hpending hcurrent (Option.some.inj h).symm⟩
    · cases h
  · split at h
    · rename_i id hresult hcurrent
      split_ifs at h
      exact ⟨hresult, .launch id hcurrent (Option.some.inj h).symm⟩
    · cases h
  · split at h
    · rename_i f stack after hresult hdrop
      split_ifs at h
      cases h
      refine ⟨hresult, .move i f stack after hdrop
        ((s.routines.take i).flatten ++ (stack ++ after.flatten)) ?_⟩
      refine ⟨?_, flatten_place S _ after stack _, rfl, rfl, rfl, rfl, rfl, rfl, hresult⟩
      have hsplit : s.routines = s.routines.take i ++ (f :: stack) :: after := by
        rw [← hdrop, take_append_drop]
      have hflat : s.frames
          = (s.routines.take i).flatten ++ f :: (stack ++ after.flatten) := by
        rw [State.frames]
        conv_lhs => rw [hsplit]
        simp
      rw [hflat]
      exact perm_middle
    · cases h
  · split at h
    · rename_i buffer hresult _ _ hbuffer
      exact ⟨hresult, .found buffer hbuffer (Option.some.inj h).symm⟩
    · rename_i e buffer hresult _ _ hbuffer
      exact ⟨hresult, .failed e buffer hbuffer (Option.some.inj h).symm⟩
    · cases h
  · split at h
    · rename_i hresult hcurrent hpending hroutines hbuffer
      exact ⟨hresult, .close hcurrent hpending hroutines hbuffer (Option.some.inj h).symm⟩
    · cases h

end Moves

end Kengen.PoolSearch
