import Kengen.Lib.Runs
import Kengen.Iterator.Trace

/-!
# The weight-two strategy

`Weight2.execute` of `weight2.go` looks for an object that comes both from the left
side, the bottom-up evaluation of the relation that is asked for, and from the right
side, the tuples of the request's object.  Both sides are channels; the loop takes
from whichever is ready, keeps what it has seen of each side and stops at the first
match.  If both sides come in order, a value that cannot match any more is not kept.

An error of either side is remembered and returned if no match is found.  A side that
ends before anything was seen of it ends the search at once.

* `State`, `step`, `execute` — the search, for every interleaving of the two channels.
* `takeLeft` — the loop over the iterator of a left message.
-/

namespace Kengen.Weight2

open Runs

/-- The variables of `execute`.  A channel that is closed and was found so is `none`; the messages
of a side are those still to be received. -/
structure State where
  leftChan : Option (List (Msg String))
  rightChan : Option (Trace String)
  leftSeen : List String := []
  rightSeen : List String := []
  lastErr : Option Err := none
  lastLeftVal : String := ""
  lastRightVal : String := ""
  cancelled : Bool := false
  /-- `Allowed` and the error. -/
  result : Option (Bool × Option Err) := none

/-- What the loop takes next: the caller may cancel at any time. -/
inductive Choice where
  | cancel
  | giveUp
  | left
  | right
  | finish
deriving DecidableEq, Repr

variable (pruningEnabled : Bool)

/-- Keep a left value, unless it is known not to match. -/
def State.storeLeft (s : State) (t : String) : State :=
  if !pruningEnabled || s.lastLeftVal == "" || s.lastRightVal == "" || decide (s.lastRightVal < t)
  then { s with lastLeftVal := t, leftSeen := t :: s.leftSeen }
  else s

/-- Keep a right value, unless it is known not to match. -/
def State.storeRight (s : State) (t : String) : State :=
  if !pruningEnabled || s.lastLeftVal == "" || s.lastRightVal == "" || decide (s.lastLeftVal < t)
  then { s with lastRightVal := t, rightSeen := t :: s.rightSeen }
  else s

/-- The loop over the iterator of a left message.  After an error that is no cancellation the
iterator is stopped, the error is remembered and `Next` is called again: the trace is what all these
calls return. -/
def State.takeLeft (pruningEnabled : Bool) : Trace String → State → State
  | [], s => s
  | .error e :: rest, s =>
    if e.isCancelled then s else takeLeft pruningEnabled rest { s with lastErr := some e }
  | .ok t :: rest, s =>
    if t ∈ s.rightSeen then { s with result := some (true, none) }
    else takeLeft pruningEnabled rest (s.storeLeft pruningEnabled t)

/-- `return nil, ctx.Err()`. -/
def State.abort (ctxErr : Err) (s : State) : State := { s with result := some (false, some ctxErr) }

/-- The left case of the `select`. -/
def State.left (ctxErr : Err) (s : State) : Option State :=
  match s.leftChan with
  | none => none
  | some messages =>
    if s.cancelled then some (s.abort ctxErr)
    else
      match messages with
      | [] =>
        if s.leftSeen.isEmpty then some { s with leftChan := none, result := some (false, s.lastErr) }
        else some { s with leftChan := none }
      | .err e :: messages => some { s with leftChan := some messages, lastErr := some e }
      | .iter t :: messages => some ({ s with leftChan := some messages }.takeLeft pruningEnabled t)

/-- The right case of the `select`. -/
def State.right (ctxErr : Err) (s : State) : Option State :=
  match s.rightChan with
  | none => none
  | some messages =>
    if s.cancelled then some (s.abort ctxErr)
    else
      match messages with
      | [] =>
        if s.rightSeen.isEmpty then some { s with rightChan := none, result := some (false, s.lastErr) }
        else some { s with rightChan := none }
      | .error e :: messages => some { s with rightChan := some messages, lastErr := some e }
      | .ok t :: messages =>
        let s := { s with rightChan := some messages }
        if t ∈ s.leftSeen then some { s with result := some (true, none) }
        else some (s.storeRight pruningEnabled t)

/-- One step of `execute`. -/
def step (ctxErr : Err) (s : State) (c : Choice) : Option State :=
  if s.result.isSome then none
  else
    match c with
    | .cancel => some { s with cancelled := true }
    | .giveUp =>
      if s.cancelled && (s.leftChan.isSome || s.rightChan.isSome) then some (s.abort ctxErr) else none
    | .left => s.left pruningEnabled ctxErr
    | .right => s.right pruningEnabled ctxErr
    | .finish =>
      if s.leftChan.isNone && s.rightChan.isNone then some { s with result := some (false, s.lastErr) }
      else none

/-- The start of `execute`.  `ToChannel` sends what the right iterator yields until it is done or
cancelled. -/
def start (leftChan : List (Msg String)) (rightIter : Trace String) : State where
  leftChan := some leftChan
  rightChan := some (untilCancelled rightIter)

/-- `execute`, for a schedule. -/
def execute (ctxErr : Err) (leftChan : List (Msg String))
    (rightIter : Trace String) (choices : List Choice) : Option (Bool × Option Err) :=
  (run (step pruningEnabled ctxErr) (start leftChan rightIter) choices).bind (·.result)

/-- What is left of a channel. -/
def remaining {β : Type} (ch : Option (List β)) : List β := ch.getD []

end Kengen.Weight2
