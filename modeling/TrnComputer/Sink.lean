import TrnComputer.FileFault

/-! # Sinks

A sink takes text. It may take less than it is offered, and at some point it may refuse.

* `Sink`: what becomes of an offer.
* `Sink.offer`: offers what is left of a text until all of it is taken or the sink takes no more.
* `Sink.offerEach`: offers texts one after the other, up to the first that is not taken whole.
* `Sink.limited`: a sink with room for so many characters.
-/

namespace TrnComputer
set_option autoImplicit false

/-- Why a sink takes no more. -/
inductive Refusal
  | diskFull
  | takesNothing
  | file (fault : FileFault)
  deriving DecidableEq, Repr

def Refusal.message : Refusal → String
  | diskFull => "disk full"
  | takesNothing => "failed to write whole buffer"
  | file fault => fault.message

/-- Something that takes text. Attempts that are interrupted belong to the one that is not. -/
structure Sink (State : Type) where
  /-- The state after an offer, and how many characters at the front of it have been taken. -/
  take : State → List Char → State × Except Refusal Nat
  take_le : ∀ s text count, (take s text).2 = .ok count → count ≤ text.length

/-- How far a text has come. -/
structure Writing (State : Type) where
  state : State
  written : String := ""
  refusal : Option Refusal := none

namespace Sink

variable {State : Type}

/-- Offers a text, and again what is left of it. A sink that takes nothing takes no more. -/
def offer (sink : Sink State) (w : Writing State) : List Char → Writing State
  | [] => w
  | c :: rest =>
    match sink.take w.state (c :: rest) with
    | (state, .error refusal) => { w with state, refusal := some refusal }
    | (state, .ok 0) => { w with state, refusal := some .takesNothing }
    | (state, .ok (count + 1)) =>
      sink.offer { w with state, written := w.written ++ String.ofList (c :: rest.take count) }
        (rest.drop count)
  termination_by text => text.length
  decreasing_by simp only [List.length_drop, List.length_cons]; omega

def offerEach (sink : Sink State) (w : Writing State) : List String → Writing State
  | [] => w
  | text :: rest =>
    let w := sink.offer w text.toList
    if w.refusal.isSome then w else sink.offerEach w rest

/-- A sink that takes so many characters and refuses all others. -/
def limited (refusal : Refusal) : Sink Nat where
  take room text :=
    if room = 0 then (0, .error refusal)
    else (room - text.length, .ok (min room text.length))
  take_le room text count h := by
    split at h
    · cases h
    · cases h
      exact Nat.min_le_right _ _

end Sink

end TrnComputer
