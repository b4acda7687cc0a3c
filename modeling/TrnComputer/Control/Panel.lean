/-! # The control panel

The controller and the worker share a panel. The controller turns its switches, the worker reads
them and uses up what it is given.

* Pausing: a paused worker needs a permit for each micro-step.
* Input: a slot holds at most one value for the next input instruction.
* Interruption: a flag that asks the worker to end at the next phase boundary.
* Delay: how long the worker rests before a micro-step, in milliseconds.
-/

namespace TrnComputer
set_option autoImplicit false

/-- The input slot: a value for the next input instruction, and whether an interruption has put it
there. -/
structure Slot where
  value? : Option Nat := none
  isPlaceholder : Bool := false
  deriving DecidableEq, Repr, Inhabited

namespace Slot

def empty : Slot := {}

/-- A value that was given from outside. -/
def supplied (value : Nat) : Slot := { value? := some value }

/-- Zero, put there by an interruption for an instruction that waits. -/
def placeholder : Slot := { value? := some 0, isPlaceholder := true }

end Slot

/-- The shared switches. -/
structure Panel where
  paused : Bool := false
  permits : Nat := 0
  slot : Slot := .empty
  interrupted : Bool := false
  delay : Nat := 0
  deriving DecidableEq, Repr, Inhabited

namespace Panel

/-! ## Pausing -/

/-- Holds the worker from now on. Permits are withdrawn. -/
def pause (p : Panel) : Panel := { p with paused := true, permits := 0 }

/-- Lets the worker go. -/
def resume (p : Panel) : Panel := { p with paused := false, permits := 0 }

/-- Gives a permit for one micro-step, if the panel is paused. -/
def grant (p : Panel) : Panel × Bool :=
  if p.paused then ({ p with permits := p.permits + 1 }, true) else (p, false)

def mayPass (p : Panel) : Bool := !p.paused || 0 < p.permits || p.interrupted

/-- The worker goes past its checkpoint. While paused, a permit is used up if there is one. -/
def pass (p : Panel) : Panel :=
  if p.paused then { p with permits := p.permits - 1 } else p

/-! ## Input and interruption -/

/-- Puts a value into the slot, in place of what is there. -/
def supply (p : Panel) (value : Nat) : Panel := { p with slot := .supplied value }

def takeSlot (p : Panel) : Panel := { p with slot := .empty }

def interrupt (p : Panel) : Panel := { p with interrupted := true }

/-- Puts a placeholder into the slot if no value is there. -/
def offerPlaceholder (p : Panel) : Panel :=
  if p.slot.value? = none then { p with slot := .placeholder } else p

/-- Lowers the flag for a new run. If it was raised, a placeholder that is left is taken away. -/
def renew (p : Panel) : Panel :=
  if p.interrupted then
    { p with interrupted := false, slot := if p.slot.isPlaceholder then .empty else p.slot }
  else p

end Panel

end TrnComputer
