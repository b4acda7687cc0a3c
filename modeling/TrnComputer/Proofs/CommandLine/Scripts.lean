import TrnComputer.CommandLine.Session

/-! # Scripts and sessions that are played

* `Script.play_bind`: a script and what is done with its result are played one after the other.
* `play_lines`: what a list of lines adds to the output.
* `Session.Leads`: a session comes from one state to another in a number of turns.
* `Leads.result`, `Leads.unended`: what is left of a session once enough turns have been taken, and
  before.
-/

namespace TrnComputer
set_option autoImplicit false

/-! ## Scripts -/

namespace Script
variable {α β : Type}

theorem play_bind (script : Script α) (f : α → Script β) (s : Surroundings) :
    (script.bind f).play s = (f (script.play s).2).play (script.play s).1 := by
  induction script generalizing s with
  | done result => rfl
  | print text next ih => exact ih _
  | complain text next ih => exact ih _
  | readFile path next ih => exact ih _ _
  | writeFile path text next ih => exact ih _ _
  | readLine busy next ih => exact ih _ _
  | rest milliseconds next ih => exact ih _

theorem play_pause (milliseconds : Nat) (s : Surroundings) :
    (pause milliseconds).play s = (s, ()) := by
  unfold pause
  split <;> rfl

end Script

/-- Lines of a text, each with its end. -/
def textOf (lines : List String) : String := String.join (lines.map (· ++ "\n"))

/-- The surroundings with more output. -/
def Surroundings.printed (s : Surroundings) (text : String) : Surroundings :=
  { s with output := s.output ++ text }

theorem Surroundings.printed_printed (s : Surroundings) (text more : String) :
    (s.printed text).printed more = s.printed (text ++ more) := by
  simp [printed, String.append_assoc]

theorem textOf_append (lines more : List String) :
    textOf (lines ++ more) = textOf lines ++ textOf more := by
  simp [textOf, String.join_append]

theorem play_lines (texts : List String) (s : Surroundings) :
    (Presentation.lines texts).play s = (s.printed (textOf texts), ()) := by
  induction texts generalizing s with
  | nil => simp [Presentation.lines, Script.play, Surroundings.printed, textOf, String.join_nil]
  | cons text rest ih =>
    simp [Presentation.lines, Script.play, ih, Surroundings.printed, textOf, String.join_cons,
      String.append_assoc]

/-! ## Sessions -/

namespace Session

/-- In `n` turns a session comes from one state to another. -/
def Leads (n : Nat) (s : Surroundings) (p : Progress Session) (s' : Surroundings)
    (p' : Progress Session) : Prop :=
  ∀ fuel, playOn (n + fuel) s p = playOn fuel s' p'

section
variable {n k fuel status : Nat} {s s' s'' : Surroundings} {p p' p'' : Progress Session}
  {session : Session}

theorem Leads.refl (s : Surroundings) (p : Progress Session) : Leads 0 s p s p := fun fuel => by
  rw [Nat.zero_add]

theorem Leads.trans (h : Leads n s p s' p') (h' : Leads k s' p' s'' p'') :
    Leads (n + k) s p s'' p'' := fun fuel => by
  rw [Nat.add_assoc, h, h']

theorem leads_of_turn (h : session.turn.play s = (s', p')) : Leads 1 s (.going session) s' p' :=
  fun fuel => by
    rw [Nat.add_comm, playOn, h]

theorem leads_of_runTurn {session : RunSession} {p' : Progress RunSession}
    (h : session.turn.play s = (s', p')) :
    Leads 1 s (.going (.run session)) s' (p'.map .run) := by
  apply leads_of_turn
  rw [turn, Script.play_bind, h]
  rfl

theorem playOn_ended (fuel : Nat) (s : Surroundings) (status : Nat) :
    playOn fuel s (.ended status) = (s, some status) := by
  rw [playOn]

/-- A session that has ended is not changed by more fuel. -/
theorem playOn_add (h : playOn fuel s p = (s', some status)) (more : Nat) :
    playOn (fuel + more) s p = (s', some status) := by
  induction fuel generalizing s p with
  | zero =>
    cases p with
    | ended last =>
      rw [playOn_ended] at h ⊢
      exact h
    | going session => cases h
  | succ fuel ih =>
    cases p with
    | ended last =>
      rw [playOn_ended] at h ⊢
      exact h
    | going session =>
      rw [Nat.add_right_comm]
      exact ih h

/-- A session that comes to its end leaves nothing else, whatever the fuel. -/
theorem Leads.result {last : Nat} (h : Leads n s p s'' (.ended last))
    (hplayed : playOn fuel s p = (s', some status)) : s' = s'' ∧ status = last := by
  have hfar := playOn_add hplayed n
  rw [Nat.add_comm, h, playOn_ended] at hfar
  simp only [Prod.mk.injEq, Option.some.injEq] at hfar
  exact ⟨hfar.1.symm, hfar.2.symm⟩

/-- A session that goes on after some turns has not ended with less fuel. -/
theorem Leads.unended (h : Leads n s p s' (.going session)) (hle : fuel ≤ n) :
    (playOn fuel s p).2 = none := by
  cases hplayed : playOn fuel s p with
  | mk last result =>
    cases result with
    | none => rfl
    | some status =>
      have hfar := playOn_add hplayed (n - fuel)
      have hstays := h 0
      rw [Nat.add_sub_cancel' hle] at hfar
      rw [Nat.add_zero, hfar] at hstays
      cases hstays

end

end Session

end TrnComputer
