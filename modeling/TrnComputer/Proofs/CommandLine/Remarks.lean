import TrnComputer.Proofs.CommandLine.Scripts
import TrnComputer.Proofs.Control.Answers

/-! # What a run says and where its values come from

A run that takes its values first from the command line and then from lines says what it is told,
and asks for lines. What it says, and which values it gets, depends only on the events.

* `Remark`, `Surroundings.say`: what is said, and what it leaves in output and messages.
* `Stock`, `Stock.values`: the values and the lines that are left, and the numbers among them.
* `dialogue`: lines are asked for until one holds a number.
* `Stock.hearAll`: what is said to events, and what is left then.
* `values_bare`: the values that are left are the answers that a machine on its own has not been
  given.
-/

namespace TrnComputer
set_option autoImplicit false

/-! ## Remarks -/

/-- What a run says: an event, a prompt, that a line holds no number, or that there are no more
lines. -/
inductive Remark
  | event (e : Event)
  | prompt
  | rejected (text : String)
  | exhausted

namespace Remark

/-- What a remark leaves in the output. Movements are shown only if they are traced. -/
def output (trace : Bool) : Remark → String
  | event (.output value) => Presentation.outputLine value ++ "\n"
  | event (.moved clock movement value) =>
    if trace then (movement.logLine clock value).render ++ "\n" else ""
  | prompt => "⌨️  INP> "
  | _ => ""

/-- What a remark leaves in the messages. -/
def message : Remark → String
  | event (.stopped message) => Presentation.failure message ++ "\n"
  | rejected text => Presentation.warning s!"Not a number: {text}" ++ "\n"
  | exhausted => Presentation.warning "No more input, stopping" ++ "\n"
  | _ => ""

end Remark

namespace Surroundings

/-- The surroundings after some remarks. -/
def say (trace : Bool) (s : Surroundings) (remarks : List Remark) : Surroundings :=
  { s with
    output := s.output ++ String.join (remarks.map (Remark.output trace))
    messages := s.messages ++ String.join (remarks.map Remark.message) }

@[simp] theorem say_nil (trace : Bool) (s : Surroundings) : s.say trace [] = s := by
  simp [say, String.join_nil]

theorem say_append (trace : Bool) (s : Surroundings) (remarks more : List Remark) :
    s.say trace (remarks ++ more) = (s.say trace remarks).say trace more := by
  simp [say, String.join_append, String.append_assoc]

end Surroundings

/-- The surroundings with other lines to read. -/
def Surroundings.withLines (s : Surroundings) (lines : List String) : Surroundings :=
  { s with lines }

/-! ## The stock -/

/-- The number on a line, if there is one. Blanks around it do not count. -/
def lineNumber? (text : String) : Option Int := Text.readLiteral? (Text.trim text.toList)

/-- Where values come from: what is left of the command line, and then the lines that are left. -/
structure Stock where
  inputs : List Int
  lines : List String

/-- The values that the instructions get, one after the other. Of a number the low 20 bits count. -/
def Stock.values (d : Stock) : List Nat :=
  (d.inputs ++ d.lines.filterMap lineNumber?).map fun number => (number % 2 ^ 20).toNat

theorem Stock.values_lt (d : Stock) : ∀ value ∈ d.values, value < 2 ^ 20 := fun value hvalue => by
  obtain ⟨number, -, rfl⟩ := List.mem_map.1 hvalue
  have hlow := Int.emod_nonneg number (b := 2 ^ 20) (by decide)
  have hhigh := Int.emod_lt_of_pos number (b := 2 ^ 20) (by decide)
  omega

/-- Asks for lines until one holds a number: what is said, and the lines that are left. -/
def dialogue : List String → List Remark × List String
  | [] => ([.prompt, .exhausted], [])
  | text :: lines =>
    match lineNumber? text with
    | some _ => ([.prompt], lines)
    | none =>
      let (said, left) := dialogue lines
      (.prompt :: .rejected (String.ofList (Text.trim text.toList)) :: said, left)

namespace Stock

/-- What is left after an event, and what is said to it. -/
def hear (d : Stock) : Event → Stock × List Remark
  | .inputRequested =>
    match d.inputs with
    | _ :: inputs => ({ d with inputs }, [])
    | [] => ({ d with lines := (dialogue d.lines).2 }, (dialogue d.lines).1)
  | e => (d, [.event e])

/-- What is left after some events, and what is said to them. -/
def hearAll (d : Stock) : List Event → Stock × List Remark
  | [] => (d, [])
  | e :: rest =>
    let (next, said) := d.hear e
    let (last, more) := next.hearAll rest
    (last, said ++ more)

theorem hearAll_append (d : Stock) (events more : List Event) :
    d.hearAll (events ++ more) =
      (((d.hearAll events).1.hearAll more).1,
        (d.hearAll events).2 ++ ((d.hearAll events).1.hearAll more).2) := by
  induction events generalizing d with
  | nil => rfl
  | cons e rest ih => simp only [List.cons_append, hearAll, ih, List.append_assoc]

theorem hear_of_ne (d : Stock) {e : Event} (h : e ≠ .inputRequested) :
    d.hear e = (d, [.event e]) := by
  cases e with
  | inputRequested => exact absurd rfl h
  | _ => rfl

theorem hearAll_of_quiet (d : Stock) {events : List Event} (h : .inputRequested ∉ events) :
    d.hearAll events = (d, events.map .event) := by
  induction events with
  | nil => rfl
  | cons e rest ih =>
    obtain ⟨hfirst, hrest⟩ := List.ne_and_not_mem_of_not_mem_cons h
    simp only [hearAll, hear_of_ne d (Ne.symm hfirst), ih hrest]
    rfl

theorem lineNumbers_dialogue (lines : List String) :
    (dialogue lines).2.filterMap lineNumber? = (lines.filterMap lineNumber?).tail := by
  induction lines with
  | nil => rfl
  | cons text lines ih =>
    cases hnumber : lineNumber? text with
    | some value => simp [dialogue, hnumber]
    | none => simp [dialogue, hnumber, ih]

/-- What is said to a micro-step of a machine that has not waited. -/
theorem hearAll_microStep (d : Stock) {m : Machine} (h : m.waits = false) :
    (m.microStep.result = .ok .awaitsInput →
      d.hearAll m.microStep.events =
        ((d.hear .inputRequested).1,
          m.openPhase.2.map .event ++ (d.hear .inputRequested).2)) ∧
    (m.microStep.result ≠ .ok .awaitsInput →
      d.hearAll m.microStep.events = (d, m.microStep.events.map .event)) := by
  obtain ⟨hasks, hquiet⟩ := Machine.request_microStep h
  refine ⟨fun hawaits => ?_, fun hgoes => d.hearAll_of_quiet (hquiet hgoes)⟩
  have hopening : .inputRequested ∉ m.openPhase.2 := List.count_eq_zero.1 m.requests_openPhase
  rw [hasks hawaits, hearAll_append, hearAll_of_quiet d hopening]
  simp [hearAll]

/-- A request takes the next value away. -/
theorem values_request (d : Stock) : (d.hear .inputRequested).1.values = d.values.tail := by
  obtain ⟨inputs, lines⟩ := d
  cases inputs with
  | nil => simp [hear, values, lineNumbers_dialogue, List.map_tail]
  | cons value rest => rfl

end Stock

/-- The surroundings after a run has been told some events. -/
def Surroundings.told (trace : Bool) (s : Surroundings) (d : Stock) (events : List Event) :
    Surroundings :=
  (s.withLines (d.hearAll events).1.lines).say trace (d.hearAll events).2

theorem Surroundings.told_append (trace : Bool) (s : Surroundings) (d : Stock)
    (events more : List Event) :
    s.told trace d (events ++ more) =
      (s.told trace d events).told trace (d.hearAll events).1 more := by
  rw [told, Stock.hearAll_append, say_append]
  rfl

/-- The values that are left are the answers that the machine on its own has not been given. -/
theorem values_bare (memory : Memory) (d : Stock) {n : Nat}
    (h : ∀ k < n, (bare memory d.values k).result = .ok .proceeds) :
    (d.hearAll (bare memory d.values n).events).1.values = (bare memory d.values n).answers := by
  induction n with
  | zero => rfl
  | succ n ih =>
    have hwaits := waits_bare n (h n (Nat.lt_succ_self n))
    have hbefore := ih fun k hk => h k (Nat.lt_succ_of_lt hk)
    change (d.hearAll (bare memory d.values n).next.events).1.values =
      (bare memory d.values n).next.answers
    generalize bare memory d.values n = b at hwaits hbefore ⊢
    obtain ⟨hasks, hquiet⟩ := (d.hearAll b.events).1.hearAll_microStep hwaits
    obtain ⟨value, rest, hawaits, hanswers, hnext⟩ | ⟨hanswers, hnext⟩ := b.next_cases
    · rw [hnext, Stock.hearAll_append, hasks hawaits, Stock.values_request, hbefore, hanswers]
      rfl
    · rw [hnext, Stock.hearAll_append]
      by_cases hawaits : b.machine.microStep.result = .ok .awaitsInput
      · rw [hasks hawaits, Stock.values_request, hbefore, hanswers hawaits]
        rfl
      · rw [hquiet hawaits, hbefore]

end TrnComputer
