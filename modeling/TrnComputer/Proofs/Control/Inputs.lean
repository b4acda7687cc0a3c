import TrnComputer.Proofs.Control.Usage

/-! # Where inputs go

A value that is given goes from the slot into the hand of the worker, and from there into the
machine. It may be replaced in the slot, but it is never lost, and never loaded twice.

* `Accounted`: each load comes from a value that was given, and no two from the same, or it is the
  placeholder of an interruption.
* `Kept`: the last value that was given is in the slot, in the hand of the worker or loaded.
* `Desk`, `Desk.Dealt`: what matters for inputs, and the seven things that can happen to it.
* `Desk.Balanced`: what has come of all values; `Desk.Balanced.dealt` is the step.
* `inputs_accounted`: all of this at every moment of every use of a controller.
-/

namespace TrnComputer
set_option autoImplicit false

/-! ## Accounts -/

/-- Interruption has been requested in the run that was started last. -/
def Requested (marks : List Mark) : Prop :=
  ∃ earlier later, marks = earlier ++ .requested :: later ∧ .started ∉ later

/-- The value that was given last, with its place among the marks. -/
def LastGiven (marks : List Mark) (i value : Nat) : Prop :=
  marks[i]? = some (.given value) ∧ ∀ k other, i < k → marks[k]? ≠ some (.given other)

/-- Where the values come from that are loaded: from those that were given, each once, or from an
interruption that was requested in the same run. -/
structure Accounted (source : Nat → Option Nat) (marks : List Mark) : Prop where
  given : ∀ j i, source j = some i → i < j ∧ ∃ value, marks[i]? = some (.given value) ∧
    marks[j]? = some (.loaded (Word.significant value))
  once : ∀ j k i, source j = some i → source k = some i → j = k
  placeholder : ∀ j value, marks[j]? = some (.loaded value) → source j = none →
    value = 0 ∧ Requested (marks.take j)

/-- The worker has taken a value for an instruction that loads it next. -/
def Controller.InHand (c : Controller) (value : Nat) : Prop :=
  ∃ w, c.worker = some w ∧ (w.point = .boundary ∨ w.point = .ready) ∧
    w.machine.phaseOpen = true ∧
    loads w.machine.microStep.events = [Word.significant value]

/-- What holds of the slot at a moment: the value that was given last is there, unless an
instruction has taken it, and a placeholder is zero and there only while a request for interruption
stands. -/
structure Kept (source : Nat → Option Nat) (u : Usage) : Prop where
  available : ∀ i value, LastGiven u.marks i value →
    u.controller.panel.slot = .supplied value ∨ u.controller.InHand value ∨
      ∃ j < u.marks.length, source j = some i
  placeholder : u.controller.panel.slot.isPlaceholder = true →
    u.controller.panel.slot.value? = some 0 ∧ u.controller.panel.interrupted = true

section
variable {marks : List Mark} {source : Nat → Option Nat}

theorem requested_append {mark : Mark} (h : Requested marks) (hmark : mark ≠ .started) :
    Requested (marks ++ [mark]) := by
  obtain ⟨earlier, later, rfl, hlater⟩ := h
  refine ⟨earlier, later ++ [mark], by simp, ?_⟩
  simp [hlater, hmark.symm]

theorem requested_append_requested (marks : List Mark) : Requested (marks ++ [.requested]) :=
  ⟨marks, [], rfl, List.not_mem_nil⟩

theorem LastGiven.unique {i k value other : Nat} (h : LastGiven marks i value)
    (h' : LastGiven marks k other) : i = k := by
  obtain hlt | heq | hgt := Nat.lt_trichotomy i k
  · exact absurd h'.1 (h.2 k other hlt)
  · exact heq
  · exact absurd h.1 (h'.2 i value hgt)

theorem lastGiven_append_given (marks : List Mark) (value : Nat) :
    LastGiven (marks ++ [.given value]) marks.length value := by
  refine ⟨List.getElem?_concat_length, fun k other hlt => ?_⟩
  rw [List.getElem?_eq_none (by simp; omega)]
  simp

/-- A mark that is not a gift does not change which gift was the last. -/
theorem lastGiven_append {mark : Mark} (hmark : ∀ value, mark ≠ .given value) {i value : Nat} :
    LastGiven (marks ++ [mark]) i value ↔ LastGiven marks i value := by
  have hsame (k other : Nat) :
      (marks ++ [mark])[k]? = some (.given other) ↔ marks[k]? = some (.given other) := by
    rcases Nat.lt_trichotomy k marks.length with hlt | rfl | hgt
    · rw [List.getElem?_append_left hlt]
    · simp [hmark other]
    · rw [List.getElem?_eq_none (by simp; omega), List.getElem?_eq_none (by omega)]
  unfold LastGiven
  simp only [ne_eq, hsame]

theorem Accounted.lt (h : Accounted source marks) {j i : Nat} (hsource : source j = some i) :
    j < marks.length ∧ i < marks.length := by
  obtain ⟨hlt, value, -, hloaded⟩ := h.given j i hsource
  have hj := (List.getElem?_eq_some_iff.1 hloaded).1
  exact ⟨hj, Nat.lt_trans hlt hj⟩

/-- One more mark is accounted for, if its source is right. -/
theorem Accounted.append (h : Accounted source marks) {source' : Nat → Option Nat} {mark : Mark}
    (hold : ∀ j, j ≠ marks.length → source' j = source j)
    (hnew : ∀ i, source' marks.length = some i → (∀ j, source j ≠ some i) ∧
      ∃ value, marks[i]? = some (.given value) ∧ mark = .loaded (Word.significant value))
    (hplaceholder : ∀ value, mark = .loaded value → source' marks.length = none →
      value = 0 ∧ Requested marks) : Accounted source' (marks ++ [mark]) where
  given := by
    intro j i hsource
    by_cases hj : j = marks.length
    · subst hj
      obtain ⟨-, value, hgiven, rfl⟩ := hnew i hsource
      have hlt := (List.getElem?_eq_some_iff.1 hgiven).1
      exact ⟨hlt, value, by rw [List.getElem?_append_left hlt, hgiven],
        List.getElem?_concat_length⟩
    · rw [hold j hj] at hsource
      obtain ⟨hlt, value, hgiven, hloaded⟩ := h.given j i hsource
      obtain ⟨hj', hi'⟩ := h.lt hsource
      exact ⟨hlt, value, by rw [List.getElem?_append_left hi', hgiven],
        by rw [List.getElem?_append_left hj', hloaded]⟩
  once := by
    intro j k i hsource hsource'
    by_cases hj : j = marks.length <;> by_cases hk : k = marks.length
    · rw [hj, hk]
    · subst hj
      rw [hold k hk] at hsource'
      exact absurd hsource' ((hnew i hsource).1 k)
    · subst hk
      rw [hold j hj] at hsource
      exact absurd hsource ((hnew i hsource').1 j)
    · rw [hold j hj] at hsource
      rw [hold k hk] at hsource'
      exact h.once j k i hsource hsource'
  placeholder := by
    intro j value hloaded hnone
    obtain hlt | rfl | hgt := Nat.lt_trichotomy j marks.length
    · rw [List.getElem?_append_left hlt] at hloaded
      rw [hold j (Nat.ne_of_lt hlt)] at hnone
      rw [List.take_append_of_le_length (Nat.le_of_lt hlt)]
      exact h.placeholder j value hloaded hnone
    · rw [List.getElem?_concat_length] at hloaded
      rw [List.take_left]
      exact hplaceholder value (Option.some.inj hloaded) hnone
    · rw [List.getElem?_eq_none (by simp; omega)] at hloaded
      cases hloaded

/-- A mark that is not a load needs no source. -/
theorem Accounted.append_of_ne (h : Accounted source marks) {mark : Mark}
    (hmark : ∀ value, mark ≠ .loaded value) : Accounted source (marks ++ [mark]) := by
  refine h.append (fun _ _ => rfl) (fun i hi => ?_) (fun value hv => absurd hv (hmark value))
  exact absurd (h.lt hi).1 (Nat.lt_irrefl _)

end

/-! ## The desk -/

/-- What matters for inputs: the slot, the flag, the value that is in the hand of the worker, the
requests that are under way and the marks. -/
structure Desk where
  slot : Slot
  flag : Bool
  hand : Option Nat
  pending : Nat
  marks : List Mark

def Usage.desk (u : Usage) : Desk where
  slot := u.controller.panel.slot
  flag := u.controller.panel.interrupted
  hand := u.controller.worker.bind (·.machine.input)
  pending := u.pending
  marks := u.marks

namespace Desk

/-- What can happen to a desk. -/
inductive Dealt (d : Desk) : Desk → Prop
  /-- Nothing, or the end of a request. -/
  | keeps {pending : Nat} (hpending : pending ≤ d.pending) : Dealt d { d with pending }
  | gives (value : Nat) :
    Dealt d { d with slot := .supplied value, marks := d.marks ++ [.given value] }
  | requests :
    Dealt d { d with flag := true, pending := d.pending + 1, marks := d.marks ++ [.requested] }
  | offers (hpending : 0 < d.pending) (hslot : d.slot.value? = none) :
    Dealt d { d with slot := .placeholder, pending := d.pending - 1 }
  /-- A run starts. If there was a request, a placeholder is taken away. -/
  | starts {slot : Slot} (hpending : d.pending = 0) (hhand : d.hand = none)
    (hslot : slot = .empty ∧ d.slot.isPlaceholder = true ∨
      slot = d.slot ∧ (d.slot.isPlaceholder = true → d.flag = false)) :
    Dealt d { d with slot, flag := false, marks := d.marks ++ [.started] }
  | takes {value : Nat} (hlawful : d.slot.Lawful) (hslot : d.slot.value? = some value)
    (hhand : d.hand = none) :
    Dealt d { d with slot := .empty, hand := some (Word.significant value) }
  | loads {value : Nat} (hhand : d.hand = some value) :
    Dealt d { d with hand := none, marks := d.marks ++ [.loaded value] }

theorem Dealt.marks {d d' : Desk} (h : d.Dealt d') : d.marks <+: d'.marks := by
  cases h with
  | keeps | offers | takes => exact List.prefix_refl _
  | gives | requests | starts | loads => exact List.prefix_append _ _

/-- What has come of the values that were given and offered. `origin` is the place of the value in
the hand of the worker, if it was given. -/
structure Balanced (d : Desk) (source : Nat → Option Nat) (origin : Option Nat) : Prop where
  accounted : Accounted source d.marks
  requested : d.flag = true → Requested d.marks
  pending : 0 < d.pending → d.flag = true
  offered : d.slot.isPlaceholder = true → d.flag = true
  /-- What is in the slot was given last, and nobody has it. -/
  slot : ∀ value, d.slot = .supplied value →
    ∃ i, LastGiven d.marks i value ∧ (∀ j, source j ≠ some i) ∧ origin ≠ some i
  /-- What is in the hand was given and has not been loaded. -/
  hand : ∀ i, origin = some i → (∀ j, source j ≠ some i) ∧
    ∃ value, d.marks[i]? = some (.given value) ∧ d.hand = some (Word.significant value)
  placeholder : origin = none → ∀ value, d.hand = some value → value = 0 ∧ Requested d.marks
  kept : ∀ i value, LastGiven d.marks i value →
    d.slot = .supplied value ∨ origin = some i ∨ ∃ j, source j = some i

section
variable {d : Desk} {source : Nat → Option Nat} {origin : Option Nat}

theorem balanced_initial :
    ({ slot := .empty, flag := false, hand := none, pending := 0, marks := [] } : Desk).Balanced
      (fun _ => none) none where
  accounted := ⟨by simp, by simp, by simp⟩
  requested := by simp
  pending := by simp
  offered := by simp
  slot := by simp [Slot.eq_supplied_iff]
  hand := by simp
  placeholder := by simp
  kept := by simp [LastGiven]

theorem Balanced.lt_of_origin (h : d.Balanced source origin) {i : Nat} (hi : origin = some i) :
    i < d.marks.length := by
  obtain ⟨-, value, hgiven, -⟩ := h.hand i hi
  exact (List.getElem?_eq_some_iff.1 hgiven).1

theorem Balanced.gives (h : d.Balanced source origin) (value : Nat) :
    ({ d with slot := .supplied value, marks := d.marks ++ [.given value] } : Desk).Balanced
      source origin where
  accounted := h.accounted.append_of_ne (by simp)
  requested := fun hflag => requested_append (h.requested hflag) (by simp)
  pending := h.pending
  offered := by simp
  slot := by
    rintro _ ⟨⟩
    refine ⟨_, lastGiven_append_given d.marks value, fun j hj => ?_, fun hi => ?_⟩
    · exact Nat.lt_irrefl _ (h.accounted.lt hj).2
    · exact Nat.lt_irrefl _ (h.lt_of_origin hi)
  hand := by
    intro i hi
    obtain ⟨hfree, other, hgiven, hhand⟩ := h.hand i hi
    exact ⟨hfree, other, by rw [List.getElem?_append_left (h.lt_of_origin hi), hgiven], hhand⟩
  placeholder := fun hnone other hhand =>
    ⟨(h.placeholder hnone other hhand).1,
      requested_append (h.placeholder hnone other hhand).2 (by simp)⟩
  kept := by
    intro i other hlast
    have hnew := lastGiven_append_given d.marks value
    obtain rfl := hlast.unique hnew
    have heq : Mark.given other = .given value := Option.some.inj (hlast.1.symm.trans hnew.1)
    cases heq
    exact .inl rfl

/-- A mark that is neither a gift nor a load moves no value. -/
theorem Balanced.mark (h : d.Balanced source origin) {mark : Mark} {flag : Bool} {pending : Nat}
    (hgiven : ∀ value, mark ≠ .given value) (hloaded : ∀ value, mark ≠ .loaded value)
    (hrequested : flag = true → Requested (d.marks ++ [mark]))
    (hpending : 0 < pending → flag = true) (hoffered : d.slot.isPlaceholder = true → flag = true)
    (hstarted : mark = .started → d.hand = none) :
    ({ d with flag, pending, marks := d.marks ++ [mark] } : Desk).Balanced source origin where
  accounted := h.accounted.append_of_ne hloaded
  requested := hrequested
  pending := hpending
  offered := hoffered
  slot := by
    intro value hslot
    obtain ⟨i, hlast, hfree⟩ := h.slot value hslot
    exact ⟨i, (lastGiven_append hgiven).2 hlast, hfree⟩
  hand := by
    intro i hi
    obtain ⟨hfree, value, hgift, hhand⟩ := h.hand i hi
    exact ⟨hfree, value, by rw [List.getElem?_append_left (h.lt_of_origin hi), hgift], hhand⟩
  placeholder := by
    intro hnone value hhand
    obtain ⟨hzero, hasked⟩ := h.placeholder hnone value hhand
    refine ⟨hzero, requested_append hasked fun hmark => ?_⟩
    rw [hstarted hmark] at hhand
    cases hhand
  kept := fun i value hlast => h.kept i value ((lastGiven_append hgiven).1 hlast)

/-- A slot that holds no gift may be emptied, and an empty one may be filled with a placeholder. -/
theorem Balanced.withSlot (h : d.Balanced source origin) {slot : Slot} {pending : Nat}
    (hfrom : ∀ value, d.slot ≠ .supplied value) (hto : ∀ value, slot ≠ .supplied value)
    (hoffered : slot.isPlaceholder = true → d.flag = true) (hpending : 0 < pending → d.flag = true) :
    ({ d with slot, pending } : Desk).Balanced source origin where
  accounted := h.accounted
  requested := h.requested
  pending := hpending
  offered := hoffered
  slot := fun value hslot => absurd hslot (hto value)
  hand := h.hand
  placeholder := h.placeholder
  kept := fun i value hlast => .inr ((h.kept i value hlast).resolve_left (hfrom value))

theorem Balanced.takes (h : d.Balanced source origin) {value : Nat} (hlawful : d.slot.Lawful)
    (hslot : d.slot.value? = some value) (hhand : d.hand = none) :
    ∃ origin', ({ d with slot := .empty, hand := some (Word.significant value) } : Desk).Balanced
      source origin' := by
  -- The hand is empty, so nothing comes from there.
  have horigin : ∀ i, origin ≠ some i := by
    intro i hi
    obtain ⟨-, other, -, hfull⟩ := h.hand i hi
    rw [hhand] at hfull
    cases hfull
  cases hmark : d.slot.isPlaceholder with
  | false =>
    have hgiven : d.slot = .supplied value := Slot.eq_supplied_iff.2 ⟨hslot, hmark⟩
    obtain ⟨i, hlast, hfree, -⟩ := h.slot value hgiven
    refine ⟨some i, h.accounted, h.requested, h.pending, nofun, nofun, ?_, nofun, ?_⟩
    · rintro _ ⟨⟩
      exact ⟨hfree, value, hlast.1, rfl⟩
    · intro k other hlast'
      exact .inr (.inl (congrArg some (hlast.unique hlast')))
  | true =>
    obtain rfl : 0 = value := Option.some.inj ((hlawful hmark).symm.trans hslot)
    have hasked := h.requested (h.offered hmark)
    refine ⟨none, h.accounted, h.requested, h.pending, nofun, nofun, nofun, ?_, ?_⟩
    · rintro - _ ⟨⟩
      exact ⟨rfl, hasked⟩
    · intro k other hlast
      obtain hgiven | hout | hloaded := h.kept k other hlast
      · rw [hgiven] at hmark
        cases hmark
      · exact absurd hout (horigin k)
      · exact .inr (.inr hloaded)

theorem Balanced.loads (h : d.Balanced source origin) {value : Nat} (hhand : d.hand = some value) :
    ({ d with hand := none, marks := d.marks ++ [.loaded value] } : Desk).Balanced
      (fun j => if j = d.marks.length then origin else source j) none where
  accounted := by
    refine h.accounted.append (fun j hj => if_neg hj) (fun i hi => ?_) fun other hother hnone => ?_
    · rw [if_pos rfl] at hi
      obtain ⟨hfree, given, hgift, hfull⟩ := h.hand i hi
      rw [hhand] at hfull
      exact ⟨hfree, given, hgift, congrArg Mark.loaded (Option.some.inj hfull)⟩
    · rw [if_pos rfl] at hnone
      cases hother
      exact h.placeholder hnone value hhand
  requested := fun hflag => requested_append (h.requested hflag) (by simp)
  pending := h.pending
  offered := h.offered
  slot := by
    intro other hslot
    obtain ⟨i, hlast, hfree, horigin⟩ := h.slot other hslot
    refine ⟨i, (lastGiven_append (by simp)).2 hlast, fun j hj => ?_, by simp⟩
    split at hj
    · exact horigin hj
    · exact hfree j hj
  hand := by simp
  placeholder := by simp
  kept := by
    intro i other hlast
    obtain hslot | hout | ⟨j, hj⟩ := h.kept i other ((lastGiven_append (by simp)).1 hlast)
    · exact .inl hslot
    · exact .inr (.inr ⟨d.marks.length, (if_pos rfl).trans hout⟩)
    · refine .inr (.inr ⟨j, ?_⟩)
      rw [if_neg (Nat.ne_of_lt (h.accounted.lt hj).1)]
      exact hj

/-- Whatever happens at the desk, no value is lost, and what has been loaded keeps its source. -/
theorem Balanced.dealt {d' : Desk} (h : d.Balanced source origin) (hdealt : d.Dealt d') :
    ∃ source' origin', d'.Balanced source' origin' ∧
      ∀ j < d.marks.length, source' j = source j := by
  cases hdealt with
  | keeps hpending =>
    exact ⟨source, origin,
      { h with pending := fun hpos => h.pending (Nat.lt_of_lt_of_le hpos hpending) },
      fun _ _ => rfl⟩
  | gives value => exact ⟨source, origin, h.gives value, fun _ _ => rfl⟩
  | requests =>
    exact ⟨source, origin,
      h.mark (by simp) (by simp) (fun _ => requested_append_requested _) (fun _ => rfl)
        (fun _ => rfl) (by simp),
      fun _ _ => rfl⟩
  | offers hpending hslot =>
    have hflag := h.pending hpending
    exact ⟨source, origin,
      h.withSlot (by simp [Slot.eq_supplied_iff, hslot]) (by simp [Slot.eq_supplied_iff])
        (fun _ => hflag) (fun _ => hflag),
      fun _ _ => rfl⟩
  | @starts slot hpending hhand hslot =>
    -- A placeholder that is left is taken away before the flag is lowered.
    have hcleared : ({ d with slot } : Desk).Balanced source origin ∧
        slot.isPlaceholder ≠ true := by
      obtain ⟨rfl, hleft⟩ | ⟨rfl, hclean⟩ := hslot
      · exact ⟨h.withSlot (by simp [Slot.eq_supplied_iff, hleft]) (by simp [Slot.eq_supplied_iff])
          (by simp) h.pending, by simp⟩
      · refine ⟨h, fun hleft => ?_⟩
        have hraised := h.offered hleft
        rw [hclean hleft] at hraised
        cases hraised
    exact ⟨source, origin,
      hcleared.1.mark (by simp) (by simp) (by simp) (by simp [hpending])
        (fun hleft => absurd hleft hcleared.2) (fun _ => hhand),
      fun _ _ => rfl⟩
  | takes hlawful hslot hhand =>
    obtain ⟨origin', htaken⟩ := h.takes hlawful hslot hhand
    exact ⟨source, origin', htaken, fun _ _ => rfl⟩
  | loads hhand =>
    exact ⟨_, none, h.loads hhand, fun j hj => if_neg (Nat.ne_of_lt hj)⟩

end

end Desk

/-! ## What acts do to the desk -/

namespace Usage
variable {u : Usage}

theorem dealt_of_eq {u' : Usage} (h : u'.desk = u.desk) : u.desk.Dealt u'.desk := by
  rw [h]
  exact .keeps (Nat.le_refl _)

theorem dealt_alone {next : Usage} (h : u.pending = 0 → u.desk.Dealt next.desk) :
    u.desk.Dealt (u.alone next).desk := by
  unfold alone
  split
  next hpending => exact h hpending
  next => exact dealt_of_eq rfl

theorem hand_of_woken {worker worker' : Option Worker}
    (h : Option.Rel Worker.Woken worker worker') :
    worker'.bind (·.machine.input) = worker.bind (·.machine.input) := by
  cases h with
  | none => rfl
  | some hwoken => exact congrArg Machine.input hwoken.machine

theorem dealt_steer {t : Turn} (ht : t ≠ .move) : u.desk.Dealt (u.after (.turn t)).desk := by
  obtain ⟨hevents, -, hflag, hslot, hworker⟩ := ({ controller := u.controller } : Course).steered ht
  have hafter : (u.after (.turn t)).desk =
      { u.desk with
        slot := (t.given.map Slot.supplied).getD u.desk.slot
        marks := u.marks ++ t.given.toList.map .given } := by
    simp only [desk, after, hevents, hflag, hslot, hand_of_woken hworker, loads_nil, List.map_nil,
      List.append_nil]
  rw [hafter]
  cases t.given with
  | none =>
    simp only [Option.map_none, Option.getD_none, Option.toList_none, List.map_nil,
      List.append_nil]
    exact .keeps (Nat.le_refl _)
  | some value => exact .gives value

theorem dealt_move (h : u.Sound) : u.desk.Dealt (u.after (.turn .move)).desk := by
  obtain ⟨w, m, hworker, hmove, hafter⟩ | ⟨-, hsame⟩ :=
    ({ controller := u.controller } : Course).move_cases
  · have hsound : w.Sound := h.worker w hworker
    have hhand : u.desk.hand = w.machine.input := by
      simp only [desk]
      rw [show u.controller.worker = some w from hworker]
      rfl
    have hdesk : (u.after (.turn .move)).desk =
        { u.desk with
          slot := m.panel.slot
          flag := m.panel.interrupted
          hand := m.worker.machine.input
          marks := u.marks ++ (loads m.events).map .loaded } := by
      simp only [desk, after, hafter, Turn.given, Option.toList_none, List.map_nil, List.append_nil,
        List.nil_append]
      rfl
    have hquiet (hslot : m.panel.slot = u.desk.slot) (hflag : m.panel.interrupted = u.desk.flag)
        (hmachine : m.worker.machine = w.machine) (hevents : m.events = []) :
        u.desk.Dealt (u.after (.turn .move)).desk := by
      refine dealt_of_eq ?_
      rw [hdesk, hslot, hflag, hmachine, ← hhand, hevents, loads_nil, List.map_nil,
        List.append_nil]
      rfl
    cases Worker.moved_of_move? hmove with
    | passes hpoint hmay =>
      refine hquiet ?_ ?_ rfl rfl <;> unfold Panel.pass <;> split <;> rfl
    | isHeld | isInterrupted | goesOn | limited | isStarved => exact hquiet rfl rfl rfl rfl
    | @takes hpoint value hslot =>
      rw [hdesk]
      simp only [loads_nil, List.map_nil, List.append_nil]
      exact .takes h.slot hslot (hhand.trans (hsound.waiting hpoint).1)
    | drives hpoint hlimit =>
      obtain ⟨hused, hloads⟩ := hsound.uses
      have hdriven : (u.after (.turn .move)).desk =
          { u.desk with hand := none, marks := u.marks ++ w.machine.input.toList.map .loaded } := by
        rw [hdesk]
        change Desk.mk _ _ w.machine.microStep.machine.input _
          (u.marks ++ (loads w.machine.microStep.events).map .loaded) = _
        rw [hused, hloads]
        rfl
      cases hinput : w.machine.input with
      | none =>
        refine dealt_of_eq ?_
        rw [hdriven, hinput, Option.toList_none, List.map_nil, List.append_nil,
          ← hhand.trans hinput]
        rfl
      | some value =>
        rw [hdriven, hinput]
        exact .loads (hhand.trans hinput)
  · exact dealt_of_eq (by simp [desk, after, hsame, Turn.given])

theorem dealt_start : u.desk.Dealt (u.after .start).desk := by
  obtain ⟨-, hsame⟩ | ⟨started, hpending, hstart, hafter⟩ := u.after_start
  · exact dealt_of_eq (congrArg desk hsame)
  · obtain ⟨memory, hstarts⟩ := Controller.start_eq_ok hstart
    have hempty : u.desk.hand = none := by simp [desk, hstarts.idle]
    have hdesk : (u.after .start).desk =
        { u.desk with
          slot := u.controller.panel.renew.slot
          flag := u.controller.panel.renew.interrupted
          hand := none
          marks := u.marks ++ [.started] } := by
      rw [hafter, desk, hstarts.panel, hstarts.worker]
      rfl
    rw [hdesk, ← hempty]
    unfold Panel.renew
    by_cases hflag : u.controller.panel.interrupted = true
    · rw [if_pos hflag]
      refine .starts hpending hempty ?_
      by_cases hslot : u.controller.panel.slot.isPlaceholder = true
      · exact .inl ⟨if_pos hslot, hslot⟩
      · exact .inr ⟨if_neg hslot, fun hleft => absurd hleft hslot⟩
    · have hcalm : u.controller.panel.interrupted = false := by simpa using hflag
      rw [if_neg hflag, hcalm]
      exact .starts hpending hempty (.inr ⟨rfl, fun _ => hcalm⟩)

theorem dealt_offer : u.desk.Dealt (u.after .offer).desk := by
  simp only [after]
  split
  next hpending =>
    have hhand := hand_of_woken (woken_map Worker.woken_wakeStarved u.controller.worker)
    have hafter : Usage.desk
        { u with controller := u.controller.offerPlaceholder, pending := u.pending - 1 } =
        { u.desk with
          slot := u.controller.panel.offerPlaceholder.slot
          flag := u.controller.panel.offerPlaceholder.interrupted
          pending := u.pending - 1 } := by
      simp only [desk, Controller.offerPlaceholder, Controller.wakeStarved, hhand]
    rw [hafter]
    unfold Panel.offerPlaceholder
    by_cases hslot : u.controller.panel.slot.value? = none
    · rw [if_pos hslot]
      exact .offers hpending hslot
    · rw [if_neg hslot]
      exact .keeps (Nat.sub_le _ _)
  next => exact dealt_of_eq rfl

/-- Everything that is done with a controller deals with inputs in one of the seven ways. -/
theorem dealt_after (h : u.Sound) (act : Act) : u.desk.Dealt (u.after act).desk := by
  cases act with
  | load memory =>
    obtain ⟨hpanel, hworker⟩ := u.controller.load_keeps memory
    exact dealt_alone fun _ => dealt_of_eq (by simp only [desk, hpanel, hworker])
  | addListener id => exact dealt_alone fun _ => dealt_of_eq rfl
  | start => exact dealt_start
  | wait =>
    obtain ⟨-, hsame⟩ | ⟨returned, outcome, -, hwait, hafter⟩ := u.after_wait
    · exact dealt_of_eq (congrArg desk hsame)
    · -- A run that has finished has no value in hand.
      obtain ⟨w, hreturns⟩ := Controller.wait_eq_ok hwait
      obtain ⟨result, hpoint⟩ := hreturns.finished
      have hempty : w.machine.input = none := by
        have hsuits := (h.worker w hreturns.busy).suits
        rw [hpoint] at hsuits
        exact hsuits
      refine dealt_of_eq ?_
      simp [hafter, desk, hreturns.panel, hreturns.worker, hreturns.busy, hempty]
  | turn t =>
    by_cases ht : t = .move
    · rw [ht]
      exact dealt_move h
    · exact dealt_steer ht
  | flag => exact .requests
  | wake =>
    have hhand := hand_of_woken u.controller.steered_wakeHeld.worker
    exact dealt_of_eq (by simp only [desk, after, hhand]; rfl)
  | offer => exact dealt_offer

end Usage

/-! ## Every moment of every use -/

theorem Desk.Balanced.kept_of_sound {u : Usage} {source source' : Nat → Option Nat}
    {origin : Option Nat} (h : u.desk.Balanced source origin) (hsound : u.Sound)
    (hsame : ∀ j < u.marks.length, source' j = source j) : Kept source' u where
  available := by
    intro i value hlast
    obtain hslot | hhand | ⟨j, hj⟩ := h.kept i value hlast
    · exact .inl hslot
    · obtain ⟨-, other, hgiven, htaken⟩ := h.hand i hhand
      obtain ⟨w, hworker, hinput⟩ := Option.bind_eq_some_iff.1 htaken
      have hother : Mark.given value = .given other :=
        Option.some.inj (hlast.1.symm.trans hgiven)
      cases hother
      obtain ⟨hpoint, hopen, hloads, -⟩ := (hsound.worker w hworker).supplied hinput
      exact .inr (.inl ⟨w, hworker, hpoint, hopen, hloads⟩)
    · have hlt := (h.accounted.lt hj).1
      exact .inr (.inr ⟨j, hlt, (hsame j hlt).trans hj⟩)
  placeholder := fun hmark => ⟨hsound.slot hmark, h.offered hmark⟩

theorem accounted_foldl {u : Usage} {source : Nat → Option Nat} {origin : Option Nat}
    (h : u.desk.Balanced source origin) (hsound : u.Sound) (acts : List Act) :
    ∃ source', Accounted source' (acts.foldl Usage.after u).marks ∧
      (∀ j < u.marks.length, source' j = source j) ∧
      u.marks <+: (acts.foldl Usage.after u).marks ∧
      ∀ n, ((acts.take n).foldl Usage.after u).marks <+: (acts.foldl Usage.after u).marks ∧
        Kept source' ((acts.take n).foldl Usage.after u) := by
  -- The source for all marks agrees with the one for the marks so far, so what is kept at an
  -- earlier moment is kept with the source of the end.
  induction acts generalizing u source origin with
  | nil =>
    refine ⟨source, h.accounted, fun _ _ => rfl, List.prefix_refl _, fun n => ?_⟩
    rw [List.take_nil]
    exact ⟨List.prefix_refl _, h.kept_of_sound hsound fun _ _ => rfl⟩
  | cons act rest ih =>
    have hdealt := Usage.dealt_after hsound act
    obtain ⟨source₁, origin₁, hbalanced, hsame₁⟩ := h.dealt hdealt
    obtain ⟨source', haccounted, hsame, hprefix, hkept⟩ := ih hbalanced (hsound.after act)
    have hgrows : u.marks <+: (u.after act).marks := hdealt.marks
    have hagree : ∀ j < u.marks.length, source' j = source j := fun j hj =>
      (hsame j (Nat.lt_of_lt_of_le hj hgrows.length_le)).trans (hsame₁ j hj)
    refine ⟨source', haccounted, hagree, hgrows.trans hprefix, fun n => ?_⟩
    cases n with
    | zero => exact ⟨hgrows.trans hprefix, h.kept_of_sound hsound hagree⟩
    | succ n => exact hkept n

/-- No input is invented, loaded twice or lost. Over any number of runs, each load comes from a
value that was given, and no two from the same, or it is the placeholder of an interruption that was
requested in the same run. At every moment the value that was given last is in the slot, unless an
instruction has taken it, and a placeholder in the slot is zero and comes with the flag. -/
theorem inputs_accounted (settings : Settings) (acts : List Act) :
    ∃ source, Accounted source (usage settings acts).marks ∧
      ∀ n, (usage settings (acts.take n)).marks <+: (usage settings acts).marks ∧
        Kept source (usage settings (acts.take n)) := by
  have hinitial : (usage settings []).desk.Balanced (fun _ => none) none := Desk.balanced_initial
  obtain ⟨source, haccounted, -, -, hkept⟩ :=
    accounted_foldl hinitial (usage_sound settings []) acts
  exact ⟨source, haccounted, hkept⟩

end TrnComputer
