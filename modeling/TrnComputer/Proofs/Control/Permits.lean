import TrnComputer.Proofs.Control.Usage

/-! # Permits and micro-steps are booked

* `Booking`: what is worth counting; `Usage.bookings`: what acts are booked as.
* `Worker.Balanced`, `balanced_move`: the books of one move of the worker balance.
* `Controller.Handled`, `handled_after`: what one act does to the permits and to the worker.
* `Controller.Balanced`, `balanced_run`: the books balance from any moment to any later one.
-/

namespace TrnComputer
set_option autoImplicit false

/-! ## Bookings -/

/-- What is worth counting in the use of permits. -/
inductive Booking
  /-- A run has started. -/
  | started
  /-- A call has granted a permit. -/
  | granted
  /-- A permit that was left has been withdrawn. -/
  | withdrawn
  /-- The worker has passed its checkpoint and used up a permit. -/
  | used
  /-- The worker has passed its checkpoint without a permit. -/
  | free
  /-- A micro-step has found no input value and will be repeated. -/
  | waited
  /-- A micro-step has been completed, also when the machine has stopped by it. -/
  | completed
  /-- The run has ended at the limit. -/
  | limited
  /-- The run has ended because it was interrupted. -/
  | interrupted
  deriving DecidableEq, Repr

namespace Point

/-- Past the checkpoint, before the micro-step is completed. -/
def isPast : Point → Bool
  | .boundary | .ready | .reading | .starved _ => true
  | .checkpoint | .held _ | .finished _ => false

@[simp] theorem isPast_checkpoint : checkpoint.isPast = false := rfl

@[simp] theorem isPast_held (woken : Bool) : (held woken).isPast = false := rfl

@[simp] theorem isPast_boundary : boundary.isPast = true := rfl

@[simp] theorem isPast_ready : ready.isPast = true := rfl

@[simp] theorem isPast_reading : reading.isPast = true := rfl

@[simp] theorem isPast_starved (woken : Bool) : (starved woken).isPast = true := rfl

@[simp] theorem isPast_finished (result : Except MachineError Termination) :
    (finished result).isPast = false := rfl

end Point

namespace Worker

def isPast (w : Worker) : Bool := w.point.isPast

/-- The worker is past its checkpoint and has not waited for a value. -/
def isFresh (w : Worker) : Bool := w.point.isPast && !w.machine.awaitsInput

/-- What the next move of the worker is booked as. -/
def books (p : Panel) (w : Worker) : List Booking :=
  match w.point with
  | .checkpoint | .held true =>
    if p.mayPass then if p.paused && 0 < p.permits then [.used] else [.free] else []
  | .boundary => if w.machine.atBoundary && p.interrupted then [.interrupted] else []
  | .ready =>
    if w.limitReached then [.limited]
    else match w.machine.microStep.result with
      | .ok .awaitsInput => [.waited]
      | _ => [.completed]
  | _ => []

end Worker

namespace Controller

def isPast (c : Controller) : Bool := c.worker.any Worker.isPast

def isFresh (c : Controller) : Bool := c.worker.any Worker.isFresh

end Controller

namespace Usage

/-- What an act is booked as. -/
def books (u : Usage) : Act → List Booking
  | .start => if u.pending = 0 ∧ u.controller.start.2.isOk then [.started] else []
  | .turn .step => if u.controller.step.2 then [.granted] else []
  | .turn .pause | .turn .resume => List.replicate u.controller.panel.permits .withdrawn
  | .turn .move => u.controller.worker.elim [] (Worker.books u.controller.panel)
  | _ => []

/-- What acts are booked as, in order. -/
def bookings (u : Usage) : List Act → List Booking
  | [] => []
  | act :: rest => u.books act ++ (u.after act).bookings rest

end Usage

/-! ## Moves -/

namespace Worker

/-- The books of a move balance. A worker that gets past its checkpoint leaves it by one micro-step
or at the end of the run, and waits once at most. -/
structure Balanced (p : Panel) (w : Worker) (m : Move) (b : List Booking) : Prop where
  permits : p.permits = b.count .used + m.panel.permits
  past : w.isPast.toNat + b.count .used + b.count .free =
    b.count .completed + b.count .limited + b.count .interrupted + m.worker.isPast.toNat
  fresh : b.count .waited + m.worker.isFresh.toNat ≤
    w.isFresh.toNat + b.count .used + b.count .free
  granted : b.count .granted = 0
  withdrawn : b.count .withdrawn = 0

section
variable {p : Panel} {w : Worker} {m : Move}

/-- A micro-step that is repeated with the value does not wait again. -/
theorem Sound.awaits_of_waits (h : w.Sound) (hpoint : w.point = .ready)
    (hwaits : w.machine.microStep.result = .ok .awaitsInput) :
    w.machine.awaitsInput = false ∧ w.machine.microStep.machine.awaitsInput = true := by
  have hrun := h.running (by simp [isFinished, hpoint])
  have hprogress := Machine.progressed_microStep h.wellFormed hrun
  rw [hwaits] at hprogress
  cases hprogress with
  | waits hinput hsc hrunning hwish => exact ⟨by rw [h.answered (.inr hpoint), hinput]; rfl, hwish⟩

theorem books_at_checkpoint (hpoint : w.point = .checkpoint ∨ w.point = .held true) :
    w.books p = if p.mayPass then if p.paused && 0 < p.permits then [.used] else [.free]
      else [] := by
  obtain hp | hp := hpoint <;> simp only [books, hp]

theorem isPast_at_checkpoint (hpoint : w.point = .checkpoint ∨ w.point = .held true) :
    w.point.isPast = false := by
  obtain hp | hp := hpoint <;> rw [hp] <;> rfl

theorem books_at_slot (hpoint : w.point = .reading ∨ w.point = .starved true) :
    w.books p = [] := by
  obtain hp | hp := hpoint <;> simp only [books, hp]

theorem isPast_at_slot (hpoint : w.point = .reading ∨ w.point = .starved true) :
    w.point.isPast = true := by
  obtain hp | hp := hpoint <;> rw [hp] <;> rfl

theorem books_of_stays (h : w.move? p = none) : w.books p = [] := by
  obtain hp | hp | hfinished := move?_eq_none_iff.mp h
  · simp only [books, hp]
  · simp only [books, hp]
  · unfold isFinished at hfinished
    unfold books
    split <;> simp_all

/-- A permit is used up exactly when the worker passes its checkpoint while there is one. -/
theorem balanced_passes (hpoint : w.point = .checkpoint ∨ w.point = .held true)
    (hmay : p.mayPass = true) :
    Balanced p w { panel := p.pass, worker := { w with point := .boundary } } (w.books p) := by
  have hbefore : w.point.isPast = false := isPast_at_checkpoint hpoint
  have hfresh := Bool.toNat_le (!w.machine.awaitsInput)
  rw [books_at_checkpoint hpoint, if_pos hmay]
  split
  · next hpermit =>
    rw [Bool.and_eq_true, decide_eq_true_eq] at hpermit
    have hpass : p.permits = 1 + p.pass.permits := by
      rw [Panel.pass, if_pos hpermit.1]
      exact (Nat.add_sub_of_le hpermit.2).symm
    constructor <;> simp [isPast, isFresh, hbefore, hfresh, ← hpass]
  · next hpermit =>
    have hpass : p.pass.permits = p.permits := by
      rw [Panel.pass]
      split
      · next hpaused => simp_all
      · rfl
    constructor <;> simp [isPast, isFresh, hbefore, hfresh, hpass]

theorem balanced_drives (h : w.Sound) (hpoint : w.point = .ready)
    (hlimit : w.limitReached = false) : Balanced p w (w.drive p) (w.books p) := by
  have hpanel : (w.drive p).panel = p := rfl
  have hafter : (w.drive p).worker.point = pointAfter w.machine.microStep.result := rfl
  by_cases hwaits : w.machine.microStep.result = .ok .awaitsInput
  · obtain ⟨hbefore, hwish⟩ := h.awaits_of_waits hpoint hwaits
    have hbooks : w.books p = [.waited] := by simp [books, hpoint, hlimit, hwaits]
    have hlast : (w.drive p).worker.machine.awaitsInput = true := hwish
    have hslot : (w.drive p).worker.point = .reading := by rw [hafter, hwaits]; rfl
    rw [hbooks]
    constructor <;> simp [isPast, isFresh, hpoint, hpanel, hslot, hbefore, hlast]
  · have hbooks : w.books p = [.completed] := by
      simp only [books, hpoint, hlimit]
      split <;> simp_all
    have hlast : (w.drive p).worker.point.isPast = false := by
      rw [hafter]
      unfold pointAfter
      split <;> simp_all
    rw [hbooks]
    constructor <;> simp [isPast, isFresh, hpoint, hpanel, hlast]

theorem balanced_move (h : w.Sound) (hmove : w.move? p = some m) : Balanced p w m (w.books p) := by
  cases moved_of_move? hmove with
  | passes hpoint hmay => exact balanced_passes hpoint hmay
  | isHeld hpoint hmay =>
    rw [books_at_checkpoint hpoint, hmay]
    constructor <;> simp [isPast, isFresh, isPast_at_checkpoint hpoint]
  | isInterrupted hpoint hclosed hflag =>
    have hbooks : w.books p = [.interrupted] := by
      simp [books, hpoint, Machine.atBoundary, hclosed, hflag]
    rw [hbooks]
    constructor <;> simp [isPast, isFresh, hpoint]
  | goesOn hpoint hmay =>
    have hbooks : w.books p = [] := by
      obtain hopen | hcalm := hmay <;> simp [books, Machine.atBoundary, *]
    rw [hbooks]
    constructor <;> simp [isPast, isFresh, hpoint]
  | limited hpoint hlimit =>
    have hbooks : w.books p = [.limited] := by simp [books, hpoint, hlimit]
    rw [hbooks]
    constructor <;> simp [isPast, isFresh, hpoint]
  | drives hpoint hlimit => exact balanced_drives h hpoint hlimit
  | takes hpoint hslot =>
    rw [books_at_slot hpoint]
    constructor <;>
      simp [isPast, isFresh, isPast_at_slot hpoint, Panel.takeSlot, Machine.supply]
  | isStarved hpoint hslot =>
    rw [books_at_slot hpoint]
    constructor <;> simp [isPast, isFresh, isPast_at_slot hpoint]

end

end Worker

/-! ## Acts -/

/-- A new run finds the switch and the permits as they were left, and the flag lowered. -/
theorem Panel.renew_left (p : Panel) : p.renew.paused = p.paused ∧ p.renew.permits = p.permits ∧
    p.renew.interrupted = false := by
  unfold renew
  split
  · exact ⟨rfl, rfl, rfl⟩
  · next hflag => exact ⟨rfl, rfl, eq_false_of_ne_true hflag⟩

/-- What one act does to the permits and to the worker, and what it is booked as. -/
inductive Controller.Handled (c : Controller) : Act → List Booking → Controller → Prop
  /-- The worker may be woken. It does not go on sleeping if the slot has been filled. -/
  | quiet {act : Act} {c' : Controller} (hpermits : c'.panel.permits = c.panel.permits)
    (hpaused : c'.panel.paused = c.panel.paused)
    (hflag : act ≠ .flag → c'.panel.interrupted = c.panel.interrupted)
    (hworker : Option.Rel Worker.Woken c.worker c'.worker)
    (hslot : c'.panel.slot = c.panel.slot ∨
      ∀ w, c'.worker = some w → w.point ≠ .starved false) : Handled c act [] c'
  | starts {c' : Controller} (hstart : c.start = (c', .ok ())) : Handled c .start [.started] c'
  | ends {c' : Controller} {outcome : Outcome} (hwait : c.wait = (c', .ok (some outcome))) :
    Handled c .wait [] c'
  | pauses : Handled c (.turn .pause) (List.replicate c.panel.permits .withdrawn) c.pause
  | resumes : Handled c (.turn .resume) (List.replicate c.panel.permits .withdrawn) c.resume
  | grants (hgrant : c.step.2 = true) : Handled c (.turn .step) [.granted] c.step.1
  | moves {w : Worker} {m : Move} (hworker : c.worker = some w)
    (hmove : w.move? c.panel = some m) {c' : Controller} (hpanel : c'.panel = m.panel)
    (hnext : c'.worker = some m.worker) : Handled c (.turn .move) (w.books c.panel) c'

namespace Controller
variable {c c' : Controller}

theorem Handled.refl (c : Controller) (act : Act) : c.Handled act [] c :=
  .quiet rfl rfl (fun _ => rfl) (woken_refl _) (.inl rfl)

theorem point_wakeStarved (c : Controller) {w : Worker}
    (h : c.wakeStarved.worker = some w) : w.point ≠ .starved false := by
  obtain ⟨before, -, rfl⟩ := Option.map_eq_some_iff.mp h
  unfold Worker.wakeStarved
  split
  · simp
  · next hnot =>
    intro hpoint
    exact hnot false hpoint

theorem handled_step (c : Controller) :
    c.Handled (.turn .step) (if c.step.2 then [.granted] else []) c.step.1 := by
  cases hgrant : c.step.2 with
  | true => exact .grants hgrant
  | false =>
    rw [step_spares hgrant]
    exact .refl c _

end Controller

namespace Usage
variable {u next : Usage}

theorem handled_alone {act : Act} (h : u.controller.Handled act [] next.controller) :
    u.controller.Handled act [] (u.alone next).controller := by
  unfold alone
  split
  · exact h
  · exact .refl _ _

theorem handled_start (u : Usage) :
    u.controller.Handled .start (u.books .start) (u.after .start).controller := by
  obtain ⟨hnot, hsame⟩ | ⟨started, hpending, hstart, hafter⟩ := u.after_start
  · rw [books, if_neg hnot, hsame]
    exact .refl _ _
  · have hmade : u.pending = 0 ∧ u.controller.start.2.isOk := by
      rw [hstart]
      exact ⟨hpending, rfl⟩
    rw [books, if_pos hmade, hafter]
    exact .starts hstart

theorem handled_move (u : Usage) :
    u.controller.Handled (.turn .move) (u.books (.turn .move))
      (u.after (.turn .move)).controller := by
  obtain ⟨w, m, hworker, hmove, hafter⟩ | ⟨hnone, hafter⟩ :=
    ({ controller := u.controller } : Course).move_cases
  · change u.controller.worker = some w at hworker
    have hbooks : u.books (.turn .move) = w.books u.controller.panel := by
      simp only [books, hworker, Option.elim_some]
    rw [hbooks]
    simp only [after, hafter]
    exact .moves hworker hmove rfl rfl
  · have hbooks : u.books (.turn .move) = [] := by
      cases hworker : u.controller.worker with
      | none => simp only [books, hworker, Option.elim_none]
      | some w =>
        have hstays : w.move? u.controller.panel = none := by
          change u.controller.move? = none at hnone
          rw [Controller.move?, hworker] at hnone
          dsimp only at hnone
          split at hnone
          · next hstays => exact hstays
          · cases hnone
        simp only [books, hworker, Option.elim_some]
        exact Worker.books_of_stays hstays
    rw [hbooks]
    simp only [after, hafter]
    exact .refl _ _

/-- Every act is handled in one of the seven ways. -/
theorem handled_after (u : Usage) (act : Act) :
    u.controller.Handled act (u.books act) (u.after act).controller := by
  cases act with
  | load memory =>
    obtain ⟨hpanel, hworker⟩ := u.controller.load_keeps memory
    refine handled_alone ?_
    exact .quiet (by rw [hpanel]) (by rw [hpanel]) (fun _ => by rw [hpanel])
      (by rw [hworker]; exact woken_refl _) (.inl (by rw [hpanel]))
  | addListener id => exact handled_alone (.quiet rfl rfl (fun _ => rfl) (woken_refl _) (.inl rfl))
  | start => exact u.handled_start
  | wait =>
    obtain ⟨-, hsame⟩ | ⟨returned, outcome, -, hwait, hafter⟩ := u.after_wait
    · rw [hsame]
      exact .refl _ _
    · rw [hafter]
      exact .ends hwait
  | turn t =>
    cases t with
    | pause => exact .pauses
    | resume => exact .resumes
    | step => exact u.controller.handled_step
    | setInput value =>
      exact .quiet rfl rfl (fun _ => rfl) (woken_map Worker.woken_wakeStarved _)
        (.inr fun w => Controller.point_wakeStarved _)
    | setDelay delay => exact .quiet rfl rfl (fun _ => rfl) (woken_refl _) (.inl rfl)
    | move => exact u.handled_move
  | flag =>
    exact .quiet rfl rfl (fun hnot => absurd rfl hnot) (woken_refl _) (.inl rfl)
  | wake => exact .quiet rfl rfl (fun _ => rfl) (woken_map Worker.woken_wakeHeld _) (.inl rfl)
  | offer =>
    simp only [books, after]
    have hoffer : u.controller.offerPlaceholder.panel.permits = u.controller.panel.permits ∧
        u.controller.offerPlaceholder.panel.paused = u.controller.panel.paused ∧
        u.controller.offerPlaceholder.panel.interrupted = u.controller.panel.interrupted := by
      change u.controller.panel.offerPlaceholder.permits = _ ∧
        u.controller.panel.offerPlaceholder.paused = _ ∧
        u.controller.panel.offerPlaceholder.interrupted = _
      unfold Panel.offerPlaceholder
      split <;> exact ⟨rfl, rfl, rfl⟩
    split
    · exact .quiet hoffer.1 hoffer.2.1 (fun _ => hoffer.2.2)
        (woken_map Worker.woken_wakeStarved _) (.inr fun w => Controller.point_wakeStarved _)
    · exact .refl _ _

end Usage

/-! ## The books balance -/

/-- The books from one moment to another balance. Permits are granted, withdrawn and used up. A
worker that gets past its checkpoint leaves it by one micro-step or at the end of the run, and the
micro-step waits once at most. -/
structure Controller.Balanced (c : Controller) (b : List Booking) (c' : Controller) : Prop where
  permits : c.panel.permits + b.count .granted =
    b.count .withdrawn + b.count .used + c'.panel.permits
  past : c.isPast.toNat + b.count .used + b.count .free =
    b.count .completed + b.count .limited + b.count .interrupted + c'.isPast.toNat
  waits : b.count .waited + c'.isFresh.toNat ≤
    c.isFresh.toNat + b.count .used + b.count .free

namespace Controller
variable {c c' last : Controller} {act : Act} {b more : List Booking}

theorem Balanced.refl (c : Controller) : c.Balanced [] c := by
  constructor <;> simp

theorem Balanced.trans (h : c.Balanced b c') (hmore : c'.Balanced more last) :
    c.Balanced (b ++ more) last where
  permits := by
    have hfirst := h.permits
    have hsecond := hmore.permits
    simp only [List.count_append]
    omega
  past := by
    have hfirst := h.past
    have hsecond := hmore.past
    simp only [List.count_append]
    omega
  waits := by
    have hfirst := h.waits
    have hsecond := hmore.waits
    simp only [List.count_append]
    omega

theorem isPast_of_woken (h : Option.Rel Worker.Woken c.worker c'.worker) :
    c'.isPast = c.isPast ∧ c'.isFresh = c.isFresh := by
  unfold isPast isFresh
  generalize c.worker = worker at h ⊢
  generalize c'.worker = worker' at h ⊢
  cases h with
  | none => exact ⟨rfl, rfl⟩
  | some hwoken =>
    cases hwoken with
    | not => exact ⟨rfl, rfl⟩
    | held hpoint | starved hpoint => simp [Worker.isPast, Worker.isFresh, hpoint]

/-- Withdrawing all permits balances. -/
theorem balanced_withdrawn (hpermits : c'.panel.permits = 0)
    (hworker : Option.Rel Worker.Woken c.worker c'.worker) :
    c.Balanced (List.replicate c.panel.permits .withdrawn) c' := by
  obtain ⟨hpast, hfresh⟩ := isPast_of_woken hworker
  constructor <;> simp [List.count_replicate, hpermits, hpast, hfresh]

theorem step_of_granted (h : c.step.2 = true) :
    c.panel.paused = true ∧
      c.step.1.panel = { c.panel with permits := c.panel.permits + 1 } ∧
      c.step.1.worker = c.worker.map Worker.wakeHeld := by
  cases hpaused : c.panel.paused with
  | false => simp [step, Panel.grant, hpaused] at h
  | true =>
    have hgrant : c.panel.grant = ({ c.panel with permits := c.panel.permits + 1 }, true) := by
      rw [Panel.grant, if_pos hpaused]
    rw [step, hgrant]
    exact ⟨rfl, rfl, rfl⟩

/-- The books of one act balance. -/
theorem Handled.balanced (h : c.Handled act b c')
    (hsound : ∀ w, c.worker = some w → w.Sound) : c.Balanced b c' := by
  cases h with
  | quiet hpermits hpaused hflag hworker hslot =>
    obtain ⟨hpast, hfresh⟩ := isPast_of_woken hworker
    constructor <;> simp [hpermits, hpast, hfresh]
  | starts hstart =>
    obtain ⟨memory, hstarts⟩ := start_eq_ok hstart
    have hpermits : c'.panel.permits = c.panel.permits := by
      rw [hstarts.panel, c.panel.renew_left.2.1]
    constructor <;>
      simp [isPast, isFresh, Worker.isPast, Worker.isFresh, hstarts.idle, hstarts.worker, hpermits]
  | ends hwait =>
    obtain ⟨w, hreturns⟩ := wait_eq_ok hwait
    obtain ⟨result, hpoint⟩ := hreturns.finished
    constructor <;>
      simp [isPast, isFresh, Worker.isPast, Worker.isFresh, hreturns.busy, hpoint, hreturns.panel,
        hreturns.worker]
  | pauses => exact balanced_withdrawn rfl (woken_refl _)
  | resumes => exact balanced_withdrawn rfl (woken_map Worker.woken_wakeHeld _)
  | grants hgrant =>
    obtain ⟨-, hpanel, hworker⟩ := step_of_granted hgrant
    have hwoken : Option.Rel Worker.Woken c.worker c.step.1.worker := by
      rw [hworker]
      exact woken_map Worker.woken_wakeHeld _
    obtain ⟨hpast, hfresh⟩ := isPast_of_woken hwoken
    constructor <;> simp [hpanel, hpast, hfresh]
  | moves hworker hmove hpanel hnext =>
    have hbalanced := Worker.balanced_move (hsound _ hworker) hmove
    constructor
    · rw [hpanel, hbalanced.granted, hbalanced.withdrawn, Nat.zero_add]
      exact hbalanced.permits
    · rw [isPast, isPast, hworker, hnext]
      exact hbalanced.past
    · rw [isFresh, isFresh, hworker, hnext]
      exact hbalanced.fresh

end Controller

namespace Usage
variable {u : Usage}

theorem balanced_run (h : u.Sound) (acts : List Act) :
    u.controller.Balanced (u.bookings acts) (acts.foldl Usage.after u).controller := by
  induction acts generalizing u with
  | nil => exact .refl _
  | cons act rest ih => exact ((u.handled_after act).balanced h.worker).trans (ih (h.after act))

end Usage

end TrnComputer
