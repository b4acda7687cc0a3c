import TrnComputer.Proofs.Control.Permits

/-! # Grants are conserved

A permit that is granted to a paused worker is used up by one micro-step, unless it is withdrawn.

* `Controller.Guarded`: there are permits only while the controller is paused, and nobody sleeps
  who could go on.
* `Controller.Calm`: while the controller is paused and not interrupted, no worker passes its
  checkpoint without a permit.
* `Worker.distance`: how far a worker past its checkpoint is from the end of its micro-step.
* `usage_spent`: what the permits have been used up for when the worker is held again.
* `grants_conserved`: what becomes of grants, over every use of a controller.
* `started_by_permits`: what a run does that is started while the controller is paused.
-/

namespace TrnComputer
set_option autoImplicit false

/-! ## Who sleeps -/

namespace Worker
variable {p : Panel} {w : Worker} {m : Move}

theorem of_not_mayPass (h : p.mayPass = false) : p.paused = true ∧ p.permits = 0 := by
  simp only [Panel.mayPass, Bool.or_eq_false_iff, Bool.not_eq_false', decide_eq_false_iff_not] at h
  exact ⟨h.1.1, by omega⟩

/-- A worker falls asleep only at a checkpoint without a permit, or at an empty slot. -/
theorem sleeps_of_move (hmove : w.move? p = some m) :
    m.panel.paused = p.paused ∧ m.panel.permits ≤ p.permits ∧
      (m.worker.point = .held false → p.paused = true ∧ m.panel.permits = 0) ∧
      (m.worker.point = .starved false → m.panel.slot.value? = none) := by
  have hpass : p.pass.paused = p.paused ∧ p.pass.permits ≤ p.permits := by
    unfold Panel.pass
    split
    · exact ⟨rfl, Nat.sub_le _ _⟩
    · exact ⟨rfl, Nat.le_refl _⟩
  cases moved_of_move? hmove with
  | passes hpoint hmay =>
    exact ⟨hpass.1, hpass.2, nofun, nofun⟩
  | isHeld hpoint hmay =>
    exact ⟨rfl, Nat.le_refl _, fun _ => of_not_mayPass hmay, nofun⟩
  | isInterrupted | goesOn | limited | takes =>
    exact ⟨rfl, Nat.le_refl _, nofun, nofun⟩
  | drives hpoint hlimit =>
    have hafter : (w.drive p).worker.point = pointAfter w.machine.microStep.result := rfl
    refine ⟨rfl, Nat.le_refl _, fun hheld => ?_, fun hstarved => ?_⟩
    · rw [hafter] at hheld
      unfold pointAfter at hheld
      split at hheld <;> cases hheld
    · rw [hafter] at hstarved
      unfold pointAfter at hstarved
      split at hstarved <;> cases hstarved
  | isStarved hpoint hslot => exact ⟨rfl, Nat.le_refl _, nofun, fun _ => hslot⟩

theorem point_of_wakeHeld (w : Worker) : w.wakeHeld.point ≠ .held false ∧
    (w.wakeHeld.point = .starved false → w.point = .starved false) := by
  unfold wakeHeld
  split
  · exact ⟨by simp, by simp⟩
  · next hnot => exact ⟨fun hpoint => hnot false hpoint, id⟩

end Worker

/-- There are permits only while the controller is paused, and a worker sleeps only where it cannot
go on: at its checkpoint without a permit, or at an empty slot. -/
structure Controller.Guarded (c : Controller) : Prop where
  permits : 0 < c.panel.permits → c.panel.paused = true
  held : ∀ w, c.worker = some w → w.point = .held false →
    c.panel.paused = true ∧ c.panel.permits = 0
  starved : ∀ w, c.worker = some w → w.point = .starved false → c.panel.slot.value? = none

namespace Controller
variable {c c' : Controller} {act : Act} {b : List Booking}

/-- A worker that sleeps after it may have been woken has slept before. -/
theorem slept_of_woken (h : Option.Rel Worker.Woken c.worker c'.worker) {w : Worker}
    (hworker : c'.worker = some w) (hpoint : w.point = .held false ∨ w.point = .starved false) :
    c.worker = some w := by
  rw [hworker] at h
  generalize c.worker = worker at h
  cases h with
  | some hwoken =>
    cases hwoken with
    | not => rfl
    | held | starved => simp at hpoint

theorem guarded_wakeHeld (hworker : c'.worker = c.worker.map Worker.wakeHeld)
    (hslot : c'.panel.slot = c.panel.slot)
    (hpermits : 0 < c'.panel.permits → c'.panel.paused = true) (h : c.Guarded) : c'.Guarded where
  permits := hpermits
  held := by
    intro w hw hpoint
    rw [hworker] at hw
    obtain ⟨before, -, rfl⟩ := Option.map_eq_some_iff.mp hw
    exact absurd hpoint before.point_of_wakeHeld.1
  starved := by
    intro w hw hpoint
    rw [hworker] at hw
    obtain ⟨before, hbefore, rfl⟩ := Option.map_eq_some_iff.mp hw
    rw [hslot]
    exact h.starved before hbefore (before.point_of_wakeHeld.2 hpoint)

theorem Handled.guarded (hact : c.Handled act b c') (h : c.Guarded) : c'.Guarded := by
  cases hact with
  | quiet hpermits hpaused hflag hworker hslot =>
    refine ⟨by rw [hpermits, hpaused]; exact h.permits, fun w hw hpoint => ?_,
      fun w hw hpoint => ?_⟩
    · rw [hpermits, hpaused]
      exact h.held w (slept_of_woken hworker hw (.inl hpoint)) hpoint
    · obtain hsame | hawake := hslot
      · rw [hsame]
        exact h.starved w (slept_of_woken hworker hw (.inr hpoint)) hpoint
      · exact absurd hpoint (hawake w hw)
  | starts hstart =>
    obtain ⟨memory, hstarts⟩ := start_eq_ok hstart
    obtain ⟨hpaused, hpermits, -⟩ := c.panel.renew_left
    refine ⟨by rw [hstarts.panel, hpermits, hpaused]; exact h.permits, fun w hw hpoint => ?_,
      fun w hw hpoint => ?_⟩
    all_goals
      rw [hstarts.worker] at hw
      cases hw
      cases hpoint
  | ends hwait =>
    obtain ⟨w, hreturns⟩ := wait_eq_ok hwait
    refine ⟨by rw [hreturns.panel]; exact h.permits, fun w hw => ?_, fun w hw => ?_⟩
    all_goals
      rw [hreturns.worker] at hw
      cases hw
  | pauses => exact ⟨fun _ => rfl, fun _ _ _ => ⟨rfl, rfl⟩, h.starved⟩
  | resumes =>
    exact guarded_wakeHeld (c := c) rfl rfl (fun hpos => absurd hpos (Nat.lt_irrefl 0)) h
  | grants hgrant =>
    obtain ⟨hpaused, hpanel, hworker⟩ := step_of_granted hgrant
    refine guarded_wakeHeld hworker (by rw [hpanel]) (fun _ => ?_) h
    rw [hpanel]
    exact hpaused
  | moves hworker hmove hpanel hnext =>
    obtain ⟨hpaused, hpermits, hheld, hstarved⟩ := Worker.sleeps_of_move hmove
    refine ⟨fun hpos => ?_, fun w hw hpoint => ?_, fun w hw hpoint => ?_⟩
    · rw [hpanel] at hpos ⊢
      rw [hpaused]
      exact h.permits (Nat.lt_of_lt_of_le hpos hpermits)
    · obtain rfl := Option.some.inj (hnext.symm.trans hw)
      rw [hpanel, hpaused]
      exact hheld hpoint
    · obtain rfl := Option.some.inj (hnext.symm.trans hw)
      rw [hpanel]
      exact hstarved hpoint

end Controller

/-- Whatever is done with a controller, it is guarded. -/
theorem usage_guarded (settings : Settings) (acts : List Act) :
    (usage settings acts).controller.Guarded := by
  refine List.foldlRecOn acts Usage.after ?_ fun u h act _ => (u.handled_after act).guarded h
  refine ⟨fun hpos => absurd hpos (Nat.lt_irrefl 0), fun w hw => ?_, fun w hw => ?_⟩
  all_goals cases hw

/-! ## Paused and not interrupted -/

/-- The controller is paused and not interrupted. -/
structure Controller.Calm (c : Controller) : Prop where
  paused : c.panel.paused = true
  flag : c.panel.interrupted = false

/-- While the controller is calm, a worker passes its checkpoint only with a permit. -/
theorem Worker.books_calm {p : Panel} (hpaused : p.paused = true) (hflag : p.interrupted = false)
    (w : Worker) : .free ∉ w.books p ∧ .interrupted ∉ w.books p := by
  unfold books
  split
  · by_cases hpermits : 0 < p.permits <;> simp [Panel.mayPass, hpaused, hflag, hpermits]
  · by_cases hpermits : 0 < p.permits <;> simp [Panel.mayPass, hpaused, hflag, hpermits]
  · simp [hflag]
  · split
    · simp
    · split <;> simp
  · simp

/-- While the controller is paused and not interrupted, getting past a checkpoint costs a permit. -/
theorem Worker.permits_of_passes {p : Panel} {w : Worker} {m : Move}
    (hmove : w.move? p = some m) (hbefore : w.isPast = false) (hafter : m.worker.isPast = true)
    (hpaused : p.paused = true) (hflag : p.interrupted = false) :
    p.permits = m.panel.permits + 1 := by
  cases moved_of_move? hmove with
  | passes hpoint hmay =>
    have hpermits : 0 < p.permits := by simpa [Panel.mayPass, hpaused, hflag] using hmay
    change p.permits = p.pass.permits + 1
    rw [Panel.pass, if_pos hpaused]
    exact (Nat.sub_add_cancel hpermits).symm
  | isHeld => cases hafter
  | isInterrupted hpoint | goesOn hpoint | limited hpoint | drives hpoint =>
    simp [isPast, hpoint] at hbefore
  | takes hpoint hslot | isStarved hpoint hslot =>
    rw [isPast, isPast_at_slot hpoint] at hbefore
    cases hbefore

/-- A move that is booked as the end at the limit ends the run. -/
theorem Worker.finished_of_limited {p : Panel} {w : Worker} {m : Move}
    (hmove : w.move? p = some m) (h : .limited ∈ w.books p) : m.worker.isFinished = true := by
  cases moved_of_move? hmove with
  | limited hpoint hlimit => rfl
  | passes hpoint hmay =>
    rw [books_at_checkpoint hpoint, if_pos hmay] at h
    split at h <;> simp at h
  | isHeld hpoint hmay =>
    rw [books_at_checkpoint hpoint, hmay] at h
    simp at h
  | isInterrupted hpoint | goesOn hpoint =>
    simp only [books, hpoint] at h
    split at h <;> simp at h
  | drives hpoint hlimit =>
    simp only [books, hpoint, hlimit, Bool.false_eq_true, if_false] at h
    split at h <;> simp at h
  | takes hpoint hslot | isStarved hpoint hslot =>
    rw [books_at_slot hpoint] at h
    simp at h

namespace Controller
variable {c c' : Controller} {act : Act} {b : List Booking}

/-- A run that starts while the controller is paused finds it calm. -/
theorem calm_start (hstart : c.start = (c', .ok ())) (hpaused : c.panel.paused = true) : c'.Calm := by
  obtain ⟨memory, hstarts⟩ := start_eq_ok hstart
  obtain ⟨hsame, -, hflag⟩ := c.panel.renew_left
  rw [← hstarts.panel] at hsame hflag
  exact ⟨hsame.trans hpaused, hflag⟩

theorem Handled.calm (hact : c.Handled act b c') (hresume : act ≠ .turn .resume)
    (hflag : act ≠ .flag) (h : c.Calm) : c'.Calm ∧ .free ∉ b ∧ .interrupted ∉ b := by
  cases hact with
  | quiet hpermits hpaused hsame hworker hslot =>
    exact ⟨⟨hpaused.trans h.paused, (hsame hflag).trans h.flag⟩, by simp, by simp⟩
  | starts hstart =>
    exact ⟨calm_start hstart h.paused, by simp, by simp⟩
  | ends hwait =>
    obtain ⟨w, hreturns⟩ := wait_eq_ok hwait
    exact ⟨⟨hreturns.panel ▸ h.paused, hreturns.panel ▸ h.flag⟩, by simp, by simp⟩
  | pauses => exact ⟨⟨rfl, h.flag⟩, by simp [List.mem_replicate], by simp [List.mem_replicate]⟩
  | resumes => exact absurd rfl hresume
  | grants hgrant =>
    obtain ⟨-, hpanel, -⟩ := step_of_granted hgrant
    exact ⟨⟨by rw [hpanel]; exact h.paused, by rw [hpanel]; exact h.flag⟩, by simp, by simp⟩
  | moves hworker hmove hpanel hnext =>
    have hpaused := (Worker.sleeps_of_move hmove).1
    have hkept := (Worker.moved_of_move? hmove).flag
    exact ⟨⟨hpanel ▸ hpaused.trans h.paused, hpanel ▸ hkept.trans h.flag⟩,
      Worker.books_calm h.paused h.flag _⟩

/-- Only pausing and resuming withdraw permits. -/
theorem Handled.keeps (hact : c.Handled act b c') (hsound : ∀ w, c.worker = some w → w.Sound)
    (hpause : act ≠ .turn .pause) (hresume : act ≠ .turn .resume) : .withdrawn ∉ b := by
  cases hact with
  | quiet | starts | ends | grants => simp
  | pauses => exact absurd rfl hpause
  | resumes => exact absurd rfl hresume
  | moves hworker hmove hpanel hnext =>
    exact List.count_eq_zero.mp (Worker.balanced_move (hsound _ hworker) hmove).withdrawn

/-! ## Runs that are over -/

/-- No run is under way. -/
def Over (c : Controller) : Prop := ∀ w, c.worker = some w → w.isFinished = true

theorem over_of_woken (hworker : Option.Rel Worker.Woken c.worker c'.worker) (h : c.Over) :
    c'.Over := by
  intro w hw
  rw [hw] at hworker
  generalize hbefore : c.worker = worker at hworker
  cases hworker with
  | some hwoken =>
    have hfinished := h _ hbefore
    cases hwoken with
    | not => exact hfinished
    | held hpoint | starved hpoint => simp [Worker.isFinished, hpoint] at hfinished

/-- A run that is over stays so until the next one starts. A run that has ended at the limit is
over. -/
theorem Handled.over (hact : c.Handled act b c') (hstarted : .started ∉ b)
    (h : c.Over ∨ .limited ∈ b) : c'.Over := by
  cases hact with
  | quiet hpermits hpaused hsame hworker hslot =>
    obtain hover | hlimited := h
    · exact over_of_woken hworker hover
    · simp at hlimited
  | starts hstart => simp at hstarted
  | ends hwait =>
    obtain ⟨w, hreturns⟩ := wait_eq_ok hwait
    intro w hw
    cases hreturns.worker.symm.trans hw
  | pauses =>
    obtain hover | hlimited := h
    · exact hover
    · simp [List.mem_replicate] at hlimited
  | resumes =>
    obtain hover | hlimited := h
    · exact over_of_woken (woken_map Worker.woken_wakeHeld _) hover
    · simp [List.mem_replicate] at hlimited
  | grants hgrant =>
    obtain ⟨-, -, hworker⟩ := step_of_granted hgrant
    obtain hover | hlimited := h
    · refine over_of_woken ?_ hover
      rw [hworker]
      exact woken_map Worker.woken_wakeHeld _
    · simp at hlimited
  | moves hworker hmove hpanel hnext =>
    obtain hover | hlimited := h
    · have hbusy := (Worker.moved_of_move? hmove).busy
      rw [hover _ hworker] at hbusy
      cases hbusy
    · intro w hw
      obtain rfl := Option.some.inj (hnext.symm.trans hw)
      exact Worker.finished_of_limited hmove hlimited

end Controller

namespace Usage
variable {u : Usage} {acts : List Act}

/-- As long as nobody resumes or interrupts, a calm controller stays calm. -/
theorem calm_run (h : u.controller.Calm) (hresume : .turn .resume ∉ acts) (hflag : .flag ∉ acts) :
    .free ∉ u.bookings acts ∧ .interrupted ∉ u.bookings acts := by
  induction acts generalizing u with
  | nil => simp [bookings]
  | cons act rest ih =>
    rw [List.mem_cons, not_or] at hresume hflag
    obtain ⟨hnext, hfree, hinterrupted⟩ :=
      (u.handled_after act).calm (Ne.symm hresume.1) (Ne.symm hflag.1) h
    obtain ⟨hrestFree, hrestInterrupted⟩ := ih hnext hresume.2 hflag.2
    rw [bookings, List.mem_append, List.mem_append]
    exact ⟨not_or.mpr ⟨hfree, hrestFree⟩, not_or.mpr ⟨hinterrupted, hrestInterrupted⟩⟩

theorem keeps_run (h : u.Sound) (hpause : .turn .pause ∉ acts) (hresume : .turn .resume ∉ acts) :
    .withdrawn ∉ u.bookings acts := by
  induction acts generalizing u with
  | nil => simp [bookings]
  | cons act rest ih =>
    rw [List.mem_cons, not_or] at hpause hresume
    rw [bookings, List.mem_append]
    exact not_or.mpr ⟨(u.handled_after act).keeps h.worker (Ne.symm hpause.1) (Ne.symm hresume.1),
      ih (h.after act) hpause.2 hresume.2⟩

theorem over_run (hstarted : .started ∉ u.bookings acts)
    (h : u.controller.Over ∨ .limited ∈ u.bookings acts) :
    (acts.foldl Usage.after u).controller.Over := by
  induction acts generalizing u with
  | nil =>
    obtain hover | hlimited := h
    · exact hover
    · simp [bookings] at hlimited
  | cons act rest ih =>
    rw [bookings, List.mem_append, not_or] at hstarted
    rw [bookings, List.mem_append] at h
    refine ih hstarted.2 ?_
    obtain hover | hlimited | hlater := h
    · exact .inl ((u.handled_after act).over hstarted.1 (.inl hover))
    · exact .inl ((u.handled_after act).over hstarted.1 (.inr hlimited))
    · exact .inr hlater

/-- While a worker is held at its checkpoint, its run has not ended at the limit. -/
theorem not_limited_of_held (hstarted : .started ∉ u.bookings acts) {w : Worker}
    (hworker : (acts.foldl Usage.after u).controller.worker = some w)
    (hpoint : w.point = .held false) : .limited ∉ u.bookings acts := by
  intro hlimited
  have hfinished := over_run hstarted (.inr hlimited) w hworker
  simp [Worker.isFinished, hpoint] at hfinished

end Usage

/-! ## The way to the end of a micro-step -/

/-- The moves that a worker still needs at most to complete the micro-step that it is past its
checkpoint for, by where it stands and whether the machine waits for a value. -/
def Point.distance : Point → Bool → Nat
  | .boundary, false => 5
  | .ready, false => 4
  | .reading, _ | .starved _, _ => 3
  | .boundary, true => 2
  | .ready, true => 1
  | .checkpoint, _ | .held _, _ | .finished _, _ => 0

namespace Worker

def distance (w : Worker) : Nat := w.point.distance w.machine.awaitsInput

variable {p : Panel} {w : Worker} {m : Move}

theorem distance_le (w : Worker) : w.distance ≤ 5 := by
  unfold distance Point.distance
  split <;> decide

theorem distance_pos (h : w.isPast = true) : 0 < w.distance := by
  unfold isPast at h
  unfold distance Point.distance
  split <;> simp_all

/-- A move of a worker past its checkpoint brings it nearer to the end of its micro-step, unless
it finds the slot empty. -/
theorem nearer_of_move (h : w.Sound) (hpast : w.isPast = true) (hmove : w.move? p = some m) :
    m.worker.isPast = false ∨ m.worker.point = .starved false ∨
      m.worker.distance < w.distance := by
  cases moved_of_move? hmove with
  | passes hpoint hmay | isHeld hpoint hmay =>
    rw [isPast, isPast_at_checkpoint hpoint] at hpast
    cases hpast
  | isInterrupted | limited => exact .inl rfl
  | goesOn hpoint hmay =>
    refine .inr (.inr ?_)
    change Point.ready.distance w.machine.awaitsInput < w.distance
    rw [distance, hpoint]
    cases w.machine.awaitsInput <;> decide
  | drives hpoint hlimit =>
    have hafter : (w.drive p).worker.point = pointAfter w.machine.microStep.result := rfl
    by_cases hwaits : w.machine.microStep.result = .ok .awaitsInput
    · obtain ⟨hbefore, hwish⟩ := h.awaits_of_waits hpoint hwaits
      have hreading : (w.drive p).worker.point = .reading := by
        rw [hafter, hwaits]
        rfl
      have hlast : (w.drive p).worker.machine.awaitsInput = true := hwish
      rw [distance, distance, hpoint, hbefore, hreading, hlast]
      exact .inr (.inr (by decide))
    · refine .inl ?_
      rw [isPast, hafter]
      unfold pointAfter
      split <;> simp_all
  | takes hpoint hslot =>
    refine .inr (.inr ?_)
    change Point.boundary.distance w.machine.awaitsInput < w.distance
    rw [distance, (h.waiting hpoint).2]
    obtain hp | hp := hpoint <;> rw [hp] <;> decide
  | isStarved => exact .inr (.inl rfl)

/-- A worker past its checkpoint that cannot move waits for a value. -/
theorem starved_of_stays (hpast : w.isPast = true) (h : w.move? p = none) :
    w.point = .starved false := by
  obtain hheld | hstarved | hfinished := move?_eq_none_iff.mp h
  · simp [isPast, hheld] at hpast
  · exact hstarved
  · unfold isFinished at hfinished
    split at hfinished
    · next hpoint => simp [isPast, hpoint] at hpast
    · cases hfinished

end Worker

namespace Usage
variable {u : Usage}

/-- The worker has been left alone for a number of moves. -/
def moves (u : Usage) (k : Nat) : Usage := (List.replicate k (Act.turn .move)).foldl Usage.after u

/-- A worker past its checkpoint gets to the end of its micro-step by its own moves, unless there
is no input value for it. -/
theorem arrives (hsound : u.Sound) {w : Worker} (hworker : u.controller.worker = some w)
    (hpast : w.isPast = true) : ∃ k ≤ w.distance, (u.moves k).controller.isPast = false ∨
      ∃ w', (u.moves k).controller.worker = some w' ∧ w'.point = .starved false := by
  -- The induction is on the distance, which a move makes smaller.
  induction hdistance : w.distance using Nat.strongRecOn generalizing u w with
  | ind n ih =>
    cases hmove : w.move? u.controller.panel with
    | none => exact ⟨0, Nat.zero_le _, .inr ⟨w, hworker, Worker.starved_of_stays hpast hmove⟩⟩
    | some m =>
      have hnext : (u.after (.turn .move)).controller.worker = some m.worker := by
        simp only [after, Course.after_move (s := { controller := u.controller }) hworker hmove]
      have hpos : 0 < w.distance := Worker.distance_pos hpast
      obtain hout | hstarved | hnearer := Worker.nearer_of_move (hsound.worker w hworker) hpast hmove
      · refine ⟨1, by omega, .inl ?_⟩
        change (u.after (.turn .move)).controller.isPast = false
        rw [Controller.isPast, hnext]
        exact hout
      · exact ⟨1, by omega, .inr ⟨m.worker, hnext, hstarved⟩⟩
      · cases hstill : m.worker.isPast with
        | false =>
          refine ⟨1, by omega, .inl ?_⟩
          change (u.after (.turn .move)).controller.isPast = false
          rw [Controller.isPast, hnext]
          exact hstill
        | true =>
          obtain ⟨k, hk, hend⟩ := ih m.worker.distance (hdistance ▸ hnearer)
            (hsound.after (.turn .move)) hnext hstill rfl
          exact ⟨k + 1, by omega, hend⟩

end Usage

/-! ## Every use of a controller -/

section
variable {settings : Settings} {before acts : List Act}

theorem usage_append (settings : Settings) (before acts : List Act) :
    usage settings (before ++ acts) = acts.foldl Usage.after (usage settings before) :=
  List.foldl_append

theorem usage_balanced (settings : Settings) (before acts : List Act) :
    (usage settings before).controller.Balanced ((usage settings before).bookings acts)
      (usage settings (before ++ acts)).controller := by
  rw [usage_append]
  exact Usage.balanced_run (usage_sound settings before) acts

/-- As long as nobody resumes or interrupts, what a worker does comes out of the permits. -/
theorem usage_calm (hcalm : (usage settings before).controller.Calm)
    (hresume : .turn .resume ∉ acts) (hflag : .flag ∉ acts) :
    let u := usage settings before
    let v := usage settings (before ++ acts)
    let b := u.bookings acts
    u.controller.panel.permits + b.count .granted =
        b.count .withdrawn + b.count .used + v.controller.panel.permits ∧
      u.controller.isPast.toNat + b.count .used =
        b.count .completed + b.count .limited + v.controller.isPast.toNat ∧
      b.count .waited + v.controller.isFresh.toNat ≤
        u.controller.isFresh.toNat + b.count .used := by
  obtain ⟨hpermits, hpast, hwaits⟩ := usage_balanced settings before acts
  obtain ⟨hfree, hinterrupted⟩ := Usage.calm_run hcalm hresume hflag
  rw [List.count_eq_zero.mpr hfree] at hpast hwaits
  rw [List.count_eq_zero.mpr hinterrupted] at hpast
  exact ⟨hpermits, hpast, hwaits⟩

/-- A worker that sleeps at its checkpoint has used up all permits and completed what it has used
them for. -/
theorem usage_held (hstarted : .started ∉ (usage settings before).bookings acts) {w : Worker}
    (hworker : (usage settings (before ++ acts)).controller.worker = some w)
    (hpoint : w.point = .held false) :
    (usage settings (before ++ acts)).controller.panel.permits = 0 ∧
      (usage settings (before ++ acts)).controller.isPast = false ∧
      ((usage settings before).bookings acts).count .limited = 0 := by
  refine ⟨((usage_guarded settings _).held w hworker hpoint).2, ?_, ?_⟩
  · simp [Controller.isPast, hworker, Worker.isPast, hpoint]
  · rw [usage_append] at hworker
    exact List.count_eq_zero.mpr (Usage.not_limited_of_held hstarted hworker hpoint)

/-- As long as nobody resumes or interrupts, every permit is withdrawn or used up for a micro-step
by the time that the worker is held again. -/
theorem usage_spent (hcalm : (usage settings before).controller.Calm)
    (hresume : .turn .resume ∉ acts) (hflag : .flag ∉ acts) :
    let u := usage settings before
    let v := usage settings (before ++ acts)
    let b := u.bookings acts
    b.count .completed ≤
        u.controller.panel.permits + b.count .granted + u.controller.isPast.toNat ∧
      (.started ∉ b → ∀ w, v.controller.worker = some w → w.point = .held false →
        b.count .used + b.count .withdrawn = u.controller.panel.permits + b.count .granted ∧
        b.count .completed = b.count .used + u.controller.isPast.toNat) := by
  dsimp only
  obtain ⟨hpermits, hpast, -⟩ := usage_calm hcalm hresume hflag
  refine ⟨by omega, fun hstarted w hworker hpoint => ?_⟩
  obtain ⟨hasleep, hback, hlimited⟩ := usage_held hstarted hworker hpoint
  rw [hasleep] at hpermits
  rw [hback, hlimited, Bool.toNat_false] at hpast
  exact ⟨by omega, by omega⟩

/-- A worker past its checkpoint completes its micro-step or waits for a value after five moves at
most. -/
theorem usage_arrives (hpast : (usage settings acts).controller.isPast = true) :
    ∃ k ≤ 5, ((usage settings acts).moves k).controller.isPast = false ∨
      ∃ w, ((usage settings acts).moves k).controller.worker = some w ∧
        w.point = .starved false ∧
        ((usage settings acts).moves k).controller.panel.slot = .empty := by
  obtain ⟨w, hworker, hw⟩ := (Option.any_eq_true _ _).mp hpast
  obtain ⟨k, hk, hend⟩ := Usage.arrives (usage_sound settings acts) hworker hw
  refine ⟨k, Nat.le_trans hk w.distance_le, hend.imp_right ?_⟩
  rintro ⟨w', hnext, hstarved⟩
  have hlater : (usage settings acts).moves k =
      usage settings (acts ++ List.replicate k (.turn .move)) := (usage_append _ _ _).symm
  have hguarded := usage_guarded settings (acts ++ List.replicate k (.turn .move))
  have hlawful := (usage_sound settings (acts ++ List.replicate k (.turn .move))).slot
  rw [← hlater] at hguarded hlawful
  exact ⟨w', hnext, hstarved, hlawful.eq_empty (hguarded.starved w' hnext hstarved)⟩

end

/-- What becomes of grants, in every use of a controller. -/
theorem grants_conserved (settings : Settings) (before acts : List Act) :
    let u := usage settings before
    let v := usage settings (before ++ acts)
    let b := u.bookings acts
    (0 < v.controller.panel.permits → v.controller.panel.paused = true) ∧
    (∀ w m, v.controller.worker = some w → w.move? v.controller.panel = some m →
      w.isPast = false → m.worker.isPast = true → v.controller.Calm →
      v.controller.panel.permits = m.panel.permits + 1) ∧
    u.controller.Balanced b v.controller ∧
    (v.controller.isPast = true → ∃ k ≤ 5, (v.moves k).controller.isPast = false ∨
      ∃ w, (v.moves k).controller.worker = some w ∧ w.point = .starved false ∧
        (v.moves k).controller.panel.slot = .empty) ∧
    ∀ earlier, before = earlier ++ [.turn .pause] →
      u.controller.panel.interrupted = false → .turn .resume ∉ acts → .flag ∉ acts →
      .started ∉ b →
      b.count .completed ≤ b.count .granted + u.controller.isPast.toNat ∧
      ∀ w, v.controller.worker = some w → w.point = .held false →
        b.count .used + b.count .withdrawn = b.count .granted ∧
        b.count .completed = b.count .used + u.controller.isPast.toNat ∧
        (.turn .pause ∉ acts → .withdrawn ∉ b) := by
  intro u v b
  refine ⟨(usage_guarded settings _).permits, fun w m hworker hmove hbefore hafter hcalm => ?_,
    usage_balanced settings before acts, usage_arrives, ?_⟩
  · exact Worker.permits_of_passes hmove hbefore hafter hcalm.paused hcalm.flag
  · rintro earlier rfl hflag hresume hflags hstarted
    have hpaused : usage settings (earlier ++ [.turn .pause]) =
        (usage settings earlier).after (.turn .pause) := usage_append _ _ _
    have hcalm : (usage settings (earlier ++ [.turn .pause])).controller.Calm :=
      ⟨by rw [hpaused]; rfl, hflag⟩
    have hnone : (usage settings (earlier ++ [.turn .pause])).controller.panel.permits = 0 := by
      rw [hpaused]
      rfl
    obtain ⟨hbound, hheld⟩ := usage_spent hcalm hresume hflags
    rw [hnone, Nat.zero_add] at hbound hheld
    refine ⟨hbound, fun w hworker hpoint => ?_⟩
    obtain ⟨hspent, hcompleted⟩ := hheld hstarted w hworker hpoint
    exact ⟨hspent, hcompleted, fun hpause =>
      Usage.keeps_run (usage_sound settings _) hpause hresume⟩

/-- A worker waits for a value past its checkpoint when the controller is paused. It uses up the two
permits that are granted then and so does three micro-steps, the first one repeated. -/
theorem grants_conserved_input :
    let earlier := [Act.load (.ofList [29 * 2 ^ 15]), .start] ++ List.replicate 4 (.turn .step) ++
      List.replicate 13 (.turn .move)
    let acts k := [Act.turn .step, .turn (.setInput 5), .turn .step] ++
      List.replicate k (.turn .move)
    let u := usage { startPaused := true } (earlier ++ [.turn .pause])
    let v k := usage { startPaused := true } (earlier ++ [.turn .pause] ++ acts k)
    let b := u.bookings (acts 10)
    (v 3).controller.panel.permits = (v 4).controller.panel.permits + 1 ∧
      (∃ k ≤ 5, ((v 4).moves k).controller.isPast = false ∨
        ∃ w, ((v 4).moves k).controller.worker = some w ∧ w.point = .starved false ∧
          ((v 4).moves k).controller.panel.slot = .empty) ∧
      b.count .granted = 2 ∧ b.count .used = 2 ∧ b.count .completed = 3 := by
  intro earlier acts u v b
  obtain ⟨-, hcost, -⟩ :=
    grants_conserved { startPaused := true } (earlier ++ [.turn .pause]) (acts 3)
  obtain ⟨-, -, -, harrives, -⟩ :=
    grants_conserved { startPaused := true } (earlier ++ [.turn .pause]) (acts 4)
  obtain ⟨-, -, -, -, hinterval⟩ :=
    grants_conserved { startPaused := true } (earlier ++ [.turn .pause]) (acts 10)
  obtain ⟨-, hheld⟩ := hinterval earlier rfl rfl (by simp [acts]) (by simp [acts]) (by decide)
  obtain ⟨hspent, hcompleted, hkept⟩ := hheld _ rfl rfl
  have hgranted : b.count .granted = 2 := by decide
  have hwithdrawn : b.count .withdrawn = 0 := List.count_eq_zero.mpr (hkept (by simp [acts]))
  have hused : b.count .used + b.count .withdrawn = b.count .granted := hspent
  have hpast : b.count .completed = b.count .used + 1 := hcompleted
  refine ⟨hcost _ _ rfl rfl rfl rfl ⟨rfl, rfl⟩, harrives rfl, hgranted, ?_, ?_⟩ <;> omega

/-- Permits are not conserved if a further pause or an interruption comes in between. A pause
withdraws two permits before the worker, past its checkpoint, can use them; an interruption ends the
run after a permit was used up for a micro-step. -/
theorem grants_lost :
    let earlier := [Act.load (.ofList [29 * 2 ^ 15]), .start] ++ List.replicate 4 (.turn .step) ++
      List.replicate 13 (.turn .move)
    let acts := [Act.turn .step, .turn .step, .turn .pause, .turn (.setInput 5)] ++
      List.replicate 4 (.turn .move)
    let u := usage { startPaused := true } (earlier ++ [.turn .pause])
    let v := usage { startPaused := true } (earlier ++ [.turn .pause] ++ acts)
    let b := u.bookings acts
    (u.controller.isRunning = true ∧ u.controller.panel.interrupted = false ∧
      .turn .resume ∉ acts ∧ .flag ∉ acts ∧ .started ∉ b ∧
      (∃ w, v.controller.worker = some w ∧ w.point = .held false) ∧
      b.count .granted = 2 ∧ b.count .used = 0) ∧
    let begun := usage { startPaused := true } [.load (.ofList [0]), .start, .turn .step]
    let b := begun.bookings [.turn .move, .flag, .turn .move]
    b.count .used = 1 ∧ b.count .completed + b.count .limited = 0 ∧ b.count .interrupted = 1 := by
  intro earlier acts u v b
  refine ⟨⟨rfl, rfl, by simp [acts], by simp [acts], by decide, ⟨_, rfl, rfl⟩, ?_, ?_⟩, ?_⟩
  all_goals decide

/-! ## A run that is started while the controller is paused -/

/-- A run that is started while the controller is paused lives on permits, until somebody resumes or
interrupts. Permits that were left before it started count as well: the worker stands still until
the first call only if there are none. -/
theorem started_by_permits (settings : Settings) (before acts : List Act) {c : Controller}
    (hpending : (usage settings before).pending = 0)
    (hstart : (usage settings before).controller.start = (c, .ok ()))
    (hpaused : (usage settings before).controller.panel.paused = true)
    (hresume : .turn .resume ∉ acts) (hflag : .flag ∉ acts) :
    let left := (usage settings before).controller.panel.permits
    let b := (usage settings (before ++ [.start])).bookings acts
    let v := usage settings (before ++ [.start] ++ acts)
    b.count .completed ≤ left + b.count .granted ∧
      (left = 0 → b.count .granted = 0 → b.count .completed = 0 ∧ b.count .waited = 0) ∧
      (.started ∉ b → ∀ w, v.controller.worker = some w → w.point = .held false →
        b.count .completed + b.count .withdrawn = left + b.count .granted) := by
  dsimp only
  have hbegun : (usage settings (before ++ [.start])).controller = c := by
    rw [usage_append]
    simp [Usage.after, Usage.alone, hpending, hstart]
  have hcalm : (usage settings (before ++ [.start])).controller.Calm := by
    rw [hbegun]
    exact Controller.calm_start hstart hpaused
  obtain ⟨hleft, hback, hfresh⟩ :
      c.panel.permits = (usage settings before).controller.panel.permits ∧
        c.isPast = false ∧ c.isFresh = false := by
    obtain ⟨memory, hstarts⟩ := Controller.start_eq_ok hstart
    rw [hstarts.panel, Panel.renew_left _ |>.2.1, Controller.isPast, Controller.isFresh,
      hstarts.worker]
    exact ⟨rfl, rfl, rfl⟩
  obtain ⟨hpermits, -, hwaits⟩ := usage_calm hcalm hresume hflag
  obtain ⟨hbound, hheld⟩ := usage_spent hcalm hresume hflag
  rw [hbegun, hleft] at hpermits
  rw [hbegun, hfresh, Bool.toNat_false] at hwaits
  simp only [hbegun, hleft, hback, Bool.toNat_false, Nat.add_zero] at hbound hheld
  refine ⟨hbound, fun hnone hgranted => by omega, fun hstarted w hworker hpoint => ?_⟩
  obtain ⟨hspent, hcompleted⟩ := hheld hstarted w hworker hpoint
  rwa [← hcompleted] at hspent

/-- A run that two permits were left for completes two micro-steps by them and a third one by the
permit that is granted then. A run that no permits were left for stands still. -/
theorem started_by_permits_left :
    let before := [Act.load (.ofList [0]), .turn .step, .turn .step]
    let acts := Act.turn .step :: List.replicate 10 (.turn .move)
    let b := (usage { startPaused := true } (before ++ [.start])).bookings acts
    let still := (usage { startPaused := true } ([.load (.ofList [0])] ++ [.start])).bookings
      (List.replicate 10 (.turn .move))
    b.count .completed = 3 ∧ still.count .completed = 0 ∧ still.count .waited = 0 := by
  intro before acts b still
  obtain ⟨-, -, hheld⟩ := started_by_permits { startPaused := true } before acts rfl rfl rfl
    (by simp [acts]) (by simp [acts])
  have hspent : b.count .completed + b.count .withdrawn = 2 + b.count .granted :=
    hheld (by decide) _ rfl rfl
  have hgranted : b.count .granted = 1 := by decide
  have hwithdrawn : b.count .withdrawn = 0 := by decide
  obtain ⟨-, hstill, -⟩ := started_by_permits { startPaused := true } [.load (.ofList [0])]
    (List.replicate 10 (.turn .move)) rfl rfl rfl (by simp) (by simp)
  exact ⟨by omega, hstill rfl (by decide)⟩

/-- Two permits are left of a run that has stopped by itself. The next run is started while the
controller is paused and completes two micro-steps though no call has been made since. -/
theorem started_moves_unasked :
    let before := [Act.load (.ofList [31 * 2 ^ 15]), .start] ++ List.replicate 6 (.turn .step) ++
      List.replicate 12 (.turn .move) ++ [.wait, .load (.ofList [0])]
    let b := (usage { startPaused := true } (before ++ [.start])).bookings
      (List.replicate 7 (.turn .move))
    (usage { startPaused := true } before).pending = 0 ∧
      (usage { startPaused := true } before).controller.start.2.isOk = true ∧
      (usage { startPaused := true } before).controller.panel.paused = true ∧
      b.count .granted = 0 ∧ b.count .completed = 2 := by
  intro before b
  and_intros <;> decide +kernel

end TrnComputer
