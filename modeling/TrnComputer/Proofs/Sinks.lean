import TrnComputer.Sink

/-! # What a sink takes

* `Sink.Within`: a sink that takes so many characters in all.
* `Sink.Refuses`: what a sink answers when it takes no more.
* `Sink.Delivers`: a text is taken whole, or a part at the front of it until the sink refuses.
* `Sink.delivers_offer`, `Sink.delivers_offerEach`: offering texts delivers them.
* `Sink.Cut`: what has been written of a text in the end.
-/

namespace TrnComputer.Sink
set_option autoImplicit false

variable {State : Type} {sink : Sink State}

/-- A sink that takes so many characters in all, in portions of any size, and then refuses or takes
nothing. `room` tells how many are left. -/
structure Within (sink : Sink State) (room : State → Nat) : Prop where
  takes : ∀ s text, text ≠ [] → 0 < room s → ∃ count, (sink.take s text).2 = .ok count ∧
    0 < count ∧ room (sink.take s text).1 + count = room s
  full : ∀ s text count, room s = 0 → (sink.take s text).2 = .ok count → count = 0

/-- The sink answers an offer with a refusal, or takes nothing of it. -/
inductive Refuses (sink : Sink State) : Refusal → Prop
  | error {s : State} {text : List Char} {refusal : Refusal}
    (h : (sink.take s text).2 = .error refusal) : Refuses sink refusal
  | nothing {s : State} {text : List Char} (hne : text ≠ []) (h : (sink.take s text).2 = .ok 0) :
    Refuses sink .takesNothing

/-! ## Delivery -/

/-- A text is taken whole, or a part at the front of it until the sink refuses. -/
inductive Delivers (sink : Sink State) (w : Writing State) (text : List Char) : Writing State → Prop
  | whole {s : State}
    (hroom : ∀ room, sink.Within room → room s + text.length = room w.state) :
    Delivers sink w text { w with state := s, written := w.written ++ String.ofList text }
  | cut {s : State} {front back : List Char} {refusal : Refusal} (htext : text = front ++ back)
    (hback : back ≠ []) (hrefuses : sink.Refuses refusal)
    (hroom : ∀ room, sink.Within room → front.length = room w.state) :
    Delivers sink w text
      ⟨s, w.written ++ String.ofList front, some refusal⟩

section
variable {w w' : Writing State}

theorem Delivers.nothing : Delivers sink w [] w := by
  have hwhole : Delivers sink w [] { w with written := w.written ++ String.ofList [] } :=
    .whole fun room _ => Nat.add_zero _
  rwa [String.ofList_nil, String.append_empty] at hwhole

/-- A text is delivered behind one that has been taken whole. -/
theorem Delivers.behind {s : State} {front text : List Char}
    (hfront : ∀ room, sink.Within room → room s + front.length = room w.state)
    (h : Delivers sink { w with state := s, written := w.written ++ String.ofList front } text w') :
    Delivers sink w (front ++ text) w' := by
  have hwritten (more : List Char) : w.written ++ String.ofList front ++ String.ofList more =
      w.written ++ String.ofList (front ++ more) := by
    rw [String.ofList_append, String.append_assoc]
  cases h with
  | whole hroom =>
    rw [hwritten]
    refine .whole fun room hwithin => ?_
    have hleft := hroom room hwithin
    rw [List.length_append, ← hfront room hwithin, ← hleft]
    omega
  | @cut _ taken back _ htext hback hrefuses hroom =>
    rw [hwritten]
    refine .cut (by rw [htext, List.append_assoc]) hback hrefuses fun room hwithin => ?_
    rw [List.length_append, hroom room hwithin, ← hfront room hwithin, Nat.add_comm]

/-- A sink may refuse before it has taken anything. -/
theorem Delivers.refused {s : State} {text : List Char} (hne : text ≠ []) {refusal : Refusal}
    (h : sink.Refuses refusal) (hfull : ∀ room, sink.Within room → room w.state = 0) :
    Delivers sink w text { w with state := s, refusal := some refusal } := by
  have hcut : Delivers sink w text ⟨s, w.written ++ String.ofList [], some refusal⟩ :=
    .cut rfl hne h fun room hwithin => (hfull room hwithin).symm
  rwa [String.ofList_nil, String.append_empty] at hcut

theorem Within.full_of_error {room : State → Nat} (h : sink.Within room) {s : State}
    {text : List Char} (hne : text ≠ []) {refusal : Refusal}
    (herror : (sink.take s text).2 = .error refusal) : room s = 0 := by
  refine Nat.eq_zero_of_not_pos fun hpos => ?_
  obtain ⟨count, hcount, -⟩ := h.takes s text hne hpos
  rw [herror] at hcount
  cases hcount

theorem Within.full_of_nothing {room : State → Nat} (h : sink.Within room) {s : State}
    {text : List Char} (hne : text ≠ []) (hzero : (sink.take s text).2 = .ok 0) : room s = 0 := by
  refine Nat.eq_zero_of_not_pos fun hpos => ?_
  obtain ⟨count, hcount, hsome, -⟩ := h.takes s text hne hpos
  rw [hzero] at hcount
  cases hcount
  exact absurd hsome (Nat.lt_irrefl 0)

theorem Within.left_of_taken {room : State → Nat} (h : sink.Within room) {s : State}
    {text : List Char} (hne : text ≠ []) {count : Nat}
    (htaken : (sink.take s text).2 = .ok (count + 1)) :
    room (sink.take s text).1 + (count + 1) = room s := by
  rcases Nat.eq_zero_or_pos (room s) with hzero | hpos
  · exact absurd (h.full s text _ hzero htaken) (Nat.succ_ne_zero count)
  · obtain ⟨other, hother, -, hleft⟩ := h.takes s text hne hpos
    rw [htaken] at hother
    cases hother
    exact hleft

/-- Offering a text delivers it. -/
theorem delivers_offer (sink : Sink State) (w : Writing State) (text : List Char) :
    Delivers sink w text (sink.offer w text) := by
  fun_induction sink.offer w text with
  | case1 w => exact .nothing
  | case2 w c rest state refusal htake =>
    have herror : (sink.take w.state (c :: rest)).2 = .error refusal := by rw [htake]
    exact .refused (List.cons_ne_nil c rest) (.error herror) fun room hwithin =>
      hwithin.full_of_error (List.cons_ne_nil c rest) herror
  | case3 w c rest state htake =>
    have hzero : (sink.take w.state (c :: rest)).2 = .ok 0 := by rw [htake]
    exact .refused (List.cons_ne_nil c rest) (.nothing (List.cons_ne_nil c rest) hzero)
      fun room hwithin => hwithin.full_of_nothing (List.cons_ne_nil c rest) hzero
  | case4 w c rest state count htake ih =>
    have htaken : (sink.take w.state (c :: rest)).2 = .ok (count + 1) := by rw [htake]
    have hle := sink.take_le _ _ _ htaken
    rw [List.length_cons] at hle
    have hsplit : c :: rest = (c :: rest.take count) ++ rest.drop count := by
      rw [List.cons_append, List.take_append_drop]
    rw [hsplit]
    refine .behind (fun room hwithin => ?_) ih
    have hleft := hwithin.left_of_taken (List.cons_ne_nil c rest) htaken
    rw [htake] at hleft
    rw [List.length_cons, List.length_take_of_le (by omega), hleft]

/-- Offering texts one after the other delivers them as one. -/
theorem delivers_offerEach (sink : Sink State) (texts : List String) (w : Writing State)
    (hopen : w.refusal = none) :
    Delivers sink w (texts.flatMap String.toList) (sink.offerEach w texts) := by
  induction texts generalizing w with
  | nil => exact .nothing
  | cons text rest ih =>
    rw [offerEach, List.flatMap_cons]
    have hfirst := delivers_offer sink w text.toList
    generalize sink.offer w text.toList = next at hfirst
    cases hfirst with
    | whole hroom =>
      rw [if_neg (by simp [hopen])]
      exact .behind hroom (ih _ hopen)
    | cut htext hback hrefuses hroom =>
      rw [if_pos Option.isSome_some]
      refine .cut (by rw [htext, List.append_assoc]) (fun hnil => hback ?_) hrefuses hroom
      exact (List.append_eq_nil_iff.mp hnil).1

/-- What has been written where nothing was written before. -/
structure Cut (sink : Sink State) (start : State) (text : List Char) (w : Writing State) :
    Prop where
  written : w.written.toList <+: text
  whole : w.refusal = none ↔ w.written.toList = text
  refuses : ∀ refusal, w.refusal = some refusal → sink.Refuses refusal
  within : ∀ room, sink.Within room → w.written.toList = text.take (room start) ∧
    (w.refusal = none ↔ text.length ≤ room start)

theorem Delivers.from_start {start : State} {text : List Char}
    (h : Delivers sink { state := start } text w) : Cut sink start text w := by
  cases h with
  | @whole s hroom =>
    have hwritten : ("" ++ String.ofList text).toList = text := by
      rw [String.empty_append, String.toList_ofList]
    refine ⟨?_, ⟨fun _ => hwritten, fun _ => rfl⟩, fun refusal h => (by cases h),
      fun room hwithin => ⟨?_, fun _ => ?_, fun _ => rfl⟩⟩
    · exact hwritten.symm ▸ List.prefix_rfl
    · have hleft : room s + text.length = room start := hroom room hwithin
      rw [hwritten, List.take_of_length_le (by omega)]
    · have hleft : room s + text.length = room start := hroom room hwithin
      omega
  | @cut s front back refusal htext hback hrefuses hroom =>
    have hwritten : ("" ++ String.ofList front).toList = front := by
      rw [String.empty_append, String.toList_ofList]
    have hlonger : front.length < text.length := by
      rw [htext, List.length_append]
      exact Nat.lt_add_of_pos_right (List.length_pos_iff.mpr hback)
    refine ⟨?_, ⟨fun h => (by cases h), fun h => ?_⟩, fun other h => ?_,
      fun room hwithin => ⟨?_, fun h => (by cases h), fun hle => ?_⟩⟩
    · rw [hwritten, htext]
      exact List.prefix_append front back
    · rw [hwritten] at h
      exact absurd (congrArg List.length h) (Nat.ne_of_lt hlonger)
    · cases h
      exact hrefuses
    · have hleft : front.length = room start := hroom room hwithin
      rw [hwritten, htext, ← hleft, List.take_left]
    · have hleft : front.length = room start := hroom room hwithin
      omega

end

/-! ## Sinks with room for so many characters -/

theorem within_limited (refusal : Refusal) : (limited refusal).Within id where
  takes room text hne hroom := by
    have hlength := List.length_pos_iff.mpr hne
    have hroom : room ≠ 0 := Nat.ne_of_gt hroom
    simp only [limited, if_neg hroom, id]
    exact ⟨_, rfl, by omega, by omega⟩
  full room text count hroom h := by
    have hzero : room = 0 := hroom
    simp [limited, hzero] at h

theorem refuses_limited {refusal other : Refusal} (h : (limited refusal).Refuses other) :
    other = refusal := by
  cases h with
  | @error room text _ h =>
    by_cases hroom : room = 0
    · simp only [limited, if_pos hroom] at h
      cases h
      rfl
    · simp [limited, hroom] at h
  | @nothing room text hne h =>
    have hlength := List.length_pos_iff.mpr hne
    by_cases hroom : room = 0
    · simp [limited, hroom] at h
    · simp only [limited, if_neg hroom, Except.ok.injEq] at h
      omega

end TrnComputer.Sink
