import TrnComputer.Assembly.Assemble

/-! # What a statement can do

* `Effect`: the placements a statement can have behind its label, with what the statement is then.
* `effect_body`: there are no others.
-/

namespace TrnComputer
set_option autoImplicit false

/-- A placement that a statement can have behind its label. Programs are opened and closed by
statements of their own, and no statement finds one left open. -/
inductive Effect (s : Statement) : Placement → Prop
  | reject {fault : LineFault} (h : ∀ name, fault ≠ .unclosedProgram name) :
    Effect s (.reject fault)
  | reference (sum : LabelSum) : Effect s (.reference sum)
  | word (value : Nat) : Effect s (.word value)
  | reserve (count : Int) : Effect s (.reserve count)
  | origin (address : Int) : Effect s (.origin address)
  | openProgram (h : s.mnemonic = "NAM") : Effect s (.openProgram s.arguments)
  | closeProgram (h : s.mnemonic = "END") : Effect s .closeProgram

section
variable {s : Statement}

theorem effect_argument (fault : ArgumentFault) : Effect s (.reject (.ofArgument fault)) := by
  apply Effect.reject
  intro name
  cases fault <;> simp [LineFault.ofArgument]

theorem effect_instruction (m : Mnemonic) (arguments : Arguments) :
    ∀ p ∈ s.instructionPlacements m arguments, Effect s p := by
  have hreject (fault : LineFault) (h : ∀ name, fault ≠ .unclosedProgram name) :
      ∀ p ∈ [Placement.reject fault], Effect s p :=
    List.forall_mem_singleton.mpr (.reject h)
  unfold Statement.instructionPlacements
  dsimp only
  split
  · split
    · split
      · exact List.forall_mem_singleton.mpr (.word _)
      · exact hreject _ (by simp)
    · exact List.forall_mem_cons.mpr ⟨.reference _, List.forall_mem_singleton.mpr (.word _)⟩
    · exact hreject _ (by simp)
    · exact hreject _ (by simp)
  · split
    · exact List.forall_mem_singleton.mpr (.word _)
    · exact hreject _ (by simp)

theorem effect_constants (values : List Argument) :
    ∀ p ∈ values.flatMap Statement.constantPlacements, Effect s p := by
  intro p hp
  obtain ⟨value, -, hvalue⟩ := List.mem_flatMap.mp hp
  cases value with
  | literal number =>
    obtain rfl := List.mem_singleton.mp hvalue
    exact .word _
  | sum sum =>
    rcases List.mem_cons.mp hvalue with rfl | hword
    · exact .reference sum
    · obtain rfl := List.mem_singleton.mp hword
      exact .word _

theorem effect_literal {place : Int → Placement} (h : ∀ value, Effect s (place value)) :
    Effect s (s.literalPlacement place) := by
  unfold Statement.literalPlacement
  split
  · exact effect_argument _
  · exact h _
  · exact .reject (by simp)
  · exact .reject (by simp)

theorem effect_directive {directive : Directive}
    (h : Directive.ofMnemonic? s.mnemonic = some directive) :
    ∀ p ∈ s.directivePlacements directive, Effect s p := by
  cases directive with
  | programName =>
    refine List.forall_mem_singleton.mpr (.openProgram ?_)
    unfold Directive.ofMnemonic? at h
    split at h <;> first | assumption | cases h
  | programEnd =>
    refine List.forall_mem_singleton.mpr (.closeProgram ?_)
    unfold Directive.ofMnemonic? at h
    split at h <;> first | assumption | cases h
  | constants =>
    simp only [Statement.directivePlacements]
    split
    · exact List.forall_mem_singleton.mpr (effect_argument _)
    · exact List.forall_mem_singleton.mpr (.reject (by simp))
    · exact effect_constants _
  | reserve => exact List.forall_mem_singleton.mpr (effect_literal .reserve)
  | origin => exact List.forall_mem_singleton.mpr (effect_literal .origin)
  | ignored => exact List.forall_mem_nil _

theorem effect_body (s : Statement) : ∀ p ∈ s.bodyPlacements, Effect s p := by
  unfold Statement.bodyPlacements
  split
  · split
    · exact List.forall_mem_singleton.mpr (effect_argument _)
    · exact effect_instruction _ _
  · split
    · exact List.forall_mem_singleton.mpr (.reject (by simp))
    · next directive hdirective =>
      dsimp only
      split
      · exact List.forall_mem_singleton.mpr (.reject (by simp))
      · exact effect_directive hdirective

end

end TrnComputer
