import Mathlib.Data.List.Basic

/-! Systems whose steps show an event or nothing. A run shows the events of its steps in their
order; a relation that every step keeps, along steps of another system that show the same,
carries whole runs over. -/
namespace Simulation
variable {State Other Event : Type*} {step : State → Option Event → State → Prop}
variable {steps : Other → Option Event → Other → Prop} {state middle last : State} {event : Option Event}
variable {events more : List Event}

inductive Run (step : State → Option Event → State → Prop) : State → List Event → State → Prop
  | rest (state : State) : Run step state [] state
  | go {state middle last : State} {event : Option Event} {events : List Event} (first : step state event middle)
      (further : Run step middle events last) : Run step state (event.toList ++ events) last

theorem Run.single (first : step state event last) : Run step state event.toList last := by
  rw [← List.append_nil event.toList]
  exact .go first (.rest last)

theorem Run.trans (run : Run step state events middle) (further : Run step middle more last) :
    Run step state (events ++ more) last := by
  induction run with
  | rest => exact further
  | go first _ ih =>
    rw [List.append_assoc]
    exact .go first (ih further)

/-- What every step keeps, of the events shown so far and the state. -/
theorem Run.traced {holds : List Event → State → Prop}
    (kept : ∀ past state event next, step state event next → holds past state → holds (past ++ event.toList) next)
    (run : Run step state events last) {past : List Event} (start : holds past state) : holds (past ++ events) last := by
  induction run generalizing past with
  | rest =>
    rw [List.append_nil]
    exact start
  | go first _ ih =>
    rw [← List.append_assoc]
    exact ih (kept _ _ _ _ first start)

theorem Run.invariant {holds : State → Prop} (kept : ∀ state event next, step state event next → holds state → holds next)
    (run : Run step state events last) (start : holds state) : holds last :=
  @Run.traced _ _ _ _ _ _ (fun _ => holds) (fun _ => kept) run [] start

/-- Up to where the first events have been shown, and from there. -/
theorem Run.split (run : Run step state (events ++ more) last) :
    ∃ middle, Run step state events middle ∧ Run step middle more last := by
  generalize whole : events ++ more = all at run
  induction run generalizing events with
  | rest state =>
    obtain ⟨rfl,rfl⟩ := List.append_eq_nil_iff.mp whole
    exact ⟨state,.rest state,.rest state⟩
  | @go state next last event later first further ih =>
    cases event with
    | none =>
      obtain ⟨middle,before,after⟩ := ih whole
      exact ⟨middle,.go first before,after⟩
    | some event =>
      cases events with
      | nil =>
        obtain rfl : more = _ := whole
        exact ⟨state,.rest state,.go first further⟩
      | cons head events =>
        obtain ⟨rfl,rest⟩ := List.cons.inj whole
        obtain ⟨middle,before,after⟩ := ih rest
        exact ⟨middle,.go first before,after⟩

/-- The step that shows the first event. -/
theorem Run.shows {shown : Event} (run : Run step state (shown::events) last) :
    ∃ before after, Run step state [] before ∧ step before (some shown) after ∧ Run step after events last := by
  generalize whole : shown::events = all at run
  induction run with
  | rest => cases whole
  | @go state next last event later first further ih =>
    cases event with
    | none =>
      obtain ⟨before,after,silent,step,rest⟩ := ih whole
      exact ⟨before,after,.go first silent,step,rest⟩
    | some event =>
      obtain ⟨rfl,rfl⟩ := List.cons.inj whole
      exact ⟨state,next,.rest state,first,further⟩

/-- A run with the states that it passes. -/
inductive Passes (step : State → Option Event → State → Prop) : State → List Event → List State → State → Prop
  | rest (state : State) : Passes step state [] [state] state
  | go {state middle last : State} {event : Option Event} {events : List Event} {passed : List State}
      (first : step state event middle) (further : Passes step middle events passed last) :
      Passes step state (event.toList ++ events) (state::passed) last

theorem Run.passes (run : Run step state events last) : ∃ passed, Passes step state events passed last := by
  induction run with
  | rest state => exact ⟨[state],.rest state⟩
  | go first _ ih =>
    obtain ⟨passed,further⟩ := ih
    exact ⟨_,.go first further⟩

theorem Run.simulated {relation : State → Other → Prop}
    (matched : ∀ state event next other, step state event next → relation state other →
      ∃ after, Run steps other event.toList after ∧ relation next after)
    (run : Run step state events last) {other : Other} (related : relation state other) :
    ∃ after, Run steps other events after ∧ relation last after := by
  induction run generalizing other with
  | rest => exact ⟨other,.rest other,related⟩
  | go first _ ih =>
    obtain ⟨between,shown,kept⟩ := matched _ _ _ _ first related
    obtain ⟨after,further,ended⟩ := ih kept
    exact ⟨after,shown.trans further,ended⟩

end Simulation
