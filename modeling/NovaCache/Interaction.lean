import Mathlib.Data.List.Basic

/-! Procedures of one thread in an environment. Whatever the procedure does not decide
itself (answers of system calls, steps of other threads) is read from a list of inputs.
A procedure whose inputs are used up pauses in the state it has reached, so a statement
about all lists of inputs is about every moment of every run. -/
namespace Interaction
variable {State Input Value Other Item : Type}

/-- `raised` is an exception that leaves the procedure, `undefined` an access that the
language does not define. -/
inductive Outcome (Input Value : Type)
  | done (value : Value) (rest : List Input)
  | paused
  | raised
  | undefined

/-- Inputs are read from the front and never put back. -/
structure Proc (State Input Value : Type) where
  run : State → List Input → Outcome Input Value × State
  leaves : ∀ {state inputs value rest reached}, run state inputs = (.done value rest,reached) → rest <:+ inputs

namespace Proc

@[ext] theorem ext {one two : Proc State Input Value}
    (same : ∀ state inputs, one.run state inputs = two.run state inputs) : one = two := by
  obtain ⟨run,_⟩ := one
  obtain ⟨other,_⟩ := two
  obtain rfl : run = other := funext fun state => funext fun inputs => same state inputs
  rfl

def bind (first : Proc State Input Value) (next : Value → Proc State Input Other) : Proc State Input Other where
  run state inputs :=
    match first.run state inputs with
    | (.done value rest,state) => (next value).run state rest
    | (.paused,state) => (.paused,state)
    | (.raised,state) => (.raised,state)
    | (.undefined,state) => (.undefined,state)
  leaves := by
    intro state inputs value rest reached returned
    split at returned
    · next middle _ ran => exact ((next _).leaves returned).trans (first.leaves ran)
    all_goals cases returned

instance : Monad (Proc State Input) where
  pure value := ⟨fun state inputs => (.done value inputs,state),by rintro _ _ _ _ _ ⟨⟩; exact List.suffix_rfl⟩
  bind := bind

theorem bind_run (first : Proc State Input Value) (next : Value → Proc State Input Other) (state : State)
    (inputs : List Input) : (first >>= next).run state inputs =
      match first.run state inputs with
      | (.done value rest,state) => (next value).run state rest
      | (.paused,state) => (.paused,state)
      | (.raised,state) => (.raised,state)
      | (.undefined,state) => (.undefined,state) := rfl

def current : Proc State Input State where
  run state inputs := (.done state inputs,state)
  leaves := by rintro _ _ _ _ _ ⟨⟩; exact List.suffix_rfl

def alter (change : State → State) : Proc State Input Unit where
  run state inputs := (.done () inputs,change state)
  leaves := by rintro _ _ _ _ _ ⟨⟩; exact List.suffix_rfl

def pause : Proc State Input Value := ⟨fun state _ => (.paused,state),nofun⟩
def raise : Proc State Input Value := ⟨fun state _ => (.raised,state),nofun⟩
def undefined : Proc State Input Value := ⟨fun state _ => (.undefined,state),nofun⟩

def input : Proc State Input Input where
  run state inputs :=
    match inputs with
    | [] => (.paused,state)
    | input::rest => (.done input rest,state)
  leaves := by
    rintro _ (_ | ⟨first,rest⟩) _ _ _ ⟨⟩
    exact List.suffix_cons first rest

def when (condition : Prop) [Decidable condition] (proc : Proc State Input Unit) : Proc State Input Unit :=
  if condition then proc else return ()

def repeatAtMost (body : Proc State Input Bool) : Nat → Proc State Input Unit
  | 0 => pause
  | bound+1 => do
    if ← body then repeatAtMost body bound
    else return ()

def loop (body : Proc State Input Bool) : Proc State Input Unit where
  run state inputs := (repeatAtMost body (inputs.length + 1)).run state inputs
  leaves := (repeatAtMost body _).leaves

def forEach (body : Item → Proc State Input Unit) : List Item → Proc State Input Unit
  | [] => return ()
  | item::items => do
    body item
    forEach body items

/-- A value that meets the condition is returned only after some input was read. -/
def Reads (condition : Value → Prop) (proc : Proc State Input Value) : Prop :=
  ∀ state inputs value rest reached, proc.run state inputs = (.done value rest,reached) → condition value →
    rest.length < inputs.length

section reads
variable {first : Proc State Input Value} {next : Value → Proc State Input Other} {condition : Other → Prop}

theorem bind_done {state reached : State} {inputs rest : List Input} {value : Other}
    (returned : (first >>= next).run state inputs = (.done value rest,reached)) :
    ∃ middle between left, first.run state inputs = (.done middle left,between) ∧
      (next middle).run between left = (.done value rest,reached) := by
  rw [bind_run] at returned
  split at returned
  · next ran => exact ⟨_,_,_,ran,returned⟩
  all_goals cases returned

theorem reads_input : (input : Proc State Input Input).Reads fun _ => True := by
  rintro _ (_ | ⟨first,rest⟩) _ _ _ ⟨⟩ _
  exact Nat.lt_succ_self _

theorem Reads.before (reads : first.Reads fun _ => True) : (first >>= next).Reads condition := by
  intro state inputs value rest reached returned _
  obtain ⟨middle,between,left,ran,returned⟩ := bind_done returned
  exact Nat.lt_of_le_of_lt ((next middle).leaves returned).length_le (reads _ _ _ _ _ ran trivial)

theorem Reads.after (reads : ∀ value, (next value).Reads condition) : (first >>= next).Reads condition := by
  intro state inputs value rest reached returned met
  obtain ⟨middle,between,left,ran,returned⟩ := bind_done returned
  exact Nat.lt_of_lt_of_le (reads middle _ _ _ _ _ returned met) (first.leaves ran).length_le

theorem reads_pure {value : Other} (fails : ¬ condition value) :
    (pure value : Proc State Input Other).Reads condition := by
  rintro _ _ _ _ _ ⟨⟩ met
  exact absurd met fails

end reads

section loop
variable {body : Proc State Input Bool}

theorem bind_congr {first : Proc State Input Value} {one two : Value → Proc State Input Other} {state : State}
    {inputs : List Input}
    (same : ∀ value rest reached, first.run state inputs = (.done value rest,reached) →
      (one value).run reached rest = (two value).run reached rest) :
    (first >>= one).run state inputs = (first >>= two).run state inputs := by
  rw [bind_run,bind_run]
  rcases ran : first.run state inputs with ⟨_ | _ | _ | _,reached⟩
  · exact same _ _ _ ran
  all_goals rfl

theorem repeatAtMost_enough (reads : body.Reads (· = true)) {bound : Nat} {inputs : List Input} (state : State)
    (enough : inputs.length < bound) :
    (repeatAtMost body (bound + 1)).run state inputs = (repeatAtMost body bound).run state inputs := by
  induction bound generalizing state inputs with
  | zero => exact absurd enough (Nat.not_lt_zero _)
  | succ bound ih =>
    refine bind_congr fun again rest reached ran => ?_
    cases again with
    | false => rfl
    | true =>
      have shorter := reads _ _ _ _ _ ran rfl
      exact ih reached (by omega)

theorem repeatAtMost_more (reads : body.Reads (· = true)) {inputs : List Input} (state : State) (more : Nat) :
    (repeatAtMost body (inputs.length + 1 + more)).run state inputs = (loop body).run state inputs := by
  induction more with
  | zero => rfl
  | succ more ih =>
    have enough : inputs.length < inputs.length + 1 + more := by omega
    exact (repeatAtMost_enough reads state enough).trans ih

/-- The bound of the loop never stops a body that reads an input before each repetition. -/
theorem loop_unfold (reads : body.Reads (· = true)) :
    loop body = do if ← body then loop body else return () := by
  refine ext fun state inputs => bind_congr fun again rest reached ran => ?_
  cases again with
  | false => rfl
  | true =>
    have shorter := reads _ _ _ _ _ ran rfl
    obtain ⟨more,total⟩ := Nat.exists_eq_add_of_le shorter
    change (repeatAtMost body inputs.length).run reached rest = _
    rw [total]
    exact repeatAtMost_more reads reached more

end loop
end Proc

/-- From every state that meets `before`, and with inputs that are `possible`, the procedure
returns with `after`, waits in a state that is `safe`, or is left by an exception with
`failed`; it does nothing undefined. -/
def Triple (possible : Input → Prop) (safe failed before : State → Prop) (proc : Proc State Input Value)
    (after : Value → State → Prop) : Prop :=
  ∀ state inputs, (∀ input ∈ inputs, possible input) → before state →
    match proc.run state inputs with
    | (.done value _,state) => after value state
    | (.paused,state) => safe state
    | (.raised,state) => failed state
    | (.undefined,_) => False

namespace Triple
variable {possible : Input → Prop} {safe failed before middle : State → Prop} {proc : Proc State Input Value} {after : Value → State → Prop}

theorem pure {value : Value} (meets : ∀ state, before state → after value state) :
    Triple possible safe failed before (Pure.pure value : Proc State Input Value) after :=
  fun state _ _ met => meets state met

theorem bind {next : Value → Proc State Input Other} {between : Value → State → Prop} {final : Other → State → Prop}
    (first : Triple possible safe failed before proc between) (second : ∀ value, Triple possible safe failed (between value) (next value) final) :
    Triple possible safe failed before (proc >>= next) final := by
  intro state inputs given met
  have result := first state inputs given met
  rw [Proc.bind_run]
  rcases ran : proc.run state inputs with ⟨value | _ | _ | _,reached⟩ <;> rw [ran] at result
  · exact second _ reached _ (fun input member => given input ((proc.leaves ran).subset member)) result
  · exact result
  · exact result
  · exact result.elim

theorem via {next : Value → Proc State Input Other} (between : Value → State → Prop) {final : Other → State → Prop}
    (first : Triple possible safe failed before proc between) (second : ∀ value, Triple possible safe failed (between value) (next value) final) :
    Triple possible safe failed before (proc >>= next) final :=
  bind first second

theorem weaken (triple : Triple possible safe failed middle proc after) (entry : ∀ state, before state → middle state) :
    Triple possible safe failed before proc after :=
  fun state inputs given met => triple state inputs given (entry state met)

theorem strengthen {final : Value → State → Prop} (triple : Triple possible safe failed before proc after)
    (exit : ∀ value state, after value state → final value state) : Triple possible safe failed before proc final := by
  intro state inputs given met
  have result := triple state inputs given met
  rcases ran : proc.run state inputs with ⟨value | _ | _ | _,reached⟩ <;> rw [ran] at result
  · exact exit _ reached result
  · exact result
  · exact result
  · exact result.elim

theorem observe {next : State → Proc State Input Value}
    (rest : ∀ observed, before observed → Triple possible safe failed (fun state => before state ∧ state = observed) (next observed) after) :
    Triple possible safe failed before (Proc.current >>= next) after :=
  fun state inputs given met => rest state met state inputs given ⟨met,rfl⟩

theorem alter {change : State → State} {after : Unit → State → Prop}
    (meets : ∀ state, before state → after () (change state)) :
    Triple possible safe failed before (Proc.alter change : Proc State Input Unit) after :=
  fun state _ _ met => meets state met

theorem pause (secure : ∀ state, before state → safe state) :
    Triple possible safe failed before (Proc.pause : Proc State Input Value) after :=
  fun state _ _ met => secure state met

theorem raise (excused : ∀ state, before state → failed state) :
    Triple possible safe failed before (Proc.raise : Proc State Input Value) after :=
  fun state _ _ met => excused state met

theorem read {next : Input → Proc State Input Value} (secure : ∀ state, before state → safe state)
    (rest : ∀ input, possible input → Triple possible safe failed before (next input) after) :
    Triple possible safe failed before (Proc.input >>= next) after := by
  intro state inputs given met
  cases inputs with
  | nil => exact secure state met
  | cons first later =>
    obtain ⟨head,tail⟩ := List.forall_mem_cons.mp given
    exact rest first head state later tail met

theorem when {condition : Prop} [Decidable condition] {proc : Proc State Input Unit} {after : Unit → State → Prop}
    (taken : condition → Triple possible safe failed before proc after) (skipped : ¬ condition → ∀ state, before state → after () state) :
    Triple possible safe failed before (Proc.when condition proc) after := by
  unfold Proc.when
  split
  · next holds => exact taken holds
  · next fails => exact pure (skipped fails)

theorem loop {body : Proc State Input Bool} {final : State → Prop} (secure : ∀ state, before state → safe state)
    (iteration : Triple possible safe failed before body (fun again state => if again then before state else final state)) :
    Triple possible safe failed before (Proc.loop body) (fun _ => final) := by
  have bounded : ∀ bound, Triple possible safe failed before (Proc.repeatAtMost body bound) (fun _ => final) := by
    intro bound
    induction bound with
    | zero => exact pause secure
    | succ bound ih =>
      refine bind iteration fun again => ?_
      cases again with
      | true => exact ih
      | false => exact pure fun _ met => met
  exact fun state inputs given met => bounded (inputs.length + 1) state inputs given met

theorem repeats {body : Proc State Input Bool} (secure : ∀ state, before state → safe state)
    (iteration : Triple possible safe failed before body (fun _ => before)) : Triple possible safe failed before (Proc.loop body) (fun _ => before) := by
  refine loop secure (strengthen iteration fun again state met => ?_)
  split <;> exact met

theorem forEach {body : Item → Proc State Input Unit} (invariant : List Item → State → Prop)
    (iteration : ∀ item items, Triple possible safe failed (invariant (item::items)) (body item) (fun _ => invariant items))
    (items : List Item) : Triple possible safe failed (invariant items) (Proc.forEach body items) (fun _ => invariant []) := by
  induction items with
  | nil => exact pure fun _ met => met
  | cons item items ih => exact bind (iteration item items) fun _ => ih

end Triple
end Interaction
