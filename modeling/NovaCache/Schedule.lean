import Mathlib.Data.List.Basic

/-! Systems whose next step is chosen from outside. A schedule is a list of actions, each of
which is possible or not; what every action keeps holds along every schedule, and what every
action uses up bounds its length. -/
namespace Schedule
variable {State Action : Type*} {act : Action → State → Option State} {state last : State} {actions : List Action}

def run (act : Action → State → Option State) : List Action → State → Option State
  | [], state => some state
  | action::rest, state => (act action state).bind (run act rest)

theorem run_cons {action : Action} {rest : List Action} (ran : run act (action::rest) state = some last) :
    ∃ next, act action state = some next ∧ run act rest next = some last :=
  Option.bind_eq_some_iff.mp ran

theorem run_invariant {holds : State → Prop}
    (kept : ∀ action state next, act action state = some next → holds state → holds next)
    (ran : run act actions state = some last) (start : holds state) : holds last := by
  induction actions generalizing state with
  | nil =>
    cases ran
    exact start
  | cons action rest ih =>
    obtain ⟨next,acted,further⟩ := run_cons ran
    exact ih further (kept action state next acted start)

/-- Every action of some kind uses up something, so a schedule of such actions ends. -/
theorem run_bounded (own : Action → Prop) {work : State → Nat}
    (drops : ∀ action state next, own action → act action state = some next → work next < work state)
    (ran : run act actions state = some last) (all : ∀ action ∈ actions, own action) :
    actions.length + work last ≤ work state := by
  induction actions generalizing state with
  | nil =>
    cases ran
    exact Nat.le_of_eq (Nat.zero_add _)
  | cons action rest ih =>
    obtain ⟨next,acted,further⟩ := run_cons ran
    have less := drops action state next (all action List.mem_cons_self) acted
    have remaining := ih further fun other member => all other (List.mem_cons_of_mem _ member)
    rw [List.length_cons]
    omega

/-- Such actions can be taken until none is possible. -/
theorem run_rests (own : Action → Prop) {work : State → Nat}
    (drops : ∀ action state next, own action → act action state = some next → work next < work state) (state : State) :
    ∃ actions last, (∀ action ∈ actions, own action) ∧ run act actions state = some last ∧
      ∀ action, own action → act action last = none := by
  induction size : work state using Nat.strongRecOn generalizing state with
  | _ bound ih =>
    by_cases rest : ∀ action, own action → act action state = none
    · exact ⟨[],state,List.forall_mem_nil _,rfl,rest⟩
    · obtain ⟨action,possible⟩ := not_forall.mp rest
      obtain ⟨mine,possible⟩ := Classical.not_imp.mp possible
      obtain ⟨next,acted⟩ := Option.ne_none_iff_exists'.mp possible
      obtain ⟨actions,last,all,ran,ended⟩ := ih _ (size ▸ drops action state next mine acted) next rfl
      exact ⟨action::actions,last,List.forall_mem_cons.mpr ⟨mine,all⟩,Option.bind_eq_some_iff.mpr ⟨next,acted,ran⟩,ended⟩

end Schedule
