import NovaCache.Sections
import Mathlib.Logic.Hydra

/-! Calls of programs that take their locks in order all return: while one is under way some
call can go on, and every call has only so much to do. -/
namespace Sections
open LockOrder (Mode)
variable {Cell : Type} {Content : Cell → Type} {Count Result Thread Operation : Type}

/-- What is left of a program behind one instruction. -/
inductive Child : Code Cell Content Count Result → Code Cell Content Count Result → Prop
  | acquire (cell : Cell) (mode : Mode) (next : Code Cell Content Count Result) : Child next (.acquire cell mode next)
  | release (cell : Cell) (next : Code Cell Content Count Result) : Child next (.release cell next)
  | read (cell : Cell) (next : Content cell → Code Cell Content Count Result) (content : Content cell) :
      Child (next content) (.read cell next)
  | write (cell : Cell) (content : Content cell) (next : Code Cell Content Count Result) : Child next (.write cell content next)
  | add (amount : Count) (next : Code Cell Content Count Result) : Child next (.add amount next)
  | commit (next : Code Cell Content Count Result) : Child next (.commit next)

theorem child_wellFounded : WellFounded (@Child Cell Content Count Result) := by
  refine ⟨fun code => ?_⟩
  induction code with
  | done result => exact ⟨_,nofun⟩
  | acquire cell mode next ih | release cell next ih | write cell content next ih | add amount next ih | commit next ih =>
    refine ⟨_,fun _ child => ?_⟩
    cases child
    exact ih
  | read cell next ih =>
    refine ⟨_,fun _ child => ?_⟩
    cases child with
    | read _ _ content => exact ih content

/-- Whatever the program reads, its result and the locks that it takes and gives back are allowed. -/
def Takes (allowed : Result → List (LockOrder.Action Cell) → Prop) : Code Cell Content Count Result → Prop
  | .done result => allowed result []
  | .acquire cell mode next => Takes (fun result own => allowed result (.acquire cell mode::own)) next
  | .release cell next => Takes (fun result own => allowed result (.release cell::own)) next
  | .read _ next => ∀ content, Takes allowed (next content)
  | .write _ _ next | .add _ next | .commit next => Takes allowed next

section taken
variable {Other : Type} {code : Code Cell Content Count Result} {rest : Result → Code Cell Content Count Other}
variable {allowed weaker : Result → List (LockOrder.Action Cell) → Prop}

theorem Takes.mono (takes : Takes allowed code) (weaken : ∀ result own, allowed result own → weaker result own) :
    Takes weaker code := by
  induction code generalizing allowed weaker with
  | done result => exact weaken result [] takes
  | acquire cell mode next ih => exact ih takes fun result own => weaken result _
  | release cell next ih => exact ih takes fun result own => weaken result _
  | read cell next ih => exact fun content => ih content (takes content) weaken
  | write cell content next ih | add amount next ih | commit next ih => exact ih takes weaken

theorem takes_bind {ending : Other → List (LockOrder.Action Cell) → Prop}
    (takes : Takes (fun result own => Takes (fun last more => ending last (own ++ more)) (rest result)) code) :
    Takes ending (code >>= rest) := by
  change Takes ending (code.bind rest)
  induction code generalizing ending with
  | done result => exact takes
  | acquire cell mode next ih => exact ih takes
  | release cell next ih => exact ih takes
  | read cell next ih => exact fun content => ih content (takes content)
  | write cell content next ih | add amount next ih | commit next ih => exact ih takes

/-- What is done with the result takes no lock. -/
theorem Takes.result {allowed : List (LockOrder.Action Cell) → Prop} (takes : Takes (fun _ => allowed) code)
    (change : Result → Other) : Takes (fun _ => allowed) (code >>= fun result => pure (change result)) := by
  refine takes_bind (takes.mono fun result own fits => ?_)
  change allowed (own ++ [])
  rwa [List.append_nil]

theorem Inside.takes {held : Cell → Option Mode} (inside : Inside held code) : Takes (fun _ own => own = []) code := by
  induction code with
  | done result => rfl
  | read cell next ih => exact fun content => ih content (inside.2 content)
  | write cell content next ih => exact ih inside.2
  | add amount next ih => exact ih inside
  | acquire | release | commit => exact inside.elim

end taken

/-- The programs under way. -/
def State.programs [Fintype Thread] (state : State Thread Operation Cell Content Count Result) :
    Multiset (Code Cell Content Count Result) :=
  ∑ thread, (state.calls thread).elim 0 fun call => {call.2}

section less
variable [Fintype Thread] [DecidableEq Thread] {state : State Thread Operation Cell Content Count Result} {thread : Thread}
variable {operation : Operation} {code : Code Cell Content Count Result}

theorem programs_go (ahead : state.calls thread = some (operation,code)) (next : Code Cell Content Count Result)
    (memory : Memory Cell Content Count) (held : Cell → Option Mode) :
    (state.go thread operation next memory held).programs + {code} = state.programs + {next} := by
  have moved := Tally.sum_update (fun call : Option (Operation × Code Cell Content Count Result) =>
    (call.elim 0 fun call => {call.2} : Multiset (Code Cell Content Count Result))) state.calls thread (some (operation,next))
  rw [ahead] at moved
  exact moved

theorem programs_return (ahead : state.calls thread = some (operation,code)) :
    (state.with thread none).programs + {code} = state.programs + 0 := by
  have moved := Tally.sum_update (fun call : Option (Operation × Code Cell Content Count Result) =>
    (call.elim 0 fun call => {call.2} : Multiset (Code Cell Content Count Result))) state.calls thread none
  rw [ahead] at moved
  exact moved

end less

section steps
variable [DecidableEq Thread] [DecidableEq Cell] [AddCommMonoid Count]
variable {implement : Operation → Code Cell Content Count Result} {state : State Thread Operation Cell Content Count Result}

/-- A step of a call that is under way. -/
def Moves (implement : Operation → Code Cell Content Count Result)
    (state next : State Thread Operation Cell Content Count Result) : Prop :=
  ∃ event, Step implement state event next ∧ ∀ thread operation, event ≠ some (.call thread operation)

/-- Whatever the order of the steps, all calls return. -/
inductive Finishes (implement : Operation → Code Cell Content Count Result) :
    State Thread Operation Cell Content Count Result → Prop
  | quiet {state : State Thread Operation Cell Content Count Result} (quiet : state.Quiet) : Finishes implement state
  | moves {state : State Thread Operation Cell Content Count Result} (possible : ∃ next, Moves implement state next)
      (every : ∀ next, Moves implement state next → Finishes implement next) : Finishes implement state

/-- One of the programs is shorter. -/
theorem Moves.less [Fintype Thread] {next : State Thread Operation Cell Content Count Result} (moves : Moves implement state next) :
    Relation.CutExpand Child next.programs state.programs := by
  obtain ⟨event,step,other⟩ := moves
  have shorter : ∀ {thread operation code next memory held}, state.calls thread = some (operation,code) → Child next code →
      Relation.CutExpand Child (state.go thread operation next memory held).programs state.programs := by
    intro thread operation code next memory held ahead child
    refine ⟨{next},code,fun other member => ?_,programs_go ahead next memory held⟩
    rw [Multiset.mem_singleton.mp member]
    exact child
  cases step with
  | call => exact absurd rfl (other _ _)
  | ret ahead => exact ⟨0,_,fun _ member => absurd member (Multiset.notMem_zero _),programs_return ahead⟩
  | acquire ahead => exact shorter ahead (.acquire ..)
  | release ahead => exact shorter ahead (.release ..)
  | read ahead => exact shorter ahead (.read ..)
  | write ahead => exact shorter ahead (.write ..)
  | add ahead => exact shorter ahead (.add ..)
  | commit ahead => exact shorter ahead (.commit ..)

/-- A call can go on unless it waits for a lock. -/
theorem moves_or_waits {thread : Thread} {operation : Operation} {code : Code Cell Content Count Result}
    (ahead : state.calls thread = some (operation,code)) :
    (∃ next, Moves implement state next) ∨ ∃ cell mode next, code = .acquire cell mode next := by
  have moves : ∀ {event next}, Step implement state event next → (∀ thread operation, event ≠ some (.call thread operation)) →
      ∃ next, Moves implement state next := fun step other => ⟨_,_,step,other⟩
  cases code with
  | done result => exact .inl (moves (.ret ahead) nofun)
  | acquire cell mode next => exact .inr ⟨cell,mode,next,rfl⟩
  | release cell next => exact .inl (moves (.release ahead) nofun)
  | read cell next => exact .inl (moves (.read ahead) nofun)
  | write cell content next => exact .inl (moves (.write ahead) nofun)
  | add amount next => exact .inl (moves (.add ahead) nofun)
  | commit next => exact .inl (moves (.commit ahead) nofun)

/-- The locks that a program takes and gives back if nothing interrupts it. -/
def locks : Code Cell Content Count Result → Memory Cell Content Count → List (LockOrder.Action Cell)
  | .done _, _ => []
  | .acquire cell mode next, memory => .acquire cell mode::locks next memory
  | .release cell next, memory => .release cell::locks next memory
  | .read cell next, memory => locks (next (memory.cells cell)) memory
  | .write cell content next, memory => locks next (memory.store cell content)
  | .add amount next, memory => locks next (memory.add amount)
  | .commit next, memory => locks next memory

theorem Takes.locks {code : Code Cell Content Count Result} {allowed : Result → List (LockOrder.Action Cell) → Prop}
    (takes : Takes allowed code) (memory : Memory Cell Content Count) :
    ∃ result, allowed result (locks code memory) := by
  induction code generalizing allowed memory with
  | done result => exact ⟨result,takes⟩
  | acquire cell mode next ih => exact ih takes memory
  | release cell next ih => exact ih takes memory
  | read cell next ih => exact ih _ (takes _) memory
  | write cell content next ih | add amount next ih => exact ih takes _
  | commit next ih => exact ih takes memory

variable {rank : Cell → Nat}

theorem locks_disciplined {code : Code Cell Content Count Result} {grip : Grip Cell}
    (guarded : Guarded rank (fun _ grip => grip = Grip.free) grip code) (memory : Memory Cell Content Count) :
    LockOrder.Disciplined rank {cell | (grip.held cell).isSome = true} (locks code memory) := by
  induction code generalizing grip memory with
  | done result =>
    cases guarded
    exact Set.eq_empty_of_forall_notMem fun _ => nofun
  | acquire cell mode next ih =>
    refine ⟨fun other holds => guarded.1 other (Option.isSome_iff_ne_none.mp holds),?_⟩
    convert ih guarded.2 memory using 1
    ext other
    by_cases same : other = cell <;> simp [Grip.hold,same]
  | release cell next ih =>
    refine ⟨Option.isSome_iff_ne_none.mpr guarded.1,?_⟩
    convert ih guarded.2.2 memory using 1
    ext other
    by_cases same : other = cell <;> simp [Grip.hold,same]
  | read cell next ih => exact ih _ (guarded.2 _) memory
  | write cell content next ih => exact ih guarded.2 _
  | add amount next ih => exact ih guarded _
  | commit next ih => exact ih guarded memory

def State.lockState (state : State Thread Operation Cell Content Count Result) : LockOrder.State Thread Cell :=
  ⟨fun thread => (state.calls thread).elim [] fun call => locks call.2 state.memory,state.held⟩

variable [Fintype Thread] {serial : Serial Thread Operation Cell Content Count Result}

omit [DecidableEq Thread] in
theorem Matches.disciplined (related : Matches rank state serial) : LockOrder.AllDisciplined rank state.lockState := by
  obtain ⟨grips,pending,related⟩ := related
  intro thread
  have same : LockOrder.holding state.lockState thread = {cell | ((grips thread).held cell).isSome = true} := by
    rw [related.held]
    rfl
  rw [same]
  change LockOrder.Disciplined rank _ ((state.calls thread).elim [] _)
  cases ahead : state.calls thread with
  | none =>
    rw [(related.idle thread ahead).2.1]
    exact Set.eq_empty_of_forall_notMem fun _ => nofun
  | some call =>
    obtain ⟨_,_,follows⟩ := related.busy thread call.1 call.2 ahead
    exact locks_disciplined follows.guarded state.memory

theorem Matches.can_move [Finite Cell] (related : Matches rank state serial) (busy : ¬ state.Quiet) :
    ∃ next, Moves implement state next := by
  obtain ⟨thread,called⟩ := not_forall.mp busy
  obtain ⟨⟨operation,code⟩,ahead⟩ := Option.ne_none_iff_exists'.mp called
  rcases moves_or_waits ahead with moves | ⟨cell,mode,next,rfl⟩
  · exact moves
  · have waits : state.lockState.remaining thread ≠ [] := by
      simp [State.lockState,ahead,locks]
    obtain ⟨_,step⟩ := LockOrder.can_step related.disciplined waits
    -- The thread that can take the lock has an instruction that is the lock or stands before it.
    cases step with
    | @acquire mover lock kind rest remaining free =>
      cases call : state.calls mover with
      | none => simp [State.lockState,call] at remaining
      | some found =>
        obtain ⟨performed,left⟩ := found
        rcases moves_or_waits call with moves | ⟨wanted,asked,after,rfl⟩
        · exact moves
        · simp only [State.lockState,call,Option.elim_some,locks,List.cons.injEq,LockOrder.Action.acquire.injEq] at remaining
          obtain ⟨⟨rfl,rfl⟩,_⟩ := remaining
          exact ⟨_,none,.acquire call free,nofun⟩
    | @release mover lock rest remaining =>
      cases call : state.calls mover with
      | none => simp [State.lockState,call] at remaining
      | some found =>
        obtain ⟨performed,left⟩ := found
        rcases moves_or_waits call with moves | ⟨wanted,asked,after,rfl⟩
        · exact moves
        · simp [State.lockState,call,locks] at remaining

/-- All calls return, in whatever order the steps are taken. -/
theorem Matches.finishes [Finite Cell] (wellLocked : ∀ operation, WellLocked rank (implement operation))
    (related : Matches rank state serial) : Finishes implement state := by
  induction size : state.programs using child_wellFounded.cutExpand.induction generalizing state serial with
  | _ programs ih =>
    subst size
    by_cases quiet : state.Quiet
    · exact .quiet quiet
    · refine .moves (related.can_move quiet) fun next moves => ?_
      obtain ⟨event,step,_⟩ := id moves
      obtain ⟨after,_,kept⟩ := step.matched wellLocked related
      exact ih _ moves.less kept rfl

end steps

end Sections
