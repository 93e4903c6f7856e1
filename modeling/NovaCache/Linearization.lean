import NovaCache.Sections

/-! Objects whose operations are sequences of atomic actions; those that take effect at one
moment between call and return have one action. An operation may reserve a part of the memory
until its next action. A program carries out such a sequence if each of its sections has the
effect of the next action or none, and the lock of what is reserved is kept. -/
namespace Linearization
open Sections Simulation
variable {Thread Operation Memory Result Other Part Cell Count : Type} {Content : Cell → Type}

/-- What is left of an operation, and whether it reserves a part of the memory until then. -/
inductive Script (Memory Result : Type) : Type 1
  | done (result : Result)
  | act {Answer : Type} (reserves : Bool) (action : Memory → Answer × Memory) (next : Answer → Script Memory Result)

namespace Script

/-- An operation that takes effect at once. -/
def atomic (action : Memory → Result × Memory) : Script Memory Result := .act false action .done

def reserves : Script Memory Result → Bool
  | .done _ => false
  | .act reserves _ _ => reserves

def map (change : Result → Other) : Script Memory Result → Script Memory Other
  | .done result => .done (change result)
  | .act reserves action next => .act reserves action fun answer => (next answer).map change

def append (first : Script Memory Result) (rest : Result → Script Memory Other) : Script Memory Other :=
  match first with
  | .done result => rest result
  | .act reserves action next => .act reserves action fun answer => (next answer).append rest

/-- Beside a part of the memory that stays as it is. -/
def behind : Script Memory Result → Script (Other × Memory) Result
  | .done result => .done result
  | .act reserves action next =>
    .act reserves (fun memory => ((action memory.2).1,memory.1,(action memory.2).2)) fun answer => (next answer).behind

/-- All actions one after the other. -/
def run : Script Memory Result → Memory → Result × Memory
  | .done result, memory => (result,memory)
  | .act _ action next, memory => (next (action memory).1).run (action memory).2

theorem run_map (script : Script Memory Result) (change : Result → Other) (memory : Memory) :
    (script.map change).run memory = (script.run memory).map change id := by
  induction script generalizing memory with
  | done => rfl
  | act reserves action next ih => exact ih _ _

theorem behind_map (script : Script Memory Result) (change : Result → Other) {Before : Type} :
    ((script.map change).behind : Script (Before × Memory) Other) = script.behind.map change := by
  induction script with
  | done => rfl
  | act reserves action next ih => exact congrArg (Script.act reserves _) (funext ih)

theorem append_done (script : Script Memory Result) (change : Result → Other) :
    (script.append fun result => .done (change result)) = script.map change := by
  induction script with
  | done => rfl
  | act reserves action next ih => exact congrArg (Script.act reserves _) (funext ih)

theorem run_append (script : Script Memory Result) (rest : Result → Script Memory Other) (memory : Memory) :
    (script.append rest).run memory = (rest (script.run memory).1).run (script.run memory).2 := by
  induction script generalizing memory with
  | done => rfl
  | act reserves action next ih => exact ih _ _

theorem run_behind (script : Script Memory Result) (memory : Other × Memory) :
    script.behind.run memory = ((script.run memory.2).1,memory.1,(script.run memory.2).2) := by
  induction script generalizing memory with
  | done => rfl
  | act reserves action next ih => exact ih _ _

/-- Every action keeps what holds of the memory. -/
def Keeps (holds : Memory → Prop) : Script Memory Result → Prop
  | .done _ => True
  | .act _ action next => ∀ memory, holds memory → holds (action memory).2 ∧ (next (action memory).1).Keeps holds

variable {holds : Memory → Prop} {script : Script Memory Result}

theorem keeps_atomic {action : Memory → Result × Memory} (kept : ∀ memory, holds memory → holds (action memory).2) :
    (atomic action).Keeps holds := fun memory before => ⟨kept memory before,trivial⟩

theorem Keeps.append {rest : Result → Script Memory Other} (keeps : script.Keeps holds)
    (further : ∀ result, (rest result).Keeps holds) : (script.append rest).Keeps holds := by
  induction script with
  | done result => exact further result
  | act reserves action next ih =>
    intro memory before
    obtain ⟨after,others⟩ := keeps memory before
    exact ⟨after,ih _ others⟩

theorem Keeps.map (keeps : script.Keeps holds) (change : Result → Other) : (script.map change).Keeps holds := by
  rw [← append_done]
  exact keeps.append fun _ => trivial

theorem Keeps.behind (keeps : script.Keeps holds) :
    (script.behind : Script (Other × Memory) Result).Keeps fun memory => holds memory.2 := by
  induction script with
  | done => trivial
  | act reserves action next ih =>
    intro memory before
    obtain ⟨after,others⟩ := keeps memory.2 before
    exact ⟨after,ih _ others⟩

end Script

/-- `order` lists the actions that have been done, by their operations. -/
structure Object (Thread Operation Memory Result : Type) where
  memory : Memory
  calls : Thread → Option (Operation × Script Memory Result)
  order : List (Thread × Operation)

namespace Object

def start (memory : Memory) : Object Thread Operation Memory Result := ⟨memory,fun _ => none,[]⟩

variable [DecidableEq Thread] {script : Operation → Script Memory Result} {reserved : Memory → Part}

def set (object : Object Thread Operation Memory Result) (thread : Thread) (call : Option (Operation × Script Memory Result)) :
    Object Thread Operation Memory Result :=
  {object with calls := Function.update object.calls thread call}

def act (object : Object Thread Operation Memory Result) (thread : Thread) (operation : Operation) (memory : Memory)
    (rest : Script Memory Result) : Object Thread Operation Memory Result :=
  ⟨memory,Function.update object.calls thread (some (operation,rest)),object.order ++ [(thread,operation)]⟩

/-- What others have reserved stays as it is. -/
def Apart (reserved : Memory → Part) (object : Object Thread Operation Memory Result) (thread : Thread) (memory : Memory) :
    Prop :=
  ∀ other operation rest, other ≠ thread → object.calls other = some (operation,rest) → rest.reserves = true →
    reserved memory = reserved object.memory

inductive Step (script : Operation → Script Memory Result) (reserved : Memory → Part) :
    Object Thread Operation Memory Result → Option (Event Thread Operation Result) →
      Object Thread Operation Memory Result → Prop
  | call {object thread operation} (idle : object.calls thread = none) :
      Step script reserved object (some (.call thread operation)) (object.set thread (some (operation,script operation)))
  | point {object thread operation} {Answer : Type} {reserves : Bool} {action : Memory → Answer × Memory}
      {next : Answer → Script Memory Result} (ahead : object.calls thread = some (operation,.act reserves action next))
      (apart : object.Apart reserved thread (action object.memory).2) :
      Step script reserved object none
        (object.act thread operation (action object.memory).2 (next (action object.memory).1))
  | ret {object thread operation result} (ahead : object.calls thread = some (operation,.done result)) :
      Step script reserved object (some (.ret thread operation result)) (object.set thread none)

/-- Nothing has happened, or one action. -/
def Further (script : Operation → Script Memory Result) (reserved : Memory → Part)
    (object after : Object Thread Operation Memory Result) : Prop :=
  after = object ∨ Step script reserved object none after

theorem Further.run {object after : Object Thread Operation Memory Result} (further : Further script reserved object after) :
    Run (Step script reserved) object [] after := by
  rcases further with rfl | step
  · exact .rest after
  · exact .single step

end Object

section objects
variable [DecidableEq Thread] {script : Operation → Script Memory Result} {reserved : Memory → Part} {memory : Memory}
variable {object : Object Thread Operation Memory Result} {history : List (Event Thread Operation Result)}

/-- What has returned has acted. -/
theorem returned_ordered (run : Run (Object.Step script reserved) (.start memory) history object) {thread : Thread}
    {operation : Operation} {result : Result} (acts : ∀ other, script operation ≠ .done other)
    (returned : .ret thread operation result ∈ history) : (thread,operation) ∈ object.order := by
  let Recorded : List (Event Thread Operation Result) → Object Thread Operation Memory Result → Prop := fun past object =>
    (∀ other rest, object.calls other = some (operation,rest) → rest = script operation ∨ (other,operation) ∈ object.order) ∧
      ∀ other found, .ret other operation found ∈ past → (other,operation) ∈ object.order
  have recorded : Recorded ([] ++ history) object := by
    refine run.traced (fun past before event after step recorded => ?_) ⟨nofun,nofun⟩
    obtain ⟨begun,past⟩ := recorded
    cases step with
    | @call caller called idle =>
      refine ⟨fun other rest found => ?_,fun other found member => past other found (by simpa using member)⟩
      by_cases mine : other = caller
      · subst mine
        simp only [Object.set,Function.update_self,Option.some.injEq,Prod.mk.injEq] at found
        obtain ⟨rfl,rfl⟩ := found
        exact .inl rfl
      · exact begun other rest (by simpa [Object.set,mine] using found)
    | @point caller called _ _ action next ahead =>
      refine ⟨fun other rest found => ?_,fun other found member => ?_⟩
      · by_cases mine : other = caller
        · subst mine
          simp only [Object.act,Function.update_self,Option.some.injEq,Prod.mk.injEq] at found
          obtain ⟨rfl,rfl⟩ := found
          exact .inr (List.mem_append_right _ (List.mem_singleton_self _))
        · exact (begun other rest (by simpa [Object.act,mine] using found)).imp id (List.mem_append_left _)
      · exact List.mem_append_left _ (past other found (by simpa using member))
    | @ret caller called outcome ahead =>
      refine ⟨fun other rest found => ?_,fun other found member => ?_⟩
      · have different : other ≠ caller := by
          rintro rfl
          simp [Object.set] at found
        exact begun other rest (by simpa [Object.set,different] using found)
      · rcases List.mem_append.mp member with old | new
        · exact past other found old
        · cases List.mem_singleton.mp new
          exact (begun _ _ ahead).resolve_left fun same => acts _ same.symm
  exact recorded.2 thread result returned

/-- A call that changes leaves the others as they are. -/
theorem calls_update {holds : Operation → Script Memory Result → Prop}
    {calls : Thread → Option (Operation × Script Memory Result)}
    (before : ∀ thread operation rest, calls thread = some (operation,rest) → holds operation rest) (thread : Thread)
    {call : Option (Operation × Script Memory Result)}
    (own : ∀ operation rest, call = some (operation,rest) → holds operation rest) :
    ∀ other operation rest, Function.update calls thread call other = some (operation,rest) → holds operation rest := by
  intro other operation rest found
  by_cases mine : other = thread
  · subst mine
    rw [Function.update_self] at found
    exact own operation rest found
  · rw [Function.update_of_ne mine] at found
    exact before other operation rest found

/-- It holds of the memory, and what is left of the operations keeps it. -/
def Object.Kept (holds : Memory → Prop) (object : Object Thread Operation Memory Result) : Prop :=
  holds object.memory ∧ ∀ thread operation rest, object.calls thread = some (operation,rest) → rest.Keeps holds

theorem Object.Kept.step {holds : Memory → Prop} (keeps : ∀ operation, (script operation).Keeps holds)
    {event : Option (Event Thread Operation Result)} {after : Object Thread Operation Memory Result}
    (kept : object.Kept holds) (step : Object.Step script reserved object event after) : after.Kept holds := by
  obtain ⟨now,calls⟩ := kept
  cases step with
  | @call thread operation idle =>
    refine ⟨now,calls_update calls thread fun performed rest found => ?_⟩
    cases found
    exact keeps operation
  | @point thread operation _ _ action next ahead apart =>
    obtain ⟨after,further⟩ := calls thread operation _ ahead _ now
    refine ⟨after,calls_update calls thread fun performed rest found => ?_⟩
    cases found
    exact further
  | @ret thread => exact ⟨now,calls_update calls thread fun _ _ found => by cases found⟩

/-- What every action keeps holds behind every run. -/
theorem run_keeps {holds : Memory → Prop} (keeps : ∀ operation, (script operation).Keeps holds)
    (run : Run (Object.Step script reserved) (.start memory) history object) (before : holds memory) : object.Kept holds :=
  run.invariant (fun _ _ _ step kept => kept.step keeps step) ⟨before,fun _ _ _ found => by cases found⟩

def waits (chosen : Operation → Bool) : Option (Operation × Script Memory Result) → Nat
  | none | some (_,.done _) => 0
  | some (operation,.act _ _ _) => (chosen operation).toNat

theorem waits_le_one (chosen : Operation → Bool) (call : Option (Operation × Script Memory Result)) :
    waits chosen call ≤ 1 := by
  unfold waits
  split
  · exact Nat.zero_le 1
  · exact Nat.zero_le 1
  · exact Bool.toNat_le _

theorem waits_of_other {chosen : Operation → Bool} {operation : Operation} (other : chosen operation = false)
    (rest : Script Memory Result) : waits chosen (some (operation,rest)) = 0 := by
  cases rest with
  | done => rfl
  | act => exact congrArg Bool.toNat other

/-- The chosen operations have their one action ahead or behind them, and those that have acted or
wait to act are no more than the events. -/
structure Counted [Fintype Thread] (chosen : Operation → Bool) (past : List (Event Thread Operation Result))
    (object : Object Thread Operation Memory Result) : Prop where
  shapes : ∀ thread operation rest, object.calls thread = some (operation,rest) → chosen operation = true →
    (∃ action, rest = .atomic action) ∨ ∃ result, rest = .done result
  bound : (∑ thread, waits chosen (object.calls thread)) + (object.order.filter fun entry => chosen entry.2).length ≤ past.length

section counting
variable [Fintype Thread] {chosen : Operation → Bool} {past : List (Event Thread Operation Result)} {thread : Thread}
variable {operation : Operation}

theorem Counted.call (counted : Counted chosen past object) (idle : object.calls thread = none)
    (single : chosen operation = true → ∃ action, script operation = .atomic action) :
    Counted chosen (past ++ [.call thread operation]) (object.set thread (some (operation,script operation))) where
  shapes := by
    refine calls_update counted.shapes thread fun performed rest found picked => ?_
    cases found
    exact .inl (single picked)
  bound := by
    have moved := Tally.sum_update (waits chosen) object.calls thread (some (operation,script operation))
    have one := waits_le_one chosen (some (operation,script operation))
    have before := counted.bound
    rw [idle,show waits chosen (none : Option (Operation × Script Memory Result)) = 0 from rfl] at moved
    simp only [Object.set,List.length_append,List.length_singleton]
    omega

theorem Counted.ret {result : Result} (counted : Counted chosen past object)
    (ahead : object.calls thread = some (operation,.done result)) :
    Counted chosen (past ++ [.ret thread operation result]) (object.set thread none) where
  shapes := calls_update counted.shapes thread fun _ _ found => by cases found
  bound := by
    have moved := Tally.sum_update (waits chosen) object.calls thread none
    have before := counted.bound
    rw [ahead] at moved
    change _ + 0 = _ + 0 at moved
    simp only [Object.set,List.length_append,List.length_singleton]
    omega

theorem Counted.point {Answer : Type} {reserves : Bool} {action : Memory → Answer × Memory}
    {next : Answer → Script Memory Result} (counted : Counted chosen past object)
    (ahead : object.calls thread = some (operation,.act reserves action next)) :
    Counted chosen past (object.act thread operation (action object.memory).2 (next (action object.memory).1)) := by
  have ended : chosen operation = true → ∃ result, next (action object.memory).1 = .done result := by
    intro picked
    obtain ⟨whole,same⟩ | ⟨result,same⟩ := counted.shapes thread operation _ ahead picked
    · cases same
      exact ⟨_,rfl⟩
    · cases same
  have before := counted.bound
  have moved := Tally.sum_update (waits chosen) object.calls thread (some (operation,next (action object.memory).1))
  rw [ahead] at moved
  change _ + (chosen operation).toNat = _ at moved
  constructor
  · refine calls_update counted.shapes thread fun performed rest found picked => ?_
    cases found
    exact .inr (ended picked)
  · simp only [Object.act,List.filter_append,List.length_append]
    cases picked : chosen operation with
    | false =>
      rw [waits_of_other picked,picked] at moved
      simp only [picked,List.filter_cons_of_neg,List.filter_nil,List.length_nil,Bool.toNat_false,Bool.false_eq_true,
        not_false_eq_true] at moved ⊢
      omega
    | true =>
      obtain ⟨result,done⟩ := ended picked
      rw [picked,done] at moved
      change _ + 1 = _ + 0 at moved
      rw [done]
      simp only [picked,List.filter_cons_of_pos,List.filter_nil,List.length_singleton]
      omega

/-- Operations with one action act once for each call. -/
theorem order_length_le (single : ∀ operation, chosen operation = true → ∃ action, script operation = .atomic action)
    (run : Run (Object.Step script reserved) (.start memory) history object) :
    (object.order.filter fun entry => chosen entry.2).length ≤ history.length := by
  have counted : Counted chosen ([] ++ history) object := by
    refine run.traced (fun past before event after step counted => ?_) ⟨nofun,by simp [Object.start,waits]⟩
    cases step with
    | call idle => exact counted.call idle (single _)
    | point ahead =>
      rw [Option.toList_none,List.append_nil]
      exact counted.point ahead
    | ret ahead => exact counted.ret ahead
  exact (Nat.le_add_left ..).trans counted.bound

end counting

end objects

section programs

/-- Nothing is left to do but to take and give back locks. -/
def Settled (result : Result) : Code Cell Content Count Result → Prop
  | .done other => other = result
  | .acquire _ _ next | .release _ next | .commit next => Settled result next
  | .read _ _ | .write _ _ _ | .add _ _ => False

theorem Settled.bind {result : Result} {code : Code Cell Content Count Result} {Other : Type} {other : Other}
    {rest : Result → Code Cell Content Count Other} (settled : Settled result code) (continues : Settled other (rest result)) :
    Settled other (code >>= rest) := by
  change Settled other (code.bind rest)
  induction code with
  | done found =>
    cases settled
    exact continues
  | acquire cell mode next ih => exact ih settled
  | release cell next ih => exact ih settled
  | commit next ih => exact ih settled
  | read | write | add => exact settled.elim

variable [DecidableEq Cell] [AddCommMonoid Count]

theorem Settled.finish {result : Result} {code : Code Cell Content Count Result} (settled : Settled result code)
    (memory : Sections.Memory Cell Content Count) :
    (finish code memory).2 = memory ∧ Settled result (finish code memory).1 := by
  induction code with
  | done other => exact ⟨rfl,settled⟩
  | acquire cell mode next ih => exact ih settled
  | release cell next ih => exact ih settled
  | commit next => exact ⟨rfl,settled⟩
  | read | write | add => exact settled.elim

theorem Settled.run {result : Result} {code : Code Cell Content Count Result} (settled : Settled result code)
    (memory : Sections.Memory Cell Content Count) : code.run memory = (result,memory) := by
  induction code with
  | done found =>
    cases settled
    rfl
  | acquire cell mode next ih => exact ih settled
  | release cell next ih => exact ih settled
  | commit next ih => exact ih settled
  | read | write | add => exact settled.elim

/-- The first section does everything. -/
def Single (code : Code Cell Content Count Result) : Prop :=
  ∀ memory : Sections.Memory Cell Content Count,
    Settled (code.run memory).1 (finish code memory).1 ∧ (finish code memory).2 = (code.run memory).2

theorem single_plain {code : Code Cell Content Count Result} (plain : code.Plain) : Single code := by
  intro memory
  induction code generalizing memory with
  | done result => exact ⟨rfl,rfl⟩
  | read cell next ih => exact ih _ (plain _) memory
  | write cell content next ih => exact ih plain _
  | add amount next ih => exact ih plain _
  | acquire cell mode next ih | release cell next ih => exact ih plain memory
  | commit => exact plain.elim

theorem single_bind {code : Code Cell Content Count Result} {Other : Type} {rest : Result → Code Cell Content Count Other}
    (plain : code.Plain) (continues : ∀ result, Single (rest result)) : Single (code >>= rest) := by
  intro memory
  rw [finish_bind plain,run_bind]
  exact continues _ _

/-- Nothing but locks follows the section. -/
theorem Single.bind {code : Code Cell Content Count Result} {Other : Type} {rest : Result → Code Cell Content Count Other}
    (single : Single code) (reply : Result → Other) (settled : ∀ result, Settled (reply result) (rest result)) : Single (code >>= rest) := by
  intro memory
  have whole := single memory
  rw [run_bind,(settled _).run]
  change _ ∧ (finish (code.bind rest) memory).2 = _
  clear single
  induction code generalizing memory with
  | done result =>
    obtain ⟨same,still⟩ := (settled result).finish memory
    exact ⟨still,same⟩
  | read cell next ih => exact ih _ memory whole
  | write cell content next ih => exact ih _ whole
  | add amount next ih => exact ih _ whole
  | acquire cell mode next ih | release cell next ih => exact ih memory whole
  | commit next => exact ⟨whole.1.bind (settled _),whole.2⟩

/-- A program and what it carries out, within so many sections: each section has the effect of
the next action, or none. The memory is a view of what the actions are about. -/
def Carries (view : Memory → Sections.Memory Cell Content Count) (cell : Cell) :
    Nat → Code Cell Content Count Result → Script Memory Result → Prop
  | 0, code, script => ∃ result, script = .done result ∧ Settled result code
  | depth+1, code, script => (script.reserves = true → Retains cell code) ∧
      ((∃ result, script = .done result ∧ Settled result code) ∨ ∀ memory,
        (finish code (view memory)).2 = view memory ∧ Carries view cell depth (finish code (view memory)).1 script ∨
          ∃ (Answer : Type) (reserves : Bool) (action : Memory → Answer × Memory) (next : Answer → Script Memory Result),
            script = .act reserves action next ∧ (finish code (view memory)).2 = view (action memory).2 ∧
              Carries view cell depth (finish code (view memory)).1 (next (action memory).1))

variable {view : Memory → Sections.Memory Cell Content Count} {cell : Cell}

section carried
variable {code : Code Cell Content Count Result} {script : Script Memory Result} {depth : Nat} {result : Result}

theorem carries_settled (settled : Settled result code) (depth : Nat) : Carries view cell depth code (.done result) := by
  cases depth with
  | zero => exact ⟨result,rfl,settled⟩
  | succ depth => exact ⟨nofun,.inl ⟨result,rfl,settled⟩⟩

theorem carries_done (result : Result) (depth : Nat) :
    Carries view cell depth (.done result : Code Cell Content Count Result) (.done result) :=
  carries_settled (show Settled result (.done result) from rfl) depth

theorem Single.carries {action : Memory → Result × Memory} (single : Single code)
    (alone : ∀ memory, code.run (view memory) = ((action memory).1,view (action memory).2)) {reserves : Bool}
    (retains : reserves = true → Retains cell code) : Carries view cell 1 code (.act reserves action .done) := by
  refine ⟨retains,.inr fun memory => .inr ⟨Result,reserves,action,.done,rfl,?_⟩⟩
  obtain ⟨settled,same⟩ := single (view memory)
  rw [alone] at settled same
  exact ⟨same,carries_settled settled 0⟩

theorem Carries.retains (carries : Carries view cell depth code script) (reserves : script.reserves = true) :
    Retains cell code := by
  cases depth with
  | zero =>
    obtain ⟨result,rfl,_⟩ := carries
    cases reserves
  | succ depth => exact carries.1 reserves

theorem Carries.release (carries : Carries view cell depth code script) {other : Cell} (different : other ≠ cell) :
    Carries view cell depth (.release other code) script := by
  cases depth with
  | zero => exact carries
  | succ depth => exact ⟨fun reserves => ⟨different,carries.1 reserves⟩,carries.2⟩

theorem finish_map (code : Code Cell Content Count Result) (change : Result → Other)
    (memory : Sections.Memory Cell Content Count) : finish (code >>= fun result => pure (change result)) memory =
      ((finish code memory).1 >>= fun result => pure (change result),(finish code memory).2) := by
  change finish (code.bind fun result => .done (change result)) memory = _
  induction code generalizing memory with
  | done result => rfl
  | read cell next ih => exact ih _ memory
  | write cell content next ih => exact ih _
  | add amount next ih => exact ih _
  | acquire cell mode next ih | release cell next ih => exact ih memory
  | commit next => rfl

theorem Script.reserves_map (script : Script Memory Result) (change : Result → Other) :
    (script.map change).reserves = script.reserves := by
  cases script <;> rfl

theorem Carries.map (carries : Carries view cell depth code script) (change : Result → Other) :
    Carries view cell depth (code >>= fun result => pure (change result)) (script.map change) := by
  have settles : ∀ {code : Code Cell Content Count Result} {result}, Settled result code → ∀ depth,
      Carries view cell depth (code >>= fun result => pure (change result)) (.done (change result)) :=
    fun {_ result} settled depth =>
      carries_settled (settled.bind (show Settled (change result) (.done (change result)) from rfl)) depth
  induction depth generalizing code script with
  | zero =>
    obtain ⟨result,rfl,settled⟩ := carries
    exact settles settled 0
  | succ depth ih =>
    obtain ⟨retains,⟨result,rfl,settled⟩ | carries⟩ := carries
    · exact settles settled _
    · refine ⟨fun reserves => ?_,.inr fun memory => ?_⟩
      · rw [Script.reserves_map] at reserves
        exact (retains reserves).bind
      · rw [finish_map]
        rcases carries memory with ⟨same,later⟩ | ⟨Answer,reserves,action,next,rfl,same,later⟩
        · exact .inl ⟨same,ih later⟩
        · exact .inr ⟨Answer,reserves,action,fun answer => (next answer).map change,rfl,same,ih later⟩

end carried

/-- How far a call has come, in its program and in the object. -/
inductive Tracked (view : Memory → Sections.Memory Cell Content Count) (cell : Cell) :
    Option (Operation × Code Cell Content Count Result) → Option (Operation × Script Memory Result) → Prop
  | idle : Tracked view cell none none
  | called {operation : Operation} {code : Code Cell Content Count Result} {script : Script Memory Result} {depth : Nat}
      (carries : Carries view cell depth code script) : Tracked view cell (some (operation,code)) (some (operation,script))

structure Tracks (view : Memory → Sections.Memory Cell Content Count) (cell : Cell)
    (serial : Serial Thread Operation Cell Content Count Result) (object : Object Thread Operation Memory Result) :
    Prop where
  memory : serial.memory = view object.memory
  calls : ∀ thread, Tracked view cell (serial.calls thread) (object.calls thread)

/-- The object shows the cell as reserved. -/
abbrev shown (view : Memory → Sections.Memory Cell Content Count) (cell : Cell) (memory : Memory) : Content cell :=
  (view memory).cells cell

variable {implement : Operation → Code Cell Content Count Result}
variable {script : Operation → Script Memory Result} {serial next : Serial Thread Operation Cell Content Count Result}
variable {object after : Object Thread Operation Memory Result} {thread : Thread} {operation : Operation}

theorem Tracks.called {code : Code Cell Content Count Result} (tracks : Tracks view cell serial object)
    (ahead : serial.calls thread = some (operation,code)) :
    ∃ rest depth, object.calls thread = some (operation,rest) ∧ Carries view cell depth code rest := by
  have here := tracks.calls thread
  rw [ahead] at here
  generalize found : object.calls thread = call at here
  cases here with
  | called carries => exact ⟨_,_,rfl,carries⟩

/-- A section that leaves retained locks alone leaves reserved parts alone. -/
theorem Tracks.apart {code : Code Cell Content Count Result} {memory : Memory} (tracks : Tracks view cell serial object)
    (apart : serial.Apart cell thread code) (same : (finish code serial.memory).2 = view memory) :
    object.Apart (shown view cell) thread memory := by
  intro other performed rest different found reserves
  have here := tracks.calls other
  rw [found] at here
  generalize began : serial.calls other = call at here
  cases here with
  | called carries =>
    have kept := apart other performed _ different began (carries.retains reserves)
    rw [same,tracks.memory] at kept
    exact kept

variable [DecidableEq Thread]

theorem Tracks.go {call : Option (Operation × Code Cell Content Count Result)} {memory : Sections.Memory Cell Content Count}
    (tracks : Tracks view cell serial object) (same : memory = view after.memory)
    (own : Tracked view cell call (after.calls thread))
    (others : ∀ other, other ≠ thread → after.calls other = object.calls other) :
    Tracks view cell (serial.go thread call memory) after := by
  refine ⟨same,fun other => ?_⟩
  by_cases mine : other = thread
  · subst mine
    simpa [Serial.go] using own
  · simpa [Serial.go,mine,others other mine] using tracks.calls other

/-- Every section has the effect of the next action, or none. -/
theorem Tracks.whole {code : Code Cell Content Count Result} (tracks : Tracks view cell serial object)
    (ahead : serial.calls thread = some (operation,code)) (apart : serial.Apart cell thread code) :
    ∃ after, Object.Further script (shown view cell) object after ∧ Tracks view cell
      (serial.go thread (some (operation,(finish code serial.memory).1)) (finish code serial.memory).2) after := by
  obtain ⟨rest,depth,found,carries⟩ := tracks.called ahead
  have unchanged : ∀ {depth}, (finish code serial.memory).2 = view object.memory →
      Carries view cell depth (finish code serial.memory).1 rest → ∃ after, Object.Further script (shown view cell) object after ∧
        Tracks view cell (serial.go thread (some (operation,(finish code serial.memory).1)) (finish code serial.memory).2)
          after := by
    intro depth same later
    refine ⟨object,.inl rfl,tracks.go same ?_ fun _ _ => rfl⟩
    rw [found]
    exact .called later
  have settles : ∀ {result}, rest = .done result → Settled result code →
      ∃ after, Object.Further script (shown view cell) object after ∧ Tracks view cell
        (serial.go thread (some (operation,(finish code serial.memory).1)) (finish code serial.memory).2) after := by
    intro result done settled
    obtain ⟨same,still⟩ := settled.finish serial.memory
    exact unchanged (same.trans tracks.memory) (done ▸ carries_settled still 0)
  cases depth with
  | zero =>
    obtain ⟨result,done,settled⟩ := carries
    exact settles done settled
  | succ depth =>
    obtain ⟨_,⟨result,done,settled⟩ | carries⟩ := carries
    · exact settles done settled
    · rcases carries object.memory with ⟨same,later⟩ | ⟨Answer,reserves,action,next,rfl,same,later⟩
      · rw [← tracks.memory] at same later
        exact unchanged (same.trans tracks.memory) later
      · have done : (finish code serial.memory).2 = view (action object.memory).2 := by rw [tracks.memory]; exact same
        refine ⟨_,.inr (.point found (tracks.apart apart done)),tracks.go done ?_ fun other different => ?_⟩
        · change Tracked view cell _ (Function.update object.calls thread _ thread)
          rw [Function.update_self,tracks.memory]
          exact .called later
        · exact Function.update_of_ne different ..

/-- A program that has ended has carried out everything but actions without effect. -/
theorem Carries.ended {result : Result} {depth : Nat} {rest : Script Memory Result}
    (carries : Carries view cell depth (.done result) rest) (found : object.calls thread = some (operation,rest)) :
    ∃ after, Run (Object.Step script (shown view cell)) object [] after ∧
      after.calls thread = some (operation,.done result) ∧
      view after.memory = view object.memory ∧ ∀ other, other ≠ thread → after.calls other = object.calls other := by
  have settles : ∀ {found : Result}, rest = .done found → Settled found (.done result : Code Cell Content Count Result) →
      rest = .done result := by
    rintro found rfl settled
    cases settled
    rfl
  induction depth generalizing rest object with
  | zero =>
    obtain ⟨other,done,settled⟩ := carries
    exact ⟨object,.rest object,settles done settled ▸ found,rfl,fun _ _ => rfl⟩
  | succ depth ih =>
    obtain ⟨_,⟨other,done,settled⟩ | carries⟩ := carries
    · exact ⟨object,.rest object,settles done settled ▸ found,rfl,fun _ _ => rfl⟩
    · rcases carries object.memory with ⟨_,later⟩ | ⟨Answer,reserves,action,next,rfl,same,later⟩
      · exact ih later found settles
      · have acted : (object.act thread operation (action object.memory).2 (next (action object.memory).1)).calls thread =
            some (operation,next (action object.memory).1) := Function.update_self ..
        obtain ⟨after,run,ended,kept,others⟩ := ih later acted (by
          rintro found done settled
          rw [done]
          cases settled
          rfl)
        have apart : object.Apart (shown view cell) thread (action object.memory).2 :=
          fun _ _ _ _ _ _ => congrArg (Sections.Memory.cells · cell) same.symm
        refine ⟨after,.go (.point found apart) run,ended,kept.trans same.symm,fun other different => ?_⟩
        exact (others other different).trans (Function.update_of_ne different ..)

theorem Tracks.step (carries : ∀ operation, ∃ depth, Carries view cell depth (implement operation) (script operation))
    {event : Option (Event Thread Operation Result)} (step : Serial.Step implement serial event next)
    (tracks : Tracks view cell serial object) :
    ∃ after, Run (Object.Step script (shown view cell)) object event.toList after ∧ Tracks view cell next after := by
  cases step with
  | @call thread operation idle =>
    have here := tracks.calls thread
    rw [idle] at here
    cases found : object.calls thread with
    | some call =>
      rw [found] at here
      cases here
    | none =>
      obtain ⟨depth,carries⟩ := carries operation
      refine ⟨_,.single (.call found),tracks.go tracks.memory ?_ fun other different => Function.update_of_ne different ..⟩
      change Tracked view cell _ (Function.update object.calls thread _ thread)
      rw [Function.update_self]
      exact .called carries
  | whole ahead apart =>
    obtain ⟨after,further,tracks⟩ := tracks.whole ahead (apart cell)
    exact ⟨after,further.run,tracks⟩
  | @ret thread operation result ahead =>
    obtain ⟨rest,depth,found,carries⟩ := tracks.called ahead
    obtain ⟨after,run,ended,kept,others⟩ := carries.ended found
    have returned : Object.Step script (shown view cell) after (some (.ret thread operation result)) _ := .ret ended
    refine ⟨_,run.trans (.single returned),tracks.go (tracks.memory.trans kept.symm) ?_ fun other different => ?_⟩
    · change Tracked view cell _ (Function.update after.calls thread none thread)
      rw [Function.update_self]
      exact .idle
    · exact (Function.update_of_ne different ..).trans (others other different)

/-- Programs that keep their locks to the end of their sections and carry out scripts behave
as the object. -/
theorem run_scripted [Fintype Thread] {rank : Cell → Nat} (wellLocked : ∀ operation, WellLocked rank (implement operation))
    (carries : ∀ operation, ∃ depth, Carries view cell depth (implement operation) (script operation)) {memory : Memory}
    {history : List (Event Thread Operation Result)} {state : State Thread Operation Cell Content Count Result}
    (run : Run (Sections.Step implement) (.start (view memory)) history state) :
    ∃ object serial, Run (Object.Step script (shown view cell)) (.start memory) history object ∧ Matches rank state serial ∧
      Tracks view cell serial object := by
  obtain ⟨serial,atomic,related⟩ := run_serial wellLocked run
  have begun : Tracks view cell (Serial.start (view memory) : Serial Thread Operation Cell Content Count Result)
      (.start memory) := ⟨rfl,fun _ => .idle⟩
  obtain ⟨object,shown,tracks⟩ := atomic.simulated (fun _ _ _ _ step tracks => Tracks.step carries step tracks) begun
  exact ⟨object,serial,shown,related,tracks⟩

end programs

end Linearization
