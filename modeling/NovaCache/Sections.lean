import NovaCache.LockOrder
import NovaCache.Simulation
import NovaCache.Tally

/-! Programs that lock the cells they touch. A program marks by `commit` where a section of its
accesses ends and gives no lock back before that which the section needed; then the sections of
all threads can be thought of as done at once, one after the other, at their commits. Besides
the cells there are counters, which programs add to without a lock and never read. -/
namespace Sections
open LockOrder (Mode)

inductive Code (Cell : Type) (Content : Cell → Type) (Count Result : Type)
  | done (result : Result)
  | acquire (cell : Cell) (mode : Mode) (next : Code Cell Content Count Result)
  | release (cell : Cell) (next : Code Cell Content Count Result)
  | read (cell : Cell) (next : Content cell → Code Cell Content Count Result)
  | write (cell : Cell) (content : Content cell) (next : Code Cell Content Count Result)
  | add (amount : Count) (next : Code Cell Content Count Result)
  | commit (next : Code Cell Content Count Result)

variable {Cell : Type} {Content : Cell → Type} {Count Result Other Thread Operation : Type}

namespace Code

def bind : Code Cell Content Count Result → (Result → Code Cell Content Count Other) → Code Cell Content Count Other
  | .done result, rest => rest result
  | .acquire cell mode next, rest => .acquire cell mode (next.bind rest)
  | .release cell next, rest => .release cell (next.bind rest)
  | .read cell next, rest => .read cell fun content => (next content).bind rest
  | .write cell content next, rest => .write cell content (next.bind rest)
  | .add amount next, rest => .add amount (next.bind rest)
  | .commit next, rest => .commit (next.bind rest)

instance : Monad (Code Cell Content Count) where
  pure := .done
  bind := bind

theorem bind_assoc {Last : Type} (code : Code Cell Content Count Result) (next : Result → Code Cell Content Count Other)
    (rest : Other → Code Cell Content Count Last) :
    (code >>= next) >>= rest = code >>= fun result => next result >>= rest := by
  change (code.bind next).bind rest = code.bind fun result => (next result).bind rest
  induction code with
  | done result => rfl
  | acquire cell mode next ih => exact congrArg (Code.acquire cell mode) ih
  | release cell next ih => exact congrArg (Code.release cell) ih
  | read cell next ih => exact congrArg (Code.read cell) (funext ih)
  | write cell content next ih => exact congrArg (Code.write cell content) ih
  | add amount next ih => exact congrArg (Code.add amount) ih
  | commit next ih => exact congrArg Code.commit ih

end Code

/-- The cells and the counters. -/
@[ext] structure Memory (Cell : Type) (Content : Cell → Type) (Count : Type) where
  cells : ∀ cell, Content cell
  total : Count

/-- What a program holds, and what it has touched since its last commit. -/
@[ext] structure Grip (Cell : Type) where
  held : Cell → Option Mode
  touched : Set Cell
  counted : Bool

namespace Grip

def free : Grip Cell := ⟨fun _ => none,∅,false⟩

def hold [DecidableEq Cell] (grip : Grip Cell) (cell : Cell) (mode : Option Mode) : Grip Cell :=
  {grip with held := Function.update grip.held cell mode}

def touch (grip : Grip Cell) (cell : Cell) : Grip Cell := {grip with touched := insert cell grip.touched}

def count (grip : Grip Cell) : Grip Cell := {grip with counted := true}

def clear (grip : Grip Cell) : Grip Cell := ⟨grip.held,∅,false⟩

/-- Only what is held has been touched. -/
def Within (grip : Grip Cell) : Prop := ∀ cell ∈ grip.touched, grip.held cell ≠ none

theorem within_touch {grip : Grip Cell} {cell : Cell} (within : grip.Within) (holds : grip.held cell ≠ none) :
    (grip.touch cell).Within := by
  rintro other (rfl | member)
  · exact holds
  · exact within other member

theorem within_hold [DecidableEq Cell] {grip : Grip Cell} {cell : Cell} {mode : Option Mode} (within : grip.Within)
    (outside : cell ∉ grip.touched) : (grip.hold cell mode).Within := by
  intro other member
  have different : other ≠ cell := by
    rintro rfl
    exact outside member
  exact (Function.update_of_ne different ..).trans_ne (within other member)

end Grip

/-- The program has nothing but accesses, to cells that are held. -/
def Inside (held : Cell → Option Mode) : Code Cell Content Count Result → Prop
  | .done _ => True
  | .read cell next => held cell ≠ none ∧ ∀ content, Inside held (next content)
  | .write cell _ next => held cell = some .exclusive ∧ Inside held next
  | .add _ next => Inside held next
  | .acquire _ _ _ | .release _ _ | .commit _ => False

theorem Inside.bind {held : Cell → Option Mode} {code : Code Cell Content Count Result}
    {rest : Result → Code Cell Content Count Other} (inside : Inside held code)
    (continues : ∀ result, Inside held (rest result)) : Inside held (code >>= rest) := by
  change Inside held (code.bind rest)
  induction code with
  | done result => exact continues result
  | read cell next ih => exact ⟨inside.1,fun content => ih content (inside.2 content)⟩
  | write cell content next ih => exact ⟨inside.1,ih inside.2⟩
  | add amount next ih => exact ih inside
  | acquire | release | commit => exact inside.elim

/-- The program has no commit. -/
def Code.Plain : Code Cell Content Count Result → Prop
  | .done _ => True
  | .acquire _ _ next | .release _ next | .write _ _ next | .add _ next => next.Plain
  | .read _ next => ∀ content, (next content).Plain
  | .commit _ => False

theorem plain_bind {code : Code Cell Content Count Result} {rest : Result → Code Cell Content Count Other}
    (plain : code.Plain) (continues : ∀ result, (rest result).Plain) : (code >>= rest).Plain := by
  change (code.bind rest).Plain
  induction code with
  | done result => exact continues result
  | read cell next ih => exact fun content => ih content (plain content)
  | acquire cell mode next ih | release cell next ih | write cell content next ih | add amount next ih => exact ih plain
  | commit => exact plain.elim

theorem Inside.plain {held : Cell → Option Mode} {code : Code Cell Content Count Result} (inside : Inside held code) :
    code.Plain := by
  induction code with
  | done result => trivial
  | read cell next ih => exact fun content => ih content (inside.2 content)
  | write cell content next ih => exact ih inside.2
  | add amount next ih => exact ih inside
  | acquire | release | commit => exact inside.elim

/-- Every lock that is held is below this one. -/
def Above (rank : Cell → Nat) (held : Cell → Option Mode) (cell : Cell) : Prop :=
  ∀ other, held other ≠ none → rank other < rank cell

theorem Above.free {rank : Cell → Nat} {held : Cell → Option Mode} {cell : Cell} (above : Above rank held cell) :
    held cell = none := by
  by_contra holds
  exact Nat.lt_irrefl _ (above cell holds)

/-- The lock of the cell is given back at some time. -/
def Owes (cell : Cell) : Code Cell Content Count Result → Prop
  | .done _ => False
  | .acquire other _ next => other ≠ cell ∧ Owes cell next
  | .release other next => other = cell ∨ Owes cell next
  | .read _ next => ∀ content, Owes cell (next content)
  | .write _ _ next | .add _ next | .commit next => Owes cell next

/-- The lock of the cell is given back, but not before the next commit. -/
def Retains (cell : Cell) : Code Cell Content Count Result → Prop
  | .done _ => False
  | .acquire other _ next | .release other next => other ≠ cell ∧ Retains cell next
  | .read _ next => ∀ content, Retains cell (next content)
  | .write _ _ next | .add _ next => Retains cell next
  | .commit next => Owes cell next

section chained
variable {cell : Cell} {code : Code Cell Content Count Result} {rest : Result → Code Cell Content Count Other}

theorem Owes.bind (owes : Owes cell code) : Owes cell (code >>= rest) := by
  change Owes cell (code.bind rest)
  induction code with
  | done => exact owes.elim
  | acquire other mode next ih => exact ⟨owes.1,ih owes.2⟩
  | release other next ih => exact owes.imp_right ih
  | read other next ih => exact fun content => ih content (owes content)
  | write other content next ih => exact ih owes
  | add amount next ih | commit next ih => exact ih owes

theorem Retains.bind (retains : Retains cell code) :
    Retains cell (code >>= rest) := by
  change Retains cell (code.bind rest)
  induction code with
  | done => exact retains.elim
  | acquire other mode next ih => exact ⟨retains.1,ih retains.2⟩
  | release other next ih => exact ⟨retains.1,ih retains.2⟩
  | read other next ih => exact fun content => ih content (retains content)
  | write other content next ih => exact ih retains
  | add amount next ih => exact ih retains
  | commit next => exact Owes.bind retains

theorem Retains.owes (retains : Retains cell code) : Owes cell code := by
  induction code with
  | done => exact retains.elim
  | acquire other mode next ih => exact ⟨retains.1,ih retains.2⟩
  | release other next ih => exact .inr (ih retains.2)
  | read other next ih => exact fun content => ih content (retains content)
  | write other content next ih => exact ih retains
  | add amount next ih => exact ih retains
  | commit next => exact retains

theorem Inside.owes {held : Cell → Option Mode} (inside : Inside held code) (continues : ∀ result, Owes cell (rest result)) :
    Owes cell (code >>= rest) := by
  change Owes cell (code.bind rest)
  induction code with
  | done result => exact continues result
  | read other next ih => exact fun content => ih content (inside.2 content)
  | write other content next ih => exact ih inside.2
  | add amount next ih => exact ih inside
  | acquire | release | commit => exact inside.elim

theorem Inside.retains {held : Cell → Option Mode} (inside : Inside held code)
    (continues : ∀ result, Retains cell (rest result)) : Retains cell (code >>= rest) := by
  change Retains cell (code.bind rest)
  induction code with
  | done result => exact continues result
  | read other next ih => exact fun content => ih content (inside.2 content)
  | write other content next ih => exact ih inside.2
  | add amount next ih => exact ih inside
  | acquire | release | commit => exact inside.elim

end chained

section guards
variable [DecidableEq Cell] {rank : Cell → Nat}

/-- Cells are read under a lock and written under an exclusive one. Each lock is taken above
those that are held, and is not given back before the commit. -/
def Guarded (rank : Cell → Nat) (finish : Result → Grip Cell → Prop) : Grip Cell → Code Cell Content Count Result → Prop
  | grip, .done result => finish result grip
  | grip, .acquire cell mode next => Above rank grip.held cell ∧ Guarded rank finish (grip.hold cell (some mode)) next
  | grip, .release cell next =>
    grip.held cell ≠ none ∧ cell ∉ grip.touched ∧ Guarded rank finish (grip.hold cell none) next
  | grip, .read cell next => grip.held cell ≠ none ∧ ∀ content, Guarded rank finish (grip.touch cell) (next content)
  | grip, .write cell _ next => grip.held cell = some .exclusive ∧ Guarded rank finish (grip.touch cell) next
  | grip, .add _ next => Guarded rank finish grip.count next
  | grip, .commit next => Guarded rank finish grip.clear next

theorem guarded_bind {finish : Other → Grip Cell → Prop} {code : Code Cell Content Count Result}
    {rest : Result → Code Cell Content Count Other} {grip : Grip Cell}
    (guarded : Guarded rank (fun result grip => Guarded rank finish grip (rest result)) grip code) :
    Guarded rank finish grip (code >>= rest) := by
  change Guarded rank finish grip (code.bind rest)
  induction code generalizing grip with
  | done result => exact guarded
  | acquire cell mode next ih => exact ⟨guarded.1,ih guarded.2⟩
  | release cell next ih => exact ⟨guarded.1,guarded.2.1,ih guarded.2.2⟩
  | read cell next ih => exact ⟨guarded.1,fun content => ih content (guarded.2 content)⟩
  | write cell content next ih => exact ⟨guarded.1,ih guarded.2⟩
  | add amount next ih => exact ih guarded
  | commit next ih => exact ih guarded

theorem Guarded.mono {finish ending : Result → Grip Cell → Prop} {code : Code Cell Content Count Result} {grip : Grip Cell}
    (guarded : Guarded rank finish grip code) (weaker : ∀ result grip, finish result grip → ending result grip) :
    Guarded rank ending grip code := by
  induction code generalizing grip with
  | done result => exact weaker result grip guarded
  | acquire cell mode next ih => exact ⟨guarded.1,ih guarded.2⟩
  | release cell next ih => exact ⟨guarded.1,guarded.2.1,ih guarded.2.2⟩
  | read cell next ih => exact ⟨guarded.1,fun content => ih content (guarded.2 content)⟩
  | write cell content next ih => exact ⟨guarded.1,ih guarded.2⟩
  | add amount next ih => exact ih guarded
  | commit next ih => exact ih guarded

/-- Behind such a program the locks are as before, whatever else is held. -/
theorem Inside.guarded {finish : Result → Grip Cell → Prop} {code : Code Cell Content Count Result}
    {held : Cell → Option Mode} {grip : Grip Cell} (inside : Inside held code)
    (holds : ∀ cell, held cell ≠ none → grip.held cell = held cell) (within : ∀ cell ∈ grip.touched, held cell ≠ none)
    (continues : ∀ result after, after.held = grip.held → (∀ cell ∈ after.touched, held cell ≠ none) → finish result after) :
    Guarded rank finish grip code := by
  have grown : ∀ {grip : Grip Cell} {cell : Cell}, (∀ cell ∈ grip.touched, held cell ≠ none) → held cell ≠ none →
      ∀ other ∈ (grip.touch cell).touched, held other ≠ none := by
    rintro grip cell within here other (rfl | member)
    · exact here
    · exact within other member
  induction code generalizing grip with
  | done result => exact continues result grip rfl within
  | read cell next ih =>
    refine ⟨(holds cell inside.1).trans_ne inside.1,fun content => ?_⟩
    exact ih content (inside.2 content) holds (grown within inside.1) continues
  | write cell content next ih =>
    have here : held cell ≠ none := inside.1.trans_ne nofun
    exact ⟨(holds cell here).trans inside.1,ih inside.2 holds (grown within here) continues⟩
  | add amount next ih => exact ih inside holds within continues
  | acquire | release | commit => exact inside.elim

/-- In the end the same locks are held. -/
def Keeps (rank : Cell → Nat) (held : Cell → Option Mode) (code : Code Cell Content Count Result) : Prop :=
  ∀ grip, grip.held = held → grip.Within → Guarded rank (fun _ after => after.held = held ∧ after.Within) grip code

/-- In the end the same locks are held, and nothing is uncommitted. -/
def Closes (rank : Cell → Nat) (held : Cell → Option Mode) (code : Code Cell Content Count Result) : Prop :=
  ∀ grip, grip.held = held → grip.Within → Guarded rank (fun _ after => after = ⟨held,∅,false⟩) grip code

/-- The same for a program that begins with nothing uncommitted. -/
def Tidy (rank : Cell → Nat) (held : Cell → Option Mode) (code : Code Cell Content Count Result) : Prop :=
  Guarded rank (fun _ after => after = ⟨held,∅,false⟩) ⟨held,∅,false⟩ code

section composition
variable {held : Cell → Option Mode} {code : Code Cell Content Count Result} {rest : Result → Code Cell Content Count Other}

theorem keeps_pure (result : Result) : Keeps rank held (pure result : Code Cell Content Count Result) :=
  fun _ same within => ⟨same,within⟩

theorem tidy_pure (result : Result) : Tidy rank held (pure result : Code Cell Content Count Result) := rfl

theorem Keeps.bind (first : Keeps rank held code) (second : ∀ result, Keeps rank held (rest result)) : Keeps rank held (code >>= rest) := by
  intro grip same within
  exact guarded_bind ((first grip same within).mono fun result after kept => second result after kept.1 kept.2)

theorem Closes.bind (first : Closes rank held code) (second : ∀ result, Tidy rank held (rest result)) : Closes rank held (code >>= rest) := by
  intro grip same within
  refine guarded_bind ((first grip same within).mono fun result after closed => ?_)
  subst closed
  exact second result

theorem Tidy.bind (first : Tidy rank held code) (second : ∀ result, Tidy rank held (rest result)) : Tidy rank held (code >>= rest) := by
  refine guarded_bind (first.mono fun result after closed => ?_)
  subst closed
  exact second result

theorem Inside.keeps (inside : Inside held code) : Keeps rank held code := by
  intro grip same within
  subst same
  refine inside.guarded (fun _ _ => rfl) within fun _ after kept within => ⟨kept,?_⟩
  unfold Grip.Within
  rw [kept]
  exact within

theorem Closes.keeps (closes : Closes rank held code) : Keeps rank held code := by
  intro grip same within
  refine (closes grip same within).mono fun _ after closed => ?_
  subst closed
  exact ⟨rfl,nofun⟩

theorem Closes.tidy (closes : Closes rank held code) : Tidy rank held code := closes _ rfl nofun

end composition

/-- A whole program ends with nothing held and nothing uncommitted. -/
def WellLocked (rank : Cell → Nat) (code : Code Cell Content Count Result) : Prop := Tidy rank (fun _ => none) code

section retained
variable {cell : Cell} {code : Code Cell Content Count Result} {grip : Grip Cell} {finish : Result → Grip Cell → Prop}

theorem Grip.held_hold {other : Cell} (different : other ≠ cell) (mode : Option Mode) :
    (grip.hold other mode).held cell = grip.held cell := Function.update_of_ne different.symm ..

/-- A lock that is given back is held. -/
theorem Owes.held (owes : Owes cell code) (guarded : Guarded rank finish grip code) (memory : Memory Cell Content Count) :
    grip.held cell ≠ none := by
  induction code generalizing grip with
  | done => exact owes.elim
  | acquire other mode next ih =>
    rw [← grip.held_hold owes.1 (some mode)]
    exact ih owes.2 guarded.2
  | release other next ih =>
    by_cases same : other = cell
    · subst same
      exact guarded.1
    · rw [← grip.held_hold same none]
      exact ih (owes.resolve_left same) guarded.2.2
  | read other next ih =>
    have behind := ih (memory.cells other) (owes _) (guarded.2 (memory.cells other))
    exact behind
  | write other content next ih =>
    have behind := ih owes guarded.2
    exact behind
  | add amount next ih | commit next ih =>
    have behind := ih owes guarded
    exact behind

theorem Retains.held (retains : Retains cell code) (guarded : Guarded rank finish grip code)
    (memory : Memory Cell Content Count) : grip.held cell ≠ none := by
  induction code generalizing grip with
  | done => exact retains.elim
  | acquire other mode next ih =>
    rw [← grip.held_hold retains.1 (some mode)]
    exact ih retains.2 guarded.2
  | release other next ih =>
    rw [← grip.held_hold retains.1 none]
    exact ih retains.2 guarded.2.2
  | read other next ih =>
    have behind := ih (memory.cells other) (retains _) (guarded.2 (memory.cells other))
    exact behind
  | write other content next ih =>
    have behind := ih retains guarded.2
    exact behind
  | add amount next ih =>
    have behind := ih retains guarded
    exact behind
  | commit next =>
    have behind := Owes.held retains guarded memory
    exact behind

end retained

end guards

section execution
variable [DecidableEq Cell] [AddCommMonoid Count]

namespace Memory

def store (memory : Memory Cell Content Count) (cell : Cell) (content : Content cell) : Memory Cell Content Count :=
  {memory with cells := Function.update memory.cells cell content}

def add (memory : Memory Cell Content Count) (amount : Count) : Memory Cell Content Count :=
  {memory with total := memory.total + amount}

end Memory

/-- One instruction of a program that is alone, short of a commit. -/
def perform : Code Cell Content Count Result × Memory Cell Content Count →
    Code Cell Content Count Result × Memory Cell Content Count
  | (.acquire _ _ next,memory) => (next,memory)
  | (.release _ next,memory) => (next,memory)
  | (.read cell next,memory) => (next (memory.cells cell),memory)
  | (.write cell content next,memory) => (next,memory.store cell content)
  | (.add amount next,memory) => (next,memory.add amount)
  | (.done result,memory) => (.done result,memory)
  | (.commit next,memory) => (.commit next,memory)

/-- The rest of a section at once. -/
def finish : Code Cell Content Count Result → Memory Cell Content Count →
    Code Cell Content Count Result × Memory Cell Content Count
  | .done result, memory => (.done result,memory)
  | .acquire _ _ next, memory => finish next memory
  | .release _ next, memory => finish next memory
  | .read cell next, memory => finish (next (memory.cells cell)) memory
  | .write cell content next, memory => finish next (memory.store cell content)
  | .add amount next, memory => finish next (memory.add amount)
  | .commit next, memory => (next,memory)

theorem finish_perform (code : Code Cell Content Count Result) (memory : Memory Cell Content Count) :
    finish (perform (code,memory)).1 (perform (code,memory)).2 = finish code memory := by
  cases code <;> rfl

theorem finish_iterate (count : Nat) (code : Code Cell Content Count Result) (memory : Memory Cell Content Count) :
    finish (perform^[count] (code,memory)).1 (perform^[count] (code,memory)).2 = finish code memory := by
  induction count with
  | zero => rfl
  | succ count ih =>
    rw [Function.iterate_succ_apply']
    exact (finish_perform _ _).trans ih

theorem Retains.iterate {cell : Cell} {code : Code Cell Content Count Result} (retains : Retains cell code)
    (memory : Memory Cell Content Count) (count : Nat) : Retains cell (perform^[count] (code,memory)).1 := by
  have one : ∀ before : Code Cell Content Count Result × Memory Cell Content Count, Retains cell before.1 →
      Retains cell (perform before).1 := by
    rintro ⟨code,memory⟩ retains
    cases code with
    | done | commit => exact retains
    | acquire | release => exact retains.2
    | read other next => exact retains _
    | write | add => exact retains
  induction count with
  | zero => exact retains
  | succ count ih =>
    rw [Function.iterate_succ_apply']
    exact one _ ih

/-- The whole program alone. -/
def Code.run : Code Cell Content Count Result → Memory Cell Content Count → Result × Memory Cell Content Count
  | .done result, memory => (result,memory)
  | .acquire _ _ next, memory => next.run memory
  | .release _ next, memory => next.run memory
  | .read cell next, memory => (next (memory.cells cell)).run memory
  | .write cell content next, memory => next.run (memory.store cell content)
  | .add amount next, memory => next.run (memory.add amount)
  | .commit next, memory => next.run memory

theorem run_bind (code : Code Cell Content Count Result) (rest : Result → Code Cell Content Count Other)
    (memory : Memory Cell Content Count) :
    (code >>= rest).run memory = (rest (code.run memory).1).run (code.run memory).2 := by
  change (code.bind rest).run memory = _
  induction code generalizing memory with
  | done result => rfl
  | read cell next ih => exact ih _ memory
  | write cell content next ih => exact ih _
  | add amount next ih => exact ih _
  | acquire cell mode next ih | release cell next ih | commit next ih => exact ih memory

/-- A section goes on behind such a program. -/
theorem finish_bind {code : Code Cell Content Count Result} (plain : code.Plain)
    (rest : Result → Code Cell Content Count Other) (memory : Memory Cell Content Count) :
    finish (code >>= rest) memory = finish (rest (code.run memory).1) (code.run memory).2 := by
  change finish (code.bind rest) memory = _
  induction code generalizing memory with
  | done result => rfl
  | read cell next ih => exact ih _ (plain _) memory
  | write cell content next ih => exact ih plain _
  | add amount next ih => exact ih plain _
  | acquire cell mode next ih | release cell next ih => exact ih plain memory
  | commit => exact plain.elim

end execution

/-! Threads that call operations, which are carried out by such programs. -/

inductive Event (Thread Operation Result : Type)
  | call (thread : Thread) (operation : Operation)
  | ret (thread : Thread) (operation : Operation) (result : Result)

/-- The calls under way with what is left of their programs, and the locks. -/
structure State (Thread Operation Cell : Type) (Content : Cell → Type) (Count Result : Type) where
  memory : Memory Cell Content Count
  calls : Thread → Option (Operation × Code Cell Content Count Result)
  held : Thread → Cell → Option Mode

/-- The calls under way, whose sections are done at once. -/
structure Serial (Thread Operation Cell : Type) (Content : Cell → Type) (Count Result : Type) where
  memory : Memory Cell Content Count
  calls : Thread → Option (Operation × Code Cell Content Count Result)

def State.start (memory : Memory Cell Content Count) : State Thread Operation Cell Content Count Result :=
  ⟨memory,fun _ => none,fun _ _ => none⟩

def Serial.start (memory : Memory Cell Content Count) : Serial Thread Operation Cell Content Count Result :=
  ⟨memory,fun _ => none⟩

def State.Quiet (state : State Thread Operation Cell Content Count Result) : Prop := ∀ thread, state.calls thread = none

/-- Nobody holds the lock, or it is asked for and held in shared mode only. -/
def Free (state : State Thread Operation Cell Content Count Result) (cell : Cell) (mode : Mode) : Prop :=
  ∀ thread holding, state.held thread cell = some holding → holding = .shared ∧ mode = .shared

section steps
variable [DecidableEq Thread] [DecidableEq Cell] [AddCommMonoid Count]
variable {implement : Operation → Code Cell Content Count Result}

def State.go (state : State Thread Operation Cell Content Count Result) (thread : Thread) (operation : Operation)
    (next : Code Cell Content Count Result) (memory : Memory Cell Content Count) (held : Cell → Option Mode) :
    State Thread Operation Cell Content Count Result :=
  ⟨memory,Function.update state.calls thread (some (operation,next)),Function.update state.held thread held⟩

def State.with (state : State Thread Operation Cell Content Count Result) (thread : Thread)
    (call : Option (Operation × Code Cell Content Count Result)) : State Thread Operation Cell Content Count Result :=
  {state with calls := Function.update state.calls thread call}

def Serial.go (serial : Serial Thread Operation Cell Content Count Result) (thread : Thread)
    (call : Option (Operation × Code Cell Content Count Result)) (memory : Memory Cell Content Count) :
    Serial Thread Operation Cell Content Count Result :=
  ⟨memory,Function.update serial.calls thread call⟩

inductive Step (implement : Operation → Code Cell Content Count Result) :
    State Thread Operation Cell Content Count Result → Option (Event Thread Operation Result) →
      State Thread Operation Cell Content Count Result → Prop
  | call {state thread operation} (idle : state.calls thread = none) :
      Step implement state (some (.call thread operation)) (state.with thread (some (operation,implement operation)))
  | ret {state thread operation result} (ahead : state.calls thread = some (operation,.done result)) :
      Step implement state (some (.ret thread operation result)) (state.with thread none)
  | acquire {state thread operation cell mode next} (ahead : state.calls thread = some (operation,.acquire cell mode next))
      (free : Free state cell mode) :
      Step implement state none
        (state.go thread operation next state.memory (Function.update (state.held thread) cell (some mode)))
  | release {state thread operation cell next} (ahead : state.calls thread = some (operation,.release cell next)) :
      Step implement state none
        (state.go thread operation next state.memory (Function.update (state.held thread) cell none))
  | read {state thread operation cell next} (ahead : state.calls thread = some (operation,.read cell next)) :
      Step implement state none
        (state.go thread operation (next (state.memory.cells cell)) state.memory (state.held thread))
  | write {state thread operation cell content next} (ahead : state.calls thread = some (operation,.write cell content next)) :
      Step implement state none (state.go thread operation next (state.memory.store cell content) (state.held thread))
  | add {state thread operation amount next} (ahead : state.calls thread = some (operation,.add amount next)) :
      Step implement state none (state.go thread operation next (state.memory.add amount) (state.held thread))
  | commit {state thread operation next} (ahead : state.calls thread = some (operation,.commit next)) :
      Step implement state none (state.go thread operation next state.memory (state.held thread))

instance [Fintype Thread] (state : State Thread Operation Cell Content Count Result) (cell : Cell) (mode : Mode) :
    Decidable (Free state cell mode) :=
  decidable_of_iff (∀ thread, state.held thread cell = none ∨ state.held thread cell = some .shared ∧ mode = .shared) <| by
    refine forall_congr' fun thread => ?_
    cases state.held thread cell <;> simp

/-- The state after the next instruction of a thread's program, when it can be done. -/
def State.advance [Fintype Thread] (state : State Thread Operation Cell Content Count Result) (thread : Thread) :
    Option (State Thread Operation Cell Content Count Result) :=
  match state.calls thread with
  | none => none
  | some (_,.done _) => none
  | some (operation,.acquire cell mode next) =>
    if Free state cell mode then
      some (state.go thread operation next state.memory (Function.update (state.held thread) cell (some mode)))
    else none
  | some (operation,.release cell next) =>
    some (state.go thread operation next state.memory (Function.update (state.held thread) cell none))
  | some (operation,.read cell next) =>
    some (state.go thread operation (next (state.memory.cells cell)) state.memory (state.held thread))
  | some (operation,.write cell content next) =>
    some (state.go thread operation next (state.memory.store cell content) (state.held thread))
  | some (operation,.add amount next) =>
    some (state.go thread operation next (state.memory.add amount) (state.held thread))
  | some (operation,.commit next) => some (state.go thread operation next state.memory (state.held thread))

/-- The steps that show nothing are the instructions that can be done. -/
theorem step_none_iff [Fintype Thread] {state next : State Thread Operation Cell Content Count Result} :
    Step implement state none next ↔ ∃ thread, state.advance thread = some next := by
  constructor
  · intro step
    generalize shown : (none : Option (Event Thread Operation Result)) = event at step
    cases step with
    | call | ret => cases shown
    | acquire ahead free => exact ⟨_,by rw [State.advance,ahead]; exact if_pos free⟩
    | release ahead | read ahead | write ahead | add ahead | commit ahead => exact ⟨_,by rw [State.advance,ahead]⟩
  · rintro ⟨thread,advanced⟩
    revert advanced
    fun_cases State.advance state thread with
    | case3 operation cell mode rest ahead free =>
      rintro ⟨⟩
      exact .acquire ahead free
    | case5 operation cell rest ahead =>
      rintro ⟨⟩
      exact .release ahead
    | case6 operation cell rest ahead =>
      rintro ⟨⟩
      exact .read ahead
    | case7 operation cell content rest ahead =>
      rintro ⟨⟩
      exact .write ahead
    | case8 operation amount rest ahead =>
      rintro ⟨⟩
      exact .add ahead
    | case9 operation rest ahead =>
      rintro ⟨⟩
      exact .commit ahead
    | case1 | case2 | case4 => exact nofun

theorem run_advances [Fintype Thread] {state middle last : State Thread Operation Cell Content Count Result}
    {history : List (Event Thread Operation Result)} (threads : List Thread)
    (advanced : threads.foldlM State.advance state = some middle)
    (further : Simulation.Run (Step implement) middle history last) : Simulation.Run (Step implement) state history last := by
  induction threads generalizing state with
  | nil =>
    cases advanced
    exact further
  | cons thread threads ih =>
    rw [List.foldlM_cons] at advanced
    obtain ⟨next,first,rest⟩ := Option.bind_eq_some_iff.1 advanced
    exact .go (step_none_iff.2 ⟨thread,first⟩) (ih rest)

section alone
variable {rank : Cell → Nat} {thread : Thread} {operation : Operation}
variable {state : State Thread Operation Cell Content Count Result}
variable {code next rest : Code Cell Content Count Result} {memory last : Memory Cell Content Count}
variable {held later : Cell → Option Mode}

/-- A thread's program is at this point, and nobody else holds a lock. -/
structure Alone (state : State Thread Operation Cell Content Count Result) (thread : Thread) (operation : Operation)
    (code : Code Cell Content Count Result) (held : Cell → Option Mode) : Prop where
  ahead : state.calls thread = some (operation,code)
  own : state.held thread = held
  others : ∀ other, other ≠ thread → state.held other = fun _ => none

omit [DecidableEq Cell] [AddCommMonoid Count] in
theorem Alone.go (alone : Alone state thread operation code held) :
    Alone (state.go thread operation next memory later) thread operation next later where
  ahead := Function.update_self ..
  own := Function.update_self ..
  others other different := (Function.update_of_ne different ..).trans (alone.others other different)

omit [DecidableEq Thread] [DecidableEq Cell] [AddCommMonoid Count] in
theorem Alone.free {cell : Cell} {mode : Mode} (alone : Alone state thread operation code held) (above : Above rank held cell) :
    Free state cell mode := by
  intro other holding holds
  by_cases mine : other = thread
  · rw [mine,alone.own,above.free] at holds
    cases holds
  · rw [alone.others other mine] at holds
    cases holds

/-- One instruction, and then others of the same thread. -/
theorem run_onward (step : Step implement state none (state.go thread operation next memory held))
    (further : Simulation.Run (Step implement) (state.go thread operation next memory held) []
      ((state.go thread operation next memory held).go thread operation rest last later)) :
    Simulation.Run (Step implement) state [] (state.go thread operation rest last later) := by
  simp only [State.go,Function.update_idem] at further
  exact .go step further

/-- Such a program runs to its end. -/
theorem Alone.run {finish : Result → Grip Cell → Prop} {grip : Grip Cell}
    (alone : Alone state thread operation code grip.held) (guarded : Guarded rank finish grip code) :
    ∃ after : Grip Cell, finish (code.run state.memory).1 after ∧ Simulation.Run (Step implement) state []
      (state.go thread operation (.done (code.run state.memory).1) (code.run state.memory).2 after.held) := by
  induction code generalizing state grip with
  | done result =>
    have same : state.go thread operation (.done result) state.memory grip.held = state := by
      rw [State.go,← alone.ahead,← alone.own,Function.update_eq_self,Function.update_eq_self]
    refine ⟨grip,guarded,?_⟩
    rw [Code.run,same]
    exact .rest state
  | acquire cell mode next ih =>
    obtain ⟨after,finished,run⟩ := ih alone.go guarded.2
    refine ⟨after,finished,run_onward ?_ run⟩
    have step := @Step.acquire _ _ _ _ _ _ _ _ _ implement _ _ _ _ _ _ alone.ahead (alone.free guarded.1)
    rwa [alone.own] at step
  | release cell next ih =>
    obtain ⟨after,finished,run⟩ := ih alone.go guarded.2.2
    refine ⟨after,finished,run_onward ?_ run⟩
    rw [Grip.hold,← alone.own]
    exact .release alone.ahead
  | read cell next ih =>
    obtain ⟨after,finished,run⟩ := ih _ alone.go (guarded.2 _)
    refine ⟨after,finished,run_onward ?_ run⟩
    rw [Grip.touch,← alone.own]
    exact .read alone.ahead
  | write cell content next ih =>
    obtain ⟨after,finished,run⟩ := ih alone.go guarded.2
    refine ⟨after,finished,run_onward ?_ run⟩
    rw [Grip.touch,← alone.own]
    exact .write alone.ahead
  | add amount next ih =>
    obtain ⟨after,finished,run⟩ := ih alone.go guarded
    refine ⟨after,finished,run_onward ?_ run⟩
    rw [Grip.count,← alone.own]
    exact .add alone.ahead
  | commit next ih =>
    obtain ⟨after,finished,run⟩ := ih alone.go guarded
    refine ⟨after,finished,run_onward ?_ run⟩
    rw [Grip.clear,← alone.own]
    exact .commit alone.ahead

/-- A call that has not begun is performed while nobody holds a lock. -/
theorem run_performed (wellLocked : WellLocked rank (implement operation)) (memory : Memory Cell Content Count)
    {calls : Thread → Option (Operation × Code Cell Content Count Result)}
    (ahead : calls thread = some (operation,implement operation)) :
    Simulation.Run (Step implement) ⟨memory,calls,fun _ _ => none⟩
      [.ret thread operation ((implement operation).run memory).1]
      ⟨((implement operation).run memory).2,Function.update calls thread none,fun _ _ => none⟩ := by
  have alone : Alone ⟨memory,calls,fun _ _ => none⟩ thread operation (implement operation) fun _ => none :=
    ⟨ahead,rfl,fun _ _ => rfl⟩
  obtain ⟨after,rfl,run⟩ := @Alone.run _ _ _ _ _ _ _ _ _ implement _ _ _ _ _ _ _ alone wellLocked
  have returned := run.trans (.single (.ret alone.go.ahead))
  have unlocked : Function.update (fun (_ : Thread) (_ : Cell) => (none : Option Mode)) thread (fun _ => none) = fun _ _ => none :=
    Function.update_eq_self ..
  simp only [State.go,State.with,Function.update_idem,unlocked] at returned
  exact returned

end alone

/-- The section leaves the cell alone if another call retains its lock. -/
def Serial.Apart (serial : Serial Thread Operation Cell Content Count Result) (cell : Cell) (thread : Thread)
    (code : Code Cell Content Count Result) : Prop :=
  ∀ other operation rest, other ≠ thread → serial.calls other = some (operation,rest) → Retains cell rest →
    (finish code serial.memory).2.cells cell = serial.memory.cells cell

inductive Serial.Step (implement : Operation → Code Cell Content Count Result) :
    Serial Thread Operation Cell Content Count Result → Option (Event Thread Operation Result) →
      Serial Thread Operation Cell Content Count Result → Prop
  | call {serial thread operation} (idle : serial.calls thread = none) :
      Step implement serial (some (.call thread operation))
        (serial.go thread (some (operation,implement operation)) serial.memory)
  | ret {serial thread operation result} (ahead : serial.calls thread = some (operation,.done result)) :
      Step implement serial (some (.ret thread operation result)) (serial.go thread none serial.memory)
  | whole {serial thread operation code} (ahead : serial.calls thread = some (operation,code))
      (apart : ∀ cell, serial.Apart cell thread code) :
      Step implement serial none
        (serial.go thread (some (operation,(finish code serial.memory).1)) (finish code serial.memory).2)

end steps

/-! A state of the threads against one where sections are done at once. -/

open Classical in
/-- A memory in which a thread has gone on by what it has done since its last commit. -/
noncomputable def overlay [AddCommMonoid Count] (memory : Memory Cell Content Count) (touched : Set Cell) (pending : Count)
    (view : Memory Cell Content Count) : Memory Cell Content Count :=
  ⟨fun cell => if cell ∈ touched then memory.cells cell else view.cells cell,view.total + pending⟩

section overlays
variable [AddCommMonoid Count] {memory other view : Memory Cell Content Count} {touched : Set Cell} {pending : Count}

/-- In the overlay a cell of the set has the content of the memory, and another that of the view. -/
theorem overlay_inside {cell : Cell} (member : cell ∈ touched) :
    (overlay memory touched pending view).cells cell = memory.cells cell := if_pos member

theorem overlay_outside {cell : Cell} (other : cell ∉ touched) :
    (overlay memory touched pending view).cells cell = view.cells cell := if_neg other

theorem overlay_nothing (memory view : Memory Cell Content Count) : overlay memory ∅ 0 view = view := by
  ext1
  · funext cell
    exact overlay_outside (Set.notMem_empty cell)
  · exact add_zero view.total

theorem overlay_congr (same : ∀ cell ∈ touched, memory.cells cell = other.cells cell) :
    overlay memory touched pending view = overlay other touched pending view := by
  ext1
  · funext cell
    by_cases member : cell ∈ touched
    · rw [overlay_inside member,overlay_inside member,same cell member]
    · rw [overlay_outside member,overlay_outside member]
  · rfl

variable [DecidableEq Cell]

theorem overlay_insert {cell : Cell} (same : cell ∉ touched → view.cells cell = memory.cells cell) :
    overlay memory (insert cell touched) pending view = overlay memory touched pending view := by
  ext1
  · funext other
    by_cases member : other ∈ touched
    · rw [overlay_inside member,overlay_inside (Set.mem_insert_of_mem _ member)]
    · rw [overlay_outside member]
      by_cases here : other = cell
      · subst here
        exact (overlay_inside (Set.mem_insert ..)).trans (same member).symm
      · exact overlay_outside fun inside => inside.elim here member
  · rfl

theorem overlay_store (cell : Cell) (content : Content cell) :
    overlay (memory.store cell content) (insert cell touched) pending view =
      (overlay memory touched pending view).store cell content := by
  ext1
  · funext other
    by_cases same : other = cell
    · subst same
      rw [overlay_inside (Set.mem_insert ..)]
      simp [Memory.store]
    · have kept : (memory.store cell content).cells other = memory.cells other := Function.update_of_ne same ..
      have elsewhere : ((overlay memory touched pending view).store cell content).cells other =
          (overlay memory touched pending view).cells other := Function.update_of_ne same ..
      rw [elsewhere]
      by_cases member : other ∈ touched
      · rw [overlay_inside (Set.mem_insert_of_mem _ member),overlay_inside member,kept]
      · rw [overlay_outside member,overlay_outside fun inside => inside.elim same member]
  · rfl

end overlays

/-- A program under way and the one its section began with: the locks are in order, and the
instructions done since lead from the one to the other in every memory that has the
contents they met. -/
structure Follows [DecidableEq Cell] [AddCommMonoid Count] (rank : Cell → Nat) (memory committed : Memory Cell Content Count) (grip : Grip Cell)
    (pending : Count) (origin code : Code Cell Content Count Result) : Prop where
  guarded : Guarded rank (fun _ grip => grip = Grip.free) grip code
  within : grip.Within
  counted : grip.counted = false → pending = 0
  reached : ∃ count, ∀ view : Memory Cell Content Count,
    (∀ cell ∈ grip.touched, view.cells cell = committed.cells cell) →
      perform^[count] (origin,view) = (code,overlay memory grip.touched pending view)

namespace Follows
variable [DecidableEq Cell] [AddCommMonoid Count] {memory committed : Memory Cell Content Count} {grip : Grip Cell}
variable {pending : Count} {origin next : Code Cell Content Count Result} {rank : Cell → Nat}

theorem start {code : Code Cell Content Count Result} (wellLocked : WellLocked rank code) :
    Follows rank memory committed Grip.free 0 code code :=
  ⟨wellLocked,nofun,fun _ => rfl,0,fun view _ => by simp [Grip.free,overlay_nothing]⟩

/-- What the others do to cells that the section has not touched is not seen. -/
theorem frame {code : Code Cell Content Count Result} {after settled : Memory Cell Content Count}
    (follows : Follows rank memory committed grip pending origin code)
    (kept : ∀ cell ∈ grip.touched, after.cells cell = memory.cells cell)
    (same : ∀ cell ∈ grip.touched, settled.cells cell = committed.cells cell) :
    Follows rank after settled grip pending origin code := by
  obtain ⟨count,reached⟩ := follows.reached
  refine ⟨follows.guarded,follows.within,follows.counted,count,fun view agrees => ?_⟩
  rw [overlay_congr kept]
  exact reached view fun cell member => (agrees cell member).trans (same cell member)

theorem acquire {cell : Cell} {mode : Mode} (follows : Follows rank memory committed grip pending origin (.acquire cell mode next)) :
    Follows rank memory committed (grip.hold cell (some mode)) pending origin next := by
  obtain ⟨count,reached⟩ := follows.reached
  have outside : cell ∉ grip.touched := fun member => follows.within cell member follows.guarded.1.free
  refine ⟨follows.guarded.2,Grip.within_hold follows.within outside,follows.counted,count + 1,fun view agrees => ?_⟩
  rw [Function.iterate_succ_apply',reached view agrees]
  rfl

theorem release {cell : Cell} (follows : Follows rank memory committed grip pending origin (.release cell next)) :
    Follows rank memory committed (grip.hold cell none) pending origin next := by
  obtain ⟨count,reached⟩ := follows.reached
  refine ⟨follows.guarded.2.2,Grip.within_hold follows.within follows.guarded.2.1,follows.counted,count + 1,
    fun view agrees => ?_⟩
  rw [Function.iterate_succ_apply',reached view agrees]
  rfl

/-- A cell that is touched for the first time has its committed content. -/
theorem read {cell : Cell} {next : Content cell → Code Cell Content Count Result}
    (follows : Follows rank memory committed grip pending origin (.read cell next))
    (same : cell ∉ grip.touched → memory.cells cell = committed.cells cell) :
    Follows rank memory committed (grip.touch cell) pending origin (next (memory.cells cell)) := by
  obtain ⟨count,reached⟩ := follows.reached
  refine ⟨follows.guarded.2 _,Grip.within_touch follows.within follows.guarded.1,follows.counted,count + 1,
    fun view agrees => ?_⟩
  have here : view.cells cell = committed.cells cell := agrees cell (Set.mem_insert ..)
  have before := reached view fun other member => agrees other (Set.mem_insert_of_mem _ member)
  have grown : overlay memory (insert cell grip.touched) pending view = overlay memory grip.touched pending view :=
    overlay_insert fun fresh => here.trans (same fresh).symm
  have found : (overlay memory grip.touched pending view).cells cell = memory.cells cell := by
    rw [← grown]
    exact overlay_inside (Set.mem_insert ..)
  rw [Function.iterate_succ_apply',before]
  change (next ((overlay memory grip.touched pending view).cells cell),_) = _
  rw [found,← grown]
  rfl

theorem write {cell : Cell} {content : Content cell}
    (follows : Follows rank memory committed grip pending origin (.write cell content next)) :
    Follows rank (memory.store cell content) committed (grip.touch cell) pending origin next := by
  obtain ⟨count,reached⟩ := follows.reached
  refine ⟨follows.guarded.2,Grip.within_touch follows.within (follows.guarded.1.trans_ne nofun),follows.counted,count + 1,
    fun view agrees => ?_⟩
  have before := reached view fun other member => agrees other (Set.mem_insert_of_mem _ member)
  rw [Function.iterate_succ_apply',before]
  exact congrArg (next,·) (overlay_store cell content).symm

theorem add {amount : Count} (follows : Follows rank memory committed grip pending origin (.add amount next)) :
    Follows rank (memory.add amount) committed grip.count (pending + amount) origin next := by
  obtain ⟨count,reached⟩ := follows.reached
  refine ⟨follows.guarded,follows.within,nofun,count + 1,fun view agrees => ?_⟩
  rw [Function.iterate_succ_apply',reached view agrees]
  refine congrArg (next,·) ?_
  ext1
  · rfl
  · exact add_assoc ..

/-- Up to its commit the section has done to the committed memory what it has done here. -/
theorem finished (follows : Follows rank memory committed grip pending origin (.commit next)) :
    finish origin committed = (next,overlay memory grip.touched pending committed) := by
  obtain ⟨count,reached⟩ := follows.reached
  have before := reached committed fun _ _ => rfl
  rw [← finish_iterate count,before]
  rfl

theorem commit {settled : Memory Cell Content Count} (follows : Follows rank memory committed grip pending origin (.commit next)) :
    Follows rank memory settled grip.clear 0 next next :=
  ⟨follows.guarded,nofun,fun _ => rfl,0,fun view _ => by simp [Grip.clear,overlay_nothing]⟩

/-- A program that has ended has nothing uncommitted. -/
theorem ended {result : Result} (follows : Follows rank memory committed grip pending origin (.done result)) :
    grip = Grip.free ∧ pending = 0 ∧ finish origin committed = (.done result,committed) := by
  have free : grip = Grip.free := follows.guarded
  have none : pending = 0 := follows.counted (congrArg Grip.counted free)
  obtain ⟨count,reached⟩ := follows.reached
  have before := reached committed fun _ _ => rfl
  refine ⟨free,none,?_⟩
  rw [← finish_iterate count,before,free,none]
  exact congrArg (Code.done result,·) (overlay_nothing ..)

end Follows

section relation
variable [DecidableEq Cell] [AddCommMonoid Count] {implement : Operation → Code Cell Content Count Result}
variable {rank : Cell → Nat}

/-- Cells that are not touched under an exclusive lock are as committed, and the counters
run ahead by what is not committed. -/
structure Related [Fintype Thread] (rank : Cell → Nat) (state : State Thread Operation Cell Content Count Result)
    (serial : Serial Thread Operation Cell Content Count Result) (grips : Thread → Grip Cell) (pending : Thread → Count) :
    Prop where
  held : ∀ thread, (grips thread).held = state.held thread
  alone : ∀ one two cell, one ≠ two → state.held one cell = some .exclusive → state.held two cell = none
  same : ∀ cell, (∀ thread, cell ∈ (grips thread).touched → state.held thread cell ≠ some .exclusive) →
    state.memory.cells cell = serial.memory.cells cell
  total : state.memory.total = serial.memory.total + ∑ thread, pending thread
  idle : ∀ thread, state.calls thread = none → serial.calls thread = none ∧ grips thread = Grip.free ∧ pending thread = 0
  busy : ∀ thread operation code, state.calls thread = some (operation,code) → ∃ origin,
    serial.calls thread = some (operation,origin) ∧
      Follows rank state.memory serial.memory (grips thread) (pending thread) origin code

namespace Related
variable [Fintype Thread] {state : State Thread Operation Cell Content Count Result}
variable {serial : Serial Thread Operation Cell Content Count Result} {grips : Thread → Grip Cell} {pending : Thread → Count}
variable {thread : Thread} {operation : Operation}

theorem start (memory : Memory Cell Content Count) :
    Related rank (State.start memory : State Thread Operation Cell Content Count Result) (Serial.start memory)
      (fun _ => Grip.free) fun _ => 0 where
  held _ := rfl
  alone _ _ _ _ := nofun
  same _ _ := rfl
  total := by simp [State.start,Serial.start]
  idle _ _ := ⟨rfl,rfl,rfl⟩
  busy _ _ _ := nofun

section facts
variable (related : Related rank state serial grips pending)
include related

theorem touched_held {cell : Cell} (member : cell ∈ (grips thread).touched) : state.held thread cell ≠ none := by
  cases ahead : state.calls thread with
  | none =>
    rw [(related.idle thread ahead).2.1] at member
    exact member.elim
  | some call =>
    obtain ⟨origin,_,follows⟩ := related.busy thread _ _ ahead
    rw [← related.held]
    exact follows.within cell member

/-- What one thread holds exclusively no other one has touched. -/
theorem apart {other : Thread} {cell : Cell} (different : thread ≠ other)
    (holds : state.held thread cell = some .exclusive) : cell ∉ (grips other).touched :=
  fun member => related.touched_held member (related.alone thread other cell different holds)

theorem same_of_held {cell : Cell} (holds : state.held thread cell ≠ none) (fresh : cell ∉ (grips thread).touched) :
    state.memory.cells cell = serial.memory.cells cell := by
  refine related.same cell fun other member exclusive => ?_
  by_cases own : other = thread
  · exact fresh (own ▸ member)
  · exact holds (related.alone other thread cell own exclusive)

theorem same_of_shared {other : Thread} {cell : Cell} (different : thread ≠ other)
    (first : cell ∈ (grips thread).touched) (second : cell ∈ (grips other).touched) :
    state.memory.cells cell = serial.memory.cells cell := by
  refine related.same cell fun holder _ exclusive => ?_
  by_cases own : holder = thread
  · exact related.apart different (own ▸ exclusive) second
  · exact related.apart own exclusive first

/-- The locks of the thread are as they were. -/
theorem alone_own (other : Thread) (cell : Cell) (different : other ≠ thread) :
    ((grips thread).held cell = some .exclusive → state.held other cell = none) ∧
      (state.held other cell = some .exclusive → (grips thread).held cell = none) := by
  rw [related.held]
  exact ⟨related.alone thread other cell different.symm,related.alone other thread cell different⟩

/-- What is as committed stays so as long as the thread lets go of nothing it has touched. -/
theorem same_own {cell : Cell} {grip : Grip Cell} (untouched : cell ∈ grip.touched → grip.held cell ≠ some .exclusive)
    (mine : cell ∈ (grips thread).touched → state.held thread cell = some .exclusive →
      cell ∈ grip.touched ∧ grip.held cell = some .exclusive)
    (theirs : ∀ other, other ≠ thread → cell ∈ (grips other).touched → state.held other cell ≠ some .exclusive) :
    state.memory.cells cell = serial.memory.cells cell := by
  refine related.same cell fun other member exclusive => ?_
  by_cases own : other = thread
  · subst own
    obtain ⟨inside,still⟩ := mine member exclusive
    exact untouched inside still
  · exact theirs other own member exclusive

/-- What is retained is held. -/
theorem retained {other : Thread} {performed : Operation} {rest : Code Cell Content Count Result} {cell : Cell}
    (began : serial.calls other = some (performed,rest)) (retains : Retains cell rest) : state.held other cell ≠ none := by
  cases ahead : state.calls other with
  | none =>
    rw [(related.idle other ahead).1] at began
    cases began
  | some call =>
    obtain ⟨origin,found,follows⟩ := related.busy other _ _ ahead
    rw [began] at found
    cases found
    obtain ⟨count,reached⟩ := follows.reached
    have still := retains.iterate serial.memory count
    rw [reached serial.memory fun _ _ => rfl] at still
    rw [← related.held]
    exact still.held follows.guarded serial.memory

variable [DecidableEq Thread]

/-- One instruction of a thread within its section. -/
theorem move {origin next : Code Cell Content Count Result} {memory : Memory Cell Content Count} {grip : Grip Cell}
    {amount : Count} (began : serial.calls thread = some (operation,origin))
    (own : Follows rank memory serial.memory grip amount origin next)
    (alone : ∀ other cell, other ≠ thread → (grip.held cell = some .exclusive → state.held other cell = none) ∧
      (state.held other cell = some .exclusive → grip.held cell = none))
    (others : ∀ other cell, other ≠ thread → cell ∈ (grips other).touched → memory.cells cell = state.memory.cells cell)
    (same : ∀ cell, (cell ∈ grip.touched → grip.held cell ≠ some .exclusive) →
      (∀ other, other ≠ thread → cell ∈ (grips other).touched → state.held other cell ≠ some .exclusive) →
        memory.cells cell = serial.memory.cells cell)
    (total : memory.total = serial.memory.total + ∑ other, Function.update pending thread amount other) :
    Related rank (state.go thread operation next memory grip.held) serial (Function.update grips thread grip)
      (Function.update pending thread amount) where
  held other := by
    by_cases mine : other = thread
    · subst mine
      simp [State.go]
    · simp [State.go,mine,related.held]
  alone one two cell different holds := by
    by_cases first : one = thread
    · subst first
      have second : two ≠ one := different.symm
      simp only [State.go,Function.update_self,Function.update_of_ne second] at holds ⊢
      exact (alone two cell second).1 holds
    · by_cases second : two = thread
      · subst second
        simp only [State.go,Function.update_self,Function.update_of_ne first] at holds ⊢
        exact (alone one cell first).2 holds
      · simp only [State.go,Function.update_of_ne first,Function.update_of_ne second] at holds ⊢
        exact related.alone one two cell different holds
  same cell untouched := by
    refine same cell ?_ fun other different => ?_
    · have mine := untouched thread
      simpa only [State.go,Function.update_self] using mine
    · have theirs := untouched other
      simpa only [State.go,Function.update_of_ne different] using theirs
  total := total
  idle other free := by
    have different : other ≠ thread := by
      rintro rfl
      simp [State.go] at free
    simp only [State.go,Function.update_of_ne different] at free ⊢
    exact related.idle other free
  busy other called code ahead := by
    by_cases mine : other = thread
    · subst mine
      simp only [State.go,Function.update_self,Option.some.injEq,Prod.mk.injEq] at ahead
      obtain ⟨rfl,rfl⟩ := ahead
      refine ⟨origin,began,?_⟩
      simpa only [State.go,Function.update_self] using own
    · simp only [State.go,Function.update_of_ne mine] at ahead ⊢
      obtain ⟨start,theirs,follows⟩ := related.busy other called code ahead
      exact ⟨start,theirs,follows.frame (fun cell => others other cell mine) fun _ _ => rfl⟩

theorem total_own : state.memory.total =
    serial.memory.total + ∑ other, Function.update pending thread (pending thread) other := by
  rw [Function.update_eq_self]
  exact related.total

theorem acquire {cell : Cell} {mode : Mode} {next : Code Cell Content Count Result}
    (ahead : state.calls thread = some (operation,.acquire cell mode next)) (free : Free state cell mode) :
    Related rank (state.go thread operation next state.memory (Function.update (state.held thread) cell (some mode))) serial
      (Function.update grips thread ((grips thread).hold cell (some mode)))
      (Function.update pending thread (pending thread)) := by
  obtain ⟨origin,began,follows⟩ := related.busy thread operation _ ahead
  have taken : ((grips thread).hold cell (some mode)).held = Function.update (state.held thread) cell (some mode) := by
    rw [← related.held]
    rfl
  rw [← taken]
  refine related.move began follows.acquire (fun other holds different => ?_) (fun _ _ _ _ => rfl)
    (fun other mine theirs => ?_) related.total_own
  · rw [taken]
    by_cases here : holds = cell
    · subst here
      rw [Function.update_self]
      refine ⟨fun exclusive => ?_,fun exclusive => ?_⟩
      · by_contra held
        obtain ⟨kind,held⟩ := Option.ne_none_iff_exists'.mp held
        cases (free other kind held).2.symm.trans (Option.some.inj exclusive)
      · cases (free other _ exclusive).1
    · rw [Function.update_of_ne here]
      exact ⟨related.alone thread other holds different.symm,related.alone other thread holds different⟩
  · refine related.same_own mine (fun member exclusive => ⟨member,?_⟩) theirs
    have outside : other ≠ cell := by
      rintro rfl
      rw [← related.held,follows.guarded.1.free] at exclusive
      cases exclusive
    rw [taken,Function.update_of_ne outside]
    exact exclusive

theorem release {cell : Cell} {next : Code Cell Content Count Result}
    (ahead : state.calls thread = some (operation,.release cell next)) :
    Related rank (state.go thread operation next state.memory (Function.update (state.held thread) cell none)) serial
      (Function.update grips thread ((grips thread).hold cell none))
      (Function.update pending thread (pending thread)) := by
  obtain ⟨origin,began,follows⟩ := related.busy thread operation _ ahead
  have given : ((grips thread).hold cell none).held = Function.update (state.held thread) cell none := by
    rw [← related.held]
    rfl
  rw [← given]
  refine related.move began follows.release (fun other holds different => ?_) (fun _ _ _ _ => rfl)
    (fun other mine theirs => ?_) related.total_own
  · rw [given]
    by_cases here : holds = cell
    · subst here
      rw [Function.update_self]
      exact ⟨nofun,fun _ => rfl⟩
    · rw [Function.update_of_ne here]
      exact ⟨related.alone thread other holds different.symm,related.alone other thread holds different⟩
  · refine related.same_own mine (fun member exclusive => ⟨member,?_⟩) theirs
    have outside : other ≠ cell := by
      rintro rfl
      exact follows.guarded.2.1 member
    rw [given,Function.update_of_ne outside]
    exact exclusive

theorem read {cell : Cell} {next : Content cell → Code Cell Content Count Result}
    (ahead : state.calls thread = some (operation,.read cell next)) :
    Related rank (state.go thread operation (next (state.memory.cells cell)) state.memory (state.held thread)) serial
      (Function.update grips thread ((grips thread).touch cell)) (Function.update pending thread (pending thread)) := by
  obtain ⟨origin,began,follows⟩ := related.busy thread operation _ ahead
  have holds : state.held thread cell ≠ none := by
    rw [← related.held]
    exact follows.guarded.1
  rw [← related.held]
  refine related.move began (follows.read (related.same_of_held holds)) related.alone_own (fun _ _ _ _ => rfl)
    (fun other mine theirs => ?_) related.total_own
  refine related.same_own mine (fun member exclusive => ⟨Set.mem_insert_of_mem _ member,?_⟩) theirs
  rw [← related.held] at exclusive
  exact exclusive

theorem write {cell : Cell} {content : Content cell} {next : Code Cell Content Count Result}
    (ahead : state.calls thread = some (operation,.write cell content next)) :
    Related rank (state.go thread operation next (state.memory.store cell content) (state.held thread)) serial
      (Function.update grips thread ((grips thread).touch cell)) (Function.update pending thread (pending thread)) := by
  obtain ⟨origin,began,follows⟩ := related.busy thread operation _ ahead
  have holds : state.held thread cell = some .exclusive := by
    rw [← related.held]
    exact follows.guarded.1
  rw [← related.held]
  refine related.move began follows.write related.alone_own (fun other touched different member => ?_)
    (fun other mine theirs => ?_) related.total_own
  · have outside : touched ≠ cell := by
      rintro rfl
      exact related.apart different.symm holds member
    exact Function.update_of_ne outside ..
  · have outside : other ≠ cell := by
      rintro rfl
      exact mine (Set.mem_insert ..) follows.guarded.1
    have kept : (state.memory.store cell content).cells other = state.memory.cells other := Function.update_of_ne outside ..
    rw [kept]
    refine related.same_own mine (fun member exclusive => ⟨Set.mem_insert_of_mem _ member,?_⟩) theirs
    rw [← related.held] at exclusive
    exact exclusive

theorem add {amount : Count} {next : Code Cell Content Count Result}
    (ahead : state.calls thread = some (operation,.add amount next)) :
    Related rank (state.go thread operation next (state.memory.add amount) (state.held thread)) serial
      (Function.update grips thread (grips thread).count) (Function.update pending thread (pending thread + amount)) := by
  obtain ⟨origin,began,follows⟩ := related.busy thread operation _ ahead
  rw [← related.held]
  refine related.move began follows.add related.alone_own (fun _ _ _ _ => rfl) (fun other mine theirs => ?_) ?_
  · refine related.same_own mine (fun member exclusive => ⟨member,?_⟩) theirs
    rw [← related.held] at exclusive
    exact exclusive
  · rw [Tally.sum_increase,← add_assoc,← related.total]
    rfl

/-- The section takes effect. -/
theorem commit {next : Code Cell Content Count Result} (ahead : state.calls thread = some (operation,.commit next)) :
    ∃ origin, serial.calls thread = some (operation,origin) ∧
      Related rank (state.go thread operation next state.memory (state.held thread))
        (serial.go thread (some (operation,(finish origin serial.memory).1)) (finish origin serial.memory).2)
        (Function.update grips thread (grips thread).clear) (Function.update pending thread 0) := by
  obtain ⟨origin,began,follows⟩ := related.busy thread operation _ ahead
  refine ⟨origin,began,?_⟩
  rw [follows.finished]
  dsimp only
  constructor
  case held =>
    intro other
    by_cases mine : other = thread
    · subst mine
      simp [State.go,Grip.clear,related.held]
    · simp [State.go,mine,related.held]
  case alone =>
    intro one two cell different holds
    simp only [State.go,Function.update_eq_self] at holds ⊢
    exact related.alone one two cell different holds
  case same =>
    intro cell untouched
    by_cases inside : cell ∈ (grips thread).touched
    · exact (overlay_inside inside).symm
    · refine (related.same cell fun other member => ?_).trans (overlay_outside inside).symm
      have different : other ≠ thread := by
        rintro rfl
        exact inside member
      have theirs := untouched other
      simp only [State.go,Function.update_eq_self,Function.update_of_ne different] at theirs
      exact theirs member
  case total =>
    have summed := Tally.sum_update id pending thread 0
    simp only [id,add_zero] at summed
    change state.memory.total = serial.memory.total + pending thread + _
    rw [related.total,← summed,add_assoc,add_comm (pending thread)]
  case idle =>
    intro other free
    have different : other ≠ thread := by
      rintro rfl
      simp [State.go] at free
    simp only [State.go,Serial.go,Function.update_of_ne different] at free ⊢
    exact related.idle other free
  case busy =>
    intro other called code found
    by_cases mine : other = thread
    · subst mine
      simp only [State.go,Function.update_self,Option.some.injEq,Prod.mk.injEq] at found
      obtain ⟨rfl,rfl⟩ := found
      refine ⟨next,Function.update_self ..,?_⟩
      simpa only [State.go,Serial.go,Function.update_self] using follows.commit
    · simp only [State.go,Serial.go,Function.update_of_ne mine] at found ⊢
      obtain ⟨start,theirs,continues⟩ := related.busy other called code found
      refine ⟨start,theirs,continues.frame (fun _ _ => rfl) fun cell member => ?_⟩
      by_cases inside : cell ∈ (grips thread).touched
      · exact (overlay_inside inside).trans (related.same_of_shared (Ne.symm mine) inside member)
      · exact overlay_outside inside

/-- A section leaves alone what other calls retain. -/
theorem apart_commit {next : Code Cell Content Count Result} (ahead : state.calls thread = some (operation,.commit next))
    {origin : Code Cell Content Count Result} (began : serial.calls thread = some (operation,origin)) (cell : Cell) :
    serial.Apart cell thread origin := by
  intro other performed rest different theirs retains
  obtain ⟨start,found,follows⟩ := related.busy thread operation _ ahead
  rw [began] at found
  cases found
  have holds := related.retained theirs retains
  rw [follows.finished]
  by_cases inside : cell ∈ (grips thread).touched
  · refine (overlay_inside inside).trans (related.same cell fun holder member exclusive => ?_)
    by_cases same : holder = other
    · subst same
      exact related.apart different exclusive inside
    · exact holds (related.alone holder other cell same exclusive)
  · exact overlay_outside inside

theorem call (idle : state.calls thread = none) (wellLocked : WellLocked rank (implement operation)) :
    Related rank (state.with thread (some (operation,implement operation)))
      (serial.go thread (some (operation,implement operation)) serial.memory) grips pending := by
  obtain ⟨_,free,none⟩ := related.idle thread idle
  refine ⟨related.held,related.alone,related.same,related.total,fun other found => ?_,fun other called code found => ?_⟩
  · have different : other ≠ thread := by
      rintro rfl
      simp [State.with] at found
    simp only [State.with,Serial.go,Function.update_of_ne different] at found ⊢
    exact related.idle other found
  · by_cases mine : other = thread
    · subst mine
      simp only [State.with,Function.update_self,Option.some.injEq,Prod.mk.injEq] at found
      obtain ⟨rfl,rfl⟩ := found
      refine ⟨implement operation,Function.update_self ..,?_⟩
      rw [free,none]
      exact .start wellLocked
    · simp only [State.with,Serial.go,Function.update_of_ne mine] at found ⊢
      exact related.busy other called code found

theorem ret {result : Result} (ahead : state.calls thread = some (operation,.done result)) :
    ∃ origin, serial.calls thread = some (operation,origin) ∧ finish origin serial.memory = (.done result,serial.memory) ∧
      Related rank (state.with thread none) (serial.go thread none serial.memory) grips pending := by
  obtain ⟨origin,began,follows⟩ := related.busy thread operation _ ahead
  obtain ⟨free,none,ended⟩ := follows.ended
  refine ⟨origin,began,ended,related.held,related.alone,related.same,related.total,fun other found => ?_,
    fun other called code found => ?_⟩
  · by_cases mine : other = thread
    · subst mine
      exact ⟨Function.update_self ..,free,none⟩
    · simp only [State.with,Serial.go,Function.update_of_ne mine] at found ⊢
      exact related.idle other found
  · have different : other ≠ thread := by
      rintro rfl
      simp [State.with] at found
    simp only [State.with,Serial.go,Function.update_of_ne different] at found ⊢
    exact related.busy other called code found

end facts

end Related

variable [Fintype Thread]

def Matches (rank : Cell → Nat) (state : State Thread Operation Cell Content Count Result)
    (serial : Serial Thread Operation Cell Content Count Result) : Prop :=
  ∃ grips pending, Related rank state serial grips pending

/-- When no call is under way nothing is uncommitted. -/
theorem Matches.quiet {state : State Thread Operation Cell Content Count Result}
    {serial : Serial Thread Operation Cell Content Count Result} (related : Matches rank state serial) (quiet : state.Quiet) :
    state.memory = serial.memory ∧ ∀ thread, serial.calls thread = none := by
  obtain ⟨grips,pending,related⟩ := related
  refine ⟨?_,fun thread => (related.idle thread (quiet thread)).1⟩
  ext1
  · funext cell
    refine related.same cell fun thread member => ?_
    rw [(related.idle thread (quiet thread)).2.1] at member
    exact member.elim
  · rw [related.total,Finset.sum_eq_zero fun thread _ => (related.idle thread (quiet thread)).2.2,add_zero]

/-- The next thing the thread does is to access the cell. -/
inductive Accesses (state : State Thread Operation Cell Content Count Result) (thread : Thread) (cell : Cell) : Mode → Prop
  | read {operation next} (ahead : state.calls thread = some (operation,.read cell next)) : Accesses state thread cell .shared
  | write {operation content next} (ahead : state.calls thread = some (operation,.write cell content next)) :
      Accesses state thread cell .exclusive

/-- No two threads are about to access a cell that one of them writes. -/
theorem Matches.race_free {state : State Thread Operation Cell Content Count Result}
    {serial : Serial Thread Operation Cell Content Count Result} (related : Matches rank state serial) {one two : Thread}
    {cell : Cell} {mode : Mode} (different : one ≠ two) (writes : Accesses state one cell .exclusive)
    (accesses : Accesses state two cell mode) : False := by
  obtain ⟨grips,pending,related⟩ := related
  have held : state.held two cell ≠ none := by
    rw [← related.held]
    cases accesses with
    | read ahead =>
      obtain ⟨_,_,follows⟩ := related.busy two _ _ ahead
      exact follows.guarded.1
    | write ahead =>
      obtain ⟨_,_,follows⟩ := related.busy two _ _ ahead
      exact follows.guarded.1.trans_ne nofun
  cases writes with
  | write ahead =>
    obtain ⟨_,_,follows⟩ := related.busy one _ _ ahead
    have exclusive := follows.guarded.1
    rw [related.held] at exclusive
    exact held (related.alone one two cell different exclusive)

variable [DecidableEq Thread]

/-- Every step shows what some steps on whole sections show. -/
theorem Step.matched (wellLocked : ∀ operation, WellLocked rank (implement operation))
    {state next : State Thread Operation Cell Content Count Result} {event : Option (Event Thread Operation Result)}
    {serial : Serial Thread Operation Cell Content Count Result} (step : Step implement state event next)
    (related : Matches rank state serial) :
    ∃ after, Simulation.Run (Serial.Step implement) serial event.toList after ∧ Matches rank next after := by
  obtain ⟨grips,pending,related⟩ := related
  cases step with
  | call idle => exact ⟨_,.single (.call (related.idle _ idle).1),grips,pending,related.call idle (wellLocked _)⟩
  | @ret thread operation result ahead =>
    obtain ⟨origin,began,ended,kept⟩ := related.ret ahead
    have whole : Serial.Step implement serial none _ := .whole began fun cell _ _ _ _ _ _ => by rw [ended]
    rw [ended] at whole
    have ready : (serial.go thread (some (operation,.done result)) serial.memory).calls thread =
        some (operation,.done result) := Function.update_self ..
    have returned : Serial.Step implement _ (some (.ret thread operation result)) _ := .ret ready
    refine ⟨_,.go whole (.single returned),grips,pending,?_⟩
    simpa only [Serial.go,Function.update_idem] using kept
  | acquire ahead free => exact ⟨serial,.rest serial,_,_,related.acquire ahead free⟩
  | release ahead => exact ⟨serial,.rest serial,_,_,related.release ahead⟩
  | read ahead => exact ⟨serial,.rest serial,_,_,related.read ahead⟩
  | write ahead => exact ⟨serial,.rest serial,_,_,related.write ahead⟩
  | add ahead => exact ⟨serial,.rest serial,_,_,related.add ahead⟩
  | commit ahead =>
    obtain ⟨origin,began,kept⟩ := related.commit ahead
    exact ⟨_,.single (.whole began (related.apart_commit ahead began)),_,_,kept⟩

/-- The threads show nothing that they would not show if every section was done at once. -/
theorem run_serial (wellLocked : ∀ operation, WellLocked rank (implement operation)) {memory : Memory Cell Content Count}
    {history : List (Event Thread Operation Result)} {state : State Thread Operation Cell Content Count Result}
    (run : Simulation.Run (Step implement) (.start memory) history state) :
    ∃ serial, Simulation.Run (Serial.Step implement) (.start memory) history serial ∧ Matches rank state serial :=
  run.simulated (fun _ _ _ _ step related => step.matched wellLocked related) ⟨_,_,.start memory⟩

end relation

end Sections
