import Mathlib.Data.Set.Finite.Lemmas
import Mathlib.Logic.Relation
import Mathlib.Order.CompletePartialOrder
import Mathlib.Data.List.Nodup

/-! Threads that take locks in ascending order. A program is the list of what it acquires and
releases; a thread goes on when the lock it asks for is free. If each program takes every
lock above those it holds, no threads wait for one another. -/
namespace LockOrder
variable {Thread Lock Item : Type}

inductive Mode
  | shared
  | exclusive
  deriving DecidableEq, Repr

inductive Action (Lock : Type)
  | acquire (lock : Lock) (mode : Mode)
  | release (lock : Lock)
  deriving DecidableEq, Repr

/-- What every thread has still to do, and the locks it holds. -/
structure State (Thread Lock : Type) where
  remaining : Thread → List (Action Lock)
  held : Thread → Lock → Option Mode

def start (programs : Thread → List (Action Lock)) : State Thread Lock := ⟨programs,fun _ _ => none⟩

/-- Nobody holds the lock, or it is asked for and held in shared mode only. -/
def Free (state : State Thread Lock) (lock : Lock) (mode : Mode) : Prop :=
  ∀ thread holding, state.held thread lock = some holding → holding = .shared ∧ mode = .shared

section steps
variable [DecidableEq Thread] [DecidableEq Lock]

def State.go (state : State Thread Lock) (thread : Thread) (rest : List (Action Lock)) (lock : Lock)
    (holding : Option Mode) : State Thread Lock :=
  ⟨Function.update state.remaining thread rest,
    Function.update state.held thread (Function.update (state.held thread) lock holding)⟩

inductive Step : State Thread Lock → State Thread Lock → Prop
  | acquire {state thread lock mode rest} (next : state.remaining thread = .acquire lock mode::rest)
      (free : Free state lock mode) : Step state (state.go thread rest lock (some mode))
  | release {state thread lock rest} (next : state.remaining thread = .release lock::rest) :
      Step state (state.go thread rest lock none)

abbrev Reachable (programs : Thread → List (Action Lock)) (state : State Thread Lock) : Prop :=
  Relation.ReflTransGen Step (start programs) state

end steps

def Requests (state : State Thread Lock) (thread : Thread) (lock : Lock) : Prop :=
  ∃ mode rest, state.remaining thread = .acquire lock mode::rest

/-- Each of these threads asks for a lock that one of them holds, in whatever mode: where
waiting writers keep readers out, a reader may wait for a lock that is only shared. -/
def Deadlocked (state : State Thread Lock) (threads : Set Thread) : Prop :=
  ∀ thread ∈ threads, ∃ lock, Requests state thread lock ∧ ∃ holder ∈ threads, (state.held holder lock).isSome = true

/-- With some locks held, every lock is taken above all that are held then, only locks that
are held are released, and in the end none is held. -/
def Disciplined (rank : Lock → Nat) : Set Lock → List (Action Lock) → Prop
  | held, [] => held = ∅
  | held, .acquire lock _::rest => (∀ other ∈ held, rank other < rank lock) ∧ Disciplined rank (insert lock held) rest
  | held, .release lock::rest => lock ∈ held ∧ Disciplined rank (held \ {lock}) rest

def holding (state : State Thread Lock) (thread : Thread) : Set Lock := {lock | (state.held thread lock).isSome = true}

variable {rank : Lock → Nat}

def AllDisciplined (rank : Lock → Nat) (state : State Thread Lock) : Prop :=
  ∀ thread, Disciplined rank (holding state thread) (state.remaining thread)

theorem start_disciplined {programs : Thread → List (Action Lock)}
    (each : ∀ thread, Disciplined rank ∅ (programs thread)) : AllDisciplined rank (start programs) := by
  intro thread
  have none : holding (start programs) thread = ∅ := by simp [holding,start]
  rw [none]
  exact each thread

section runs
variable [DecidableEq Thread] [DecidableEq Lock]

@[simp] theorem go_remaining (state : State Thread Lock) (thread : Thread) (rest : List (Action Lock)) (lock : Lock)
    (mode : Option Mode) : (state.go thread rest lock mode).remaining thread = rest := Function.update_self ..

theorem go_other {state : State Thread Lock} {thread other : Thread} {rest : List (Action Lock)} {lock : Lock}
    {mode : Option Mode} (different : other ≠ thread) :
    (state.go thread rest lock mode).remaining other = state.remaining other ∧
      holding (state.go thread rest lock mode) other = holding state other := by
  refine ⟨Function.update_of_ne different ..,?_⟩
  unfold holding State.go
  simp only [Function.update_of_ne different]

theorem holding_acquire (state : State Thread Lock) (thread : Thread) (rest : List (Action Lock)) (lock : Lock)
    (mode : Mode) : holding (state.go thread rest lock (some mode)) thread = insert lock (holding state thread) := by
  ext other
  by_cases same : other = lock <;> simp [holding,State.go,Function.update_apply,same]

theorem holding_release (state : State Thread Lock) (thread : Thread) (rest : List (Action Lock)) (lock : Lock) :
    holding (state.go thread rest lock none) thread = holding state thread \ {lock} := by
  ext other
  by_cases same : other = lock <;> simp [holding,State.go,Function.update_apply,same]

theorem Step.disciplined {state next : State Thread Lock} (step : Step state next)
    (disciplined : AllDisciplined rank state) : AllDisciplined rank next := by
  intro other
  cases step with
  | @acquire thread lock mode rest ahead =>
    by_cases same : other = thread
    · subst same
      have own := disciplined other
      rw [ahead] at own
      rw [go_remaining,holding_acquire]
      exact own.2
    · rw [(go_other same).1,(go_other same).2]
      exact disciplined other
  | @release thread lock rest ahead =>
    by_cases same : other = thread
    · subst same
      have own := disciplined other
      rw [ahead] at own
      rw [go_remaining,holding_release]
      exact own.2
    · rw [(go_other same).1,(go_other same).2]
      exact disciplined other

theorem reachable_disciplined {programs : Thread → List (Action Lock)} {state : State Thread Lock}
    (each : ∀ thread, Disciplined rank ∅ (programs thread)) (reached : Reachable programs state) :
    AllDisciplined rank state := by
  induction reached with
  | refl => exact start_disciplined each
  | tail _ step ih => exact step.disciplined ih

end runs

section waiting
variable {state : State Thread Lock} (disciplined : AllDisciplined rank state)
include disciplined

theorem requests_above {thread : Thread} {lock : Lock} (requests : Requests state thread lock) :
    ∀ other ∈ holding state thread, rank other < rank lock := by
  obtain ⟨mode,rest,ahead⟩ := requests
  have own := disciplined thread
  rw [ahead] at own
  exact own.1

theorem requests_new {thread : Thread} {lock : Lock} (requests : Requests state thread lock) :
    state.held thread lock = none := by
  rw [← Option.not_isSome_iff_eq_none]
  intro already
  exact Nat.lt_irrefl _ (requests_above disciplined requests lock already)

/-- Of the locks that are waited for, the highest is held by a thread that waits for a higher
one. -/
theorem not_deadlocked [Finite Lock] {threads : Set Thread} (some_ : threads.Nonempty) : ¬ Deadlocked state threads := by
  intro deadlocked
  let wanted : Set Lock := {lock | ∃ thread ∈ threads, Requests state thread lock}
  have nonempty : wanted.Nonempty := by
    obtain ⟨thread,member⟩ := some_
    obtain ⟨lock,requests,_⟩ := deadlocked thread member
    exact ⟨lock,thread,member,requests⟩
  obtain ⟨highest,⟨thread,member,requests⟩,greatest⟩ := Set.exists_max_image wanted rank (Set.toFinite wanted) nonempty
  obtain ⟨lock,asked,holder,inside,held⟩ := deadlocked thread member
  obtain ⟨mode,rest,ahead⟩ := requests
  obtain ⟨other,more,same⟩ := asked
  cases ahead.symm.trans same
  obtain ⟨next,further,_⟩ := deadlocked holder inside
  have higher := requests_above disciplined further highest held
  exact Nat.not_lt_of_le (greatest next ⟨holder,inside,further⟩) higher

/-- While a thread has something left to do, some thread can go on. -/
theorem can_step [DecidableEq Thread] [DecidableEq Lock] [Finite Lock] {thread : Thread}
    (unfinished : state.remaining thread ≠ []) : ∃ next, Step state next := by
  by_contra stuck
  have some_ : {thread | state.remaining thread ≠ []}.Nonempty := ⟨thread,unfinished⟩
  refine not_deadlocked disciplined some_ fun waiting member => ?_
  cases ahead : state.remaining waiting with
  | nil => exact absurd ahead member
  | cons action rest =>
    cases action with
    | release lock => exact absurd ⟨_,.release ahead⟩ stuck
    | acquire lock mode =>
      have taken : ¬ Free state lock mode := fun free => stuck ⟨_,.acquire ahead free⟩
      unfold Free at taken
      push Not at taken
      obtain ⟨holder,kind,held,_⟩ := taken
      refine ⟨lock,⟨mode,rest,ahead⟩,holder,fun finished => ?_,Option.isSome_of_mem held⟩
      have own := disciplined holder
      rw [finished] at own
      exact Set.eq_empty_iff_forall_notMem.mp own lock (Option.isSome_of_mem held)

end waiting

/-! Pieces of programs. -/

/-- The piece begins and ends without locks, and takes none below a rank. -/
structure Orderly (rank : Lock → Nat) (low : Nat) (actions : List (Action Lock)) : Prop where
  disciplined : Disciplined rank ∅ actions
  above : ∀ lock mode, .acquire lock mode ∈ actions → low ≤ rank lock

/-- The scope of a guard. -/
def guarded (lock : Lock) (mode : Mode) (body : List (Action Lock)) : List (Action Lock) :=
  .acquire lock mode::body ++ [.release lock]

theorem Disciplined.frame {inner outer : Set Lock} {body rest : List (Action Lock)}
    (disciplined : Disciplined rank inner body) (apart : Disjoint inner outer)
    (above : ∀ lock mode, .acquire lock mode ∈ body → ∀ other ∈ outer, rank other < rank lock)
    (continues : Disciplined rank outer rest) : Disciplined rank (inner ∪ outer) (body ++ rest) := by
  induction body generalizing inner with
  | nil =>
    rw [show inner = ∅ from disciplined,Set.empty_union]
    exact continues
  | cons action body ih =>
    have later : ∀ lock mode, .acquire lock mode ∈ body → ∀ other ∈ outer, rank other < rank lock :=
      fun lock mode member => above lock mode (List.mem_cons_of_mem _ member)
    cases action with
    | acquire lock mode =>
      have higher := above lock mode List.mem_cons_self
      refine ⟨fun other member => ?_,?_⟩
      · exact member.elim (disciplined.1 other) (higher other)
      · rw [← Set.insert_union]
        refine ih disciplined.2 (Set.disjoint_insert_left.mpr ⟨fun inside => ?_,apart⟩) later
        exact Nat.lt_irrefl _ (higher lock inside)
    | release lock =>
      obtain ⟨member,disciplined⟩ := disciplined
      have outside : lock ∉ outer := Set.disjoint_left.mp apart member
      refine ⟨Or.inl member,?_⟩
      rw [Set.union_sdiff_distrib,Set.sdiff_singleton_eq_self outside]
      exact ih disciplined (apart.mono_left Set.sdiff_subset) later

namespace Orderly
variable {low : Nat} {actions others : List (Action Lock)}

theorem nil : Orderly rank low ([] : List (Action Lock)) := ⟨rfl,nofun⟩

theorem mono {lower : Nat} (orderly : Orderly rank low actions) (le : lower ≤ low) : Orderly rank lower actions :=
  ⟨orderly.disciplined,fun lock mode member => Nat.le_trans le (orderly.above lock mode member)⟩

theorem append (first : Orderly rank low actions) (second : Orderly rank low others) :
    Orderly rank low (actions ++ others) := by
  refine ⟨?_,fun lock mode member => ?_⟩
  · rw [← Set.union_empty ∅]
    exact first.disciplined.frame (Set.disjoint_empty _) (fun _ _ _ _ none => none.elim) second.disciplined
  · exact (List.mem_append.mp member).elim (first.above lock mode) (second.above lock mode)

theorem ite {condition : Prop} [Decidable condition] (first : Orderly rank low actions)
    (second : Orderly rank low others) : Orderly rank low (if condition then actions else others) := by
  split
  · exact first
  · exact second

theorem flatMap {piece : Item → List (Action Lock)} {items : List Item}
    (each : ∀ item ∈ items, Orderly rank low (piece item)) : Orderly rank low (items.flatMap piece) := by
  induction items with
  | nil => exact nil
  | cons item items ih =>
    obtain ⟨head,tail⟩ := List.forall_mem_cons.mp each
    rw [List.flatMap_cons]
    exact head.append (ih tail)

/-- What runs inside a guard takes locks above its own. -/
theorem guarded {lock : Lock} {mode : Mode} (orderly : Orderly rank (rank lock + 1) actions) (le : low ≤ rank lock) :
    Orderly rank low (guarded lock mode actions) := by
  refine ⟨⟨fun _ none => none.elim,?_⟩,fun other taken member => ?_⟩
  · rw [insert_empty_eq,← Set.empty_union {lock}]
    refine orderly.disciplined.frame (Set.empty_disjoint _) (fun other taken member held same => ?_) ⟨rfl,?_⟩
    · rw [Set.mem_singleton_iff.mp same]
      exact orderly.above other taken member
    · exact Set.sdiff_self
  · rcases List.mem_append.mp member with inside | last
    · rcases List.mem_cons.mp inside with same | inside
      · cases same
        exact le
      · exact Nat.le_trans (Nat.le_succ_of_le le) (orderly.above other taken inside)
    · cases List.mem_singleton.mp last

end Orderly

/-- Locks that are taken in ascending order are all held then. -/
theorem disciplined_acquires {locks : List Lock} {mode : Mode} {held : Set Lock} {rest : List (Action Lock)}
    (ascending : locks.Pairwise fun one two => rank one < rank two)
    (above : ∀ other ∈ held, ∀ lock ∈ locks, rank other < rank lock)
    (continues : Disciplined rank (held ∪ {lock | lock ∈ locks}) rest) :
    Disciplined rank held (locks.map (.acquire · mode) ++ rest) := by
  induction locks generalizing held with
  | nil => simpa using continues
  | cons lock locks ih =>
    obtain ⟨below,ascending⟩ := List.pairwise_cons.mp ascending
    refine ⟨fun other member => above other member lock List.mem_cons_self,ih ascending ?_ ?_⟩
    · rintro other (rfl | member) higher inside
      · exact below higher inside
      · exact above other member higher (List.mem_cons_of_mem _ inside)
    · convert continues using 1
      ext other
      simp only [Set.mem_union,Set.mem_insert_iff,Set.mem_ofPred_eq,List.mem_cons]
      tauto

theorem disciplined_releases {locks : List Lock} (nodup : locks.Nodup) :
    Disciplined rank {lock | lock ∈ locks} (locks.map .release) := by
  induction locks with
  | nil => exact Set.eq_empty_of_forall_notMem fun lock member => List.not_mem_nil member
  | cons lock locks ih =>
    obtain ⟨fresh,nodup⟩ := List.nodup_cons.mp nodup
    refine ⟨List.mem_cons_self,?_⟩
    convert ih nodup using 1
    ext other
    simp only [Set.mem_sdiff,Set.mem_ofPred_eq,List.mem_cons,Set.mem_singleton_iff]
    constructor
    · rintro ⟨same | member,different⟩
      · exact absurd same different
      · exact member
    · intro member
      refine ⟨Or.inr member,?_⟩
      rintro rfl
      exact fresh member

/-- Several locks at once, taken in ascending order and released in any. -/
theorem Orderly.several {low : Nat} {locks order : List Lock} {mode : Mode}
    (ascending : locks.Pairwise fun one two => rank one < rank two) (all : order.Perm locks)
    (above : ∀ lock ∈ locks, low ≤ rank lock) :
    Orderly rank low (locks.map (.acquire · mode) ++ order.map .release) := by
  have nodup : locks.Nodup := by
    refine ascending.imp fun {one two} less same => ?_
    rw [same] at less
    exact Nat.lt_irrefl _ less
  refine ⟨disciplined_acquires ascending (fun _ none => none.elim) ?_,fun lock taken member => ?_⟩
  · have same : (∅ ∪ {lock | lock ∈ locks} : Set Lock) = {lock | lock ∈ order} := by
      ext lock
      simp [all.mem_iff]
    rw [same]
    exact disciplined_releases (all.nodup_iff.mpr nodup)
  · rcases List.mem_append.mp member with first | last
    · obtain ⟨other,inside,same⟩ := List.mem_map.mp first
      cases same
      exact above _ inside
    · obtain ⟨_,_,same⟩ := List.mem_map.mp last
      cases same

/-- An exception leaves the piece after some of its actions, and the guards release what is
held. -/
def unwound [DecidableEq Lock] (held : List Lock) : Nat → List (Action Lock) → List (Action Lock)
  | 0, _ | _, [] => held.map .release
  | count+1, .acquire lock mode::rest => .acquire lock mode::unwound (lock::held) count rest
  | count+1, .release lock::rest => .release lock::unwound (held.erase lock) count rest

section unwinding
variable [DecidableEq Lock] {held : List Lock} {actions : List (Action Lock)}

theorem disciplined_unwound (nodup : held.Nodup) (count : Nat) (disciplined : Disciplined rank {lock | lock ∈ held} actions) :
    Disciplined rank {lock | lock ∈ held} (unwound held count actions) := by
  induction count generalizing held actions with
  | zero =>
    unfold unwound
    exact disciplined_releases nodup
  | succ count ih =>
    match actions with
    | [] => exact disciplined_releases nodup
    | .acquire lock mode::rest =>
      obtain ⟨above,continues⟩ := disciplined
      have fresh : lock ∉ held := fun member => Nat.lt_irrefl _ (above lock member)
      have same : insert lock {lock | lock ∈ held} = {other | other ∈ lock::held} := by
        ext other
        simp
      refine ⟨above,?_⟩
      rw [same] at continues ⊢
      exact ih (List.nodup_cons.mpr ⟨fresh,nodup⟩) continues
    | .release lock::rest =>
      obtain ⟨member,continues⟩ := disciplined
      have same : {lock | lock ∈ held} \ {lock} = {other | other ∈ held.erase lock} := by
        ext other
        simp [nodup.mem_erase_iff,and_comm]
      refine ⟨member,?_⟩
      rw [same] at continues ⊢
      exact ih (nodup.erase lock) continues

/-- An exception that comes behind these actions leaves them as they are. -/
def Balanced (actions : List (Action Lock)) : Prop :=
  ∀ held count rest, unwound held (actions.length + count) (actions ++ rest) = actions ++ unwound held count rest

namespace Balanced
variable {first second : List (Action Lock)} {lock : Lock} {mode : Mode}

theorem nil : Balanced ([] : List (Action Lock)) := by
  intro held count rest
  rw [List.length_nil,Nat.zero_add,List.nil_append,List.nil_append]

theorem append (one : Balanced first) (two : Balanced second) : Balanced (first ++ second) := by
  intro held count rest
  rw [List.length_append,Nat.add_assoc,List.append_assoc,one,two,List.append_assoc]

theorem guarded (balanced : Balanced actions) : Balanced (guarded lock mode actions) := by
  intro held count rest
  have inside := balanced (lock::held) (count + 1) (.release lock::rest)
  rw [unwound,List.erase_cons_head] at inside
  have size : (LockOrder.guarded lock mode actions).length + count = actions.length + (count + 1) + 1 := by
    simp only [LockOrder.guarded,List.length_append,List.length_cons,List.length_nil]
    omega
  rw [size]
  change .acquire lock mode::LockOrder.unwound (lock::held) _ (actions ++ [.release lock] ++ rest) =
    .acquire lock mode::(actions ++ [.release lock] ++ LockOrder.unwound held count rest)
  rw [List.append_assoc,List.append_assoc]
  exact congrArg (.acquire lock mode::·) inside

theorem flatMap {Index : Type} {indices : List Index} {actions : Index → List (Action Lock)}
    (all : ∀ index, Balanced (actions index)) : Balanced (indices.flatMap actions) := by
  induction indices with
  | nil => exact nil
  | cons index rest ih => exact (all index).append ih

theorem unwound (balanced : Balanced first) (second : List (Action Lock)) :
    unwound [] first.length (first ++ second) = first := by
  have ended := balanced [] 0 second
  rwa [Nat.add_zero,LockOrder.unwound,List.map_nil,List.append_nil] at ended

/-- An exception inside a section, which is left with it. -/
theorem unwound_guarded (balanced : Balanced first) (second : List (Action Lock)) :
    LockOrder.unwound [] (first.length + 1) (LockOrder.guarded lock mode (first ++ second)) =
      LockOrder.guarded lock mode first := by
  have ended := balanced [lock] 0 (second ++ [.release lock])
  rw [Nat.add_zero,LockOrder.unwound] at ended
  rw [LockOrder.guarded,List.cons_append,List.append_assoc,LockOrder.unwound]
  exact congrArg (.acquire lock mode::·) ended

end Balanced

theorem mem_unwound {count : Nat} {lock : Lock} {mode : Mode}
    (member : .acquire lock mode ∈ unwound held count actions) : .acquire lock mode ∈ actions := by
  induction count generalizing held actions with
  | zero =>
    unfold unwound at member
    obtain ⟨_,_,same⟩ := List.mem_map.mp member
    cases same
  | succ count ih =>
    match actions with
    | [] =>
      obtain ⟨_,_,same⟩ := List.mem_map.mp member
      cases same
    | .acquire other kind::rest | .release other::rest =>
      rcases List.mem_cons.mp member with same | inside
      · exact same ▸ List.mem_cons_self
      · exact List.mem_cons_of_mem _ (ih inside)

theorem Orderly.unwound {low : Nat} (orderly : Orderly rank low actions) (count : Nat) :
    Orderly rank low (unwound [] count actions) := by
  have none : {lock : Lock | lock ∈ []} = ∅ := by simp
  refine ⟨?_,fun lock mode member => orderly.above lock mode (mem_unwound member)⟩
  have disciplined := orderly.disciplined
  rw [← none] at disciplined ⊢
  exact disciplined_unwound List.nodup_nil count disciplined

end unwinding

end LockOrder
