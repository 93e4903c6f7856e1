import NovaCache.Linearization

/-! What is found in a cell when all threads stop at once. If no section writes the cell
twice, it is as some order of the operations leaves it that fits everything seen before;
and what a thread was about to write there would have followed. -/
namespace Interruption
open Sections Linearization Simulation
variable {Thread Operation Memory Cell Count Result Other : Type} {Content : Cell → Type}

section programs
variable {cell : Cell}

/-- The cell is never written. -/
def Spares (cell : Cell) : Code Cell Content Count Result → Prop
  | .done _ => True
  | .acquire _ _ next | .release _ next | .add _ next | .commit next => Spares cell next
  | .read _ next => ∀ content, Spares cell (next content)
  | .write other _ next => other ≠ cell ∧ Spares cell next

theorem Spares.bind {code : Code Cell Content Count Result} {rest : Result → Code Cell Content Count Other}
    (spares : Spares cell code) (continues : ∀ result, Spares cell (rest result)) : Spares cell (code >>= rest) := by
  change Spares cell (code.bind rest)
  induction code with
  | done result => exact continues result
  | acquire _ _ next ih | release _ next ih | add _ next ih | commit next ih => exact ih spares
  | read _ next ih => exact fun content => ih content (spares content)
  | write other content next ih => exact ⟨spares.1,ih spares.2⟩

theorem Spares.of_inside {held : Cell → Option LockOrder.Mode} {code : Code Cell Content Count Result}
    (inside : Inside held code) (free : held cell ≠ some .exclusive) : Spares cell code := by
  induction code with
  | done => trivial
  | read _ next ih => exact fun content => ih content (inside.2 content)
  | write other content next ih =>
    refine ⟨?_,ih inside.2⟩
    rintro rfl
    exact free inside.1
  | add _ next ih => exact ih inside
  | acquire | release | commit => exact inside.elim

variable [DecidableEq Cell]

/-- No section writes the cell twice; the first may have done so already. -/
def Once (cell : Cell) : Bool → Code Cell Content Count Result → Prop
  | _, .done _ => True
  | written, .acquire _ _ next | written, .release _ next | written, .add _ next => Once cell written next
  | written, .read _ next => ∀ content, Once cell written (next content)
  | written, .write other _ next => if other = cell then written = false ∧ Once cell true next else Once cell written next
  | _, .commit next => Once cell false next

theorem once_write (written : Bool) (other : Cell) (content : Content other) (next : Code Cell Content Count Result) :
    Once cell written (.write other content next) =
      if other = cell then written = false ∧ Once cell true next else Once cell written next := rfl

theorem Spares.once {code : Code Cell Content Count Result} (spares : Spares cell code) (written : Bool) :
    Once cell written code := by
  induction code generalizing written with
  | done => trivial
  | acquire _ _ next ih | release _ next ih | add _ next ih => exact ih spares written
  | commit next ih => exact ih spares false
  | read _ next ih => exact fun content => ih content (spares content) written
  | write other content next ih =>
    rw [once_write,if_neg spares.1]
    exact ih spares.2 written

theorem Spares.bind_once {code : Code Cell Content Count Result} {rest : Result → Code Cell Content Count Other}
    (spares : Spares cell code) (continues : ∀ result, Once cell false (rest result)) : Once cell false (code >>= rest) := by
  change Once cell false (code.bind rest)
  induction code with
  | done result => exact continues result
  | acquire _ _ next ih | release _ next ih | add _ next ih | commit next ih => exact ih spares
  | read _ next ih => exact fun content => ih content (spares content)
  | write other content next ih =>
    change Once cell false (.write other content (next.bind rest))
    rw [once_write,if_neg spares.1]
    exact ih spares.2

theorem Once.bind {code : Code Cell Content Count Result} {rest : Result → Code Cell Content Count Other} {written : Bool}
    (once : Once cell written code) (continues : ∀ result, Spares cell (rest result)) : Once cell written (code >>= rest) := by
  change Once cell written (code.bind rest)
  induction code generalizing written with
  | done result => exact (continues result).once written
  | acquire _ _ next ih | release _ next ih | add _ next ih | commit next ih => exact ih once
  | read _ next ih => exact fun content => ih content (once content)
  | write other content next ih =>
    change Once cell written (.write other content (next.bind rest))
    rw [once_write] at once ⊢
    split at once
    next same =>
      rw [if_pos same]
      exact ⟨once.1,ih once.2⟩
    next different =>
      rw [if_neg different]
      exact ih once

variable [AddCommMonoid Count]

theorem Once.finish {code : Code Cell Content Count Result} {written : Bool} (once : Once cell written code)
    (memory : Sections.Memory Cell Content Count) : Once cell false (finish code memory).1 := by
  induction code generalizing written memory with
  | done => trivial
  | acquire _ _ next ih | release _ next ih | add _ next ih => exact ih once _
  | read _ next ih => exact ih _ (once _) memory
  | write other content next ih =>
    rw [once_write] at once
    split at once
    · exact ih once.2 _
    · exact ih once _
  | commit => exact once

/-- A section that has written the cell leaves it so. -/
theorem Once.kept {code : Code Cell Content Count Result} (once : Once cell true code)
    (memory : Sections.Memory Cell Content Count) :
    (Sections.finish code memory).2.cells cell = memory.cells cell := by
  induction code generalizing memory with
  | done | commit => rfl
  | acquire _ _ next ih | release _ next ih => exact ih once memory
  | add _ next ih => exact ih once _
  | read _ next ih => exact ih _ (once _) memory
  | write other content next ih =>
    rw [once_write] at once
    split at once
    · cases once.1
    next different => exact (ih once _).trans (Function.update_of_ne (Ne.symm different) ..)

/-- One instruction leaves the cell alone, or it is the write. -/
theorem Once.perform {code : Code Cell Content Count Result} (once : Once cell false code)
    (memory : Sections.Memory Cell Content Count) :
    Once cell false (perform (code,memory)).1 ∧ (perform (code,memory)).2.cells cell = memory.cells cell ∨
      Once cell true (perform (code,memory)).1 := by
  cases code with
  | done | acquire | release | add | commit => exact .inl ⟨once,rfl⟩
  | read _ next => exact .inl ⟨once _,rfl⟩
  | write other content next =>
    rw [once_write] at once
    split at once
    · exact .inr once.2
    next different => exact .inl ⟨once,Function.update_of_ne (Ne.symm different) ..⟩

theorem Once.perform_written {code : Code Cell Content Count Result} (once : Once cell true code)
    (memory : Sections.Memory Cell Content Count) : Once cell true (Sections.perform (code,memory)).1 := by
  cases code with
  | done | acquire | release | add | commit => exact once
  | read _ next => exact once _
  | write other content next =>
    rw [once_write] at once
    split at once
    · cases once.1
    · exact once

theorem Once.iterate {code : Code Cell Content Count Result} (once : Once cell false code)
    (memory : Sections.Memory Cell Content Count) (count : Nat) :
    Once cell false (Sections.perform^[count] (code,memory)).1 ∧
        (Sections.perform^[count] (code,memory)).2.cells cell = memory.cells cell ∨
      Once cell true (Sections.perform^[count] (code,memory)).1 := by
  induction count with
  | zero => exact .inl ⟨once,rfl⟩
  | succ count ih =>
    rw [Function.iterate_succ_apply']
    generalize Sections.perform^[count] (code,memory) = reached at ih ⊢
    rcases ih with ⟨once,same⟩ | written
    · rcases once.perform reached.2 with ⟨still,kept⟩ | written
      · exact .inl ⟨still,kept.trans same⟩
      · exact .inr written
    · exact .inr (written.perform_written reached.2)

end programs

section threads
variable [DecidableEq Cell] [AddCommMonoid Count] [Fintype Thread] {cell : Cell} {rank : Cell → Nat}
variable {state : State Thread Operation Cell Content Count Result} {serial : Serial Thread Operation Cell Content Count Result}
variable {thread : Thread} {operation : Operation}

/-- Nobody else retains a lock that is held alone. -/
theorem apart_of_exclusive (related : Matches rank state serial) (exclusive : state.held thread cell = some .exclusive)
    (code : Code Cell Content Count Result) : serial.Apart cell thread code := by
  obtain ⟨grips,pending,related⟩ := related
  intro other performed rest different began retains
  exact absurd (related.alone thread other cell different.symm exclusive) (related.retained began retains)

/-- The cell is as committed, or as a section that is under way will leave it. -/
theorem found (related : Matches rank state serial)
    (once : ∀ thread operation origin, serial.calls thread = some (operation,origin) → Once cell false origin) :
    state.memory.cells cell = serial.memory.cells cell ∨ ∃ thread operation origin,
      serial.calls thread = some (operation,origin) ∧ serial.Apart cell thread origin ∧
        state.memory.cells cell = (finish origin serial.memory).2.cells cell := by
  have matched := related
  obtain ⟨grips,pending,related⟩ := related
  by_cases untouched : ∀ thread, cell ∈ (grips thread).touched → state.held thread cell ≠ some .exclusive
  · exact .inl (related.same cell untouched)
  push Not at untouched
  obtain ⟨thread,member,exclusive⟩ := untouched
  cases ahead : state.calls thread with
  | none =>
    rw [(related.idle thread ahead).2.1] at member
    exact member.elim
  | some call =>
    obtain ⟨origin,began,follows⟩ := related.busy thread call.1 call.2 ahead
    obtain ⟨count,reached⟩ := follows.reached
    have here := reached serial.memory fun _ _ => rfl
    have content : (perform^[count] (origin,serial.memory)).2.cells cell = state.memory.cells cell := by
      rw [here]
      exact overlay_inside member
    rcases (once thread call.1 origin began).iterate serial.memory count with ⟨_,same⟩ | written
    · exact .inl (content.symm.trans same)
    · refine .inr ⟨thread,call.1,origin,began,apart_of_exclusive matched exclusive origin,?_⟩
      rw [← content,← finish_iterate count]
      exact (written.kept _).symm

/-- While a thread is about to write the cell it is as committed. -/
theorem about_to_write (related : Matches rank state serial)
    (once : ∀ thread operation origin, serial.calls thread = some (operation,origin) → Once cell false origin)
    {content : Content cell} {next : Code Cell Content Count Result}
    (ahead : state.calls thread = some (operation,.write cell content next)) :
    state.memory.cells cell = serial.memory.cells cell ∧ ∃ origin, serial.calls thread = some (operation,origin) ∧
      serial.Apart cell thread origin ∧ (finish origin serial.memory).2.cells cell = content := by
  have matched := related
  obtain ⟨grips,pending,related⟩ := related
  obtain ⟨origin,began,follows⟩ := related.busy thread _ _ ahead
  obtain ⟨count,reached⟩ := follows.reached
  have here := reached serial.memory fun _ _ => rfl
  have before := (once thread operation origin began).iterate serial.memory count
  rw [here] at before
  simp only [once_write,if_pos] at before
  obtain ⟨⟨_,written⟩,same⟩ : (_ ∧ Once cell true next) ∧ _ := before.resolve_right fun other => by cases other.1
  have exclusive : state.held thread cell = some .exclusive := by
    rw [← related.held,follows.guarded.1]
  refine ⟨?_,origin,began,apart_of_exclusive matched exclusive origin,?_⟩
  · by_cases member : cell ∈ (grips thread).touched
    · rw [overlay_inside member] at same
      exact same
    · refine related.same_of_held ?_ member
      rw [exclusive]
      exact nofun
  · rw [← finish_iterate count,here]
    exact (written.kept _).trans (Function.update_self ..)

end threads

section objects
variable [DecidableEq Cell] [AddCommMonoid Count] [DecidableEq Thread] {cell : Cell} {rank : Cell → Nat}
variable {view : Memory → Sections.Memory Cell Content Count} {script : Operation → Script Memory Result}
variable {implement : Operation → Code Cell Content Count Result}

theorem serial_once (once : ∀ operation, Once cell false (implement operation)) {memory : Sections.Memory Cell Content Count}
    {history : List (Event Thread Operation Result)} {serial : Serial Thread Operation Cell Content Count Result}
    (run : Run (Serial.Step implement) (.start memory) history serial) :
    ∀ thread operation origin, serial.calls thread = some (operation,origin) → Once cell false origin := by
  let Fine : Serial Thread Operation Cell Content Count Result → Prop := fun serial =>
    ∀ thread operation origin, serial.calls thread = some (operation,origin) → Once cell false origin
  have fine : Fine serial := by
    refine run.invariant (fun before event after step fine => ?_) nofun
    intro other performed origin found
    cases step with
    | @call thread operation idle =>
      by_cases mine : other = thread
      · subst mine
        simp only [Serial.go,Function.update_self,Option.some.injEq,Prod.mk.injEq] at found
        rw [← found.2]
        exact once operation
      · exact fine other performed origin (by simpa [Serial.go,mine] using found)
    | @ret thread operation result ahead =>
      by_cases mine : other = thread
      · subst mine
        simp [Serial.go] at found
      · exact fine other performed origin (by simpa [Serial.go,mine] using found)
    | @whole thread operation code ahead apart =>
      by_cases mine : other = thread
      · subst mine
        simp only [Serial.go,Function.update_self,Option.some.injEq,Prod.mk.injEq] at found
        rw [← found.2]
        exact (fine other operation code ahead).finish before.memory
      · exact fine other performed origin (by simpa [Serial.go,mine] using found)
  exact fine

variable [Fintype Thread]

/-- The cell is as an order of the operations leaves it, and every thread about to write it
would write what one operation more leaves there. -/
theorem run_interrupted (wellLocked : ∀ operation, WellLocked rank (implement operation))
    (carries : ∀ operation, ∃ depth, Carries view cell depth (implement operation) (script operation))
    (once : ∀ operation, Once cell false (implement operation)) {memory : Memory}
    {history : List (Event Thread Operation Result)} {state : State Thread Operation Cell Content Count Result}
    (run : Run (Sections.Step implement) (.start (view memory)) history state) :
    ∃ object, Run (Object.Step script (shown view cell)) (.start memory) history object ∧
      state.memory.cells cell = (view object.memory).cells cell ∧
      ∀ thread operation content next, state.calls thread = some (operation,.write cell content next) →
        ∃ after, Object.Further script (shown view cell) object after ∧ (view after.memory).cells cell = content := by
  obtain ⟨serial,atomic,related⟩ := run_serial wellLocked run
  have once := serial_once once atomic
  have begun : Tracks view cell (Serial.start (view memory) : Serial Thread Operation Cell Content Count Result)
      (.start memory) := ⟨rfl,fun _ => .idle⟩
  obtain ⟨object,acted,tracks⟩ := atomic.simulated (fun _ _ _ _ step tracks => Tracks.step carries step tracks) begun
  by_cases writes : ∃ thread operation content next, state.calls thread = some (operation,.write cell content next)
  · obtain ⟨thread,operation,content,next,ahead⟩ := writes
    have same := (about_to_write related once ahead).1
    rw [tracks.memory] at same
    refine ⟨object,acted,same,fun other performed written rest found => ?_⟩
    obtain ⟨_,origin,began,apart,whole⟩ := about_to_write related once found
    obtain ⟨after,further,tracked⟩ := tracks.whole began apart
    exact ⟨after,further,by rw [← tracked.memory]; exact whole⟩
  · have vacuous : ∀ thread operation content next, state.calls thread ≠ some (operation,.write cell content next) :=
      fun thread operation content next ahead => writes ⟨thread,operation,content,next,ahead⟩
    rcases found related once with same | ⟨thread,operation,origin,began,apart,final⟩
    · rw [tracks.memory] at same
      exact ⟨object,acted,same,fun _ _ _ _ ahead => absurd ahead (vacuous _ _ _ _)⟩
    · obtain ⟨after,further,tracked⟩ := tracks.whole began apart
      have extended : Run (Object.Step script (shown view cell)) (.start memory) history after := by
        rw [← List.append_nil history]
        exact acted.trans further.run
      refine ⟨after,extended,?_,fun _ _ _ _ ahead => absurd ahead (vacuous _ _ _ _)⟩
      rw [← tracked.memory]
      exact final

end objects

end Interruption
