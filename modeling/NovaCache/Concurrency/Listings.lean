import NovaCache.Concurrency.Counters
import NovaCache.Concurrency.Sweeps
import NovaCache.Store.Refinement

/-! KEYS while other threads are at work. The walk looks at one shard after the other, so that
its list need not be what the store held at any one moment. -/
namespace NovaCache.Concurrency
open Sections Linearization
open Simulation (Run Passes)
open Persistence (PersistenceEngine RecoveryClock writerAt)
open Locking (Lock)
open Store (shardIndex)

variable {config : StoreConfig} {store : Store config} {Thread : Type} {now : Int}

abbrev ObjectStep [DecidableEq Thread] (object : Object Thread (Operation config) (System config) Reply)
    (event : Option (Event Thread (Operation config) Reply)) (after : Object Thread (Operation config) (System config) Reply) :
    Prop :=
  Object.Step Operation.script Prod.fst object event after

/-- What is left of a listing. -/
def keysLeft (now : Int) (ahead : List (Fin config.shardCount)) (listed : List (Bytes × Entry)) :
    Script (System config) Reply :=
  ((sweepScript false now ahead listed).map fun listed =>
    .keys ⟨.ok,(listed.map Prod.fst).mergeSort Store.lexLe⟩).behind

theorem script_keys (now : Int) :
    (Operation.keys [0x2A] now : Operation config).script = keysLeft now (List.finRange config.shardCount) [] := by
  simp only [Operation.script,Operation.steps,keysLeft,ne_eq,not_true_eq_false,if_false]

variable {object after : Object Thread (Operation config) (System config) Reply} {thread : Thread}
variable {events : List (Event Thread (Operation config) Reply)}
variable {moments : List (Object Thread (Operation config) (System config) Reply)}

/-- What comes of a listing that is under way: what it lists was listed before or is there at some
moment, and what is there at every moment is listed, unless its shard has been passed without it. -/
structure Finishes (now : Int) (listed : List (Bytes × Entry)) (ahead : List (Fin config.shardCount))
    (moments : List (Object Thread (Operation config) (System config) Reply)) (found : List (Bytes × Entry)) : Prop where
  distinct : (found.map Prod.fst).Nodup
  seen : ∀ item ∈ found, item ∈ listed ∨ ∃ moment ∈ moments, moment.memory.2.live item.1 now = some item.2
  whole : ∀ key, (∀ moment ∈ moments, (moment.memory.2.live key now).isSome = true) →
    (shardIndex config key ∉ ahead → key ∈ listed.map Prod.fst) → key ∈ found.map Prod.fst

variable {listed found : List (Bytes × Entry)} {ahead : List (Fin config.shardCount)}

theorem Finishes.before (finishes : Finishes now listed ahead moments found) :
    Finishes now listed ahead (object::moments) found where
  distinct := finishes.distinct
  seen item member := by
    refine (finishes.seen item member).imp_right fun seen => ?_
    obtain ⟨moment,inside,live⟩ := seen
    exact ⟨moment,List.mem_cons_of_mem _ inside,live⟩
  whole key always := finishes.whole key fun moment inside => always moment (List.mem_cons_of_mem _ inside)

theorem Finishes.sweep {index : Fin config.shardCount} (placed : object.memory.2.Placed)
    (finishes : Finishes now (listed ++ (object.memory.2.sweepShard index now).1) ahead moments found) :
    Finishes now listed (index::ahead) (object::moments) found where
  distinct := finishes.distinct
  seen item member := by
    obtain ⟨_,members,_⟩ := Store.sweepShard_spec object.memory.2 placed index now
    rcases finishes.seen item member with known | ⟨moment,inside,live⟩
    · rcases List.mem_append.mp known with listed | live
      · exact .inl listed
      · exact .inr ⟨object,List.mem_cons_self ..,((members item.1 item.2).mp live).1⟩
    · exact .inr ⟨moment,List.mem_cons_of_mem _ inside,live⟩
  whole key always earlier := by
    obtain ⟨_,members,_⟩ := Store.sweepShard_spec object.memory.2 placed index now
    refine finishes.whole key (fun moment inside => always moment (List.mem_cons_of_mem _ inside)) fun passed => ?_
    rw [List.map_append]
    by_cases here : shardIndex config key = index
    · obtain ⟨entry,live⟩ := Option.isSome_iff_exists.mp (always object (List.mem_cons_self ..))
      exact List.mem_append_right _ (List.mem_map.mpr ⟨(key,entry),(members key entry).mpr ⟨live,here⟩,rfl⟩)
    · refine List.mem_append_left _ (earlier ?_)
      rw [List.mem_cons,not_or]
      exact ⟨here,passed⟩

variable [DecidableEq Thread]

/-- A listing from any point of its walk to its end, whatever the other threads do meanwhile. -/
theorem listing_finishes {reply : Reply} (passes : Passes ObjectStep object events moments after)
    (stays : ∀ operation other, .ret thread operation other ∉ events)
    (kept : object.Kept fun system => system.2.Accounted) (walked : Walked listed ahead) (once : ahead.Nodup)
    (here : object.calls thread = some (.keys [0x2A] now,keysLeft now ahead listed))
    (ended : after.calls thread = some (.keys [0x2A] now,.done reply)) :
    ∃ found, reply = .keys ⟨.ok,(found.map Prod.fst).mergeSort Store.lexLe⟩ ∧ Finishes now listed ahead moments found := by
  induction passes generalizing listed ahead with
  | rest object =>
    rw [here] at ended
    cases ahead with
    | cons => cases ended
    | nil =>
      cases ended
      exact ⟨listed,rfl,walked.distinct,fun item member => .inl member,fun key _ earlier => earlier List.not_mem_nil⟩
  | @go object next last event events moments first further ih =>
    have remains : ∀ operation other, .ret thread operation other ∉ events :=
      fun operation other member => stays operation other (List.mem_append_right _ member)
    have placed := kept.1.placed
    have kept := kept.step script_keeps first
    -- The steps of other threads leave the walk as it is.
    have waits : next.calls thread = object.calls thread →
        ∃ found, reply = .keys ⟨.ok,(found.map Prod.fst).mergeSort Store.lexLe⟩ ∧
          Finishes now listed ahead (object::moments) found := by
      intro same
      obtain ⟨found,answer,finishes⟩ := ih remains kept walked once (same.trans here) ended
      exact ⟨found,answer,finishes.before⟩
    cases first with
    | @call caller operation idle =>
      refine waits (Function.update_of_ne ?_ ..)
      rintro rfl
      rw [idle] at here
      cases here
    | @ret caller operation result pending =>
      refine waits (Function.update_of_ne ?_ ..)
      rintro rfl
      exact stays operation result (List.mem_append_left _ (List.mem_singleton_self _))
    | @point caller operation _ _ action rest pending apart =>
      by_cases mine : thread = caller
      · subst mine
        rw [here] at pending
        cases ahead with
        | nil => cases pending
        | cons index ahead =>
          cases pending
          obtain ⟨absent,once⟩ := List.nodup_cons.mp once
          obtain ⟨found,answer,finishes⟩ := ih remains kept (walked.sweep absent placed now) once (Function.update_self ..) ended
          exact ⟨found,answer,finishes.sweep placed⟩
      · exact waits (Function.update_of_ne mine ..)

variable [Fintype Thread]

/-- A listing lists every key once, in order, and only keys that were there at some moment between
its call and its return; a key that was there all the time is among them. The moments are those of
an order of actions that explains what all threads saw. -/
theorem listing_explained {found engine : PersistenceEngine} {clock : RecoveryClock}
    (recovered : found.recoverInto (Store.empty : Store config) clock = .ok (engine,store))
    (early middle late : List (Event Thread (Operation config) Reply)) (reply : Reply)
    (state : State Thread (Operation config) (Lock config) (Content config) Counters Reply)
    (run : Run (Step Operation.program) (.start (view (engine,store)))
      (early ++ .call thread (.keys [0x2A] now)::(middle ++ .ret thread (.keys [0x2A] now) reply::late)) state)
    (stays : ∀ operation other, .ret thread operation other ∉ middle) :
    ∃ before moments after last names,
      Run ObjectStep (.start (engine,store)) (early ++ [.call thread (.keys [0x2A] now)]) before ∧
      Passes ObjectStep before middle moments after ∧
      Run ObjectStep after (.ret thread (.keys [0x2A] now) reply::late) last ∧
      reply = .keys ⟨.ok,names⟩ ∧ names.Pairwise (· < ·) ∧
      (∀ key ∈ names, ∃ moment ∈ moments, (moment.memory.2.live key now).isSome = true) ∧
      ∀ key, (∀ moment ∈ moments, (moment.memory.2.live key now).isSome = true) → key ∈ names := by
  obtain ⟨last,serial,shown,_,_⟩ := run_scripted program_wellLocked program_carries run
  -- The order of actions, cut at the call and at the return.
  obtain ⟨first,started,shown⟩ := shown.split
  obtain ⟨idle,before,silent,called,shown⟩ := shown.shows
  obtain ⟨second,during,shown⟩ := shown.split
  obtain ⟨after,gone,pause,returned,shown⟩ := shown.shows
  have begun : Run ObjectStep (.start (engine,store)) (early ++ [] ++ [.call thread (.keys [0x2A] now)]) before :=
    (started.trans silent).trans (.single called)
  rw [List.append_nil] at begun
  have during : Run ObjectStep before (middle ++ []) after := during.trans pause
  rw [List.append_nil] at during
  obtain ⟨moments,passes⟩ := during.passes
  have kept := run_keeps script_keeps begun (accounted_recoverInto Store.accounted_empty recovered)
  have here : before.calls thread = some (.keys [0x2A] now,keysLeft now (List.finRange config.shardCount) []) := by
    cases called
    rw [← script_keys]
    exact Function.update_self ..
  have ended : after.calls thread = some (.keys [0x2A] now,.done reply) := by
    cases returned with
    | ret pending => exact pending
  obtain ⟨names,answer,finishes⟩ := listing_finishes passes stays kept walked_start (List.nodup_finRange _) here ended
  refine ⟨before,moments,after,last,_,begun,passes,.go returned shown,answer,?_,fun key member => ?_,fun key always => ?_⟩
  · exact sorted_keys _ finishes.distinct
  · obtain ⟨item,inside,rfl⟩ := List.mem_map.mp (List.mem_mergeSort.mp member)
    obtain ⟨moment,passed,live⟩ := (finishes.seen item inside).resolve_left List.not_mem_nil
    exact ⟨moment,passed,Option.isSome_iff_exists.mpr ⟨item.2,live⟩⟩
  · exact List.mem_mergeSort.mpr (finishes.whole key always fun passed => absurd (List.mem_finRange _) passed)

def listing : Operation oneShard := .keys [0x2A] 0

-- The key is set between the call and the return.
theorem overlapping_listed : ∃ state names,
    Run (Step Operation.program) (.start (view (⟨.none,none,writerAt 0 [] 0⟩,(Store.empty : Store oneShard))))
      [.call true listing,.call false setting,.ret false setting .done,.ret true listing (.keys ⟨.ok,names⟩)] state ∧
    names.Pairwise (· < ·) := by
  have run : ∃ state reply, Run (Step Operation.program)
      (.start (view (⟨.none,none,writerAt 0 [] 0⟩,(Store.empty : Store oneShard))))
      [.call true listing,.call false setting,.ret false setting .done,.ret true listing reply] state := by
    apply Exists.intro
    apply Exists.intro
    apply Run.go (Step.call rfl)
    apply Run.go (Step.call rfl)
    apply run_advances (List.replicate 6 false) rfl
    apply Run.go (Step.ret rfl)
    apply run_advances (List.replicate 4 true) rfl
    apply Run.go (Step.ret rfl)
    apply Run.rest
  obtain ⟨state,reply,run⟩ := run
  have recovered : (PersistenceEngine.new .none none []).recoverInto (Store.empty : Store oneShard)
      (fun _ => (⟨0,0⟩,⟨0,0⟩)) = .ok (⟨.none,none,writerAt 0 [] 0⟩,Store.empty) := rfl
  have stays : ∀ operation other, .ret true operation other ∉
      ([.call false setting,.ret false setting .done] : List (Event Bool (Operation oneShard) Reply)) := by
    intro operation other member
    simp at member
  obtain ⟨_,_,_,_,names,_,_,_,rfl,sorted,_,_⟩ := listing_explained recovered []
    [.call false setting,.ret false setting .done] [] reply state run stays
  exact ⟨state,names,run,sorted⟩

end NovaCache.Concurrency
