import NovaCache.Persistence.Engine
import NovaCache.Persistence.WalRecovery
import NovaCache.Store.Refinement
import Mathlib.Tactic.Linarith

/-! Replay at a later time. A mutation is replayed when deadlines that were still running
in the live run have come, so an EXPIRE that moved such a deadline finds its key gone. -/
namespace NovaCache

/-- Values with their wall expiries, the content that a restart has to keep. -/
abbrev Persistence.WallMap := Bytes → Option (Value × Option Int)

/-- What a reader sees in the store: each live key with its value and its wall expiry. -/
def Store.content {config : StoreConfig} (store : Store config) (now : Int) : Persistence.WallMap :=
  fun key => (store.live key now).map fun entry => (entry.value,entry.expiresAtWall)

namespace Persistence
open ExpiringMap Reference
variable {config : StoreConfig}

/-- Both clocks at one wall time; they advance by equal amounts. -/
def moment (base wall : Int) : Instant := ⟨1000 * wall + base,wall⟩

theorem deadline_moment (base wall expiry : Int) : deadline (moment base wall) expiry = 1000 * expiry + base := by
  simp only [deadline,moment]
  omega

def WallMap.apply (map : WallMap) (logged : Logged) (time : Int) : WallMap :=
  match logged with
  | .set key value => put map key (some (.string value,none))
  | .del keys => fun key => if key ∈ keys then none else map key
  | .expire key millis => put map key ((visible Prod.snd map time key).bind fun found =>
      if fromUnixMs millis ≤ time then none else some (found.1,some (fromUnixMs millis)))

def cellAt (base : Int) (found : Value × Option Int) : Cell :=
  ⟨found.1,found.2.map (fun wall => 1000 * wall + base),found.2⟩

/-- The map as the store of a process with this steady clock keeps it. -/
def lift (base : Int) (map : WallMap) : Map := fun key => (map key).map (cellAt base)

theorem due_cellAt (base now : Int) (found : Value × Option Int) :
    Due Cell.deadline (cellAt base found) now ↔ Due Prod.snd found ((now - base) / 1000) := by
  rcases found with ⟨value,_ | expiry⟩
  · simp [Due,cellAt]
  · simp only [Due,cellAt,Option.map_some,Option.mem_some_iff,exists_eq_left']
    omega

theorem live_lift (base now : Int) (map : WallMap) (key : Bytes) :
    live (lift base map) now key = (visible Prod.snd map ((now - base) / 1000) key).map (cellAt base) := by
  change ((map key).map (cellAt base)).filter _ = ((map key).filter _).map (cellAt base)
  cases map key with
  | none => rfl
  | some found => simp [Option.filter,due_cellAt,apply_ite (Option.map (cellAt base))]

theorem moment_wall (base wall : Int) : (1000 * wall + base - base) / 1000 = wall := by omega

theorem lift_put (base : Int) (map : WallMap) (key : Bytes) (found : Option (Value × Option Int)) :
    put (lift base map) key (found.map (cellAt base)) = lift base (put map key found) := by
  funext other
  change (if other = key then _ else _) = Option.map (cellAt base) (if other = key then _ else _)
  split <;> rfl

def Logged.storeOp (logged : Logged) (first second : Instant) : StoreOp :=
  match logged with
  | .set key value => .setExpiring key (.string value) none first
  | .del keys => .delMany keys first.now
  | .expire key millis => .expireAt key (some (fromUnixMs millis)) first second

theorem after_lift (base time later : Int) (map : WallMap) (logged : Logged) :
    after (lift base map) (logged.storeOp (moment base time) (moment base later)) =
      lift base (map.apply logged time) := by
  cases logged with
  | set key value => exact lift_put base map key (some (.string value,none))
  | del keys =>
    funext key
    simp only [after,Logged.storeOp,lift,WallMap.apply]
    split <;> rfl
  | expire key millis =>
    change reschedule _ key _ _ _ = _
    rw [reschedule,WallMap.apply,← lift_put]
    congr 1
    change (live (lift base map) (1000 * time + base) key).bind _ = _
    rw [live_lift,moment_wall,Option.bind_map,Option.map_bind]
    congr 1
    funext found
    simp only [Function.comp_apply,moved,deadline_moment]
    change (if fromUnixMs millis ≤ time then _ else _) = _
    split <;> rfl

theorem logged_refines {now : Int} {store : Store config} {base : Int} {map : WallMap}
    (refines : Refines now store (lift base map)) (logged : Logged) (time later : Int)
    (order : now ≤ 1000 * time + base) :
    Refines (1000 * time + base) (logged.apply store (moment base time) (moment base later))
      (lift base (map.apply logged time)) := by
  rw [← after_lift base time later]
  cases logged with
  | set key value =>
    obtain ⟨_,_,stepped,_,kept⟩ := step_refines refines (.setExpiring key (.string value) none (moment base time)) rfl order
    cases stepped
    exact kept
  | del keys =>
    obtain ⟨_,_,stepped,_,kept⟩ := step_refines refines (.delMany keys (1000 * time + base)) rfl order
    cases stepped
    exact kept
  | expire key millis =>
    obtain ⟨_,_,stepped,_,kept⟩ := step_refines refines
      (.expireAt key (some (fromUnixMs millis)) (moment base time) (moment base later)) rfl order
    cases stepped
    exact kept

/-- Calls that change no visible content. -/
def reads : StoreOp → Bool
  | .get _ _ | .exists_ _ _ | .existsMany _ _ | .ttl _ _ | .keys _ _ | .expiryWallTime _ _
  | .exportSnapshotEntries _ | .activeExpireCycle _ _ _ => true
  | .set _ _ _ | .setExpiring _ _ _ _ | .del _ _ | .delMany _ _ | .expire _ _ _ _ _ | .expireAt _ _ _ _ => false

theorem read_refines {now : Int} {store : Store config} {map : Map} (refines : Refines now store map) (op : StoreOp)
    (only : reads op = true) (order : now ≤ op.now) :
    ∃ result next, store.step op = .ok (result,next) ∧ Refines op.now next map := by
  cases observes : op.observes with
  | true =>
    obtain ⟨result,next,stepped,_,kept⟩ := step_refines refines op observes order
    refine ⟨result,next,stepped,?_⟩
    cases op <;> first | exact kept | cases only
  | false =>
    cases op with
    | activeExpireCycle samples draws time =>
      obtain ⟨gone,next,cycled,dropped⟩ := store.activeExpireCycle_spec samples draws time refines.placed
      refine ⟨.count gone.card,next,?_,(cycle_refines refines order dropped).2.2⟩
      rw [Store.step,cycled]
      rfl
    | _ => cases observes

inductive LiveStep
  | read (op : StoreOp)
  | mutate (mutation : Mutation) (io : Io) (wallNow first second : Int)

namespace LiveStep

def now (base : Int) : LiveStep → Int
  | .read op => op.now
  | .mutate _ _ _ first _ => 1000 * first + base

def Fine : LiveStep → Prop
  | .read op => reads op = true
  | .mutate mutation io wallNow _ _ => io.Faultless ∧ (mutation.logged wallNow).Short

end LiveStep

def runLive (base : Int) :
    List LiveStep → PersistenceEngine → Store config → Except Failure (List WalRecord × PersistenceEngine × Store config)
  | [], engine, store => .ok ([],engine,store)
  | .read op::steps, engine, store => do
    let (_,store) ← store.step op
    runLive base steps engine store
  | .mutate mutation io wallNow first second::steps, engine, store =>
    match engine.perform io store mutation wallNow (moment base first) (moment base second) with
    | (.error failure,_,_) => .error failure
    | (.ok (),engine,store) => do
      let logged := mutation.logged wallNow
      let record : WalRecord := ⟨engine.wal.lastOffset,logged.opcode,logged.payload⟩
      let (records,engine,store) ← runLive base steps engine store
      .ok (record::records,engine,store)

def applyRecords (clock : RecoveryClock) : Nat → List WalRecord → Store config → Except Failure (Store config)
  | _, [], store => .ok store
  | index, record::records, store => do
    let store ← applyRecord store record (clock index).1 (clock index).2
    applyRecords clock (index + 1) records store

def contentAfter (map : WallMap) : List LiveStep → WallMap
  | [] => map
  | .read _::steps => contentAfter map steps
  | .mutate mutation _ wallNow first _::steps => contentAfter (map.apply (mutation.logged wallNow) first) steps

def loggedIn : List LiveStep → List (Logged × Int)
  | [] => []
  | .read _::steps => loggedIn steps
  | .mutate mutation _ wallNow first _::steps => (mutation.logged wallNow,first)::loggedIn steps

def Records (records : List WalRecord) (late : List (Logged × Int)) : Prop :=
  List.Forall₂ (fun record entry => record.opcode = entry.1.opcode ∧ record.payload = entry.1.payload) records late

theorem runLive_refines (base : Int) (steps : List LiveStep) (engine : PersistenceEngine) (store : Store config)
    (map : WallMap) (now : Int) (opened : engine.wal.isOpen = true) (refines : Refines now store (lift base map))
    (ordered : (now::steps.map (LiveStep.now base)).Pairwise (· ≤ ·)) (fine : ∀ step ∈ steps, step.Fine) :
    ∃ records next final last, runLive base steps engine store = .ok (records,next,final) ∧
      next.wal.isOpen = true ∧ last ∈ now::steps.map (LiveStep.now base) ∧
      Refines last final (lift base (contentAfter map steps)) ∧ Records records (loggedIn steps) := by
  induction steps generalizing engine store map now with
  | nil => exact ⟨[],engine,store,now,rfl,opened,List.mem_singleton.mpr rfl,refines,List.Forall₂.nil⟩
  | cons step steps ih =>
    obtain ⟨here,others⟩ := List.forall_mem_cons.mp fine
    rw [List.map_cons,List.pairwise_cons] at ordered
    obtain ⟨first,rest⟩ := ordered
    have order := first _ List.mem_cons_self
    cases step with
    | read op =>
      obtain ⟨result,next,stepped,kept⟩ := read_refines refines op here order
      obtain ⟨records,engine',final,last,ran,opened',member,refined,logged⟩ :=
        ih engine next map op.now opened kept rest others
      refine ⟨records,engine',final,last,?_,opened',List.mem_cons_of_mem _ member,refined,logged⟩
      rw [runLive,stepped]
      exact ran
    | mutate mutation io wallNow time later =>
      obtain ⟨engine',appended,opened',_⟩ := log_faultless engine io here.1 (mutation.logged wallNow).opcode
        (mutation.logged wallNow).payload opened
      have performed := perform_eq engine io store mutation wallNow (moment base time) (moment base later)
      rw [appended] at performed
      have kept := logged_refines refines (mutation.logged wallNow) time later order
      obtain ⟨records,engine'',final,last,ran,opened'',member,refined,logged⟩ :=
        ih engine' _ _ _ opened' kept rest others
      refine ⟨⟨engine'.wal.lastOffset,(mutation.logged wallNow).opcode,(mutation.logged wallNow).payload⟩::records,
        engine'',final,last,?_,opened'',List.mem_cons_of_mem _ member,refined,List.Forall₂.cons ⟨rfl,rfl⟩ logged⟩
      rw [runLive,performed]
      dsimp only
      rw [ran]
      rfl

/-- Every expiry that a live run leaves is a whole number of milliseconds. -/
def Whole (map : WallMap) : Prop :=
  ∀ key value wall, map key = some (value,some wall) → wall.tdiv 1000 * 1000 = wall

theorem whole_apply {map : WallMap} (whole : Whole map) (logged : Logged) (time : Int) :
    Whole (map.apply logged time) := by
  intro key value wall found
  cases logged with
  | set name stored =>
    simp only [WallMap.apply,put] at found
    split at found
    · cases found
    · exact whole key value wall found
  | del keys =>
    simp only [WallMap.apply] at found
    split at found
    · cases found
    · exact whole key value wall found
  | expire name millis =>
    simp only [WallMap.apply,put] at found
    split at found
    · obtain ⟨cell,_,moved⟩ := Option.bind_eq_some_iff.mp found
      split at moved
      · cases moved
      · cases moved
        exact fromUnixMs_whole millis
    · exact whole key value wall found

theorem whole_contentAfter (steps : List LiveStep) (map : WallMap) (whole : Whole map) :
    Whole (contentAfter map steps) := by
  induction steps generalizing map with
  | nil => exact whole
  | cons step steps ih =>
    cases step with
    | read op => exact ih map whole
    | mutate mutation io wallNow first second => exact ih _ (whole_apply whole _ _)

/-- How a replayed map stands to the live one at a key: nothing is there once a deadline
came too early, and otherwise they differ at most by a cell that is due. -/
def Follows (time : Int) (map replayed : WallMap) (key : Bytes) (lost : Bool) : Prop :=
  if lost then replayed key = none
  else replayed key = map key ∨ replayed key = none ∧ ∃ found ∈ map key, Due Prod.snd found time

theorem Follows.later {time later : Int} {map replayed : WallMap} {key : Bytes} {lost : Bool}
    (follows : Follows time map replayed key lost) (order : time ≤ later) : Follows later map replayed key lost := by
  unfold Follows at follows ⊢
  split
  · next gone => rwa [if_pos gone] at follows
  · next kept =>
    rw [if_neg kept] at follows
    rcases follows with same | ⟨gone,found,member,due⟩
    · exact Or.inl same
    · exact Or.inr ⟨gone,found,member,due.later order⟩

/-- Whether replaying a record at this time loses the key. A SET writes the key anew. An
EXPIRE misses it when the deadline it had at the time of the mutation has come. -/
def overtakes (map : WallMap) (logged : Logged) (time replay : Int) (key : Bytes) (lost : Bool) : Bool :=
  match logged with
  | .set name _ => if key = name then false else lost
  | .del _ => lost
  | .expire name _ => lost || decide (key = name ∧ ∃ found ∈ visible Prod.snd map time key, Due Prod.snd found replay)

theorem follows_expire {map replayed : WallMap} {key : Bytes} {lost : Bool} {lived replay : Int} (millis : Int64)
    (follows : Follows replay map replayed key lost) (early : lived ≤ replay) :
    Follows replay (map.apply (.expire key millis) lived) (replayed.apply (.expire key millis) replay) key
      (overtakes map (.expire key millis) lived replay key lost) := by
  simp only [Follows,overtakes,WallMap.apply,put,if_true,true_and]
  cases lost with
  | true =>
    have gone : replayed key = none := follows
    simp [visible_eq_none.mpr (show ∀ found ∈ replayed key, Due Prod.snd found replay by simp [gone])]
  | false =>
    replace follows : replayed key = map key ∨ replayed key = none ∧ ∃ found ∈ map key, Due Prod.snd found replay :=
      follows
    cases seen : visible Prod.snd map lived key with
    | none =>
      -- the live EXPIRE found nothing, and what was already due stays due
      have hidden : visible Prod.snd replayed replay key = none := by
        refine visible_eq_none.mpr fun found member => ?_
        rcases follows with same | ⟨gone,_⟩
        · exact (visible_eq_none.mp seen found (same ▸ member)).later early
        · simp [gone] at member
      simp [hidden]
    | some found =>
      obtain ⟨stored,running⟩ := visible_eq_some.mp seen
      by_cases due : Due Prod.snd found replay
      · have hidden : visible Prod.snd replayed replay key = none := by
          refine visible_eq_none.mpr fun other member => ?_
          rcases follows with same | ⟨gone,_⟩
          · rw [same,stored,Option.mem_some_iff] at member
            exact member ▸ due
          · simp [gone] at member
        simp [due,hidden]
      · have found' : visible Prod.snd replayed replay key = some found := by
          refine visible_eq_some.mpr ⟨?_,due⟩
          rcases follows with same | ⟨_,other,member,past⟩
          · rw [same,stored]
          · rw [stored,Option.mem_some_iff] at member
            exact absurd (member ▸ past) due
        simp only [found',Option.bind_some,Option.mem_some_iff,exists_eq_left',due,decide_false,Bool.or_self,
          Bool.false_eq_true,if_false]
        by_cases past : fromUnixMs millis ≤ lived
        · exact Or.inl (by rw [if_pos past,if_pos (le_trans past early)])
        · rw [if_neg past]
          by_cases passed : fromUnixMs millis ≤ replay
          · rw [if_pos passed]
            exact Or.inr ⟨rfl,_,rfl,fromUnixMs millis,rfl,passed⟩
          · exact Or.inl (if_neg passed)

theorem follows_apply {time : Int} {map replayed : WallMap} {key : Bytes} {lost : Bool}
    (follows : Follows time map replayed key lost) (logged : Logged) (lived replay : Int) (early : lived ≤ replay)
    (order : time ≤ replay) :
    Follows replay (map.apply logged lived) (replayed.apply logged replay) key
      (overtakes map logged lived replay key lost) := by
  have kept := follows.later order
  cases logged with
  | set name value =>
    unfold Follows overtakes at *
    simp only [WallMap.apply,put]
    by_cases same : key = name
    · simp [same]
    · simpa [same] using kept
  | del keys =>
    unfold Follows overtakes at *
    simp only [WallMap.apply]
    by_cases member : key ∈ keys
    · simp [member]
    · simpa [member] using kept
  | expire name millis =>
    by_cases same : key = name
    · subst same
      exact follows_expire millis kept early
    · unfold Follows overtakes at *
      simpa [WallMap.apply,put,same] using kept

/-- Both maps over the logged mutations, and the keys the replay loses. -/
def replayAfter (replays : Nat → Int × Int) : Nat → WallMap → List (Logged × Int) → WallMap
  | _, map, [] => map
  | index, map, (logged,_)::late => replayAfter replays (index + 1) (map.apply logged (replays index).1) late

def overtaken (replays : Nat → Int × Int) (key : Bytes) : Nat → WallMap → List (Logged × Int) → Bool → Bool
  | _, _, [], lost => lost
  | index, map, (logged,time)::late, lost =>
    overtaken replays key (index + 1) (map.apply logged time) late
      (overtakes map logged time (replays index).1 key lost)

def mutationsAfter (map : WallMap) (late : List (Logged × Int)) : WallMap :=
  late.foldl (fun map entry => map.apply entry.1 entry.2) map

theorem contentAfter_eq (map : WallMap) (steps : List LiveStep) :
    contentAfter map steps = mutationsAfter map (loggedIn steps) := by
  induction steps generalizing map with
  | nil => rfl
  | cons step steps ih =>
    cases step with
    | read op => exact ih map
    | mutate mutation io wallNow first second => exact ih _

theorem follows_replay (replays : Nat → Int × Int) (key : Bytes) (late : List (Logged × Int)) (index : Nat)
    (map replayed : WallMap) (lost : Bool) (time finish : Int) (follows : Follows time map replayed key lost)
    (start : time ≤ (replays index).1) (ordered : ∀ index, (replays index).1 ≤ (replays (index + 1)).1)
    (early : ∀ entry ∈ late, entry.2 ≤ (replays index).1) (last : ∀ index, (replays index).1 ≤ finish) :
    Follows finish (mutationsAfter map late) (replayAfter replays index replayed late) key
      (overtaken replays key index map late lost) := by
  induction late generalizing index map replayed lost time with
  | nil => exact follows.later (le_trans start (last index))
  | cons entry late ih =>
    obtain ⟨logged,lived⟩ := entry
    obtain ⟨here,others⟩ := List.forall_mem_cons.mp early
    exact ih (index + 1) _ _ _ _ (follows_apply follows logged lived (replays index).1 here start) (ordered index)
      fun entry member => le_trans (others entry member) (ordered index)

def clockOf (base : Int) (walls : Nat → Int × Int) : RecoveryClock :=
  fun index => (moment base (walls index).1,moment base (walls index).2)

theorem applyRecords_refines (base : Int) (replays : Nat → Int × Int) (records : List WalRecord)
    (late : List (Logged × Int)) (index : Nat) (now : Int) (store : Store config) (map : WallMap)
    (logged : Records records late) (short : ∀ entry ∈ late, entry.1.Short)
    (refines : Refines now store (lift base map)) (start : now ≤ 1000 * (replays index).1 + base)
    (ordered : ∀ index, (replays index).1 ≤ (replays (index + 1)).1) :
    ∃ final last, applyRecords (clockOf base replays) index records store = .ok final ∧
      last ≤ 1000 * (replays (index + records.length)).1 + base ∧
      Refines last final (lift base (replayAfter replays index map late)) := by
  induction logged generalizing index now store map with
  | nil => exact ⟨store,now,rfl,start,refines⟩
  | @cons record entry records late same rest ih =>
    obtain ⟨here,others⟩ := List.forall_mem_cons.mp short
    obtain ⟨offset,opcode,payload⟩ := record
    obtain ⟨rfl,rfl⟩ := same
    have kept := logged_refines refines entry.1 (replays index).1 (replays index).2 start
    obtain ⟨final,last,ran,bound,refined⟩ := ih (index + 1) _ _ _ others kept (by linarith [ordered index])
    refine ⟨final,last,?_,?_,refined⟩
    · rw [applyRecords,applyRecord_logged store offset entry.1 _ _ here,ok_bind]
      exact ran
    · rwa [List.length_cons,Nat.add_comm records.length,← Nat.add_assoc]

def importedInto (imports : Nat → Int × Int) : Nat → List PersistedEntry → WallMap → WallMap
  | _, [], map => map
  | index, entry::entries, map => importedInto imports (index + 1) entries (put map entry.key
      ((some (entry.value,entry.expiryWall)).filter (fun found => ¬ Due Prod.snd found (imports index).1)))

theorem fresh_eq (base wall : Int) (value : Value) (expiry : Option Int) :
    fresh value expiry (moment base wall) =
      ((some (value,expiry)).filter (fun found => ¬ Due Prod.snd found wall)).map (cellAt base) := by
  cases expiry with
  | none => simp [fresh,Option.filter,Due,cellAt]
  | some time =>
    rw [fresh,deadline_moment]
    change (if time ≤ wall then _ else _) = _
    by_cases past : time ≤ wall <;> simp [past,Option.filter,Due,cellAt]

theorem importEntries_refines (base : Int) (imports : Nat → Int × Int) (entries : List PersistedEntry) (index : Nat)
    (now : Int) (store : Store config) (map : WallMap) (refines : Refines now store (lift base map))
    (start : now ≤ 1000 * (imports index).1 + base) (ordered : ∀ index, (imports index).1 ≤ (imports (index + 1)).1) :
    ∃ last, last ≤ 1000 * (imports (index + entries.length)).1 + base ∧
      Refines last (importEntries (clockOf base imports) index entries store)
        (lift base (importedInto imports index entries map)) := by
  induction entries generalizing index now store map with
  | nil => exact ⟨now,start,refines⟩
  | cons entry entries ih =>
    obtain ⟨_,_,stepped,_,kept⟩ := step_refines refines
      (.setExpiring entry.key entry.value entry.expiryWall (moment base (imports index).1)) rfl start
    cases stepped
    simp only [after,fresh_eq,lift_put] at kept
    obtain ⟨last,bound,refined⟩ := ih (index + 1) _ _ _ kept (by
      change 1000 * (imports index).1 + base ≤ _
      linarith [ordered index])
    refine ⟨last,?_,refined⟩
    rwa [List.length_cons,Nat.add_comm entries.length,← Nat.add_assoc]

theorem follows_import (imports : Nat → Int × Int) (entries : List PersistedEntry) (index : Nat) (map loaded : WallMap)
    (time : Int) (distinct : (entries.map PersistedEntry.key).Nodup)
    (source : ∀ entry ∈ entries, map entry.key = some (entry.value,entry.expiryWall))
    (bound : ∀ index, (imports index).1 ≤ time)
    (others : ∀ key, key ∉ entries.map PersistedEntry.key → Follows time map loaded key false) (key : Bytes) :
    Follows time map (importedInto imports index entries loaded) key false := by
  induction entries generalizing index loaded with
  | nil => exact others key List.not_mem_nil
  | cons entry entries ih =>
    rw [List.map_cons,List.nodup_cons] at distinct
    obtain ⟨here,rest⟩ := List.forall_mem_cons.mp source
    refine ih (index + 1) _ distinct.2 rest fun name outside => ?_
    by_cases same : name = entry.key
    · subst same
      simp only [Follows,put,if_true,here,Option.filter]
      by_cases due : Due Prod.snd (entry.value,entry.expiryWall) (imports index).1
      · refine Or.inr ⟨by simp [due],_,rfl,due.later (bound index)⟩
      · exact Or.inl (by simp [due])
    · have kept := others name (by simp [same,outside])
      simpa [Follows,put,same] using kept

/-- A live run in two parts, an export between them, and a recovery of the export and the
records of the second part by a process with another steady clock. -/
structure Scenario where
  base : Int
  early : List LiveStep
  exportNow : Int
  late : List LiveStep
  replayBase : Int
  imports : Nat → Int × Int
  replays : Nat → Int × Int
  finish : Int

namespace Scenario
variable {config' : StoreConfig}

def readings (scenario : Scenario) : List Int :=
  scenario.early.map (LiveStep.now scenario.base) ++
    scenario.exportNow::scenario.late.map (LiveStep.now scenario.base)

/-- Both runs read clocks that never go back, and the recovery starts after the live run. -/
structure Valid (scenario : Scenario) : Prop where
  steady : scenario.readings.Pairwise (· ≤ ·)
  recovery : ∀ reading ∈ scenario.readings, reading ≤ 1000 * (scenario.imports 0).1 + scenario.base
  fine : ∀ step ∈ scenario.early ++ scenario.late, step.Fine
  imports : ∀ index, (scenario.imports index).1 ≤ (scenario.imports (index + 1)).1
  imported : ∀ index, (scenario.imports index).1 ≤ (scenario.replays 0).1
  replays : ∀ index, (scenario.replays index).1 ≤ (scenario.replays (index + 1)).1
  replayed : ∀ index, (scenario.replays index).1 ≤ scenario.finish

def play (scenario : Scenario) (engine : PersistenceEngine) (live : Store config) (recovered : Store config') :
    Except Failure (Store config × Store config') := do
  let (_,engine,live) ← runLive scenario.base scenario.early engine live
  let (entries,live) := live.exportSnapshotEntries scenario.exportNow
  let (records,_,live) ← runLive scenario.base scenario.late engine live
  let loaded := importEntries (clockOf scenario.replayBase scenario.imports) 0 (entries.map truncated) recovered
  let recovered ← applyRecords (clockOf scenario.replayBase scenario.replays) 0 records loaded
  .ok (live,recovered)

/-- Both stores show the same at every time, given in nanoseconds, after the recovery. -/
def Agrees (scenario : Scenario) (config config' : StoreConfig) (engine : PersistenceEngine) : Prop :=
  ∃ live recovered, scenario.play engine (Store.empty : Store config) (Store.empty : Store config') = .ok (live,recovered) ∧
    ∀ nanos, 1000 * scenario.finish ≤ nanos →
      ∀ key, recovered.content (nanos + scenario.replayBase) key = live.content (nanos + scenario.base) key

def exported (scenario : Scenario) : WallMap := contentAfter (fun _ => none) scenario.early
def final (scenario : Scenario) : WallMap := contentAfter scenario.exported scenario.late

def missed (scenario : Scenario) (key : Bytes) : Bool :=
  overtaken scenario.replays key 0 scenario.exported (loggedIn scenario.late) false

end Scenario

theorem content_eq {now later base : Int} {store : Store config} {map : WallMap} (refines : Refines now store (lift base map))
    (order : now ≤ later) (key : Bytes) :
    store.content later key = visible Prod.snd map ((later - base) / 1000) key := by
  have shown := (refines.later order).live_eq key
  rw [live_lift] at shown
  have seen := congrArg (Option.map fun cell : Cell => (cell.value,cell.wallExpiry)) shown
  rw [Option.map_map,Option.map_map] at seen
  exact seen.symm.trans (by simp [Function.comp_def,cellAt])

theorem loggedIn_fine (steps : List LiveStep) (fine : ∀ step ∈ steps, step.Fine) (base : Int) (entry : Logged × Int)
    (member : entry ∈ loggedIn steps) :
    entry.1.Short ∧ 1000 * entry.2 + base ∈ steps.map (LiveStep.now base) := by
  induction steps with
  | nil => cases member
  | cons step steps ih =>
    obtain ⟨here,others⟩ := List.forall_mem_cons.mp fine
    cases step with
    | read op =>
      obtain ⟨short,reading⟩ := ih others member
      exact ⟨short,List.mem_cons_of_mem _ reading⟩
    | mutate mutation io wallNow first second =>
      rcases List.mem_cons.mp member with rfl | later
      · exact ⟨here.2,List.mem_cons_self⟩
      · obtain ⟨short,reading⟩ := ih others later
        exact ⟨short,List.mem_cons_of_mem _ reading⟩

theorem map_truncated (entries : List PersistedEntry) (map : WallMap) (whole : Whole map)
    (source : ∀ entry ∈ entries, map entry.key = some (entry.value,entry.expiryWall)) :
    entries.map truncated = entries := by
  refine (List.map_congr_left fun entry member => ?_).trans (List.map_id entries)
  refine truncated_whole entry fun wall expiry => whole entry.key entry.value wall ?_
  rw [source entry member,Option.mem_def.mp expiry]

theorem exists_reading (readings : List Int) (ordered : readings.Pairwise (· ≤ ·)) :
    ∃ now, (now::readings).Pairwise (· ≤ ·) := by
  cases readings with
  | nil => exact ⟨0,List.pairwise_singleton _ _⟩
  | cons first rest =>
    refine ⟨first,List.pairwise_cons.mpr ⟨fun reading member => ?_,ordered⟩⟩
    rcases List.mem_cons.mp member with rfl | later
    · exact le_refl _
    · exact (List.pairwise_cons.mp ordered).1 reading later

structure Exports (map : WallMap) (time : Int) (entries : List PersistedEntry) : Prop where
  distinct : (entries.map PersistedEntry.key).Nodup
  source : ∀ entry ∈ entries, map entry.key = some (entry.value,entry.expiryWall)
  others : ∀ key ∉ entries.map PersistedEntry.key, ∀ found ∈ map key, Due Prod.snd found time

theorem export_refines {now base time : Int} {store : Store config} {map : WallMap}
    (refines : Refines now store (lift base map)) (order : now ≤ time) :
    Exports map ((time - base) / 1000) (store.exportSnapshotEntries time).1 ∧
      Refines time (store.exportSnapshotEntries time).2 (lift base map) := by
  obtain ⟨_,_,stepped,⟨listed,rfl,distinct,members⟩,kept⟩ :=
    step_refines refines (.exportSnapshotEntries time) rfl order
  cases stepped
  refine ⟨⟨distinct,fun entry member => ?_,fun key outside found member => ?_⟩,kept⟩
  · have held := (members entry).mp member
    rw [live_lift,Option.map_map] at held
    obtain ⟨found,seen,same⟩ := Option.map_eq_some_iff.mp held
    rw [(visible_eq_some.mp seen).1]
    exact congrArg some same
  · by_contra running
    have seen := visible_eq_some.mpr ⟨member,running⟩
    refine outside (List.mem_map.mpr ⟨⟨key,found.1,found.2⟩,(members _).mpr ?_,rfl⟩)
    rw [live_lift,seen]
    rfl

theorem live_outcome (scenario : Scenario) (valid : scenario.Valid) (engine : PersistenceEngine)
    (opened : engine.wal.isOpen = true) :
    ∃ records engine' store later engine'' live last,
      runLive scenario.base scenario.early engine (Store.empty : Store config) = .ok (records,engine',store) ∧
      runLive scenario.base scenario.late engine' (store.exportSnapshotEntries scenario.exportNow).2 =
        .ok (later,engine'',live) ∧
      Exports scenario.exported ((scenario.exportNow - scenario.base) / 1000)
        (store.exportSnapshotEntries scenario.exportNow).1 ∧
      last ∈ scenario.readings ∧ Refines last live (lift scenario.base scenario.final) ∧
      Records later (loggedIn scenario.late) := by
  obtain ⟨first,ordered⟩ := exists_reading _ valid.steady
  obtain ⟨beginning,both⟩ := List.pairwise_cons.mp ordered
  obtain ⟨earlier,middle,split⟩ := List.pairwise_append.mp both
  obtain ⟨fineEarly,fineLate⟩ := List.forall_mem_append.mp valid.fine
  obtain ⟨records,engine',store,last,ran,opened',member,refined,_⟩ := runLive_refines scenario.base
    scenario.early engine (Store.empty : Store config) (fun _ => none) first opened (refines_empty first)
    (List.pairwise_cons.mpr ⟨fun reading inside => beginning reading (List.mem_append_left _ inside),earlier⟩) fineEarly
  have order : last ≤ scenario.exportNow := by
    rcases List.mem_cons.mp member with rfl | inside
    · exact beginning _ (List.mem_append_right _ List.mem_cons_self)
    · exact split last inside _ List.mem_cons_self
  obtain ⟨exports,kept⟩ := export_refines refined order
  obtain ⟨later,engine'',live,last',ran',_,member',refined',logged⟩ := runLive_refines scenario.base
    scenario.late engine' _ _ _ opened' kept middle fineLate
  exact ⟨records,engine',store,later,engine'',live,last',ran,ran',exports,List.mem_append_right _ member',refined',logged⟩

theorem Scenario.Valid.late {scenario : Scenario} (valid : scenario.Valid) (entry : Logged × Int)
    (member : entry ∈ loggedIn scenario.late) : entry.1.Short ∧ entry.2 ≤ (scenario.replays 0).1 := by
  obtain ⟨short,inside⟩ := loggedIn_fine scenario.late (List.forall_mem_append.mp valid.fine).2 scenario.base entry member
  have reading := valid.recovery _ (List.mem_append_right _ (List.mem_cons_of_mem _ inside))
  have start := valid.imported 0
  exact ⟨short,by omega⟩

theorem Scenario.Valid.exported {scenario : Scenario} (valid : scenario.Valid) :
    (scenario.exportNow - scenario.base) / 1000 ≤ (scenario.replays 0).1 := by
  have reading := valid.recovery scenario.exportNow (List.mem_append_right _ List.mem_cons_self)
  have start := valid.imported 0
  omega

theorem recovery_follows (scenario : Scenario) (valid : scenario.Valid) (entries : List PersistedEntry)
    (exports : Exports scenario.exported ((scenario.exportNow - scenario.base) / 1000) entries) (key : Bytes) :
    Follows scenario.finish scenario.final
      (replayAfter scenario.replays 0 (importedInto scenario.imports 0 entries fun _ => none) (loggedIn scenario.late))
      key (scenario.missed key) := by
  have loaded := follows_import scenario.imports entries 0 scenario.exported (fun _ => none) (scenario.replays 0).1
    exports.distinct exports.source valid.imported (fun name absent => by
      unfold Follows
      cases found : scenario.exported name with
      | none => exact Or.inl rfl
      | some cell => exact Or.inr ⟨rfl,cell,rfl,(exports.others name absent cell found).later valid.exported⟩) key
  rw [Scenario.final,contentAfter_eq]
  exact follows_replay scenario.replays key (loggedIn scenario.late) 0 _ _ false _ scenario.finish loaded
    (le_refl _) valid.replays (fun entry member => (valid.late entry member).2) valid.replayed

theorem play_outcome (scenario : Scenario) (valid : scenario.Valid) (config config' : StoreConfig)
    (engine : PersistenceEngine) (opened : engine.wal.isOpen = true) :
    ∃ live recovered, ∃ map : WallMap,
      scenario.play engine (Store.empty : Store config) (Store.empty : Store config') = .ok (live,recovered) ∧
      (∀ key, Follows scenario.finish scenario.final map key (scenario.missed key)) ∧
      ∀ nanos, 1000 * scenario.finish ≤ nanos → ∀ key,
        live.content (nanos + scenario.base) key = visible Prod.snd scenario.final (nanos / 1000) key ∧
          recovered.content (nanos + scenario.replayBase) key = visible Prod.snd map (nanos / 1000) key := by
  obtain ⟨records,engine',store,later,engine'',live,last,ran,ran',exports,member,refined,logged⟩ :=
    @live_outcome config scenario valid engine opened
  have whole : Whole scenario.exported := whole_contentAfter scenario.early _ (fun _ _ _ found => by cases found)
  obtain ⟨imported,order,loaded⟩ := importEntries_refines scenario.replayBase scenario.imports
    (store.exportSnapshotEntries scenario.exportNow).1 0 _ (Store.empty : Store config') (fun _ => none) (refines_empty _)
    (le_refl _) valid.imports
  obtain ⟨recovered,replayed,ran'',order',refined'⟩ := applyRecords_refines scenario.replayBase
    scenario.replays later (loggedIn scenario.late) 0 _ _ _ logged (fun entry inside => (valid.late entry inside).1) loaded
    (by linarith [valid.imported (0 + (store.exportSnapshotEntries scenario.exportNow).1.length)]) valid.replays
  refine ⟨live,recovered,_,?_,recovery_follows scenario valid _ exports,fun nanos reached key => ⟨?_,?_⟩⟩
  · rw [Scenario.play,ran,ok_bind]
    dsimp only
    rw [ran',ok_bind]
    dsimp only
    rw [map_truncated _ _ whole exports.source,ran'']
    rfl
  · have bound := valid.recovery last member
    rw [content_eq refined (by linarith [valid.imported 0,valid.replayed 0]),Int.add_sub_cancel]
  · rw [content_eq refined' (by linarith [valid.replayed (0 + later.length)]),Int.add_sub_cancel]

/-- A later recovery shows what the live store shows exactly if no key is live whose
deadline was moved by an EXPIRE that the replay reached after the old deadline. -/
theorem late_replay_agrees_iff (scenario : Scenario) (valid : scenario.Valid) (config config' : StoreConfig)
    (engine : PersistenceEngine) (opened : engine.wal.isOpen = true) :
    scenario.Agrees config config' engine ↔
      ∀ key, scenario.missed key = true → visible Prod.snd scenario.final scenario.finish key = none := by
  obtain ⟨live,recovered,map,played,follows,shown⟩ := play_outcome scenario valid config config' engine opened
  have wall : 1000 * scenario.finish / 1000 = scenario.finish := by omega
  constructor
  · rintro ⟨live',recovered',played',agree⟩ key lost
    cases played.symm.trans played'
    have gone : map key = none := by
      have kept := follows key
      rwa [lost] at kept
    obtain ⟨lived,replayed⟩ := shown _ (le_refl _) key
    have same := agree _ (le_refl _) key
    rw [lived,replayed,wall] at same
    rw [← same]
    exact visible_eq_none.mpr (by simp [gone])
  · intro harmless
    refine ⟨live,recovered,played,fun nanos later key => ?_⟩
    obtain ⟨lived,replayed⟩ := shown nanos later key
    have passed : scenario.finish ≤ nanos / 1000 := by omega
    rw [lived,replayed]
    have kept := follows key
    cases lost : scenario.missed key with
    | true =>
      have gone : map key = none := by rwa [lost] at kept
      have hidden := visible_eq_none.mp (harmless key lost)
      rw [visible_eq_none.mpr (by simp [gone]),eq_comm]
      exact visible_eq_none.mpr fun found member => (hidden found member).later passed
    | false =>
      rw [lost] at kept
      rcases kept with same | ⟨gone,found,member,due⟩
      · rw [visible,visible,same]
      · rw [visible_eq_none.mpr (by simp [gone]),eq_comm]
        refine visible_eq_none.mpr fun other stored => ?_
        rw [Option.mem_unique stored member]
        exact due.later passed

/-- SET, EXPIRE in ten seconds and, five seconds on, EXPIRE in a hundred seconds. -/
def postponed (recovery : Int) : Scenario where
  base := 0
  early := []
  exportNow := 0
  late := [.mutate (.set [0x6B] [0x76]) ⟨[],true⟩ 0 0 0,.mutate (.expire [0x6B] 10) ⟨[],true⟩ 0 0 0,
    .mutate (.expire [0x6B] 100) ⟨[],true⟩ 5000000 5000000 5000000]
  replayBase := 3000
  imports := fun _ => (recovery,recovery)
  replays := fun _ => (recovery,recovery)
  finish := recovery

theorem postponed_valid (recovery : Int) (later : 5000000 ≤ recovery) : (postponed recovery).Valid where
  steady := by
    simp only [postponed,Scenario.readings]
    decide
  recovery := by
    simp only [postponed,Scenario.readings,LiveStep.now,List.map_nil,List.nil_append,List.map_cons,List.forall_mem_cons]
    refine ⟨by omega,by omega,by omega,by omega,by simp⟩
  fine := by
    have quiet : Io.Faultless ⟨[],true⟩ := ⟨by simp [Quiet],rfl⟩
    simp only [postponed,List.nil_append,List.forall_mem_cons,LiveStep.Fine]
    refine ⟨⟨quiet,?_⟩,⟨quiet,?_⟩,⟨quiet,?_⟩,by simp⟩
    all_goals unfold Logged.Short; decide
  imports := fun _ => le_refl recovery
  imported := fun _ => le_refl recovery
  replays := fun _ => le_refl recovery
  replayed := fun _ => le_refl recovery

theorem late_replay_agrees_early :
    (postponed 8000000).Valid ∧
      (postponed 8000000).Agrees ⟨2,by decide,List.length,80⟩ ⟨3,by decide,List.length,80⟩
        ⟨.always,none,freshWriter 0⟩ := by
  have valid := postponed_valid 8000000 (by decide)
  refine ⟨valid,(late_replay_agrees_iff (postponed 8000000) valid _ _ _ rfl).mpr fun key lost => ?_⟩
  by_cases same : key = [0x6B]
  · subst same
    exact absurd lost (by decide +kernel)
  · simp [Scenario.missed,postponed,overtaken,loggedIn,overtakes,Mutation.logged,same] at lost

/-- A recovery after fifty seconds loses the key that was to live for a hundred more. -/
theorem late_replay_loses :
    (postponed 50000000).Valid ∧
      ¬ (postponed 50000000).Agrees ⟨2,by decide,List.length,80⟩ ⟨3,by decide,List.length,80⟩
        ⟨.always,none,freshWriter 0⟩ := by
  refine ⟨postponed_valid 50000000 (by decide),?_⟩
  rintro ⟨live,recovered,played,agree⟩
  have outcome : (((postponed 50000000).play ⟨.always,none,freshWriter 0⟩
      (Store.empty : Store ⟨2,by decide,List.length,80⟩) (Store.empty : Store ⟨3,by decide,List.length,80⟩)).map
        fun stores => (stores.1.content 50000000000 [0x6B],stores.2.content 50000003000 [0x6B])) =
      .ok (some (.string [0x76],some 105000000),none) := by
    decide +kernel
  rw [played] at outcome
  obtain ⟨lived,replayed⟩ := Prod.mk.inj (Except.ok.inj outcome)
  have same : recovered.content 50000003000 [0x6B] = live.content 50000000000 [0x6B] :=
    agree 50000000000 (le_refl _) [0x6B]
  cases replayed.symm.trans (same.trans lived)

end Persistence
end NovaCache
