import NovaCache.Concurrency.Crashes

/-! Walks over all shards while other threads are at work. Operations that change nothing that
can be seen drop expired entries at most; as long as there are only such, a walk lists what was
there when it began. -/
namespace NovaCache.Concurrency
open Linearization
open Persistence (PersistenceEngine SnapshotIo)
open Store (shardIndex Trimmed)
open ExpiringMap (Trims Due)

variable {config : StoreConfig} {Result Other : Type} {horizon now : Int} {before current next : Store config}

theorem Trimmed.later {later : Int} (trimmed : before.Trimmed now next) (order : now ≤ later) : before.Trimmed later next :=
  ⟨trimmed.placed,trimmed.found.later order⟩

theorem trimmed_of_dropped {gone : Finset Bytes} (dropped : before.Dropped now gone next) : before.Trimmed now next := by
  obtain ⟨placed,expired,found⟩ := dropped
  refine ⟨placed,fun key => ?_⟩
  rw [found]
  by_cases member : key ∈ gone
  · obtain ⟨entry,present,due⟩ := expired key member
    exact .inr ⟨if_pos member,entry,present,(Store.isExpired_iff entry now).mp due⟩
  · exact .inl (if_neg member)

/-- Every action drops expired entries only. -/
def Trimming (horizon : Int) : Script (Store config) Result → Prop
  | .done _ => True
  | .act _ action next => (∀ store : Store config, store.Placed → store.Trimmed horizon (action store).2) ∧
      ∀ answer, Trimming horizon (next answer)

theorem Trimming.map {script : Script (Store config) Result} (trimming : Trimming horizon script) (change : Result → Other) :
    Trimming horizon (script.map change) := by
  induction script with
  | done => trivial
  | act reserves action next ih => exact ⟨trimming.1,fun answer => ih answer (trimming.2 answer)⟩

theorem trimming_atomic {action : Store config → Result × Store config}
    (trims : ∀ store : Store config, store.Trimmed now (action store).2) (early : now ≤ horizon) :
    Trimming horizon (.atomic action) :=
  ⟨fun store _ => Trimmed.later (trims store) early,fun _ => trivial⟩

theorem trimming_sweepScript (reserves : Bool) (early : now ≤ horizon) (indices : List (Fin config.shardCount))
    (listed : List (Bytes × Entry)) : Trimming horizon (sweepScript reserves now indices listed) := by
  induction indices generalizing listed with
  | nil => trivial
  | cons index indices ih =>
    refine ⟨fun store placed => ?_,fun live => ih _⟩
    exact Trimmed.later (Store.sweepShard_spec store placed index now).2.2 early

theorem trimming_sampleScript (samplesPerShard : Nat) (draws : Nat → Nat → Nat) (early : now ≤ horizon)
    (indices : List (Fin config.shardCount)) (expired : Nat) :
    Trimming horizon (sampleScript samplesPerShard draws now indices expired) := by
  induction indices generalizing expired with
  | nil => trivial
  | cons index indices ih =>
    refine ⟨fun store placed => ?_,fun outcome => ?_⟩
    · refine Trimmed.later ?_ early
      by_cases none : (store.shards index).entries.length = 0
      · have round : Store.sampleRound samplesPerShard index (draws index.val) now (expired,store) = .ok (expired,store) := if_pos none
        simp only [round]
        exact .refl now store
      · obtain ⟨count,next,ended,removed⟩ := Store.sampleShard_ends (Store.removal_dropped now) index (draws index.val)
          (min samplesPerShard (store.shards index).entries.length) expired store (Nat.min_le_right ..)
        have round : Store.sampleRound samplesPerShard index (draws index.val) now (expired,store) = .ok (expired + count,next) :=
          (if_neg none).trans ended
        obtain ⟨gone,_,dropped⟩ := removed placed
        simp only [round]
        exact trimmed_of_dropped dropped
    · cases outcome with
      | error failure => trivial
      | ok expired => exact ih expired

namespace Operation

/-- Mutations that bypass the engine. -/
def Unlogged : Operation config → Prop
  | .set _ _ _ _ | .del _ _ | .expireAt _ _ _ _ | .expire _ _ _ _ _ | .delMany _ _ _ => True
  | _ => False

/-- The reading by which an operation that is no mutation drops entries. -/
def reading : Operation config → Option Int
  | .get _ now | .existsKey _ now | .ttl _ now | .expiryWallTime _ now | .existsMany _ _ now | .keys _ now => some now
  | .exportSnapshotEntries now | .activeExpireCycle _ _ now | .snapshotNow _ now => some now
  | _ => none

end Operation

theorem steps_trimming {operation : Operation config} (quiet : operation.logged = none) (logs : ¬ operation.Unlogged)
    (timely : ∀ now ∈ operation.reading, now ≤ horizon) : Trimming horizon operation.steps := by
  cases operation with
  | set | del | expireAt | expire | delMany => exact absurd trivial logs
  | durableSet | durableDel | durableExpire => cases quiet
  | fsyncRound => trivial
  | get key now => exact trimming_atomic (fun store => (Store.lookupLive_spec store key now).2) (timely now rfl)
  | existsKey key now => exact trimming_atomic (fun store => (Store.lookupLive_spec store key now).2) (timely now rfl)
  | expiryWallTime key now => exact trimming_atomic (fun store => (Store.lookupLive_spec store key now).2) (timely now rfl)
  | ttl key now => exact trimming_atomic (fun store => (Store.ttl_spec store key now).2) (timely now rfl)
  | existsMany keys unlocking now =>
    exact trimming_atomic (fun store => (Store.existsMany_spec store keys now).2) (timely now rfl)
  | keys pattern now =>
    change Trimming horizon (if _ then _ else _)
    split
    · trivial
    · exact (trimming_sweepScript false (timely now rfl) _ []).map _
  | exportSnapshotEntries now => exact (trimming_sweepScript false (timely now rfl) _ []).map _
  | activeExpireCycle samplesPerShard draws now =>
    change Trimming horizon (if _ then _ else _)
    split
    · trivial
    · exact (trimming_sampleScript samplesPerShard draws (timely now rfl) _ 0).map _
  | snapshotNow io now => exact (trimming_sweepScript false (timely now rfl) _ []).map _

/-- What a walk has listed of the shards it is through with. -/
structure Walked (listed : List (Bytes × Entry)) (ahead : List (Fin config.shardCount)) : Prop where
  distinct : (listed.map Prod.fst).Nodup
  visited : ∀ item ∈ listed, shardIndex config item.1 ∉ ahead

theorem walked_start : Walked [] (List.finRange config.shardCount) := ⟨List.nodup_nil,List.forall_mem_nil _⟩

theorem Walked.sweep {listed : List (Bytes × Entry)} {index : Fin config.shardCount} {ahead : List (Fin config.shardCount)}
    (walked : Walked listed (index::ahead)) (once : index ∉ ahead) (placed : current.Placed) (now : Int) :
    Walked (listed ++ (current.sweepShard index now).1) ahead := by
  obtain ⟨distinct,members,_⟩ := Store.sweepShard_spec current placed index now
  refine ⟨?_,fun item member => ?_⟩
  · rw [List.map_append]
    refine walked.distinct.append distinct fun key one two => ?_
    obtain ⟨first,listed,rfl⟩ := List.mem_map.mp one
    obtain ⟨second,live,same⟩ := List.mem_map.mp two
    have here := ((members second.1 second.2).mp live).2
    rw [same] at here
    exact walked.visited first listed (here ▸ List.mem_cons_self ..)
  · rcases List.mem_append.mp member with listed | live
    · exact fun inside => walked.visited item listed (List.mem_cons_of_mem _ inside)
    · rw [((members item.1 item.2).mp live).2]
      exact once

/-- The same against the store where the walk began. -/
structure Swept (horizon : Int) (before : Store config) (listed : List (Bytes × Entry))
    (ahead : List (Fin config.shardCount)) : Prop extends Walked listed ahead where
  held : ∀ item ∈ listed, before.find item.1 = some item.2
  whole : ∀ key entry, before.find key = some entry → isExpired entry horizon = false → shardIndex config key ∉ ahead →
    (key,entry) ∈ listed

theorem swept_start (horizon : Int) (before : Store config) : Swept horizon before [] (List.finRange config.shardCount) where
  toWalked := walked_start
  held := List.forall_mem_nil _
  whole _ _ _ _ absent := absurd (List.mem_finRange _) absent

theorem isExpired_later {entry : Entry} {later : Int} (fresh : isExpired entry later = false) (order : now ≤ later) :
    isExpired entry now = false := by
  by_contra due
  rw [Bool.not_eq_false,Store.isExpired_iff] at due
  rw [(Store.isExpired_iff entry later).mpr (due.later order)] at fresh
  cases fresh

theorem Swept.sweep {listed : List (Bytes × Entry)} {index : Fin config.shardCount} {ahead : List (Fin config.shardCount)}
    (swept : Swept horizon before listed (index::ahead)) (once : index ∉ ahead) (trimmed : before.Trimmed horizon current)
    (placed : current.Placed) (early : now ≤ horizon) :
    Swept horizon before (listed ++ (current.sweepShard index now).1) ahead := by
  obtain ⟨_,members,_⟩ := Store.sweepShard_spec current placed index now
  refine ⟨swept.toWalked.sweep once placed now,fun item member => ?_,fun key entry found fresh visited => ?_⟩
  · rcases List.mem_append.mp member with listed | live
    · exact swept.held item listed
    · have found := ((Store.live_eq_some current item.1 now item.2).mp ((members item.1 item.2).mp live).1).1
      exact trimmed.found.mem found
  · by_cases here : shardIndex config key = index
    · refine List.mem_append_right _ ((members key entry).mpr ⟨?_,here⟩)
      have still : current.live key horizon = some entry := by
        rw [trimmed.live_eq]
        exact (Store.live_eq_some before key horizon entry).mpr ⟨found,fresh⟩
      have held := ((Store.live_eq_some current key horizon entry).mp still).1
      exact (Store.live_eq_some current key now entry).mpr ⟨held,isExpired_later fresh early⟩
    · refine List.mem_append_left _ (swept.whole key entry found fresh ?_)
      rw [List.mem_cons,not_or]
      exact ⟨here,visited⟩

/-- The entries are those of the store, perhaps without some that have expired at the horizon. -/
structure Saves (horizon : Int) (saved : List PersistedEntry) (store : Store config) : Prop where
  distinct : (saved.map PersistedEntry.key).Nodup
  held : ∀ item ∈ saved, ∃ entry, store.find item.key = some entry ∧ item = ⟨item.key,entry.value,entry.expiresAtWall⟩
  whole : ∀ key entry, store.find key = some entry → isExpired entry horizon = false →
    ⟨key,entry.value,entry.expiresAtWall⟩ ∈ saved

theorem Swept.saves {listed : List (Bytes × Entry)} (swept : Swept horizon before listed []) :
    Saves horizon (persisted listed) before := by
  refine ⟨?_,fun item member => ?_,fun key entry found fresh => ?_⟩
  · rw [persisted,List.map_map]
    exact swept.distinct
  · obtain ⟨source,listed,rfl⟩ := List.mem_map.mp member
    exact ⟨source.2,swept.held source listed,rfl⟩
  · exact List.mem_map_of_mem (swept.whole key entry found fresh (List.not_mem_nil))

theorem Saves.savable {keys : Finset Bytes} {saved : List PersistedEntry} (saves : Saves horizon saved before)
    (kept : Persistence.Kept keys before) : Persistence.Savable keys saved := by
  refine ⟨saves.distinct,fun item member => ?_⟩
  obtain ⟨entry,found,same⟩ := saves.held item member
  rw [same]
  exact kept.found item.key entry found

end NovaCache.Concurrency
