import NovaCache.Persistence.Binary
import Mathlib.Data.List.AList

/-! The sharded store. Steady readings count nanoseconds and wall readings microseconds,
as the clocks of the supported platform do; their arithmetic is exact here. A shard
is an association list in iteration order, which the source leaves unspecified. -/
namespace NovaCache

/-- The elements of an unordered set, in iteration order. -/
structure StringSet where
  items : List Bytes
  nodup : items.Nodup
  deriving DecidableEq, Repr

inductive Value
  | string (text : Bytes)
  | integer (number : Int64)
  | list (items : List Bytes)
  | set (items : StringSet)
  deriving DecidableEq, Repr

structure Entry where
  value : Value
  expiresAt : Option Int
  expiresAtWall : Option Int
  storedBytes : Nat
  deriving DecidableEq, Repr

structure PersistedEntry where
  key : Bytes
  value : Value
  expiryWall : Option Int
  deriving DecidableEq, Repr

inductive KeysStatus
  | ok
  | unsupportedPattern
  deriving DecidableEq, Repr

structure KeysResult where
  status : KeysStatus
  keys : List Bytes
  deriving DecidableEq, Repr

structure Instant where
  now : Int
  wallNow : Int
  deriving DecidableEq, Repr

/-- What the constructor fixes, with the platform's hash and `sizeof(Entry)`. -/
structure StoreConfig where
  shardCount : Nat
  positive : 0 < shardCount
  hash : Bytes → Nat
  sizeofEntry : Nat

abbrev Shard := AList (fun _ : Bytes => Entry)

structure Store (config : StoreConfig) where
  shards : Fin config.shardCount → Shard
  approximateMemory : UInt64
  expiredKeys : UInt64

/-- A difference of wall readings added to a steady one is converted to nanoseconds. -/
def deadline (reading : Instant) (expiryWall : Int) : Int :=
  reading.now + (expiryWall - reading.wallNow) * 1000

def isExpired (entry : Entry) (now : Int) : Bool :=
  match entry.expiresAt with
  | none => false
  | some expiry => expiry ≤ now

variable {config : StoreConfig}

namespace Store

def empty : Store config := ⟨fun _ => ∅,0,0⟩

def shardIndex (config : StoreConfig) (key : Bytes) : Fin config.shardCount :=
  ⟨config.hash key % config.shardCount,Nat.mod_lt _ config.positive⟩

def shardFor (store : Store config) (key : Bytes) : Shard := store.shards (shardIndex config key)

def find (store : Store config) (key : Bytes) : Option Entry := (store.shardFor key).lookup key

def estimateBytes (config : StoreConfig) (key : Bytes) (value : Value) : Nat :=
  let total := key.length + config.sizeofEntry
  match value with
  | .string text => total + text.length
  | .integer _ => total + 8
  | .list items => items.foldl (fun total item => total + item.length) total
  | .set items => items.items.foldl (fun total item => total + item.length) total

/-- `fetch_sub` of the stored size followed by the removal of the entry. -/
def eraseEntry (store : Store config) (index : Fin config.shardCount) (key : Bytes) (entry : Entry) :
    Store config :=
  {store with
    shards := Function.update store.shards index ((store.shards index).erase key)
    approximateMemory := store.approximateMemory - UInt64.ofNat entry.storedBytes}

def countExpired (store : Store config) : Store config := {store with expiredKeys := store.expiredKeys + 1}

def eraseExpiredLocked (store : Store config) (index : Fin config.shardCount) (key : Bytes) (entry : Entry)
    (now : Int) : Bool × Store config :=
  if ¬ isExpired entry now then (false,store)
  else (true,(store.eraseEntry index key entry).countExpired)

def insertEntry (store : Store config) (key : Bytes) (entry : Entry) : Store config :=
  let index := shardIndex config key
  {store with
    shards := Function.update store.shards index ((store.shards index).insert key entry)
    approximateMemory := store.approximateMemory + UInt64.ofNat entry.storedBytes}

/-- Assigns through the iterator of a present key; the stored size stays. -/
def updateEntry (store : Store config) (key : Bytes) (entry : Entry) : Store config :=
  {store with
    shards := Function.update store.shards (shardIndex config key) ((store.shardFor key).insert key entry)}

theorem find_insertEntry (store : Store config) (key other : Bytes) (entry : Entry) :
    (store.insertEntry key entry).find other = if other = key then some entry else store.find other := by
  unfold find shardFor insertEntry
  by_cases same : other = key
  · subst same
    simp
  · by_cases shard : shardIndex config other = shardIndex config key
    · simp [shard,same,AList.lookup_insert_ne same]
    · simp [shard,same]

theorem find_updateEntry (store : Store config) (key other : Bytes) (entry : Entry) :
    (store.updateEntry key entry).find other = if other = key then some entry else store.find other :=
  find_insertEntry store key other entry

theorem find_eraseEntry (store : Store config) (key other : Bytes) (entry : Entry) :
    (store.eraseEntry (shardIndex config key) key entry).find other =
      if other = key then none else store.find other := by
  unfold find shardFor eraseEntry
  by_cases same : other = key
  · subst same
    simp
  · by_cases shard : shardIndex config other = shardIndex config key
    · simp [shard,same,AList.lookup_erase_ne same]
    · simp [shard,same]

@[simp] theorem find_countExpired (store : Store config) (key : Bytes) :
    store.countExpired.find key = store.find key := rfl

/-- Every key is stored in the shard its hash selects. -/
def Placed (store : Store config) : Prop :=
  ∀ index, ∀ key ∈ store.shards index, shardIndex config key = index

theorem placed_empty : (empty : Store config).Placed := by
  intro index key member
  exact absurd member (AList.notMem_empty key)

theorem placed_countExpired (store : Store config) (placed : store.Placed) : store.countExpired.Placed := placed

theorem placed_insertEntry (store : Store config) (key : Bytes) (entry : Entry) (placed : store.Placed) :
    (store.insertEntry key entry).Placed := by
  intro index other member
  change other ∈ Function.update store.shards (shardIndex config key) _ index at member
  by_cases same : index = shardIndex config key
  · subst same
    rw [Function.update_self,AList.mem_insert] at member
    rcases member with rfl | old
    · rfl
    · exact placed _ other old
  · rw [Function.update_of_ne same] at member
    exact placed index other member

theorem placed_updateEntry (store : Store config) (key : Bytes) (entry : Entry) (placed : store.Placed) :
    (store.updateEntry key entry).Placed :=
  placed_insertEntry store key entry placed

theorem placed_eraseEntry (store : Store config) (index : Fin config.shardCount) (key : Bytes) (entry : Entry)
    (placed : store.Placed) : (store.eraseEntry index key entry).Placed := by
  intro other found member
  change found ∈ Function.update store.shards index _ other at member
  by_cases same : other = index
  · subst same
    rw [Function.update_self,AList.mem_erase] at member
    exact placed _ found member.2
  · rw [Function.update_of_ne same] at member
    exact placed other found member

theorem find_of_mem (store : Store config) (placed : store.Placed) (index : Fin config.shardCount)
    (key : Bytes) (entry : Entry) (member : ⟨key,entry⟩ ∈ (store.shards index).entries) :
    shardIndex config key = index ∧ store.find key = some entry := by
  have found : (store.shards index).lookup key = some entry := AList.mem_lookup_iff.mpr member
  have here := placed index key (AList.lookup_isSome.mp (by rw [found]; rfl))
  refine ⟨here,?_⟩
  rw [find,shardFor,here,found]

theorem mem_of_find (store : Store config) (key : Bytes) (entry : Entry) (found : store.find key = some entry) :
    ⟨key,entry⟩ ∈ (store.shards (shardIndex config key)).entries :=
  AList.mem_lookup_iff.mp found

end Store
end NovaCache
