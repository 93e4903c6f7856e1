import NovaCache.Store.Reference
import NovaCache.Store.Loops
import NovaCache.Tally

/-! The memory counter. Every operation is a chain of elementary edits, each of which
moves the counter by hand as the source does; what holds before and after each edit
therefore holds at every point of every run, also between the edits of one call. -/
namespace NovaCache
namespace Store
variable {config : StoreConfig}

def shardBytes (shard : Shard) : Nat := (shard.entries.map fun item => item.2.storedBytes).sum

/-- The stored sizes of all entries, expired ones included. -/
def total (store : Store config) : Nat := ∑ index, shardBytes (store.shards index)

def storedKeys (store : Store config) : List Bytes :=
  (List.finRange config.shardCount).flatMap fun index => (store.shards index).keys

structure Sound (config : StoreConfig) (key : Bytes) (entry : Entry) : Prop where
  sized : entry.storedBytes = estimateBytes config key entry.value
  dated : entry.expiresAt.isSome = entry.expiresAtWall.isSome

/-- The counter is 64 bits wide, so it holds the sum modulo 2^64. -/
structure Accounted (store : Store config) : Prop where
  memory : store.approximateMemory.toNat = store.total % 2^64
  entries : ∀ index key entry, ⟨key,entry⟩ ∈ (store.shards index).entries → Sound config key entry
  placed : store.Placed
  once : store.storedKeys.Nodup

end Store

inductive Edit (config : StoreConfig)
  | erase (index : Fin config.shardCount) (key : Bytes) (entry : Entry)
  | insert (key : Bytes) (entry : Entry)
  | update (key : Bytes) (entry : Entry)
  | countExpired
  | clear

namespace Edit
variable {config : StoreConfig}

def apply (store : Store config) : Edit config → Store config
  | .erase index key entry => store.eraseEntry index key entry
  | .insert key entry => store.insertEntry key entry
  | .update key entry => store.updateEntry key entry
  | .countExpired => store.countExpired
  | .clear => store.clear

/-- What the edit subtracts from the counter. -/
def fetchSub : Edit config → Nat
  | .erase _ _ entry => entry.storedBytes
  | _ => 0

/-- The state in which the operations make the edit: an erased entry is a stored one, an
inserted key is absent, and an updated entry keeps its value and its size. -/
def Allowed (store : Store config) : Edit config → Prop
  | .erase index key entry => ⟨key,entry⟩ ∈ (store.shards index).entries
  | .insert key entry => store.find key = none ∧ Store.Sound config key entry
  | .update key entry => ∃ old, store.find key = some old ∧ entry.value = old.value ∧
      entry.storedBytes = old.storedBytes ∧ entry.expiresAt.isSome = entry.expiresAtWall.isSome
  | _ => True

end Edit

inductive Edited {config : StoreConfig} : Store config → List (Edit config) → Store config → Prop
  | nil (store) : Edited store [] store
  | cons (store edit edits next) (allowed : Edit.Allowed store edit) (rest : Edited (edit.apply store) edits next) :
      Edited store (edit::edits) next

namespace Store
variable {config : StoreConfig}

/-- Every state that a chain of edits passes is accounted, and no edit subtracts more than
is there. -/
def Covered (store : Store config) (edits : List (Edit config)) : Prop :=
  ∀ first edit rest, edits = first ++ edit::rest →
    let before := first.foldl Edit.apply store
    before.Accounted ∧ edit.fetchSub ≤ before.total ∧
      (before.total < 2^64 → edit.fetchSub ≤ before.approximateMemory.toNat)

theorem shardBytes_erase (shard : Shard) (key : Bytes) (entry : Entry) (stored : ⟨key,entry⟩ ∈ shard.entries) :
    shardBytes shard = entry.storedBytes + shardBytes (shard.erase key) := by
  have member : key ∈ shard.entries.keys := List.mem_keys_of_mem stored
  obtain ⟨found,before,after,_,split,erased⟩ := List.exists_of_kerase member
  have here : ⟨key,found⟩ ∈ shard.entries := by
    rw [split]
    simp
  obtain rfl : entry = found := by
    have one := shard.nodupKeys.eq_of_mk_mem stored here
    exact one
  change (shard.entries.map _).sum = _ + ((List.kerase key shard.entries).map _).sum
  rw [erased,split]
  simp only [List.map_append,List.map_cons,List.sum_append,List.sum_cons]
  omega

theorem shardBytes_insert (shard : Shard) (key : Bytes) (entry : Entry) :
    shardBytes (shard.insert key entry) = entry.storedBytes + shardBytes (shard.erase key) := by
  rw [shardBytes,AList.entries_insert,List.map_cons,List.sum_cons]
  rfl

theorem shardBytes_absent (shard : Shard) (key : Bytes) (absent : key ∉ shard) :
    shardBytes (shard.erase key) = shardBytes shard := by
  change ((List.kerase key shard.entries).map _).sum = _
  rw [List.kerase_of_notMem_keys absent]
  rfl

theorem total_update (store next : Store config) (index : Fin config.shardCount) (shard : Shard)
    (updated : next.shards = Function.update store.shards index shard) :
    next.total + shardBytes (store.shards index) = store.total + shardBytes shard := by
  rw [total,updated]
  exact Tally.sum_update shardBytes store.shards index shard

theorem total_eraseEntry (store : Store config) (index : Fin config.shardCount) (key : Bytes) (entry : Entry)
    (stored : ⟨key,entry⟩ ∈ (store.shards index).entries) :
    (store.eraseEntry index key entry).total + entry.storedBytes = store.total := by
  have moved := total_update store (store.eraseEntry index key entry) index _ rfl
  have shrunk := shardBytes_erase (store.shards index) key entry stored
  omega

theorem total_insertEntry (store : Store config) (key : Bytes) (entry : Entry) (absent : store.find key = none) :
    (store.insertEntry key entry).total = store.total + entry.storedBytes := by
  have moved := total_update store (store.insertEntry key entry) (shardIndex config key) _ rfl
  have missing : key ∉ store.shards (shardIndex config key) := AList.lookup_eq_none.mp absent
  rw [shardBytes_insert,shardBytes_absent _ key missing] at moved
  omega

theorem total_updateEntry (store : Store config) (key : Bytes) (old entry : Entry) (stored : store.find key = some old)
    (same : entry.storedBytes = old.storedBytes) : (store.updateEntry key entry).total = store.total := by
  have moved := total_update store (store.updateEntry key entry) (shardIndex config key) _ rfl
  have shrunk := shardBytes_erase _ key old (mem_of_find store key old stored)
  rw [shardBytes_insert,shardFor] at moved
  omega

theorem storedKeys_nodup (store : Store config) (placed : store.Placed) : store.storedKeys.Nodup := by
  refine List.nodup_flatMap.mpr ⟨fun index _ => (store.shards index).nodupKeys,?_⟩
  refine (List.nodup_finRange _).imp ?_
  intro one two different key first second
  exact different ((placed one key first).symm.trans (placed two key second))

theorem mem_erase (store : Store config) (index other : Fin config.shardCount) (key : Bytes) (entry : Entry)
    (item : (_ : Bytes) × Entry) (member : item ∈ ((store.eraseEntry index key entry).shards other).entries) :
    item ∈ (store.shards other).entries := by
  change item ∈ (Function.update store.shards index _ other).entries at member
  by_cases same : other = index
  · subst same
    rw [Function.update_self] at member
    exact (List.kerase_sublist key _).subset member
  · rwa [Function.update_of_ne same] at member

theorem mem_insert (store : Store config) (index other : Fin config.shardCount) (key : Bytes) (entry : Entry)
    (item : (_ : Bytes) × Entry)
    (member : item ∈ (Function.update store.shards index ((store.shards index).insert key entry) other).entries) :
    item = ⟨key,entry⟩ ∨ item ∈ (store.shards other).entries := by
  by_cases same : other = index
  · subst same
    rw [Function.update_self,AList.entries_insert,List.mem_cons] at member
    exact member.imp_right fun kept => (List.kerase_sublist key _).subset kept
  · rw [Function.update_of_ne same] at member
    exact Or.inr member

theorem accounted_empty : (empty : Store config).Accounted := by
  refine ⟨?_,?_,placed_empty,storedKeys_nodup _ placed_empty⟩
  · have none : (empty : Store config).total = 0 := Finset.sum_eq_zero fun _ _ => rfl
    rw [none]
    rfl
  · intro index key entry member
    exact absurd member List.not_mem_nil

namespace Accounted

theorem erase {store : Store config} (accounted : store.Accounted) {index : Fin config.shardCount} {key : Bytes}
    {entry : Entry} (stored : ⟨key,entry⟩ ∈ (store.shards index).entries) :
    (store.eraseEntry index key entry).Accounted := by
  have placed := placed_eraseEntry store index key entry accounted.placed
  refine ⟨?_,?_,placed,storedKeys_nodup _ placed⟩
  · have balance := total_eraseEntry store index key entry stored
    have before := accounted.memory
    change (store.approximateMemory - UInt64.ofNat entry.storedBytes).toNat = _
    rw [UInt64.toNat_sub,UInt64.toNat_ofNat']
    omega
  · intro other found value member
    exact accounted.entries other found value (mem_erase store index other key entry _ member)

theorem insert {store : Store config} (accounted : store.Accounted) {key : Bytes} {entry : Entry}
    (absent : store.find key = none) (sound : Sound config key entry) : (store.insertEntry key entry).Accounted := by
  have placed := placed_insertEntry store key entry accounted.placed
  refine ⟨?_,?_,placed,storedKeys_nodup _ placed⟩
  · have balance := total_insertEntry store key entry absent
    have before := accounted.memory
    change (store.approximateMemory + UInt64.ofNat entry.storedBytes).toNat = _
    rw [UInt64.toNat_add,UInt64.toNat_ofNat']
    omega
  · intro other found value member
    rcases mem_insert store _ other key entry _ member with new | kept
    · cases new
      exact sound
    · exact accounted.entries other found value kept

theorem update {store : Store config} (accounted : store.Accounted) {key : Bytes} {old entry : Entry}
    (stored : store.find key = some old) (value : entry.value = old.value) (size : entry.storedBytes = old.storedBytes)
    (dated : entry.expiresAt.isSome = entry.expiresAtWall.isSome) : (store.updateEntry key entry).Accounted := by
  have placed := placed_updateEntry store key entry accounted.placed
  have sized := (accounted.entries _ key old (mem_of_find store key old stored)).sized
  refine ⟨?_,?_,placed,storedKeys_nodup _ placed⟩
  · rw [total_updateEntry store key old entry stored size]
    exact accounted.memory
  · intro other found content member
    rcases mem_insert store _ other key entry _ member with new | kept
    · cases new
      exact ⟨by rw [size,value,sized],dated⟩
    · exact accounted.entries other found content kept

theorem edit {store : Store config} (accounted : store.Accounted) {edit : Edit config} (allowed : edit.Allowed store) :
    (edit.apply store).Accounted := by
  cases edit with
  | erase index key entry => exact accounted.erase allowed
  | insert key entry => exact accounted.insert allowed.1 allowed.2
  | update key entry =>
    obtain ⟨old,stored,value,size,dated⟩ := allowed
    exact accounted.update stored value size dated
  | countExpired => exact ⟨accounted.memory,accounted.entries,accounted.placed,accounted.once⟩
  | clear => exact ⟨accounted_empty.memory,accounted_empty.entries,placed_empty,accounted_empty.once⟩

theorem covers {store : Store config} (accounted : store.Accounted) {edit : Edit config} (allowed : edit.Allowed store) :
    edit.fetchSub ≤ store.total ∧ (store.total < 2^64 → edit.fetchSub ≤ store.approximateMemory.toNat) := by
  have inside : edit.fetchSub ≤ store.total := by
    cases edit with
    | erase index key entry =>
      have balance := total_eraseEntry store index key entry allowed
      exact Nat.le.intro ((Nat.add_comm _ _).trans balance)
    | _ => exact Nat.zero_le _
  refine ⟨inside,fun small => ?_⟩
  rwa [accounted.memory,Nat.mod_eq_of_lt small]

theorem edited {store next : Store config} {edits : List (Edit config)} (accounted : store.Accounted)
    (edited : Edited store edits next) : next.Accounted ∧ store.Covered edits := by
  induction edited with
  | nil store =>
    refine ⟨accounted,fun first edit rest split => ?_⟩
    exact absurd split.symm (by simp)
  | cons store edit edits next allowed _ ih =>
    obtain ⟨after,covered⟩ := ih (accounted.edit allowed)
    refine ⟨after,fun first other rest split => ?_⟩
    cases first with
    | nil =>
      obtain ⟨rfl,_⟩ := List.cons.inj split
      exact ⟨accounted,accounted.covers allowed⟩
    | cons head first =>
      obtain ⟨rfl,tail⟩ := List.cons.inj split
      exact covered first other rest tail

end Accounted

/-! What each operation edits, in the order of the source. -/

def expiredEdits (index : Fin config.shardCount) (key : Bytes) (entry : Entry) (now : Int) : List (Edit config) :=
  if isExpired entry now then [.erase index key entry,.countExpired] else []

def lockedEdits (store : Store config) (key : Bytes) (now : Int) : List (Edit config) :=
  match store.find key with
  | none => []
  | some entry => expiredEdits (shardIndex config key) key entry now

def delEdits (store : Store config) (key : Bytes) (now : Int) : List (Edit config) :=
  store.lockedEdits key now ++
    match (store.findLocked key now).1 with
    | none => []
    | some entry => [.erase (shardIndex config key) key entry]

def expireAtEdits (store : Store config) (key : Bytes) (expiryWall : Option Int) (first second : Instant) :
    List (Edit config) :=
  store.lockedEdits key first.now ++
    match (store.findLocked key first.now).1, expiryWall with
    | none, _ => []
    | some entry, none => [.erase (shardIndex config key) key entry]
    | some entry, some wall =>
      if wall ≤ first.wallNow then [.erase (shardIndex config key) key entry]
      else [.update key {entry with expiresAtWall := some wall, expiresAt := some (deadline second wall)}]

def storeEntryEdits (store : Store config) (key : Bytes) (entry : Entry) (now : Int) : List (Edit config) :=
  match store.find key with
  | none => [.insert key entry]
  | some old =>
    (if isExpired old now then [.countExpired] else []) ++
      [.erase (shardIndex config key) key old,.insert key entry]

def setExpiringEdits (store : Store config) (key : Bytes) (value : Value) (expiryWall : Option Int)
    (reading : Instant) : List (Edit config) :=
  let bytes := estimateBytes config key value
  match expiryWall with
  | none => store.storeEntryEdits key ⟨value,none,none,bytes⟩ reading.now
  | some wall =>
    if wall ≤ reading.wallNow then
      match store.find key with
      | none => []
      | some old => [.erase (shardIndex config key) key old,.countExpired]
    else store.storeEntryEdits key ⟨value,some (deadline reading wall),some wall,bytes⟩ reading.now

/-- The edits of a loop, each turn starting from the store that the ones before left. -/
def loopEdits {α : Type} (turn : Store config → α → List (Edit config)) : List α → Store config → List (Edit config)
  | [], _ => []
  | item::items, store => turn store item ++ loopEdits turn items ((turn store item).foldl Edit.apply store)

def sweepEdits (store : Store config) (now : Int) : List (Edit config) :=
  loopEdits (fun store index =>
    (Store.shards store index).entries.flatMap fun item => expiredEdits index item.1 item.2 now)
    (List.finRange config.shardCount) store

def sampleEdits (index : Fin config.shardCount) (draws : Nat → Nat) (now : Int) :
    Nat → Store config → List (Edit config)
  | 0, _ => []
  | attempts+1, store =>
    let entries := (store.shards index).entries
    match entries[draws attempts % entries.length]? with
    | none => []
    | some item =>
      let edits := expiredEdits index item.1 item.2 now
      edits ++ sampleEdits index draws now attempts (edits.foldl Edit.apply store)

def activeExpireEdits (store : Store config) (samplesPerShard : Nat) (draws : Nat → Nat → Nat) (now : Int) :
    List (Edit config) :=
  if samplesPerShard = 0 then []
  else loopEdits (fun store index =>
    let size := (Store.shards store index).entries.length
    if size = 0 then [] else sampleEdits index (draws index.val) now (min samplesPerShard size) store)
    (List.finRange config.shardCount) store

end Store

/-- The operations of a run, with the two that only recovery uses. -/
inductive StoreCall
  | op (op : StoreOp)
  | importSnapshotEntry (entry : PersistedEntry) (reading : Instant)
  | clear

namespace Store
variable {config : StoreConfig}

def call (store : Store config) : StoreCall → Except Failure (Store config)
  | .op op => do
    let (_,next) ← store.step op
    .ok next
  | .importSnapshotEntry entry reading => .ok (store.importSnapshotEntry entry reading)
  | .clear => .ok store.clear

def calls (store : Store config) (calls : List StoreCall) : Except Failure (Store config) :=
  calls.foldlM call store

def editsOf (store : Store config) : StoreCall → List (Edit config)
  | .op (.set key value reading) => store.setExpiringEdits key value none reading
  | .op (.setExpiring key value expiryWall reading) => store.setExpiringEdits key value expiryWall reading
  | .op (.get key now) | .op (.exists_ key now) | .op (.expiryWallTime key now) | .op (.ttl key now) =>
    store.lockedEdits key now
  | .op (.del key now) => store.delEdits key now
  | .op (.delMany keys now) => loopEdits (fun store key => store.delEdits key now) keys store
  | .op (.existsMany keys now) => loopEdits (fun store key => store.lockedEdits key now) keys store
  | .op (.expire key ttl wallNow first second) =>
    store.expireAtEdits key (some (if ttl ≤ 0 then wallNow else wallNow + ttl * 1000000)) first second
  | .op (.expireAt key expiryWall first second) => store.expireAtEdits key expiryWall first second
  | .op (.keys pattern now) => if pattern ≠ [0x2A] then [] else store.sweepEdits now
  | .op (.exportSnapshotEntries now) => store.sweepEdits now
  | .op (.activeExpireCycle samplesPerShard draws now) => store.activeExpireEdits samplesPerShard draws now
  | .importSnapshotEntry entry reading => store.setExpiringEdits entry.key entry.value entry.expiryWall reading
  | .clear => [.clear]

end Store

namespace Edited
variable {config : StoreConfig} {first second third : Store config} {one two : List (Edit config)}

theorem append (left : Edited first one second) (right : Edited second two third) :
    Edited first (one ++ two) third := by
  induction left with
  | nil store => exact right
  | cons store edit edits next allowed _ ih => exact Edited.cons store edit (edits ++ two) third allowed (ih right)

theorem result (edited : Edited first one second) : one.foldl Edit.apply first = second := by
  induction edited with
  | nil store => rfl
  | cons store edit edits next _ _ ih => exact ih

theorem single (store : Store config) (edit : Edit config) (allowed : edit.Allowed store) :
    Edited store [edit] (edit.apply store) :=
  Edited.cons store edit [] _ allowed (Edited.nil _)

theorem loop {α β : Type} (turn : Store config → α → List (Edit config)) (step : β × Store config → α → β × Store config)
    (each : ∀ state item, Edited state.2 (turn state.2 item) (step state item).2) (items : List α)
    (state : β × Store config) : Edited state.2 (Store.loopEdits turn items state.2) (items.foldl step state).2 := by
  induction items generalizing state with
  | nil => exact Edited.nil state.2
  | cons item items ih =>
    have here := each state item
    refine here.append ?_
    rw [here.result]
    exact ih (step state item)

theorem loopM {α β : Type} (turn : Store config → α → List (Edit config))
    (step : β × Store config → α → Except Failure (β × Store config))
    (each : ∀ state item next, step state item = .ok next → Edited state.2 (turn state.2 item) next.2) (items : List α)
    (state last : β × Store config) (done : items.foldlM step state = .ok last) :
    Edited state.2 (Store.loopEdits turn items state.2) last.2 := by
  induction items generalizing state with
  | nil =>
    cases done
    exact Edited.nil last.2
  | cons item items ih =>
    rw [List.foldlM_cons] at done
    cases now : step state item with
    | error failure =>
      rw [now,Persistence.error_bind] at done
      cases done
    | ok next =>
      rw [now,Persistence.ok_bind] at done
      have here := each state item next now
      refine here.append ?_
      rw [here.result]
      exact ih next done

end Edited

namespace Store
variable {config : StoreConfig}

theorem expired_edited (store : Store config) (index : Fin config.shardCount) (key : Bytes) (entry : Entry) (now : Int)
    (stored : ⟨key,entry⟩ ∈ (store.shards index).entries) :
    Edited store (expiredEdits index key entry now) (store.eraseExpiredLocked index key entry now).2 := by
  unfold expiredEdits eraseExpiredLocked
  cases isExpired entry now with
  | false => exact Edited.nil store
  | true => exact (Edited.single store (.erase index key entry) stored).append (Edited.single _ .countExpired trivial)

theorem findLocked_edited (store : Store config) (key : Bytes) (now : Int) :
    Edited store (store.lockedEdits key now) (store.findLocked key now).2 ∧
      ∀ entry, (store.findLocked key now).1 = some entry → (store.findLocked key now).2.find key = some entry := by
  unfold lockedEdits findLocked
  cases found : store.find key with
  | none => exact ⟨Edited.nil store,nofun⟩
  | some entry =>
    have edited := expired_edited store _ key entry now (mem_of_find store key entry found)
    unfold eraseExpiredLocked at edited ⊢
    cases expired : isExpired entry now with
    | false =>
      rw [expired] at edited
      simp only [expired]
      refine ⟨edited,fun other same => ?_⟩
      cases same
      exact found
    | true =>
      rw [expired] at edited
      simp only [expired]
      exact ⟨edited,nofun⟩

theorem lookupLive_edited (store : Store config) (key : Bytes) (now : Int) :
    Edited store (store.lockedEdits key now) (store.lookupLive key now).2 := by
  rw [lookupLive_eq]
  exact (findLocked_edited store key now).1

theorem erased_edited (store : Store config) (key : Bytes) (entry : Entry) (found : store.find key = some entry) :
    Edited store [.erase (shardIndex config key) key entry] (store.eraseEntry (shardIndex config key) key entry) :=
  Edited.single store (.erase _ key entry) (mem_of_find store key entry found)

theorem del_edited (store : Store config) (key : Bytes) (now : Int) :
    Edited store (store.delEdits key now) (store.del key now).2 := by
  obtain ⟨edited,found⟩ := findLocked_edited store key now
  unfold delEdits del
  refine edited.append ?_
  generalize store.findLocked key now = locked at found
  obtain ⟨entry,next⟩ := locked
  cases entry with
  | none => exact Edited.nil next
  | some entry => exact erased_edited next key entry (found entry rfl)

theorem expireAt_edited (store : Store config) (key : Bytes) (expiryWall : Option Int) (first second : Instant) :
    Edited store (store.expireAtEdits key expiryWall first second) (store.expireAt key expiryWall first second).2 := by
  obtain ⟨edited,found⟩ := findLocked_edited store key first.now
  unfold expireAtEdits expireAt
  refine edited.append ?_
  generalize store.findLocked key first.now = locked at found
  obtain ⟨entry,next⟩ := locked
  cases entry with
  | none => exact Edited.nil next
  | some entry =>
    have stored := found entry rfl
    cases expiryWall with
    | none => exact erased_edited next key entry stored
    | some wall =>
      dsimp only
      split
      · exact erased_edited next key entry stored
      · exact Edited.single next (.update key _) ⟨entry,stored,rfl,rfl,rfl⟩

theorem expire_edited (store : Store config) (key : Bytes) (ttl wallNow : Int) (first second : Instant) :
    Edited store (store.expireAtEdits key (some (if ttl ≤ 0 then wallNow else wallNow + ttl * 1000000)) first second)
      (store.expire key ttl wallNow first second).2 := by
  unfold expire
  split
  · exact expireAt_edited store key _ first second
  · exact expireAt_edited store key _ first second

/-- The lookup of `ttl` returns early on an entry without a deadline, which never expires. -/
theorem ttl_edited (store : Store config) (key : Bytes) (now : Int) :
    Edited store (store.lockedEdits key now) (store.ttl key now).2 := by
  have edited := (findLocked_edited store key now).1
  unfold findLocked at edited
  unfold ttl
  cases found : store.find key with
  | none =>
    rw [found] at edited
    exact edited
  | some entry =>
    rw [found] at edited
    unfold eraseExpiredLocked isExpired at edited ⊢
    cases expires : entry.expiresAt with
    | none => simpa [expires] using edited
    | some expiry =>
      by_cases running : expiry > now
      · simpa [expires,running,Int.not_le.mpr running] using edited
      · simpa [expires,running,Int.not_lt.mp running] using edited

theorem storeEntry_edited (store : Store config) (key : Bytes) (entry : Entry) (now : Int)
    (sound : Sound config key entry) :
    Edited store (store.storeEntryEdits key entry now) (store.storeEntry key entry now) := by
  unfold storeEntryEdits storeEntry
  cases found : store.find key with
  | none => exact Edited.single store (.insert key entry) ⟨found,sound⟩
  | some old =>
    have replaced (counted : Store config) (same : counted.find key = some old) :
        Edited counted [.erase (shardIndex config key) key old,.insert key entry]
          ((counted.eraseEntry (shardIndex config key) key old).insertEntry key entry) := by
      have absent : (counted.eraseEntry (shardIndex config key) key old).find key = none := by
        rw [find_eraseEntry,if_pos rfl]
      exact (erased_edited counted key old same).append (Edited.single _ (.insert key entry) ⟨absent,sound⟩)
    dsimp only
    cases isExpired old now with
    | false => exact replaced store found
    | true => exact (Edited.single store .countExpired trivial).append (replaced store.countExpired found)

theorem setExpiring_edited (store : Store config) (key : Bytes) (value : Value) (expiryWall : Option Int)
    (reading : Instant) :
    Edited store (store.setExpiringEdits key value expiryWall reading)
      (store.setExpiring key value expiryWall reading) := by
  unfold setExpiringEdits setExpiring
  cases expiryWall with
  | none => exact storeEntry_edited store key _ _ ⟨rfl,rfl⟩
  | some wall =>
    dsimp only
    split
    · cases found : store.find key with
      | none => exact Edited.nil store
      | some old => exact (erased_edited store key old found).append (Edited.single _ .countExpired trivial)
    · exact storeEntry_edited store key _ _ ⟨rfl,rfl⟩

theorem kept_entry (store : Store config) (index : Fin config.shardCount) (key : Bytes) (entry : Entry) (now : Int)
    (item : (_ : Bytes) × Entry) (stored : item ∈ (store.shards index).entries) (different : item.1 ≠ key) :
    item ∈ ((store.eraseExpiredLocked index key entry now).2.shards index).entries := by
  unfold eraseExpiredLocked
  split
  · exact stored
  · change item ∈ (Function.update store.shards index _ index).entries
    rw [Function.update_self]
    apply AList.mem_lookup_iff.mp
    rw [AList.lookup_erase_ne different]
    exact AList.mem_lookup_iff.mpr stored

/-- The loop over one shard meets entries that its earlier turns have left in place. -/
theorem sweepStep_edited (index : Fin config.shardCount) (now : Int) (items : List ((_ : Bytes) × Entry))
    (nodup : (items.map Sigma.fst).Nodup) (state : List (Bytes × Entry) × Store config)
    (stored : ∀ item ∈ items, item ∈ (state.2.shards index).entries) :
    Edited state.2 (items.flatMap fun item => expiredEdits index item.1 item.2 now)
      (items.foldl (sweepStep index now) state).2 := by
  induction items generalizing state with
  | nil => exact Edited.nil state.2
  | cons item items ih =>
    rw [List.map_cons,List.nodup_cons] at nodup
    have here := expired_edited state.2 index item.1 item.2 now (stored item List.mem_cons_self)
    have same : (sweepStep index now state item).2 = (state.2.eraseExpiredLocked index item.1 item.2 now).2 := by
      obtain ⟨live,current⟩ := state
      unfold sweepStep eraseExpiredLocked
      dsimp only
      cases isExpired item.2 now <;> rfl
    rw [List.flatMap_cons,List.foldl_cons]
    rw [← same] at here
    refine here.append (ih nodup.2 _ fun other member => ?_)
    rw [same]
    refine kept_entry state.2 index item.1 item.2 now other (stored other (List.mem_cons_of_mem _ member)) ?_
    exact fun equal => nodup.1 (equal ▸ List.mem_map_of_mem member)

theorem sweep_edited (store : Store config) (now : Int) :
    Edited store (store.sweepEdits now) (store.sweep now).2 := by
  refine Edited.loop _ _ (fun state index => ?_) _ ([],store)
  exact sweepStep_edited index now _ (state.2.shards index).nodupKeys ([],state.2) fun _ member => member

theorem sampleShard_edited (index : Fin config.shardCount) (draws : Nat → Nat) (now : Int) (attempts expired : Nat)
    (store : Store config) (last : Nat × Store config)
    (done : sampleShard index draws now attempts expired store = .ok last) :
    Edited store (sampleEdits index draws now attempts store) last.2 := by
  induction attempts generalizing expired store with
  | zero =>
    cases done
    exact Edited.nil store
  | succ attempts ih =>
    rw [sampleShard] at done
    rw [sampleEdits]
    dsimp only at done ⊢
    cases drawn : (store.shards index).entries[draws attempts % (store.shards index).entries.length]? with
    | none =>
      rw [drawn] at done
      cases done
    | some item =>
      rw [drawn] at done
      have here := expired_edited store index item.1 item.2 now (List.mem_of_getElem? drawn)
      refine here.append ?_
      rw [here.result]
      exact ih _ _ done

theorem activeExpireCycle_edited (store : Store config) (samples : Nat) (draws : Nat → Nat → Nat) (now : Int)
    (last : Nat × Store config) (done : store.activeExpireCycle samples draws now = .ok last) :
    Edited store (store.activeExpireEdits samples draws now) last.2 := by
  unfold activeExpireCycle at done
  unfold activeExpireEdits
  split at done
  · next none =>
    cases done
    rw [if_pos none]
    exact Edited.nil store
  · next some =>
    rw [if_neg some]
    refine Edited.loopM _ _ (fun state index next turn => ?_) _ (0,store) last done
    unfold sampleRound at turn
    dsimp only at turn ⊢
    split at turn
    · next none =>
      cases turn
      rw [if_pos none]
      exact Edited.nil _
    · next some =>
      rw [if_neg some]
      exact sampleShard_edited index _ now _ _ _ next turn

theorem call_edited (store : Store config) (placed : store.Placed) (call : StoreCall) :
    ∃ next, store.call call = .ok next ∧ Edited store (store.editsOf call) next := by
  cases call with
  | importSnapshotEntry entry reading => exact ⟨_,rfl,setExpiring_edited store _ _ _ reading⟩
  | clear => exact ⟨_,rfl,Edited.single store .clear trivial⟩
  | op op =>
    cases op with
    | set key value reading => exact ⟨_,rfl,setExpiring_edited store key value none reading⟩
    | setExpiring key value expiryWall reading => exact ⟨_,rfl,setExpiring_edited store key value expiryWall reading⟩
    | get key now => exact ⟨_,rfl,lookupLive_edited store key now⟩
    | exists_ key now => exact ⟨_,rfl,lookupLive_edited store key now⟩
    | expiryWallTime key now => exact ⟨_,rfl,lookupLive_edited store key now⟩
    | del key now => exact ⟨_,rfl,del_edited store key now⟩
    | delMany keys now =>
      refine ⟨_,rfl,Edited.loop _ (delManyStep now) (fun state key => ?_) keys (0,store)⟩
      rw [delManyStep_eq]
      exact del_edited state.2 key now
    | existsMany keys now =>
      refine ⟨_,rfl,Edited.loop _ (existsManyStep now) (fun state key => ?_) keys (0,store)⟩
      obtain ⟨count,current⟩ := state
      have edited := (findLocked_edited current key now).1
      unfold existsManyStep
      dsimp only
      generalize current.findLocked key now = locked at edited ⊢
      obtain ⟨entry,next⟩ := locked
      cases entry <;> exact edited
    | expire key ttl wallNow first second => exact ⟨_,rfl,expire_edited store key ttl wallNow first second⟩
    | expireAt key expiryWall first second => exact ⟨_,rfl,expireAt_edited store key expiryWall first second⟩
    | ttl key now => exact ⟨_,rfl,ttl_edited store key now⟩
    | keys pattern now =>
      refine ⟨_,rfl,?_⟩
      change Edited store (if pattern ≠ [0x2A] then [] else store.sweepEdits now) (store.keys pattern now).2
      unfold keys
      split
      · exact Edited.nil store
      · exact sweep_edited store now
    | exportSnapshotEntries now => exact ⟨_,rfl,sweep_edited store now⟩
    | activeExpireCycle samples draws now =>
      obtain ⟨gone,next,result,_⟩ := activeExpireCycle_spec store samples draws now placed
      refine ⟨next,?_,activeExpireCycle_edited store samples draws now _ result⟩
      simp only [Store.call,step,result]
      rfl

theorem calls_accounted (store : Store config) (accounted : store.Accounted) (list : List StoreCall) :
    ∃ next, store.calls list = .ok next ∧ Edited store (loopEdits editsOf list store) next := by
  induction list generalizing store with
  | nil => exact ⟨store,rfl,Edited.nil store⟩
  | cons call list ih =>
    obtain ⟨middle,first,edited⟩ := call_edited store accounted.placed call
    obtain ⟨next,rest,further⟩ := ih middle (accounted.edited edited).1
    refine ⟨next,?_,edited.append ?_⟩
    · unfold calls at rest ⊢
      rw [List.foldlM_cons,first,Persistence.ok_bind,rest]
    · rwa [edited.result]

/-- Whatever is called, the calls return, every state between two edits of theirs is
accounted, and what an edit subtracts is there. -/
theorem memory_accounted (config : StoreConfig) (list : List StoreCall) :
    ∃ store, (empty : Store config).calls list = .ok store ∧ store.Accounted ∧
      (loopEdits editsOf list empty).foldl Edit.apply (empty : Store config) = store ∧
      (empty : Store config).Covered (loopEdits editsOf list empty) := by
  obtain ⟨store,returned,edited⟩ := calls_accounted (empty : Store config) accounted_empty list
  obtain ⟨accounted,covered⟩ := accounted_empty.edited edited
  exact ⟨store,returned,accounted,edited.result,covered⟩

/-! A listing removes only what has expired, in whatever shard it is found. -/

theorem find_erased (store : Store config) (index : Fin config.shardCount) (key other : Bytes) (entry : Entry)
    (stored : ⟨key,entry⟩ ∈ (store.shards index).entries) :
    (store.eraseEntry index key entry).find other = store.find other ∨
      (store.eraseEntry index key entry).find other = none ∧ store.find other = some entry := by
  change (Function.update store.shards index _ (shardIndex config other)).lookup other = _ ∨
    (Function.update store.shards index _ (shardIndex config other)).lookup other = none ∧ _
  by_cases here : shardIndex config other = index
  · rw [← here] at stored ⊢
    rw [Function.update_self]
    by_cases same : other = key
    · subst same
      exact Or.inr ⟨AList.lookup_erase _ _,AList.mem_lookup_iff.mpr stored⟩
    · exact Or.inl (AList.lookup_erase_ne same)
  · rw [Function.update_of_ne here]
    exact Or.inl rfl

end Store

def Edit.Expired {config : StoreConfig} (now : Int) : Edit config → Prop
  | .erase _ _ entry => isExpired entry now = true
  | .countExpired => True
  | _ => False

namespace Store
variable {config : StoreConfig}

theorem expiredEdits_expired (index : Fin config.shardCount) (key : Bytes) (entry : Entry) (now : Int) :
    ∀ edit ∈ expiredEdits index key entry now, edit.Expired now := by
  unfold expiredEdits
  split
  · next expired => exact List.forall_mem_cons.mpr ⟨expired,List.forall_mem_singleton.mpr trivial⟩
  · exact List.forall_mem_nil _

theorem loopEdits_forall {α : Type} {turn : Store config → α → List (Edit config)} {holds : Edit config → Prop}
    (each : ∀ store item, ∀ edit ∈ turn store item, holds edit) (items : List α) (store : Store config) :
    ∀ edit ∈ loopEdits turn items store, holds edit := by
  induction items generalizing store with
  | nil => exact List.forall_mem_nil _
  | cons item items ih => exact List.forall_mem_append.mpr ⟨each store item,ih _⟩

end Store

theorem Edited.trims {config : StoreConfig} {before after : Store config} {edits : List (Edit config)} {now : Int}
    (edited : Edited before edits after) (expired : ∀ edit ∈ edits, edit.Expired now) :
    ExpiringMap.Trims Entry.expiresAt now before.find after.find := by
  induction edited with
  | nil store => exact ExpiringMap.Trims.refl now store.find
  | cons store edit edits next allowed _ ih =>
    obtain ⟨here,rest⟩ := List.forall_mem_cons.mp expired
    refine ExpiringMap.Trims.trans ?_ (ih rest)
    cases edit with
    | erase index key entry =>
      intro other
      refine (Store.find_erased store index key other entry allowed).imp_right fun ⟨gone,found⟩ => ?_
      exact ⟨gone,entry,found,(Store.isExpired_iff entry now).mp here⟩
    | countExpired => exact ExpiringMap.Trims.refl now store.find
    | insert key entry => exact here.elim
    | update key entry => exact here.elim
    | clear => exact here.elim

namespace Store
variable {config : StoreConfig}

theorem keys_trims (store : Store config) (pattern : Bytes) (now : Int) :
    ExpiringMap.Trims Entry.expiresAt now store.find (store.keys pattern now).2.find := by
  unfold keys
  split
  · exact ExpiringMap.Trims.refl now store.find
  · apply (sweep_edited store now).trims
    apply loopEdits_forall
    intro store index edit member
    obtain ⟨item,_,made⟩ := List.mem_flatMap.mp member
    exact expiredEdits_expired index item.1 item.2 now edit made

end Store
end NovaCache
