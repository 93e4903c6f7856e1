import NovaCache.Store.Basic

/-! The operations of the store, run one after another. Each takes the clock readings it
makes in the order of the source; locks do not appear, but the second lookup made
under the exclusive lock does. -/
namespace NovaCache
namespace Store
variable {config : StoreConfig}

/-- Writes the entry of the key; an overwritten one gives its bytes back first. -/
def storeEntry (store : Store config) (key : Bytes) (entry : Entry) (now : Int) : Store config :=
  match store.find key with
  | none => store.insertEntry key entry
  | some old =>
    let counted := if isExpired old now then store.countExpired else store
    (counted.eraseEntry (shardIndex config key) key old).insertEntry key entry

def setExpiring (store : Store config) (key : Bytes) (value : Value) (expiryWall : Option Int)
    (reading : Instant) : Store config :=
  let bytes := estimateBytes config key value
  match expiryWall with
  | none => store.storeEntry key ⟨value,none,none,bytes⟩ reading.now
  | some wall =>
    if wall ≤ reading.wallNow then
      match store.find key with
      | none => store
      | some old => (store.eraseEntry (shardIndex config key) key old).countExpired
    else store.storeEntry key ⟨value,some (deadline reading wall),some wall,bytes⟩ reading.now

def set (store : Store config) (key : Bytes) (value : Value) (reading : Instant) : Store config :=
  store.setExpiring key value none reading

/-- The shared lookup, and the exclusive one that removes what has expired in between. -/
def lookupLive (store : Store config) (key : Bytes) (now : Int) : Option Entry × Store config :=
  match store.find key with
  | none => (none,store)
  | some entry =>
    if ¬ isExpired entry now then (some entry,store)
    else match store.find key with
      | none => (none,store)
      | some entry =>
        let (erased,store) := store.eraseExpiredLocked (shardIndex config key) key entry now
        if erased then (none,store) else (some entry,store)

def get (store : Store config) (key : Bytes) (now : Int) : Option Value × Store config :=
  let (entry,store) := store.lookupLive key now
  (entry.map Entry.value,store)

def exists_ (store : Store config) (key : Bytes) (now : Int) : Bool × Store config :=
  let (entry,store) := store.lookupLive key now
  (entry.isSome,store)

def expiryWallTime (store : Store config) (key : Bytes) (now : Int) : Option Int × Store config :=
  let (entry,store) := store.lookupLive key now
  (entry.bind Entry.expiresAtWall,store)

/-- Under the exclusive lock: a missing key, an expired one that is removed, or a live one. -/
def findLocked (store : Store config) (key : Bytes) (now : Int) : Option Entry × Store config :=
  match store.find key with
  | none => (none,store)
  | some entry =>
    let (erased,store) := store.eraseExpiredLocked (shardIndex config key) key entry now
    if erased then (none,store) else (some entry,store)

def del (store : Store config) (key : Bytes) (now : Int) : Bool × Store config :=
  match store.findLocked key now with
  | (none,store) => (false,store)
  | (some entry,store) => (true,store.eraseEntry (shardIndex config key) key entry)

def delManyStep (now : Int) : Nat × Store config → Bytes → Nat × Store config
  | (removed,store), key =>
    match store.findLocked key now with
    | (none,store) => (removed,store)
    | (some entry,store) => (removed + 1,store.eraseEntry (shardIndex config key) key entry)

def delMany (store : Store config) (keys : List Bytes) (now : Int) : Nat × Store config :=
  keys.foldl (delManyStep now) (0,store)

def existsManyStep (now : Int) : Nat × Store config → Bytes → Nat × Store config
  | (count,store), key =>
    match store.findLocked key now with
    | (none,store) => (count,store)
    | (some _,store) => (count + 1,store)

def existsMany (store : Store config) (keys : List Bytes) (now : Int) : Nat × Store config :=
  keys.foldl (existsManyStep now) (0,store)

/-- The clocks are read again for the new deadline, hence the two readings. -/
def expireAt (store : Store config) (key : Bytes) (expiryWall : Option Int) (first second : Instant) :
    Bool × Store config :=
  match store.findLocked key first.now with
  | (none,store) => (false,store)
  | (some entry,store) =>
    match expiryWall with
    | none => (true,store.eraseEntry (shardIndex config key) key entry)
    | some wall =>
      if wall ≤ first.wallNow then (true,store.eraseEntry (shardIndex config key) key entry)
      else (true,store.updateEntry key
        {entry with expiresAtWall := some wall, expiresAt := some (deadline second wall)})

def expire (store : Store config) (key : Bytes) (ttl : Int) (wallNow : Int) (first second : Instant) :
    Bool × Store config :=
  if ttl ≤ 0 then store.expireAt key (some wallNow) first second
  else store.expireAt key (some (wallNow + ttl * 1000000)) first second

def ttl (store : Store config) (key : Bytes) (now : Int) : Int × Store config :=
  let remaining (expiry : Int) : Int := (expiry - now).tdiv 1000000000
  let locked : Int × Store config :=
    match store.find key with
    | none => (-2,store)
    | some entry =>
      match entry.expiresAt with
      | none => (-1,store)
      | some expiry =>
        let (erased,store) := store.eraseExpiredLocked (shardIndex config key) key entry now
        if erased then (-2,store) else (remaining expiry,store)
  match store.find key with
  | none => (-2,store)
  | some entry =>
    match entry.expiresAt with
    | none => (-1,store)
    | some expiry => if expiry > now then (remaining expiry,store) else locked

def sweepStep (index : Fin config.shardCount) (now : Int) :
    List (Bytes × Entry) × Store config → (_ : Bytes) × Entry → List (Bytes × Entry) × Store config
  | (live,store), item =>
    if isExpired item.2 now then (live,(store.eraseEntry index item.1 item.2).countExpired)
    else (live ++ [(item.1,item.2)],store)

def sweepShard (store : Store config) (index : Fin config.shardCount) (now : Int) :
    List (Bytes × Entry) × Store config :=
  (store.shards index).entries.foldl (sweepStep index now) ([],store)

def sweep (store : Store config) (now : Int) : List (Bytes × Entry) × Store config :=
  (List.finRange config.shardCount).foldl (fun (listed,store) index =>
    let (live,store) := store.sweepShard index now
    (listed ++ live,store)) ([],store)

/-- Byte strings in the order of `std::string`, which compares unsigned bytes. -/
def lexLe : Bytes → Bytes → Bool
  | [], _ => true
  | _::_, [] => false
  | a::as, b::bs => a < b || (a == b && lexLe as bs)

def keys (store : Store config) (pattern : Bytes) (now : Int) : KeysResult × Store config :=
  if pattern ≠ [0x2A] then (⟨.unsupportedPattern,[]⟩,store)
  else
    let (listed,store) := store.sweep now
    (⟨.ok,(listed.map Prod.fst).mergeSort lexLe⟩,store)

def exportSnapshotEntries (store : Store config) (now : Int) : List PersistedEntry × Store config :=
  let (listed,store) := store.sweep now
  (listed.map (fun item => ⟨item.1,item.2.value,item.2.expiresAtWall⟩),store)

/-- The sampling loop of one shard; `draws` answers the random draws, each reduced to the
requested range. A draw from an empty shard leaves the iterator out of range. -/
def sampleShard (index : Fin config.shardCount) (draws : Nat → Nat) (now : Int) :
    Nat → Nat → Store config → Except Failure (Nat × Store config)
  | 0, expired, store => .ok (expired,store)
  | attempts+1, expired, store =>
    let entries := (store.shards index).entries
    match entries[draws attempts % entries.length]? with
    | none => .error .outOfRange
    | some item =>
      let (erased,store) := store.eraseExpiredLocked index item.1 item.2 now
      sampleShard index draws now attempts (if erased then expired + 1 else expired) store

/-- The turn of one shard in the cycle. -/
def sampleRound (samplesPerShard : Nat) (index : Fin config.shardCount) (draws : Nat → Nat) (now : Int)
    (sample : Nat × Store config) : Except Failure (Nat × Store config) :=
  let size := (sample.2.shards index).entries.length
  if size = 0 then .ok sample
  else sampleShard index draws now (min samplesPerShard size) sample.1 sample.2

def activeExpireCycle (store : Store config) (samplesPerShard : Nat) (draws : Nat → Nat → Nat) (now : Int) :
    Except Failure (Nat × Store config) :=
  if samplesPerShard = 0 then .ok (0,store)
  else (List.finRange config.shardCount).foldlM (fun sample index =>
    sampleRound samplesPerShard index (draws index.val) now sample) (0,store)

def clear (store : Store config) : Store config :=
  {store with shards := fun _ => ∅, approximateMemory := 0}

def importSnapshotEntry (store : Store config) (entry : PersistedEntry) (reading : Instant) : Store config :=
  store.setExpiring entry.key entry.value entry.expiryWall reading

end Store
end NovaCache
