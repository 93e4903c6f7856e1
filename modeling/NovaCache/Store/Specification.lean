import NovaCache.Store.Operations
import NovaCache.ExpiringMap

/-! What each operation does to the entries found under the keys, and what it returns.
Lookups, counts, listings and sampling only trim entries that have expired. -/
namespace NovaCache
namespace Store
open ExpiringMap
variable {config : StoreConfig}

theorem isExpired_iff (entry : Entry) (now : Int) : isExpired entry now = true ↔ Due Entry.expiresAt entry now := by
  unfold isExpired Due
  cases entry.expiresAt <;> simp

def live (store : Store config) (key : Bytes) (now : Int) : Option Entry :=
  visible Entry.expiresAt store.find now key

theorem live_eq_some (store : Store config) (key : Bytes) (now : Int) (entry : Entry) :
    store.live key now = some entry ↔ store.find key = some entry ∧ isExpired entry now = false := by
  rw [live,visible_eq_some,← isExpired_iff,Bool.not_eq_true]

theorem live_eq_none (store : Store config) (key : Bytes) (now : Int) :
    store.live key now = none ↔ ∀ entry, store.find key = some entry → isExpired entry now = true := by
  simp only [live,visible_eq_none,isExpired_iff,Option.mem_def]

structure Trimmed (now : Int) (before after : Store config) : Prop where
  placed : before.Placed → after.Placed
  found : Trims Entry.expiresAt now before.find after.find

theorem Trimmed.refl (now : Int) (store : Store config) : Trimmed now store store :=
  ⟨id,Trims.refl now store.find⟩

theorem Trimmed.trans {now : Int} {first second third : Store config} (one : Trimmed now first second)
    (two : Trimmed now second third) : Trimmed now first third :=
  ⟨fun placed => two.placed (one.placed placed),one.found.trans two.found⟩

theorem Trimmed.live_eq {now : Int} {before after : Store config} (trimmed : Trimmed now before after)
    (key : Bytes) : after.live key now = before.live key now :=
  trimmed.found.visible_eq key

theorem trimmed_erase (store : Store config) (key : Bytes) (entry : Entry) (now : Int)
    (found : store.find key = some entry) (expired : isExpired entry now = true) :
    Trimmed now store (store.eraseEntry (shardIndex config key) key entry).countExpired := by
  refine ⟨fun placed => placed_eraseEntry store _ key entry placed,fun other => ?_⟩
  rw [find_countExpired,find_eraseEntry]
  by_cases same : other = key
  · subst same
    exact Or.inr ⟨if_pos rfl,entry,found,(isExpired_iff entry now).mp expired⟩
  · exact Or.inl (if_neg same)

theorem findLocked_cases (store : Store config) (key : Bytes) (now : Int) :
    (∃ entry, store.live key now = some entry ∧ store.findLocked key now = (some entry,store)) ∨
      ∃ next, store.live key now = none ∧ store.findLocked key now = (none,next) ∧
        Trimmed now store next ∧ next.find key = none := by
  unfold findLocked
  cases found : store.find key with
  | none => exact Or.inr ⟨store,by simp [live_eq_none,found],rfl,Trimmed.refl now store,found⟩
  | some entry =>
    cases expired : isExpired entry now with
    | false =>
      exact Or.inl ⟨entry,(live_eq_some store key now entry).mpr ⟨found,expired⟩,by
        simp [eraseExpiredLocked,expired]⟩
    | true =>
      refine Or.inr ⟨_,?_,?_,trimmed_erase store key entry now found expired,?_⟩
      · simp [live_eq_none,found,expired]
      · simp [eraseExpiredLocked,expired]
      · rw [find_countExpired,find_eraseEntry,if_pos rfl]

theorem lookupLive_eq (store : Store config) (key : Bytes) (now : Int) :
    store.lookupLive key now = store.findLocked key now := by
  unfold lookupLive findLocked
  cases found : store.find key with
  | none => rfl
  | some entry => cases expired : isExpired entry now <;> simp [eraseExpiredLocked,expired]

theorem lookupLive_spec (store : Store config) (key : Bytes) (now : Int) :
    (store.lookupLive key now).1 = store.live key now ∧ Trimmed now store (store.lookupLive key now).2 := by
  rw [lookupLive_eq]
  rcases findLocked_cases store key now with ⟨entry,found,result⟩ | ⟨next,absent,result,trimmed,_⟩
  · rw [result,found]
    exact ⟨rfl,Trimmed.refl now store⟩
  · rw [result,absent]
    exact ⟨rfl,trimmed⟩

/-- Placement is kept, and exactly the entry of one key is replaced. -/
structure Assigned (key : Bytes) (entry : Option Entry) (before after : Store config) : Prop where
  placed : before.Placed → after.Placed
  found : ∀ other, after.find other = if other = key then entry else before.find other

theorem assigned_erase (store : Store config) (key : Bytes) (entry : Entry) :
    Assigned key none store (store.eraseEntry (shardIndex config key) key entry) :=
  ⟨placed_eraseEntry store _ key entry,fun other => find_eraseEntry store key other entry⟩

theorem assigned_absent (store : Store config) (key : Bytes) (absent : store.find key = none) :
    Assigned key none store store := by
  refine ⟨id,fun other => ?_⟩
  by_cases same : other = key
  · rw [if_pos same,same,absent]
  · rw [if_neg same]

theorem storeEntry_spec (store : Store config) (key : Bytes) (entry : Entry) (now : Int) :
    Assigned key (some entry) store (store.storeEntry key entry now) := by
  unfold storeEntry
  cases found : store.find key with
  | none => exact ⟨placed_insertEntry store key entry,fun other => find_insertEntry store key other entry⟩
  | some old =>
    constructor
    · intro placed
      apply placed_insertEntry
      apply placed_eraseEntry
      split
      · exact placed_countExpired store placed
      · exact placed
    · intro other
      rw [find_insertEntry]
      split
      · rfl
      · next different =>
        rw [find_eraseEntry,if_neg different]
        split <;> rfl

def settled (config : StoreConfig) (key : Bytes) (value : Value) (expiryWall : Option Int) (reading : Instant) :
    Option Entry :=
  let bytes := estimateBytes config key value
  match expiryWall with
  | none => some ⟨value,none,none,bytes⟩
  | some wall =>
    if wall ≤ reading.wallNow then none else some ⟨value,some (deadline reading wall),some wall,bytes⟩

theorem setExpiring_spec (store : Store config) (key : Bytes) (value : Value) (expiryWall : Option Int)
    (reading : Instant) :
    Assigned key (settled config key value expiryWall reading) store
      (store.setExpiring key value expiryWall reading) := by
  unfold setExpiring settled
  cases expiryWall with
  | none => exact storeEntry_spec store key _ _
  | some wall =>
    dsimp only
    split
    · cases found : store.find key with
      | none => exact assigned_absent store key found
      | some old =>
        have erased := assigned_erase store key old
        exact ⟨fun placed => placed_countExpired _ (erased.placed placed),erased.found⟩
    · exact storeEntry_spec store key _ _

/-- Some entries that have expired are trimmed, then the entry of one key is replaced. -/
def Changed (now : Int) (key : Bytes) (entry : Option Entry) (before after : Store config) : Prop :=
  ∃ middle, Trimmed now before middle ∧ Assigned key entry middle after

theorem Changed.live_other {now : Int} {key other : Bytes} {entry : Option Entry} {before after : Store config}
    (changed : Changed now key entry before after) (different : other ≠ key) :
    after.live other now = before.live other now := by
  obtain ⟨middle,trimmed,assigned⟩ := changed
  rw [← trimmed.live_eq other]
  unfold live visible
  rw [assigned.found other,if_neg different]

theorem Changed.find_same {now : Int} {key : Bytes} {entry : Option Entry} {before after : Store config}
    (changed : Changed now key entry before after) : after.find key = entry := by
  obtain ⟨middle,_,assigned⟩ := changed
  rw [assigned.found key,if_pos rfl]

theorem Changed.placed {now : Int} {key : Bytes} {entry : Option Entry} {before after : Store config}
    (changed : Changed now key entry before after) (placed : before.Placed) : after.Placed := by
  obtain ⟨middle,trimmed,assigned⟩ := changed
  exact assigned.placed (trimmed.placed placed)

theorem del_spec (store : Store config) (key : Bytes) (now : Int) :
    (store.del key now).1 = (store.live key now).isSome ∧
      Changed now key none store (store.del key now).2 := by
  unfold del
  rcases findLocked_cases store key now with ⟨entry,found,result⟩ | ⟨next,absent,result,trimmed,gone⟩
  · rw [result,found]
    exact ⟨rfl,store,Trimmed.refl now store,assigned_erase store key entry⟩
  · rw [result,absent]
    exact ⟨rfl,next,trimmed,assigned_absent next key gone⟩

/-- What `expireAt` leaves under a key with this live entry. -/
def rescheduled (entry : Entry) (expiryWall : Option Int) (first second : Instant) : Option Entry :=
  match expiryWall with
  | none => none
  | some wall =>
    if wall ≤ first.wallNow then none
    else some {entry with expiresAtWall := some wall, expiresAt := some (deadline second wall)}

theorem expireAt_spec (store : Store config) (key : Bytes) (expiryWall : Option Int) (first second : Instant) :
    (store.expireAt key expiryWall first second).1 = (store.live key first.now).isSome ∧
      Changed first.now key ((store.live key first.now).bind (rescheduled · expiryWall first second)) store
        (store.expireAt key expiryWall first second).2 := by
  unfold expireAt rescheduled
  rcases findLocked_cases store key first.now with ⟨entry,found,result⟩ | ⟨next,absent,result,trimmed,gone⟩
  · rw [result,found]
    have erased := assigned_erase store key entry
    cases expiryWall with
    | none => exact ⟨rfl,store,Trimmed.refl _ store,erased⟩
    | some wall =>
      dsimp only [Option.bind]
      split
      · exact ⟨rfl,store,Trimmed.refl _ store,erased⟩
      · refine ⟨rfl,store,Trimmed.refl _ store,placed_updateEntry store key _,fun other => ?_⟩
        exact find_updateEntry store key other _
  · rw [result,absent]
    exact ⟨rfl,next,trimmed,assigned_absent next key gone⟩

theorem ttl_spec (store : Store config) (key : Bytes) (now : Int) :
    (store.ttl key now).1 = (match (store.live key now).map Entry.expiresAt with
      | none => -2
      | some none => -1
      | some (some expiry) => (expiry - now) / 1000000000) ∧
      Trimmed now store (store.ttl key now).2 := by
  unfold ttl
  cases found : store.find key with
  | none =>
    rw [(live_eq_none store key now).mpr (by simp [found])]
    exact ⟨rfl,Trimmed.refl now store⟩
  | some entry =>
    cases expires : entry.expiresAt with
    | none =>
      rw [(live_eq_some store key now entry).mpr ⟨found,by simp [isExpired,expires]⟩]
      simp only [expires,Option.map_some,true_and]
      exact Trimmed.refl now store
    | some expiry =>
      by_cases running : expiry > now
      · have alive : isExpired entry now = false := by simpa [isExpired,expires] using running
        rw [(live_eq_some store key now entry).mpr ⟨found,alive⟩]
        simp only [expires,Option.map_some,if_pos running]
        exact ⟨Int.tdiv_eq_ediv_of_nonneg (by omega),Trimmed.refl now store⟩
      · have expired : isExpired entry now = true := by simpa [isExpired,expires] using running
        rw [(live_eq_none store key now).mpr (by simp [found,expired])]
        simp only [expires,if_neg running,eraseExpiredLocked,expired,not_true_eq_false,if_false,if_true]
        exact ⟨rfl,trimmed_erase store key entry now found expired⟩

end Store
end NovaCache
