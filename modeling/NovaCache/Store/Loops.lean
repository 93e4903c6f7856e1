import NovaCache.AssociationList
import NovaCache.Store.Specification
import Mathlib.Data.Finset.Card

/-! The operations that loop: over a list of keys, over the entries of every shard, and
over random draws from a shard. -/
namespace NovaCache
namespace Store
open ExpiringMap
variable {config : StoreConfig}

def liveKeys (store : Store config) (keys : List Bytes) (now : Int) : Finset Bytes :=
  keys.toFinset.filter (fun key => (store.live key now).isSome)

def without (keys : List Bytes) (map : Bytes → Option Entry) (key : Bytes) : Option Entry :=
  if key ∈ keys then none else map key

theorem delManyStep_eq (now : Int) (count : Nat) (store : Store config) (key : Bytes) :
    delManyStep now (count,store) key = (count + (store.del key now).1.toNat,(store.del key now).2) := by
  simp only [delManyStep,del]
  cases store.findLocked key now with
  | mk entry next => cases entry <;> rfl

theorem liveKeys_cons (store next : Store config) (key : Bytes) (keys : List Bytes) (now : Int)
    (changed : Changed now key none store next) :
    (store.liveKeys (key::keys) now).card =
      (store.live key now).isSome.toNat + (next.liveKeys keys now).card := by
  have gone : next.live key now = none := (live_eq_none next key now).mpr (by simp [changed.find_same])
  have absent : key ∉ next.liveKeys keys now := by simp [liveKeys,gone]
  have others : ∀ other, other ≠ key → next.live other now = store.live other now :=
    fun other different => changed.live_other different
  cases here : (store.live key now).isSome with
  | true =>
    have grown : store.liveKeys (key::keys) now = insert key (next.liveKeys keys now) := by
      ext other
      by_cases same : other = key
      · simp [same,liveKeys,here]
      · simp [same,liveKeys,others other same]
    rw [grown,Finset.card_insert_of_notMem absent,Bool.toNat_true,Nat.add_comm]
  | false =>
    have equal : store.liveKeys (key::keys) now = next.liveKeys keys now := by
      ext other
      by_cases same : other = key
      · simp [same,liveKeys,here,gone]
      · simp [same,liveKeys,others other same]
    rw [equal,Bool.toNat_false,Nat.zero_add]

/-- A key listed again is already gone, so that distinct live keys are counted. -/
theorem delMany_from (keys : List Bytes) (now : Int) (count : Nat) (store : Store config) :
    let result := keys.foldl (delManyStep now) (count,store)
    result.1 = count + (store.liveKeys keys now).card ∧ (store.Placed → result.2.Placed) ∧
      Trims Entry.expiresAt now (without keys store.find) result.2.find := by
  induction keys generalizing count store with
  | nil => exact ⟨rfl,id,fun key => Or.inl rfl⟩
  | cons key rest ih =>
    rw [List.foldl_cons,delManyStep_eq]
    obtain ⟨removed,changed⟩ := del_spec store key now
    obtain ⟨total,placed,found⟩ := ih (count + (store.del key now).1.toNat) (store.del key now).2
    refine ⟨?_,fun before => placed (changed.placed before),Trims.trans ?_ found⟩
    · rw [total,removed,liveKeys_cons store _ key rest now changed,Nat.add_assoc]
    · obtain ⟨middle,trimmed,assigned⟩ := changed
      refine trimmed.found.assign fun other => ?_
      by_cases same : other = key
      · simp [without,assigned.found,same]
      · by_cases listed : other ∈ rest
        · simp [without,listed]
        · simp [without,assigned.found,listed,same]

theorem delMany_spec (store : Store config) (keys : List Bytes) (now : Int) :
    (store.delMany keys now).1 = (store.liveKeys keys now).card ∧
      (store.Placed → (store.delMany keys now).2.Placed) ∧
      Trims Entry.expiresAt now (without keys store.find) (store.delMany keys now).2.find := by
  have result := delMany_from keys now 0 store
  rwa [Nat.zero_add] at result

/-- What holds of every stored entry. -/
def Each (holds : Bytes → Entry → Prop) (store : Store config) : Prop :=
  ∀ key entry, store.find key = some entry → holds key entry

section each
variable {holds : Bytes → Entry → Prop} {store next : Store config}

theorem Each.trimmed {now : Int} (each : Each holds store) (trimmed : Trimmed now store next) : Each holds next :=
  fun key entry found => each key entry (trimmed.found.mem found)

theorem Each.assigned {key : Bytes} {entry : Option Entry} (each : Each holds store)
    (assigned : Assigned key entry store next) (fresh : ∀ found ∈ entry, holds key found) : Each holds next := by
  intro other found here
  rw [assigned.found other] at here
  split at here
  · next same => exact same ▸ fresh found here
  · exact each other found here

theorem Each.delMany (each : Each holds store) (keys : List Bytes) (now : Int) : Each holds (store.delMany keys now).2 := by
  obtain ⟨_,_,trims⟩ := delMany_spec store keys now
  intro key entry found
  have before := trims.mem found
  rw [without] at before
  split at before
  · cases before
  · exact each key entry before

theorem Each.expireAt {key : Bytes} {expiryWall : Option Int} {first second : Instant} (each : Each holds store)
    (moved : ∀ entry, holds key entry → ∀ found ∈ rescheduled entry expiryWall first second, holds key found) :
    Each holds (store.expireAt key expiryWall first second).2 := by
  obtain ⟨_,middle,trimmed,assigned⟩ := expireAt_spec store key expiryWall first second
  refine (each.trimmed trimmed).assigned assigned fun found same => ?_
  obtain ⟨entry,live,later⟩ := Option.bind_eq_some_iff.mp same
  exact moved entry (each key entry ((live_eq_some store key first.now entry).mp live).1) found later

end each

theorem existsMany_from (keys : List Bytes) (now : Int) (count : Nat) (store : Store config) :
    let result := keys.foldl (existsManyStep now) (count,store)
    result.1 = count + keys.countP (fun key => (store.live key now).isSome) ∧
      Trimmed now store result.2 := by
  induction keys generalizing count store with
  | nil => exact ⟨rfl,Trimmed.refl now store⟩
  | cons key rest ih =>
    rw [List.foldl_cons,existsManyStep,List.countP_cons]
    rcases findLocked_cases store key now with ⟨entry,found,result⟩ | ⟨next,absent,result,trimmed,_⟩
    · rw [result,found]
      obtain ⟨total,further⟩ := ih (count + 1) store
      refine ⟨?_,further⟩
      rw [total]
      simp only [Option.isSome_some,if_true]
      omega
    · rw [result,absent]
      obtain ⟨total,further⟩ := ih count next
      refine ⟨?_,trimmed.trans further⟩
      rw [total]
      simp [trimmed.live_eq]

theorem existsMany_spec (store : Store config) (keys : List Bytes) (now : Int) :
    (store.existsMany keys now).1 = keys.countP (fun key => (store.live key now).isSome) ∧
      Trimmed now store (store.existsMany keys now).2 := by
  have result := existsMany_from keys now 0 store
  rwa [Nat.zero_add] at result

theorem sweepStep_from (index : Fin config.shardCount) (now : Int) (items : List ((_ : Bytes) × Entry))
    (nodup : (items.map Sigma.fst).Nodup) (live : List (Bytes × Entry)) (store : Store config)
    (here : ∀ item ∈ items, shardIndex config item.1 = index ∧ store.find item.1 = some item.2) :
    let result := items.foldl (sweepStep index now) (live,store)
    result.1 = live ++ (items.filter (fun item => !isExpired item.2 now)).map (fun item => (item.1,item.2)) ∧
      Trimmed now store result.2 := by
  induction items generalizing live store with
  | nil => exact ⟨by simp,Trimmed.refl now store⟩
  | cons item rest ih =>
    rw [List.map_cons,List.nodup_cons] at nodup
    obtain ⟨shard,found⟩ := here item List.mem_cons_self
    rw [List.foldl_cons,sweepStep]
    cases expired : isExpired item.2 now with
    | true =>
      have trimmed := trimmed_erase store item.1 item.2 now found expired
      rw [shard] at trimmed
      obtain ⟨listed,further⟩ := ih nodup.2 live (store.eraseEntry index item.1 item.2).countExpired (by
        intro other member
        obtain ⟨place,same⟩ := here other (List.mem_cons_of_mem _ member)
        refine ⟨place,?_⟩
        have different : other.1 ≠ item.1 := fun equal =>
          nodup.1 (equal ▸ List.mem_map_of_mem member)
        rw [find_countExpired,← shard,find_eraseEntry,if_neg different,same])
      refine ⟨?_,trimmed.trans further⟩
      rw [if_pos rfl,listed,List.filter_cons_of_neg (by simp [expired])]
    | false =>
      obtain ⟨listed,further⟩ := ih nodup.2 (live ++ [(item.1,item.2)]) store
        (fun other member => here other (List.mem_cons_of_mem _ member))
      refine ⟨?_,further⟩
      rw [if_neg (by simp),listed,List.filter_cons_of_pos (by simp [expired])]
      simp

theorem sweepShard_spec (store : Store config) (placed : store.Placed) (index : Fin config.shardCount)
    (now : Int) :
    ((store.sweepShard index now).1.map Prod.fst).Nodup ∧
      (∀ key entry, (key,entry) ∈ (store.sweepShard index now).1 ↔
        store.live key now = some entry ∧ shardIndex config key = index) ∧
      Trimmed now store (store.sweepShard index now).2 := by
  have nodup : ((store.shards index).entries.map Sigma.fst).Nodup := (store.shards index).nodupKeys
  obtain ⟨listed,trimmed⟩ := sweepStep_from index now (store.shards index).entries nodup [] store
    (fun item member => find_of_mem store placed index item.1 item.2 member)
  rw [sweepShard,listed,List.nil_append]
  refine ⟨?_,fun key entry => ?_,trimmed⟩
  · rw [List.map_map]
    exact nodup.sublist (List.filter_sublist.map _)
  · rw [live_eq_some]
    constructor
    · intro member
      obtain ⟨item,kept,equal⟩ := List.mem_map.mp member
      cases equal
      obtain ⟨stored,alive⟩ := List.mem_filter.mp kept
      obtain ⟨shard,found⟩ := find_of_mem store placed index item.1 item.2 stored
      exact ⟨⟨found,by simpa using alive⟩,shard⟩
    · rintro ⟨⟨found,alive⟩,rfl⟩
      exact List.mem_map.mpr ⟨⟨key,entry⟩,
        List.mem_filter.mpr ⟨mem_of_find store key entry found,by simp [alive]⟩,rfl⟩

theorem sweep_from (indices : List (Fin config.shardCount)) (nodup : indices.Nodup) (now : Int)
    (listed : List (Bytes × Entry)) (store : Store config) (placed : store.Placed) :
    ∃ live : List (Bytes × Entry), ∃ next : Store config,
      indices.foldl (fun (listed,store) index =>
        let (live,store) := Store.sweepShard store index now
        (listed ++ live,store)) (listed,store) = (listed ++ live,next) ∧
      (live.map Prod.fst).Nodup ∧ Trimmed now store next ∧
      ∀ key entry, (key,entry) ∈ live ↔ store.live key now = some entry ∧ shardIndex config key ∈ indices := by
  induction indices generalizing listed store with
  | nil => exact ⟨[],store,by simp,by simp,Trimmed.refl now store,by simp⟩
  | cons index rest ih =>
    rw [List.nodup_cons] at nodup
    obtain ⟨distinct,members,trimmed⟩ := sweepShard_spec store placed index now
    obtain ⟨live,next,result,others,further,more⟩ := ih nodup.2 (listed ++ (store.sweepShard index now).1)
      (store.sweepShard index now).2 (trimmed.placed placed)
    refine ⟨(store.sweepShard index now).1 ++ live,next,?_,?_,trimmed.trans further,fun key entry => ?_⟩
    · rw [List.foldl_cons,← List.append_assoc]
      exact result
    · rw [List.map_append]
      refine List.Nodup.append distinct others ?_
      intro key first second
      obtain ⟨⟨_,one⟩,member,rfl⟩ := List.mem_map.mp first
      obtain ⟨⟨_,two⟩,again,equal⟩ := List.mem_map.mp second
      cases equal
      exact nodup.1 (((members _ _).mp member).2 ▸ ((more _ _).mp again).2)
    · rw [List.mem_append,members,more,trimmed.live_eq,List.mem_cons,← and_or_left]

theorem sweep_spec (store : Store config) (placed : store.Placed) (now : Int) :
    ((store.sweep now).1.map Prod.fst).Nodup ∧ Trimmed now store (store.sweep now).2 ∧
      ∀ key entry, (key,entry) ∈ (store.sweep now).1 ↔ store.live key now = some entry := by
  obtain ⟨live,next,result,nodup,trimmed,members⟩ :=
    sweep_from (List.finRange config.shardCount) (List.nodup_finRange _) now [] store placed
  rw [sweep,result]
  refine ⟨nodup,trimmed,fun key entry => ?_⟩
  rw [List.nil_append,members]
  exact and_iff_left (List.mem_finRange _)

def Dropped (now : Int) (gone : Finset Bytes) (before after : Store config) : Prop :=
  (before.Placed → after.Placed) ∧ (∀ key ∈ gone, ∃ entry, before.find key = some entry ∧ isExpired entry now = true) ∧
    ∀ key, after.find key = if key ∈ gone then none else before.find key

theorem Dropped.refl (now : Int) (store : Store config) : Dropped now ∅ store store := ⟨id,by simp,by simp⟩

theorem Dropped.trans {now : Int} {one two : Finset Bytes} {first second third : Store config}
    (left : Dropped now one first second) (right : Dropped now two second third) :
    Disjoint one two ∧ Dropped now (one ∪ two) first third := by
  have kept : ∀ key ∈ two, key ∉ one := by
    intro key member before
    obtain ⟨entry,found,_⟩ := right.2.1 key member
    rw [left.2.2 key,if_pos before] at found
    cases found
  refine ⟨Finset.disjoint_right.mpr kept,fun placed => right.1 (left.1 placed),fun key member => ?_,fun key => ?_⟩
  · rcases Finset.mem_union.mp member with before | after
    · exact left.2.1 key before
    · obtain ⟨entry,found,expired⟩ := right.2.1 key after
      rw [left.2.2 key,if_neg (kept key after)] at found
      exact ⟨entry,found,expired⟩
  · rw [right.2.2 key,left.2.2 key]
    by_cases before : key ∈ one <;> by_cases after : key ∈ two <;> simp [before,after]

theorem length_eraseEntry (store : Store config) (index : Fin config.shardCount) (key : Bytes) (entry : Entry)
    (member : key ∈ store.shards index) :
    (((store.eraseEntry index key entry).countExpired).shards index).entries.length + 1 =
      (store.shards index).entries.length := by
  change (Function.update store.shards index _ index).entries.length + 1 = _
  rw [Function.update_self,AssociationList.length_erase member]

/-- A relation between the stores before and behind the removal of a number of expired
entries, one by one. -/
structure Removal (now : Int) (removed : Nat → Store config → Store config → Prop) : Prop where
  refl : ∀ store, removed 0 store store
  erase : ∀ store index, ∀ item ∈ (store.shards index).entries, isExpired item.2 now = true →
    removed 1 store (store.eraseEntry index item.1 item.2).countExpired
  trans : ∀ {one two first second third}, removed one first second → removed two second third →
    removed (one + two) first third

/-- There is always an entry to draw, since each attempt removes at most one. -/
theorem sampleShard_ends {now : Int} {removed : Nat → Store config → Store config → Prop} (removal : Removal now removed)
    (index : Fin config.shardCount) (draws : Nat → Nat) (attempts expired : Nat) (store : Store config)
    (enough : attempts ≤ (store.shards index).entries.length) :
    ∃ count next, sampleShard index draws now attempts expired store = .ok (expired + count,next) ∧
      removed count store next := by
  induction attempts generalizing expired store with
  | zero => exact ⟨0,store,rfl,removal.refl store⟩
  | succ attempts ih =>
    rw [sampleShard]
    have bound : draws attempts % (store.shards index).entries.length < (store.shards index).entries.length :=
      Nat.mod_lt _ (by omega)
    rw [List.getElem?_eq_getElem bound]
    generalize drawn : (store.shards index).entries[draws attempts % (store.shards index).entries.length] = item
    have member : item ∈ (store.shards index).entries := drawn ▸ List.getElem_mem bound
    cases due : isExpired item.2 now with
    | false =>
      obtain ⟨count,next,result,rest⟩ := ih expired store (by omega)
      exact ⟨count,next,by simpa [eraseExpiredLocked,due] using result,rest⟩
    | true =>
      have fewer := length_eraseEntry store index item.1 item.2 (List.mem_map_of_mem member)
      obtain ⟨count,next,result,rest⟩ := ih (expired + 1) (store.eraseEntry index item.1 item.2).countExpired (by omega)
      refine ⟨1 + count,next,?_,removal.trans (removal.erase store index item member due) rest⟩
      rw [← Nat.add_assoc]
      simpa [eraseExpiredLocked,due] using result

theorem activeExpireCycle_from {now : Int} {removed : Nat → Store config → Store config → Prop}
    (removal : Removal now removed) (indices : List (Fin config.shardCount)) (samples : Nat) (draws : Nat → Nat → Nat)
    (expired : Nat) (store : Store config) :
    ∃ count next, indices.foldlM (fun sample index => sampleRound samples index (draws index.val) now sample)
      (expired,store) = .ok (expired + count,next) ∧ removed count store next := by
  induction indices generalizing expired store with
  | nil => exact ⟨0,store,rfl,removal.refl store⟩
  | cons index rest ih =>
    rw [List.foldlM_cons,sampleRound]
    by_cases none : (store.shards index).entries.length = 0
    · rw [if_pos none,Persistence.ok_bind]
      exact ih expired store
    · rw [if_neg none]
      obtain ⟨one,middle,result,first⟩ := sampleShard_ends removal index (draws index.val)
        (min samples (store.shards index).entries.length) expired store (Nat.min_le_right _ _)
      rw [result,Persistence.ok_bind]
      obtain ⟨two,next,final,second⟩ := ih (expired + one) middle
      exact ⟨one + two,next,by rw [final,Nat.add_assoc],removal.trans first second⟩

theorem activeExpireCycle_ends {now : Int} {removed : Nat → Store config → Store config → Prop}
    (removal : Removal now removed) (store : Store config) (samples : Nat) (draws : Nat → Nat → Nat) :
    ∃ count next, store.activeExpireCycle samples draws now = .ok (count,next) ∧ removed count store next := by
  unfold activeExpireCycle
  split
  · exact ⟨0,store,rfl,removal.refl store⟩
  · obtain ⟨count,next,result,rest⟩ :=
      activeExpireCycle_from removal (List.finRange config.shardCount) samples draws 0 store
    exact ⟨count,next,by rw [result,Nat.zero_add],rest⟩

theorem removal_dropped (now : Int) : Removal now (fun count (before after : Store config) =>
    before.Placed → ∃ gone, gone.card = count ∧ Dropped now gone before after) where
  refl store _ := ⟨∅,rfl,Dropped.refl now store⟩
  erase store index item member due placed := by
    obtain ⟨shard,found⟩ := find_of_mem store placed index item.1 item.2 member
    refine ⟨{item.1},Finset.card_singleton _,placed_eraseEntry store index item.1 item.2,?_,fun key => ?_⟩
    · intro key same
      rw [Finset.mem_singleton.mp same]
      exact ⟨item.2,found,due⟩
    · rw [find_countExpired,← shard,find_eraseEntry]
      simp
  trans left right placed := by
    obtain ⟨one,first,dropped⟩ := left placed
    obtain ⟨two,second,further⟩ := right (dropped.1 placed)
    obtain ⟨disjoint,both⟩ := dropped.trans further
    exact ⟨one ∪ two,by rw [Finset.card_union_of_disjoint disjoint,first,second],both⟩

theorem activeExpireCycle_spec (store : Store config) (samples : Nat) (draws : Nat → Nat → Nat) (now : Int)
    (placed : store.Placed) :
    ∃ gone next, store.activeExpireCycle samples draws now = .ok (gone.card,next) ∧
      Dropped now gone store next := by
  obtain ⟨count,next,result,removed⟩ := activeExpireCycle_ends (removal_dropped now) store samples draws
  obtain ⟨gone,rfl,dropped⟩ := removed placed
  exact ⟨gone,next,result,dropped⟩

end Store
end NovaCache
