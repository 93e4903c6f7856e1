import NovaCache.Store.Loops
import NovaCache.Tally

/-! The draws of `active_expire_cycle`. A shard shrinks while it is sampled, but the number
of attempts was bounded by its size before, so there is an entry left for each of them. -/
namespace NovaCache
namespace Store
variable {config : StoreConfig} {now : Int}

/-- A random draw: the entries of the shard when the distribution is made, and how far the
iterator is advanced from the first of them. -/
structure Draw where
  size : Nat
  index : Nat
  deriving DecidableEq, Repr

def Draw.InRange (draw : Draw) : Prop := draw.size ≠ 0 ∧ draw.index < draw.size

/-- The draws of `sampleShard`. -/
def sampleDraws (index : Fin config.shardCount) (draws : Nat → Nat) (now : Int) :
    Nat → Store config → List Draw
  | 0, _ => []
  | attempts+1, store =>
    let entries := (store.shards index).entries
    let advanced := draws attempts % entries.length
    ⟨entries.length,advanced⟩::match entries[advanced]? with
    | none => []
    | some item => sampleDraws index draws now attempts (store.eraseExpiredLocked index item.1 item.2 now).2

/-- The draws of the loop over the shards. -/
def cycleDraws (samplesPerShard : Nat) (draws : Nat → Nat → Nat) (now : Int) :
    List (Fin config.shardCount) → Nat × Store config → List Draw
  | [], _ => []
  | index::rest, (expired,store) =>
    let size := (store.shards index).entries.length
    if size = 0 then cycleDraws samplesPerShard draws now rest (expired,store)
    else
      sampleDraws index (draws index.val) now (min samplesPerShard size) store ++
      match sampleShard index (draws index.val) now (min samplesPerShard size) expired store with
      | .error _ => []
      | .ok next => cycleDraws samplesPerShard draws now rest next

def activeExpireDraws (store : Store config) (samplesPerShard : Nat) (draws : Nat → Nat → Nat) (now : Int) : List Draw :=
  if samplesPerShard = 0 then []
  else cycleDraws samplesPerShard draws now (List.finRange config.shardCount) (0,store)

/-- A draw out of range is not survived. -/
theorem sampleDraws_inRange (index : Fin config.shardCount) (draws : Nat → Nat) (attempts expired : Nat)
    (store : Store config) (last : Nat × Store config)
    (done : sampleShard index draws now attempts expired store = .ok last) :
    ∀ draw ∈ sampleDraws index draws now attempts store, draw.InRange := by
  induction attempts generalizing expired store with
  | zero => exact List.forall_mem_nil _
  | succ attempts ih =>
    rw [sampleShard] at done
    rw [sampleDraws]
    dsimp only at done ⊢
    cases drawn : (store.shards index).entries[draws attempts % (store.shards index).entries.length]? with
    | none =>
      rw [drawn] at done
      cases done
    | some item =>
      rw [drawn] at done
      have inside := (List.getElem?_eq_some_iff.mp drawn).1
      refine List.forall_mem_cons.mpr ⟨⟨Nat.ne_of_gt (Nat.zero_lt_of_lt inside),inside⟩,?_⟩
      exact ih _ _ done

theorem cycleDraws_inRange (indices : List (Fin config.shardCount)) (samples : Nat) (draws : Nat → Nat → Nat)
    (state last : Nat × Store config)
    (done : indices.foldlM (fun sample index => sampleRound samples index (draws index.val) now sample) state = .ok last) :
    ∀ draw ∈ cycleDraws samples draws now indices state, draw.InRange := by
  induction indices generalizing state with
  | nil => exact List.forall_mem_nil _
  | cons index rest ih =>
    obtain ⟨expired,store⟩ := state
    rw [List.foldlM_cons,sampleRound] at done
    rw [cycleDraws]
    dsimp only at done ⊢
    split
    · next none =>
      rw [if_pos none,Persistence.ok_bind] at done
      exact ih _ done
    · next some =>
      rw [if_neg some] at done
      cases sampled : sampleShard index (draws index.val) now (min samples (store.shards index).entries.length) expired
          store with
      | error failure =>
        rw [sampled] at done
        cases done
      | ok next =>
        rw [sampled,Persistence.ok_bind] at done
        exact List.forall_mem_append.mpr ⟨sampleDraws_inRange _ _ _ _ _ _ sampled,ih _ done⟩

theorem activeExpireDraws_inRange (store : Store config) (samples : Nat) (draws : Nat → Nat → Nat)
    (last : Nat × Store config) (done : store.activeExpireCycle samples draws now = .ok last) :
    ∀ draw ∈ store.activeExpireDraws samples draws now, draw.InRange := by
  unfold activeExpireCycle at done
  unfold activeExpireDraws
  split at done
  · next none =>
    rw [if_pos none]
    exact List.forall_mem_nil _
  · next some =>
    rw [if_neg some]
    exact cycleDraws_inRange _ samples draws _ last done

/-- The number of entries in all shards. -/
def size (store : Store config) : Nat := ∑ index, (store.shards index).entries.length

theorem size_eraseEntry (store : Store config) (index : Fin config.shardCount) (key : Bytes) (entry : Entry)
    (member : key ∈ store.shards index) : (store.eraseEntry index key entry).countExpired.size + 1 = store.size := by
  have here := AssociationList.length_erase member
  have moved := Tally.sum_update (fun shard : Shard => shard.entries.length) store.shards index
    ((store.shards index).erase key)
  change ∑ other, (Function.update store.shards index ((store.shards index).erase key) other).entries.length + 1 =
    ∑ other, (store.shards other).entries.length
  omega

/-- Some entries are gone, all of them expired; the others are as they were, and both the
count and the counter say how many are gone. -/
structure Thinned (now : Int) (count : Nat) (before after : Store config) : Prop where
  kept : ∀ index, (after.shards index).entries.Sublist (before.shards index).entries
  expired : ∀ index, ∀ item ∈ (before.shards index).entries, item ∉ (after.shards index).entries →
    isExpired item.2 now = true
  size : count + after.size = before.size
  counter : after.expiredKeys = before.expiredKeys + UInt64.ofNat count

theorem thinned_eraseEntry (store : Store config) (index : Fin config.shardCount) (item : Sigma fun _ : Bytes => Entry)
    (member : item ∈ (store.shards index).entries) (due : isExpired item.2 now = true) :
    Thinned now 1 store (store.eraseEntry index item.1 item.2).countExpired := by
  have here : ((store.eraseEntry index item.1 item.2).countExpired.shards index) = (store.shards index).erase item.1 :=
    Function.update_self ..
  have elsewhere : ∀ other, other ≠ index →
      (store.eraseEntry index item.1 item.2).countExpired.shards other = store.shards other :=
    fun other different => Function.update_of_ne different ..
  refine ⟨fun other => ?_,fun other found inside gone => ?_,?_,rfl⟩
  · by_cases same : other = index
    · subst same
      rw [here]
      exact List.kerase_sublist item.1 _
    · rw [elsewhere other same]
  · by_cases same : other = index
    · subst same
      rw [here] at gone
      have key : found.1 = item.1 := by
        by_contra different
        exact gone (AssociationList.mem_erase_entries inside different)
      rwa [(store.shards other).nodupKeys.eq_of_fst_eq inside member key]
    · rw [elsewhere other same] at gone
      exact absurd inside gone
  · rw [Nat.add_comm]
    exact size_eraseEntry store index item.1 item.2 (List.mem_map_of_mem member)

theorem removal_thinned (now : Int) : Removal now (@Thinned config now) where
  refl store := ⟨fun _ => List.Sublist.refl _,fun _ _ inside gone => absurd inside gone,Nat.zero_add _,by simp⟩
  erase store index item member due := thinned_eraseEntry store index item member due
  trans {one two first second third} left right := by
    refine ⟨fun index => (right.kept index).trans (left.kept index),fun index item inside gone => ?_,?_,?_⟩
    · by_cases between : item ∈ (second.shards index).entries
      · exact right.expired index item between gone
      · exact left.expired index item inside between
    · rw [← left.size,← right.size,Nat.add_assoc]
    · rw [right.counter,left.counter,UInt64.ofNat_add,UInt64.add_assoc]

theorem expired_deadline {entry : Entry} (due : isExpired entry now = true) :
    ∃ deadline, entry.expiresAt = some deadline ∧ deadline ≤ now := by
  unfold isExpired at due
  split at due
  · cases due
  · next deadline set => exact ⟨deadline,set,of_decide_eq_true due⟩

/-- Whatever is drawn, every draw is from a shard that has entries and stays among them; only
entries whose deadline has come are removed, the others stay as they are, and the result is
how many are removed and how much the counter grows. -/
theorem active_expiry_exact (store : Store config) (samplesPerShard : Nat) (draws : Nat → Nat → Nat) (now : Int) :
    (∀ draw ∈ store.activeExpireDraws samplesPerShard draws now, draw.size ≠ 0 ∧ draw.index < draw.size) ∧
    ∃ removed next, store.activeExpireCycle samplesPerShard draws now = .ok (removed,next) ∧
      (∀ index, (next.shards index).entries.Sublist (store.shards index).entries) ∧
      (∀ index, ∀ item ∈ (store.shards index).entries, item ∉ (next.shards index).entries →
        ∃ deadline, item.2.expiresAt = some deadline ∧ deadline ≤ now) ∧
      removed + next.size = store.size ∧ next.expiredKeys = store.expiredKeys + UInt64.ofNat removed := by
  obtain ⟨removed,next,result,thinned⟩ := activeExpireCycle_ends (removal_thinned now) store samplesPerShard draws
  refine ⟨activeExpireDraws_inRange store samplesPerShard draws _ result,removed,next,result,thinned.kept,?_,
    thinned.size,thinned.counter⟩
  intro index item inside gone
  exact expired_deadline (thinned.expired index item inside gone)

end Store
end NovaCache
