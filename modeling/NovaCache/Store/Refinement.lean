import NovaCache.Store.Loops
import NovaCache.Store.Reference

/-! The sharded store refines the flat map: at every moment it stores the cells of the map,
except for some whose deadline has come. -/
namespace NovaCache
open ExpiringMap Reference
variable {config : StoreConfig}

def Entry.cell (entry : Entry) : Cell := ⟨entry.value,entry.expiresAt,entry.expiresAtWall⟩

structure Refines (now : Int) (store : Store config) (map : Map) : Prop where
  placed : store.Placed
  cells : Trims Cell.deadline now map (fun key => (store.find key).map Entry.cell)

theorem Refines.later {now later : Int} {store : Store config} {map : Map} (refines : Refines now store map)
    (order : now ≤ later) : Refines later store map :=
  ⟨refines.placed,refines.cells.later order⟩

theorem Refines.live_eq {now : Int} {store : Store config} {map : Map} (refines : Refines now store map)
    (key : Bytes) : live map now key = (store.live key now).map Entry.cell := by
  rw [live,← refines.cells.visible_eq key]
  exact visible_map store.find Entry.cell (fun _ => rfl) now key

theorem Refines.live_isSome {now : Int} {store : Store config} {map : Map} (refines : Refines now store map)
    (key : Bytes) : (live map now key).isSome = (store.live key now).isSome := by
  rw [refines.live_eq,Option.isSome_map]

theorem Refines.trimmed {now : Int} {store next : Store config} {map : Map} (refines : Refines now store map)
    (trimmed : store.Trimmed now next) : Refines now next map :=
  ⟨trimmed.placed refines.placed,refines.cells.trans (trimmed.found.map Entry.cell fun _ => rfl)⟩

theorem Refines.assigned {now : Int} {store next : Store config} {map : Map} {key : Bytes} {entry : Option Entry}
    (refines : Refines now store map) (assigned : store.Assigned key entry next) :
    Refines now next (put map key (entry.map Entry.cell)) := by
  refine ⟨assigned.placed refines.placed,refines.cells.assign fun other => ?_⟩
  rw [put,assigned.found]
  by_cases same : other = key
  · exact Or.inl (by rw [if_pos same,if_pos same])
  · exact Or.inr (by rw [if_neg same,if_neg same]; exact ⟨rfl,rfl⟩)

theorem Refines.changed {now : Int} {store next : Store config} {map : Map} {key : Bytes} {entry : Option Entry}
    (refines : Refines now store map) (changed : store.Changed now key entry next) :
    Refines now next (put map key (entry.map Entry.cell)) := by
  obtain ⟨middle,trimmed,assigned⟩ := changed
  exact (refines.trimmed trimmed).assigned assigned

theorem settled_cell (key : Bytes) (value : Value) (expiryWall : Option Int) (reading : Instant) :
    (Store.settled config key value expiryWall reading).map Entry.cell = fresh value expiryWall reading := by
  unfold Store.settled fresh
  cases expiryWall with
  | none => rfl
  | some wall =>
    dsimp only
    split <;> rfl

theorem rescheduled_cell (entry : Entry) (expiryWall : Option Int) (first second : Instant) :
    (Store.rescheduled entry expiryWall first second).map Entry.cell =
      moved entry.cell expiryWall first second := by
  unfold Store.rescheduled moved
  cases expiryWall with
  | none => rfl
  | some wall =>
    dsimp only
    split <;> rfl

theorem lexLe_iff (one two : Bytes) : Store.lexLe one two = true ↔ ¬ two < one := by
  induction one generalizing two with
  | nil => simp [Store.lexLe]
  | cons a as ih =>
    cases two with
    | nil => simp [Store.lexLe]
    | cons b bs =>
      simp only [Store.lexLe,Bool.or_eq_true,decide_eq_true_eq,Bool.and_eq_true,beq_iff_eq,ih,
        List.cons_lt_cons_iff,not_or,not_and]
      simp only [UInt8.lt_iff_toNat_lt,← UInt8.toNat_inj]
      constructor
      · rintro (smaller | ⟨same,rest⟩)
        · exact ⟨by omega,by omega⟩
        · exact ⟨by omega,fun _ => rest⟩
      · rintro ⟨notGreater,rest⟩
        by_cases same : a.toNat = b.toNat
        · exact Or.inr ⟨same,rest same.symm⟩
        · exact Or.inl (by omega)

theorem lexLe_trans (one two three : Bytes) (first : Store.lexLe one two = true)
    (second : Store.lexLe two three = true) : Store.lexLe one three = true := by
  rw [lexLe_iff] at first second ⊢
  exact List.not_lt.mpr (List.le_trans (List.not_lt.mp first) (List.not_lt.mp second))

theorem lexLe_total (one two : Bytes) : (Store.lexLe one two || Store.lexLe two one) = true := by
  rw [Bool.or_eq_true,lexLe_iff,lexLe_iff]
  by_contra both
  simp only [not_or,not_not] at both
  exact List.lt_asymm both.1 both.2

theorem sorted_keys (listed : List Bytes) (nodup : listed.Nodup) :
    (listed.mergeSort Store.lexLe).Pairwise (· < ·) := by
  have sorted := List.pairwise_mergeSort lexLe_trans lexLe_total listed
  have distinct : (listed.mergeSort Store.lexLe).Nodup := (List.mergeSort_perm listed _).nodup_iff.mpr nodup
  refine (sorted.and distinct).imp fun {one two} ⟨ordered,different⟩ => ?_
  rw [lexLe_iff] at ordered
  exact Std.lt_of_le_of_ne (List.not_lt.mp ordered) different

/-- The call answers as the map does, and the store it leaves refines the map after it. -/
def Simulated (store : Store config) (map : Map) (op : StoreOp) : Prop :=
  ∃ result next, store.step op = .ok (result,next) ∧ Answers map op result ∧ Refines op.now next (after map op)

section calls
variable {store : Store config} {map : Map} {now : Int}

theorem setExpiring_simulated {reading : Instant} (current : Refines reading.now store map) (key : Bytes)
    (value : Value) (expiryWall : Option Int) : Simulated store map (.setExpiring key value expiryWall reading) := by
  have assigned := store.setExpiring_spec key value expiryWall reading
  refine ⟨_,_,rfl,rfl,?_⟩
  have next := current.assigned assigned
  rwa [settled_cell] at next

theorem get_simulated (current : Refines now store map) (key : Bytes) : Simulated store map (.get key now) := by
  obtain ⟨found,trimmed⟩ := store.lookupLive_spec key now
  refine ⟨_,_,rfl,?_,current.trimmed trimmed⟩
  change StoreResult.value ((store.lookupLive key now).1.map Entry.value) = _
  rw [found,current.live_eq,Option.map_map]
  rfl

theorem exists_simulated (current : Refines now store map) (key : Bytes) :
    Simulated store map (.exists_ key now) := by
  obtain ⟨found,trimmed⟩ := store.lookupLive_spec key now
  refine ⟨_,_,rfl,?_,current.trimmed trimmed⟩
  change StoreResult.flag (store.lookupLive key now).1.isSome = _
  rw [found,current.live_isSome]

theorem expiryWallTime_simulated (current : Refines now store map) (key : Bytes) :
    Simulated store map (.expiryWallTime key now) := by
  obtain ⟨found,trimmed⟩ := store.lookupLive_spec key now
  refine ⟨_,_,rfl,?_,current.trimmed trimmed⟩
  change StoreResult.wall ((store.lookupLive key now).1.bind Entry.expiresAtWall) = _
  rw [found,current.live_eq]
  cases store.live key now <;> rfl

theorem del_simulated (current : Refines now store map) (key : Bytes) : Simulated store map (.del key now) := by
  obtain ⟨found,changed⟩ := store.del_spec key now
  refine ⟨_,_,rfl,?_,current.changed changed⟩
  change StoreResult.flag (store.del key now).1 = _
  rw [found,current.live_isSome]

theorem delMany_simulated (current : Refines now store map) (keys : List Bytes) :
    Simulated store map (.delMany keys now) := by
  obtain ⟨counted,placed,found⟩ := store.delMany_spec keys now
  refine ⟨_,_,rfl,?_,placed current.placed,?_⟩
  · change StoreResult.count (store.delMany keys now).1 = .count _
    rw [counted,Store.liveKeys]
    simp only [current.live_isSome]
  · refine Trims.trans (current.cells.assign fun key => ?_) (found.map Entry.cell fun _ => rfl)
    by_cases listed : key ∈ keys
    · simp [Store.without,after,listed]
    · simp [Store.without,after,listed]

theorem existsMany_simulated (current : Refines now store map) (keys : List Bytes) :
    Simulated store map (.existsMany keys now) := by
  obtain ⟨counted,trimmed⟩ := store.existsMany_spec keys now
  refine ⟨_,_,rfl,?_,current.trimmed trimmed⟩
  change StoreResult.count (store.existsMany keys now).1 = .count _
  rw [counted]
  simp only [current.live_isSome]

theorem expireAt_simulated {first : Instant} (current : Refines first.now store map) (key : Bytes)
    (expiryWall : Option Int) (second : Instant) : Simulated store map (.expireAt key expiryWall first second) := by
  obtain ⟨found,changed⟩ := store.expireAt_spec key expiryWall first second
  refine ⟨_,_,rfl,?_,?_⟩
  · change StoreResult.flag (store.expireAt key expiryWall first second).1 = _
    rw [found,current.live_isSome]
  · have next := current.changed changed
    change Refines first.now (store.expireAt key expiryWall first second).2 (reschedule map key expiryWall first second)
    rw [reschedule,current.live_eq,Option.bind_map]
    rw [Option.map_bind] at next
    simpa only [Function.comp_def,rescheduled_cell] using next

theorem expire_simulated {first : Instant} (current : Refines first.now store map) (key : Bytes)
    (ttl wallNow : Int) (second : Instant) : Simulated store map (.expire key ttl wallNow first second) := by
  have unfolded : store.expire key ttl wallNow first second =
      store.expireAt key (some (target ttl wallNow)) first second := by
    unfold Store.expire target
    split <;> rfl
  obtain ⟨result,next,stepped,simulated⟩ := expireAt_simulated current key (some (target ttl wallNow)) second
  refine ⟨result,next,?_,simulated⟩
  rw [Store.step,unfolded]
  exact stepped

theorem ttl_simulated (current : Refines now store map) (key : Bytes) : Simulated store map (.ttl key now) := by
  obtain ⟨found,trimmed⟩ := store.ttl_spec key now
  refine ⟨_,_,rfl,?_,current.trimmed trimmed⟩
  change StoreResult.seconds (store.ttl key now).1 = .seconds _
  rw [found,remaining,current.live_eq,Option.map_map]
  rfl

theorem keys_simulated (current : Refines now store map) (pattern : Bytes) :
    Simulated store map (.keys pattern now) := by
  by_cases wildcard : pattern = [0x2A]
  · obtain ⟨nodup,trimmed,members⟩ := store.sweep_spec current.placed now
    have result : store.keys pattern now =
        (⟨.ok,((store.sweep now).1.map Prod.fst).mergeSort Store.lexLe⟩,(store.sweep now).2) := by
      simp [Store.keys,wildcard]
    refine ⟨.keys (store.keys pattern now).1,(store.keys pattern now).2,rfl,?_⟩
    rw [result]
    refine ⟨?_,current.trimmed trimmed⟩
    rw [Answers,if_pos wildcard]
    refine ⟨_,rfl,sorted_keys _ nodup,fun key => ?_⟩
    rw [List.mem_mergeSort,current.live_isSome,Option.isSome_iff_exists]
    simp [members]
  · refine ⟨.keys ⟨.unsupportedPattern,[]⟩,store,?_,?_,current⟩
    · simp [Store.step,Store.keys,wildcard]
    · rw [Answers,if_neg wildcard]

theorem exportSnapshotEntries_simulated (current : Refines now store map) :
    Simulated store map (.exportSnapshotEntries now) := by
  obtain ⟨nodup,trimmed,members⟩ := store.sweep_spec current.placed now
  refine ⟨_,_,rfl,⟨_,rfl,?_,fun item => ?_⟩,current.trimmed trimmed⟩
  · change (List.map _ (List.map _ (store.sweep now).1)).Nodup
    rw [List.map_map]
    exact nodup
  · change item ∈ List.map _ (store.sweep now).1 ↔ _
    rw [current.live_eq,Option.map_map]
    constructor
    · intro member
      obtain ⟨⟨key,entry⟩,listed,rfl⟩ := List.mem_map.mp member
      rw [(members key entry).mp listed]
      rfl
    · intro found
      obtain ⟨entry,alive,equal⟩ := Option.map_eq_some_iff.mp found
      refine List.mem_map.mpr ⟨(item.key,entry),(members _ _).mpr alive,?_⟩
      cases item
      cases equal
      rfl

end calls

theorem step_refines {now : Int} {store : Store config} {map : Map} (refines : Refines now store map)
    (op : StoreOp) (observes : op.observes = true) (order : now ≤ op.now) : Simulated store map op := by
  have current : Refines op.now store map := refines.later order
  cases op with
  | set key value reading => exact setExpiring_simulated current key value none
  | setExpiring key value expiryWall reading => exact setExpiring_simulated current key value expiryWall
  | get key now => exact get_simulated current key
  | exists_ key now => exact exists_simulated current key
  | expiryWallTime key now => exact expiryWallTime_simulated current key
  | del key now => exact del_simulated current key
  | delMany keys now => exact delMany_simulated current keys
  | existsMany keys now => exact existsMany_simulated current keys
  | expire key ttl wallNow first second => exact expire_simulated current key ttl wallNow second
  | expireAt key expiryWall first second => exact expireAt_simulated current key expiryWall second
  | ttl key now => exact ttl_simulated current key
  | keys pattern now => exact keys_simulated current pattern
  | exportSnapshotEntries now => exact exportSnapshotEntries_simulated current
  | activeExpireCycle samples draws now => cases observes

theorem cycle_refines {now later : Int} {store next : Store config} {map : Map} (refines : Refines now store map)
    (order : now ≤ later) {gone : Finset Bytes} (dropped : store.Dropped later gone next) :
    (∀ key ∈ gone, ∃ cell, map key = some cell ∧ Due Cell.deadline cell later) ∧
      Refines later next (fun key => if key ∈ gone then none else map key) ∧ Refines later next map := by
  have current := refines.later order
  obtain ⟨placed,expired,found⟩ := dropped
  have due : ∀ key ∈ gone, ∃ cell, map key = some cell ∧ Due Cell.deadline cell later := by
    intro key member
    obtain ⟨entry,stored,old⟩ := expired key member
    refine ⟨entry.cell,?_,(Store.isExpired_iff entry later).mp old⟩
    rcases current.cells key with same | ⟨lost,_⟩
    · exact same.symm.trans (congrArg (Option.map Entry.cell) stored)
    · cases lost.symm.trans (congrArg (Option.map Entry.cell) stored)
  refine ⟨due,⟨placed current.placed,?_⟩,⟨placed current.placed,?_⟩⟩
  · intro key
    by_cases member : key ∈ gone
    · simp [found,member]
    · simpa [found,member] using current.cells key
  · intro key
    by_cases member : key ∈ gone
    · exact Or.inr ⟨by simp [found,member],due key member⟩
    · simpa [found,member] using current.cells key

theorem op_now_mem (op : StoreOp) : op.now ∈ op.steady := by
  cases op <;> simp [StoreOp.now,StoreOp.steady]

theorem clocked_cons (op : StoreOp) (ops : List StoreOp) (clocked : Clocked (op::ops)) :
    Clocked ops ∧ ∀ next ∈ ops, op.now ≤ next.now := by
  rw [Clocked,List.flatMap_cons,List.pairwise_append] at clocked
  obtain ⟨_,rest,between⟩ := clocked
  refine ⟨rest,fun next member => between op.now (op_now_mem op) next.now ?_⟩
  exact List.mem_flatMap.mpr ⟨next,member,op_now_mem next⟩

/-- One run against two maps: cycles remove from the first what they count, and leave the
second alone, whose answers then only depend on the other calls. -/
theorem runFrom_explained (ops : List StoreOp) (clocked : Clocked ops) (now : Int) (store : Store config)
    (map plain : Map) (start : ∀ op ∈ ops, now ≤ op.now) (refines : Refines now store map)
    (also : Refines now store plain) :
    ∃ results, store.runFrom ops = .ok results ∧ Explains map ops results ∧
      Expected plain (ops.filter StoreOp.observes) (observed ops results) := by
  induction ops generalizing now store map plain with
  | nil => exact ⟨[],rfl,Explains.nil map,trivial⟩
  | cons op ops ih =>
    have order : now ≤ op.now := start op List.mem_cons_self
    obtain ⟨rest,future⟩ := clocked_cons op ops clocked
    cases observes : op.observes with
    | true =>
      obtain ⟨result,next,stepped,answers,kept⟩ := step_refines refines op observes order
      obtain ⟨_,_,again,answers',kept'⟩ := step_refines also op observes order
      rw [stepped] at again
      cases again
      obtain ⟨results,ran,explained,expected⟩ := ih rest op.now next _ _ future kept kept'
      refine ⟨result::results,?_,Explains.call map op result ops results answers explained,?_⟩
      · rw [Store.runFrom,stepped,Persistence.ok_bind]
        dsimp only
        rw [ran,Persistence.ok_bind]
      · rw [observed_cons,if_pos observes,List.filter_cons_of_pos observes]
        exact ⟨answers',expected⟩
    | false =>
      cases op with
      | activeExpireCycle samples draws time =>
        obtain ⟨gone,next,cycled,dropped⟩ := store.activeExpireCycle_spec samples draws time refines.placed
        obtain ⟨due,kept,_⟩ := cycle_refines refines order dropped
        obtain ⟨_,_,kept'⟩ := cycle_refines also order dropped
        obtain ⟨results,ran,explained,expected⟩ := ih rest time next _ _ future kept kept'
        refine ⟨.count gone.card::results,?_,Explains.cycle map samples draws time gone ops results due explained,?_⟩
        · rw [Store.runFrom,Store.step,cycled]
          simp only [Persistence.ok_bind,Prod.map,id]
          rw [ran,Persistence.ok_bind]
        · rw [observed_cons,if_neg (by simp [observes]),List.filter_cons_of_neg (by simp [observes])]
          exact expected
      | _ => cases observes

theorem refines_empty (now : Int) : Refines now (Store.empty : Store config) (fun _ => none) :=
  ⟨Store.placed_empty,fun _ => Or.inl rfl⟩

/-- Every sequence of calls under a nondecreasing steady clock returns what the flat map
returns. Another store, with other shards, hashes and cycles, returns the same. -/
theorem store_refines_map (config : StoreConfig) (ops : List StoreOp) (clocked : Clocked ops) :
    ∃ results, Store.run config ops = .ok results ∧ Explains (fun _ => none) ops results ∧
      ∀ (other : StoreConfig) (others : List StoreOp), Clocked others →
        others.filter StoreOp.observes = ops.filter StoreOp.observes →
        ∃ answers, Store.run other others = .ok answers ∧
          List.Forall₂ Same (observed ops results) (observed others answers) := by
  have result : ∀ (config : StoreConfig) (ops : List StoreOp), Clocked ops →
      ∃ results, Store.run config ops = .ok results ∧ Explains (fun _ => none) ops results ∧
        Expected (fun _ => none) (ops.filter StoreOp.observes) (observed ops results) := by
    intro config ops clocked
    cases ops with
    | nil => exact ⟨[],rfl,Explains.nil _,trivial⟩
    | cons op rest =>
      refine runFrom_explained (op::rest) clocked op.now Store.empty _ _ ?_ (refines_empty _) (refines_empty _)
      intro next member
      rcases List.mem_cons.mp member with rfl | later
      · exact le_refl _
      · exact (clocked_cons op rest clocked).2 next later
  obtain ⟨results,ran,explained,expected⟩ := result config ops clocked
  refine ⟨results,ran,explained,fun other others clocked' same => ?_⟩
  obtain ⟨answers,ran',_,expected'⟩ := result other others clocked'
  rw [same] at expected'
  exact ⟨answers,ran',expected_unique _ _ _ _ expected expected'⟩

theorem store_refines_map_expiring :
    Clocked [.setExpiring [0x61] (.string [0x62]) (some 3) ⟨0,0⟩,.ttl [0x61] 1,.activeExpireCycle 1 (fun _ _ => 0) 3000,
      .existsMany [[0x61],[0x61]] 3000] ∧
    ∃ results, Store.run ⟨2,by decide,List.length,80⟩
      [.setExpiring [0x61] (.string [0x62]) (some 3) ⟨0,0⟩,.ttl [0x61] 1,.activeExpireCycle 1 (fun _ _ => 0) 3000,
        .existsMany [[0x61],[0x61]] 3000] = .ok results ∧
      Explains (fun _ => none)
        [.setExpiring [0x61] (.string [0x62]) (some 3) ⟨0,0⟩,.ttl [0x61] 1,.activeExpireCycle 1 (fun _ _ => 0) 3000,
          .existsMany [[0x61],[0x61]] 3000] results := by
  have clocked : Clocked [.setExpiring [0x61] (.string [0x62]) (some 3) ⟨0,0⟩,.ttl [0x61] 1,
      .activeExpireCycle 1 (fun _ _ => 0) 3000,.existsMany [[0x61],[0x61]] 3000] := by
    simp [Clocked,StoreOp.steady]
  obtain ⟨results,ran,explained,_⟩ := store_refines_map ⟨2,by decide,List.length,80⟩ _ clocked
  exact ⟨clocked,results,ran,explained⟩

end NovaCache
