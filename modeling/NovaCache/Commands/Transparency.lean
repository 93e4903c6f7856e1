import NovaCache.Commands.Outcome
import NovaCache.Store.Refinement

/-! Persistence does not change what commands mean. The same requests run once behind an
engine and once without; the engine rounds an expiry down to the millisecond, and apart from
that the two stores stay alike. -/
namespace NovaCache
open ExpiringMap
variable {config : StoreConfig}

namespace Store

/-- The second deadline is the first one or less than a millisecond before it. -/
def Near : Option Int → Option Int → Prop
  | none, none => True
  | some plain, some durable => durable ≤ plain ∧ plain < durable + 1000000
  | _, _ => False

def Close (plain durable : Entry) : Prop :=
  plain.value = durable.value ∧ Near plain.expiresAt durable.expiresAt

/-- The same live keys with the same values, and deadlines that are near. -/
structure Alike (now : Int) (plain durable : Store config) : Prop where
  placed : plain.Placed ∧ durable.Placed
  entries : ∀ key, Option.Rel Close (plain.live key now) (durable.live key now)

/-- The reading is not within the last millisecond before a deadline. -/
def Clear (store : Store config) (now : Int) : Prop :=
  ∀ key entry deadline, store.find key = some entry → entry.expiresAt = some deadline →
    ¬ (deadline - 1000000 ≤ now ∧ now < deadline)

theorem clear_of_shards (store : Store config) (now : Int)
    (fine : ∀ index, ∀ item ∈ (store.shards index).entries, ∀ deadline ∈ item.2.expiresAt,
      ¬ (deadline - 1000000 ≤ now ∧ now < deadline)) : store.Clear now := by
  intro key entry deadline found expires
  exact fine (shardIndex config key) ⟨key,entry⟩ (AList.mem_lookup_iff.mp found) deadline expires

theorem close_refl (entry : Entry) : Close entry entry := by
  refine ⟨rfl,?_⟩
  cases entry.expiresAt with
  | none => exact trivial
  | some deadline => exact ⟨Int.le_refl _,by omega⟩

theorem alike_refl (now : Int) (store : Store config) (placed : store.Placed) : Alike now store store := by
  refine ⟨⟨placed,placed⟩,fun key => ?_⟩
  cases store.live key now with
  | none => exact .none
  | some entry => exact .some (close_refl entry)

/-- Near deadlines are due together at a reading that is clear of the later one. -/
theorem Close.due_iff {plain durable : Entry} (close : Close plain durable) {now : Int}
    (clear : ∀ deadline, plain.expiresAt = some deadline → ¬ (deadline - 1000000 ≤ now ∧ now < deadline)) :
    Due Entry.expiresAt plain now ↔ Due Entry.expiresAt durable now := by
  obtain ⟨_,near⟩ := close
  unfold Due
  generalize plain.expiresAt = late at near clear ⊢
  generalize durable.expiresAt = early at near ⊢
  match late, early with
  | none, none => exact Iff.rfl
  | none, some _ => exact near.elim
  | some _, none => exact near.elim
  | some deadline, some other =>
    have apart := clear deadline rfl
    obtain ⟨below,above⟩ := near
    simp only [Option.mem_some_iff,exists_eq_left']
    omega

theorem Alike.later {now later : Int} {plain durable : Store config} (alike : Alike now plain durable)
    (order : now ≤ later) (clear : plain.Clear later) : Alike later plain durable := by
  refine ⟨alike.placed,fun key => ?_⟩
  have related := alike.entries key
  unfold live at related ⊢
  rw [visible_later order,visible_later order]
  generalize found : visible Entry.expiresAt plain.find now key = left at related ⊢
  generalize visible Entry.expiresAt durable.find now key = right at related ⊢
  cases related with
  | none => exact .none
  | @some entry twin close =>
    have stored : plain.find key = some entry := (visible_eq_some.mp found).1
    have together := close.due_iff fun deadline expires => clear key entry deadline stored expires
    by_cases due : Due Entry.expiresAt entry later
    · simp only [Option.filter,due,together.mp due]
      exact .none
    · simp only [Option.filter,due,mt together.mpr due]
      exact .some close

theorem live_delMany (store : Store config) (keys : List Bytes) (now : Int) (key : Bytes) :
    (store.delMany keys now).2.live key now = if key ∈ keys then none else store.live key now := by
  obtain ⟨_,_,trims⟩ := delMany_spec store keys now
  unfold live
  rw [trims.visible_eq]
  unfold visible without
  split <;> rfl

section alike
variable {now : Int} {plain durable plain' durable' : Store config} (alike : Alike now plain durable)
include alike

theorem Alike.isSome (key : Bytes) : (plain.live key now).isSome = (durable.live key now).isSome := by
  have related := alike.entries key
  generalize plain.live key now = left at related ⊢
  generalize durable.live key now = right at related ⊢
  cases related <;> rfl

theorem Alike.value (key : Bytes) : (plain.live key now).map Entry.value = (durable.live key now).map Entry.value := by
  have related := alike.entries key
  generalize plain.live key now = left at related ⊢
  generalize durable.live key now = right at related ⊢
  cases related with
  | none => rfl
  | some close => exact congrArg some close.1

theorem Alike.trimmed (left : Trimmed now plain plain') (right : Trimmed now durable durable') :
    Alike now plain' durable' := by
  refine ⟨⟨left.placed alike.placed.1,right.placed alike.placed.2⟩,fun key => ?_⟩
  rw [left.live_eq,right.live_eq]
  exact alike.entries key

theorem Alike.changed {key : Bytes} {one two : Option Entry} (left : Changed now key one plain plain')
    (right : Changed now key two durable durable')
    (close : Option.Rel Close (one.filter (fun entry => ¬ Due Entry.expiresAt entry now))
      (two.filter (fun entry => ¬ Due Entry.expiresAt entry now))) : Alike now plain' durable' := by
  refine ⟨⟨left.placed alike.placed.1,right.placed alike.placed.2⟩,fun other => ?_⟩
  by_cases same : other = key
  · subst same
    unfold live visible
    rw [left.find_same,right.find_same]
    exact close
  · rw [left.live_other same,right.live_other same]
    exact alike.entries other

theorem Alike.set (key : Bytes) (value : Value) (reading : Instant) :
    Alike now (plain.set key value reading) (durable.set key value reading) := by
  have left := setExpiring_spec plain key value none reading
  have right := setExpiring_spec durable key value none reading
  refine alike.changed ⟨plain,.refl now plain,left⟩ ⟨durable,.refl now durable,right⟩ ?_
  exact .some (close_refl _)

theorem Alike.delMany (keys : List Bytes) :
    (plain.delMany keys now).1 = (durable.delMany keys now).1 ∧
      Alike now (plain.delMany keys now).2 (durable.delMany keys now).2 := by
  obtain ⟨left,first,_⟩ := delMany_spec plain keys now
  obtain ⟨right,second,_⟩ := delMany_spec durable keys now
  refine ⟨?_,⟨first alike.placed.1,second alike.placed.2⟩,fun key => ?_⟩
  · rw [left,right]
    unfold liveKeys
    simp only [alike.isSome]
  · rw [live_delMany,live_delMany]
    split
    · exact .none
    · exact alike.entries key

theorem Alike.existsMany (keys : List Bytes) :
    (plain.existsMany keys now).1 = (durable.existsMany keys now).1 ∧
      Alike now (plain.existsMany keys now).2 (durable.existsMany keys now).2 := by
  obtain ⟨left,first⟩ := existsMany_spec plain keys now
  obtain ⟨right,second⟩ := existsMany_spec durable keys now
  refine ⟨?_,alike.trimmed first second⟩
  rw [left,right]
  simp only [alike.isSome]

theorem Alike.get (key : Bytes) :
    (plain.get key now).1 = (durable.get key now).1 ∧ Alike now (plain.get key now).2 (durable.get key now).2 := by
  obtain ⟨left,first⟩ := lookupLive_spec plain key now
  obtain ⟨right,second⟩ := lookupLive_spec durable key now
  refine ⟨?_,alike.trimmed first second⟩
  change (plain.lookupLive key now).1.map Entry.value = (durable.lookupLive key now).1.map Entry.value
  rw [left,right,alike.value]

/-- The flat maps of the two stores list the same keys, and a map determines its listing. -/
theorem Alike.keys (pattern : Bytes) :
    (plain.keys pattern now).1 = (durable.keys pattern now).1 ∧
      Alike now (plain.keys pattern now).2 (durable.keys pattern now).2 := by
  have left : Refines now plain fun key => (plain.find key).map Entry.cell := ⟨alike.placed.1,Trims.refl now _⟩
  have right : Refines now durable fun key => (durable.find key).map Entry.cell := ⟨alike.placed.2,Trims.refl now _⟩
  obtain ⟨one,_,stepped,answers,_⟩ := keys_simulated left pattern
  obtain ⟨two,_,stepped',answers',_⟩ := keys_simulated right pattern
  cases stepped
  cases stepped'
  refine ⟨?_,?_⟩
  · unfold Reference.Answers at answers
    simp only [left.live_isSome,alike.isSome,← right.live_isSome] at answers
    exact StoreResult.keys.inj (Reference.answers_unique _ (.keys pattern now) _ _ answers answers')
  · unfold Store.keys
    split
    · exact alike
    · exact alike.trimmed (sweep_spec plain alike.placed.1 now).2.1 (sweep_spec durable alike.placed.2 now).2.1

theorem Alike.ttl (key : Bytes) : Alike now (plain.ttl key now).2 (durable.ttl key now).2 :=
  alike.trimmed (ttl_spec plain key now).2 (ttl_spec durable key now).2

end alike

/-- What `durable_expire` makes of the wall expiry of `expire`. -/
theorem fromUnixMs_expiryMs (ttl wall : Int) (epoch : 0 ≤ wall) (ticks : wall < 2^63) (near : ttl < 2^40) :
    Persistence.fromUnixMs (Persistence.PersistenceEngine.expiryMs ttl wall) =
      Reference.target ttl wall / 1000 * 1000 := by
  unfold Persistence.PersistenceEngine.expiryMs Reference.target
  by_cases past : ttl ≤ 0
  · rw [if_pos past,if_neg (Int.not_lt.mpr past)]
    have divided := Int.tdiv_eq_ediv_of_nonneg epoch (b := 1000)
    rw [Persistence.fromUnixMs_toUnixMs wall (by omega) (by omega),divided]
  · rw [if_neg past,if_pos (Int.not_le.mp past)]
    have divided := Int.tdiv_eq_ediv_of_nonneg (show 0 ≤ wall + ttl * 1000000 by omega) (b := 1000)
    rw [Persistence.fromUnixMs_toUnixMs _ (by omega) (by omega),divided]

/-- A deadline from the same reading, rounded down by less than a millisecond: both entries
go, or both stay with deadlines ahead. -/
theorem rescheduled_close {plain durable : Entry} (close : Close plain durable) (ttl : Int) (reading : Instant) :
    Option.Rel Close
      ((rescheduled plain (some (Reference.target ttl reading.wallNow)) reading reading).filter
        (fun entry => ¬ Due Entry.expiresAt entry reading.now))
      ((rescheduled durable (some (Reference.target ttl reading.wallNow / 1000 * 1000)) reading reading).filter
        (fun entry => ¬ Due Entry.expiresAt entry reading.now)) := by
  unfold rescheduled Reference.target
  dsimp only
  by_cases past : ttl ≤ 0
  · rw [if_pos past,if_pos (Int.le_refl _),if_pos (by omega)]
    exact .none
  · rw [if_neg past,if_neg (by omega),if_neg (by omega)]
    have kept (entry : Entry) (wall : Int) (later : reading.wallNow < wall) :
        (some {entry with expiresAtWall := some wall, expiresAt := some (deadline reading wall)}).filter
          (fun entry => ¬ Due Entry.expiresAt entry reading.now) =
          some {entry with expiresAtWall := some wall, expiresAt := some (deadline reading wall)} := by
      apply Option.filter_eq_some_iff.mpr
      refine ⟨rfl,decide_eq_true ?_⟩
      intro ⟨found,member,due⟩
      cases member
      unfold deadline at due
      omega
    rw [kept plain _ (by omega),kept durable _ (by omega)]
    refine .some ⟨close.1,?_⟩
    change deadline reading _ ≤ deadline reading _ ∧ deadline reading _ < deadline reading _ + 1000000
    unfold deadline
    omega

theorem Alike.expire {reading : Instant} {plain durable : Store config} (alike : Alike reading.now plain durable)
    (key : Bytes) (ttl : Int) (epoch : 0 ≤ reading.wallNow) (ticks : reading.wallNow < 2^63) (near : ttl < 2^40) :
    let expiry := Persistence.fromUnixMs (Persistence.PersistenceEngine.expiryMs ttl reading.wallNow)
    (plain.expire key ttl reading.wallNow reading reading).1 = (durable.expireAt key (some expiry) reading reading).1 ∧
      Alike reading.now (plain.expire key ttl reading.wallNow reading reading).2
        (durable.expireAt key (some expiry) reading reading).2 := by
  intro expiry
  have unfolded : plain.expire key ttl reading.wallNow reading reading =
      plain.expireAt key (some (Reference.target ttl reading.wallNow)) reading reading := by
    unfold Store.expire Reference.target
    split <;> rfl
  have rounded : expiry = Reference.target ttl reading.wallNow / 1000 * 1000 :=
    fromUnixMs_expiryMs ttl reading.wallNow epoch ticks near
  rw [unfolded,rounded]
  obtain ⟨left,first⟩ := expireAt_spec plain key (some (Reference.target ttl reading.wallNow)) reading reading
  obtain ⟨right,second⟩ := expireAt_spec durable key (some (Reference.target ttl reading.wallNow / 1000 * 1000))
    reading reading
  refine ⟨by rw [left,right,alike.isSome],alike.changed first second ?_⟩
  have related := alike.entries key
  generalize plain.live key reading.now = one at related ⊢
  generalize durable.live key reading.now = two at related ⊢
  cases related with
  | none => exact .none
  | some close => exact rescheduled_close close ttl reading

end Store

namespace Commands
open Persistence Protocol

/-- One reading of both clocks, in 64-bit ticks; the wall clock is past the epoch. -/
structure Reading where
  steady : Int
  wall : Int
  steadyTicks : -2^63 ≤ steady ∧ steady < 2^63
  wallTicks : 0 ≤ wall ∧ wall < 2^63

/-- A request with the one reading that all its clock calls return, and the system calls
behind its log record. -/
structure Turn where
  request : RespValue
  reading : Reading
  io : Persistence.Io

def Turn.environment (turn : Turn) : Environment :=
  let instant : Instant := ⟨turn.reading.steady,turn.reading.wall⟩
  ⟨turn.reading.steady,turn.reading.wall,instant,instant,turn.io⟩

/-- The responses to a sequence of requests. -/
def serve (context : CommandContext config) : List Turn → List (Response config)
  | [] => []
  | turn::turns =>
    let response := execute turn.request turn.environment context
    response::serve response.2 turns

/-- The contexts of the two runs, alike at a reading. -/
structure Paired (now : Int) (plain backed : CommandContext config) : Prop where
  stores : plain.store.Alike now backed.store
  alone : plain.persistence = none
  attached : ∃ engine, backed.persistence = some engine ∧ engine.wal.isOpen = true
  stats : plain.stats = backed.stats
  version : plain.version = backed.version
  tcpPort : plain.tcpPort = backed.tcpPort
  workers : plain.workerCount = backed.workerCount

theorem mutation_expire {arguments : List Bytes} {reading : Reading} {key : Bytes} {ttl : Int}
    (asked : mutation arguments reading.steady = some (.expire key ttl)) : ttl < 2^40 := by
  obtain ⟨low,high⟩ := reading.steadyTicks
  rcases mutation_cases asked with ⟨_,_,_,_,same⟩ | ⟨_,_,_,same⟩ | ⟨_,_,_,seconds,_,_,fits,same⟩
  · cases same
  · cases same
  · cases same
    unfold expirationIsRepresentable at fits
    split at fits
    · next small =>
      have bound : seconds.toInt ≤ 0 := Int64.le_iff_toInt_le.mp small
      omega
    · have bound := of_decide_eq_true fits
      rw [Int.tdiv_eq_ediv_of_nonneg (by omega)] at bound
      omega

theorem direct_alike {turn : Turn} {plain backed : Store config} (alike : plain.Alike turn.reading.steady backed)
    (mutation : Mutation) (near : ∀ key ttl, mutation = .expire key ttl → ttl < 2^40) :
    (direct mutation turn.environment plain).1 = (durable mutation turn.environment backed).1 ∧
      (direct mutation turn.environment plain).2.Alike turn.reading.steady
        (durable mutation turn.environment backed).2 := by
  cases mutation with
  | set key value => exact ⟨rfl,alike.set key (.string value) turn.environment.first⟩
  | del keys =>
    obtain ⟨counted,next⟩ := alike.delMany keys
    exact ⟨congrArg count counted,next⟩
  | expire key ttl =>
    obtain ⟨epoch,ticks⟩ := turn.reading.wallTicks
    obtain ⟨found,next⟩ := @Store.Alike.expire config turn.environment.first plain backed alike key ttl epoch ticks
      (near key ttl rfl)
    exact ⟨congrArg changed found,next⟩

section paired
variable {turn : Turn} {plain backed : CommandContext config} (paired : Paired turn.reading.steady plain backed)
include paired

theorem Paired.directly {One Two : Type} {left : One × Store config} {right : Two × Store config}
    {replies : One → RespValue} {others : Two → RespValue} (stores : left.2.Alike turn.reading.steady right.2) :
    Paired turn.reading.steady (plain.directly left replies).2 (backed.directly right others).2 :=
  {paired with stores := stores}

theorem Paired.mutate (faultless : turn.io.Faultless) (mutation : Mutation)
    (near : ∀ key ttl, mutation = .expire key ttl → ttl < 2^40) :
    ((Call.mutate mutation).run turn.environment plain).1 = ((Call.mutate mutation).run turn.environment backed).1 ∧
      Paired turn.reading.steady ((Call.mutate mutation).run turn.environment plain).2
        ((Call.mutate mutation).run turn.environment backed).2 := by
  obtain ⟨engine,attached,opened⟩ := paired.attached
  obtain ⟨next,logged,still,_⟩ := log_faultless engine turn.io faultless (mutation.logged turn.reading.wall).opcode
    (mutation.logged turn.reading.wall).payload opened
  obtain ⟨replies,stores⟩ := direct_alike paired.stores mutation near
  have unfolded : (Call.mutate mutation).run turn.environment backed =
      (.ok (durable mutation turn.environment backed.store).1,
        {backed with store := (durable mutation turn.environment backed.store).2, persistence := some next}) := by
    unfold Call.run
    dsimp only
    rw [attached]
    dsimp only
    have succeeds : engine.log turn.environment.io (mutation.logged turn.environment.wallNow).opcode
        (mutation.logged turn.environment.wallNow).payload = (.ok (),next) := logged
    rw [succeeds]
  have bare : (Call.mutate mutation).run turn.environment plain =
      plain.directly (direct mutation turn.environment plain.store) id := by
    unfold Call.run
    dsimp only
    rw [paired.alone]
  rw [unfolded,bare]
  refine ⟨congrArg Except.ok replies,?_⟩
  exact {paired with stores := stores, attached := ⟨next,rfl,still⟩}

theorem Paired.info :
    (Call.info.run turn.environment plain).1 = (Call.info.run turn.environment backed).1 ∧
      Paired turn.reading.steady (Call.info.run turn.environment plain).2 (Call.info.run turn.environment backed).2 := by
  unfold Call.run Commands.info
  dsimp only
  rw [paired.stats,paired.version,paired.tcpPort,paired.workers]
  split <;> exact ⟨rfl,paired⟩

theorem Paired.run (faultless : turn.io.Faultless) (call : Call)
    (near : ∀ key ttl, call.asked = some (.expire key ttl) → ttl < 2^40) :
    ((∀ key, call ≠ .ttl key) → (call.run turn.environment plain).1 = (call.run turn.environment backed).1) ∧
      Paired turn.reading.steady (call.run turn.environment plain).2 (call.run turn.environment backed).2 := by
  cases call with
  | refused text => exact ⟨fun _ => rfl,paired⟩
  | pong => exact ⟨fun _ => rfl,paired⟩
  | message text => exact ⟨fun _ => rfl,paired⟩
  | get key =>
    obtain ⟨same,stores⟩ := paired.stores.get key
    exact ⟨fun _ => congrArg (fun value => Except.ok (shown value)) same,paired.directly stores⟩
  | existsMany keys =>
    obtain ⟨same,stores⟩ := paired.stores.existsMany keys
    exact ⟨fun _ => congrArg (fun number => Except.ok (count number)) same,paired.directly stores⟩
  | ttl key => exact ⟨fun other => absurd rfl (other key),paired.directly (paired.stores.ttl key)⟩
  | keys pattern =>
    obtain ⟨same,stores⟩ := paired.stores.keys pattern
    exact ⟨fun _ => congrArg (fun result => Except.ok (listed result)) same,paired.directly stores⟩
  | info => exact ⟨fun _ => paired.info.1,paired.info.2⟩
  | mutate mutation =>
    obtain ⟨same,next⟩ := paired.mutate faultless mutation fun key ttl expires => near key ttl (congrArg some expires)
    exact ⟨fun _ => same,next⟩

end paired

theorem Paired.execute {turn : Turn} {plain backed : CommandContext config}
    (paired : Paired turn.reading.steady plain backed) (faultless : turn.io.Faultless) :
    ((∀ key, resolve turn.request turn.reading.steady ≠ .ttl key) →
        (execute turn.request turn.environment plain).1 = (execute turn.request turn.environment backed).1) ∧
      Paired turn.reading.steady (execute turn.request turn.environment plain).2
        (execute turn.request turn.environment backed).2 := by
  rw [execute_eq,execute_eq]
  refine paired.run faultless (resolve turn.request turn.reading.steady) fun key ttl asked => ?_
  rw [← requested_eq] at asked
  obtain ⟨arguments,_,same⟩ := Option.bind_eq_some_iff.mp asked
  exact mutation_expire same

/-- No reading of the run falls within the last millisecond before a deadline. -/
def ClearOf (context : CommandContext config) : List Turn → Prop
  | [] => True
  | turn::turns =>
    context.store.Clear turn.reading.steady ∧ ClearOf (execute turn.request turn.environment context).2 turns

/-- Equal replies except those of TTL, and after every request stores that are alike. -/
def Agree : List Turn → List (Response config) → List (Response config) → Prop
  | [], [], [] => True
  | turn::turns, one::plain, two::backed =>
    ((∀ key, resolve turn.request turn.reading.steady ≠ .ttl key) → one.1 = two.1) ∧
      one.2.store.Alike turn.reading.steady two.2.store ∧ Agree turns plain backed
  | _, _, _ => False

theorem serve_agree (turns : List Turn) (ordered : turns.Pairwise fun one two => one.reading.steady ≤ two.reading.steady)
    (faultless : ∀ turn ∈ turns, turn.io.Faultless) (now : Int) (later : ∀ turn ∈ turns, now ≤ turn.reading.steady)
    (plain backed : CommandContext config) (paired : Paired now plain backed) (clear : ClearOf plain turns) :
    Agree turns (serve plain turns) (serve backed turns) := by
  induction turns generalizing now plain backed with
  | nil => exact trivial
  | cons turn turns ih =>
    obtain ⟨future,rest⟩ := List.pairwise_cons.mp ordered
    obtain ⟨fine,others⟩ := List.forall_mem_cons.mp faultless
    have current : Paired turn.reading.steady plain backed :=
      {paired with stores := paired.stores.later (later turn List.mem_cons_self) clear.1}
    obtain ⟨replies,next⟩ := current.execute fine
    exact ⟨replies,next.stores,ih rest others turn.reading.steady future _ _ next clear.2⟩

/-- Requests behind an engine without I/O failures are answered as without one. -/
theorem persistence_transparent (context : CommandContext config) (placed : context.store.Placed)
    (engine : PersistenceEngine) (opened : engine.wal.isOpen = true) (turns : List Turn)
    (ordered : turns.Pairwise fun one two => one.reading.steady ≤ two.reading.steady)
    (faultless : ∀ turn ∈ turns, turn.io.Faultless) (clear : ClearOf {context with persistence := none} turns) :
    Agree turns (serve {context with persistence := none} turns)
      (serve {context with persistence := some engine} turns) := by
  cases turns with
  | nil => exact trivial
  | cons turn turns =>
    refine serve_agree (turn::turns) ordered faultless turn.reading.steady ?_ _ _ ?_ clear
    · exact List.forall_mem_cons.mpr ⟨Int.le_refl _,(List.pairwise_cons.mp ordered).1⟩
    · exact ⟨Store.alike_refl _ _ placed,rfl,⟨engine,rfl,opened⟩,rfl,rfl,rfl,rfl⟩

/-- The expiry of the second request is not a whole number of milliseconds. -/
def session : List Turn :=
  [⟨.array (some [.bulk (some (ascii "SET")),.bulk (some [0x6B]),.bulk (some [0x76])]),⟨0,1500,by decide,by decide⟩,
      ⟨[],true⟩⟩,
    ⟨.array (some [.bulk (some (ascii "EXPIRE")),.bulk (some [0x6B]),.bulk (some [0x35])]),⟨0,1500,by decide,by decide⟩,
      ⟨[],true⟩⟩,
    ⟨.array (some [.bulk (some (ascii "GET")),.bulk (some [0x6B])]),⟨1000000000,1001500,by decide,by decide⟩,⟨[],true⟩⟩]

theorem session_transparent :
    let context : CommandContext ⟨1,Nat.one_pos,List.length,64⟩ := ⟨Store.empty,none,none,ascii "0.1.0",6379,4⟩
    Agree session (serve context session) (serve {context with persistence := some opened} session) := by
  intro context
  refine persistence_transparent context ?_ opened rfl session (by decide) ?_ ?_
  · exact Store.placed_empty
  · have quiet : Io.Faultless ⟨[],true⟩ := ⟨List.forall_mem_nil _,rfl⟩
    simp only [session,List.forall_mem_cons,quiet,true_and]
    exact List.forall_mem_nil _
  · exact ⟨Store.clear_of_shards _ _ (by decide),Store.clear_of_shards _ _ (by decide),
      Store.clear_of_shards _ _ (by decide),trivial⟩

end Commands
end NovaCache
