import NovaCache.Commands.Logging

/-! Whether a parser with the default limits reads a reply back. Replies carry what the
commands before them have stored, so the limits on requests bound most of them; a listing
has one element for each live key, and nothing bounds their number. -/
namespace NovaCache.Protocol
open Incremental

/-- The encoding does not throw, and a fresh parser with default limits returns the value. -/
def Readable (reply : RespValue) : Prop :=
  ∃ bytes, encode reply = .ok bytes ∧ ((Parser.new .default).feed bytes).2.next.1 = .complete reply

mutual
theorem frame_fits {limits : ParserLimits} {depth : Nat} {value : RespValue} {bytes : Bytes}
    (frame : Frame limits depth value bytes) : Fits limits value := by
  match frame with
  | .simple _ _ _ => exact trivial
  | .error _ _ _ => exact trivial
  | .integer _ _ _ _ => exact trivial
  | .nullBulk _ _ _ => exact trivial
  | .bulk _ _ payload numeral bound =>
    have small := numeral.2.1
    exact ⟨bound,by omega⟩
  | .nullArray _ _ _ _ => exact trivial
  | .array _ _ _ items numeral bound _ frames =>
    have small := numeral.2.1
    exact ⟨bound,by omega,frames_fit frames⟩

theorem frames_fit {limits : ParserLimits} {depth : Nat} {items : List RespValue} {bytes : Bytes}
    (frames : Frames limits depth items bytes) : FitsAll limits items := by
  match frames with
  | .nil _ => exact trivial
  | .cons _ _ _ _ _ head tail => exact ⟨frame_fits head,frames_fit tail⟩
end

/-- What a fresh parser returns for its first bytes. -/
theorem next_fed (limits : ParserLimits) (bytes : Bytes) :
    ((Parser.new limits).feed bytes).2.next.1 =
      if limits.maxBufferSize < bytes.length then .failed ⟨.oversized,"parser buffer exceeds configured limit"⟩
      else match parseValue bytes 0 limits with
        | .complete value _ => .complete value
        | .incomplete => .incomplete
        | .failed fault => .failed fault := by
  have bound : (Parser.new limits).buffer.length > (Parser.new limits).limits.maxBufferSize ∨
      bytes.length > (Parser.new limits).limits.maxBufferSize - (Parser.new limits).buffer.length ↔
      limits.maxBufferSize < bytes.length := or_iff_right (Nat.not_lt_zero _)
  have running : ¬ (Parser.new limits).bufferOversized = true := Bool.false_ne_true
  unfold Parser.feed
  rw [if_neg running]
  by_cases large : limits.maxBufferSize < bytes.length
  · rw [if_pos (bound.mpr large),if_pos large]
    rfl
  · rw [if_neg (mt bound.mp large),if_neg large]
    unfold Parser.next
    rw [if_neg running]
    change (match parseValue bytes 0 limits with
      | .complete value consumed => ((.complete value,_) : ParseResult × Parser)
      | .incomplete => (.incomplete,_)
      | .failed fault => (.failed fault,_)).1 = _
    cases parseValue bytes 0 limits <;> rfl

theorem next_fits {bytes : Bytes} {value : RespValue}
    (returned : ((Parser.new .default).feed bytes).2.next.1 = .complete value) :
    Fits .default value ∧ bytes.length ≤ ParserLimits.default.maxBufferSize := by
  rw [next_fed] at returned
  split at returned
  · cases returned
  · next room =>
    refine ⟨?_,Nat.not_lt.mp room⟩
    split at returned
    · next found consumed parsed =>
      have frame := ((parseValue_complete_iff 0 bytes found consumed).mp parsed).2
      cases returned
      exact frame_fits frame
    · cases returned
    · cases returned

theorem readable_iff (reply : RespValue) (clean : AllClean (lineTexts reply)) (shallow : nesting reply ≤ 32) :
    Readable reply ↔ Fits .default reply ∧ (wire reply).length ≤ ParserLimits.default.maxBufferSize := by
  have encoded : encode reply = .ok (wire reply) := (appendEncoded_eq reply []).trans (if_pos clean)
  constructor
  · intro ⟨bytes,same,returned⟩
    cases encoded.symm.trans same
    exact next_fits returned
  · intro ⟨fits,room⟩
    refine ⟨wire reply,encoded,?_⟩
    have frame := wire_frame .default 0 reply clean fits ((Nat.zero_add _).trans_le shallow)
    have parsed := parseValue_frame 0 reply (wire reply) [] frame
    rw [List.append_nil] at parsed
    rw [next_fed,if_neg (Nat.not_lt.mpr room),parsed]

theorem printed_short (number : Nat) (bound : number ≤ sizeMax) : (Decimal.print number).length ≤ 20 := by
  apply Decimal.print_length number 20 (by decide)
  exact Nat.lt_of_le_of_lt bound (by decide)

theorem bulk_readable_iff (text : Bytes) :
    Readable (.bulk (some text)) ↔ text.length ≤ ParserLimits.default.maxBulkSize := by
  rw [readable_iff (.bulk (some text)) (List.forall_mem_nil _) (Nat.zero_le _)]
  constructor
  · exact fun ⟨fits,_⟩ => fits.1
  · intro bound
    change text.length ≤ 8388608 at bound
    refine ⟨⟨bound,by omega⟩,?_⟩
    have digits := printed_short text.length (bound.trans (by decide))
    rw [wire,List.length_cons,List.length_append,List.length_append,List.length_append]
    change (Decimal.print text.length).length + (2 + (text.length + 2)) + 1 ≤ 16777216
    omega

theorem line_readable (reply : RespValue) (clean : AllClean (lineTexts reply)) (short : (wire reply).length ≤ 100)
    (fits : Fits .default reply) (shallow : nesting reply ≤ 32) : Readable reply :=
  (readable_iff reply clean shallow).mpr ⟨fits,short.trans (by decide)⟩

theorem integer_readable (number : Int64) : Readable (.integer number) := by
  refine line_readable _ (List.forall_mem_nil _) ?_ trivial (Nat.zero_le _)
  have low := Int64.le_toInt number
  have high := Int64.toInt_lt number
  have digits := printed_short number.toInt.natAbs (by unfold sizeMax; omega)
  rw [wire,List.length_cons,List.length_append,appendNumber]
  split
  · rw [List.length_append]
    change (0 + 1 + (Decimal.print number.toInt.natAbs).length) + 2 + 1 ≤ 100
    omega
  · change (Decimal.print number.toInt.natAbs).length + 2 + 1 ≤ 100
    omega

/-- The bytes of a listing on the wire. -/
def listingSize (keys : List Bytes) : Nat :=
  (Decimal.print keys.length).length + 3 +
    (keys.map fun key => (Decimal.print key.length).length + key.length + 5).sum

theorem wireAll_bulks (keys : List Bytes) :
    (wireAll (keys.map fun key => .bulk (some key))).length =
      (keys.map fun key => (Decimal.print key.length).length + key.length + 5).sum := by
  induction keys with
  | nil => rfl
  | cons key keys ih =>
    rw [List.map_cons,wireAll,List.length_append,ih,List.map_cons,List.sum_cons]
    congr 1
    rw [wire,List.length_cons,List.length_append,List.length_append,List.length_append]
    change (Decimal.print key.length).length + (2 + (key.length + 2)) + 1 = _
    omega

theorem fitsAll_bulks {limits : ParserLimits} {keys : List Bytes} (short : ∀ key ∈ keys, key.length ≤ limits.maxBulkSize)
    (bound : limits.maxBulkSize < 2^63) : FitsAll limits (keys.map fun key => .bulk (some key)) := by
  induction keys with
  | nil => exact trivial
  | cons key keys ih =>
    obtain ⟨here,others⟩ := List.forall_mem_cons.mp short
    exact ⟨⟨here,Nat.lt_of_le_of_lt here bound⟩,ih others⟩

theorem nestingOf_bulks (keys : List Bytes) : nestingOf (keys.map fun key => .bulk (some key)) = 0 := by
  induction keys with
  | nil => rfl
  | cons key keys ih =>
    rw [List.map_cons,nestingOf,ih]
    rfl

/-- A listing is read back unless it has too many elements or outgrows the buffer. -/
theorem listing_readable_iff (keys : List Bytes)
    (short : ∀ key ∈ keys, key.length ≤ ParserLimits.default.maxBulkSize) :
    Readable (.array (some (keys.map fun key => .bulk (some key)))) ↔
      keys.length ≤ ParserLimits.default.maxArraySize ∧ listingSize keys ≤ ParserLimits.default.maxBufferSize := by
  have clean : AllClean (lineTexts (.array (some (keys.map fun key => .bulk (some key))))) := by
    rw [lineTexts,Commands.lineTextsOf_bulks]
    exact List.forall_mem_nil _
  have shallow : nesting (.array (some (keys.map fun key => .bulk (some key)))) ≤ 32 := by
    rw [nesting,nestingOf_bulks]
    decide
  have size : (wire (.array (some (keys.map fun key => .bulk (some key))))).length = listingSize keys := by
    rw [wire,List.length_cons,List.length_append,List.length_append,wireAll_bulks,List.length_map]
    change (Decimal.print keys.length).length + (2 + _) + 1 = _
    unfold listingSize
    omega
  rw [readable_iff _ clean shallow,size]
  apply and_congr_left
  intro _
  rw [Fits,List.length_map]
  constructor
  · exact fun fits => fits.1
  · intro bound
    change keys.length ≤ 1024 at bound
    exact ⟨bound,by omega,fitsAll_bulks short (by decide)⟩

end NovaCache.Protocol

namespace NovaCache
variable {config : StoreConfig}

/-- The live keys, shard by shard. -/
def Store.showing (store : Store config) (now : Int) : List Bytes :=
  store.storedKeys.filter fun key => (store.live key now).isSome

theorem Store.mem_showing (store : Store config) (now : Int) (key : Bytes) :
    key ∈ store.showing now ↔ (store.live key now).isSome = true := by
  rw [showing,List.mem_filter]
  refine and_iff_right_of_imp fun live => ?_
  obtain ⟨entry,alive⟩ := Option.isSome_iff_exists.mp live
  have stored := mem_of_find store key entry ((live_eq_some store key now entry).mp alive).1
  exact List.mem_flatMap.mpr ⟨shardIndex config key,List.mem_finRange _,List.mem_keys_of_mem stored⟩

theorem Store.keys_listed (store : Store config) (placed : store.Placed) (now : Int) :
    ∃ names, (store.keys [0x2A] now).1 = ⟨.ok,names⟩ ∧ names.Perm (store.showing now) := by
  obtain ⟨nodup,_,members⟩ := sweep_spec store placed now
  refine ⟨_,rfl,(List.mergeSort_perm _ _).trans ?_⟩
  refine (List.perm_ext_iff_of_nodup nodup ((storedKeys_nodup store placed).filter _)).mpr fun key => ?_
  change _ ↔ key ∈ store.showing now
  rw [mem_showing,Option.isSome_iff_exists,List.mem_map]
  constructor
  · intro ⟨item,member,same⟩
    exact ⟨item.2,(members key item.2).mp (same ▸ member)⟩
  · intro ⟨entry,live⟩
    exact ⟨(key,entry),(members key entry).mpr live,rfl⟩

theorem Protocol.listingSize_perm {one two : List Bytes} (perm : one.Perm two) :
    Protocol.listingSize one = Protocol.listingSize two := by
  unfold Protocol.listingSize
  rw [perm.length_eq,(perm.map _).sum_eq]

namespace Commands
open Persistence Protocol

/-- Keys and values that came through a request. -/
def Short (key : Bytes) (entry : NovaCache.Entry) : Prop :=
  key.length ≤ ParserLimits.default.maxBulkSize ∧
    ∃ text, entry.value = .string text ∧ text.length ≤ ParserLimits.default.maxBulkSize

structure Stocked (store : Store config) : Prop where
  placed : store.Placed
  short : Store.Each Short store

def Brief : Mutation → Prop
  | .set key value => key.length ≤ ParserLimits.default.maxBulkSize ∧ value.length ≤ ParserLimits.default.maxBulkSize
  | _ => True

theorem Stocked.trimmed {now : Int} {store next : Store config} (stocked : Stocked store)
    (trimmed : Store.Trimmed now store next) : Stocked next :=
  ⟨trimmed.placed stocked.placed,stocked.short.trimmed trimmed⟩

theorem Stocked.expireAt {store : Store config} (stocked : Stocked store) (key : Bytes) (expiryWall : Option Int)
    (first second : Instant) : Stocked (store.expireAt key expiryWall first second).2 := by
  obtain ⟨_,changed⟩ := Store.expireAt_spec store key expiryWall first second
  refine ⟨changed.placed stocked.placed,stocked.short.expireAt fun entry short found moved => ?_⟩
  unfold Store.rescheduled at moved
  split at moved
  · cases moved
  · split at moved <;> cases moved
    exact short

theorem Stocked.direct {store : Store config} (stocked : Stocked store) (mutation : Mutation) (brief : Brief mutation)
    (environment : Environment) : Stocked (direct mutation environment store).2 := by
  cases mutation with
  | set key value =>
    have assigned := Store.setExpiring_spec store key (.string value) none environment.first
    refine ⟨assigned.placed stocked.placed,stocked.short.assigned assigned fun found same => ?_⟩
    cases same
    exact ⟨brief.1,value,rfl,brief.2⟩
  | del keys =>
    obtain ⟨_,placed,_⟩ := Store.delMany_spec store keys environment.first.now
    exact ⟨placed stocked.placed,stocked.short.delMany keys environment.first.now⟩
  | expire key ttl =>
    change Stocked (store.expire key ttl environment.wallNow environment.first environment.second).2
    unfold Store.expire
    split <;> exact stocked.expireAt key _ _ _

theorem Stocked.durable {store : Store config} (stocked : Stocked store) (mutation : Mutation) (brief : Brief mutation)
    (environment : Environment) : Stocked (durable mutation environment store).2 := by
  cases mutation with
  | set key value => exact stocked.direct (.set key value) brief environment
  | del keys => exact stocked.direct (.del keys) brief environment
  | expire key ttl =>
    exact stocked.expireAt key (some (fromUnixMs (PersistenceEngine.expiryMs ttl environment.wallNow)))
      environment.first environment.second

theorem Stocked.keys {store : Store config} (stocked : Stocked store) (pattern : Bytes) (now : Int) :
    Stocked (store.keys pattern now).2 := by
  unfold Store.keys
  split
  · exact stocked
  · exact stocked.trimmed (Store.sweep_spec store stocked.placed now).2.1

theorem Stocked.run {context : CommandContext config} (stocked : Stocked context.store) (call : Call)
    (brief : ∀ mutation ∈ call.asked, Brief mutation) (environment : Environment) :
    Stocked (call.run environment context).2.store := by
  cases call with
  | refused text => exact stocked
  | pong => exact stocked
  | message text => exact stocked
  | get key => exact stocked.trimmed (Store.lookupLive_spec context.store key _).2
  | existsMany keys => exact stocked.trimmed (Store.existsMany_spec context.store keys _).2
  | ttl key => exact stocked.trimmed (Store.ttl_spec context.store key _).2
  | keys pattern => exact stocked.keys pattern environment.first.now
  | info =>
    unfold Call.run info
    dsimp only
    split <;> exact stocked
  | mutate mutation =>
    have short := brief mutation rfl
    unfold Call.run
    dsimp only
    split
    · exact stocked.direct mutation short environment
    · split
      · exact stocked
      · exact stocked.durable mutation short environment

/-- Some input makes a parser with default limits return the request. -/
def Accepted (request : RespValue) : Prop :=
  ∃ bytes, ((Parser.new .default).feed bytes).2.next.1 = .complete request

theorem arguments_short {items : List RespValue} {arguments : List Bytes} (fits : FitsAll .default items)
    (extracted : items.mapM extractArgument = some arguments) :
    ∀ argument ∈ arguments, argument.length ≤ ParserLimits.default.maxBulkSize := by
  induction items generalizing arguments with
  | nil =>
    cases extracted
    exact List.forall_mem_nil _
  | cons item items ih =>
    rw [List.mapM_cons] at extracted
    obtain ⟨first,one,extracted⟩ := Option.bind_eq_some_iff.mp extracted
    obtain ⟨rest,others,same⟩ := Option.bind_eq_some_iff.mp extracted
    cases same
    refine List.forall_mem_cons.mpr ⟨?_,ih fits.2 others⟩
    unfold extractArgument at one
    split at one
    · cases one
      exact fits.1.1
    · cases one

theorem mutation_brief {arguments : List Bytes} {steady : Int} {asked : Mutation}
    (short : ∀ argument ∈ arguments, argument.length ≤ ParserLimits.default.maxBulkSize)
    (same : mutation arguments steady = some asked) : Brief asked := by
  rcases mutation_cases same with ⟨name,key,value,rfl,rfl⟩ | ⟨_,_,_,rfl⟩ | ⟨_,_,_,_,_,_,_,rfl⟩
  · exact ⟨short key (by simp),short value (by simp)⟩
  · exact trivial
  · exact trivial

theorem accepted_brief {request : RespValue} (accepted : Accepted request) {steady : Int} {asked : Mutation}
    (same : requested request steady = some asked) : Brief asked := by
  obtain ⟨bytes,returned⟩ := accepted
  have fits := (next_fits returned).1
  obtain ⟨arguments,extracted,asks⟩ := Option.bind_eq_some_iff.mp same
  refine mutation_brief ?_ asks
  unfold extractArguments at extracted
  split at extracted
  · cases extracted
  · exact arguments_short fits.2.2 extracted
  · cases extracted

/-- The stores that accepted commands make of an empty one, whatever the rest of their
contexts. -/
inductive Served : Store config → Prop
  | empty : Served Store.empty
  | command (context : CommandContext config) (request : RespValue) (environment : Environment)
      (served : Served context.store) (accepted : Accepted request) :
      Served (execute request environment context).2.store

theorem Served.stocked {store : Store config} (served : Served store) : Stocked store := by
  induction served with
  | empty =>
    refine ⟨Store.placed_empty,fun key entry found => ?_⟩
    cases found
  | command context request environment _ accepted ih =>
    rw [execute_eq]
    refine ih.run _ (fun asked same => ?_) environment
    have found : requested request environment.steady = some asked := by
      rw [requested_eq]
      exact same
    exact accepted_brief accepted found

/-! The replies, one after another. -/

theorem refusal_readable {text : Bytes} (refused : text ∈ refusals) : Readable (.error text) := by
  have short : ∀ text ∈ refusals, (wire (.error text)).length ≤ 100 := by decide
  exact line_readable _ (clean_refusal refused) (short text refused) trivial (Nat.zero_le _)

theorem ok_readable : Readable (.simple (ascii "OK")) :=
  line_readable _ (by decide) (by decide) trivial (Nat.zero_le _)

theorem shown_readable {value : Option Value}
    (short : ∀ found ∈ value, ∃ text, found = .string text ∧ text.length ≤ ParserLimits.default.maxBulkSize) :
    Readable (shown value) := by
  cases value with
  | none => exact line_readable _ (by decide) (by decide) trivial (Nat.zero_le _)
  | some value =>
    obtain ⟨text,rfl,bound⟩ := short value rfl
    exact (bulk_readable_iff text).mpr bound

theorem direct_readable (mutation : Mutation) (environment : Environment) (store : Store config) :
    Readable (direct mutation environment store).1 := by
  cases mutation with
  | set key value => exact ok_readable
  | del keys => exact integer_readable _
  | expire key ttl => exact integer_readable _

theorem durable_readable (mutation : Mutation) (environment : Environment) (store : Store config) :
    Readable (durable mutation environment store).1 := by
  cases mutation with
  | set key value => exact ok_readable
  | del keys => exact integer_readable _
  | expire key ttl => exact integer_readable _

theorem mutate_readable {mutation : Mutation} {environment : Environment} {context : CommandContext config}
    {reply : RespValue} (returned : ((Call.mutate mutation).run environment context).1 = .ok reply) :
    Readable reply := by
  unfold Call.run at returned
  dsimp only at returned
  split at returned
  · cases returned
    exact direct_readable mutation environment context.store
  · split at returned
    · cases returned
    · cases returned
      exact durable_readable mutation environment context.store

/-- What the server puts into every context: the version of the project, and counts of 64
bits. -/
structure Deployed (context : CommandContext config) : Prop where
  version : context.version = ascii "0.1.0"
  workers : context.workerCount ≤ sizeMax
  shards : config.shardCount ≤ sizeMax

theorem line_short (label : String) (number : Nat) (few : (ascii label).length ≤ 40) (small : number ≤ sizeMax) :
    (ascii label ++ Decimal.print number ++ crlf).length ≤ 62 := by
  have digits := printed_short number small
  have ends : crlf.length = 2 := rfl
  rw [List.length_append,List.length_append]
  omega

theorem uint64_small (number : UInt64) : number.toNat ≤ sizeMax := Nat.le_pred_of_lt number.toNat_lt

theorem renderInfo_short (stats : Stats) (version : Bytes) (tcpPort : UInt16) (workers shards : Nat)
    (name : version.length ≤ 100) (few : workers ≤ sizeMax) (split : shards ≤ sizeMax) :
    (stats.renderInfo version tcpPort workers shards).length ≤ 1000 := by
  have port := line_short "tcp_port:" tcpPort.toNat (by decide) (tcpPort.toNat_lt.le.trans (by decide))
  have threads := line_short "worker_threads:" workers (by decide) few
  have count := line_short "shard_count:" shards (by decide) split
  have clients := line_short "connected_clients:" stats.activeConnections.toNat (by decide) (uint64_small _)
  have received := line_short "total_connections_received:" stats.acceptedConnections.toNat (by decide) (uint64_small _)
  have commands := line_short "total_commands_processed:" stats.totalCommands.toNat (by decide) (uint64_small _)
  have errors := line_short "total_error_replies:" stats.commandErrors.toNat (by decide) (uint64_small _)
  have input := line_short "total_net_input_bytes:" stats.bytesIn.toNat (by decide) (uint64_small _)
  have output := line_short "total_net_output_bytes:" stats.bytesOut.toNat (by decide) (uint64_small _)
  have expired := line_short "expired_keys:" stats.expiredKeys.toNat (by decide) (uint64_small _)
  have evicted := line_short "evicted_keys:" stats.evictedKeys.toNat (by decide) (uint64_small _)
  have memory := line_short "used_memory:" stats.usedMemory.toNat (by decide) (uint64_small _)
  have titles : (ascii "# Server").length + (ascii "novacache_version:").length + (ascii "io_threads:1").length +
      (ascii "# Clients").length + (ascii "# Stats").length + (ascii "# Memory").length = 62 := by decide
  have ends : crlf.length = 2 := rfl
  unfold Stats.renderInfo
  dsimp only
  simp only [List.length_append] at *
  omega

theorem info_readable (environment : Environment) {context : CommandContext config} (deployed : Deployed context)
    {reply : RespValue} (returned : (info [] environment context).1 = .ok reply) : Readable reply := by
  unfold info at returned
  split at returned
  · cases returned
    exact (bulk_readable_iff []).mpr (Nat.zero_le _)
  · next stats _ =>
    cases returned
    apply (bulk_readable_iff _).mpr
    have named : context.version.length ≤ 100 := by
      rw [deployed.version]
      decide
    exact (renderInfo_short stats _ _ _ _ named deployed.workers deployed.shards).trans (by decide)

/-- A listing of at most 1024 live keys that fits in the buffer of the reader; an echoed
message no longer than a bulk string may be. -/
def Within (request : RespValue) (environment : Environment) (store : Store config) : Prop :=
  let limits := ParserLimits.default
  match resolve request environment.steady with
  | .message text => text.length ≤ limits.maxBulkSize
  | .keys pattern => pattern = [0x2A] →
    (store.showing environment.first.now).length ≤ limits.maxArraySize ∧
      listingSize (store.showing environment.first.now) ≤ limits.maxBufferSize
  | _ => True

theorem listed_readable_iff {store : Store config} (stocked : Stocked store) (pattern : Bytes) (now : Int) :
    Readable (listed (store.keys pattern now).1) ↔
      (pattern = [0x2A] → (store.showing now).length ≤ ParserLimits.default.maxArraySize ∧
        listingSize (store.showing now) ≤ ParserLimits.default.maxBufferSize) := by
  by_cases all : pattern = [0x2A]
  · subst all
    obtain ⟨names,result,perm⟩ := Store.keys_listed store stocked.placed now
    rw [result,← perm.length_eq,← listingSize_perm perm,imp_iff_right rfl]
    refine listing_readable_iff names fun key member => ?_
    obtain ⟨entry,live⟩ := Option.isSome_iff_exists.mp ((store.mem_showing now key).mp (perm.mem_iff.mp member))
    exact (stocked.short key entry ((Store.live_eq_some store key now entry).mp live).1).1
  · refine iff_of_true ?_ fun same => absurd same all
    have refused : (store.keys pattern now).1 = ⟨.unsupportedPattern,[]⟩ := by
      unfold Store.keys
      rw [if_pos all]
    rw [refused]
    exact line_readable _ (by decide) (by decide) trivial (Nat.zero_le _)

/-- The project's own client reads every reply of a store that commands have filled, except
a listing beyond its limits. -/
theorem reply_readable_iff (request : RespValue) (environment : Environment) (context : CommandContext config)
    (deployed : Deployed context) (served : Served context.store) (reply : RespValue)
    (returned : (execute request environment context).1 = .ok reply) :
    Readable reply ↔ Within request environment context.store := by
  have stocked := served.stocked
  have refusal := @resolve_refused request environment.steady
  rw [execute_eq] at returned
  unfold Within
  generalize resolve request environment.steady = call at returned refusal ⊢
  cases call with
  | refused text =>
    cases returned
    exact iff_of_true (refusal_readable (refusal rfl)) trivial
  | pong =>
    cases returned
    exact iff_of_true (line_readable _ (by decide) (by decide) trivial (Nat.zero_le _)) trivial
  | message text =>
    cases returned
    exact bulk_readable_iff text
  | get key =>
    cases returned
    refine iff_of_true (shown_readable fun found member => ?_) trivial
    change found ∈ (context.store.lookupLive key environment.first.now).1.map _ at member
    rw [(Store.lookupLive_spec context.store key environment.first.now).1] at member
    obtain ⟨entry,live,rfl⟩ := Option.mem_map.mp member
    exact (stocked.short key entry ((Store.live_eq_some _ key _ entry).mp live).1).2
  | existsMany keys =>
    cases returned
    exact iff_of_true (integer_readable _) trivial
  | ttl key =>
    cases returned
    exact iff_of_true (integer_readable _) trivial
  | keys pattern =>
    cases returned
    exact listed_readable_iff stocked pattern environment.first.now
  | info => exact iff_of_true (info_readable environment deployed returned) trivial
  | mutate mutation => exact iff_of_true (mutate_readable returned) trivial

/-- A request as the client sends it. -/
def command (words : List Bytes) : RespValue := .array (some (words.map fun word => .bulk (some word)))

theorem set_accepted (key : Bytes) (short : key.length ≤ 20) : Accepted (command [ascii "SET",key,[]]) := by
  have name : (ascii "SET").length = 3 := by decide
  have digits := printed_short key.length (short.trans (by decide))
  have few := printed_short 3 (by decide)
  have none := printed_short 0 (by decide)
  have readable : Readable (command [ascii "SET",key,[]]) := by
    refine (listing_readable_iff _ ?_).mpr ⟨by change 3 ≤ 1024; decide,?_⟩
    · intro word member
      simp only [List.mem_cons,List.not_mem_nil,or_false] at member
      change word.length ≤ 8388608
      rcases member with rfl | rfl | rfl
      · omega
      · omega
      · exact Nat.zero_le _
    · simp only [listingSize,List.map_cons,List.map_nil,List.sum_cons,List.sum_nil,name,List.length_cons,List.length_nil,
        Nat.zero_add,Nat.reduceAdd]
      change _ ≤ 16777216
      omega
  obtain ⟨bytes,_,returned⟩ := readable
  exact ⟨bytes,returned⟩

def stillness : Environment := ⟨0,0,⟨0,0⟩,⟨0,0⟩,⟨[],true⟩⟩

/-- A server without persistence. -/
def serving (store : Store ⟨1,Nat.one_pos,List.length,64⟩) : CommandContext ⟨1,Nat.one_pos,List.length,64⟩ :=
  ⟨store,none,none,ascii "0.1.0",6379,4⟩

/-- What SET makes of an empty store, the last of these keys being set first. -/
def stocking : List Bytes → Store ⟨1,Nat.one_pos,List.length,64⟩
  | [] => Store.empty
  | key::keys => (execute (command [ascii "SET",key,[]]) stillness (serving (stocking keys))).2.store

theorem serving_deployed (store : Store ⟨1,Nat.one_pos,List.length,64⟩) : Deployed (serving store) :=
  ⟨rfl,show 4 ≤ sizeMax by decide,by decide⟩

theorem stocking_served (keys : List Bytes) (short : ∀ key ∈ keys, key.length ≤ 20) : Served (stocking keys) := by
  induction keys with
  | nil => exact .empty
  | cons key keys ih =>
    obtain ⟨here,others⟩ := List.forall_mem_cons.mp short
    exact Served.command (serving (stocking keys)) _ stillness (ih others) (set_accepted key here)

theorem stocking_live (keys : List Bytes) : ∀ key ∈ keys, ∀ now, ((stocking keys).live key now).isSome = true := by
  induction keys with
  | nil => exact List.forall_mem_nil _
  | cons key keys ih =>
    intro other member now
    have assigned := Store.setExpiring_spec (stocking keys) key (.string []) none stillness.first
    rw [stocking,execute_eq]
    change (((stocking keys).setExpiring key (.string []) none stillness.first).live other now).isSome = true
    unfold Store.live ExpiringMap.visible
    rw [assigned.found other]
    by_cases same : other = key
    · rw [if_pos same]
      rfl
    · rw [if_neg same]
      exact ih other ((List.mem_cons.mp member).resolve_left same) now

/-- The listing of two keys. -/
theorem reply_readable_listed : ∃ names, names.Perm [[0x61],[0x62]] ∧ Readable (command names) ∧
    (execute (command [ascii "KEYS",[0x2A]]) stillness (serving (stocking [[0x61],[0x62]]))).1 = .ok (command names) := by
  have served := stocking_served [[0x61],[0x62]] (by decide)
  obtain ⟨names,result,perm⟩ := Store.keys_listed (stocking [[0x61],[0x62]]) served.stocked.placed 0
  have both : ((stocking [[0x61],[0x62]]).showing 0).Perm [[0x61],[0x62]] := by decide +kernel
  have returned : (execute (command [ascii "KEYS",[0x2A]]) stillness (serving (stocking [[0x61],[0x62]]))).1 =
      .ok (command names) := by
    rw [execute_eq]
    exact congrArg (fun found => Except.ok (listed found)) result
  have small : ((stocking [[0x61],[0x62]]).showing 0).length ≤ ParserLimits.default.maxArraySize ∧
      listingSize ((stocking [[0x61],[0x62]]).showing 0) ≤ ParserLimits.default.maxBufferSize := by
    rw [both.length_eq,listingSize_perm both]
    decide +kernel
  have within : Within (command [ascii "KEYS",[0x2A]]) stillness (stocking [[0x61],[0x62]]) := fun _ => small
  exact ⟨names,perm.trans both,
    (reply_readable_iff _ stillness (serving (stocking [[0x61],[0x62]])) (serving_deployed _) served _ returned).mpr within,
    returned⟩

/-- After 1025 SET commands the client cannot read the answer to KEYS. -/
theorem listing_unreadable :
    let store := stocking ((List.range 1025).map Decimal.print)
    Deployed (serving store) ∧ Served store ∧ ∀ environment, ∃ reply,
      (execute (command [ascii "KEYS",[0x2A]]) environment (serving store)).1 = .ok reply ∧ ¬ Readable reply := by
  have short : ∀ key ∈ (List.range 1025).map Decimal.print, key.length ≤ 20 := by
    intro key member
    obtain ⟨number,bound,rfl⟩ := List.mem_map.mp member
    exact printed_short number ((List.mem_range.mp bound).le.trans (by decide))
  have live := stocking_live ((List.range 1025).map Decimal.print)
  have served := stocking_served _ short
  have distinct : ((List.range 1025).map Decimal.print).Nodup := List.Nodup.map Decimal.print_injective List.nodup_range
  have size : ((List.range 1025).map Decimal.print).length = 1025 := (List.length_map _).trans List.length_range
  generalize (List.range 1025).map Decimal.print = keys at live served distinct size ⊢
  refine ⟨serving_deployed _,served,fun environment => ⟨_,rfl,fun readable => ?_⟩⟩
  obtain ⟨few,_⟩ := (listed_readable_iff served.stocked [0x2A] environment.first.now).mp readable rfl
  have many : keys.length ≤ ((stocking keys).showing environment.first.now).length :=
    (distinct.subperm fun key member => (Store.mem_showing _ _ key).mpr (live key member _)).length_le
  rw [size] at many
  exact absurd (many.trans few) (by decide)

end Commands
end NovaCache
