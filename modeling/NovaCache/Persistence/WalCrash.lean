import NovaCache.Persistence.WalRecovery

/-! Appends followed by a crash. A run of appends is cut at an arbitrary byte, or its
writes fail after storing a part of a record, and the file is then recovered. -/
namespace NovaCache.Persistence
open WalWriter

/-- The records a run of appends writes, numbered from the offset after `base`. -/
def recordsFrom : UInt64 → List (WalOpcode × Bytes) → List WalRecord
  | _, [] => []
  | base, (opcode,payload)::rest => ⟨base + 1,opcode,payload⟩ :: recordsFrom (base + 1) rest

def appendAll (writer : WalWriter) : List (WalOpcode × Bytes) → List (Except Failure UInt64) × WalWriter
  | [] => ([],writer)
  | (opcode,payload)::rest =>
    let (result,next) := append [] writer opcode payload
    let (results,final) := appendAll next rest
    (result::results,final)

/-- The records whose encodings lie within the first `cut` bytes behind the header. -/
def within : Nat → List WalRecord → List WalRecord
  | _, [] => []
  | cut, record::rest =>
    if (encodeRecord record).length ≤ cut then record :: within (cut - (encodeRecord record).length) rest
    else []

def Recovers (content : Bytes) (records : List WalRecord) (writer : WalWriter) : Prop :=
  openAndRecover content = .ok (records,writer) ∧ writer.file.bytes = header ++ encodeLog records

theorem header_eq : header = headerWith 0 := rfl

theorem freshWriter_eq (last : UInt64) : freshWriter last = writerAt 0 [] last := by
  simp [freshWriter,writerAt,encodeLog,header_eq]

theorem write_at_end (bytes data : Bytes) :
    (⟨bytes,bytes.length⟩ : File).write data = ⟨bytes ++ data,bytes.length + data.length⟩ := by
  simp [File.write]

theorem encodeRecord_ne_nil (record : WalRecord) : encodeRecord record ≠ [] := by
  intro empty
  have size := encodeRecord_length record
  rw [empty] at size
  simp at size

theorem append_writerAt (reserved : UInt32) (records : List WalRecord) (last : UInt64)
    (opcode : WalOpcode) (payload : Bytes) :
    append [] (writerAt reserved records last) opcode payload =
      (.ok (last + 1),writerAt reserved (records ++ [⟨last + 1,opcode,payload⟩]) (last + 1)) := by
  have position : 16 + (encodeLog records).length = (headerWith reserved ++ encodeLog records).length := by simp
  simp only [append,writerAt,not_true,if_false,position,
    writeAll_nil _ _ _ (encodeRecord_ne_nil _),write_at_end,encodeLog_append]
  simp [encodeLog,Nat.add_assoc]

theorem appendAll_writerAt (reserved : UInt32) (records : List WalRecord) (last : UInt64)
    (ops : List (WalOpcode × Bytes)) :
    appendAll (writerAt reserved records last) ops =
      ((recordsFrom last ops).map (fun record => .ok record.offset),
        writerAt reserved (records ++ recordsFrom last ops) (lastOffsetOf last (recordsFrom last ops))) := by
  induction ops generalizing records last with
  | nil => simp [appendAll,recordsFrom,lastOffsetOf]
  | cons op rest ih =>
    obtain ⟨opcode,payload⟩ := op
    simp only [appendAll,append_writerAt,ih,recordsFrom,List.map_cons,lastOffsetOf_cons,
      List.append_assoc,List.singleton_append]

@[simp] theorem recordsFrom_length (base : UInt64) (ops : List (WalOpcode × Bytes)) :
    (recordsFrom base ops).length = ops.length := by
  induction ops generalizing base with
  | nil => rfl
  | cons op rest ih => simp [recordsFrom,ih]

theorem recordsFrom_append (base : UInt64) (first second : List (WalOpcode × Bytes)) :
    recordsFrom base (first ++ second) =
      recordsFrom base first ++ recordsFrom (base + UInt64.ofNat first.length) second := by
  induction first generalizing base with
  | nil => simp [recordsFrom]
  | cons op rest ih =>
    have shift : base + 1 + UInt64.ofNat rest.length = base + UInt64.ofNat (rest.length + 1) := by
      rw [UInt64.ofNat_add,UInt64.add_assoc,UInt64.add_comm 1]
      rfl
    simp only [List.cons_append,recordsFrom,ih,List.length_cons,shift]

theorem lastOffsetOf_recordsFrom (base : UInt64) (ops : List (WalOpcode × Bytes)) :
    lastOffsetOf base (recordsFrom base ops) = base + UInt64.ofNat ops.length := by
  induction ops generalizing base with
  | nil => simp [recordsFrom,lastOffsetOf]
  | cons op rest ih =>
    rw [recordsFrom,lastOffsetOf_cons,ih,List.length_cons,UInt64.ofNat_add,UInt64.add_assoc,
      UInt64.add_comm 1]
    rfl

theorem offset_succ (base : UInt64) (room : base.toNat + 1 < 2^64) : (base + 1).toNat = base.toNat + 1 := by
  rw [UInt64.toNat_add]
  exact Nat.mod_eq_of_lt room

theorem recordsFrom_increasing (last base : UInt64) (ops : List (WalOpcode × Bytes))
    (after : last ≤ base) (room : base.toNat + ops.length < 2^64) :
    Increasing last (recordsFrom base ops) := by
  induction ops generalizing last base with
  | nil => trivial
  | cons op rest ih =>
    rw [List.length_cons] at room
    have next := offset_succ base (by omega)
    refine ⟨?_,ih _ _ (UInt64.le_refl _) (by omega)⟩
    have bound := UInt64.le_iff_toNat_le.mp after
    change last < base + 1
    exact UInt64.lt_iff_toNat_lt.mpr (by omega)

theorem recordsFrom_room (last base : UInt64) (ops : List (WalOpcode × Bytes))
    (increasing : Increasing last (recordsFrom base ops)) : base.toNat + ops.length < 2^64 := by
  induction ops generalizing last base with
  | nil => exact base.toNat_lt
  | cons op rest ih =>
    have later := ih _ _ increasing.2
    have positive : last.toNat < (base + 1).toNat := UInt64.lt_iff_toNat_lt.mp increasing.1
    have bound := base.toNat_lt
    have next : (base + 1).toNat = (base.toNat + 1) % 2^64 := UInt64.toNat_add _ _
    rw [List.length_cons]
    omega

theorem bodyLength_recordsFrom (base : UInt64) (ops : List (WalOpcode × Bytes)) (limit : Nat) :
    (∀ record ∈ recordsFrom base ops, bodyLength record < limit) ↔ ∀ op ∈ ops, op.2.length + 10 < limit := by
  induction ops generalizing base with
  | nil => simp [recordsFrom]
  | cons op rest ih =>
    simp only [recordsFrom,List.forall_mem_cons,ih]
    rfl

/-- Recovering a run of appends exactly, file included, is possible just when no total
size and no offset wraps. -/
theorem recovers_iff (base : UInt64) (ops : List (WalOpcode × Bytes)) (tail : Bytes)
    (absent : ¬ StartsRecord tail) (short : ¬ Overlong tail) :
    (∃ writer, Recovers (header ++ (encodeLog (recordsFrom base ops) ++ tail)) (recordsFrom base ops) writer) ↔
      (∀ op ∈ ops, op.2.length + 10 < 2^32 - 8) ∧ base.toNat + ops.length < 2^64 := by
  rw [← bodyLength_recordsFrom base]
  constructor
  · rintro ⟨writer,returned,left⟩
    obtain ⟨scan,looped,collected,_,size⟩ := openAndRecover_scan 0 _ _ _ returned
    obtain ⟨records,same,increasing,_,_,ended⟩ := recordLoop_accepted _ _ _ looped
    obtain rfl : recordsFrom base ops = records := collected.symm.trans same
    have total := congrArg List.length left
    rw [size,ended,List.length_append,header_eq,headerWith_length] at total
    exact ⟨fits_of_wrapped_length _ (Nat.add_left_cancel total),recordsFrom_room 0 base ops increasing⟩
  · rintro ⟨fits,room⟩
    have increasing := recordsFrom_increasing 0 base ops (UInt64.le_iff_toNat_le.mpr (Nat.zero_le _)) room
    exact ⟨_,openAndRecover_log 0 _ tail fits increasing absent short,rfl⟩

theorem torn_length (record : WalRecord) (count : Nat) (length : UInt32) (rest : Bytes)
    (bound : bodyLength record < 2^32)
    (torn : (encodeRecord record).take count = LittleEndian.encode 4 length.toNat ++ rest) :
    length.toNat = bodyLength record := by
  have long : 4 ≤ count := by
    have sizes := congrArg List.length torn
    simp only [List.length_take,List.length_append,LittleEndian.encode_length] at sizes
    omega
  have fields := congrArg (List.take 4) torn
  rw [List.take_take,Nat.min_eq_left long,encodeRecord_eq,List.take_left' (by simp),
    List.take_left' (by simp)] at fields
  have decoded := congrArg LittleEndian.decode fields
  rw [LittleEndian.decode_encode_of_lt _ _ (UInt32.toNat_lt _),
    LittleEndian.decode_encode_of_lt _ _ (UInt32.toNat_lt _),lengthField record bound] at decoded
  exact decoded.symm

theorem torn_not_startsRecord (record : WalRecord) (count : Nat) (bound : bodyLength record < 2^32)
    (partly : count < (encodeRecord record).length) : ¬ StartsRecord ((encodeRecord record).take count) := by
  rintro ⟨other,rest,small,split⟩
  have sizes := congrArg List.length split
  rw [encodeRecord_eq other,List.append_assoc] at split
  have same := torn_length record count _ _ bound split
  rw [lengthField other small] at same
  simp only [List.length_take,List.length_append,encodeRecord_length] at sizes partly
  omega

theorem torn_not_overlong (record : WalRecord) (count : Nat) (bound : bodyLength record < 2^32 - 4) :
    ¬ Overlong ((encodeRecord record).take count) := by
  rintro ⟨length,rest,split,wraps,_⟩
  have same := torn_length record count length rest (by omega) split
  omega

theorem empty_not_startsRecord : ¬ StartsRecord [] := by
  rintro ⟨record,rest,_,split⟩
  exact encodeRecord_ne_nil record (List.append_eq_nil_iff.mp split.symm).1

theorem empty_not_overlong : ¬ Overlong [] := by
  rintro ⟨length,rest,split,_⟩
  have sizes := congrArg List.length split
  simp only [List.length_nil,List.length_append,LittleEndian.encode_length] at sizes
  omega

theorem within_eq_take (cut : Nat) (records : List WalRecord) :
    within cut records = records.take (within cut records).length := by
  induction records generalizing cut with
  | nil => rfl
  | cons record rest ih =>
    rw [within]
    split
    · rw [List.length_cons,List.take_succ_cons,← ih]
    · rfl

theorem recordsFrom_take (base : UInt64) (ops : List (WalOpcode × Bytes)) (count : Nat) :
    (recordsFrom base ops).take count = recordsFrom base (ops.take count) := by
  induction ops generalizing base count with
  | nil => simp [recordsFrom]
  | cons op rest ih =>
    cases count with
    | zero => rfl
    | succ count => simp only [recordsFrom,List.take_succ_cons,ih]

theorem take_within (cut : Nat) (records : List WalRecord)
    (bounds : ∀ record ∈ records, bodyLength record < 2^32 - 4) :
    ∃ torn, (encodeLog records).take cut = encodeLog (within cut records) ++ torn ∧
      ¬ StartsRecord torn ∧ ¬ Overlong torn := by
  induction records generalizing cut with
  | nil => exact ⟨[],by simp [encodeLog,within],empty_not_startsRecord,empty_not_overlong⟩
  | cons record rest ih =>
    have bound := bounds record (by simp)
    by_cases inside : (encodeRecord record).length ≤ cut
    · obtain ⟨torn,split,absent,short⟩ := ih (cut - (encodeRecord record).length)
        (fun r member => bounds r (by simp [member]))
      refine ⟨torn,?_,absent,short⟩
      rw [within,if_pos inside,encodeLog_cons,encodeLog_cons,List.take_append,
        List.take_of_length_le inside,split,List.append_assoc]
    · have partly := Nat.not_le.mp inside
      refine ⟨(encodeRecord record).take cut,?_,torn_not_startsRecord record cut (by omega) partly,
        torn_not_overlong record cut bound⟩
      rw [within,if_neg inside,encodeLog_cons,List.take_append_of_le_length (by omega)]
      rfl

theorem appendAll_fresh (base : UInt64) (ops : List (WalOpcode × Bytes)) :
    (appendAll (freshWriter base) ops).2.file.bytes = header ++ encodeLog (recordsFrom base ops) := by
  rw [freshWriter_eq,appendAll_writerAt]
  rfl

/-- A crash after `cut` bytes keeps exactly the records within them, and when some record
was kept, further appends continue its numbering and are recovered behind it. -/
def CutRecovery (base : UInt64) (ops more : List (WalOpcode × Bytes)) (cut : Nat) : Prop :=
  let file := (appendAll (freshWriter base) ops).2.file.bytes
  let kept := within (cut - 16) (recordsFrom base ops)
  ∃ writer, Recovers (file.take cut) kept writer ∧
    (kept ≠ [] →
      let further := recordsFrom (base + UInt64.ofNat kept.length) more
      (appendAll writer more).1 = further.map (fun record => .ok record.offset) ∧
      ∃ final, Recovers (appendAll writer more).2.file.bytes (kept ++ further) final)

def Unwrapped (base : UInt64) (ops : List (WalOpcode × Bytes)) : Prop :=
  (∀ op ∈ ops, op.2.length + 10 < 2^32 - 8) ∧ base.toNat + ops.length < 2^64

theorem within_short (cut : Nat) (records : List WalRecord) (short : cut < 18) : within cut records = [] := by
  cases records with
  | nil => rfl
  | cons record rest =>
    rw [within,if_neg]
    simp only [encodeRecord_length,bodyLength]
    omega

theorem cut_header (cut : Nat) (rest : Bytes) (inside : cut < 16) :
    Recovers ((header ++ rest).take cut) [] (freshWriter 0) := by
  refine ⟨?_,by simp [freshWriter,encodeLog]⟩
  have size : ((header ++ rest).take cut).length < 16 := by
    simp only [List.length_take]
    omega
  rcases openAndRecover_unheaded ((header ++ rest).take cut) (fun reserved other same => by
    have sizes := congrArg List.length same
    simp only [List.length_append,headerWith_length] at sizes
    omega) with fresh | rejected
  · exact fresh
  · simp only [openAndRecover,truncate_zero,restart_empty,size,if_true] at rejected ⊢
    split at rejected
    · next empty =>
      rw [List.length_eq_zero_iff.mp empty] at rejected
      exact absurd (rejected.symm.trans (restart_empty 0)) (by simp)
    · cases rejected

theorem unwrapped_increasing (base : UInt64) (ops : List (WalOpcode × Bytes)) (whole : Unwrapped base ops) :
    Increasing 0 (recordsFrom base ops) :=
  recordsFrom_increasing 0 base ops (UInt64.le_iff_toNat_le.mpr (Nat.zero_le _)) whole.2

theorem recovered_writer (base : UInt64) (ops : List (WalOpcode × Bytes)) (tail : Bytes) (writer : WalWriter)
    (absent : ¬ StartsRecord tail) (short : ¬ Overlong tail) (whole : Unwrapped base ops)
    (recovered : Recovers (header ++ (encodeLog (recordsFrom base ops) ++ tail)) (recordsFrom base ops) writer) :
    writer = writerAt 0 (recordsFrom base ops) (lastOffsetOf 0 (recordsFrom base ops)) := by
  have exact := openAndRecover_log 0 (recordsFrom base ops) tail
    ((bodyLength_recordsFrom base ops _).mpr whole.1) (unwrapped_increasing base ops whole) absent short
  exact (Prod.mk.inj (Except.ok.inj (recovered.1.symm.trans exact))).2

theorem appendAll_further (base : UInt64) (ops more : List (WalOpcode × Bytes)) (present : ops ≠ []) :
    let writer := writerAt 0 (recordsFrom base ops) (lastOffsetOf 0 (recordsFrom base ops))
    (appendAll writer more).1 =
        (recordsFrom (base + UInt64.ofNat ops.length) more).map (fun record => .ok record.offset) ∧
      (appendAll writer more).2.file.bytes = header ++ encodeLog (recordsFrom base (ops ++ more)) := by
  have last : lastOffsetOf 0 (recordsFrom base ops) = base + UInt64.ofNat ops.length := by
    rw [← lastOffsetOf_recordsFrom]
    cases ops with
    | nil => contradiction
    | cons op rest => rw [recordsFrom,lastOffsetOf_cons,lastOffsetOf_cons]
  simp only [last,appendAll_writerAt,recordsFrom_append,true_and]
  rfl

/-- Recovery after a crash is exact if and only if nothing it keeps, and nothing appended
behind what it keeps, wraps around. -/
theorem crash_cut_iff (base : UInt64) (ops more : List (WalOpcode × Bytes)) (cut : Nat)
    (bounded : ∀ op ∈ ops, op.2.length + 10 < 2^32 - 4) :
    CutRecovery base ops more cut ↔
      let kept := ops.take (within (cut - 16) (recordsFrom base ops)).length
      Unwrapped base kept ∧ (kept ≠ [] → Unwrapped base (kept ++ more)) := by
  set count := (within (cut - 16) (recordsFrom base ops)).length with counted
  have keptEq : within (cut - 16) (recordsFrom base ops) = recordsFrom base (ops.take count) := by
    rw [within_eq_take,recordsFrom_take]
  have countLe : count ≤ ops.length := by
    rw [counted,within_eq_take,List.length_take,recordsFrom_length]
    omega
  have keptLength : (ops.take count).length = count := by simp [countLe]
  have emptyIff : recordsFrom base (ops.take count) ≠ [] ↔ ops.take count ≠ [] := by
    rw [← List.length_pos_iff,recordsFrom_length,List.length_pos_iff]
  have furtherEq : recordsFrom base (ops.take count) ++ recordsFrom (base + UInt64.ofNat count) more =
      recordsFrom base (ops.take count ++ more) := by
    rw [recordsFrom_append,keptLength]
  simp only [CutRecovery,appendAll_fresh,keptEq,recordsFrom_length,keptLength,emptyIff,furtherEq]
  by_cases inside : cut < 16
  · have none : ops.take count = [] := by
      rw [List.eq_nil_iff_length_eq_zero,keptLength,counted,within_short _ _ (by omega)]
      rfl
    simp only [none,recordsFrom,ne_eq,not_true,false_implies,and_true]
    exact ⟨fun _ => ⟨by simp,by simpa using base.toNat_lt⟩,fun _ => ⟨_,cut_header cut _ inside⟩⟩
  · obtain ⟨torn,split,absent,short⟩ := take_within (cut - 16) (recordsFrom base ops)
      ((bodyLength_recordsFrom base ops _).mpr bounded)
    have file : (header ++ encodeLog (recordsFrom base ops)).take cut =
        header ++ (encodeLog (recordsFrom base (ops.take count)) ++ torn) := by
      rw [List.take_append,List.take_of_length_le (by simpa [header_eq] using inside),← keptEq,← split]
      simp [header_eq]
    rw [file]
    have second := recovers_iff base (ops.take count ++ more) [] empty_not_startsRecord empty_not_overlong
    rw [List.append_nil] at second
    constructor
    · rintro ⟨writer,recovered,further⟩
      have whole := (recovers_iff base (ops.take count) torn absent short).mp ⟨writer,recovered⟩
      refine ⟨whole,fun present => second.mp ?_⟩
      obtain ⟨_,final,again⟩ := further present
      rw [recovered_writer base _ torn writer absent short whole recovered,
        (appendAll_further base _ more present).2] at again
      exact ⟨final,again⟩
    · rintro ⟨whole,further⟩
      obtain ⟨writer,recovered⟩ := (recovers_iff base (ops.take count) torn absent short).mpr whole
      refine ⟨writer,recovered,fun present => ?_⟩
      rw [recovered_writer base _ torn writer absent short whole recovered]
      obtain ⟨results,bytes⟩ := appendAll_further base (ops.take count) more present
      rw [keptLength] at results
      rw [bytes]
      exact ⟨results,second.mpr (further present)⟩

/-- Two small records cut inside the second one: the first is kept, a third follows it. -/
theorem crash_cut_example :
    CutRecovery 7 [(.set,[1]),(.del,[2])] [(.expire,[3])] 40 := by
  refine (crash_cut_iff 7 [(.set,[1]),(.del,[2])] [(.expire,[3])] 40 (by decide)).mpr ?_
  refine ⟨⟨?_,?_⟩,fun _ => ⟨?_,?_⟩⟩ <;> decide +kernel

theorem giant_not_recovered (payload : Bytes) (giant : payload.length = 2^32 - 18) :
    ¬ CutRecovery 0 [(.set,payload)] [] (16 + 2^32) := by
  rintro ⟨writer,recovered,_⟩
  have size : (encodeRecord ⟨0 + 1,.set,payload⟩).length = 2^32 := by
    simp only [encodeRecord_length,bodyLength]
    omega
  have kept : within (16 + 2^32 - 16) (recordsFrom 0 [(.set,payload)]) = recordsFrom 0 [(.set,payload)] := by
    rw [recordsFrom,within,size,if_pos (by omega)]
    rfl
  have file : (header ++ encodeLog (recordsFrom 0 [(.set,payload)])).take (16 + 2^32) =
      header ++ (encodeLog (recordsFrom 0 [(.set,payload)]) ++ []) := by
    rw [List.append_nil,List.take_of_length_le]
    rw [List.length_append,recordsFrom,encodeLog_cons,List.length_append,size]
    rfl
  rw [appendAll_fresh,kept,file] at recovered
  have whole := (recovers_iff 0 _ [] empty_not_startsRecord empty_not_overlong).mp ⟨writer,recovered⟩
  have bound : payload.length + 10 < 2^32 - 8 := whole.1 _ (List.mem_singleton.mpr rfl)
  omega

/-- A body of 2^32 - 8 bytes is below the bound of the length check, but its total size
wraps to zero: the scan meets the same record again and recovery raises. -/
theorem crash_cut_giant : ¬ CutRecovery 0 [(.set,List.replicate (2^32 - 18) 0)] [] (16 + 2^32) :=
  giant_not_recovered _ List.length_replicate

end NovaCache.Persistence
