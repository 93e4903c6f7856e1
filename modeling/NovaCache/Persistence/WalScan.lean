import NovaCache.Persistence.Wal
import Mathlib.Algebra.Order.BigOperators.Group.List

/-! What the recovery scan does at a byte string, stated on the bytes alone: it accepts
a complete record with a valid checksum, reports offsets that do not increase, and
stops elsewhere, except on the length fields whose 32-bit sums wrap. -/
namespace NovaCache.Persistence

def bodyOf (record : WalRecord) : Bytes :=
  encodeRecordBody record.offset record.opcode record.payload

def bodyLength (record : WalRecord) : Nat := record.payload.length + 10

def encodeLog (records : List WalRecord) : Bytes := records.flatMap encodeRecord

def lastOffsetOf (start : UInt64) (records : List WalRecord) : UInt64 :=
  (records.getLast?.map WalRecord.offset).getD start

/-- Offsets increase strictly from the value `last_offset_` holds. -/
def Increasing : UInt64 → List WalRecord → Prop
  | _, [] => True
  | last, record::rest => last < record.offset ∧ Increasing record.offset rest

def StartsRecord (bytes : Bytes) : Prop :=
  ∃ record rest, bodyLength record < 2^32 ∧ bytes = encodeRecord record ++ rest

/-- A length field for which `length + 4U` wraps below the bytes that follow, although
they do not hold the announced body and checksum. -/
def Overlong (bytes : Bytes) : Prop :=
  ∃ (length : UInt32) (rest : Bytes), bytes = LittleEndian.encode 4 length.toNat ++ rest ∧
    2^32 ≤ length.toNat + 4 ∧ length.toNat + 4 - 2^32 ≤ rest.length ∧ rest.length < length.toNat + 4

theorem bodyOf_eq (record : WalRecord) :
    bodyOf record = LittleEndian.encode 8 record.offset.toNat ++
      (LittleEndian.encode 2 record.opcode.code.toNat ++ record.payload) := by
  simp [bodyOf,encodeRecordBody,appendU16,appendU64]

@[simp] theorem bodyOf_length (record : WalRecord) : (bodyOf record).length = bodyLength record := by
  simp only [bodyOf_eq,bodyLength,List.length_append,LittleEndian.encode_length]
  omega

theorem encodeRecord_eq (record : WalRecord) :
    encodeRecord record = LittleEndian.encode 4 (UInt32.ofNat (bodyLength record)).toNat ++
      (bodyOf record ++ LittleEndian.encode 4 (crc32 (bodyOf record)).toNat) := by
  simp only [encodeRecord,appendU32,List.nil_append,List.append_assoc]
  rw [← bodyOf_length]
  rfl

@[simp] theorem encodeRecord_length (record : WalRecord) :
    (encodeRecord record).length = bodyLength record + 8 := by
  simp only [encodeRecord_eq,List.length_append,LittleEndian.encode_length,bodyOf_length]
  omega

theorem lengthField (record : WalRecord) (bound : bodyLength record < 2^32) :
    (UInt32.ofNat (bodyLength record)).toNat = bodyLength record := by
  rw [UInt32.toNat_ofNat',Nat.mod_eq_of_lt bound]

theorem body_decodes (body : Bytes) (size : 10 ≤ body.length) :
    ∃ record, bodyOf record = body ∧
      readU64 body = .ok (record.offset,body.drop 8) ∧
      readU16 (body.drop 8) = .ok (record.opcode.code,record.payload) := by
  obtain ⟨offset,readOffset,splitOffset⟩ := readU64_split body (by omega)
  obtain ⟨opcode,readOpcode,splitOpcode⟩ := readU16_split (body.drop 8) (by simp; omega)
  refine ⟨⟨offset,⟨opcode⟩,(body.drop 8).drop 2⟩,?_,readOffset,readOpcode⟩
  rw [bodyOf_eq]
  exact (splitOffset.trans (congrArg (LittleEndian.encode 8 offset.toNat ++ ·) splitOpcode)).symm

theorem readU64_bodyOf (record : WalRecord) :
    readU64 (bodyOf record) = .ok (record.offset,
      LittleEndian.encode 2 record.opcode.code.toNat ++ record.payload) := by
  rw [bodyOf_eq,readU64_append]

theorem recordStep_complete (scan : Scan) (record : WalRecord) (rest : Bytes)
    (bound : bodyLength record < 2^32) (cursor : scan.cursor = encodeRecord record ++ rest) :
    recordStep scan =
      if record.offset ≤ scan.lastOffset then
        .error (.runtimeError "WAL offsets are not strictly increasing")
      else .ok (some ⟨scan.cursor.drop ((bodyLength record + 8) % 2^32),
        scan.validEnd + (bodyLength record + 8) % 2^32,record.offset,scan.records ++ [record]⟩) := by
  have field := lengthField record bound
  have narrow : (UInt32.ofNat (bodyLength record) + 4).toNat ≤ bodyLength record + 4 := by
    rw [UInt32.toNat_add,field]
    exact Nat.mod_le _ _
  have consumed : (4 + UInt32.ofNat (bodyLength record) + 4).toNat = (bodyLength record + 8) % 2^32 := by
    rw [UInt32.toNat_add,UInt32.toNat_add,field,Nat.mod_add_mod]
    change (4 + bodyLength record + 4) % 2^32 = _
    congr 1
    omega
  have long : ¬ UInt32.ofNat (bodyLength record) < 10 := by
    rw [UInt32.lt_iff_toNat_lt,field]
    change ¬ bodyLength record < 10
    simp only [bodyLength]
    omega
  have inside : (bodyLength record + 8) % 2^32 ≤ scan.cursor.length := by
    rw [cursor,List.length_append,encodeRecord_length]
    exact (Nat.mod_le _ _).trans (Nat.le_add_right _ _)
  have split : scan.cursor = LittleEndian.encode 4 (UInt32.ofNat (bodyLength record)).toNat ++
      (bodyOf record ++ (LittleEndian.encode 4 (crc32 (bodyOf record)).toNat ++ rest)) := by
    rw [cursor,encodeRecord_eq]
    simp only [List.append_assoc]
  have size := bodyOf_length record
  have read : readU32 scan.cursor = .ok (UInt32.ofNat (bodyLength record),
      bodyOf record ++ (LittleEndian.encode 4 (crc32 (bodyOf record)).toNat ++ rest)) := by
    rw [split,readU32_append]
  have enough : ¬ (bodyOf record ++ (LittleEndian.encode 4 (crc32 (bodyOf record)).toNat ++ rest)).length <
      (UInt32.ofNat (bodyLength record) + 4).toNat := by
    simp only [List.length_append,LittleEndian.encode_length,size]
    omega
  simp only [recordStep,read,long,enough,or_self,if_false,field,List.take_left' size]
  rw [← size,removePrefix_append]
  simp only [ok_bind,readU32_append,ne_eq,not_true,if_false,readU64_bodyOf,readU16_append]
  split
  · rfl
  · simp only [consumed,removePrefix,size,if_pos inside,ok_bind]
    rfl

theorem startsRecord_of_checksum (length : UInt32) (body rest : Bytes) (long : 10 ≤ body.length)
    (size : body.length = length.toNat) :
    StartsRecord (LittleEndian.encode 4 length.toNat ++
      (body ++ (LittleEndian.encode 4 (crc32 body).toNat ++ rest))) := by
  obtain ⟨record,same,_⟩ := body_decodes body long
  subst same
  rw [bodyOf_length] at size
  have bound : bodyLength record < 2^32 := size ▸ length.toNat_lt
  refine ⟨record,rest,bound,?_⟩
  rw [encodeRecord_eq,lengthField record bound,size]
  simp only [List.append_assoc]

theorem recordStep_stops (scan : Scan) (size : 4 ≤ scan.cursor.length)
    (absent : ¬ StartsRecord scan.cursor) (short : ¬ Overlong scan.cursor) :
    recordStep scan = .ok none := by
  obtain ⟨length,read,split⟩ := readU32_split scan.cursor size
  generalize scan.cursor.drop 4 = probe at read split
  have sum : (length + 4).toNat = (length.toNat + 4) % 2^32 := UInt32.toNat_add _ _
  have bound := length.toNat_lt
  by_cases rejected : length < 10 ∨ probe.length < (length + 4).toNat
  · simp only [recordStep,read,if_pos rejected]
  have long : 10 ≤ length.toNat := by
    have := mt Or.inl rejected
    rwa [UInt32.not_lt,UInt32.le_iff_toNat_le] at this
  have enough : (length + 4).toNat ≤ probe.length := Nat.not_lt.mp (mt Or.inr rejected)
  -- The wrapped sum passes the check only on an overlong field.
  have whole : length.toNat + 4 ≤ probe.length := by
    by_contra missing
    refine short ⟨length,probe,split,?_,?_,by omega⟩ <;> omega
  have taken : (probe.take length.toNat).length = length.toNat := by
    simp only [List.length_take]
    omega
  have dropped : 4 ≤ (probe.drop length.toNat).length := by
    simp only [List.length_drop]
    omega
  obtain ⟨expected,readCrc,splitCrc⟩ := readU32_split (probe.drop length.toNat) dropped
  have mismatch : expected ≠ crc32 (probe.take length.toNat) := by
    intro same
    apply absent
    rw [split,← List.take_append_drop length.toNat probe,splitCrc,same]
    exact startsRecord_of_checksum length _ _ (by omega) taken
  have inside : length.toNat ≤ probe.length := by omega
  simp only [recordStep,read,if_neg rejected,removePrefix,if_pos inside,ok_bind,readCrc,if_pos mismatch]
  rfl

theorem recordStep_overlong (scan : Scan) (overlong : Overlong scan.cursor) :
    recordStep scan = .error .outOfRange ∨
      recordStep scan = .error (.runtimeError "truncated input while reading u32") := by
  obtain ⟨length,probe,split,wraps,passes,missing⟩ := overlong
  have sum : (length + 4).toNat = (length.toNat + 4) % 2^32 := UInt32.toNat_add _ _
  have bound := length.toNat_lt
  have read : readU32 scan.cursor = .ok (length,probe) := by rw [split,readU32_append]
  have accepted : ¬ (length < 10 ∨ probe.length < (length + 4).toNat) := by
    rw [not_or,UInt32.not_lt,UInt32.le_iff_toNat_le]
    refine ⟨?_,by omega⟩
    change 10 ≤ length.toNat
    omega
  by_cases inside : length.toNat ≤ probe.length
  · right
    have short : (probe.drop length.toNat).length < 4 := by
      simp only [List.length_drop]
      omega
    simp only [recordStep,read,if_neg accepted,removePrefix,if_pos inside,ok_bind,
      readU32_short _ short,error_bind]
  · left
    simp only [recordStep,read,if_neg accepted,removePrefix,if_neg inside,error_bind]

/-- The only way an iteration continues is over a complete record with a larger offset. -/
theorem recordStep_accepted (scan next : Scan) (accepted : recordStep scan = .ok (some next)) :
    ∃ record rest, bodyLength record < 2^32 ∧ scan.cursor = encodeRecord record ++ rest ∧
      scan.lastOffset < record.offset ∧
      next = ⟨scan.cursor.drop ((bodyLength record + 8) % 2^32),
        scan.validEnd + (bodyLength record + 8) % 2^32,record.offset,scan.records ++ [record]⟩ := by
  by_cases starts : StartsRecord scan.cursor
  · obtain ⟨record,rest,bound,split⟩ := starts
    rw [recordStep_complete scan record rest bound split] at accepted
    by_cases repeated : record.offset ≤ scan.lastOffset
    · rw [if_pos repeated] at accepted
      contradiction
    · rw [if_neg repeated] at accepted
      exact ⟨record,rest,bound,split,UInt64.not_le.mp repeated,
        (Option.some.inj (Except.ok.inj accepted)).symm⟩
  exfalso
  by_cases size : scan.cursor.length < 4
  · simp [recordStep,readU32_short _ size] at accepted
  by_cases overlong : Overlong scan.cursor
  · rcases recordStep_overlong scan overlong with out | truncated
    · rw [out] at accepted
      contradiction
    · rw [truncated] at accepted
      contradiction
  · rw [recordStep_stops scan (Nat.not_lt.mp size) starts overlong] at accepted
    cases accepted

theorem encodeLog_cons (record : WalRecord) (rest : List WalRecord) :
    encodeLog (record::rest) = encodeRecord record ++ encodeLog rest := rfl

theorem encodeLog_append (first second : List WalRecord) :
    encodeLog (first ++ second) = encodeLog first ++ encodeLog second := by
  simp [encodeLog]

theorem log_length_le (records : List WalRecord) : records.length ≤ (encodeLog records).length := by
  induction records with
  | nil => simp
  | cons record rest ih =>
    rw [encodeLog_cons,List.length_append,encodeRecord_length,List.length_cons]
    omega

theorem encodeLog_length (records : List WalRecord) :
    (encodeLog records).length = (records.map (fun record => bodyLength record + 8)).sum := by
  simp [encodeLog,List.length_flatMap]

theorem wrapped_length_le (records : List WalRecord) :
    (records.map (fun record => (bodyLength record + 8) % 2^32)).sum ≤ (encodeLog records).length := by
  rw [encodeLog_length]
  exact List.sum_le_sum (fun record _ => Nat.mod_le _ _)

theorem fits_of_wrapped_length (records : List WalRecord)
    (same : (records.map (fun record => (bodyLength record + 8) % 2^32)).sum = (encodeLog records).length) :
    ∀ record ∈ records, bodyLength record < 2^32 - 8 := by
  induction records with
  | nil => simp
  | cons record rest ih =>
    have bound := wrapped_length_le rest
    rw [List.map_cons,List.sum_cons,encodeLog_cons,List.length_append,encodeRecord_length] at same
    have low : (bodyLength record + 8) % 2^32 ≤ bodyLength record + 8 := Nat.mod_le _ _
    refine List.forall_mem_cons.mpr ⟨?_,ih (by omega)⟩
    have range : (bodyLength record + 8) % 2^32 < 2^32 := Nat.mod_lt _ (by decide)
    omega

theorem lastOffsetOf_cons (start : UInt64) (record : WalRecord) (rest : List WalRecord) :
    lastOffsetOf start (record::rest) = lastOffsetOf record.offset rest := by
  cases rest with
  | nil => rfl
  | cons next rest => simp [lastOffsetOf,List.getLast?_cons]

theorem lastOffsetOf_concat (start : UInt64) (records : List WalRecord) (record : WalRecord) :
    lastOffsetOf start (records ++ [record]) = record.offset := by
  simp [lastOffsetOf]

theorem increasing_concat (start : UInt64) (records : List WalRecord) (record : WalRecord) :
    Increasing start (records ++ [record]) ↔
      Increasing start records ∧ lastOffsetOf start records < record.offset := by
  induction records generalizing start with
  | nil => simp [Increasing,lastOffsetOf]
  | cons head rest ih => simp only [List.cons_append,Increasing,ih,lastOffsetOf_cons,and_assoc]

theorem offset_le_last (records : List WalRecord) (start : UInt64) (increasing : Increasing start records) :
    ∀ record ∈ records, record.offset ≤ lastOffsetOf start records := by
  induction records generalizing start with
  | nil => exact List.forall_mem_nil _
  | cons first rest ih =>
    rw [lastOffsetOf_cons]
    refine List.forall_mem_cons.mpr ⟨?_,ih first.offset increasing.2⟩
    cases rest with
    | nil => exact UInt64.le_refl _
    | cons second rest =>
      have later := ih first.offset increasing.2 second List.mem_cons_self
      exact UInt64.le_trans (UInt64.le_of_lt increasing.2.1) later

theorem recordLoop_log (records : List WalRecord) (scan : Scan) (tail : Bytes) (fuel : Nat)
    (fits : ∀ record ∈ records, bodyLength record < 2^32 - 8)
    (increasing : Increasing scan.lastOffset records)
    (cursor : scan.cursor = encodeLog records ++ tail) :
    recordLoop (records.length + fuel) scan =
      recordLoop fuel ⟨tail,scan.validEnd + (encodeLog records).length,
        lastOffsetOf scan.lastOffset records,scan.records ++ records⟩ := by
  induction records generalizing scan with
  | nil =>
    have same : scan = ⟨tail,scan.validEnd,scan.lastOffset,scan.records⟩ := by
      cases scan
      simp_all [encodeLog]
    simp only [List.length_nil,Nat.zero_add,encodeLog,List.flatMap_nil,Nat.add_zero,
      List.append_nil]
    exact congrArg _ same
  | cons record rest ih =>
    have fit := fits record (by simp)
    have split : scan.cursor = encodeRecord record ++ (encodeLog rest ++ tail) := by
      rw [cursor,encodeLog_cons,List.append_assoc]
    have consumed : (bodyLength record + 8) % 2^32 = bodyLength record + 8 := Nat.mod_eq_of_lt (by omega)
    have dropped : scan.cursor.drop (bodyLength record + 8) = encodeLog rest ++ tail := by
      rw [split,List.drop_left' (encodeRecord_length record)]
    have step := recordStep_complete scan record (encodeLog rest ++ tail) (by omega) split
    rw [if_neg (UInt64.not_le.mpr increasing.1),consumed,dropped] at step
    have long : ¬ scan.cursor.length < 4 := by
      rw [split,List.length_append,encodeRecord_length]
      omega
    rw [List.length_cons,Nat.add_right_comm,recordLoop,if_neg long,step]
    dsimp only
    rw [ih _ (fun r member => fits r (by simp [member])) increasing.2 rfl]
    simp only [encodeLog_cons,List.length_append,encodeRecord_length,lastOffsetOf_cons,
      List.append_assoc,List.singleton_append,Nat.add_assoc]

theorem recordLoop_stops (scan : Scan) (fuel : Nat) (absent : ¬ StartsRecord scan.cursor)
    (short : ¬ Overlong scan.cursor) : recordLoop (fuel+1) scan = .ok scan := by
  rw [recordLoop]
  split
  · rfl
  · next long => rw [recordStep_stops scan (Nat.not_lt.mp long) absent short]

theorem recordLoop_accepted (fuel : Nat) (scan final : Scan) (ok : recordLoop fuel scan = .ok final) :
    ∃ records, final.records = scan.records ++ records ∧ Increasing scan.lastOffset records ∧
      (∀ record ∈ records, bodyLength record < 2^32) ∧
      final.lastOffset = lastOffsetOf scan.lastOffset records ∧
      final.validEnd = scan.validEnd + (records.map (fun record => (bodyLength record + 8) % 2^32)).sum := by
  induction fuel generalizing scan with
  | zero => simp [recordLoop] at ok
  | succ fuel ih =>
    rw [recordLoop] at ok
    split at ok
    · cases ok
      exact ⟨[],by simp,trivial,by simp,rfl,by simp⟩
    · cases step : recordStep scan with
      | error failure => simp [step] at ok
      | ok outcome =>
        cases outcome with
        | none =>
          simp only [step,Except.ok.injEq] at ok
          subst ok
          exact ⟨[],by simp,trivial,by simp,rfl,by simp⟩
        | some next =>
          simp only [step] at ok
          obtain ⟨record,rest,bound,_,fresh,rfl⟩ := recordStep_accepted scan next step
          obtain ⟨records,collected,increasing,bounds,last,ended⟩ := ih _ ok
          refine ⟨record::records,?_,⟨fresh,increasing⟩,?_,?_,?_⟩
          · rw [collected,List.append_assoc,List.singleton_append]
          · exact List.forall_mem_cons.mpr ⟨bound,bounds⟩
          · rw [last,lastOffsetOf_cons]
          · rw [ended,List.map_cons,List.sum_cons,Nat.add_assoc]

/-- Every byte string is a longest run of records with increasing offsets and a tail that
either begins with no record or repeats an offset. -/
theorem log_decomposition (last : UInt64) (bytes : Bytes) :
    ∃ records tail, bytes = encodeLog records ++ tail ∧
      (∀ record ∈ records, bodyLength record < 2^32) ∧ Increasing last records ∧
      (¬ StartsRecord tail ∨ ∃ record rest, bodyLength record < 2^32 ∧
        tail = encodeRecord record ++ rest ∧ record.offset ≤ lastOffsetOf last records) := by
  induction size : bytes.length using Nat.strong_induction_on generalizing bytes last with
  | _ n ih =>
    by_cases starts : StartsRecord bytes
    · obtain ⟨record,rest,bound,split⟩ := starts
      by_cases fresh : last < record.offset
      · have shorter : rest.length < n := by
          rw [← size,split,List.length_append,encodeRecord_length]
          omega
        obtain ⟨records,tail,cut,bounds,increasing,final⟩ := ih _ shorter record.offset rest rfl
        refine ⟨record::records,tail,?_,?_,⟨fresh,increasing⟩,?_⟩
        · rw [split,cut,encodeLog_cons,List.append_assoc]
        · intro r member
          rcases List.mem_cons.mp member with rfl | inside
          · exact bound
          · exact bounds r inside
        · simpa only [lastOffsetOf_cons] using final
      · exact ⟨[],bytes,rfl,by simp,trivial,Or.inr ⟨record,rest,bound,split,UInt64.not_lt.mp fresh⟩⟩
    · exact ⟨[],bytes,rfl,by simp,trivial,Or.inl starts⟩

theorem overlong_not_startsRecord (bytes : Bytes) (overlong : Overlong bytes) : ¬ StartsRecord bytes := by
  rintro ⟨record,rest,bound,split⟩
  obtain ⟨length,probe,other,_,_,missing⟩ := overlong
  rw [split,encodeRecord_eq,List.append_assoc] at other
  obtain ⟨field,remaining⟩ := List.append_inj other (by simp)
  have same : bodyLength record = length.toNat := by
    have decoded := congrArg LittleEndian.decode field
    rwa [LittleEndian.decode_encode_of_lt _ _ (UInt32.toNat_lt _),
      LittleEndian.decode_encode_of_lt _ _ (UInt32.toNat_lt _),lengthField record bound] at decoded
  have sizes := congrArg List.length remaining
  simp only [List.length_append,bodyOf_length,LittleEndian.encode_length] at sizes
  omega

end NovaCache.Persistence
