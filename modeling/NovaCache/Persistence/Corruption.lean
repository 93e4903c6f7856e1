import NovaCache.Persistence.Checksum
import NovaCache.Persistence.SnapshotFile
import NovaCache.Persistence.WalReopen

/-! Damage to the two files. The table-driven checksum is the register of
`ShiftRegister` with a 32-bit word of feedback, so no change within four consecutive
bytes escapes it, wherever these lie between content and checksum. -/
namespace NovaCache.Persistence
open WalWriter

/-- A change of some bytes within a window of at most four. -/
structure Window (original changed : Bytes) : Prop where
  size : original.length = changed.length
  small : original.length ≤ 4
  differs : original ≠ changed

/-- Two byte strings that both end in the checksum of what stands before it differ in more
than one window. -/
theorem checksum_window {content content' trailer trailer' before first second after : Bytes}
    (whole : trailer.length = 4) (whole' : trailer'.length = 4)
    (checked : UInt32.ofNat (LittleEndian.decode trailer) = crc32 content)
    (checked' : UInt32.ofNat (LittleEndian.decode trailer') = crc32 content')
    (split : content ++ trailer = before ++ (first ++ after))
    (split' : content' ++ trailer' = before ++ (second ++ after)) : ¬ Window first second := by
  rintro ⟨size,small,differs⟩
  apply differs
  refine ShiftRegister.checksum_detects polynomial (BitVec.allOnes 32) polynomial_top content content' trailer
    trailer' before first second after (by omega) (by omega) ?_ ?_ split split' size (by omega)
  · rw [← crc32_toBitVec,← checked]
    rfl
  · rw [← crc32_toBitVec,← checked']
    rfl

theorem decoded_crc32 (crc : UInt32) : UInt32.ofNat (LittleEndian.decode (LittleEndian.encode 4 crc.toNat)) = crc := by
  rw [LittleEndian.decode_encode_of_lt _ _ (UInt32.toNat_lt _),UInt32.ofNat_toNat]

theorem snapshot_damaged (walOffset : UInt64) (entries : List PersistedEntry) (before first second after : Bytes)
    (split : SnapshotStore.encode walOffset entries = before ++ (first ++ after)) (window : Window first second) :
    SnapshotStore.read (some (before ++ (second ++ after))) = none := by
  rw [SnapshotStore.encode,appendU32] at split
  generalize changed : before ++ (second ++ after) = file
  have size : 4 ≤ file.length := by
    have sizes := congrArg List.length split
    have same := window.size
    simp only [← changed,List.length_append,LittleEndian.encode_length] at sizes ⊢
    omega
  have whole : (file.drop (file.length - 4)).length = 4 := by
    rw [List.length_drop]
    omega
  obtain ⟨expected,readTrailer,trailer⟩ := readU32_split (file.drop (file.length - 4)) whole.ge
  rw [List.drop_eq_nil_of_le whole.le,List.append_nil] at trailer
  have mismatch : crc32 (file.take (file.length - 4)) ≠ expected := by
    intro checked
    have parts : file.take (file.length - 4) ++ file.drop (file.length - 4) = before ++ (second ++ after) := by
      rw [List.take_append_drop,changed]
    refine checksum_window (LittleEndian.encode_length _ _) whole (decoded_crc32 _) ?_ split parts window
    rw [trailer,checked]
    exact decoded_crc32 expected
  simp only [SnapshotStore.read]
  split
  · rfl
  · simp only [SnapshotStore.decode,readTrailer,ok_bind,if_pos mismatch]
    rfl

/-- The bytes of a record behind its length field. -/
def sealed (record : WalRecord) : Bytes :=
  bodyOf record ++ LittleEndian.encode 4 (crc32 (bodyOf record)).toNat

theorem sealed_length (record : WalRecord) : (sealed record).length = bodyLength record + 4 := by
  rw [sealed,List.length_append,bodyOf_length,LittleEndian.encode_length]

theorem lengthField_eq (record : WalRecord) :
    (UInt32.ofNat (bodyLength record)).toNat = bodyLength record % 2^32 := UInt32.toNat_ofNat'

/-- The length field of the record is read as it was written, and what follows it as well. -/
theorem field_unique {record : WalRecord} {length : UInt32} {content other : Bytes}
    (same : LittleEndian.encode 4 (UInt32.ofNat (bodyLength record)).toNat ++ content =
      LittleEndian.encode 4 length.toNat ++ other) :
    length.toNat = bodyLength record % 2^32 ∧ content = other := by
  obtain ⟨fields,contents⟩ := List.append_inj same (by simp)
  have decoded := congrArg LittleEndian.decode fields
  rw [LittleEndian.decode_encode_of_lt _ _ (UInt32.toNat_lt _),
    LittleEndian.decode_encode_of_lt _ _ (UInt32.toNat_lt _),lengthField_eq] at decoded
  exact ⟨decoded.symm,contents⟩

/-- The length field announces the whole body, or too little for any body. -/
def Announced (record : WalRecord) : Prop := bodyLength record < 2^32 ∨ bodyLength record % 2^32 < 10

section Damage
variable {record : WalRecord} {before first second after : Bytes} (rest : Bytes)
    (split : sealed record = before ++ (first ++ after)) (window : Window first second)
include split window

theorem damaged_length : (before ++ (second ++ after)).length = bodyLength record + 4 := by
  have sizes := congrArg List.length split
  have same := window.size
  rw [sealed_length] at sizes
  simp only [List.length_append] at sizes ⊢
  omega

theorem damaged_not_startsRecord (announced : Announced record) : ¬ StartsRecord
    (LittleEndian.encode 4 (UInt32.ofNat (bodyLength record)).toNat ++ (before ++ (second ++ after) ++ rest)) := by
  rintro ⟨other,more,small,same⟩
  rw [encodeRecord_eq other,List.append_assoc (LittleEndian.encode 4 _) _ more] at same
  obtain ⟨length,contents⟩ := field_unique same
  rw [lengthField other small] at length
  have ten : 10 ≤ bodyLength other := Nat.le_add_left _ _
  have bound : bodyLength record < 2^32 := by
    rcases announced with bound | short
    · exact bound
    · omega
  rw [Nat.mod_eq_of_lt bound] at length
  obtain ⟨content,_⟩ := List.append_inj contents (by
    rw [damaged_length split window,List.length_append,bodyOf_length,LittleEndian.encode_length,length])
  exact checksum_window (LittleEndian.encode_length _ _) (LittleEndian.encode_length _ _) (decoded_crc32 _)
    (decoded_crc32 _) split content.symm window

theorem damaged_not_overlong (announced : Announced record) : ¬ Overlong
    (LittleEndian.encode 4 (UInt32.ofNat (bodyLength record)).toNat ++ (before ++ (second ++ after) ++ rest)) := by
  rintro ⟨length,probe,same,wraps,_,missing⟩
  obtain ⟨field,rfl⟩ := field_unique same
  rw [List.length_append,damaged_length split window] at missing
  rcases announced with bound | short
  · rw [Nat.mod_eq_of_lt bound] at field
    omega
  · omega

end Damage

theorem split_inside {outer inner rest before first after : Bytes}
    (same : outer ++ (inner ++ rest) = before ++ (first ++ after)) (low : outer.length ≤ before.length)
    (high : before.length + first.length ≤ outer.length + inner.length) :
    ∃ left right, before = outer ++ left ∧ after = right ++ rest ∧ inner = left ++ (first ++ right) := by
  obtain ⟨left,rfl⟩ : outer <+: before :=
    List.prefix_of_prefix_length_le ⟨_,same⟩ ⟨_,rfl⟩ low
  rw [List.append_assoc] at same
  have remaining := List.append_cancel_left same
  rw [← List.append_assoc] at remaining
  obtain ⟨right,rfl⟩ : left ++ first <+: inner := by
    refine List.prefix_of_prefix_length_le ⟨_,remaining.symm⟩ ⟨_,rfl⟩ ?_
    simp only [List.length_append] at high ⊢
    omega
  rw [List.append_assoc] at remaining
  exact ⟨left,right,rfl,(List.append_cancel_left remaining).symm,List.append_assoc _ _ _⟩

/-- Every change within four consecutive bytes behind the length field of one record of a
run of appends makes recovery return exactly the records before it. -/
def DamageDetected (base : UInt64) (earlier : List (WalOpcode × Bytes)) (op : WalOpcode × Bytes)
    (later : List (WalOpcode × Bytes)) : Prop :=
  let file := (appendAll (freshWriter base) (earlier ++ op::later)).2.file.bytes
  let start := 16 + (encodeLog (recordsFrom base earlier)).length
  ∀ before first second after, file = before ++ (first ++ after) → Window first second →
    start + 4 ≤ before.length → before.length + first.length ≤ start + (op.2.length + 18) →
    ∃ writer, openAndRecover (before ++ (second ++ after)) = .ok (recordsFrom base earlier,writer)

def recordAfter (base : UInt64) (earlier : List (WalOpcode × Bytes)) (op : WalOpcode × Bytes) : WalRecord :=
  ⟨base + UInt64.ofNat earlier.length + 1,op.1,op.2⟩

theorem appended_file (base : UInt64) (earlier : List (WalOpcode × Bytes)) (op : WalOpcode × Bytes)
    (later : List (WalOpcode × Bytes)) :
    ∃ rest, (appendAll (freshWriter base) (earlier ++ op::later)).2.file.bytes =
      (header ++ encodeLog (recordsFrom base earlier) ++
        LittleEndian.encode 4 (UInt32.ofNat (bodyLength (recordAfter base earlier op))).toNat) ++
      (sealed (recordAfter base earlier op) ++ rest) := by
  refine ⟨encodeLog (recordsFrom (base + UInt64.ofNat earlier.length + 1) later),?_⟩
  rw [appendAll_fresh,recordsFrom_append,encodeLog_append]
  change _ ++ (_ ++ (encodeRecord (recordAfter base earlier op) ++ encodeLog _)) = _
  rw [encodeRecord_eq,← sealed]
  simp only [List.append_assoc]

theorem damage_detected (base : UInt64) (earlier : List (WalOpcode × Bytes)) (op : WalOpcode × Bytes)
    (later : List (WalOpcode × Bytes)) (whole : Unwrapped base earlier)
    (announced : Announced (recordAfter base earlier op)) : DamageDetected base earlier op later := by
  intro before first second after split window low high
  obtain ⟨rest,shape⟩ := appended_file base earlier op later
  obtain ⟨left,right,rfl,rfl,inner⟩ := split_inside (shape.symm.trans split)
    (by simp only [List.length_append,header_eq,headerWith_length,LittleEndian.encode_length]; omega)
    (by
      simp only [List.length_append,header_eq,headerWith_length,LittleEndian.encode_length,sealed_length,bodyLength,
        recordAfter] at high ⊢
      omega)
  have recovered := openAndRecover_log 0 (recordsFrom base earlier) _
    ((bodyLength_recordsFrom base earlier _).mpr whole.1) (unwrapped_increasing base earlier whole)
    (damaged_not_startsRecord rest inner window announced) (damaged_not_overlong rest inner window announced)
  refine ⟨_,Eq.trans (congrArg openAndRecover ?_) recovered⟩
  simp only [header_eq,List.append_assoc]

/-- A valid record behind the earlier ones is never passed over in silence. -/
theorem accepted_undetected (reserved : UInt32) (records : List WalRecord) (record : WalRecord) (more : Bytes)
    (fits : ∀ record ∈ records, bodyLength record < 2^32 - 8) (increasing : Increasing 0 records)
    (bound : bodyLength record < 2^32) (writer : WalWriter) :
    openAndRecover (headerWith reserved ++ (encodeLog records ++ (encodeRecord record ++ more))) ≠
      .ok (records,writer) := by
  intro ok
  by_cases fresh : lastOffsetOf 0 records < record.offset
  · have member := record_returned reserved records record more records writer fits bound
      ((increasing_concat 0 records record).mpr ⟨increasing,fresh⟩) ok
    exact UInt64.not_le.mpr fresh (offset_le_last records 0 increasing record member)
  · have raised := openAndRecover_repeated reserved records record more fits increasing bound (UInt64.not_lt.mp fresh)
    exact absurd (raised.symm.trans ok) (by simp)

/-- Bytes can be changed within one window so that a shorter record with a valid checksum
begins there. -/
theorem forged (record : WalRecord) (long : 2^32 ≤ bodyLength record) (announced : 10 ≤ bodyLength record % 2^32) :
    ∃ before first second after other more, sealed record = before ++ (first ++ after) ∧ Window first second ∧
      bodyLength other < 2^32 ∧
      LittleEndian.encode 4 (UInt32.ofNat (bodyLength record)).toNat ++ (before ++ (second ++ after)) =
        encodeRecord other ++ more := by
  have field := lengthField_eq record
  have range : bodyLength record % 2^32 < 2^32 := Nat.mod_lt _ (by decide)
  generalize count : bodyLength record % 2^32 = size at *
  have cut : ((sealed record).take size).length = size := by
    rw [List.length_take,sealed_length]
    omega
  obtain ⟨other,body,_⟩ := body_decodes ((sealed record).take size) (by omega)
  have otherLength : bodyLength other = size := by rw [← bodyOf_length,body,cut]
  have fieldOther : UInt32.ofNat (bodyLength record) = UInt32.ofNat (bodyLength other) := by
    apply UInt32.toNat_inj.mp
    rw [field,lengthField other (by omega),otherLength]
  set crc := LittleEndian.encode 4 (crc32 (bodyOf other)).toNat with crcBytes
  have encoded : encodeRecord other = LittleEndian.encode 4 (UInt32.ofNat (bodyLength record)).toNat ++
      ((sealed record).take size ++ crc) := by
    rw [encodeRecord_eq,← body,fieldOther]
  have window : ((sealed record).drop size).take 4 ++ ((sealed record).drop size).drop 4 = (sealed record).drop size :=
    List.take_append_drop _ _
  by_cases valid : ((sealed record).drop size).take 4 = crc
  · -- The shorter record is there already, so any change behind it goes unnoticed.
    have room : ((sealed record).drop size).drop 4 ≠ [] := by
      rw [← List.length_pos_iff,List.length_drop,List.length_drop,sealed_length]
      omega
    obtain ⟨byte,remaining,tail⟩ := List.exists_cons_of_ne_nil room
    refine ⟨(sealed record).take size ++ crc,[byte],[byte + 1],remaining,other,[byte + 1] ++ remaining,?_,
      ⟨rfl,by simp,?_⟩,by omega,?_⟩
    · rw [List.append_assoc,List.singleton_append,← tail,← valid,window,List.take_append_drop]
    · intro same
      have equal := (List.cons.inj same).1
      exact absurd (UInt8.left_eq_add.mp equal) (by decide)
    · rw [encoded]
      simp only [List.append_assoc]
  · refine ⟨(sealed record).take size,((sealed record).drop size).take 4,crc,((sealed record).drop size).drop 4,other,
      ((sealed record).drop size).drop 4,?_,⟨?_,?_,valid⟩,by omega,?_⟩
    · rw [window,List.take_append_drop]
    · rw [crcBytes,LittleEndian.encode_length,List.length_take,List.length_drop,sealed_length]
      omega
    · exact List.length_take_le _ _
    · rw [encoded]
      simp only [List.append_assoc]

theorem damage_undetected (base : UInt64) (earlier : List (WalOpcode × Bytes)) (op : WalOpcode × Bytes)
    (later : List (WalOpcode × Bytes)) (whole : Unwrapped base earlier)
    (oversized : ¬ Announced (recordAfter base earlier op)) : ¬ DamageDetected base earlier op later := by
  intro detected
  obtain ⟨long,announced⟩ := not_or.mp oversized
  obtain ⟨before,first,second,after,other,more,split,window,bound,shorter⟩ :=
    forged (recordAfter base earlier op) (Nat.not_lt.mp long) (Nat.not_lt.mp announced)
  obtain ⟨rest,shape⟩ := appended_file base earlier op later
  rw [split] at shape
  have sizes := congrArg List.length split
  rw [sealed_length,List.length_append,List.length_append] at sizes
  simp only [bodyLength,recordAfter] at sizes
  set outer := header ++ encodeLog (recordsFrom base earlier) ++
    LittleEndian.encode 4 (UInt32.ofNat (bodyLength (recordAfter base earlier op))).toNat with outerBytes
  have size : outer.length = 16 + (encodeLog (recordsFrom base earlier)).length + 4 := by
    simp only [outerBytes,List.length_append,header_eq,headerWith_length,LittleEndian.encode_length]
  have position : (outer ++ before).length = outer.length + before.length := List.length_append
  obtain ⟨writer,returned⟩ := detected (outer ++ before) first second (after ++ rest)
    (shape.trans (by simp only [List.append_assoc])) window (by omega) (by omega)
  refine accepted_undetected 0 (recordsFrom base earlier) other (more ++ rest)
    ((bodyLength_recordsFrom base earlier _).mpr whole.1) (unwrapped_increasing base earlier whole) bound writer
    (Eq.trans (congrArg openAndRecover ?_) returned)
  rw [← List.append_assoc (encodeRecord other),← shorter,outerBytes]
  simp only [header_eq,List.append_assoc]

/-- Damage within four consecutive bytes. A snapshot is refused whatever is hit; a log is
recovered up to the damaged record, behind records that do not wrap, if and only if the
length field of that record announces its whole body or too little for any. -/
theorem corruption_detected (base : UInt64) (earlier : List (WalOpcode × Bytes)) (op : WalOpcode × Bytes)
    (later : List (WalOpcode × Bytes)) (whole : Unwrapped base earlier) :
    (∀ io current walOffset entries file,
      SnapshotStore.write io current walOffset entries = (.ok (),some file) →
      ∀ before first second after, file = before ++ (first ++ after) → Window first second →
        SnapshotStore.read (some (before ++ (second ++ after))) = none) ∧
      (DamageDetected base earlier op later ↔ op.2.length + 10 < 2^32 ∨ (op.2.length + 10) % 2^32 < 10) := by
  constructor
  · intro io current walOffset entries file written before first second after split window
    rcases SnapshotStore.write_cases io current walOffset entries with stored | ⟨failure,failed⟩
    · obtain rfl : file = SnapshotStore.encode walOffset entries :=
        Option.some.inj (Prod.mk.inj (written.symm.trans stored)).2
      exact snapshot_damaged walOffset entries before first second after split window
    · exact absurd (written.symm.trans failed) (by simp)
  · constructor
    · intro detected
      by_contra oversized
      exact damage_undetected base earlier op later whole oversized detected
    · exact damage_detected base earlier op later whole

/-- A flipped bit of the magic number, and a log of two records. -/
theorem corruption_detected_small :
    SnapshotStore.read (some (0x4F::(SnapshotStore.encode 0 []).drop 1)) = none ∧
      DamageDetected 0 [(.set,[1])] (.del,[2]) [] := by
  obtain ⟨snapshots,logs⟩ := corruption_detected 0 [(.set,[1])] (.del,[2]) [] ⟨by decide,by decide⟩
  constructor
  · -- neither fact about the file needs its checksum
    have returned : (SnapshotStore.write ⟨[],true,true,true⟩ none 0 []).1 = .ok () := rfl
    have first : (SnapshotStore.encode 0 []).take 1 = [0x4E] := rfl
    rcases SnapshotStore.write_cases ⟨[],true,true,true⟩ none 0 [] with stored | ⟨failure,failed⟩
    · have split : SnapshotStore.encode 0 [] = [] ++ ([0x4E] ++ (SnapshotStore.encode 0 []).drop 1) := by
        rw [List.nil_append,← first,List.take_append_drop]
      exact snapshots _ none 0 [] _ stored [] [0x4E] [0x4F] _ split ⟨rfl,by decide,by decide⟩
    · rw [failed] at returned
      cases returned
  · exact logs.mpr (Or.inl (by decide))

theorem oversized_undetected (payload : Bytes) (size : payload.length = 2^32) :
    ¬ DamageDetected 0 [] (.set,payload) [] := by
  refine damage_undetected 0 [] (.set,payload) [] ⟨by simp,by decide⟩ ?_
  simp only [Announced,bodyLength,recordAfter,size]
  decide

/-- A payload of 2^32 bytes is announced as a body of ten bytes. Four further bytes changed
into their checksum turn these into a record that recovery returns. -/
theorem corruption_forged : ¬ DamageDetected 0 [] (.set,List.replicate (2^32) 0) [] :=
  oversized_undetected _ List.length_replicate

end NovaCache.Persistence
