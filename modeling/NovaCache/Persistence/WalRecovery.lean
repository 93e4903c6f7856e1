import NovaCache.Persistence.WalScan

/-! Recovery over arbitrary file contents. The header decides whether the scan runs at
all; below it the scan is exact up to the length fields whose 32-bit sums wrap. -/
namespace NovaCache.Persistence
open WalWriter

def headerWith (reserved : UInt32) : Bytes := appendU32 (appendU32 magic version) reserved

def freshWriter (last : UInt64) : WalWriter := ⟨⟨header,16⟩,true,last⟩

def writerAt (reserved : UInt32) (records : List WalRecord) (last : UInt64) : WalWriter :=
  ⟨⟨headerWith reserved ++ encodeLog records,16 + (encodeLog records).length⟩,true,last⟩

@[simp] theorem headerWith_length (reserved : UInt32) : (headerWith reserved).length = 16 := by
  simp [headerWith,appendU32,magic]

theorem headerWith_eq (reserved : UInt32) :
    headerWith reserved = magic ++ (LittleEndian.encode 4 version.toNat ++
      LittleEndian.encode 4 reserved.toNat) := by
  simp [headerWith,appendU32]

theorem writeAll_nil (message : String) (file : File) (bytes : Bytes) (present : bytes ≠ []) :
    writeAll message [] file bytes = (.ok (),file.write bytes) := by
  rw [writeAll,if_neg (by simpa using present)]

theorem restart_empty (position : Nat) : restart ⟨[],position⟩ = .ok ([],freshWriter 0) := by
  have present : header ≠ [] := by decide
  simp only [restart,writeHeaderUnlocked,writeAll_nil _ _ _ present]
  rfl

theorem truncate_zero (bytes : Bytes) (position : Nat) :
    (⟨bytes,position⟩ : File).truncate 0 = ⟨[],position⟩ := by
  simp [File.truncate]

theorem openAndRecover_headed (reserved : UInt32) (rest : Bytes) :
    openAndRecover (headerWith reserved ++ rest) =
      (recordLoop (rest.length + 2) ⟨rest,16,0,[]⟩ >>= fun scan =>
        .ok (scan.records,⟨(if (headerWith reserved ++ rest).length ≠ scan.validEnd then
          (⟨headerWith reserved ++ rest,(headerWith reserved ++ rest).length⟩ : File).truncate scan.validEnd
          else ⟨headerWith reserved ++ rest,(headerWith reserved ++ rest).length⟩).seekEnd,
          true,scan.lastOffset⟩)) := by
  have size : (headerWith reserved ++ rest).length = 16 + rest.length := by simp
  have split : headerWith reserved ++ rest = magic ++ (LittleEndian.encode 4 version.toNat ++
      (LittleEndian.encode 4 reserved.toNat ++ rest)) := by
    rw [headerWith_eq]
    simp only [List.append_assoc]
  have found : magic.isPrefixOf (headerWith reserved ++ rest) = true := by
    rw [split]
    exact List.isPrefixOf_iff_prefix.mpr (List.prefix_append _ _)
  have removed : removePrefix (headerWith reserved ++ rest) 8 =
      .ok (LittleEndian.encode 4 version.toNat ++ (LittleEndian.encode 4 reserved.toNat ++ rest)) := by
    rw [split]
    exact removePrefix_append magic _
  have nonempty : ¬ (headerWith reserved ++ rest).length = 0 := by omega
  have whole : ¬ (headerWith reserved ++ rest).length < 16 := by omega
  simp only [openAndRecover,if_neg nonempty,if_neg whole,found,not_true,false_or,if_false,removed,
    ok_bind,readU32_append,ne_eq]
  rfl

theorem openAndRecover_scan (reserved : UInt32) (rest : Bytes) (records : List WalRecord) (writer : WalWriter)
    (ok : openAndRecover (headerWith reserved ++ rest) = .ok (records,writer)) :
    ∃ scan, recordLoop (rest.length + 2) ⟨rest,16,0,[]⟩ = .ok scan ∧ scan.records = records ∧
      scan.lastOffset = writer.lastOffset ∧ writer.file.bytes.length = scan.validEnd := by
  rw [openAndRecover_headed] at ok
  obtain ⟨scan,looped,rest⟩ := bind_success _ _ _ ok
  obtain ⟨rfl,rfl⟩ := Prod.mk.inj (Except.ok.inj rest)
  refine ⟨scan,looped,rfl,rfl,?_⟩
  simp only [File.seekEnd]
  split
  · simp only [File.truncate,List.length_append,List.length_take,List.length_replicate]
    omega
  · next same => exact Classical.not_not.mp same

theorem openAndRecover_short (content : Bytes) (short : content.length < 16) :
    openAndRecover content = .ok ([],freshWriter 0) := by
  by_cases empty : content.length = 0
  · have none : content = [] := List.length_eq_zero_iff.mp empty
    subst none
    exact restart_empty 0
  · simp only [openAndRecover,if_neg empty,if_pos short,truncate_zero,restart_empty]

/-- Any other content is replaced by a fresh header or rejected for its version. -/
theorem openAndRecover_unheaded (content : Bytes)
    (absent : ∀ reserved rest, content ≠ headerWith reserved ++ rest) :
    openAndRecover content = .ok ([],freshWriter 0) ∨
      openAndRecover content = .error (.runtimeError "unsupported WAL version") := by
  by_cases short : content.length < 16
  · exact Or.inl (openAndRecover_short content short)
  have empty : content.length ≠ 0 := by omega
  by_cases found : magic.isPrefixOf content = true
  · right
    obtain ⟨suffix,split⟩ := List.isPrefixOf_iff_prefix.mp found
    have size : 8 ≤ suffix.length := by
      have sizes := congrArg List.length split
      simp only [List.length_append,magic,List.length_cons,List.length_nil] at sizes
      omega
    obtain ⟨fileVersion,readVersion,splitVersion⟩ := readU32_split suffix (by omega)
    obtain ⟨reserved,readReserved,splitReserved⟩ := readU32_split (suffix.drop 4) (by simp; omega)
    have different : fileVersion ≠ version := by
      intro same
      apply absent reserved ((suffix.drop 4).drop 4)
      rw [headerWith_eq,List.append_assoc,List.append_assoc,← splitReserved,← same,← splitVersion,split]
    have removed : removePrefix content 8 = .ok suffix := by
      rw [← split]
      exact removePrefix_append magic suffix
    simp only [openAndRecover,if_neg empty,if_neg short,found,not_true,false_or,removed,
      ok_bind,readVersion,readReserved,if_pos different]
    rfl
  · left
    have rejected : ¬ magic.isPrefixOf content = true ∨ content.length < 16 := Or.inl found
    simp only [openAndRecover,if_neg empty,if_neg short,if_pos rejected,truncate_zero,restart_empty]

/-- The scan of a file steps over a run of records, with at least one round left. -/
theorem recordLoop_reaches (records : List WalRecord) (tail : Bytes)
    (fits : ∀ record ∈ records, bodyLength record < 2^32 - 8) (increasing : Increasing 0 records) :
    ∃ left, recordLoop ((encodeLog records ++ tail).length + 2) ⟨encodeLog records ++ tail,16,0,[]⟩ =
      recordLoop (left + 1) ⟨tail,16 + (encodeLog records).length,lastOffsetOf 0 records,records⟩ := by
  have size := log_length_le records
  have fuel : (encodeLog records ++ tail).length + 2 =
      records.length + (((encodeLog records ++ tail).length - records.length + 1) + 1) := by
    simp only [List.length_append]
    omega
  refine ⟨(encodeLog records ++ tail).length - records.length + 1,?_⟩
  rw [fuel,recordLoop_log records _ tail _ fits increasing rfl]
  rfl

/-- A log whose sums do not wrap, cut off where nothing more is accepted, is recovered
exactly, and the file is left holding the log. -/
theorem openAndRecover_log (reserved : UInt32) (records : List WalRecord) (tail : Bytes)
    (fits : ∀ record ∈ records, bodyLength record < 2^32 - 8) (increasing : Increasing 0 records)
    (absent : ¬ StartsRecord tail) (short : ¬ Overlong tail) :
    openAndRecover (headerWith reserved ++ (encodeLog records ++ tail)) =
      .ok (records,writerAt reserved records (lastOffsetOf 0 records)) := by
  obtain ⟨left,reaches⟩ := recordLoop_reaches records tail fits increasing
  rw [openAndRecover_headed,reaches,recordLoop_stops _ _ absent short]
  simp only [ok_bind,Except.ok.injEq,Prod.mk.injEq,true_and]
  have kept : ((headerWith reserved ++ (encodeLog records ++ tail)).take
      (16 + (encodeLog records).length)) = headerWith reserved ++ encodeLog records := by
    rw [← List.append_assoc,List.take_left' (by simp)]
  by_cases same : (headerWith reserved ++ (encodeLog records ++ tail)).length = 16 + (encodeLog records).length
  · have empty : tail = [] := by
      simp only [List.length_append,headerWith_length] at same
      exact List.length_eq_zero_iff.mp (by omega)
    subst empty
    simp [writerAt,File.seekEnd]
  · simp only [ne_eq,same,not_false_eq_true,if_true,File.truncate,kept,writerAt,File.seekEnd]
    simp [Nat.add_comm]

/-- The exceptions of the source, as opposed to undefined behaviour or an endless loop. -/
def IsException : Failure → Prop
  | .outOfRange => False
  | .unfinished => False
  | _ => True

def WellFormedLog (records : List WalRecord) : Prop :=
  (∀ record ∈ records, bodyLength record < 2^32) ∧ Increasing 0 records

def Holds (content : Bytes) (records : List WalRecord) (tail : Bytes) : Prop :=
  WellFormedLog records ∧ ∃ reserved, content = headerWith reserved ++ (encodeLog records ++ tail)

/-- Recovery returns or raises an exception without ever leaving the file buffer, and a
well-formed log followed by anything but a valid record is returned exactly. -/
def SafeRecovery (content : Bytes) : Prop :=
  (∀ failure, openAndRecover content = .error failure → IsException failure) ∧
    ∀ records tail, Holds content records tail → ¬ StartsRecord tail →
      ∃ writer, openAndRecover content = .ok (records,writer)

/-- No valid record is so long that its total size exceeds 32 bits. -/
def GiantFree (content : Bytes) : Prop :=
  ∀ records tail, Holds content records tail → ∀ record ∈ records, bodyLength record < 2^32 - 8

/-- No run of valid records is followed by a length field whose sum wraps below the bytes behind it. -/
def WrapFree (content : Bytes) : Prop :=
  ∀ records tail, Holds content records tail → ¬ Overlong tail

theorem holds_length (content : Bytes) (records : List WalRecord) (tail : Bytes)
    (holds : Holds content records tail) :
    content.length = 16 + (encodeLog records).length + tail.length := by
  obtain ⟨_,reserved,rfl⟩ := holds
  simp only [List.length_append,headerWith_length]
  omega

theorem record_length_le (records : List WalRecord) (record : WalRecord) (member : record ∈ records) :
    bodyLength record + 8 ≤ (encodeLog records).length := by
  rw [← encodeRecord_length]
  exact (List.sublist_flatten_of_mem (List.mem_map_of_mem member)).length_le

theorem giantFree_of_length (content : Bytes) (small : content.length < 2^32) : GiantFree content := by
  intro records tail holds record member
  have size := holds_length content records tail holds
  have part := record_length_le records record member
  omega

theorem openAndRecover_repeated (reserved : UInt32) (records : List WalRecord) (record : WalRecord)
    (rest : Bytes) (fits : ∀ record ∈ records, bodyLength record < 2^32 - 8)
    (increasing : Increasing 0 records) (bound : bodyLength record < 2^32)
    (repeated : record.offset ≤ lastOffsetOf 0 records) :
    openAndRecover (headerWith reserved ++ (encodeLog records ++ (encodeRecord record ++ rest))) =
      .error (.runtimeError "WAL offsets are not strictly increasing") := by
  obtain ⟨left,reaches⟩ := recordLoop_reaches records (encodeRecord record ++ rest) fits increasing
  rw [openAndRecover_headed,reaches,recordLoop]
  have long : ¬ (encodeRecord record ++ rest).length < 4 := by
    simp only [List.length_append,encodeRecord_length]
    omega
  rw [if_neg long,recordStep_complete _ record rest bound rfl,if_pos repeated]
  rfl

theorem openAndRecover_overlong (reserved : UInt32) (records : List WalRecord) (tail : Bytes)
    (fits : ∀ record ∈ records, bodyLength record < 2^32 - 8) (increasing : Increasing 0 records)
    (overlong : Overlong tail) :
    openAndRecover (headerWith reserved ++ (encodeLog records ++ tail)) = .error .outOfRange ∨
      openAndRecover (headerWith reserved ++ (encodeLog records ++ tail)) =
        .error (.runtimeError "truncated input while reading u32") := by
  obtain ⟨left,reaches⟩ := recordLoop_reaches records tail fits increasing
  have long : ¬ tail.length < 4 := by
    obtain ⟨length,rest,rfl,_⟩ := overlong
    simp only [List.length_append,LittleEndian.encode_length]
    omega
  rw [openAndRecover_headed,reaches,recordLoop,if_neg long]
  rcases recordStep_overlong ⟨tail,16 + (encodeLog records).length,lastOffsetOf 0 records,records⟩
    overlong with out | truncated
  · exact Or.inl (by rw [out]; rfl)
  · exact Or.inr (by rw [truncated]; rfl)

/-- Recovery is safe and exact precisely on the contents in which no length field wraps. -/
theorem recovery_safe_iff (content : Bytes) (giantFree : GiantFree content) :
    SafeRecovery content ↔ WrapFree content := by
  constructor
  · rintro ⟨exceptions,exact⟩ records tail holds overlong
    obtain ⟨writer,returned⟩ := exact records tail holds (overlong_not_startsRecord tail overlong)
    have fits := giantFree records tail holds
    obtain ⟨⟨_,increasing⟩,reserved,rfl⟩ := holds
    rcases openAndRecover_overlong reserved records tail fits increasing overlong with out | truncated
    · exact exceptions _ out
    · rw [truncated] at returned
      contradiction
  · intro wrapFree
    constructor
    · intro failure raised
      by_cases headed : ∃ reserved rest, content = headerWith reserved ++ rest
      · obtain ⟨reserved,rest,rfl⟩ := headed
        -- The longest run of records leaves the loop in one of two ways, both benign.
        obtain ⟨records,tail,rfl,bounds,increasing,final⟩ := log_decomposition 0 rest
        have holds : Holds (headerWith reserved ++ (encodeLog records ++ tail)) records tail :=
          ⟨⟨bounds,increasing⟩,reserved,rfl⟩
        have fits := giantFree records tail holds
        rcases final with absent | ⟨record,remaining,bound,rfl,repeated⟩
        · rw [openAndRecover_log reserved records tail fits increasing absent (wrapFree records tail holds)] at raised
          contradiction
        · rw [openAndRecover_repeated reserved records record remaining fits increasing bound repeated] at raised
          cases raised
          trivial
      · have absent : ∀ reserved rest, content ≠ headerWith reserved ++ rest :=
          fun reserved rest same => headed ⟨reserved,rest,same⟩
        rcases openAndRecover_unheaded content absent with fresh | rejected
        · rw [fresh] at raised
          contradiction
        · rw [rejected] at raised
          cases raised
          trivial
    · intro records tail holds absent
      have fits := giantFree records tail holds
      have short := wrapFree records tail holds
      obtain ⟨⟨_,increasing⟩,reserved,rfl⟩ := holds
      exact ⟨_,openAndRecover_log reserved records tail fits increasing absent short⟩

/-- The length field says where a record ends. -/
theorem encodeRecord_append_inj {one two : WalRecord} {rest more : Bytes} (first : bodyLength one < 2^32)
    (second : bodyLength two < 2^32) (same : encodeRecord one ++ rest = encodeRecord two ++ more) : rest = more := by
  have fields : LittleEndian.encode 4 (bodyLength one) = LittleEndian.encode 4 (bodyLength two) := by
    simp only [encodeRecord_eq,lengthField _ first,lengthField _ second,List.append_assoc] at same
    exact (List.append_inj same (by simp)).1
  have sizes := congrArg LittleEndian.decode fields
  rw [LittleEndian.decode_encode_of_lt 4 _ first,LittleEndian.decode_encode_of_lt 4 _ second] at sizes
  exact (List.append_inj same (by rw [encodeRecord_length,encodeRecord_length,sizes])).2

/-- A run of records ends where the longest one does, or in front of a record of it. -/
theorem encodeLog_tail {one two : List WalRecord} {rest tail : Bytes} (first : ∀ record ∈ one, bodyLength record < 2^32)
    (second : ∀ record ∈ two, bodyLength record < 2^32) (same : encodeLog one ++ rest = encodeLog two ++ tail)
    (absent : ¬ StartsRecord tail) : rest = tail ∨ StartsRecord rest := by
  induction one generalizing two with
  | nil =>
    cases two with
    | nil => exact Or.inl same
    | cons record two =>
      refine Or.inr ⟨record,encodeLog two ++ tail,second record List.mem_cons_self,?_⟩
      rw [← List.append_assoc,← encodeLog_cons]
      exact same
  | cons record one ih =>
    rw [encodeLog_cons,List.append_assoc] at same
    cases two with
    | nil => exact absurd ⟨record,_,first record List.mem_cons_self,same.symm⟩ absent
    | cons other two =>
      rw [encodeLog_cons,List.append_assoc] at same
      obtain ⟨bound,bounds⟩ := List.forall_mem_cons.mp first
      obtain ⟨limit,limits⟩ := List.forall_mem_cons.mp second
      exact ih bounds limits (encodeRecord_append_inj bound limit same)

/-- Of a log with a torn tail only the tail decides. -/
theorem wrapFree_of_tail {content tail : Bytes} {records : List WalRecord} (holds : Holds content records tail)
    (absent : ¬ StartsRecord tail) (short : ¬ Overlong tail) : WrapFree content := by
  rintro others rest ⟨⟨bounds,_⟩,reserved,split⟩ overlong
  obtain ⟨⟨limits,_⟩,other,same⟩ := holds
  have logs := (List.append_inj (split.symm.trans same) (by simp)).2
  rcases encodeLog_tail bounds limits logs absent with rfl | starts
  · exact short overlong
  · exact overlong_not_startsRecord rest overlong starts

/-- A record, and a torn one whose length field wraps without a byte behind it. -/
theorem recovery_safe_torn :
    openAndRecover (header ++ (encodeRecord ⟨1,.set,[7]⟩ ++ [0xFD,0xFF,0xFF,0xFF])) =
        .ok ([⟨1,.set,[7]⟩],writerAt 0 [⟨1,.set,[7]⟩] 1) ∧
      SafeRecovery (header ++ (encodeRecord ⟨1,.set,[7]⟩ ++ [0xFD,0xFF,0xFF,0xFF])) := by
  refine ⟨by decide +kernel,(recovery_safe_iff _ (giantFree_of_length _ (by decide +kernel))).mpr ?_⟩
  have torn : [0xFD,0xFF,0xFF,0xFF] = LittleEndian.encode 4 (0xFFFFFFFD : UInt32).toNat ++ [] := by decide
  refine @wrapFree_of_tail _ [0xFD,0xFF,0xFF,0xFF] [⟨1,.set,[7]⟩] ⟨⟨?_,?_⟩,0,rfl⟩ ?_ ?_
  · exact List.forall_mem_singleton.mpr (by decide)
  · exact ⟨by decide,trivial⟩
  · rintro ⟨record,rest,_,same⟩
    have size := congrArg List.length same
    rw [List.length_append,encodeRecord_length,bodyLength] at size
    simp only [List.length_cons,List.length_nil] at size
    omega
  · rintro ⟨length,rest,same,_,inside,_⟩
    rw [torn] at same
    obtain ⟨field,rfl⟩ := List.append_inj same (by simp)
    have equal := congrArg LittleEndian.decode field
    rw [LittleEndian.decode_encode_of_lt 4 _ (UInt32.toNat_lt _),LittleEndian.decode_encode_of_lt 4 _ (UInt32.toNat_lt _)] at equal
    rw [← equal] at inside
    simp at inside

/-- Twenty bytes suffice: the length field 0xFFFFFFFC passes the bounds check as zero. -/
theorem recovery_leaves_buffer : ¬ SafeRecovery (header ++ [0xFC,0xFF,0xFF,0xFF]) := by
  rintro ⟨exceptions,_⟩
  exact exceptions .outOfRange (by decide +kernel)

end NovaCache.Persistence
