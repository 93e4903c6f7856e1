import NovaCache.Persistence.WalCrash

/-! Recovery as a normal form of the log: what it leaves in the file is the encoding of
what it returned, and recovering that file again changes nothing. The exception is a
record whose total size exceeds 32 bits, which the scan returns but does not step over. -/
namespace NovaCache.Persistence
open WalWriter

structure Settled (reserved : UInt32) (records : List WalRecord) (writer : WalWriter) : Prop where
  kept : writer.file.bytes = headerWith reserved ++ encodeLog records
  increasing : Increasing 0 records
  last : writer.lastOffset = lastOffsetOf 0 records
  again : openAndRecover writer.file.bytes = .ok (records,writer)

/-- A valid record behind a run that the scan steps over is among the returned ones. -/
theorem record_returned (reserved : UInt32) (before : List WalRecord) (record : WalRecord) (tail : Bytes)
    (returned : List WalRecord) (writer : WalWriter) (fits : ∀ record ∈ before, bodyLength record < 2^32 - 8)
    (bound : bodyLength record < 2^32) (increasing : Increasing 0 (before ++ [record]))
    (ok : openAndRecover (headerWith reserved ++ (encodeLog before ++ (encodeRecord record ++ tail))) =
      .ok (returned,writer)) : record ∈ returned := by
  obtain ⟨order,fresh⟩ := (increasing_concat 0 before record).mp increasing
  obtain ⟨scan,looped,rfl,_⟩ := openAndRecover_scan _ _ _ _ ok
  obtain ⟨left,reaches⟩ := recordLoop_reaches before (encodeRecord record ++ tail) fits order
  have long : ¬ (encodeRecord record ++ tail).length < 4 := by
    simp only [List.length_append,encodeRecord_length]
    omega
  rw [reaches,recordLoop,if_neg long,
    recordStep_complete _ record tail bound rfl,if_neg (UInt64.not_le.mpr fresh)] at looped
  obtain ⟨more,collected,_⟩ := recordLoop_accepted _ _ _ looped
  rw [collected]
  simp

theorem giantFree_of_returned (reserved : UInt32) (rest : Bytes) (returned : List WalRecord) (writer : WalWriter)
    (ok : openAndRecover (headerWith reserved ++ rest) = .ok (returned,writer))
    (fits : ∀ record ∈ returned, bodyLength record < 2^32 - 8) : GiantFree (headerWith reserved ++ rest) := by
  intro records
  -- The scan reaches each record of a run because it steps over all those before it.
  induction records using List.reverseRecOn with
  | nil => exact fun _ _ => List.forall_mem_nil _
  | append_singleton before record ih =>
    rintro tail ⟨⟨bounds,increasing⟩,other,same⟩
    obtain ⟨boundsBefore,boundsRecord⟩ := List.forall_mem_append.mp bounds
    have bound := List.forall_mem_singleton.mp boundsRecord
    have split : headerWith reserved ++ rest =
        headerWith other ++ (encodeLog before ++ (encodeRecord record ++ tail)) := by
      rw [same,encodeLog_append]
      simp [encodeLog]
    have earlier := ih (encodeRecord record ++ tail)
      ⟨⟨boundsBefore,((increasing_concat 0 before record).mp increasing).1⟩,other,split⟩
    rw [split] at ok
    have member := record_returned other before record tail returned writer earlier bound increasing ok
    exact List.forall_mem_append.mpr ⟨earlier,List.forall_mem_singleton.mpr (fits record member)⟩

theorem Settled.fits {reserved : UInt32} {rest : Bytes} {records : List WalRecord} {writer : WalWriter}
    (settled : Settled reserved records writer)
    (ok : openAndRecover (headerWith reserved ++ rest) = .ok (records,writer)) :
    ∀ record ∈ records, bodyLength record < 2^32 - 8 := by
  obtain ⟨scan,looped,rfl,_,size⟩ := openAndRecover_scan _ _ _ _ ok
  obtain ⟨records,collected,_,_,_,ended⟩ := recordLoop_accepted _ _ _ looped
  obtain rfl : scan.records = records := collected
  dsimp only at ended
  have kept := congrArg List.length settled.kept
  rw [size,ended,List.length_append,headerWith_length] at kept
  exact fits_of_wrapped_length scan.records (by omega)

theorem settled_log (reserved : UInt32) (records : List WalRecord)
    (fits : ∀ record ∈ records, bodyLength record < 2^32 - 8) (increasing : Increasing 0 records) :
    Settled reserved records (writerAt reserved records (lastOffsetOf 0 records)) := by
  refine ⟨rfl,increasing,rfl,?_⟩
  have again := openAndRecover_log reserved records [] fits increasing empty_not_startsRecord empty_not_overlong
  rwa [List.append_nil] at again

theorem settled_of_giantFree {reserved : UInt32} {rest : Bytes} {records : List WalRecord} {writer : WalWriter}
    (ok : openAndRecover (headerWith reserved ++ rest) = .ok (records,writer))
    (giantFree : GiantFree (headerWith reserved ++ rest)) : Settled reserved records writer := by
  obtain ⟨run,tail,rfl,bounds,increasing,final⟩ := log_decomposition 0 rest
  have fits := giantFree run tail ⟨⟨bounds,increasing⟩,reserved,rfl⟩
  -- The other two ways to leave the loop raise an exception or leave the buffer.
  rcases final with absent | ⟨record,remaining,bound,rfl,repeated⟩
  · by_cases overlong : Overlong tail
    · rcases openAndRecover_overlong reserved run tail fits increasing overlong with out | truncated
      · exact absurd (out.symm.trans ok) (by simp)
      · exact absurd (truncated.symm.trans ok) (by simp)
    · have exact := openAndRecover_log reserved run tail fits increasing absent overlong
      obtain ⟨rfl,rfl⟩ := Prod.mk.inj (Except.ok.inj (ok.symm.trans exact))
      exact settled_log reserved records fits increasing
  · have raised := openAndRecover_repeated reserved run record remaining fits increasing bound repeated
    exact absurd (raised.symm.trans ok) (by simp)

/-- A file without a header is begun anew. -/
theorem settled_reopened {content : Bytes} {records : List WalRecord} {writer : WalWriter}
    (ok : openAndRecover content = .ok (records,writer)) (giantFree : GiantFree content) :
    ∃ reserved, Settled reserved records writer := by
  by_cases headed : ∃ reserved rest, content = headerWith reserved ++ rest
  · obtain ⟨reserved,rest,rfl⟩ := headed
    exact ⟨reserved,settled_of_giantFree ok giantFree⟩
  · rcases openAndRecover_unheaded content fun reserved rest same => headed ⟨reserved,rest,same⟩ with fresh | rejected
    · obtain ⟨rfl,rfl⟩ := Prod.mk.inj (Except.ok.inj (ok.symm.trans fresh))
      rw [freshWriter_eq]
      exact ⟨0,settled_log 0 [] (List.forall_mem_nil _) trivial⟩
    · cases ok.symm.trans rejected

/-- Whenever recovery returns, it keeps exactly what it returns if and only if no valid
record is too long for the 32-bit sum of its parts. -/
theorem recovery_settles_iff (reserved : UInt32) (rest : Bytes) (records : List WalRecord) (writer : WalWriter)
    (ok : openAndRecover (headerWith reserved ++ rest) = .ok (records,writer)) :
    Settled reserved records writer ↔ GiantFree (headerWith reserved ++ rest) := by
  constructor
  · intro settled
    exact giantFree_of_returned reserved rest records writer ok (settled.fits ok)
  · exact settled_of_giantFree ok

/-- One record and two bytes of a torn one. -/
theorem recovery_settles_torn :
    Settled 0 [⟨1,.set,[]⟩] (writerAt 0 [⟨1,.set,[]⟩] 1) := by
  have ok : openAndRecover (headerWith 0 ++ (encodeRecord ⟨1,.set,[]⟩ ++ [7,7])) =
      .ok ([⟨1,.set,[]⟩],writerAt 0 [⟨1,.set,[]⟩] 1) := by decide +kernel
  refine (recovery_settles_iff 0 _ _ _ ok).mpr (giantFree_of_length _ ?_)
  decide +kernel

theorem giant_scanned (payload : Bytes) (giant : payload.length = 2^32 - 14) (fuel : Nat) :
    recordLoop (fuel + 2) ⟨encodeRecord ⟨1,.set,payload⟩,16,0,[]⟩ =
      .ok ⟨(encodeRecord ⟨1,.set,payload⟩).drop 4,20,1,[⟨1,.set,payload⟩]⟩ := by
  have size : bodyLength ⟨1,.set,payload⟩ = 2^32 - 4 := by
    simp only [bodyLength]
    omega
  have step := recordStep_complete ⟨encodeRecord ⟨1,.set,payload⟩,16,0,[]⟩ ⟨1,.set,payload⟩ []
    (by omega) (List.append_nil _).symm
  have first : ¬ (1 : UInt64) ≤ 0 := by decide
  have four : (2^32 - 4 + 8) % 2^32 = 4 := by decide
  rw [size,if_neg first,four] at step
  have long : ¬ (encodeRecord ⟨1,.set,payload⟩).length < 4 := by
    rw [encodeRecord_length]
    omega
  rw [recordLoop,if_neg long,step]
  simp only [Nat.reduceAdd,List.nil_append]
  -- Four bytes further the offset is read as a length, which is below ten.
  have shifted : (encodeRecord ⟨1,.set,payload⟩).drop 4 = LittleEndian.encode 4 (1 : UInt32).toNat ++
      ([0,0,0,0] ++ (LittleEndian.encode 2 WalOpcode.set.code.toNat ++ payload) ++
        LittleEndian.encode 4 (crc32 (bodyOf ⟨1,.set,payload⟩)).toNat) := by
    rw [encodeRecord_eq,List.drop_left' (by simp)]
    nth_rewrite 1 [bodyOf_eq]
    rw [show LittleEndian.encode 8 (1 : UInt64).toNat =
      LittleEndian.encode 4 (1 : UInt32).toNat ++ [0,0,0,0] by decide]
    simp only [List.append_assoc]
  have still : ¬ ((encodeRecord ⟨1,.set,payload⟩).drop 4).length < 4 := by
    rw [List.length_drop,encodeRecord_length]
    omega
  have stopped : recordStep ⟨(encodeRecord ⟨1,.set,payload⟩).drop 4,20,1,[⟨1,.set,payload⟩]⟩ = .ok none := by
    simp only [recordStep,shifted,readU32_append]
    rw [if_pos (Or.inl (by decide))]
  rw [recordLoop,if_neg still,stopped]

theorem giant_recovered (payload : Bytes) (giant : payload.length = 2^32 - 14) :
    openAndRecover (headerWith 0 ++ encodeRecord ⟨1,.set,payload⟩) =
      .ok ([⟨1,.set,payload⟩],⟨⟨headerWith 0 ++ [0xFC,0xFF,0xFF,0xFF],20⟩,true,1⟩) := by
  have field : (encodeRecord ⟨1,.set,payload⟩).take 4 = [0xFC,0xFF,0xFF,0xFF] := by
    have size : bodyLength ⟨1,.set,payload⟩ = 2^32 - 4 := by
      simp only [bodyLength]
      omega
    rw [encodeRecord_eq,List.take_left' (by simp),size]
    decide
  have scanned := giant_scanned payload giant (encodeRecord ⟨1,.set,payload⟩).length
  have ok := openAndRecover_headed 0 (encodeRecord ⟨1,.set,payload⟩)
  have size : (headerWith 0 ++ encodeRecord ⟨1,.set,payload⟩).length = 2^32 + 20 := by
    simp only [List.length_append,headerWith_length,encodeRecord_length,bodyLength]
    omega
  have kept : (headerWith 0 ++ encodeRecord ⟨1,.set,payload⟩).take 20 = headerWith 0 ++ [0xFC,0xFF,0xFF,0xFF] := by
    rw [List.take_append,headerWith_length,List.take_of_length_le (by rw [headerWith_length]; decide),field]
  rw [scanned,ok_bind] at ok
  simp only [size] at ok
  rw [ok,if_pos (by decide),File.truncate,File.seekEnd]
  simp [kept,size]

/-- A record with a body of 2^32 - 4 bytes is returned, but the scan advances by four bytes only
and the file is cut to twenty: the record is gone, and the next recovery leaves the buffer. -/
theorem recovery_drops_returned :
    openAndRecover (headerWith 0 ++ encodeRecord ⟨1,.set,List.replicate (2^32 - 14) 0⟩) =
        .ok ([⟨1,.set,List.replicate (2^32 - 14) 0⟩],⟨⟨headerWith 0 ++ [0xFC,0xFF,0xFF,0xFF],20⟩,true,1⟩) ∧
      openAndRecover (headerWith 0 ++ [0xFC,0xFF,0xFF,0xFF]) = .error .outOfRange ∧
      ¬ Settled 0 [⟨1,.set,List.replicate (2^32 - 14) 0⟩] ⟨⟨headerWith 0 ++ [0xFC,0xFF,0xFF,0xFF],20⟩,true,1⟩ := by
  have cut : openAndRecover (headerWith 0 ++ [0xFC,0xFF,0xFF,0xFF]) = .error .outOfRange := by decide +kernel
  refine ⟨giant_recovered _ List.length_replicate,cut,fun settled => ?_⟩
  cases settled.again.symm.trans cut

end NovaCache.Persistence
