import NovaCache.Persistence.WalCrash

/-! Runs of appends whose writes may fail. The error path leaves the stored part of the
record in the file and the descriptor behind it, so the next append writes there. -/
namespace NovaCache.Persistence
open WalWriter

structure Attempt where
  opcode : WalOpcode
  payload : Bytes
  results : List WriteResult

def runAppends (writer : WalWriter) : List Attempt → List WalRecord × WalWriter
  | [] => ([],writer)
  | attempt::rest =>
    match append attempt.results writer attempt.opcode attempt.payload with
    | (.error _,next) => runAppends next rest
    | (.ok offset,next) =>
      let (records,final) := runAppends next rest
      (⟨offset,attempt.opcode,attempt.payload⟩::records,final)

/-- How many of `size` bytes the listed results of `::write` store. -/
def storedCount : List WriteResult → Nat → Nat
  | [], size => size
  | .interrupted::rest, size => storedCount rest size
  | .failed::_, _ => 0
  | .wrote count::rest, size =>
    if count = 0 then 0 else min count size + storedCount rest (size - count)

theorem storedCount_zero (results : List WriteResult) : storedCount results 0 = 0 := by
  induction results with
  | nil => rfl
  | cons result rest ih =>
    cases result with
    | wrote count => simp [storedCount,ih]
    | interrupted => exact ih
    | failed => rfl

theorem storedCount_le (results : List WriteResult) (size : Nat) : storedCount results size ≤ size := by
  induction results generalizing size with
  | nil => exact Nat.le_refl size
  | cons result rest ih =>
    cases result with
    | wrote count =>
      rw [storedCount]
      split
      · exact Nat.zero_le size
      · have bound := ih (size - count)
        omega
    | interrupted => exact ih size
    | failed => exact Nat.zero_le size

/-- `write_all` returns if and only if the whole of its bytes is stored. -/
theorem writeAll_ok_iff (message : String) (results : List WriteResult) (file : File) (bytes : Bytes) :
    (writeAll message results file bytes).1 = .ok () ↔ storedCount results bytes.length = bytes.length := by
  induction results generalizing file bytes with
  | nil =>
    unfold writeAll
    split <;> simp [storedCount]
  | cons result rest ih =>
    unfold writeAll
    split
    · next empty =>
      rw [List.isEmpty_iff.mp empty]
      simp [storedCount_zero]
    · next present =>
      have positive : 0 < bytes.length := List.length_pos_iff.mpr (by simpa using present)
      cases result with
      | interrupted => exact ih file bytes
      | failed =>
        simp only [storedCount,reduceCtorEq,false_iff]
        omega
      | wrote count =>
        by_cases zero : count = 0
        · simp only [storedCount,if_pos zero,reduceCtorEq,false_iff]
          omega
        · simp only [storedCount,if_neg zero]
          rw [ih,List.length_drop]
          have bound := storedCount_le rest (bytes.length - count)
          omega

theorem File.write_write (file : File) (first second : Bytes) :
    (file.write first).write second = file.write (first ++ second) := by
  have front : (file.bytes.take file.position ++ List.replicate (file.position - file.bytes.length) 0).length =
      file.position := by
    rw [List.length_append,List.length_take,List.length_replicate]
    omega
  generalize marked : file.bytes.take file.position ++ List.replicate (file.position - file.bytes.length) 0 = start at front
  unfold File.write
  rw [marked]
  dsimp only
  have whole : (start ++ first ++ file.bytes.drop (file.position + first.length)).take (file.position + first.length) =
      start ++ first := by
    apply List.take_left'
    rw [List.length_append,front]
  have behind : (start ++ first ++ file.bytes.drop (file.position + first.length)).drop
      (file.position + first.length + second.length) = file.bytes.drop (file.position + (first ++ second).length) := by
    rw [← List.drop_drop,List.drop_left' (by rw [List.length_append,front]),List.drop_drop,List.length_append,
      Nat.add_assoc]
  have gap : file.position + first.length -
      (start ++ first ++ file.bytes.drop (file.position + first.length)).length = 0 := by
    rw [List.length_append,List.length_append,front]
    omega
  rw [whole,behind,gap,List.length_append,← Nat.add_assoc]
  simp only [List.replicate_zero,List.append_nil,List.append_assoc]

/-- Whatever the single calls stored, a `write_all` that returns has written its bytes. -/
theorem writeAll_written (message : String) (results : List WriteResult) (file : File) (bytes : Bytes)
    (present : bytes ≠ []) (returned : (writeAll message results file bytes).1 = .ok ()) :
    (writeAll message results file bytes).2 = file.write bytes := by
  have filled : ¬ bytes.isEmpty = true := fun empty => present (List.isEmpty_iff.mp empty)
  induction results generalizing file bytes with
  | nil =>
    unfold writeAll
    rw [if_neg filled]
  | cons result rest ih =>
    unfold writeAll at returned ⊢
    rw [if_neg filled] at returned ⊢
    cases result with
    | interrupted => exact ih file bytes present returned filled
    | failed => cases returned
    | wrote count =>
      dsimp only at returned ⊢
      by_cases zero : count = 0
      · rw [if_pos zero] at returned
        cases returned
      · rw [if_neg zero] at returned ⊢
        by_cases last : bytes.drop count = []
        · have taken : bytes.take count = bytes := List.take_of_length_le (List.drop_eq_nil_iff.mp last)
          rw [last,taken]
          unfold writeAll
          rfl
        · rw [ih _ _ last returned fun empty => last (List.isEmpty_iff.mp empty),File.write_write,List.take_append_drop]

theorem writeAll_file (message : String) (results : List WriteResult) (content bytes : Bytes) :
    (writeAll message results ⟨content,content.length⟩ bytes).2 =
      ⟨content ++ bytes.take (storedCount results bytes.length),
        content.length + storedCount results bytes.length⟩ := by
  induction results generalizing content bytes with
  | nil =>
    unfold writeAll
    split
    · next empty =>
      rw [List.isEmpty_iff.mp empty]
      simp [storedCount]
    · simp [storedCount,write_at_end]
  | cons result rest ih =>
    unfold writeAll
    split
    · next empty =>
      rw [List.isEmpty_iff.mp empty]
      simp [storedCount_zero]
    · cases result with
      | interrupted => exact ih content bytes
      | failed => simp [storedCount]
      | wrote count =>
        by_cases zero : count = 0
        · simp [storedCount,zero]
        · simp only [storedCount,if_neg zero,write_at_end]
          have shifted := ih (content ++ bytes.take count) (bytes.drop count)
          rw [List.length_append] at shifted
          rw [shifted,List.length_drop]
          have bound := storedCount_le rest (bytes.length - count)
          have joined : bytes.take count ++ (bytes.drop count).take (storedCount rest (bytes.length - count)) =
              bytes.take (min count bytes.length + storedCount rest (bytes.length - count)) := by
            rw [← List.take_add]
            by_cases inside : count ≤ bytes.length
            · rw [Nat.min_eq_left inside]
            · rw [List.take_of_length_le (by omega),List.take_of_length_le (by omega)]
          rw [List.append_assoc,joined,List.length_take,Nat.add_assoc]

/-- At the end of a file `write_all` leaves exactly the stored part of its bytes, and it
returns if and only if that part is the whole. -/
theorem writeAll_stored (message : String) (results : List WriteResult) (content bytes : Bytes) :
    (writeAll message results ⟨content,content.length⟩ bytes).2 =
        ⟨content ++ bytes.take (storedCount results bytes.length),
          content.length + storedCount results bytes.length⟩ ∧
      ((writeAll message results ⟨content,content.length⟩ bytes).1 = .ok () ↔
        storedCount results bytes.length = bytes.length) :=
  ⟨writeAll_file message results content bytes,writeAll_ok_iff message results _ bytes⟩

def Attempt.size (attempt : Attempt) : Nat := attempt.payload.length + 18

def Attempt.Torn (attempt : Attempt) : Prop :=
  0 < storedCount attempt.results attempt.size ∧ storedCount attempt.results attempt.size < attempt.size

/-- Nothing is stored behind a torn record. -/
def Untorn : List Attempt → Prop
  | [] => True
  | attempt::rest =>
    (attempt.Torn → ∀ later ∈ rest, storedCount later.results later.size = 0) ∧ Untorn rest

def writerEnd (content : Bytes) (last : UInt64) : WalWriter := ⟨⟨content,content.length⟩,true,last⟩

theorem writerAt_eq (records : List WalRecord) (last : UInt64) :
    writerAt 0 records last = writerEnd (header ++ encodeLog records) last := by
  simp [writerAt,writerEnd,header_eq]

theorem append_attempt (content : Bytes) (last : UInt64) (attempt : Attempt) :
    let record : WalRecord := ⟨last + 1,attempt.opcode,attempt.payload⟩
    let stored := storedCount attempt.results attempt.size
    let outcome := append attempt.results (writerEnd content last) attempt.opcode attempt.payload
    (stored = attempt.size → outcome = (.ok (last + 1),writerEnd (content ++ encodeRecord record) (last + 1))) ∧
      (stored < attempt.size → ∃ failure, outcome =
        (.error failure,writerEnd (content ++ (encodeRecord record).take stored) last)) := by
  intro record stored outcome
  have size : (encodeRecord record).length = attempt.size := encodeRecord_length record
  have written := writeAll_stored "short write to WAL" attempt.results content (encodeRecord record)
  rw [size] at written
  have unfolded : outcome = append attempt.results (writerEnd content last) attempt.opcode attempt.payload := rfl
  rw [append,if_neg (by simp [writerEnd])] at unfolded
  dsimp only [writerEnd] at unfolded
  cases result : writeAll "short write to WAL" attempt.results ⟨content,content.length⟩ (encodeRecord record) with
  | mk returned file =>
    rw [result] at written unfolded
    obtain ⟨rfl,returns⟩ := written
    constructor
    · intro whole
      obtain rfl : returned = .ok () := returns.mpr whole
      have taken : (encodeRecord record).take (storedCount attempt.results attempt.size) = encodeRecord record :=
        List.take_of_length_le (by omega)
      rw [unfolded]
      simp only [taken,writerEnd,List.length_append,size]
      change storedCount attempt.results attempt.size = attempt.size at whole
      rw [whole]
    · intro partly
      cases returned with
      | ok value => exact absurd (returns.mp rfl) (by omega)
      | error failure =>
        refine ⟨failure,?_⟩
        have length : ((encodeRecord record).take stored).length = stored := by
          rw [List.length_take]
          omega
        rw [unfolded]
        simp only [writerEnd,List.length_append,length]
        rfl

theorem runAppends_silent (content : Bytes) (last : UInt64) (attempts : List Attempt)
    (silent : ∀ attempt ∈ attempts, storedCount attempt.results attempt.size = 0) :
    runAppends (writerEnd content last) attempts = ([],writerEnd content last) := by
  induction attempts with
  | nil => rfl
  | cons attempt rest ih =>
    have nothing := silent attempt (by simp)
    obtain ⟨failure,failed⟩ := (append_attempt content last attempt).2 (by
      rw [nothing]
      exact Nat.succ_pos _)
    rw [nothing,List.take_zero,List.append_nil] at failed
    rw [runAppends,failed]
    exact ih (fun later member => silent later (by simp [member]))

/-- Every acknowledged append on a writer that stands behind `records` is returned by a
later recovery of the file, in order and behind those records. -/
def AcknowledgedSurvive (records : List WalRecord) (attempts : List Attempt) : Prop :=
  let run := runAppends (writerAt 0 records (lastOffsetOf 0 records)) attempts
  ∃ recovered final, openAndRecover run.2.file.bytes = .ok (recovered,final) ∧
    (records ++ run.1).Sublist recovered

/-- As long as nothing is stored behind a torn record, no acknowledged append is lost. -/
theorem acknowledged_survive (records : List WalRecord) (attempts : List Attempt)
    (fits : ∀ record ∈ records, bodyLength record < 2^32 - 8) (increasing : Increasing 0 records)
    (bounded : ∀ attempt ∈ attempts, attempt.size < 2^32)
    (room : (lastOffsetOf 0 records).toNat + attempts.length < 2^64)
    (untorn : Untorn attempts) : AcknowledgedSurvive records attempts := by
  induction attempts generalizing records with
  | nil =>
    have recovered := openAndRecover_log 0 records [] fits increasing empty_not_startsRecord empty_not_overlong
    rw [List.append_nil] at recovered
    exact ⟨records,_,recovered,by simp [runAppends]⟩
  | cons attempt rest ih =>
    obtain ⟨stops,later⟩ := untorn
    have smaller : ∀ a ∈ rest, a.size < 2^32 := fun a member => bounded a (by simp [member])
    rw [List.length_cons] at room
    let record : WalRecord := ⟨lastOffsetOf 0 records + 1,attempt.opcode,attempt.payload⟩
    have bound : bodyLength record < 2^32 - 8 := by
      have small : attempt.payload.length + 18 < 2^32 := bounded attempt (by simp)
      change attempt.payload.length + 10 < 2^32 - 8
      omega
    have step := append_attempt (header ++ encodeLog records) (lastOffsetOf 0 records) attempt
    rw [← writerAt_eq] at step
    unfold AcknowledgedSurvive
    rcases Nat.lt_or_eq_of_le (storedCount_le attempt.results attempt.size) with part | whole
    · obtain ⟨failure,failed⟩ := step.2 part
      by_cases nothing : storedCount attempt.results attempt.size = 0
      · -- A failure that stored nothing leaves the writer as it was.
        rw [nothing,List.take_zero,List.append_nil,← writerAt_eq] at failed
        simp only [runAppends,failed]
        exact ih records fits increasing smaller (by omega) later
      · have silent := stops ⟨Nat.pos_of_ne_zero nothing,part⟩
        have recovered := openAndRecover_log 0 records _ fits increasing
          (torn_not_startsRecord record _ (by omega) (by rw [encodeRecord_length]; exact part))
          (torn_not_overlong record (storedCount attempt.results attempt.size) (by omega))
        rw [← List.append_assoc] at recovered
        simp only [runAppends,failed,runAppends_silent _ _ _ silent,List.append_nil]
        exact ⟨records,_,recovered,List.Sublist.refl _⟩
    · have next := offset_succ (lastOffsetOf 0 records) (by omega)
      have last : lastOffsetOf 0 (records ++ [record]) = lastOffsetOf 0 records + 1 := lastOffsetOf_concat 0 _ _
      have larger : Increasing 0 (records ++ [record]) := by
        refine (increasing_concat 0 records record).mpr ⟨increasing,UInt64.lt_iff_toNat_lt.mpr ?_⟩
        change _ < (lastOffsetOf 0 records + 1).toNat
        omega
      have extended := ih (records ++ [record])
        (List.forall_mem_append.mpr ⟨fits,List.forall_mem_singleton.mpr bound⟩) larger smaller
        (by rw [last]; omega) later
      have stored := step.1 whole
      rw [List.append_assoc,show encodeLog records ++ encodeRecord record = encodeLog (records ++ [record]) by
        simp [encodeLog],← writerAt_eq] at stored
      unfold AcknowledgedSurvive at extended
      simp only [last,List.append_assoc,List.singleton_append] at extended
      simp only [runAppends,stored]
      exact extended

/-- An append that fails before storing a byte, one that succeeds, and a torn one. -/
theorem acknowledged_survive_example :
    AcknowledgedSurvive [] [⟨.set,[1],[.failed]⟩,⟨.del,[2],[.interrupted,.wrote 5]⟩,⟨.set,[3],[.wrote 7,.failed]⟩] := by
  refine acknowledged_survive [] _ (by simp) trivial (by decide) (by decide) ?_
  refine ⟨fun torn => absurd torn.1 (by decide),fun torn => absurd torn.2 (by decide),fun _ => by simp,trivial⟩

/-- One byte of a failed append is enough: the next append is acknowledged and lost. -/
theorem acknowledged_lost :
    ¬ AcknowledgedSurvive [] [⟨.set,[1],[.wrote 1,.failed]⟩,⟨.set,[2],[]⟩] := by
  rintro ⟨recovered,final,returned,kept⟩
  have none : (openAndRecover (runAppends (writerAt 0 [] 0)
      [⟨.set,[1],[.wrote 1,.failed]⟩,⟨.set,[2],[]⟩]).2.file.bytes).toOption.map Prod.fst = some [] := by
    decide +kernel
  have empty : recovered = [] := by
    change openAndRecover (runAppends (writerAt 0 [] 0) _).2.file.bytes = _ at returned
    rw [returned] at none
    exact Option.some.inj none
  have one : (runAppends (writerAt 0 [] 0) [⟨.set,[1],[.wrote 1,.failed]⟩,⟨.set,[2],[]⟩]).1.length = 1 := by
    decide +kernel
  have size := kept.length_le
  rw [empty] at size
  change ([] ++ (runAppends (writerAt 0 [] 0) _).1).length ≤ 0 at size
  rw [List.nil_append,one] at size
  omega

end NovaCache.Persistence
