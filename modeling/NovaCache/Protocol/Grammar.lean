import NovaCache.Protocol.Parser
import Mathlib.Data.List.TakeWhile

/-! The grammar of the accepted frames and of the input that no frame can extend, stated
without the parser, and the proof that the parser decides both. -/
namespace NovaCache.Protocol
open Incremental

/-- An optional minus and at least one digit, within 64 signed bits. -/
def Numeral (text : Bytes) (number : Int) : Prop :=
  -2^63 ≤ number ∧ number < 2^63 ∧ ∃ digits : Bytes, digits ≠ [] ∧ (∀ byte ∈ digits, Decimal.isDigit byte = true) ∧
    (text = digits ∧ number = Decimal.value digits ∨ text = minus::digits ∧ number = -Decimal.value digits)

mutual
/-- The bytes of one value at a depth. -/
inductive Frame (limits : ParserLimits) : Nat → RespValue → Bytes → Prop
  | simple (depth : Nat) (text : Bytes) (clean : Clean text) :
      Frame limits depth (.simple text) (plus::(text ++ crlf))
  | error (depth : Nat) (text : Bytes) (clean : Clean text) :
      Frame limits depth (.error text) (minus::(text ++ crlf))
  | integer (depth : Nat) (text : Bytes) (number : Int64) (numeral : Numeral text number.toInt) :
      Frame limits depth (.integer number) (colon::(text ++ crlf))
  | nullBulk (depth : Nat) (text : Bytes) (numeral : Numeral text (-1)) :
      Frame limits depth (.bulk none) (dollar::(text ++ crlf))
  | bulk (depth : Nat) (text payload : Bytes) (numeral : Numeral text payload.length)
      (bound : payload.length ≤ limits.maxBulkSize) :
      Frame limits depth (.bulk (some payload)) (dollar::(text ++ (crlf ++ (payload ++ crlf))))
  | nullArray (depth : Nat) (text : Bytes) (numeral : Numeral text (-1)) (room : depth < limits.maxDepth) :
      Frame limits depth (.array none) (asterisk::(text ++ crlf))
  | array (depth : Nat) (text body : Bytes) (items : List RespValue) (numeral : Numeral text items.length)
      (bound : items.length ≤ limits.maxArraySize) (room : depth < limits.maxDepth)
      (frames : Frames limits (depth + 1) items body) :
      Frame limits depth (.array (some items)) (asterisk::(text ++ (crlf ++ body)))
inductive Frames (limits : ParserLimits) : Nat → List RespValue → Bytes → Prop
  | nil (depth : Nat) : Frames limits depth [] []
  | cons (depth : Nat) (item : RespValue) (items : List RespValue) (first rest : Bytes)
      (head : Frame limits depth item first) (tail : Frames limits depth items rest) :
      Frames limits depth (item::items) (first ++ rest)
end

inductive BadEnding : Fault → Bytes → Prop
  | feed : BadEnding ⟨.malformed,"line feed without preceding carriage return"⟩ [lineFeed]
  | carriage (byte : UInt8) (other : byte ≠ lineFeed) :
      BadEnding ⟨.malformed,"carriage return not followed by line feed"⟩ [carriageReturn,byte]

inductive BadTerminator : Bytes → Prop
  | first (byte : UInt8) (other : byte ≠ carriageReturn) : BadTerminator [byte]
  | second (byte : UInt8) (other : byte ≠ lineFeed) : BadTerminator [carriageReturn,byte]

def types : List UInt8 := [plus,minus,colon,dollar,asterisk]

/-- The shortest input that shows a violation of the grammar, with what is reported. -/
inductive Violation (limits : ParserLimits) : Nat → Fault → Bytes → Prop
  | type (depth : Nat) (byte : UInt8) (unknown : byte ∉ types) :
      Violation limits depth ⟨.malformed,"unknown RESP type prefix"⟩ [byte]
  | line (depth : Nat) (type : UInt8) (text broken : Bytes) (fault : Fault) (known : type ∈ types)
      (clean : Clean text) (ending : BadEnding fault broken) : Violation limits depth fault (type::(text ++ broken))
  | integer (depth : Nat) (text : Bytes) (clean : Clean text) (bad : ∀ number, ¬ Numeral text number) :
      Violation limits depth ⟨.malformed,"invalid or overflowing integer"⟩ (colon::(text ++ crlf))
  | bulkLength (depth : Nat) (text : Bytes) (clean : Clean text) (bad : ∀ number, ¬ Numeral text number) :
      Violation limits depth ⟨.malformed,"invalid or overflowing bulk length"⟩ (dollar::(text ++ crlf))
  | bulkNegative (depth : Nat) (text : Bytes) (number : Int) (numeral : Numeral text number) (negative : number < -1) :
      Violation limits depth ⟨.malformed,"illegal negative bulk length"⟩ (dollar::(text ++ crlf))
  | bulkLimit (depth : Nat) (text : Bytes) (size : Nat) (numeral : Numeral text size)
      (excess : limits.maxBulkSize < size) :
      Violation limits depth ⟨.oversized,"bulk string exceeds configured limit"⟩ (dollar::(text ++ crlf))
  | bulkEnd (depth : Nat) (text payload broken : Bytes) (numeral : Numeral text payload.length)
      (bound : payload.length ≤ limits.maxBulkSize) (terminator : BadTerminator broken) :
      Violation limits depth ⟨.malformed,"bulk payload lacks terminating CRLF"⟩
        (dollar::(text ++ (crlf ++ (payload ++ broken))))
  | arrayLength (depth : Nat) (text : Bytes) (clean : Clean text) (bad : ∀ number, ¬ Numeral text number) :
      Violation limits depth ⟨.malformed,"invalid or overflowing array length"⟩ (asterisk::(text ++ crlf))
  | arrayNegative (depth : Nat) (text : Bytes) (number : Int) (numeral : Numeral text number) (negative : number < -1) :
      Violation limits depth ⟨.malformed,"illegal negative array length"⟩ (asterisk::(text ++ crlf))
  | arrayDepth (depth : Nat) (text : Bytes) (number : Int) (numeral : Numeral text number) (legal : -1 ≤ number)
      (deep : limits.maxDepth ≤ depth) :
      Violation limits depth ⟨.tooDeep,"array nesting exceeds configured limit"⟩ (asterisk::(text ++ crlf))
  | arrayLimit (depth : Nat) (text : Bytes) (size : Nat) (numeral : Numeral text size) (room : depth < limits.maxDepth)
      (excess : limits.maxArraySize < size) :
      Violation limits depth ⟨.oversized,"array exceeds configured element limit"⟩ (asterisk::(text ++ crlf))
  | arrayItem (depth : Nat) (text body bad : Bytes) (items : List RespValue) (size : Nat) (fault : Fault)
      (numeral : Numeral text size) (bound : size ≤ limits.maxArraySize) (room : depth < limits.maxDepth)
      (frames : Frames limits (depth + 1) items body) (before : items.length < size)
      (violation : Violation limits (depth + 1) fault bad) :
      Violation limits depth fault (asterisk::(text ++ (crlf ++ (body ++ bad))))

theorem scanLine_clean (start : Nat) (line text rest : Bytes) (clean : Clean text) :
    scanLine start line (text ++ rest) = scanLine start (line ++ text) rest := by
  induction text generalizing line with
  | nil => simp
  | cons byte text ih =>
    simp only [Clean,List.mem_cons,not_or] at clean
    obtain ⟨⟨notReturn,more⟩,⟨notFeed,others⟩⟩ := clean
    have step : scanLine start line (byte::(text ++ rest)) = scanLine start (line ++ [byte]) (text ++ rest) := by
      rw [scanLine.eq_def]
      simp only [if_neg (Ne.symm notFeed),ne_eq,Ne.symm notReturn,not_false_eq_true,if_true]
    rw [List.cons_append,step,ih _ ⟨more,others⟩]
    simp

theorem line_cases (body : Bytes) : ∃ text, Clean text ∧
    (body = text ∨ body = text ++ [carriageReturn] ∨ (∃ rest, body = text ++ (crlf ++ rest)) ∨
      ∃ fault broken rest, BadEnding fault broken ∧ body = text ++ (broken ++ rest)) := by
  induction body with
  | nil => exact ⟨[],by simp [Clean],Or.inl rfl⟩
  | cons byte body ih =>
    by_cases feed : byte = lineFeed
    · exact ⟨[],by simp [Clean],Or.inr (Or.inr (Or.inr ⟨_,_,body,BadEnding.feed,by simp [feed]⟩))⟩
    by_cases carriage : byte = carriageReturn
    · subst carriage
      refine ⟨[],by simp [Clean],Or.inr ?_⟩
      cases body with
      | nil => exact Or.inl rfl
      | cons next rest =>
        by_cases pair : next = lineFeed
        · exact Or.inr (Or.inl ⟨rest,by rw [pair]; rfl⟩)
        · exact Or.inr (Or.inr ⟨_,_,rest,BadEnding.carriage next pair,rfl⟩)
    obtain ⟨text,clean,shape⟩ := ih
    refine ⟨byte::text,?_,?_⟩
    · simp only [Clean,List.mem_cons,not_or]
      exact ⟨⟨Ne.symm carriage,clean.1⟩,⟨Ne.symm feed,clean.2⟩⟩
    · rcases shape with rfl | rfl | ⟨rest,rfl⟩ | ⟨fault,broken,rest,ending,rfl⟩
      · exact Or.inl rfl
      · exact Or.inr (Or.inl rfl)
      · exact Or.inr (Or.inr (Or.inl ⟨rest,rfl⟩))
      · exact Or.inr (Or.inr (Or.inr ⟨fault,broken,rest,ending,rfl⟩))

theorem readLine_line (type : UInt8) (text rest : Bytes) (clean : Clean text) :
    readLine (type::(text ++ (crlf ++ rest))) 1 = .complete text (text.length + 3) := by
  change scanLine 1 [] (text ++ (crlf ++ rest)) = _
  rw [scanLine_clean 1 [] text _ clean]
  simp [crlf,scanLine,carriageReturn,lineFeed]
  omega

theorem readLine_open (type : UInt8) (text : Bytes) (clean : Clean text) :
    readLine (type::text) 1 = .incomplete ∧ readLine (type::(text ++ [carriageReturn])) 1 = .incomplete := by
  constructor
  · change scanLine 1 [] text = _
    have scanned := scanLine_clean 1 [] text [] clean
    rw [List.append_nil] at scanned
    rw [scanned,scanLine]
  · change scanLine 1 [] (text ++ [carriageReturn]) = _
    rw [scanLine_clean 1 [] text _ clean]
    simp [scanLine,carriageReturn,lineFeed]

theorem readLine_bad (type : UInt8) (text broken rest : Bytes) (fault : Fault) (clean : Clean text)
    (ending : BadEnding fault broken) : readLine (type::(text ++ (broken ++ rest))) 1 = .failed fault := by
  change scanLine 1 [] (text ++ (broken ++ rest)) = _
  rw [scanLine_clean 1 [] text _ clean]
  cases ending with
  | feed => simp [scanLine,malformed]
  | carriage byte other =>
    have different : carriageReturn ≠ lineFeed := by decide
    simp [scanLine,malformed,other,different]

theorem numeral_clean (text : Bytes) (number : Int) (numeral : Numeral text number) : Clean text := by
  obtain ⟨_,_,digits,_,all,shape⟩ := numeral
  have clean : Clean digits :=
    ⟨fun member => absurd (all _ member) (by decide),fun member => absurd (all _ member) (by decide)⟩
  rcases shape with ⟨rfl,_⟩ | ⟨rfl,_⟩
  · exact clean
  · simp only [Clean,List.mem_cons,not_or]
    exact ⟨⟨by decide,clean.1⟩,⟨by decide,clean.2⟩⟩

theorem fromDigits_iff (negative : Bool) (body : Bytes) (number : Int64) :
    fromDigits negative body = (some number,[]) ↔ body ≠ [] ∧ (∀ byte ∈ body, Decimal.isDigit byte = true) ∧
      number.toInt = signed negative (Decimal.value body) := by
  constructor
  · intro read
    simp only [fromDigits] at read
    split at read
    · cases read
    · next present =>
      split at read
      · cases read
      · next bounds =>
        obtain ⟨found,ended⟩ := Prod.mk.inj read
        have whole : body.takeWhile Decimal.isDigit = body := by
          have joined := List.takeWhile_append_dropWhile (p := Decimal.isDigit) (l := body)
          rwa [ended,List.append_nil] at joined
        rw [whole] at found bounds present
        refine ⟨present,?_,?_⟩
        · rw [← whole]
          exact fun byte member => List.mem_takeWhile_imp member
        · rw [← Option.some.inj found]
          exact Int64.toInt_ofInt_of_le (by omega) (by omega)
  · rintro ⟨present,all,equal⟩
    have whole : body.takeWhile Decimal.isDigit = body := List.takeWhile_eq_self_iff.mpr all
    have ended : body.dropWhile Decimal.isDigit = [] := List.dropWhile_eq_nil_iff.mpr all
    have low := Int64.le_toInt number
    have high := Int64.toInt_lt number
    simp only [fromDigits,whole,ended,if_neg present,← equal]
    rw [if_neg (by omega),Int64.ofInt_toInt]

theorem parseInteger_iff (text : Bytes) (number : Int64) :
    parseInteger text = some number ↔ Numeral text number.toInt := by
  have matched : parseInteger text = some number ↔
      ¬ (text = [] ∨ text.head? = some plus) ∧ fromChars text = (some number,[]) := by
    unfold parseInteger
    split
    · next refused => simp [refused]
    · next accepted =>
      rcases fromChars text with ⟨found,rest⟩
      cases found <;> cases rest <;> simp [accepted]
  have low := Int64.le_toInt number
  have high := Int64.toInt_lt number
  rw [matched]
  constructor
  · rintro ⟨_,read⟩
    refine ⟨low,high,?_⟩
    unfold fromChars at read
    split at read
    · next negative =>
      obtain ⟨present,all,equal⟩ := (fromDigits_iff true text.tail number).mp read
      refine ⟨text.tail,present,all,Or.inr ⟨?_,equal⟩⟩
      exact (List.cons_head?_tail negative).symm
    · obtain ⟨present,all,equal⟩ := (fromDigits_iff false text number).mp read
      exact ⟨text,present,all,Or.inl ⟨rfl,equal⟩⟩
  · rintro ⟨_,_,digits,present,all,⟨rfl,equal⟩ | ⟨rfl,equal⟩⟩
    · obtain ⟨first,rest,rfl⟩ := List.exists_cons_of_ne_nil present
      have digit := all first List.mem_cons_self
      have notMinus : first ≠ minus := fun same => absurd (same ▸ digit) (by decide)
      have notPlus : first ≠ plus := fun same => absurd (same ▸ digit) (by decide)
      refine ⟨by simp [notPlus],?_⟩
      rw [fromChars,if_neg (by simp [notMinus])]
      exact (fromDigits_iff false _ number).mpr ⟨present,all,equal⟩
    · refine ⟨by simp [minus,plus],?_⟩
      rw [fromChars,if_pos (by rfl)]
      exact (fromDigits_iff true digits number).mpr ⟨present,all,equal⟩

theorem parseInteger_none (text : Bytes) : parseInteger text = none ↔ ∀ number, ¬ Numeral text number := by
  constructor
  · intro refused number numeral
    have read : parseInteger text = some (Int64.ofInt number) := by
      rwa [parseInteger_iff,Int64.toInt_ofInt_of_le numeral.1 numeral.2.1]
    rw [refused] at read
    cases read
  · intro bad
    cases read : parseInteger text with
    | none => rfl
    | some number => exact absurd ((parseInteger_iff text number).mp read) (bad number.toInt)

theorem numeral_int64 (text : Bytes) (number : Int) (numeral : Numeral text number) :
    ∃ value : Int64, parseInteger text = some value ∧ value.toInt = number := by
  have back := Int64.toInt_ofInt_of_le numeral.1 numeral.2.1
  exact ⟨Int64.ofInt number,(parseInteger_iff text _).mpr (by rwa [back]),back⟩

end NovaCache.Protocol
