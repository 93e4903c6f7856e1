import NovaCache.Protocol.Grammar

/-! The parser accepts exactly the frames of the grammar, and it refuses exactly the input
that already violates it. -/
namespace NovaCache.Protocol
open Incremental

variable (limits : ParserLimits)

theorem dispatch_plus (parseItem : Bytes → ValueResult) (depth : Nat) (body : Bytes) :
    dispatch parseItem (plus::body) depth limits = parseLineValue (plus::body) false := rfl

theorem dispatch_minus (parseItem : Bytes → ValueResult) (depth : Nat) (body : Bytes) :
    dispatch parseItem (minus::body) depth limits = parseLineValue (minus::body) true := rfl

theorem dispatch_colon (parseItem : Bytes → ValueResult) (depth : Nat) (body : Bytes) :
    dispatch parseItem (colon::body) depth limits = parseRespInteger (colon::body) := rfl

theorem dispatch_dollar (parseItem : Bytes → ValueResult) (depth : Nat) (body : Bytes) :
    dispatch parseItem (dollar::body) depth limits = parseBulk (dollar::body) limits := rfl

theorem dispatch_asterisk (parseItem : Bytes → ValueResult) (depth : Nat) (body : Bytes) :
    dispatch parseItem (asterisk::body) depth limits = parseArray parseItem (asterisk::body) depth limits := rfl

theorem dispatch_unknown (parseItem : Bytes → ValueResult) (depth : Nat) (byte : UInt8) (body : Bytes)
    (unknown : byte ∉ types) :
    dispatch parseItem (byte::body) depth limits = .failed ⟨.malformed,"unknown RESP type prefix"⟩ := by
  simp only [types,List.mem_cons,List.not_mem_nil,or_false,not_or] at unknown
  obtain ⟨one,two,three,four,five⟩ := unknown
  simp only [dispatch,if_neg one,if_neg two,if_neg three,if_neg four,if_neg five,malformed]

theorem dispatch_line (parseItem : Bytes → ValueResult) (depth : Nat) (type : UInt8) (known : type ∈ types)
    (body : Bytes) :
    (readLine (type::body) 1 = .incomplete → dispatch parseItem (type::body) depth limits = .incomplete) ∧
      ∀ fault, readLine (type::body) 1 = .failed fault →
        dispatch parseItem (type::body) depth limits = .failed fault := by
  simp only [types,List.mem_cons,List.not_mem_nil,or_false] at known
  rcases known with rfl | rfl | rfl | rfl | rfl
  · rw [dispatch_plus,parseLineValue]
    exact ⟨fun waiting => by rw [waiting]; rfl,fun fault failed => by rw [failed]; rfl⟩
  · rw [dispatch_minus,parseLineValue]
    exact ⟨fun waiting => by rw [waiting]; rfl,fun fault failed => by rw [failed]; rfl⟩
  · rw [dispatch_colon,parseRespInteger]
    exact ⟨fun waiting => by rw [waiting]; rfl,fun fault failed => by rw [failed]; rfl⟩
  · rw [dispatch_dollar,parseBulk]
    exact ⟨fun waiting => by rw [waiting]; rfl,fun fault failed => by rw [failed]; rfl⟩
  · rw [dispatch_asterisk,parseArray]
    exact ⟨fun waiting => by rw [waiting]; rfl,fun fault failed => by rw [failed]; rfl⟩

theorem length_frame (type : UInt8) (text : Bytes) : (type::(text ++ crlf)).length = text.length + 3 := by
  simp [crlf]

theorem length_line (type : UInt8) (text rest : Bytes) :
    (type::(text ++ (crlf ++ rest))).length = text.length + 3 + rest.length := by
  simp [crlf]
  omega

theorem line_append (type : UInt8) (text tail rest : Bytes) :
    (type::(text ++ tail)) ++ rest = type::(text ++ (tail ++ rest)) := by
  simp

theorem parseRespInteger_line (text rest : Bytes) (clean : Clean text) :
    parseRespInteger (colon::(text ++ (crlf ++ rest))) =
      match parseInteger text with
      | none => .failed ⟨.malformed,"invalid or overflowing integer"⟩
      | some number => .complete (.integer number) (text.length + 3) := by
  rw [parseRespInteger,readLine_line colon text rest clean]
  rfl

/-- The checks of a bulk string behind its length line, in terms of what follows the line. -/
def bulkVerdict (limits : ParserLimits) (number : Int) (next : Nat) (rest : Bytes) : ValueResult :=
  if number = -1 then .complete (.bulk none) next
  else if number < 0 then .failed ⟨.malformed,"illegal negative bulk length"⟩
  else
    let size := number.toNat
    if limits.maxBulkSize < size then .failed ⟨.oversized,"bulk string exceeds configured limit"⟩
    else if rest.length ≤ size then .incomplete
    else if rest[size]? ≠ some carriageReturn then .failed ⟨.malformed,"bulk payload lacks terminating CRLF"⟩
    else if size + 1 = rest.length then .incomplete
    else if rest[size + 1]? ≠ some lineFeed then .failed ⟨.malformed,"bulk payload lacks terminating CRLF"⟩
    else .complete (.bulk (some (rest.take size))) (next + size + 2)

theorem parseBulk_line (text rest : Bytes) (clean : Clean text) :
    parseBulk (dollar::(text ++ (crlf ++ rest))) limits =
      match parseInteger text with
      | none => .failed ⟨.malformed,"invalid or overflowing bulk length"⟩
      | some number => bulkVerdict limits number.toInt (text.length + 3) rest := by
  have front : dollar::(text ++ (crlf ++ rest)) = (dollar::(text ++ crlf)) ++ rest := (line_append _ _ _ _).symm
  have position := length_frame dollar text
  rw [parseBulk,readLine_line dollar text rest clean]
  simp only [Verdict.andThen]
  cases parseInteger text with
  | none => rfl
  | some number =>
    have bound := Int64.toInt_lt number
    have negative : number < 0 ↔ number.toInt < 0 := Int64.lt_iff_toInt_lt
    have null : number = -1 ↔ number.toInt = -1 := Int64.toInt_inj.symm
    refine if_congr null rfl (if_congr negative rfl (if_congr Iff.rfl rfl ?_))
    rw [if_neg (by unfold sizeMax; omega),front,List.length_append,position]
    generalize number.toInt.toNat = size
    have first : ((dollar::(text ++ crlf)) ++ rest)[text.length + 3 + size]? = rest[size]? := by
      rw [List.getElem?_append_right (by omega),position,Nat.add_sub_cancel_left]
    have second : ((dollar::(text ++ crlf)) ++ rest)[text.length + 3 + size + 1]? = rest[size + 1]? := by
      rw [List.getElem?_append_right (by omega),position,Nat.add_assoc _ size 1,Nat.add_sub_cancel_left]
    have payload : ((dollar::(text ++ crlf)) ++ rest).drop (text.length + 3) = rest := by
      rw [← position,List.drop_left]
    rw [first,second,payload]
    by_cases short : rest.length ≤ size
    · rw [if_pos short]
      split
      · rfl
      · rw [if_pos (by omega)]
    · rw [if_neg short,if_neg (by omega),if_neg (by omega)]
      refine if_congr Iff.rfl rfl ?_
      by_cases ended : size + 1 = rest.length
      · rw [if_pos ended,if_pos (by omega)]
      · rw [if_neg ended,if_neg (by omega)]
        rfl

theorem parseBulk_numeral (text rest : Bytes) (number : Int) (numeral : Numeral text number) :
    parseBulk (dollar::(text ++ (crlf ++ rest))) limits = bulkVerdict limits number (text.length + 3) rest := by
  obtain ⟨value,read,rfl⟩ := numeral_int64 text number numeral
  rw [parseBulk_line limits text rest (numeral_clean _ _ numeral),read]

def arrayVerdict (limits : ParserLimits) (parseItem : Bytes → ValueResult) (depth : Nat) (number : Int) (next : Nat)
    (input : Bytes) : ValueResult :=
  if number < -1 then .failed ⟨.malformed,"illegal negative array length"⟩
  else if limits.maxDepth ≤ depth then .failed ⟨.tooDeep,"array nesting exceeds configured limit"⟩
  else if number = -1 then .complete (.array none) next
  else if limits.maxArraySize < number.toNat then .failed ⟨.oversized,"array exceeds configured element limit"⟩
  else parseItems parseItem input number.toNat [] next

theorem parseArray_line (parseItem : Bytes → ValueResult) (depth : Nat) (text rest : Bytes) (clean : Clean text) :
    parseArray parseItem (asterisk::(text ++ (crlf ++ rest))) depth limits =
      match parseInteger text with
      | none => .failed ⟨.malformed,"invalid or overflowing array length"⟩
      | some number =>
        arrayVerdict limits parseItem depth number.toInt (text.length + 3) (asterisk::(text ++ (crlf ++ rest))) := by
  rw [parseArray,readLine_line asterisk text rest clean]
  simp only [Verdict.andThen]
  cases parseInteger text with
  | none => rfl
  | some number =>
    have bound := Int64.toInt_lt number
    have negative : number < -1 ↔ number.toInt < -1 := Int64.lt_iff_toInt_lt
    have null : number = -1 ↔ number.toInt = -1 := Int64.toInt_inj.symm
    refine if_congr negative rfl (if_congr Iff.rfl rfl (if_congr null rfl (if_congr Iff.rfl rfl ?_)))
    exact if_neg (show ¬ sizeMax < number.toInt.toNat by unfold sizeMax; omega)

theorem parseArray_numeral (parseItem : Bytes → ValueResult) (depth : Nat) (text rest : Bytes) (number : Int)
    (numeral : Numeral text number) :
    parseArray parseItem (asterisk::(text ++ (crlf ++ rest))) depth limits =
      arrayVerdict limits parseItem depth number (text.length + 3) (asterisk::(text ++ (crlf ++ rest))) := by
  obtain ⟨value,read,rfl⟩ := numeral_int64 text number numeral
  rw [parseArray_line limits parseItem depth text rest (numeral_clean _ _ numeral),read]

variable {limits}

theorem parseItems_frames (parseItem : Bytes → ValueResult) (depth : Nat)
    (parses : ∀ item bytes rest, Frame limits depth item bytes →
      parseItem (bytes ++ rest) = .complete item bytes.length)
    (items : List RespValue) (body : Bytes) (frames : Frames limits depth items body)
    (front rest : Bytes) (more : Nat) (values : List RespValue) :
    parseItems parseItem (front ++ (body ++ rest)) (items.length + more) values front.length =
      parseItems parseItem (front ++ (body ++ rest)) more (values ++ items) (front ++ body).length := by
  induction items generalizing body front values with
  | nil =>
    cases frames
    simp
  | cons item items ih =>
    cases frames with
    | cons _ _ _ first others head tail =>
      have here : (front ++ (first ++ others ++ rest)).drop front.length = first ++ (others ++ rest) := by
        rw [List.drop_left,List.append_assoc]
      have next := ih others tail (front ++ first) (values ++ [item])
      rw [show front ++ first ++ (others ++ rest) = front ++ (first ++ others ++ rest) by simp,
        List.append_assoc front,List.append_assoc values,List.singleton_append] at next
      rw [List.length_cons,show items.length + 1 + more = items.length + more + 1 by omega,parseItems,here,
        parses item first _ head]
      change parseItems _ _ _ _ (front.length + first.length) = _
      rw [← List.length_append]
      exact next

/-- Completeness: a frame is parsed whatever follows it. -/
theorem parseValue_frame (depth : Nat) (value : RespValue) (bytes rest : Bytes)
    (frame : Frame limits depth value bytes) :
    parseValue (bytes ++ rest) depth limits = .complete value bytes.length := by
  -- The levels left bound the nesting, since an array only stands where one is left.
  generalize levels : limits.maxDepth - depth = level
  induction level using Nat.strong_induction_on generalizing depth value bytes rest with
  | _ level ih =>
    rw [parseValue_eq]
    cases frame with
    | simple _ text clean =>
      rw [line_append,dispatch_plus,parseLineValue,readLine_line plus text rest clean]
      simp [Verdict.andThen,crlf]
    | error _ text clean =>
      rw [line_append,dispatch_minus,parseLineValue,readLine_line minus text rest clean]
      simp [Verdict.andThen,crlf]
    | integer _ text number numeral =>
      rw [line_append,dispatch_colon,parseRespInteger_line text rest (numeral_clean _ _ numeral),
        (parseInteger_iff text number).mpr numeral]
      simp [crlf]
    | nullBulk _ text numeral =>
      rw [line_append,dispatch_dollar,parseBulk_numeral limits text rest (-1) numeral,length_frame]
      rfl
    | bulk _ text payload numeral bound =>
      rw [line_append,List.append_assoc,List.append_assoc,dispatch_dollar,
        parseBulk_numeral limits text _ payload.length numeral,bulkVerdict,Int.toNat_natCast]
      dsimp only
      rw [if_neg (by omega),if_neg (by omega),if_neg (by omega),if_neg (by simp [crlf]),if_neg (by simp [crlf]),
        if_neg (by simp [crlf]),if_neg (by simp [crlf]),List.take_left,length_line,List.length_append]
      rfl
    | nullArray _ text numeral room =>
      rw [line_append,dispatch_asterisk,parseArray_numeral limits _ depth text rest (-1) numeral,arrayVerdict,
        if_neg (by omega),if_neg (by omega),if_pos rfl,length_frame]
    | array _ text body items numeral bound room frames =>
      rw [line_append,List.append_assoc,dispatch_asterisk,
        parseArray_numeral limits _ depth text _ items.length numeral,arrayVerdict,Int.toNat_natCast,
        if_neg (by omega),if_neg (by omega),if_neg (by omega),if_neg (by omega)]
      have parsed := parseItems_frames (fun rest => parseValue rest (depth + 1) limits) (depth + 1)
        (fun item bytes rest head => ih _ (by omega) (depth + 1) item bytes rest head rfl)
        items body frames (asterisk::(text ++ crlf)) rest 0 []
      rw [line_append,length_frame,Nat.add_zero items.length,List.nil_append,parseItems,List.length_append,
        length_frame] at parsed
      rw [parsed,length_line]

theorem parseValue_violation (depth : Nat) (fault : Fault) (bytes rest : Bytes)
    (violation : Violation limits depth fault bytes) :
    parseValue (bytes ++ rest) depth limits = .failed fault := by
  induction violation generalizing rest with
  | type depth byte unknown =>
    rw [parseValue_eq]
    exact dispatch_unknown limits _ depth byte rest unknown
  | line depth type text broken fault known clean ending =>
    rw [parseValue_eq,line_append]
    exact (dispatch_line limits _ depth type known _).2 fault (readLine_bad type text broken rest fault clean ending)
  | integer depth text clean bad =>
    rw [parseValue_eq,line_append,dispatch_colon,parseRespInteger_line text rest clean,
      (parseInteger_none text).mpr bad]
  | bulkLength depth text clean bad =>
    rw [parseValue_eq,line_append,dispatch_dollar,parseBulk_line limits text rest clean,
      (parseInteger_none text).mpr bad]
  | bulkNegative depth text number numeral negative =>
    rw [parseValue_eq,line_append,dispatch_dollar,parseBulk_numeral limits text rest number numeral,bulkVerdict,
      if_neg (by omega),if_pos (by omega)]
  | bulkLimit depth text size numeral excess =>
    rw [parseValue_eq,line_append,dispatch_dollar,parseBulk_numeral limits text rest size numeral,bulkVerdict,
      Int.toNat_natCast,if_neg (by omega),if_neg (by omega)]
    exact if_pos excess
  | bulkEnd depth text payload broken numeral bound terminator =>
    rw [parseValue_eq,line_append,List.append_assoc,List.append_assoc,dispatch_dollar,
      parseBulk_numeral limits text _ payload.length numeral,bulkVerdict,Int.toNat_natCast]
    dsimp only
    rw [if_neg (by omega),if_neg (by omega),if_neg (by omega)]
    cases terminator with
    | first byte other => simp [other]
    | second byte other => simp [other]
  | arrayLength depth text clean bad =>
    rw [parseValue_eq,line_append,dispatch_asterisk,parseArray_line limits _ depth text rest clean,
      (parseInteger_none text).mpr bad]
  | arrayNegative depth text number numeral negative =>
    rw [parseValue_eq,line_append,dispatch_asterisk,parseArray_numeral limits _ depth text rest number numeral,
      arrayVerdict,if_pos negative]
  | arrayDepth depth text number numeral legal deep =>
    rw [parseValue_eq,line_append,dispatch_asterisk,parseArray_numeral limits _ depth text rest number numeral,
      arrayVerdict,if_neg (by omega),if_pos deep]
  | arrayLimit depth text size numeral room excess =>
    rw [parseValue_eq,line_append,dispatch_asterisk,parseArray_numeral limits _ depth text rest size numeral,
      arrayVerdict,Int.toNat_natCast,if_neg (by omega),if_neg (by omega),if_neg (by omega),if_pos excess]
  | arrayItem depth text body bad items size fault numeral bound room frames before violation ih =>
    rw [parseValue_eq,line_append,List.append_assoc,List.append_assoc,dispatch_asterisk,
      parseArray_numeral limits _ depth text _ size numeral,arrayVerdict,Int.toNat_natCast,if_neg (by omega),
      if_neg (by omega),if_neg (by omega),if_neg (by omega)]
    obtain ⟨left,rfl⟩ : ∃ left, size = items.length + (left + 1) := ⟨size - items.length - 1,by omega⟩
    have parsed := parseItems_frames (fun rest => parseValue rest (depth + 1) limits) (depth + 1)
      (fun item bytes rest head => parseValue_frame (depth + 1) item bytes rest head)
      items body frames (asterisk::(text ++ crlf)) (bad ++ rest) (left + 1) []
    have here : ((asterisk::(text ++ crlf)) ++ (body ++ (bad ++ rest))).drop (asterisk::(text ++ crlf) ++ body).length =
        bad ++ rest := by
      rw [← List.append_assoc (asterisk::(text ++ crlf)),List.drop_left]
    rw [parseItems,here,ih rest,line_append,length_frame] at parsed
    exact parsed

/-- What the verdict says about the input it was given for. -/
def Justified (limits : ParserLimits) (depth : Nat) (input : Bytes) : ValueResult → Prop
  | .complete value consumed =>
    ∃ bytes rest, input = bytes ++ rest ∧ bytes.length = consumed ∧ Frame limits depth value bytes
  | .incomplete => True
  | .failed fault => ∃ bytes rest, input = bytes ++ rest ∧ Violation limits depth fault bytes

theorem parseItems_justified (parseItem : Bytes → ValueResult) (depth : Nat)
    (justified : ∀ input, Justified limits depth input (parseItem input)) (count : Nat) (front rest : Bytes)
    (values : List RespValue) :
    match parseItems parseItem (front ++ rest) count values front.length with
    | .complete value consumed => ∃ items body tail, rest = body ++ tail ∧ items.length = count ∧
        Frames limits depth items body ∧ value = .array (some (values ++ items)) ∧
        consumed = front.length + body.length
    | .incomplete => True
    | .failed fault => ∃ items body bad tail, rest = body ++ (bad ++ tail) ∧ items.length < count ∧
        Frames limits depth items body ∧ Violation limits depth fault bad := by
  induction count generalizing front rest values with
  | zero => exact ⟨[],[],rest,rfl,rfl,Frames.nil depth,by simp,rfl⟩
  | succ count ih =>
    rw [parseItems,List.drop_left]
    have item := justified rest
    cases parsed : parseItem rest with
    | incomplete => trivial
    | failed fault =>
      rw [parsed] at item
      obtain ⟨bad,tail,rfl,violation⟩ := item
      exact ⟨[],[],bad,tail,rfl,Nat.succ_pos count,Frames.nil depth,violation⟩
    | complete value used =>
      rw [parsed] at item
      obtain ⟨bytes,tail,rfl,rfl,frame⟩ := item
      have others := ih (front ++ bytes) tail (values ++ [value])
      rw [List.append_assoc,List.length_append] at others
      change match parseItems parseItem _ count _ (front.length + bytes.length) with
        | .complete value consumed => _
        | .incomplete => True
        | .failed fault => _
      cases result : parseItems parseItem (front ++ (bytes ++ tail)) count (values ++ [value])
          (front.length + bytes.length) with
      | incomplete => trivial
      | failed fault =>
        rw [result] at others
        obtain ⟨items,body,bad,last,rfl,fewer,frames,violation⟩ := others
        exact ⟨value::items,bytes ++ body,bad,last,by simp,by simpa using fewer,
          Frames.cons depth value items bytes body frame frames,violation⟩
      | complete whole consumed =>
        rw [result] at others
        obtain ⟨items,body,last,rfl,size,frames,rfl,rfl⟩ := others
        exact ⟨value::items,bytes ++ body,last,by simp,by simpa using size,
          Frames.cons depth value items bytes body frame frames,by simp,by simp [Nat.add_assoc]⟩

theorem parseBulk_justified (depth : Nat) (text rest : Bytes) (clean : Clean text) :
    Justified limits depth (dollar::(text ++ (crlf ++ rest)))
      (parseBulk (dollar::(text ++ (crlf ++ rest))) limits) := by
  rw [parseBulk_line limits text rest clean]
  cases read : parseInteger text with
  | none => exact ⟨_,rest,(line_append dollar text crlf rest).symm,
      Violation.bulkLength depth text clean ((parseInteger_none text).mp read)⟩
  | some number =>
    have numeral := (parseInteger_iff text number).mp read
    dsimp only [bulkVerdict]
    split
    · next null => exact ⟨_,rest,(line_append dollar text crlf rest).symm,length_frame dollar text,
        Frame.nullBulk depth text (null ▸ numeral)⟩
    split
    · next notNull negative => exact ⟨_,rest,(line_append dollar text crlf rest).symm,
        Violation.bulkNegative depth text number.toInt numeral (by omega)⟩
    next notNull nonnegative =>
    obtain ⟨size,equal⟩ := Int.eq_ofNat_of_zero_le (Int.not_lt.mp nonnegative)
    rw [equal] at numeral
    simp only [equal,Int.toNat_natCast]
    split
    · next excess => exact ⟨_,rest,(line_append dollar text crlf rest).symm,
        Violation.bulkLimit depth text size numeral excess⟩
    split
    · trivial
    next bound present =>
    -- The payload is there, and at least one byte behind it.
    obtain ⟨payload,byte,tail,rfl,rfl⟩ : ∃ payload byte tail, rest = payload ++ byte::tail ∧ payload.length = size := by
      have cut := List.take_append_drop size rest
      rw [List.drop_eq_getElem_cons (by omega)] at cut
      exact ⟨rest.take size,_,_,cut.symm,by rw [List.length_take]; omega⟩
    have ends (broken after : Bytes) (same : byte::tail = broken ++ after) (terminator : BadTerminator broken) :
        ∃ bytes rest, dollar::(text ++ (crlf ++ (payload ++ byte::tail))) = bytes ++ rest ∧
          Violation limits depth ⟨.malformed,"bulk payload lacks terminating CRLF"⟩ bytes := by
      refine ⟨dollar::(text ++ (crlf ++ (payload ++ broken))),after,?_,
        Violation.bulkEnd depth text payload broken numeral (by omega) terminator⟩
      rw [same,line_append]
      simp
    split
    · next other => exact ends [byte] tail rfl (BadTerminator.first byte (by simpa using other))
    next first =>
    obtain rfl : byte = carriageReturn := by simpa using first
    split
    · trivial
    next more =>
    obtain ⟨next,after,rfl⟩ : ∃ next after, tail = next::after := by
      cases tail with
      | nil => simp at more
      | cons next after => exact ⟨next,after,rfl⟩
    split
    · next other =>
      exact ends [carriageReturn,next] after rfl (BadTerminator.second next (by simpa using other))
    next second =>
    obtain rfl : next = lineFeed := by simpa using second
    rw [List.take_left]
    refine ⟨dollar::(text ++ (crlf ++ (payload ++ crlf))),after,?_,?_,Frame.bulk depth text payload numeral (by omega)⟩
    · rw [line_append]
      simp [crlf]
    · rw [length_line,List.length_append]
      rfl

theorem parseArray_justified (depth : Nat) (text rest : Bytes) (clean : Clean text)
    (below : depth < limits.maxDepth →
      ∀ input, Justified limits (depth + 1) input (parseValue input (depth + 1) limits)) :
    Justified limits depth (asterisk::(text ++ (crlf ++ rest)))
      (parseArray (fun rest => parseValue rest (depth + 1) limits) (asterisk::(text ++ (crlf ++ rest))) depth limits) := by
  rw [parseArray_line limits _ depth text rest clean]
  cases read : parseInteger text with
  | none => exact ⟨_,rest,(line_append asterisk text crlf rest).symm,
      Violation.arrayLength depth text clean ((parseInteger_none text).mp read)⟩
  | some number =>
    have numeral := (parseInteger_iff text number).mp read
    dsimp only [arrayVerdict]
    split
    · next negative => exact ⟨_,rest,(line_append asterisk text crlf rest).symm,
        Violation.arrayNegative depth text number.toInt numeral negative⟩
    split
    · next legal deep => exact ⟨_,rest,(line_append asterisk text crlf rest).symm,
        Violation.arrayDepth depth text number.toInt numeral (by omega) deep⟩
    next legal room =>
    split
    · next null => exact ⟨_,rest,(line_append asterisk text crlf rest).symm,length_frame asterisk text,
        Frame.nullArray depth text (null ▸ numeral) (by omega)⟩
    next notNull =>
    obtain ⟨size,equal⟩ := Int.eq_ofNat_of_zero_le (show 0 ≤ number.toInt by omega)
    rw [equal] at numeral ⊢
    rw [Int.toNat_natCast]
    split
    · next excess => exact ⟨_,rest,(line_append asterisk text crlf rest).symm,
        Violation.arrayLimit depth text size numeral (by omega) excess⟩
    next bound =>
    have items := parseItems_justified (fun rest => parseValue rest (depth + 1) limits) (depth + 1)
      (below (by omega)) size (asterisk::(text ++ crlf)) rest []
    rw [line_append,length_frame] at items
    cases result : parseItems (fun rest => parseValue rest (depth + 1) limits) (asterisk::(text ++ (crlf ++ rest))) size
        [] (text.length + 3) with
    | incomplete => trivial
    | failed fault =>
      rw [result] at items
      obtain ⟨listed,body,bad,tail,rfl,fewer,frames,violation⟩ := items
      refine ⟨asterisk::(text ++ (crlf ++ (body ++ bad))),tail,?_,Violation.arrayItem depth text body bad listed size
        fault numeral (by omega) (by omega) frames fewer violation⟩
      rw [line_append]
      simp
    | complete value consumed =>
      rw [result] at items
      obtain ⟨listed,body,tail,rfl,rfl,frames,rfl,rfl⟩ := items
      refine ⟨asterisk::(text ++ (crlf ++ body)),tail,?_,length_line asterisk text body,
        Frame.array depth text body listed numeral (by omega) (by omega) frames⟩
      rw [line_append]
      simp

/-- Soundness: every verdict is justified by the grammar. -/
theorem parseValue_justified (depth : Nat) (input : Bytes) :
    Justified limits depth input (parseValue input depth limits) := by
  generalize levels : limits.maxDepth - depth = level
  induction level using Nat.strong_induction_on generalizing depth input with
  | _ level ih =>
    rw [parseValue_eq]
    cases input with
    | nil => trivial
    | cons type body =>
      by_cases known : type ∈ types
      · obtain ⟨text,clean,shape⟩ := line_cases body
        rcases shape with rfl | rfl | ⟨rest,rfl⟩ | ⟨fault,broken,rest,ending,rfl⟩
        · rw [(dispatch_line limits _ depth type known _).1 (readLine_open type body clean).1]
          trivial
        · rw [(dispatch_line limits _ depth type known _).1 (readLine_open type text clean).2]
          trivial
        · simp only [types,List.mem_cons,List.not_mem_nil,or_false] at known
          rcases known with rfl | rfl | rfl | rfl | rfl
          · rw [dispatch_plus,parseLineValue,readLine_line plus text rest clean]
            exact ⟨_,rest,(line_append plus text crlf rest).symm,length_frame plus text,Frame.simple depth text clean⟩
          · rw [dispatch_minus,parseLineValue,readLine_line minus text rest clean]
            exact ⟨_,rest,(line_append minus text crlf rest).symm,length_frame minus text,Frame.error depth text clean⟩
          · rw [dispatch_colon,parseRespInteger_line text rest clean]
            cases read : parseInteger text with
            | none => exact ⟨_,rest,(line_append colon text crlf rest).symm,
                Violation.integer depth text clean ((parseInteger_none text).mp read)⟩
            | some number => exact ⟨_,rest,(line_append colon text crlf rest).symm,length_frame colon text,
                Frame.integer depth text number ((parseInteger_iff text number).mp read)⟩
          · rw [dispatch_dollar]
            exact parseBulk_justified depth text rest clean
          · rw [dispatch_asterisk]
            exact parseArray_justified depth text rest clean
              (fun room input => ih _ (by omega) (depth + 1) input rfl)
        · rw [(dispatch_line limits _ depth type known _).2 fault
            (readLine_bad type text broken rest fault clean ending)]
          exact ⟨_,rest,(line_append type text broken rest).symm,
            Violation.line depth type text broken fault known clean ending⟩
      · rw [dispatch_unknown limits _ depth type body known]
        exact ⟨[type],body,rfl,Violation.type depth type known⟩

theorem parseValue_complete_iff (depth : Nat) (input : Bytes) (value : RespValue) (consumed : Nat) :
    parseValue input depth limits = .complete value consumed ↔
      consumed ≤ input.length ∧ Frame limits depth value (input.take consumed) := by
  constructor
  · intro parsed
    have justified := @parseValue_justified limits depth input
    rw [parsed] at justified
    obtain ⟨bytes,rest,rfl,rfl,frame⟩ := justified
    rw [List.take_left]
    exact ⟨by simp,frame⟩
  · rintro ⟨inside,frame⟩
    have parsed := parseValue_frame depth value (input.take consumed) (input.drop consumed) frame
    rwa [List.take_append_drop,List.length_take,Nat.min_eq_left inside] at parsed

theorem parseValue_failed_iff (depth : Nat) (input : Bytes) (fault : Fault) :
    parseValue input depth limits = .failed fault ↔
      ∃ bytes, bytes <+: input ∧ Violation limits depth fault bytes := by
  constructor
  · intro parsed
    have justified := @parseValue_justified limits depth input
    rw [parsed] at justified
    obtain ⟨bytes,rest,rfl,violation⟩ := justified
    exact ⟨bytes,List.prefix_append bytes rest,violation⟩
  · rintro ⟨bytes,⟨rest,rfl⟩,violation⟩
    exact parseValue_violation depth fault bytes rest violation

/-- The parser completes exactly on the frames of the grammar, of which at most one starts
an input, and it waits exactly while no prefix is a frame and none violates the grammar. -/
theorem parser_accepts_grammar (input : Bytes) (depth : Nat) (limits : ParserLimits) :
    (∀ value consumed, parseValue input depth limits = .complete value consumed ↔
      consumed ≤ input.length ∧ Frame limits depth value (input.take consumed)) ∧
    (∀ value other bytes others, bytes <+: input → others <+: input → Frame limits depth value bytes →
      Frame limits depth other others → value = other ∧ bytes = others) ∧
    (parseValue input depth limits = .incomplete ↔
      ∀ bytes, bytes <+: input → (∀ value, ¬ Frame limits depth value bytes) ∧
        ∀ fault, ¬ Violation limits depth fault bytes) := by
  refine ⟨fun value consumed => parseValue_complete_iff depth input value consumed,?_,?_,?_⟩
  · rintro value other bytes others ⟨rest,rfl⟩ ⟨rest',same⟩ frame frame'
    have one := parseValue_frame depth value bytes rest frame
    have two := parseValue_frame depth other others rest' frame'
    rw [same,one] at two
    obtain ⟨equal,size⟩ := Verdict.complete.inj two
    exact ⟨equal,((List.append_inj same.symm size).1)⟩
  · rintro waiting bytes ⟨rest,rfl⟩
    constructor
    · intro value frame
      rw [parseValue_frame depth value bytes rest frame] at waiting
      cases waiting
    · intro fault violation
      rw [parseValue_violation depth fault bytes rest violation] at waiting
      cases waiting
  · intro undecided
    cases parsed : parseValue input depth limits with
    | incomplete => rfl
    | complete value consumed =>
      obtain ⟨_,frame⟩ := (parseValue_complete_iff depth input value consumed).mp parsed
      exact absurd frame ((undecided _ (List.take_prefix consumed input)).1 value)
    | failed fault =>
      obtain ⟨bytes,start,violation⟩ := (parseValue_failed_iff depth input fault).mp parsed
      exact absurd violation ((undecided bytes start).2 fault)

end NovaCache.Protocol
