import NovaCache.Protocol.Acceptance

/-! The encoder writes the frame of its value, so the parser reads the value back. -/
namespace NovaCache.Protocol
open Incremental

mutual
def lineTexts (value : RespValue) : List Bytes :=
  match value with
  | .simple text => [text]
  | .error text => [text]
  | .integer _ => []
  | .bulk _ => []
  | .array none => []
  | .array (some items) => lineTextsOf items

def lineTextsOf (items : List RespValue) : List Bytes :=
  match items with
  | [] => []
  | item::rest => lineTexts item ++ lineTextsOf rest
end

mutual
/-- How deep arrays are nested; a null or empty array is one level. -/
def nesting (value : RespValue) : Nat :=
  match value with
  | .simple _ => 0
  | .error _ => 0
  | .integer _ => 0
  | .bulk _ => 0
  | .array none => 1
  | .array (some items) => nestingOf items + 1

def nestingOf (items : List RespValue) : Nat :=
  match items with
  | [] => 0
  | item::rest => max (nesting item) (nestingOf rest)
end

mutual
/-- Sizes within the limits; no string or vector of the platform has 2^63 elements. -/
def Fits (limits : ParserLimits) (value : RespValue) : Prop :=
  match value with
  | .simple _ => True
  | .error _ => True
  | .integer _ => True
  | .bulk none => True
  | .bulk (some payload) => payload.length ≤ limits.maxBulkSize ∧ payload.length < 2^63
  | .array none => True
  | .array (some items) => items.length ≤ limits.maxArraySize ∧ items.length < 2^63 ∧ FitsAll limits items

def FitsAll (limits : ParserLimits) (items : List RespValue) : Prop :=
  match items with
  | [] => True
  | item::rest => Fits limits item ∧ FitsAll limits rest
end

mutual
/-- The bytes of a value on the wire. -/
def wire (value : RespValue) : Bytes :=
  match value with
  | .simple text => plus::(text ++ crlf)
  | .error text => minus::(text ++ crlf)
  | .integer number => colon::(appendNumber number [] ++ crlf)
  | .bulk none => dollar::([minus,0x31] ++ crlf)
  | .bulk (some payload) => dollar::(Decimal.print payload.length ++ (crlf ++ (payload ++ crlf)))
  | .array none => asterisk::([minus,0x31] ++ crlf)
  | .array (some items) => asterisk::(Decimal.print items.length ++ (crlf ++ wireAll items))

def wireAll (items : List RespValue) : Bytes :=
  match items with
  | [] => []
  | item::rest => wire item ++ wireAll rest
end

def AllClean (texts : List Bytes) : Prop := ∀ text ∈ texts, Clean text

instance (texts : List Bytes) : Decidable (AllClean texts) := inferInstanceAs (Decidable (∀ _ ∈ texts, _))

theorem allClean_append (one two : List Bytes) : AllClean (one ++ two) ↔ AllClean one ∧ AllClean two := by
  unfold AllClean
  rw [List.forall_mem_append]

def lineFailure : Failure := .invalidArgument "RESP line values cannot contain CR or LF"

theorem appendLine_eq (type : UInt8) (text output : Bytes) :
    appendLine type text output =
      if AllClean [text] then .ok (output ++ type::(text ++ crlf)) else .error lineFailure := by
  have single : AllClean [text] ↔ Clean text := List.forall_mem_singleton
  unfold appendLine
  by_cases clean : Clean text
  · simp [single,clean]
  · simp [single,clean,lineFailure]

mutual
theorem appendEncoded_eq (value : RespValue) (output : Bytes) :
    appendEncoded value output =
      if AllClean (lineTexts value) then .ok (output ++ wire value) else .error lineFailure := by
  match value with
  | .simple text => exact appendLine_eq plus text output
  | .error text => exact appendLine_eq minus text output
  | .integer number => simp [appendEncoded,lineTexts,AllClean,wire,appendNumber]
  | .bulk none => simp [appendEncoded,lineTexts,AllClean,wire]
  | .bulk (some payload) => simp [appendEncoded,lineTexts,AllClean,wire,appendSize]
  | .array none => simp [appendEncoded,lineTexts,AllClean,wire]
  | .array (some items) =>
    rw [appendEncoded,appendItems_eq items,lineTexts,wire]
    simp [appendSize]

theorem appendItems_eq (items : List RespValue) (output : Bytes) :
    appendItems items output =
      if AllClean (lineTextsOf items) then .ok (output ++ wireAll items) else .error lineFailure := by
  match items with
  | [] => simp [appendItems,lineTextsOf,AllClean,wireAll]
  | item::rest =>
    rw [appendItems,appendEncoded_eq item,lineTextsOf,wireAll]
    by_cases first : AllClean (lineTexts item)
    · rw [if_pos first,Persistence.ok_bind,appendItems_eq rest]
      simp [allClean_append,first]
    · rw [if_neg first,Persistence.error_bind,if_neg]
      rw [allClean_append]
      exact fun both => first both.1
end

theorem numeral_print (size : Nat) (bound : size < 2^63) : Numeral (Decimal.print size) size := by
  refine ⟨by omega,by omega,Decimal.print size,Decimal.print_ne_nil size,Decimal.print_digits size,Or.inl ⟨rfl,?_⟩⟩
  rw [Decimal.value_print]

theorem numeral_number (number : Int64) : Numeral (appendNumber number []) number.toInt := by
  have low := Int64.le_toInt number
  have high := Int64.toInt_lt number
  have negative : number < 0 ↔ number.toInt < 0 := Int64.lt_iff_toInt_lt
  refine ⟨low,high,Decimal.print number.toInt.natAbs,Decimal.print_ne_nil _,Decimal.print_digits _,?_⟩
  rw [appendNumber,Decimal.value_print]
  by_cases sign : number.toInt < 0
  · rw [if_pos (negative.mpr sign)]
    exact Or.inr ⟨rfl,by omega⟩
  · rw [if_neg (fun less => sign (negative.mp less))]
    exact Or.inl ⟨rfl,by omega⟩

theorem numeral_null : Numeral [minus,0x31] (-1) :=
  ⟨by decide,by decide,[0x31],List.cons_ne_nil _ _,List.forall_mem_singleton.mpr rfl,Or.inr ⟨rfl,rfl⟩⟩

mutual
theorem wire_frame (limits : ParserLimits) (depth : Nat) (value : RespValue) (clean : AllClean (lineTexts value))
    (fits : Fits limits value) (room : depth + nesting value ≤ limits.maxDepth) :
    Frame limits depth value (wire value) := by
  match value with
  | .simple text => exact Frame.simple depth text (clean text (List.mem_singleton.mpr rfl))
  | .error text => exact Frame.error depth text (clean text (List.mem_singleton.mpr rfl))
  | .integer number => exact Frame.integer depth _ number (numeral_number number)
  | .bulk none => exact Frame.nullBulk depth _ numeral_null
  | .bulk (some payload) => exact Frame.bulk depth _ payload (numeral_print _ fits.2) fits.1
  | .array none => exact Frame.nullArray depth _ numeral_null room
  | .array (some items) =>
    rw [nesting] at room
    exact Frame.array depth _ _ items (numeral_print _ fits.2.1) fits.1 (by omega)
      (wireAll_frames limits (depth + 1) items clean fits.2.2 (by omega))

theorem wireAll_frames (limits : ParserLimits) (depth : Nat) (items : List RespValue)
    (clean : AllClean (lineTextsOf items)) (fits : FitsAll limits items)
    (room : depth + nestingOf items ≤ limits.maxDepth) : Frames limits depth items (wireAll items) := by
  match items with
  | [] => exact Frames.nil depth
  | item::rest =>
    rw [lineTextsOf,allClean_append] at clean
    rw [nestingOf] at room
    exact Frames.cons depth item rest _ _ (wire_frame limits depth item clean.1 fits.1 (by omega))
      (wireAll_frames limits depth rest clean.2 fits.2 (by omega))
end

/-- Decoding undoes encoding, whatever follows on the wire, and the encoder throws exactly
when a line value holds CR or LF. -/
theorem decode_undoes_encode (limits : ParserLimits) (value : RespValue) (rest : Bytes) :
    ((∀ text ∈ lineTexts value, Clean text) → Fits limits value → nesting value ≤ limits.maxDepth →
      ∃ bytes, encode value = .ok bytes ∧
        parseValue (bytes ++ rest) 0 limits = .complete value bytes.length) ∧
    ((∃ failure, encode value = .error failure) ↔ ∃ text ∈ lineTexts value, ¬ Clean text) := by
  have encoded := appendEncoded_eq value []
  rw [List.nil_append] at encoded
  constructor
  · intro clean fits room
    refine ⟨wire value,encoded.trans (if_pos clean),?_⟩
    exact parseValue_frame 0 value _ rest (wire_frame limits 0 value clean fits (by omega))
  · by_cases clean : AllClean (lineTexts value)
    · rw [encode,encoded,if_pos clean]
      constructor
      · rintro ⟨failure,raised⟩
        cases raised
      · rintro ⟨text,member,unclean⟩
        exact absurd (clean text member) unclean
    · rw [encode,encoded,if_neg clean]
      refine ⟨fun _ => ?_,fun _ => ⟨_,rfl⟩⟩
      simpa [AllClean] using clean

/-- A bulk string with CR and LF beside an array in an array, and the beginning of a frame behind them. -/
theorem decode_undoes_encode_nested :
    let value : RespValue := .array (some [.bulk (some [0x0D,0x0A]),.array (some [.integer (-7),.simple [0x4F,0x4B]])])
    ∃ bytes, encode value = .ok bytes ∧ parseValue (bytes ++ [plus]) 0 .default = .complete value bytes.length := by
  refine (decode_undoes_encode .default _ [plus]).1 ?_ ?_ ?_
  · decide
  · simp [Fits,FitsAll,ParserLimits.default]
  · decide

end NovaCache.Protocol
