import NovaCache.Persistence.Wal
import NovaCache.Store.Basic

/-! The snapshot file: its encoding, its checked decoding, and its replacement through a
temporary file. Reading an existing file is assumed to succeed. -/
namespace NovaCache.Persistence

/-- `duration_cast` to milliseconds truncates towards zero. -/
def toUnixMs (time : Int) : Int64 := Int64.ofInt (time.tdiv 1000)

def fromUnixMs (millis : Int64) : Int := millis.toInt * 1000

def appendItems (out : Bytes) (items : List Bytes) : Bytes :=
  items.foldl appendBytes (appendU32 out (UInt32.ofNat items.length))

def appendValue (out : Bytes) : Value → Bytes
  | .string text => appendBytes (appendU8 out 0) text
  | .integer number => appendI64 (appendU8 out 1) number
  | .list items => appendItems (appendU8 out 2) items
  | .set items => appendItems (appendU8 out 3) items.items

def readItems : Nat → Bytes → Except Failure (List Bytes × Bytes)
  | 0, input => .ok ([],input)
  | count+1, input => do
    let (item,input) ← readBytes input
    let (items,input) ← readItems count input
    return (item::items,input)

def insertItem (set : StringSet) (item : Bytes) : StringSet :=
  if absent : item ∈ set.items then set
  else ⟨set.items ++ [item],by
    rw [List.nodup_append]
    exact ⟨set.nodup,List.nodup_singleton item,by
      intro first member second same equal
      rw [List.mem_singleton.mp same] at equal
      exact absent (equal ▸ member)⟩⟩

def readValue (input : Bytes) : Except Failure (Value × Bytes) := do
  let (type,input) ← readU8 input
  if type = 0 then
    let (text,input) ← readBytes input
    return (.string text,input)
  else if type = 1 then
    let (number,input) ← readI64 input
    return (.integer number,input)
  else if type = 2 then
    let (count,input) ← readU32 input
    let (items,input) ← readItems count.toNat input
    return (.list items,input)
  else if type = 3 then
    let (count,input) ← readU32 input
    let (items,input) ← readItems count.toNat input
    return (.set (items.foldl insertItem ⟨[],List.nodup_nil⟩),input)
  else throw (.runtimeError "unknown snapshot value type")

structure SnapshotHeader where
  walOffset : UInt64
  entryCount : UInt64
  deriving DecidableEq, Repr

def appendEntry (out : Bytes) (entry : PersistedEntry) : Bytes :=
  let out := appendValue (appendBytes out entry.key) entry.value
  match entry.expiryWall with
  | none => appendU8 out 0
  | some wall => appendI64 (appendU8 out 1) (toUnixMs wall)

def readEntry (input : Bytes) : Except Failure (PersistedEntry × Bytes) := do
  let (key,input) ← readBytes input
  let (value,input) ← readValue input
  let (expires,input) ← readU8 input
  if expires ≠ 0 then
    let (millis,input) ← readI64 input
    return (⟨key,value,some (fromUnixMs millis)⟩,input)
  else return (⟨key,value,none⟩,input)

def readEntries : Nat → Bytes → Except Failure (List PersistedEntry × Bytes)
  | 0, input => .ok ([],input)
  | count+1, input => do
    let (entry,input) ← readEntry input
    let (entries,input) ← readEntries count input
    return (entry::entries,input)

namespace SnapshotStore

/-- `NCSNP` padded to eight bytes with zeros. -/
def magic : Bytes := [0x4E,0x43,0x53,0x4E,0x50,0,0,0]
def version : UInt32 := 1

def body (walOffset : UInt64) (entries : List PersistedEntry) : Bytes :=
  let header := appendU64 (appendU64 (appendU32 magic version) walOffset) (UInt64.ofNat entries.length)
  entries.foldl appendEntry header

def encode (walOffset : UInt64) (entries : List PersistedEntry) : Bytes :=
  appendU32 (body walOffset entries) (crc32 (body walOffset entries))

/-- What the system calls behind a snapshot may report. -/
structure Io where
  writes : List WriteResult
  fsync : Bool
  close : Bool
  rename : Bool

/-- The file is replaced only by the final rename; a failure leaves the old one. -/
def write (io : Io) (current : Option Bytes) (walOffset : UInt64) (entries : List PersistedEntry) :
    Except Failure Unit × Option Bytes :=
  match writeAll "short write to snapshot" io.writes ⟨[],0⟩ (encode walOffset entries) with
  | (.error failure,_) => (.error failure,current)
  | (.ok (),temporary) =>
    if ¬ io.fsync then (.error (.systemError "fsync(snapshot tmp)"),current)
    else if ¬ io.close then (.error (.systemError "close(snapshot tmp)"),current)
    else if ¬ io.rename then (.error (.systemError "rename snapshot"),current)
    else (.ok (),some temporary.bytes)

/-- The part of `read` inside its `try` block. -/
def decode (file : Bytes) : Except Failure (Option (SnapshotHeader × List PersistedEntry)) := do
  let content := file.take (file.length - 4)
  let (expected,_) ← readU32 (file.drop (file.length - 4))
  if crc32 content ≠ expected then return none
  let cursor ← removePrefix content 8
  let (found,cursor) ← readU32 cursor
  if found ≠ version then return none
  let (walOffset,cursor) ← readU64 cursor
  let (entryCount,cursor) ← readU64 cursor
  let (entries,cursor) ← readEntries entryCount.toNat cursor
  if ¬ cursor.isEmpty then return none
  return some (⟨walOffset,entryCount⟩,entries)

/-- A missing, foreign or damaged file is treated alike. -/
def read (file : Option Bytes) : Option (SnapshotHeader × List PersistedEntry) :=
  match file with
  | none => none
  | some file =>
    if file.length < 8 + 4 + 8 + 8 + 4 ∨ ¬ magic.isPrefixOf file then none
    else match decode file with
      | .error _ => none
      | .ok result => result

end SnapshotStore

def Sized (items : List Bytes) : Prop := items.length < 2^32 ∧ ∀ item ∈ items, item.length < 2^32

def Encodable : Value → Prop
  | .string text => text.length < 2^32
  | .integer _ => True
  | .list items => Sized items
  | .set items => Sized items.items

structure EncodableEntry (entry : PersistedEntry) : Prop where
  key : entry.key.length < 2^32
  value : Encodable entry.value
  expiry : ∀ wall ∈ entry.expiryWall, -2^63 ≤ wall.tdiv 1000 ∧ wall.tdiv 1000 < 2^63

/-- What a snapshot keeps of an entry: its expiry to the millisecond. -/
def truncated (entry : PersistedEntry) : PersistedEntry :=
  {entry with expiryWall := entry.expiryWall.map (fun wall => wall.tdiv 1000 * 1000)}

theorem truncated_whole (entry : PersistedEntry) (whole : ∀ wall ∈ entry.expiryWall, wall.tdiv 1000 * 1000 = wall) :
    truncated entry = entry := by
  obtain ⟨key,value,_ | wall⟩ := entry
  · rfl
  · simp [truncated,whole wall rfl]

theorem fromUnixMs_whole (millis : Int64) : (fromUnixMs millis).tdiv 1000 * 1000 = fromUnixMs millis := by
  rw [fromUnixMs,Int.mul_tdiv_cancel _ (by decide)]

theorem appendBytes_eq (out value : Bytes) : appendBytes out value = out ++ appendBytes [] value := by
  simp [appendBytes,appendU32]

theorem foldl_appendBytes (out : Bytes) (items : List Bytes) :
    items.foldl appendBytes out = out ++ items.foldl appendBytes [] := by
  induction items generalizing out with
  | nil => simp
  | cons item items ih =>
    rw [List.foldl_cons,List.foldl_cons,ih,ih (appendBytes [] item),appendBytes_eq,List.append_assoc]

theorem readBytes_appendBytes (value rest : Bytes) (bound : value.length < 2^32) :
    readBytes (appendBytes [] value ++ rest) = .ok (value,rest) := by
  simp only [appendBytes,appendU32,List.nil_append,List.append_assoc]
  exact readBytes_append value rest bound

theorem readItems_append (items : List Bytes) (rest : Bytes) (bounds : ∀ item ∈ items, item.length < 2^32) :
    readItems items.length (items.foldl appendBytes [] ++ rest) = .ok (items,rest) := by
  induction items with
  | nil => rfl
  | cons item items ih =>
    rw [List.forall_mem_cons] at bounds
    rw [List.foldl_cons,foldl_appendBytes,List.append_assoc,List.length_cons,readItems,
      readBytes_appendBytes item _ bounds.1,ok_bind]
    dsimp only
    rw [ih bounds.2,ok_bind]
    rfl

theorem appendValue_eq (out : Bytes) (value : Value) : appendValue out value = out ++ appendValue [] value := by
  cases value with
  | string text => simp [appendValue,appendBytes,appendU32,appendU8]
  | integer number => simp [appendValue,appendI64,appendU64,appendU8]
  | list items =>
    rw [appendValue,appendValue,appendItems,appendItems,foldl_appendBytes,foldl_appendBytes (appendU32 _ _)]
    simp [appendU32,appendU8]
  | set items =>
    rw [appendValue,appendValue,appendItems,appendItems,foldl_appendBytes,foldl_appendBytes (appendU32 _ _)]
    simp [appendU32,appendU8]

theorem insertItems_nodup (items seen : List Bytes) (nodup : (seen ++ items).Nodup) (start : seen.Nodup) :
    (items.foldl insertItem ⟨seen,start⟩).items = seen ++ items := by
  induction items generalizing seen with
  | nil => simp
  | cons item items ih =>
    have absent : item ∉ seen := by
      rw [List.nodup_append] at nodup
      exact fun member => nodup.2.2 item member item List.mem_cons_self rfl
    have inserted : insertItem ⟨seen,start⟩ item = ⟨seen ++ [item],by
        rw [List.append_cons] at nodup
        exact nodup.sublist (List.sublist_append_left _ _)⟩ := by
      simp [insertItem,absent]
    rw [List.foldl_cons,inserted,ih]
    · simp
    · simpa using nodup

theorem readValue_append (value : Value) (rest : Bytes) (encodable : Encodable value) :
    readValue (appendValue [] value ++ rest) = .ok (value,rest) := by
  cases value with
  | string text =>
    have read := readBytes_appendBytes text rest encodable
    rw [appendValue,appendBytes_eq]
    simp only [appendU8,List.nil_append,List.cons_append,readValue,readU8_append,ok_bind,if_true,read]
    rfl
  | integer number =>
    simp only [appendValue,appendI64,appendU64,appendU8,List.nil_append,List.cons_append,readValue,readU8_append,
      ok_bind,readI64_append]
    rfl
  | list items =>
    have size : (UInt32.ofNat items.length).toNat = items.length := by
      rw [UInt32.toNat_ofNat',Nat.mod_eq_of_lt encodable.1]
    have read := readItems_append items rest encodable.2
    rw [appendValue,appendItems,foldl_appendBytes]
    simp only [appendU32,appendU8,List.nil_append,List.cons_append,List.append_assoc,readValue,readU8_append,ok_bind]
    rw [if_neg (by decide),if_neg (by decide),if_pos trivial,readU32_append,ok_bind]
    dsimp only
    rw [size,read,ok_bind]
    rfl
  | set items =>
    have size : (UInt32.ofNat items.items.length).toNat = items.items.length := by
      rw [UInt32.toNat_ofNat',Nat.mod_eq_of_lt encodable.1]
    have read := readItems_append items.items rest encodable.2
    have rebuilt := insertItems_nodup items.items [] items.nodup List.nodup_nil
    have same : items.items.foldl insertItem ⟨[],List.nodup_nil⟩ = items := by
      cases items
      cases found : List.foldl insertItem ⟨[],List.nodup_nil⟩ _ with
      | mk listed nodup =>
        rw [found] at rebuilt
        subst rebuilt
        rfl
    rw [appendValue,appendItems,foldl_appendBytes]
    simp only [appendU32,appendU8,List.nil_append,List.cons_append,List.append_assoc,readValue,readU8_append,ok_bind]
    rw [if_neg (by decide),if_neg (by decide),if_neg (by decide),if_pos trivial,readU32_append,ok_bind]
    dsimp only
    rw [size,read,ok_bind]
    dsimp only
    rw [same]
    rfl

theorem appendEntry_eq (out : Bytes) (entry : PersistedEntry) : appendEntry out entry = out ++ appendEntry [] entry := by
  unfold appendEntry
  dsimp only
  rw [appendValue_eq,appendValue_eq (appendBytes [] entry.key),appendBytes_eq out]
  cases entry.expiryWall with
  | none => simp [appendU8]
  | some wall => simp [appendU8,appendI64,appendU64]

theorem fromUnixMs_toUnixMs (wall : Int) (low : -2^63 ≤ wall.tdiv 1000) (high : wall.tdiv 1000 < 2^63) :
    fromUnixMs (toUnixMs wall) = wall.tdiv 1000 * 1000 := by
  rw [fromUnixMs,toUnixMs,Int64.toInt_ofInt_of_le low high]

theorem readEntry_append (entry : PersistedEntry) (rest : Bytes) (encodable : EncodableEntry entry) :
    readEntry (appendEntry [] entry ++ rest) = .ok (truncated entry,rest) := by
  obtain ⟨key,value,expiryWall⟩ := entry
  have readKey := fun rest => readBytes_appendBytes key rest encodable.key
  have readContent := fun rest => readValue_append value rest encodable.value
  cases expiryWall with
  | none =>
    rw [appendEntry,appendValue_eq]
    simp only [appendU8,List.append_assoc,readEntry,readKey,ok_bind,readContent,List.cons_append,List.nil_append,
      readU8_append]
    rfl
  | some wall =>
    obtain ⟨low,high⟩ := encodable.expiry wall rfl
    rw [appendEntry,appendValue_eq]
    simp only [appendU8,appendI64,appendU64,List.append_assoc,readEntry,readKey,ok_bind,readContent,List.cons_append,
      List.nil_append,readU8_append,readI64_append,fromUnixMs_toUnixMs wall low high]
    rfl

theorem foldl_appendEntry (out : Bytes) (entries : List PersistedEntry) :
    entries.foldl appendEntry out = out ++ entries.foldl appendEntry [] := by
  induction entries generalizing out with
  | nil => simp
  | cons entry entries ih =>
    rw [List.foldl_cons,List.foldl_cons,ih,ih (appendEntry [] entry),appendEntry_eq,List.append_assoc]

theorem readEntries_append (entries : List PersistedEntry) (rest : Bytes)
    (encodable : ∀ entry ∈ entries, EncodableEntry entry) :
    readEntries entries.length (entries.foldl appendEntry [] ++ rest) = .ok (entries.map truncated,rest) := by
  induction entries with
  | nil => rfl
  | cons entry entries ih =>
    rw [List.forall_mem_cons] at encodable
    rw [List.foldl_cons,foldl_appendEntry,List.append_assoc,List.length_cons,readEntries,
      readEntry_append entry _ encodable.1,ok_bind]
    dsimp only
    rw [ih encodable.2,ok_bind]
    rfl

namespace SnapshotStore

theorem body_eq (walOffset : UInt64) (entries : List PersistedEntry) :
    body walOffset entries = magic ++ (LittleEndian.encode 4 version.toNat ++ (LittleEndian.encode 8 walOffset.toNat ++
      (LittleEndian.encode 8 (UInt64.ofNat entries.length).toNat ++ entries.foldl appendEntry []))) := by
  rw [body,foldl_appendEntry]
  simp [appendU64,appendU32]

theorem read_encode (walOffset : UInt64) (entries : List PersistedEntry) (few : entries.length < 2^64)
    (encodable : ∀ entry ∈ entries, EncodableEntry entry) :
    read (some (encode walOffset entries)) =
      some (⟨walOffset,UInt64.ofNat entries.length⟩,entries.map truncated) := by
  have size : (UInt64.ofNat entries.length).toNat = entries.length := by
    rw [UInt64.toNat_ofNat',Nat.mod_eq_of_lt few]
  have file : encode walOffset entries =
      body walOffset entries ++ LittleEndian.encode 4 (crc32 (body walOffset entries)).toNat := rfl
  have whole : (encode walOffset entries).length = (body walOffset entries).length + 4 := by
    rw [file,List.length_append,LittleEndian.encode_length]
  have content : (encode walOffset entries).take ((encode walOffset entries).length - 4) = body walOffset entries := by
    rw [whole,Nat.add_sub_cancel,file,List.take_left]
  have trailer : (encode walOffset entries).drop ((encode walOffset entries).length - 4) =
      LittleEndian.encode 4 (crc32 (body walOffset entries)).toNat ++ [] := by
    rw [whole,Nat.add_sub_cancel,file,List.drop_left,List.append_nil]
  have entriesRead := readEntries_append entries [] encodable
  rw [List.append_nil] at entriesRead
  have decoded : decode (encode walOffset entries) =
      .ok (some (⟨walOffset,UInt64.ofNat entries.length⟩,entries.map truncated)) := by
    rw [decode,content,trailer,readU32_append,ok_bind]
    simp only [ne_eq,not_true,if_false]
    have skipped : ∀ rest, removePrefix (magic ++ rest) 8 = .ok rest := fun rest => removePrefix_append magic rest
    rw [body_eq,skipped,ok_bind,readU32_append,ok_bind]
    simp only [not_true,if_false]
    rw [readU64_append,ok_bind]
    dsimp only
    rw [readU64_append,ok_bind]
    dsimp only
    rw [size,entriesRead,ok_bind]
    rfl
  have long : ¬ (encode walOffset entries).length < 8 + 4 + 8 + 8 + 4 := by
    rw [whole,body_eq]
    simp only [List.length_append,LittleEndian.encode_length,show magic.length = 8 from rfl]
    omega
  have headed : magic.isPrefixOf (encode walOffset entries) = true := by
    rw [List.isPrefixOf_iff_prefix,file,body_eq]
    exact ⟨_,(List.append_assoc _ _ _).symm⟩
  simp only [read,long,headed,not_true,or_self,if_false,decoded]

end SnapshotStore
end NovaCache.Persistence
