import NovaCache.Persistence.Snapshot
import NovaCache.Persistence.WalFailure

/-! The snapshot file in both directions: what was written is read back, and what is read
could have been written. -/
namespace NovaCache.Persistence

theorem readItems_sized {count : Nat} {input rest : Bytes} {items : List Bytes}
    (read : readItems count input = .ok (items,rest)) :
    items.length = count ∧ ∀ item ∈ items, item.length < 2^32 := by
  induction count generalizing input items with
  | zero =>
    cases read
    exact ⟨rfl,List.forall_mem_nil _⟩
  | succ count ih =>
    obtain ⟨⟨item,input⟩,first,read⟩ := bind_success _ _ _ read
    obtain ⟨⟨others,input⟩,second,read⟩ := bind_success _ _ _ read
    cases read
    obtain ⟨size,bounds⟩ := ih second
    exact ⟨congrArg (· + 1) size,List.forall_mem_cons.mpr ⟨readBytes_length first,bounds⟩⟩

/-- Inserting items one by one keeps some of them. -/
theorem insertItems_sublist (items : List Bytes) (set : StringSet) :
    (items.foldl insertItem set).items.Sublist (set.items ++ items) := by
  induction items generalizing set with
  | nil => simp
  | cons item items ih =>
    refine (ih (insertItem set item)).trans ?_
    rw [List.append_cons]
    refine List.Sublist.append_right ?_ items
    unfold insertItem
    split
    · exact List.sublist_append_left _ _
    · exact List.Sublist.refl _

theorem readValue_encodable {input rest : Bytes} {value : Value} (read : readValue input = .ok (value,rest)) :
    Encodable value := by
  obtain ⟨⟨type,input⟩,_,read⟩ := bind_success _ _ _ read
  dsimp only at read
  split at read
  · obtain ⟨⟨text,input⟩,bytes,read⟩ := bind_success _ _ _ read
    cases read
    exact readBytes_length bytes
  · split at read
    · obtain ⟨⟨number,input⟩,_,read⟩ := bind_success _ _ _ read
      cases read
      trivial
    · split at read
      · obtain ⟨⟨count,input⟩,_,read⟩ := bind_success _ _ _ read
        obtain ⟨⟨items,input⟩,listed,read⟩ := bind_success _ _ _ read
        cases read
        obtain ⟨size,bounds⟩ := readItems_sized listed
        exact ⟨size ▸ count.toNat_lt,bounds⟩
      · split at read
        · obtain ⟨⟨count,input⟩,_,read⟩ := bind_success _ _ _ read
          obtain ⟨⟨items,input⟩,listed,read⟩ := bind_success _ _ _ read
          cases read
          obtain ⟨size,bounds⟩ := readItems_sized listed
          have kept := insertItems_sublist items ⟨[],List.nodup_nil⟩
          exact ⟨lt_of_le_of_lt kept.length_le (size ▸ count.toNat_lt),fun item member => bounds item (kept.subset member)⟩
        · cases read

/-- What a snapshot can hold without change. -/
structure Stored (entry : PersistedEntry) : Prop where
  key : entry.key.length < 2^32
  value : Encodable entry.value
  expiry : ∀ wall ∈ entry.expiryWall, ∃ millis, wall = fromUnixMs millis

theorem Stored.encodable {entry : PersistedEntry} (stored : Stored entry) : EncodableEntry entry := by
  refine ⟨stored.key,stored.value,fun wall expiry => ?_⟩
  obtain ⟨millis,rfl⟩ := stored.expiry wall expiry
  rw [fromUnixMs,Int.mul_tdiv_cancel _ (by decide)]
  exact ⟨millis.le_toInt,millis.toInt_lt⟩

theorem Stored.truncated {entry : PersistedEntry} (stored : Stored entry) : truncated entry = entry := by
  refine truncated_whole entry fun wall expiry => ?_
  obtain ⟨millis,rfl⟩ := stored.expiry wall expiry
  exact fromUnixMs_whole millis

theorem readEntry_stored {input rest : Bytes} {entry : PersistedEntry} (read : readEntry input = .ok (entry,rest)) :
    Stored entry := by
  obtain ⟨⟨key,input⟩,first,read⟩ := bind_success _ _ _ read
  obtain ⟨⟨value,input⟩,second,read⟩ := bind_success _ _ _ read
  obtain ⟨⟨expires,input⟩,_,read⟩ := bind_success _ _ _ read
  dsimp only at read
  split at read
  · obtain ⟨⟨millis,input⟩,_,read⟩ := bind_success _ _ _ read
    cases read
    refine ⟨readBytes_length first,readValue_encodable second,fun wall member => ?_⟩
    exact ⟨millis,(Option.mem_some_iff.mp member).symm⟩
  · cases read
    exact ⟨readBytes_length first,readValue_encodable second,fun wall member => absurd member (Option.not_mem_none wall)⟩

theorem readEntries_stored {count : Nat} {input rest : Bytes} {entries : List PersistedEntry}
    (read : readEntries count input = .ok (entries,rest)) : ∀ entry ∈ entries, Stored entry := by
  induction count generalizing input entries with
  | zero =>
    cases read
    exact List.forall_mem_nil _
  | succ count ih =>
    obtain ⟨⟨entry,input⟩,first,read⟩ := bind_success _ _ _ read
    obtain ⟨⟨others,input⟩,second,read⟩ := bind_success _ _ _ read
    cases read
    exact List.forall_mem_cons.mpr ⟨readEntry_stored first,ih second⟩

namespace SnapshotStore

theorem decode_stored {file : Bytes} {header : SnapshotHeader} {entries : List PersistedEntry}
    (decoded : decode file = .ok (some (header,entries))) : ∀ entry ∈ entries, Stored entry := by
  obtain ⟨⟨expected,_⟩,_,decoded⟩ := bind_success _ _ _ decoded
  dsimp only at decoded
  split at decoded
  · cases decoded
  · obtain ⟨cursor,_,decoded⟩ := bind_success _ _ _ decoded
    obtain ⟨⟨found,cursor⟩,_,decoded⟩ := bind_success _ _ _ decoded
    dsimp only at decoded
    split at decoded
    · cases decoded
    · obtain ⟨⟨walOffset,cursor⟩,_,decoded⟩ := bind_success _ _ _ decoded
      obtain ⟨⟨entryCount,cursor⟩,_,decoded⟩ := bind_success _ _ _ decoded
      obtain ⟨⟨listed,cursor⟩,read,decoded⟩ := bind_success _ _ _ decoded
      dsimp only at decoded
      split at decoded
      · cases decoded
      · cases decoded
        exact readEntries_stored read

theorem read_stored {file : Option Bytes} {header : SnapshotHeader} {entries : List PersistedEntry}
    (found : read file = some (header,entries)) : ∀ entry ∈ entries, Stored entry := by
  unfold read at found
  split at found
  · cases found
  · split at found
    · cases found
    · split at found
      · cases found
      · next decoded =>
        rw [found] at decoded
        exact decode_stored decoded

/-- The rename puts the encoding in place of the file, and nothing else changes it. -/
theorem write_cases (io : Io) (current : Option Bytes) (walOffset : UInt64) (entries : List PersistedEntry) :
    write io current walOffset entries = (.ok (),some (encode walOffset entries)) ∨
      ∃ failure, write io current walOffset entries = (.error failure,current) := by
  obtain ⟨file,whole⟩ := writeAll_stored "short write to snapshot" io.writes [] (encode walOffset entries)
  unfold write
  split
  · next failure _ _ => exact Or.inr ⟨failure,rfl⟩
  · next temporary written =>
    change writeAll "short write to snapshot" io.writes ⟨[],([] : Bytes).length⟩ _ = _ at written
    rw [written] at file whole
    rw [whole.mp rfl,List.take_length] at file
    split
    · exact Or.inr ⟨_,rfl⟩
    · split
      · exact Or.inr ⟨_,rfl⟩
      · split
        · exact Or.inr ⟨_,rfl⟩
        · dsimp only at file
          rw [file]
          exact Or.inl rfl

/-- What `write` has put in place is read as the same entries in the same order, with each
expiry cut to whole milliseconds. -/
theorem read_written (walOffset : UInt64) (entries : List PersistedEntry) (few : entries.length < 2^64)
    (encodable : ∀ entry ∈ entries, EncodableEntry entry) (io : Io) (current : Option Bytes)
    (returned : (write io current walOffset entries).1 = .ok ()) :
    ∃ header, read (write io current walOffset entries).2 = some (header,entries.map truncated) ∧
      header.walOffset = walOffset ∧ header.entryCount.toNat = entries.length := by
  refine ⟨⟨walOffset,UInt64.ofNat entries.length⟩,?_,rfl,?_⟩
  · rcases write_cases io current walOffset entries with written | ⟨failure,failed⟩
    · rw [written]
      exact read_encode walOffset entries few encodable
    · rw [failed] at returned
      cases returned
  · exact (UInt64.toNat_ofNat' ..).trans (Nat.mod_eq_of_lt few)

/-- One entry of each kind; the last expires between two milliseconds. -/
def mixed : List PersistedEntry :=
  [⟨[0x61],.string [0x78],none⟩,⟨[0x62],.integer (-1),some 5000⟩,⟨[0x63],.list [],none⟩,
    ⟨[0x64],.set ⟨[[0x79],[0x78]],by decide⟩,some 1234567⟩]

theorem read_written_mixed : ∃ header, read (write ⟨[.interrupted,.wrote 5],true,true,true⟩ none 7 mixed).2 =
      some (header,mixed.map truncated) ∧ header.walOffset = 7 ∧ header.entryCount.toNat = 4 := by
  refine read_written 7 mixed (by decide) ?_ _ none (by decide +kernel)
  refine List.forall_mem_cons.mpr ⟨⟨by decide,?_,nofun⟩,List.forall_mem_cons.mpr ⟨⟨by decide,trivial,?_⟩,
    List.forall_mem_cons.mpr ⟨⟨by decide,⟨by decide,List.forall_mem_nil _⟩,nofun⟩,List.forall_mem_singleton.mpr
      ⟨by decide,⟨by decide,?_⟩,?_⟩⟩⟩⟩
  · change 1 < 2^32
    decide
  · simp
  · simp
  · simp

end SnapshotStore
end NovaCache.Persistence
