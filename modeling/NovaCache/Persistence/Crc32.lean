import NovaCache.Persistence.Binary

/-! The table-driven checksum guarding every log record and snapshot. -/
namespace NovaCache.Persistence

def crcBit (crc : UInt32) : UInt32 :=
  if crc &&& 1 ≠ 0 then (0xEDB88320 : UInt32) ^^^ (crc >>> 1) else crc >>> 1

def crcTable : Vector UInt32 256 :=
  Vector.ofFn fun index => Nat.repeat crcBit 8 (UInt32.ofNat index.val)

def crc32Update (crc : UInt32) (data : Bytes) : UInt32 :=
  ~~~ data.foldl (fun crc byte =>
    let index := (crc ^^^ byte.toUInt32).toUInt8
    crcTable.get ⟨index.toNat,index.toNat_lt⟩ ^^^ (crc >>> 8)) (~~~ crc)

def crc32 (data : Bytes) : UInt32 := crc32Update 0 data

end NovaCache.Persistence
