import NovaCache.Persistence.Engine

/-! The payload encoders of the log against the decoder in `apply_record`. The bounds are
those of the 32-bit length and count fields, one for each string and each list, so a
payload as a whole may be much longer than a record can announce. -/
namespace NovaCache.Persistence
variable {config : StoreConfig}

inductive Payload
  | set (key value : Bytes) (expiry : Option Int64)
  | del (keys : List Bytes)
  | expire (key : Bytes) (expiry : Int64)
  deriving DecidableEq, Repr

namespace Payload

def opcode : Payload → WalOpcode
  | .set _ _ _ => .set
  | .del _ => .del
  | .expire _ _ => .expire

def encode : Payload → Bytes
  | .set key value expiry => encodeSetPayload key value expiry
  | .del keys => encodeDelPayload keys
  | .expire key expiry => encodeExpirePayload key expiry

/-- The store operation that a payload stands for. -/
def perform (payload : Payload) (store : Store config) (first second : Instant) : Store config :=
  match payload with
  | .set key value expiry => store.setExpiring key (.string value) (expiry.map fromUnixMs) first
  | .del keys => (store.delMany keys first.now).2
  | .expire key expiry => (store.expireAt key (some (fromUnixMs expiry)) first second).2

/-- Every string is shorter than 2^32 bytes and every list has fewer than 2^32 items. -/
def Sized : Payload → Prop
  | .set key value _ => key.length < 2^32 ∧ value.length < 2^32
  | .del keys => Persistence.Sized keys
  | .expire key _ => key.length < 2^32

end Payload

/-- `apply_record` reads back what was encoded: it raises nothing, reads the payload to
its end, and has the effect of the store operation. -/
theorem payload_applied (store : Store config) (offset : UInt64) (payload : Payload) (first second : Instant)
    (sized : payload.Sized) :
    applyRecord store ⟨offset,payload.opcode,payload.encode⟩ first second =
        .ok (payload.perform store first second) ∧
      applyRecordView store ⟨offset,payload.opcode,payload.encode⟩ first second =
        .ok (payload.perform store first second,[]) := by
  have view : applyRecordView store ⟨offset,payload.opcode,payload.encode⟩ first second =
      .ok (payload.perform store first second,[]) := by
    cases payload with
    | set key value expiry => exact applyRecordView_set store offset first second key value expiry sized.1 sized.2
    | del keys => exact applyRecordView_del store offset first second keys sized
    | expire key expiry => exact applyRecordView_expire store offset first second key expiry sized
  refine ⟨?_,view⟩
  rw [applyRecord,view]
  rfl

/-- An empty key and a repeated one. -/
theorem payload_applied_repeated :
    applyRecordView (Store.empty : Store ⟨1,Nat.one_pos,List.length,64⟩)
        ⟨1,.del,encodeDelPayload [[],[7],[7]]⟩ ⟨5,0⟩ ⟨5,0⟩ =
      .ok ((Store.empty.delMany [[],[7],[7]] 5).2,[]) :=
  (payload_applied Store.empty 1 (.del [[],[7],[7]]) ⟨5,0⟩ ⟨5,0⟩ ⟨by decide,by decide⟩).2

end NovaCache.Persistence
