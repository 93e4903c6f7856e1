import NovaCache.Store.Operations
import NovaCache.ExpiringMap
import Mathlib.Data.Finset.Card

/-! Sequences of store operations, and the flat map that explains what they return. The
map knows neither shards nor removal: a cell is absent once its deadline has come. -/
namespace NovaCache

/-- One call, with every clock reading it makes and the answers to its random draws. -/
inductive StoreOp
  | set (key : Bytes) (value : Value) (reading : Instant)
  | setExpiring (key : Bytes) (value : Value) (expiryWall : Option Int) (reading : Instant)
  | get (key : Bytes) (now : Int)
  | del (key : Bytes) (now : Int)
  | delMany (keys : List Bytes) (now : Int)
  | exists_ (key : Bytes) (now : Int)
  | existsMany (keys : List Bytes) (now : Int)
  | expire (key : Bytes) (ttl wallNow : Int) (first second : Instant)
  | expireAt (key : Bytes) (expiryWall : Option Int) (first second : Instant)
  | ttl (key : Bytes) (now : Int)
  | keys (pattern : Bytes) (now : Int)
  | expiryWallTime (key : Bytes) (now : Int)
  | exportSnapshotEntries (now : Int)
  | activeExpireCycle (samplesPerShard : Nat) (draws : Nat → Nat → Nat) (now : Int)

inductive StoreResult
  | done
  | value (found : Option Value)
  | flag (answer : Bool)
  | count (number : Nat)
  | seconds (remaining : Int)
  | keys (result : KeysResult)
  | wall (expiry : Option Int)
  | entries (exported : List PersistedEntry)
  deriving DecidableEq, Repr

namespace StoreOp

def steady : StoreOp → List Int
  | .set _ _ reading | .setExpiring _ _ _ reading => [reading.now]
  | .expire _ _ _ first second | .expireAt _ _ first second => [first.now,second.now]
  | .get _ now | .del _ now | .delMany _ now | .exists_ _ now | .existsMany _ now | .ttl _ now
  | .keys _ now | .expiryWallTime _ now | .exportSnapshotEntries now | .activeExpireCycle _ _ now => [now]

def now (op : StoreOp) : Int := op.steady.headD 0

def observes : StoreOp → Bool
  | .activeExpireCycle _ _ _ => false
  | _ => true

end StoreOp

/-- The steady clock never goes back, neither between calls nor within one. -/
def Clocked (ops : List StoreOp) : Prop := (ops.flatMap StoreOp.steady).Pairwise (· ≤ ·)

namespace Store
variable {config : StoreConfig}

def step (store : Store config) : StoreOp → Except Failure (StoreResult × Store config)
  | .set key value reading => .ok (.done,store.set key value reading)
  | .setExpiring key value expiryWall reading => .ok (.done,store.setExpiring key value expiryWall reading)
  | .get key now => .ok ((store.get key now).map .value id)
  | .del key now => .ok ((store.del key now).map .flag id)
  | .delMany keys now => .ok ((store.delMany keys now).map .count id)
  | .exists_ key now => .ok ((store.exists_ key now).map .flag id)
  | .existsMany keys now => .ok ((store.existsMany keys now).map .count id)
  | .expire key ttl wallNow first second => .ok ((store.expire key ttl wallNow first second).map .flag id)
  | .expireAt key expiryWall first second => .ok ((store.expireAt key expiryWall first second).map .flag id)
  | .ttl key now => .ok ((store.ttl key now).map .seconds id)
  | .keys pattern now => .ok ((store.keys pattern now).map .keys id)
  | .expiryWallTime key now => .ok ((store.expiryWallTime key now).map .wall id)
  | .exportSnapshotEntries now => .ok ((store.exportSnapshotEntries now).map .entries id)
  | .activeExpireCycle samplesPerShard draws now => do
    let result ← store.activeExpireCycle samplesPerShard draws now
    .ok (result.map .count id)

def runFrom (store : Store config) : List StoreOp → Except Failure (List StoreResult)
  | [] => .ok []
  | op::ops => do
    let (result,next) ← store.step op
    let results ← next.runFrom ops
    .ok (result::results)

def run (config : StoreConfig) (ops : List StoreOp) : Except Failure (List StoreResult) :=
  (empty : Store config).runFrom ops

end Store

namespace Reference
open ExpiringMap

structure Cell where
  value : Value
  deadline : Option Int
  wallExpiry : Option Int
  deriving DecidableEq, Repr

abbrev Map := Bytes → Option Cell

def live (map : Map) (now : Int) (key : Bytes) : Option Cell := visible Cell.deadline map now key

def put {α : Type} (map : Bytes → Option α) (key : Bytes) (cell : Option α) : Bytes → Option α :=
  fun other => if other = key then cell else map other

def fresh (value : Value) (expiryWall : Option Int) (reading : Instant) : Option Cell :=
  match expiryWall with
  | none => some ⟨value,none,none⟩
  | some wall => if wall ≤ reading.wallNow then none else some ⟨value,some (deadline reading wall),some wall⟩

/-- The cell of a key given a new wall expiry; without one, or with a past one, it goes. -/
def moved (cell : Cell) (expiryWall : Option Int) (first second : Instant) : Option Cell :=
  match expiryWall with
  | none => none
  | some wall =>
    if wall ≤ first.wallNow then none
    else some {cell with deadline := some (deadline second wall), wallExpiry := some wall}

def reschedule (map : Map) (key : Bytes) (expiryWall : Option Int) (first second : Instant) : Map :=
  put map key ((live map first.now key).bind (moved · expiryWall first second))

def target (ttl wallNow : Int) : Int := if ttl ≤ 0 then wallNow else wallNow + ttl * 1000000

def after (map : Map) : StoreOp → Map
  | .set key value reading => put map key (fresh value none reading)
  | .setExpiring key value expiryWall reading => put map key (fresh value expiryWall reading)
  | .del key _ => put map key none
  | .delMany keys _ => fun key => if key ∈ keys then none else map key
  | .expire key ttl wallNow first second => reschedule map key (some (target ttl wallNow)) first second
  | .expireAt key expiryWall first second => reschedule map key expiryWall first second
  | _ => map

def remaining (found : Option Cell) (now : Int) : Int :=
  match found.map Cell.deadline with
  | none => -2
  | some none => -1
  | some (some expiry) => (expiry - now) / 1000000000

/-- What a call returns on this map; exported entries are determined up to their order.
The map does not know which cells a cycle will meet, see `Explains`. -/
def Answers (map : Map) : StoreOp → StoreResult → Prop
  | .set _ _ _, result | .setExpiring _ _ _ _, result => result = .done
  | .get key now, result => result = .value ((live map now key).map Cell.value)
  | .del key now, result | .exists_ key now, result => result = .flag (live map now key).isSome
  | .delMany keys now, result =>
    result = .count (keys.toFinset.filter (fun key => (live map now key).isSome)).card
  | .existsMany keys now, result => result = .count (keys.countP (fun key => (live map now key).isSome))
  | .expire key _ _ first _, result | .expireAt key _ first _, result =>
    result = .flag (live map first.now key).isSome
  | .ttl key now, result => result = .seconds (remaining (live map now key) now)
  | .keys pattern now, result =>
    if pattern = [0x2A] then
      ∃ listed, result = .keys ⟨.ok,listed⟩ ∧ listed.Pairwise (· < ·) ∧
        ∀ key, key ∈ listed ↔ (live map now key).isSome
    else result = .keys ⟨.unsupportedPattern,[]⟩
  | .expiryWallTime key now, result => result = .wall ((live map now key).bind Cell.wallExpiry)
  | .exportSnapshotEntries now, result =>
    ∃ listed, result = .entries listed ∧ (listed.map PersistedEntry.key).Nodup ∧
      ∀ item, item ∈ listed ↔
        (live map now item.key).map (fun cell => (cell.value,cell.wallExpiry)) = some (item.value,item.expiryWall)
  | .activeExpireCycle _ _ _, _ => False

/-- The results of a sequence of calls are those of the map. A cycle removes some cells
that are due and returns how many. -/
inductive Explains : Map → List StoreOp → List StoreResult → Prop
  | nil (map : Map) : Explains map [] []
  | call (map : Map) (op : StoreOp) (result : StoreResult) (ops : List StoreOp) (results : List StoreResult)
      (answers : Answers map op result) (rest : Explains (after map op) ops results) : Explains map (op::ops) (result::results)
  | cycle (map : Map) (samples : Nat) (draws : Nat → Nat → Nat) (now : Int) (gone : Finset Bytes)
      (ops : List StoreOp) (results : List StoreResult)
      (due : ∀ key ∈ gone, ∃ cell, map key = some cell ∧ Due Cell.deadline cell now)
      (rest : Explains (fun key => if key ∈ gone then none else map key) ops results) :
      Explains map (.activeExpireCycle samples draws now::ops) (.count gone.card::results)

/-- Equal results, where exported entries are compared as a set. -/
def Same : StoreResult → StoreResult → Prop
  | .entries one, .entries two => one.Perm two
  | one, two => one = two

def observed (ops : List StoreOp) (results : List StoreResult) : List StoreResult :=
  ((ops.zip results).filter (fun pair => pair.1.observes)).map Prod.snd

theorem observed_cons (op : StoreOp) (ops : List StoreOp) (result : StoreResult) (results : List StoreResult) :
    observed (op::ops) (result::results) =
      if op.observes then result::observed ops results else observed ops results := by
  rw [observed,List.zip_cons_cons,List.filter_cons]
  split <;> rfl

def Expected : Map → List StoreOp → List StoreResult → Prop
  | _, [], [] => True
  | map, op::ops, result::results => Answers map op result ∧ Expected (after map op) ops results
  | _, _, _ => False

theorem Same.refl (result : StoreResult) : Same result result := by
  cases result <;> first | exact List.Perm.refl _ | rfl

theorem answers_unique (map : Map) (op : StoreOp) (one two : StoreResult) (first : Answers map op one)
    (second : Answers map op two) : Same one two := by
  cases op with
  | keys pattern now =>
    simp only [Answers] at first second
    split at first
    · next wildcard =>
      rw [if_pos wildcard] at second
      obtain ⟨left,rfl,sorted,members⟩ := first
      obtain ⟨right,rfl,sorted',members'⟩ := second
      have distinct : ∀ list : List Bytes, list.Pairwise (· < ·) → list.Nodup := by
        intro list increasing
        refine List.Pairwise.imp (fun {a b} smaller equal => ?_) increasing
        exact List.lt_irrefl b (equal ▸ smaller)
      have perm : left.Perm right := (List.perm_ext_iff_of_nodup (distinct left sorted) (distinct right sorted')).mpr
        fun key => (members key).trans (members' key).symm
      rw [perm.eq_of_pairwise (fun a b _ _ less more => absurd more (List.lt_asymm less)) sorted sorted']
      exact Same.refl _
    · next wildcard =>
      rw [if_neg wildcard] at second
      rw [first,second]
      exact Same.refl _
  | exportSnapshotEntries now =>
    obtain ⟨left,rfl,nodup,members⟩ := first
    obtain ⟨right,rfl,nodup',members'⟩ := second
    exact (List.perm_ext_iff_of_nodup nodup.of_map nodup'.of_map).mpr
      fun item => (members item).trans (members' item).symm
  | activeExpireCycle samples draws now => exact first.elim
  | _ =>
    simp only [Answers] at first second
    rw [first,second]
    exact Same.refl _

theorem expected_unique (map : Map) (ops : List StoreOp) (one two : List StoreResult)
    (first : Expected map ops one) (second : Expected map ops two) : List.Forall₂ Same one two := by
  induction ops generalizing map one two with
  | nil =>
    cases one with
    | nil =>
      cases two with
      | nil => exact List.Forall₂.nil
      | cons result results => cases second
    | cons result results => cases first
  | cons op ops ih =>
    cases one with
    | nil => cases first
    | cons result results =>
      cases two with
      | nil => cases second
      | cons other others =>
        exact List.Forall₂.cons (answers_unique map op result other first.1 second.1)
          (ih (after map op) results others first.2 second.2)

end Reference
end NovaCache
