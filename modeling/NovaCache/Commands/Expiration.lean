import NovaCache.Commands.Registry
import NovaCache.Store.Specification

/-! The clock arithmetic of EXPIRE in signed 64-bit tick counts. The rest of the model
computes with exact integers; here every intermediate is checked, and where none overflows
the two agree. -/
namespace NovaCache.Commands
open Persistence

/-- A tick count; what does not fit in 64 signed bits is an overflow. -/
def ticks (value : Int) : Option Int := if -2^63 ≤ value ∧ value < 2^63 then some value else none

theorem ticks_fits {value : Int} (low : -2^63 ≤ value) (high : value < 2^63) : ticks value = some value :=
  if_pos ⟨low,high⟩

theorem ticks_some {value result : Int} (fits : ticks value = some result) :
    result = value ∧ -2^63 ≤ value ∧ value < 2^63 := by
  unfold ticks at fits
  split at fits
  · next range => exact ⟨(Option.some.inj fits).symm,range⟩
  · cases fits

namespace Checked

def expirationIsRepresentable (seconds : Int64) (steady : Int) : Option Bool :=
  if seconds ≤ 0 then some true
  else do
    let room ← ticks (2^63 - 1 - steady)
    some (seconds.toInt ≤ room.tdiv 1000000000)

/-- `wall_now + ttl`, with the seconds converted to microseconds. -/
def expiry (seconds wallNow : Int) : Option Int := do
  let length ← ticks (seconds * 1000000)
  ticks (wallNow + length)

/-- The deadline that `expire_at` gives a live key; without one it has removed the key. -/
def expireAt (expiryWall : Int) (first second : Instant) : Option (Option Int) :=
  if expiryWall ≤ first.wallNow then some none
  else do
    let left ← ticks (expiryWall - second.wallNow)
    let nanoseconds ← ticks (left * 1000)
    let deadline ← ticks (second.now + nanoseconds)
    some (some deadline)

/-- The path of `Store::expire` for a positive number of seconds. -/
def expire (seconds : Int) (environment : Environment) : Option (Option Int) := do
  let expiryWall ← expiry seconds environment.wallNow
  expireAt expiryWall environment.first environment.second

/-- The path of `durable_expire`, through `to_unix_ms` and `from_unix_ms`. -/
def durableExpire (seconds : Int) (environment : Environment) : Option (Option Int) := do
  let expiryWall ← expiry seconds environment.wallNow
  let millis ← ticks (expiryWall.tdiv 1000)
  let rounded ← ticks (millis * 1000)
  expireAt rounded environment.first environment.second

end Checked

/-! Where nothing overflows, the exact model computes the same. -/

theorem checked_guard (seconds : Int64) (steady : Int) (answer : Bool)
    (returned : Checked.expirationIsRepresentable seconds steady = some answer) :
    expirationIsRepresentable seconds steady = answer := by
  unfold Checked.expirationIsRepresentable at returned
  unfold expirationIsRepresentable
  split at returned
  · next small =>
    rw [if_pos small]
    exact Option.some.inj returned
  · next large =>
    obtain ⟨room,fits,same⟩ := Option.bind_eq_some_iff.mp returned
    obtain ⟨rfl,_⟩ := ticks_some fits
    rw [if_neg large]
    exact Option.some.inj same

theorem checked_expiry (seconds wallNow expiryWall : Int) (returned : Checked.expiry seconds wallNow = some expiryWall) :
    expiryWall = wallNow + seconds * 1000000 ∧ expiryWall < 2^63 := by
  obtain ⟨length,converted,sum⟩ := Option.bind_eq_some_iff.mp returned
  obtain ⟨rfl,_⟩ := ticks_some converted
  obtain ⟨rfl,_,high⟩ := ticks_some sum
  exact ⟨rfl,high⟩

theorem checked_expireAt (entry : NovaCache.Entry) (expiryWall : Int) (first second : Instant) (outcome : Option Int)
    (returned : Checked.expireAt expiryWall first second = some outcome) :
    (Store.rescheduled entry (some expiryWall) first second).bind NovaCache.Entry.expiresAt = outcome := by
  unfold Checked.expireAt at returned
  unfold Store.rescheduled
  dsimp only
  split at returned
  · next past =>
    rw [if_pos past]
    exact Option.some.inj returned
  · next future =>
    obtain ⟨left,difference,returned⟩ := Option.bind_eq_some_iff.mp returned
    obtain ⟨nanoseconds,converted,returned⟩ := Option.bind_eq_some_iff.mp returned
    obtain ⟨final,sum,returned⟩ := Option.bind_eq_some_iff.mp returned
    obtain ⟨rfl,_⟩ := ticks_some difference
    obtain ⟨rfl,_⟩ := ticks_some converted
    obtain ⟨rfl,_⟩ := ticks_some sum
    rw [if_neg future]
    exact Option.some.inj returned

theorem checked_expire (entry : NovaCache.Entry) (seconds : Int) (environment : Environment) (outcome : Option Int)
    (returned : Checked.expire seconds environment = some outcome) :
    (Store.rescheduled entry (some (environment.wallNow + seconds * 1000000)) environment.first
      environment.second).bind NovaCache.Entry.expiresAt = outcome := by
  obtain ⟨expiryWall,computed,returned⟩ := Option.bind_eq_some_iff.mp returned
  obtain ⟨rfl,_⟩ := checked_expiry _ _ _ computed
  exact checked_expireAt entry _ _ _ outcome returned

theorem checked_durableExpire (entry : NovaCache.Entry) (seconds : Int) (positive : 0 < seconds)
    (environment : Environment) (outcome : Option Int)
    (returned : Checked.durableExpire seconds environment = some outcome) :
    (Store.rescheduled entry (some (fromUnixMs (PersistenceEngine.expiryMs seconds environment.wallNow)))
      environment.first environment.second).bind NovaCache.Entry.expiresAt = outcome := by
  obtain ⟨expiryWall,computed,returned⟩ := Option.bind_eq_some_iff.mp returned
  obtain ⟨millis,divided,returned⟩ := Option.bind_eq_some_iff.mp returned
  obtain ⟨rounded,scaled,returned⟩ := Option.bind_eq_some_iff.mp returned
  obtain ⟨rfl,_⟩ := checked_expiry _ _ _ computed
  obtain ⟨rfl,low,high⟩ := ticks_some divided
  obtain ⟨rfl,_⟩ := ticks_some scaled
  have logged : fromUnixMs (PersistenceEngine.expiryMs seconds environment.wallNow) =
      (environment.wallNow + seconds * 1000000).tdiv 1000 * 1000 := by
    unfold fromUnixMs PersistenceEngine.expiryMs toUnixMs
    rw [if_pos positive,Int64.toInt_ofInt_of_le low high]
  rw [logged]
  exact checked_expireAt entry _ _ _ outcome returned

/-- Both clocks at the check of the seconds, in nanoseconds; the wall clock since the epoch. -/
structure Clocks where
  steady : Int
  wall : Int

/-- Nanoseconds from the check of the seconds to the later readings of the command. The last
two are operands of one sum, which the source may read in either order. -/
structure Moments where
  expiry : Nat
  firstNow : Nat
  firstWall : Nat
  secondNow : Nat
  secondWall : Nat
  ordered : expiry ≤ firstNow ∧ firstNow ≤ firstWall ∧ firstWall ≤ secondNow ∧ firstWall ≤ secondWall

/-- Every later reading after the same time. -/
def Moments.together (elapsed : Nat) : Moments :=
  ⟨elapsed,elapsed,elapsed,elapsed,elapsed,⟨Nat.le_refl _,Nat.le_refl _,Nat.le_refl _,Nat.le_refl _⟩⟩

namespace Clocks

def now (clocks : Clocks) (elapsed : Nat) : Int := clocks.steady + elapsed

/-- The wall clock ticks in whole microseconds. -/
def wallNow (clocks : Clocks) (elapsed : Nat) : Int := (clocks.wall + elapsed) / 1000

def environment (clocks : Clocks) (moments : Moments) (io : Persistence.Io) : Environment :=
  ⟨clocks.steady,clocks.wallNow moments.expiry,⟨clocks.now moments.firstNow,clocks.wallNow moments.firstWall⟩,
    ⟨clocks.now moments.secondNow,clocks.wallNow moments.secondWall⟩,io⟩

/-- The wall clock is past the epoch, and both clocks stay 64-bit tick counts during the
command. -/
def Counted (clocks : Clocks) (moments : Moments) : Prop :=
  0 ≤ clocks.wall ∧ ∀ elapsed ≤ max moments.secondNow moments.secondWall,
    clocks.now elapsed < 2^63 ∧ clocks.wallNow elapsed < 2^63

end Clocks

theorem guard_accepts (seconds : Int64) (steady : Int) (positive : 0 < seconds.toInt)
    (accepted : Checked.expirationIsRepresentable seconds steady = some true) :
    0 ≤ steady ∧ steady + seconds.toInt * 1000000000 < 2^63 := by
  unfold Checked.expirationIsRepresentable at accepted
  have large : ¬ seconds ≤ 0 := by
    rw [Int64.le_iff_toInt_le]
    exact Int.not_le.mpr positive
  rw [if_neg large] at accepted
  obtain ⟨room,fits,same⟩ := Option.bind_eq_some_iff.mp accepted
  obtain ⟨rfl,_,high⟩ := ticks_some fits
  have bound : seconds.toInt ≤ (2^63 - 1 - steady).tdiv 1000000000 := of_decide_eq_true (Option.some.inj same)
  have nonneg : 0 ≤ 2^63 - 1 - steady := by
    by_contra negative
    have mirrored : (2^63 - 1 - steady).tdiv 1000000000 = -((steady - (2^63 - 1)) / 1000000000) := by
      rw [← Int.tdiv_eq_ediv_of_nonneg (by omega),← Int.neg_tdiv,Int.neg_sub]
    omega
  rw [Int.tdiv_eq_ediv_of_nonneg nonneg] at bound
  omega

/-- A deadline further than the tick counts reach is the only way for `expire_at` to
overflow, since the remaining time has been counted before. -/
theorem expireAt_fits_iff (expiryWall : Int) (first second : Instant) (later : first.wallNow ≤ second.wallNow)
    (steady : 0 ≤ second.now ∧ second.now < 2^63)
    (left : -2^63 ≤ (expiryWall - second.wallNow) * 1000 ∧ (expiryWall - second.wallNow) * 1000 < 2^63) :
    (Checked.expireAt expiryWall first second).isSome ↔
      second.now + (expiryWall - second.wallNow) * 1000 < 2^63 := by
  unfold Checked.expireAt
  split
  · next past => exact iff_of_true rfl (by omega)
  · rw [ticks_fits (by omega) (by omega)]
    change ((ticks _).bind _).isSome ↔ _
    rw [ticks_fits left.1 left.2]
    change ((ticks _).bind _).isSome ↔ _
    unfold ticks
    split
    · next range => exact iff_of_true rfl range.2
    · next range => exact iff_of_false nofun (by omega)

/-- The wall clock loses less than a microsecond against the time that has passed. -/
theorem wallNow_elapsed (clocks : Clocks) (earlier later : Nat) (ordered : earlier ≤ later) :
    clocks.wallNow earlier ≤ clocks.wallNow later ∧
      (clocks.wallNow later - clocks.wallNow earlier) * 1000 < later + 1000 := by
  unfold Clocks.wallNow
  omega

/-- EXPIRE accepts what fits at the moment of its check. The deadline counts from a later
moment: it is the time that passes until the expiry is computed that can overflow. -/
theorem expiration_fits_iff (seconds : Int64) (positive : 0 < seconds) (clocks : Clocks) (moments : Moments)
    (io : Persistence.Io) (counted : clocks.Counted moments)
    (accepted : Checked.expirationIsRepresentable seconds clocks.steady = some true) :
    let environment := clocks.environment moments io
    ((Checked.expire seconds.toInt environment).isSome ∧ (Checked.durableExpire seconds.toInt environment).isSome) ↔
      environment.wallNow + seconds.toInt * 1000000 < 2^63 ∧
        environment.second.now + seconds.toInt * 1000000000 <
          2^63 + (environment.second.wallNow - environment.wallNow) * 1000 := by
  intro environment
  have above : 0 < seconds.toInt := Int64.lt_iff_toInt_lt.mp positive
  obtain ⟨started,room⟩ := guard_accepts seconds clocks.steady above accepted
  obtain ⟨epoch,range⟩ := counted
  obtain ⟨one,two,three,four⟩ := moments.ordered
  obtain ⟨steadyBound,_⟩ := range moments.secondNow (Nat.le_max_left _ _)
  obtain ⟨reached,wallBound⟩ := range moments.secondWall (Nat.le_max_right _ _)
  obtain ⟨_,passed⟩ := wallNow_elapsed clocks moments.expiry moments.secondWall (by omega)
  obtain ⟨compared,_⟩ := wallNow_elapsed clocks moments.expiry moments.firstWall (by omega)
  obtain ⟨later,_⟩ := wallNow_elapsed clocks moments.firstWall moments.secondWall four
  have wall : 0 ≤ environment.wallNow := by
    change 0 ≤ (clocks.wall + moments.expiry) / 1000
    omega
  have steady : 0 ≤ environment.second.now ∧ environment.second.now < 2^63 := by
    refine ⟨?_,steadyBound⟩
    change 0 ≤ clocks.steady + moments.secondNow
    omega
  change clocks.steady + moments.secondWall < 2^63 at reached
  change (environment.second.wallNow - environment.wallNow) * 1000 < moments.secondWall + 1000 at passed
  change environment.first.wallNow ≤ environment.second.wallNow at later
  change environment.wallNow ≤ environment.first.wallNow at compared
  clear_value environment
  have fits (expiryWall : Int) (low : environment.wallNow + seconds.toInt * 1000000 - 1000 < expiryWall)
      (high : expiryWall ≤ environment.wallNow + seconds.toInt * 1000000) :=
    expireAt_fits_iff expiryWall environment.first environment.second later steady (by omega)
  constructor
  · intro ⟨returned,_⟩
    obtain ⟨outcome,returned⟩ := Option.isSome_iff_exists.mp returned
    obtain ⟨expiryWall,computed,rest⟩ := Option.bind_eq_some_iff.mp returned
    obtain ⟨rfl,high⟩ := checked_expiry _ _ _ computed
    have bound := (fits _ (by omega) (by omega)).mp (Option.isSome_of_eq_some rest)
    exact ⟨high,by omega⟩
  · intro ⟨high,bound⟩
    have computed : Checked.expiry seconds.toInt environment.wallNow =
        some (environment.wallNow + seconds.toInt * 1000000) := by
      unfold Checked.expiry
      rw [ticks_fits (by omega) (by omega)]
      exact ticks_fits (by omega) high
    unfold Checked.expire Checked.durableExpire
    rw [computed]
    refine ⟨(fits _ (by omega) (by omega)).mpr (by omega),?_⟩
    have divided := Int.tdiv_eq_ediv_of_nonneg (show 0 ≤ environment.wallNow + seconds.toInt * 1000000 by omega) (b := 1000)
    change ((ticks _).bind _).isSome
    rw [divided,ticks_fits (by omega) (by omega)]
    change ((ticks _).bind _).isSome
    rw [ticks_fits (by omega) (by omega)]
    exact (fits _ (by omega) (by omega)).mpr (by omega)

theorem counted_together (clocks : Clocks) (elapsed : Nat) (epoch : 0 ≤ clocks.wall)
    (steady : clocks.steady + elapsed < 2^63) (wall : clocks.wall + elapsed < 2^63 * 1000) :
    clocks.Counted (Moments.together elapsed) := by
  refine ⟨epoch,fun moment bound => ?_⟩
  have before : moment ≤ elapsed := bound.trans (Nat.max_le.mpr ⟨Nat.le_refl _,Nat.le_refl _⟩)
  unfold Clocks.now Clocks.wallNow
  omega

theorem expiration_fits_minute :
    let environment := (⟨5000000000,1700000000000000000⟩ : Clocks).environment (.together 1000000) ⟨[],true⟩
    (Checked.expire 60 environment).isSome ∧ (Checked.durableExpire 60 environment).isSome :=
  (expiration_fits_iff 60 (by decide) ⟨5000000000,1700000000000000000⟩ (.together 1000000) ⟨[],true⟩
    (counted_together _ _ (by decide) (by decide) (by decide)) (by decide)).mpr (by decide)

/-- One millisecond after the check, the largest number of seconds that it accepts gives a
deadline beyond the tick counts, and the wrapped count lies in the past. -/
theorem expiration_overflows :
    let clocks : Clocks := ⟨854775807,1700000000000000000⟩
    let environment := clocks.environment (.together 1000000) ⟨[],true⟩
    clocks.Counted (.together 1000000) ∧
      Checked.expirationIsRepresentable 9223372036 clocks.steady = some true ∧
      Checked.expire 9223372036 environment = none ∧ Checked.durableExpire 9223372036 environment = none ∧
      (Int64.ofInt (deadline environment.second (environment.wallNow + 9223372036 * 1000000))).toInt <
        environment.first.now :=
  ⟨counted_together _ _ (by decide) (by decide) (by decide),by decide,by decide,by decide,by decide⟩

end NovaCache.Commands
