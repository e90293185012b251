import Civan.Lib.MachineInt
import Civan.TimerManager.Invariant

/-!
# The hooked sleeps

`sleep`, `usleep` and `nanosleep` add a timer that schedules the calling fiber, and
yield.  How long the fiber sleeps is the time given to `addTimer`, which each of them
computes in its own types: `unsigned int` for milliseconds, a division that drops what
is below a millisecond, an `int` that becomes a `uint64_t`.
-/

namespace Civan
namespace Hook

open MachineInt
open TimerManager (TimerId addTimer)
open Scheduler (Callback)

/-- `struct timespec`. -/
structure Timespec where
  tvSec : Int64
  tvNsec : Int64
deriving DecidableEq, Repr

section Calls

variable (s : TimerManager.State) (cb : Callback) (now : UInt64) (addr : ℕ)

/-- `sleep`, up to the yield; `cb` schedules the fiber. -/
def sleep (seconds : UInt32) : (TimerId × Bool) × TimerManager.State :=
  addTimer s (seconds * 1000).toUInt64 (some cb) false now addr

/-- `usleep`, up to the yield. -/
def usleep (usec : UInt32) : (TimerId × Bool) × TimerManager.State :=
  addTimer s (usec / 1000).toUInt64 (some cb) false now addr

/-- `nanosleep`, up to the yield; `timeout_ms` is an `int`. -/
def nanosleep (req : Timespec) : (TimerId × Bool) × TimerManager.State :=
  let timeoutMs : Int32 := (req.tvSec * 1000 + req.tvNsec / 1000 / 1000).toInt32
  addTimer s timeoutMs.toInt64.toUInt64 (some cb) false now addr

end Calls

/-- `m_next` of the timer that was added. -/
def deadline (r : (TimerId × Bool) × TimerManager.State) : ℕ :=
  (r.2.heap r.1.1).next.toNat

section Deadlines

variable {s : TimerManager.State} {cb : Callback} {now : UInt64} {addr : ℕ}

theorem deadline_addTimer (ms : UInt64) :
    deadline (addTimer s ms (some cb) false now addr) = (now.toNat + ms.toNat) % 2 ^ 64 := by
  obtain ⟨hheap, _⟩ := TimerManager.addTimerLocked_fields
    { s.write s.allocated (.new ms (some cb) false now addr) with
      allocated := s.allocated + 1 } s.allocated
  have htimer : (addTimer s ms (some cb) false now addr).2.heap s.allocated =
      .new ms (some cb) false now addr :=
    (congrFun hheap s.allocated).trans (Function.update_self ..)
  change ((addTimer s ms (some cb) false now addr).2.heap s.allocated).next.toNat = _
  rw [htimer]
  exact UInt64.toNat_add now ms

theorem deadline_sleep (seconds : UInt32) :
    deadline (sleep s cb now addr seconds) =
      (now.toNat + seconds.toNat * 1000 % 2 ^ 32) % 2 ^ 64 := by
  rw [sleep, deadline_addTimer, UInt32.toNat_toUInt64, UInt32.toNat_mul]
  rfl

theorem deadline_usleep (usec : UInt32) :
    deadline (usleep s cb now addr usec) = (now.toNat + usec.toNat / 1000) % 2 ^ 64 := by
  rw [usleep, deadline_addTimer, UInt32.toNat_toUInt64, UInt32.toNat_div]
  rfl

theorem toNat_toUInt64 (x : Int64) : (x.toUInt64.toNat : ℤ) = x.toInt % 2 ^ 64 := by
  have hlt : x.toBitVec.toNat < 2 ^ 64 := x.toBitVec.isLt
  have hint : x.toInt = x.toBitVec.toInt := rfl
  have hnat : x.toUInt64.toNat = x.toBitVec.toNat := rfl
  rw [hint, hnat, BitVec.toInt_eq_toNat_cond]
  split_ifs <;> omega

theorem toInt_div_thousand {x : Int64} {n : ℕ} (hx : x.toInt = n) :
    (x / 1000).toInt = (n / 1000 : ℕ) := by
  have hlt := x.toInt_lt
  have hthousand : (1000 : Int64).toInt = 1000 := rfl
  rw [hx] at hlt
  rw [Int64.toInt_div, hthousand, hx, Int.tdiv_eq_ediv_of_nonneg (by omega)]
  have hle : (n : ℤ) / 1000 ≤ n := by omega
  apply Int.bmod_eq_of_le <;> omega

theorem toInt_timeoutMs {req : Timespec} {sec nsec : ℕ}
    (hsec : req.tvSec.toInt = sec) (hnsec : req.tvNsec.toInt = nsec) :
    (req.tvSec * 1000 + req.tvNsec / 1000 / 1000).toInt32.toInt =
      toInt32 (sec * 1000 + nsec / 1000000) := by
  have hthousand : (1000 : Int64).toInt = 1000 := rfl
  have hdiv : (req.tvNsec / 1000 / 1000).toInt = (nsec / 1000000 : ℕ) := by
    have hmicro := toInt_div_thousand hnsec
    have hmilli := toInt_div_thousand hmicro
    rw [hmilli, Nat.div_div_eq_div_mul]
  rw [Int64.toInt_toInt32, Int64.toInt_add, Int64.toInt_mul, hdiv, hsec, hthousand,
    Int.bmod_add_bmod, Int.bmod_bmod_of_dvd]
  · unfold toInt32
    rw [Nat.cast_add, Nat.cast_mul, Nat.cast_ofNat]
  · exact Nat.pow_dvd_pow 2 (by decide)

theorem deadline_nanosleep (s : TimerManager.State) (cb : Callback) (now : UInt64) (addr : ℕ)
    {req : Timespec} {sec nsec : ℕ}
    (hsec : req.tvSec.toInt = sec) (hnsec : req.tvNsec.toInt = nsec) :
    (deadline (nanosleep s cb now addr req) : ℤ) =
      (now.toNat + toInt32 (sec * 1000 + nsec / 1000000)) % 2 ^ 64 := by
  have hms := toNat_toUInt64 (req.tvSec * 1000 + req.tvNsec / 1000 / 1000).toInt32.toInt64
  rw [Int32.toInt_toInt64, toInt_timeoutMs hsec hnsec] at hms
  rw [nanosleep, deadline_addTimer]
  omega

end Deadlines

section Duration

variable (s : TimerManager.State) (cb : Callback) (now : UInt64) (addr : ℕ)

theorem sleep_not_shorter_iff (seconds : UInt32) :
    now.toNat + seconds.toNat * 1000 ≤ deadline (sleep s cb now addr seconds) ↔
      seconds.toNat * 1000 < 2 ^ 32 ∧ now.toNat + seconds.toNat * 1000 < 2 ^ 64 := by
  have hnow := now.toNat_lt
  rw [deadline_sleep]
  by_cases hfit : seconds.toNat * 1000 < 2 ^ 32
  · rw [Nat.mod_eq_of_lt hfit]
    omega
  · -- the product has wrapped and is smaller than what was asked for
    have hless : seconds.toNat * 1000 % 2 ^ 32 < seconds.toNat * 1000 :=
      Nat.lt_of_lt_of_le (Nat.mod_lt _ (by decide)) (Nat.le_of_not_lt hfit)
    have hle := Nat.mod_le (now.toNat + seconds.toNat * 1000 % 2 ^ 32) (2 ^ 64)
    omega

theorem usleep_not_shorter_iff (usec : UInt32) :
    now.toNat * 1000 + usec.toNat ≤ deadline (usleep s cb now addr usec) * 1000 ↔
      usec.toNat % 1000 = 0 ∧ now.toNat + usec.toNat / 1000 < 2 ^ 64 := by
  have hnow := now.toNat_lt
  rw [deadline_usleep]
  omega

/-- A whole number of milliseconds that fits an `int` and does not pass the end of the
clock. -/
def Representable (now : UInt64) (sec nsec : ℕ) : Prop :=
  nsec % 1000000 = 0 ∧ sec * 1000 + nsec / 1000000 < 2 ^ 31 ∧
    now.toNat + (sec * 1000 + nsec / 1000000) < 2 ^ 64

variable {req : Timespec} {sec nsec : ℕ}

theorem nanosleep_not_shorter (hsec : req.tvSec.toInt = sec) (hnsec : req.tvNsec.toInt = nsec)
    (h : Representable now sec nsec) :
    now.toNat * 1000000 + (sec * 1000000000 + nsec) ≤
      deadline (nanosleep s cb now addr req) * 1000000 := by
  obtain ⟨hwhole, hint, hend⟩ := h
  have hdeadline := deadline_nanosleep s cb now addr hsec hnsec
  rw [toInt32_of_lt hint] at hdeadline
  omega

/-- After January 1970 a negative `int` takes the deadline back before the present. -/
theorem representable_of_nanosleep (hnow : 2 ^ 31 ≤ now.toNat)
    (hsec : req.tvSec.toInt = sec) (hnsec : req.tvNsec.toInt = nsec)
    (h : now.toNat * 1000000 + (sec * 1000000000 + nsec) ≤
      deadline (nanosleep s cb now addr req) * 1000000) :
    Representable now sec nsec := by
  have hlt := now.toNat_lt
  have hdeadline := deadline_nanosleep s cb now addr hsec hnsec
  rw [toInt32_eq] at hdeadline
  unfold Representable
  split_ifs at hdeadline <;> omega

/--
**Hooked sleeps.**  For every argument and every time of the clock, the timer is due no
earlier than asked for exactly under these conditions: `sleep`, if the milliseconds fit
an `unsigned int`; `usleep`, if the microseconds are a whole number of milliseconds;
`nanosleep`, if the time is a whole number of milliseconds that fits an `int` (it is
enough at any time, and necessary unless the clock stands within `2 ^ 31` milliseconds of
its start); and always only if the deadline itself fits a `uint64_t`.
-/
theorem hooked_sleep_not_shorter_iff
    (s : TimerManager.State) (cb : Callback) (now : UInt64) (addr : ℕ) :
    (∀ seconds : UInt32,
      now.toNat + seconds.toNat * 1000 ≤ deadline (sleep s cb now addr seconds) ↔
        seconds.toNat * 1000 < 2 ^ 32 ∧ now.toNat + seconds.toNat * 1000 < 2 ^ 64) ∧
    (∀ usec : UInt32,
      now.toNat * 1000 + usec.toNat ≤ deadline (usleep s cb now addr usec) * 1000 ↔
        usec.toNat % 1000 = 0 ∧ now.toNat + usec.toNat / 1000 < 2 ^ 64) ∧
    (∀ (req : Timespec) (sec nsec : ℕ), req.tvSec.toInt = sec → req.tvNsec.toInt = nsec →
      (Representable now sec nsec →
        now.toNat * 1000000 + (sec * 1000000000 + nsec) ≤
          deadline (nanosleep s cb now addr req) * 1000000) ∧
      (2 ^ 31 ≤ now.toNat →
        now.toNat * 1000000 + (sec * 1000000000 + nsec) ≤
          deadline (nanosleep s cb now addr req) * 1000000 →
        Representable now sec nsec)) := by
  refine ⟨sleep_not_shorter_iff s cb now addr, usleep_not_shorter_iff s cb now addr, ?_⟩
  intro req sec nsec hsec hnsec
  exact ⟨nanosleep_not_shorter s cb now addr hsec hnsec,
    fun hnow => representable_of_nanosleep s cb now addr hnow hsec hnsec⟩

/-- A second, five milliseconds, and one and a half seconds. -/
theorem hooked_sleep_not_shorter_ordinary :
    1000000 + 1000 ≤ deadline (sleep (.init 0) 1 1000000 16 1) ∧
    1000000 * 1000 + 5000 ≤ deadline (usleep (.init 0) 1 1000000 16 5000) * 1000 ∧
    1000000 * 1000000 + (1 * 1000000000 + 500000000) ≤
      deadline (nanosleep (.init 0) 1 1000000 16 ⟨1, 500000000⟩) * 1000000 := by
  obtain ⟨hsleep, husleep, hnanosleep⟩ := hooked_sleep_not_shorter_iff (.init 0) 1 1000000 16
  have hnano := (hnanosleep ⟨1, 500000000⟩ 1 500000000 rfl rfl).1
    ⟨by decide, by decide, by decide⟩
  exact ⟨(hsleep 1).mpr ⟨by decide, by decide⟩, (husleep 5000).mpr ⟨by decide, by decide⟩, hnano⟩

/-- `usleep(999)` does not sleep at all, `sleep(4294968)` sleeps for 704 milliseconds, and
`nanosleep` of 2147484 seconds has a deadline in the past. -/
theorem hooked_sleep_shorter :
    deadline (usleep (.init 0) 1 1000000 16 999) = 1000000 ∧
    deadline (sleep (.init 0) 1 1000000 16 4294968) = 1000000 + 704 ∧
    deadline (nanosleep (.init 0) 1 0x100000000 16 ⟨2147484, 0⟩) < 0x100000000 := by
  decide

end Duration

end Hook
end Civan
