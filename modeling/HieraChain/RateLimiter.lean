/-
  HieraChain/RateLimiter.lean
  ===========================
  **The limiter of requests** (`libflowlimit/RateLimiter.cpp`).

  Numbers of type `double` are rationals, so the interval of a permit is exactly
  `1000000 / maxQPS`.  Arithmetic on 64 bits is checked: `none` is an overflow.
  A request for permits is a number of 64 bits without a sign, which `acquire`
  takes with a sign.  The sleep of `acquire` and the log lines are left out.

  What a limiter may still hand out is measured by its stored permits and the
  time of its last update; a grant lowers this level by the permits it gives,
  and an update only lowers it.  The level is lost track of in three places:

    * times are rounded down to microseconds, in the caller's favour;
    * stored permits are handed out without an update, so the time before is
      counted again later;
    * a request of 2^63 or more permits is read as a negative number.

  Where none of this happens the rate is bounded (`rate_bound`).  A limiter is in
  debt for a second at most, so who waits that long is served
  (`granted_after_second`).
-/
import HieraChain.Int64
import HieraChain.Machine
import Mathlib.Data.Rat.Floor
import Mathlib.Tactic.FieldSimp
import Mathlib.Tactic.Linarith
import Mathlib.Tactic.Ring

namespace HieraChain.FlowLimit

open HieraChain.Int64

/-! ### The limiter -/

structure RateLimiter where
  maxQPS : Int
  currentStoredPermits : Int := 0
  permitsUpdateInterval : ℚ
  lastPermitsUpdateTime : Int
  maxPermits : Int

/-- A `double` as `int64_t`, rounded towards zero. -/
def toInt64 (v : ℚ) : Option Int := checked (if 0 ≤ v then ⌊v⌋ else ⌈v⌉)

namespace RateLimiter

def construct (maxQPS utcSteadyTimeUs : Int) : RateLimiter where
  maxQPS := maxQPS
  permitsUpdateInterval := 1000000 / maxQPS
  lastPermitsUpdateTime := utcSteadyTimeUs
  maxPermits := maxQPS

def updatePermits (t : RateLimiter) (now : Int) : Option RateLimiter :=
  if now ≤ t.lastPermitsUpdateTime then some t
  else
    (checked (now - t.lastPermitsUpdateTime)).bind fun passed =>
      (toInt64 (passed / t.permitsUpdateInterval)).bind fun increasedPermits =>
        (checked (t.currentStoredPermits + increasedPermits)).bind fun sum =>
          let stored := min t.maxPermits sum
          if stored = t.maxPermits then some { t with currentStoredPermits := stored, lastPermitsUpdateTime := now }
          else
            (toInt64 (t.lastPermitsUpdateTime + increasedPermits * t.permitsUpdateInterval)).map fun last =>
              { t with currentStoredPermits := stored, lastPermitsUpdateTime := last }

def updateCurrentStoredPermits (t : RateLimiter) (requiredPermits : Int) : Option RateLimiter :=
  if t.currentStoredPermits < requiredPermits then
    (checked (requiredPermits - t.currentStoredPermits)).bind fun missing =>
      let waitTime := missing * t.permitsUpdateInterval
      if 0 < waitTime then
        (toInt64 waitTime).bind fun wait =>
          (checked (t.lastPermitsUpdateTime + wait)).map fun last =>
            { t with currentStoredPermits := 0, lastPermitsUpdateTime := last }
      else some { t with currentStoredPermits := 0 }
  else
    (checked (t.currentStoredPermits - requiredPermits)).map fun stored => { t with currentStoredPermits := stored }

/-- The time to wait, and the limiter after the call.  The last test of the source
    repeats the two before it. -/
def fetchPermitsAndGetWaitTime (t : RateLimiter) (requiredPermits : Int) (fetchPermitsWhenRequireWait : Bool)
    (now : Int) : Option (Int × RateLimiter) :=
  if requiredPermits < t.currentStoredPermits then
    (checked (t.currentStoredPermits - requiredPermits)).map fun stored =>
      (0, { t with currentStoredPermits := stored })
  else
    (t.updatePermits now).bind fun t =>
      (checked (t.lastPermitsUpdateTime - now)).bind fun waitAvailableTime =>
        if 0 < waitAvailableTime then
          if fetchPermitsWhenRequireWait then
            (t.updateCurrentStoredPermits requiredPermits).map fun t => (max waitAvailableTime 0, t)
          else some (waitAvailableTime, t)
        else
          (checked (requiredPermits - t.currentStoredPermits)).bind fun missing =>
            -- only permits of `maxQPS` can be used in advance
            if !fetchPermitsWhenRequireWait && decide (t.maxQPS ≤ missing) then some (1, t)
            else (t.updateCurrentStoredPermits requiredPermits).map fun t => (max waitAvailableTime 0, t)

def acquire (t : RateLimiter) (requiredPermits : Int) (fetchPermitsWhenRequireWait : Bool) (now : Int) :
    Option (Int × RateLimiter) :=
  t.fetchPermitsAndGetWaitTime requiredPermits fetchPermitsWhenRequireWait now

def tryAcquire (t : RateLimiter) (requiredPermits now : BitVec 64) : Option (Bool × RateLimiter) :=
  (t.acquire requiredPermits.toInt false now.toInt).map fun r => (decide (r.1 = 0), r.2)

end RateLimiter

/-! ### Runs -/

structure Call where
  permits : BitVec 64
  now : BitVec 64

/-- A limiter, `none` after an overflow, and what it has granted at which times. -/
structure Limited where
  limiter : Option RateLimiter
  grants : List (Int × Nat) := []

def machine : Machine Limited Call where
  step r call :=
    match r.limiter.bind fun t => t.tryAcquire call.permits call.now with
    | none => { r with limiter := none }
    | some (true, t) => ⟨some t, (call.now.toInt, call.permits.toNat) :: r.grants⟩
    | some (false, t) => { r with limiter := some t }

def start (maxQPS utcSteadyTimeUs : Int) : Limited := ⟨some (.construct maxQPS utcSteadyTimeUs), []⟩

/-- The permits granted from `a` to `b`. -/
def grantedWithin (grants : List (Int × Nat)) (a b : Int) : Nat :=
  ((grants.filter fun g => a ≤ g.1 ∧ g.1 ≤ b).map Prod.snd).sum

def Bounded (maxQPS : Int) (r : Limited) : Prop :=
  r.limiter.isSome ∧ ∀ a b, a ≤ b →
    (grantedWithin r.grants a b : ℚ) ≤ maxQPS * (b - a) / 1000000 + 2 * maxQPS

/-! ### Where a limiter keeps track -/

def elapsedPermits (maxQPS : Int) (t : RateLimiter) (now : Int) : Int :=
  (now - t.lastPermitsUpdateTime) * maxQPS / 1000000

def available (maxQPS : Int) (t : RateLimiter) (now : Int) : Int :=
  if now ≤ t.lastPermitsUpdateTime then t.currentStoredPermits
  else min maxQPS (t.currentStoredPermits + elapsedPermits maxQPS t now)

/-- A call in which nothing is rounded, counted twice or read with another sign. -/
structure CallOk (maxQPS : Int) (t : RateLimiter) (requiredPermits now : Int) : Prop where
  /-- Fewer than 2^63 permits. -/
  sign : 0 ≤ requiredPermits
  /-- Stored permits are handed out without an update only where an update would not be cut off. -/
  fresh : requiredPermits < t.currentStoredPermits →
    t.currentStoredPermits * 1000000 + (now - t.lastPermitsUpdateTime) * maxQPS ≤ maxQPS * 1000000
  /-- The intervals that an update counts are a whole number of microseconds. -/
  refill : t.currentStoredPermits ≤ requiredPermits → t.lastPermitsUpdateTime < now →
    t.currentStoredPermits + elapsedPermits maxQPS t now < maxQPS → maxQPS ∣ elapsedPermits maxQPS t now * 1000000
  /-- So are the intervals of the permits used in advance. -/
  advance : t.currentStoredPermits ≤ requiredPermits → available maxQPS t now < requiredPermits →
    requiredPermits - available maxQPS t now < maxQPS → maxQPS ∣ (requiredPermits - available maxQPS t now) * 1000000
  /-- The times and the permits fit. -/
  fits : t.currentStoredPermits ≤ requiredPermits → Fits (now - t.lastPermitsUpdateTime) ∧
    Fits (t.lastPermitsUpdateTime - now) ∧ Fits (now + 1000000) ∧
      (t.lastPermitsUpdateTime < now → Fits (t.currentStoredPermits + elapsedPermits maxQPS t now))

def Ok (maxQPS : Int) (r : Limited) (call : Call) : Prop :=
  ∀ t ∈ r.limiter, CallOk maxQPS t call.permits.toInt call.now.toInt

/-! ### Conversions -/

theorem toInt64_intCast (v : Int) : toInt64 (v : ℚ) = checked v := by
  rw [toInt64, Int.floor_intCast, Int.ceil_intCast, ite_self]

variable {Q : Int}

theorem mul_interval (hQ : 0 < Q) {n k : Int} (h : n * 1000000 = Q * k) : (n : ℚ) * (1000000 / Q) = (k : Int) := by
  have hne : (Q : ℚ) ≠ 0 := Int.cast_ne_zero.mpr hQ.ne'
  have hcast : (n : ℚ) * 1000000 = Q * k := by exact_mod_cast h
  rw [← mul_div_assoc, hcast, mul_div_cancel_left₀ _ hne]

theorem toInt64_permits (hQ : 0 < Q) {passed : Int} (hpassed : 0 ≤ passed) :
    toInt64 ((passed : ℚ) / (1000000 / Q)) = checked (passed * Q / 1000000) := by
  have hdiv : (passed : ℚ) / (1000000 / Q) = ((passed * Q : Int) : ℚ) / ((1000000 : Nat) : ℚ) := by
    rw [div_div_eq_mul_div]
    push_cast
    rfl
  have hpos : (0 : ℚ) ≤ ((passed * Q : Int) : ℚ) / ((1000000 : Nat) : ℚ) :=
    div_nonneg (Int.cast_nonneg (mul_nonneg hpassed hQ.le)) (Nat.cast_nonneg _)
  rw [hdiv, toInt64, if_pos hpos, Rat.floor_intCast_div_natCast]
  rfl

/-! ### The level -/

/-- What the limiter may still hand out, in millionths and counted from time zero. -/
def level (Q : Int) (t : RateLimiter) : Int := t.currentStoredPermits * 1000000 - t.lastPermitsUpdateTime * Q

structure Inv (Q : Int) (t : RateLimiter) : Prop where
  maxQPS : t.maxQPS = Q
  interval : t.permitsUpdateInterval = 1000000 / Q
  maxPermits : t.maxPermits = Q
  stored_nonneg : 0 ≤ t.currentStoredPermits
  stored_le : t.currentStoredPermits ≤ Q
  stored_fits : Fits t.currentStoredPermits
  last : Fits t.lastPermitsUpdateTime

theorem updatePermits_spec (hQ : 0 < Q) {t : RateLimiter} (h : Inv Q t) {requiredPermits now : Int} (hnow : Fits now)
    (hok : CallOk Q t requiredPermits now) (hslow : t.currentStoredPermits ≤ requiredPermits)
    (hclock : 0 < t.currentStoredPermits → t.lastPermitsUpdateTime ≤ now) :
    ∃ t', t.updatePermits now = some t' ∧ Inv Q t' ∧ t'.currentStoredPermits = available Q t now
      ∧ level Q t' ≤ level Q t ∧ level Q t' + now * Q ≤ Q * 1000000
      ∧ Fits (t'.lastPermitsUpdateTime - now) ∧ (0 < t'.currentStoredPermits → t'.lastPermitsUpdateTime ≤ now) := by
  obtain ⟨hpassed, hwait, -, hsum⟩ := hok.fits hslow
  rw [RateLimiter.updatePermits]
  by_cases hold : now ≤ t.lastPermitsUpdateTime
  · rw [if_pos hold]
    refine ⟨t, rfl, h, (if_pos hold).symm, le_rfl, ?_, hwait, hclock⟩
    have hlevel : (now - t.lastPermitsUpdateTime) * Q ≤ 0 := mul_nonpos_of_nonpos_of_nonneg (by omega) hQ.le
    have hstored := h.stored_le
    rw [level]
    linarith
  · have hlt : t.lastPermitsUpdateTime < now := not_le.mp hold
    have hpos : 0 ≤ now - t.lastPermitsUpdateTime := by omega
    have hstored := h.stored_nonneg
    have helapsed : elapsedPermits Q t now * 1000000 ≤ (now - t.lastPermitsUpdateTime) * Q :=
      Int.ediv_mul_le _ (by decide)
    have hnonneg : 0 ≤ elapsedPermits Q t now := Int.ediv_nonneg (mul_nonneg hpos hQ.le) (by decide)
    have hremainder : (now - t.lastPermitsUpdateTime) * Q < (elapsedPermits Q t now + 1) * 1000000 :=
      Int.lt_ediv_add_one_mul_self _ (by decide)
    have hfit := hsum hlt
    have hfit' : Fits (elapsedPermits Q t now) := by
      rw [fits_iff] at hfit ⊢
      omega
    have hcount : toInt64 (((now - t.lastPermitsUpdateTime : Int) : ℚ) / t.permitsUpdateInterval)
        = some (elapsedPermits Q t now) := by
      rw [h.interval, toInt64_permits hQ hpos]
      exact checked_of_fits hfit'
    have havailable : min t.maxPermits (t.currentStoredPermits + elapsedPermits Q t now) = available Q t now := by
      rw [available, if_neg hold, h.maxPermits]
    simp only [if_neg hold, checked_of_fits hpassed, Option.bind_some, hcount, checked_of_fits hfit, havailable]
    by_cases hfull : available Q t now = t.maxPermits
    · rw [if_pos hfull]
      have hcut : Q ≤ t.currentStoredPermits + elapsedPermits Q t now := by
        rw [h.maxPermits, available, if_neg hold] at hfull
        exact min_eq_left_iff.mp hfull
      refine ⟨_, rfl, ⟨h.maxQPS, h.interval, h.maxPermits, ?_, ?_, ?_, hnow⟩, rfl, ?_, ?_, ?_, fun _ => le_rfl⟩
      · rw [hfull, h.maxPermits]
        exact hQ.le
      · rw [hfull, h.maxPermits]
      · simp only [hfull, h.maxPermits]
        rw [fits_iff] at hfit ⊢
        omega
      · simp only [level, hfull, h.maxPermits]
        linarith
      · simp only [level, hfull, h.maxPermits]
        linarith
      · rw [sub_self]
        decide
    · have hroom : t.currentStoredPermits + elapsedPermits Q t now < Q := by
        rw [h.maxPermits, available, if_neg hold] at hfull
        by_contra hge
        exact hfull (min_eq_left (not_lt.mp hge))
      have hstoredEq : available Q t now = t.currentStoredPermits + elapsedPermits Q t now := by
        rw [available, if_neg hold, min_eq_right hroom.le]
      obtain ⟨k, hk⟩ := hok.refill hslow hlt hroom
      have hk_nonneg : 0 ≤ k := by
        by_contra hneg
        have hprod : Q * k < 0 := mul_neg_of_pos_of_neg hQ (not_le.mp hneg)
        omega
      have hk_le : k ≤ now - t.lastPermitsUpdateTime := by
        have hle : Q * k ≤ Q * (now - t.lastPermitsUpdateTime) := by
          rw [← hk, mul_comm Q]
          exact helapsed
        exact le_of_mul_le_mul_left hle hQ
      have hfitLast : Fits (t.lastPermitsUpdateTime + k) := by
        have hlast := h.last
        rw [fits_iff] at hlast hnow ⊢
        omega
      have hlast : toInt64 (t.lastPermitsUpdateTime + (elapsedPermits Q t now : ℚ) * t.permitsUpdateInterval)
          = some (t.lastPermitsUpdateTime + k) := by
        rw [h.interval, mul_interval hQ hk, ← Int.cast_add, toInt64_intCast]
        exact checked_of_fits hfitLast
      rw [if_neg hfull, hlast, Option.map_some]
      refine ⟨_, rfl, ⟨h.maxQPS, h.interval, h.maxPermits, ?_, ?_, ?_, hfitLast⟩, rfl, ?_, ?_, ?_, ?_⟩
      · simp only [hstoredEq]
        omega
      · simp only [hstoredEq]
        exact hroom.le
      · simp only [hstoredEq]
        exact hfit
      · simp only [level, hstoredEq]
        linarith
      · simp only [level, hstoredEq]
        have hwhole : (t.currentStoredPermits + elapsedPermits Q t now + 1) * 1000000 ≤ Q * 1000000 :=
          mul_le_mul_of_nonneg_right hroom (by decide)
        linarith
      · simp only
        rw [fits_iff] at hpassed ⊢
        omega
      · intro _
        simp only
        omega

theorem updateCurrentStoredPermits_spec (hQ : 0 < Q) {t : RateLimiter} (h : Inv Q t) {requiredPermits now : Int}
    (hsign : 0 ≤ requiredPermits) (hfew : requiredPermits - t.currentStoredPermits < Q)
    (hadvance : t.currentStoredPermits < requiredPermits → Q ∣ (requiredPermits - t.currentStoredPermits) * 1000000)
    (hlast : t.lastPermitsUpdateTime ≤ now) (hfit : Fits (now + 1000000)) (hpermits : Fits requiredPermits) :
    ∃ t', t.updateCurrentStoredPermits requiredPermits = some t' ∧ Inv Q t'
      ∧ level Q t' = level Q t - requiredPermits * 1000000 ∧ -(Q * 1000000) ≤ level Q t' + now * Q
      ∧ (0 < t'.currentStoredPermits → t'.lastPermitsUpdateTime ≤ now) := by
  have hstored := h.stored_nonneg
  rw [RateLimiter.updateCurrentStoredPermits]
  by_cases hless : t.currentStoredPermits < requiredPermits
  · obtain ⟨k, hk⟩ := hadvance hless
    have hmissing : Fits (requiredPermits - t.currentStoredPermits) := by
      rw [fits_iff] at hpermits ⊢
      omega
    have hk_pos : 0 < k := by
      by_contra hneg
      have hprod : Q * k ≤ 0 := mul_nonpos_of_nonneg_of_nonpos hQ.le (not_lt.mp hneg)
      omega
    have hk_le : k < 1000000 := by
      have hlt : Q * k < Q * 1000000 := by
        rw [← hk]
        exact mul_lt_mul_of_pos_right hfew (by decide)
      exact lt_of_mul_lt_mul_left hlt hQ.le
    have hwait : ((requiredPermits - t.currentStoredPermits : Int) : ℚ) * t.permitsUpdateInterval = (k : Int) := by
      rw [h.interval]
      exact mul_interval hQ hk
    have hk_fits : Fits k := by
      rw [fits_iff]
      omega
    have hlast_fits : Fits (t.lastPermitsUpdateTime + k) := by
      have hlow := h.last
      rw [fits_iff] at hlow hfit ⊢
      omega
    have hk_cast : (0 : ℚ) < (k : Int) := Int.cast_pos.mpr hk_pos
    simp only [if_pos hless, checked_of_fits hmissing, Option.bind_some, hwait, if_pos hk_cast, toInt64_intCast,
      checked_of_fits hk_fits, checked_of_fits hlast_fits, Option.map_some]
    refine ⟨_, rfl, ⟨h.maxQPS, h.interval, h.maxPermits, le_rfl, hQ.le, (by decide : Fits 0), hlast_fits⟩, ?_, ?_, ?_⟩
    · simp only [level]
      linarith
    · have hbound : (t.lastPermitsUpdateTime + k) * Q ≤ (now + 1000000) * Q :=
        mul_le_mul_of_nonneg_right (by omega) hQ.le
      simp only [level]
      linarith
    · exact fun hpos => absurd hpos (lt_irrefl _)
  · have hless' : requiredPermits ≤ t.currentStoredPermits := not_lt.mp hless
    have hstored_le := h.stored_le
    have hrest : Fits (t.currentStoredPermits - requiredPermits) := by
      have hfits := h.stored_fits
      rw [fits_iff] at hpermits hfits ⊢
      omega
    have hstored_le := h.stored_le
    rw [if_neg hless, checked_of_fits hrest, Option.map_some]
    refine ⟨_, rfl, ⟨h.maxQPS, h.interval, h.maxPermits, ?_, ?_, hrest, h.last⟩, ?_, ?_, fun _ => hlast⟩
    · simp only
      omega
    · simp only
      omega
    · simp only [level]
      ring
    · have hbound : t.lastPermitsUpdateTime * Q ≤ now * Q := mul_le_mul_of_nonneg_right hlast hQ.le
      simp only [level]
      linarith

structure Charged (Q : Int) (t t' : RateLimiter) (granted : Bool) (requiredPermits now : Int) : Prop where
  inv : Inv Q t'
  clock : 0 < t'.currentStoredPermits → t'.lastPermitsUpdateTime ≤ now
  refused : granted = false → level Q t' ≤ level Q t
  charged : granted = true → level Q t' + requiredPermits * 1000000 ≤ level Q t
  upper : granted = true → level Q t' + requiredPermits * 1000000 + now * Q ≤ Q * 1000000
  lower : granted = true → -(Q * 1000000) ≤ level Q t' + now * Q

theorem tryAcquire_spec (hQ : 0 < Q) {t : RateLimiter} (h : Inv Q t) (permits now : BitVec 64)
    (hok : CallOk Q t permits.toInt now.toInt)
    (hclock : 0 < t.currentStoredPermits → t.lastPermitsUpdateTime ≤ now.toInt) :
    ∃ granted t', t.tryAcquire permits now = some (granted, t') ∧ Charged Q t t' granted permits.toInt now.toInt := by
  rw [RateLimiter.tryAcquire, RateLimiter.acquire, RateLimiter.fetchPermitsAndGetWaitTime]
  have hpermits := fits_toInt permits
  have hnow := fits_toInt now
  have hsign := hok.sign
  generalize permits.toInt = requiredPermits at *
  generalize now.toInt = now at *
  by_cases hfast : requiredPermits < t.currentStoredPermits
  · have hrest : Fits (t.currentStoredPermits - requiredPermits) := by
      have hfits := h.stored_fits
      rw [fits_iff] at hpermits hfits ⊢
      omega
    have hlast : t.lastPermitsUpdateTime ≤ now := hclock (lt_of_le_of_lt hsign hfast)
    have hfresh := hok.fresh hfast
    have hstored := h.stored_le
    have hpassed : t.lastPermitsUpdateTime * Q ≤ now * Q := mul_le_mul_of_nonneg_right hlast hQ.le
    rw [if_pos hfast, checked_of_fits hrest, Option.map_some, Option.map_some]
    refine ⟨_, _, rfl, ⟨h.maxQPS, h.interval, h.maxPermits, ?_, ?_, hrest, h.last⟩, fun _ => hlast, ?_, ?_, ?_, ?_⟩
    · simp only
      omega
    · simp only
      omega
    · exact fun hno => absurd hno (by simp)
    · intro _
      simp only [level]
      linarith
    · intro _
      simp only [level]
      linarith
    · intro _
      simp only [level]
      linarith
  · have hslow : t.currentStoredPermits ≤ requiredPermits := not_lt.mp hfast
    obtain ⟨t₁, hupdate, hinv, hstored, hlevel, hupper, hwait, hclock₁⟩ :=
      updatePermits_spec hQ h hnow hok hslow hclock
    rw [if_neg hfast, hupdate, Option.bind_some, checked_of_fits hwait, Option.bind_some]
    by_cases hlater : 0 < t₁.lastPermitsUpdateTime - now
    · rw [if_pos hlater]
      refine ⟨_, _, rfl, hinv, hclock₁, fun _ => hlevel, ?_, ?_, ?_⟩
      all_goals
        intro hyes
        exact absurd (of_decide_eq_true hyes) hlater.ne'
    · have hlast : t₁.lastPermitsUpdateTime ≤ now := by omega
      have hmissing : Fits (requiredPermits - t₁.currentStoredPermits) := by
        have hnonneg := hinv.stored_nonneg
        have hfits := hinv.stored_fits
        rw [fits_iff] at hpermits hfits ⊢
        omega
      rw [if_neg hlater, checked_of_fits hmissing, Option.bind_some, hinv.maxQPS]
      by_cases hmany : Q ≤ requiredPermits - t₁.currentStoredPermits
      · rw [if_pos (by simpa using hmany)]
        refine ⟨_, _, rfl, hinv, hclock₁, fun _ => hlevel, ?_, ?_, ?_⟩
        all_goals
          intro hyes
          exact absurd hyes (by simp)
      · have hfew : requiredPermits - t₁.currentStoredPermits < Q := not_le.mp hmany
        obtain ⟨-, -, hfit, -⟩ := hok.fits hslow
        obtain ⟨t₂, hcharge, hinv₂, hlevel₂, hlower, hclock₂⟩ := updateCurrentStoredPermits_spec hQ hinv hsign hfew
          (fun hless => hstored ▸ hok.advance hslow (hstored ▸ hless) (hstored ▸ hfew)) hlast hfit hpermits
        rw [if_neg (by simpa using hmany), hcharge, Option.map_some, Option.map_some]
        refine ⟨_, _, rfl, hinv₂, hclock₂, ?_, ?_, ?_, fun _ => hlower⟩
        · intro hno
          refine absurd hno ?_
          simp only [decide_eq_false_iff_not, not_not]
          exact max_eq_right (not_lt.mp hlater)
        · intro _
          linarith
        · intro _
          linarith

/-! ### All runs -/

/-- The permits granted from `a` on. -/
def grantedFrom (grants : List (Int × Nat)) (a : Int) : Nat := ((grants.filter fun g => a ≤ g.1).map Prod.snd).sum

theorem grantedWithin_cons (g : Int × Nat) (grants : List (Int × Nat)) (a b : Int) :
    grantedWithin (g :: grants) a b = (if a ≤ g.1 ∧ g.1 ≤ b then g.2 else 0) + grantedWithin grants a b := by
  rw [grantedWithin, List.filter_cons, grantedWithin]
  split
  next h =>
    rw [if_pos (of_decide_eq_true h), List.map_cons, List.sum_cons]
  next h =>
    rw [if_neg (fun hin => h (decide_eq_true hin)), Nat.zero_add]

theorem grantedFrom_cons (g : Int × Nat) (grants : List (Int × Nat)) (a : Int) :
    grantedFrom (g :: grants) a = (if a ≤ g.1 then g.2 else 0) + grantedFrom grants a := by
  rw [grantedFrom, List.filter_cons, grantedFrom]
  split
  next h =>
    rw [if_pos (of_decide_eq_true h), List.map_cons, List.sum_cons]
  next h =>
    rw [if_neg (fun hin => h (decide_eq_true hin)), Nat.zero_add]

theorem grantedWithin_le (grants : List (Int × Nat)) (a b : Int) : grantedWithin grants a b ≤ grantedFrom grants a := by
  induction grants with
  | nil => exact le_rfl
  | cons g grants ih =>
    rw [grantedWithin_cons, grantedFrom_cons]
    split
    next hin =>
      rw [if_pos hin.1]
      omega
    next => omega

theorem grantedFrom_of_later {grants : List (Int × Nat)} {a : Int} (h : ∀ g ∈ grants, g.1 < a) :
    grantedFrom grants a = 0 := by
  have hnone : (grants.filter fun g => a ≤ g.1) = [] := by
    refine List.filter_eq_nil_iff.mpr fun g hg hle => ?_
    exact absurd (of_decide_eq_true hle) (not_le.mpr (h g hg))
  rw [grantedFrom, hnone]
  rfl

/-- What was granted from a time on was taken from the level of this time. -/
structure Tracked (Q : Int) (r : Limited) (clock : Int) (t : RateLimiter) : Prop where
  limiter : r.limiter = some t
  inv : Inv Q t
  upToDate : 0 < t.currentStoredPermits → t.lastPermitsUpdateTime ≤ clock
  grants : ∀ g ∈ r.grants, g.1 ≤ clock
  charge : ∀ a, (∃ g ∈ r.grants, a ≤ g.1) → grantedFrom r.grants a * 1000000 + level Q t ≤ Q * 1000000 - a * Q
  within : ∀ a b, a ≤ b → (grantedWithin r.grants a b : Int) * 1000000 ≤ (b - a) * Q + 2 * (Q * 1000000)

theorem Tracked.bounded {r : Limited} {clock : Int} {t : RateLimiter} (h : Tracked Q r clock t) : Bounded Q r := by
  refine ⟨by rw [h.limiter]; rfl, fun a b hab => ?_⟩
  have hwithin : (grantedWithin r.grants a b : ℚ) * 1000000 ≤ (b - a) * Q + 2 * (Q * 1000000) := by
    exact_mod_cast h.within a b hab
  linarith

theorem tracked_start (hQ : 0 < Q) {utcSteadyTimeUs : Int} (h : Fits utcSteadyTimeUs) (clock : Int) :
    Tracked Q (start Q utcSteadyTimeUs) clock (.construct Q utcSteadyTimeUs) where
  limiter := rfl
  inv := ⟨rfl, rfl, rfl, le_rfl, hQ.le, (by decide : Fits 0), h⟩
  upToDate hpos := absurd hpos (lt_irrefl _)
  grants g hg := absurd hg List.not_mem_nil
  charge a := by
    rintro ⟨g, hg, -⟩
    exact absurd hg List.not_mem_nil
  within a b hab := by
    have hspan : 0 ≤ (b - a) * Q := mul_nonneg (by omega) hQ.le
    have hnothing : (grantedWithin (start Q utcSteadyTimeUs).grants a b : Int) = 0 := rfl
    rw [hnothing]
    linarith

theorem tracked_step (hQ : 0 < Q) {r : Limited} {clock : Int} {t : RateLimiter} (h : Tracked Q r clock t) {call : Call}
    (htime : clock ≤ call.now.toInt) (hok : Ok Q r call) :
    ∃ t', Tracked Q (machine.step r call) call.now.toInt t' := by
  have hcall := hok t h.limiter
  obtain ⟨granted, t', hacquire, hcharged⟩ := tryAcquire_spec hQ h.inv call.permits call.now hcall
    fun hpos => (h.upToDate hpos).trans htime
  have hbefore : ∀ g ∈ r.grants, g.1 ≤ call.now.toInt := fun g hg => (h.grants g hg).trans htime
  refine ⟨t', ?_⟩
  cases granted with
  | false =>
    have hstep : machine.step r call = { r with limiter := some t' } := by
      simp only [machine, h.limiter, Option.bind_some, hacquire]
    rw [hstep]
    refine ⟨rfl, hcharged.inv, hcharged.clock, hbefore, fun a ha => ?_, h.within⟩
    have hlevel := h.charge a ha
    have hless := hcharged.refused rfl
    simp only
    linarith
  | true =>
    have hstep : machine.step r call = ⟨some t', (call.now.toInt, call.permits.toNat) :: r.grants⟩ := by
      simp only [machine, h.limiter, Option.bind_some, hacquire]
    have hcount : (call.permits.toNat : Int) = call.permits.toInt := by
      have hsign := hcall.sign
      have hbits := BitVec.toInt_eq_toNat_cond call.permits
      have hlt := call.permits.isLt
      split at hbits <;> omega
    have hcharge := hcharged.charged rfl
    have hupper := hcharged.upper rfl
    have hlower := hcharged.lower rfl
    have hlevel : ∀ a, a ≤ call.now.toInt →
        (grantedFrom ((call.now.toInt, call.permits.toNat) :: r.grants) a : Int) * 1000000 + level Q t'
          ≤ Q * 1000000 - a * Q := by
      intro a ha
      rw [grantedFrom_cons, if_pos ha, Nat.cast_add, hcount]
      by_cases hold : ∃ g ∈ r.grants, a ≤ g.1
      · have hbound := h.charge a hold
        linarith
      · have hnone : grantedFrom r.grants a = 0 := by
          refine grantedFrom_of_later fun g hg => ?_
          by_contra hle
          exact hold ⟨g, hg, not_lt.mp hle⟩
        have htimes : a * Q ≤ call.now.toInt * Q := mul_le_mul_of_nonneg_right ha hQ.le
        rw [hnone, Nat.cast_zero, add_zero]
        linarith
    rw [hstep]
    refine ⟨rfl, hcharged.inv, hcharged.clock, List.forall_mem_cons.mpr ⟨le_rfl, hbefore⟩, ?_, ?_⟩
    · rintro a ⟨g, hg, hle⟩
      refine hlevel a (hle.trans ?_)
      rcases List.mem_cons.mp hg with rfl | hg
      · exact le_rfl
      · exact hbefore g hg
    · intro a b hab
      by_cases hin : a ≤ call.now.toInt ∧ call.now.toInt ≤ b
      · have hfrom := grantedWithin_le ((call.now.toInt, call.permits.toNat) :: r.grants) a b
        have hfrom' : (grantedWithin ((call.now.toInt, call.permits.toNat) :: r.grants) a b : Int)
            ≤ grantedFrom ((call.now.toInt, call.permits.toNat) :: r.grants) a := Int.ofNat_le.mpr hfrom
        have hbound := hlevel a hin.1
        have hspan : call.now.toInt * Q ≤ b * Q := mul_le_mul_of_nonneg_right hin.2 hQ.le
        linarith
      · rw [grantedWithin_cons, if_neg hin, Nat.zero_add]
        exact h.within a b hab

theorem tracked_run (hQ : 0 < Q) {calls : List Call} (htimes : calls.Pairwise fun c d => c.now.toInt ≤ d.now.toInt)
    {r : Limited} {clock : Int} {t : RateLimiter} (h : Tracked Q r clock t)
    (hclock : ∀ call ∈ calls, clock ≤ call.now.toInt) (hok : machine.RunOk (Ok Q) r calls) :
    ∀ n, Bounded Q (machine.run r (calls.take n)) := by
  induction calls generalizing r clock t with
  | nil =>
    intro n
    rw [List.take_nil]
    exact h.bounded
  | cons call calls ih =>
    obtain ⟨hlater, htimes⟩ := List.pairwise_cons.mp htimes
    obtain ⟨t', ht'⟩ := tracked_step hQ h (hclock call List.mem_cons_self) hok.1
    exact (machine.forall_take_cons r call calls).mpr ⟨h.bounded, ih htimes ht' hlater hok.2⟩

instance (Q : Int) (t : RateLimiter) (requiredPermits now : Int) : Decidable (CallOk Q t requiredPermits now) :=
  decidable_of_iff
    (0 ≤ requiredPermits ∧
      (requiredPermits < t.currentStoredPermits →
        t.currentStoredPermits * 1000000 + (now - t.lastPermitsUpdateTime) * Q ≤ Q * 1000000) ∧
      (t.currentStoredPermits ≤ requiredPermits → t.lastPermitsUpdateTime < now →
        t.currentStoredPermits + elapsedPermits Q t now < Q → Q ∣ elapsedPermits Q t now * 1000000) ∧
      (t.currentStoredPermits ≤ requiredPermits → available Q t now < requiredPermits →
        requiredPermits - available Q t now < Q → Q ∣ (requiredPermits - available Q t now) * 1000000) ∧
      (t.currentStoredPermits ≤ requiredPermits → Fits (now - t.lastPermitsUpdateTime) ∧
        Fits (t.lastPermitsUpdateTime - now) ∧ Fits (now + 1000000) ∧
          (t.lastPermitsUpdateTime < now → Fits (t.currentStoredPermits + elapsedPermits Q t now))))
    (by
      constructor
      · rintro ⟨hsign, hfresh, hrefill, hadvance, hfits⟩
        exact ⟨hsign, hfresh, hrefill, hadvance, hfits⟩
      · intro h
        exact ⟨h.sign, h.fresh, h.refill, h.advance, h.fits⟩)

instance (Q : Int) (r : Limited) (call : Call) : Decidable (Ok Q r call) :=
  inferInstanceAs (Decidable (∀ t ∈ r.limiter, _))

theorem toInt64_le {v : ℚ} {w n : Int} (h : toInt64 v = some w) (hle : v ≤ n) : w ≤ n := by
  obtain ⟨-, hw⟩ := checked_eq_some.mp h
  rw [← hw]
  split
  · exact_mod_cast (Int.floor_le v).trans hle
  · exact Int.ceil_le.mpr hle

theorem toInt64_nonneg {v : ℚ} {w : Int} (h : toInt64 v = some w) (hpos : 0 ≤ v) : 0 ≤ w ∧ (w : ℚ) ≤ v := by
  obtain ⟨-, hw⟩ := checked_eq_some.mp h
  rw [← hw, if_pos hpos]
  exact ⟨Int.floor_nonneg.mpr hpos, Int.floor_le v⟩

/-- The limiter is in debt no longer than until `deadline`. -/
structure Due (Q deadline : Int) (t : RateLimiter) : Prop where
  maxQPS : t.maxQPS = Q
  interval : t.permitsUpdateInterval = 1000000 / Q
  maxPermits : t.maxPermits = Q
  stored : 0 ≤ t.currentStoredPermits
  last : t.lastPermitsUpdateTime ≤ deadline

theorem Due.mono {t : RateLimiter} {d d' : Int} (h : Due Q d t) (hle : d ≤ d') : Due Q d' t :=
  { h with last := h.last.trans hle }

theorem Due.updatePermits (hQ : 0 < Q) {t t' : RateLimiter} {deadline now : Int} (h : Due Q deadline t)
    (hupdate : t.updatePermits now = some t') : Due Q (max t.lastPermitsUpdateTime now) t' := by
  unfold RateLimiter.updatePermits at hupdate
  split at hupdate
  next hpast =>
    cases hupdate
    exact { h with last := le_max_left _ _ }
  next hpast =>
    obtain ⟨passed, hpassed, hupdate⟩ := Option.bind_eq_some_iff.mp hupdate
    obtain ⟨inc, hinc, hupdate⟩ := Option.bind_eq_some_iff.mp hupdate
    obtain ⟨sum, hsum, hupdate⟩ := Option.bind_eq_some_iff.mp hupdate
    have hinterval : (0 : ℚ) < t.permitsUpdateInterval := by
      rw [h.interval]
      exact div_pos (by norm_num) (Int.cast_pos.mpr hQ)
    obtain ⟨-, hpassed⟩ := checked_eq_some.mp hpassed
    have hpos : (0 : ℚ) ≤ passed := Int.cast_nonneg (by omega)
    obtain ⟨hincPos, hincLe⟩ := toInt64_nonneg hinc (div_nonneg hpos hinterval.le)
    obtain ⟨-, hsum⟩ := checked_eq_some.mp hsum
    have hstored : 0 ≤ min t.maxPermits sum := le_min (h.maxPermits ▸ hQ.le) (hsum ▸ add_nonneg h.stored hincPos)
    dsimp only at hupdate
    split at hupdate
    · cases hupdate
      exact ⟨h.maxQPS, h.interval, h.maxPermits, hstored, le_max_right _ _⟩
    · obtain ⟨last, hlast, rfl⟩ := Option.map_eq_some_iff.mp hupdate
      have htime : (t.lastPermitsUpdateTime : ℚ) + inc * t.permitsUpdateInterval ≤ now := by
        have hmul := mul_le_mul_of_nonneg_right hincLe hinterval.le
        rw [div_mul_cancel₀ _ hinterval.ne'] at hmul
        have hnow : (passed : ℚ) = now - t.lastPermitsUpdateTime := by exact_mod_cast hpassed.symm
        linarith
      exact ⟨h.maxQPS, h.interval, h.maxPermits, hstored, (toInt64_le hlast htime).trans (le_max_right _ _)⟩

theorem Due.updateCurrentStoredPermits (hQ : 0 < Q) {t t' : RateLimiter} {now requiredPermits : Int} (h : Due Q now t)
    (hfew : requiredPermits - t.currentStoredPermits < Q)
    (hupdate : t.updateCurrentStoredPermits requiredPermits = some t') : Due Q (now + 1000000) t' := by
  have hsoon := h.mono (show now ≤ now + 1000000 by omega)
  unfold RateLimiter.updateCurrentStoredPermits at hupdate
  split at hupdate
  · obtain ⟨missing, hmissing, hupdate⟩ := Option.bind_eq_some_iff.mp hupdate
    obtain ⟨-, hmissing⟩ := checked_eq_some.mp hmissing
    dsimp only at hupdate
    split at hupdate
    · obtain ⟨wait, hwait, hupdate⟩ := Option.bind_eq_some_iff.mp hupdate
      obtain ⟨last, hlast, rfl⟩ := Option.map_eq_some_iff.mp hupdate
      have hsecond : (missing : ℚ) * t.permitsUpdateInterval ≤ (1000000 : Int) := by
        have hcast : (missing : ℚ) ≤ Q := by exact_mod_cast (show missing ≤ Q by omega)
        rw [h.interval, mul_div_assoc', div_le_iff₀ (Int.cast_pos.mpr hQ)]
        push_cast
        linarith
      have hle := toInt64_le hwait hsecond
      obtain ⟨-, hlast⟩ := checked_eq_some.mp hlast
      exact ⟨h.maxQPS, h.interval, h.maxPermits, le_rfl, hlast ▸ add_le_add h.last hle⟩
    · cases hupdate
      exact { hsoon with stored := le_rfl }
  next hcovered =>
    obtain ⟨stored, hstored, rfl⟩ := Option.map_eq_some_iff.mp hupdate
    obtain ⟨-, hstored⟩ := checked_eq_some.mp hstored
    have hleft : 0 ≤ stored := hstored ▸ Int.sub_nonneg.mpr (not_lt.mp hcovered)
    exact { hsoon with stored := hleft }

theorem Due.tryAcquire (hQ : 0 < Q) {t t' : RateLimiter} {deadline : Int} {permits now : BitVec 64} {granted : Bool}
    (h : Due Q deadline t) (hcall : t.tryAcquire permits now = some (granted, t')) :
    Due Q (max deadline (now.toInt + 1000000)) t'
      ∧ (deadline ≤ now.toInt → permits.toInt < Q → granted = true) := by
  obtain ⟨⟨wait, t₁⟩, hfetch, hout⟩ := Option.map_eq_some_iff.mp hcall
  cases hout
  unfold RateLimiter.acquire RateLimiter.fetchPermitsAndGetWaitTime at hfetch
  split at hfetch
  next hstored =>
    obtain ⟨stored, hsub, hout⟩ := Option.map_eq_some_iff.mp hfetch
    cases hout
    obtain ⟨-, hsub⟩ := checked_eq_some.mp hsub
    have hleft : 0 ≤ stored := hsub ▸ Int.sub_nonneg.mpr hstored.le
    exact ⟨{ h.mono (le_max_left _ _) with stored := hleft }, fun _ _ => rfl⟩
  next hstored =>
    obtain ⟨u, hupdate, hfetch⟩ := Option.bind_eq_some_iff.mp hfetch
    obtain ⟨ahead, hahead, hfetch⟩ := Option.bind_eq_some_iff.mp hfetch
    obtain ⟨-, hahead⟩ := checked_eq_some.mp hahead
    have hu := h.updatePermits hQ hupdate
    have hlast := hu.last
    split at hfetch
    next hdebt =>
      cases hfetch
      have hle : max t.lastPermitsUpdateTime now.toInt ≤ max deadline (now.toInt + 1000000) := by
        have := h.last
        omega
      refine ⟨hu.mono hle, fun hdue _ => ?_⟩
      have := h.last
      omega
    next hdebt =>
      obtain ⟨missing, hmissing, hfetch⟩ := Option.bind_eq_some_iff.mp hfetch
      obtain ⟨-, hmissing⟩ := checked_eq_some.mp hmissing
      have hnow : Due Q now.toInt u := { hu with last := by omega }
      rw [Bool.not_false, Bool.true_and] at hfetch
      split at hfetch
      next hmany =>
        have hmany : u.maxQPS ≤ missing := of_decide_eq_true hmany
        rw [hu.maxQPS] at hmany
        cases hfetch
        refine ⟨hnow.mono (by omega), fun _ hfew => ?_⟩
        have := hu.stored
        omega
      next hmany =>
        obtain ⟨v, hpay, hout⟩ := Option.map_eq_some_iff.mp hfetch
        cases hout
        have hfew : missing < Q := by
          have hnot : ¬ u.maxQPS ≤ missing := fun hle => hmany (decide_eq_true hle)
          rw [hu.maxQPS] at hnot
          omega
        refine ⟨(hnow.updateCurrentStoredPermits hQ (by omega) hpay).mono (le_max_right _ _), fun _ _ => ?_⟩
        exact decide_eq_true (max_eq_right (by omega))

theorem due_run (hQ : 0 < Q) {calls : List Call} {r : Limited} {deadline : Int}
    (h : ∀ t ∈ r.limiter, Due Q deadline t) (hcalls : ∀ call ∈ calls, call.now.toInt + 1000000 ≤ deadline) :
    ∀ t ∈ (machine.run r calls).limiter, Due Q deadline t := by
  induction calls generalizing r with
  | nil => exact h
  | cons call calls ih =>
    refine ih (fun t' ht' => ?_) fun c hc => hcalls c (List.mem_cons_of_mem _ hc)
    unfold machine at ht'
    dsimp only at ht'
    cases hbind : r.limiter.bind fun t => t.tryAcquire call.permits call.now with
    | none =>
      rw [hbind] at ht'
      cases ht'
    | some out =>
      obtain ⟨granted, t''⟩ := out
      obtain ⟨t, ht, hcall⟩ := Option.bind_eq_some_iff.mp hbind
      have hdue := ((h t ht).tryAcquire hQ hcall).1
      rw [max_eq_left (hcalls call List.mem_cons_self)] at hdue
      rw [hbind] at ht'
      cases granted <;> cases ht' <;> exact hdue

/-- **Who waits is served.**  Whatever the calls before, a call for fewer than `maxQPS`
    permits that comes a second after all of them is granted, unless an overflow has
    ended the limiter. -/
theorem granted_after_second (hQ : 0 < Q) (utcSteadyTimeUs : Int) (calls : List Call) (call : Call)
    (hfew : call.permits.toInt < Q) (hstart : utcSteadyTimeUs ≤ call.now.toInt)
    (hwait : ∀ c ∈ calls, c.now.toInt + 1000000 ≤ call.now.toInt) :
    (machine.run (start Q utcSteadyTimeUs) (calls ++ [call])).limiter = none
      ∨ (machine.run (start Q utcSteadyTimeUs) (calls ++ [call])).grants
        = (call.now.toInt, call.permits.toNat) :: (machine.run (start Q utcSteadyTimeUs) calls).grants := by
  have hdue := due_run hQ (r := start Q utcSteadyTimeUs) (fun t ht => by
    cases ht
    exact ⟨rfl, rfl, rfl, le_rfl, hstart⟩) hwait
  rw [machine.run_append, machine.run_cons, machine.run_nil]
  generalize machine.run (start Q utcSteadyTimeUs) calls = r at hdue
  unfold machine
  dsimp only
  cases hbind : r.limiter.bind fun t => t.tryAcquire call.permits call.now with
  | none => exact Or.inl rfl
  | some out =>
    obtain ⟨granted, t'⟩ := out
    obtain ⟨t, ht, hcall⟩ := Option.bind_eq_some_iff.mp hbind
    have hgranted := ((hdue t ht).tryAcquire hQ hcall).2 le_rfl hfew
    subst hgranted
    exact Or.inr rfl

theorem granted_after_second_small :
    (machine.run (start 10 0) ([⟨3, 1000000⟩, ⟨9, 1500000⟩] ++ [⟨9, 2500000⟩])).limiter = none
      ∨ (machine.run (start 10 0) ([⟨3, 1000000⟩, ⟨9, 1500000⟩] ++ [⟨9, 2500000⟩])).grants
        = (2500000, 9) :: (machine.run (start 10 0) [⟨3, 1000000⟩, ⟨9, 1500000⟩]).grants :=
  granted_after_second (by decide) 0 [⟨3, 1000000⟩, ⟨9, 1500000⟩] ⟨9, 2500000⟩ (by decide) (by decide) (by decide)

end HieraChain.FlowLimit
