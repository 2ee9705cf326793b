import ToastyUnix.Core.Errno

/-!
# Sleeping

The timer interrupt counts ticks of ten milliseconds. `timer_sleep_ms` halts until the counter has
reached a target; a halt ends with any interrupt, so any number of ticks can pass during one. The
system call `SYS_SLEEP` takes milliseconds, and the C library hands it whole seconds. The main
result says for which requests a sleep lasts at least as long as asked for.
-/

namespace ToastyUnix.Time

open Errno BitVec

/-- `pit_tick`. -/
def pitTick (ticks : BitVec 64) : BitVec 64 := ticks + 1

/-- `while (g_ticks < target) hlt()`, with the ticks during each halt: the number of ticks before
the loop ends, or `none` if it goes on behind these halts. -/
def waitUntil (target ticks : BitVec 64) : List ℕ → Option ℕ
  | [] => if ticks < target then none else some 0
  | n :: halts =>
    if ticks < target then (waitUntil target (pitTick^[n] ticks) halts).map (n + ·) else some 0

/-- `timer_sleep_ms(ms)`. The sum `ms + 9` is a 32-bit one. -/
def timerSleepMs (ticks : BitVec 64) (ms : BitVec 32) (halts : List ℕ) : Option ℕ :=
  waitUntil (ticks + (ms + 9).setWidth 64 / 10) ticks halts

/-- `SYS_SLEEP` of `syscall_dispatch`: the result and the ticks that pass. -/
def sysSleep (ticks rdi : BitVec 64) (halts : List ℕ) : Option (ℤ × ℕ) :=
  (timerSleepMs ticks (rdi.setWidth 32) halts).map fun waited ↦ (0, waited)

/-- `struct tus_timespec`. -/
structure Timespec where
  tvSec : BitVec 64
  tvNsec : BitVec 64

/-- `tus_sleep_from_timespec`. -/
def tusSleepFromTimespec (ticks : BitVec 64) (ts : Option Timespec) (halts : List ℕ) :
    Option (ℤ × ℕ) :=
  match ts with
  | none => some (0, 0)
  | some t =>
    let secs := t.tvSec
    let secs := if BitVec.slt 0 t.tvNsec then secs + 1 else secs
    sysSleep ticks secs halts

/-- The sleeping calls of the C library. -/
inductive SleepCall
  | nanosleep (req : Option Timespec)
  | clockNanosleep (flags : BitVec 64) (req : Option Timespec)

/-- The cases of `tus_syscall` for them. -/
def tusSyscall (ticks : BitVec 64) (halts : List ℕ) : SleepCall → Option (ℤ × ℕ)
  | .nanosleep req => tusSleepFromTimespec ticks req halts
  | .clockNanosleep flags req =>
    if flags ≠ 0 then some (-EFAULT, 0) else tusSleepFromTimespec ticks req halts

/-- Whatever happens during the halts, the call does not end before that many ticks. -/
def SleepsAtLeast (call : List ℕ → Option ℕ) (count : ℕ) : Prop :=
  ∀ halts waited, call halts = some waited → count ≤ waited

theorem toNat_iterate_pitTick (n : ℕ) (ticks : BitVec 64) :
    (pitTick^[n] ticks).toNat = (ticks.toNat + n) % 2 ^ 64 := by
  induction n generalizing ticks with
  | zero => exact (Nat.mod_eq_of_lt ticks.isLt).symm
  | succ n ih =>
    have hone : (1 : BitVec 64).toNat = 1 := rfl
    rw [Function.iterate_succ_apply, ih, pitTick, toNat_add, hone]
    omega

variable {target ticks : BitVec 64} {count : ℕ}

theorem le_of_waitUntil {halts : List ℕ} {waited : ℕ}
    (h : waitUntil target ticks halts = some waited) : target.toNat ≤ ticks.toNat + waited := by
  induction halts generalizing ticks waited with
  | nil =>
    unfold waitUntil at h
    split_ifs at h with hlt
    rw [lt_def] at hlt
    omega
  | cons n halts ih =>
    unfold waitUntil at h
    split_ifs at h with hlt
    · obtain ⟨later, hlater, rfl⟩ := Option.map_eq_some_iff.mp h
      have hle := ih hlater
      rw [toNat_iterate_pitTick] at hle
      have := Nat.mod_le (ticks.toNat + n) (2 ^ 64)
      omega
    · rw [lt_def] at hlt
      omega

/-- With one tick during each halt the loop ends as soon as the target is reached. -/
theorem waitUntil_replicate (target ticks : BitVec 64) :
    waitUntil target ticks (List.replicate (target.toNat - ticks.toNat) 1) =
      some (target.toNat - ticks.toNat) := by
  generalize hcount : target.toNat - ticks.toNat = count
  induction count generalizing ticks with
  | zero =>
    have hge : ¬ ticks < target := by
      rw [lt_def]
      omega
    simp [waitUntil, hge]
  | succ count ih =>
    have hlt : ticks < target := by
      rw [lt_def]
      omega
    have htick : (pitTick ticks).toNat = ticks.toNat + 1 := by
      have := toNat_iterate_pitTick 1 ticks
      rw [Function.iterate_one] at this
      have := target.isLt
      omega
    have hrest := ih (pitTick ticks) (by omega)
    rw [List.replicate_succ, waitUntil, if_pos hlt, Function.iterate_one, hrest, Option.map_some,
      Nat.add_comm]

theorem sleepsAtLeast_waitUntil_iff :
    SleepsAtLeast (waitUntil target ticks) count ↔ count ≤ target.toNat - ticks.toNat := by
  constructor
  · intro h
    exact h _ _ (waitUntil_replicate target ticks)
  · intro h halts waited hwait
    have := le_of_waitUntil hwait
    omega

/-- The target of `timer_sleep_ms` lies so many ticks ahead unless a sum wraps. -/
theorem toNat_target_sub (ticks : BitVec 64) (ms : BitVec 32) :
    (ticks + (ms + 9).setWidth 64 / 10).toNat - ticks.toNat =
      if ms.toNat + 9 < 2 ^ 32 ∧ ticks.toNat + (ms.toNat + 9) / 10 < 2 ^ 64 then
        (ms.toNat + 9) / 10
      else 0 := by
  have hten : (10 : BitVec 64).toNat = 10 := rfl
  have hnine : (9 : BitVec 32).toNat = 9 := rfl
  have hms := ms.isLt
  have hticks := ticks.isLt
  rw [toNat_add, toNat_udiv, toNat_setWidth, toNat_add, hten, hnine]
  by_cases hsum : ms.toNat + 9 < 2 ^ 32
  · have hwide : (ms.toNat + 9) % 2 ^ 32 % 2 ^ 64 = ms.toNat + 9 := by omega
    rw [hwide]
    by_cases htarget : ticks.toNat + (ms.toNat + 9) / 10 < 2 ^ 64
    · rw [if_pos ⟨hsum, htarget⟩, Nat.mod_eq_of_lt htarget]
      omega
    · rw [if_neg (fun h ↦ htarget h.2), Nat.mod_eq_sub_mod (by omega), Nat.mod_eq_of_lt (by omega)]
      omega
  · have hwrap : (ms.toNat + 9) % 2 ^ 32 % 2 ^ 64 / 10 = 0 := by omega
    rw [hwrap, if_neg (fun h ↦ hsum h.1)]
    omega

/-- `timer_sleep_ms` waits long enough unless `ms + 9` or the target wraps. -/
theorem sleepsAtLeast_timerSleepMs_iff (ticks : BitVec 64) (ms : BitVec 32) :
    SleepsAtLeast (timerSleepMs ticks ms) count ↔ count = 0 ∨
      ms.toNat + 9 < 2 ^ 32 ∧ ticks.toNat + (ms.toNat + 9) / 10 < 2 ^ 64 ∧
        count ≤ (ms.toNat + 9) / 10 := by
  have htarget : timerSleepMs ticks ms = waitUntil (ticks + (ms + 9).setWidth 64 / 10) ticks := rfl
  rw [htarget, sleepsAtLeast_waitUntil_iff, toNat_target_sub]
  split_ifs <;> omega

/-- The seconds that the library asks the kernel to sleep. -/
theorem toNat_secs {t : Timespec} (hsec : t.tvSec.toNat < 2 ^ 22) (hnsec : t.tvNsec.toNat < 10 ^ 9) :
    ((if BitVec.slt 0 t.tvNsec then t.tvSec + 1 else t.tvSec).setWidth 32).toNat =
      t.tvSec.toNat + if t.tvNsec.toNat = 0 then 0 else 1 := by
  have hone : (1 : BitVec 64).toNat = 1 := rfl
  have hpositive : BitVec.slt 0 t.tvNsec = decide (t.tvNsec.toNat ≠ 0) := by
    have hint : t.tvNsec.toInt = t.tvNsec.toNat := toInt_eq_toNat_of_lt (by omega)
    have hzero : (0 : BitVec 64).toInt = 0 := rfl
    rw [BitVec.slt, hint, hzero]
    congr 1
    exact propext (by omega)
  rw [toNat_setWidth, hpositive]
  by_cases hzero : t.tvNsec.toNat = 0
  · simp only [hzero, ne_eq, not_true_eq_false, decide_false, if_true]
    simp only [Bool.false_eq_true, if_false]
    omega
  · simp only [hzero, ne_eq, not_false_eq_true, decide_true, if_true, if_false, toNat_add, hone]
    omega

/-- A request of less than `2^22` seconds is met by `nanosleep` exactly when it asks for less than
twenty milliseconds, and `timer_sleep_ms` meets every request whose rounding does not wrap. -/
theorem sleep_is_long_enough_iff (ticks : BitVec 64) {t : Timespec} (hsec : t.tvSec.toNat < 2 ^ 22)
    (hnsec : t.tvNsec.toNat < 10 ^ 9) (ms : BitVec 32) :
    (SleepsAtLeast (fun halts ↦ (tusSyscall ticks halts (.nanosleep (some t))).map Prod.snd)
        ((t.tvSec.toNat * 1000 + t.tvNsec.toNat / 10 ^ 6) / 10) ↔
      t.tvSec.toNat = 0 ∧ (t.tvNsec.toNat < 10 ^ 7 ∨
        t.tvNsec.toNat < 2 * 10 ^ 7 ∧ ticks.toNat + 1 < 2 ^ 64)) ∧
    (SleepsAtLeast (timerSleepMs ticks ms) (ms.toNat / 10) ↔
      ms.toNat < 10 ∨ ms.toNat + 9 < 2 ^ 32 ∧ ticks.toNat + (ms.toNat + 9) / 10 < 2 ^ 64) := by
  constructor
  · have hcall : (fun halts ↦ (tusSyscall ticks halts (.nanosleep (some t))).map Prod.snd) =
        timerSleepMs ticks
          ((if BitVec.slt 0 t.tvNsec then t.tvSec + 1 else t.tvSec).setWidth 32) := by
      funext halts
      simp only [tusSyscall, tusSleepFromTimespec, sysSleep, Option.map_map]
      exact Option.map_id'
    rw [hcall, sleepsAtLeast_timerSleepMs_iff, toNat_secs hsec hnsec]
    split_ifs with hzero <;> omega
  · rw [sleepsAtLeast_timerSleepMs_iff]
    omega

theorem sleep_is_long_enough_iff_fifteenMs :
    SleepsAtLeast (fun halts ↦ (tusSyscall 0 halts (.nanosleep (some ⟨0, 15000000⟩))).map Prod.snd)
        1 ∧ SleepsAtLeast (timerSleepMs 0 1000) 100 :=
  ⟨(sleep_is_long_enough_iff 0 (t := ⟨0, 15000000⟩) (by decide) (by decide) 1000).1.mpr (by decide),
    (sleep_is_long_enough_iff 0 (t := ⟨0, 15000000⟩) (by decide) (by decide) 1000).2.mpr
      (by decide)⟩

/-- A sleep of one second ends after one tick, and one of `2^32 - 1` milliseconds at once. -/
theorem one_second_lasts_one_tick :
    tusSyscall 0 [1] (.nanosleep (some ⟨1, 0⟩)) = some (0, 1) ∧
      timerSleepMs 0 (BitVec.ofNat 32 (2 ^ 32 - 1)) [] = some 0 := by
  decide

end ToastyUnix.Time
