import Mathlib.Algebra.BigOperators.Ring.Finset
import AvaModule.Util.MathDef
import AvaModule.Lib.SampledPeriod

/-! The generators of wavegen/sine.h and wavegen/square.h in exact arithmetic. -/
namespace AvaModule.WaveGen
open SampledPeriod

/-- `sine_cfg_t` -/
structure SineCfg where
  fs : ℚ
  waveFreq : ℚ
  amp : ℚ
  phase : ℚ
  off : ℚ

/-- `sine_t` -/
structure Sine where
  cfg : SineCfg
  val : ℚ
  phaseIncr : ℚ

def sineInit (sine : Sine) (sineCfg : SineCfg) : Sine := { sine with cfg := sineCfg }

def sineExec (sin : ℚ → ℚ) (sine : Sine) : Sine :=
  let phaseIncr := tau * sine.cfg.waveFreq / sine.cfg.fs
  let val := sine.cfg.amp * sin sine.cfg.phase + sine.cfg.off
  { cfg := { sine.cfg with phase := warpTau (sine.cfg.phase + phaseIncr) }, val, phaseIncr }

/-- `square_cfg_t` -/
structure SquareCfg where
  fs : ℚ
  waveFreq : ℚ
  amp : ℚ
  phase : ℚ
  off : ℚ
  dutyCycle : ℚ

/-- `square_t` -/
structure Square where
  cfg : SquareCfg
  val : ℚ
  phaseIncr : ℚ

def squareInit (square : Square) (squareCfg : SquareCfg) : Square := { square with cfg := squareCfg }

def squareExec (square : Square) : Square :=
  let phaseIncr := tau * square.cfg.waveFreq / square.cfg.fs
  let val :=
    if square.cfg.phase < square.cfg.dutyCycle * tau then square.cfg.amp + square.cfg.off
    else -square.cfg.amp + square.cfg.off
  { cfg := { square.cfg with phase := warpTau (square.cfg.phase + phaseIncr) }, val, phaseIncr }

section Phase
variable {phase incr x : ℚ} {k n : ℕ}

/-- The phase after `n` calls of either generator. -/
def phaseAfter (incr phase : ℚ) : ℕ → ℚ
  | 0 => phase
  | n + 1 => warpTau (phaseAfter incr phase n + incr)

/-- Below two turns WARP_TAU leaves a whole turn, and not zero. -/
theorem warpTau_part (pos : 0 < x) (below : x < tau + tau) : warpTau x = tau * part (x / tau) := by
  have positive := tau_pos
  obtain ⟨lower, upper, m, turns⟩ := warpTau_spec x
  have nonzero : 0 < warpTau x := by
    refine lt_of_le_of_ne lower fun none => ?_
    have whole : x = (-m : ℤ) * tau := by
      push_cast
      linarith
    have least : (0 : ℚ) < (-m : ℤ) := by
      rw [whole] at pos
      exact pos_of_mul_pos_left pos positive.le
    have most : ((-m : ℤ) : ℚ) < 2 := by
      rw [whole, ← two_mul] at below
      exact lt_of_mul_lt_mul_right below positive.le
    have single : -m = 1 := by
      have least' : 0 < -m := by exact_mod_cast least
      have most' : -m < 2 := by exact_mod_cast most
      omega
    rw [single, Int.cast_one, one_mul] at whole
    rw [warpTau_eq_tau.mpr whole] at none
    exact positive.ne none
  have first : part (x / tau) = warpTau x / tau := by
    apply part_eq (m := m)
    · exact div_pos nonzero positive
    · rwa [div_le_one positive]
    · rw [turns, add_div, mul_div_cancel_right₀ _ positive.ne']
  rw [first, mul_div_cancel₀ _ positive.ne']

/-- From the second call on. -/
theorem phaseAfter_succ (pos : 0 < incr) (below : incr < tau) (low : 0 ≤ phase) (high : phase ≤ tau) (n : ℕ) :
    phaseAfter incr phase (n + 1) = tau * part ((phase + (n + 1 : ℕ) * incr) / tau) := by
  have positive := tau_pos
  induction n with
  | zero =>
    rw [phaseAfter, phaseAfter, warpTau_part (x := phase + incr) (by linarith) (by linarith)]
    simp
  | succ n ih =>
    have nonzero := mul_pos positive (part_pos ((phase + (n + 1 : ℕ) * incr) / tau))
    have turn := mul_le_of_le_one_right positive.le (part_le ((phase + (n + 1 : ℕ) * incr) / tau))
    have moved := warpTau_part (x := tau * part ((phase + (n + 1 : ℕ) * incr) / tau) + incr) (by linarith) (by linarith)
    rw [phaseAfter, ih, moved, add_div, mul_div_cancel_left₀ _ positive.ne',
      part_part_add, ← add_div]
    push_cast
    ring_nf

/-- With `k` turns in `n` calls. -/
theorem phaseAfter_sample (turns : 0 < k) (slow : k < n) (low : 0 ≤ phase) (high : phase ≤ tau) (m : ℕ) :
    phaseAfter (tau * (k / n)) phase (m + 1) = tau * part (phase / tau + (m + 1 : ℕ) * (k / n)) := by
  have positive := tau_pos
  have calls : (0 : ℚ) < n := by exact_mod_cast turns.trans slow
  have share : (0 : ℚ) < k / n := div_pos (by exact_mod_cast turns) calls
  have less : (k / n : ℚ) < 1 := (div_lt_one calls).mpr (by exact_mod_cast slow)
  rw [phaseAfter_succ (mul_pos positive share) (mul_lt_of_lt_one_right positive less) low high, add_div, mul_left_comm,
    mul_div_cancel_left₀ _ positive.ne']

/-- The phases repeat. -/
theorem phaseAfter_period (turns : 0 < k) (slow : k < n) (low : 0 ≤ phase) (high : phase ≤ tau) (m : ℕ) :
    phaseAfter (tau * (k / n)) phase (m + n + 1) = phaseAfter (tau * (k / n)) phase (m + 1) := by
  have calls : (n : ℚ) ≠ 0 := by exact_mod_cast (turns.trans slow).ne'
  have turned : phase / tau + (m + n + 1 : ℕ) * (k / n : ℚ) = phase / tau + (m + 1 : ℕ) * (k / n) + (k : ℤ) := by
    push_cast
    field_simp
    ring
  rw [phaseAfter_sample turns slow low high, phaseAfter_sample turns slow low high, turned, part_add_int]

end Phase

section Runs
variable {k n : ℕ} {sin : ℚ → ℚ} {sine : Sine} {square : Square}

def sineAfter (sin : ℚ → ℚ) (sine : Sine) : ℕ → Sine
  | 0 => sine
  | n + 1 => sineExec sin (sineAfter sin sine n)

def squareAfter (square : Square) : ℕ → Square
  | 0 => square
  | n + 1 => squareExec (squareAfter square n)

/-- A wave that turns `k` times in `n` calls, from a phase within a turn. -/
structure Sampled (k n : ℕ) (fs waveFreq phase : ℚ) : Prop where
  turns : 0 < k
  slow : k < n
  sampling : fs ≠ 0
  rate : waveFreq * n = k * fs
  low : 0 ≤ phase
  high : phase ≤ tau

theorem Sampled.incr {fs waveFreq phase : ℚ} (sampled : Sampled k n fs waveFreq phase) :
    tau * waveFreq / fs = tau * (k / n) := by
  have calls : (n : ℚ) ≠ 0 := by exact_mod_cast (sampled.turns.trans sampled.slow).ne'
  rw [mul_div_assoc]
  congr 1
  rw [div_eq_div_iff sampled.sampling calls]
  exact sampled.rate

theorem sineAfter_cfg (n : ℕ) : (sineAfter sin sine n).cfg =
    { sine.cfg with phase := phaseAfter (tau * sine.cfg.waveFreq / sine.cfg.fs) sine.cfg.phase n } := by
  induction n with
  | zero => rfl
  | succ n ih =>
    rw [sineAfter, sineExec, ih]
    rfl

theorem squareAfter_cfg (n : ℕ) : (squareAfter square n).cfg =
    { square.cfg with phase := phaseAfter (tau * square.cfg.waveFreq / square.cfg.fs) square.cfg.phase n } := by
  induction n with
  | zero => rfl
  | succ n ih =>
    rw [squareAfter, squareExec, ih]
    rfl

theorem sineAfter_val (n : ℕ) : (sineAfter sin sine (n + 1)).val =
    sine.cfg.amp * sin (phaseAfter (tau * sine.cfg.waveFreq / sine.cfg.fs) sine.cfg.phase n) + sine.cfg.off := by
  rw [sineAfter, sineExec, sineAfter_cfg]

theorem squareAfter_val (n : ℕ) : (squareAfter square (n + 1)).val =
    if phaseAfter (tau * square.cfg.waveFreq / square.cfg.fs) square.cfg.phase n < square.cfg.dutyCycle * tau then
      square.cfg.amp + square.cfg.off
    else -square.cfg.amp + square.cfg.off := by
  rw [squareAfter, squareExec, squareAfter_cfg]

/-- After the first call the sine repeats itself. -/
theorem sine_repeats (sampled : Sampled k n sine.cfg.fs sine.cfg.waveFreq sine.cfg.phase) (m : ℕ) :
    (sineAfter sin sine (m + n + 2)).val = (sineAfter sin sine (m + 2)).val := by
  rw [sineAfter_val, sineAfter_val, sampled.incr,
    phaseAfter_period sampled.turns sampled.slow sampled.low sampled.high]

/-- Whether a call puts out the high or the low value. -/
theorem square_high (sampled : Sampled k n square.cfg.fs square.cfg.waveFreq square.cfg.phase) (m i : ℕ) :
    (squareAfter square (m + 2 + i)).val = square.cfg.off - square.cfg.amp + 2 * square.cfg.amp *
      (if part (square.cfg.phase / tau + (m + 1 : ℕ) * (k / n) + i * (k / n)) < square.cfg.dutyCycle then 1 else 0) := by
  have call : m + 2 + i = m + i + 1 + 1 := by omega
  have spread : square.cfg.phase / tau + (m + i + 1 : ℕ) * (k / n : ℚ) =
      square.cfg.phase / tau + (m + 1 : ℕ) * (k / n) + i * (k / n) := by
    push_cast
    ring
  have scaled (x : ℚ) : tau * x < square.cfg.dutyCycle * tau ↔ x < square.cfg.dutyCycle := by
    rw [mul_comm square.cfg.dutyCycle, mul_lt_mul_iff_right₀ tau_pos]
  rw [call, squareAfter_val, sampled.incr, phaseAfter_sample sampled.turns sampled.slow sampled.low sampled.high, spread]
  by_cases high : part (square.cfg.phase / tau + (m + 1 : ℕ) * (k / n) + i * (k / n)) < square.cfg.dutyCycle
  · rw [if_pos high, if_pos ((scaled _).mpr high)]
    ring
  · rw [if_neg high, if_neg (mt (scaled _).mp high)]
    ring

/-- After the first call the square wave repeats itself, and of the samples of every `n` calls as many are high as
there are places of the sampled turn below the duty cycle. A full turn stays a full turn, so a phase that is sampled
there is not high. -/
theorem square_duty (sampled : Sampled k n square.cfg.fs square.cfg.waveFreq square.cfg.phase) (coprime : k.Coprime n)
    (duty_pos : 0 < square.cfg.dutyCycle) (duty_le : square.cfg.dutyCycle ≤ 1) (m : ℕ) :
    (squareAfter square (m + n + 2)).val = (squareAfter square (m + 2)).val ∧
      ∑ i ∈ Finset.range n, (squareAfter square (m + 2 + i)).val = n * square.cfg.off +
        square.cfg.amp * (2 * ⌈n * square.cfg.dutyCycle - part (n * (square.cfg.phase / tau))⌉ - n) := by
  have pos : 0 < n := sampled.turns.trans sampled.slow
  have calls : (n : ℚ) ≠ 0 := by exact_mod_cast pos.ne'
  constructor
  · rw [squareAfter_val, squareAfter_val, sampled.incr,
      phaseAfter_period sampled.turns sampled.slow sampled.low sampled.high]
  · have count := card_part_lt pos coprime (square.cfg.phase / tau + (m + 1 : ℕ) * (k / n)) duty_pos duty_le
    have grid : n * (square.cfg.phase / tau + (m + 1 : ℕ) * (k / n : ℚ)) =
        n * (square.cfg.phase / tau) + ((m + 1) * k : ℤ) := by
      push_cast
      field_simp
    rw [grid, part_add_int] at count
    simp only [square_high sampled, Finset.sum_add_distrib, Finset.sum_const, ← Finset.mul_sum, Finset.sum_boole,
      Finset.card_range, nsmul_eq_mul]
    rw [← count]
    push_cast
    ring

/-- Four samples a turn from phase 0, with a duty cycle of one half. -/
def quarters : Square := ⟨⟨4, 1, 1, 0, 0, 1 / 2⟩, 0, 0⟩

/-- One of four is high. -/
theorem square_duty_quarter : ∑ i ∈ Finset.range 4, (squareAfter quarters (2 + i)).val = -2 := by
  have sampled : Sampled 1 4 quarters.cfg.fs quarters.cfg.waveFreq quarters.cfg.phase :=
    ⟨by decide, by decide, by norm_num [quarters], by norm_num [quarters], le_rfl, tau_pos.le⟩
  have run := (square_duty sampled (by decide) (by norm_num [quarters]) (by norm_num [quarters]) 0).2
  rw [zero_add] at run
  rw [run]
  norm_num [quarters, part]

end Runs

end AvaModule.WaveGen
