import AvaModule.Foc.Second
import AvaModule.Lib.Winding

/-! The total angle of the rotor: its turns are counted from readings that never leave one turn. -/
namespace AvaModule.FocDrive
open Winding (place wound)

variable {foc : Foc} {adc : AdcRaw} {reading : Reading} {x : Nat → ℚ} {r : Nat → Reading} {s : Nat → Foc} {n : Nat}

/-- Only `foc_rotor_cal` moves the position, whatever the state of the drive. -/
theorem focExec_position (foc : Foc) (reading : Reading) :
    (focExec foc reading).position = (entered foc reading).position :=
  congrArg Prod.snd (dispatched_measured (entered foc reading) reading.adc)

section Count

/-- What `i32` holds. -/
def IsI32 (n : Int) : Prop := -2 ^ 31 ≤ n ∧ n < 2 ^ 31

/-- The turn counter does not overflow with a reading. -/
structure CountFits (foc : Foc) (theta : ℚ) : Prop where
  up : theta - foc.rotor.mechPrevTheta < -tau * 0.5 → IsI32 (foc.rotor.mechCycleCnt + 1)
  down : theta - foc.rotor.mechPrevTheta > tau * 0.5 → IsI32 (foc.rotor.mechCycleCnt - 1)

/-- The counter follows the readings. -/
theorem entered_position (fits : CountFits foc reading.theta) :
    (entered foc reading).position =
      ⟨foc.rotor.mechCycleCnt + wound tau foc.rotor.mechPrevTheta reading.theta, reading.theta,
        (foc.rotor.mechCycleCnt + wound tau foc.rotor.mechPrevTheta reading.theta : ℤ) * tau + reading.theta⟩ := by
  obtain ⟨cnt, count⟩ : ∃ cnt, cnt = foc.rotor.mechCycleCnt + wound tau foc.rotor.mechPrevTheta reading.theta :=
    ⟨_, rfl⟩
  have half : -(tau / 2) = -tau * 0.5 := by ring
  have half' : tau / 2 = tau * 0.5 := by ring
  have counted : (if reading.theta - foc.rotor.mechPrevTheta < -tau * 0.5 then addI32 foc.rotor.mechCycleCnt 1
      else if reading.theta - foc.rotor.mechPrevTheta > tau * 0.5 then subI32 foc.rotor.mechCycleCnt 1
      else foc.rotor.mechCycleCnt) = cnt := by
    rw [count, wound, half, half']
    split
    · next dropped => exact bmod_eq (fits.up dropped).1 (fits.up dropped).2
    · split
      · next rose => exact bmod_eq (fits.down rose).1 (fits.down rose).2
      · exact (add_zero _).symm
  rw [← count]
  unfold entered focRotorCal Foc.position
  dsimp only
  rw [counted]
  split <;> rfl

/-- A counter that is `k` turns ahead of the true angle. -/
theorem focExec_ahead {k : ℤ} {y : ℚ} (reads : reading.theta = place tau y) (fits : CountFits foc reading.theta)
    (ahead : foc.rotor.mechCycleCnt + wound tau foc.rotor.mechPrevTheta (place tau y) = Winding.turns tau y + k) :
    (focExec foc reading).position = ⟨Winding.turns tau y + k, place tau y, y + k * tau⟩ := by
  rw [focExec_position, entered_position fits, reads, ahead]
  ext
  · rfl
  · rfl
  · change ((Winding.turns tau y + k : ℤ) : ℚ) * tau + place tau y = y + k * tau
    rw [place]
    push_cast
    ring

/-- The position after a call, in terms of the true angle: the counter stays `k` turns ahead. -/
theorem focExec_tracks {k : ℤ} {x y : ℚ} (near : |y - x| < tau / 2) (before : foc.rotor.mechPrevTheta = place tau x)
    (count : foc.rotor.mechCycleCnt = Winding.turns tau x + k) (reads : reading.theta = place tau y)
    (fits : CountFits foc reading.theta) :
    (focExec foc reading).position = ⟨Winding.turns tau y + k, place tau y, y + k * tau⟩ := by
  have next := Winding.turns_next tau_pos near
  apply focExec_ahead reads fits
  rw [count, before, next]
  ring

end Count

/-- The total angle stays a fixed number of turns away from the true one as long as the counter
does not overflow, from any `foc_t` on and whatever else is changed between the calls. -/
theorem total_theta (near : ∀ i, |x (i + 1) - x i| < tau / 2) (reads : ∀ i, (r i).theta = place tau (x i))
    (kept : ∀ i, (s (i + 1)).position = (focExec (s i) (r i)).position) :
    ∃ k : ℤ, ∀ n, (∀ i ≤ n, CountFits (s i) (r i).theta) →
      (focExec (s n) (r n)).rotor.mechTotalTheta - x n = k * tau := by
  obtain ⟨k, ahead⟩ : ∃ k : ℤ, (s 0).rotor.mechCycleCnt + wound tau (s 0).rotor.mechPrevTheta (place tau (x 0)) =
      Winding.turns tau (x 0) + k := ⟨_, (add_sub_cancel _ _).symm⟩
  have tracks (n : Nat) (fits : ∀ i ≤ n, CountFits (s i) (r i).theta) :
      (focExec (s n) (r n)).position = ⟨Winding.turns tau (x n) + k, place tau (x n), x n + k * tau⟩ := by
    induction n with
    | zero => exact focExec_ahead (reads 0) (fits 0 (Nat.le_refl 0)) ahead
    | succ n ih =>
      have here := (kept n).trans (ih fun i le => fits i (Nat.le_succ_of_le le))
      exact focExec_tracks (near n) (congrArg Position.prevTheta here) (congrArg Position.cycleCnt here) (reads (n + 1))
        (fits (n + 1) (Nat.le_refl _))
  refine ⟨k, fun n fits => ?_⟩
  have total := congrArg Position.totalTheta (tracks n fits)
  change (focExec (s n) (r n)).rotor.mechTotalTheta = _ at total
  rw [total]
  ring

/-- The readings of a rotor that turns back by one radian each call. -/
def backwards (i : Nat) : Reading := ⟨⟨⟨0, 0, 0⟩, 0⟩, place tau (-i)⟩

theorem backwards_start : (backwards 0).theta = 0 := by
  norm_num [backwards, place, Winding.turns]

/-- The second call crosses the zero mark. -/
theorem total_theta_backwards :
    ∃ k : ℤ, ∀ n ≤ 1, (focExec (after (zeroed (motor 7) motorPll) backwards n) (backwards n)).rotor.mechTotalTheta -
      -(n : ℚ) = k * tau := by
  have near (i : Nat) : |(-((i + 1 : Nat) : ℚ)) - -(i : ℚ)| < tau / 2 := by
    have step : -((i + 1 : Nat) : ℚ) - -(i : ℚ) = -1 := by
      push_cast
      ring
    rw [step]
    norm_num [tau]
  have first : CountFits (zeroed (motor 7) motorPll) (backwards 0).theta := by
    constructor <;> intro _ <;> constructor <;> decide
  have second : CountFits (after (zeroed (motor 7) motorPll) backwards 1) (backwards 1).theta := by
    have here := (focExec_position (zeroed (motor 7) motorPll) (backwards 0)).trans (entered_position first)
    have count := congrArg Position.cycleCnt here
    rw [backwards_start] at count
    have zero : (after (zeroed (motor 7) motorPll) backwards 1).rotor.mechCycleCnt = 0 :=
      count.trans (by norm_num [zeroed, wound, tau])
    constructor <;> intro _ <;> rw [zero] <;> constructor <;> decide
  obtain ⟨k, tracked⟩ := total_theta (x := fun i => -(i : ℚ)) (r := backwards)
    (s := after (zeroed (motor 7) motorPll) backwards)
    near (fun _ => rfl) fun _ => rfl
  refine ⟨k, fun n le => tracked n fun i le' => ?_⟩
  rcases Nat.le_one_iff_eq_zero_or_eq_one.mp (Nat.le_trans le' le) with rfl | rfl
  · exact first
  · exact second

end AvaModule.FocDrive
