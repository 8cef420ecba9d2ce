import AvaModule.Filter.PllLock

/-! obs/lbg.h: the observer of the load torque. -/
namespace AvaModule.LbgObs

/-- The number of pole pairs, the inertia and the largest torque are those of `motor_cfg`. -/
structure LbgCfg where
  fs : ℚ
  npp : BitVec 32
  j : ℚ
  maxTor : ℚ
  wc : ℚ
  damp : ℚ
  deriving DecidableEq

/-- `cfg`, `in`, `out` and `lo` of `lbg_obs_t`; `lo.est_omega` is `loEstOmega`. -/
structure Lbg where
  cfg : LbgCfg
  theta : ℚ
  elecTor : ℚ
  estTheta : ℚ
  estOmega : ℚ
  estLoadTor : ℚ
  sumTor : ℚ
  loCfg : LbgCfg
  g1 : ℚ
  kp : ℚ
  ki : ℚ
  thetaErr : ℚ
  mechThetaErr : ℚ
  kiOut : ℚ
  loEstOmega : ℚ

def lbgInit (lbg : Lbg) (cfg : LbgCfg) : Lbg :=
  { lbg with
    cfg, loCfg := cfg
    g1 := 2 * cfg.wc
    kp := 2 * (cfg.wc * cfg.wc) * cfg.j * cfg.damp
    ki := cfg.wc * cfg.wc * cfg.wc * cfg.j }

/-- `CFG_CHECK` -/
def cfgCheck (lbg : Lbg) : Lbg := if lbg.cfg ≠ lbg.loCfg then lbgInit lbg lbg.cfg else lbg

def lbgExec (lbg : Lbg) : Lbg :=
  let lbg := cfgCheck lbg
  let thetaErr := warpPi (lbg.theta - lbg.estTheta)
  let mechThetaErr := thetaErr / lbg.cfg.npp.toNat
  let kiOut := clamp (integrator lbg.kiOut mechThetaErr lbg.ki lbg.cfg.fs) (-lbg.cfg.maxTor) lbg.cfg.maxTor
  let estLoadTor := -kiOut
  let sumTor := lbg.elecTor + lbg.kp * mechThetaErr + kiOut
  let loEstOmega := integrator lbg.loEstOmega sumTor (1 / lbg.cfg.j) lbg.cfg.fs
  let estOmega := lbg.g1 * mechThetaErr + loEstOmega
  let estTheta := warpTau (integrator lbg.estTheta estOmega lbg.cfg.npp.toNat lbg.cfg.fs)
  { lbg with thetaErr, mechThetaErr, kiOut, estLoadTor, sumTor, loEstOmega, estOmega, estTheta }

def lbgExecIn (lbg : Lbg) (theta elecTor : ℚ) : Lbg := lbgExec { lbg with theta, elecTor }

/-- The observer after a number of calls, each with its own angle and torque. -/
def lbgAfter (lbg : Lbg) (theta elecTor : Nat → ℚ) : Nat → Lbg
  | 0 => lbg
  | n + 1 => lbgExecIn (lbgAfter lbg theta elecTor n) (theta n) (elecTor n)

/-- A rotor under the torque `elecTor` against the load `load`: its electrical angle and its speed at each call. -/
structure Rotates (cfg : LbgCfg) (load : ℚ) (theta omega elecTor : Nat → ℚ) : Prop where
  speed : ∀ n, omega (n + 1) = omega n + (elecTor n - load) / cfg.j / cfg.fs
  angle : ∀ n, ∃ m : ℤ, theta (n + 1) = theta n + cfg.npp.toNat * omega (n + 1) / cfg.fs + m * tau

/-- How far the observer is from the rotor: in the mechanical angle, the speed and the load. -/
@[ext]
structure LoadErr where
  eps : ℚ
  speed : ℚ
  load : ℚ

/-- The errors after one more call. The torque and the speed of the rotor have no part in them. -/
def LoadErr.next (cfg : LbgCfg) (s : LoadErr) : LoadErr :=
  let load := s.load + cfg.wc * cfg.wc * cfg.wc * cfg.j * s.eps / cfg.fs
  let speed := s.speed - (2 * (cfg.wc * cfg.wc) * cfg.j * cfg.damp * s.eps + load) / cfg.j / cfg.fs
  ⟨s.eps + (speed - 2 * cfg.wc * s.eps) / cfg.fs, speed, load⟩

def LoadErr.after (cfg : LbgCfg) (s : LoadErr) : Nat → LoadErr
  | 0 => s
  | n + 1 => (LoadErr.after cfg s n).next cfg

/-- What the next call finds. -/
def loadErr (lbg : Lbg) (theta omega load : ℚ) : LoadErr :=
  ⟨warpPi (theta - lbg.estTheta) / lbg.cfg.npp.toNat, omega - lbg.loEstOmega, lbg.kiOut + load⟩

/-- The angle is less than half a turn off, and the load within what the observer can tell. -/
structure LoadErr.Inside (cfg : LbgCfg) (load : ℚ) (s : LoadErr) : Prop where
  angle : |cfg.npp.toNat * s.eps| ≤ pi
  load : |s.load - load| ≤ cfg.maxTor

/-- The gains are those of `lbg_init`, or the first call will set them. -/
def Geared (lbg : Lbg) : Prop :=
  lbg.cfg = lbg.loCfg →
    lbg.g1 = 2 * lbg.cfg.wc ∧ lbg.kp = 2 * (lbg.cfg.wc * lbg.cfg.wc) * lbg.cfg.j * lbg.cfg.damp ∧
      lbg.ki = lbg.cfg.wc * lbg.cfg.wc * lbg.cfg.wc * lbg.cfg.j

section Step
variable {lbg : Lbg} {theta elecTor omega load : ℚ}

/-- What a call does once its gains are set. -/
structure Balanced (lbg next : Lbg) (theta elecTor : ℚ) : Prop where
  cfg : next.cfg = lbg.cfg
  geared : Geared next
  kiOut : next.kiOut = clamp (lbg.kiOut + lbg.cfg.wc * lbg.cfg.wc * lbg.cfg.wc * lbg.cfg.j * next.mechThetaErr / lbg.cfg.fs)
    (-lbg.cfg.maxTor) lbg.cfg.maxTor
  err : next.mechThetaErr = warpPi (theta - lbg.estTheta) / lbg.cfg.npp.toNat
  omega : next.loEstOmega = lbg.loEstOmega +
    (elecTor + 2 * (lbg.cfg.wc * lbg.cfg.wc) * lbg.cfg.j * lbg.cfg.damp * next.mechThetaErr + next.kiOut) / lbg.cfg.j /
      lbg.cfg.fs
  estOmega : next.estOmega = 2 * lbg.cfg.wc * next.mechThetaErr + next.loEstOmega
  estTheta : next.estTheta = warpTau (lbg.estTheta + lbg.cfg.npp.toNat * next.estOmega / lbg.cfg.fs)
  estLoadTor : next.estLoadTor = -next.kiOut

/-- The gains are set, and nothing else changes. -/
theorem cfgCheck_geared (geared : Geared lbg) :
    ∃ loCfg, cfgCheck lbg = { lbg with
      loCfg
      g1 := 2 * lbg.cfg.wc
      kp := 2 * (lbg.cfg.wc * lbg.cfg.wc) * lbg.cfg.j * lbg.cfg.damp
      ki := lbg.cfg.wc * lbg.cfg.wc * lbg.cfg.wc * lbg.cfg.j } := by
  unfold cfgCheck
  by_cases set : lbg.cfg = lbg.loCfg
  · obtain ⟨g1, kp, ki⟩ := geared set
    rw [if_neg (not_not.mpr set)]
    exact ⟨lbg.loCfg, by rw [← g1, ← kp, ← ki]⟩
  · rw [if_pos set]
    exact ⟨lbg.cfg, rfl⟩

theorem lbgExecIn_balanced (geared : Geared lbg) (theta elecTor : ℚ) :
    Balanced lbg (lbgExecIn lbg theta elecTor) theta elecTor := by
  have geared' : Geared { lbg with theta, elecTor } := geared
  obtain ⟨loCfg, check⟩ := cfgCheck_geared geared'
  rw [lbgExecIn, lbgExec, check]
  refine ⟨rfl, fun _ => ⟨rfl, rfl, rfl⟩, rfl, rfl, ?_, rfl, rfl, rfl⟩
  simp only [integrator]
  ring

/-- While the angle and the load are inside, the errors of the observer follow their own recursion. -/
theorem Balanced.loadErr {next : Lbg} {theta' omega' : ℚ} (balanced : Balanced lbg next theta elecTor)
    (j : lbg.cfg.j ≠ 0) (npp : (lbg.cfg.npp.toNat : ℚ) ≠ 0) (speed : omega' = omega + (elecTor - load) / lbg.cfg.j / lbg.cfg.fs)
    (angle : ∃ m : ℤ, theta' = theta + lbg.cfg.npp.toNat * omega' / lbg.cfg.fs + m * tau)
    (inside : ((loadErr lbg theta omega load).next lbg.cfg).Inside lbg.cfg load) :
    loadErr next theta' omega' load = (loadErr lbg theta omega load).next lbg.cfg := by
  obtain ⟨near, within⟩ := inside
  have free : next.kiOut = lbg.kiOut +
      lbg.cfg.wc * lbg.cfg.wc * lbg.cfg.wc * lbg.cfg.j * next.mechThetaErr / lbg.cfg.fs := by
    have limits := abs_le.mp within
    simp only [LoadErr.next, AvaModule.LbgObs.loadErr, ← balanced.err] at limits
    rw [balanced.kiOut]
    exact clamp_eq_self (by linarith) (by linarith)
  have phase : warpPi (theta' - next.estTheta) =
      lbg.cfg.npp.toNat * ((AvaModule.LbgObs.loadErr lbg theta omega load).next lbg.cfg).eps := by
    obtain ⟨low, high⟩ := abs_le.mp near
    refine warpPi_eq low high ?_
    obtain ⟨m, rfl⟩ := angle
    obtain ⟨_, _, k, wrapped⟩ := warpTau_spec (lbg.estTheta + lbg.cfg.npp.toNat * next.estOmega / lbg.cfg.fs)
    obtain ⟨i, err⟩ := warpPi_turns (theta - lbg.estTheta)
    refine ⟨m - k - i, ?_⟩
    simp only [LoadErr.next, AvaModule.LbgObs.loadErr]
    rw [balanced.estTheta, wrapped, balanced.estOmega, balanced.omega, free, balanced.err, speed, err]
    push_cast
    field_simp
    ring
  have first : (AvaModule.LbgObs.loadErr next theta' omega' load).eps =
      ((AvaModule.LbgObs.loadErr lbg theta omega load).next lbg.cfg).eps := by
    simp only [AvaModule.LbgObs.loadErr, balanced.cfg] at phase ⊢
    rw [phase]
    field_simp
  have third : (AvaModule.LbgObs.loadErr next theta' omega' load).load =
      ((AvaModule.LbgObs.loadErr lbg theta omega load).next lbg.cfg).load := by
    simp only [AvaModule.LbgObs.loadErr, LoadErr.next, free, balanced.err]
    ring
  have second : (AvaModule.LbgObs.loadErr next theta' omega' load).speed =
      ((AvaModule.LbgObs.loadErr lbg theta omega load).next lbg.cfg).speed := by
    simp only [AvaModule.LbgObs.loadErr, LoadErr.next, balanced.omega, free, balanced.err, speed]
    ring
  exact LoadErr.ext first second third

theorem Balanced.limited {next : Lbg} (balanced : Balanced lbg next theta elecTor) (maxTor : 0 ≤ lbg.cfg.maxTor) :
    |next.estLoadTor| ≤ lbg.cfg.maxTor ∧ 0 ≤ next.estTheta ∧ next.estTheta ≤ tau := by
  obtain ⟨low, high, _⟩ := warpTau_spec (lbg.estTheta + lbg.cfg.npp.toNat * next.estOmega / lbg.cfg.fs)
  refine ⟨?_, balanced.estTheta ▸ low, balanced.estTheta ▸ high⟩
  rw [balanced.estLoadTor, abs_neg, balanced.kiOut]
  exact abs_le.mpr (clamp_mem (by linarith))

end Step

section Run
variable {lbg : Lbg} {theta omega elecTor : Nat → ℚ} {load : ℚ}

theorem LoadErr.after_zero (cfg : LbgCfg) (n : Nat) : LoadErr.after cfg ⟨0, 0, 0⟩ n = ⟨0, 0, 0⟩ := by
  induction n with
  | zero => rfl
  | succ n ih => simp [LoadErr.after, ih, LoadErr.next]

theorem lbgAfter_geared (geared : Geared lbg) (n : Nat) :
    Geared (lbgAfter lbg theta elecTor n) ∧ (lbgAfter lbg theta elecTor n).cfg = lbg.cfg := by
  induction n with
  | zero => exact ⟨geared, rfl⟩
  | succ n ih =>
    have balanced := lbgExecIn_balanced ih.1 (theta n) (elecTor n)
    exact ⟨balanced.geared, balanced.cfg.trans ih.2⟩

theorem lbgAfter_loadErr (j : lbg.cfg.j ≠ 0) (npp : (lbg.cfg.npp.toNat : ℚ) ≠ 0) (geared : Geared lbg)
    (rotates : Rotates lbg.cfg load theta omega elecTor) (n : Nat)
    (inside : ∀ k < n, (LoadErr.after lbg.cfg (loadErr lbg (theta 0) (omega 0) load) (k + 1)).Inside lbg.cfg load) :
    loadErr (lbgAfter lbg theta elecTor n) (theta n) (omega n) load =
      LoadErr.after lbg.cfg (loadErr lbg (theta 0) (omega 0) load) n := by
  induction n with
  | zero => rfl
  | succ n ih =>
    have before := ih fun k lt => inside k (Nat.lt_succ_of_lt lt)
    obtain ⟨geared', cfg⟩ := @lbgAfter_geared lbg theta elecTor geared n
    have balanced := lbgExecIn_balanced geared' (theta n) (elecTor n)
    have here := inside n (Nat.lt_succ_self n)
    rw [LoadErr.after, ← before] at here ⊢
    rw [← cfg] at j npp here ⊢
    exact balanced.loadErr j npp (cfg ▸ rotates.speed n) (cfg ▸ rotates.angle n) here

/-- What the observer tells of the load stays within `max_tor` whatever it is given. On a rotor under a steady load its
errors follow a linear recursion of their own, whatever the torque does, while they stay inside; and once it is right it
stays right. -/
theorem lbg_errors (j : lbg.cfg.j ≠ 0) (npp : (lbg.cfg.npp.toNat : ℚ) ≠ 0) (maxTor : 0 ≤ lbg.cfg.maxTor)
    (geared : Geared lbg) (n : Nat) :
    let after := lbgAfter lbg theta elecTor
    let start := loadErr lbg (theta 0) (omega 0) load
    (|(after (n + 1)).estLoadTor| ≤ lbg.cfg.maxTor ∧ 0 ≤ (after (n + 1)).estTheta ∧ (after (n + 1)).estTheta ≤ tau) ∧
    (Rotates lbg.cfg load theta omega elecTor → (∀ k < n, (start.after lbg.cfg (k + 1)).Inside lbg.cfg load) →
      loadErr (after n) (theta n) (omega n) load = start.after lbg.cfg n) ∧
    (Rotates lbg.cfg load theta omega elecTor → |load| ≤ lbg.cfg.maxTor → start = ⟨0, 0, 0⟩ →
      loadErr (after n) (theta n) (omega n) load = ⟨0, 0, 0⟩) := by
  intro after start
  obtain ⟨geared', cfg⟩ := @lbgAfter_geared lbg theta elecTor geared n
  refine ⟨?_, fun rotates inside => lbgAfter_loadErr j npp geared rotates n inside, fun rotates small right => ?_⟩
  · rw [← cfg] at maxTor ⊢
    exact (lbgExecIn_balanced geared' (theta n) (elecTor n)).limited maxTor
  · have right' : loadErr lbg (theta 0) (omega 0) load = ⟨0, 0, 0⟩ := right
    have run := lbgAfter_loadErr j npp geared rotates n
    rw [right', LoadErr.after_zero] at run
    refine run fun k _ => ?_
    rw [LoadErr.after_zero]
    refine ⟨?_, ?_⟩
    · rw [mul_zero, abs_zero]
      exact pi_pos.le
    · rwa [zero_sub, abs_neg]

/-- An observer that knows of a load of two, and takes the rotor to stand. -/
def steady : Lbg :=
  ⟨⟨1000, 1, 1, 5, 10, 1⟩, 0, 0, 0, 0, 0, 0, ⟨0, 0, 0, 0, 0, 0⟩, 0, 0, 0, 0, 0, -2, 0⟩

/-- Its rotor turns. -/
theorem lbg_errors_turning :
    loadErr (lbgAfter steady (fun n => n / 1000) (fun _ => 2) 3) (3 / 1000) 1 2 = LoadErr.after steady.cfg ⟨0, 1, 0⟩ 3 := by
  have geared : Geared steady := fun same => absurd (congrArg LbgCfg.fs same) (by norm_num [steady])
  have npp : (steady.cfg.npp.toNat : ℚ) ≠ 0 := Nat.cast_ne_zero.mpr (by decide)
  have pairs : steady.cfg.npp.toNat = 1 := rfl
  have one : BitVec.toNat (1 : BitVec 32) = 1 := rfl
  have rotates : Rotates steady.cfg 2 (fun n => (n : ℚ) / 1000) (fun _ => 1) fun _ => 2 := by
    refine ⟨fun n => by norm_num, fun n => ⟨0, ?_⟩⟩
    rw [pairs]
    push_cast [steady]
    ring
  have start : loadErr steady ((0 : Nat) / 1000) 1 2 = ⟨0, 1, 0⟩ := by
    have still : warpPi 0 = 0 := by norm_num [warpPi, pi, tau]
    norm_num [loadErr, steady, still]
  have run := (@lbg_errors steady (fun n => n / 1000) (fun _ => 1) (fun _ => 2) 2 (by norm_num [steady]) npp
    (by norm_num [steady]) geared 3).2.1 rotates
  rw [start] at run
  refine run fun k below => ?_
  obtain rfl | rfl | rfl : k = 0 ∨ k = 1 ∨ k = 2 := by omega
  all_goals constructor <;> norm_num [LoadErr.after, LoadErr.next, steady, one, pi, abs_le]

end Run

end AvaModule.LbgObs
