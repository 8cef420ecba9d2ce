import AvaModule.Filter.Pll
import AvaModule.Lib.Sliding
import AvaModule.Trans.Clarkepark

/-! obs/smo.h. The trigonometric functions of the target are parameters. -/
namespace AvaModule.SmoObs
open Sliding

/-- The motor's resistance and inductances are those of `motor_cfg`. -/
structure SmoCfg where
  fs : ℚ
  ks : ℚ
  es0 : ℚ
  rs : ℚ
  ld : ℚ
  lq : ℚ

/-- `cfg`, `in`, `out` and `lo` of `smo_obs_t`. -/
structure Smo where
  cfg : SmoCfg
  iAb : Ab ℚ
  vAb : Ab ℚ
  estTheta : ℚ
  estOmega : ℚ
  estIAb : Ab ℚ
  estIAbErr : Ab ℚ
  estEmfVAb : Ab ℚ
  pll : Pll

/-- The mean of the two inductances. -/
def SmoCfg.inductance (cfg : SmoCfg) : ℚ := 0.5 * (cfg.ld + cfg.lq)

def smoInit (smo : Smo) (smoCfg : SmoCfg) : Smo :=
  let pll := { smo.pll with cfg := { smo.pll.cfg with fs := smoCfg.fs } }
  { smo with cfg := smoCfg, pll := pllInit pll pll.cfg }

/-- The estimated current of one axis. -/
def estCurrent (cfg : SmoCfg) (est v i emf : ℚ) : ℚ :=
  integrator est ((v - i * cfg.rs - emf) / cfg.inductance) 1 cfg.fs

/-- The estimated back-EMF of one axis. -/
def estEmf (cfg : SmoCfg) (err : ℚ) : ℚ := if |err| > cfg.es0 then cpysgn cfg.ks err else cfg.ks * err / cfg.es0

section Trigonometry
variable (sin cos : ℚ → ℚ) (atan2 : ℚ → ℚ → ℚ)

/-- `in.ab`, which nothing reads, is left out. -/
def pllExecAbIn (pll : Pll) (ab : Ab ℚ) : Pll :=
  pllExec { pll with thetaErr := ab.b * cos pll.theta - ab.a * sin pll.theta }

def smoExec (smo : Smo) : Smo :=
  let estIAb : Ab ℚ :=
    ⟨estCurrent smo.cfg smo.estIAb.a smo.vAb.a smo.iAb.a smo.estEmfVAb.a,
      estCurrent smo.cfg smo.estIAb.b smo.vAb.b smo.iAb.b smo.estEmfVAb.b⟩
  let estIAbErr : Ab ℚ := ⟨estIAb.a - smo.iAb.a, estIAb.b - smo.iAb.b⟩
  let estEmfVAb : Ab ℚ := ⟨estEmf smo.cfg estIAbErr.a, estEmf smo.cfg estIAbErr.b⟩
  let pll := pllExecAbIn sin cos smo.pll estEmfVAb
  let estOmega := pll.omega
  let estTheta := warpTau (atan2 (-estEmfVAb.a * estOmega) (estEmfVAb.b * estOmega))
  { smo with estIAb, estIAbErr, estEmfVAb, pll, estOmega, estTheta }

def smoExecIn (smo : Smo) (iAb vAb : Ab ℚ) : Smo := smoExec sin cos atan2 { smo with iAb, vAb }

/-- The observer after its first call and a number of others; each call has its own current and voltage. -/
def smoAfter (smo : Smo) (iAb vAb : Nat → Ab ℚ) : Nat → Smo
  | 0 => smoExecIn sin cos atan2 smo (iAb 0) (vAb 0)
  | n + 1 => smoExecIn sin cos atan2 (smoAfter smo iAb vAb n) (iAb (n + 1)) (vAb (n + 1))

end Trigonometry

/-- One phase of the motor, sampled: its current, the voltage over it and its back-EMF, which stays below `bound` and
moves by at most `drift` between two calls. -/
structure Winding (cfg : SmoCfg) (i v emf : Nat → ℚ) (bound drift : ℚ) : Prop where
  stator : ∀ n, i (n + 1) = i n + (v (n + 1) - cfg.rs * i (n + 1) - emf (n + 1)) / cfg.inductance / cfg.fs
  small : ∀ n, |emf n| ≤ bound
  slow : ∀ n, |emf (n + 1) - emf n| ≤ drift

/-- What the estimates of one axis are worth after each call: the error of the current falls below `es0` and stays
there, and from then on the estimated back-EMF follows the real one. -/
structure Observes (cfg : SmoCfg) (err est emf : Nat → ℚ) (bound drift : ℚ) : Prop where
  limited : ∀ n, |est n| ≤ cfg.ks
  reached : ∀ n, |err n| ≤ max cfg.es0 (|err 0| - n * ((cfg.ks - bound) / (cfg.inductance * cfg.fs)))
  follows : ∀ m n, |err m| ≤ cfg.es0 →
    |est (m + n) - emf (m + n)| ≤
      (1 - cfg.ks / (cfg.es0 * cfg.inductance * cfg.fs)) ^ n * |est m - emf m| +
        (cfg.es0 * cfg.inductance * cfg.fs / cfg.ks - 1) * drift

section Axis
variable {cfg : SmoCfg} {i v emf c err est : Nat → ℚ} {bound drift : ℚ}

theorem estEmf_eq (cfg : SmoCfg) (x : ℚ) : estEmf cfg x = drive cfg.ks cfg.es0 x := rfl

theorem Winding.observes (winding : Winding cfg i v emf bound drift) (fs : 0 < cfg.fs) (inductance : 0 < cfg.inductance)
    (es0 : 0 < cfg.es0) (strong : bound < cfg.ks) (fine : cfg.ks ≤ cfg.es0 * cfg.inductance * cfg.fs)
    (current : ∀ n, c (n + 1) = estCurrent cfg (c n) (v (n + 1)) (i (n + 1)) (est n))
    (error : ∀ n, err n = c n - i n) (estimate : ∀ n, est n = estEmf cfg (err n)) :
    Observes cfg err est emf bound drift := by
  have scale : 0 < cfg.inductance * cfg.fs := mul_pos inductance fs
  have g_pos : 0 < 1 / (cfg.inductance * cfg.fs) := one_div_pos.mpr scale
  have ks_pos : 0 < cfg.ks := (abs_nonneg (emf 0)).trans_lt ((winding.small 0).trans_lt strong)
  have fine' : cfg.ks * (1 / (cfg.inductance * cfg.fs)) ≤ cfg.es0 := by
    rw [mul_one_div, div_le_iff₀ scale, ← mul_assoc]
    exact fine
  have run : ∀ n, err (n + 1) = next (1 / (cfg.inductance * cfg.fs)) cfg.ks cfg.es0 (emf (n + 1)) (err n) := by
    intro n
    have plant := winding.stator n
    rw [error (n + 1), current, estimate, estEmf_eq, next, error n, estCurrent, integrator]
    field_simp at plant ⊢
    linarith
  have share : cfg.ks * (1 / (cfg.inductance * cfg.fs)) / cfg.es0 =
      cfg.ks / (cfg.es0 * cfg.inductance * cfg.fs) := by
    field_simp
  refine ⟨fun n => ?_, fun n => ?_, fun m n near => ?_⟩
  · rw [estimate, estEmf_eq]
    exact drive_le ks_pos.le es0
  · have falls := run_falls g_pos es0 fine' winding.small strong run n
    rwa [mul_one_div] at falls
  · have follows := run_follows g_pos es0 fine' winding.small strong run near winding.slow n
    rw [share] at follows
    rw [estimate, estimate, estEmf_eq, estEmf_eq]
    have rest : (1 - cfg.ks / (cfg.es0 * cfg.inductance * cfg.fs)) / (cfg.ks / (cfg.es0 * cfg.inductance * cfg.fs)) =
        cfg.es0 * cfg.inductance * cfg.fs / cfg.ks - 1 := by
      field_simp
    rwa [rest] at follows

end Axis

section Run
variable {sin cos : ℚ → ℚ} {atan2 : ℚ → ℚ → ℚ} {smo : Smo} {iAb vAb emf : Nat → Ab ℚ} {bound drift : ℚ}

theorem smoAfter_cfg (n : Nat) : (smoAfter sin cos atan2 smo iAb vAb n).cfg = smo.cfg := by
  induction n with
  | zero => rfl
  | succ n ih => exact ih

/-- What every call, the first one included, leaves of the errors and the estimates. -/
theorem smoAfter_estimates (n : Nat) :
    let after := smoAfter sin cos atan2 smo iAb vAb n
    after.estIAbErr = ⟨after.estIAb.a - (iAb n).a, after.estIAb.b - (iAb n).b⟩ ∧
      after.estEmfVAb = ⟨estEmf smo.cfg after.estIAbErr.a, estEmf smo.cfg after.estIAbErr.b⟩ := by
  cases n with
  | zero => exact ⟨rfl, rfl⟩
  | succ n =>
    have cfg : (smoAfter sin cos atan2 smo iAb vAb n).cfg = smo.cfg := smoAfter_cfg n
    refine ⟨rfl, ?_⟩
    rw [← cfg]
    rfl

/-- On a motor whose back-EMF stays below `ks`, the observer's current error comes below `es0` in a bounded number of
calls and stays there on both axes, and the estimated back-EMF then follows the real one like a low-pass does. -/
theorem smo_slides (fs : 0 < smo.cfg.fs) (inductance : 0 < smo.cfg.inductance) (es0 : 0 < smo.cfg.es0)
    (strong : bound < smo.cfg.ks) (fine : smo.cfg.ks ≤ smo.cfg.es0 * smo.cfg.inductance * smo.cfg.fs)
    (first : Winding smo.cfg (fun n => (iAb n).a) (fun n => (vAb n).a) (fun n => (emf n).a) bound drift)
    (second : Winding smo.cfg (fun n => (iAb n).b) (fun n => (vAb n).b) (fun n => (emf n).b) bound drift) :
    let after := smoAfter sin cos atan2 smo iAb vAb
    Observes smo.cfg (fun n => (after n).estIAbErr.a) (fun n => (after n).estEmfVAb.a) (fun n => (emf n).a) bound drift ∧
    Observes smo.cfg (fun n => (after n).estIAbErr.b) (fun n => (after n).estEmfVAb.b) (fun n => (emf n).b) bound drift := by
  intro after
  have cfg : ∀ n, (after n).cfg = smo.cfg := smoAfter_cfg
  have estimates : ∀ n, _ := fun n => @smoAfter_estimates sin cos atan2 smo iAb vAb n
  constructor
  · refine first.observes (c := fun n => (after n).estIAb.a) fs inductance es0 strong fine ?_ ?_ ?_
    · exact fun n => by rw [← cfg n]; rfl
    · exact fun n => congrArg Ab.a (estimates n).1
    · exact fun n => congrArg Ab.a (estimates n).2
  · refine second.observes (c := fun n => (after n).estIAb.b) fs inductance es0 strong fine ?_ ?_ ?_
    · exact fun n => by rw [← cfg n]; rfl
    · exact fun n => congrArg Ab.b (estimates n).1
    · exact fun n => congrArg Ab.b (estimates n).2

/-- A motor that turns at one speed and carries no current, and an observer whose loop filter stands still. -/
def still : Smo :=
  ⟨⟨1, 2, 4, 1, 1, 1⟩, ⟨0, 0⟩, ⟨0, 0⟩, 0, 0, ⟨8, 0⟩, ⟨0, 0⟩, ⟨0, 0⟩,
    ⟨⟨1, 0, 0, 1, 1, 0, 0⟩, 0, 0, 0, 0, ⟨1, 0, 0, 1, 1, 0, 0⟩, 0, 0, 0, 0, 0⟩⟩

theorem smo_slides_still :
    let after := smoAfter (fun _ => 0) (fun _ => 1) (fun _ _ => 0) still (fun _ => ⟨0, 0⟩) fun _ => ⟨1, 1⟩
    Observes still.cfg (fun n => (after n).estIAbErr.a) (fun n => (after n).estEmfVAb.a) (fun _ => 1) 1 0 ∧
    Observes still.cfg (fun n => (after n).estIAbErr.b) (fun n => (after n).estEmfVAb.b) (fun _ => 1) 1 0 := by
  have winding : Winding still.cfg (fun _ => 0) (fun _ => 1) (fun _ => 1) 1 0 :=
    ⟨fun _ => by norm_num [still], fun _ => by norm_num, fun _ => by norm_num⟩
  exact @smo_slides _ _ _ still _ _ (fun _ => ⟨1, 1⟩) 1 0 (by norm_num [still]) (by norm_num [still, SmoCfg.inductance])
    (by norm_num [still]) (by norm_num [still]) (by norm_num [still, SmoCfg.inductance]) winding winding

end Run

end AvaModule.SmoObs
