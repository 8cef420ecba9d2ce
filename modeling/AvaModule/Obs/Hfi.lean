import AvaModule.Filter.Iir
import AvaModule.Filter.Pll
import AvaModule.Trans.Clarkepark

/-! obs/hfi.h: the identification of the magnet's polarity. It only adds, compares and takes magnitudes, in any type of
numbers; the observer around it is in exact arithmetic. -/
namespace AvaModule.HfiObs

structure HfiCfg (F : Type) where
  fs : F
  fh : F
  hfiVd : F
  hfiId : F
  idLpfFc : F
  iqLpfFc : F
  polarCntMax : BitVec 32

/-- `polar_idf_e` -/
inductive PolarIdf where
  | ready
  | positive
  | negative
  | finish
  deriving DecidableEq

/-- `cfg`, `in`, `out` and `lo` of `hfi_obs_t`, for the numbers and the two kinds of filters. -/
structure HfiOver (F Bpf Loop : Type) where
  cfg : HfiCfg F
  iDq : Dq F
  estTheta : F
  estOmega : F
  id : F
  vd : F
  hfiTheta : F
  hfiId : F
  hfiIq : F
  lpfId : F
  lpfIq : F
  ePolarIdf : PolarIdf
  polarCnt : BitVec 32
  idPos : F
  idNeg : F
  polarOffset : F
  idBpf : Bpf
  iqBpf : Bpf
  pll : Loop

abbrev Hfi := HfiOver ℚ Iir Pll

section Polar
variable {F Bpf Loop : Type} [Zero F] [Add F] [Neg F] [LT F] [DecidableLT F] (abs : F → F) (pi : F)

/-- With `ABS` and `PI` of the numbers. -/
def hfiPolarIdf (hfi : HfiOver F Bpf Loop) : HfiOver F Bpf Loop :=
  match hfi.ePolarIdf with
  | .ready =>
    let hfi := if hfi.polarCnt = hfi.cfg.polarCntMax * 1#32 then { hfi with ePolarIdf := .positive } else hfi
    { hfi with polarCnt := hfi.polarCnt + 1 }
  | .positive =>
    let hfi := { hfi with id := hfi.cfg.hfiId, idPos := hfi.idPos + abs hfi.lpfId }
    let hfi := if hfi.polarCnt = hfi.cfg.polarCntMax * 2#32 then { hfi with ePolarIdf := .negative } else hfi
    { hfi with polarCnt := hfi.polarCnt + 1 }
  | .negative =>
    let hfi := { hfi with id := -hfi.cfg.hfiId, idNeg := hfi.idNeg + abs hfi.lpfId }
    let hfi :=
      if hfi.polarCnt = hfi.cfg.polarCntMax * 3#32 then
        { hfi with polarOffset := if abs hfi.idPos > abs hfi.idNeg then 0 else pi, ePolarIdf := .finish }
      else hfi
    { hfi with polarCnt := hfi.polarCnt + 1 }
  | .finish => { hfi with id := 0, polarCnt := 0 }

end Polar

/-- A third of a second of calls for each step of the identification. -/
def hfiInit (sin cos : ℚ → ℚ) (hfi : Hfi) (hfiCfg : HfiCfg ℚ) : Hfi :=
  let pll := { hfi.pll with cfg := { hfi.pll.cfg with fs := hfiCfg.fs } }
  let idBpf := { hfi.idBpf with cfg := { hfi.idBpf.cfg with fs := hfiCfg.fs } }
  let iqBpf := { hfi.iqBpf with cfg := { hfi.iqBpf.cfg with fs := hfiCfg.fs } }
  { hfi with
    cfg := { hfiCfg with polarCntMax := BitVec.ofNat 32 ⌊hfiCfg.fs / 3⌋₊ }
    pll := pllInit pll pll.cfg
    idBpf := iirInit sin cos idBpf idBpf.cfg
    iqBpf := iirInit sin cos iqBpf iqBpf.cfg }

def hfiExec (sin cos : ℚ → ℚ) (hfi : Hfi) : Hfi :=
  let hfiTheta := warpTau (integrator hfi.hfiTheta (tau * hfi.cfg.fh) 1 hfi.cfg.fs)
  let vd := hfi.cfg.hfiVd * cos hfiTheta
  let idBpf := iirExecIn sin cos hfi.idBpf hfi.iDq.d
  let hfiId := idBpf.y * sin hfiTheta
  let lpfId := lowpass hfi.lpfId hfiId hfi.cfg.idLpfFc hfi.cfg.fs
  let hfi := hfiPolarIdf (|·|) pi { hfi with hfiTheta, vd, idBpf, hfiId, lpfId }
  let iqBpf := iirExecIn sin cos hfi.iqBpf hfi.iDq.q
  let hfiIq := iqBpf.y * sin hfiTheta
  let lpfIq := lowpass hfi.lpfIq hfiIq hfi.cfg.iqLpfFc hfi.cfg.fs
  let pll := pllExecThetaErrIn hfi.pll lpfIq
  { hfi with iqBpf, hfiIq, lpfIq, pll, estTheta := warpTau (pll.theta + hfi.polarOffset), estOmega := pll.omega }

def hfiExecIn (sin cos : ℚ → ℚ) (hfi : Hfi) (iDq : Dq ℚ) : Hfi := hfiExec sin cos { hfi with iDq }

section Identification
variable {F Bpf Loop : Type} [Zero F] [Add F] [Neg F] [LT F] [DecidableLT F] {abs : F → F} {pi : F}
  {hfi : HfiOver F Bpf Loop} {cfg : HfiCfg F} {lpfId : Nat → F} {cnt n j : Nat} {idPos idNeg : F}

/-- The observer after a number of calls, each with its own filtered current. -/
def polarRun (abs : F → F) (pi : F) (hfi : HfiOver F Bpf Loop) (lpfId : Nat → F) : Nat → HfiOver F Bpf Loop
  | 0 => hfi
  | n + 1 => hfiPolarIdf abs pi { polarRun abs pi hfi lpfId n with lpfId := lpfId n }

/-- The polarity fields are zero. -/
structure Fresh (hfi : HfiOver F Bpf Loop) : Prop where
  state : hfi.ePolarIdf = .ready
  cnt : hfi.polarCnt = 0
  idPos : hfi.idPos = 0
  idNeg : hfi.idNeg = 0
  offset : hfi.polarOffset = 0

/-- The sum of the magnitudes of the `n` currents from the call `first` on, added up one by one. -/
def magnitudes (abs : F → F) (lpfId : Nat → F) (first : Nat) : Nat → F
  | 0 => 0
  | n + 1 => magnitudes abs lpfId first n + abs (lpfId (first + n))

/-- `ABS` changes no comparison of two sums of magnitudes. Nor does it if one of them is no number. -/
def Positive (abs : F → F) : Prop :=
  ∀ lpfId first n lpfId' first' n', abs (magnitudes abs lpfId first n) < abs (magnitudes abs lpfId' first' n') ↔
    magnitudes abs lpfId first n < magnitudes abs lpfId' first' n'

section Steps

/-- An observer before the decision. -/
structure At (cfg : HfiCfg F) (state : PolarIdf) (cnt : Nat) (idPos idNeg : F) (hfi : HfiOver F Bpf Loop) : Prop where
  cfg : hfi.cfg = cfg
  state : hfi.ePolarIdf = state
  cnt : hfi.polarCnt.toNat = cnt
  idPos : hfi.idPos = idPos
  idNeg : hfi.idNeg = idNeg
  offset : hfi.polarOffset = 0

theorem cnt_eq_iff {x max : BitVec 32} {k : Nat} (small : k < 4) (room : 3 * max.toNat < 2 ^ 32) :
    x = max * BitVec.ofNat 32 k ↔ x.toNat = max.toNat * k := by
  have bound : max.toNat * k ≤ max.toNat * 3 := Nat.mul_le_mul_left _ (by omega)
  rw [← BitVec.toNat_inj, BitVec.toNat_mul, BitVec.toNat_ofNat, Nat.mod_eq_of_lt (by omega : k < 2 ^ 32),
    Nat.mod_eq_of_lt (by omega)]

theorem cnt_succ {x : BitVec 32} (lt : x.toNat + 1 < 2 ^ 32) : (x + 1).toNat = x.toNat + 1 := by
  rw [BitVec.toNat_add]
  exact Nat.mod_eq_of_lt lt

variable (abs pi)

/-- A call while the observer waits. -/
theorem At.ready (here : At cfg .ready cnt idPos idNeg hfi) (room : 3 * cfg.polarCntMax.toNat < 2 ^ 32)
    (low : cnt ≤ cfg.polarCntMax.toNat) (x : F) :
    At cfg (if cnt = cfg.polarCntMax.toNat * 1 then .positive else .ready) (cnt + 1) idPos idNeg
      (hfiPolarIdf abs pi { hfi with lpfId := x }) := by
  obtain ⟨rfl, state, rfl, rfl, rfl, offset⟩ := here
  have next : (hfi.polarCnt + 1).toNat = hfi.polarCnt.toNat + 1 := cnt_succ (by omega)
  have test := cnt_eq_iff (x := hfi.polarCnt) (k := 1) (by decide) room
  unfold hfiPolarIdf
  simp only [state, test]
  split
  · exact ⟨rfl, rfl, next, rfl, rfl, offset⟩
  · exact ⟨rfl, rfl, next, rfl, rfl, offset⟩

/-- A call with the positive command. -/
theorem At.positive (here : At cfg .positive cnt idPos idNeg hfi) (room : 3 * cfg.polarCntMax.toNat < 2 ^ 32)
    (low : cnt ≤ cfg.polarCntMax.toNat * 2) (x : F) :
    At cfg (if cnt = cfg.polarCntMax.toNat * 2 then .negative else .positive) (cnt + 1) (idPos + abs x) idNeg
      (hfiPolarIdf abs pi { hfi with lpfId := x }) ∧
    (hfiPolarIdf abs pi { hfi with lpfId := x }).id = cfg.hfiId := by
  obtain ⟨rfl, state, rfl, rfl, rfl, offset⟩ := here
  have next : (hfi.polarCnt + 1).toNat = hfi.polarCnt.toNat + 1 := cnt_succ (by omega)
  have test := cnt_eq_iff (x := hfi.polarCnt) (k := 2) (by decide) room
  unfold hfiPolarIdf
  simp only [state, test]
  split
  · exact ⟨⟨rfl, rfl, next, rfl, rfl, offset⟩, rfl⟩
  · exact ⟨⟨rfl, rfl, next, rfl, rfl, offset⟩, rfl⟩

/-- A call with the negative command that is not the last one. -/
theorem At.negative (here : At cfg .negative cnt idPos idNeg hfi) (room : 3 * cfg.polarCntMax.toNat < 2 ^ 32)
    (low : cnt < cfg.polarCntMax.toNat * 3) (x : F) :
    At cfg .negative (cnt + 1) idPos (idNeg + abs x) (hfiPolarIdf abs pi { hfi with lpfId := x }) := by
  obtain ⟨rfl, state, rfl, rfl, rfl, offset⟩ := here
  have next : (hfi.polarCnt + 1).toNat = hfi.polarCnt.toNat + 1 := cnt_succ (by omega)
  have test := cnt_eq_iff (x := hfi.polarCnt) (k := 3) (by decide) room
  unfold hfiPolarIdf
  simp only [state, test, if_neg (Nat.ne_of_lt low)]
  exact ⟨rfl, rfl, next, rfl, rfl, offset⟩

/-- An observer that has decided. -/
structure Decided (abs : F → F) (pi : F) (pos neg : F) (hfi : HfiOver F Bpf Loop) : Prop where
  state : hfi.ePolarIdf = .finish
  idPos : hfi.idPos = pos
  idNeg : hfi.idNeg = neg
  offset : hfi.polarOffset = if abs pos > abs neg then 0 else pi

/-- The last call with the negative command. -/
theorem At.decides (here : At cfg .negative cnt idPos idNeg hfi) (room : 3 * cfg.polarCntMax.toNat < 2 ^ 32)
    (last : cnt = cfg.polarCntMax.toNat * 3) (x : F) :
    Decided abs pi idPos (idNeg + abs x) (hfiPolarIdf abs pi { hfi with lpfId := x }) := by
  obtain ⟨rfl, state, rfl, rfl, rfl, offset⟩ := here
  have test := cnt_eq_iff (x := hfi.polarCnt) (k := 3) (by decide) room
  unfold hfiPolarIdf
  simp only [state, test, if_pos last]
  exact ⟨rfl, rfl, rfl, rfl⟩

theorem hfiPolarIdf_negative (hfi : HfiOver F Bpf Loop) (state : hfi.ePolarIdf = .negative) :
    (hfiPolarIdf abs pi hfi).id = -hfi.cfg.hfiId ∧
    (hfiPolarIdf abs pi hfi).idNeg = hfi.idNeg + abs hfi.lpfId ∧ (hfiPolarIdf abs pi hfi).idPos = hfi.idPos := by
  unfold hfiPolarIdf
  simp only [state]
  split <;> exact ⟨rfl, rfl, rfl⟩

theorem Decided.call (here : Decided abs pi idPos idNeg hfi) (x : F) :
    Decided abs pi idPos idNeg (hfiPolarIdf abs pi { hfi with lpfId := x }) ∧
      (hfiPolarIdf abs pi { hfi with lpfId := x }).id = 0 := by
  obtain ⟨state, rfl, rfl, offset⟩ := here
  unfold hfiPolarIdf
  simp only [state]
  exact ⟨⟨rfl, rfl, rfl, offset⟩, trivial⟩

end Steps

section Runs
variable (abs pi) {M : Nat} (lpfId) (max : hfi.cfg.polarCntMax.toNat = M) (fresh : Fresh hfi)
  (room : 3 * M < 2 ^ 32)
include max fresh room

theorem run_ready (low : n ≤ M) : At hfi.cfg .ready n 0 0 (polarRun abs pi hfi lpfId n) := by
  subst max
  induction n with
  | zero => exact ⟨rfl, fresh.state, by rw [polarRun, fresh.cnt]; rfl, fresh.idPos, fresh.idNeg, fresh.offset⟩
  | succ n ih =>
    have step := (ih (by omega)).ready abs pi room (by omega) (lpfId n)
    rwa [if_neg (by omega)] at step

theorem run_positive (low : j < M) :
    At hfi.cfg .positive (M + 1 + j) (magnitudes abs lpfId (M + 1) j) 0 (polarRun abs pi hfi lpfId (M + 1 + j)) := by
  induction j with
  | zero =>
    have step := (run_ready abs pi lpfId max fresh room (Nat.le_refl M)).ready abs pi (max ▸ room) (max.ge) (lpfId M)
    rwa [if_pos (by omega)] at step
  | succ j ih =>
    have step := ((ih (by omega)).positive abs pi (max ▸ room) (by omega) (lpfId (M + 1 + j))).1
    rwa [if_neg (by omega)] at step

theorem run_negative (low : j < M) :
    At hfi.cfg .negative (2 * M + 1 + j) (magnitudes abs lpfId (M + 1) M) (magnitudes abs lpfId (2 * M + 1) j)
      (polarRun abs pi hfi lpfId (2 * M + 1 + j)) := by
  induction j with
  | zero =>
    obtain ⟨m, rfl⟩ : ∃ m, M = m + 1 := Nat.exists_eq_add_one.mpr low
    have last : m + 1 + 1 + m + 1 = 2 * (m + 1) + 1 := by omega
    have step := ((run_positive abs pi lpfId max fresh room (Nat.lt_succ_self m)).positive abs pi (max ▸ room) (by omega)
      (lpfId (m + 1 + 1 + m))).1
    rw [if_pos (by omega), last] at step
    rw [Nat.add_zero, ← last] at step ⊢
    exact step
  | succ j ih =>
    exact (ih (by omega)).negative abs pi (max ▸ room) (by omega) (lpfId (2 * M + 1 + j))

theorem run_decided (pos : 1 ≤ M) (j : Nat) :
    Decided abs pi (magnitudes abs lpfId (M + 1) M) (magnitudes abs lpfId (2 * M + 1) M)
      (polarRun abs pi hfi lpfId (3 * M + 1 + j)) := by
  induction j with
  | zero =>
    obtain ⟨m, rfl⟩ : ∃ m, M = m + 1 := Nat.exists_eq_add_one.mpr pos
    have last : 2 * (m + 1) + 1 + m + 1 = 3 * (m + 1) + 1 := by omega
    have step := (run_negative abs pi lpfId max fresh room (Nat.lt_succ_self m)).decides abs pi (max ▸ room) (by omega)
      (lpfId (2 * (m + 1) + 1 + m))
    rw [Nat.add_zero, ← last]
    exact step
  | succ j ih => exact (ih.call abs pi _).1

/-- What an identification over `M` samples a side has to do, call by call. -/
structure Identified (M : Nat) (abs : F → F) (pi hfiId : F) (lpfId : Nat → F) (run : Nat → HfiOver F Bpf Loop) :
    Prop where
  finish : ∀ n, (run n).ePolarIdf = .finish ↔ 3 * M + 1 ≤ n
  idle : ∀ n < M + 1, (run n).idPos = 0 ∧ (run n).idNeg = 0
  positive : ∀ n, M + 1 ≤ n → n < 2 * M + 1 → (run (n + 1)).id = hfiId ∧
    (run (n + 1)).idPos = (run n).idPos + abs (lpfId n) ∧ (run (n + 1)).idNeg = (run n).idNeg
  negative : ∀ n, 2 * M + 1 ≤ n → n < 3 * M + 1 → (run (n + 1)).id = -hfiId ∧
    (run (n + 1)).idNeg = (run n).idNeg + abs (lpfId n) ∧ (run (n + 1)).idPos = (run n).idPos
  sums : ∀ n, 3 * M + 1 ≤ n → (run n).idPos = magnitudes abs lpfId (M + 1) M ∧
    (run n).idNeg = magnitudes abs lpfId (2 * M + 1) M
  offset : ∀ n, 3 * M + 1 ≤ n → (run n).polarOffset =
    if magnitudes abs lpfId (2 * M + 1) M < magnitudes abs lpfId (M + 1) M then 0 else pi
  quiet : ∀ n, 3 * M + 1 ≤ n → (run (n + 1)).id = 0

/-- Each side is summed over exactly `M` calls, under its own command, and the decision is kept. -/
theorem polar_identified (sums : Positive abs) (pos : 1 ≤ M) :
    Identified M abs pi hfi.cfg.hfiId lpfId (polarRun abs pi hfi lpfId) := by
  have decided : ∀ n, 3 * M + 1 ≤ n → Decided abs pi (magnitudes abs lpfId (M + 1) M) (magnitudes abs lpfId (2 * M + 1) M)
      (polarRun abs pi hfi lpfId n) := by
    intro n late
    obtain ⟨j, rfl⟩ := Nat.exists_eq_add_of_le late
    exact run_decided abs pi lpfId max fresh room pos j
  refine ⟨fun n => ⟨fun finished => ?_, fun late => (decided n late).state⟩, fun n low => ?_, fun n first last => ?_,
    fun n first last => ?_, fun n late => ⟨(decided n late).idPos, (decided n late).idNeg⟩, fun n late => ?_,
    fun n late => ((decided n late).call abs pi _).2⟩
  · by_contra early
    have before : n ≤ M ∨ (∃ j < M, n = M + 1 + j) ∨ ∃ j < M, n = 2 * M + 1 + j := by
      rcases Nat.lt_or_ge M n with gt | le
      · rcases Nat.lt_or_ge (2 * M) n with gt' | le'
        · exact .inr (.inr ⟨n - (2 * M + 1), by omega, by omega⟩)
        · exact .inr (.inl ⟨n - (M + 1), by omega, by omega⟩)
      · exact .inl le
    rcases before with low | ⟨j, lt, rfl⟩ | ⟨j, lt, rfl⟩
    · simp [(run_ready abs pi lpfId max fresh room low).state] at finished
    · simp [(run_positive abs pi lpfId max fresh room lt).state] at finished
    · simp [(run_negative abs pi lpfId max fresh room lt).state] at finished
  · have here := run_ready abs pi lpfId max fresh room (Nat.le_of_lt_succ low)
    exact ⟨here.idPos, here.idNeg⟩
  · obtain ⟨j, rfl⟩ := Nat.exists_eq_add_of_le first
    have here := run_positive abs pi lpfId max fresh room (by omega : j < M)
    have next := here.positive abs pi (max ▸ room) (by omega) (lpfId (M + 1 + j))
    exact ⟨next.2, by rw [here.idPos]; exact next.1.idPos, by rw [here.idNeg]; exact next.1.idNeg⟩
  · obtain ⟨j, rfl⟩ := Nat.exists_eq_add_of_le first
    have here := run_negative abs pi lpfId max fresh room (by omega : j < M)
    rw [← here.cfg]
    exact hfiPolarIdf_negative abs pi { polarRun abs pi hfi lpfId (2 * M + 1 + j) with lpfId := lpfId _ } here.state
  · rw [(decided n late).offset]
    exact if_congr (sums ..) rfl rfl

end Runs

end Identification

section Exact
variable {hfi : Hfi}

/-- The exact sums are not negative. -/
theorem magnitudes_nonneg (lpfId : Nat → ℚ) (first n : Nat) : 0 ≤ magnitudes (|·|) lpfId first n := by
  induction n with
  | zero => exact le_rfl
  | succ n ih => exact add_nonneg ih (abs_nonneg _)

theorem positive_abs : Positive fun x : ℚ => |x| := by
  intro lpfId first n lpfId' first' n'
  dsimp only
  rw [abs_of_nonneg (magnitudes_nonneg lpfId first n), abs_of_nonneg (magnitudes_nonneg lpfId' first' n')]

/-- A zeroed observer with its configuration. -/
def zeroed (cfg : HfiCfg ℚ) : Hfi where
  cfg := cfg
  iDq := ⟨0, 0⟩
  estTheta := 0
  estOmega := 0
  id := 0
  vd := 0
  hfiTheta := 0
  hfiId := 0
  hfiIq := 0
  lpfId := 0
  lpfIq := 0
  ePolarIdf := .ready
  polarCnt := 0
  idPos := 0
  idNeg := 0
  polarOffset := 0
  idBpf := Iir.zeroed
  iqBpf := Iir.zeroed
  pll := ⟨⟨0, 0, 0, 0, 0, 0, 0⟩, 0, 0, 0, 0, ⟨0, 0, 0, 0, 0, 0, 0⟩, 0, 0, 0, 0, 0⟩

theorem zeroed_fresh (cfg : HfiCfg ℚ) : Fresh (zeroed cfg) := ⟨rfl, rfl, rfl, rfl, rfl⟩

def probe : HfiCfg ℚ := ⟨20000, 1000, 1, 5, 10, 10, 2⟩

def currents (n : Nat) : ℚ := if n < 5 then 1 else -3

/-- Two samples a side, larger under the negative command. -/
theorem polar_identified_two : Identified 2 (|·|) pi 5 currents (polarRun (|·|) pi (zeroed probe) currents) := by
  have fresh := zeroed_fresh probe
  exact polar_identified (|·|) pi currents rfl fresh (by decide) positive_abs (by decide)

/-- Its decision is half a turn. -/
example : (polarRun (|·|) pi (zeroed probe) currents 7).polarOffset = pi := by decide +kernel

variable {sin cos : ℚ → ℚ}

/-- What the identification keeps between the calls of `hfi_exec`, and its command. -/
def HfiOver.polar (hfi : Hfi) : PolarIdf × BitVec 32 × ℚ × ℚ × ℚ :=
  (hfi.ePolarIdf, hfi.polarCnt, hfi.idPos, hfi.idNeg, hfi.polarOffset)

theorem hfiPolarIdf_keeps (hfi : Hfi) :
    (hfiPolarIdf (|·|) pi hfi).cfg = hfi.cfg ∧ (hfiPolarIdf (|·|) pi hfi).lpfId = hfi.lpfId := by
  unfold hfiPolarIdf
  split
  · dsimp only
    split <;> exact ⟨rfl, rfl⟩
  · dsimp only
    split <;> exact ⟨rfl, rfl⟩
  · dsimp only
    split <;> exact ⟨rfl, rfl⟩
  · exact ⟨rfl, rfl⟩

/-- The identification reads the configuration, the filtered current and what it kept, and no other field. -/
theorem hfiPolarIdf_congr {hfi' : Hfi} (cfg : hfi.cfg = hfi'.cfg) (lpfId : hfi.lpfId = hfi'.lpfId)
    (polar : hfi.polar = hfi'.polar) : (hfiPolarIdf (|·|) pi hfi).polar = (hfiPolarIdf (|·|) pi hfi').polar := by
  obtain ⟨state, cnt, idPos, idNeg, offset⟩ :
      hfi.ePolarIdf = hfi'.ePolarIdf ∧ hfi.polarCnt = hfi'.polarCnt ∧ hfi.idPos = hfi'.idPos ∧
        hfi.idNeg = hfi'.idNeg ∧ hfi.polarOffset = hfi'.polarOffset := by
    simpa only [HfiOver.polar, Prod.mk.injEq] using polar
  unfold hfiPolarIdf
  rw [state, cnt, cfg, idPos, idNeg, lpfId]
  cases hfi'.ePolarIdf with
  | ready => dsimp only; split <;> simp [HfiOver.polar, *]
  | positive => dsimp only; split <;> simp [HfiOver.polar, *]
  | negative => dsimp only; split <;> simp [HfiOver.polar, *]
  | finish => simp [HfiOver.polar, *]

/-- A call of `hfi_exec_in` is a call of the identification with the current it has filtered. -/
theorem hfiExecIn_polar (hfi : Hfi) (iDq : Dq ℚ) : (hfiExecIn sin cos hfi iDq).cfg = hfi.cfg ∧
    (hfiExecIn sin cos hfi iDq).polar =
      (hfiPolarIdf (|·|) pi { hfi with lpfId := (hfiExecIn sin cos hfi iDq).lpfId }).polar := by
  refine ⟨(hfiPolarIdf_keeps _).1, ?_⟩
  exact hfiPolarIdf_congr rfl (hfiPolarIdf_keeps _).2.symm rfl

/-- The observer after a number of calls of `hfi_exec_in`. -/
def execRun (sin cos : ℚ → ℚ) (hfi : Hfi) (iDq : Nat → Dq ℚ) : Nat → Hfi
  | 0 => hfi
  | n + 1 => hfiExecIn sin cos (execRun sin cos hfi iDq n) (iDq n)

/-- The whole observer identifies the polarity as calls with its own filtered currents do. -/
theorem execRun_polar (hfi : Hfi) (iDq : Nat → Dq ℚ) (n : Nat) : (execRun sin cos hfi iDq n).polar =
    (polarRun (|·|) pi hfi (fun k => (execRun sin cos hfi iDq (k + 1)).lpfId) n).polar := by
  have cfg : ∀ n, (execRun sin cos hfi iDq n).cfg = hfi.cfg := by
    intro n
    induction n with
    | zero => rfl
    | succ n ih => exact (hfiExecIn_polar _ _).1.trans ih
  have cfg' : ∀ lpfId n, (polarRun (|·|) pi hfi lpfId n).cfg = hfi.cfg := by
    intro lpfId n
    induction n with
    | zero => rfl
    | succ n ih => exact (hfiPolarIdf_keeps _).1.trans ih
  induction n with
  | zero => rfl
  | succ n ih => exact (hfiExecIn_polar _ _).2.trans (hfiPolarIdf_congr ((cfg n).trans (cfg' _ n).symm) rfl ih)

/-- So from a zeroed start `hfi_exec_in` has decided after `3 * M + 1` calls, by the currents it has filtered, and keeps
its decision. -/
theorem execRun_decided {M : Nat} (max : hfi.cfg.polarCntMax.toNat = M) (fresh : Fresh hfi) (room : 3 * M < 2 ^ 32)
    (pos : 1 ≤ M) (iDq : Nat → Dq ℚ) (j : Nat) :
    let lpfId := fun n => (execRun sin cos hfi iDq (n + 1)).lpfId
    let last := execRun sin cos hfi iDq (3 * M + 1 + j)
    last.ePolarIdf = .finish ∧ last.polarOffset =
      if magnitudes (|·|) lpfId (2 * M + 1) M < magnitudes (|·|) lpfId (M + 1) M then 0 else pi := by
  intro lpfId last
  have decided := run_decided (|·|) pi lpfId max fresh room pos j
  have same : last.polar = _ := execRun_polar hfi iDq (3 * M + 1 + j)
  simp only [HfiOver.polar, Prod.mk.injEq] at same
  refine ⟨same.1.trans decided.state, (same.2.2.2.2.trans decided.offset).trans ?_⟩
  exact if_congr (positive_abs ..) rfl rfl

end Exact

end AvaModule.HfiObs
