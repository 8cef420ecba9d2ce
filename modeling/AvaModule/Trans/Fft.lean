import AvaModule.Ds.Spsc.Sequential
import AvaModule.Lib.LittleEndian
import AvaModule.Util.FindMax
import Mathlib.Data.List.Induction
import Mathlib.Data.Rat.Defs
import Mathlib.Tactic.FieldSimp
import Mathlib.Tactic.Linarith

/-! trans/fft.h on a host, over the ring of ds/spsc.h. An `f32` of the stream is stored as its four bytes. What
`fftwf_execute` and `SQRT` make of the input frame is a parameter, the frequencies are exact, and the time a call takes
is left out. -/
namespace AvaModule.FftTrans
open SpscRing Counter Memory FindMax

variable {T : Target} {α : Type} [LinearOrder α] [Zero α]

/-- `cfg`, `in`, `out` and `lo` of `fft_t`, each buffer with what it holds; the one of `cfg.buf` is in the ring. -/
structure Fft (T : Target) (α : Type) where
  fs : ℚ
  pointsNum : Usz T
  inBuf : Nat → Byte
  fr : ℚ
  ft : ℚ
  outIdx : Nat
  magBuf : Nat → Extended α
  maxMag : Extended α
  spsc : Spsc T
  neetExec : Bool

/-- The path of `find_max` the compiler was asked for. -/
inductive FindMaxPath where
  | avx
  | sse
  | scalar

def findMaxOn : FindMaxPath → (Nat → Extended α) → Nat → Best (Extended α)
  | .avx => findMaxAvx
  | .sse => findMaxSse
  | .scalar => findMax

/-- The result of `spsc_init` is not looked at. -/
def fftInit (fft : Fft T α) (fs : ℚ) (pointsNum : Usz T) (buf inBuf : Nat → Byte) (magBuf : Nat → Extended α) : Fft T α :=
  let spsc := match spscInitBuf fft.spsc (pointsNum * 4) .reject with
    | some spsc => { spsc with buf }
    | none => fft.spsc
  { fft with fs, pointsNum, spsc, inBuf, magBuf, fr := fs / pointsNum.toNat }

/-- `magnitude` gives the bins of the transform of the bytes of a frame. -/
def fftExec (path : FindMaxPath) (magnitude : List Byte → Nat → Extended α) (fft : Fft T α) : Fft T α :=
  if ¬ fft.neetExec then fft
  else
    let inBuf := write fft.inBuf 0 (read fft.spsc.buf 0 fft.spsc.cap.toNat)
    let bins := magnitude (read inBuf 0 (4 * fft.pointsNum.toNat))
    let magBuf := fun i => if i < (fft.pointsNum / 2 + 1).toNat then bins i else fft.magBuf i
    let max := findMaxOn path (fun i => magBuf (1 + i)) (fft.pointsNum >>> 1).toNat
    { fft with
      inBuf, magBuf
      maxMag := max.tmpMax
      outIdx := max.idxMax
      ft := max.idxMax * fft.fs / fft.pointsNum.toNat
      neetExec := false }

def fftExecIn (fft : Fft T α) (val : BitVec 32) : Fft T α :=
  let (size, spsc) := spscWriteBuf fft.spsc (LittleEndian.encode 4 val.toNat)
  { fft with spsc, neetExec := if size = 0 then true else fft.neetExec }

section Peak
variable {path : FindMaxPath} {magnitude : List Byte → Nat → Extended α} {fft : Fft T α} {k k' : Nat}

/-- The largest of the magnitudes of the bins `1` to `N / 2` is reported, and `k` is the first bin that has it. -/
structure PeakBin (fft : Fft T α) (k : Nat) : Prop where
  above_dc : 1 ≤ k
  below_nyquist : k ≤ fft.pointsNum.toNat / 2
  value : fft.magBuf k = fft.maxMag
  largest : ∀ i, 1 ≤ i → i ≤ fft.pointsNum.toNat / 2 → ¬ fft.maxMag < fft.magBuf i
  first : ∀ i, 1 ≤ i → i < k → fft.magBuf i < fft.maxMag

/-- The frequency reported is that of the peak. -/
def PeakLaw (fft : Fft T α) : Prop := ∃ k, PeakBin fft k ∧ fft.ft = k * fft.fs / fft.pointsNum.toNat

omit [Zero α] in
theorem PeakBin.unique (peak : PeakBin fft k) (peak' : PeakBin fft k') : k = k' := by
  rcases Nat.lt_trichotomy k k' with before | same | after
  · have below := peak'.first k peak.above_dc before
    rw [peak.value] at below
    exact absurd below (irrefl_of (· < ·) _)
  · exact same
  · have below := peak.first k' peak'.above_dc after
    rw [peak'.value] at below
    exact absurd below (irrefl_of (· < ·) _)

theorem findMaxOn_eq (path : FindMaxPath) (arr : Nat → Extended α) (n : Nat) : findMaxOn path arr n = findMax arr n := by
  cases path with
  | avx => exact findMaxAvx_eq arr n
  | sse => exact findMaxSse_eq arr n
  | scalar => rfl

theorem fftExec_idle (idle : fft.neetExec = false) : fftExec path magnitude fft = fft := if_pos (by simp [idle])

theorem half_toNat (pointsNum : Usz T) : (pointsNum >>> 1).toNat = pointsNum.toNat / 2 := by
  rw [BitVec.toNat_ushiftRight, Nat.shiftRight_eq_div_pow, Nat.pow_one]

theorem fftExec_config (path : FindMaxPath) (magnitude : List Byte → Nat → Extended α) (fft : Fft T α) :
    (fftExec path magnitude fft).pointsNum = fft.pointsNum ∧
      (fftExec path magnitude fft).fs = fft.fs := by
  unfold fftExec
  split <;> exact ⟨rfl, rfl⟩

theorem fftExec_spsc (fft : Fft T α) : (fftExec path magnitude fft).spsc = fft.spsc := by
  unfold fftExec
  split <;> rfl

theorem fftExec_inBuf (need : fft.neetExec = true) :
    (fftExec path magnitude fft).inBuf = write fft.inBuf 0 (read fft.spsc.buf 0 fft.spsc.cap.toNat) := by
  rw [fftExec, if_neg (by simp [need])]

theorem fftExec_neetExec (fft : Fft T α) : (fftExec path magnitude fft).neetExec = false := by
  unfold fftExec
  split
  case isTrue idle => exact Bool.eq_false_of_not_eq_true idle
  case isFalse => rfl

theorem fftExec_best (need : fft.neetExec = true) :
    findMax (fun i => (fftExec path magnitude fft).magBuf (1 + i)) (fft.pointsNum.toNat / 2) =
      ⟨(fftExec path magnitude fft).maxMag, (fftExec path magnitude fft).outIdx⟩ := by
  rw [fftExec, if_neg (by simp [need]), ← half_toNat, ← findMaxOn_eq path]

theorem fftExec_ft (need : fft.neetExec = true) :
    (fftExec path magnitude fft).ft = (fftExec path magnitude fft).outIdx * fft.fs / fft.pointsNum.toNat := by
  rw [fftExec, if_neg (by simp [need])]

/-- The bin of the maximum is the one after the index that is kept. -/
theorem fftExec_peakBin (need : fft.neetExec = true) (two : 2 ≤ fft.pointsNum.toNat)
    (clean : ∀ i ≤ fft.pointsNum.toNat / 2, (fftExec path magnitude fft).magBuf i ≠ .nan) :
    PeakBin (fftExec path magnitude fft) ((fftExec path magnitude fft).outIdx + 1) := by
  have best : findMax (fun i => (fftExec path magnitude fft).magBuf (1 + i)) _ = _ := fftExec_best need
  have half : 0 < fft.pointsNum.toNat / 2 := by omega
  have found : FirstMax (fun i => (fftExec path magnitude fft).magBuf (1 + i)) _ _ _ :=
    findMax_firstMax half fun i lt => clean (1 + i) (by omega)
  rw [best] at found
  obtain ⟨inside, value, largest, first⟩ := found
  dsimp only at inside value largest first
  refine ⟨Nat.le_add_left 1 _, ?_, ?_, fun i low high => ?_, fun i low before => ?_⟩
  · rw [(fftExec_config _ _ _).1]
    omega
  · rw [Nat.add_comm, value]
  · rw [(fftExec_config _ _ _).1] at high
    have bin := largest (i - 1) (by omega)
    rwa [Nat.add_sub_cancel' low] at bin
  · have bin := first (i - 1) (by omega)
    rwa [Nat.add_sub_cancel' low] at bin

/-- The frequency reported is that of the bin before the peak. -/
theorem PeakBin.ft (need : fft.neetExec = true) (two : 2 ≤ fft.pointsNum.toNat)
    (clean : ∀ i ≤ fft.pointsNum.toNat / 2, (fftExec path magnitude fft).magBuf i ≠ .nan)
    (peak : PeakBin (fftExec path magnitude fft) k) :
    (fftExec path magnitude fft).ft = ((k : ℚ) - 1) * fft.fs / fft.pointsNum.toNat := by
  obtain rfl := peak.unique (fftExec_peakBin need two clean)
  rw [fftExec_ft need]
  push_cast
  rw [add_sub_cancel_right]

/-- The largest magnitude is reported, and its frequency only where every frequency is zero. -/
theorem peak_iff_zero_rate (need : fft.neetExec = true) (two : 2 ≤ fft.pointsNum.toNat)
    (clean : ∀ i ≤ fft.pointsNum.toNat / 2, (fftExec path magnitude fft).magBuf i ≠ .nan) :
    PeakLaw (fftExec path magnitude fft) ↔ fft.fs = 0 := by
  have points : (fft.pointsNum.toNat : ℚ) ≠ 0 := Nat.cast_ne_zero.mpr (by omega)
  obtain ⟨same_points, same_fs⟩ := fftExec_config path magnitude fft
  constructor
  · rintro ⟨k, peak, ft⟩
    rw [peak.ft need two clean, same_points, same_fs] at ft
    field_simp at ft
    linarith
  · intro zero
    have peak := fftExec_peakBin need two clean
    refine ⟨_, peak, ?_⟩
    rw [peak.ft need two clean, same_points, same_fs, zero, mul_zero, mul_zero]

/-- A tone in the first bin. -/
def tone (_ : List Byte) (i : Nat) : Extended ℚ := .num (if i = 1 then 1 else 0)

def zeroed : Fft .host ℚ := ⟨0, 0, fun _ => 0, 0, 0, 0, fun _ => 0, 0, ⟨.truncate, fun _ => 0, 0, 0, 0⟩, false⟩

def started (fs : ℚ) : Fft .host ℚ := fftInit zeroed fs 4 (fun _ => 0) (fun _ => 0) fun _ => 0

/-- The state in which the next transform is due. -/
def due (fs : ℚ) : Fft .host ℚ := { started fs with neetExec := true }

theorem tone_clean (fs : ℚ) (i : Nat) (le : i ≤ (due fs).pointsNum.toNat / 2) :
    (fftExec .scalar tone (due fs)).magBuf i ≠ .nan := by
  have last : (4 : Usz .host).toNat / 2 < ((4 : Usz .host) / 2 + 1).toNat := by decide
  have inside : i < ((4 : Usz .host) / 2 + 1).toNat := Nat.lt_of_le_of_lt le last
  have filled : (fftExec .scalar tone (due fs)).magBuf i = tone [] i := if_pos inside
  rw [filled, tone]
  simp

theorem peak_off_by_one : ¬ PeakLaw (fftExec .scalar tone (due 4)) := by
  rintro ⟨k, peak, ft⟩
  rw [peak.ft rfl (by decide) (tone_clean 4)] at ft
  have rate : (k - 1 : ℚ) * 4 / 4 = k * 4 / 4 := ft
  linarith

theorem peak_iff_zero_rate_still : PeakLaw (fftExec .scalar tone (due 0)) :=
  (peak_iff_zero_rate rfl (by decide) (tone_clean 0)).mpr rfl

end Peak

section Frames

/-- A call of `fft_exec_in` with the next sample, or one of `fft_exec`. -/
inductive Call where
  | execIn
  | exec
  deriving DecidableEq

/-- A transform that was made: how many samples had been fed, and what stood in `in_buf`. -/
structure Transform where
  fed : Nat
  frame : List Byte

/-- `fed` and `executed` record what has happened; no call reads them. -/
structure Session (T : Target) (α : Type) where
  fft : Fft T α
  fed : Nat
  executed : List Transform

variable (path : FindMaxPath) (magnitude : List Byte → Nat → Extended α) (vals : Nat → BitVec 32)

def Session.call (s : Session T α) : Call → Session T α
  | .execIn => { s with fft := fftExecIn s.fft (vals s.fed), fed := s.fed + 1 }
  | .exec =>
      let fft := fftExec path magnitude s.fft
      let transform := ⟨s.fed, read fft.inBuf 0 (4 * fft.pointsNum.toNat)⟩
      { s with fft, executed := if s.fft.neetExec then s.executed ++ [transform] else s.executed }

def session (fft : Fft T α) (calls : List Call) : Session T α := calls.foldl (·.call path magnitude vals) ⟨fft, 0, []⟩

/-- The bytes of `count` consecutive samples. -/
def samples (i count : Nat) : List Byte := (List.range' i count).flatMap fun i => LittleEndian.encode 4 (vals i).toNat

/-- Every frame is a run of consecutive samples, and after `points` more samples it holds none of the old ones. -/
structure FramesFresh (points : Nat) (executed : List Transform) : Prop where
  consecutive : ∀ t ∈ executed, ∃ i, i + points ≤ t.fed ∧ t.frame = samples vals i points
  fresh : ∀ t ∈ executed, ∀ t' ∈ executed, t.fed + points ≤ t'.fed →
    ∃ i, t.fed ≤ i ∧ i + points ≤ t'.fed ∧ t'.frame = samples vals i points

/-- The number of samples fed before each call of `fft_exec`. -/
def execCounts (fed : Nat) : List Call → List Nat
  | [] => []
  | .execIn :: calls => execCounts (fed + 1) calls
  | .exec :: calls => fed :: execCounts fed calls

/-- Once more than `points` samples were fed to a call of `fft_exec`, no further call comes `points` samples later. -/
def Timely (points : Nat) (calls : List Call) : Prop :=
  ∀ c ∈ execCounts 0 calls, ∀ c' ∈ execCounts 0 calls, points < c → c' < c + points

variable {path magnitude vals} {points : Nat} {calls : List Call} {s : Session T α} {spsc : Spsc T}
  {items : List Byte} {R : Nat}

theorem samples_succ (n : Nat) : samples vals 0 (n + 1) = samples vals 0 n ++ LittleEndian.encode 4 (vals n).toNat := by
  rw [samples, List.range'_1_concat, List.flatMap_append, Nat.zero_add, List.flatMap_singleton]
  rfl

theorem samples_length (n : Nat) : (samples vals 0 n).length = 4 * n := by
  induction n with
  | zero => rfl
  | succ n ih =>
    rw [samples_succ, List.length_append, ih, LittleEndian.encode_length]
    omega

theorem execCounts_execIn (fed : Nat) : execCounts fed (calls ++ [.execIn]) = execCounts fed calls := by
  induction calls generalizing fed with
  | nil => rfl
  | cons call calls ih =>
    cases call with
    | execIn => exact ih (fed + 1)
    | exec => exact congrArg (fed :: ·) (ih fed)

theorem execCounts_exec (fed : Nat) :
    execCounts fed (calls ++ [.exec]) = execCounts fed calls ++ [fed + calls.count .execIn] := by
  induction calls generalizing fed with
  | nil => rfl
  | cons call calls ih =>
    cases call with
    | execIn =>
      rw [List.count_cons_self, ← Nat.add_assoc, Nat.add_right_comm]
      exact ih (fed + 1)
    | exec =>
      rw [List.count_cons_of_ne (by decide)]
      exact congrArg (fed :: ·) (ih fed)

theorem sample_short (val : BitVec 32) : (LittleEndian.encode 4 val.toNat).length < T.modulus := by
  rw [LittleEndian.encode_length]
  cases T <;> decide

omit [LinearOrder α] [Zero α] in
/-- A sample there is room for is stored. -/
theorem fftExecIn_stored {fft : Fft T α} (h : Holds fft.spsc R items) (room : items.length + 4 ≤ fft.spsc.cap.toNat)
    (val : BitVec 32) : ∃ t, fftExecIn fft val = { fft with spsc := t } ∧
      Holds t R (items ++ LittleEndian.encode 4 val.toNat) ∧ t.cap = fft.spsc.cap ∧ t.ePolicy = fft.spsc.ePolicy := by
  have bytes := LittleEndian.encode_length 4 val.toNat
  have size : BitVec.toNat _ = _ := toNat_length (sample_short (T := T) val)
  have written := Holds.writeBuf ((spscPolicy_holds h (sample_short val)).1 (by omega)) h (by omega) (by omega)
  rw [size, List.take_length] at written
  obtain ⟨t, run, kept, cap, policy⟩ := written
  have nonzero : BitVec.ofNat T.bits (LittleEndian.encode 4 val.toNat).length ≠ 0 := by
    rw [bytes]
    cases T <;> decide
  refine ⟨t, ?_, kept, cap, policy⟩
  rw [fftExecIn, run]
  dsimp only
  rw [if_neg nonzero]

omit [LinearOrder α] [Zero α] in
/-- A sample there is no room for asks for a transform and leaves the ring as it is. -/
theorem fftExecIn_refused {fft : Fft T α} (h : Holds fft.spsc R items) (policy : fft.spsc.ePolicy = .reject)
    (full : fft.spsc.cap.toNat - items.length < 4) (val : BitVec 32) :
    fftExecIn fft val = { fft with neetExec := true } := by
  have bytes := LittleEndian.encode_length 4 val.toNat
  have refused : spscPolicy fft.spsc.ePolicy fft.spsc.cap fft.spsc.wp fft.spsc.rp
      (BitVec.ofNat _ (LittleEndian.encode 4 val.toNat).length) = (0, none) := by
    rw [(spscPolicy_holds h (sample_short val)).2 (by omega), policy, shortPolicy]
  have run : spscWriteBuf fft.spsc (LittleEndian.encode 4 val.toNat) = (0, fft.spsc) := by
    rw [spscWriteBuf, refused]
    exact if_pos rfl
  rw [fftExecIn, run]
  dsimp only
  rw [if_pos rfl]

/-- A full ring that starts with the stream is read as a block. -/
theorem read_full (h : Holds spsc 0 items) (full : items.length = spsc.cap.toNat) :
    read spsc.buf 0 spsc.cap.toNat = items := by
  apply List.ext_getElem
  · rw [read_length, full]
  · intro i _ lt
    have cell := h.cells i lt
    rw [Nat.zero_add, Nat.mod_eq_of_lt (by omega)] at cell
    simp [Memory.read, cell]

/-- What has been recorded after a list of calls. -/
structure Recorded (vals : Nat → BitVec 32) (points : Nat) (calls : List Call) (s : Session T α) : Prop where
  configured : s.fft.pointsNum.toNat = points
  policy : s.fft.spsc.ePolicy = .reject
  cap : s.fft.spsc.cap.toNat = 4 * points
  fed : s.fed = calls.count .execIn
  ring : Holds s.fft.spsc 0 (samples vals 0 (min s.fed points))
  need : s.fft.neetExec = true ↔ points < s.fed ∧ ∀ t ∈ s.executed, t.fed < s.fed
  frames : ∀ t ∈ s.executed, t.frame = samples vals 0 points ∧ t.fed ≤ s.fed
  counts : ∀ c, (∃ t ∈ s.executed, t.fed = c) ↔ c ∈ execCounts 0 calls ∧ points < c

namespace Recorded

theorem execIn (h : Recorded vals points calls s) :
    Recorded vals points (calls ++ [.execIn]) (s.call path magnitude vals .execIn) := by
  have ring := h.ring
  have cap := h.cap
  have held : (samples vals 0 (min s.fed points)).length = _ := samples_length _
  have fed : s.fed + 1 = (calls ++ [Call.execIn]).count .execIn := by
    rw [List.count_append, ← h.fed]
    rfl
  have frames : ∀ t ∈ s.executed, t.frame = samples vals 0 points ∧ t.fed ≤ s.fed + 1 := by
    intro t member
    obtain ⟨frame, before⟩ := h.frames t member
    exact ⟨frame, Nat.le_succ_of_le before⟩
  have counts : ∀ c, (∃ t ∈ s.executed, t.fed = c) ↔ c ∈ execCounts 0 (calls ++ [.execIn]) ∧ points < c := by
    intro c
    rw [execCounts_execIn]
    exact h.counts c
  by_cases room : s.fed < points
  · obtain ⟨t, stored, kept, same_cap, policy⟩ := fftExecIn_stored ring (by omega) (vals s.fed)
    rw [Session.call, stored]
    refine ⟨h.configured, policy.trans h.policy, by rw [same_cap, cap], fed, ?_, ?_, frames, counts⟩
    · rw [Nat.min_eq_left (Nat.le_of_lt room), ← samples_succ] at kept
      rwa [Nat.min_eq_left (show s.fed + 1 ≤ points from room)]
    · have quiet : ¬ s.fft.neetExec = true := fun need => absurd (h.need.mp need).1 (by omega)
      exact ⟨fun need => absurd need quiet, fun ⟨late, _⟩ => absurd late (Nat.not_lt.mpr room)⟩
  · rw [Session.call, fftExecIn_refused ring h.policy (by omega) (vals s.fed)]
    refine ⟨h.configured, h.policy, cap, fed, ?_, ?_, frames, counts⟩
    · rw [Nat.min_eq_right (by omega)] at ring
      rwa [Nat.min_eq_right (show points ≤ s.fed + 1 by omega)]
    · refine ⟨fun _ => ⟨Nat.lt_succ_of_le (Nat.le_of_not_lt room), fun t member => ?_⟩, fun _ => rfl⟩
      exact Nat.lt_succ_of_le (h.frames t member).2

/-- The frame of a transform is the ring, which is full. -/
theorem frame (h : Recorded vals points calls s) (need : s.fft.neetExec = true) :
    read (fftExec path magnitude s.fft).inBuf 0 (4 * (fftExec path magnitude s.fft).pointsNum.toNat) =
      samples vals 0 points := by
  obtain ⟨late, -⟩ := h.need.mp need
  have ring := h.ring
  rw [Nat.min_eq_right (Nat.le_of_lt late)] at ring
  have whole : (read s.fft.spsc.buf 0 s.fft.spsc.cap.toNat).length = 4 * points := by rw [read_length, h.cap]
  have block := read_full ring (by rw [samples_length, h.cap])
  rw [(fftExec_config _ _ _).1, h.configured, fftExec_inBuf need, ← block, ← whole, read_write]

theorem exec (h : Recorded vals points calls s) :
    Recorded vals points (calls ++ [.exec]) (s.call path magnitude vals .exec) := by
  have fed : s.fed = (calls ++ [Call.exec]).count .execIn := by
    rw [List.count_append, ← h.fed]
    rfl
  have listed : execCounts 0 (calls ++ [.exec]) = execCounts 0 calls ++ [s.fed] := by
    rw [execCounts_exec, Nat.zero_add, h.fed]
  by_cases need : s.fft.neetExec = true
  · obtain ⟨late, -⟩ := h.need.mp need
    have executed : (s.call path magnitude vals .exec).executed = s.executed ++ [⟨s.fed, samples vals 0 points⟩] := by
      rw [← h.frame need]
      exact if_pos need
    have spsc : (s.call path magnitude vals .exec).fft.spsc = s.fft.spsc := fftExec_spsc s.fft
    refine ⟨(congrArg BitVec.toNat (fftExec_config _ _ _).1).trans h.configured, ?_, ?_, fed, ?_, ?_, ?_, fun c => ?_⟩
    · rw [spsc, h.policy]
    · rw [spsc, h.cap]
    · rw [spsc]
      exact h.ring
    · have done : (s.call path magnitude vals .exec).fft.neetExec = false := fftExec_neetExec s.fft
      rw [done, executed]
      refine ⟨fun need => absurd need Bool.false_ne_true, fun ⟨_, earlier⟩ => ?_⟩
      exact absurd (earlier _ (List.mem_append_right _ List.mem_cons_self)) (Nat.lt_irrefl _)
    · intro t member
      rw [executed, List.mem_append, List.mem_singleton] at member
      rcases member with old | rfl
      · exact h.frames t old
      · exact ⟨rfl, Nat.le_refl _⟩
    · rw [listed, executed, List.mem_append, List.mem_singleton, or_and_right, ← h.counts]
      constructor
      · rintro ⟨t, member, rfl⟩
        rw [List.mem_append, List.mem_singleton] at member
        rcases member with old | rfl
        · exact Or.inl ⟨t, old, rfl⟩
        · exact Or.inr ⟨rfl, late⟩
      · rintro (⟨t, old, rfl⟩ | ⟨rfl, _⟩)
        · exact ⟨t, List.mem_append_left _ old, rfl⟩
        · exact ⟨_, List.mem_append_right _ List.mem_cons_self, rfl⟩
  · rw [Session.call, fftExec_idle (Bool.eq_false_of_not_eq_true need), if_neg need]
    refine ⟨h.configured, h.policy, h.cap, fed, h.ring, h.need, h.frames, fun c => ?_⟩
    rw [h.counts, listed, List.mem_append, List.mem_singleton]
    refine ⟨fun ⟨member, past⟩ => ⟨Or.inl member, past⟩, ?_⟩
    rintro ⟨member | rfl, past⟩
    · exact ⟨member, past⟩
    · have made : ¬ ∀ t ∈ s.executed, t.fed < s.fed := fun before => need (h.need.mpr ⟨past, before⟩)
      push Not at made
      obtain ⟨t, member, after⟩ := made
      exact (h.counts _).mp ⟨t, member, Nat.le_antisymm (h.frames t member).2 after⟩

omit [LinearOrder α] [Zero α] in
theorem start {fft : Fft T α} (configured : fft.pointsNum.toNat = points) (policy : fft.spsc.ePolicy = .reject)
    (cap : fft.spsc.cap.toNat = 4 * points) (ring : Holds fft.spsc 0 []) (idle : fft.neetExec = false) :
    Recorded vals points [] (⟨fft, 0, []⟩ : Session T α) where
  configured := configured
  policy := policy
  cap := cap
  fed := rfl
  ring := by
    rw [Nat.zero_min]
    exact ring
  need := by simp [idle]
  frames := by simp
  counts := by simp [execCounts]

end Recorded

variable {fft : Fft T α} {fs : ℚ} {pointsNum : Usz T} {buf inBuf : Nat → Byte} {magBuf : Nat → Extended α}

theorem cap_toNat (room : 4 * pointsNum.toNat < T.modulus) : (pointsNum * 4).toNat = 4 * pointsNum.toNat := by
  rw [BitVec.toNat_mul, four_toNat, Nat.mul_comm]
  exact Nat.mod_eq_of_lt room

theorem isPowerOf2_cap (pow : isPowerOf2 pointsNum) (room : 4 * pointsNum.toNat < T.modulus) :
    isPowerOf2 (pointsNum * 4) := by
  obtain ⟨k, points⟩ := isPowerOf2_toNat pow
  have power : (pointsNum * 4).toNat = 2 ^ (k + 2) := by
    rw [cap_toNat room, points, Nat.pow_add, Nat.mul_comm]
  exact isPowerOf2_of_toNat power

omit [LinearOrder α] [Zero α] in
/-- The ring of `4 * pointsNum` bytes is accepted. -/
theorem fftInit_eq (pow : isPowerOf2 pointsNum) (room : 4 * pointsNum.toNat < T.modulus) :
    fftInit fft fs pointsNum buf inBuf magBuf = { fft with
      fs, pointsNum, inBuf, magBuf
      spsc := ⟨.reject, buf, pointsNum * 4, 0, 0⟩
      fr := fs / pointsNum.toNat } := by
  rw [fftInit, spscInitBuf, if_pos (isPowerOf2_cap pow room)]

theorem session_append (call : Call) :
    session path magnitude vals fft (calls ++ [call]) =
      (session path magnitude vals fft calls).call path magnitude vals call := by
  rw [session, List.foldl_append]
  rfl

/-- After any calls, the record of them. -/
theorem session_recorded (idle : fft.neetExec = false) (pow : isPowerOf2 pointsNum)
    (room : 4 * pointsNum.toNat < T.modulus) (calls : List Call) :
    Recorded vals pointsNum.toNat calls
      (session path magnitude vals (fftInit fft fs pointsNum buf inBuf magBuf) calls) := by
  induction calls using List.reverseRecOn with
  | nil =>
    rw [fftInit_eq pow room]
    exact Recorded.start rfl rfl (cap_toNat room) (Holds.empty _ (isPowerOf2_cap pow room) rfl) idle
  | append_singleton calls call ih =>
    rw [session_append]
    cases call with
    | execIn => exact Recorded.execIn ih
    | exec => exact Recorded.exec ih

theorem samples_head (i : Nat) (pos : 0 < points) :
    (samples vals i points).take 4 = LittleEndian.encode 4 (vals i).toNat := by
  obtain ⟨more, rfl⟩ := Nat.exists_eq_add_one.mpr pos
  rw [samples, List.range'_succ, List.flatMap_cons]
  exact List.take_left' (LittleEndian.encode_length 4 _)

omit [LinearOrder α] [Zero α] in
/-- A session whose calls are timely makes no transform that has to be fresh. -/
theorem framesFresh_of_timely (h : Recorded vals points calls s) (timely : Timely points calls) :
    FramesFresh vals points s.executed where
  consecutive t member := by
    obtain ⟨-, past⟩ := (h.counts t.fed).mp ⟨t, member, rfl⟩
    exact ⟨0, by omega, (h.frames t member).1⟩
  fresh t member t' member' later := by
    obtain ⟨called, past⟩ := (h.counts t.fed).mp ⟨t, member, rfl⟩
    obtain ⟨called', -⟩ := (h.counts t'.fed).mp ⟨t', member', rfl⟩
    exact absurd (timely _ called _ called' past) (Nat.not_lt.mpr later)

/-- A stream whose first frame can be told from what comes later. -/
def steps (points i : Nat) : BitVec 32 := if i < points then 0 else 1

omit [LinearOrder α] [Zero α] in
theorem timely_of_framesFresh (pos : 0 < points) (h : Recorded (steps points) points calls s)
    (law : FramesFresh (steps points) points s.executed) : Timely points calls := by
  intro c called c' called' past
  by_contra late
  obtain ⟨t, member, rfl⟩ := (h.counts c).mpr ⟨called, past⟩
  obtain ⟨t', member', rfl⟩ := (h.counts c').mpr ⟨called', by omega⟩
  obtain ⟨i, after, -, frame⟩ := law.fresh t member t' member' (Nat.le_of_not_lt late)
  rw [(h.frames t' member').1] at frame
  have head := congrArg (List.take 4) frame
  rw [samples_head 0 pos, samples_head i pos, steps, steps, if_pos pos, if_neg (by omega)] at head
  exact absurd head (by decide)

/-- The frames are right for every stream where no call comes `pointsNum` samples after a transform: the ring is
never read, so each transform is one of the first samples. -/
theorem frames_fresh_iff (idle : fft.neetExec = false) (pow : isPowerOf2 pointsNum)
    (room : 4 * pointsNum.toNat < T.modulus) (calls : List Call) :
    (∀ vals, FramesFresh vals pointsNum.toNat
      (session path magnitude vals (fftInit fft fs pointsNum buf inBuf magBuf) calls).executed) ↔
      Timely pointsNum.toNat calls := by
  constructor
  · intro law
    obtain ⟨k, points⟩ := isPowerOf2_toNat pow
    have pos : 0 < pointsNum.toNat := by
      rw [points]
      exact Nat.two_pow_pos k
    exact timely_of_framesFresh pos (session_recorded idle pow room calls) (law _)
  · intro timely vals
    exact framesFresh_of_timely (session_recorded idle pow room calls) timely

/-- The calls after five samples and a transform. -/
def fiveAnd (calls : List Call) : List Call := List.replicate 5 .execIn ++ .exec :: calls

/-- Four more samples and the next transform: it is the same frame again. -/
theorem stale_frame : ¬ FramesFresh (steps 4) (4 : Usz .host).toNat
    (session .scalar tone (steps 4) (started 4) (fiveAnd [.execIn, .execIn, .execIn, .execIn, .exec])).executed := by
  intro law
  have recorded : Recorded (steps 4) (4 : Usz .host).toNat _
      (session .scalar tone (steps 4) (started 4) (fiveAnd [.execIn, .execIn, .execIn, .execIn, .exec])) :=
    session_recorded rfl (by decide) (by decide) _
  have timely := timely_of_framesFresh (by decide) recorded law
  revert timely
  unfold Timely
  decide

theorem frames_fresh_iff_twice : FramesFresh (steps 4) (4 : Usz .host).toNat
    (session .scalar tone (steps 4) (started 4) (fiveAnd [.execIn, .exec])).executed := by
  have timely : Timely (4 : Usz .host).toNat (fiveAnd [.execIn, .exec]) := by
    unfold Timely
    decide
  exact (frames_fresh_iff rfl (by decide) (by decide) _).mpr timely (steps 4)

end Frames

end AvaModule.FftTrans
