import AvaModule.Ds.Spsc.Sequential
import AvaModule.Lib.LittleEndian
import Mathlib.Algebra.BigOperators.Group.Finset.Basic
import Mathlib.Data.Rat.Defs
import Mathlib.Tactic.FieldSimp
import Mathlib.Tactic.Ring

/-! filter/maf.h over the ring of ds/spsc.h. An `f32` is stored as its four bytes, and its value is a
parameter; the sums are exact. What `prev_x` holds before it is read into is an input of each call. -/
namespace AvaModule.MafFilter
open SpscRing

variable {T : Target}

/-- `f32` as it is stored. -/
abbrev F32 := BitVec 32

/-- `cfg`, `in`, `out` and `lo` of `maf_filter_t`; the buffer is the one of the ring. -/
structure Maf (T : Target) where
  cap : BitVec 32
  x : F32
  y : ℚ
  spsc : Spsc T
  sum : ℚ

def zeroed : Maf T := ⟨0, 0, 0, ⟨.truncate, fun _ => 0, 0, 0, 0⟩, 0⟩

def mafInit (maf : Maf T) (buf : Nat → Byte) (cap : BitVec 32) : Maf T :=
  match spscInitBuf maf.spsc (cap.setWidth T.bits) .reject with
  | some spsc => { maf with cap, spsc := { spsc with buf } }
  | none => { maf with cap }

/-- An object of four bytes after the first ones were stored to. -/
def stored (old : F32) (bytes : List Byte) : F32 :=
  BitVec.ofNat 32 (LittleEndian.decode (bytes ++ (LittleEndian.encode 4 old.toNat).drop bytes.length))

section Exec
variable (value : F32 → ℚ)

/-- `prevX` is what the local variable holds at first. -/
def mafExec (prevX : F32) (maf : Maf T) : Maf T :=
  let (bytes, spsc) := spscReadBuf maf.spsc 4
  let prevX := stored prevX bytes
  let sum := maf.sum - value prevX
  let (_, spsc) := spscWriteBuf spsc (LittleEndian.encode 4 maf.x.toNat)
  let sum := sum + value maf.x
  { maf with spsc, sum := sum / maf.cap.toNat }

def mafExecIn (prevX : F32) (maf : Maf T) (x : F32) : Maf T := mafExec value prevX { maf with x }

/-- The filter after a number of samples. -/
def mafRun (buf : Nat → Byte) (cap : BitVec 32) (x prevX : Nat → F32) : Nat → Maf T
  | 0 => mafInit zeroed buf cap
  | n + 1 => mafExecIn value (prevX n) (mafRun buf cap x prevX n) (x n)

end Exec

/-- The mean of the last `cap` samples is put out, and nothing depends on what was not initialised. -/
structure WindowMean (T : Target) (value : F32 → ℚ) (buf : Nat → Byte) (cap : BitVec 32) (x : Nat → F32) (n : Nat) :
    Prop where
  mean : ∀ prevX, (mafRun (T := T) value buf cap x prevX n).y =
    (∑ i ∈ Finset.range cap.toNat, value (x (n - cap.toNat + i))) / cap.toNat
  defined : ∀ prevX prevX', mafRun (T := T) value buf cap x prevX n = mafRun value buf cap x prevX' n

section Law
variable {value : F32 → ℚ} {buf : Nat → Byte} {cap : BitVec 32} {x prevX prevX' : Nat → F32} {n : Nat}

theorem mafInit_eq (pow : isPowerOf2 (cap.setWidth T.bits)) :
    mafInit (T := T) zeroed buf cap = ⟨cap, 0, 0, ⟨.reject, buf, cap.setWidth T.bits, 0, 0⟩, 0⟩ := by
  have init : spscInitBuf (T := T) zeroed.spsc (cap.setWidth T.bits) .reject =
      some ⟨.reject, fun _ => 0, cap.setWidth T.bits, 0, 0⟩ := if_pos pow
  rw [mafInit, init]
  rfl

theorem mafRun_cap (pow : isPowerOf2 (cap.setWidth T.bits)) : (mafRun (T := T) value buf cap x prevX n).cap = cap := by
  induction n with
  | zero => rw [mafRun, mafInit_eq pow]
  | succ n ih => exact ih

/-- The output is never written. -/
theorem mafRun_y (pow : isPowerOf2 (cap.setWidth T.bits)) : (mafRun (T := T) value buf cap x prevX n).y = 0 := by
  induction n with
  | zero => rw [mafRun, mafInit_eq pow]
  | succ n ih => exact ih

/-- The ring does not depend on what is read into. -/
theorem mafRun_spsc (prevX prevX' : Nat → F32) :
    (mafRun (T := T) value buf cap x prevX n).spsc = (mafRun value buf cap x prevX' n).spsc := by
  induction n with
  | zero => rfl
  | succ n ih => rw [mafRun, mafRun, mafExecIn, mafExecIn, mafExec, mafExec, ih]

theorem stored_nil (old : F32) : stored old [] = old :=
  LittleEndian.ofNat_decode_encode (n := 4) (by decide) old

/-- What a call does to the sum. -/
theorem mafRun_sum (pow : isPowerOf2 (cap.setWidth T.bits)) (prevX : Nat → F32) (n : Nat) :
    (mafRun (T := T) value buf cap x prevX (n + 1)).sum =
      ((mafRun (T := T) value buf cap x prevX n).sum -
        value (stored (prevX n) (spscReadBuf (mafRun (T := T) value buf cap x prevX n).spsc 4).1) + value (x n)) /
          cap.toNat := by
  have window : (mafRun (T := T) value buf cap x prevX n).cap = cap := mafRun_cap pow
  exact congrArg (fun window : BitVec 32 => _ / (window.toNat : ℚ)) window

/-- The ring is empty at the first read, so the sum takes in what the variable held. -/
theorem first_sum (pow : isPowerOf2 (cap.setWidth T.bits)) (prevX : Nat → F32) :
    (mafRun (T := T) value buf cap x prevX 1).sum = (value (x 0) - value (prevX 0)) / cap.toNat := by
  obtain ⟨_, read, -⟩ := (Holds.empty (⟨.reject, buf, cap.setWidth T.bits, 0, 0⟩ : Spsc T) pow rfl).readBuf 4
  rw [mafRun_sum pow, mafRun, mafInit_eq pow, read, List.take_nil, stored_nil]
  ring

/-- What the variable held at first stays in the sum. -/
theorem sum_differs (pow : isPowerOf2 (cap.setWidth T.bits)) (later : ∀ k, 0 < k → prevX k = prevX' k) (n : Nat) :
    (mafRun (T := T) value buf cap x prevX (n + 1)).sum - (mafRun (T := T) value buf cap x prevX' (n + 1)).sum =
      (value (prevX' 0) - value (prevX 0)) / cap.toNat ^ (n + 1) := by
  induction n with
  | zero =>
    rw [first_sum pow, first_sum pow]
    ring
  | succ n ih =>
    rw [mafRun_sum pow prevX (n + 1), mafRun_sum pow prevX' (n + 1), mafRun_spsc prevX prevX',
      later (n + 1) (Nat.succ_pos n), ← sub_div, pow_succ, ← div_div, ← ih]
    ring

/-- However the window is sized and whatever is filtered, the output stays at zero and the state keeps what
was not initialised. -/
theorem maf_never (varied : ∃ b b', value b ≠ value b') (pow : isPowerOf2 (cap.setWidth T.bits))
    (full : cap.toNat ≤ n) :
    ¬ WindowMean T value buf cap x n ∧ ∀ prevX, (mafRun (T := T) value buf cap x prevX n).y = 0 := by
  refine ⟨fun law => ?_, fun prevX => mafRun_y pow⟩
  obtain ⟨b, b', differ⟩ := varied
  have positive : 0 < cap.toNat := by
    rcases Nat.eq_zero_or_pos cap.toNat with zero | pos
    · have none : cap = 0 := BitVec.eq_of_toNat_eq zero
      rw [none] at pow
      exact absurd pow (by cases T <;> decide)
    · exact pos
  obtain ⟨n, rfl⟩ : ∃ m, n = m + 1 := Nat.exists_eq_add_one.mpr (by omega)
  let held (b : F32) (k : Nat) : F32 := if k = 0 then b else 0
  have same : ∀ k, 0 < k → held b k = held b' k := fun k pos => by simp [held, Nat.ne_of_gt pos]
  have apart : (mafRun (T := T) value buf cap x (held b) (n + 1)).sum - _ = _ := sum_differs pow same n
  rw [law.defined (held b) (held b'), sub_self, eq_comm, div_eq_zero_iff, sub_eq_zero] at apart
  rcases apart with equal | zero
  · exact differ equal.symm
  · exact absurd zero (pow_ne_zero _ (Nat.cast_ne_zero.mpr (Nat.ne_of_gt positive)))

/-- The value of a finite single-precision number. -/
def finiteValue (b : F32) : ℚ :=
  let exponent : Nat := b.toNat / 2 ^ 23 % 2 ^ 8
  let fraction : Nat := b.toNat % 2 ^ 23
  let magnitude : ℚ := if exponent = 0 then fraction * 2 / 2 ^ 150 else (2 ^ 23 + fraction) * 2 ^ exponent / 2 ^ 150
  if b.msb then -magnitude else magnitude

theorem finiteValue_one : finiteValue 0x3F800000 = 1 := by decide +kernel

/-- Four times one in a window of four. -/
theorem maf_ones : ¬ WindowMean .mcu finiteValue (fun _ => 0) 4 (fun _ => 0x3F800000) 4 := by
  intro law
  have mean := law.mean fun _ => 0
  have window : (4 : BitVec 32).toNat = 4 := rfl
  rw [mafRun_y (by decide), finiteValue_one, window] at mean
  norm_num at mean

theorem maf_never_ones : ¬ WindowMean .host finiteValue (fun _ => 0) 8 (fun _ => 0x3F800000) 20 ∧
    ∀ prevX, (mafRun (T := .host) finiteValue (fun _ => 0) 8 (fun _ => 0x3F800000) prevX 20).y = 0 := by
  have varied : ∃ b b', finiteValue b ≠ finiteValue b' := ⟨0, 0x3F800000, by decide +kernel⟩
  exact maf_never varied (by decide) (by decide)

end Law

end AvaModule.MafFilter
