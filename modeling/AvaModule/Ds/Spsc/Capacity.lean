import AvaModule.Ds.Spsc.Runs
import AvaModule.Util.BitOps

/-! What ROUNDUP_POW_OF_2 makes of a size for the ring of ds/spsc.h, whose capacity is as wide as an
address. -/
namespace AvaModule.SpscRing

variable {T : Target} {type : IntType} {n : type.Value} {v : BitVec 64} {k : Nat}

/-- `spsc_init_buf` takes the value and keeps it as the capacity. -/
def Accepted (T : Target) (v : BitVec 64) : Prop :=
  ∀ (mem : Spsc T) (ePolicy : Policy), ∃ spsc,
    spscInitBuf mem (v.setWidth T.bits) ePolicy = some spsc ∧ spsc.cap.toNat = v.toNat

/-- The macro has a value, the least power of two from `n` on, and that value is a capacity. -/
def RoundsUp (T : Target) {type : IntType} (n : type.Value) : Prop :=
  ∃ v, roundupPowOf2 T n = some v ∧ IsLeast {p | n.toNat ≤ p ∧ p.isPowerOfTwo} v.toNat ∧ Accepted T v

/-- A power of two is a capacity as long as an address is wide enough for it. -/
theorem accepted_iff (power : v.toNat = 2 ^ k) : Accepted T v ↔ k < T.bits := by
  constructor
  · intro accepted
    obtain ⟨spsc, init, cap⟩ := accepted ⟨.reject, fun _ => 0, 0, 0, 0⟩ .reject
    have below := spsc.cap.isLt
    rw [cap, power] at below
    exact (Nat.pow_lt_pow_iff_right (by decide)).mp below
  · intro wide mem ePolicy
    have fits : v.toNat < 2 ^ T.bits := by
      rw [power]
      exact Nat.pow_lt_pow_right (by decide) wide
    have value : (v.setWidth T.bits).toNat = v.toNat := by
      rw [BitVec.toNat_setWidth, Nat.mod_eq_of_lt fits]
    refine ⟨{ mem with ePolicy := ePolicy, cap := v.setWidth T.bits, rp := 0, wp := 0 }, ?_, value⟩
    rw [spscInitBuf, if_pos (isPowerOf2_of_toNat (value.trans power))]

theorem not_roundsUp_u32 {n : IntType.u32.Value} (positive : 1 ≤ n.toNat) (half : n.toNat ≤ 2 ^ 31) :
    ¬RoundsUp T n := by
  rintro ⟨v, value, _⟩
  rw [roundupPowOf2_u32 positive half] at value
  cases value

theorem roundsUp_u64_iff {n : IntType.u64.Value} (positive : 1 ≤ n.toNat) (half : n.toNat ≤ 2 ^ 63) :
    RoundsUp T n ↔ n.toNat ≤ 2 ^ (T.bits - 1) := by
  obtain ⟨v, value, power⟩ := roundupPowOf2_u64 (T := T) positive half
  have address : 0 < T.bits := by cases T <;> decide
  have wide := size_pred_lt_iff positive address
  constructor
  · rintro ⟨w, other, _, accepted⟩
    cases value.symm.trans other
    exact wide.mp ((accepted_iff power).mp accepted)
  · intro small
    refine ⟨v, value, ?_, (accepted_iff power).mpr (wide.mpr small)⟩
    rw [power]
    exact isLeast_two_pow_size positive

/-- The macro is right for wide sizes up to the largest power of two of an address, and for no narrow one. -/
theorem roundsUp_iff (positive : 1 ≤ n.toNat) (range : n.toNat ≤ 2 ^ (8 * type.sizeof - 1)) :
    RoundsUp T n ↔ type = .u64 ∧ n.toNat ≤ 2 ^ (T.bits - 1) := by
  cases type with
  | u32 => exact iff_of_false (not_roundsUp_u32 positive range) (fun wide => by cases wide.1)
  | u64 =>
    rw [roundsUp_u64_iff positive range]
    exact (and_iff_right rfl).symm

theorem roundsUp_five : RoundsUp .mcu (5 : IntType.u64.Value) :=
  (roundsUp_iff (n := (5 : IntType.u64.Value)) (by decide) (by decide)).mpr ⟨rfl, by decide⟩

/-- Five as a `u32`, and a wide size that no narrow address holds once it is rounded up. -/
theorem not_roundsUp : ¬RoundsUp .host (5 : IntType.u32.Value) ∧ ¬RoundsUp .mcu (4294967295 : IntType.u64.Value) := by
  refine ⟨not_roundsUp_u32 (by decide) (by decide), ?_⟩
  rw [roundsUp_u64_iff (by decide) (by decide)]
  decide

end AvaModule.SpscRing
