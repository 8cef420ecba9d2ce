import AvaModule.Comm.Net.Sync
import Mathlib.Algebra.Ring.Int.Defs
import Mathlib.Tactic.ByContra

/-! When the deadline of `net_sync_recv_spin` is the one that was asked for. -/
namespace AvaModule.Comm

variable {T : Target} {deadline beginNs : U64} {recv : Nat → Usz T} {clock : Nat → U64} {i k : Nat} {curr : U64}
  {result : Int × Nat} {timeoutUs : U32}

section Loop

theorem spin_expired (late : ¬curr < deadline) : (spin deadline recv clock).run (i, curr) = some (-metimeout, i) := by
  rw [Loop.run_eq]
  simp [spin, late]

theorem spin_received (early : curr < deadline) (some : 0 < recvInt recv i) :
    (spin deadline recv clock).run (i, curr) = Option.some (recvInt recv i, i) := by
  rw [Loop.run_eq]
  simp [spin, early, some]

theorem spin_again (early : curr < deadline) (none : recvInt recv i ≤ 0) :
    (spin deadline recv clock).run (i, curr) = (spin deadline recv clock).run (i + 1, clock (i + 1)) := by
  rw [Loop.run_eq]
  simp [spin, early, Int.not_lt.mpr none]

/-- What the loop compares with the deadline in the turn `j`, if it is `curr` in the turn `k`. -/
def reading (clock : Nat → U64) (k : Nat) (curr : U64) (j : Nat) : U64 := if j = k then curr else clock j

/-- How the loop is left from the turn `k` on. -/
structure SpinLeft (deadline : U64) (recv : Nat → Usz T) (clock : Nat → U64) (curr : U64) (k : Nat) (result : Int × Nat) :
    Prop where
  from_le : k ≤ result.2
  none_before : ∀ j, k ≤ j → j < result.2 → recvInt recv j ≤ 0
  in_time : ∀ j, k ≤ j → j < result.2 → reading clock k curr j < deadline
  outcome : (reading clock k curr result.2 < deadline ∧ 0 < recvInt recv result.2 ∧ result.1 = recvInt recv result.2) ∨
    (¬reading clock k curr result.2 < deadline ∧ result.1 = -metimeout)

/-- One turn more before the others. -/
theorem SpinLeft.again (left : SpinLeft deadline recv clock (clock (k + 1)) (k + 1) result) (early : curr < deadline)
    (none : recvInt recv k ≤ 0) : SpinLeft deadline recv clock curr k result := by
  obtain ⟨from_le, none_before, in_time, outcome⟩ := left
  have same (j : Nat) (lt : k < j) : reading clock k curr j = reading clock (k + 1) (clock (k + 1)) j := by
    rw [reading, reading, if_neg (Nat.ne_of_gt lt)]
    split
    · next first => rw [first]
    · rfl
  refine ⟨Nat.le_of_succ_le from_le, fun j le lt => ?_, fun j le lt => ?_, ?_⟩
  · rcases Nat.eq_or_lt_of_le le with rfl | past
    · exact none
    · exact none_before j past lt
  · rcases Nat.eq_or_lt_of_le le with rfl | past
    · rwa [reading, if_pos rfl]
    · rw [same j past]
      exact in_time j past lt
  · rw [same _ from_le]
    exact outcome

theorem spin_left (left : (spin deadline recv clock).run (k, curr) = some result) :
    SpinLeft deadline recv clock curr k result := by
  have none_between {k : Nat} {P : Nat → Prop} (j : Nat) (le : k ≤ j) (lt : j < k) : P j :=
    absurd le (Nat.not_le_of_lt lt)
  refine Loop.run_invariant (P := fun s => SpinLeft deadline recv clock s.2 s.1) ?_ ?_ left
  · rintro ⟨k, curr⟩ ⟨k', curr'⟩ result turn rest
    simp only [spin] at turn
    split at turn
    · next early =>
      split at turn
      · cases turn
      · next none =>
        cases turn
        exact rest.again early (Int.not_lt.mp none)
    · cases turn
  · rintro ⟨k, curr⟩ result turn
    have here : reading clock k curr k = curr := if_pos rfl
    simp only [spin] at turn
    split at turn
    · next early =>
      split at turn
      · next some =>
        cases turn
        exact ⟨Nat.le_refl k, none_between, none_between, .inl ⟨here.symm ▸ early, some, rfl⟩⟩
      · cases turn
    · next late =>
      cases turn
      exact ⟨Nat.le_refl k, none_between, none_between, .inr ⟨here.symm ▸ late, rfl⟩⟩

/-- A positive result ends the loop, if the deadline has not. -/
theorem spin_leaves (le : k ≤ i) (some : 0 < recvInt recv i) :
    ∃ result, (spin deadline recv clock).run (k, curr) = Option.some result := by
  obtain ⟨n, rfl⟩ := Nat.exists_eq_add_of_le le
  induction n generalizing k curr with
  | zero =>
    by_cases early : curr < deadline
    · exact ⟨_, spin_received early some⟩
    · exact ⟨_, spin_expired early⟩
  | succ n ih =>
    by_cases early : curr < deadline
    · by_cases none : recvInt recv k ≤ 0
      · rw [spin_again early none]
        exact ih (Nat.le_add_right _ n) (by rwa [Nat.add_right_comm])
      · exact ⟨_, spin_received early (Int.not_le.mp none)⟩
    · exact ⟨_, spin_expired early⟩

end Loop

section Law

/-- What one `recv` hands over fits in an `int`. -/
def FitsInt (recv : Nat → Usz T) : Prop := ∀ i, -2 ^ 31 ≤ (recv i).toInt ∧ (recv i).toInt < 2 ^ 31

/-- The first positive result that is obtained is returned, and a timeout only when its
microseconds have passed. -/
inductive SpinRight (timeoutUs : U32) (recv : Nat → Usz T) (clock : Nat → U64) : Option (Int × Nat) → Prop where
  | received {i : Nat} (none_before : ∀ j < i, (recv j).toInt ≤ 0) (some : 0 < (recv i).toInt) :
      SpinRight timeoutUs recv clock (Option.some ((recv i).toInt, i))
  | expired {i : Nat} (none_before : ∀ j < i, (recv j).toInt ≤ 0)
      (passed : (clock 0).toNat + timeoutUs.toNat * 1000 ≤ (clock i).toNat) :
      SpinRight timeoutUs recv clock (some (-metimeout, i))
  | waiting (none : ∀ j, (recv j).toInt ≤ 0) : SpinRight timeoutUs recv clock Option.none

/-- For every clock that reads `beginNs` first, and every sequence of results. -/
def SpinLaw (T : Target) (timeoutUs : U32) (beginNs : U64) : Prop :=
  ∀ (recv : Nat → Usz T) (clock : Nat → U64), FitsInt recv → (∀ i, clock i ≤ clock (i + 1)) → clock 0 = beginNs →
    SpinRight timeoutUs recv clock (netSyncRecvSpin timeoutUs recv clock)

theorem recvInt_eq (fits : FitsInt recv) (i : Nat) : recvInt recv i = (recv i).toInt := by
  have bits : min 32 T.bits = 32 := by cases T <;> rfl
  obtain ⟨lower, upper⟩ := fits i
  rw [recvInt, BitVec.toInt_signExtend, bits]
  exact Int.bmod_eq_of_le (by simpa using lower) (by simpa using upper)

/-- The deadline as the code computes it. -/
theorem deadline_toNat (beginNs : U64) (timeoutUs : U32) :
    (beginNs + (us2ns timeoutUs).setWidth 64).toNat = (beginNs.toNat + timeoutUs.toNat * 1000 % 2 ^ 32) % 2 ^ 64 := by
  have inner : ((us2ns timeoutUs).setWidth 64).toNat = timeoutUs.toNat * 1000 % 2 ^ 32 := by
    rw [us2ns, BitVec.toNat_setWidth, BitVec.toNat_mul]
    exact Nat.mod_eq_of_lt (Nat.lt_of_lt_of_le (Nat.mod_lt _ (by decide)) (by decide))
  rw [BitVec.toNat_add, inner]

/-- With a deadline that is not cut off, the loop does as it should. -/
theorem spin_right (fits : FitsInt recv) (deadline : (clock 0).toNat + timeoutUs.toNat * 1000 =
    (clock 0 + (us2ns timeoutUs).setWidth 64).toNat) :
    SpinRight timeoutUs recv clock (netSyncRecvSpin timeoutUs recv clock) := by
  unfold netSyncRecvSpin
  generalize clock 0 + (us2ns timeoutUs).setWidth 64 = limit at deadline
  cases run : (spin limit recv clock).run (0, 0) with
  | none =>
    refine .waiting fun j => ?_
    by_contra some
    rw [← recvInt_eq fits] at some
    obtain ⟨result, left⟩ : ∃ result, (spin limit recv clock).run (0, 0) = Option.some result :=
      spin_leaves (Nat.zero_le j) (Int.not_le.mp some)
    rw [run] at left
    cases left
  | some result =>
    obtain ⟨ret, i⟩ := result
    obtain ⟨_, none_before, _, outcome⟩ := spin_left run
    have before (j : Nat) (lt : j < i) : (recv j).toInt ≤ 0 := recvInt_eq fits j ▸ none_before j (Nat.zero_le j) lt
    dsimp only at outcome
    rw [recvInt_eq fits] at outcome
    rcases outcome with ⟨_, some, rfl⟩ | ⟨late, rfl⟩
    · exact .received before some
    · refine .expired before ?_
      rw [deadline]
      unfold reading at late
      split at late
      · next first =>
        have past := BitVec.le_def.mp (BitVec.not_lt.mp late)
        exact Nat.le_trans past (Nat.zero_le _)
      · exact BitVec.le_def.mp (BitVec.not_lt.mp late)

/-- A clock that jumps to the deadline, or stands still. -/
def jumping (beginNs deadline : U64) : Nat → U64
  | 0 => beginNs
  | _ + 1 => if beginNs ≤ deadline then deadline else beginNs

theorem jumping_expires (timeoutUs : U32) :
    ∃ i, netSyncRecvSpin timeoutUs (fun _ => (0 : Usz T)) (jumping beginNs (beginNs + (us2ns timeoutUs).setWidth 64)) =
      some (-metimeout, i) := by
  have none : recvInt (fun _ => (0 : Usz T)) 0 ≤ 0 := by cases T <;> decide
  unfold netSyncRecvSpin
  change ∃ i, (spin (beginNs + (us2ns timeoutUs).setWidth 64) _ _).run (0, 0) = _
  generalize beginNs + (us2ns timeoutUs).setWidth 64 = deadline
  by_cases early : 0 < deadline
  · rw [spin_again early none]
    refine ⟨1, spin_expired ?_⟩
    rw [jumping]
    split
    · exact BitVec.not_lt.mpr (BitVec.le_refl _)
    · next before => exact BitVec.not_lt.mpr (BitVec.le_of_lt (BitVec.not_le.mp before))
  · exact ⟨0, spin_expired early⟩

/-- A deadline that is cut off comes too early. -/
theorem spin_cut (T : Target) (cut : ¬(timeoutUs.toNat * 1000 < 2 ^ 32 ∧ beginNs.toNat + timeoutUs.toNat * 1000 < 2 ^ 64)) :
    ¬SpinLaw T timeoutUs beginNs := by
  intro law
  have deadline := deadline_toNat beginNs timeoutUs
  have zero : (0 : Usz T).toInt = 0 := by cases T <;> decide
  have fits : FitsInt (fun _ => (0 : Usz T)) := fun _ => by
    dsimp only
    rw [zero]
    decide
  -- The deadline that is computed comes before the one that was asked for.
  have short : (beginNs + (us2ns timeoutUs).setWidth 64).toNat < beginNs.toNat + timeoutUs.toNat * 1000 := by
    rw [deadline]
    by_cases narrow : timeoutUs.toNat * 1000 < 2 ^ 32
    · rw [Nat.mod_eq_of_lt narrow]
      exact Nat.lt_of_lt_of_le (Nat.mod_lt _ (by decide)) (Nat.not_lt.mp fun inside => cut ⟨narrow, inside⟩)
    · have less := Nat.mod_le (beginNs.toNat + timeoutUs.toNat * 1000 % 2 ^ 32) (2 ^ 64)
      omega
  have mono (i : Nat) : jumping beginNs (beginNs + (us2ns timeoutUs).setWidth 64) i ≤
      jumping beginNs (beginNs + (us2ns timeoutUs).setWidth 64) (i + 1) := by
    cases i with
    | zero =>
      rw [jumping, jumping]
      split
      · assumption
      · exact BitVec.le_refl _
    | succ i => exact BitVec.le_refl _
  have right := law _ _ fits mono rfl
  obtain ⟨i, expires⟩ : ∃ i, netSyncRecvSpin timeoutUs (fun _ => (0 : Usz T))
      (jumping beginNs (beginNs + (us2ns timeoutUs).setWidth 64)) = some (-metimeout, i) := jumping_expires timeoutUs
  rw [expires] at right
  have reading : (jumping beginNs (beginNs + (us2ns timeoutUs).setWidth 64) i).toNat <
      beginNs.toNat + timeoutUs.toNat * 1000 := by
    cases i with
    | zero =>
      change beginNs.toNat < _
      omega
    | succ i =>
      rw [jumping]
      split
      · exact short
      · omega
  obtain ⟨result, result_eq⟩ : ∃ result : Option (Int × Nat), result = some (-metimeout, i) := ⟨_, rfl⟩
  rw [← result_eq] at right
  cases right with
  | received _ some => exact absurd some (by rw [zero]; decide)
  | expired _ passed =>
    cases result_eq
    exact Nat.not_le_of_lt reading passed
  | waiting => cases result_eq

/-- `net_sync_recv_spin` keeps its law just when the nanoseconds of the timeout fit in `u32` and
the deadline in `u64`. -/
theorem spin_law (T : Target) (timeoutUs : U32) (beginNs : U64) :
    SpinLaw T timeoutUs beginNs ↔
      timeoutUs.toNat * 1000 < 2 ^ 32 ∧ beginNs.toNat + timeoutUs.toNat * 1000 < 2 ^ 64 := by
  constructor
  · intro law
    by_contra cut
    exact spin_cut T cut law
  · rintro ⟨narrow, inside⟩ recv clock fits _ first
    refine spin_right fits ?_
    rw [first, deadline_toNat, Nat.mod_eq_of_lt narrow, Nat.mod_eq_of_lt inside]

/-- A timeout of more than four seconds is over after 704 nanoseconds. -/
theorem spin_cut_four_seconds : ¬SpinLaw .host 4294968 0 := spin_cut .host (by decide)

end Law

end AvaModule.Comm
