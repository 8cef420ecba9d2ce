import AvaModule.Lib.Transition
import Mathlib.Data.List.Basic

/-! Threads that take turns under a lock: a thread enters where the lock is free, and leaving sets it free. -/
namespace Locked
open Transition

/-- What a step of a thread does to the lock and to its own place. -/
inductive Move {I S : Type*} (inside : I → S → Prop) (locked : S → Prop) (i : I) (s t : S) : Prop where
  | stays : (inside i t ↔ inside i s) → (locked t ↔ locked s) → Move inside locked i s t
  | enters : ¬locked s → inside i t → locked t → Move inside locked i s t
  | leaves : inside i s → ¬inside i t → ¬locked t → Move inside locked i s t

/-- The lock is taken exactly while a thread is inside, and then one thread is. -/
structure Exclusive {I S : Type*} (inside : I → S → Prop) (locked : S → Prop) (s : S) : Prop where
  one {i j} : inside i s → inside j s → i = j
  taken : locked s ↔ ∃ i, inside i s

variable {I A S : Type*} {step : I × A → S → Option S} {inside : I → S → Prop} {locked : S → Prop}
  {P : S → Prop} {i j : I} {a : A} {s t : S}

/-- A move of one thread, which moves no other, keeps the turns apart. -/
theorem Exclusive.kept (exclusive : Exclusive inside locked s) (move : Move inside locked i s t)
    (others : ∀ {j}, j ≠ i → (inside j t ↔ inside j s)) : Exclusive inside locked t := by
  cases move with
  | stays place lock =>
    have same : ∀ j, inside j t ↔ inside j s := by
      intro j
      by_cases own : j = i
      · rw [own]
        exact place
      · exact others own
    refine ⟨fun first second => ?_, ?_⟩
    · exact exclusive.one ((same _).mp first) ((same _).mp second)
    · rw [lock, exclusive.taken]
      exact exists_congr fun j => (same j).symm
  | enters free enter lock =>
    have alone : ∀ {j}, inside j t → j = i := by
      intro j there
      by_contra differ
      exact free (exclusive.taken.mpr ⟨j, (others differ).mp there⟩)
    exact ⟨fun first second => (alone first).trans (alone second).symm, ⟨fun _ => ⟨i, enter⟩, fun _ => lock⟩⟩
  | leaves here out free =>
    have empty : ∀ j, ¬inside j t := by
      intro j there
      by_cases own : j = i
      · exact out (own ▸ there)
      · exact own (exclusive.one ((others own).mp there) here)
    exact ⟨fun there => absurd there (empty _), ⟨fun lock => absurd lock free, fun ⟨j, there⟩ => absurd there (empty j)⟩⟩

/-- A thread that stays inside, whose own steps lower a rank which no other step raises, spends of the rank a unit
for each of its steps. -/
theorem spent_within [DecidableEq I] (inside : I → S → Prop) (rank : S → Nat)
    (keeps : ∀ {j a s t}, P s → step (j, a) s = some t → P t)
    (lowers : ∀ {a s t}, P s → inside i s → step (i, a) s = some t → inside i t → rank t < rank s)
    (spares : ∀ {j a s t}, P s → inside i s → j ≠ i → step (j, a) s = some t → rank t ≤ rank s)
    (start : P s) {as : List (I × A)} (run : runs step as s = some t)
    (stays : ∀ before after u, as = before ++ after → runs step before s = some u → inside i u) :
    (as.countP fun act => act.1 = i) + rank t ≤ rank s := by
  induction as generalizing s with
  | nil =>
    obtain rfl := Option.some.inj run
    refine Nat.le_of_eq ?_
    rw [List.countP_nil, Nat.zero_add]
  | cons act as ih =>
    obtain ⟨u, next, rest⟩ := Option.bind_eq_some_iff.mp run
    have here : inside i s := stays [] (act :: as) s rfl rfl
    have later : ∀ before after v, as = before ++ after → runs step before u = some v → inside i v := by
      rintro before after v rfl run'
      refine stays (act :: before) after v rfl ?_
      rw [Transition.runs, next]
      exact run'
    have left := ih (keeps (a := act.2) start next) rest later
    rw [List.countP_cons]
    by_cases own : act.1 = i
    · have lower := lowers (a := act.2) start here (own ▸ next) (later [] as u rfl rfl)
      rw [if_pos (by simpa using own)]
      omega
    · have same := spares (a := act.2) start here own next
      rw [if_neg (by simpa using own)]
      omega

end Locked
