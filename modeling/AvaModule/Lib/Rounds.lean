import AvaModule.Lib.Transition
import Mathlib.Order.Lattice.Nat

/-! A potential on the states of a system of participants. What calls put on it bounds the steps that take from it;
and where some participant can take from it until all calls have returned, rounds in which all take a turn end them. -/
namespace Rounds
open Transition

variable {A S : Type*} {P : S → Prop} {weight : S → Nat}

section Paid
variable {step : A → S → Option S} {p begins works : A → S → Bool} {cost : Nat} {s t : S} {as : List A}

/-- The steps of a run that have a property in the state they are taken from. -/
def count (step : A → S → Option S) (p : A → S → Bool) : List A → S → Nat
  | [], _ => 0
  | a :: as, s => (p a s).toNat + ((step a s).map (count step p as)).getD 0

theorem count_cons {a : A} (next : step a s = some t) :
    count step p (a :: as) s = (p a s).toNat + count step p as t := by
  rw [count, next]
  rfl

/-- The steps that work are paid for by those that begin something. -/
theorem count_le (keeps : ∀ {a s t}, P s → step a s = some t →
      P t ∧ weight t + (works a s).toNat ≤ weight s + cost * (begins a s).toNat)
    (start : P s) (run : runs step as s = some t) :
    weight t + count step works as s ≤ weight s + cost * count step begins as s := by
  induction as generalizing s with
  | nil =>
    cases run
    exact le_rfl
  | cons a as ih =>
    obtain ⟨u, next, rest⟩ := Option.bind_eq_some_iff.mp run
    obtain ⟨kept, paid⟩ := keeps start next
    have later := ih kept rest
    rw [count_cons next, count_cons next, Nat.mul_add]
    omega

end Paid

section Turns
variable {turn : A → S → S} {team : A → Prop} {Done : S → Prop} {s : S} {round : List A}

/-- One turn after the other. -/
def turns (turn : A → S → S) (as : List A) (s : S) : S := as.foldl (fun s a => turn a s) s

/-- A turn leaves the state alone or takes from the potential. -/
structure Falls (turn : A → S → S) (team : A → Prop) (P : S → Prop) (weight : S → Nat) : Prop where
  keeps : ∀ {a s}, team a → P s → P (turn a s)
  falls : ∀ {a s}, team a → P s → turn a s = s ∨ weight (turn a s) < weight s

variable (falls : Falls turn team P weight)
include falls

theorem Falls.not_above (all : ∀ a ∈ round, team a) (kept : P s) :
    P (turns turn round s) ∧ weight (turns turn round s) ≤ weight s := by
  induction round generalizing s with
  | nil => exact ⟨kept, le_rfl⟩
  | cons a round ih =>
    have first := all a List.mem_cons_self
    obtain ⟨last, less⟩ := ih (fun b mem => all b (List.mem_cons_of_mem a mem)) (falls.keeps first kept)
    rcases falls.falls first kept with same | below
    · exact ⟨last, less.trans_eq (congrArg weight same)⟩
    · exact ⟨last, less.trans below.le⟩

/-- What one participant can take from the potential is taken in its round: until its turn, others take from it, or
leave the state alone. -/
theorem Falls.below (all : ∀ a ∈ round, team a) (kept : P s) {a : A} (mem : a ∈ round)
    (below : weight (turn a s) < weight s) : weight (turns turn round s) < weight s := by
  induction round with
  | nil => cases mem
  | cons b round ih =>
    have first := all b List.mem_cons_self
    have rest : ∀ c ∈ round, team c := fun c mem => all c (List.mem_cons_of_mem b mem)
    rcases falls.falls first kept with same | less
    · have later : a ∈ round := by
        rcases List.mem_cons.mp mem with rfl | later
        · rw [same] at below
          exact absurd below (lt_irrefl _)
        · exact later
      have less := ih rest later
      rw [turns, List.foldl_cons, same]
      exact less
    · exact (falls.not_above rest (falls.keeps first kept)).2.trans_lt less

omit falls in
theorem turns_stay (stays : ∀ {a}, team a → turn a s = s) (all : ∀ a ∈ round, team a) : turns turn round s = s := by
  induction round with
  | nil => rfl
  | cons a round ih =>
    rw [turns, List.foldl_cons, stays (all a List.mem_cons_self)]
    exact ih fun b mem => all b (List.mem_cons_of_mem a mem)

/-- While something is left to do some `lead` can take from the potential; then as many rounds in which every `lead` has
a turn leave nothing to do. -/
theorem Falls.settles {lead : A → Prop} (stays : ∀ {a s}, team a → P s → Done s → turn a s = s)
    (moves : ∀ {s}, P s → ¬Done s → ∃ a, lead a ∧ weight (turn a s) < weight s) {rounds : List (List A)}
    (fair : ∀ round ∈ rounds, (∀ a ∈ round, team a) ∧ ∀ a, lead a → a ∈ round)
    (kept : P s) (enough : weight s ≤ rounds.length) : Done (turns turn rounds.flatten s) := by
  induction rounds generalizing s with
  | nil =>
    by_contra left
    obtain ⟨a, _, below⟩ := moves kept left
    exact absurd enough (Nat.not_le.mpr (Nat.zero_lt_of_lt below))
  | cons round rounds ih =>
    by_cases done : Done s
    · have all : ∀ a ∈ (round :: rounds).flatten, team a := by
        intro a mem
        obtain ⟨r, mem, inside⟩ := List.mem_flatten.mp mem
        exact (fair r mem).1 a inside
      rw [turns_stay (fun ours => stays ours kept done) all]
      exact done
    · obtain ⟨all, leads⟩ := fair round List.mem_cons_self
      obtain ⟨a, lead, below⟩ := moves kept done
      have less := falls.below all kept (leads a lead) below
      rw [List.flatten_cons, turns, List.foldl_append]
      refine ih (fun r mem => fair r (List.mem_cons_of_mem round mem)) (falls.not_above all kept).1 ?_
      exact Nat.le_of_lt_succ (less.trans_le enough)

end Turns

end Rounds
