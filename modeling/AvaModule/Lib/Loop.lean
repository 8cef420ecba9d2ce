import Mathlib.Init

/-! Loops without a bound. A turn goes on from another state or leaves with a result; a
loop that is never left, or one of whose turns fails, has the value `none`. -/

/-- How a turn of a loop ends. -/
inductive Turn (S R : Type) where
  | next (s : S)
  | done (r : R)

/-- The body of a loop. -/
structure Loop (S R : Type) where
  turn : S → Option (Turn S R)

namespace Loop
variable {S R H : Type}

def run (loop : Loop S R) (s : S) : Option R := do
  match ← loop.turn s with
  | .next s => loop |>.run s
  | .done r => return r
partial_fixpoint

/-- The loop whose turns also act on a state that all of them share. -/
def sharing (turn : S → StateT H Option (Turn S R)) : Loop (S × H) (R × H) where
  turn := fun (s, h) => do
    match ← turn s h with
    | (.next s, h) => return .next (s, h)
    | (.done r, h) => return .done (r, h)

def runState (turn : S → StateT H Option (Turn S R)) (s : S) : StateT H Option R :=
  fun h => (sharing turn).run (s, h)

theorem run_eq (loop : Loop S R) (s : S) :
    loop.run s = do
      match ← loop.turn s with
      | .next s => loop.run s
      | .done r => return r := by
  rw [run]

/-- The loop for at most so many turns. -/
def runFor (loop : Loop S R) : Nat → S → Option R
  | 0, _ => none
  | n + 1, s => do
    match ← loop.turn s with
    | .next s => loop.runFor n s
    | .done r => return r

/-- A loop that is left within some number of turns is left. -/
theorem run_of_runFor {loop : Loop S R} {n : Nat} {s : S} {r : R} (left : loop.runFor n s = some r) :
    loop.run s = some r := by
  induction n generalizing s with
  | zero => cases left
  | succ n ih =>
    obtain ⟨turned, turn, rest⟩ := Option.bind_eq_some_iff.mp left
    rw [run_eq, turn]
    cases turned with
    | next s' => exact ih rest
    | done r' => exact rest

/-- What every turn keeps, a loop that is left has kept. -/
theorem run_invariant {loop : Loop S R} {P : S → R → Prop}
    (next : ∀ {s s' r}, loop.turn s = some (.next s') → P s' r → P s r)
    (done : ∀ {s r}, loop.turn s = some (.done r) → P s r) {s : S} {r : R} (left : loop.run s = some r) : P s r := by
  refine run.partial_correctness loop P ?_ s r left
  intro rest kept s r step
  obtain ⟨turn, here, step⟩ := Option.bind_eq_some_iff.mp step
  cases turn with
  | next s' => exact next here (kept s' r step)
  | done r' =>
    obtain rfl := Option.some.inj step
    exact done here

theorem runState_eq (turn : S → StateT H Option (Turn S R)) (s : S) :
    runState turn s = do
      match ← turn s with
      | .next s => runState turn s
      | .done r => return r := by
  funext h
  change (sharing turn).run (s, h) = (turn s h).bind _
  rw [run_eq]
  simp only [sharing]
  cases turn s h with
  | none => rfl
  | some result =>
    obtain ⟨turned, h'⟩ := result
    cases turned with
    | next s' => rfl
    | done r => rfl

end Loop
