import Mathlib.Data.Option.Basic

/-! Runs of a partial, deterministic step function under a condition on each
step. The condition may depend on the state the step is taken from; a step that
fails ends the run. -/
namespace Transition
variable {A S : Type*} {step : A → S → Option S} {ok : A → S → Prop} {P : S → Prop}

def runs (step : A → S → Option S) : List A → S → Option S
  | [], s => some s
  | a :: as, s => (step a s).bind (runs step as)

/-- Every step of the run meets `ok` in the state it is taken from. -/
def Admits (step : A → S → Option S) (ok : A → S → Prop) : List A → S → Prop
  | [], _ => True
  | a :: as, s => ok a s ∧ ∀ t, step a s = some t → Admits step ok as t

theorem runs_append (as bs : List A) (s : S) :
    runs step (as ++ bs) s = (runs step as s).bind (runs step bs) := by
  induction as generalizing s with
  | nil => rfl
  | cons a as ih =>
    simp only [List.cons_append, runs, Option.bind_assoc]
    exact congrArg _ (funext ih)

theorem Admits.cons (first : ok a s) (next : step a s = some t) (rest : Admits step ok as t) :
    Admits step ok (a :: as) s := by
  refine ⟨first, fun u next' => ?_⟩
  obtain rfl : t = u := Option.some.inj (next.symm.trans next')
  exact rest

theorem Admits.left {as bs : List A} (admits : Admits step ok (as ++ bs) s) : Admits step ok as s := by
  induction as generalizing s with
  | nil => trivial
  | cons a as ih => exact ⟨admits.1, fun t next => ih (admits.2 t next)⟩

theorem Admits.right {as bs : List A} (admits : Admits step ok (as ++ bs) s)
    (run : runs step as s = some t) : Admits step ok bs t := by
  induction as generalizing s with
  | nil =>
    cases run
    exact admits
  | cons a as ih =>
    obtain ⟨u, next, rest⟩ := Option.bind_eq_some_iff.mp run
    exact ih (admits.2 u next) rest

theorem Admits.mono {weaker : A → S → Prop} (implied : ∀ a s, ok a s → weaker a s)
    (admits : Admits step ok as s) : Admits step weaker as s := by
  induction as generalizing s with
  | nil => trivial
  | cons a as ih => exact ⟨implied a s admits.1, fun t next => ih (admits.2 t next)⟩

/-- The conditions may be compared where a property holds that admitted steps preserve. -/
theorem Admits.mono_along {weaker : A → S → Prop} (implied : ∀ {a s}, P s → ok a s → weaker a s)
    (preserves : ∀ {a s t}, P s → ok a s → step a s = some t → P t)
    (start : P s) (admits : Admits step ok as s) : Admits step weaker as s := by
  induction as generalizing s with
  | nil => trivial
  | cons a as ih =>
    refine ⟨implied start admits.1, fun t next => ?_⟩
    exact ih (preserves start admits.1 next) (admits.2 t next)

/-- A property that every admitted step preserves holds along every run. -/
theorem runs_invariant
    (preserves : ∀ {a s t}, P s → ok a s → step a s = some t → P t)
    (start : P s) (admits : Admits step ok as s) (run : runs step as s = some t) : P t := by
  induction as generalizing s with
  | nil =>
    obtain rfl : s = t := Option.some.inj run
    exact start
  | cons a as ih =>
    obtain ⟨u, next, rest⟩ := Option.bind_eq_some_iff.mp run
    exact ih (preserves start admits.1 next) (admits.2 u next) rest

/-- A property that every step preserves holds along every run. -/
theorem runs_preserve (preserves : ∀ {a s t}, P s → step a s = some t → P t)
    (start : P s) (run : runs step as s = some t) : P t := by
  have free : ∀ s, Admits step (fun _ _ => True) as s := by
    clear run
    induction as with
    | nil => exact fun _ => trivial
    | cons a as ih => exact fun s => ⟨trivial, fun t _ => ih t⟩
  exact runs_invariant (fun kept _ next => preserves kept next) start (free s) run

/-- If every admitted step succeeds and keeps the property, every run does. -/
theorem runs_total
    (progress : ∀ {a s}, P s → ok a s → ∃ t, step a s = some t ∧ P t)
    (start : P s) (admits : Admits step ok as s) : ∃ t, runs step as s = some t ∧ P t := by
  induction as generalizing s with
  | nil => exact ⟨s, rfl, start⟩
  | cons a as ih =>
    obtain ⟨u, next, kept⟩ := progress start admits.1
    obtain ⟨t, rest, last⟩ := ih kept (admits.2 u next)
    refine ⟨t, ?_, last⟩
    rw [runs, next, Option.bind_some, rest]

/-- The steps that meet `ok`. -/
def guarded (step : A → S → Option S) (ok : A → S → Prop) [∀ a s, Decidable (ok a s)] (a : A) (s : S) : Option S :=
  if ok a s then step a s else none

/-- A run of guarded steps is an admitted run. -/
theorem runs_guarded [∀ a s, Decidable (ok a s)] (run : runs (guarded step ok) as s = some t) :
    Admits step ok as s ∧ runs step as s = some t := by
  induction as generalizing s with
  | nil => exact ⟨trivial, run⟩
  | cons a as ih =>
    obtain ⟨u, next, rest⟩ := Option.bind_eq_some_iff.mp run
    obtain ⟨first, next⟩ := Option.ite_none_right_eq_some.mp next
    obtain ⟨admits, run⟩ := ih rest
    refine ⟨.cons first next admits, ?_⟩
    rw [runs, next]
    exact run

/-- The outputs and the last state of a total step function over a list of inputs. -/
def trace {B : Type*} (f : A → S → B × S) : List A → S → List B × S
  | [], s => ([], s)
  | a :: as, s => ((f a s).1 :: (trace f as (f a s).2).1, (trace f as (f a s).2).2)

/-- If every input gives equal outputs and related states, every list does. -/
theorem trace_simulates {B S' : Type*} {f : A → S → B × S} {g : A → S' → B × S'} {R : S → S' → Prop}
    {ok : A → Prop} {s' : S'}
    (simulates : ∀ {a s s'}, ok a → R s s' → (f a s).1 = (g a s').1 ∧ R (f a s).2 (g a s').2)
    (related : R s s') (allowed : ∀ a ∈ as, ok a) :
    (trace f as s).1 = (trace g as s').1 ∧ R (trace f as s).2 (trace g as s').2 := by
  induction as generalizing s s' with
  | nil => exact ⟨rfl, related⟩
  | cons a as ih =>
    obtain ⟨same, next⟩ := simulates (allowed a List.mem_cons_self) related
    obtain ⟨rest, last⟩ := ih next fun b member => allowed b (List.mem_cons_of_mem a member)
    refine ⟨?_, last⟩
    simp only [trace, same, rest]

/-- What the calls of a list hand back, where each of them returns. -/
def outputs {B : Type*} (f : A → S → Option (B × S)) : List A → S → Option (List B)
  | [], _ => some []
  | a :: as, s => (f a s).bind fun (b, t) => (outputs f as t).map (b :: ·)

/-- If every call on related states hands the same back and leaves related states, or
returns on neither, every list of calls hands the same back. -/
theorem outputs_simulates {B S' : Type*} {f : A → S → Option (B × S)} {g : A → S' → Option (B × S')}
    {R : S → S' → Prop} {s' : S'}
    (simulates : ∀ {a s s'}, R s s' → Option.Rel (fun x y => x.1 = y.1 ∧ R x.2 y.2) (f a s) (g a s'))
    (related : R s s') : outputs f as s = outputs g as s' := by
  induction as generalizing s s' with
  | nil => rfl
  | cons a as ih =>
    have first := simulates (a := a) related
    rw [outputs, outputs]
    generalize f a s = left, g a s' = right at first
    cases first with
    | none => rfl
    | some both => simp only [Option.bind_some, both.1, ih both.2]

theorem outputs_map {B C : Type*} {f : A → S → Option (B × S)} (g : C → A) (cs : List C) (s : S) :
    outputs f (cs.map g) s = outputs (fun c => f (g c)) cs s := by
  induction cs generalizing s with
  | nil => rfl
  | cons c cs ih => simp only [List.map_cons, outputs, ih]

/-- Where later calls hand the same back from every state that the first calls can leave, they do so behind them. -/
theorem outputs_append {B : Type*} {f : A → S → Option (B × S)} {later : Option (List B)}
    (keeps : ∀ {a b s t}, P s → f a s = some (b, t) → P t) (after : ∀ t, P t → outputs f bs t = later)
    (start : P s) : outputs f (as ++ bs) s = (outputs f as s).bind fun out => later.map (out ++ ·) := by
  induction as generalizing s with
  | nil =>
    rw [List.nil_append, after s start]
    cases later with
    | none => rfl
    | some out => rfl
  | cons a as ih =>
    cases next : f a s with
    | none => simp only [List.cons_append, outputs, next, Option.bind_none]
    | some result =>
      obtain ⟨b, t⟩ := result
      simp only [List.cons_append, outputs, next, Option.bind_some, ih (keeps start next)]
      cases outputs f as t with
      | none => rfl
      | some out => cases later <;> rfl

end Transition
