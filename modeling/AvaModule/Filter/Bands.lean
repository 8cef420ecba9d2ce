import AvaModule.Filter.Iir
import AvaModule.Lib.Resonator
import Mathlib.Tactic.FieldSimp

/-! What the filters of filter/iir.h give over a run: the bands add up to the input, and the start is forgotten. -/
namespace AvaModule

/-- The filter as a recursion: what it takes from the last inputs, and what it feeds back. -/
structure Taps where
  b0 : ℚ
  b1 : ℚ
  b2 : ℚ
  a1 : ℚ
  a2 : ℚ

/-- The output that the taps make of an input. -/
def Taps.out (taps : Taps) (iir : Iir) (x : ℚ) : ℚ :=
  taps.b0 * x + taps.b1 * iir.x1 + taps.b2 * iir.x2 - taps.a1 * iir.y1 - taps.a2 * iir.y2

/-- The weight that a filter of order one gives to its input. -/
def alpha1 (cfg : IirCfg) : ℚ := 1 / (1 + 1 / (tau * cfg.fc) * cfg.fs)

section Trigonometry
variable (sin cos : ℚ → ℚ)

def alpha2 (cfg : IirCfg) : ℚ := sin (tau * cfg.fc / cfg.fs) / (2 * cfg.q)

/-- The taps that `iir_init` works out, where its `switch` has a case. -/
def tapsOf (cfg : IirCfg) : Taps :=
  let c := cos (tau * cfg.fc / cfg.fs)
  let a0 := 1 + alpha2 sin cfg
  let fed (b0 b1 b2 : ℚ) : Taps := ⟨b0 / a0, b1 / a0, b2 / a0, -2 * c / a0, (1 - alpha2 sin cfg) / a0⟩
  match cfg.order, cfg.type with
  | .iir1, .lowpass => ⟨alpha1 cfg, 0, 0, -(1 - alpha1 cfg), 0⟩
  | .iir1, .highpass => ⟨1 - alpha1 cfg, -(1 - alpha1 cfg), 0, -(1 - alpha1 cfg), 0⟩
  | .iir2, .lowpass => fed ((1 - c) / 2) ((1 - c) / 2 * 2) ((1 - c) / 2)
  | .iir2, .highpass => fed ((1 + c) / 2) (-((1 + c) / 2) * 2) ((1 + c) / 2)
  | .iir2, .bandpass => fed (alpha2 sin cfg) 0 (-alpha2 sin cfg)
  | .iir1, .bandpass | .other, _ => ⟨0, 0, 0, 0, 0⟩

/-- `iir_init` does not divide by zero: by `TAU * fc` and `1 + rc * fs`, or by `fs`, `2 * q` and `a0`. -/
structure Divides (cfg : IirCfg) : Prop where
  one : cfg.order = .iir1 → cfg.fc ≠ 0 ∧ 1 + 1 / (tau * cfg.fc) * cfg.fs ≠ 0
  two : cfg.order = .iir2 → cfg.fs ≠ 0 ∧ cfg.q ≠ 0 ∧ 1 + alpha2 sin cfg ≠ 0

/-- A configuration that `iir_init` knows. -/
def Known (cfg : IirCfg) : Prop := cfg.order ≠ .other ∧ ¬(cfg.order = .iir1 ∧ cfg.type = .bandpass)

/-- A call of a filter whose `CFG_CHECK` finds it changed, as it always does after zeroed memory. -/
structure Filtered (iir : Iir) (x : ℚ) (iir' : Iir) : Prop where
  cfg : iir'.cfg = iir.cfg
  loCfg : iir'.loCfg = iir.loCfg
  y : iir'.y = (tapsOf sin cos iir.cfg).out iir x
  x1 : iir'.x1 = x
  y1 : iir'.y1 = iir'.y
  x2 : iir.cfg.order = .iir2 → iir'.x2 = iir.x1
  y2 : iir.cfg.order = .iir2 → iir'.y2 = iir.y1

theorem iirExecIn_filtered {iir : Iir} (known : Known iir.cfg) (changed : iir.cfg ≠ iir.loCfg) (x : ℚ) :
    Filtered sin cos iir x (iirExecIn sin cos iir x) := by
  rw [iirExecIn, iirExec, if_pos changed]
  clear changed
  rcases iir with ⟨⟨fs, fc, q, order, type⟩, _⟩
  cases order with
  | other => exact absurd rfl known.1
  | iir1 =>
    cases type with
    | bandpass => exact absurd ⟨rfl, rfl⟩ known.2
    | lowpass =>
      refine ⟨rfl, rfl, ?_, rfl, rfl, by simp, by simp⟩
      simp only [iirInit, iirInit1, Taps.out, tapsOf, alpha1]
      ring
    | highpass =>
      refine ⟨rfl, rfl, ?_, rfl, rfl, by simp, by simp⟩
      simp only [iirInit, iirInit1, Taps.out, tapsOf, alpha1]
      ring
  | iir2 =>
    cases type with
    | lowpass => exact ⟨rfl, rfl, rfl, rfl, rfl, fun _ => rfl, fun _ => rfl⟩
    | highpass => exact ⟨rfl, rfl, rfl, rfl, rfl, fun _ => rfl, fun _ => rfl⟩
    | bandpass => exact ⟨rfl, rfl, rfl, rfl, rfl, fun _ => rfl, fun _ => rfl⟩

/-- A filter after a number of calls, each with its own input. -/
def iirAfter (iir : Iir) (x : Nat → ℚ) : Nat → Iir
  | 0 => iir
  | n + 1 => iirExecIn sin cos (iirAfter iir x n) (x n)

/-- Every call of a run is one of the recursion. -/
theorem iirAfter_filtered {iir : Iir} (known : Known iir.cfg) (changed : iir.cfg ≠ iir.loCfg) (x : Nat → ℚ) (n : Nat) :
    (iirAfter sin cos iir x n).cfg = iir.cfg ∧
      Filtered sin cos (iirAfter sin cos iir x n) (x n) (iirAfter sin cos iir x (n + 1)) := by
  have kept : (iirAfter sin cos iir x n).cfg = iir.cfg ∧ (iirAfter sin cos iir x n).loCfg = iir.loCfg := by
    induction n with
    | zero => exact ⟨rfl, rfl⟩
    | succ n ih =>
      have call := iirExecIn_filtered sin cos (ih.1.symm ▸ known) (by rwa [ih.1, ih.2]) (x n)
      exact ⟨call.cfg.trans ih.1, call.loCfg.trans ih.2⟩
  exact ⟨kept.1, iirExecIn_filtered sin cos (kept.1.symm ▸ known) (by rwa [kept.1, kept.2]) (x n)⟩

/-- The types that each order has. -/
def bands : IirOrder → List IirType
  | .other => []
  | .iir1 => [.lowpass, .highpass]
  | .iir2 => [.lowpass, .highpass, .bandpass]

/-- One filter for each type, alike but for it, and at rest. -/
structure Bank (fs fc q : ℚ) (order : IirOrder) (iir : IirType → Iir) : Prop where
  cfg : ∀ type ∈ bands order, (iir type).cfg = ⟨fs, fc, q, order, type⟩
  changed : ∀ type ∈ bands order, (iir type).cfg ≠ (iir type).loCfg
  rest : ∀ type ∈ bands order, (iir type).x1 = 0 ∧ (iir type).x2 = 0 ∧ (iir type).y1 = 0 ∧ (iir type).y2 = 0

/-- The sum over the bands. -/
def total (order : IirOrder) (y : IirType → ℚ) : ℚ := ((bands order).map y).sum

/-- The bands have seen the same inputs, `u` last and `v` before it, and their outputs have added up to them. -/
structure BandBalance (order : IirOrder) (iir : IirType → Iir) (u v : ℚ) : Prop where
  x1 : ∀ type ∈ bands order, (iir type).x1 = u
  y1 : total order (fun type => (iir type).y1) = u
  x2 : order = .iir2 → ∀ type ∈ bands order, (iir type).x2 = v
  y2 : order = .iir2 → total order (fun type => (iir type).y2) = v

variable {fs fc q u v : ℚ} {order : IirOrder} {iir : IirType → Iir}

/-- The taps of the bands add up to those of the identity. -/
theorem BandBalance.out (real : order ≠ .other) (pole : order = .iir2 → 1 + alpha2 sin ⟨fs, fc, q, order, .lowpass⟩ ≠ 0)
    (balanced : BandBalance order iir u v) (x : ℚ) :
    total order (fun type => (tapsOf sin cos ⟨fs, fc, q, order, type⟩).out (iir type) x) = x := by
  obtain ⟨x1, y1, x2, y2⟩ := balanced
  cases order with
  | other => exact absurd rfl real
  | iir1 =>
    simp only [total, bands, List.map_cons, List.map_nil, List.sum_cons, List.sum_nil, List.forall_mem_cons] at x1 y1 ⊢
    simp only [Taps.out, tapsOf, x1]
    simp only [alpha1]
    linear_combination (1 - 1 / (1 + 1 / (tau * fc) * fs)) * y1
  | iir2 =>
    have x2 := x2 rfl
    have y2 := y2 rfl
    have pole := pole rfl
    simp only [total, bands, List.map_cons, List.map_nil, List.sum_cons, List.sum_nil, List.forall_mem_cons] at x1 x2 y1 y2 ⊢
    simp only [Taps.out, tapsOf, x1, x2]
    simp only [alpha2] at pole ⊢
    generalize sin (tau * fc / fs) / (2 * q) = a at pole ⊢
    generalize cos (tau * fc / fs) = c
    field_simp
    linear_combination 4 * c * y1 - 2 * (1 - a) * y2

/-- One call of each band. -/
theorem BandBalance.call {iir' : IirType → Iir} (real : order ≠ .other)
    (pole : order = .iir2 → 1 + alpha2 sin ⟨fs, fc, q, order, .lowpass⟩ ≠ 0) (balanced : BandBalance order iir u v)
    (cfg : ∀ type ∈ bands order, (iir type).cfg = ⟨fs, fc, q, order, type⟩) (x : ℚ)
    (calls : ∀ type ∈ bands order, Filtered sin cos (iir type) x (iir' type)) :
    total order (fun type => (iir' type).y) = x ∧ BandBalance order iir' x u := by
  have sum : total order (fun type => (iir' type).y) = x := by
    rw [← balanced.out sin cos real pole x]
    refine congrArg List.sum (List.map_congr_left fun type mem => ?_)
    rw [(calls type mem).y, cfg type mem]
  refine ⟨sum, fun type mem => (calls type mem).x1, ?_, fun two type mem => ?_, fun two => ?_⟩
  · rw [← sum]
    exact congrArg List.sum (List.map_congr_left fun type mem => (calls type mem).y1)
  · rw [(calls type mem).x2 (by rw [cfg type mem, two]), balanced.x1 type mem]
  · rw [← balanced.y1]
    exact congrArg List.sum (List.map_congr_left fun type mem => (calls type mem).y2 (by rw [cfg type mem, two]))

/-- In every call of every run from rest, the outputs of the bands of one order add up to the input. -/
theorem bands_sum (real : order ≠ .other) (divides : Divides sin ⟨fs, fc, q, order, .lowpass⟩)
    (bank : Bank fs fc q order iir) (x : Nat → ℚ) (n : Nat) :
    total order (fun type => (iirAfter sin cos (iir type) x (n + 1)).y) = x n := by
  have known : ∀ type ∈ bands order, Known (iir type).cfg := by
    intro type mem
    rw [bank.cfg type mem]
    refine ⟨real, fun one => ?_⟩
    obtain ⟨rfl, rfl⟩ : order = .iir1 ∧ type = .bandpass := one
    exact absurd mem (by decide)
  have runs : ∀ n, ∀ type ∈ bands order, _ := fun n type mem =>
    iirAfter_filtered sin cos (known type mem) (bank.changed type mem) x n
  have call : ∀ n u v, BandBalance order (fun type => iirAfter sin cos (iir type) x n) u v →
      total order (fun type => (iirAfter sin cos (iir type) x (n + 1)).y) = x n ∧
        BandBalance order (fun type => iirAfter sin cos (iir type) x (n + 1)) (x n) u := fun n u v balanced =>
    balanced.call sin cos real (fun two => (divides.two two).2.2)
      (fun type mem => (runs n type mem).1.trans (bank.cfg type mem)) (x n) fun type mem => (runs n type mem).2
  have zeros : ∀ y : IirType → ℚ, (∀ type ∈ bands order, y type = 0) → total order y = 0 := by
    intro y none
    rw [total, List.map_congr_left none]
    simp
  have start : BandBalance order iir 0 0 := {
    x1 := fun type mem => (bank.rest type mem).1
    y1 := zeros _ fun type mem => (bank.rest type mem).2.2.1
    x2 := fun _ type mem => (bank.rest type mem).2.1
    y2 := fun _ => zeros _ fun type mem => (bank.rest type mem).2.2.2 }
  have run : ∃ u v, BandBalance order (fun type => iirAfter sin cos (iir type) x n) u v := by
    induction n with
    | zero => exact ⟨0, 0, start⟩
    | succ n ih =>
      obtain ⟨u, v, balanced⟩ := ih
      exact ⟨x n, u, (call n u v balanced).2⟩
  obtain ⟨u, v, balanced⟩ := run
  exact (call n u v balanced).1

section Forgets
open Resonator
variable {cfg : IirCfg} {f g : Iir} {x : Nat → ℚ}

/-- How far apart two filters are after a number of calls with the same inputs. -/
def apart (f g : Iir) (x : Nat → ℚ) (n : Nat) : ℚ := (iirAfter sin cos f x n).y - (iirAfter sin cos g x n).y

/-- After two calls, a filter of order two is a recursion over the inputs and its own outputs. -/
theorem iirAfter_recent (order : cfg.order = .iir2) (same : f.cfg = cfg) (changed : f.cfg ≠ f.loCfg) (x : Nat → ℚ)
    (n : Nat) : let y := fun n => (iirAfter sin cos f x n).y
    let taps := tapsOf sin cos cfg
    y (n + 3) = taps.b0 * x (n + 2) + taps.b1 * x (n + 1) + taps.b2 * x n - taps.a1 * y (n + 2) - taps.a2 * y (n + 1) := by
  intro y taps
  have known : Known f.cfg := by
    rw [same]
    exact ⟨by rw [order]; decide, fun one => by rw [order] at one; cases one.1⟩
  have run : ∀ n, _ := iirAfter_filtered sin cos known changed x
  have two : ∀ n, (iirAfter sin cos f x n).cfg.order = .iir2 := fun n => by rw [(run n).1, same, order]
  have x2 := (run (n + 1)).2.x2 (two (n + 1))
  have y2 := (run (n + 1)).2.y2 (two (n + 1))
  have last := (run (n + 2)).2.y
  rw [(run (n + 2)).1, same, Taps.out, (run (n + 1)).2.x1, x2, (run n).2.x1, (run (n + 1)).2.y1, y2, (run n).2.y1] at last
  exact last

/-- Filters of order two with one configuration differ by a recursion without inputs, once they have seen two of them. -/
theorem apart_rings (order : cfg.order = .iir2) (divides : Divides sin cfg) (sameF : f.cfg = cfg) (sameG : g.cfg = cfg)
    (changedF : f.cfg ≠ f.loCfg) (changedG : g.cfg ≠ g.loCfg) (x : Nat → ℚ) :
    Rings (alpha2 sin cfg) (cos (tau * cfg.fc / cfg.fs)) fun n => apart sin cos f g x (n + 1) := by
  intro n
  have first := iirAfter_recent sin cos order sameF changedF x n
  have second := iirAfter_recent sin cos order sameG changedG x n
  obtain ⟨b0, b1, b2, taps⟩ : ∃ b0 b1 b2, tapsOf sin cos cfg = ⟨b0, b1, b2,
      -2 * cos (tau * cfg.fc / cfg.fs) / (1 + alpha2 sin cfg), (1 - alpha2 sin cfg) / (1 + alpha2 sin cfg)⟩ := by
    unfold tapsOf
    rw [order]
    cases cfg.type with
    | lowpass | highpass | bandpass => exact ⟨_, _, _, rfl⟩
  have pole := (divides.two order).2.2
  simp only [taps] at first second
  dsimp only [apart]
  rw [first, second]
  field_simp
  ring

/-- Two filters of order two with one configuration, of whatever type and from whatever start, forget it: fed with the
same inputs, their outputs come together geometrically. -/
theorem iir_forgets (order : cfg.order = .iir2) (divides : Divides sin cfg) (damped : 0 < alpha2 sin cfg)
    (inside : cos (tau * cfg.fc / cfg.fs) ^ 2 < 1) (sameF : f.cfg = cfg) (sameG : g.cfg = cfg)
    (changedF : f.cfg ≠ f.loCfg) (changedG : g.cfg ≠ g.loCfg) (x : Nat → ℚ) (k n : Nat) :
    let c := cos (tau * cfg.fc / cfg.fs)
    let err := apart sin cos f g x
    0 < loss (alpha2 sin cfg) c ∧
      (1 + loss (alpha2 sin cfg) c) ^ n * ((1 - c ^ 2) * err (k + 2 * n + 2) ^ 2) ≤ energy c (err (k + 2)) (err (k + 1)) := by
  intro c err
  have rings := apart_rings sin cos order divides sameF sameG changedF changedG x
  have later : Rings (alpha2 sin cfg) c fun n => err (k + n + 1) := fun n => rings (k + n)
  exact ⟨loss_pos damped inside, later.dies damped inside n⟩

end Forgets

end Trigonometry

section Bench

/-- Zeroed filters of order two, one of each type. -/
def band (type : IirType) : Iir := { Iir.zeroed with cfg := ⟨6, 1, 1, .iir2, type⟩ }

theorem band_changed (type : IirType) : (band type).cfg ≠ (band type).loCfg := by
  intro same
  have order : IirOrder.iir2 = .other := congrArg IirCfg.order same
  cases order

theorem band_divides (type : IirType) : Divides (fun _ => 1 / 2) (band type).cfg :=
  ⟨nofun, fun _ => by norm_num [band, alpha2]⟩

theorem bands_sum_band :
    total .iir2 (fun type => (iirAfter (fun _ => 1 / 2) (fun _ => 1 / 3) (band type) (fun n => n) 4).y) = (3 : Nat) := by
  have bank : Bank 6 1 1 .iir2 band := {
    cfg := fun _ _ => rfl
    changed := fun type _ => band_changed type
    rest := fun _ _ => ⟨rfl, rfl, rfl, rfl⟩ }
  exact bands_sum _ _ (by decide) (band_divides .lowpass) bank (fun n => n) 3

/-- A filter that starts from an output of one. -/
theorem iir_forgets_band :
    let err := apart (fun _ => 1 / 2) (fun _ => 1 / 3) { band .lowpass with y1 := 1 } (band .lowpass) fun n => n
    (1 + Resonator.loss (1 / 4) (1 / 3)) ^ 5 * ((1 - (1 / 3) ^ 2) * err 12 ^ 2) ≤
      Resonator.energy (1 / 3) (err 2) (err 1) := by
  have damped : alpha2 (fun _ => 1 / 2) (band .lowpass).cfg = 1 / 4 := by norm_num [alpha2, band]
  have forgets := @iir_forgets (fun _ => 1 / 2) (fun _ => 1 / 3) (band .lowpass).cfg { band .lowpass with y1 := 1 }
    (band .lowpass) rfl (band_divides .lowpass) (by norm_num [damped]) (by norm_num) rfl rfl (band_changed .lowpass)
    (band_changed .lowpass) (fun n => n) 0 5
  rw [damped] at forgets
  exact forgets.2

end Bench

end AvaModule
