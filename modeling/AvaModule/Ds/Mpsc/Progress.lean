import AvaModule.Ds.Mpsc.Invariant
import AvaModule.Ds.Mpsc.Steps
import AvaModule.Lib.Rounds
import Mathlib.Algebra.BigOperators.Intervals
import Mathlib.Algebra.Order.BigOperators.Group.Finset
import Mathlib.Algebra.Group.Action.Defs
import Mathlib.Tactic.Ring

/-! No call on the ring waits for ever. A loop is left as soon as the producer that has locked `wp` or its slot goes on;
an exchange fails only after another call has changed `wp`, which no call does more than twice. -/
namespace AvaModule.MpscRing
open Transition Rounds Finset

variable {T : Target} {s t : St T} {i j : Nat}

/-- A step of a call under way that is not one more round of a waiting loop. -/
def works (act : Act T) (s : St T) : Bool :=
  match act with
  | .producer i _ =>
    match s.pc i with
    | .loadWp _ => ¬Locked s.wp
    | _ => true
  | .consumer =>
    match s.consumer with
    | .loadWp _ => ¬Locked s.wp
    | .loadReserve _ _ i _ => ¬Locked (s.producers i).reservePos
    | _ => true
  | _ => false

/-- A call that begins, or an exchange that may fail without a cause. -/
def begins (act : Act T) (_ : St T) : Bool :=
  match act with
  | .reg _ | .acquire _ _ | .pop | .release _ | .producer _ true => true
  | _ => false

/-- How often a call may still change `wp`. -/
def ProducerPc.changes : ProducerPc T → Nat
  | .loadWp _ | .storeReserve _ _ | .loadRp _ _ | .cas _ _ _ => 2
  | .loadReserve _ _ _ | .clearLock _ _ _ _ | .storeWarpEnd _ _ _ | .unlockWp _ _ _ => 1
  | .out | .setFlag | .idle | .refuse | .hold _ _ _ => 0

/-- The steps that a call has left while `wp` stays as it is: a word that is no longer in `wp` is loaded again. -/
def ProducerPc.left (now : Usz T) : ProducerPc T → Nat
  | .out | .idle | .hold _ _ _ => 0
  | .setFlag | .refuse | .unlockWp _ _ _ => 1
  | .storeWarpEnd _ _ _ => 2
  | .clearLock _ _ _ _ => 3
  | .loadReserve _ _ _ => 4
  | .cas _ wp _ => if now = wp then 5 else 9
  | .loadRp _ wp => if now = wp then 6 else 10
  | .storeReserve _ wp => if now = wp then 7 else 11
  | .loadWp _ => 8

/-- The steps from the end of a scan that has found the ring wrapped to the end of the next one, over `n` slots: it
starts at 0, so that it does not find the ring wrapped. -/
def ahead (n : Nat) (rp : Usz T) : Nat := if rp = 0 then 0 else 2 * n + 7

/-- The steps that a call of the consumer has left. -/
def ConsumerPc.left (n : Nat) : ConsumerPc T → Nat
  | .idle _ _ _ => 0
  | .releaseStore _ _ _ _ => 1
  | .releaseLoad _ _ _ => 2
  | .loadRp => 4 * n + 10
  | .loadWp rp => ahead n rp + 2 * n + 2
  | .loadFlag rp _ i _ => ahead n rp + 2 * (n - i) + 1
  | .loadReserve rp _ i _ => ahead n rp + 2 * (n - (i + 1)) + 2
  | .testWarpEnd _ _ => 2 * n + 7
  | .loadWarpEnd _ _ => 2 * n + 6
  | .testClear _ _ _ => 2 * n + 5
  | .clearWarpEnd => 2 * n + 4
  | .restart => 2 * n + 3

theorem ahead_le (n : Nat) (rp : Usz T) : ahead n rp ≤ 2 * n + 7 := by
  unfold ahead
  split <;> omega

/-- The steps of a producer's call, with those that its changes of `wp` cost the others. -/
def ProducerPc.weight (now : Usz T) (n : Nat) (pc : ProducerPc T) : Nat := pc.left now + 4 * n * pc.changes

def St.weight (s : St T) : Nat :=
  ∑ i ∈ range s.nproducers, (s.pc i).weight s.wp s.nproducers + s.consumer.left s.nproducers

/-- Nothing but producer `i`, its slot and the words of the ring differs. -/
structure Beside (s t : St T) (i : Nat) : Prop where
  nproducers : t.nproducers = s.nproducers
  consumer : t.consumer = s.consumer
  pc : ∀ j, j ≠ i → t.pc j = s.pc j
  producers : ∀ j, j ≠ i → t.producers j = s.producers j

theorem Local.beside (only : Local s t i) : Beside s t i := ⟨only.nproducers, only.consumer, only.pc, only.producers⟩

section Weight
variable {a b : Nat}

/-- A change of `wp` makes a call load it again. -/
theorem left_le (pc : ProducerPc T) (before after : Usz T) : pc.left after ≤ pc.left before + 4 := by
  cases pc with
  | cas msg wp target => by_cases h : after = wp <;> by_cases k : before = wp <;> simp [ProducerPc.left, h, k]
  | loadRp msg wp => by_cases h : after = wp <;> by_cases k : before = wp <;> simp [ProducerPc.left, h, k]
  | storeReserve msg wp => by_cases h : after = wp <;> by_cases k : before = wp <;> simp [ProducerPc.left, h, k]
  | out | setFlag | idle | loadWp | refuse | loadReserve | clearLock | storeWarpEnd | unlockWp | hold =>
    exact Nat.le_add_right _ 4

/-- One summand apart. -/
theorem weight_eq (inside : i < s.nproducers) :
    s.weight = (s.pc i).weight s.wp s.nproducers +
      ∑ j ∈ (range s.nproducers).erase i, (s.pc j).weight s.wp s.nproducers + s.consumer.left s.nproducers := by
  rw [St.weight, ← add_sum_erase _ _ (mem_range.mpr inside)]

variable (beside : Beside s t i) (inside : i < s.nproducers)
include beside inside

theorem Beside.weight_le (wp : t.wp = s.wp)
    (less : (t.pc i).weight s.wp s.nproducers + a ≤ (s.pc i).weight s.wp s.nproducers + b) :
    t.weight + a ≤ s.weight + b := by
  have others : ∑ j ∈ (range s.nproducers).erase i, (t.pc j).weight s.wp s.nproducers =
      ∑ j ∈ (range s.nproducers).erase i, (s.pc j).weight s.wp s.nproducers :=
    sum_congr rfl fun j mem => by rw [beside.pc j (ne_of_mem_erase mem)]
  rw [weight_eq inside, weight_eq (beside.nproducers ▸ inside), beside.nproducers, wp, beside.consumer, others]
  omega

theorem Beside.weight_changed
    (less : (t.pc i).weight t.wp s.nproducers + 4 * s.nproducers + a ≤ (s.pc i).weight s.wp s.nproducers + b) :
    t.weight + a ≤ s.weight + b := by
  have each : ∀ j ∈ (range s.nproducers).erase i,
      (t.pc j).weight t.wp s.nproducers ≤ (s.pc j).weight s.wp s.nproducers + 4 := by
    intro j mem
    rw [beside.pc j (ne_of_mem_erase mem), ProducerPc.weight, ProducerPc.weight]
    have reload := left_le (s.pc j) s.wp t.wp
    omega
  have few : #((range s.nproducers).erase i) * 4 ≤ 4 * s.nproducers := by
    have card := card_erase_le (s := range s.nproducers) (a := i)
    rw [card_range] at card
    omega
  have others := sum_le_sum each
  rw [sum_add_distrib, sum_const, smul_eq_mul] at others
  rw [weight_eq inside, weight_eq (beside.nproducers ▸ inside), beside.nproducers, beside.consumer]
  omega

end Weight

section Going

/-- The word that a producer has loaded and not yet exchanged. -/
def ProducerPc.loaded : ProducerPc T → Option (Usz T)
  | .storeReserve _ wp | .loadRp _ wp | .cas _ wp _ => some wp
  | _ => none

/-- Where the lock bit of a slot can be set. -/
def ProducerPc.mayLock : ProducerPc T → Bool
  | .loadWp _ | .storeReserve _ _ | .loadRp _ _ | .cas _ _ _ | .refuse | .loadReserve _ _ _ | .clearLock _ _ _ _ => true
  | _ => false

/-- What a producer has loaded is not locked, and its slot only in a call that goes on to unlock it. -/
structure Sound (slot : MpscP T) (pc : ProducerPc T) : Prop where
  loaded : ∀ wp, pc.loaded = some wp → ¬Locked wp
  slot : Locked slot.reservePos → pc.mayLock = true

/-- Whoever has set a lock bit is in a call that clears it. -/
structure Going (s : St T) : Prop where
  outside : ∀ i, s.nproducers ≤ i → s.pc i = .out
  sound : ∀ i, Sound (s.producers i) (s.pc i)
  held : Locked s.wp → ∃ i, (s.pc i).wrapping ≠ none
  locks : ∀ i, (s.pc i).wrapping ≠ none → Locked s.wp
  alone : ∀ i j, (s.pc i).wrapping ≠ none → (s.pc j).wrapping ≠ none → i = j

variable {spurious : Bool} {act : Act T}

theorem Going.inside (going : Going s) (present : s.pc i ≠ .out) : i < s.nproducers := by
  by_contra beyond
  exact present (going.outside i (Nat.not_lt.mp beyond))

section Step
variable (going : Going s) (beside : Beside s t i) (inside : i < s.nproducers) (sound : Sound (t.producers i) (t.pc i))
include going beside inside sound

/-- A step that leaves `wp` alone. -/
theorem Going.kept (wp : t.wp = s.wp) (wrapping : (t.pc i).wrapping = none ↔ (s.pc i).wrapping = none) : Going t := by
  have wraps : ∀ j, (t.pc j).wrapping ≠ none ↔ (s.pc j).wrapping ≠ none := by
    intro j
    by_cases self : j = i
    · rw [self, ne_eq, wrapping]
    · rw [beside.pc j self]
  refine ⟨?_, ?_, ?_, ?_, ?_⟩
  · intro j beyond
    rw [beside.nproducers] at beyond
    exact (beside.pc j (by omega)).trans (going.outside j beyond)
  · intro j
    by_cases self : j = i
    · exact self ▸ sound
    · rw [beside.pc j self, beside.producers j self]
      exact going.sound j
  · intro locked
    obtain ⟨j, wraps_j⟩ := going.held (wp ▸ locked)
    exact ⟨j, (wraps j).mpr wraps_j⟩
  · intro j wraps_j
    exact wp ▸ going.locks j ((wraps j).mp wraps_j)
  · exact fun j k wraps_j wraps_k => going.alone j k ((wraps j).mp wraps_j) ((wraps k).mp wraps_k)

/-- A step that writes `wp` while no other producer has locked it. -/
theorem Going.changed (free : ∀ j, j ≠ i → (s.pc j).wrapping = none) (locked : Locked t.wp ↔ (t.pc i).wrapping ≠ none) :
    Going t := by
  have only : ∀ j, (t.pc j).wrapping ≠ none → j = i := by
    intro j wraps
    by_contra other
    rw [beside.pc j other] at wraps
    exact wraps (free j other)
  refine ⟨?_, ?_, fun set => ⟨i, locked.mp set⟩, ?_, ?_⟩
  · intro j beyond
    rw [beside.nproducers] at beyond
    exact (beside.pc j (by omega)).trans (going.outside j beyond)
  · intro j
    by_cases self : j = i
    · exact self ▸ sound
    · rw [beside.pc j self, beside.producers j self]
      exact going.sound j
  · exact fun j wraps => locked.mpr (only j wraps ▸ wraps)
  · exact fun j k wraps_j wraps_k => (only j wraps_j).trans (only k wraps_k).symm

end Step

/-- What a call, or an exchange that fails without a cause, puts on the potential. -/
def cost (n : Nat) : Nat := 8 * n + 10

/-- The step keeps the lock bits accounted for, and takes from the potential what it works. -/
structure Pays (act : Act T) (s t : St T) : Prop where
  going : Going t
  nproducers : t.nproducers = s.nproducers
  weight : t.weight + (works act s).toNat ≤ s.weight + cost s.nproducers * (begins act s).toNat

theorem Pays.lower (going : Going t) (same : t.nproducers = s.nproducers) (lower : t.weight < s.weight) :
    Pays act s t := by
  have work := (works act s).toNat_le
  exact ⟨going, same, by omega⟩

section Step
variable (going : Going s) (beside : Beside s t i) (wp : t.wp = s.wp) {was now : ProducerPc T} (pc : s.pc i = was)
  (pc' : t.pc i = now) (inside : i < s.nproducers) (sound : Sound (t.producers i) now)
  (wrapping : now.wrapping = none ↔ was.wrapping = none)
include going beside wp pc pc' inside sound wrapping

/-- A step of a producer that leaves `wp` alone. -/
theorem Going.pays (less : now.weight s.wp s.nproducers + (works act s).toNat ≤
    was.weight s.wp s.nproducers + cost s.nproducers * (begins act s).toNat) : Pays act s t := by
  subst pc pc'
  exact ⟨going.kept beside inside sound wp wrapping, beside.nproducers, beside.weight_le inside wp less⟩

theorem Going.goesOn (less : now.weight s.wp s.nproducers < was.weight s.wp s.nproducers) : Pays act s t := by
  have work := (works act s).toNat_le
  exact going.pays beside wp pc pc' inside sound wrapping (by omega)

end Step

section Sound
variable {slot : MpscP T} {pc : ProducerPc T}

theorem Sound.free (loaded : pc.loaded = none) (free : ¬Locked slot.reservePos) : Sound slot pc where
  loaded wp some := by
    rw [loaded] at some
    cases some
  slot locked := absurd locked free

theorem Sound.may (loaded : pc.loaded = none) (may : pc.mayLock = true) : Sound slot pc where
  loaded wp some := by
    rw [loaded] at some
    cases some
  slot _ := may

theorem Sound.holds {wp : Usz T} (unlocked : ¬Locked wp) (loaded : pc.loaded = some wp) (may : pc.mayLock = true) :
    Sound slot pc where
  loaded word some := by
    rw [loaded] at some
    cases some
    exact unlocked
  slot _ := may

/-- Where a slot must not be locked, it is not. -/
theorem Sound.unlocked (sound : Sound slot pc) (may : pc.mayLock = false) : ¬Locked slot.reservePos := by
  intro locked
  rw [sound.slot locked] at may
  cases may

theorem Sound.unlocked_flag (sound : Sound (s.producers i) pc) (may : pc.mayLock = false) (flag : Bool) :
    ¬Locked ((s.setFlag i flag).producers i).reservePos := by
  rw [setFlag_self]
  exact sound.unlocked may

theorem setReserve_unlocked (s : St T) (i : Nat) : ¬Locked ((s.setReserve i (offsetMax T)).producers i).reservePos := by
  rw [setReserve_self]
  exact offsetMax_unlocked

end Sound

theorem producer_pays (going : Going s) (run : producerStep s i spurious = some t) :
    Pays (.producer i spurious) s t := by
  have sound := going.sound i
  have inside (present : s.pc i ≠ .out) : i < s.nproducers := going.inside present
  cases pc : s.pc i with
  | out | idle | hold => simp [producerStep, pc] at run
  | setFlag =>
    simp only [producerStep, pc, Option.some.injEq] at run
    subst run
    rw [pc] at sound inside
    have free := sound.unlocked_flag rfl true
    exact going.goesOn (setFlag_local s i _ _).beside rfl pc (setPc_pc _ _ _) (inside (by simp)) (.free rfl free) Iff.rfl
      (by simp [ProducerPc.weight, ProducerPc.left, ProducerPc.changes])
  | loadWp msg =>
    simp only [producerStep, pc] at run
    rw [pc] at sound inside
    split at run
    next locked =>
      cases run
      exact ⟨going, rfl, by simp [works, pc, locked]⟩
    next unlocked =>
      cases run
      refine going.goesOn ⟨rfl, rfl, fun _ ne => Function.update_of_ne ne _ _, fun _ _ => rfl⟩ rfl pc (setPc_pc _ _ _)
        (inside (by simp)) (.holds unlocked rfl rfl) Iff.rfl ?_
      simp [ProducerPc.weight, ProducerPc.left, ProducerPc.changes]
  | storeReserve msg wp =>
    simp only [producerStep, pc, Option.some.injEq] at run
    subst run
    rw [pc] at sound inside
    refine going.goesOn (setReserve_local s i _ _).beside rfl pc (setPc_pc _ _ _) (inside (by simp))
      (.holds (sound.loaded wp rfl) rfl rfl) Iff.rfl ?_
    by_cases fresh : s.wp = wp <;> simp [fresh, ProducerPc.weight, ProducerPc.left, ProducerPc.changes]
  | loadRp msg wp =>
    simp only [producerStep, pc] at run
    rw [pc] at sound inside
    split at run
    next =>
      cases run
      refine going.goesOn (setPc_local s i _).beside rfl pc (setPc_pc _ _ _) (inside (by simp)) (.may rfl rfl) Iff.rfl ?_
      by_cases fresh : s.wp = wp <;> simp [fresh, ProducerPc.weight, ProducerPc.left, ProducerPc.changes] <;> omega
    next target accepted =>
      cases run
      refine going.goesOn (setPc_local s i _).beside rfl pc (setPc_pc _ _ _) (inside (by simp))
        (.holds (sound.loaded wp rfl) rfl rfl) Iff.rfl ?_
      by_cases fresh : s.wp = wp <;> simp [fresh, ProducerPc.weight, ProducerPc.left, ProducerPc.changes]
  | refuse =>
    simp only [producerStep, pc, Option.some.injEq] at run
    subst run
    rw [pc] at inside
    have free := setReserve_unlocked s i
    exact going.goesOn (setReserve_local s i _ _).beside rfl pc (setPc_pc _ _ _) (inside (by simp)) (.free rfl free) Iff.rfl
      (by simp [ProducerPc.weight, ProducerPc.left, ProducerPc.changes])
  | cas msg wp target =>
    simp only [producerStep, pc] at run
    rw [pc] at sound inside
    have present := inside (by simp)
    split at run
    next equal =>
      obtain ⟨same, rfl⟩ := equal
      cases run
      have beside : Beside s (s.exchanged i msg wp target) i :=
        ⟨rfl, rfl, fun _ ne => Function.update_of_ne ne _ _, fun _ _ => rfl⟩
      have now : (s.exchanged i msg wp target).pc i = .loadReserve msg (wp &&& offsetMask T) target := exchanged_pc s i msg wp target
      refine .lower (going.changed beside present (now ▸ .may rfl rfl) ?_ ?_) rfl
        (beside.weight_changed (a := 1) (b := 0) present ?_)
      · intro j _
        by_contra wraps
        exact sound.loaded wp rfl (same ▸ going.locks j wraps)
      · rw [now, ProducerPc.wrapping]
        change Locked target ↔ _
        by_cases locked : Locked target <;> simp [locked]
      · rw [now, pc]
        simp [ProducerPc.weight, ProducerPc.left, ProducerPc.changes, same]
        omega
    next differs =>
      cases run
      have only := setPc_local s i (.loadWp msg)
      by_cases stale : s.wp = wp
      · have cause : spurious = true := by
          by_contra none
          exact differs ⟨stale, Bool.eq_false_iff.mpr none⟩
        subst cause
        refine going.pays only.beside rfl pc (setPc_pc _ _ _) present (.may rfl rfl) Iff.rfl ?_
        simp [works, begins, pc, stale, cost, ProducerPc.weight, ProducerPc.left, ProducerPc.changes]
        omega
      · refine going.goesOn only.beside rfl pc (setPc_pc _ _ _) present (.may rfl rfl) Iff.rfl ?_
        simp [stale, ProducerPc.weight, ProducerPc.left, ProducerPc.changes]
  | loadReserve msg off target =>
    simp only [producerStep, pc, Option.some.injEq] at run
    subst run
    rw [pc] at inside
    exact going.goesOn (setPc_local s i _).beside rfl pc (setPc_pc _ _ _) (inside (by simp)) (.may rfl rfl) Iff.rfl
      (by simp [ProducerPc.weight, ProducerPc.left, ProducerPc.changes])
  | clearLock msg off target reservePos =>
    simp only [producerStep, pc] at run
    rw [pc] at inside
    have free : ¬Locked (((s.setReserve i (reservePos &&& ~~~wrapLockBit T)).producers i).reservePos) := by
      rw [setReserve_self]
      exact not_lock_unlocked reservePos
    split at run
    next locked =>
      cases run
      refine going.goesOn (setReserve_local s i _ _).beside rfl pc (setPc_pc _ _ _) (inside (by simp)) (.free rfl free) ?_
        (by simp [ProducerPc.weight, ProducerPc.left, ProducerPc.changes])
      simp [ProducerPc.wrapping, locked]
    next unlocked =>
      cases run
      refine going.goesOn ⟨rfl, rfl, fun _ ne => Function.update_of_ne ne _ _, fun _ ne => Function.update_of_ne ne _ _⟩ rfl pc
        (setPc_pc _ _ _) (inside (by simp)) (.free rfl free) ?_
        (by simp [ProducerPc.weight, ProducerPc.left, ProducerPc.changes])
      simp [ProducerPc.wrapping, unlocked]
  | storeWarpEnd msg off target =>
    simp only [producerStep, pc, Option.some.injEq] at run
    subst run
    rw [pc] at sound inside
    have free := sound.unlocked rfl
    refine going.goesOn ⟨rfl, rfl, fun _ ne => Function.update_of_ne ne _ _, fun _ _ => rfl⟩ rfl pc (setPc_pc _ _ _)
      (inside (by simp)) (.free rfl free) ?_ (by simp [ProducerPc.weight, ProducerPc.left, ProducerPc.changes])
    simp [ProducerPc.wrapping]
  | unlockWp msg off target =>
    simp only [producerStep, pc, Option.some.injEq] at run
    subst run
    rw [pc] at sound inside
    have free := sound.unlocked rfl
    have beside : Beside s { s.returned i msg 0 with wp := target &&& ~~~wrapLockBit T } i :=
      ⟨rfl, rfl, fun _ ne => Function.update_of_ne ne _ _, fun _ _ => rfl⟩
    have now : (s.returned i msg 0).pc i = .hold msg 0 0 := setPc_pc _ _ _
    refine .lower (going.changed beside (inside (by simp)) (now ▸ .free rfl free) ?_ ?_) rfl
      (beside.weight_changed (a := 1) (b := 0) (inside (by simp)) ?_)
    · intro j other
      by_contra wraps
      exact other (going.alone j i wraps (by simp [pc, ProducerPc.wrapping]))
    · change Locked (target &&& ~~~wrapLockBit T) ↔ ((s.returned i msg 0).pc i).wrapping ≠ none
      rw [now]
      exact iff_of_false (not_lock_unlocked target) fun wraps => wraps rfl
    · change ((s.returned i msg 0).pc i).weight _ _ + _ + _ ≤ _
      rw [now, pc]
      simp [ProducerPc.weight, ProducerPc.left, ProducerPc.changes]

/-- A step of the consumer that does not wait brings it on. -/
theorem consumer_left (run : consumerStep s = some t) :
    t.consumer.left s.nproducers + (works .consumer s).toNat ≤ s.consumer.left s.nproducers := by
  unfold consumerStep at run
  split at run
  next => cases run
  next pc =>
    cases run
    have pass := ahead_le s.nproducers s.rp
    simp only [works, pc, ConsumerPc.left, Bool.toNat_true]
    omega
  next rp pc =>
    split at run
    next locked =>
      cases run
      simp [works, pc, locked]
    next unlocked =>
      dsimp only at run
      split at run
      next =>
        cases run
        simp [works, pc, unlocked, ConsumerPc.left]
      next =>
        cases run
        simp [works, pc, unlocked, ConsumerPc.left]
  next rp wp i ready pc =>
    split at run
    next inside =>
      split at run
      next =>
        cases run
        simp [works, pc, ConsumerPc.left]
        omega
      next =>
        cases run
        simp [works, pc, ConsumerPc.left]
        omega
    next beyond =>
      split at run
      next wrap =>
        cases run
        have some : rp ≠ 0 := by
          rintro rfl
          exact absurd wrap (by simp)
        have pass : ahead s.nproducers rp = 2 * s.nproducers + 7 := if_neg some
        simp only [works, pc, ConsumerPc.left, Bool.toNat_true]
        omega
      next =>
        cases run
        simp only [works, pc, ConsumerPc.left, Bool.toNat_true]
        omega
  next rp wp i ready pc =>
    dsimp only at run
    split at run
    next locked =>
      cases run
      simp [works, pc, locked]
    next unlocked =>
      split at run
      next =>
        cases run
        simp [works, pc, unlocked, ConsumerPc.left]
      next =>
        cases run
        simp [works, pc, unlocked, ConsumerPc.left]
  next pc =>
    split at run <;> cases run <;> simp [works, pc, ConsumerPc.left]
  next pc =>
    cases run
    simp [works, pc, ConsumerPc.left]
  next pc =>
    split at run
    next => split at run <;> cases run <;> simp [works, pc, ConsumerPc.left]
    next =>
      cases run
      simp [works, pc, ConsumerPc.left]
  next pc =>
    cases run
    simp [works, pc, ConsumerPc.left]
  next pc =>
    cases run
    simp [works, pc, ConsumerPc.left, ahead]
  next pc =>
    cases run
    simp [works, pc, ConsumerPc.left]
  next pc =>
    cases run
    simp [works, pc, ConsumerPc.left]

/-- A step of the consumer, that only writes words of its own. -/
theorem Going.aside (going : Going s) (nproducers : t.nproducers = s.nproducers) (pc : t.pc = s.pc)
    (producers : t.producers = s.producers) (wp : t.wp = s.wp)
    (less : t.consumer.left s.nproducers + (works act s).toNat ≤
      s.consumer.left s.nproducers + cost s.nproducers * (begins act s).toNat) : Pays act s t := by
  refine ⟨⟨?_, ?_, ?_, ?_, ?_⟩, nproducers, ?_⟩
  · rw [nproducers, pc]
    exact going.outside
  · rw [producers, pc]
    exact going.sound
  · rw [wp, pc]
    exact going.held
  · rw [wp, pc]
    exact going.locks
  · rw [pc]
    exact going.alone
  · rw [St.weight, St.weight, nproducers, pc, wp]
    omega

theorem consumer_pays (going : Going s) (run : consumerStep s = some t) : Pays .consumer s t := by
  have less := consumer_left run
  cases consumer_move run <;> exact going.aside rfl rfl rfl rfl less

theorem step_pays (going : Going s) (run : step act s = some t) : Pays act s t := by
  cases act with
  | reg i =>
    have free := setReserve_unlocked s i
    simp only [step] at run
    split at run
    next pc =>
      obtain ⟨present, rfl⟩ := Option.ite_none_right_eq_some.mp run |>.imp_right Option.some.inj
      exact going.pays (setReserve_local s i _ _).beside rfl pc (setPc_pc _ _ _) present (.free rfl free) Iff.rfl
        (by simp [works, begins, cost, ProducerPc.weight, ProducerPc.left, ProducerPc.changes])
    next pc =>
      obtain ⟨present, rfl⟩ := Option.ite_none_right_eq_some.mp run |>.imp_right Option.some.inj
      exact going.pays (setReserve_local s i _ _).beside rfl pc (setPc_pc _ _ _) present (.free rfl free) Iff.rfl
        (by simp [works, begins, cost, ProducerPc.weight, ProducerPc.left, ProducerPc.changes])
    next => cases run
  | unreg i =>
    simp only [step] at run
    split at run
    next pc =>
      cases run
      have sound := going.sound i
      have inside := going.inside (i := i) (by simp [pc])
      rw [pc] at sound
      have free := sound.unlocked_flag rfl false
      exact going.pays (setFlag_local s i _ _).beside rfl pc (setPc_pc _ _ _) inside (.free rfl free) Iff.rfl
        (by simp [works, ProducerPc.weight, ProducerPc.left, ProducerPc.changes])
    next => cases run
  | acquire i msg =>
    simp only [step] at run
    split at run
    next pc =>
      obtain ⟨size, rfl⟩ := Option.ite_none_right_eq_some.mp run |>.imp_right Option.some.inj
      refine going.pays (setPc_local s i _).beside rfl pc (setPc_pc _ _ _) (going.inside (by simp [pc])) (.may rfl rfl)
        Iff.rfl ?_
      simp [works, begins, cost, ProducerPc.weight, ProducerPc.left, ProducerPc.changes]
      omega
    next => cases run
  | fill i =>
    simp only [step] at run
    split at run
    next msg off filled pc =>
      obtain ⟨room, rfl⟩ := Option.ite_none_right_eq_some.mp run |>.imp_right Option.some.inj
      have sound := going.sound i
      have inside := going.inside (i := i) (by simp [pc])
      rw [pc] at sound
      have free := sound.unlocked rfl
      exact going.pays ⟨rfl, rfl, fun _ ne => Function.update_of_ne ne _ _, fun _ _ => rfl⟩ rfl pc (setPc_pc _ _ _)
        inside (.free rfl free) Iff.rfl (by simp [works, ProducerPc.weight, ProducerPc.left, ProducerPc.changes])
    next => cases run
  | push i =>
    have free := setReserve_unlocked s i
    simp only [step] at run
    split at run
    next pc =>
      cases run
      exact going.pays (setReserve_local s i _ _).beside rfl pc (setPc_pc _ _ _) (going.inside (by simp [pc]))
        (.free rfl free) Iff.rfl (by simp [works, ProducerPc.weight, ProducerPc.left, ProducerPc.changes])
    next => cases run
  | producer i spurious => exact producer_pays going run
  | pop =>
    simp only [step] at run
    split at run
    next pc =>
      cases run
      refine going.aside rfl rfl rfl rfl ?_
      simp [works, begins, cost, pc, ConsumerPc.left]
      omega
    next => cases run
  | copy =>
    simp only [step] at run
    split at run
    next pc =>
      obtain ⟨room, rfl⟩ := Option.ite_none_right_eq_some.mp run |>.imp_right Option.some.inj
      exact going.aside rfl rfl rfl rfl (by simp [works, pc, ConsumerPc.left])
    next => cases run
  | release size =>
    simp only [step] at run
    split at run
    next pc =>
      obtain ⟨part, rfl⟩ := Option.ite_none_right_eq_some.mp run |>.imp_right Option.some.inj
      refine going.aside rfl rfl rfl rfl ?_
      simp [works, begins, cost, pc, ConsumerPc.left]
    next => cases run
  | consumer => exact consumer_pays going run

end Going

section Rounds

/-- The next step of a call under way. -/
def resumes : Act T → Prop
  | .producer _ false | .consumer => True
  | _ => False

/-- A participant takes its next step if it has one. -/
def turn (act : Act T) (s : St T) : St T := (step act s).getD s

/-- The next steps of all producers and of the consumer. -/
def Leads (n : Nat) (act : Act T) : Prop := act = .consumer ∨ ∃ i < n, act = .producer i false

/-- All of them have a turn, and no call begins. -/
def Fair (n : Nat) (round : List (Act T)) : Prop := (∀ act ∈ round, resumes act) ∧ ∀ act, Leads n act → act ∈ round

/-- Out of a call, or with a region. -/
def ProducerPc.rests (pc : ProducerPc T) : Prop := pc = .out ∨ pc = .idle ∨ ∃ msg off filled, pc = .hold msg off filled

/-- No call is under way. -/
structure AllReturned (s : St T) : Prop where
  producers : ∀ i, (s.pc i).rests
  consumer : ∃ off avail copied, s.consumer = .idle off avail copied

/-- Waiting leaves everything as it is. -/
theorem waits {act : Act T} (resumed : resumes act) (waiting : works act s = false) (run : step act s = some t) : t = s := by
  cases act with
  | producer i spurious =>
    simp only [works] at waiting
    split at waiting
    next msg pc =>
      have locked : Locked s.wp := by simpa using waiting
      simp only [step, producerStep, pc, if_pos locked, Option.some.injEq] at run
      exact run.symm
    next => cases waiting
  | consumer =>
    simp only [works] at waiting
    split at waiting
    next rp pc =>
      have locked : Locked s.wp := by simpa using waiting
      simp only [step, consumerStep, pc, if_pos locked, Option.some.injEq] at run
      exact run.symm
    next i _ pc =>
      have locked : Locked (s.producers i).reservePos := by simpa using waiting
      simp only [step, consumerStep, pc, if_pos locked, Option.some.injEq] at run
      exact run.symm
    next => cases waiting
  | reg | unreg | acquire | fill | push | pop | copy | release => cases resumed

theorem Pays.falls {act : Act T} (resumed : resumes act) (pays : Pays act s t) (working : works act s = true) :
    t.weight < s.weight := by
  have free : begins act s = false := by
    cases act with
    | producer i spurious =>
      cases spurious with
      | true => cases resumed
      | false => rfl
    | consumer => rfl
    | reg | unreg | acquire | fill | push | pop | copy | release => cases resumed
  have weight := pays.weight
  rw [free, working, Bool.toNat_false, Bool.toNat_true] at weight
  omega

theorem turns_fall (n : Nat) :
    Falls (turn (T := T)) resumes (fun s => Going s ∧ s.nproducers = n) St.weight where
  keeps {act s} _ kept := by
    unfold turn
    cases next : step act s with
    | none => exact kept
    | some t =>
      have pays := step_pays kept.1 next
      exact ⟨pays.going, pays.nproducers.trans kept.2⟩
  falls {act s} resumed kept := by
    unfold turn
    cases next : step act s with
    | none => exact .inl rfl
    | some t =>
      cases working : works act s with
      | false => exact .inl (waits resumed working next)
      | true => exact .inr ((step_pays kept.1 next).falls resumed working)

theorem moves {act : Act T} (going : Going s) (resumed : resumes act) (next : step act s = some t)
    (working : works act s = true) : (turn act s).weight < s.weight := by
  have moved : turn act s = t := by rw [turn, next, Option.getD_some]
  rw [moved]
  exact (step_pays going next).falls resumed working

theorem producer_next (calling : ¬(s.pc i).rests) (spurious : Bool) : ∃ t, step (.producer i spurious) s = some t := by
  rw [← Option.isSome_iff_exists, step, producerStep]
  cases pc : s.pc i with
  | out => exact absurd (.inl pc) calling
  | idle => exact absurd (.inr (.inl pc)) calling
  | hold msg off filled => exact absurd (.inr (.inr ⟨msg, off, filled, pc⟩)) calling
  | setFlag | storeReserve | refuse | loadReserve | storeWarpEnd | unlockWp => rfl
  | loadWp | loadRp | cas | clearLock =>
    dsimp only
    split <;> rfl

theorem consumer_next (calling : ¬∃ off avail copied, s.consumer = .idle off avail copied) :
    ∃ t, step .consumer s = some t := by
  rw [← Option.isSome_iff_exists, step, consumerStep]
  cases pc : s.consumer with
  | idle off avail copied => exact absurd ⟨off, avail, copied, pc⟩ calling
  | loadRp | loadWarpEnd | clearWarpEnd | restart | releaseLoad | releaseStore => rfl
  | loadWp | testWarpEnd | testClear | loadFlag | loadReserve =>
    dsimp only
    repeat' split
    all_goals rfl

/-- A producer that has locked `wp` goes on to unlock it; while `wp` is not locked, every producer goes on; and when
none has a call left, no slot is locked, and the consumer goes on. -/
theorem returned_or_moves (going : Going s) (left : ¬AllReturned s) :
    ∃ act, Leads s.nproducers act ∧ (turn act s).weight < s.weight := by
  have producer (i) (calling : ¬(s.pc i).rests) (working : works (.producer i false) s = true) :
      ∃ act, Leads s.nproducers act ∧ (turn act s).weight < s.weight := by
    obtain ⟨t, next⟩ := producer_next calling false
    have inside := going.inside fun out => calling (.inl out)
    exact ⟨_, .inr ⟨i, inside, rfl⟩, moves going trivial next working⟩
  by_cases locked : Locked s.wp
  · obtain ⟨i, wraps⟩ := going.held locked
    apply producer i
    · rintro (pc | pc | ⟨msg, off, filled, pc⟩) <;> exact wraps (by rw [pc]; rfl)
    · cases pc : s.pc i with
      | loadWp msg => exact absurd (by rw [pc]; rfl) wraps
      | out | setFlag | idle | storeReserve | loadRp | refuse | cas | loadReserve | clearLock | storeWarpEnd | unlockWp | hold =>
        simp [works, pc]
  · by_cases calling : ∃ i, ¬(s.pc i).rests
    · obtain ⟨i, calling⟩ := calling
      apply producer i calling
      cases pc : s.pc i with
      | loadWp msg => simp [works, pc, locked]
      | out | setFlag | idle | storeReserve | loadRp | refuse | cas | loadReserve | clearLock | storeWarpEnd | unlockWp | hold =>
        simp [works, pc]
    · have rest : ∀ i, (s.pc i).rests := fun i => not_not.mp fun call => calling ⟨i, call⟩
      obtain ⟨t, next⟩ := consumer_next fun idle => left ⟨rest, idle⟩
      refine ⟨_, .inl rfl, moves going trivial next ?_⟩
      have free : ∀ i, ¬Locked (s.producers i).reservePos := by
        intro i set
        have may := (going.sound i).slot set
        rcases rest i with pc | pc | ⟨msg, off, filled, pc⟩ <;> rw [pc] at may <;> cases may
      cases pc : s.consumer with
      | loadWp rp => simp [works, pc, locked]
      | loadReserve rp wp i ready => simp [works, pc, free]
      | idle | loadRp | loadFlag | testWarpEnd | loadWarpEnd | testClear | clearWarpEnd | restart | releaseLoad
      | releaseStore => simp [works, pc]

theorem AllReturned.stays {act : Act T} (returned : AllReturned s) (resumed : resumes act) : turn act s = s := by
  cases act with
  | producer i spurious =>
    rcases returned.producers i with pc | pc | ⟨msg, off, filled, pc⟩ <;> simp [turn, step, producerStep, pc]
  | consumer =>
    obtain ⟨off, avail, copied, idle⟩ := returned.consumer
    simp [turn, step, consumerStep, idle]
  | reg | unreg | acquire | fill | push | pop | copy | release => cases resumed

/-- All calls together. -/
theorem weight_bound (s : St T) : s.weight ≤ 8 * s.nproducers ^ 2 + 15 * s.nproducers + 10 := by
  have each : ∀ i ∈ range s.nproducers, (s.pc i).weight s.wp s.nproducers ≤ 11 + 8 * s.nproducers := by
    intro i _
    have steps : (s.pc i).left s.wp ≤ 11 := by
      unfold ProducerPc.left
      split <;> (try split) <;> omega
    have changes : (s.pc i).changes ≤ 2 := by
      unfold ProducerPc.changes
      split <;> omega
    have cost := Nat.mul_le_mul_left (4 * s.nproducers) changes
    rw [ProducerPc.weight]
    omega
  have consumer : s.consumer.left s.nproducers ≤ 4 * s.nproducers + 10 := by
    cases s.consumer with
    | loadWp rp | loadFlag rp | loadReserve rp =>
      have pass := ahead_le s.nproducers rp
      simp only [ConsumerPc.left]
      omega
    | idle | loadRp | testWarpEnd | loadWarpEnd | testClear | clearWarpEnd | restart | releaseLoad | releaseStore =>
      simp only [ConsumerPc.left]
      omega
  have sum := sum_le_card_nsmul _ _ _ each
  rw [card_range, smul_eq_mul] at sum
  have square : s.nproducers * (11 + 8 * s.nproducers) = 8 * s.nproducers ^ 2 + 11 * s.nproducers := by ring
  rw [St.weight]
  omega

theorem going_start (buf : Nat → Byte) (cap : Usz T) (n : Nat) : Going (start (fresh buf cap n)) where
  outside _ _ := rfl
  sound _ := .free rfl (by change ¬Locked (0 : Usz T); simp [Locked])
  held locked := absurd locked (by change ¬Locked (0 : Usz T); simp [Locked])
  locks _ wraps := absurd rfl wraps
  alone _ _ wraps := absurd rfl wraps

theorem weight_start (buf : Nat → Byte) (cap : Usz T) (n : Nat) : (start (fresh buf cap n)).weight = 0 := by
  simp [St.weight, start, ProducerPc.weight, ProducerPc.left, ProducerPc.changes, ConsumerPc.left]

variable {buf : Nat → Byte} {cap : Usz T} {n : Nat} {acts : List (Act T)}

/-- However the calls of all participants interleave, the steps in which they do not wait are bounded by the number of
calls; and from every state that is reached every call returns, after enough rounds in which all participants have a
turn. -/
theorem calls_return (run : runs step acts (start (fresh buf cap n)) = some s) :
    count step works acts (start (fresh buf cap n)) ≤ (8 * n + 10) * count step begins acts (start (fresh buf cap n)) ∧
      ∀ rounds : List (List (Act T)), (∀ round ∈ rounds, Fair n round) → 8 * n ^ 2 + 15 * n + 10 ≤ rounds.length →
        AllReturned (turns turn rounds.flatten s) := by
  have begun : Going (start (fresh buf cap n)) ∧ (start (fresh buf cap n)).nproducers = n := ⟨going_start buf cap n, rfl⟩
  have keeps {act : Act T} {s t : St T} (kept : Going s ∧ s.nproducers = n) (next : step act s = some t) :
      (Going t ∧ t.nproducers = n) ∧ t.weight + (works act s).toNat ≤ s.weight + cost n * (begins act s).toNat := by
    have pays := step_pays kept.1 next
    exact ⟨⟨pays.going, pays.nproducers.trans kept.2⟩, kept.2 ▸ pays.weight⟩
  have kept := runs_preserve (fun kept next => (keeps kept next).1) begun run
  have paid := count_le keeps begun run
  rw [weight_start, Nat.zero_add] at paid
  refine ⟨(Nat.le_add_left _ _).trans paid, fun rounds fair enough => ?_⟩
  have moves {s : St T} (kept : Going s ∧ s.nproducers = n) (left : ¬AllReturned s) :
      ∃ act, Leads n act ∧ (turn act s).weight < s.weight := by
    obtain ⟨act, lead, less⟩ := returned_or_moves kept.1 left
    exact ⟨act, kept.2 ▸ lead, less⟩
  have bound := weight_bound s
  rw [kept.2] at bound
  exact (turns_fall n).settles (fun resumed _ returned => returned.stays resumed) moves fair kept (bound.trans enough)

/-- Two producers ask for a byte each while the consumer looks for one. -/
def askTwo : List (Act .mcu) :=
  [.reg 0, .producer 0 false, .reg 1, .producer 1 false, .acquire 0 [7], .acquire 1 [8], .producer 0 false,
    .producer 1 false, .producer 0 false, .pop]

theorem calls_return_two : ∃ s, runs step askTwo (start (fresh (fun _ => 0) 4 2)) = some s ∧ ¬AllReturned s ∧
    AllReturned (turns turn (List.replicate 72 [.consumer, .producer 1 false, .producer 0 false]).flatten s) := by
  obtain ⟨s, run, consumer⟩ : ∃ s, runs step askTwo (start (fresh (fun _ => 0) 4 2)) = some s ∧ s.consumer = .loadRp :=
    ⟨_, rfl, rfl⟩
  have calling : ¬AllReturned s := by
    intro returned
    obtain ⟨off, avail, copied, idle⟩ := returned.consumer
    rw [consumer] at idle
    cases idle
  refine ⟨s, run, calling, (calls_return run).2 _ (fun round mem => ?_) (by simp)⟩
  rw [List.eq_of_mem_replicate mem]
  refine ⟨by simp [resumes], ?_⟩
  rintro act (rfl | ⟨i, inside, rfl⟩)
  · simp
  · obtain rfl | rfl : i = 0 ∨ i = 1 := by omega
    · simp
    · simp

end Rounds

end AvaModule.MpscRing
