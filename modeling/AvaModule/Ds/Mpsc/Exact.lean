import AvaModule.Ds.Mpsc.Sequential
import AvaModule.Ds.Mpsc.Word
import AvaModule.Lib.Transition

/-! When `mpsc_acquire`, called alone, grants what was asked and leaves an exact
write position in `wp`. Neither the capacity nor a size is checked against the
offset field, so the capacity and the sizes are any machine words here. -/
namespace AvaModule.MpscRing
open WrapRing Transition

variable {T : Target} {n : Nat} {off cap rp size target : Usz T}

/-- The ring between calls; `pos` is where the next request is to be placed, and no
call reads it. -/
structure Seq (T : Target) extends Mpsc T where
  pos : Nat

inductive SeqAct (T : Target) where
  | reg (i : Nat)
  | unreg (i : Nat)
  | acquire (i : Nat) (size : Usz T)
  | push (i : Nat)
  | pop
  | release (size : Usz T)

def seqStep (act : SeqAct T) (s : Seq T) : Option (Seq T) :=
  match act with
  | .reg i => some { s with toMpsc := mpscReg s.toMpsc i }
  | .unreg i => some { s with toMpsc := mpscUnreg s.toMpsc i }
  | .acquire i size =>
      match mpscAcquire s.toMpsc i size with
      | none => none
      | some (none, mpsc) => some { s with toMpsc := mpsc }
      | some (some _, mpsc) => some ⟨mpsc, advance s.cap.toNat s.pos size.toNat⟩
  | .push i => some { s with toMpsc := mpscPush s.toMpsc i }
  | .pop => (mpscPop s.toMpsc).map fun (_, mpsc) => { s with toMpsc := mpsc }
  | .release size => some { s with toMpsc := mpscRelease s.toMpsc size }

/-- The wrap counter of `wp`. -/
def counterOf (wp : Usz T) : Nat := (wp &&& wrapCounter T).toNat / (wrapUnit T).toNat

/-- What a granted request returns and leaves in `wp`. -/
structure Exact (s : Seq T) (size off wp : Usz T) : Prop where
  inside : off.toNat + size.toNat ≤ s.cap.toNat
  position : (wp &&& offsetMask T).toNat = advance s.cap.toNat s.pos size.toNat
  below : advance s.cap.toNat s.pos size.toNat < s.cap.toNat
  unlocked : ¬Locked wp
  counter : counterOf wp =
    (counterOf s.wp + if s.cap.toNat ≤ s.pos + size.toNat then 1 else 0) % wraps T

/-- The call returns `-1`, or grants the request exactly. -/
def AcquireExact (s : Seq T) (i : Nat) (size : Usz T) : Prop :=
  match mpscAcquire s.toMpsc i size with
  | none => False
  | some (none, _) => True
  | some (some off, t) => Exact s size off t.wp

/-- The sum does not leave the word; a request that stays inside the ring stays
inside the offset field, or meets the reader; a ring without cells grants nothing;
and a request that passes the end is shorter than the ring and no longer than the
field holds, or meets the reader. -/
structure Spared (T : Target) (cap rp pos size : Nat) : Prop where
  word : pos + size < T.modulus
  inside : pos + size < cap → pos + size ≤ (offsetMask T).toNat ∨ (pos < rp ∧ rp ≤ pos + size)
  ends : pos + size = cap → 0 < cap ∨ rp = 0
  around : cap < pos + size → (size ≤ (offsetMask T).toNat ∧ size < cap) ∨
    (pos < rp ∧ rp ≤ pos + size) ∨ rp ≤ size % ((offsetMask T).toNat + 1)

structure SeqInv (s : Seq T) : Prop where
  word : ∃ n, s.wp = pack n (BitVec.ofNat _ s.pos)
  field : s.pos ≤ (offsetMask T).toNat
  below : s.pos < s.cap.toNat ∨ (s.cap.toNat = 0 ∧ s.pos = 0)

theorem counterOf_pack (small : off.toNat ≤ (offsetMask T).toNat) (n : Nat) :
    counterOf (pack n off) = n % wraps T := by
  rw [counterOf, pack_counter small, toNat_lapWord]
  exact Nat.mul_div_cancel _ unit_pos

theorem or_lapWord_offset (x : Usz T) (n : Nat) :
    ((x ||| lapWord T n) &&& offsetMask T).toNat = x.toNat % ((offsetMask T).toNat + 1) := by
  rw [BitVec.and_or_distrib_right, lapWord_offset, mask_add_one, ← toNat_and_offset]
  simp

section Target
variable (small : off.toNat ≤ (offsetMask T).toNat)
include small

/-- The sum meets the reader ahead of it. -/
theorem acquireTarget_meets (ahead : off.toNat < rp.toNat) (meets : rp.toNat ≤ (off + size).toNat) :
    acquireTarget cap (pack n off) rp size = none := by
  simp only [acquireTarget, pack_offset small]
  exact if_pos ⟨ahead, meets⟩

variable (clear : ¬(off.toNat < rp.toNat ∧ rp.toNat ≤ (off + size).toNat))
include clear

theorem acquireTarget_inside (inside : (off + size).toNat < cap.toNat) :
    acquireTarget cap (pack n off) rp size = some ((off + size) ||| lapWord T n) := by
  have pass : ¬(off < rp ∧ off + size ≥ rp) := clear
  have short : ¬off + size ≥ cap := Nat.not_le.mpr inside
  simp only [acquireTarget, pack_offset small, pack_counter small, if_neg pass, if_neg short]

theorem acquireTarget_ends (ends : (off + size).toNat = cap.toNat) :
    acquireTarget cap (pack n off) rp size = if rp.toNat = 0 then none else some (pack (n + 1) 0) := by
  have pass : ¬(off < rp ∧ off + size ≥ rp) := clear
  have reaches : off + size ≥ cap := Nat.le_of_eq ends.symm
  have exactly : ¬off + size > cap := Nat.not_lt.mpr (Nat.le_of_eq ends)
  have reader : (0 : Usz T) &&& offsetMask T ≥ rp ↔ rp.toNat = 0 := by simp [BitVec.le_def]
  simp only [acquireTarget, pack_offset small, pack_counter small, wrapIncr_lapWord, if_neg pass,
    if_pos reaches, if_neg exactly, reader]
  rfl

theorem acquireTarget_over (past : cap.toNat < (off + size).toNat) :
    acquireTarget cap (pack n off) rp size =
      if rp.toNat ≤ size.toNat % ((offsetMask T).toNat + 1) then none
      else some (wrapLockBit T ||| (size ||| lapWord T (n + 1))) := by
  have pass : ¬(off < rp ∧ off + size ≥ rp) := clear
  have reaches : off + size ≥ cap := Nat.le_of_lt past
  have beyond : off + size > cap := past
  have reader : (wrapLockBit T ||| size) &&& offsetMask T ≥ rp ↔
      rp.toNat ≤ size.toNat % ((offsetMask T).toNat + 1) := by
    rw [lock_offset, ge_iff_le, BitVec.le_def, toNat_and_offset, mask_add_one]
  simp only [acquireTarget, pack_offset small, pack_counter small, wrapIncr_lapWord, if_neg pass,
    if_pos reaches, if_pos beyond, reader, BitVec.or_assoc]

end Target

/-- What the call does with the result of one pass. -/
theorem mpscAcquire_eq {mpsc : Mpsc T} (word : mpsc.wp = pack n off)
    (small : off.toNat ≤ (offsetMask T).toNat) (i : Nat) :
    mpscAcquire mpsc i size = some (match acquireTarget mpsc.cap (pack n off) mpsc.rp size with
      | none => (none, mpsc.setReserve i (offsetMax T))
      | some target =>
          if Locked target then
            (some 0, { mpsc.setReserve i off with warpEnd := off, wp := target &&& ~~~wrapLockBit T })
          else (some off, { mpsc.setReserve i off with wp := target })) := by
  have free := pack_unlocked small n
  have published : (off ||| wrapLockBit T) &&& ~~~wrapLockBit T = off := by
    rw [BitVec.or_comm]
    exact clear_lock (offset_unlocked small)
  simp only [mpscAcquire, mpscGetWp, word, if_neg free, Option.bind_eq_bind, Option.bind_some,
    pack_offset small, published]
  cases acquireTarget mpsc.cap (pack n off) mpsc.rp size with
  | none => rfl
  | some target =>
    dsimp only
    split <;> rfl

section Step
variable {s : Seq T} {i : Nat}

theorem SeqInv.at_pos (inv : SeqInv s) : (BitVec.ofNat T.bits s.pos).toNat = s.pos := by
  have bound := (offsetMask T).isLt
  have field := inv.field
  exact toNat_length (by rw [Target.modulus]; omega)

/-- Both ways a call is granted leave the target without its lock bit. -/
theorem acquireExact_target (inv : SeqInv s) (word : s.wp = pack n (BitVec.ofNat _ s.pos)) :
    AcquireExact s i size ↔
      ∀ target, acquireTarget s.cap (pack n (BitVec.ofNat _ s.pos)) s.rp size = some target →
        Exact s size (if Locked target then 0 else BitVec.ofNat _ s.pos) (target &&& ~~~wrapLockBit T) := by
  have small : (BitVec.ofNat T.bits s.pos).toNat ≤ (offsetMask T).toNat := by
    rw [inv.at_pos]
    exact inv.field
  rw [AcquireExact, mpscAcquire_eq word small]
  cases acquireTarget s.cap (pack n (BitVec.ofNat _ s.pos)) s.rp size with
  | none => simp
  | some target =>
    by_cases locked : Locked target
    · simp [locked]
    · simp [locked, and_not_lock locked]

/-- Where the word is not left, the sum is the position reached. -/
theorem SeqInv.sum (inv : SeqInv s) (word : s.pos + size.toNat < T.modulus) :
    (BitVec.ofNat T.bits s.pos + size).toNat = s.pos + size.toNat := by
  rw [BitVec.toNat_add, inv.at_pos]
  exact Nat.mod_eq_of_lt word

theorem SeqInv.sum_over (inv : SeqInv s) (word : T.modulus ≤ s.pos + size.toNat) :
    (BitVec.ofNat T.bits s.pos + size).toNat + T.modulus = s.pos + size.toNat := by
  have size_lt := size.isLt
  have pos_lt := (BitVec.ofNat T.bits s.pos).isLt
  rw [inv.at_pos] at pos_lt
  rw [Target.modulus] at *
  rw [BitVec.toNat_add, inv.at_pos, Nat.mod_eq_sub_mod word, Nat.mod_eq_of_lt (by omega)]
  omega

/-- An exact word: an offset that fits the field under the counter it should have. -/
theorem exact_pack (inv : SeqInv s) (word : s.wp = pack n (BitVec.ofNat _ s.pos))
    (inside : off.toNat + size.toNat ≤ s.cap.toNat) {x : Usz T} (field : x.toNat ≤ (offsetMask T).toNat)
    (position : x.toNat = advance s.cap.toNat s.pos size.toNat)
    (below : advance s.cap.toNat s.pos size.toNat < s.cap.toNat)
    (laps : m = if s.cap.toNat ≤ s.pos + size.toNat then n + 1 else n) :
    Exact s size off (pack m x) where
  inside := inside
  position := by rw [pack_offset field, position]
  below := below
  unlocked := pack_unlocked field m
  counter := by
    have small : (BitVec.ofNat T.bits s.pos).toNat ≤ (offsetMask T).toNat := by
      rw [inv.at_pos]
      exact inv.field
    rw [counterOf_pack field, word, counterOf_pack small, laps]
    split <;> simp

/-- A word whose field is not the position is not exact. -/
theorem not_exact (target : Usz T) (field : (target &&& offsetMask T).toNat ≠ advance s.cap.toNat s.pos size.toNat) :
    ¬Exact s size off (target &&& ~~~wrapLockBit T) := by
  intro exact
  apply field
  rw [← exact.position, BitVec.and_assoc, BitVec.and_comm (~~~wrapLockBit T)]
  congr 2
  cases T <;> decide

section Request
variable (inv : SeqInv s) (word : s.wp = pack n (BitVec.ofNat _ s.pos))
  (clear : ¬(s.pos < s.rp.toNat ∧ s.rp.toNat ≤ (BitVec.ofNat T.bits s.pos + size).toNat))
include inv word clear

theorem acquireExact_inside (inside : (BitVec.ofNat T.bits s.pos + size).toNat < s.cap.toNat) :
    AcquireExact s i size ↔ Spared T s.cap.toNat s.rp.toNat s.pos size.toNat := by
  have pos := inv.at_pos
  have field := inv.field
  have small : (BitVec.ofNat T.bits s.pos).toNat ≤ (offsetMask T).toNat := by rw [pos]; exact field
  have clear' : ¬((BitVec.ofNat T.bits s.pos).toNat < s.rp.toNat ∧
      s.rp.toNat ≤ (BitVec.ofNat T.bits s.pos + size).toNat) := by rw [pos]; exact clear
  have result := acquireTarget_inside (n := n) small clear' inside
  simp only [acquireExact_target inv word, result, Option.some.injEq, forall_eq']
  rcases Nat.lt_or_ge (s.pos + size.toNat) T.modulus with fits | leaves
  · have sum := inv.sum fits
    rw [sum] at clear inside
    have reached : advance s.cap.toNat s.pos size.toNat = s.pos + size.toNat := if_pos inside
    rcases Nat.lt_or_ge (offsetMask T).toNat (s.pos + size.toNat) with long | short
    · refine iff_of_false (not_exact _ ?_) ?_
      · rw [or_lapWord_offset, sum, reached]
        have := Nat.mod_lt (s.pos + size.toNat) (show 0 < (offsetMask T).toNat + 1 by omega)
        omega
      · intro spared
        rcases spared.inside inside with short | meets
        · omega
        · exact clear meets
    · have unlocked : ¬Locked (pack n (BitVec.ofNat T.bits s.pos + size)) :=
        pack_unlocked (by omega) n
      refine iff_of_true ?_ ⟨fits, fun _ => .inl short, fun ends => by omega, fun past => by omega⟩
      change Exact s size (if Locked (pack n _) then _ else _) (pack n _ &&& _)
      rw [if_neg unlocked, and_not_lock unlocked]
      exact exact_pack inv word (by omega) (by omega) (by omega) (by omega) (if_neg (by omega)).symm
  · refine iff_of_false ?_ (fun spared => absurd spared.word (by omega))
    have sum := inv.sum_over leaves
    have size_lt := size.isLt
    have unlocked : ¬Locked (pack n (BitVec.ofNat T.bits s.pos + size)) :=
      pack_unlocked (by rw [Target.modulus] at *; omega) n
    change ¬Exact s size (if Locked (pack n _) then _ else _) _
    rw [if_neg unlocked]
    intro exact
    have room := exact.inside
    have cap_lt := s.cap.isLt
    rw [Target.modulus] at *
    omega

theorem acquireExact_ends (ends : (BitVec.ofNat T.bits s.pos + size).toNat = s.cap.toNat) :
    AcquireExact s i size ↔ Spared T s.cap.toNat s.rp.toNat s.pos size.toNat := by
  have pos := inv.at_pos
  have field := inv.field
  have small : (BitVec.ofNat T.bits s.pos).toNat ≤ (offsetMask T).toNat := by rw [pos]; exact field
  have clear' : ¬((BitVec.ofNat T.bits s.pos).toNat < s.rp.toNat ∧
      s.rp.toNat ≤ (BitVec.ofNat T.bits s.pos + size).toNat) := by rw [pos]; exact clear
  have below := inv.below
  have fits : s.pos + size.toNat < T.modulus := by
    by_contra leaves
    have sum := inv.sum_over (Nat.le_of_not_lt leaves)
    have size_lt := size.isLt
    rw [Target.modulus] at *
    omega
  have sum := inv.sum fits
  have result := acquireTarget_ends (n := n) small clear' ends
  simp only [acquireExact_target inv word, result]
  by_cases start : s.rp.toNat = 0
  · rw [if_pos start]
    exact iff_of_true nofun ⟨fits, fun short => by omega, fun _ => .inr start, fun past => by omega⟩
  · rw [if_neg start]
    simp only [Option.some.injEq, forall_eq']
    have unlocked : ¬Locked (pack (n + 1) (0 : Usz T)) := pack_unlocked (by simp) _
    have zero : advance s.cap.toNat s.pos size.toNat = 0 := by
      unfold advance
      rw [if_neg (by omega), if_pos (by omega)]
    rw [if_neg unlocked, and_not_lock unlocked]
    constructor
    · intro exact
      have cells := exact.below
      exact ⟨fits, fun short => by omega, fun _ => .inl (by omega), fun past => by omega⟩
    · intro spared
      have cells := (spared.ends (by omega)).resolve_right start
      exact exact_pack inv word (by omega) (by simp) (by simp [zero]) (by omega) (if_pos (by omega)).symm

theorem acquireExact_over (past : s.cap.toNat < (BitVec.ofNat T.bits s.pos + size).toNat) :
    AcquireExact s i size ↔ Spared T s.cap.toNat s.rp.toNat s.pos size.toNat := by
  have pos := inv.at_pos
  have field := inv.field
  have small : (BitVec.ofNat T.bits s.pos).toNat ≤ (offsetMask T).toNat := by rw [pos]; exact field
  have clear' : ¬((BitVec.ofNat T.bits s.pos).toNat < s.rp.toNat ∧
      s.rp.toNat ≤ (BitVec.ofNat T.bits s.pos + size).toNat) := by rw [pos]; exact clear
  have below := inv.below
  have fits : s.pos + size.toNat < T.modulus := by
    by_contra leaves
    have sum := inv.sum_over (Nat.le_of_not_lt leaves)
    have size_lt := size.isLt
    rw [Target.modulus] at *
    omega
  have sum := inv.sum fits
  rw [sum] at clear
  have result := acquireTarget_over (n := n) small clear' past
  simp only [acquireExact_target inv word, result]
  by_cases meets : s.rp.toNat ≤ size.toNat % ((offsetMask T).toNat + 1)
  · rw [if_pos meets]
    exact iff_of_true nofun ⟨fits, fun short => by omega, fun ends => by omega, fun _ => .inr (.inr meets)⟩
  · rw [if_neg meets]
    simp only [Option.some.injEq, forall_eq', if_pos (lock_locked _)]
    have reached : advance s.cap.toNat s.pos size.toNat = size.toNat := by
      unfold advance
      rw [if_neg (by omega), if_neg (by omega)]
    constructor
    · intro exact
      refine ⟨fits, fun short => by omega, fun ends => by omega, fun _ => .inl ⟨?_, ?_⟩⟩
      · by_contra long
        refine not_exact _ ?_ exact
        rw [lock_offset, or_lapWord_offset, reached]
        have := Nat.mod_lt size.toNat (show 0 < (offsetMask T).toNat + 1 by omega)
        omega
      · have := exact.below
        omega
    · intro spared
      rcases spared.around (by omega) with ⟨short, small⟩ | both | meets'
      · have unlocked : ¬Locked (pack (n + 1) size) := pack_unlocked short _
        change Exact s size 0 ((wrapLockBit T ||| pack (n + 1) size) &&& _)
        rw [clear_lock unlocked]
        exact exact_pack inv word (by simp; omega) short reached.symm (by omega) (if_pos (by omega)).symm
      · exact absurd both clear
      · exact absurd meets' meets

end Request

/-- In a state with an exact write position the call is exact if and only if the
request is spared. -/
theorem acquireExact_iff (inv : SeqInv s) (i : Nat) (size : Usz T) :
    AcquireExact s i size ↔ Spared T s.cap.toNat s.rp.toNat s.pos size.toNat := by
  obtain ⟨n, word⟩ := inv.word
  by_cases meets : s.pos < s.rp.toNat ∧ s.rp.toNat ≤ (BitVec.ofNat T.bits s.pos + size).toNat
  · have pos := inv.at_pos
    have refused : acquireTarget s.cap (pack n (BitVec.ofNat _ s.pos)) s.rp size = none :=
      acquireTarget_meets (by rw [pos]; exact inv.field) (by rw [pos]; exact meets.1) meets.2
    simp only [acquireExact_target inv word, refused]
    have fits : s.pos + size.toNat < T.modulus := by
      by_contra leaves
      have sum := inv.sum_over (Nat.le_of_not_lt leaves)
      have size_lt := size.isLt
      rw [Target.modulus] at *
      omega
    have sum := inv.sum fits
    rw [sum] at meets
    exact iff_of_true nofun
      ⟨fits, fun _ => .inr meets, fun ends => by omega, fun _ => .inr (.inl meets)⟩
  · rcases Nat.lt_trichotomy (BitVec.ofNat T.bits s.pos + size).toNat s.cap.toNat with inside | ends | past
    · exact acquireExact_inside inv word meets inside
    · exact acquireExact_ends inv word meets ends
    · exact acquireExact_over inv word meets past

end Step

section Runs
variable {s t : Seq T}

/-- An unlocked word is its two fields. -/
theorem pack_of_unlocked {x : Usz T} (unlocked : ¬Locked x) : x = pack (counterOf x) (x &&& offsetMask T) := by
  have fields : offsetMask T ||| wrapCounter T = ~~~wrapLockBit T := by cases T <;> decide
  have laps : lapWord T (counterOf x) = x &&& wrapCounter T := by
    apply BitVec.eq_of_toNat_eq
    have split := toNat_and_counter x
    rw [Nat.mul_comm, Nat.mod_mul, Nat.add_comm, Nat.add_left_cancel_iff] at split
    rw [toNat_lapWord, counterOf, split, Nat.mul_div_cancel_left _ unit_pos, Nat.mod_mod, Nat.mul_comm]
  rw [pack, laps, ← BitVec.and_or_distrib_left, fields, and_not_lock unlocked]

theorem popPass_retry {mpsc mpsc' : Mpsc T} (pass : popPass mpsc rp = some (.retry mpsc')) :
    mpsc' = { mpsc with warpEnd := offsetMax T, rp := 0 } := by
  simp only [popPass, Option.bind_eq_bind, Option.bind_eq_some_iff] at pass
  obtain ⟨wp, _, pass⟩ := pass
  split at pass
  · cases pass
  · obtain ⟨ready, _, pass⟩ := Option.bind_eq_some_iff.mp pass
    generalize (if mpsc.warpEnd = offsetMax T then mpsc.cap else mpsc.warpEnd) = warpEnd at pass
    split at pass
    · split at pass
      · cases pass
        rfl
      · cases pass
    · cases pass

/-- `mpsc_pop` leaves all but `rp` and `warp_end` alone. -/
theorem popLoop_keeps {mpsc mpsc' : Mpsc T} (run : popLoop n mpsc rp = some (r, mpsc')) :
    mpsc' = { mpsc with warpEnd := mpsc'.warpEnd, rp := mpsc'.rp } := by
  induction n generalizing mpsc rp with
  | zero => cases run
  | succ n ih =>
    simp only [popLoop, Option.bind_eq_bind, Option.bind_eq_some_iff] at run
    obtain ⟨result, pass, run⟩ := run
    cases result with
    | done nbytes off =>
      cases run
      rfl
    | retry again =>
      have kept := ih run
      rw [popPass_retry pass] at kept
      exact kept

/-- A refused call leaves all but the slot alone. -/
theorem mpscAcquire_refused {mpsc mpsc' : Mpsc T} (run : mpscAcquire mpsc i size = some (none, mpsc')) :
    mpsc' = mpsc.setReserve i (offsetMax T) := by
  simp only [mpscAcquire, Option.bind_eq_bind, Option.bind_eq_some_iff] at run
  obtain ⟨wp, _, run⟩ := run
  split at run
  · cases run
    rfl
  · split at run <;> cases run

theorem mpscAcquire_granted {mpsc mpsc' : Mpsc T} (run : mpscAcquire mpsc i size = some (some off, mpsc')) :
    mpsc'.cap = mpsc.cap := by
  simp only [mpscAcquire, Option.bind_eq_bind, Option.bind_eq_some_iff] at run
  obtain ⟨wp, _, run⟩ := run
  split at run
  · cases run
  · split at run <;>
    · cases run
      rfl

def SpareOk (act : SeqAct T) (s : Seq T) : Prop :=
  match act with
  | .acquire _ size => Spared T s.cap.toNat s.rp.toNat s.pos size.toNat
  | _ => True

theorem seqStep_inv (inv : SeqInv s) (ok : SpareOk act s) (run : seqStep act s = some t) : SeqInv t := by
  cases act with
  | reg i | unreg i | push i | release size =>
    cases run
    exact ⟨inv.word, inv.field, inv.below⟩
  | pop =>
    obtain ⟨⟨r, mpsc⟩, popped, rfl⟩ := Option.map_eq_some_iff.mp run
    have kept := popLoop_keeps popped
    dsimp only
    rw [kept]
    exact ⟨inv.word, inv.field, inv.below⟩
  | acquire i size =>
    have exact := (acquireExact_iff inv i size).mpr ok
    simp only [AcquireExact] at exact
    simp only [seqStep] at run
    split at run
    · cases run
    · next mpsc refused =>
      cases run
      rw [mpscAcquire_refused refused]
      exact ⟨inv.word, inv.field, inv.below⟩
    · next off mpsc granted =>
      cases run
      rw [granted] at exact
      have cap := mpscAcquire_granted granted
      have field : mpsc.wp &&& offsetMask T = BitVec.ofNat _ (advance s.cap.toNat s.pos size.toNat) :=
        (ofNat_toNat_eq exact.position).symm
      have word := pack_of_unlocked exact.unlocked
      rw [field] at word
      refine ⟨⟨_, word⟩, ?_, .inl (cap ▸ exact.below)⟩
      have masked := toNat_and_offset mpsc.wp
      have bound := Nat.mod_lt mpsc.wp.toNat (unit_pos (T := T))
      have unit := mask_add_one (T := T)
      have position := exact.position
      dsimp only
      omega

end Runs

/-- A zeroed ring after `mpsc_init`. -/
def seqStart (buf : Nat → Byte) (cap : Usz T) (nproducers : Nat) : Seq T := ⟨fresh buf cap nproducers, 0⟩

theorem seqStart_inv (buf : Nat → Byte) (cap : Usz T) (nproducers : Nat) :
    SeqInv (seqStart buf cap nproducers) where
  word := by
    refine ⟨0, ?_⟩
    change (0 : Usz T) = pack 0 (BitVec.ofNat _ 0)
    simp [pack, lapWord]
  field := Nat.zero_le _
  below := by
    rcases Nat.eq_zero_or_pos cap.toNat with none | some
    · exact .inr ⟨none, rfl⟩
    · exact .inl some

/-- In every state a run reaches whose requests are all spared, for any capacity: the
next call is exact if and only if its request is spared. -/
theorem runs_acquireExact {acts : List (SeqAct T)}
    (admits : Admits seqStep SpareOk acts (seqStart buf cap nproducers))
    (run : runs seqStep acts (seqStart buf cap nproducers) = some s) (i : Nat) (size : Usz T) :
    AcquireExact s i size ↔ Spared T s.cap.toNat s.rp.toNat s.pos size.toNat := by
  have inv : SeqInv s := runs_invariant (fun inv ok next => seqStep_inv inv ok next)
    (seqStart_inv buf cap nproducers) admits run
  exact acquireExact_iff inv i size

/-- Requests no longer than a ring which the offset field can address are spared. -/
theorem Spared.of_le {cap rp pos size : Nat} (field : cap ≤ (offsetMask T).toNat) (inside : pos < cap)
    (fits : size ≤ cap) (reader : rp ≤ cap) : Spared T cap rp pos size where
  word := by
    have bits := bits_split (T := T)
    have unit := mask_add_one (T := T)
    have many : 1 < wraps T := by cases T <;> decide
    have enough := Nat.mul_le_mul_right (wrapUnit T).toNat (Nat.le_of_lt many)
    rw [Target.modulus]
    omega
  inside := fun short => .inl (by omega)
  ends := fun _ => .inl (by omega)
  around := by
    intro past
    rcases Nat.lt_or_ge size cap with short | whole
    · exact .inl ⟨by omega, short⟩
    · refine .inr (.inr ?_)
      rw [Nat.mod_eq_of_lt (by omega)]
      omega

/-- A request that wraps behind a reader that has moved on. -/
theorem runs_acquireExact_wrap :
    ∃ s : Seq .mcu, runs seqStep [.reg 0, .acquire 0 12, .push 0, .pop, .release 12]
        (seqStart (fun _ => 0) 16 1) = some s ∧ AcquireExact s 0 8 := by
  obtain ⟨s, run, cap, rp, pos⟩ : ∃ s : Seq .mcu,
      runs seqStep [.reg 0, .acquire 0 12, .push 0, .pop, .release 12] (seqStart (fun _ => 0) 16 1) = some s ∧
        s.cap = 16 ∧ s.rp = 12 ∧ s.pos = 12 := ⟨_, rfl, rfl, rfl, rfl⟩
  have admits : Admits seqStep SpareOk [.reg 0, .acquire 0 12, .push 0, .pop, .release 12]
      (seqStart (fun _ => 0) 16 1 : Seq .mcu) := by
    refine .cons trivial rfl ?_
    refine .cons (Spared.of_le (by decide) (by decide) (by decide) (by decide)) rfl ?_
    iterate 3 refine .cons trivial rfl ?_
    trivial
  refine ⟨s, run, (runs_acquireExact admits run 0 8).mpr ?_⟩
  rw [cap, rp, pos]
  exact Spared.of_le (by decide) (by decide) (by decide) (by decide)

/-- A request of `2 ^ 32 + 4` bytes is granted at 0 in a ring of 16: only its low
half is compared with `rp`. -/
theorem acquire_beyond_ring :
    ∃ (s : Seq .host) (t : Mpsc .host), runs seqStep [.reg 0, .acquire 0 8, .push 0, .pop, .release 8]
        (seqStart (fun _ => 0) 16 1) = some s ∧
      mpscAcquire s.toMpsc 0 0x100000004 = some (some 0, t) ∧ s.cap = 16 ∧
      ¬AcquireExact s 0 0x100000004 := by
  refine ⟨_, _, rfl, rfl, rfl, ?_⟩
  intro exact
  exact absurd exact.inside (by decide)

end AvaModule.MpscRing
