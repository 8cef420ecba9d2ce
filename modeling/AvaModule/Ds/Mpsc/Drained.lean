import AvaModule.Ds.Mpsc.Messages

/-! Which requests a drained ring grants. Between the calls of one user the words of
the ring stand for a span, whatever sizes the calls were given. -/
namespace AvaModule.MpscRing
open WrapRing Transition

variable {T : Target} {mpsc mpsc' : Mpsc T} {v : Span} {cap size : Usz T} {p nproducers : Nat}

/-- The calls of one user. -/
inductive UserCall (T : Target) where
  | reg (id : Nat)
  | unreg (p : Nat)
  | write (p : Nat) (src : List Byte)
  | read (size : Usz T)

/-- What a call hands back: the offset of a write, or the bytes of a read. -/
inductive Returned (T : Target) where
  | nothing
  | off (off : Option (Usz T))
  | bytes (bytes : List Byte)

/-- A slot lies in the array of producers, and the length of a source is a machine word. -/
def userCall (call : UserCall T) (mpsc : Mpsc T) : Option (Returned T × Mpsc T) :=
  match call with
  | .reg id => if id < mpsc.nproducers then some (.nothing, mpscReg mpsc id) else none
  | .unreg p => if p < mpsc.nproducers then some (.nothing, mpscUnreg mpsc p) else none
  | .write p src =>
      if p < mpsc.nproducers ∧ src.length < T.modulus then
        (mpscWrite mpsc p src).map fun (off, mpsc) => (.off off, mpsc)
      else none
  | .read size => (mpscRead mpsc size).map fun (bytes, mpsc) => (.bytes bytes, mpsc)

def userStep (call : UserCall T) (mpsc : Mpsc T) : Option (Mpsc T) := (userCall call mpsc).map Prod.snd

/-- The consumer has read everything. -/
structure Drained (mpsc : Mpsc T) : Prop where
  idle : Idle mpsc
  empty : mpsc.rp.toNat = mpsc.off

/-- The words of a ring that stand for some span. -/
structure Words (mpsc : Mpsc T) : Prop where
  unlocked : ¬Locked mpsc.wp
  rp_lt : mpsc.rp.toNat < mpsc.cap.toNat
  off_lt : mpsc.off < mpsc.cap.toNat
  warp : mpsc.warpEnd = offsetMax T ∨
    (mpsc.off < mpsc.rp.toNat ∧ mpsc.rp.toNat ≤ mpsc.warpEnd.toNat ∧ mpsc.warpEnd.toNat < mpsc.cap.toNat)

section Words
variable (field : mpsc.cap.toNat ≤ (offsetMask T).toNat)
include field

theorem Words.shape (words : Words mpsc) : ∃ v, Shape mpsc v := by
  obtain ⟨unlocked, rp_lt, off_lt, warp⟩ := words
  have mask := mask_lt_offsetMax (T := T)
  have off : BitVec.ofNat _ mpsc.off = mpsc.wp &&& offsetMask T := ofNat_toNat_eq rfl
  have word : ∃ n, mpsc.wp = pack n (BitVec.ofNat _ mpsc.off) := ⟨_, off ▸ pack_of_unlocked unlocked⟩
  rcases warp with unset | ⟨wrap, above, below⟩
  · refine ⟨⟨mpsc.cap.toNat, mpsc.rp.toNat, mpsc.off, mpsc.cap.toNat, 0,
      if mpsc.rp.toNat ≤ mpsc.off then mpsc.off - mpsc.rp.toNat
      else mpsc.cap.toNat - mpsc.rp.toNat + mpsc.off⟩, ⟨rp_lt, off_lt, ?_, ?_⟩, rfl, ?_, rfl, word, ?_,
      .inl ⟨rfl, unset⟩⟩
    · intro straight
      simp [show mpsc.rp.toNat ≤ mpsc.off from straight]
    · intro wrap
      simp [show ¬mpsc.rp.toNat ≤ mpsc.off from Nat.not_le.mpr wrap, Nat.le_of_lt rp_lt]
    · exact Nat.le_trans field (Nat.le_of_lt mask)
    · exact Nat.le_trans (Nat.le_of_lt off_lt) field
  · refine ⟨⟨mpsc.cap.toNat, mpsc.rp.toNat, mpsc.off, mpsc.warpEnd.toNat, 0,
      mpsc.warpEnd.toNat - mpsc.rp.toNat + mpsc.off⟩, ⟨rp_lt, off_lt, ?_, ?_⟩, rfl, ?_, rfl, word, ?_,
      .inr ⟨below, Nat.le_trans (Nat.le_of_lt below) field, rfl⟩⟩
    · intro straight
      exact absurd wrap (Nat.not_lt.mpr straight)
    · intro _
      exact ⟨above, Nat.le_of_lt below, by simp⟩
    · exact Nat.le_trans field (Nat.le_of_lt mask)
    · exact Nat.le_trans (Nat.le_of_lt off_lt) field

end Words

theorem Shape.words (shape : Shape mpsc v) : Words mpsc where
  unlocked := by
    obtain ⟨n, word⟩ := shape.word
    rw [word]
    exact pack_unlocked shape.small n
  rp_lt := by
    rw [shape.rp, shape.cap]
    exact shape.valid.rp_lt
  off_lt := by
    rw [shape.off, shape.cap]
    exact shape.valid.off_lt
  warp := by
    rw [shape.off, shape.rp, shape.cap]
    rcases shape.warp with ⟨_, unset⟩ | ⟨below, _, set⟩
    · exact .inl unset
    · have wrap : v.off < v.rp := by
        by_contra straight
        have whole := (shape.valid.straight (Nat.not_lt.mp straight)).1
        omega
      rw [set]
      exact .inr ⟨wrap, (shape.valid.wrapped wrap).1, below⟩

/-- A slot whose position is unset leaves the slots idle. -/
theorem Idle.slot (idle : Idle mpsc) (slots : Slots mpsc mpsc' p)
    (unset : (mpsc'.producers p).flag = true → (mpsc'.producers p).reservePos = offsetMax T) : Idle mpsc' := by
  intro i lt used
  by_cases same : i = p
  · subst same
    exact unset used
  · rw [slots.others i same] at used ⊢
    rw [slots.nproducers] at lt
    exact idle i lt used

theorem Idle.reg (idle : Idle mpsc) (id : Nat) : Idle (mpscReg mpsc id) := by
  refine idle.slot (p := id) ⟨rfl, rfl, fun i other => ?_⟩ fun _ => ?_
  · simp [mpscReg, Mpsc.setReserve, Mpsc.setFlag, other]
  · simp [mpscReg, Mpsc.setReserve, Mpsc.setFlag]

theorem Idle.unreg (idle : Idle mpsc) (p : Nat) : Idle (mpscUnreg mpsc p) := by
  refine idle.slot (p := p) ⟨rfl, rfl, fun i other => ?_⟩ fun used => ?_
  · simp [mpscUnreg, Mpsc.setFlag, other]
  · simp [mpscUnreg, Mpsc.setFlag] at used

theorem Idle.push (idle : Idle mpsc) (slots : Slots mpsc mpsc' p) : Idle (mpscPush mpsc' p) := by
  refine idle.slot (p := p) ⟨slots.cap, slots.nproducers, fun i other => ?_⟩ fun _ => ?_
  · rw [← slots.others i other]
    simp [mpscPush, Mpsc.setReserve, other]
  · simp [mpscPush, Mpsc.setReserve]

section Acquire
variable (field : mpsc.cap.toNat ≤ (offsetMask T).toNat)
include field

/-- A request of any size leaves words that stand for a span. -/
theorem Words.acquire (words : Words mpsc) (p : Nat) (size : Usz T) :
    ∃ result m, mpscAcquire mpsc p size = some (result, m) ∧ Words m ∧ Slots mpsc m p ∧
      (result = none → (m.producers p).reservePos = offsetMax T) := by
  have small : (mpsc.wp &&& offsetMask T).toNat ≤ (offsetMask T).toNat := by
    rw [BitVec.toNat_and]
    exact Nat.and_le_right
  have others := fun reservePos => (setReserve_slots mpsc p reservePos).others
  have refused : ∃ result m, some ((none : Option (Usz T)), mpsc.setReserve p (offsetMax T)) = some (result, m) ∧
      Words m ∧ Slots mpsc m p ∧ (result = none → (m.producers p).reservePos = offsetMax T) := by
    refine ⟨none, _, rfl, ⟨words.unlocked, words.rp_lt, words.off_lt, words.warp⟩, ⟨rfl, rfl, others _⟩, ?_⟩
    simp [Mpsc.setReserve]
  rw [mpscAcquire_eq (pack_of_unlocked words.unlocked) small]
  obtain ⟨_, rp_lt, off_lt, warp⟩ := words
  unfold Mpsc.off at off_lt warp
  generalize mpsc.wp &&& offsetMask T = off at *
  generalize counterOf mpsc.wp = n
  by_cases meets : off.toNat < mpsc.rp.toNat ∧ mpsc.rp.toNat ≤ (off + size).toNat
  · rw [acquireTarget_meets small meets.1 meets.2]
    exact refused
  · rcases Nat.lt_trichotomy (off + size).toNat mpsc.cap.toNat with inside | ends | past
    · have reached : (off + size).toNat ≤ (offsetMask T).toNat := by omega
      have free : ¬Locked (pack n (off + size)) := pack_unlocked reached n
      have place : (pack n (off + size) &&& offsetMask T).toNat = (off + size).toNat := by
        rw [pack_offset reached]
      rw [acquireTarget_inside small meets inside]
      refine ⟨some off, _, congrArg some (if_neg free), ⟨free, rp_lt, ?_, ?_⟩, ⟨rfl, rfl, others _⟩,
        fun refused => absurd refused (Option.some_ne_none _)⟩
      · exact Nat.lt_of_le_of_lt (Nat.le_of_eq place) inside
      · refine warp.imp_right fun wrapped => ⟨?_, wrapped.2⟩
        have wrap := wrapped.1
        exact Nat.lt_of_le_of_lt (Nat.le_of_eq place) (by change _ < mpsc.rp.toNat; omega)
    · have free : ¬Locked (pack (n + 1) (0 : Usz T)) := pack_unlocked (by simp) _
      have place : (pack (n + 1) (0 : Usz T) &&& offsetMask T).toNat = 0 := by
        rw [pack_offset (by simp)]
        exact BitVec.toNat_zero
      rw [acquireTarget_ends small meets ends]
      by_cases start : mpsc.rp.toNat = 0
      · rw [if_pos start]
        exact refused
      · rw [if_neg start]
        refine ⟨some off, _, congrArg some (if_neg free), ⟨free, rp_lt, ?_, .inl ?_⟩, ⟨rfl, rfl, others _⟩,
        fun refused => absurd refused (Option.some_ne_none _)⟩
        · exact Nat.lt_of_le_of_lt (Nat.le_of_eq place) (by change _ < mpsc.cap.toNat; omega)
        · exact warp.resolve_right (by omega)
    · rw [acquireTarget_over small meets past]
      by_cases reader : mpsc.rp.toNat ≤ size.toNat % ((offsetMask T).toNat + 1)
      · rw [if_pos reader]
        exact refused
      · rw [if_neg reader]
        have place : (((wrapLockBit T ||| (size ||| lapWord T (n + 1))) &&& ~~~wrapLockBit T) &&& offsetMask T).toNat =
            size.toNat % ((offsetMask T).toNat + 1) := by
          rw [not_lock_offset, lock_offset, or_lapWord_offset]
        refine ⟨some 0, _, congrArg some (if_pos (lock_locked _)),
          ⟨not_lock_unlocked _, rp_lt, ?_, .inr ⟨?_, ?_, off_lt⟩⟩, ⟨rfl, rfl, others _⟩,
        fun refused => absurd refused (Option.some_ne_none _)⟩
        · exact Nat.lt_of_le_of_lt (Nat.le_of_eq place) (by change _ < mpsc.cap.toNat; omega)
        · exact Nat.lt_of_le_of_lt (Nat.le_of_eq place) (Nat.lt_of_not_le reader)
        · change mpsc.rp.toNat ≤ off.toNat
          omega

end Acquire

/-- A read that the run at `rp` does not hold takes nothing. -/
theorem Shape.read_part (shape : Shape mpsc v) (idle : Idle mpsc) (size : Usz T) :
    ∃ bytes v' warpEnd rp, mpscRead mpsc size = some (bytes, { mpsc with warpEnd, rp }) ∧
      Shape { mpsc with warpEnd, rp } v' ∧
      (v.rp ≤ v.off → size.toNat ≤ v.off - v.rp → 0 < size.toNat → v' = v.drop size.toNat) := by
  obtain ⟨w, warpEnd, rp, avail, off, pop, shape', front, same⟩ := shape.pop idle
  have length := front.length
  simp only [mpscRead, pop, Option.bind_eq_bind, Option.bind_some]
  have straight : v.rp ≤ v.off → w = v ∧ w.top = v.off := by
    intro le
    obtain rfl := same.resolve_right fun wrap => absurd wrap.1 (Nat.not_lt.mpr le)
    exact ⟨rfl, if_pos le⟩
  by_cases none : avail = 0
  · rw [if_pos none]
    refine ⟨_, w, warpEnd, rp, rfl, shape', ?_⟩
    intro le within some
    obtain ⟨rfl, top⟩ := straight le
    have zero : avail.toNat = 0 := by simp [none]
    omega
  · rw [if_neg none]
    have some := pos_of_ne_zero none
    generalize part : (if avail < size then 0 else size) = readNbytes
    have upto : readNbytes.toNat ≤ avail.toNat := by
      rw [← part]
      split
      · simp
      · next enough => exact BitVec.le_def.mp (BitVec.not_lt.mp enough)
    have release : Shape (mpscRelease _ readNbytes) _ := shape'.release (by omega)
    refine ⟨_, _, warpEnd, _, rfl, release, ?_⟩
    intro le within _
    obtain ⟨rfl, top⟩ := straight le
    have enough : ¬avail < size := by
      rw [BitVec.lt_def]
      omega
    rw [← part, if_neg enough]

/-- Between the calls of one user. -/
structure Calm (mpsc : Mpsc T) (cap : Usz T) (nproducers : Nat) : Prop where
  idle : Idle mpsc
  words : Words mpsc
  cap : mpsc.cap = cap
  nproducers : mpsc.nproducers = nproducers

theorem mpscCopyIn_buf (mpsc : Mpsc T) (off : Usz T) (src : List Byte) :
    ∃ buf, mpscCopyIn mpsc off src = { mpsc with buf } := by
  unfold mpscCopyIn
  dsimp only
  split <;> exact ⟨_, rfl⟩

section Calls
theorem Calm.fresh (buf : Nat → Byte) (nproducers : Nat) (cells : 0 < cap.toNat)
    (field : cap.toNat ≤ (offsetMask T).toNat) : Calm (fresh buf cap nproducers) cap nproducers := by
  have cap_le := Nat.le_trans field (Nat.le_of_lt mask_lt_offsetMax)
  obtain ⟨quiet, v, framed⟩ := Holds.fresh buf cap nproducers cells cap_le
  exact ⟨quiet.idle, framed.shape.words, rfl, rfl⟩

variable (field : cap.toNat ≤ (offsetMask T).toNat) (calm : Calm mpsc cap nproducers)
include calm

theorem Calm.reg (id : Nat) : Calm (mpscReg mpsc id) cap nproducers :=
  let words := calm.words
  ⟨calm.idle.reg id, ⟨words.unlocked, words.rp_lt, words.off_lt, words.warp⟩, calm.cap, calm.nproducers⟩

theorem Calm.unreg (p : Nat) : Calm (mpscUnreg mpsc p) cap nproducers :=
  let words := calm.words
  ⟨calm.idle.unreg p, ⟨words.unlocked, words.rp_lt, words.off_lt, words.warp⟩, calm.cap, calm.nproducers⟩

include field

theorem Calm.write (p : Nat) (src : List Byte) :
    ∃ result m, mpscWrite mpsc p src = some (result, m) ∧ Calm m cap nproducers := by
  rw [← calm.cap] at field
  obtain ⟨result, m, acquire, words, slots, unset⟩ := calm.words.acquire field p (BitVec.ofNat _ src.length)
  simp only [mpscWrite, acquire, Option.bind_eq_bind, Option.bind_some]
  cases result with
  | none =>
    exact ⟨none, m, rfl, calm.idle.slot slots fun _ => unset rfl, words, slots.cap.trans calm.cap,
      slots.nproducers.trans calm.nproducers⟩
  | some off =>
    obtain ⟨buf, copied⟩ := mpscCopyIn_buf m off src
    have slots' : Slots mpsc { m with buf } p := ⟨slots.cap, slots.nproducers, slots.others⟩
    dsimp only
    rw [copied]
    exact ⟨some off, _, rfl, calm.idle.push slots', ⟨words.unlocked, words.rp_lt, words.off_lt, words.warp⟩,
      slots.cap.trans calm.cap, slots.nproducers.trans calm.nproducers⟩

theorem Calm.read (size : Usz T) :
    ∃ bytes m, mpscRead mpsc size = some (bytes, m) ∧ Calm m cap nproducers := by
  rw [← calm.cap] at field
  obtain ⟨v, shape⟩ := calm.words.shape field
  obtain ⟨bytes, v', warpEnd, rp, read, shape', _⟩ := shape.read_part calm.idle size
  exact ⟨bytes, _, read, calm.idle, shape'.words, calm.cap, calm.nproducers⟩

theorem Calm.step {call : UserCall T} (run : userStep call mpsc = some mpsc') : Calm mpsc' cap nproducers := by
  obtain ⟨result, returned, rfl⟩ := Option.map_eq_some_iff.mp run
  clear run
  cases call with
  | reg id =>
    obtain ⟨_, run⟩ := Option.ite_none_right_eq_some.mp returned
    cases run
    exact calm.reg id
  | unreg p =>
    obtain ⟨_, run⟩ := Option.ite_none_right_eq_some.mp returned
    cases run
    exact calm.unreg p
  | write p src =>
    obtain ⟨_, run⟩ := Option.ite_none_right_eq_some.mp returned
    obtain ⟨off, m, write, calm'⟩ := calm.write field p src
    rw [write] at run
    cases run
    exact calm'
  | read size =>
    obtain ⟨bytes, m, read, calm'⟩ := calm.read field size
    rw [userCall, read] at returned
    cases returned
    exact calm'

end Calls

section Drained
variable {buf : Nat → Byte} (cells : 0 < cap.toNat) (field : cap.toNat ≤ (offsetMask T).toNat)
include cells field

theorem calm_of_run {calls : List (UserCall T)}
    (run : runs userStep calls (fresh buf cap nproducers) = some mpsc) : Calm mpsc cap nproducers :=
  runs_preserve (P := fun m => Calm m cap nproducers) (fun calm next => calm.step field next)
    (Calm.fresh buf nproducers cells field) run

/-- A request of at most half of the ring is granted wherever the ring is drained. -/
theorem drained_granted {calls : List (UserCall T)}
    (run : runs userStep calls (fresh buf cap nproducers) = some mpsc) (drained : Drained mpsc)
    (half : 2 * size.toNat ≤ cap.toNat) (p : Nat) : ∃ off m, mpscAcquire mpsc p size = some (some off, m) := by
  have calm := calm_of_run cells field run
  have field' := field
  rw [← calm.cap] at field' half
  obtain ⟨v, shape⟩ := calm.words.shape field'
  have empty := drained.empty
  rw [shape.rp, shape.off] at empty
  rw [shape.cap] at field' half
  have rp_lt := shape.valid.rp_lt
  have off_lt := shape.valid.off_lt
  have spared : Spared T v.cap v.rp v.off size.toNat := .of_le field' off_lt (by omega) (by omega)
  have fits : v.Fits size.toNat := by
    have next := v.next_cases size.toNat
    constructor <;> omega
  obtain ⟨off, m, granted, _⟩ := shape.acquire_granted spared fits p
  exact ⟨off, m, granted⟩

/-- A ring in which one slot has been registered. -/
theorem reg_run (slot : p < nproducers) :
    ∃ mpsc v, runs userStep [.reg p] (fresh buf cap nproducers) = some mpsc ∧ Calm mpsc cap nproducers ∧
      Shape mpsc v ∧ v.rp = 0 ∧ v.off = 0 := by
  have first : userStep (.reg p) (fresh buf cap nproducers) = some (mpscReg (fresh buf cap nproducers) p) :=
    congrArg (Option.map Prod.snd) (if_pos slot)
  have reg : runs userStep [.reg p] (fresh buf cap nproducers) = some (mpscReg (fresh buf cap nproducers) p) := by
    rw [runs, first]
    rfl
  have calm := calm_of_run cells field reg
  obtain ⟨v, shape⟩ := calm.words.shape (by rw [calm.cap]; exact field)
  have off : (0 : Usz T) &&& offsetMask T = 0 := BitVec.zero_and
  refine ⟨_, v, reg, calm, shape, ?_, ?_⟩
  · rw [← shape.rp]
    exact BitVec.toNat_zero
  · rw [← shape.off]
    exact (congrArg BitVec.toNat off).trans BitVec.toNat_zero

/-- A request no shorter than the ring is refused at once. -/
theorem refused_whole (slot : p < nproducers) (whole : cap.toNat ≤ size.toNat) :
    ∃ calls mpsc, runs userStep calls (fresh buf cap nproducers) = some mpsc ∧ Drained mpsc ∧
      ∀ i, ∃ m, mpscAcquire mpsc i size = some (none, m) := by
  obtain ⟨mpsc, v, reg, calm, shape, rp, off⟩ := @reg_run T cap p nproducers buf cells field slot
  have cap_eq := shape.cap
  rw [calm.cap] at cap_eq
  have spared : Spared T v.cap v.rp v.off size.toNat := by
    refine ⟨?_, fun short => by omega, fun _ => .inl (by omega), fun _ => .inr (.inr (by omega))⟩
    rw [off, Nat.zero_add]
    exact size.isLt
  have full : ¬v.Fits size.toNat := by
    intro fits
    have around := fits.around (by omega) (by omega)
    omega
  refine ⟨[.reg p], mpsc, reg, ⟨calm.idle, ?_⟩, fun i => ⟨_, shape.acquire_refused spared full i⟩⟩
  rw [shape.rp, shape.off, rp, off]

/-- A request of more than half of the ring is refused after one message of its length
has been written and read. -/
theorem refused_half (slot : p < nproducers) (long : cap.toNat < 2 * size.toNat) (part : size.toNat < cap.toNat) :
    ∃ calls mpsc, runs userStep calls (fresh buf cap nproducers) = some mpsc ∧ Drained mpsc ∧
      ∀ i, ∃ m, mpscAcquire mpsc i size = some (none, m) := by
  obtain ⟨mpsc, v, reg, calm, shape, rp, off⟩ := @reg_run T cap p nproducers buf cells field slot
  have cap_eq := shape.cap
  rw [calm.cap] at cap_eq
  have spared : Spared T v.cap v.rp v.off size.toNat := .of_le (by omega) (by omega) (by omega) (by omega)
  obtain ⟨place, m, granted, _, shape', _⟩ := shape.acquire_granted spared ⟨by omega, fun _ _ => by omega⟩ p
  have next : v.next size.toNat = { v with off := size.toNat, W := v.W + size.toNat } := by
    have cases := v.next_cases size.toNat
    simp only [off, Nat.zero_add] at cases
    exact (cases.resolve_right (by omega)).2.2.2
  have length : (List.replicate size.toNat (0 : Byte)).length = size.toNat := List.length_replicate
  obtain ⟨copied, copy⟩ := mpscCopyIn_buf m place (List.replicate size.toNat 0)
  have write : runs userStep ([.reg p] ++ [.write p (List.replicate size.toNat 0)]) (fresh buf cap nproducers) =
      some (mpscPush { m with buf := copied } p) := by
    have inside : p < mpsc.nproducers ∧ (List.replicate size.toNat (0 : Byte)).length < T.modulus := by
      rw [calm.nproducers, length]
      exact ⟨slot, size.isLt⟩
    have step : userStep (.write p (List.replicate size.toNat 0)) mpsc = some (mpscPush { m with buf := copied } p) := by
      rw [userStep, userCall, if_pos inside]
      simp only [mpscWrite, length, BitVec.ofNat_toNat, BitVec.setWidth_eq, granted, Option.bind_eq_bind,
        Option.bind_some, copy, Option.pure_def, Option.map_some]
    rw [runs_append, reg, Option.bind_some, runs, step]
    rfl
  have calm' := calm_of_run cells field write
  have stored : Shape (mpscPush { m with buf := copied } p) (v.next size.toNat) :=
    ⟨shape'.valid, shape'.cap, shape'.cap_le, shape'.rp, shape'.word, shape'.field, shape'.warp⟩
  rw [next] at stored
  obtain ⟨bytes, w, warpEnd, at_rp, read, last, dropped⟩ := stored.read_part calm'.idle size
  have w_eq := dropped (by simp only; omega) (by simp only; omega) (by omega)
  have left : w.rp = size.toNat ∧ w.off = size.toNat ∧ w.cap = v.cap := by
    rw [w_eq, Span.drop]
    exact ⟨by dsimp only; rw [if_neg (by omega), rp, Nat.zero_add], rfl, rfl⟩
  have spared' : Spared T w.cap w.rp w.off size.toNat := by
    rw [left.1, left.2.1, left.2.2]
    exact .of_le (by omega) (by omega) (by omega) (by omega)
  have full : ¬w.Fits size.toNat := by
    intro fits
    have around := fits.around (by omega) (by omega)
    have cases := w.next_cases size.toNat
    omega
  refine ⟨([.reg p] ++ [.write p (List.replicate size.toNat 0)]) ++ [.read size], _, ?_, ?_,
    fun i => ⟨_, last.acquire_refused spared' full i⟩⟩
  · rw [runs_append, write, Option.bind_some, runs, userStep, userCall, read]
    rfl
  · exact ⟨calm'.idle, by rw [last.rp, last.off, left.1, left.2.1]⟩

/-- For every capacity the offset field can address, in every drained state that calls
of `mpsc_write` and `mpsc_read` reach, a request is granted if it asks for at most half
of the ring; for every larger one there is such a state in which it is refused. -/
theorem drained_acquires_iff (slot : 0 < nproducers) :
    (2 * size.toNat ≤ cap.toNat ↔
      ∀ calls mpsc, runs userStep calls (fresh buf cap nproducers) = some mpsc → Drained mpsc →
        ∀ p < nproducers, ∃ off m, mpscAcquire mpsc p size = some (some off, m)) ∧
    (cap.toNat < 2 * size.toNat →
      ∃ calls mpsc, runs userStep calls (fresh buf cap nproducers) = some mpsc ∧ Drained mpsc ∧
        ∀ p < nproducers, ∃ m, mpscAcquire mpsc p size = some (none, m)) := by
  have refused (long : cap.toNat < 2 * size.toNat) : ∃ calls mpsc,
      runs userStep calls (fresh buf cap nproducers) = some mpsc ∧ Drained mpsc ∧
        ∀ p, ∃ m, mpscAcquire mpsc p size = some (none, m) := by
    rcases Nat.lt_or_ge size.toNat cap.toNat with part | whole
    · exact refused_half cells field slot long part
    · exact refused_whole cells field slot whole
  refine ⟨⟨fun half calls mpsc run drained p _ => drained_granted cells field run drained half p, ?_⟩, ?_⟩
  · intro granted
    by_contra long
    obtain ⟨calls, mpsc, run, drained, none⟩ := refused (Nat.lt_of_not_le long)
    obtain ⟨off, m, some⟩ := granted calls mpsc run drained 0 slot
    obtain ⟨m', refuse⟩ := none 0
    rw [refuse] at some
    cases some
  · intro long
    obtain ⟨calls, mpsc, run, drained, none⟩ := refused long
    exact ⟨calls, mpsc, run, drained, fun p _ => none p⟩

end Drained

/-- Five bytes are refused by a drained ring of eight. -/
theorem drained_acquires_iff_five :
    ∃ (calls : List (UserCall .mcu)) (mpsc : Mpsc .mcu),
      runs userStep calls (fresh (fun _ => 0) 8 1) = some mpsc ∧ Drained mpsc ∧
        ∀ p < 1, ∃ m, mpscAcquire mpsc p 5 = some (none, m) :=
  (drained_acquires_iff (by decide) (by decide) (by decide)).2 (by decide)

end AvaModule.MpscRing
