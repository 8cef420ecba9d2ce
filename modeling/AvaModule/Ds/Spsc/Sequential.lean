import AvaModule.Ds.Spsc.Runs
import AvaModule.Lib.BoundedQueue
import AvaModule.Lib.Memory

/-! The calls of ds/spsc.h made one after another. The buffer a call works on is
the `buf` of the record: `spsc_write` passes that field, and a caller of
`spsc_write_buf` passes the memory it keeps beside the header. -/
namespace AvaModule.SpscRing
open Counter Memory Transition BoundedQueue

variable {T : Target} {spsc : Spsc T} {items src : List Byte} {R : Nat}

def spscAvail (spsc : Spsc T) : Usz T := spsc.wp - spsc.rp

def spscFree (spsc : Spsc T) : Usz T := spsc.cap - spscAvail spsc

/-- `MIN(size, spsc->cap - off)` -/
def firstPart (cap off size : Usz T) : Usz T := if size < cap - off then size else cap - off

/-- The two `memcpy` into the ring at position `pos`. -/
def copyIn (buf : Nat → Byte) (cap pos : Usz T) (src : List Byte) (size : Usz T) : Nat → Byte :=
  let off := pos &&& (cap - 1)
  let first := firstPart cap off size
  let buf := write buf off.toNat (src.take first.toNat)
  write buf 0 ((src.drop first.toNat).take (size - first).toNat)

/-- The two `memcpy` out of the ring at position `pos`. -/
def copyOut (buf : Nat → Byte) (cap pos size : Usz T) : List Byte :=
  let off := pos &&& (cap - 1)
  let first := firstPart cap off size
  read buf off.toNat first.toNat ++ read buf 0 (size - first).toNat

/-- The read counter after the `atomic_fetch_add` of `spsc_policy`, if it is made. -/
def droppedRp (rp : Usz T) : Option (Usz T) → Usz T
  | none => rp
  | some drop => rp + drop

def spscWriteBuf (spsc : Spsc T) (src : List Byte) : Usz T × Spsc T :=
  let (size, drop) := spscPolicy spsc.ePolicy spsc.cap spsc.wp spsc.rp (BitVec.ofNat _ src.length)
  let rp := droppedRp spsc.rp drop
  if size = 0 then (0, { spsc with rp := rp })
  else (size, { spsc with
    buf := copyIn spsc.buf spsc.cap spsc.wp src size
    rp := rp
    wp := spsc.wp + size })

def spscReadBuf (spsc : Spsc T) (size : Usz T) : List Byte × Spsc T :=
  let avail := spsc.wp - spsc.rp
  let size := if size > avail then avail else size
  if size = 0 then ([], spsc)
  else (copyOut spsc.buf spsc.cap spsc.rp size, { spsc with rp := spsc.rp + size })

inductive Call (T : Target) where
  | write (src : List Byte)
  | read (size : Usz T)

/-- What a call returns: a length, or the bytes it stored at `dst`. -/
inductive Result where
  | wrote (size : Nat)
  | got (dst : List Byte)
  deriving DecidableEq

def spscCall (call : Call T) (spsc : Spsc T) : Result × Spsc T :=
  match call with
  | .write src =>
      let (size, spsc) := spscWriteBuf spsc src
      (.wrote size.toNat, spsc)
  | .read size =>
      let (dst, spsc) := spscReadBuf spsc size
      (.got dst, spsc)

/-- The same calls on a bounded queue. -/
def queueCall (ePolicy : Policy) (call : Call T) (q : Queue Byte cap) : Result × Queue Byte cap :=
  match call, ePolicy with
  | .write src, .truncate => (.wrote (min src.length q.room), q.appendPrefix src)
  | .write src, .reject => (.wrote (if src.length ≤ q.room then src.length else 0), q.appendWhole src)
  | .write src, .overwrite => (.wrote src.length, q.appendDropping src)
  | .read size, _ => (.got (q.items.take size.toNat), q.remove size.toNat)

section Copies
variable {cap size : Usz T} {buf : Nat → Byte}

theorem firstPart_toNat (pow : ∃ k, cap.toNat = 2 ^ k) (n : Nat) (size : Usz T) :
    (firstPart cap (word _ n &&& (cap - 1)) size).toNat = min size.toNat (cap.toNat - n % cap.toNat) := by
  obtain ⟨k, pow⟩ := pow
  have mask := toNat_word_mask pow n
  have bound := Nat.mod_lt n (show 0 < cap.toNat by rw [pow]; exact Nat.two_pow_pos k)
  have rest : (cap - (word _ n &&& (cap - 1))).toNat = cap.toNat - n % cap.toNat := by
    rw [BitVec.toNat_sub_of_le, mask]
    rw [BitVec.le_def, mask]
    exact Nat.le_of_lt bound
  unfold firstPart
  split
  all_goals
    next less =>
    rw [BitVec.lt_def, rest] at less
    omega

theorem restPart_toNat (pow : ∃ k, cap.toNat = 2 ^ k) (n : Nat) (size : Usz T) :
    (size - firstPart cap (word _ n &&& (cap - 1)) size).toNat =
      size.toNat - (cap.toNat - n % cap.toNat) := by
  have first := firstPart_toNat pow n size
  rw [BitVec.toNat_sub_of_le, first]
  · omega
  · rw [BitVec.le_def, first]
    exact Nat.min_le_left _ _

/-- The two copies of a write are one walk round the ring. -/
theorem copyIn_eq (pow : ∃ k, cap.toNat = 2 ^ k) (buf : Nat → Byte) (n : Nat) (src : List Byte)
    (size : Usz T) :
    copyIn buf cap (word _ n) src size =
      writeRing buf cap.toNat (n % cap.toNat) (src.take size.toNat) := by
  have first := firstPart_toNat pow n size
  have rest := restPart_toNat pow n size
  obtain ⟨k, pow⟩ := pow
  have mask := toNat_word_mask pow n
  simp only [copyIn, writeRing, rest, first, mask]
  congr 1
  · rw [List.take_take, Nat.min_comm]
  · rw [List.drop_take]
    by_cases whole : size.toNat ≤ cap.toNat - n % cap.toNat
    · rw [Nat.sub_eq_zero_of_le whole, List.take_zero, List.take_zero]
    · rw [Nat.min_eq_right (by omega)]

theorem copyOut_eq (pow : ∃ k, cap.toNat = 2 ^ k) (n : Nat) (fits : size.toNat ≤ cap.toNat) :
    copyOut buf cap (word _ n) size =
      (List.range size.toNat).map fun i => buf ((n + i) % cap.toNat) := by
  have first := firstPart_toNat pow n size
  have rest := restPart_toNat pow n size
  obtain ⟨k, pow⟩ := pow
  have mask := toNat_word_mask pow n
  have inside := Nat.mod_lt n (show 0 < cap.toNat by rw [pow]; exact Nat.two_pow_pos k)
  simp only [copyOut, rest, first, mask]
  change readRing buf cap.toNat (n % cap.toNat) size.toNat = _
  rw [readRing_eq inside fits]
  simp only [Nat.mod_add_mod]

end Copies

/-- The ring holds `items` from position `R` of the byte stream on. -/
structure Holds (spsc : Spsc T) (R : Nat) (items : List Byte) : Prop where
  pow : ∃ k, spsc.cap.toNat = 2 ^ k
  at_rp : spsc.rp = word _ R
  at_wp : spsc.wp = word _ (R + items.length)
  bound : items.length ≤ spsc.cap.toNat
  cells : ∀ i (lt : i < items.length), spsc.buf ((R + i) % spsc.cap.toNat) = items[i]

namespace Holds

theorem cap_pos (h : Holds spsc R items) : 0 < spsc.cap.toNat := by
  obtain ⟨k, pow⟩ := h.pow
  rw [pow]
  exact Nat.two_pow_pos k

theorem avail (h : Holds spsc R items) : (spscAvail spsc).toNat = items.length := by
  have near : R + items.length - R < 2 ^ T.bits := by
    have := h.bound
    have := spsc.cap.isLt
    omega
  rw [spscAvail, h.at_wp, h.at_rp, toNat_word_sub (Nat.le_add_right R _) near]
  exact Nat.add_sub_cancel_left _ _

theorem free (h : Holds spsc R items) : (spscFree spsc).toNat = spsc.cap.toNat - items.length := by
  rw [spscFree, BitVec.toNat_sub_of_le, h.avail]
  rw [BitVec.le_def, h.avail]
  exact h.bound

theorem empty (spsc : Spsc T) (pow : isPowerOf2 spsc.cap) (same : spsc.wp = spsc.rp) :
    Holds spsc spsc.rp.toNat [] where
  pow := isPowerOf2_toNat pow
  at_rp := by simp [word]
  at_wp := by simp [word, same]
  bound := Nat.zero_le _
  cells := by simp

theorem off_lt (h : Holds spsc R items) (n : Nat) : n % spsc.cap.toNat < spsc.cap.toNat :=
  Nat.mod_lt n h.cap_pos

theorem drop (h : Holds spsc R items) {k : Usz T} (le : k.toNat ≤ items.length) :
    Holds { spsc with rp := spsc.rp + k } (R + k.toNat) (items.drop k.toNat) where
  pow := h.pow
  at_rp := by
    dsimp only
    rw [h.at_rp, word_add_bits]
  at_wp := by
    dsimp only
    rw [h.at_wp, List.length_drop]
    congr 1
    omega
  bound := by
    have := h.bound
    simp only [List.length_drop]
    omega
  cells := by
    intro i lt
    have inside : k.toNat + i < items.length := by
      rw [List.length_drop] at lt
      omega
    rw [List.getElem_drop, ← h.cells _ inside, Nat.add_assoc]

theorem append (h : Holds spsc R items) (src : List Byte) (room : items.length + src.length ≤ spsc.cap.toNat)
    {size : Usz T} (all : size.toNat = src.length) :
    Holds { spsc with
      buf := writeRing spsc.buf spsc.cap.toNat ((R + items.length) % spsc.cap.toNat) src
      wp := spsc.wp + size } R (items ++ src) where
  pow := h.pow
  at_rp := h.at_rp
  at_wp := by
    dsimp only
    rw [h.at_wp, word_add_bits, List.length_append, all, Nat.add_assoc]
  bound := by
    rw [List.length_append]
    exact room
  cells := by
    intro i lt
    dsimp only
    have inside := h.off_lt (R + items.length)
    by_cases old : i < items.length
    · rw [List.getElem_append_left old, writeRing_other inside (by omega), h.cells i old]
      intro j within
      rw [Nat.mod_add_mod]
      exact mod_ne (by omega) (by omega)
    · obtain ⟨j, rfl⟩ := Nat.exists_eq_add_of_le (Nat.le_of_not_lt old)
      have within : j < src.length := by
        rw [List.length_append] at lt
        omega
      have cell := writeRing_cell (m := spsc.buf) inside (by omega) within
      rw [Nat.mod_add_mod, Nat.add_assoc] at cell
      rw [cell, List.getElem_append_right (Nat.le_add_right _ _)]
      simp

/-- A write whose size is known, from the state after its drop. -/
theorem writeBuf {size : Usz T} (policy : spscPolicy spsc.ePolicy spsc.cap spsc.wp spsc.rp
      (BitVec.ofNat _ src.length) = (size, dropped))
    (h : Holds { spsc with rp := droppedRp spsc.rp dropped } R items)
    (part : size.toNat ≤ src.length) (room : items.length + size.toNat ≤ spsc.cap.toNat) :
    ∃ t, spscWriteBuf spsc src = (size, t) ∧ Holds t R (items ++ src.take size.toNat) ∧
      t.cap = spsc.cap ∧ t.ePolicy = spsc.ePolicy := by
  simp only [spscWriteBuf, policy]
  by_cases zero : size = 0
  · subst zero
    refine ⟨_, if_pos rfl, ?_, rfl, rfl⟩
    simpa using h
  · refine ⟨_, if_neg zero, ?_, rfl, rfl⟩
    have taken : (src.take size.toNat).length = size.toNat := by
      rw [List.length_take, Nat.min_eq_left part]
    have at_wp : spsc.wp = word _ (R + items.length) := h.at_wp
    have kept := h.append (src.take size.toNat) (by rw [taken]; exact room) taken.symm
    have copied := copyIn_eq h.pow spsc.buf (R + items.length) src size
    rw [← at_wp] at copied
    rw [copied]
    exact kept

theorem readBuf (h : Holds spsc R items) (size : Usz T) :
    ∃ t, spscReadBuf spsc size = (items.take size.toNat, t) ∧
      Holds t (R + min size.toNat items.length) (items.drop size.toNat) ∧
      t.cap = spsc.cap ∧ t.ePolicy = spsc.ePolicy := by
  have avail : (spsc.wp - spsc.rp).toNat = items.length := h.avail
  have bound := h.bound
  generalize taken : (if size > spsc.wp - spsc.rp then spsc.wp - spsc.rp else size) = n
  have amount : n.toNat = min size.toNat items.length := by
    subst taken
    split
    all_goals
      next more =>
      rw [gt_iff_lt, BitVec.lt_def, avail] at more
      omega
  have same : items.take size.toNat = items.take n.toNat := by
    rw [amount, ← List.take_eq_take_min]
  have left : items.drop size.toNat = items.drop n.toNat := by
    rw [amount]
    by_cases whole : size.toNat ≤ items.length
    · rw [Nat.min_eq_left whole]
    · rw [Nat.min_eq_right (by omega), List.drop_length, List.drop_of_length_le (by omega)]
  rw [same, left, ← amount]
  simp only [spscReadBuf, taken]
  have kept := h.drop (k := n) (by omega)
  by_cases zero : n = 0
  · subst zero
    refine ⟨spsc, by simp, ?_, rfl, rfl⟩
    simpa using kept
  · refine ⟨{ spsc with rp := spsc.rp + n }, ?_, kept, rfl, rfl⟩
    rw [if_neg zero, h.at_rp, copyOut_eq h.pow R (by omega)]
    congr 1
    apply List.ext_getElem
    · simp
      omega
    · intro i lt _
      simp only [List.length_map, List.length_range] at lt
      rw [List.getElem_map, List.getElem_range, h.cells i (by omega), List.getElem_take]

end Holds

/-- The answer of `spsc_policy` to a request for more than is free. -/
def shortPolicy (ePolicy : Policy) (free size : Usz T) : Usz T × Option (Usz T) :=
  match ePolicy with
  | .truncate => (free, none)
  | .overwrite => (size, some (size - free))
  | .reject => (0, none)

/-- The size and the drop `spsc_policy` computes, from the contents alone. -/
theorem spscPolicy_holds (h : Holds spsc R items) (fits : n < T.modulus) :
    (n ≤ spsc.cap.toNat - items.length →
      spscPolicy spsc.ePolicy spsc.cap spsc.wp spsc.rp (BitVec.ofNat _ n) = (BitVec.ofNat _ n, none)) ∧
    (spsc.cap.toNat - items.length < n →
      spscPolicy spsc.ePolicy spsc.cap spsc.wp spsc.rp (BitVec.ofNat _ n) =
        shortPolicy spsc.ePolicy (spscFree spsc) (BitVec.ofNat _ n)) := by
  have free := h.free
  rw [spscFree, spscAvail] at free
  have size := toNat_length fits
  constructor
  · intro enough
    simp only [spscPolicy]
    rw [if_pos]
    rw [BitVec.le_def, size, free]
    exact enough
  · intro short
    simp only [spscPolicy]
    rw [if_neg]
    · rfl
    · rw [BitVec.le_def, size, free]
      omega

/-- What a call may be asked: a length that is a machine word, and under
`overwrite` no more than the ring holds. -/
def Call.Fits (ePolicy : Policy) (cap : Nat) : Call T → Prop
  | .write src => src.length < T.modulus ∧ (ePolicy = .overwrite → src.length ≤ cap)
  | .read _ => True

/-- The ring stands for the queue. -/
def Refines (ePolicy : Policy) (spsc : Spsc T) (q : Queue Byte cap) : Prop :=
  spsc.cap.toNat = cap ∧ spsc.ePolicy = ePolicy ∧ ∃ R, Holds spsc R q.items

/-- Where there is room, every policy takes the whole write. -/
theorem write_fitting {q : Queue Byte cap} (fits : src.length < T.modulus) (refines : Refines ePolicy spsc q)
    (enough : src.length ≤ cap - q.items.length) :
    (spscCall (.write src) spsc).1 = (queueCall (T := T) ePolicy (.write src) q).1 ∧
      Refines ePolicy (spscCall (.write src) spsc).2 (queueCall (T := T) ePolicy (.write src) q).2 := by
  obtain ⟨rfl, rfl, R, h⟩ := refines
  have size := toNat_length fits
  have bound := h.bound
  obtain ⟨whole, -⟩ := spscPolicy_holds h fits
  obtain ⟨t, run, kept, cap, policy⟩ := Holds.writeBuf (whole enough) h (by omega) (by omega)
  rw [size, List.take_length] at kept
  simp only [spscCall, run, size]
  cases ePolicy : spsc.ePolicy with
  | truncate =>
    simp only [queueCall]
    refine ⟨by rw [Queue.room, Nat.min_eq_left enough], congrArg BitVec.toNat cap, policy.trans ePolicy, R, ?_⟩
    rw [q.appendPrefix_of_fits src enough]
    exact kept
  | overwrite =>
    simp only [queueCall]
    refine ⟨trivial, congrArg BitVec.toNat cap, policy.trans ePolicy, R, ?_⟩
    rw [q.appendDropping_of_fits src enough]
    exact kept
  | reject =>
    simp only [queueCall]
    refine ⟨by rw [Queue.room, if_pos enough], congrArg BitVec.toNat cap, policy.trans ePolicy, R, ?_⟩
    rw [q.appendWhole_of_fits src enough]
    exact kept

/-- Where there is not, it takes what is left, the oldest bytes are dropped, or nothing is taken. -/
theorem write_beyond_room {q : Queue Byte cap} (fits : (Call.write (T := T) src).Fits ePolicy cap)
    (refines : Refines ePolicy spsc q) (enough : ¬src.length ≤ cap - q.items.length) :
    (spscCall (.write src) spsc).1 = (queueCall (T := T) ePolicy (.write src) q).1 ∧
      Refines ePolicy (spscCall (.write src) spsc).2 (queueCall (T := T) ePolicy (.write src) q).2 := by
  obtain ⟨rfl, rfl, R, h⟩ := refines
  obtain ⟨short, small⟩ := fits
  have size := toNat_length short
  have bound := h.bound
  have free := h.free
  obtain ⟨-, cut⟩ := spscPolicy_holds h short
  have short := cut (by omega)
  cases ePolicy : spsc.ePolicy with
  | truncate =>
    have result : spscPolicy spsc.ePolicy spsc.cap spsc.wp spsc.rp (BitVec.ofNat _ src.length) =
        (spscFree spsc, none) := by
      rw [short, ePolicy, shortPolicy]
    obtain ⟨t, run, kept, cap, policy⟩ := Holds.writeBuf result h (by omega) (by omega)
    simp only [spscCall, run, queueCall]
    refine ⟨?_, congrArg BitVec.toNat cap, policy.trans ePolicy, R, ?_⟩
    · rw [free, Queue.room, Nat.min_eq_right (by omega)]
    · rw [free] at kept
      exact kept
  | overwrite =>
    have result : spscPolicy spsc.ePolicy spsc.cap spsc.wp spsc.rp (BitVec.ofNat _ src.length) =
        (BitVec.ofNat _ src.length,
          some (BitVec.ofNat _ src.length - spscFree spsc)) := by
      rw [short, ePolicy, shortPolicy]
    have small := small ePolicy
    have drop : (BitVec.ofNat T.bits src.length - spscFree spsc).toNat =
        q.items.length + src.length - spsc.cap.toNat := by
      rw [BitVec.toNat_sub_of_le, size, free]
      · omega
      · rw [BitVec.le_def, size, free]
        omega
    have dropped := h.drop (k := BitVec.ofNat T.bits src.length - spscFree spsc) (by omega)
    obtain ⟨t, run, kept, cap, policy⟩ := Holds.writeBuf result dropped (by omega)
      (by rw [List.length_drop]; omega)
    rw [size, List.take_length, drop] at kept
    simp only [spscCall, run, queueCall, size]
    refine ⟨trivial, congrArg BitVec.toNat cap, policy.trans ePolicy,
      R + (q.items.length + src.length - spsc.cap.toNat), ?_⟩
    rw [q.appendDropping_items src small]
    exact kept
  | reject =>
    have result : spscPolicy spsc.ePolicy spsc.cap spsc.wp spsc.rp (BitVec.ofNat _ src.length) =
        (0, none) := by
      rw [short, ePolicy, shortPolicy]
    obtain ⟨t, run, kept, cap, policy⟩ := Holds.writeBuf result h (by simp) (by simpa using bound)
    simp only [spscCall, run, queueCall]
    refine ⟨?_, congrArg BitVec.toNat cap, policy.trans ePolicy, R, ?_⟩
    · rw [Queue.room, if_neg enough]
      simp
    · rw [Queue.appendWhole, dif_neg (by rw [Queue.room]; exact enough)]
      simpa using kept

theorem write_refines {q : Queue Byte cap} (fits : (Call.write (T := T) src).Fits ePolicy cap)
    (refines : Refines ePolicy spsc q) :
    (spscCall (.write src) spsc).1 = (queueCall (T := T) ePolicy (.write src) q).1 ∧
      Refines ePolicy (spscCall (.write src) spsc).2 (queueCall (T := T) ePolicy (.write src) q).2 := by
  by_cases enough : src.length ≤ cap - q.items.length
  · exact write_fitting fits.1 refines enough
  · exact write_beyond_room fits refines enough

theorem read_refines {q : Queue Byte cap} {size : Usz T} (refines : Refines ePolicy spsc q) :
    (spscCall (.read size) spsc).1 = (queueCall ePolicy (.read size) q).1 ∧
      Refines ePolicy (spscCall (.read size) spsc).2 (queueCall ePolicy (.read size) q).2 := by
  obtain ⟨rfl, rfl, R, h⟩ := refines
  obtain ⟨t, run, kept, cap, policy⟩ := h.readBuf size
  simp only [spscCall, run, queueCall]
  exact ⟨trivial, congrArg BitVec.toNat cap, policy, _, kept⟩

/-- From any counters `wp = rp`, any sequence of calls returns what it returns on
a queue of `cap` bytes, and `spsc_avail` and `spsc_free` tell its length and what
is left. -/
theorem calls_refine (pow : isPowerOf2 spsc.cap) (same : spsc.wp = spsc.rp) {calls : List (Call T)}
    (fits : ∀ call ∈ calls, call.Fits spsc.ePolicy spsc.cap.toNat) :
    let ring := trace spscCall calls spsc
    let queue := trace (queueCall spsc.ePolicy) calls (Queue.empty : Queue Byte spsc.cap.toNat)
    ring.1 = queue.1 ∧ (spscAvail ring.2).toNat = queue.2.items.length ∧
      (spscFree ring.2).toNat = spsc.cap.toNat - queue.2.items.length := by
  have start : Refines spsc.ePolicy spsc (Queue.empty : Queue Byte spsc.cap.toNat) :=
    ⟨rfl, rfl, _, Holds.empty spsc pow same⟩
  have simulates : ∀ {call : Call T} {spsc' : Spsc T} {q : Queue Byte spsc.cap.toNat},
      call.Fits spsc.ePolicy spsc.cap.toNat → Refines spsc.ePolicy spsc' q →
      (spscCall call spsc').1 = (queueCall spsc.ePolicy call q).1 ∧
        Refines spsc.ePolicy (spscCall call spsc').2 (queueCall spsc.ePolicy call q).2 := by
    intro call spsc' q fits refines
    cases call with
    | write src => exact write_refines fits refines
    | read size => exact read_refines refines
  obtain ⟨results, cap, _, R, h⟩ := trace_simulates simulates start fits
  exact ⟨results, h.avail, cap ▸ h.free⟩

/-- Both counters pass the end of the word, and a full ring loses its oldest byte. -/
theorem calls_refine_wrap :
    (trace spscCall [.write [1, 2, 3], .write [4, 5], .read 8]
      (⟨.overwrite, fun _ => 0, 4, 0xFFFFFFFE, 0xFFFFFFFE⟩ : Spsc .mcu)).1 =
        [.wrote 3, .wrote 2, .got [2, 3, 4, 5]] := by
  have fits : ∀ call ∈ ([.write [1, 2, 3], .write [4, 5], .read 8] : List (Call .mcu)),
      call.Fits .overwrite 4 := by
    intro call member
    simp only [List.mem_cons, List.not_mem_nil, or_false] at member
    rcases member with rfl | rfl | rfl
    · exact ⟨by decide, fun _ => by decide⟩
    · exact ⟨by decide, fun _ => by decide⟩
    · trivial
  let ring : Spsc .mcu := ⟨.overwrite, fun _ => 0, 4, 0xFFFFFFFE, 0xFFFFFFFE⟩
  have power : isPowerOf2 ring.cap := by decide
  exact (calls_refine power rfl fits).1

end AvaModule.SpscRing
