import AvaModule.Ds.Mpsc.Steps
import AvaModule.Lib.Transition

/-! What holds over whole runs of the ring, for any interleaving of the steps of
its producers and its consumer. -/
namespace AvaModule.MpscRing
open WrapRing Transition

variable {T : Target} {s t : St T} {v : Span} {L : Nat → Nat} {i : Nat}

/-- The span of a ring in which nothing is. -/
def emptySpan (cap : Nat) : Span := ⟨cap, 0, 0, cap, 0, 0⟩

section Runs
variable {cap : Usz T} {buf : Nat → Byte} {nproducers : Nat} {acts : List (Act T)}
variable (cells : 0 < cap.toNat) (cap_le : cap.toNat ≤ (offsetMask T).toNat)
include cells cap_le

theorem start_inv : Inv (start (fresh buf cap nproducers)) (emptySpan cap.toNat) fun _ => 0 := by
  have zero : (0 : Usz T) = pack 0 (BitVec.ofNat _ 0) := by cases T <;> decide
  have rest : (0 : Usz T).toNat = 0 := BitVec.toNat_zero
  refine ⟨⟨cells, cells, fun _ => ⟨rfl, rfl⟩, ?_⟩, cap_le, rfl, rest, rfl, fun _ _ => rfl, fun _ => rfl, ?_, ?_,
    ⟨fun _ => zero, ?_, ?_⟩, ⟨fun _ => rfl, ?_⟩, ⟨fun some => absurd rest some, ⟨?_, ?_⟩, Nat.zero_le _⟩,
    ⟨.nil, ?_⟩⟩
  · intro wrap
    exact absurd wrap (Nat.lt_irrefl 0)
  · intro i c claim
    cases claim
  · intro i j c d _ claim
    cases claim
  · intro i w busy
    cases busy
  · intro i j busy
    exact absurd rfl busy
  · intro wrap
    exact absurd wrap (Nat.lt_irrefl 0)
  · rw [rest]
    exact Nat.zero_le _
  · intro i c claim
    cases claim
  · intro b member
    cases member

theorem runs_inv (admits : Admits step InTime acts (start (fresh buf cap nproducers)))
    (run : runs step acts (start (fresh buf cap nproducers)) = some s) : ∃ v L, Inv s v L := by
  apply runs_invariant (P := fun s => ∃ v L, Inv s v L) ?_ ⟨_, _, start_inv cells cap_le⟩ admits run
  rintro act s t ⟨v, L, inv⟩ time next
  obtain ⟨v', L', _, inv'⟩ := step_effect inv time next
  exact ⟨v', L', inv'⟩

end Runs

/-- The regions that `mpsc_acquire` returns lie inside the ring and share no byte
with one another until it is released, and no byte of a region that is not pushed
is in the range the consumer has got. -/
structure Apart (s : St T) : Prop where
  inside : ∀ i msg off filled, s.pc i = .hold msg off filled → off.toNat + msg.length ≤ s.cap.toNat
  live_inside : ∀ b ∈ s.live, b < s.cap.toNat
  live : s.live.Nodup
  unpushed : ∀ off avail copied, s.consumer = .idle off avail copied → ∀ i c, (s.pc i).claim = some c →
    ∀ j < c.msg.length, ∀ k < avail.toNat, c.start + j ≠ off.toNat + k

theorem Inv.apart_ranges (inv : Inv s v L) : Apart s where
  inside i msg off filled pc := by
    have region := (inv.holder i _ (congrArg ProducerPc.claim pc)).region
    rw [inv.cap_eq]
    exact region.bound inv.valid
  live_inside b member := by
    obtain ⟨k, from_R, to_W, cell, _⟩ := inv.live.used b member
    rw [inv.cap_eq, ← cell]
    exact inv.valid.cell_lt from_R to_W
  live := inv.live.nodup
  unpushed off avail copied idle i c claim j inside k short same := by
    have ok := inv.consumer
    rw [ConsumerOk, idle] at ok
    obtain ⟨at_rp, ⟨run, stops⟩, _⟩ := ok
    have here := at_rp (by omega)
    have region := (inv.holder i c claim).region
    have range := region.range inv.valid
    have used := inv.valid.front_le run
    have position : L i + j = v.R + k := by
      apply inv.valid.cell_inj (by omega) (by omega) (by omega) (by omega)
      rw [region.cells inv.valid inside, inv.valid.cell_front (by omega), same, here]
    have before := stops i c claim
    omega

/-- In every interleaving in which no exchange succeeds after the wrap counter has
gone round since its `wp` was loaded, the regions are apart. -/
theorem runs_apart {cap : Usz T} {buf : Nat → Byte} {nproducers : Nat} {acts : List (Act T)}
    (cells : 0 < cap.toNat) (cap_le : cap.toNat ≤ (offsetMask T).toNat)
    (admits : Admits step InTime acts (start (fresh buf cap nproducers)))
    (run : runs step acts (start (fresh buf cap nproducers)) = some s) : Apart s := by
  obtain ⟨v, L, inv⟩ := runs_inv cells cap_le admits run
  exact inv.apart_ranges

/-- A region of two bytes is returned, and a pop stops before it. -/
theorem runs_apart_unpushed :
    ∃ s : St .mcu, runs step ([.reg 0, .producer 0 false, .acquire 0 [7, 8]] ++
        List.replicate 6 (.producer 0 false) ++ .pop :: List.replicate 5 .consumer)
        (start (fresh (fun _ => 0) 4 1)) = some s ∧ s.live = [0, 1] ∧ Apart s := by
  obtain ⟨s, run, live⟩ : ∃ s : St .mcu, runs (guarded step InTime) ([.reg 0, .producer 0 false, .acquire 0 [7, 8]] ++
      List.replicate 6 (.producer 0 false) ++ .pop :: List.replicate 5 .consumer)
      (start (fresh (fun _ => 0) 4 1)) = some s ∧ s.live = [0, 1] := ⟨_, rfl, rfl⟩
  obtain ⟨admits, run⟩ := runs_guarded run
  exact ⟨s, run, live, runs_apart (by decide) (by decide) admits run⟩

/-- The part of a region that is not filled. -/
def ProducerPc.unfilled : ProducerPc T → Nat
  | .hold msg _ filled => msg.length - filled
  | _ => 0

/-- A producer fills its region before it pushes it, and the consumer gives back
what it has copied before it pops again. -/
def Orderly (act : Act T) (s : St T) : Prop :=
  match act with
  | .push i => (s.pc i).unfilled = 0
  | .pop => s.consumer.taken = 0
  | .release size => size.toNat = s.consumer.taken
  | _ => True

instance (act : Act T) (s : St T) : Decidable (Orderly act s) :=
  match act with
  | .push _ | .pop | .release _ => inferInstanceAs (Decidable (_ = _))
  | .reg _ | .unreg _ | .acquire _ _ | .fill _ | .producer _ _ | .copy | .consumer => .isTrue trivial

def orderlyStep : Act T → St T → Option (St T) := guarded step Orderly

section Bytes
variable {b : Byte} {msg : List Byte} {wp target last avail : Usz T} {copied : Nat}

/-- A producer asks for a region and loads `wp`. -/
theorem ask_run (idle : s.pc i = .idle) (size : msg.length ≤ s.cap.toNat) (unlocked : ¬Locked s.wp) :
    runs orderlyStep [.acquire i msg, .producer i false] s =
      some { s.setPc i (.storeReserve msg s.wp) with seen := Function.update s.seen i s.laps } := by
  simp [runs, orderlyStep, guarded, Orderly, step, producerStep, idle, unlocked, size, St.setPc]

/-- A producer that has loaded `wp` loads `rp`. -/
theorem loads_run (pc : s.pc i = .storeReserve msg wp)
    (accepted : acquireTarget s.cap wp s.rp (BitVec.ofNat _ msg.length) = some target) :
    runs orderlyStep [.producer i false, .producer i false] s =
      some ((s.setReserve i ((wp &&& offsetMask T) ||| wrapLockBit T)).setPc i (.cas msg wp target)) := by
  simp [runs, orderlyStep, guarded, Orderly, step, producerStep, pc, St.setPc, St.setReserve, accepted]

/-- Its exchange succeeds and its region is returned. -/
theorem exchange_run (pc : s.pc i = .cas msg wp target) (same : s.wp = wp) (plain : ¬Locked target) :
    runs orderlyStep [.producer i false, .producer i false, .producer i false] s =
      some (((s.exchanged i msg wp target).setReserve i ((s.producers i).reservePos &&& ~~~wrapLockBit T)).returned i msg
        (wp &&& offsetMask T)) := by
  simp [runs, orderlyStep, guarded, Orderly, step, producerStep, pc, same, plain, St.setPc, St.setReserve, St.exchanged,
    St.returned]

/-- A producer fills and pushes the byte it has got. -/
def St.pushed (s : St T) (i : Nat) (b : Byte) (off : Usz T) : St T :=
  { s with
    buf := Function.update s.buf off.toNat b
    producers := Function.update s.producers i { s.producers i with reservePos := offsetMax T }
    pc := Function.update s.pc i .idle }

theorem fill_push_run {off : Usz T} (pc : s.pc i = .hold [b] off 0) :
    runs orderlyStep [.fill i, .push i] s = some (s.pushed i b off) := by
  simp [runs, orderlyStep, guarded, Orderly, ProducerPc.unfilled, step, pc, St.setPc, St.setReserve, St.pushed]

/-- `mpsc_write` of one byte. -/
def writeByte (i : Nat) (b : Byte) : List (Act T) :=
  .acquire i [b] :: List.replicate 6 (.producer i false) ++ [.fill i, .push i]

def St.wrote (s : St T) (i : Nat) (b : Byte) (target : Usz T) : St T :=
  let off := s.wp &&& offsetMask T
  { s with
    buf := Function.update s.buf off.toNat b
    wp := target
    accepted := s.accepted ++ [b]
    live := s.live ++ [off.toNat]
    laps := if off + BitVec.ofNat _ 1 ≥ s.cap then s.laps + 1 else s.laps
    seen := Function.update s.seen i s.laps }

theorem write_run (slot : s.producers i = ⟨offsetMax T, true⟩) (idle : s.pc i = .idle) (cells : 1 ≤ s.cap.toNat)
    (unlocked : ¬Locked s.wp) (accepted : acquireTarget s.cap s.wp s.rp (BitVec.ofNat _ 1) = some target)
    (plain : ¬Locked target) : runs orderlyStep (writeByte i b) s = some (s.wrote i b target) := by
  have parts : writeByte (T := T) i b = [.acquire i [b], .producer i false] ++ ([.producer i false, .producer i false] ++
      ([.producer i false, .producer i false, .producer i false] ++ [.fill i, .push i])) := rfl
  have asked : runs orderlyStep [.acquire i [b], .producer i false] s = some _ := ask_run idle cells unlocked
  have loads := loads_run (s := { s.setPc i (.storeReserve [b] s.wp) with seen := Function.update s.seen i s.laps }) (i := i)
    (Function.update_self _ _ _) accepted
  rw [parts, runs_append, asked, Option.bind_some, runs_append, loads, Option.bind_some, runs_append,
    exchange_run (setPc_pc _ _ _) rfl plain, Option.bind_some, fill_push_run (Function.update_self _ _ _)]
  simp [St.pushed, St.returned, St.exchanged, St.setReserve, St.setPc, St.wrote, MpscRing.cells, idle, slot]

/-- `mpsc_pop` in that many steps. -/
def popIn (steps : Nat) : List (Act T) := .pop :: List.replicate steps .consumer

theorem popIn_add (m n : Nat) : popIn (T := T) (m + n) = popIn m ++ List.replicate n .consumer := by
  simp only [popIn, List.replicate_add, List.cons_append]

section Pop
variable (idle : s.consumer = .idle last avail 0) (two : s.nproducers = 2)
  (slots : ∀ i < 2, s.producers i = ⟨offsetMax T, true⟩) (unlocked : ¬Locked s.wp)
include idle two slots unlocked

/-- No slot holds the pop back. -/
theorem pop_scan (waiting : s.rp ≠ s.wp &&& offsetMask T) : runs orderlyStep (popIn 6) s =
    some { s with consumer := .loadFlag s.rp (s.wp &&& offsetMask T) 2 (offsetMax T) } := by
  have first := slots 0 (by decide)
  have second := slots 1 (by decide)
  have max : ¬Locked (offsetMax T) := offsetMax_unlocked
  simp only [popIn, List.replicate_succ, List.replicate_zero, runs, orderlyStep, guarded, Orderly, ConsumerPc.taken,
    step, consumerStep, idle, Option.bind_some, if_neg unlocked, if_neg waiting, two, first, second, if_neg max, and_false,
    if_false, BitVec.lt_irrefl, Nat.zero_lt_two, Nat.one_lt_two, if_true, Nat.zero_add, Nat.reduceAdd]

theorem pop_upper (wrap : (s.wp &&& offsetMask T) < s.rp) (unset : s.warpEnd = offsetMax T) (inside : s.rp ≠ s.cap) :
    runs orderlyStep (popIn 9) s =
      some { s with consumer := .idle s.rp ((if offsetMax T < s.cap then offsetMax T else s.cap) - s.rp) 0 } := by
  rw [popIn_add 6 3, runs_append, pop_scan idle two slots unlocked (BitVec.ne_of_lt wrap).symm, Option.bind_some]
  simp only [List.replicate_succ, List.replicate_zero, runs, orderlyStep, guarded, Orderly, step, consumerStep,
    Option.bind_some, two, Nat.lt_irrefl, if_pos wrap, if_pos unset, inside, and_false, if_false, if_true]

theorem pop_lower (ahead : s.rp < (s.wp &&& offsetMask T)) :
    runs orderlyStep (popIn 7) s = some { s with consumer := .idle s.rp ((s.wp &&& offsetMask T) - s.rp) 0 } := by
  have straight : ¬(s.wp &&& offsetMask T) < s.rp := BitVec.not_lt.mpr (BitVec.le_of_lt ahead)
  have high : ¬offsetMax T < s.wp &&& offsetMask T := by
    rw [BitVec.lt_def, BitVec.toNat_and]
    have bound := mask_lt_offsetMax (T := T)
    have low := @Nat.and_le_right s.wp.toNat (offsetMask T).toNat
    omega
  rw [popIn_add 6 1, runs_append, pop_scan idle two slots unlocked (BitVec.ne_of_lt ahead), Option.bind_some]
  simp only [List.replicate_succ, List.replicate_zero, runs, orderlyStep, guarded, Orderly, step, consumerStep,
    Option.bind_some, two, Nat.lt_irrefl, if_neg straight, if_neg high, if_false, if_true]

end Pop

/-- The only byte that may be read is copied and given back. -/
def takeByte : List (Act T) := [.copy, .release 1, .consumer, .consumer]

def St.took (s : St T) (off : Usz T) : St T :=
  { s with
    output := s.output ++ [s.buf off.toNat]
    rp := releaseTarget s.cap s.rp 1
    live := s.live.filter fun b => ¬(s.rp.toNat ≤ b ∧ b < s.rp.toNat + 1)
    consumer := .idle (off + 1) 0 0 }

theorem take_run (idle : s.consumer = .idle last 1 0) : runs orderlyStep takeByte s = some (s.took last) := by
  have none : (1 : Usz T) - 1 = 0 := by cases T <;> rfl
  have all : (1 : Usz T) ≤ 1 := BitVec.le_def.mpr (Nat.le_refl _)
  simp only [takeByte, runs, orderlyStep, guarded, Orderly, ConsumerPc.taken, step, consumerStep, idle, Option.bind_some,
    one_toNat, none, all, if_true, Nat.zero_lt_one, Nat.zero_add, Nat.add_zero, St.took]

end Bytes

section Laps

/-- Nothing is in a ring of two cells and two slots, where the next byte goes to
`off`. The call of the first producer, if any, has only loaded `wp`. -/
structure Rest (off : Usz T) (s : St T) : Prop where
  cap : s.cap = 2
  warpEnd : s.warpEnd = offsetMax T
  wp : s.wp = pack s.laps off
  rp : s.rp = off
  nproducers : s.nproducers = 2
  slots : ∀ i < 2, s.producers i = ⟨offsetMax T, true⟩
  idle : s.pc 1 = .idle
  consumer : ∃ last, s.consumer = .idle last 0 0
  live : s.live = []
  output : s.output = s.accepted

theorem small_word : (0 : Usz T).toNat ≤ (offsetMask T).toNat ∧ (1 : Usz T).toNat ≤ (offsetMask T).toNat := by
  cases T <;> decide

theorem target_upper (n : Nat) :
    acquireTarget (2 : Usz T) (pack n 1) 1 (BitVec.ofNat _ 1) = some (pack (n + 1) 0) := by
  have fits := @acquireTarget_fits T 1 2 1 (BitVec.ofNat _ 1) ⟨2, 1, 1, 2, 0, 0⟩ (by cases T <;> rfl)
    (by cases T <;> rfl) (by cases T <;> rfl) (by decide) (by decide) (by cases T <;> decide)
    (by cases T <;> decide) n (by cases T <;> exact ⟨fun wrap => absurd wrap (by decide), fun _ _ => by decide⟩)
  rw [fits]
  cases T <;> rfl

theorem target_lower (n : Nat) :
    acquireTarget (2 : Usz T) (pack n 0) 0 (BitVec.ofNat _ 1) = some (pack n 1) := by
  have fits := @acquireTarget_fits T 0 2 0 (BitVec.ofNat _ 1) ⟨2, 0, 0, 2, 0, 0⟩ (by cases T <;> rfl)
    (by cases T <;> rfl) (by cases T <;> rfl) (by decide) (by decide) (by cases T <;> decide)
    (by cases T <;> decide) n
    (by cases T <;> exact ⟨fun wrap => absurd wrap (by decide), fun _ wrap => absurd wrap (by decide)⟩)
  rw [fits]
  cases T <;> rfl

namespace Rest

/-- The last byte of the ring is written and popped. -/
theorem fill_upper (rest : Rest 1 s) (b : Byte) : runs orderlyStep (writeByte 1 b ++ popIn 9) s =
    some { s.wrote 1 b (pack (s.laps + 1) 0) with consumer := .idle 1 1 0 } := by
  obtain ⟨last, idle⟩ := rest.consumer
  have accepted : acquireTarget s.cap s.wp s.rp (BitVec.ofNat _ 1) = some (pack (s.laps + 1) 0) := by
    rw [rest.cap, rest.wp, rest.rp]
    exact target_upper _
  have unlocked : ¬Locked s.wp := rest.wp ▸ pack_unlocked small_word.2 _
  have plain : ¬Locked (pack (T := T) (s.laps + 1) 0) := pack_unlocked small_word.1 _
  have offset : pack (T := T) (s.laps + 1) 0 &&& offsetMask T = 0 := pack_offset small_word.1 _
  have cells : 1 ≤ s.cap.toNat := by
    rw [rest.cap]
    cases T <;> decide
  rw [runs_append, write_run (rest.slots 1 (by decide)) rest.idle cells unlocked accepted plain, Option.bind_some,
    pop_upper (s := s.wrote 1 b (pack (s.laps + 1) 0)) idle rest.nproducers rest.slots plain]
  · simp only [St.wrote, rest.cap, rest.rp]
    congr 2
    cases T <;> rfl
  · simp only [St.wrote, offset, rest.rp]
    cases T <;> decide
  · exact rest.warpEnd
  · simp only [St.wrote, rest.cap, rest.rp]
    cases T <;> decide

/-- The first byte of the ring is written and popped. -/
theorem fill_lower (rest : Rest 0 s) (b : Byte) : runs orderlyStep (writeByte 1 b ++ popIn 7) s =
    some { s.wrote 1 b (pack s.laps 1) with consumer := .idle 0 1 0 } := by
  obtain ⟨last, idle⟩ := rest.consumer
  have accepted : acquireTarget s.cap s.wp s.rp (BitVec.ofNat _ 1) = some (pack s.laps 1) := by
    rw [rest.cap, rest.wp, rest.rp]
    exact target_lower _
  have unlocked : ¬Locked s.wp := rest.wp ▸ pack_unlocked small_word.1 _
  have plain : ¬Locked (pack (T := T) s.laps 1) := pack_unlocked small_word.2 _
  have offset : pack (T := T) s.laps 1 &&& offsetMask T = 1 := pack_offset small_word.2 _
  have cells : 1 ≤ s.cap.toNat := by
    rw [rest.cap]
    cases T <;> decide
  rw [runs_append, write_run (rest.slots 1 (by decide)) rest.idle cells unlocked accepted plain, Option.bind_some,
    pop_lower (s := s.wrote 1 b (pack s.laps 1)) idle rest.nproducers rest.slots plain]
  · simp only [St.wrote, offset, rest.rp]
    congr 2
    cases T <;> rfl
  · simp only [St.wrote, offset, rest.rp]
    cases T <;> decide

theorem upper (rest : Rest 1 s) (b : Byte) : ∃ t, runs orderlyStep (writeByte 1 b ++ popIn 9 ++ takeByte) s = some t ∧
    Rest 0 t ∧ t.laps = s.laps + 1 ∧ t.pc = s.pc := by
  have offset : s.wp &&& offsetMask T = 1 := rest.wp ▸ pack_offset small_word.2 _
  have laps : (s.wrote 1 b (pack (s.laps + 1) 0)).laps = s.laps + 1 := by
    simp only [St.wrote, offset, rest.cap]
    exact if_pos (by cases T <;> decide)
  rw [runs_append, rest.fill_upper, Option.bind_some, take_run rfl]
  refine ⟨_, rfl, ⟨rest.cap, rest.warpEnd, ?_, ?_, rest.nproducers, rest.slots, rest.idle, ⟨_, rfl⟩, ?_, ?_⟩, laps, rfl⟩
  · exact congrArg (pack · 0) laps.symm
  · simp only [St.took, St.wrote, rest.cap, rest.rp]
    cases T <;> rfl
  · simp [St.took, St.wrote, rest.live, rest.rp, offset]
  · simp only [St.took, St.wrote, rest.output, offset, one_toNat, Function.update_self]

theorem lower (rest : Rest 0 s) (b : Byte) : ∃ t, runs orderlyStep (writeByte 1 b ++ popIn 7 ++ takeByte) s = some t ∧
    Rest 1 t ∧ t.laps = s.laps ∧ t.pc = s.pc := by
  have offset : s.wp &&& offsetMask T = 0 := rest.wp ▸ pack_offset small_word.1 _
  have laps : (s.wrote 1 b (pack s.laps 1)).laps = s.laps := by
    simp only [St.wrote, offset, rest.cap]
    exact if_neg (by cases T <;> decide)
  rw [runs_append, rest.fill_lower, Option.bind_some, take_run rfl]
  refine ⟨_, rfl, ⟨rest.cap, rest.warpEnd, ?_, ?_, rest.nproducers, rest.slots, rest.idle, ⟨_, rfl⟩, ?_, ?_⟩, laps, rfl⟩
  · exact congrArg (pack · 1) laps.symm
  · simp only [St.took, St.wrote, rest.cap, rest.rp]
    cases T <;> rfl
  · simp [St.took, St.wrote, rest.live, rest.rp, offset]
  · simp only [St.took, St.wrote, rest.output, offset, zero_toNat, Function.update_self]

/-- The second producer and the consumer go round the ring. -/
def lap : List (Act T) := (writeByte 1 0 ++ popIn 9 ++ takeByte) ++ (writeByte 1 0 ++ popIn 7 ++ takeByte)

theorem laps (rest : Rest 1 s) (n : Nat) : ∃ t, runs orderlyStep (List.replicate n lap).flatten s = some t ∧
    Rest 1 t ∧ t.laps = s.laps + n ∧ t.pc = s.pc := by
  induction n generalizing s with
  | zero => exact ⟨s, rfl, rest, rfl, rfl⟩
  | succ n ih =>
    obtain ⟨u, upper, half, counted, pc⟩ := rest.upper 0
    obtain ⟨w, lower, whole, same, pc'⟩ := half.lower 0
    obtain ⟨t, rounds, kept, laps, pc''⟩ := ih whole
    have round : runs orderlyStep lap s = some w := by
      rw [lap, runs_append, upper, Option.bind_some, lower]
    refine ⟨t, ?_, kept, by omega, (pc''.trans pc').trans pc⟩
    rw [List.replicate_succ, List.flatten_cons, runs_append, round, Option.bind_some, rounds]

end Rest

end Laps

section Stale

/-- The counter of `wp` has gone round. -/
theorem pack_wraps (off : Usz T) : pack (wraps T) off = pack 0 off := by
  have same : lapWord T (wraps T) = lapWord T 0 := by
    apply BitVec.eq_of_toNat_eq
    rw [toNat_lapWord, toNat_lapWord, Nat.mod_self, Nat.zero_mod]
  rw [pack, same, pack]

/-- Nothing is in the ring, and the first producer has loaded `wp` when the counter
was 0 and `rp` before the last byte was taken. -/
structure Late (n : Nat) (s : St T) : Prop where
  cap : s.cap = 2
  wp : s.wp = pack n 0
  rp : s.rp = 0
  first : s.pc 0 = .cas [2] (pack 0 1) (pack 1 0)
  second : s.pc 1 = .idle
  others : ∀ i, 2 ≤ i → s.pc i = .out
  slot : s.producers 1 = ⟨offsetMax T, true⟩
  consumer : ∃ last, s.consumer = .idle last 0 0
  live : s.live = []
  output : s.output = s.accepted

theorem Rest.late (rest : Rest 1 s) (waiting : s.pc 0 = .storeReserve [2] (pack 0 1))
    (others : ∀ i, 2 ≤ i → s.pc i = .out) :
    ∃ t, runs orderlyStep (writeByte 1 0 ++ popIn 9 ++ [.producer 0 false, .producer 0 false] ++ takeByte) s = some t ∧
      Late (s.laps + 1) t := by
  have offset : s.wp &&& offsetMask T = 1 := rest.wp ▸ pack_offset small_word.2 _
  have back : releaseTarget (T := T) 2 1 1 = 0 := by cases T <;> rfl
  have accepted : acquireTarget s.cap (pack 0 1) s.rp (BitVec.ofNat _ 1) = some (pack 1 0) := by
    rw [rest.cap, rest.rp]
    exact target_upper 0
  have loads := loads_run (s := { s.wrote 1 0 (pack (s.laps + 1) 0) with consumer := .idle 1 1 0 }) waiting accepted
  rw [runs_append, runs_append, rest.fill_upper, Option.bind_some, loads, Option.bind_some, take_run rfl]
  refine ⟨_, rfl, rest.cap, rfl, ?_, ?_, ?_, ?_, ?_, ⟨_, rfl⟩, ?_, ?_⟩
  · simp only [St.setPc, St.setReserve, St.took, St.wrote, rest.cap, rest.rp]
    exact back
  · simp [St.setPc, St.took]
  · simp [St.setPc, St.setReserve, St.took, St.wrote, rest.idle]
  · intro i beyond
    have other : i ≠ 0 := by omega
    simp [St.setPc, St.setReserve, St.took, St.wrote, other, others i beyond]
  · simp [St.setPc, St.setReserve, St.took, St.wrote, rest.slots]
  · simp [St.setPc, St.setReserve, St.took, St.wrote, rest.live, rest.rp, offset]
  · simp only [St.setPc, St.setReserve, St.took, St.wrote, rest.output, offset, one_toNat, Function.update_self]

/-- Both regions of a full ring of two cells are granted, and `wp` says it is empty. -/
structure Stale (s : St T) : Prop where
  cap : s.cap = 2
  wp : s.wp = pack 1 0
  rp : s.rp = 0
  first : s.pc 0 = .hold [2] 1 0
  second : s.pc 1 = .idle
  others : ∀ i, 2 ≤ i → s.pc i = .out
  slot : s.producers 1 = ⟨offsetMax T, true⟩
  consumer : ∃ last, s.consumer = .idle last 0 0
  live : s.live = [0, 1]
  behind : s.output ++ [1, 2] = s.accepted

theorem Late.stale (late : Late (wraps T) s) :
    ∃ t, runs orderlyStep (writeByte 1 1 ++ [.producer 0 false, .producer 0 false, .producer 0 false]) s = some t ∧
      Stale t := by
  have cells : 1 ≤ s.cap.toNat := by
    rw [late.cap]
    cases T <;> decide
  have unlocked : ¬Locked s.wp := late.wp ▸ pack_unlocked small_word.1 _
  have offset : s.wp &&& offsetMask T = 0 := late.wp ▸ pack_offset small_word.1 _
  have one : pack (T := T) 0 1 &&& offsetMask T = 1 := pack_offset small_word.2 _
  have accepted : acquireTarget s.cap s.wp s.rp (BitVec.ofNat _ 1) = some (pack (wraps T) 1) := by
    rw [late.cap, late.wp, late.rp]
    exact target_lower _
  have exchange := exchange_run (s := s.wrote 1 1 (pack (wraps T) 1)) late.first (pack_wraps 1)
    (pack_unlocked small_word.1 _)
  rw [runs_append, write_run late.slot late.second cells unlocked accepted (pack_unlocked small_word.2 _), Option.bind_some,
    exchange]
  refine ⟨_, rfl, late.cap, rfl, late.rp, ?_, ?_, ?_, ?_, late.consumer, ?_, ?_⟩
  · simp only [St.returned, St.setPc, Function.update_self, one]
  · simp [St.returned, St.setPc, St.setReserve, St.exchanged, St.wrote, late.second]
  · intro i beyond
    have other : i ≠ 0 := by omega
    simp [St.returned, St.setPc, St.setReserve, St.exchanged, St.wrote, other, late.others i beyond]
  · simp [St.returned, St.setPc, St.setReserve, St.exchanged, St.wrote, late.slot]
  · simp only [St.returned, St.setPc, St.setReserve, St.exchanged, St.wrote, late.live, offset, one, one_toNat, zero_toNat]
    rfl
  · simp [St.returned, St.setPc, St.setReserve, St.exchanged, St.wrote, late.output]

end Stale

section Start
variable {buf : Nat → Byte}

/-- Both producers are in their slots. -/
def registered (T : Target) (buf : Nat → Byte) : St T :=
  { start (fresh buf 2 2) with
    producers := Function.update (Function.update (fun _ => ⟨0, false⟩) 0 ⟨offsetMax T, true⟩) 1 ⟨offsetMax T, true⟩
    pc := Function.update (Function.update (fun _ => .out) 0 .idle) 1 .idle }

theorem registered_run : runs orderlyStep [.reg 0, .producer 0 false, .reg 1, .producer 1 false]
    (start (fresh buf 2 2)) = some (registered T buf) := by
  simp [registered, runs, orderlyStep, guarded, Orderly, start, fresh, mpscInit, step, producerStep, St.setReserve,
    St.setPc, St.setFlag]

theorem registered_rest : Rest 0 (registered T buf) where
  cap := rfl
  warpEnd := rfl
  wp := by
    change (0 : Usz T) = pack 0 0
    cases T <;> decide
  rp := rfl
  nproducers := rfl
  slots i below := by
    obtain rfl | rfl : i = 0 ∨ i = 1 := by omega
    · simp [registered]
    · simp [registered]
  idle := by simp [registered]
  consumer := ⟨0, rfl⟩
  live := rfl
  output := rfl

/-- The first producer asks for a byte and loads `wp`. -/
theorem Rest.waits (rest : Rest 1 s) (idle : s.pc 0 = .idle) (zero : s.laps = 0) :
    ∃ t, runs orderlyStep [.acquire 0 [2], .producer 0 false] s = some t ∧ Rest 1 t ∧ t.laps = 0 ∧
      t.pc = Function.update s.pc 0 (.storeReserve [2] (pack 0 1)) := by
  have unlocked : ¬Locked s.wp := rest.wp ▸ pack_unlocked small_word.2 _
  have size : 1 ≤ s.cap.toNat := by
    rw [rest.cap]
    cases T <;> decide
  have word : s.wp = pack 0 1 := zero ▸ rest.wp
  refine ⟨_, ask_run idle size unlocked, ?_, zero, ?_⟩
  · refine ⟨rest.cap, rest.warpEnd, rest.wp, rest.rp, rest.nproducers, rest.slots, ?_, rest.consumer, rest.live, rest.output⟩
    simp [St.setPc, rest.idle]
  · simp only [St.setPc, word]

/-- A byte goes through the ring, and the first producer loads `wp`; the second goes
round until the counter is back. -/
def staleActs (T : Target) : List (Act T) :=
  [.reg 0, .producer 0 false, .reg 1, .producer 1 false] ++ (writeByte 1 0 ++ popIn 7 ++ takeByte) ++
    [.acquire 0 [2], .producer 0 false] ++ (List.replicate (wraps T - 1) Rest.lap).flatten ++
    (writeByte 1 0 ++ popIn 9 ++ [.producer 0 false, .producer 0 false] ++ takeByte) ++
    (writeByte 1 1 ++ [.producer 0 false, .producer 0 false, .producer 0 false])

theorem stale_run : ∃ s : St T, runs orderlyStep (staleActs T) (start (fresh buf 2 2)) = some s ∧ Stale s := by
  have begun : Rest 0 (registered T buf) := registered_rest
  obtain ⟨a, lower, rest, zero, pc⟩ := begun.lower 0
  obtain ⟨b, waits, rest, none, waiting⟩ := rest.waits (by simp [pc, registered]) zero
  obtain ⟨c, rounds, rest, counted, pc'⟩ := rest.laps (wraps T - 1)
  have many : 0 < wraps T := by cases T <;> decide
  have round : c.laps + 1 = wraps T := by omega
  have loaded : c.pc 0 = .storeReserve [2] (pack 0 1) := by
    rw [pc', waiting, Function.update_self]
  have others : ∀ i, 2 ≤ i → c.pc i = .out := by
    intro i beyond
    have first : i ≠ 0 := by omega
    have second : i ≠ 1 := by omega
    simp [pc', waiting, pc, registered, first, second]
  obtain ⟨d, loads, late⟩ := rest.late loaded others
  rw [round] at late
  obtain ⟨e, exchange, stale⟩ := late.stale
  refine ⟨e, ?_, stale⟩
  rw [staleActs, runs_append, runs_append, runs_append, runs_append, runs_append, registered_run, Option.bind_some, lower,
    Option.bind_some, waits, Option.bind_some, rounds, Option.bind_some, loads, Option.bind_some, exchange]

/-- One more byte is then granted the region of one that has not been read. -/
theorem apart_stale : ∃ s : St .mcu, runs step (staleActs .mcu ++ writeByte 1 3) (start (fresh (fun _ => 0) 2 2)) = some s ∧
    s.live = [0, 1, 0] ∧ ¬Apart s := by
  obtain ⟨a, run, stale⟩ := @stale_run .mcu fun _ => 0
  have unlocked : ¬Locked a.wp := stale.wp ▸ pack_unlocked small_word.1 _
  have accepted : acquireTarget a.cap a.wp a.rp (BitVec.ofNat _ 1) = some (pack 1 1) := by
    rw [stale.cap, stale.wp, stale.rp]
    exact target_lower 1
  have writes := @write_run .mcu a 1 3 _ stale.slot stale.second (by rw [stale.cap]; decide) unlocked accepted
    (pack_unlocked small_word.2 _)
  have offset : a.wp &&& offsetMask .mcu = 0 := stale.wp ▸ pack_offset small_word.1 _
  have live : (a.wrote 1 3 (pack 1 1)).live = [0, 1, 0] := by
    simp only [St.wrote, stale.live, offset]
    rfl
  have late : runs orderlyStep (staleActs .mcu ++ writeByte 1 3) (start (fresh (fun _ => 0) 2 2)) =
      some (a.wrote 1 3 (pack 1 1)) := by
    rw [runs_append, run]
    exact writes
  refine ⟨_, (runs_guarded late).2, live, ?_⟩
  intro apart
  have nodup := apart.live
  rw [live] at nodup
  exact absurd nodup (by decide)

end Start

end AvaModule.MpscRing
