import AvaModule.Ds.Mpsc.Runs

/-! The consumer gets the accepted bytes in their order, and all of them once no producer is at
work. -/
namespace AvaModule.MpscRing
open WrapRing Transition

variable {T : Target} {s t : St T} {v v' : Span} {L L' : Nat → Nat} {i k n : Nat} {act : Act T} {msg : List Byte}
  {filled : Nat}

/-- The byte at a position is still to be filled by a producer. -/
def Open (s : St T) (L : Nat → Nat) (k : Nat) : Prop :=
  ∃ i msg filled, (s.pc i).part = some (msg, filled) ∧ L i + filled ≤ k ∧ k < L i + msg.length

/-- The positions count the accepted bytes. What has been read is there up to the last copy, the
regions have the positions of their messages, and what has been filled is in its cell. -/
structure Delivered (s : St T) (v : Span) (L : Nat → Nat) : Prop where
  output : s.output = s.accepted.take (v.R + s.consumer.taken)
  claimed : ∀ i msg filled, (s.pc i).part = some (msg, filled) → ∀ j < msg.length, s.accepted[L i + j]? = msg[j]?
  stored : ∀ k, v.R ≤ k → k < v.W → ¬Open s L k → s.accepted[k]? = some (s.buf (v.cell k))

section Parts

theorem part_claim (part : (s.pc i).part = some (msg, filled)) :
    ∃ c, (s.pc i).claim = some c ∧ c.msg = msg ∧ c.filled = filled := by
  obtain ⟨c, claim, same⟩ := Option.map_eq_some_iff.mp part
  exact ⟨c, claim, congrArg Prod.fst same, congrArg Prod.snd same⟩

/-- The region of a message is in use. -/
theorem Inv.part_range (inv : Inv s v L) (part : (s.pc i).part = some (msg, filled)) :
    v.R ≤ L i ∧ L i + msg.length ≤ v.W := by
  obtain ⟨c, claim, rfl, _⟩ := part_claim part
  exact (inv.holder i c claim).region.range inv.valid

/-- No more is copied than may be read. -/
theorem Inv.taken_le (inv : Inv s v L) : ∃ n, s.consumer.taken ≤ n ∧ Front s v L n := by
  have ok := inv.consumer
  rw [ConsumerOk] at ok
  cases pc : s.consumer with
  | idle off avail copied =>
    rw [pc] at ok
    exact ⟨avail.toNat, ok.2.2, ok.2.1⟩
  | releaseLoad off avail size =>
    rw [pc] at ok
    exact ⟨avail.toNat, BitVec.le_def.mp ok.2.2, ok.2.1⟩
  | releaseStore off avail size rp =>
    rw [pc] at ok
    exact ⟨avail.toNat, BitVec.le_def.mp ok.2.2.1, ok.2.1⟩
  | loadRp | loadWp | loadFlag | loadReserve | testWarpEnd | loadWarpEnd | testClear | clearWarpEnd | restart =>
    exact ⟨0, Nat.le_refl 0, inv.front_none⟩

/-- What the consumer may read has been filled. -/
theorem Front.closed (front : Front s v L n) (below : k < v.R + n) : ¬Open s L k := by
  rintro ⟨i, msg, filled, part, from_L, _⟩
  obtain ⟨c, claim, rfl, rfl⟩ := part_claim part
  have stop := front.stops i c claim
  omega

end Parts

namespace Delivered
variable (bytes : Delivered s v L)
include bytes

/-- The bytes stay, and the parts of the producers. -/
theorem calm (buf : t.buf = s.buf) (accepted : t.accepted = s.accepted) (output : t.output = s.output)
    (part : ∀ j, (t.pc j).part = (s.pc j).part) (taken : t.consumer.taken = s.consumer.taken) : Delivered t v L := by
  refine ⟨?_, ?_, ?_⟩
  · rw [output, accepted, taken]
    exact bytes.output
  · intro i msg filled claim
    rw [accepted]
    exact bytes.claimed i msg filled (part i ▸ claim)
  · intro k from_R to_W closed
    rw [accepted, buf]
    apply bytes.stored k from_R to_W
    rintro ⟨i, msg, filled, claim, range⟩
    exact closed ⟨i, msg, filled, (part i).trans claim, range⟩

/-- The byte of a message is put where its position is. -/
theorem fill (inv : Inv s v L) {off : Usz T} (pc : s.pc i = .hold msg off filled) (room : filled < msg.length) :
    Delivered { s.setPc i (.hold msg off (filled + 1)) with
      buf := Function.update s.buf (off.toNat + filled) (msg.getD filled 0) } v L := by
  have part : (s.pc i).part = some (msg, filled) := by rw [pc]; rfl
  have range := inv.part_range part
  have region := (inv.holder i _ (congrArg ProducerPc.claim pc)).region
  have place : v.cell (L i + filled) = off.toNat + filled := region.cells inv.valid room
  refine ⟨bytes.output, ?_, ?_⟩
  · intro j msg' filled' part'
    by_cases self : j = i
    · subst self
      simp only [St.setPc, Function.update_self] at part'
      cases part'
      exact bytes.claimed j msg filled part
    · simp only [St.setPc, Function.update_of_ne self] at part'
      exact bytes.claimed j msg' filled' part'
  · intro k from_R to_W closed
    change s.accepted[k]? = some (Function.update s.buf (off.toNat + filled) (msg.getD filled 0) (v.cell k))
    by_cases here : k = L i + filled
    · subst here
      rw [bytes.claimed i msg filled part filled room, place, Function.update_self]
      simp [room]
    · have other : v.cell k ≠ off.toNat + filled := by
        intro same
        exact here (inv.valid.cell_inj from_R to_W (by omega) (by omega) (same.trans place.symm))
      rw [Function.update_of_ne other]
      apply bytes.stored k from_R to_W
      rintro ⟨j, msg', filled', part', lower, upper⟩
      apply closed
      by_cases self : j = i
      · subst self
        obtain ⟨rfl, rfl⟩ := Prod.mk.inj (Option.some.inj (part.symm.trans part'))
        exact ⟨j, msg, filled + 1, by simp only [St.setPc, Function.update_self]; rfl, by omega, upper⟩
      · exact ⟨j, msg', filled', by simp only [St.setPc, Function.update_of_ne self]; exact part', lower, upper⟩

/-- Nothing of a region is open when it is pushed. -/
theorem push {off : Usz T} (pc : s.pc i = .hold msg off filled) (full : msg.length ≤ filled) :
    Delivered ((s.setReserve i (offsetMax T)).setPc i .idle) v L := by
  have part : (s.pc i).part = some (msg, filled) := by rw [pc]; rfl
  refine ⟨bytes.output, ?_, ?_⟩
  · intro j msg' filled' part'
    by_cases self : j = i
    · subst self
      rw [setPc_pc] at part'
      cases part'
    · simp only [St.setPc, Function.update_of_ne self] at part'
      exact bytes.claimed j msg' filled' part'
  · intro k from_R to_W closed
    apply bytes.stored k from_R to_W
    rintro ⟨j, msg', filled', part', lower, upper⟩
    by_cases self : j = i
    · subst self
      obtain ⟨rfl, rfl⟩ := Prod.mk.inj (Option.some.inj (part.symm.trans part'))
      omega
    · exact closed ⟨j, msg', filled', by simp only [St.setPc, Function.update_of_ne self]; exact part', lower, upper⟩

/-- The next message has the positions after those in use. -/
theorem exchange (inv : Inv s v L) {wp target : Usz T} (pc : s.pc i = .cas msg wp target) (fits : v.Fits msg.length) :
    Delivered (s.exchanged i msg wp target) (v.next msg.length) (Function.update L i v.W) := by
  have W := inv.W_eq
  have free : (s.pc i).part = none := by rw [pc]; rfl
  have mine : ((s.exchanged i msg wp target).pc i).part = some (msg, 0) := by
    simp only [St.exchanged, St.setPc, Function.update_self]
    rfl
  have others : ∀ j, j ≠ i → (s.exchanged i msg wp target).pc j = s.pc j := fun _ ne => Function.update_of_ne ne _ _
  refine ⟨?_, ?_, ?_⟩
  · obtain ⟨n, taken, front⟩ := inv.taken_le
    have used := inv.valid.front_le front.run
    change s.output = (s.accepted ++ msg).take (v.R + s.consumer.taken)
    rw [List.take_append_of_le_length (by omega)]
    exact bytes.output
  · intro j msg' filled' part' m inside
    change (s.accepted ++ msg)[Function.update L i v.W j + m]? = msg'[m]?
    by_cases self : j = i
    · subst self
      rw [mine] at part'
      cases part'
      rw [Function.update_self, W, List.getElem?_append_right (Nat.le_add_right _ _), Nat.add_sub_cancel_left]
    · rw [others j self] at part'
      have range := inv.part_range part'
      rw [Function.update_of_ne self, List.getElem?_append_left (by omega)]
      exact bytes.claimed j msg' filled' part' m inside
  · intro k from_R to_W closed
    change v.R ≤ k at from_R
    change k < v.W + msg.length at to_W
    have old : k < v.W := by
      by_contra new
      exact closed ⟨i, msg, 0, mine, by rw [Function.update_self]; omega, by rw [Function.update_self]; omega⟩
    change (s.accepted ++ msg)[k]? = some (s.buf ((v.next msg.length).cell k))
    rw [List.getElem?_append_left (by omega), inv.valid.cell_next fits from_R old]
    apply bytes.stored k from_R old
    rintro ⟨j, msg', filled', part', range⟩
    have ne : j ≠ i := by
      rintro rfl
      rw [free] at part'
      cases part'
    exact closed ⟨j, msg', filled', by rw [others j ne]; exact part', by rwa [Function.update_of_ne ne]⟩

/-- The byte that is copied is the next one. -/
theorem copy (inv : Inv s v L) {off avail : Usz T} {copied : Nat} (pc : s.consumer = .idle off avail copied)
    (room : copied < avail.toNat) :
    Delivered { s with
      output := s.output ++ [s.buf (off.toNat + copied)]
      consumer := .idle off avail (copied + 1) } v L := by
  have ok := inv.consumer
  rw [ConsumerOk, pc] at ok
  obtain ⟨at_rp, front, _⟩ := ok
  have run := front.run
  have used := inv.valid.front_le run
  have here : v.cell (v.R + copied) = off.toNat + copied := by
    rw [inv.valid.cell_front (by omega), at_rp (by omega)]
  have next := bytes.stored (v.R + copied) (by omega) (by omega) (front.closed (by omega))
  have before := bytes.output
  rw [pc] at before
  refine ⟨?_, bytes.claimed, bytes.stored⟩
  change s.output ++ [s.buf (off.toNat + copied)] = s.accepted.take (v.R + (copied + 1))
  rw [← Nat.add_assoc, List.take_add_one, next, here, before]
  rfl

/-- What has been copied is given back. -/
theorem releaseStore (inv : Inv s v L) {off avail size rp : Usz T} (pc : s.consumer = .releaseStore off avail size rp) :
    Delivered { s with
      rp := releaseTarget s.cap rp size
      live := s.live.filter fun b => ¬(rp.toNat ≤ b ∧ b < rp.toNat + size.toNat)
      consumer := .idle (off + size) (avail - size) 0 } (v.drop size.toNat) L := by
  have ok := inv.consumer
  rw [ConsumerOk, pc] at ok
  obtain ⟨_, front, part, _⟩ := ok
  have run := front.run
  rw [BitVec.le_def] at part
  refine ⟨?_, bytes.claimed, ?_⟩
  · have before := bytes.output
    rw [pc] at before
    exact before
  · intro k from_R to_W closed
    change v.R + size.toNat ≤ k at from_R
    rw [inv.valid.cell_drop (by omega) from_R to_W]
    exact bytes.stored k (by omega) to_W closed

theorem restart (inv : Inv s v L) (pc : s.consumer = .restart) :
    Delivered { s with rp := 0, consumer := .loadWp 0 } v.restart L := by
  have exhausted := inv.consumer
  rw [ConsumerOk, pc] at exhausted
  change Exhausted s v at exhausted
  refine ⟨?_, bytes.claimed, ?_⟩
  · have before := bytes.output
    rw [pc] at before
    exact before
  · intro k from_R to_W closed
    rw [inv.valid.cell_restart exhausted.wrap exhausted.empty from_R to_W]
    exact bytes.stored k from_R to_W closed

theorem step (inv : Inv s v L) (effect : Effect s v L act t v' L') (orderly : Orderly act s) : Delivered t v' L' := by
  cases effect with
  | calm buf accepted output part taken => exact bytes.calm buf accepted output part taken
  | fill pc room => exact bytes.fill inv pc room
  | push pc =>
    rw [Orderly, pc] at orderly
    exact bytes.push pc (Nat.le_of_sub_eq_zero orderly)
  | exchange pc granted => exact bytes.exchange inv pc granted.fits
  | pop pc => exact bytes.calm rfl rfl rfl (fun _ => rfl) orderly.symm
  | copy pc room => exact bytes.copy inv pc room
  | release pc part => exact bytes.calm rfl rfl rfl (fun _ => rfl) orderly
  | releaseStore pc => exact bytes.releaseStore inv pc
  | restart pc => exact bytes.restart inv pc

end Delivered

section Rest

/-- No call of a producer is under way. -/
def AtRest (s : St T) : Prop := ∀ i, s.pc i = .out ∨ s.pc i = .idle

/-- The consumer is in `mpsc_pop`. -/
def ConsumerPc.popping : ConsumerPc T → Prop
  | .idle _ _ _ | .releaseLoad _ _ _ | .releaseStore _ _ _ _ => False
  | _ => True

/-- The pop has found the ring as it is: bytes are in it, and no slot holds them back. -/
structure Found (s : St T) (rp wp ready : Usz T) : Prop where
  wp_eq : wp = s.wp &&& offsetMask T
  some : rp ≠ wp
  ready : ready = offsetMax T

/-- What `mpsc_pop` knows while no producer is at work. It ends with nothing only if
nothing is in the ring. -/
def PopRest (s : St T) : Prop :=
  match s.consumer with
  | .idle _ avail _ => avail = 0 → s.rp = s.wp &&& offsetMask T
  | .loadFlag rp wp _ ready => Found s rp wp ready
  | .loadReserve rp wp i ready => Found s rp wp ready ∧ (s.producers i).reservePos = offsetMax T
  | .testWarpEnd _ ready | .loadWarpEnd _ ready | .testClear _ ready _ => ready = offsetMax T
  | _ => True

/-- A step taken in `mpsc_pop` while no producer is at work. -/
structure Resting (s : St T) : Prop where
  rest : AtRest s
  popping : s.consumer.popping

namespace Resting
variable (resting : Resting s)
include resting

/-- A producer can only begin a call. -/
theorem calls (other : act ≠ .consumer) (next : MpscRing.step act s = some t) :
    t.consumer = s.consumer ∧ t.wp = s.wp ∧
      ∀ j, (s.producers j).reservePos = offsetMax T → (t.producers j).reservePos = offsetMax T := by
  cases act with
  | reg i =>
    have next : (if i < s.nproducers then some ((s.setReserve i (offsetMax T)).setPc i .setFlag) else none) = some t := by
      rcases resting.rest i with pc | pc <;> simpa only [MpscRing.step, pc] using next
    obtain ⟨_, rfl⟩ := Option.ite_none_right_eq_some.mp next |>.imp_right Option.some.inj
    refine ⟨rfl, rfl, fun j free => ?_⟩
    by_cases self : j = i
    · subst self
      rw [setPc_producers, setReserve_self]
    · simpa only [setPc_producers, St.setReserve, Function.update_of_ne self] using free
  | unreg i =>
    rcases resting.rest i with pc | pc <;> simp only [MpscRing.step, pc, reduceCtorEq, Option.some.injEq] at next
    subst next
    refine ⟨rfl, rfl, fun j free => ?_⟩
    by_cases self : j = i
    · subst self
      rw [setPc_producers, setFlag_self]
      exact free
    · simpa only [setPc_producers, St.setFlag, Function.update_of_ne self] using free
  | acquire i msg =>
    rcases resting.rest i with pc | pc <;> simp only [MpscRing.step, pc, reduceCtorEq] at next
    obtain ⟨_, rfl⟩ := Option.ite_none_right_eq_some.mp next |>.imp_right Option.some.inj
    exact ⟨rfl, rfl, fun _ => id⟩
  | fill i | push i =>
    rcases resting.rest i with pc | pc <;> simp [MpscRing.step, pc] at next
  | producer i spurious =>
    rcases resting.rest i with pc | pc <;> simp [MpscRing.step, producerStep, pc] at next
  | pop | copy | release size =>
    have popping := resting.popping
    simp only [MpscRing.step] at next
    split at next
    next pc =>
      rw [pc] at popping
      exact popping.elim
    next => cases next
  | consumer => exact absurd rfl other

/-- Such a step is in time and in order. -/
theorem proper (next : MpscRing.step act s = some t) : InTime act s ∧ Orderly act s := by
  cases act with
  | producer i spurious =>
    rcases resting.rest i with pc | pc <;> simp [MpscRing.step, producerStep, pc] at next
  | push i =>
    rcases resting.rest i with pc | pc <;> simp [MpscRing.step, pc] at next
  | pop | release size =>
    have popping := resting.popping
    simp only [MpscRing.step] at next
    split at next
    next pc =>
      rw [pc] at popping
      exact popping.elim
    next => cases next
  | reg i | unreg i | acquire i msg | fill i | copy | consumer => exact ⟨trivial, trivial⟩

end Resting

theorem PopRest.transport (known : PopRest s) (popping : s.consumer.popping) (consumer : t.consumer = s.consumer)
    (wp : t.wp = s.wp)
    (slots : ∀ j, (s.producers j).reservePos = offsetMax T → (t.producers j).reservePos = offsetMax T) : PopRest t := by
  have found {rp word ready : Usz T} (found : Found s rp word ready) : Found t rp word ready :=
    ⟨by rw [wp]; exact found.wp_eq, found.some, found.ready⟩
  unfold PopRest at known ⊢
  rw [consumer]
  cases pc : s.consumer <;> rw [pc] at known popping <;> dsimp only at known ⊢
  case idle => exact popping.elim
  case loadFlag => exact found known
  case loadReserve => exact ⟨found known.1, slots _ known.2⟩
  case testWarpEnd | loadWarpEnd | testClear => exact known

/-- A range that ends where it begins, below the end that is published. -/
theorem least_sub {ready last rp : Usz T} (le : last.toNat ≤ ready.toNat)
    (none : (if ready < last then ready else last) - rp = 0) : last = rp := by
  rw [if_neg (by rw [BitVec.lt_def]; omega)] at none
  calc
    last = last - rp + rp := (BitVec.sub_add_cancel last rp).symm
    _ = rp := by rw [none]; exact BitVec.zero_add rp

/-- The consumer's steps of a pop while no producer is at work. -/
theorem PopRest.consumer (known : PopRest s) (inv : Inv s v L) (resting : Resting s) (next : consumerStep s = some t) :
    PopRest t := by
  have ok := inv.consumer
  have mask := mask_lt_offsetMax (T := T)
  cases consumer_move next with
  | wait => exact known
  | loadRp | clear | cleared | clearWarpEnd | restart => trivial
  | releaseLoad pc | releaseStore pc =>
    have popping := resting.popping
    rw [pc] at popping
    exact popping.elim
  | @empty rp pc empty =>
    rw [ConsumerOk, pc] at ok
    have at_rp : rp = s.rp := BitVec.eq_of_toNat_eq (ok.trans inv.rp_eq.symm)
    exact fun _ => at_rp.symm.trans empty
  | scan pc unlocked waiting => exact ⟨rfl, waiting, rfl⟩
  | @used rp wp ready i pc used =>
    rw [PopRest, pc] at known
    refine ⟨⟨known.wp_eq, known.some, known.ready⟩, ?_⟩
    have slot := inv.producer i
    rcases resting.rest i with out | idle
    · rw [out] at slot
      exact absurd used (by rw [slot]; simp)
    · rw [idle] at slot
      exact slot.2
  | unused pc =>
    rw [PopRest, pc] at known
    exact ⟨known.wp_eq, known.some, known.ready⟩
  | wrapped pc =>
    rw [PopRest, pc] at known
    exact known.ready
  | @straight rp wp ready i pc =>
    rw [PopRest, pc] at known
    have upto : wp.toNat ≤ ready.toNat := by
      have low := @Nat.and_le_right s.wp.toNat (offsetMask T).toNat
      rw [known.wp_eq, known.ready, BitVec.toNat_and]
      omega
    exact fun none => absurd (least_sub upto none).symm known.some
  | less pc unlocked less =>
    rw [PopRest, pc] at known
    obtain ⟨found, free⟩ := known
    rw [free, found.ready] at less
    exact absurd less.2 (BitVec.lt_irrefl _)
  | more pc =>
    rw [PopRest, pc] at known
    exact ⟨known.1.wp_eq, known.1.some, known.1.ready⟩
  | unset pc | set pc | loadWarpEnd pc =>
    rw [PopRest, pc] at known
    exact known
  | @upper rp ready warpEnd pc filled =>
    rw [PopRest, pc] at known
    rw [ConsumerOk, pc] at ok
    have upto : warpEnd.toNat ≤ ready.toNat := by
      have lim := inv.valid.wrapped ok.1.wrap
      have cap_le := inv.cap_le
      rw [known, ok.2]
      omega
    exact fun none => absurd ⟨known, (least_sub upto none).symm⟩ filled

/-- A step of a pop while no producer is at work. -/
theorem PopRest.step (known : PopRest s) (inv : Inv s v L) (resting : Resting s) (next : MpscRing.step act s = some t) :
    PopRest t := by
  by_cases own : act = .consumer
  · subst own
    exact known.consumer inv resting next
  · obtain ⟨consumer, wp, slots⟩ := resting.calls own next
    exact known.transport resting.popping consumer wp slots

end Rest

section Runs
variable {cap : Usz T} {buf : Nat → Byte} {nproducers : Nat} {acts steps : List (Act T)}

/-- What every run keeps. -/
def Kept (s : St T) : Prop := ∃ v L, Inv s v L ∧ Delivered s v L

theorem Kept.step (kept : Kept s) (time : InTime act s) (orderly : Orderly act s) (next : MpscRing.step act s = some t) :
    Kept t := by
  obtain ⟨v, L, inv, bytes⟩ := kept
  obtain ⟨v', L', effect, inv'⟩ := step_effect inv time next
  exact ⟨v', L', inv', bytes.step inv effect orderly⟩

theorem Kept.output (kept : Kept s) : s.output <+: s.accepted := by
  obtain ⟨v, L, _, bytes⟩ := kept
  rw [bytes.output]
  exact List.take_prefix _ _

/-- A ring whose `wp` says it is empty has been read whole. -/
theorem Kept.whole (kept : Kept s) (rest : AtRest s) {off avail : Usz T} (idle : s.consumer = .idle off avail 0)
    (empty : s.rp = s.wp &&& offsetMask T) : s.output = s.accepted := by
  obtain ⟨v, L, inv, bytes⟩ := kept
  have free : ∀ i, (s.pc i).wrapping = none := by
    intro i
    rcases rest i with pc | pc <;> rw [pc] <;> rfl
  have here : v.rp = v.off := by
    rw [← inv.rp_eq, empty, inv.lock.free free, pack_offset inv.off_small, inv.toNat_off]
  have used := (inv.valid.straight (Nat.le_of_eq here)).2
  have W := inv.W_eq
  rw [bytes.output, idle]
  exact List.take_of_length_le (by rw [ConsumerPc.taken]; omega)

theorem fresh_kept (cells : 0 < cap.toNat) (cap_le : cap.toNat ≤ (offsetMask T).toNat) :
    Kept (start (fresh buf cap nproducers)) := by
  refine ⟨_, _, start_inv cells cap_le, rfl, ?_, ?_⟩
  · intro i msg filled part
    cases part
  · intro k _ below
    exact absurd below (Nat.not_lt_zero k)

/-- The steps of a pop that is taken while no producer is at work. -/
theorem Kept.pop (kept : Kept s) (orderly : Orderly .pop s) (begun : MpscRing.step .pop s = some t)
    (resting : Admits MpscRing.step (fun _ s => Resting s) steps t) (run : runs MpscRing.step steps t = some u) :
    Kept u ∧ PopRest u := by
  have known : PopRest t := by
    simp only [MpscRing.step] at begun
    split at begun <;> cases begun
    trivial
  have time : InTime (.pop : Act T) s := trivial
  refine runs_invariant (P := fun s => Kept s ∧ PopRest s) ?_ ⟨kept.step time orderly begun, known⟩ resting run
  rintro act s t ⟨kept, known⟩ resting next
  obtain ⟨time, orderly⟩ := resting.proper next
  obtain ⟨v, L, inv, _⟩ := id kept
  exact ⟨kept.step time orderly next, known.step inv resting next⟩

/-- What the consumer has copied is the first part of what has been accepted. If
`mpsc_pop` is called and hands back nothing while no producer is at work, it is all of it. -/
theorem runs_delivered (cells : 0 < cap.toNat) (cap_le : cap.toNat ≤ (offsetMask T).toNat)
    (admits : Admits step (fun act s => InTime act s ∧ Orderly act s) acts (start (fresh buf cap nproducers)))
    (run : runs step acts (start (fresh buf cap nproducers)) = some s) :
    s.output <+: s.accepted ∧
      ∀ t steps u off, Orderly .pop s → step .pop s = some t → Admits step (fun _ s => Resting s) steps t →
        runs step steps t = some u → AtRest u → u.consumer = .idle off 0 0 → u.output = u.accepted := by
  have kept : Kept s := by
    apply runs_invariant (P := Kept) ?_ (fresh_kept cells cap_le) admits run
    exact fun kept ok next => kept.step ok.1 ok.2 next
  refine ⟨kept.output, ?_⟩
  intro t steps u off orderly begun resting run rest idle
  obtain ⟨kept, known⟩ := kept.pop orderly begun resting run
  rw [PopRest, idle] at known
  exact kept.whole rest idle (known rfl)

/-- Two bytes are written, and the consumer copies them and gives them back. -/
def passTwo : List (Act .mcu) :=
  [.reg 0, .producer 0 false, .acquire 0 [7, 8]] ++ List.replicate 6 (.producer 0 false) ++ [.fill 0, .fill 0, .push 0] ++
    popIn 5 ++ [.copy, .copy, .release 2, .consumer, .consumer]

/-- The pop after that hands back nothing. -/
theorem runs_delivered_two :
    ∃ s t u, runs step passTwo (start (fresh (fun _ => 0) 4 1)) = some s ∧ s.output <+: s.accepted ∧ step .pop s = some t ∧
      runs step [.consumer, .consumer] t = some u ∧ u.output = [7, 8] ∧ u.output = u.accepted := by
  obtain ⟨s, run, orderly, t, begun, resting, u, popped, rest, idle, output⟩ :
      ∃ s, runs (guarded step fun act s => InTime act s ∧ Orderly act s) passTwo (start (fresh (fun _ => 0) 4 1)) = some s ∧
        Orderly .pop s ∧ ∃ t, step .pop s = some t ∧ Admits step (fun _ s => Resting s) [.consumer, .consumer] t ∧
        ∃ u, runs step [.consumer, .consumer] t = some u ∧ AtRest u ∧ u.consumer = .idle 2 0 0 ∧ u.output = [7, 8] := by
    refine ⟨_, rfl, rfl, _, rfl, .cons ⟨?_, trivial⟩ rfl (.cons ⟨?_, trivial⟩ rfl trivial), _, rfl, ?_, rfl, rfl⟩ <;>
      rintro (_ | i) <;> first | exact .inr rfl | exact .inl rfl
  obtain ⟨admits, run⟩ := runs_guarded run
  have delivered := runs_delivered (by decide) (by decide) admits run
  exact ⟨s, t, u, run, delivered.1, begun, popped, output,
    delivered.2 t _ u 2 orderly begun resting popped rest idle⟩

/-- A pop of a ring whose `wp` says it is empty hands back nothing. -/
theorem pop_empty_run {last avail : Usz T} (idle : s.consumer = .idle last avail 0) (unlocked : ¬Locked s.wp)
    (empty : s.rp = s.wp &&& offsetMask T) :
    runs orderlyStep (popIn 2) s = some { s with consumer := .idle s.rp 0 0 } := by
  simp only [popIn, List.replicate_succ, List.replicate_zero, runs, orderlyStep, guarded, Orderly, ConsumerPc.taken,
    step, consumerStep, idle, Option.bind_some, if_neg unlocked, if_pos empty, if_true]

/-- A full ring whose `wp` says it is empty is popped. -/
theorem Stale.pop (stale : Stale s) : ∃ t, runs orderlyStep ([.fill 0, .push 0] ++ popIn 2) s = some t ∧ AtRest t ∧
    t.consumer = .idle 0 0 0 ∧ t.output ≠ t.accepted := by
  obtain ⟨last, idle⟩ := stale.consumer
  have unlocked : ¬Locked s.wp := stale.wp ▸ pack_unlocked small_word.1 _
  have empty : s.rp = s.wp &&& offsetMask T := by
    rw [stale.rp, stale.wp]
    exact (pack_offset small_word.1 _).symm
  have pop := pop_empty_run (s := s.pushed 0 2 1) idle unlocked empty
  rw [runs_append, fill_push_run stale.first, Option.bind_some]
  refine ⟨_, pop, ?_, congrArg (ConsumerPc.idle · 0 0) stale.rp, ?_⟩
  · intro i
    change Function.update s.pc 0 .idle i = .out ∨ Function.update s.pc 0 .idle i = .idle
    by_cases first : i = 0
    · subst first
      exact .inr (Function.update_self _ _ _)
    · rw [Function.update_of_ne first]
      by_cases second : i = 1
      · subst second
        exact .inr stale.second
      · exact .inl (stale.others i (by omega))
  · change s.output ≠ s.accepted
    rw [← stale.behind]
    simp

/-- Once the counter of `wp` has gone round, a pop hands back nothing of a full ring. A pop
that has met a producer at work may hand back nothing when that one has ended its call. -/
theorem delivered_stale :
    (∃ u : St .mcu, runs orderlyStep (staleActs .mcu ++ ([.fill 0, .push 0] ++ popIn 2)) (start (fresh (fun _ => 0) 2 2)) =
        some u ∧ AtRest u ∧ u.consumer = .idle 0 0 0 ∧ u.output ≠ u.accepted) ∧
    ∃ u : St .mcu, runs (guarded step fun act s => InTime act s ∧ Orderly act s)
        ([.reg 0, .producer 0 false, .acquire 0 [7]] ++ List.replicate 6 (.producer 0 false) ++ [.fill 0] ++ popIn 4 ++
          [.push 0, .consumer]) (start (fresh (fun _ => 0) 4 1)) = some u ∧
      AtRest u ∧ u.consumer = .idle 0 0 0 ∧ u.output ≠ u.accepted := by
  constructor
  · obtain ⟨a, run, stale⟩ := @stale_run .mcu fun _ => 0
    obtain ⟨u, pop, behind⟩ := stale.pop
    refine ⟨u, ?_, behind⟩
    rw [runs_append, run]
    exact pop
  · refine ⟨_, rfl, ?_, rfl, ?_⟩
    · rintro (_ | i)
      · exact .inr rfl
      · exact .inl rfl
    · exact (by simp : ([] : List Byte) ≠ [7])

end Runs

end AvaModule.MpscRing
