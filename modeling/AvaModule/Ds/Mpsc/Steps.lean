import AvaModule.Ds.Mpsc.Consumer

/-! What a step of the ring can do, and that every step keeps the invariant. -/
namespace AvaModule.MpscRing
open WrapRing

variable {T : Target} {s t : St T} {v v' : Span} {L L' : Nat → Nat} {i : Nat} {act : Act T}

/-- The message a producer has a region for, and how much of it is filled. -/
def ProducerPc.part (pc : ProducerPc T) : Option (List Byte × Nat) := pc.claim.map fun c => (c.msg, c.filled)

/-- The number of bytes the consumer has copied and not given back. -/
def ConsumerPc.taken : ConsumerPc T → Nat
  | .idle _ _ copied => copied
  | .releaseLoad _ _ size => size.toNat
  | .releaseStore _ _ size _ => size.toNat
  | _ => 0

/-- What a step does to the bytes, the span and the positions of the regions. -/
inductive Effect (s : St T) (v : Span) (L : Nat → Nat) : Act T → St T → Span → (Nat → Nat) → Prop where
  | calm {act : Act T} {t : St T} (buf : t.buf = s.buf) (accepted : t.accepted = s.accepted)
      (output : t.output = s.output) (part : ∀ j, (t.pc j).part = (s.pc j).part)
      (taken : t.consumer.taken = s.consumer.taken) : Effect s v L act t v L
  | fill {i : Nat} {msg : List Byte} {off : Usz T} {filled : Nat} (pc : s.pc i = .hold msg off filled)
      (room : filled < msg.length) : Effect s v L (.fill i)
        { s.setPc i (.hold msg off (filled + 1)) with
          buf := Function.update s.buf (off.toNat + filled) (msg.getD filled 0) } v L
  | push {i : Nat} {msg : List Byte} {off : Usz T} {filled : Nat} (pc : s.pc i = .hold msg off filled) :
      Effect s v L (.push i) ((s.setReserve i (offsetMax T)).setPc i .idle) v L
  | exchange {i : Nat} {msg : List Byte} {wp target : Usz T} (pc : s.pc i = .cas msg wp target)
      (granted : Granted s v i msg (wp &&& offsetMask T) target) :
      Effect s v L (.producer i false) (s.exchanged i msg wp target) (v.next msg.length) (Function.update L i v.W)
  | pop {off avail : Usz T} {copied : Nat} (pc : s.consumer = .idle off avail copied) :
      Effect s v L .pop { s with consumer := .loadRp } v L
  | copy {off avail : Usz T} {copied : Nat} (pc : s.consumer = .idle off avail copied)
      (room : copied < avail.toNat) : Effect s v L .copy
        { s with
          output := s.output ++ [s.buf (off.toNat + copied)]
          consumer := .idle off avail (copied + 1) } v L
  | release {off avail size : Usz T} {copied : Nat} (pc : s.consumer = .idle off avail copied) (part : size ≤ avail) :
      Effect s v L (.release size) { s with consumer := .releaseLoad off avail size } v L
  | releaseStore {off avail size rp : Usz T} (pc : s.consumer = .releaseStore off avail size rp) :
      Effect s v L .consumer
        { s with
          rp := releaseTarget s.cap rp size
          live := s.live.filter fun b => ¬(rp.toNat ≤ b ∧ b < rp.toNat + size.toNat)
          consumer := .idle (off + size) (avail - size) 0 } (v.drop size.toNat) L
  | restart (pc : s.consumer = .restart) :
      Effect s v L .consumer { s with rp := 0, consumer := .loadWp 0 } v.restart L

/-- The word an exchange expects in `wp`. -/
def ProducerPc.expected : ProducerPc T → Option (Usz T)
  | .cas _ wp _ => some wp
  | _ => none

/-- A successful exchange comes before the wrap counter has gone round since `wp`
was loaded. -/
def InTime (act : Act T) (s : St T) : Prop :=
  match act with
  | .producer i false => (s.pc i).expected = some s.wp → s.laps < s.seen i + wraps T
  | _ => True

instance (act : Act T) (s : St T) : Decidable (InTime act s) :=
  match act with
  | .producer _ false => inferInstanceAs (Decidable (_ → _))
  | .producer _ true | .reg _ | .unreg _ | .acquire _ _ | .fill _ | .push _ | .pop | .copy | .release _ | .consumer =>
    .isTrue trivial

/-- What the next step of a call of the consumer can be. -/
inductive ConsumerMove (s : St T) : St T → Prop where
  | wait : ConsumerMove s s
  | loadRp (pc : s.consumer = .loadRp) : ConsumerMove s { s with consumer := .loadWp s.rp }
  | empty {rp : Usz T} (pc : s.consumer = .loadWp rp) (empty : rp = s.wp &&& offsetMask T) :
      ConsumerMove s { s with consumer := .idle rp 0 0 }
  | scan {rp : Usz T} (pc : s.consumer = .loadWp rp) (unlocked : ¬Locked s.wp) (waiting : rp ≠ s.wp &&& offsetMask T) :
      ConsumerMove s { s with consumer := .loadFlag rp (s.wp &&& offsetMask T) 0 (offsetMax T) }
  | used {rp wp ready : Usz T} {i : Nat} (pc : s.consumer = .loadFlag rp wp i ready)
      (used : (s.producers i).flag = true) : ConsumerMove s { s with consumer := .loadReserve rp wp i ready }
  | unused {rp wp ready : Usz T} {i : Nat} (pc : s.consumer = .loadFlag rp wp i ready)
      (unused : (s.producers i).flag = false) : ConsumerMove s { s with consumer := .loadFlag rp wp (i + 1) ready }
  | wrapped {rp wp ready : Usz T} {i : Nat} (pc : s.consumer = .loadFlag rp wp i ready) (all : s.nproducers ≤ i)
      (wrap : wp < rp) : ConsumerMove s { s with consumer := .testWarpEnd rp ready }
  | straight {rp wp ready : Usz T} {i : Nat} (pc : s.consumer = .loadFlag rp wp i ready) (all : s.nproducers ≤ i)
      (straight : ¬wp < rp) :
      ConsumerMove s { s with consumer := .idle rp ((if ready < wp then ready else wp) - rp) 0 }
  | less {rp wp ready : Usz T} {i : Nat} (pc : s.consumer = .loadReserve rp wp i ready)
      (unlocked : ¬Locked (s.producers i).reservePos)
      (less : (s.producers i).reservePos ≥ rp ∧ (s.producers i).reservePos < ready) :
      ConsumerMove s { s with consumer := .loadFlag rp wp (i + 1) (s.producers i).reservePos }
  | more {rp wp ready : Usz T} {i : Nat} (pc : s.consumer = .loadReserve rp wp i ready)
      (unlocked : ¬Locked (s.producers i).reservePos)
      (more : ¬((s.producers i).reservePos ≥ rp ∧ (s.producers i).reservePos < ready)) :
      ConsumerMove s { s with consumer := .loadFlag rp wp (i + 1) ready }
  | unset {rp ready : Usz T} (pc : s.consumer = .testWarpEnd rp ready) (unset : s.warpEnd = offsetMax T) :
      ConsumerMove s { s with consumer := .testClear rp ready s.cap }
  | set {rp ready : Usz T} (pc : s.consumer = .testWarpEnd rp ready) (set : s.warpEnd ≠ offsetMax T) :
      ConsumerMove s { s with consumer := .loadWarpEnd rp ready }
  | loadWarpEnd {rp ready : Usz T} (pc : s.consumer = .loadWarpEnd rp ready) :
      ConsumerMove s { s with consumer := .testClear rp ready s.warpEnd }
  | clear {rp ready warpEnd : Usz T} (pc : s.consumer = .testClear rp ready warpEnd)
      (ends : ready = offsetMax T ∧ rp = warpEnd) : ConsumerMove s { s with consumer := .clearWarpEnd }
  | cleared {rp ready warpEnd : Usz T} (pc : s.consumer = .testClear rp ready warpEnd)
      (ends : ready = offsetMax T ∧ rp = warpEnd) (unset : s.warpEnd = offsetMax T) :
      ConsumerMove s { s with consumer := .restart }
  | upper {rp ready warpEnd : Usz T} (pc : s.consumer = .testClear rp ready warpEnd)
      (filled : ¬(ready = offsetMax T ∧ rp = warpEnd)) :
      ConsumerMove s { s with consumer := .idle rp ((if ready < warpEnd then ready else warpEnd) - rp) 0 }
  | clearWarpEnd (pc : s.consumer = .clearWarpEnd) :
      ConsumerMove s { s with warpEnd := offsetMax T, consumer := .restart }
  | restart (pc : s.consumer = .restart) : ConsumerMove s { s with rp := 0, consumer := .loadWp 0 }
  | releaseLoad {off avail size : Usz T} (pc : s.consumer = .releaseLoad off avail size) :
      ConsumerMove s { s with consumer := .releaseStore off avail size s.rp }
  | releaseStore {off avail size rp : Usz T} (pc : s.consumer = .releaseStore off avail size rp) :
      ConsumerMove s { s with
        rp := releaseTarget s.cap rp size
        live := s.live.filter fun b => ¬(rp.toNat ≤ b ∧ b < rp.toNat + size.toNat)
        consumer := .idle (off + size) (avail - size) 0 }

theorem consumer_move (run : consumerStep s = some t) : ConsumerMove s t := by
  unfold consumerStep at run
  split at run
  next => cases run
  next pc =>
    cases run
    exact .loadRp pc
  next pc =>
    split at run
    next =>
      cases run
      exact .wait
    next unlocked =>
      dsimp only at run
      split at run
      next empty =>
        cases run
        exact .empty pc empty
      next waiting =>
        cases run
        exact .scan pc unlocked waiting
  next pc =>
    split at run
    next =>
      split at run
      next used =>
        cases run
        exact .used pc used
      next unused =>
        cases run
        exact .unused pc (Bool.not_eq_true _ ▸ unused)
    next all =>
      split at run
      next wrap =>
        cases run
        exact .wrapped pc (Nat.le_of_not_lt all) wrap
      next straight =>
        cases run
        exact .straight pc (Nat.le_of_not_lt all) straight
  next pc =>
    dsimp only at run
    split at run
    next =>
      cases run
      exact .wait
    next unlocked =>
      split at run
      next less =>
        cases run
        exact .less pc unlocked less
      next more =>
        cases run
        exact .more pc unlocked more
  next pc =>
    split at run
    next unset =>
      cases run
      exact .unset pc unset
    next set =>
      cases run
      exact .set pc set
  next pc =>
    cases run
    exact .loadWarpEnd pc
  next pc =>
    split at run
    next ends =>
      split at run
      next =>
        cases run
        exact .clear pc ends
      next unset =>
        cases run
        exact .cleared pc ends (not_not.mp unset)
    next filled =>
      cases run
      exact .upper pc filled
  next pc =>
    cases run
    exact .clearWarpEnd pc
  next pc =>
    cases run
    exact .restart pc
  next pc =>
    cases run
    exact .releaseLoad pc
  next pc =>
    cases run
    exact .releaseStore pc

section Steps

/-- A producer goes on without touching its region. -/
theorem calm_producer (pc : t.pc = Function.update s.pc i now) (part : now.part = (s.pc i).part)
    (buf : t.buf = s.buf) (accepted : t.accepted = s.accepted) (output : t.output = s.output)
    (consumer : t.consumer = s.consumer) : Effect s v L act t v L := by
  refine .calm buf accepted output ?_ (congrArg _ consumer)
  intro j
  rw [pc]
  by_cases self : j = i
  · subst self
    rw [Function.update_self, part]
  · rw [Function.update_of_ne self]

theorem calm_consumer {c : ConsumerPc T} (taken : c.taken = s.consumer.taken) :
    Effect s v L act { s with consumer := c } v L := .calm rfl rfl rfl (fun _ => rfl) taken

variable (inv : Inv s v L)
include inv

theorem producer_effect {spurious : Bool} (time : InTime (.producer i spurious) s)
    (run : producerStep s i spurious = some t) :
    ∃ v' L', Effect s v L (.producer i spurious) t v' L' ∧ Inv t v' L' := by
  cases pc : s.pc i with
  | out | idle | hold => simp [producerStep, pc] at run
  | setFlag =>
    simp only [producerStep, pc, Option.some.injEq] at run
    subst run
    exact ⟨v, L, calm_producer rfl (by rw [pc]; rfl) rfl rfl rfl rfl, inv.setFlag pc⟩
  | loadWp msg =>
    simp only [producerStep, pc] at run
    split at run
    next locked =>
      cases run
      exact ⟨v, L, .calm rfl rfl rfl (fun _ => rfl) rfl, inv⟩
    next unlocked =>
      cases run
      exact ⟨v, L, calm_producer rfl (by rw [pc]; rfl) rfl rfl rfl rfl, inv.loadWp pc unlocked⟩
  | storeReserve msg wp =>
    simp only [producerStep, pc, Option.some.injEq] at run
    subst run
    exact ⟨v, L, calm_producer rfl (by rw [pc]; rfl) rfl rfl rfl rfl, inv.storeReserve pc⟩
  | loadRp msg wp =>
    simp only [producerStep, pc] at run
    split at run
    next =>
      cases run
      exact ⟨v, L, calm_producer rfl (by rw [pc]; rfl) rfl rfl rfl rfl, inv.loadRp_refuse pc⟩
    next target accepted =>
      cases run
      exact ⟨v, L, calm_producer rfl (by rw [pc]; rfl) rfl rfl rfl rfl, inv.loadRp_cas pc accepted⟩
  | refuse =>
    simp only [producerStep, pc, Option.some.injEq] at run
    subst run
    exact ⟨v, L, calm_producer rfl (by rw [pc]; rfl) rfl rfl rfl rfl, inv.refuse pc⟩
  | cas msg wp target =>
    simp only [producerStep, pc] at run
    split at run
    next equal =>
      obtain ⟨same, rfl⟩ := equal
      cases run
      rw [InTime, pc] at time
      have granted := inv.granted pc same (time (congrArg some same.symm))
      exact ⟨_, _, .exchange pc granted, inv.exchanged granted (inv.present (by simp [pc]))⟩
    next =>
      cases run
      exact ⟨v, L, calm_producer rfl (by rw [pc]; rfl) rfl rfl rfl rfl, inv.cas_fail pc⟩
  | loadReserve msg off target =>
    simp only [producerStep, pc, Option.some.injEq] at run
    subst run
    exact ⟨v, L, calm_producer rfl (by rw [pc]; rfl) rfl rfl rfl rfl, inv.loadReserve pc⟩
  | clearLock msg off target reservePos =>
    simp only [producerStep, pc] at run
    split at run
    next locked =>
      cases run
      exact ⟨v, L, calm_producer rfl (by rw [pc]; rfl) rfl rfl rfl rfl, inv.clearLock_wrap pc locked⟩
    next unlocked =>
      cases run
      exact ⟨v, L, calm_producer rfl (by rw [pc]; rfl) rfl rfl rfl rfl, inv.clearLock_return pc unlocked⟩
  | storeWarpEnd msg off target =>
    simp only [producerStep, pc, Option.some.injEq] at run
    subst run
    exact ⟨v, L, calm_producer rfl (by rw [pc]; rfl) rfl rfl rfl rfl, inv.storeWarpEnd pc⟩
  | unlockWp msg off target =>
    simp only [producerStep, pc, Option.some.injEq] at run
    subst run
    exact ⟨v, L, calm_producer rfl (by rw [pc]; rfl) rfl rfl rfl rfl, inv.unlockWp pc⟩

theorem consumer_effect (run : consumerStep s = some t) :
    ∃ v' L', Effect s v L .consumer t v' L' ∧ Inv t v' L' := by
  have calm {c : ConsumerPc T} (taken : c.taken = s.consumer.taken) :
      Effect s v L .consumer { s with consumer := c } v L := calm_consumer taken
  cases consumer_move run with
  | wait => exact ⟨v, L, .calm rfl rfl rfl (fun _ => rfl) rfl, inv⟩
  | loadRp pc => exact ⟨v, L, calm (by rw [pc]; rfl), inv.popRp pc⟩
  | empty pc => exact ⟨v, L, calm (by rw [pc]; rfl), inv.popWp_empty pc⟩
  | scan pc unlocked => exact ⟨v, L, calm (by rw [pc]; rfl), inv.popWp_scan pc unlocked⟩
  | used pc => exact ⟨v, L, calm (by rw [pc]; rfl), inv.popFlag_used pc⟩
  | unused pc unused => exact ⟨v, L, calm (by rw [pc]; rfl), inv.popFlag_free pc unused⟩
  | wrapped pc all wrap => exact ⟨v, L, calm (by rw [pc]; rfl), inv.popFlag_wrap pc all wrap⟩
  | straight pc all straight => exact ⟨v, L, calm (by rw [pc]; rfl), inv.popFlag_straight pc all straight⟩
  | less pc unlocked less =>
    have kept := inv.popReserve pc unlocked
    rw [if_pos less] at kept
    exact ⟨v, L, calm (by rw [pc]; rfl), kept⟩
  | more pc unlocked more =>
    have kept := inv.popReserve pc unlocked
    rw [if_neg more] at kept
    exact ⟨v, L, calm (by rw [pc]; rfl), kept⟩
  | unset pc unset => exact ⟨v, L, calm (by rw [pc]; rfl), inv.testWarpEnd_unset pc unset⟩
  | set pc set => exact ⟨v, L, calm (by rw [pc]; rfl), inv.testWarpEnd_set pc set⟩
  | loadWarpEnd pc => exact ⟨v, L, calm (by rw [pc]; rfl), inv.loadWarpEnd pc⟩
  | clear pc ends => exact ⟨v, L, calm (by rw [pc]; rfl), inv.testClear_clear pc ends⟩
  | cleared pc ends unset => exact ⟨v, L, calm (by rw [pc]; rfl), inv.testClear_restart pc ends unset⟩
  | upper pc => exact ⟨v, L, calm (by rw [pc]; rfl), inv.testClear_run pc⟩
  | clearWarpEnd pc => exact ⟨v, L, .calm rfl rfl rfl (fun _ => rfl) (by rw [pc]; rfl), inv.clearWarpEnd pc⟩
  | restart pc => exact ⟨v.restart, L, .restart pc, inv.restart pc⟩
  | releaseLoad pc => exact ⟨v, L, calm (by rw [pc]; rfl), inv.releaseLoad pc⟩
  | releaseStore pc => exact ⟨v.drop _, L, .releaseStore pc, inv.releaseStore pc⟩

/-- A step has one of the effects and keeps the invariant. -/
theorem step_effect (time : InTime act s) (run : step act s = some t) :
    ∃ v' L', Effect s v L act t v' L' ∧ Inv t v' L' := by
  cases act with
  | reg i =>
    simp only [step] at run
    split at run
    next pc =>
      obtain ⟨present, rfl⟩ := Option.ite_none_right_eq_some.mp run |>.imp_right Option.some.inj
      exact ⟨v, L, calm_producer rfl (by rw [pc]; rfl) rfl rfl rfl rfl, inv.reg present (.inl pc)⟩
    next pc =>
      obtain ⟨present, rfl⟩ := Option.ite_none_right_eq_some.mp run |>.imp_right Option.some.inj
      exact ⟨v, L, calm_producer rfl (by rw [pc]; rfl) rfl rfl rfl rfl, inv.reg present (.inr pc)⟩
    next => cases run
  | unreg i =>
    simp only [step] at run
    split at run
    next pc =>
      cases run
      exact ⟨v, L, calm_producer rfl (by rw [pc]; rfl) rfl rfl rfl rfl, inv.unreg pc⟩
    next => cases run
  | acquire i msg =>
    simp only [step] at run
    split at run
    next pc =>
      obtain ⟨size, rfl⟩ := Option.ite_none_right_eq_some.mp run |>.imp_right Option.some.inj
      exact ⟨v, L, calm_producer rfl (by rw [pc]; rfl) rfl rfl rfl rfl, inv.acquire pc size⟩
    next => cases run
  | fill i =>
    simp only [step] at run
    split at run
    next msg off filled pc =>
      obtain ⟨room, rfl⟩ := Option.ite_none_right_eq_some.mp run |>.imp_right Option.some.inj
      exact ⟨v, L, .fill pc room, inv.fill pc room _⟩
    next => cases run
  | push i =>
    simp only [step] at run
    split at run
    next pc =>
      cases run
      exact ⟨v, L, .push pc, inv.push pc⟩
    next => cases run
  | producer i spurious => exact producer_effect inv time run
  | pop =>
    simp only [step] at run
    split at run
    next pc =>
      cases run
      exact ⟨v, L, .pop pc, inv.pop pc⟩
    next => cases run
  | copy =>
    simp only [step] at run
    split at run
    next pc =>
      obtain ⟨room, rfl⟩ := Option.ite_none_right_eq_some.mp run |>.imp_right Option.some.inj
      exact ⟨v, L, .copy pc room, inv.copy pc room _⟩
    next => cases run
  | release size =>
    simp only [step] at run
    split at run
    next pc =>
      obtain ⟨part, rfl⟩ := Option.ite_none_right_eq_some.mp run |>.imp_right Option.some.inj
      exact ⟨v, L, .release pc part, inv.release pc part⟩
    next => cases run
  | consumer => exact consumer_effect inv run

end Steps

end AvaModule.MpscRing
