import AvaModule.Shm.Model

/-! When a creator and an opener of a segment have a usable channel, and touch
nothing outside what each of them has mapped. -/
namespace AvaModule.Shm
open SpscRing Counter BoundedQueue Transition

variable {T : Target} {P : Platform} {creator opener : ShmCfg T} {spsc t : Spsc T}

inductive Side where
  | creator
  | opener
  deriving DecidableEq, Repr

def Side.cfg (creator opener : ShmCfg T) : Side → ShmCfg T
  | .creator => creator
  | .opener => opener

/-- A call by one of the two sides. -/
def step (P : Platform) (creator opener : ShmCfg T) (act : Side × Call T) (spsc : Spsc T) :
    Option (Spsc T) :=
  (shmCall P (act.1.cfg creator opener) act.2 spsc).map (·.2)

/-- Whatever both sides have called before, a call touches only what its side has
mapped, and an empty channel takes any record of up to half the creator's size
and gives it back. -/
structure Sound (P : Platform) (creator opener : ShmCfg T) (spsc : Spsc T) : Prop where
  inside : ∀ acts t (side : Side) call, runs (step P creator opener) acts spsc = some t →
    shmCall P (side.cfg creator opener) call t ≠ none →
    ∀ o ∈ touches call t, o < (side.cfg creator opener).cap.toNat
  usable : ∀ acts t, runs (step P creator opener) acts spsc = some t → spscAvail t = 0 →
    ∀ (writer reader : Side) (src : List Byte), src.length ≤ creator.cap.toNat / 2 →
      ∃ u v, shmCall P (writer.cfg creator opener) (.write src) t = some (.wrote src.length, u) ∧
        shmCall P (reader.cfg creator opener) (.read (BitVec.ofNat _ src.length)) u = some (.got src, v)

/-- Half the creator's size is a power of two, it fits behind the header in both
mappings, and both mappings can be read and written. -/
structure Fits (P : Platform) (creator opener : ShmCfg T) : Prop where
  power : isPowerOf2 (creator.cap >>> 1)
  room : ∀ side : Side,
    sizeofSpsc T + creator.cap.toNat / 2 ≤ (side.cfg creator opener).cap.toNat
  access : ∀ side : Side, P.reads (side.cfg creator opener).access ∧
    P.writes (side.cfg creator opener).access

/-- Under `SHM_READWRITE` only the sizes decide. -/
theorem fits_readwrite (creates : creator.access = .readwrite) (opens : opener.access = .readwrite) :
    Fits P creator opener ↔ isPowerOf2 (creator.cap >>> 1) ∧
      ∀ side : Side, sizeofSpsc T + creator.cap.toNat / 2 ≤ (side.cfg creator opener).cap.toNat := by
  constructor
  · exact fun fits => ⟨fits.power, fits.room⟩
  · rintro ⟨power, room⟩
    refine ⟨power, room, fun side => ?_⟩
    cases side with
    | creator => exact creates ▸ P.readwrite
    | opener => exact opens ▸ P.readwrite

theorem half_toNat (cap : Usz T) : (cap >>> 1).toNat = cap.toNat / 2 := by
  simp [BitVec.toNat_ushiftRight, Nat.shiftRight_one]

theorem half_lt (cap : Usz T) : cap.toNat / 2 < T.modulus := by
  have := cap.isLt
  rw [Target.modulus]
  omega

section Offsets

theorem wordBytes_ge : 4 ≤ wordBytes T := by
  cases T <;> decide

theorem headerWord_lt (inner : i < 5) (member : o ∈ headerWord T i) : o < sizeofSpsc T := by
  simp only [headerWord, List.mem_map, List.mem_range] at member
  obtain ⟨b, lt, rfl⟩ := member
  have below : i * wordBytes T ≤ 4 * wordBytes T :=
    Nat.mul_le_mul_right _ (Nat.le_of_lt_succ inner)
  unfold sizeofSpsc
  omega

theorem ringBytes_lt {cap size : Usz T} (pow : ∃ k, cap.toNat = 2 ^ k) (n : Nat)
    (fits : size.toNat ≤ cap.toNat) (member : o ∈ ringBytes cap (word _ n) size) :
    o < sizeofSpsc T + cap.toNat := by
  have first := firstPart_toNat pow n size
  have rest := restPart_toNat pow n size
  obtain ⟨k, pow⟩ := pow
  have mask := toNat_word_mask pow n
  have inside := Nat.mod_lt n (show 0 < cap.toNat by rw [pow]; exact Nat.two_pow_pos k)
  simp only [ringBytes, first, rest, mask, List.mem_append, List.mem_map, List.mem_range] at member
  rcases member with ⟨i, lt, rfl⟩ | ⟨i, lt, rfl⟩
  · omega
  · omega

end Offsets

section Sufficient

theorem policy_size_le {items : List Byte} (h : Holds spsc R items) (policy : spsc.ePolicy = .reject)
    (short : n < T.modulus) :
    (spscPolicy spsc.ePolicy spsc.cap spsc.wp spsc.rp (BitVec.ofNat _ n)).1.toNat ≤ spsc.cap.toNat := by
  obtain ⟨whole, cut⟩ := spscPolicy_holds h short
  by_cases enough : n ≤ spsc.cap.toNat - items.length
  · rw [whole enough]
    exact (toNat_length short).le.trans (by omega)
  · rw [cut (by omega), policy]
    simp [shortPolicy]

theorem touches_lt {items : List Byte} (h : Holds spsc R items) (policy : spsc.ePolicy = .reject)
    {call : Call T} (short : sized call)
    (member : o ∈ touches call spsc) : o < sizeofSpsc T + spsc.cap.toNat := by
  have wide := wordBytes_ge (T := T)
  cases call with
  | write src =>
    have small := policy_size_le h policy (by simpa [sized] using short)
    simp only [touches, List.mem_append] at member
    rcases member with (((wp | rp) | cap) | byte) | cell
    · have := headerWord_lt (by decide) wp
      omega
    · have := headerWord_lt (by decide) rp
      omega
    · have := headerWord_lt (by decide) cap
      omega
    · split at byte
      · cases byte
      · have := List.mem_range.mp byte
        unfold sizeofSpsc
        omega
    · split at cell
      · cases cell
      · rw [h.at_wp] at cell
        apply ringBytes_lt h.pow _ _ cell
        rw [← h.at_wp]
        exact small
  | read size =>
    have avail : (spsc.wp - spsc.rp).toNat = items.length := h.avail
    have bound := h.bound
    have small : (if size > spsc.wp - spsc.rp then spsc.wp - spsc.rp else size).toNat ≤
        spsc.cap.toNat := by
      split
      · omega
      · next fits =>
        rw [gt_iff_lt, BitVec.lt_def] at fits
        omega
    simp only [touches] at member
    generalize (if size > spsc.wp - spsc.rp then spsc.wp - spsc.rp else size) = n at small member
    simp only [List.mem_append] at member
    rcases member with (rp | wp) | cell
    · have := headerWord_lt (by decide) rp
      omega
    · have := headerWord_lt (by decide) wp
      omega
    · split at cell
      · cases cell
      · rcases List.mem_append.mp cell with cap | cell
        · have := headerWord_lt (by decide) cap
          omega
        · rw [h.at_rp] at cell
          exact ringBytes_lt h.pow _ small cell

/-- A call the mapping allows is the call on the ring. -/
theorem shmCall_some {cfg : ShmCfg T} {call : Call T} (run : shmCall P cfg call spsc = some (r, t)) :
    spscCall call spsc = (r, t) ∧ sized call := by
  unfold shmCall at run
  split at run
  · next allowed =>
    simp only [Bool.and_eq_true] at allowed
    exact ⟨Option.some.inj run, allowed.1.1⟩
  · cases run

theorem shmCall_eq {cfg : ShmCfg T} {call : Call T} (reads : P.reads cfg.access)
    (writes : P.writes cfg.access) (short : sized call) :
    shmCall P cfg call spsc = some (spscCall call spsc) := by
  simp [shmCall, reads, writes, short]

theorem refines_call {q : Queue Byte cap} (refines : Refines .reject spsc q) (call : Call T)
    (short : sized call) :
    (spscCall call spsc).1 = (queueCall .reject call q).1 ∧
      Refines .reject (spscCall call spsc).2 (queueCall .reject call q).2 := by
  cases call with
  | write src => exact write_refines ⟨by simpa [sized] using short, nofun⟩ refines
  | read size => exact read_refines refines

theorem refines_step {q : Queue Byte cap} (refines : Refines .reject spsc q)
    (run : step P creator opener act spsc = some t) : ∃ q' : Queue Byte cap, Refines .reject t q' := by
  simp only [step, Option.map_eq_some_iff] at run
  obtain ⟨⟨r, u⟩, called, rfl⟩ := run
  obtain ⟨same, short⟩ := shmCall_some called
  have kept := (refines_call refines _ short).2
  rw [same] at kept
  exact ⟨_, kept⟩

theorem Fits.sound (fits : Fits P creator opener) (cap : spsc.cap = creator.cap >>> 1)
    (policy : spsc.ePolicy = .reject) (empty : Holds spsc R []) : Sound P creator opener spsc := by
  have start : ∃ q : Queue Byte (creator.cap.toNat / 2), Refines .reject spsc q :=
    ⟨Queue.empty, by rw [cap, half_toNat], policy, R, empty⟩
  have reached : ∀ {acts t}, runs (step P creator opener) acts spsc = some t →
      ∃ q : Queue Byte (creator.cap.toNat / 2), Refines .reject t q := by
    intro acts t run
    exact runs_preserve (P := fun s => ∃ q : Queue Byte (creator.cap.toNat / 2), Refines .reject s q)
      (fun ⟨_, refines⟩ next => refines_step refines next) start run
  constructor
  · intro acts t side call run allowed o member
    obtain ⟨q, ring, policy, R, h⟩ := reached run
    obtain ⟨⟨r, u⟩, called⟩ := Option.ne_none_iff_exists'.mp allowed
    have lt := touches_lt h policy (shmCall_some called).2 member
    have := fits.room side
    omega
  · intro acts t run avail writer reader src small
    obtain ⟨q, ring, policy, R, h⟩ := reached run
    have none : q.items = [] := by
      have length := h.avail
      rw [avail] at length
      exact List.length_eq_zero_iff.mp (by simpa using length.symm)
    have short : src.length < T.modulus := Nat.lt_of_le_of_lt small (half_lt creator.cap)
    have size := toNat_length short
    have room : src.length ≤ q.room := by simpa [Queue.room, none] using small
    obtain ⟨wrote, kept⟩ := refines_call ⟨ring, policy, R, h⟩ (.write src) (by simpa [sized] using short)
    obtain ⟨got, _⟩ := refines_call kept (.read (BitVec.ofNat T.bits src.length)) rfl
    have written : (spscCall (.write src) t).1 = .wrote src.length := by
      rw [wrote]
      simp [queueCall, room]
    have read : (spscCall (.read (BitVec.ofNat T.bits src.length)) (spscCall (.write src) t).2).1 =
        .got src := by
      rw [got]
      simp [queueCall, size, q.appendWhole_of_fits src room, none]
    refine ⟨(spscCall (.write src) t).2,
      (spscCall (.read (BitVec.ofNat T.bits src.length)) (spscCall (.write src) t).2).2, ?_, ?_⟩
    · rw [shmCall_eq (fits.access writer).1 (fits.access writer).2 (by simpa [sized] using short),
        ← written]
    · rw [shmCall_eq (fits.access reader).1 (fits.access reader).2 rfl, ← read]

end Sufficient

section Necessary

theorem headerWord_last : sizeofSpsc T - 1 ∈ headerWord T 4 := by
  have := wordBytes_ge (T := T)
  simp only [headerWord, List.mem_map, List.mem_range]
  refine ⟨wordBytes T - 1, by omega, ?_⟩
  unfold sizeofSpsc
  omega

/-- The last cell of a ring filled from its start. -/
theorem ringBytes_last {cap : Usz T} (pow : ∃ k, cap.toNat = 2 ^ k) :
    sizeofSpsc T + (cap.toNat - 1) ∈ ringBytes cap 0 cap := by
  have first := firstPart_toNat pow 0 cap
  obtain ⟨k, pow⟩ := pow
  have positive := Nat.two_pow_pos k
  have zero : word T.bits 0 = 0 := rfl
  rw [Nat.zero_mod, Nat.sub_zero, Nat.min_self, zero] at first
  simp only [ringBytes, first, List.mem_append, List.mem_map, List.mem_range]
  left
  refine ⟨cap.toNat - 1, by omega, ?_⟩
  simp

theorem reads_of_some {cfg : ShmCfg T} {call : Call T} (run : shmCall P cfg call spsc = some r) :
    P.reads cfg.access ∧ (P.writes cfg.access ∨ stores call spsc = false) := by
  unfold shmCall at run
  split at run
  · next allowed =>
    simp only [Bool.and_eq_true, Bool.or_eq_true, Bool.not_eq_true'] at allowed
    exact ⟨allowed.1.2, allowed.2⟩
  · cases run

theorem creatorInit_of_power {cap : Usz T} (power : isPowerOf2 (cap >>> 1)) :
    creatorInit zeroFilled cap = ⟨.reject, fun _ => 0, cap >>> 1, 0, 0⟩ := by
  simp [creatorInit, spscInitBuf, power, zeroFilled]

theorem creatorInit_of_not_power {cap : Usz T} (power : ¬isPowerOf2 (cap >>> 1)) :
    creatorInit zeroFilled cap = zeroFilled := by
  simp [creatorInit, spscInitBuf, power]

theorem creatorInit_empty (cap : Usz T) : spscAvail (creatorInit zeroFilled cap) = 0 := by
  by_cases power : isPowerOf2 (cap >>> 1)
  · rw [creatorInit_of_power power]
    simp [spscAvail]
  · rw [creatorInit_of_not_power power]
    simp [spscAvail, zeroFilled]

/-- A ring without capacity takes nothing. -/
theorem zeroFilled_refuses {src : List Byte} : (spscWriteBuf (zeroFilled : Spsc T) src).1 = 0 := by
  have policy : (spscPolicy .truncate (0 : Usz T) 0 0 (BitVec.ofNat _ src.length)).1 = 0 := by
    simp only [spscPolicy]
    by_cases fits : BitVec.ofNat T.bits src.length ≤ (0 : Usz T) - (0 - 0)
    · rw [if_pos fits]
      simpa using fits
    · rw [if_neg fits]
      simp
  simp only [spscWriteBuf, zeroFilled, policy, if_pos]

theorem Sound.fits (sound : Sound P creator opener (creatorInit zeroFilled creator.cap)) :
    Fits P creator opener := by
  have empty := creatorInit_empty creator.cap
  have header : ∀ side : Side, sizeofSpsc T ≤ (side.cfg creator opener).cap.toNat := by
    intro side
    obtain ⟨u, _, wrote, _⟩ := sound.usable [] _ rfl empty side side [] (Nat.zero_le _)
    have last := sound.inside [] _ side (.write []) rfl (by simp [wrote]) (sizeofSpsc T - 1)
      (by simp [touches, headerWord_last])
    omega
  have wide := wordBytes_ge (T := T)
  have one : 1 ≤ creator.cap.toNat / 2 := by
    have := header .creator
    unfold sizeofSpsc at this
    simp only [Side.cfg] at this
    omega
  have takes : ∀ side : Side, ∃ u,
      shmCall P (side.cfg creator opener) (.write [0]) (creatorInit zeroFilled creator.cap) =
        some (.wrote 1, u) := by
    intro side
    obtain ⟨u, _, wrote, _⟩ := sound.usable [] _ rfl empty side side [0] one
    exact ⟨u, wrote⟩
  have size : (spscWriteBuf (creatorInit zeroFilled creator.cap) [0]).1.toNat = 1 := by
    obtain ⟨u, wrote⟩ := takes .creator
    have result := congrArg Prod.fst (shmCall_some wrote).1
    simpa [spscCall] using result
  have power : isPowerOf2 (creator.cap >>> 1) := by
    by_contra power
    rw [creatorInit_of_not_power power, zeroFilled_refuses] at size
    simp at size
  have ring := creatorInit_of_power power
  have pow : ∃ k, (creator.cap >>> 1).toNat = 2 ^ k := isPowerOf2_toNat power
  constructor
  · exact power
  · intro side
    have fill : (List.replicate (creator.cap.toNat / 2) (0 : Byte)).length = creator.cap.toNat / 2 :=
      List.length_replicate
    obtain ⟨u, _, wrote, _⟩ := sound.usable [] _ rfl empty side side _ fill.le
    have held : Holds (creatorInit zeroFilled creator.cap) 0 [] := by
      have held := Holds.empty (creatorInit zeroFilled creator.cap) (by rw [ring]; exact power)
        (by rw [ring])
      rw [ring] at held ⊢
      simpa using held
    have whole := (spscPolicy_holds held (half_lt creator.cap)).1 (by rw [ring, half_toNat]; simp)
    have cap : BitVec.ofNat T.bits (creator.cap.toNat / 2) = creator.cap >>> 1 := by
      apply BitVec.eq_of_toNat_eq
      rw [toNat_length (half_lt creator.cap), half_toNat]
    have nonzero : creator.cap >>> 1 ≠ 0 := by
      intro zero
      have := half_toNat creator.cap
      rw [zero] at this
      simp at this
      omega
    have touched : sizeofSpsc T + ((creator.cap >>> 1).toNat - 1) ∈
        touches (.write (List.replicate (creator.cap.toNat / 2) 0)) (creatorInit zeroFilled creator.cap) := by
      rw [cap] at whole
      simp only [touches, fill, cap, whole, if_neg nonzero, List.mem_append]
      right
      rw [ring]
      exact ringBytes_last pow
    have last := sound.inside [] _ side _ rfl (wrote ▸ Option.some_ne_none _) _ touched
    rw [half_toNat] at last
    omega
  · intro side
    obtain ⟨u, wrote⟩ := takes side
    obtain ⟨reads, writes⟩ := reads_of_some wrote
    refine ⟨reads, writes.resolve_right ?_⟩
    simp only [stores, decide_eq_false_iff_not, not_not]
    intro zero
    rw [zero] at size
    simp at size

end Necessary

section Init
variable {os os₁ os₂ : Os T} {env env' : Answers}

theorem openSegment_created (created : openSegment P os name env = (.ok true, os₁)) :
    os₁ = Function.update os name (some zeroFilled) := by
  unfold openSegment at created
  cases found : os name with
  | some spsc => simp [found] at created
  | none =>
    cases system : P.system with
    | linux =>
      cases creates : env.creates
      · simp [found, system, creates] at created
      · cases truncates : env.truncates
        · simp [found, system, creates, truncates] at created
        · simpa [found, system, creates, truncates, eq_comm] using created
    | windows =>
      cases creates : env.creates
      · simp [found, system, creates] at created
      · simpa [found, system, creates, eq_comm] using created

theorem openSegment_found (found : os name = some spsc) :
    openSegment P os name env = (.ok false, os) := by
  simp [openSegment, found]

/-- A creator's call that succeeds leaves the zero-filled segment with its ring. -/
theorem shmInit_created (created : shmInit P os creator env = some (0, true, os₁)) :
    os₁ creator.name = some (creatorInit zeroFilled creator.cap) := by
  unfold shmInit at created
  cases opens : openSegment P os creator.name env with
  | mk result os' =>
    cases result with
    | error e => simp [opens] at created
    | ok isCreator =>
      cases maps : env.maps
      · simp [opens, maps, meacces] at created
      · cases isCreator with
        | false => simp [opens, maps] at created
        | true =>
          have segment := openSegment_created opens
          simp only [opens, maps, Bool.not_true, Bool.false_eq_true, if_false] at created
          split at created
          · cases created
          · simp only [Option.some.injEq, Prod.mk.injEq, true_and] at created
            rw [← created, segment]
            simp

theorem shmInit_opened (found : os₁ opener.name = some spsc)
    (opened : shmInit P os₁ opener env' = some (0, isCreator, os₂)) :
    isCreator = false ∧ os₂ = os₁ := by
  unfold shmInit at opened
  rw [openSegment_found found] at opened
  cases maps : env'.maps
  · simp [maps, meacces] at opened
  · simpa [maps, eq_comm] using opened

end Init

/-- For a creator and a later opener of one segment, both initialised, the channel
is sound if and only if half the creator's size is a power of two that fits behind
the header in both mappings, and both can be read and written. -/
theorem shmInit_sound_iff {os os₁ os₂ : Os T} {env env' : Answers}
    (created : shmInit P os creator env = some (0, true, os₁)) (name : opener.name = creator.name)
    (opened : shmInit P os₁ opener env' = some (0, isCreator, os₂)) :
    ∃ spsc, os₂ creator.name = some spsc ∧ (Sound P creator opener spsc ↔ Fits P creator opener) := by
  have segment := shmInit_created created
  obtain ⟨_, rfl⟩ := shmInit_opened (name ▸ segment) opened
  refine ⟨_, segment, Sound.fits, ?_⟩
  intro fits
  have ring := creatorInit_of_power fits.power
  rw [ring]
  exact fits.sound rfl rfl (Holds.empty ⟨.reject, fun _ => 0, creator.cap >>> 1, 0, 0⟩ fits.power rfl)

/-- Two sides that map 1024 bytes share a ring of 512. -/
theorem shmInit_sound_1024 :
    ∃ os₁ os₂ spsc, shmInit linux (fun _ => none) (⟨"ch1", .readwrite, 1024⟩ : ShmCfg .host)
        ⟨true, true, true⟩ = some (0, true, os₁) ∧
      shmInit linux os₁ ⟨"ch1", .readwrite, 1024⟩ ⟨true, true, true⟩ = some (0, false, os₂) ∧
      os₂ "ch1" = some spsc ∧ Sound linux ⟨"ch1", .readwrite, 1024⟩ ⟨"ch1", .readwrite, 1024⟩ spsc := by
  obtain ⟨os₁, os₂, created, opened⟩ : ∃ os₁ os₂, shmInit linux (fun _ => none)
      (⟨"ch1", .readwrite, 1024⟩ : ShmCfg .host) ⟨true, true, true⟩ = some (0, true, os₁) ∧
      shmInit linux os₁ ⟨"ch1", .readwrite, 1024⟩ ⟨true, true, true⟩ = some (0, false, os₂) :=
    ⟨_, _, rfl, rfl⟩
  obtain ⟨spsc, found, sound⟩ := shmInit_sound_iff created rfl opened
  refine ⟨os₁, os₂, spsc, created, opened, found, sound.mpr ((fits_readwrite rfl rfl).mpr ⟨by decide, ?_⟩)⟩
  intro side
  cases side <;> decide

/-- Two sides that map 64 bytes: the ring of 32 lies behind a header of 40, and a
record of 32 bytes is stored up to offset 71. -/
theorem shmInit_overrun :
    ∃ os₁ os₂ spsc, shmInit linux (fun _ => none) (⟨"ch1", .readwrite, 64⟩ : ShmCfg .host)
        ⟨true, true, true⟩ = some (0, true, os₁) ∧
      shmInit linux os₁ ⟨"ch1", .readwrite, 64⟩ ⟨true, true, true⟩ = some (0, false, os₂) ∧
      os₂ "ch1" = some spsc ∧ ¬Sound linux ⟨"ch1", .readwrite, 64⟩ ⟨"ch1", .readwrite, 64⟩ spsc := by
  refine ⟨_, _, _, rfl, rfl, rfl, ?_⟩
  intro sound
  have inside := sound.inside [] _ .creator (.write (List.replicate 32 1)) rfl (by decide) 71 (by decide)
  exact absurd inside (by decide)

end AvaModule.Shm
