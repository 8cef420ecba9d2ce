import AvaModule.Ds.Mp.Runs
import Mathlib.Tactic.ByContra

/-! When the sums of `mp_alloc` wrap, and what a request gets then. -/
namespace AvaModule.MemPool
open ListHead Memory DoublyLinked Tiling Transition

variable {T : Target} {addr cap ptr : Usz T} {blks blks' : List (Blk T)} {b : Blk T} {mp mp' : Mp T}

/-- The block of the pool that a pointer stands for has `cap` bytes behind its header. -/
def Backs (mp : Mp T) (b : Blk T) (ptr cap : Usz T) : Prop :=
  (∃ blks, PoolInv mp blks ∧ b ∈ blks) ∧ b.owner = some cap ∧ ptr = b.payload mp.addr ∧
    headerLen T + cap.toNat ≤ b.size

/-- The call returns null and leaves `off` and the list alone, or it returns a block that is
large enough. -/
def AllocRight (mp : Mp T) (cap : Usz T) : Prop :=
  ∃ ptr mp', mpAlloc mp cap = some (ptr, mp') ∧
    (ptr = 0 ∧ mp'.off = mp.off ∧ mp'.mem = mp.mem ∨ ∃ b, Backs mp' b ptr cap)

/-- What the call stores besides `mp_alloc` are zeros behind the header of its block. -/
def CallocRight (mp : Mp T) (cap : Usz T) : Prop :=
  ∃ ptr mp' mp'', mpAlloc mp cap = some (ptr, mp') ∧ mpCalloc mp cap = some (ptr, mp'') ∧
    (ptr = 0 ∧ mp''.off = mp.off ∧ mp''.mem = mp.mem ∨
      ∃ b, Backs mp'' b ptr cap ∧ ∀ i, mp''.mem i ≠ mp'.mem i →
        mp''.mem i = 0 ∧ b.addr mp.addr + headerLen T ≤ i ∧ i < b.addr mp.addr + b.size)

section Calls

theorem PoolInv.backs (inv : PoolInv mp blks) (member : (ptr, cap) ∈ liveOf mp.addr blks) : ∃ b ∈ blks, Backs mp b ptr cap := by
  obtain ⟨pre, b, post, rfl, owner, same⟩ := mem_liveOf member
  exact ⟨b, by simp, ⟨_, inv, by simp⟩, owner, same, inv.fits b (by simp) cap owner⟩

theorem PoolInv.alloc_right (inv : PoolInv mp blks) (fit : SumsFit mp cap) : AllocRight mp cap := by
  rcases inv.alloc_kept fit with run | ⟨ptr, mp', blks', run, _, inv', same, grown, _⟩
  · exact ⟨0, mp, run, .inl ⟨rfl, rfl, rfl⟩⟩
  · obtain ⟨b, _, backs⟩ := inv'.backs (mem_given grown same)
    exact ⟨ptr, mp', run, .inr ⟨b, backs⟩⟩

theorem PoolInv.calloc_right (inv : PoolInv mp blks) (fit : SumsFit mp cap) : CallocRight mp cap := by
  rcases inv.alloc_kept fit with run | ⟨ptr, mp', blks', run, some, inv', same, grown, _⟩
  · exact ⟨0, mp, mp, run, mpCalloc_null run, .inl ⟨rfl, rfl, rfl⟩⟩
  · have member := mem_given grown same
    have zeroed := inv'.fill member fun _ away => zero_outside away
    obtain ⟨b, b_mem, backs⟩ := zeroed.backs member
    refine ⟨ptr, mp', _, run, mpCalloc_some run some, .inr ⟨b, backs, ?_⟩⟩
    intro i stored
    have place := inv'.layout.payload_toNat b_mem
    obtain ⟨_, _, here, large⟩ := backs
    rw [← here, same] at place
    by_cases inside : ptr.toNat ≤ i ∧ i < ptr.toNat + cap.toNat
    · obtain ⟨k, rfl⟩ := Nat.exists_eq_add_of_le inside.1
      exact ⟨zero_inside (by omega), by omega⟩
    · exact absurd (zero_outside (by omega)) stored

/-- What is asked for is more than the pool has. -/
theorem PoolInv.too_large (inv : PoolInv mp blks) (past : T.modulus ≤ mp.off.toNat + blockLen cap) : mpSize < cap.toNat := by
  have off_le := inv.layout.off_le
  have head := header_le (T := T)
  have large := modulus_large (T := T)
  rw [mpSize] at off_le ⊢
  rw [blockLen] at past
  omega

/-- With no block for a size that has wrapped, none is free. -/
theorem PoolInv.list_empty (inv : PoolInv mp blks) (none : firstFit blks (headerSize T + alignUp cap) = none)
    (past : T.modulus ≤ blockLen cap) : nextOf mp.mem mp.root = mp.root := by
  have len_le := blockLen_le cap
  have small : (headerSize T + alignUp cap).toNat ≤ headerLen T := by
    have large := modulus_large (T := T)
    have head := header_le (T := T)
    rw [toNat_blockSize_mod, Nat.mod_eq_sub_mod past, Nat.mod_eq_of_lt (by omega)]
    omega
  have held : blks.filter (fun b => b.owner.isNone) = [] := by
    apply List.filter_eq_nil_iff.mpr
    intro b member free
    have short := firstFit_none none member (by simpa using free)
    have size := (inv.layout.sizes b member).2
    omega
  rw [Mp.root, inv.first, freePtrs, held]
  rfl

/-- Once the sums have wrapped, what is compared with the size of the pool is small. -/
theorem PoolInv.sum_small (inv : PoolInv mp blks) (none : firstFit blks (headerSize T + alignUp cap) = none)
    (wrapped : ¬SumsFit mp cap) : ¬mp.off + (headerSize T + alignUp cap) > BitVec.ofNat _ mpSize := by
  have off_le := inv.layout.off_le
  have len_le := blockLen_le cap
  have head := header_le (T := T)
  have large := modulus_large (T := T)
  rw [SumsFit, not_or, Nat.not_lt] at wrapped
  obtain ⟨past, near⟩ := wrapped
  have small : mp.off.toNat + blockLen cap ≤ T.modulus + mpSize := by
    by_cases whole : T.modulus ≤ blockLen cap
    · exact Nat.not_lt.mp fun far => near ⟨inv.list_empty none whole, far⟩
    · omega
  rw [gt_iff_lt, BitVec.lt_def, limit_toNat, toNat_off_add, Nat.mod_eq_sub_mod past,
    Nat.mod_eq_of_lt (by rw [mpSize] at small; omega)]
  omega

/-- Once the sums have wrapped, the request is not refused. -/
theorem PoolInv.not_null (inv : PoolInv mp blks) (room : bufAddr mp.addr + mpSize + headerLen T < T.modulus)
    (wrapped : ¬SumsFit mp cap) (run : mpAlloc mp cap = some (ptr, mp')) : ptr ≠ 0 := by
  rw [inv.mpAlloc_eq] at run
  cases found : firstFit blks (headerSize T + alignUp cap) with
  | some b =>
    obtain ⟨_, _, pre, post, rfl⟩ := firstFit_some found
    rw [found] at run
    obtain ⟨m, _, result⟩ := Option.map_eq_some_iff.mp run
    rw [← (Prod.mk.inj result).1]
    exact payload_ne inv (by simp)
  | none =>
    rw [found] at run
    dsimp only at run
    rw [if_neg (inv.sum_small found wrapped)] at run
    obtain ⟨rfl, _⟩ := Prod.mk.inj (Option.some.inj run)
    intro null
    have off_le := inv.layout.off_le
    have pos := header_pos (T := T)
    have place : (mp.buf + mp.off + headerSize T).toNat = bufAddr mp.addr + mp.off.toNat + headerLen T := by
      rw [BitVec.toNat_add, inv.end_toNat, ← headerLen]
      exact Nat.mod_eq_of_lt (by rw [← Target.modulus]; omega)
    have zero : (0 : Usz T).toNat = 0 := BitVec.toNat_zero
    rw [null] at place
    omega

theorem PoolInv.alloc_wrong (inv : PoolInv mp blks) (room : bufAddr mp.addr + mpSize + headerLen T < T.modulus)
    (wrapped : ¬SumsFit mp cap) : ¬AllocRight mp cap := by
  rintro ⟨ptr, mp', run, ⟨null, _⟩ | ⟨b, ⟨blks', inv', member⟩, _, _, large⟩⟩
  · exact inv.not_null room wrapped run null
  · have past := Nat.not_lt.mp fun word => wrapped (.inl word)
    have beyond := inv.too_large past
    have inside := inv'.layout.end_le member
    omega

end Calls

section Runs
variable {acts : List (PoolAct T)} {mem : Nat → Byte} {s : Pool T} {act : PoolAct T}

/-- What holds of the pool at `addr` after sound steps. -/
def Kept (addr : Usz T) (s : Pool T) : Prop := RunInv s ∧ s.mp.addr = addr

theorem Kept.start (addr : Usz T) (mem : Nat → Byte) (room : bufAddr addr + mpSize < T.modulus) :
    Kept addr (poolStart addr mem) := ⟨.start addr mem room, rfl⟩

theorem Kept.step (kept : Kept addr s) (sound : Sound act s) : ∃ t, poolStep act s = some t ∧ Kept addr t := by
  obtain ⟨⟨blks, inv, live⟩, same⟩ := kept
  obtain ⟨t, blks', step, next, _⟩ := sound_step inv live sound
  exact ⟨t, step, ⟨blks', next.inv, next.live⟩, next.addr.trans same⟩

theorem Kept.runs (room : bufAddr addr + mpSize < T.modulus) (admits : Admits poolStep Sound acts (poolStart addr mem)) :
    ∃ s, runs poolStep acts (poolStart addr mem) = some s ∧ Kept addr s :=
  runs_total (fun kept sound => kept.step sound) (Kept.start addr mem room) admits

/-- After any run in which the sums of every request fit, `mp_alloc` and `mp_calloc` do what they
should if the sums of the request fit, and only then, unless the pool ends with the address space. -/
theorem alloc_law (room : bufAddr addr + mpSize < T.modulus) (admits : Admits poolStep Sound acts (poolStart addr mem)) :
    ∃ s, runs poolStep acts (poolStart addr mem) = some s ∧ ∀ cap,
      (SumsFit s.mp cap → AllocRight s.mp cap ∧ CallocRight s.mp cap) ∧
      (bufAddr addr + mpSize + headerLen T < T.modulus → AllocRight s.mp cap → SumsFit s.mp cap) := by
  obtain ⟨s, run, ⟨blks, inv, live⟩, rfl⟩ := Kept.runs room admits
  refine ⟨s, run, fun cap => ⟨fun fit => ⟨inv.alloc_right fit, inv.calloc_right fit⟩, ?_⟩⟩
  intro room' right
  by_contra wrapped
  exact inv.alloc_wrong room' wrapped right

theorem alloc_law_two : ∃ s : Pool .mcu,
    runs poolStep [.alloc 20, .calloc 8, .free 0x1018] (poolStart 0x1000 fun _ => 0) = some s ∧ ∀ cap,
      (SumsFit s.mp cap → AllocRight s.mp cap ∧ CallocRight s.mp cap) ∧
      (bufAddr (0x1000 : Usz .mcu) + mpSize + headerLen .mcu < Target.mcu.modulus → AllocRight s.mp cap → SumsFit s.mp cap) :=
  alloc_law (by decide) (RunInv.sound (.start 0x1000 (fun _ => 0) (by decide)) two_admitted)

/-- A request for all bytes but one of the address space gets a header. -/
theorem alloc_wraps :
    (∃ mp, mpAlloc (poolStart (0x1000 : Usz .mcu) fun _ => 0).mp 0xFFFFFFFF = some (0x1018, mp) ∧
      sizeOf mp.mem (0x1008 : Usz .mcu) = headerSize .mcu) ∧
    ¬AllocRight (poolStart (0x1000 : Usz .mcu) fun _ => 0).mp 0xFFFFFFFF := by
  have empty : scan (listInit (fun _ => 0) (0x1000 : Usz .mcu)) 0x1000 (headerSize .mcu + alignUp 0xFFFFFFFF)
      (nextOf (listInit (fun _ => 0) (0x1000 : Usz .mcu)) 0x1000) = some none := by
    rw [scan_turn]
    exact if_pos (by decide)
  constructor
  · simp only [mpAlloc, poolStart, mpInit, spinLock, Mp.root, if_true, Option.bind_eq_bind, Option.bind_some, empty]
    exact ⟨_, rfl, sizeOf_setSize ..⟩
  · refine PoolInv.alloc_wrong (.start (by decide) rfl rfl) (by decide) ?_
    rintro (word | ⟨_, far⟩)
    · exact absurd word (by decide)
    · exact absurd far (by decide)

end Runs

end AvaModule.MemPool
