import AvaModule.Ds.Mp.Wrapped

/-! What a pool serves after all has been given back. Blocks are cut, but never put together
again, and `off` never goes back. -/
namespace AvaModule.MemPool
open ListHead Memory DoublyLinked Tiling Transition

variable {T : Target} {addr cap ptr : Usz T} {blks : List (Blk T)} {b : Blk T} {mp : Mp T} {s : Pool T}

/-- A request is refused if neither a free block nor the unused part has the bytes. -/
theorem PoolInv.served (inv : PoolInv mp blks) (small : blockLen cap ≤ mpSize) :
    ∃ ptr mp', mpAlloc mp cap = some (ptr, mp') ∧ (ptr ≠ 0 ↔ Serves mp blks cap) := by
  have off_le := inv.layout.off_le
  have large := modulus_large (T := T)
  rw [mpSize] at off_le small
  obtain ⟨ptr, blks', yields, granted, _⟩ := @PoolInv.alloc_yields T cap _ _ inv (by omega)
  obtain ⟨mp', run, _⟩ := yields mp inv rfl
  refine ⟨ptr, mp', run, ?_⟩
  rcases granted with ⟨none, _, short⟩ | ⟨some, _, serves⟩
  · exact ⟨fun some => absurd none some, fun serves => absurd serves short⟩
  · exact ⟨fun _ => serves, fun _ => some⟩

theorem PoolInv.served_zeroed (inv : PoolInv mp blks) (small : blockLen cap ≤ mpSize) :
    ∃ ptr mp', mpCalloc mp cap = some (ptr, mp') ∧ (ptr ≠ 0 ↔ Serves mp blks cap) := by
  obtain ⟨ptr, mp', run, served⟩ := inv.served small
  by_cases none : ptr = 0
  · subst none
    exact ⟨0, mp', mpCalloc_null run, served⟩
  · exact ⟨ptr, _, mpCalloc_some run none, served⟩

theorem all_free (freed : liveOf addr blks = []) (member : b ∈ blks) : b.owner = none := by
  have none := List.filterMap_eq_nil_iff.mp freed b member
  exact Option.map_eq_none_iff.mp none

/-- After any run of the pool that has given everything back, a request that a fresh pool serves
is served if one of the blocks has the bytes, or the part that was never in use, and only then. -/
theorem served_freed {acts : List (PoolAct T)} {mem : Nat → Byte} (room : bufAddr addr + mpSize < T.modulus)
    (admits : Admits poolStep Sound acts (poolStart addr mem)) :
    ∃ s, runs poolStep acts (poolStart addr mem) = some s ∧ (s.live = [] →
      ∃ blks, TiledBy s blks ∧ (∀ b ∈ blks, b.owner = none) ∧ ∀ cap, blockLen cap ≤ mpSize →
        ∃ ptr mp, mpAlloc s.mp cap = some (ptr, mp) ∧
          (ptr ≠ 0 ↔ (∃ b ∈ blks, blockLen cap ≤ b.size) ∨ s.mp.off.toNat + blockLen cap ≤ mpSize)) := by
  obtain ⟨s, run, ⟨blks, inv, live⟩, _⟩ := Kept.runs room admits
  refine ⟨s, run, fun freed => ⟨blks, inv.tiledBy live, ?_, ?_⟩⟩
  · intro b member
    rw [freed] at live
    exact all_free live.symm.eq_nil member
  · intro cap small
    obtain ⟨ptr, mp, call, granted⟩ := inv.served small
    refine ⟨ptr, mp, call, granted.trans (or_congr_left (exists_congr fun b => and_congr_right fun member => ?_))⟩
    rw [freed] at live
    exact and_iff_right (all_free live.symm.eq_nil member)

/-- The pool is given out in two halves, and both are given back. -/
def halves : List (PoolAct .mcu) := [.alloc 32752, .alloc 32752, .free 0x1018, .free 0x9018]

theorem halves_run : Admits poolStep Proper halves (poolStart 0x1000 fun _ => 0) ∧
    ∃ mp, runs poolStep halves (poolStart 0x1000 fun _ => 0) = some ⟨mp, []⟩ ∧ mpAlloc mp 40000 = some (0, mp) := by
  have start : PoolInv (poolStart (0x1000 : Usz .mcu) fun _ => 0).mp [] := .start (by decide) rfl rfl
  obtain ⟨mp₁, run₁, inv₁, addr₁, off₁, _⟩ := @PoolInv.bump_run .mcu 32752 _ _ start rfl (by decide)
  change mpAlloc _ _ = some (0x1018, mp₁) at run₁
  change PoolInv mp₁ [⟨0, 32768, some 32752⟩] at inv₁
  change mp₁.addr = 0x1000 at addr₁
  change mp₁.off.toNat = 32768 at off₁
  obtain ⟨mp₂, run₂, inv₂, addr₂, off₂, _⟩ := @PoolInv.bump_run .mcu 32752 _ _ inv₁ rfl (by rw [off₁]; decide)
  rw [off₁, addr₁] at run₂
  rw [off₁] at inv₂ off₂
  rw [addr₁] at addr₂
  change mpAlloc _ _ = some (0x9018, mp₂) at run₂
  change PoolInv mp₂ ([] ++ ⟨0, 32768, some 32752⟩ :: [⟨32768, 32768, some 32752⟩]) at inv₂
  change mp₂.off.toNat = 65536 at off₂
  obtain ⟨mp₃, run₃, inv₃, addr₃, _⟩ := inv₂.free_run rfl
  rw [addr₂] at run₃ addr₃
  change mpFree _ 0x1018 = some mp₃ at run₃
  change PoolInv mp₃ ([⟨0, 32768, none⟩] ++ ⟨32768, 32768, some 32752⟩ :: []) at inv₃
  obtain ⟨mp₄, run₄, inv₄, addr₄, _⟩ := inv₃.free_run rfl
  rw [addr₃] at run₄
  change mpFree _ 0x9018 = some mp₄ at run₄
  have off₄ : mp₄.off.toNat = 65536 := inv₄.layout.tiles.end_eq ⟨rfl, rfl, rfl⟩
  have short : ¬Serves mp₄ [⟨0, 32768, none⟩, ⟨32768, 32768, none⟩] 40000 := by
    rintro (⟨b, member, _, large⟩ | room)
    · rcases List.mem_pair.mp member with rfl | rfl
      · exact absurd large (by decide)
      · exact absurd large (by decide)
    · rw [off₄] at room
      exact absurd room (by decide)
  have step₁ : poolStep (.alloc 32752) (poolStart 0x1000 fun _ => 0) = some ⟨mp₁, [(0x1018, 32752)]⟩ :=
    congrArg (Option.map _) run₁
  have step₂ : poolStep (.alloc 32752) ⟨mp₁, [(0x1018, 32752)]⟩ = some ⟨mp₂, [(0x9018, 32752), (0x1018, 32752)]⟩ :=
    congrArg (Option.map _) run₂
  have step₃ : poolStep (.free 0x1018) ⟨mp₂, [(0x9018, 32752), (0x1018, 32752)]⟩ = some ⟨mp₃, [(0x9018, 32752)]⟩ :=
    congrArg (Option.map _) run₃
  have step₄ : poolStep (.free 0x9018) ⟨mp₃, [(0x9018, 32752)]⟩ = some ⟨mp₄, []⟩ := congrArg (Option.map _) run₄
  have small : (32752 : Usz .mcu).toNat ≤ mpSize := by decide
  refine ⟨?_, mp₄, ?_, inv₄.mpAlloc_null (by rw [off₄]; decide) short⟩
  · exact .cons small step₁ (.cons small step₂ (.cons ⟨32752, by simp⟩ step₃ (.cons ⟨32752, by simp⟩ step₄ trivial)))
  · simp only [runs, halves, step₁, step₂, step₃, step₄, Option.bind_some]

theorem served_freed_halves : ∃ s, runs poolStep halves (poolStart 0x1000 fun _ => 0) = some s ∧
    ∃ blks, TiledBy s blks ∧ (∀ b ∈ blks, b.owner = none) ∧ ∀ cap, blockLen cap ≤ mpSize →
      ∃ ptr mp, mpAlloc s.mp cap = some (ptr, mp) ∧
        (ptr ≠ 0 ↔ (∃ b ∈ blks, blockLen cap ≤ b.size) ∨ s.mp.off.toNat + blockLen cap ≤ mpSize) := by
  obtain ⟨proper, mp, run, _⟩ := halves_run
  have sound := RunInv.sound (.start 0x1000 (fun _ => 0) (by decide)) proper
  obtain ⟨s, run', freed⟩ := served_freed (by decide) sound
  obtain rfl := Option.some.inj (run'.symm.trans run)
  exact ⟨_, run, freed rfl⟩

/-- Two halves do not become one block again. -/
theorem halves_refuse : ∃ s, runs poolStep halves (poolStart 0x1000 fun _ => 0) = some s ∧ s.live = [] ∧
    blockLen (40000 : Usz .mcu) ≤ mpSize ∧ ∃ mp, mpAlloc s.mp 40000 = some (0, mp) := by
  obtain ⟨_, mp, run, refused⟩ := halves_run
  exact ⟨_, run, rfl, by decide, mp, refused⟩

end AvaModule.MemPool
