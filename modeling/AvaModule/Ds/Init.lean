import AvaModule.Ds.Mp.Reinit
import AvaModule.Ds.Mpsc.Reinit

/-! Initialising an object that was used before. -/
namespace AvaModule
open MemPool MpscRing

variable {T : Target}

/-- A ring with idle slots behaves like a zeroed one exactly if the words that `mpsc_init`
does not write are clear, and a pool exactly if those that `mp_init` does not write are. -/
theorem init_like_iff {mpsc : Mpsc T} {buf : Nat → Byte} {cap : Usz T} {producers : Nat → MpscP T} {nproducers : Nat}
    {mp : Mp T} (idle : Idle (mpscInit mpsc buf cap producers nproducers)) (slot : 0 < nproducers)
    (room : bufAddr mp.addr + mpSize < T.modulus) :
    (FreshLike (mpscInit mpsc buf cap producers nproducers) (mpscInit zeroed buf cap producers nproducers) ↔
      Clear cap mpsc.wp mpsc.rp) ∧
    (PoolLike ⟨mpInit mp, []⟩ (poolStart mp.addr fun _ => 0) ↔ mp.off = 0 ∧ mp.lock = 0) :=
  ⟨freshLike_iff rfl idle slot, poolLike_iff room⟩

/-- A ring of 16 bytes that has passed 8 on, and a pool that has given out 32 bytes. -/
theorem init_like_used :
    ¬FreshLike (mpscInit { zeroed with wp := 8, rp := 8 } (fun _ => 0) (16 : Usz .mcu) (fun _ => ⟨0, false⟩) 1)
      (mpscInit zeroed (fun _ => 0) 16 (fun _ => ⟨0, false⟩) 1) ∧
    ¬PoolLike ⟨mpInit (⟨0x1000, fun _ => 0, 32, 0⟩ : Mp .mcu), []⟩ (poolStart 0x1000 fun _ => 0) := by
  refine ⟨fun like => ?_, fun like => ?_⟩
  · have quiet : Quiet (mpscInit { zeroed with wp := 8, rp := 8 } (fun _ => 0) (16 : Usz .mcu) (fun _ => ⟨0, false⟩) 1) :=
      fun _ => rfl
    have clear := (freshLike_iff rfl quiet.idle (by decide)).mp like
    exact absurd clear.2.1 (by decide)
  · have clear := (@poolLike_iff .mcu ⟨0x1000, fun _ => 0, 32, 0⟩ (by decide)).mp like
    exact absurd clear.1 (by decide)

/-- A ring whose reader was left at its end, and a pool whose memory holds other bytes. -/
theorem init_like_iff_clear :
    FreshLike (mpscInit { zeroed with rp := 16 } (fun _ => 0) (16 : Usz .mcu) (fun _ => ⟨0, false⟩) 1)
      (mpscInit zeroed (fun _ => 0) 16 (fun _ => ⟨0, false⟩) 1) ∧
    PoolLike ⟨mpInit (⟨0x1000, fun _ => 7, 0, 0⟩ : Mp .mcu), []⟩ (poolStart 0x1000 fun _ => 0) := by
  have quiet : Quiet (mpscInit { zeroed with rp := 16 } (fun _ => 0) (16 : Usz .mcu) (fun _ => ⟨0, false⟩) 1) :=
    fun _ => rfl
  obtain ⟨ring, pool⟩ := @init_like_iff .mcu { zeroed with rp := 16 } (fun _ => 0) 16 (fun _ => ⟨0, false⟩) 1
    ⟨0x1000, fun _ => 7, 0, 0⟩ quiet.idle (by decide) (by decide)
  refine ⟨ring.mpr ⟨by decide, by decide, .inr ⟨rfl, by decide⟩⟩, pool.mpr ⟨rfl, rfl⟩⟩

end AvaModule
