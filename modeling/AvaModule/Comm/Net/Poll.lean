import AvaModule.Comm.Net.Steps
import Mathlib.Data.List.Nodup

/-! The parts of `net_poll`, one by one. -/
namespace AvaModule.Comm
open ListHead Memory MemPool Function

variable {T : Target} {p q : Usz T} {r : Issued T} {s : Net T} {m : Nat → Byte}
  {held slots : List (Usz T)} {cqe : Cqe T} {rest : List (Cqe T)} {i : Nat}

section Take

/-- The flag of a block is set; its fields and all other blocks are as they were. -/
structure Taken (m m' : Nat → Byte) (data : Usz T) (slots : List (Usz T)) : Prop where
  fields : ∀ q ∈ slots, loadReq m' q = loadReq m q
  set : m' (processedAt data) = 1
  others : ∀ q ∈ slots, q ≠ data → m' (processedAt q) = m (processedAt q)

theorem Blocks.exchange (inv : Blocks s held slots) (member : q ∈ slots) :
    Slots { s.mp with mem := write s.mp.mem (processedAt q) [1] } (sizeofAsyncReq T) held slots ∧
      Taken s.mp.mem (write s.mp.mem (processedAt q) [1]) q slots := by
  have pos := wordBytes_pos (T := T)
  have away : ∀ {p}, p ∈ slots → p ≠ q → Kept s.mp.mem (write s.mp.mem (processedAt q) [1]) p := by
    intro p p_mem differ i lt
    have apart := inv.pool.apart req_small p_mem member differ
    apply write_outside
    rw [req_toNat] at lt apart
    unfold processedAt
    rw [List.length_singleton]
    omega
  refine ⟨?_, ?_, ?_, fun p p_mem differ => (away p_mem differ).flag⟩
  · apply inv.pool.store req_small member
    intro i outside
    apply write_outside
    rw [req_toNat] at outside
    unfold processedAt
    rw [List.length_singleton]
    omega
  · intro p p_mem
    by_cases same : p = q
    · rw [same]
      have below : ∀ a, a + wordBytes T ≤ processedAt q →
          (load (write s.mp.mem (processedAt q) [1]) a : Usz T) = load s.mp.mem a := by
        intro a le
        apply load_congr
        intro i _ lt
        exact write_outside (.inl (Nat.lt_of_lt_of_le lt le))
      unfold processedAt at below ⊢
      simp only [loadReq]
      rw [below _ (by omega), below _ (by omega), below _ (by omega), below _ (by omega)]
    · exact (away p_mem same).req
  · exact @write_inside Byte s.mp.mem [1] (processedAt q) 0 Nat.zero_lt_one

end Take

section Parts
variable (cq : s.cq = cqe :: rest)
include cq

theorem netPoll_peek (pc : s.pc = .peek) (some : cqe.data ≠ 0) :
    netPoll s = Option.some (Net.setMem { s with
      pc := if s.mp.mem (processedAt cqe.data) = 0 then .call else .seen } (write s.mp.mem (processedAt cqe.data) [1])) := by
  obtain ⟨mp, ops, _, _, issued, holder, calls, frees⟩ := s
  cases cq
  cases pc
  simp only [netPoll, if_neg some]
  split <;> rfl

theorem netPoll_call (pc : s.pc = .call) :
    netPoll s = Option.some { s with
      calls := s.calls ++ [⟨loadReq s.mp.mem cqe.data, cqe.res, s.holder cqe.data, cqe.origin⟩]
      pc := .free } := by
  obtain ⟨mp, ops, _, _, issued, holder, calls, frees⟩ := s
  cases cq
  cases pc
  rfl

theorem netPoll_free (pc : s.pc = .free) :
    netPoll s = (mpFree s.mp cqe.data).map fun mp =>
      { s with mp, frees := s.frees ++ [⟨cqe.data, s.holder cqe.data, cqe.origin⟩], pc := .seen } := by
  obtain ⟨mp, ops, _, _, issued, holder, calls, frees⟩ := s
  cases cq
  cases pc
  exact (Option.map_eq_bind ..).symm

theorem netPoll_seen (pc : s.pc = .seen) : netPoll s = Option.some { s with cq := rest, pc := .peek } := by
  obtain ⟨mp, ops, _, _, issued, holder, calls, frees⟩ := s
  cases cq
  cases pc
  rfl

theorem phase_call (pc : s.pc = .call) :
    Phase s ↔ cqe.origin ∉ s.called ∧ ∀ i ∈ s.called, i ∈ s.freed := by simp only [Phase, pc, cq]

theorem phase_free (pc : s.pc = .free) : Phase s ↔
    cqe.origin ∈ s.called ∧ cqe.origin ∉ s.freed ∧ ∀ i ∈ s.called, i = cqe.origin ∨ i ∈ s.freed := by
  simp only [Phase, pc, cq]

theorem phase_seen (pc : s.pc = .seen) :
    Phase s ↔ cqe.origin ∈ s.freed ∧ ∀ i ∈ s.called, i ∈ s.freed := by simp only [Phase, pc, cq]

end Parts

section Poll
variable (inv : Blocks s held slots) (queues : Queues s) (records : Records s) (phase : Phase s)
include inv queues records phase

/-- The exchange finds the flag clear for the request's own completion, and set otherwise. -/
theorem NetInv.peek (pc : s.pc = .peek) (cq : s.cq = cqe :: rest)
    (own : ∀ i, s.holder cqe.data = some i → i = cqe.origin ∨ i ∈ s.called) :
    ∃ t, netPoll s = some t ∧ NetInv t := by
  obtain ⟨r, found, block⟩ := queues.cq cqe (by simp [cq])
  have member : cqe.data ∈ slots := block ▸ inv.blocks r (List.mem_of_getElem? found)
  obtain ⟨pool, taken⟩ := inv.exchange member
  have called : ∀ i ∈ s.called, i ∈ s.freed := by simpa only [Phase, pc] using phase
  have clear : ∀ i r, s.issued[i]? = some r → i ∉ s.called → s.mp.mem (processedAt r.block) = 0 := by
    intro i r issued out
    refine (inv.clear i r issued out).resolve_right ?_
    simp [pc]
  have uncalled : ∀ {i}, i ∉ s.called → i ∉ s.freed := fun out member => out (records.freed_called member)
  have in_slots : ∀ {i} {r : Issued T}, s.issued[i]? = some r → r.block ∈ slots := fun issued =>
    inv.blocks _ (List.mem_of_getElem? issued)
  have fields : ∀ i r, s.issued[i]? = some r → i ∉ s.called →
      loadReq (write s.mp.mem (processedAt cqe.data) [1]) r.block = r.req := by
    intro i r issued out
    rw [taken.fields _ (in_slots issued)]
    exact inv.fields i r issued out
  have pending : ∀ p ∈ slots, write s.mp.mem (processedAt cqe.data) [1] (processedAt p) = 0 →
      ∃ i r, s.issued[i]? = some r ∧ i ∉ s.called ∧ r.block = p := by
    intro p p_mem zero
    have differ : p ≠ cqe.data := by
      rintro rfl
      rw [taken.set] at zero
      exact absurd zero (by decide)
    rw [taken.others p p_mem differ] at zero
    exact inv.pending p p_mem zero
  have queues' : ∀ pc, Queues (Net.setMem { s with pc } (write s.mp.mem (processedAt cqe.data) [1])) := fun _ =>
    ⟨queues.ops, queues.cq, queues.owed, queues.passed⟩
  have records' : ∀ pc, Records (Net.setMem { s with pc } (write s.mp.mem (processedAt cqe.data) [1])) := fun _ =>
    ⟨records.calls, records.called, records.frees, records.freed⟩
  rw [netPoll_peek cq pc (inv.pool.ne_zero member)]
  by_cases processed : s.mp.mem (processedAt cqe.data) = 0
  · -- the flag is that of a request whose callback is still to come, and so of this one
    obtain ⟨i, r', issued, out, same⟩ := inv.pending _ member processed
    have mine : i = cqe.origin := by
      have holds := inv.holder i r' issued (uncalled out)
      rw [same] at holds
      exact (own i holds).resolve_right out
    subst mine
    rw [if_pos processed]
    refine ⟨_, rfl, held, slots,
      ⟨pool, inv.held_iff, inv.blocks, inv.holder, fields, ?_, ?_, pending⟩, queues' _, records' _, ?_⟩
    · intro j r'' issued' out'
      by_cases at_head : r''.block = cqe.data
      · have mine := inv.distinct issued' (uncalled out') issued (uncalled out) (at_head.trans same.symm)
        exact .inr ⟨rfl, cqe, by simp [Net.setMem, cq], mine.symm⟩
      · exact .inl ((taken.others _ (in_slots issued') at_head).trans (clear j r'' issued' out'))
    · intro _ first head
      obtain rfl : cqe = first := by simpa [Net.setMem, cq] using head
      change write s.mp.mem (processedAt cqe.data) [1] (processedAt cqe.data) ≠ 0
      rw [taken.set]
      decide
    · refine (@phase_call T _ cqe rest ?_ ?_).mpr ⟨out, called⟩
      · exact cq
      · rfl
  · have passed : cqe.origin ∈ s.called := by
      by_contra out
      exact processed (block ▸ clear cqe.origin r found out)
    rw [if_neg processed]
    refine ⟨_, rfl, held, slots,
      ⟨pool, inv.held_iff, inv.blocks, inv.holder, fields, ?_, ?_, pending⟩, queues' _, records' _, ?_⟩
    · intro j r' issued out
      have differ : r'.block ≠ cqe.data := by
        intro same
        exact processed (same ▸ clear j r' issued out)
      exact .inl ((taken.others _ (in_slots issued) differ).trans (clear j r' issued out))
    · intro at_call
      cases at_call
    · refine (@phase_seen T _ cqe rest ?_ ?_).mpr ⟨called _ passed, called⟩
      · exact cq
      · rfl

/-- The callback is that of the request whose completion was taken. -/
theorem NetInv.call (pc : s.pc = .call) (cq : s.cq = cqe :: rest) : ∃ t, netPoll s = some t ∧ NetInv t := by
  obtain ⟨r, found, block⟩ := queues.cq cqe (by simp [cq])
  obtain ⟨out, called⟩ := (phase_call cq pc).mp phase
  have kept : cqe.origin ∉ s.freed := fun member => out (records.freed_called member)
  have holder : s.holder cqe.data = some cqe.origin := block ▸ inv.holder _ r found kept
  have fields : loadReq s.mp.mem cqe.data = r.req := block ▸ inv.fields _ r found out
  have accepted : r.parts ≠ 0 := by
    have owed := queues.owed cqe.origin r found
    rw [Net.owed, cq, List.countP_cons_of_pos (by simp)] at owed
    omega
  rw [netPoll_call cq pc, holder, fields]
  refine ⟨_, rfl, ?_⟩
  generalize made : { s with
    calls := s.calls ++ [(⟨r.req, cqe.res, some cqe.origin, cqe.origin⟩ : Call T)]
    pc := Pc.free } = t
  have called_eq : t.called = s.called ++ [cqe.origin] := by
    rw [← made]
    simp [Net.called, List.filterMap_append]
  have uncalled : ∀ {i}, i ∉ t.called → i ∉ s.called ∧ i ≠ cqe.origin := by
    intro i out
    rw [called_eq, List.mem_append, List.mem_singleton, not_or] at out
    exact out
  have more : ∀ {i}, i ∈ s.called → i ∈ t.called := fun member => called_eq ▸ List.mem_append_left _ member
  subst made
  refine ⟨held, slots, ⟨inv.pool, inv.held_iff, inv.blocks, inv.holder, ?_, ?_, ?_, ?_⟩,
    ⟨queues.ops, queues.cq, queues.owed, queues.passed⟩, ⟨?_, ?_, ?_, records.freed⟩, ?_⟩
  · exact fun i r issued out => inv.fields i r issued (uncalled out).1
  · intro i r issued out
    refine .inl ((inv.clear i r issued (uncalled out).1).resolve_right ?_)
    rintro ⟨_, first, head, mine⟩
    obtain rfl : cqe = first := by simpa [cq] using head
    exact (uncalled out).2 mine.symm
  · intro at_call
    cases at_call
  · intro p member zero
    obtain ⟨i, r', issued, out', same⟩ := inv.pending p member zero
    refine ⟨i, r', issued, ?_, same⟩
    rw [called_eq, List.mem_append, List.mem_singleton, not_or]
    refine ⟨out', ?_⟩
    rintro rfl
    obtain rfl : r = r' := Option.some.inj (found.symm.trans issued)
    rw [← same, block] at zero
    exact inv.taken pc cqe (by simp [cq]) zero
  · intro c member
    rcases List.mem_append.mp member with old | new
    · exact records.calls c old
    · rw [List.mem_singleton.mp new]
      exact ⟨rfl, r, found, accepted, rfl⟩
  · rw [called_eq]
    exact List.nodup_append_comm.mp (List.nodup_cons.mpr ⟨out, records.called⟩)
  · intro f member
    obtain ⟨own, done, rest⟩ := records.frees f member
    exact ⟨own, more done, rest⟩
  · refine (@phase_free T _ cqe rest ?_ ?_).mpr ⟨?_, kept, ?_⟩
    · exact cq
    · rfl
    · rw [called_eq]
      simp
    · intro i member
      rw [called_eq, List.mem_append, List.mem_singleton] at member
      exact member.symm.imp id (called i)

/-- The block is freed by the request that holds it. -/
theorem NetInv.free (pc : s.pc = .free) (cq : s.cq = cqe :: rest) : ∃ t, netPoll s = some t ∧ NetInv t := by
  obtain ⟨r, found, block⟩ := queues.cq cqe (by simp [cq])
  obtain ⟨done, kept, called⟩ := (phase_free cq pc).mp phase
  have holder : s.holder cqe.data = some cqe.origin := block ▸ inv.holder _ r found kept
  have member : cqe.data ∈ held := block ▸ inv.holds found kept
  obtain ⟨mp, run, pool, same⟩ := inv.pool.free req_small member
  rw [netPoll_free cq pc, run, holder]
  refine ⟨_, rfl, ?_⟩
  generalize made : { s with
    mp
    frees := s.frees ++ [(⟨cqe.data, some cqe.origin, cqe.origin⟩ : Release T)]
    pc := Pc.seen } = t
  have freed_eq : t.freed = s.freed ++ [cqe.origin] := by
    rw [← made]
    simp [Net.freed, List.filterMap_append]
  have more : ∀ {i}, i ∈ s.freed → i ∈ t.freed := fun member => freed_eq ▸ List.mem_append_left _ member
  have now : cqe.origin ∈ t.freed := by
    rw [freed_eq]
    simp
  have unfreed : ∀ {i}, i ∉ t.freed ↔ i ∉ s.freed ∧ i ≠ cqe.origin := by
    intro i
    rw [freed_eq, List.mem_append, List.mem_singleton, not_or]
  have blocks : ∀ i (r : Issued T), s.issued[i]? = some r → Kept s.mp.mem mp.mem r.block := fun i r issued =>
    same r.block (inv.blocks r (List.mem_of_getElem? issued))
  subst made
  refine ⟨held.erase cqe.data, slots, ⟨pool, ?_, inv.blocks, ?_, ?_, ?_, nofun, ?_⟩,
    ⟨queues.ops, queues.cq, queues.owed, ?_⟩, ⟨records.calls, records.called, ?_, ?_⟩, ?_⟩
  · intro p
    rw [(inv.pool.nodup req_small).mem_erase_iff, inv.held_iff]
    constructor
    · rintro ⟨differ, i, r', issued, out, rfl⟩
      refine ⟨i, r', issued, unfreed.mpr ⟨out, ?_⟩, rfl⟩
      rintro rfl
      obtain rfl : r = r' := Option.some.inj (found.symm.trans issued)
      exact differ block
    · rintro ⟨i, r', issued, out, rfl⟩
      obtain ⟨out, differ⟩ := unfreed.mp out
      refine ⟨fun at_head => differ ?_, i, r', issued, out, rfl⟩
      exact inv.distinct issued out found kept (at_head.trans block.symm)
  · exact fun i r issued out => inv.holder i r issued (unfreed.mp out).1
  · intro i r issued out
    exact (blocks i r issued).req.trans (inv.fields i r issued out)
  · intro i r issued out
    refine .inl ((blocks i r issued).flag.trans ((inv.clear i r issued out).resolve_right ?_))
    simp [pc]
  · intro p p_mem zero
    have flag : Kept s.mp.mem mp.mem p := same p p_mem
    exact inv.pending p p_mem (flag.flag.symm.trans zero)
  · exact fun i r issued less => more (queues.passed i r issued less)
  · intro f f_mem
    rcases List.mem_append.mp f_mem with old | new
    · exact records.frees f old
    · rw [List.mem_singleton.mp new]
      exact ⟨rfl, done, r, found, block.symm⟩
  · rw [freed_eq]
    exact List.nodup_append_comm.mp (List.nodup_cons.mpr ⟨kept, records.freed⟩)
  · refine (@phase_seen T _ cqe rest ?_ ?_).mpr ⟨now, fun i member => ?_⟩
    · exact cq
    · rfl
    rcases called i member with rfl | old
    · exact now
    · exact more old

/-- A completion that was dealt with is passed. -/
theorem NetInv.seen (pc : s.pc = .seen) (cq : s.cq = cqe :: rest) : ∃ t, netPoll s = some t ∧ NetInv t := by
  obtain ⟨done, called⟩ := (phase_seen cq pc).mp phase
  rw [netPoll_seen cq pc]
  refine ⟨_, rfl, held, slots, ⟨inv.pool, inv.held_iff, inv.blocks, inv.holder, inv.fields, ?_,
    nofun, inv.pending⟩, ⟨queues.ops, ?_, ?_, ?_⟩,
    ⟨records.calls, records.called, records.frees, records.freed⟩, called⟩
  · intro i r issued out
    refine .inl ((inv.clear i r issued out).resolve_right ?_)
    simp [pc]
  · intro other member
    exact queues.cq other (by simp [cq, member])
  · intro i r issued
    have owed := queues.owed i r issued
    rw [Net.owed, cq, List.countP_cons] at owed
    exact Nat.le_trans (Nat.add_le_add_left (Nat.le_add_right _ _) _) owed
  · intro i r issued less
    by_cases mine : cqe.origin = i
    · exact mine ▸ done
    · apply queues.passed i r issued
      rw [Net.owed, cq, List.countP_cons_of_neg (by simpa using mine)]
      exact less

end Poll

end AvaModule.Comm
