import AvaModule.Comm.Net.Invariant
import Mathlib.Data.List.Perm.Basic

/-! Each step keeps what holds of the requests. -/
namespace AvaModule.Comm
open ListHead Memory MemPool Function

variable {T : Target} {p q ptr : Usz T} {r : Issued T} {req : AsyncReq T} {s : Net T} {mp : Mp T}
  {held slots slots' : List (Usz T)} {cqe : Cqe T} {i k parts : Nat}

section Submit

/-- A call that is refused leaves what the blocks hold alone. -/
theorem Blocks.refused (inv : Blocks s held slots) (pool : Slots mp (sizeofAsyncReq T) held slots)
    (same : mp.mem = s.mp.mem) : Blocks { s with mp } held slots := by
  obtain ⟨_, held_iff, blocks, holder, fields, clear, taken, pending⟩ := inv
  rw [← same] at fields clear taken pending
  exact ⟨pool, held_iff, blocks, holder, fields, clear, taken, pending⟩

theorem getElem?_snoc {l : List (Issued T)} {x : Issued T} :
    (l ++ [x])[i]? = some r ↔ l[i]? = some r ∨ i = l.length ∧ x = r := by
  rcases Nat.lt_trichotomy i l.length with lt | rfl | gt
  · rw [List.getElem?_append_left lt]
    exact ⟨.inl, fun old => old.resolve_right fun last => absurd last.1 (Nat.ne_of_lt lt)⟩
  · rw [List.getElem?_append_right (Nat.le_refl _), Nat.sub_self, List.getElem?_eq_none (Nat.le_refl l.length)]
    simp
  · rw [List.getElem?_eq_none (by simp; omega), List.getElem?_eq_none (Nat.le_of_lt gt)]
    simp [Nat.ne_of_gt gt]

/-- The state after a request was given a block. -/
def submitted (s : Net T) (mp : Mp T) (ptr : Usz T) (req : AsyncReq T) (parts : Nat) : Net T :=
  (Net.setMem { s with mp } (storeReq mp.mem ptr req)).issue ptr req parts

theorem found_submitted : (submitted s mp ptr req parts).issued[i]? = some r ↔
    s.issued[i]? = some r ∨ i = s.issued.length ∧ ⟨ptr, req, parts⟩ = r := getElem?_snoc

theorem found_old (found : s.issued[i]? = some r) : (submitted s mp ptr req parts).issued[i]? = some r :=
  found_submitted.mpr (.inl found)

/-- The pool gave out a block that is zeroed, and left those of the others alone. -/
structure Granted (s : Net T) (mp : Mp T) (ptr : Usz T) (held slots slots' : List (Usz T)) : Prop where
  pool : Slots mp (sizeofAsyncReq T) (ptr :: held) slots'
  slots_iff : ∀ q, q ∈ slots' ↔ q = ptr ∨ q ∈ slots
  zeroed : ∀ i < (sizeofAsyncReq T).toNat, mp.mem (ptr.toNat + i) = 0
  kept : ∀ q ∈ slots, q ≠ ptr → Kept s.mp.mem mp.mem q

theorem Granted.ptr_mem (granted : Granted s mp ptr held slots slots') : ptr ∈ slots' :=
  (granted.slots_iff ptr).mpr (.inl rfl)

/-- The fields are stored into the new block only. -/
theorem Granted.stored (granted : Granted s mp ptr held slots slots') (member : q ∈ slots) (differ : q ≠ ptr) :
    Kept s.mp.mem (storeReq mp.mem ptr req) q := by
  refine (granted.kept q member differ).trans fun i lt => ?_
  have away := granted.pool.apart req_small ((granted.slots_iff q).mpr (.inr member)) granted.ptr_mem differ
  apply storeReq_outside
  rw [req_toNat] at lt away
  unfold processedAt
  omega

theorem Granted.not_held (granted : Granted s mp ptr held slots slots') : ptr ∉ held :=
  (List.nodup_cons.mp (granted.pool.nodup req_small)).1

theorem Granted.flag (granted : Granted s mp ptr held slots slots') :
    storeReq mp.mem ptr req (processedAt ptr) = 0 := by
  have pos := wordBytes_pos (T := T)
  rw [storeReq_outside (.inr (Nat.le_refl _))]
  exact granted.zeroed _ (by rw [req_toNat]; omega)

theorem Granted.blocks (granted : Granted s mp ptr held slots slots') (inv : Blocks s held slots)
    (records : Records s) (head : s.pc = .call → ∀ cqe, s.cq.head? = some cqe → cqe.data ∈ held) :
    Blocks (submitted s mp ptr req parts) (ptr :: held) slots' := by
  have fresh : ∀ i r, s.issued[i]? = some r → i ∉ s.freed → r.block ∈ slots ∧ r.block ≠ ptr := by
    intro i r found kept
    refine ⟨inv.blocks r (List.mem_of_getElem? found), ?_⟩
    rintro rfl
    exact granted.not_held (inv.holds found kept)
  have last : s.issued.length ∉ s.called := fun member => Nat.lt_irrefl _ (records.called_lt member)
  have unfreed : s.issued.length ∉ s.freed := fun member => last (records.freed_called member)
  have uncalled : ∀ {i}, i ∉ s.called → i ∉ s.freed := fun out member => out (records.freed_called member)
  constructor
  · apply granted.pool.store req_small granted.ptr_mem
    intro i away
    apply storeReq_outside
    rw [req_toNat] at away
    unfold processedAt
    omega
  · intro p
    constructor
    · intro member
      rcases List.mem_cons.mp member with rfl | old
      · exact ⟨s.issued.length, _, found_submitted.mpr (.inr ⟨rfl, rfl⟩), unfreed, rfl⟩
      · obtain ⟨i, r, found, kept, same⟩ := (inv.held_iff p).mp old
        exact ⟨i, r, found_old found, kept, same⟩
    · rintro ⟨i, r, found, kept, rfl⟩
      rcases found_submitted.mp found with old | ⟨_, rfl⟩
      · exact List.mem_cons_of_mem ptr (inv.holds old kept)
      · exact List.mem_cons_self
  · intro r member
    rcases List.mem_append.mp member with old | new
    · exact (granted.slots_iff _).mpr (.inr (inv.blocks r old))
    · rw [List.mem_singleton.mp new]
      exact granted.ptr_mem
  · intro i r found kept
    rcases found_submitted.mp found with old | ⟨rfl, rfl⟩
    · exact (update_of_ne (fresh i r old kept).2 _ _).trans (inv.holder i r old kept)
    · exact update_self _ _ _
  · intro i r found out
    rcases found_submitted.mp found with old | ⟨rfl, rfl⟩
    · obtain ⟨member, differ⟩ := fresh i r old (uncalled out)
      exact (granted.stored member differ).req.trans (inv.fields i r old out)
    · exact load_storeReq _ _ _
  · intro i r found out
    rcases found_submitted.mp found with old | ⟨rfl, rfl⟩
    · obtain ⟨member, differ⟩ := fresh i r old (uncalled out)
      have same : storeReq mp.mem ptr req (processedAt r.block) = s.mp.mem (processedAt r.block) :=
        (granted.stored member differ).flag
      exact (inv.clear i r old out).imp same.trans id
    · exact .inl granted.flag
  · intro phase cqe first
    have member := head phase cqe first
    have differ : cqe.data ≠ ptr := fun same => granted.not_held (same ▸ member)
    have same : storeReq mp.mem ptr req (processedAt cqe.data) = s.mp.mem (processedAt cqe.data) :=
      (granted.stored (inv.pool.held_slots _ member) differ).flag
    exact fun zero => inv.taken phase cqe first (same.symm.trans zero)
  · intro p member clear
    by_cases new : p = ptr
    · exact ⟨s.issued.length, _, found_submitted.mpr (.inr ⟨rfl, rfl⟩), last, new.symm⟩
    · have old := ((granted.slots_iff p).mp member).resolve_left new
      have same : storeReq mp.mem ptr req (processedAt p) = s.mp.mem (processedAt p) :=
        (granted.stored old new).flag
      obtain ⟨i, r, found, out, block⟩ := inv.pending p old (same.symm.trans clear)
      exact ⟨i, r, found_old found, out, block⟩

theorem owed_submitted : (submitted s mp ptr req parts).owed i =
    s.owed i + if s.issued.length = i then parts else 0 := by
  have ops : (submitted s mp ptr req parts).ops = s.ops ++ List.replicate parts ⟨ptr, s.issued.length⟩ := rfl
  have cq : (submitted s mp ptr req parts).cq = s.cq := rfl
  simp only [Net.owed, ops, cq, List.countP_append, List.countP_replicate, decide_eq_true_eq]
  omega

/-- Nothing is owed to a request to come. -/
theorem Queues.owed_new (queues : Queues s) : s.owed s.issued.length = 0 := by
  have lt : ∀ {j} {r : Issued T}, s.issued[j]? = some r → j ≠ s.issued.length := fun found =>
    Nat.ne_of_lt (List.getElem?_eq_some_iff.mp found).1
  rw [Net.owed, Nat.add_eq_zero_iff, List.countP_eq_zero, List.countP_eq_zero]
  constructor
  · intro op member
    obtain ⟨r, found, _⟩ := queues.ops op member
    simpa using lt found
  · intro cqe member
    obtain ⟨r, found, _⟩ := queues.cq cqe member
    simpa using lt found

theorem Queues.submitted (queues : Queues s) : Queues (submitted s mp ptr req parts) := by
  constructor
  · intro op member
    rcases List.mem_append.mp member with old | new
    · obtain ⟨r, found, same⟩ := queues.ops op old
      exact ⟨r, found_old found, same⟩
    · obtain rfl := (List.mem_replicate.mp new).2
      exact ⟨_, found_submitted.mpr (.inr ⟨rfl, rfl⟩), rfl⟩
  · intro cqe member
    obtain ⟨r, found, same⟩ := queues.cq cqe member
    exact ⟨r, found_old found, same⟩
  · intro i r found
    rw [owed_submitted]
    rcases found_submitted.mp found with old | ⟨rfl, rfl⟩
    · rw [if_neg (Nat.ne_of_gt (List.getElem?_eq_some_iff.mp old).1)]
      exact queues.owed i r old
    · exact Nat.le_of_eq (by rw [if_pos rfl, queues.owed_new, Nat.zero_add])
  · intro i r found
    rw [owed_submitted]
    rcases found_submitted.mp found with old | ⟨rfl, rfl⟩
    · rw [if_neg (Nat.ne_of_gt (List.getElem?_eq_some_iff.mp old).1)]
      exact queues.passed i r old
    · rw [if_pos rfl]
      exact fun less => absurd less (Nat.not_lt.mpr (Nat.le_add_left _ _))

theorem Records.submitted (records : Records s) : Records (submitted s mp ptr req parts) := by
  refine ⟨?_, records.called, ?_, records.freed⟩
  · intro c member
    obtain ⟨own, r, found, rest⟩ := records.calls c member
    exact ⟨own, r, found_old found, rest⟩
  · intro f member
    obtain ⟨own, called, r, found, same⟩ := records.frees f member
    exact ⟨own, called, r, found_old found, same⟩

/-- The block of the completion that was just taken is still held. -/
theorem head_held (inv : Blocks s held slots) (queues : Queues s) (records : Records s) (phase : Phase s)
    (taken : s.pc = .call) (cqe : Cqe T) (head : s.cq.head? = some cqe) : cqe.data ∈ held := by
  obtain ⟨cq, eq⟩ := List.head?_eq_some_iff.mp head
  obtain ⟨r, found, same⟩ := queues.cq cqe (by simp [eq])
  simp only [Phase, taken, eq] at phase
  rw [← same]
  exact inv.holds found fun member => phase.1 (records.freed_called member)

/-- What `mp_calloc` leaves for a submission: a refusal, or a block. -/
theorem NetInv.calloc (inv : NetInv s) : ∃ ptr mp, mpCalloc s.mp (sizeofAsyncReq T) = some (ptr, mp) ∧
    (ptr = 0 ∧ NetInv { s with mp } ∨ ptr ≠ 0 ∧ ∀ req parts, NetInv (submitted s mp ptr req parts)) := by
  obtain ⟨held, slots, inv, queues, records, phase⟩ := inv
  obtain ⟨ptr, mp, run, ⟨none, pool, same⟩ | ⟨some, slots', pool, slots_iff, zeroed, kept⟩⟩ := inv.pool.calloc req_small
  · exact ⟨ptr, mp, run, .inl ⟨none, held, slots, inv.refused pool same,
      ⟨queues.ops, queues.cq, queues.owed, queues.passed⟩,
      ⟨records.calls, records.called, records.frees, records.freed⟩, phase⟩⟩
  · have granted : Granted s mp ptr held slots slots' := ⟨pool, slots_iff, zeroed, kept⟩
    exact ⟨ptr, mp, run, .inr ⟨some, fun req parts => ⟨ptr :: held, slots',
      granted.blocks inv records (head_held inv queues records phase), queues.submitted, records.submitted, phase⟩⟩⟩

theorem NetInv.send (inv : NetInv s) (ch : Ch T) (txBuf size : Usz T) (sqes : Nat) :
    ∃ ret t, netAsyncSend s ch txBuf size sqes = some (ret, t) ∧ NetInv t := by
  by_cases none : sqes = 0
  · exact ⟨-1, s, if_pos none, inv⟩
  · obtain ⟨ptr, mp, run, ⟨refused, inv'⟩ | ⟨given, inv'⟩⟩ := inv.calloc
    · refine ⟨-mealloc, { s with mp }, ?_, inv'⟩
      simp only [netAsyncSend, if_neg none, run, Option.bind_eq_bind, Option.bind_some, if_pos refused]
      rfl
    · refine ⟨size.toInt, _, ?_, inv' ⟨ch.addr, txBuf, size, ch.fSendCb⟩ 1⟩
      simp only [netAsyncSend, if_neg none, run, Option.bind_eq_bind, Option.bind_some, if_neg given]
      rfl

theorem NetInv.recv (inv : NetInv s) (ch : Ch T) (rxBuf cap : Usz T) {sqes : Nat} (pair : sqes ≠ 1) (ret : Int) :
    ∃ ret' t, netAsyncRecv s ch rxBuf cap sqes ret = some (ret', t) ∧ NetInv t := by
  obtain ⟨ptr, mp, run, ⟨refused, inv'⟩ | ⟨given, inv'⟩⟩ := inv.calloc
  · refine ⟨-mealloc, { s with mp }, ?_, inv'⟩
    simp only [netAsyncRecv, run, Option.bind_eq_bind, Option.bind_some, if_pos refused]
    rfl
  · by_cases none : sqes = 0
    · refine ⟨-1, _, ?_, inv' ⟨ch.addr, rxBuf, cap, ch.fRecvCb⟩ 0⟩
      simp only [netAsyncRecv, run, Option.bind_eq_bind, Option.bind_some, if_neg given, if_pos none]
      rfl
    · refine ⟨ret, _, ?_, inv' ⟨ch.addr, rxBuf, cap, ch.fRecvCb⟩ 2⟩
      simp only [netAsyncRecv, run, Option.bind_eq_bind, Option.bind_some, if_neg given, if_neg none, if_neg pair]
      rfl

end Submit

section Post

/-- A completion that is posted is owed as its operation was. -/
theorem owed_post {op : Op T} (found : s.ops[k]? = some op) (res : Int) :
    (post s k res).owed i = s.owed i := by
  obtain ⟨lt, rfl⟩ := List.getElem?_eq_some_iff.mp found
  have parts := (List.getElem_cons_eraseIdx_perm lt).countP_eq fun op : Op T => op.origin = i
  rw [List.countP_cons] at parts
  simp only [post, found, Net.owed, List.countP_append, List.countP_cons, List.countP_nil]
  omega

theorem NetInv.post (inv : NetInv s) (k : Nat) (res : Int) : NetInv (post s k res) := by
  cases found : s.ops[k]? with
  | none => simpa only [Comm.post, found] using inv
  | some op =>
    obtain ⟨held, slots, inv, queues, records, phase⟩ := inv
    have owed : ∀ i, (Comm.post s k res).owed i = s.owed i := fun i => owed_post found res
    have eq : Comm.post s k res =
        { s with ops := s.ops.eraseIdx k, cq := s.cq ++ [⟨op.data, res, op.origin⟩] } := by
      simp only [Comm.post, found]
    rw [eq] at owed ⊢
    have head : s.pc = .call → ∀ cqe,
        s.cq.head? = some cqe ↔ (s.cq ++ [(⟨op.data, res, op.origin⟩ : Cqe T)]).head? = some cqe := by
      intro taken cqe
      cases cq : s.cq with
      | nil =>
        simp only [Phase, taken, cq] at phase
      | cons first rest => rfl
    refine ⟨held, slots, ⟨inv.pool, inv.held_iff, inv.blocks, inv.holder, inv.fields, ?_, ?_, inv.pending⟩, ⟨?_, ?_, ?_, ?_⟩,
      ⟨records.calls, records.called, records.frees, records.freed⟩, ?_⟩
    · intro i r issued out
      refine (inv.clear i r issued out).imp id fun ⟨taken, cqe, first, own⟩ => ⟨taken, cqe, ?_, own⟩
      exact (head taken cqe).mp first
    · intro taken cqe first
      exact inv.taken taken cqe ((head taken cqe).mpr first)
    · intro other member
      exact queues.ops other (List.mem_of_mem_eraseIdx member)
    · intro cqe member
      rcases List.mem_append.mp member with old | new
      · exact queues.cq cqe old
      · rw [List.mem_singleton.mp new]
        exact queues.ops op (List.mem_of_getElem? found)
    · intro i r issued
      rw [owed]
      exact queues.owed i r issued
    · intro i r issued
      rw [owed]
      exact queues.passed i r issued
    · revert phase
      unfold Phase
      cases s.pc <;> cases s.cq <;> first | exact id | exact False.elim

end Post

end AvaModule.Comm
