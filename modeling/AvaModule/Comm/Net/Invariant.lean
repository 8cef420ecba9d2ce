import AvaModule.Comm.Net.Model
import AvaModule.Ds.Mp.Slots

/-! What holds between the steps of the asynchronous calls. -/
namespace AvaModule.Comm
open ListHead Memory MemPool Function

variable {T : Target} {m m' : Nat → Byte} {p q : Usz T} {r : AsyncReq T} {s : Net T}
  {held slots : List (Usz T)} {i j : Nat}

section Requests

theorem req_toNat : (sizeofAsyncReq T).toNat = 5 * wordBytes T := by cases T <;> decide

theorem req_small : (sizeofAsyncReq T).toNat ≤ mpSize := by cases T <;> decide

theorem load_storeReq (m : Nat → Byte) (p : Usz T) (r : AsyncReq T) : loadReq (storeReq m p r) p = r := by
  simp only [loadReq, storeReq]
  congr 1
  · rw [load_store_apart (by omega), load_store_apart (by omega), load_store_apart (by omega), load_store]
  · rw [load_store_apart (by omega), load_store_apart (by omega), load_store]
  · rw [load_store_apart (by omega), load_store]
  · rw [load_store]

theorem storeReq_outside (away : i < p.toNat ∨ processedAt p ≤ i) : storeReq m p r i = m i := by
  unfold processedAt at away
  simp only [storeReq]
  rw [store_outside (by omega), store_outside (by omega), store_outside (by omega), store_outside (by omega)]

/-- The bytes of the block are as they were. -/
def Kept (m m' : Nat → Byte) (q : Usz T) : Prop :=
  ∀ i < (sizeofAsyncReq T).toNat, m' (q.toNat + i) = m (q.toNat + i)

theorem Kept.refl (m : Nat → Byte) (q : Usz T) : Kept m m q := fun _ _ => rfl

theorem Kept.trans {m'' : Nat → Byte} (first : Kept m m' q) (second : Kept m' m'' q) : Kept m m'' q :=
  fun i lt => (second i lt).trans (first i lt)

theorem Kept.load {a : Nat} (kept : Kept m m' q) (lo : q.toNat ≤ a)
    (hi : a + wordBytes T ≤ q.toNat + 5 * wordBytes T) : (ListHead.load m' a : Usz T) = ListHead.load m a := by
  apply load_congr
  intro i from_a to_a
  have same := kept (i - q.toNat) (by rw [req_toNat]; omega)
  rwa [Nat.add_sub_cancel' (by omega)] at same

theorem Kept.req (kept : Kept m m' q) : loadReq m' q = loadReq m q := by
  simp only [loadReq]
  rw [kept.load (by omega) (by omega), kept.load (by omega) (by omega), kept.load (by omega) (by omega),
    kept.load (by omega) (by omega)]

theorem Kept.flag (kept : Kept m m' q) : m' (processedAt q) = m (processedAt q) := by
  have pos := wordBytes_pos (T := T)
  exact kept _ (by rw [req_toNat]; omega)

end Requests

/-- The requests and the blocks. A request holds its block until that is freed; until its
callback its fields are there and its flag is clear, unless its completion was just taken.
Every flag that is clear is that of a request whose callback is still to come. -/
structure Blocks (s : Net T) (held slots : List (Usz T)) : Prop where
  pool : Slots s.mp (sizeofAsyncReq T) held slots
  held_iff : ∀ p, p ∈ held ↔ ∃ i r, s.issued[i]? = some r ∧ i ∉ s.freed ∧ r.block = p
  blocks : ∀ r ∈ s.issued, r.block ∈ slots
  holder : ∀ i r, s.issued[i]? = some r → i ∉ s.freed → s.holder r.block = some i
  fields : ∀ i r, s.issued[i]? = some r → i ∉ s.called → loadReq s.mp.mem r.block = r.req
  clear : ∀ i r, s.issued[i]? = some r → i ∉ s.called → s.mp.mem (processedAt r.block) = 0 ∨
    s.pc = .call ∧ ∃ cqe, s.cq.head? = some cqe ∧ cqe.origin = i
  taken : s.pc = .call → ∀ cqe, s.cq.head? = some cqe → s.mp.mem (processedAt cqe.data) ≠ 0
  pending : ∀ p ∈ slots, s.mp.mem (processedAt p) = 0 →
    ∃ i r, s.issued[i]? = some r ∧ i ∉ s.called ∧ r.block = p

/-- The completions are those the requests are owed. -/
structure Queues (s : Net T) : Prop where
  ops : ∀ op ∈ s.ops, ∃ r, s.issued[op.origin]? = some r ∧ r.block = op.data
  cq : ∀ cqe ∈ s.cq, ∃ r, s.issued[cqe.origin]? = some r ∧ r.block = cqe.data
  owed : ∀ i r, s.issued[i]? = some r → s.owed i ≤ r.parts
  passed : ∀ i r, s.issued[i]? = some r → s.owed i < r.parts → i ∈ s.freed

/-- A request is called and freed once, for a completion of its own. -/
structure Records (s : Net T) : Prop where
  calls : ∀ c ∈ s.calls, c.owner = some c.cause ∧ ∃ r, s.issued[c.cause]? = some r ∧ r.parts ≠ 0 ∧ c.req = r.req
  called : s.called.Nodup
  frees : ∀ f ∈ s.frees, f.owner = some f.cause ∧ f.cause ∈ s.called ∧
    ∃ r, s.issued[f.cause]? = some r ∧ f.block = r.block
  freed : s.freed.Nodup

/-- What is settled about the completion at the head. -/
def Phase (s : Net T) : Prop :=
  match s.pc, s.cq with
  | .peek, _ => ∀ i ∈ s.called, i ∈ s.freed
  | .call, cqe :: _ => cqe.origin ∉ s.called ∧ ∀ i ∈ s.called, i ∈ s.freed
  | .free, cqe :: _ => cqe.origin ∈ s.called ∧ cqe.origin ∉ s.freed ∧ ∀ i ∈ s.called, i = cqe.origin ∨ i ∈ s.freed
  | .seen, cqe :: _ => cqe.origin ∈ s.freed ∧ ∀ i ∈ s.called, i ∈ s.freed
  | _, [] => False

def NetInv (s : Net T) : Prop := ∃ held slots, Blocks s held slots ∧ Queues s ∧ Records s ∧ Phase s

section Facts

theorem Records.called_lt (records : Records s) (member : i ∈ s.called) : i < s.issued.length := by
  obtain ⟨c, c_mem, owner⟩ := List.mem_filterMap.mp member
  obtain ⟨own, r, found, _⟩ := records.calls c c_mem
  obtain rfl : c.cause = i := Option.some.inj (own.symm.trans owner)
  exact (List.getElem?_eq_some_iff.mp found).1

theorem Records.freed_called (records : Records s) (member : i ∈ s.freed) : i ∈ s.called := by
  obtain ⟨f, f_mem, owner⟩ := List.mem_filterMap.mp member
  obtain ⟨own, called, _⟩ := records.frees f f_mem
  obtain rfl : f.cause = i := Option.some.inj (own.symm.trans owner)
  exact called

theorem Blocks.holds (inv : Blocks s held slots) {r : Issued T} (found : s.issued[i]? = some r) (kept : i ∉ s.freed) :
    r.block ∈ held := (inv.held_iff r.block).mpr ⟨i, r, found, kept, rfl⟩

/-- Two requests that both hold a block hold different blocks. -/
theorem Blocks.distinct {r r' : Issued T} (inv : Blocks s held slots) (found : s.issued[i]? = some r) (kept : i ∉ s.freed)
    (found' : s.issued[j]? = some r') (kept' : j ∉ s.freed) (same : r.block = r'.block) : i = j := by
  have one := inv.holder i r found kept
  rw [same, inv.holder j r' found' kept'] at one
  exact (Option.some.inj one).symm

end Facts

end AvaModule.Comm
