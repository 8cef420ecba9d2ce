import AvaModule.Ds.Spsc.Steps
import AvaModule.Lib.Transition

/-! What one writer and one reader see over whole runs, for any interleaving of
their steps. -/
namespace AvaModule.SpscRing
open Counter Transition

variable {T : Target} {mem spsc : Spsc T} {cap : Usz T} {ePolicy : Policy} {s t : St T}
variable {acts : List (Act T)}

theorem isPowerOf2_toNat {n : Usz T} (h : isPowerOf2 n) : ∃ k, n.toNat = 2 ^ k := by
  simp only [isPowerOf2, ne_eq, Bool.and_eq_true, decide_eq_true_eq] at h
  obtain ⟨nonzero, low⟩ := h
  have positive : n.toNat ≠ 0 := fun zero => nonzero (BitVec.eq_of_toNat_eq (by simpa using zero))
  have pred : (n - 1).toNat = n.toNat - 1 := by
    rw [BitVec.toNat_sub_of_le, one_toNat]
    rw [BitVec.le_def, one_toNat]
    omega
  have mask := congrArg BitVec.toNat low
  rw [BitVec.toNat_and, pred] at mask
  exact (Nat.and_sub_one_eq_zero_iff_isPowerOfTwo positive).mp (by simpa using mask)

theorem isPowerOf2_of_toNat {n : Usz T} (power : n.toNat = 2 ^ k) : isPowerOf2 n := by
  have masked := toNat_word_mask power n.toNat
  rw [word, BitVec.ofNat_toNat, BitVec.setWidth_eq, Nat.mod_self] at masked
  have nonzero : n ≠ 0 := by
    intro empty
    rw [empty] at power
    exact absurd power (Nat.ne_of_lt (Nat.two_pow_pos k))
  simp only [isPowerOf2, ne_eq, Bool.and_eq_true, decide_eq_true_eq]
  exact ⟨nonzero, BitVec.eq_of_toNat_eq masked⟩

theorem start_inv (init : spscInitBuf mem cap ePolicy = some spsc) :
    Inv (start spsc) 0 0 ∧ spsc.ePolicy = ePolicy := by
  unfold spscInitBuf at init
  split at init
  · next power =>
    cases init
    have zero : (0 : Usz T) = word _ 0 := rfl
    refine ⟨⟨isPowerOf2_toNat power, zero, zero, Nat.le_refl 0, Nat.zero_le _, ?_, trivial, trivial,
      .nil, Nat.le_refl 0, fun _ => rfl⟩, rfl⟩
    intro j _ absurd
    exact False.elim (Nat.not_lt_zero j absurd)
  · cases init

def Reached (ePolicy : Policy) (s : St T) : Prop := s.ePolicy = ePolicy ∧ ∃ R E, Inv s R E

theorem reached_step {act : Act T} (reached : Reached ePolicy s) (ok : ActOk act s)
    (run : step act s = some t) : Reached ePolicy t := by
  obtain ⟨policy, R, E, inv⟩ := reached
  obtain ⟨R', E', inv', _, _, _, same⟩ := step_advanced inv ok run
  exact ⟨same.trans policy, R', E', inv'⟩

theorem Inv.unread_le (inv : Inv s R E) : s.wp - s.rp ≤ s.cap := by
  have := inv.space
  rw [BitVec.le_def, inv.avail]
  omega

/-- The cell the writer fills next is none the reader has still to copy. -/
theorem Inv.copies_apart (inv : Inv s R E) (writing : s.writer = .copy src wp size i)
    (reading : s.reader = .copy rp n got) (more : i < size.toNat) (later : got.length ≤ j)
    (left : j < n.toNat) : copyCell s.cap wp size i ≠ copyCell s.cap rp n j := by
  have filling := inv.writer
  have draining := inv.reader
  rw [WriterInv, writing] at filling
  rw [ReaderInv, reading] at draining
  obtain ⟨rfl, _, _, space, _⟩ := filling
  obtain ⟨R₀, rfl, _, behind, ahead, _, within, ring, _, _⟩ := draining
  have := inv.behind
  rw [inv.at_wp, inv.copyCell_eq _ (by omega) more, inv.copyCell_eq R₀ ring left]
  exact Ne.symm (mod_ne (by omega) (by omega))

/-- Under `reject` and `truncate` the ring is a queue for every interleaving:
no more than `cap` bytes are unread, no byte is overwritten before it is copied,
and the bytes read are the first of the bytes accepted. -/
theorem runs_queue (init : spscInitBuf mem cap ePolicy = some spsc) (policy : ePolicy ≠ .overwrite)
    (run : runs step acts (start spsc) = some s) :
    s.wp - s.rp ≤ s.cap ∧
      (∀ {src wp size i rp n got}, s.writer = .copy src wp size i → s.reader = .copy rp n got →
        i < size.toNat → ∀ j, got.length ≤ j → j < n.toNat →
          copyCell s.cap wp size i ≠ copyCell s.cap rp n j) ∧
      s.returned.flatten <+: s.accepted := by
  obtain ⟨inv, same⟩ := start_inv init
  have preserves : ∀ {act : Act T} {s t : St T}, Reached ePolicy s → step act s = some t →
      Reached ePolicy t := by
    intro act s t reached next
    exact reached_step reached (fun overwrite => absurd (reached.1.symm.trans overwrite) policy) next
  obtain ⟨kept, R, E, inv⟩ := runs_preserve preserves ⟨same, 0, 0, inv⟩ run
  refine ⟨inv.unread_le, ?_, ?_⟩
  · intro src wp size i rp n got writing reading more j later left
    exact inv.copies_apart writing reading more later left
  · rw [inv.exact (by rw [kept]; exact policy)]
    exact List.take_prefix R _

/-- While a read copies the first byte, the second one is written beside it. -/
def besideActs : List (Act .host) :=
  [.write [7], .writer, .writer, .writer, .read 2, .write [8], .reader, .writer, .reader, .writer, .reader, .writer,
    .write [9, 10, 11], .read 2, .writer, .reader, .reader, .reader]

theorem runs_queue_beside :
    ∃ s : St .host, runs step besideActs (start ⟨.reject, fun _ => 0, 2, 0, 0⟩) = some s ∧
      s.returned = [[7], [8]] ∧ s.wp - s.rp ≤ s.cap ∧ s.returned.flatten <+: s.accepted := by
  have init : spscInitBuf (⟨.truncate, fun _ => 0, 0, 5, 9⟩ : Spsc .host) 2 .reject =
      some ⟨.reject, fun _ => 0, 2, 0, 0⟩ := rfl
  have returned : (runs step besideActs (start ⟨.reject, fun _ => 0, 2, 0, 0⟩)).map St.returned = some [[7], [8]] := rfl
  obtain ⟨s, run, whole⟩ := Option.map_eq_some_iff.mp returned
  obtain ⟨unread, _, inOrder⟩ := runs_queue init (by decide) run
  exact ⟨s, run, whole, unread, inOrder⟩

/-- Under `overwrite` the same holds in every run whose calls write at most `cap`
bytes and whose drops are safe; a read then returns a later run of the stream
than every read before it. -/
theorem runs_overwrite (init : spscInitBuf mem cap .overwrite = some spsc)
    (admits : Admits step ActOk acts (start spsc)) (run : runs step acts (start spsc) = some s) :
    s.wp - s.rp ≤ s.cap ∧
      (∀ {act t}, ActOk act s → step act s = some t → t.rp - s.rp ≤ s.cap) ∧
      ∃ e, Delivered s.accepted e s.returned := by
  obtain ⟨inv, same⟩ := start_inv init
  obtain ⟨_, R, E, inv⟩ := runs_invariant (fun reached ok next => reached_step reached ok next)
    ⟨same, 0, 0, inv⟩ admits run
  refine ⟨inv.unread_le, ?_, E, inv.delivered⟩
  intro act t ok next
  obtain ⟨R', E', inv', forward, near, cap, _⟩ := step_advanced inv ok next
  have := inv.cap_lt
  have := inv.cap_pos
  rw [BitVec.le_def, inv.at_rp, inv'.at_rp, toNat_word_sub forward (by rw [Target.modulus] at *; omega)]
  omega

/-- A full ring of two bytes, of which one is overwritten after a read has copied it, and before it ends. -/
def behindActs : List (Act .mcu) :=
  [.write [4, 5], .writer, .writer, .writer, .writer, .read 2, .reader, .reader, .write [6], .writer, .writer, .reader,
    .writer, .reader, .writer, .read 2, .reader, .reader, .reader]

theorem runs_overwrite_behind :
    ∃ s : St .mcu, runs step behindActs (start ⟨.overwrite, fun _ => 0, 2, 0, 0⟩) = some s ∧
      s.returned = [[4, 5], [6]] ∧ s.wp - s.rp ≤ s.cap ∧ ∃ e, Delivered s.accepted e s.returned := by
  have init : spscInitBuf (⟨.truncate, fun _ => 0, 0, 5, 9⟩ : Spsc .mcu) 2 .overwrite =
      some ⟨.overwrite, fun _ => 0, 2, 0, 0⟩ := rfl
  have returned : (runs step behindActs (start ⟨.overwrite, fun _ => 0, 2, 0, 0⟩)).map St.returned =
      some [[4, 5], [6]] := rfl
  obtain ⟨s, run, whole⟩ := Option.map_eq_some_iff.mp returned
  have admits : Admits step ActOk behindActs (start ⟨.overwrite, fun _ => 0, 2, 0, 0⟩ : St .mcu) := by
    refine .cons (fun _ => Nat.le_refl 2) rfl ?_
    iterate 7 refine .cons (fun _ => trivial) rfl ?_
    refine .cons (fun _ => Nat.le_succ 1) rfl ?_
    refine .cons (fun _ => trivial) rfl ?_
    -- The byte that is dropped is the one the read has copied.
    refine .cons (fun _ => ⟨by decide, by decide⟩) rfl ?_
    iterate 8 refine .cons (fun _ => trivial) rfl ?_
    trivial
  obtain ⟨unread, _, delivered⟩ := runs_overwrite init admits run
  exact ⟨s, run, whole, unread, delivered⟩

/-- A full ring of one byte. The reader has loaded both counters when two calls
overwrite the byte; its store then takes `rp` back over the second drop. -/
def overrunActs : List (Act .host) :=
  [.write [1], .writer, .writer, .writer, .read 1, .reader, .write [2], .writer, .writer, .writer, .writer,
    .write [3], .writer, .writer, .writer, .writer, .reader]

theorem overrun_moves_back :
    ∃ spsc s t, spscInitBuf (⟨.reject, fun _ => 0, 0, 0, 0⟩ : Spsc .host) 1 .overwrite = some spsc ∧
      (∀ src, Act.write src ∈ overrunActs → src.length ≤ 1) ∧
      runs step overrunActs (start spsc) = some s ∧ step .reader s = some t ∧
      s.rp = 2 ∧ t.rp = 1 ∧ ¬t.rp - s.rp ≤ t.cap ∧ ¬t.wp - t.rp ≤ t.cap := by
  refine ⟨_, _, _, rfl, ?_, rfl, rfl, rfl, rfl, ?_, ?_⟩
  · intro src member
    simp only [overrunActs, List.mem_cons, Act.write.injEq, reduceCtorEq, List.not_mem_nil, or_false,
      false_or] at member
    rcases member with rfl | rfl | rfl <;> decide
  · decide
  · decide

end AvaModule.SpscRing
