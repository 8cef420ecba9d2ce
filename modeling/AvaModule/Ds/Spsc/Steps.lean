import AvaModule.Ds.Spsc.Invariant

/-! Every step keeps the invariant and moves the read position forward by at
most one ring. One lemma for each point of the two loops. -/
namespace AvaModule.SpscRing
open Counter

variable {T : Target} {s t : St T} {R E : Nat}

theorem spscPolicy_eq (inv : Inv s R E) (fits : n < T.modulus) :
    (∃ size : Usz T, spscPolicy s.ePolicy s.cap s.wp s.rp (BitVec.ofNat _ n) = (size, none) ∧
      size.toNat ≤ n ∧ s.accepted.length + size.toNat ≤ R + s.cap.toNat) ∨
    (s.ePolicy = .overwrite ∧ ∃ size drop : Usz T,
      spscPolicy s.ePolicy s.cap s.wp s.rp (BitVec.ofNat _ n) = (size, some drop) ∧
      size.toNat = n ∧ s.accepted.length + size.toNat = R + s.cap.toNat + drop.toNat) := by
  have avail := inv.avail
  have space := inv.space
  have behind := inv.behind
  have size := toNat_length fits
  have free : (s.cap - (s.wp - s.rp)).toNat = R + s.cap.toNat - s.accepted.length := by
    rw [BitVec.toNat_sub_of_le, avail]
    · omega
    · rw [BitVec.le_def, avail]
      omega
  by_cases enough : BitVec.ofNat T.bits n ≤ s.cap - (s.wp - s.rp)
  · left
    refine ⟨BitVec.ofNat _ n, ?_, ?_, ?_⟩
    · simp only [spscPolicy, if_pos enough]
    · omega
    · rw [BitVec.le_def, size, free] at enough
      omega
  · have short : R + s.cap.toNat - s.accepted.length < n := by
      rw [BitVec.le_def, size, free] at enough
      omega
    cases policy : s.ePolicy with
    | truncate =>
      left
      refine ⟨s.cap - (s.wp - s.rp), ?_, ?_, ?_⟩
      · simp only [spscPolicy, if_neg enough]
      · omega
      · omega
    | overwrite =>
      right
      refine ⟨rfl, BitVec.ofNat _ n, BitVec.ofNat _ n - (s.cap - (s.wp - s.rp)), ?_, size, ?_⟩
      · simp only [spscPolicy, if_neg enough]
      · rw [BitVec.toNat_sub_of_le, size, free]
        · omega
        · rw [BitVec.le_def, size, free]
          omega
    | reject =>
      left
      refine ⟨0, ?_, ?_, ?_⟩
      · simp only [spscPolicy, if_neg enough]
      · simp
      · simpa using space

/-- The end of a read leaves a write under way alone and only adds room for it. -/
theorem WriterInv.keep (h : WriterInv s R) (le : R ≤ R') (rp : Usz T) (reader : ReaderPc T)
    (returned : List (List Byte)) :
    WriterInv { s with rp := rp, reader := reader, returned := returned } R' := by
  unfold WriterInv at h ⊢
  dsimp only
  cases at_pc : s.writer with
  | idle => trivial
  | loadRp src wp =>
    rw [at_pc] at h
    exact h
  | fetchAdd src wp size drop =>
    rw [at_pc] at h
    obtain ⟨R₀, before, amount⟩ := h.amount
    exact ⟨h.at_wp, h.policy, h.whole, R₀, by omega, amount⟩
  | copy src wp size i =>
    rw [at_pc] at h
    have room : s.accepted.length + size.toNat ≤ R' + s.cap.toNat := by
      have := h.space
      omega
    exact ⟨h.at_wp, h.within, h.upto, room, h.filled⟩

/-- The writer's steps leave a read under way alone. -/
theorem ReaderInv.keep (h : ReaderInv s R E) (reader : t.reader = s.reader) (rp : t.rp = s.rp)
    (cap : t.cap = s.cap) (policy : t.ePolicy = s.ePolicy) (grown : t.accepted = s.accepted ++ more) :
    ReaderInv t R E := by
  unfold ReaderInv at h ⊢
  rw [reader]
  cases at_pc : s.reader with
  | idle => trivial
  | loadWp size rp₀ =>
    rw [at_pc] at h
    rw [rp]
    exact h
  | copy rp₀ size got =>
    rw [at_pc] at h
    obtain ⟨R₀, at_rp, after, behind, ahead, upto, within, ring, same, exact'⟩ := h
    refine ⟨R₀, at_rp, after, behind, ahead, upto, ?_, ?_, ?_, ?_⟩
    · rw [grown, List.length_append]
      omega
    · rw [cap]
      exact ring
    · rw [grown, List.drop_append_of_le_length (by omega), List.take_append_of_le_length]
      · exact same
      · rw [List.length_drop]
        omega
    · rw [policy]
      exact exact'

/-- The state after a step, with the read position it has moved to. -/
def Advanced (s : St T) (R : Nat) (t : St T) : Prop :=
  ∃ R' E', Inv t R' E' ∧ R ≤ R' ∧ R' ≤ R + s.cap.toNat ∧ t.cap = s.cap ∧ t.ePolicy = s.ePolicy

theorem Inv.advanced_here (inv : Inv t R E) (cap : t.cap = s.cap) (policy : t.ePolicy = s.ePolicy) :
    Advanced s R t :=
  ⟨R, E, inv, Nat.le_refl R, Nat.le_add_right _ _, cap, policy⟩

section Writer

theorem beginWrite_inv (inv : Inv s R E) {src : List Byte} {size : Usz T}
    (within : size.toNat ≤ src.length) (space : s.accepted.length + size.toNat ≤ R + s.cap.toNat) :
    Inv { s with writer := beginWrite src s.wp size } R E := by
  refine { inv with writer := ?_, reader := inv.reader }
  unfold WriterInv beginWrite
  by_cases none : size = 0
  · simp only [if_pos none]
  · simp only [if_neg none]
    refine ⟨rfl, within, Nat.zero_le _, space, ?_⟩
    intro j absurd
    omega

theorem writeStep_advanced (inv : Inv s R E) (run : writeStep s src = some t) : Advanced s R t := by
  unfold writeStep at run
  split at run
  · by_cases fits : src.length < T.modulus
    · rw [if_pos fits] at run
      cases run
      exact Inv.advanced_here { inv with writer := ⟨rfl, fits⟩, reader := inv.reader } rfl rfl
    · rw [if_neg fits] at run
      cases run
  · cases run

theorem loadRp_advanced (inv : Inv s R E) (pc : s.writer = .loadRp src wp)
    (run : writerStep s = some t) : Advanced s R t := by
  have writer := inv.writer
  rw [WriterInv, pc] at writer
  obtain ⟨rfl, fits⟩ := writer
  rw [writerStep, pc] at run
  rcases spscPolicy_eq inv fits with ⟨size, verdict, within, space⟩ | ⟨policy, size, drop, verdict, whole, amount⟩
  · simp only [verdict] at run
    cases run
    exact (beginWrite_inv inv within space).advanced_here rfl rfl
  · simp only [verdict] at run
    cases run
    refine Inv.advanced_here { inv with writer := ?_, reader := inv.reader } rfl rfl
    exact ⟨rfl, policy, whole, R, Nat.le_refl R, amount⟩

theorem fetchAdd_advanced (inv : Inv s R E) (pc : s.writer = .fetchAdd src wp size drop)
    (ok : ActOk .writer s) (run : writerStep s = some t) : Advanced s R t := by
  have writer := inv.writer
  rw [WriterInv, pc] at writer
  obtain ⟨rfl, policy, whole, R₀, before, amount⟩ := writer
  have safe := ok policy
  simp only [pc] at safe
  obtain ⟨unread, drained⟩ := safe
  rw [BitVec.le_def, inv.avail] at unread
  rw [writerStep, pc] at run
  cases run
  have behind := inv.behind
  have space := inv.space
  have moved : Inv { s with rp := s.rp + drop, writer := .idle } (R + drop.toNat) E := by
    refine { inv with at_rp := ?_, behind := ?_, space := ?_, live := ?_, writer := trivial,
                      reader := ?_, ends := ?_, exact := ?_ }
    · rw [inv.at_rp]
      exact word_add_bits R drop
    · change R + drop.toNat ≤ s.accepted.length
      omega
    · change s.accepted.length ≤ R + drop.toNat + s.cap.toNat
      omega
    · intro j above below
      exact inv.live j (by omega) below
    · have reader := inv.reader
      unfold ReaderInv at reader ⊢
      cases at_pc : s.reader with
      | idle => trivial
      | loadWp n rp =>
        rw [at_pc] at drained
        intro some
        exact absurd drained some
      | copy rp n got =>
        rw [at_pc] at drained reader
        obtain ⟨r, draining⟩ := reader
        have distance : (s.rp - rp).toNat = R - r := by
          have := draining.ahead
          have := draining.upto
          have := draining.ring
          have := inv.cap_lt
          have := inv.cap_pos
          rw [inv.at_rp, draining.at_rp]
          exact toNat_word_sub draining.behind (by rw [Target.modulus] at *; omega)
        have caught := draining.behind
        refine ⟨r, { draining with behind := ?_, ahead := ?_, exact := ?_ }⟩
        · omega
        · simp only [distance] at drained
          omega
        · intro other
          exact absurd policy other
    · have := inv.ends
      omega
    · intro other
      exact absurd policy other
  refine ⟨R + drop.toNat, E, beginWrite_inv moved ?_ ?_, by omega, ?_, rfl, rfl⟩
  · omega
  · change s.accepted.length + size.toNat ≤ R + drop.toNat + s.cap.toNat
    omega
  · omega

theorem writerCopy_advanced (inv : Inv s R E) (pc : s.writer = .copy src wp size i)
    (run : writerStep s = some t) : Advanced s R t := by
  have writer := inv.writer
  rw [WriterInv, pc] at writer
  obtain ⟨rfl, within, upto, space, filled⟩ := writer
  have behind := inv.behind
  by_cases more : i < size.toNat
  · simp only [writerStep, pc, if_pos more, Option.some.injEq] at run
    subst run
    have cell : copyCell s.cap s.wp size i = (s.accepted.length + i) % s.cap.toNat := by
      rw [inv.at_wp]
      exact inv.copyCell_eq _ (by omega) more
    refine Inv.advanced_here { inv with live := ?_, writer := ?_, reader := ?_ } rfl rfl
    · intro j above below
      dsimp only at below ⊢
      have apart : j % s.cap.toNat ≠ (s.accepted.length + i) % s.cap.toNat :=
        mod_ne (by omega) (by omega)
      rw [cell, Function.update_of_ne apart]
      exact inv.live j above below
    · refine ⟨rfl, within, more, space, ?_⟩
      intro j lt
      dsimp only
      rw [cell]
      by_cases last : j = i
      · rw [last, Function.update_self]
      · have apart : (s.accepted.length + j) % s.cap.toNat ≠ (s.accepted.length + i) % s.cap.toNat :=
          mod_ne (by omega) (by omega)
        rw [Function.update_of_ne apart]
        exact filled j (by omega)
    · exact inv.reader.keep rfl rfl rfl rfl (List.append_nil _).symm
  · simp only [writerStep, pc, if_neg more, Option.some.injEq] at run
    subst run
    obtain rfl : i = size.toNat := by omega
    have stored : (s.accepted ++ src.take size.toNat).length = s.accepted.length + size.toNat := by
      rw [List.length_append, List.length_take, Nat.min_eq_left within]
    have unread := inv.space
    have kept : ReaderInv { s with
        wp := s.wp + size, writer := .idle, accepted := s.accepted ++ src.take size.toNat } R E :=
      inv.reader.keep rfl rfl rfl rfl rfl
    refine Inv.advanced_here
      { inv with at_wp := ?_, behind := ?_, space := ?_, live := ?_, writer := trivial, reader := kept,
                 delivered := inv.delivered.append _, exact := ?_ } rfl rfl
    · rw [stored, inv.at_wp]
      exact word_add_bits _ size
    · rw [stored]
      omega
    · rw [stored]
      exact space
    · intro j above below
      rw [stored] at below
      by_cases old : j < s.accepted.length
      · rw [List.getElem?_append_left old]
        exact inv.live j above old
      · obtain ⟨m, rfl⟩ := Nat.exists_eq_add_of_le (Nat.le_of_not_lt old)
        have short : m < size.toNat := by omega
        rw [List.getElem?_append_right (Nat.le_add_right _ _), Nat.add_sub_cancel_left,
          List.getElem?_take_of_lt short, filled m short, List.getD_eq_getElem?_getD,
          List.getElem?_eq_getElem (by omega), Option.getD_some]
    · intro other
      rw [inv.exact other, List.take_append_of_le_length behind]

end Writer

section Reader

theorem readStep_advanced (inv : Inv s R E) (run : readStep s size = some t) : Advanced s R t := by
  unfold readStep at run
  split at run
  · cases run
    exact Inv.advanced_here { inv with writer := inv.writer, reader := fun _ => rfl } rfl rfl
  · cases run

/-- A read that finds nothing returns no bytes. -/
theorem emptyRead_advanced (inv : Inv s R E) :
    Advanced s R { s with reader := .idle, returned := s.returned ++ [[]] } := by
  refine Inv.advanced_here (E := E)
    { inv with writer := inv.writer, reader := trivial, delivered := ?_, exact := ?_ } rfl rfl
  · have same : Delivered s.accepted (E + ([] : List Byte).length) (s.returned ++ [[]]) :=
      .next E inv.delivered (Nat.le_refl E) inv.delivered.le rfl
    exact same
  · intro other
    rw [List.flatten_append, List.flatten_cons, List.flatten_nil]
    simpa using inv.exact other

theorem loadWp_advanced (inv : Inv s R E) (pc : s.reader = .loadWp size rp)
    (run : readerStep s = some t) : Advanced s R t := by
  have reader := inv.reader
  rw [ReaderInv, pc] at reader
  simp only [readerStep, pc] at run
  by_cases none : (if size > s.wp - rp then s.wp - rp else size) = 0
  · rw [if_pos none, Option.some.injEq] at run
    subst run
    exact emptyRead_advanced inv
  · rw [if_neg none, Option.some.injEq] at run
    subst run
    have some : size ≠ 0 := by
      rintro rfl
      apply none
      rw [if_neg]
      simp
    obtain rfl := reader some
    have avail := inv.avail
    have space := inv.space
    have behind := inv.behind
    have bound : (if size > s.wp - s.rp then s.wp - s.rp else size).toNat ≤ s.accepted.length - R := by
      split
      · omega
      · next fits =>
        rw [gt_iff_lt, BitVec.lt_def, avail] at fits
        omega
    refine Inv.advanced_here { inv with writer := inv.writer, reader := ⟨R, ?_⟩ } rfl rfl
    refine ⟨inv.at_rp, inv.ends, Nat.le_refl R, Nat.le_refl R, Nat.zero_le _, ?_, ?_, rfl, fun _ => rfl⟩
    · dsimp only
      omega
    · dsimp only
      omega

theorem readerCopy_advanced (inv : Inv s R E) (pc : s.reader = .copy rp size got)
    (run : readerStep s = some t) : Advanced s R t := by
  have reader := inv.reader
  rw [ReaderInv, pc] at reader
  obtain ⟨R₀, rfl, after, behind, ahead, upto, within, ring, same, exact'⟩ := reader
  by_cases more : got.length < size.toNat
  · simp only [readerStep, pc, if_pos more, Option.some.injEq] at run
    subst run
    have value := inv.live (R₀ + got.length) (by omega) (by omega)
    refine Inv.advanced_here { inv with writer := inv.writer, reader := ⟨R₀, ?_⟩ } rfl rfl
    rw [inv.copyCell_eq R₀ ring more]
    refine ⟨rfl, after, behind, ?_, ?_, within, ring, ?_, exact'⟩
    · rw [List.length_append]
      omega
    · rw [List.length_append, List.length_singleton]
      exact more
    · rw [List.length_append, List.length_singleton, List.take_add_one, List.getElem?_drop, value,
        ← same]
      rfl
  · simp only [readerStep, pc, if_neg more, Option.some.injEq] at run
    subst run
    have full : got.length = size.toNat := by omega
    have moved : Inv { s with rp := word _ R₀ + size, reader := .idle, returned := s.returned ++ [got] }
        (R₀ + size.toNat) (R₀ + got.length) := by
      refine { inv with at_rp := word_add_bits R₀ size, behind := within, space := ?_, live := ?_,
                        writer := inv.writer.keep (by omega) _ _ _, reader := trivial,
                        delivered := ?_, ends := ?_, exact := ?_ }
      · have := inv.space
        change s.accepted.length ≤ R₀ + size.toNat + s.cap.toNat
        omega
      · intro j above below
        exact inv.live j (by omega) below
      · refine .next R₀ inv.delivered after ?_ same
        dsimp only
        omega
      · omega
      · intro other
        obtain rfl := exact' other
        rw [List.flatten_append, List.flatten_cons, List.flatten_nil, List.append_nil, inv.exact other,
          List.take_add, same, ← full]
    refine ⟨_, _, moved, by omega, ?_, rfl, rfl⟩
    have := inv.space
    omega

end Reader

theorem step_advanced {act : Act T} (inv : Inv s R E) (ok : ActOk act s) (run : step act s = some t) :
    Advanced s R t := by
  cases act with
  | write src => exact writeStep_advanced inv run
  | writer =>
    change writerStep s = some t at run
    cases pc : s.writer with
    | idle => simp [writerStep, pc] at run
    | loadRp src wp => exact loadRp_advanced inv pc run
    | fetchAdd src wp size drop => exact fetchAdd_advanced inv pc ok run
    | copy src wp size i => exact writerCopy_advanced inv pc run
  | read size => exact readStep_advanced inv run
  | reader =>
    change readerStep s = some t at run
    cases pc : s.reader with
    | idle => simp [readerStep, pc] at run
    | loadWp size rp => exact loadWp_advanced inv pc run
    | copy rp size got => exact readerCopy_advanced inv pc run

end AvaModule.SpscRing
