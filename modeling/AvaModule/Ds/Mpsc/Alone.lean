import AvaModule.Ds.Mpsc.Exact

/-! The calls of one user of the ring, made one after another, over the span of used
positions. Between calls no slot in use has a position published. -/
namespace AvaModule.MpscRing
open WrapRing Memory

variable {T : Target} {mpsc : Mpsc T} {v : Span} {size : Usz T}
  {stream : List Byte} {k n : Nat}

/-- The words of the ring stand for the span. -/
structure Shape (mpsc : Mpsc T) (v : Span) : Prop where
  valid : v.Valid
  cap : mpsc.cap.toNat = v.cap
  cap_le : v.cap ≤ (offsetMax T).toNat
  rp : mpsc.rp.toNat = v.rp
  word : ∃ n, mpsc.wp = pack n (BitVec.ofNat _ v.off)
  field : v.off ≤ (offsetMask T).toNat
  warp : (v.lim = v.cap ∧ mpsc.warpEnd = offsetMax T) ∨
    (v.lim < v.cap ∧ v.lim ≤ (offsetMask T).toNat ∧ mpsc.warpEnd.toNat = v.lim)

def Quiet (mpsc : Mpsc T) : Prop := ∀ i, (mpsc.producers i).flag = false

/-- No slot in use has a position published. -/
def Idle (mpsc : Mpsc T) : Prop :=
  ∀ i < mpsc.nproducers, (mpsc.producers i).flag = true → (mpsc.producers i).reservePos = offsetMax T

theorem Quiet.idle (quiet : Quiet mpsc) : Idle mpsc := by
  intro i _ used
  rw [quiet i] at used
  cases used

/-- The used cells hold the stream. -/
structure Stored (buf : Nat → Byte) (v : Span) (stream : List Byte) : Prop where
  length : v.W = v.R + stream.length
  bytes : ∀ k (lt : k < stream.length), buf (v.cell (v.R + k)) = stream[k]

theorem mask_lt_modulus : (offsetMask T).toNat < T.modulus := (offsetMask T).isLt

theorem offsetMax_lt_modulus : (offsetMax T).toNat < T.modulus := (offsetMax T).isLt

section Acquire

theorem Shape.at_off (shape : Shape mpsc v) : (BitVec.ofNat T.bits v.off).toNat = v.off :=
  toNat_length (Nat.lt_of_le_of_lt shape.field mask_lt_modulus)

theorem Shape.small (shape : Shape mpsc v) :
    (BitVec.ofNat T.bits v.off).toNat ≤ (offsetMask T).toNat := by
  rw [shape.at_off]
  exact shape.field

theorem Shape.sum (shape : Shape mpsc v) (spared : Spared T v.cap v.rp v.off size.toNat) :
    (BitVec.ofNat T.bits v.off + size).toNat = v.off + size.toNat := by
  rw [BitVec.toNat_add, shape.at_off]
  exact Nat.mod_eq_of_lt spared.word

/-- A spared request that does not fit is refused. -/
theorem Shape.acquire_refused (shape : Shape mpsc v) (spared : Spared T v.cap v.rp v.off size.toNat)
    (full : ¬v.Fits size.toNat) (i : Nat) :
    mpscAcquire mpsc i size = some (none, mpsc.setReserve i (offsetMax T)) := by
  obtain ⟨n, word⟩ := shape.word
  have sum := shape.sum spared
  have cap := shape.cap
  have rp := shape.rp
  have off := shape.at_off
  have small := shape.small
  have rp_lt := shape.valid.rp_lt
  rw [mpscAcquire_eq word small]
  suffices refused : acquireTarget mpsc.cap (pack n (BitVec.ofNat _ v.off)) mpsc.rp size = none by
    rw [refused]
  by_cases meets : v.off < v.rp ∧ v.rp ≤ v.off + size.toNat
  · exact acquireTarget_meets small (by omega) (by omega)
  · have clear : ¬((BitVec.ofNat T.bits v.off).toNat < mpsc.rp.toNat ∧
        mpsc.rp.toNat ≤ (BitVec.ofNat T.bits v.off + size).toNat) := by omega
    have around : v.rp ≤ v.off ∧ v.cap ≤ v.off + size.toNat ∧ v.rp ≤ v.nextOff size.toNat := by
      by_contra free
      apply full
      constructor <;> omega
    have next := v.next_cases size.toNat
    rcases Nat.lt_trichotomy (v.off + size.toNat) v.cap with inside | ends | past
    · omega
    · have zero : mpsc.rp.toNat = 0 := by omega
      rw [acquireTarget_ends small clear (by omega), if_pos zero]
    · have reader : mpsc.rp.toNat ≤ size.toNat % ((offsetMask T).toNat + 1) := by
        rcases spared.around past with ⟨short, _⟩ | both | meets'
        · rw [Nat.mod_eq_of_lt (by omega)]
          omega
        · exact absurd both meets
        · omega
      rw [acquireTarget_over small clear (by omega), if_pos reader]

/-- A spared request that fits gets its region. -/
theorem Shape.acquire_granted (shape : Shape mpsc v) (spared : Spared T v.cap v.rp v.off size.toNat)
    (fits : v.Fits size.toNat) (i : Nat) :
    ∃ off m, mpscAcquire mpsc i size = some (some off, m) ∧ off.toNat = v.place size.toNat ∧
      Shape m (v.next size.toNat) ∧ m.buf = mpsc.buf ∧
      ∀ j, (m.producers j).flag = (mpsc.producers j).flag := by
  obtain ⟨n, word⟩ := shape.word
  have sum := shape.sum spared
  have cap := shape.cap
  have rp := shape.rp
  have off := shape.at_off
  have small := shape.small
  have valid := shape.valid.next fits
  have around := fits.around
  have below := fits.below
  have rp_lt := shape.valid.rp_lt
  have off_lt := shape.valid.off_lt
  have clear : ¬((BitVec.ofNat T.bits v.off).toNat < mpsc.rp.toNat ∧
      mpsc.rp.toNat ≤ (BitVec.ofNat T.bits v.off + size).toNat) := by omega
  have flags : ∀ j, ((mpsc.setReserve i (BitVec.ofNat _ v.off)).producers j).flag =
      (mpsc.producers j).flag := by
    intro j
    by_cases same : j = i
    · subst same
      simp [Mpsc.setReserve]
    · simp [Mpsc.setReserve, same]
  rw [mpscAcquire_eq word small]
  rcases v.next_cases size.toNat with ⟨inside, place, _, next⟩ | ⟨ends, place, after, next⟩ | ⟨past, place, after, next⟩
  · have field : v.off + size.toNat ≤ (offsetMask T).toNat := by
      rcases spared.inside inside with short | both
      · exact short
      · omega
    have unlocked : ¬Locked (pack n (BitVec.ofNat T.bits v.off + size)) := pack_unlocked (by omega) n
    rw [acquireTarget_inside small clear (by omega)]
    refine ⟨BitVec.ofNat _ v.off, _, congrArg some (if_neg unlocked), by omega, ?_, rfl, flags⟩
    rw [next] at valid ⊢
    exact ⟨valid, cap, shape.cap_le, rp, ⟨n, by rw [← ofNat_toNat_eq sum]; rfl⟩, field, shape.warp⟩
  · have unlocked : ¬Locked (pack (n + 1) (0 : Usz T)) := pack_unlocked (by simp) _
    have reader : mpsc.rp.toNat ≠ 0 := by omega
    rw [acquireTarget_ends small clear (by omega), if_neg reader]
    refine ⟨BitVec.ofNat _ v.off, _, congrArg some (if_neg unlocked), by omega, ?_, rfl, flags⟩
    rw [next] at valid ⊢
    exact ⟨valid, cap, shape.cap_le, rp, ⟨n + 1, rfl⟩, Nat.zero_le _, shape.warp⟩
  · obtain ⟨short, small'⟩ : size.toNat ≤ (offsetMask T).toNat ∧ size.toNat < v.cap := by
      rcases spared.around past with both | both | meets
      · exact both
      · omega
      · have := Nat.mod_le size.toNat ((offsetMask T).toNat + 1)
        by_cases long : size.toNat ≤ (offsetMask T).toNat
        · rw [Nat.mod_eq_of_lt (by omega)] at meets
          omega
        · omega
    have reader : ¬mpsc.rp.toNat ≤ size.toNat % ((offsetMask T).toNat + 1) := by
      rw [Nat.mod_eq_of_lt (by omega)]
      omega
    have unlocked : ¬Locked (pack (n + 1) size) := pack_unlocked short _
    have word' : (wrapLockBit T ||| (size ||| lapWord T (n + 1))) &&& ~~~wrapLockBit T =
        pack (n + 1) size := clear_lock unlocked
    rw [acquireTarget_over small clear (by omega), if_neg reader]
    refine ⟨0, _, congrArg some (if_pos (lock_locked _)), by simpa using place.symm, ?_, rfl, flags⟩
    rw [word']
    rw [next] at valid ⊢
    exact ⟨valid, cap, shape.cap_le, rp, ⟨n + 1, by rw [ofNat_toNat_eq rfl]⟩, short,
      .inr ⟨off_lt, shape.field, off⟩⟩

end Acquire

section Pop

/-- A pass over idle slots finds no published position. -/
theorem Idle.ready (idle : Idle mpsc) (rp : Usz T) : mpscReady mpsc rp = some (offsetMax T) := by
  have unlocked : ¬Locked (offsetMax T) := by cases T <;> decide
  have members : ∀ i ∈ List.range mpsc.nproducers, i < mpsc.nproducers := fun _ => List.mem_range.mp
  unfold mpscReady
  generalize List.range mpsc.nproducers = is at members ⊢
  induction is with
  | nil => rfl
  | cons i is ih =>
    have rest := ih fun j member => members j (List.mem_cons_of_mem i member)
    rw [List.foldlM_cons]
    cases used : (mpsc.producers i).flag with
    | false => exact rest
    | true =>
      have unset := idle i (members i List.mem_cons_self) used
      simp only [mpscGetReservePos, unset, if_neg unlocked, if_true, Option.pure_def, Option.bind_eq_bind,
        Option.bind_some, BitVec.lt_irrefl, and_false, if_false]
      exact rest

/-- What the call reports of the span: the length of the run at `rp`, and where it
starts unless nothing is stored. -/
structure Popped (v : Span) (rp nbytes : Usz T) (off : Option (Usz T)) : Prop where
  length : nbytes.toNat = v.top - v.rp
  start : nbytes ≠ 0 → off = some rp
  empty : nbytes = 0 → v.W = v.R

theorem Shape.getWp (shape : Shape mpsc v) :
    ∃ wp, mpscGetWp mpsc = some wp ∧ (wp &&& offsetMask T).toNat = v.off := by
  obtain ⟨n, word⟩ := shape.word
  have free := pack_unlocked shape.small n
  refine ⟨pack n (BitVec.ofNat _ v.off), ?_, ?_⟩
  · rw [mpscGetWp, word, if_neg free]
  · rw [pack_offset shape.small, shape.at_off]

theorem zero_of_toNat {x : Usz T} (zero : x.toNat = 0) : x = 0 := by
  apply BitVec.eq_of_toNat_eq
  rw [zero]
  exact BitVec.toNat_zero.symm

theorem pos_of_ne_zero {x : Usz T} (some : x ≠ 0) : 0 < x.toNat := by
  by_contra none
  exact some (zero_of_toNat (by omega))

/-- A pass over one run ends the call. -/
theorem Shape.pass_straight (shape : Shape mpsc v) (idle : Idle mpsc) (straight : v.rp ≤ v.off) :
    ∃ nbytes off, popPass mpsc mpsc.rp = some (.done nbytes off) ∧ Popped v mpsc.rp nbytes off := by
  obtain ⟨wp, getWp, at_wp⟩ := shape.getWp
  have rp := shape.rp
  have top : v.top = v.off := if_pos straight
  have W := (shape.valid.straight straight).2
  have field := shape.field
  have mask := mask_lt_offsetMax (T := T)
  simp only [popPass, getWp, idle.ready, Option.bind_eq_bind, Option.bind_some]
  by_cases same : mpsc.rp = wp &&& offsetMask T
  · have none : v.rp = v.off := by rw [← rp, same, at_wp]
    rw [if_pos same]
    exact ⟨0, _, rfl, ⟨by simp; omega, fun some => absurd rfl some, fun _ => by omega⟩⟩
  · have ahead : ¬wp &&& offsetMask T < mpsc.rp := by
      rw [BitVec.lt_def]
      omega
    have none : ¬offsetMax T < wp &&& offsetMask T := by
      rw [BitVec.lt_def]
      omega
    have le : mpsc.rp ≤ wp &&& offsetMask T := by
      rw [BitVec.le_def]
      omega
    have length : ((wp &&& offsetMask T) - mpsc.rp).toNat = v.top - v.rp := by
      rw [BitVec.toNat_sub_of_le le]
      omega
    rw [if_neg same, if_neg ahead, if_neg none]
    refine ⟨_, _, rfl, ⟨length, fun _ => rfl, ?_⟩⟩
    intro empty
    rw [empty] at length
    have zero : (0 : Usz T).toNat = 0 := BitVec.toNat_zero
    omega

/-- The end of the upper run, as the consumer reads it. -/
theorem Shape.warpEnd (shape : Shape mpsc v) :
    (if mpsc.warpEnd = offsetMax T then mpsc.cap else mpsc.warpEnd).toNat = v.lim := by
  rcases shape.warp with ⟨full, unset⟩ | ⟨_, field, set⟩
  · rw [if_pos unset, shape.cap, full]
  · rw [if_neg, set]
    intro unset
    have mask := mask_lt_offsetMax (T := T)
    rw [unset] at set
    omega

theorem Shape.restart (shape : Shape mpsc v) (wrap : v.off < v.rp) (empty : v.rp = v.lim) :
    Shape { mpsc with warpEnd := offsetMax T, rp := 0 } v.restart where
  valid := shape.valid.restart wrap empty
  cap := shape.cap
  cap_le := shape.cap_le
  rp := BitVec.toNat_zero
  word := shape.word
  field := shape.field
  warp := .inl ⟨rfl, rfl⟩

/-- A pass over two runs gives an empty upper one up. -/
theorem Shape.pass_wrapped (shape : Shape mpsc v) (idle : Idle mpsc) (wrap : v.off < v.rp) :
    if v.rp = v.lim then
      popPass mpsc mpsc.rp = some (.retry { mpsc with warpEnd := offsetMax T, rp := 0 })
    else ∃ nbytes off, popPass mpsc mpsc.rp = some (.done nbytes off) ∧ Popped v mpsc.rp nbytes off := by
  obtain ⟨wp, getWp, at_wp⟩ := shape.getWp
  have rp := shape.rp
  have warpEnd := shape.warpEnd
  have top : v.top = v.lim := if_neg (Nat.not_le.mpr wrap)
  obtain ⟨upper, lim, _⟩ := shape.valid.wrapped wrap
  have cap_le := shape.cap_le
  have apart : ¬mpsc.rp = wp &&& offsetMask T := by
    intro same
    rw [← same] at at_wp
    omega
  have ahead : wp &&& offsetMask T < mpsc.rp := by
    rw [BitVec.lt_def]
    omega
  simp only [popPass, getWp, idle.ready, Option.bind_eq_bind, Option.bind_some, if_neg apart, if_pos ahead,
    true_and]
  generalize (if mpsc.warpEnd = offsetMax T then mpsc.cap else mpsc.warpEnd) = bound at warpEnd ⊢
  by_cases empty : v.rp = v.lim
  · have same : mpsc.rp = bound := BitVec.eq_of_toNat_eq (by omega)
    rw [if_pos empty, if_pos same]
    rfl
  · have differ : ¬mpsc.rp = bound := by
      intro same
      rw [same] at rp
      omega
    have none : ¬offsetMax T < bound := by
      rw [BitVec.lt_def]
      omega
    have le : mpsc.rp ≤ bound := by
      rw [BitVec.le_def]
      omega
    have length : (bound - mpsc.rp).toNat = v.top - v.rp := by
      rw [BitVec.toNat_sub_of_le le]
      omega
    rw [if_neg empty, if_neg differ, if_neg none]
    refine ⟨_, _, rfl, ⟨length, fun _ => rfl, ?_⟩⟩
    intro none
    rw [none] at length
    have zero : (0 : Usz T).toNat = 0 := BitVec.toNat_zero
    omega

/-- The front of the span, after a pass that found the upper run empty and gave it up. -/
theorem Shape.pop (shape : Shape mpsc v) (idle : Idle mpsc) :
    ∃ v' warpEnd rp nbytes off, mpscPop mpsc = some ((nbytes, off), { mpsc with warpEnd, rp }) ∧
      Shape { mpsc with warpEnd, rp } v' ∧ Popped v' rp nbytes off ∧
      (v' = v ∨ v.off < v.rp ∧ v.rp = v.lim ∧ v' = v.restart) := by
  rcases Nat.lt_or_ge v.off v.rp with wrap | straight
  · have pass := shape.pass_wrapped idle wrap
    by_cases empty : v.rp = v.lim
    · rw [if_pos empty] at pass
      have again := shape.restart wrap empty
      obtain ⟨nbytes, off, pass', front⟩ := again.pass_straight idle (Nat.zero_le _)
      refine ⟨_, _, _, nbytes, off, ?_, again, front, .inr ⟨wrap, empty, rfl⟩⟩
      simp only [mpscPop, popLoop, pass, pass', Option.bind_eq_bind, Option.bind_some]
      rfl
    · rw [if_neg empty] at pass
      obtain ⟨nbytes, off, pass, front⟩ := pass
      refine ⟨v, mpsc.warpEnd, mpsc.rp, nbytes, off, ?_, shape, front, .inl rfl⟩
      simp only [mpscPop, popLoop, pass, Option.bind_eq_bind, Option.bind_some]
      rfl
  · obtain ⟨nbytes, off, pass, front⟩ := shape.pass_straight idle straight
    refine ⟨v, mpsc.warpEnd, mpsc.rp, nbytes, off, ?_, shape, front, .inl rfl⟩
    simp only [mpscPop, popLoop, pass, Option.bind_eq_bind, Option.bind_some]
    rfl

end Pop

theorem Shape.top_le (shape : Shape mpsc v) : v.top ≤ v.cap := by
  have run := v.top_cases
  have valid := shape.valid
  have off_lt := valid.off_lt
  have wrapped := valid.wrapped
  omega

theorem Shape.cap_lt (shape : Shape mpsc v) : v.cap < T.modulus :=
  Nat.lt_of_le_of_lt shape.cap_le offsetMax_lt_modulus

/-- Cells of the run at `rp` are given back. -/
theorem Shape.release (shape : Shape mpsc v) (front : v.rp + size.toNat ≤ v.top) :
    Shape (mpscRelease mpsc size) (v.drop size.toNat) where
  valid := shape.valid.drop front
  cap := shape.cap
  cap_le := shape.cap_le
  rp := by
    have top_le := shape.top_le
    have sum : (mpsc.rp + size).toNat = v.rp + size.toNat := by
      rw [BitVec.toNat_add, shape.rp]
      exact Nat.mod_eq_of_lt (Nat.lt_of_le_of_lt (Nat.le_trans front top_le) shape.cap_lt)
    simp only [mpscRelease, releaseTarget, Span.drop]
    by_cases ends : v.rp + size.toNat = v.cap
    · rw [if_pos (BitVec.eq_of_toNat_eq (by rw [sum, shape.cap, ends])), if_pos ends]
      exact BitVec.toNat_zero
    · rw [if_neg, if_neg ends, sum]
      intro same
      rw [same, shape.cap] at sum
      exact ends sum.symm
  word := shape.word
  field := shape.field
  warp := shape.warp

section Read

theorem Stored.restart (stored : Stored mpsc.buf v stream) (valid : v.Valid) (wrap : v.off < v.rp)
    (empty : v.rp = v.lim) : Stored mpsc.buf v.restart stream where
  length := stored.length
  bytes := by
    intro k lt
    have W := stored.length
    rw [← stored.bytes k lt]
    exact congrArg _ (valid.cell_restart wrap empty (Nat.le_add_right _ _) (by simp only [Span.restart]; omega))

theorem Stored.drop (stored : Stored mpsc.buf v stream) (valid : v.Valid) (front : v.rp + n ≤ v.top) :
    Stored mpsc.buf (v.drop n) (stream.drop n) where
  length := by
    have W := stored.length
    have used := valid.front_le front
    simp only [Span.drop, List.length_drop]
    omega
  bytes := by
    intro k lt
    have W := stored.length
    rw [List.length_drop] at lt
    rw [List.getElem_drop, ← stored.bytes (n + k) (by omega)]
    have place : (v.drop n).R + k = v.R + (n + k) := by
      simp only [Span.drop]
      omega
    rw [place, valid.cell_drop front (by omega) (by omega)]

/-- The front of the stream is one block of memory. -/
theorem Stored.front (stored : Stored mpsc.buf v stream) (valid : v.Valid) (front : v.rp + n ≤ v.top) :
    Memory.read mpsc.buf v.rp n = stream.take n := by
  have W := stored.length
  have used := valid.front_le front
  apply List.ext_getElem
  · rw [read_length, List.length_take]
    omega
  · intro i lt _
    rw [read_length] at lt
    rw [List.getElem_take, ← stored.bytes i (by omega), valid.cell_front (by omega)]
    simp [Memory.read]

/-- A read of a part of the region at the front. -/
theorem Shape.read (shape : Shape mpsc v) (idle : Idle mpsc) (stored : Stored mpsc.buf v stream)
    (held : v.Held k v.R) (part : n ≤ k) :
    ∃ v' warpEnd rp, mpscRead mpsc (BitVec.ofNat _ n) = some (stream.take n, { mpsc with warpEnd, rp }) ∧
      Shape { mpsc with warpEnd, rp } v' ∧ Stored mpsc.buf v' (stream.drop n) ∧ v'.Held (k - n) v'.R ∧
      v'.cap = v.cap ∧ v'.R = v.R + n ∧ ∀ size L, v.Held size L → v.R + n ≤ L → v'.Held size L := by
  obtain ⟨w, warpEnd, rp, avail, off, pop, shape', front, same⟩ := shape.pop idle
  obtain ⟨stored', held', cap, R, others⟩ : Stored mpsc.buf w stream ∧ w.Held k w.R ∧ w.cap = v.cap ∧ w.R = v.R ∧
      ∀ size L, v.Held size L → w.Held size L := by
    rcases same with rfl | ⟨wrap, empty, rfl⟩
    · exact ⟨stored, held, rfl, rfl, fun _ _ held => held⟩
    · exact ⟨stored.restart shape.valid wrap empty, held.restart shape.valid wrap empty, rfl, rfl,
        fun _ _ held => held.restart shape.valid wrap empty⟩
  have valid := shape'.valid
  have length := front.length
  have run : w.rp < w.top ∨ w.W = w.R := by
    by_cases none : avail = 0
    · exact .inr (front.empty none)
    · have := pos_of_ne_zero none
      omega
  have first := held'.front valid run
  have top_le := shape'.top_le
  have cap_lt := shape'.cap_lt
  have size : (BitVec.ofNat T.bits n).toNat = n := toNat_length (by omega)
  have upto : w.rp + n ≤ w.top := by omega
  have used := valid.front_le upto
  have W := stored'.length
  simp only [mpscRead, pop, Option.bind_eq_bind, Option.bind_some]
  by_cases none : avail = 0
  · have zero : n = 0 := by
      have empty := front.empty none
      omega
    subst zero
    rw [if_pos none]
    refine ⟨w, warpEnd, rp, rfl, shape', stored', held', cap, R, ?_⟩
    intro size L region _
    exact others size L region
  · have enough : ¬avail < BitVec.ofNat T.bits n := by
      rw [BitVec.lt_def]
      omega
    have at_rp : rp.toNat = w.rp := shape'.rp
    have sum : (rp + BitVec.ofNat T.bits n).toNat = w.rp + n := by
      rw [BitVec.toNat_add, at_rp, size]
      exact Nat.mod_eq_of_lt (by rw [Target.modulus] at cap_lt; omega)
    have inside : rp + BitVec.ofNat T.bits n ≤ mpsc.cap := by
      rw [BitVec.le_def, sum, shape.cap, ← cap]
      omega
    have release : Shape (mpscRelease _ (BitVec.ofNat T.bits n)) _ := shape'.release (by omega)
    rw [size] at release
    rw [if_neg none, if_neg enough, front.start none, Option.getD_some, if_pos inside, at_rp, size,
      stored'.front valid upto]
    refine ⟨w.drop n, warpEnd, _, rfl, release, stored'.drop valid upto, .rest valid first part, cap, ?_, ?_⟩
    · rw [← R]
      rfl
    · intro size L region before
      exact (others size L region).drop valid upto (by omega)

/-- A read of an empty ring. -/
theorem Shape.read_empty (shape : Shape mpsc v) (idle : Idle mpsc) (stored : Stored mpsc.buf v []) :
    ∃ v' warpEnd rp, mpscRead mpsc size = some ([], { mpsc with warpEnd, rp }) ∧
      Shape { mpsc with warpEnd, rp } v' ∧ Stored mpsc.buf v' [] ∧ v'.cap = v.cap := by
  obtain ⟨w, warpEnd, rp, avail, off, pop, shape', front, same⟩ := shape.pop idle
  obtain ⟨stored', cap⟩ : Stored mpsc.buf w [] ∧ w.cap = v.cap := by
    rcases same with rfl | ⟨wrap, empty, rfl⟩
    · exact ⟨stored, rfl⟩
    · exact ⟨stored.restart shape.valid wrap empty, rfl⟩
  have W := stored'.length
  rw [List.length_nil] at W
  have none : avail = 0 := by
    by_contra some
    have length := front.length
    have positive := pos_of_ne_zero some
    have used := shape'.valid.front_le (n := w.top - w.rp) (by omega)
    omega
  refine ⟨w, warpEnd, rp, ?_, shape', stored', cap⟩
  simp only [mpscRead, pop, Option.bind_eq_bind, Option.bind_some]
  exact if_pos none

end Read

section Write

theorem Stored.write (stored : Stored mpsc.buf v stream) (valid : v.Valid) {msg : List Byte}
    (fits : v.Fits msg.length) :
    Stored (write mpsc.buf (v.place msg.length) msg) (v.next msg.length) (stream ++ msg) where
  length := by
    have W := stored.length
    simp only [Span.next, List.length_append]
    omega
  bytes := by
    intro k lt
    have W := stored.length
    rw [List.length_append] at lt
    have valid' := valid.next fits
    have cells : ∀ j < msg.length, (v.next msg.length).cell (v.W + j) = v.place msg.length + j :=
      fun j inside => (Span.Region.new valid fits).cells valid' inside
    have from_R : (v.next msg.length).R = v.R := rfl
    have to_W : (v.next msg.length).W = v.W + msg.length := rfl
    rw [from_R]
    by_cases old : k < stream.length
    · rw [List.getElem_append_left old, ← stored.bytes k old]
      have cell := valid.cell_next fits (k := v.R + k) (by omega) (by omega)
      rw [cell]
      apply write_outside
      by_contra within
      obtain ⟨j, inside, at_j⟩ : ∃ j < msg.length, v.cell (v.R + k) = v.place msg.length + j :=
        ⟨v.cell (v.R + k) - v.place msg.length, by omega, by omega⟩
      rw [← cell, ← cells j inside] at at_j
      have one := valid'.cell_inj (by omega) (by omega) (by omega) (by omega) at_j
      omega
    · have place : v.R + k = v.W + (k - stream.length) := by omega
      rw [place, cells _ (by omega), write_inside (by omega), List.getElem_append_right (by omega)]

end Write

end AvaModule.MpscRing
