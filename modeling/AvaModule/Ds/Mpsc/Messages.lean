import AvaModule.Ds.Mpsc.Alone
import AvaModule.Ds.Mpsc.Requests

/-! Messages written whole and read in parts. A message never straddles a wrap, so
every part of the oldest one is found at the front of the ring. -/
namespace AvaModule.MpscRing
open WrapRing Memory

variable {T : Target} {mpsc mpsc' : Mpsc T} {v : Span} {a b msg : List Byte} {msgs rest : List (List Byte)}

/-- Each message has a region of its own, one after another. -/
structure Framed (mpsc : Mpsc T) (v : Span) (msgs : List (List Byte)) : Prop where
  shape : Shape mpsc v
  stored : Stored mpsc.buf v msgs.flatten
  held : ∀ before msg after, msgs = before ++ msg :: after →
    v.Held msg.length (v.R + before.flatten.length)

/-- No call is under way, and the messages wait in the ring. -/
def Holds (mpsc : Mpsc T) (msgs : List (List Byte)) : Prop := Quiet mpsc ∧ ∃ v, Framed mpsc v msgs

theorem Framed.first (framed : Framed mpsc v (msg :: rest)) : v.Held msg.length v.R :=
  framed.held [] msg rest rfl

theorem Framed.later (framed : Framed mpsc v (msg :: rest)) (before : List (List Byte)) (other after)
    (eq : rest = before ++ other :: after) :
    v.Held other.length (v.R + (msg.length + before.flatten.length)) := by
  have held := framed.held (msg :: before) other after (by rw [eq]; rfl)
  rwa [List.flatten_cons, List.length_append] at held

theorem Holds.fresh (buf : Nat → Byte) (cap : Usz T) (nproducers : Nat) (cells : 0 < cap.toNat)
    (cap_le : cap.toNat ≤ (offsetMax T).toNat) : Holds (fresh buf cap nproducers) [] := by
  have zero : (0 : Usz T) = pack 0 (BitVec.ofNat _ 0) := by cases T <;> decide
  refine ⟨fun _ => rfl, ⟨cap.toNat, 0, 0, cap.toNat, 0, 0⟩, ⟨?_, ?_, ?_⟩⟩
  · exact ⟨⟨cells, cells, fun _ => ⟨rfl, rfl⟩, nofun⟩, rfl, cap_le, BitVec.toNat_zero, ⟨0, zero⟩,
      Nat.zero_le _, .inl ⟨rfl, rfl⟩⟩
  · exact ⟨rfl, nofun⟩
  · intro before msg after eq
    simp at eq

theorem Framed.cap (framed : Framed mpsc v msgs) : mpsc.cap.toNat = v.cap := framed.shape.cap

/-- A message is no longer than the ring. -/
theorem Holds.length_le (holds : Holds mpsc msgs) (member : msg ∈ msgs) :
    msg.length ≤ mpsc.cap.toNat := by
  obtain ⟨_, v, framed⟩ := holds
  obtain ⟨before, after, eq⟩ := List.append_of_mem member
  rw [framed.cap]
  exact (framed.held before msg after eq).bound framed.shape.valid

/-- An empty message at the front makes no difference. -/
theorem Holds.skip (holds : Holds mpsc ([] :: rest)) : Holds mpsc rest := by
  obtain ⟨quiet, v, framed⟩ := holds
  refine ⟨quiet, v, framed.shape, framed.stored, ?_⟩
  intro before msg after eq
  simpa using framed.later before msg after eq

/-- A read of the first part of the oldest message leaves the rest of it. -/
theorem Holds.read (holds : Holds mpsc ((a ++ b) :: rest)) :
    ∃ warpEnd rp, mpscRead mpsc (BitVec.ofNat _ a.length) = some (a, { mpsc with warpEnd, rp }) ∧
      Holds { mpsc with warpEnd, rp } (b :: rest) := by
  obtain ⟨quiet, v, framed⟩ := holds
  have part : a.length ≤ (a ++ b).length := by simp
  obtain ⟨v', warpEnd, rp, read, shape, stored, held, cap, R, others⟩ :=
    framed.shape.read quiet.idle framed.stored framed.first part
  have take : (((a ++ b) :: rest).flatten).take a.length = a := by simp
  have drop : (((a ++ b) :: rest).flatten).drop a.length = (b :: rest).flatten := by simp
  rw [take] at read
  rw [drop] at stored
  refine ⟨warpEnd, rp, read, quiet, v', shape, stored, ?_⟩
  intro before msg after eq
  cases before with
  | nil =>
    obtain ⟨rfl, rfl⟩ := List.cons.inj eq
    simpa using held
  | cons first before =>
    obtain ⟨rfl, tail⟩ := List.cons.inj eq
    have later := others _ _ (framed.later before msg after tail) (by simp only [List.length_append]; omega)
    have place : v'.R + (b :: before).flatten.length =
        v.R + ((a ++ b).length + before.flatten.length) := by
      simp only [List.flatten_cons, List.length_append]
      omega
    rwa [place]

theorem Holds.read_empty (holds : Holds mpsc []) (size : Usz T) :
    ∃ warpEnd rp, mpscRead mpsc size = some ([], { mpsc with warpEnd, rp }) ∧
      Holds { mpsc with warpEnd, rp } [] := by
  obtain ⟨quiet, v, framed⟩ := holds
  obtain ⟨v', warpEnd, rp, read, shape, stored, _⟩ := @Shape.read_empty T mpsc v size framed.shape quiet.idle framed.stored
  refine ⟨warpEnd, rp, read, quiet, v', shape, stored, ?_⟩
  intro before msg after eq
  simp at eq

/-- A message copied into the region it was granted. -/
theorem Framed.write (framed : Framed mpsc v msgs) (fits : v.Fits msg.length)
    (shape : Shape mpsc' (v.next msg.length))
    (buf : mpsc'.buf = write mpsc.buf (v.place msg.length) msg) :
    Framed mpsc' (v.next msg.length) (msgs ++ [msg]) where
  shape := shape
  stored := by
    rw [buf, List.flatten_append, List.flatten_singleton]
    exact framed.stored.write framed.shape.valid fits
  held := by
    have valid := framed.shape.valid
    have R : (v.next msg.length).R = v.R := rfl
    intro before other after eq
    rw [R]
    rcases List.eq_nil_or_concat after with rfl | ⟨after, last, rfl⟩
    · obtain ⟨rfl, rfl⟩ : msgs = before ∧ msg = other := by
        simpa using List.append_inj' eq rfl
      rw [← framed.stored.length]
      exact .new valid fits
    · have old : msgs = before ++ other :: after := by
        rw [List.concat_eq_append, ← List.cons_append, ← List.append_assoc] at eq
        exact (List.append_inj' eq rfl).1
      exact (framed.held before other after old).next valid fits

/-- A slot that is given up leaves the ring quiet again. -/
theorem Quiet.unreg {p : Nat} (others : ∀ j ≠ p, (mpsc.producers j).flag = false) :
    Quiet (mpscUnreg mpsc p) := by
  intro j
  by_cases same : j = p
  · subst same
    simp [mpscUnreg, Mpsc.setFlag]
  · simpa [mpscUnreg, Mpsc.setFlag, same] using others j same

theorem Quiet.reg {p j : Nat} (quiet : Quiet mpsc) (other : j ≠ p) :
    ((mpscReg mpsc p).producers j).flag = false := by
  simpa [mpscReg, Mpsc.setFlag, Mpsc.setReserve, other] using quiet j

theorem Shape.reg (shape : Shape mpsc v) (p : Nat) : Shape (mpscReg mpsc p) v :=
  ⟨shape.valid, shape.cap, shape.cap_le, shape.rp, shape.word, shape.field, shape.warp⟩

theorem Framed.unreg (framed : Framed mpsc v msgs) (p : Nat) : Framed (mpscUnreg mpsc p) v msgs :=
  let shape := framed.shape
  ⟨⟨shape.valid, shape.cap, shape.cap_le, shape.rp, shape.word, shape.field, shape.warp⟩,
    framed.stored, framed.held⟩

theorem Shape.off (shape : Shape mpsc v) : mpsc.off = v.off := by
  obtain ⟨n, word⟩ := shape.word
  rw [Mpsc.off, word, pack_offset shape.small, shape.at_off]

/-- A request in a slot of its own is refused without effect, or granted a region
for one more message. -/
theorem Holds.acquire (holds : Holds mpsc msgs) (p : Nat) {size : Usz T} (length : size.toNat = msg.length)
    (spared : Spared T mpsc.cap.toNat mpsc.rp.toNat mpsc.off msg.length) :
    (∃ m, mpscAcquire (mpscReg mpsc p) p size = some (none, m) ∧ Holds (mpscUnreg m p) msgs ∧
      m.cap = mpsc.cap ∧ m.wp = mpsc.wp ∧ m.rp = mpsc.rp ∧ m.warpEnd = mpsc.warpEnd ∧ m.buf = mpsc.buf) ∨
    ∃ off m, mpscAcquire (mpscReg mpsc p) p size = some (some off, m) ∧ m.cap = mpsc.cap ∧
      ∀ buf, buf = Memory.write m.buf off.toNat msg →
        Holds (mpscUnreg (mpscPush { m with buf := buf } p) p) (msgs ++ [msg]) := by
  obtain ⟨quiet, v, framed⟩ := holds
  have shape := framed.shape.reg p
  rw [framed.shape.cap, framed.shape.rp, framed.shape.off, ← length] at spared
  by_cases fits : v.Fits size.toNat
  · obtain ⟨off, m, granted, place, shape', buf, flags⟩ := shape.acquire_granted spared fits p
    have cap : m.cap.toNat = mpsc.cap.toNat := shape'.cap.trans framed.shape.cap.symm
    refine .inr ⟨off, m, granted, BitVec.eq_of_toNat_eq cap, ?_⟩
    intro buf' eq
    rw [length] at fits place shape'
    have written : buf' = Memory.write mpsc.buf (v.place msg.length) msg := by
      rw [eq, buf, place]
      rfl
    have pushed : Shape (mpscPush { m with buf := buf' } p) (v.next msg.length) :=
      ⟨shape'.valid, shape'.cap, shape'.cap_le, shape'.rp, shape'.word, shape'.field, shape'.warp⟩
    refine ⟨.unreg ?_, v.next msg.length, (framed.write fits pushed written).unreg p⟩
    intro j other
    have flag := (flags j).trans (quiet.reg other)
    simpa [mpscPush, Mpsc.setReserve, other] using flag
  · refine .inl ⟨_, shape.acquire_refused spared fits p, ⟨.unreg ?_, v, ?_⟩, rfl, rfl, rfl, rfl, rfl⟩
    · intro j other
      simpa [Mpsc.setReserve, other] using quiet.reg other
    · have refused : Framed ((mpscReg mpsc p).setReserve p (offsetMax T)) v msgs :=
        ⟨⟨shape.valid, shape.cap, shape.cap_le, shape.rp, shape.word, shape.field, shape.warp⟩,
          framed.stored, framed.held⟩
      exact refused.unreg p

/-- Both offsets lie inside the ring. -/
theorem Holds.inside (holds : Holds mpsc msgs) :
    mpsc.rp.toNat < mpsc.cap.toNat ∧ mpsc.off < mpsc.cap.toNat := by
  obtain ⟨_, v, framed⟩ := holds
  have shape := framed.shape
  rw [shape.rp, shape.cap, shape.off]
  exact ⟨shape.valid.rp_lt, shape.valid.off_lt⟩

end AvaModule.MpscRing
