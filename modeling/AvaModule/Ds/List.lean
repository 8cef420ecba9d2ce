import AvaModule.Util.Typedef
import AvaModule.Lib.DoublyLinked
import AvaModule.Lib.LittleEndian
import AvaModule.Lib.Memory

/-! The intrusive lists of ds/list.h. A `list_head_t` is two machine words in memory,
`prev` and then `next`. -/
namespace AvaModule.ListHead
open Memory DoublyLinked

variable {T : Target} {m m' : Nat → Byte} {p q n root x : Usz T} {a : Nat}

/-- The machine word at an address. -/
def load (m : Nat → Byte) (a : Nat) : Usz T :=
  BitVec.ofNat _ (LittleEndian.decode (read m a (wordBytes T)))

def store (m : Nat → Byte) (a : Nat) (x : Usz T) : Nat → Byte :=
  write m a (LittleEndian.encode (wordBytes T) x.toNat)

def prevOf (m : Nat → Byte) (p : Usz T) : Usz T := load m p.toNat

def nextOf (m : Nat → Byte) (p : Usz T) : Usz T := load m (p.toNat + wordBytes T)

def setPrev (m : Nat → Byte) (p x : Usz T) : Nat → Byte := store m p.toNat x

def setNext (m : Nat → Byte) (p x : Usz T) : Nat → Byte := store m (p.toNat + wordBytes T) x

def listInit (m : Nat → Byte) (head : Usz T) : Nat → Byte := setPrev (setNext m head head) head head

/-- `__list_add` -/
def listAddBetween (m : Nat → Byte) (entry prevNode nextNode : Usz T) : Nat → Byte :=
  let m := setPrev m nextNode entry
  let m := setNext m entry nextNode
  let m := setPrev m entry prevNode
  setNext m prevNode entry

/-- `__list_del` -/
def listDelBetween (m : Nat → Byte) (prevNode nextNode : Usz T) : Nat → Byte :=
  setPrev (setNext m prevNode nextNode) nextNode prevNode

def listDel (m : Nat → Byte) (entry : Usz T) : Nat → Byte :=
  let m := listDelBetween m (prevOf m entry) (nextOf m entry)
  setPrev (setNext m entry 0) entry 0

section Words

theorem load_store (m : Nat → Byte) (a : Nat) (x : Usz T) : load (store m a x) a = x := by
  have length : (LittleEndian.encode (wordBytes T) x.toNat).length = wordBytes T :=
    LittleEndian.encode_length ..
  have bytes := @read_write Byte m (LittleEndian.encode (wordBytes T) x.toNat) a
  rw [length] at bytes
  rw [load, store, bytes]
  exact LittleEndian.ofNat_decode_encode wordBytes_bits x

/-- A word depends on its own bytes only. -/
theorem load_congr (same : ∀ i, a ≤ i → i < a + wordBytes T → m' i = m i) :
    (load m' a : Usz T) = load m a := by
  have bytes : read m' a (wordBytes T) = read m a (wordBytes T) :=
    read_congr fun i lt => same (a + i) (Nat.le_add_right _ _) (by omega)
  rw [load, bytes, load]

theorem store_outside {i : Nat} (away : i < a ∨ a + wordBytes T ≤ i) : store m a x i = m i := by
  apply write_outside
  rwa [LittleEndian.encode_length]

theorem load_store_apart {b : Nat} (apart : a + wordBytes T ≤ b ∨ b + wordBytes T ≤ a) :
    (load (store m b x) a : Usz T) = load m a := by
  apply load_congr
  intro i from_a to_a
  apply store_outside
  omega

end Words

/-- Two list heads at different addresses do not overlap. -/
def Apart (p q : Usz T) : Prop :=
  p ≠ q → p.toNat + 2 * wordBytes T ≤ q.toNat ∨ q.toNat + 2 * wordBytes T ≤ p.toNat

theorem Apart.symm (apart : Apart p q) : Apart q p := fun differ => (apart differ.symm).symm

section Fields

theorem wordBytes_pos : 0 < wordBytes T := by cases T <;> decide

theorem nextOf_setNext (apart : Apart p q) : nextOf (setNext m p x) q = if q = p then x else nextOf m q := by
  by_cases same : q = p
  · subst same
    rw [if_pos rfl]
    exact load_store ..
  · rw [if_neg same]
    have away := apart (Ne.symm same)
    exact load_store_apart (by omega)

theorem prevOf_setPrev (apart : Apart p q) : prevOf (setPrev m p x) q = if q = p then x else prevOf m q := by
  by_cases same : q = p
  · subst same
    rw [if_pos rfl]
    exact load_store ..
  · rw [if_neg same]
    have away := apart (Ne.symm same)
    exact load_store_apart (by omega)

theorem prevOf_setNext (apart : Apart p q) : prevOf (setNext m p x) q = prevOf m q := by
  apply load_store_apart
  by_cases same : p = q
  · subst same
    exact .inl (Nat.le_refl _)
  · have away := apart same
    omega

theorem nextOf_setPrev (apart : Apart p q) : nextOf (setPrev m p x) q = nextOf m q := by
  apply load_store_apart
  by_cases same : p = q
  · subst same
    exact .inr (Nat.le_refl _)
  · have away := apart same
    omega

/-- The bytes of a list head. -/
def Within (p : Usz T) (i : Nat) : Prop := p.toNat ≤ i ∧ i < p.toNat + 2 * wordBytes T

theorem Apart.not_within {i : Nat} (apart : Apart p q) (differ : p ≠ q) (inside : Within q i) : ¬Within p i := by
  have away := apart differ
  unfold Within at inside ⊢
  omega

theorem setNext_outside {i : Nat} (away : ¬Within p i) : setNext m p x i = m i := by
  apply store_outside
  unfold Within at away
  omega

theorem setPrev_outside {i : Nat} (away : ¬Within p i) : setPrev m p x i = m i := by
  apply store_outside
  unfold Within at away
  omega

end Fields

section Lists
variable {xs ys : List (Usz T)}

/-- The list heads of a list do not overlap. -/
def AllApart (nodes : List (Usz T)) : Prop := ∀ p ∈ nodes, ∀ q ∈ nodes, Apart p q

theorem AllApart.mono {nodes nodes' : List (Usz T)} (apart : AllApart nodes) (sub : ∀ p ∈ nodes', p ∈ nodes) :
    AllApart nodes' := fun p p_in q q_in => apart p (sub p p_in) q (sub q q_in)

theorem listInit_ring : DoublyLinked.Ring (nextOf (listInit m root)) (prevOf (listInit m root)) root [] := by
  have apart : Apart root root := fun differ => absurd rfl differ
  apply Ring.empty
  · rw [listInit, nextOf_setPrev apart, nextOf_setNext apart, if_pos rfl]
  · rw [listInit, prevOf_setPrev apart, if_pos rfl]

/-- What `__list_add` makes of the links of some list heads. -/
theorem listAddBetween_links {nodes : List (Usz T)} (apart : AllApart nodes) (n_in : n ∈ nodes) (p_in : p ∈ nodes)
    (q_in : q ∈ nodes) (p_ne : p ≠ n) (q_ne : q ≠ n) :
    Linked (nextOf (listAddBetween m n p q)) (prevOf (listAddBetween m n p q)) p n ∧
      Linked (nextOf (listAddBetween m n p q)) (prevOf (listAddBetween m n p q)) n q ∧
      (∀ a ∈ nodes, a ≠ n → a ≠ p → nextOf (listAddBetween m n p q) a = nextOf m a) ∧
      ∀ b ∈ nodes, b ≠ n → b ≠ q → prevOf (listAddBetween m n p q) b = prevOf m b := by
  have next_eq : ∀ b ∈ nodes, nextOf (listAddBetween m n p q) b =
      if b = p then n else if b = n then q else nextOf m b := by
    intro b b_in
    rw [listAddBetween, nextOf_setNext (apart p p_in b b_in), nextOf_setPrev (apart n n_in b b_in),
      nextOf_setNext (apart n n_in b b_in), nextOf_setPrev (apart q q_in b b_in)]
  have prev_eq : ∀ b ∈ nodes, prevOf (listAddBetween m n p q) b =
      if b = n then p else if b = q then n else prevOf m b := by
    intro b b_in
    rw [listAddBetween, prevOf_setNext (apart p p_in b b_in), prevOf_setPrev (apart n n_in b b_in),
      prevOf_setNext (apart n n_in b b_in), prevOf_setPrev (apart q q_in b b_in)]
  refine ⟨⟨?_, ?_⟩, ⟨?_, ?_⟩, ?_, ?_⟩
  · rw [next_eq p p_in, if_pos rfl]
  · rw [prev_eq n n_in, if_pos rfl]
  · rw [next_eq n n_in, if_neg p_ne.symm, if_pos rfl]
  · rw [prev_eq q q_in, if_neg q_ne, if_pos rfl]
  · intro a member old other
    rw [next_eq a member, if_neg other, if_neg old]
  · intro b member old other
    rw [prev_eq b member, if_neg old, if_neg other]

/-- `__list_add` puts the entry at the split. -/
theorem listAddBetween_ring (ring : Ring (nextOf m) (prevOf m) root (xs ++ ys))
    (apart : AllApart (n :: root :: (xs ++ ys))) (fresh : n ∉ root :: (xs ++ ys)) :
    Ring (nextOf (listAddBetween m n (xs.getLastD root) (ys.headD root)))
      (prevOf (listAddBetween m n (xs.getLastD root) (ys.headD root))) root (xs ++ n :: ys) := by
  have p_mem := before_mem root xs ys
  have q_mem := after_mem root xs ys
  have old : ∀ b ∈ root :: (xs ++ ys), b ≠ n := by
    rintro b member rfl
    exact fresh member
  obtain ⟨into, out, forth, back⟩ := listAddBetween_links (m := m) apart List.mem_cons_self
    (List.mem_cons_of_mem n p_mem) (List.mem_cons_of_mem n q_mem) (old _ p_mem) (old _ q_mem)
  refine ring.insert fresh into out ?_ ?_
  · exact fun a member => forth a (List.mem_cons_of_mem n member) (old a member)
  · exact fun b member => back b (List.mem_cons_of_mem n member) (old b member)

/-- `__list_del` takes the entry between its arguments out. -/
theorem listDelBetween_ring (ring : Ring (nextOf m) (prevOf m) root (xs ++ n :: ys))
    (apart : AllApart (root :: (xs ++ ys))) :
    Ring (nextOf (listDelBetween m (prevOf m n) (nextOf m n)))
      (prevOf (listDelBetween m (prevOf m n) (nextOf m n))) root (xs ++ ys) := by
  have p_mem := before_mem root xs ys
  have q_mem := after_mem root xs ys
  rw [ring.prev_eq, ring.next_eq]
  generalize at_p : xs.getLastD root = p at p_mem
  generalize at_q : ys.headD root = q at q_mem
  have next_eq : ∀ b ∈ root :: (xs ++ ys), nextOf (listDelBetween m p q) b = if b = p then q else nextOf m b := by
    intro b member
    rw [listDelBetween, nextOf_setPrev (apart q q_mem b member), nextOf_setNext (apart p p_mem b member)]
  have prev_eq : ∀ b ∈ root :: (xs ++ ys), prevOf (listDelBetween m p q) b = if b = q then p else prevOf m b := by
    intro b member
    have pb := apart p p_mem b member
    rw [listDelBetween, prevOf_setPrev (apart q q_mem b member), prevOf_setNext pb]
  apply ring.delete
  · rw [at_p, at_q]
    refine ⟨?_, ?_⟩
    · rw [next_eq p p_mem, if_pos rfl]
    · rw [prev_eq q q_mem, if_pos rfl]
  · intro a member other
    rw [at_p] at other
    rw [next_eq a member, if_neg other]
  · intro b member other
    rw [at_q] at other
    rw [prev_eq b member, if_neg other]

/-- A list depends on the bytes of its list heads only. -/
theorem ring_congr {nodes : List (Usz T)} (ring : Ring (nextOf m) (prevOf m) root nodes)
    (same : ∀ p ∈ root :: nodes, ∀ i, Within p i → m' i = m i) : Ring (nextOf m') (prevOf m') root nodes := by
  refine ⟨ring.nodup, linked_congr ring.links ?_ ?_⟩
  · intro p member
    apply load_congr
    intro i lo hi
    exact same p member i ⟨by omega, by omega⟩
  · intro p member
    have node : p ∈ root :: nodes := (List.perm_append_singleton root nodes).mem_iff.mp member
    apply load_congr
    intro i lo hi
    exact same p node i ⟨lo, by omega⟩

/-- `list_del` takes the entry out. -/
theorem listDel_ring (ring : Ring (nextOf m) (prevOf m) root (xs ++ n :: ys))
    (apart : AllApart (n :: root :: (xs ++ ys))) :
    Ring (nextOf (listDel m n)) (prevOf (listDel m n)) root (xs ++ ys) := by
  have gone := (nodup_middle.mp ring.nodup).1
  refine ring_congr (listDelBetween_ring ring (apart.mono ?_)) ?_
  · exact fun p => List.mem_cons_of_mem n
  · intro p member i inside
    have differ : n ≠ p := fun same => gone (same ▸ member)
    have away := (apart n List.mem_cons_self p (List.mem_cons_of_mem n member)).not_within differ inside
    rw [listDel, setPrev_outside away, setNext_outside away]

/-- Neither call stores outside of the list heads it links. -/
theorem listAddBetween_outside {i : Nat} (at_p : ¬Within p i) (at_n : ¬Within n i) (at_q : ¬Within q i) :
    listAddBetween m n p q i = m i := by
  rw [listAddBetween, setNext_outside at_p, setPrev_outside at_n, setNext_outside at_n, setPrev_outside at_q]

theorem listDel_outside {i : Nat} (at_p : ¬Within (prevOf m n) i) (at_n : ¬Within n i)
    (at_q : ¬Within (nextOf m n) i) : listDel m n i = m i := by
  rw [listDel, setPrev_outside at_n, setNext_outside at_n, listDelBetween, setPrev_outside at_q,
    setNext_outside at_p]

end Lists

end AvaModule.ListHead
