import AvaModule.Ds.List

/-! The other calls of ds/list.h, on the list heads in memory. -/
namespace AvaModule.ListHead
open DoublyLinked

variable {T : Target} {m : Nat → Byte} {old n f list head root : Usz T} {xs ys t : List (Usz T)} {i : Nat}

def listAdd (m : Nat → Byte) (entry head : Usz T) : Nat → Byte := listAddBetween m entry head (nextOf m head)

def listAddTail (m : Nat → Byte) (entry head : Usz T) : Nat → Byte := listAddBetween m entry (prevOf m head) head

def listEmpty (m : Nat → Byte) (head : Usz T) : Bool := nextOf m head = head

/-- `__list_splice` -/
def listSpliceNodes (m : Nat → Byte) (list head : Usz T) : Nat → Byte :=
  let first := nextOf m list
  let last := prevOf m list
  let at_ := nextOf m head
  let m := setPrev m first head
  let m := setNext m head first
  let m := setNext m last at_
  setPrev m at_ last

def listSplice (m : Nat → Byte) (list head : Usz T) : Nat → Byte :=
  if !listEmpty m list then listSpliceNodes m list head else m

def listReplace (m : Nat → Byte) (oldEntry newEntry : Usz T) : Nat → Byte :=
  let m := setNext m newEntry (nextOf m oldEntry)
  let m := setPrev m (nextOf m newEntry) newEntry
  let m := setPrev m newEntry (prevOf m oldEntry)
  setNext m (prevOf m newEntry) newEntry

def listReplaceInit (m : Nat → Byte) (oldEntry newEntry : Usz T) : Nat → Byte :=
  listInit (listReplace m oldEntry newEntry) oldEntry

def listMove (m : Nat → Byte) (entry head : Usz T) : Nat → Byte :=
  listAdd (listDelBetween m (prevOf m entry) (nextOf m entry)) entry head

def listMoveTail (m : Nat → Byte) (entry head : Usz T) : Nat → Byte :=
  listAddTail (listDelBetween m (prevOf m entry) (nextOf m entry)) entry head

section Replace
variable {p q : Usz T}

theorem setPrev_setNext_comm {x y : Usz T} (apart : Apart p q) (differ : p ≠ q) :
    setPrev (setNext m p x) q y = setNext (setPrev m q y) p x := by
  have away := apart differ
  apply Memory.write_comm
  rw [LittleEndian.encode_length, LittleEndian.encode_length]
  omega

/-- Unless the old entry is its own neighbour, the stores are those of an insertion between its neighbours. -/
theorem listReplace_eq (next : nextOf m old = q) (prev : prevOf m old = p) (differ : old ≠ q) (fresh : n ≠ q)
    (at_q : Apart q old) (at_n : Apart n old) (new_q : Apart n q) : listReplace m old n = listAddBetween m n p q := by
  have own : Apart n n := fun differ => absurd rfl differ
  have kept : prevOf (setPrev (setNext m n q) q n) old = p := by
    rw [prevOf_setPrev at_q, if_neg differ, prevOf_setNext at_n, prev]
  simp only [listReplace, next, nextOf_setNext own, if_pos, kept, prevOf_setPrev own]
  rw [setPrev_setNext_comm new_q fresh]
  rfl

/-- The new entry takes the place of the old one. -/
theorem listReplace_ring (ring : Ring (nextOf m) (prevOf m) root (xs ++ old :: ys))
    (apart : AllApart (n :: root :: (xs ++ old :: ys))) (fresh : n ∉ root :: (xs ++ old :: ys)) :
    Ring (nextOf (listReplace m old n)) (prevOf (listReplace m old n)) root (xs ++ n :: ys) := by
  have gone := (nodup_middle.mp ring.nodup).1
  have inside : ∀ b ∈ root :: (xs ++ ys), b ∈ root :: (xs ++ old :: ys) := fun b member => mem_middle.mpr (.inr member)
  have within := fun b member => List.mem_cons_of_mem n (inside b member)
  have p_mem := before_mem root xs ys
  have q_mem := after_mem root xs ys
  have n_in : n ∈ n :: root :: (xs ++ old :: ys) := List.mem_cons_self
  have old_in : old ∈ n :: root :: (xs ++ old :: ys) := by simp
  have differ : ∀ b ∈ root :: (xs ++ ys), b ≠ n := by
    rintro b member rfl
    exact fresh (inside b member)
  have stores : listReplace m old n = listAddBetween m n (xs.getLastD root) (ys.headD root) := by
    apply listReplace_eq ring.next_eq ring.prev_eq
    · exact fun same => gone (same ▸ q_mem)
    · exact (differ _ q_mem).symm
    · exact apart _ (within _ q_mem) old old_in
    · exact apart n n_in old old_in
    · exact apart n n_in _ (within _ q_mem)
  rw [stores]
  obtain ⟨into, out, forth, back⟩ := listAddBetween_links (m := m) apart n_in (within _ p_mem) (within _ q_mem)
    (differ _ p_mem) (differ _ q_mem)
  refine ring.replace (fun member => fresh (inside n member)) into out ?_ ?_
  · exact fun a member => forth a (within a member) (differ a member)
  · exact fun b member => back b (within b member) (differ b member)

/-- The new entry takes the place of the head of a list, which may be empty. -/
theorem listReplace_head (ring : Ring (nextOf m) (prevOf m) old xs) (apart : AllApart (n :: old :: xs))
    (fresh : n ∉ old :: xs) : Ring (nextOf (listReplace m old n)) (prevOf (listReplace m old n)) n xs := by
  cases xs with
  | nil =>
    have own : Apart n n := fun differ => absurd rfl differ
    have old_own : Apart old old := fun differ => absurd rfl differ
    have new_old : Apart n old := apart n List.mem_cons_self old (by simp)
    have next : nextOf m old = old := ring.first_eq
    have prev : prevOf m old = old := ring.last_eq
    have turned : prevOf (setPrev (setNext m n old) old n) old = n := by rw [prevOf_setPrev old_own, if_pos rfl]
    have stores : listReplace m old n = setNext (setPrev (setPrev (setNext m n old) old n) n n) n n := by
      simp only [listReplace, next, nextOf_setNext own, if_pos, turned, prevOf_setPrev own]
    rw [stores]
    apply Ring.empty
    · rw [nextOf_setNext own, if_pos rfl]
    · rw [prevOf_setNext own, prevOf_setPrev own, if_pos rfl]
  | cons f t =>
    -- seen from its first entry, the list has the old head as its last one
    have inside : ∀ b ∈ f :: (t ++ [old]), b ∈ old :: f :: t := by
      intro b member
      simpa using mem_middle.mp member
    have apart' : AllApart (n :: f :: (t ++ [old])) := by
      refine apart.mono fun b member => ?_
      rcases List.mem_cons.mp member with rfl | member
      · exact List.mem_cons_self
      · exact List.mem_cons_of_mem n (inside b member)
    exact (listReplace_ring ring.to_first apart' fun member => fresh (inside n member)).of_first

end Replace

section Splice

/-- The entries of one list come before those of another. -/
theorem listSpliceNodes_ring (ring : Ring (nextOf m) (prevOf m) list (f :: t)) (ring' : Ring (nextOf m) (prevOf m) head ys)
    (apart : AllApart ((f :: t) ++ (head :: ys))) (disjoint : ∀ a ∈ head :: ys, a ∉ f :: t) :
    Ring (nextOf (listSpliceNodes m list head)) (prevOf (listSpliceNodes m list head)) head (f :: t ++ ys) := by
  have first : nextOf m list = f := ring.first_eq
  have last : prevOf m list = t.getLastD f := ring.last_eq.trans (List.getLastD_cons ..)
  have at_eq := ring'.first_eq
  have l_mem := before_mem f t []
  have a_mem := after_mem head [] ys
  rw [List.append_nil] at l_mem
  rw [List.nil_append] at a_mem
  generalize at_last : t.getLastD f = l at last l_mem
  generalize at_start : ys.headD head = a at at_eq a_mem
  have f_in : f ∈ f :: t ++ head :: ys := List.mem_cons_self
  have l_in := List.mem_append_left (head :: ys) l_mem
  have head_in : head ∈ f :: t ++ head :: ys := by simp
  have a_in := List.mem_append_right (f :: t) a_mem
  have stores : listSpliceNodes m list head = setPrev (setNext (setNext (setPrev m f head) head f) l a) a l := by
    rw [listSpliceNodes, first, last, at_eq]
  have next_eq : ∀ b ∈ f :: t ++ head :: ys, nextOf (listSpliceNodes m list head) b =
      if b = l then a else if b = head then f else nextOf m b := by
    intro b b_in
    rw [stores, nextOf_setPrev (apart a a_in b b_in), nextOf_setNext (apart l l_in b b_in),
      nextOf_setNext (apart head head_in b b_in), nextOf_setPrev (apart f f_in b b_in)]
  have prev_eq : ∀ b ∈ f :: t ++ head :: ys, prevOf (listSpliceNodes m list head) b =
      if b = a then l else if b = f then head else prevOf m b := by
    intro b b_in
    rw [stores, prevOf_setPrev (apart a a_in b b_in), prevOf_setNext (apart l l_in b b_in),
      prevOf_setNext (apart head head_in b b_in), prevOf_setPrev (apart f f_in b b_in)]
  have differ : ∀ b ∈ head :: ys, ∀ c ∈ f :: t, b ≠ c := by
    rintro b b_mem _ c_mem rfl
    exact disjoint b b_mem c_mem
  have whole : Ring (nextOf m) (prevOf m) head ([] ++ ys) := ring'
  have head_mem : head ∈ head :: ys := List.mem_cons_self
  have f_mem : f ∈ f :: t := List.mem_cons_self
  refine whole.splice ring disjoint ⟨?_, ?_⟩ ?_ ?_ ?_ ?_ ?_
  · rw [List.getLastD_nil, next_eq head head_in, if_neg (differ head head_mem l l_mem), if_pos rfl]
  · rw [prev_eq f f_in, if_neg (differ a a_mem f f_mem).symm, if_pos rfl]
    rfl
  · rw [at_last, at_start]
    refine ⟨?_, ?_⟩
    · rw [next_eq l l_in, if_pos rfl]
    · rw [prev_eq a a_in, if_pos rfl]
  · intro b member other
    rw [List.getLastD_nil] at other
    rw [next_eq b (List.mem_append_right _ member), if_neg (differ b member l l_mem), if_neg other]
  · intro b member other
    rw [at_start] at other
    rw [prev_eq b (List.mem_append_right _ member), if_neg other, if_neg (differ b member f f_mem)]
  · intro b member other
    rw [at_last] at other
    rw [next_eq b (List.mem_append_left _ member), if_neg other, if_neg (differ head head_mem b member).symm]
  · intro b member other
    rw [prev_eq b (List.mem_append_left _ member), if_neg (differ a a_mem b member).symm, if_neg other]

end Splice

section Outside
variable {p q : Usz T}

theorem listInit_outside (at_head : ¬Within head i) : listInit m head i = m i := by
  rw [listInit, setPrev_outside at_head, setNext_outside at_head]

theorem listDelBetween_outside (at_p : ¬Within p i) (at_q : ¬Within q i) : listDelBetween m p q i = m i := by
  rw [listDelBetween, setPrev_outside at_q, setNext_outside at_p]

theorem listSpliceNodes_outside (at_first : ¬Within (nextOf m list) i) (at_head : ¬Within head i)
    (at_last : ¬Within (prevOf m list) i) (at_start : ¬Within (nextOf m head) i) :
    listSpliceNodes m list head i = m i := by
  rw [listSpliceNodes, setPrev_outside at_start, setNext_outside at_last, setNext_outside at_head,
    setPrev_outside at_first]

theorem listReplace_outside (at_n : ¬Within n i) (at_p : ¬Within (prevOf m old) i) (at_q : ¬Within (nextOf m old) i)
    (apart : Apart (nextOf m old) old) (new_old : Apart n old) : listReplace m old n i = m i := by
  have own : Apart n n := fun differ => absurd rfl differ
  have back : ¬Within (prevOf (setPrev (setNext m n (nextOf m old)) (nextOf m old) n) old) i := by
    rw [prevOf_setPrev apart]
    split
    · exact at_n
    · rwa [prevOf_setNext new_old]
  simp only [listReplace, nextOf_setNext own, prevOf_setPrev own, if_pos]
  rw [setNext_outside back, setPrev_outside at_n, setPrev_outside at_q, setNext_outside at_n]

end Outside

end AvaModule.ListHead
