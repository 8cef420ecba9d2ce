import AvaModule.Ds.ListOps

/-! A heap of any number of lists of ds/list.h. What the heap holds is one sequence of entries for each head;
the calls change these sequences. -/
namespace AvaModule.ListHead
open DoublyLinked Function

variable {T : Target}

/-- The entries of the list at each head. -/
abbrev Lists (T : Target) := Usz T → Option (List (Usz T))

/-- A head with its entries. -/
def Holds (lists : Lists T) (root p : Usz T) : Prop := ∃ nodes, lists root = some nodes ∧ p ∈ root :: nodes

/-- A list head in none of the lists. -/
def Detached (lists : Lists T) (p : Usz T) : Prop := ∀ {root q}, Holds lists root q → p ≠ q ∧ Apart p q

/-- Every list is linked in both directions, and no two list heads share a byte. -/
structure WellFormed (m : Nat → Byte) (lists : Lists T) : Prop where
  ring {root nodes} : lists root = some nodes → Ring (nextOf m) (prevOf m) root nodes
  once {root root' p} : Holds lists root p → Holds lists root' p → root = root'
  apart {root root' p q} : Holds lists root p → Holds lists root' q → Apart p q

inductive Call (T : Target) where
  | init (head : Usz T)
  | add (entry head : Usz T)
  | addTail (entry head : Usz T)
  | del (entry : Usz T)
  | splice (list head : Usz T)
  | replace (oldEntry newEntry : Usz T)
  | replaceInit (oldEntry newEntry : Usz T)
  | move (entry head : Usz T)
  | moveTail (entry head : Usz T)

def exec (m : Nat → Byte) : Call T → Nat → Byte
  | .init head => listInit m head
  | .add entry head => listAdd m entry head
  | .addTail entry head => listAddTail m entry head
  | .del entry => listDel m entry
  | .splice list head => listSplice m list head
  | .replace oldEntry newEntry => listReplace m oldEntry newEntry
  | .replaceInit oldEntry newEntry => listReplaceInit m oldEntry newEntry
  | .move entry head => listMove m entry head
  | .moveTail entry head => listMoveTail m entry head

/-- What a call does to the sequences, and when it may be made. A head that `splice` has emptied or `replace` has
replaced is no head any more. -/
inductive Applies (lists : Lists T) : Call T → Lists T → Prop where
  | init : Detached lists n → Applies lists (.init n) (update lists n (some []))
  | add : lists head = some nodes → Detached lists n →
      Applies lists (.add n head) (update lists head (some (n :: nodes)))
  | addTail : lists head = some nodes → Detached lists n →
      Applies lists (.addTail n head) (update lists head (some (nodes ++ [n])))
  | del : lists root = some (xs ++ n :: ys) → Applies lists (.del n) (update lists root (some (xs ++ ys)))
  | spliceEmpty : lists list = some [] → list ≠ head → Applies lists (.splice list head) lists
  | splice {f t} : lists list = some (f :: t) → lists head = some ys → list ≠ head →
      Applies lists (.splice list head) (update (update lists list none) head (some (f :: t ++ ys)))
  | replace : lists root = some (xs ++ old :: ys) → Detached lists n →
      Applies lists (.replace old n) (update lists root (some (xs ++ n :: ys)))
  | replaceHead : lists old = some nodes → Detached lists n →
      Applies lists (.replace old n) (update (update lists old none) n (some nodes))
  | replaceInit : lists root = some (xs ++ old :: ys) → Detached lists n →
      Applies lists (.replaceInit old n) (update (update lists root (some (xs ++ n :: ys))) old (some []))
  | replaceInitHead : lists old = some nodes → Detached lists n →
      Applies lists (.replaceInit old n) (update (update (update lists old none) n (some nodes)) old (some []))
  | move : lists root = some (xs ++ n :: ys) → update lists root (some (xs ++ ys)) head = some nodes →
      Applies lists (.move n head) (update (update lists root (some (xs ++ ys))) head (some (n :: nodes)))
  | moveTail : lists root = some (xs ++ n :: ys) → update lists root (some (xs ++ ys)) head = some nodes →
      Applies lists (.moveTail n head) (update (update lists root (some (xs ++ ys))) head (some (nodes ++ [n])))

inductive AppliesAll : Lists T → List (Call T) → Lists T → Prop where
  | nil {lists} : AppliesAll lists [] lists
  | cons {lists between lists' call calls} : Applies lists call between → AppliesAll between calls lists' →
      AppliesAll lists (call :: calls) lists'

/-- The list heads a call works on: those of some lists, and one that was in none. -/
def Own (lists : Lists T) (gone : Usz T → Prop) (n p : Usz T) : Prop :=
  (∃ root, gone root ∧ Holds lists root p) ∨ p = n ∧ Detached lists n

/-- One list is made of others. -/
structure Exchange (lists lists' : Lists T) (gone : Usz T → Prop) (n root : Usz T) (nodes : List (Usz T)) : Prop where
  at_root : lists' root = some nodes
  others {r ns} : r ≠ root → lists' r = some ns → lists r = some ns ∧ ¬gone r
  own {p} : p ∈ root :: nodes → Own lists gone n p

variable {m m' : Nat → Byte} {lists lists' : Lists T} {gone : Usz T → Prop} {root n old p q list head : Usz T}
variable {nodes xs ys : List (Usz T)}

namespace WellFormed

theorem own_away (wf : WellFormed m lists) (own : Own lists gone n p) (held : Holds lists root q) (kept : ¬gone root) :
    p ≠ q ∧ Apart p q := by
  rcases own with ⟨root', changed, held'⟩ | ⟨rfl, detached⟩
  · refine ⟨?_, wf.apart held' held⟩
    rintro rfl
    exact kept (wf.once held' held ▸ changed)
  · exact detached held

theorem own_apart (wf : WellFormed m lists) (own : Own lists gone n p) (own' : Own lists gone n q) : Apart p q := by
  rcases own with ⟨_, _, held⟩ | ⟨rfl, detached⟩
  · rcases own' with ⟨_, _, held'⟩ | ⟨rfl, detached⟩
    · exact wf.apart held held'
    · exact (detached held).2.symm
  · rcases own' with ⟨_, _, held'⟩ | ⟨rfl, _⟩
    · exact (detached held').2
    · exact fun differ => absurd rfl differ

/-- A call that makes one list of others, and stores in no other list head, keeps the heap well formed. -/
theorem exchange (wf : WellFormed m lists) (ex : Exchange lists lists' gone n root nodes)
    (ring : Ring (nextOf m') (prevOf m') root nodes)
    (frame : ∀ i, (∀ p, Own lists gone n p → ¬Within p i) → m' i = m i) : WellFormed m' lists' := by
  have at_own : ∀ {p}, Holds lists' root p → Own lists gone n p := by
    rintro p ⟨ns, value, member⟩
    cases ex.at_root.symm.trans value
    exact ex.own member
  have at_other : ∀ {r p}, r ≠ root → Holds lists' r p → Holds lists r p ∧ ¬gone r := by
    rintro r p other ⟨ns, value, member⟩
    obtain ⟨before, kept⟩ := ex.others other value
    exact ⟨⟨ns, before, member⟩, kept⟩
  constructor
  case ring =>
    intro r ns value
    by_cases same : r = root
    · subst same
      cases ex.at_root.symm.trans value
      exact ring
    · obtain ⟨before, kept⟩ := ex.others same value
      refine ring_congr (wf.ring before) fun p member i inside => frame i fun q mine => ?_
      obtain ⟨differ, apart⟩ := wf.own_away mine ⟨ns, before, member⟩ kept
      exact apart.not_within differ inside
  case once =>
    intro r r' p held held'
    by_cases first : r = root
    · by_cases second : r' = root
      · exact first.trans second.symm
      · obtain ⟨before, kept⟩ := at_other second held'
        exact absurd rfl (wf.own_away (at_own (first ▸ held)) before kept).1
    · obtain ⟨before, kept⟩ := at_other first held
      by_cases second : r' = root
      · exact absurd rfl (wf.own_away (at_own (second ▸ held')) before kept).1
      · exact wf.once before (at_other second held').1
  case apart =>
    intro r r' p q held held'
    by_cases first : r = root
    · have mine := at_own (first ▸ held)
      by_cases second : r' = root
      · exact wf.own_apart mine (at_own (second ▸ held'))
      · obtain ⟨before, kept⟩ := at_other second held'
        exact (wf.own_away mine before kept).2
    · obtain ⟨before, kept⟩ := at_other first held
      by_cases second : r' = root
      · exact (wf.own_away (at_own (second ▸ held')) before kept).2.symm
      · exact wf.apart before (at_other second held').1

/-- A list head left out by such a call is free. -/
theorem released (wf : WellFormed m lists) (ex : Exchange lists lists' gone n root nodes) (own : Own lists gone n p)
    (out : p ∉ root :: nodes) : Detached lists' p := by
  rintro r q ⟨ns, value, member⟩
  by_cases same : r = root
  · subst same
    cases ex.at_root.symm.trans value
    exact ⟨fun same => out (same ▸ member), wf.own_apart own (ex.own member)⟩
  · obtain ⟨before, kept⟩ := ex.others same value
    exact wf.own_away own ⟨ns, before, member⟩ kept

/-- Nothing depends on the bytes of a free list head. -/
theorem scribble (wf : WellFormed m lists) (detached : Detached lists n) (frame : ∀ i, ¬Within n i → m' i = m i) :
    WellFormed m' lists := by
  refine ⟨fun value => ring_congr (wf.ring value) fun p member i inside => frame i ?_, wf.once, wf.apart⟩
  obtain ⟨differ, apart⟩ := detached ⟨_, value, member⟩
  exact apart.not_within differ inside

theorem changed (own : ∀ p ∈ root :: nodes, Own lists (· = root) n p) :
    Exchange lists (update lists root (some nodes)) (· = root) n root nodes where
  at_root := update_self ..
  others other value := ⟨(update_of_ne other ..).symm.trans value, other⟩
  own member := own _ member

theorem own_list (value : lists root = some nodes) (member : p ∈ root :: nodes) : Own lists (· = root) n p :=
  .inl ⟨root, rfl, nodes, value, member⟩

theorem own_cons (value : lists root = some nodes) (detached : Detached lists n) (member : p ∈ n :: root :: nodes) :
    Own lists (· = root) n p := by
  rcases List.mem_cons.mp member with rfl | member
  · exact .inr ⟨rfl, detached⟩
  · exact own_list value member

theorem fresh_list (value : lists root = some nodes) (detached : Detached lists n) : n ∉ root :: nodes :=
  fun member => (detached ⟨nodes, value, member⟩).1 rfl

theorem apart_cons (wf : WellFormed m lists) (value : lists root = some nodes) (detached : Detached lists n) :
    AllApart (n :: root :: nodes) := fun _ p_in _ q_in =>
  wf.own_apart (own_cons value detached p_in) (own_cons value detached q_in)

/-- `__list_add` at a split of a list. -/
theorem insert (wf : WellFormed m lists) (value : lists root = some (xs ++ ys)) (detached : Detached lists n) :
    WellFormed (listAddBetween m n (xs.getLastD root) (ys.headD root)) (update lists root (some (xs ++ n :: ys))) := by
  have mine {p} (member : p ∈ n :: root :: (xs ++ ys)) : Own lists (· = root) n p := own_cons value detached member
  have ring := listAddBetween_ring (wf.ring value) (wf.apart_cons value detached) (fresh_list value detached)
  refine wf.exchange (changed (n := n) ?_) ring ?_
  · intro p member
    exact mine (List.mem_cons.mpr (mem_middle.mp member))
  · intro i away
    exact listAddBetween_outside (away _ (own_list value (before_mem ..))) (away n (mine List.mem_cons_self))
      (away _ (own_list value (after_mem ..)))

theorem add (wf : WellFormed m lists) (value : lists head = some nodes) (detached : Detached lists n) :
    WellFormed (listAdd m n head) (update lists head (some (n :: nodes))) := by
  have whole : lists head = some ([] ++ nodes) := value
  rw [listAdd, (wf.ring value).first_eq]
  exact wf.insert whole detached

theorem addTail (wf : WellFormed m lists) (value : lists head = some nodes) (detached : Detached lists n) :
    WellFormed (listAddTail m n head) (update lists head (some (nodes ++ [n]))) := by
  have whole : lists head = some (nodes ++ []) := by rw [value, List.append_nil]
  rw [listAddTail, (wf.ring value).last_eq]
  exact wf.insert whole detached

/-- `__list_del` around an entry, which is free afterwards. -/
theorem delete (wf : WellFormed m lists) (value : lists root = some (xs ++ n :: ys)) :
    WellFormed (listDelBetween m (prevOf m n) (nextOf m n)) (update lists root (some (xs ++ ys))) ∧
      Detached (update lists root (some (xs ++ ys))) n := by
  have ring := wf.ring value
  have mine {p} (member : p ∈ root :: (xs ++ ys)) : Own lists (· = root) n p :=
    own_list value (mem_middle.mpr (.inr member))
  have apart : AllApart (root :: (xs ++ ys)) := fun p p_in q q_in => wf.own_apart (mine p_in) (mine q_in)
  have n_mem : n ∈ root :: (xs ++ n :: ys) := mem_middle.mpr (.inl rfl)
  have ex := changed (n := n) fun p member => mine member
  constructor
  · refine wf.exchange ex (listDelBetween_ring ring apart) fun i away => ?_
    exact listDelBetween_outside (away _ (own_list value (ring.prev_mem n_mem)))
      (away _ (own_list value (ring.next_mem n_mem)))
  · exact wf.released ex (own_list value n_mem) (nodup_middle.mp ring.nodup).1

theorem del (wf : WellFormed m lists) (value : lists root = some (xs ++ n :: ys)) :
    WellFormed (listDel m n) (update lists root (some (xs ++ ys))) := by
  obtain ⟨taken, detached⟩ := wf.delete value
  refine taken.scribble detached fun i away => ?_
  rw [listDel, setPrev_outside away, setNext_outside away]

/-- The entry goes first into a list, the one it was in or another. -/
theorem move (wf : WellFormed m lists) (value : lists root = some (xs ++ n :: ys))
    (target : update lists root (some (xs ++ ys)) head = some nodes) :
    WellFormed (listMove m n head) (update (update lists root (some (xs ++ ys))) head (some (n :: nodes))) := by
  obtain ⟨taken, detached⟩ := wf.delete value
  exact taken.add target detached

theorem moveTail (wf : WellFormed m lists) (value : lists root = some (xs ++ n :: ys))
    (target : update lists root (some (xs ++ ys)) head = some nodes) :
    WellFormed (listMoveTail m n head) (update (update lists root (some (xs ++ ys))) head (some (nodes ++ [n]))) := by
  obtain ⟨taken, detached⟩ := wf.delete value
  exact taken.addTail target detached

theorem replace_outside {i : Nat} (wf : WellFormed m lists) (value : lists root = some nodes)
    (old_mem : old ∈ root :: nodes) (detached : Detached lists n)
    (away : ∀ p, Own lists (· = root) n p → ¬Within p i) : listReplace m old n i = m i := by
  have ring := wf.ring value
  have apart := wf.apart_cons value detached
  have n_in : n ∈ n :: root :: nodes := List.mem_cons_self
  have old_in := List.mem_cons_of_mem n old_mem
  apply listReplace_outside (away n (own_cons value detached n_in))
  · exact away _ (own_list value (ring.prev_mem old_mem))
  · exact away _ (own_list value (ring.next_mem old_mem))
  · exact apart _ (List.mem_cons_of_mem n (ring.next_mem old_mem)) old old_in
  · exact apart n n_in old old_in

/-- The new entry takes the place of the old one, which is free afterwards. -/
theorem replace (wf : WellFormed m lists) (value : lists root = some (xs ++ old :: ys)) (detached : Detached lists n) :
    WellFormed (listReplace m old n) (update lists root (some (xs ++ n :: ys))) ∧
      Detached (update lists root (some (xs ++ n :: ys))) old := by
  have mine {p} (member : p ∈ n :: root :: (xs ++ old :: ys)) : Own lists (· = root) n p :=
    own_cons value detached member
  have fresh := fresh_list value detached
  have old_mem : old ∈ root :: (xs ++ old :: ys) := mem_middle.mpr (.inl rfl)
  have ex : Exchange lists (update lists root (some (xs ++ n :: ys))) (· = root) n root (xs ++ n :: ys) := by
    refine changed fun p member => ?_
    rcases mem_middle.mp member with rfl | member
    · exact mine List.mem_cons_self
    · exact own_list value (mem_middle.mpr (.inr member))
  constructor
  · exact wf.exchange ex (listReplace_ring (wf.ring value) (wf.apart_cons value detached) fresh) fun i away =>
      wf.replace_outside value old_mem detached away
  · refine wf.released ex (own_list value old_mem) fun member => ?_
    rcases mem_middle.mp member with rfl | member
    · exact fresh old_mem
    · exact (nodup_middle.mp (wf.ring value).nodup).1 member

/-- The lists left when one is taken out and another one is set. -/
theorem others_removed {r : Usz T} {ns : List (Usz T)} {entries : Option (List (Usz T))} (other : r ≠ head)
    (value : update (update lists list none) head entries r = some ns) : lists r = some ns ∧ r ≠ list := by
  rw [update_of_ne other] at value
  by_cases same : r = list
  · rw [same, update_self] at value
    cases value
  · exact ⟨(update_of_ne same ..).symm.trans value, same⟩

/-- The new entry becomes the head, and the old head is free afterwards. -/
theorem replaceHead (wf : WellFormed m lists) (value : lists old = some nodes) (detached : Detached lists n) :
    WellFormed (listReplace m old n) (update (update lists old none) n (some nodes)) ∧
      Detached (update (update lists old none) n (some nodes)) old := by
  have fresh := fresh_list value detached
  have old_mem : old ∈ old :: nodes := List.mem_cons_self
  have ex : Exchange lists (update (update lists old none) n (some nodes)) (· = old) n n nodes := by
    refine ⟨update_self .., others_removed, ?_⟩
    intro p member
    rcases List.mem_cons.mp member with rfl | member
    · exact own_cons value detached List.mem_cons_self
    · exact own_list value (List.mem_cons_of_mem old member)
  constructor
  · exact wf.exchange ex (listReplace_head (wf.ring value) (wf.apart_cons value detached) fresh) fun i away =>
      wf.replace_outside value old_mem detached away
  · refine wf.released ex (own_list value old_mem) fun member => ?_
    rcases List.mem_cons.mp member with rfl | member
    · exact fresh old_mem
    · exact (List.nodup_cons.mp (wf.ring value).nodup).1 member

theorem init (wf : WellFormed m lists) (detached : Detached lists n) :
    WellFormed (listInit m n) (update lists n (some [])) := by
  have own : Own lists (fun _ => False) n n := .inr ⟨rfl, detached⟩
  have ex : Exchange lists (update lists n (some [])) (fun _ => False) n n [] := by
    refine ⟨update_self .., fun other value => ⟨(update_of_ne other ..).symm.trans value, id⟩, ?_⟩
    intro p member
    rw [List.mem_singleton.mp member]
    exact own
  exact wf.exchange ex listInit_ring fun i away => listInit_outside (away n own)

/-- The entries of the first list go before those of the second. -/
theorem splice {f : Usz T} {t : List (Usz T)} (wf : WellFormed m lists) (value : lists list = some (f :: t))
    (target : lists head = some ys) (differ : list ≠ head) :
    WellFormed (listSplice m list head) (update (update lists list none) head (some (f :: t ++ ys))) := by
  have ring := wf.ring value
  have ring' := wf.ring target
  have mine {p} (member : p ∈ list :: (f :: t)) : Own lists (fun r => r = list ∨ r = head) head p :=
    .inl ⟨list, .inl rfl, _, value, member⟩
  have mine' {p} (member : p ∈ head :: ys) : Own lists (fun r => r = list ∨ r = head) head p :=
    .inl ⟨head, .inr rfl, _, target, member⟩
  have ex : Exchange lists (update (update lists list none) head (some (f :: t ++ ys)))
      (fun r => r = list ∨ r = head) head head (f :: t ++ ys) := by
    refine ⟨update_self .., ?_, ?_⟩
    · intro r ns other value
      obtain ⟨before, kept⟩ := others_removed other value
      exact ⟨before, not_or.mpr ⟨kept, other⟩⟩
    · intro p member
      rcases List.mem_cons.mp member with rfl | member
      · exact mine' List.mem_cons_self
      · rcases List.mem_append.mp member with before | after
        · exact mine (List.mem_cons_of_mem list before)
        · exact mine' (List.mem_cons_of_mem head after)
  have both {p} (member : p ∈ f :: t ++ head :: ys) : Own lists (fun r => r = list ∨ r = head) head p := by
    rcases List.mem_append.mp member with before | after
    · exact mine (List.mem_cons_of_mem list before)
    · exact mine' after
  have apart : AllApart (f :: t ++ head :: ys) := fun p p_in q q_in => wf.own_apart (both p_in) (both q_in)
  have disjoint : ∀ a ∈ head :: ys, a ∉ f :: t := fun a member inside =>
    differ (wf.once ⟨_, value, List.mem_cons_of_mem list inside⟩ ⟨_, target, member⟩)
  have first : nextOf m list = f := ring.first_eq
  have filled : listEmpty m list = false := by
    rw [listEmpty, first, decide_eq_false_iff_not]
    rintro rfl
    exact (List.nodup_cons.mp ring.nodup).1 List.mem_cons_self
  rw [listSplice, filled, Bool.not_false, if_pos rfl]
  refine wf.exchange ex (listSpliceNodes_ring ring ring' apart disjoint) fun i away => ?_
  apply listSpliceNodes_outside
  · rw [first]
    exact away f (mine (List.mem_cons_of_mem list List.mem_cons_self))
  · exact away head (mine' List.mem_cons_self)
  · exact away _ (mine (ring.prev_mem List.mem_cons_self))
  · exact away _ (mine' (ring'.next_mem List.mem_cons_self))

theorem splice_empty (wf : WellFormed m lists) (value : lists list = some []) : listSplice m list head = m := by
  have next : nextOf m list = list := (wf.ring value).first_eq
  rw [listSplice, listEmpty, next, decide_eq_true rfl, Bool.not_true, if_neg Bool.false_ne_true]

end WellFormed

theorem WellFormed.applies {call : Call T} (wf : WellFormed m lists) (step : Applies lists call lists') :
    WellFormed (exec m call) lists' := by
  cases step with
  | init detached => exact wf.init detached
  | add value detached => exact wf.add value detached
  | addTail value detached => exact wf.addTail value detached
  | del value => exact wf.del value
  | spliceEmpty value _ =>
    rw [exec, wf.splice_empty value]
    exact wf
  | splice value target differ => exact wf.splice value target differ
  | replace value detached => exact (wf.replace value detached).1
  | replaceHead value detached => exact (wf.replaceHead value detached).1
  | replaceInit value detached =>
    obtain ⟨replaced, released⟩ := wf.replace value detached
    exact replaced.init released
  | replaceInitHead value detached =>
    obtain ⟨replaced, released⟩ := wf.replaceHead value detached
    exact replaced.init released
  | move value target => exact wf.move value target
  | moveTail value target => exact wf.moveTail value target

/-- Whatever calls are made, the memory holds what they make of the sequences. -/
theorem calls_refine_lists {calls : List (Call T)} (wf : WellFormed m lists) (run : AppliesAll lists calls lists') :
    WellFormed (calls.foldl exec m) lists' := by
  induction run generalizing m with
  | nil => exact wf
  | cons step _ ih => exact ih (wf.applies step)

theorem not_holds_none : ¬Holds (T := T) (fun _ => none) root p := by
  rintro ⟨_, value, _⟩
  cases value

theorem WellFormed.start (m : Nat → Byte) : WellFormed (T := T) m (fun _ => none) where
  ring value := by cases value
  once held := absurd held not_holds_none
  apart held := absurd held not_holds_none

theorem Detached.start : Detached (T := T) (fun _ => none) p := fun held => absurd held not_holds_none

/-- A list head that overlaps no head or entry of a new list stays free. -/
theorem Detached.update (detached : Detached lists p)
    (away : ∀ q ∈ root :: nodes, p.toNat + 2 * wordBytes T ≤ q.toNat ∨ q.toNat + 2 * wordBytes T ≤ p.toNat) :
    Detached (update lists root (some nodes)) p := by
  rintro r q ⟨ns, value, member⟩
  by_cases same : r = root
  · subst same
    rw [update_self] at value
    cases value
    refine ⟨?_, fun _ => away q member⟩
    rintro rfl
    have positive := wordBytes_pos (T := T)
    have overlap := away p member
    omega
  · rw [update_of_ne same] at value
    exact detached ⟨ns, value, member⟩

/-- Two lists, an entry for the first, and the first one spliced into the second. -/
theorem calls_refine_lists_two :
    WellFormed (T := .mcu) (([.init 16, .init 32, .addTail 48 16, .splice 16 32] : List (Call .mcu)).foldl exec fun _ => 0)
      (update (update (update (update (update (fun _ => none) 16 (some [])) 32 (some [])) 16 (some [48]))
        16 none) 32 (some [48])) := by
  have apart {p q : Usz .mcu} (below : p.toNat + 8 ≤ q.toNat) : ∀ r ∈ [p],
      q.toNat + 2 * wordBytes .mcu ≤ r.toNat ∨ r.toNat + 2 * wordBytes .mcu ≤ q.toNat := by
    intro r member
    rw [List.mem_singleton.mp member]
    exact .inr below
  have first : Detached (T := .mcu) (update (fun _ => none) 16 (some [])) 32 := Detached.start.update (apart (by decide))
  have entry : Detached (T := .mcu) (update (fun _ => none) 16 (some [])) 48 := Detached.start.update (apart (by decide))
  have second : Detached (T := .mcu) (update (update (fun _ => none) 16 (some [])) 32 (some [])) 48 :=
    entry.update (apart (by decide))
  exact calls_refine_lists (WellFormed.start _) (.cons (.init Detached.start) (.cons (.init first)
    (.cons (.addTail rfl second) (.cons (.splice rfl rfl (by decide)) .nil))))

end AvaModule.ListHead
