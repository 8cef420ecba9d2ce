import Mathlib.Data.List.Forall2
import Mathlib.Logic.Function.Basic
import Mathlib.Tactic.Tauto

/-! Circular doubly linked lists through a root, for any two link functions. The
nodes may be split anywhere; the node before the split and the node after it may
each be the root. -/
namespace DoublyLinked
variable {α : Type*} {next prev next' prev' : α → α} {root n p q : α} {xs ys : List α}

def Linked (next prev : α → α) (a b : α) : Prop := next a = b ∧ prev b = a

structure Ring (next prev : α → α) (root : α) (nodes : List α) : Prop where
  nodup : (root :: nodes).Nodup
  links : List.Forall₂ (Linked next prev) (root :: nodes) (nodes ++ [root])

theorem Ring.empty (forth : next root = root) (back : prev root = root) : Ring next prev root [] :=
  ⟨by simp, .cons ⟨forth, back⟩ .nil⟩

theorem linked_congr {l r : List α} (links : List.Forall₂ (Linked next prev) l r)
    (forth : ∀ a ∈ l, next' a = next a) (back : ∀ b ∈ r, prev' b = prev b) :
    List.Forall₂ (Linked next' prev') l r := by
  induction links with
  | nil => exact .nil
  | cons link _ ih =>
    refine .cons ⟨?_, ?_⟩ (ih ?_ ?_)
    · rw [forth _ List.mem_cons_self, link.1]
    · rw [back _ List.mem_cons_self, link.2]
    · exact fun a member => forth a (List.mem_cons_of_mem _ member)
    · exact fun b member => back b (List.mem_cons_of_mem _ member)

/-- The links up to the split, across it, and after it. -/
structure Split (next prev : α → α) (root : α) (xs ys front rest : List α) : Prop where
  front_eq : root :: xs = front ++ [xs.getLastD root]
  rest_eq : ys ++ [root] = ys.headD root :: rest
  before : List.Forall₂ (Linked next prev) front xs
  across : Linked next prev (xs.getLastD root) (ys.headD root)
  after : List.Forall₂ (Linked next prev) ys rest

theorem front_exists (root : α) (xs : List α) : ∃ front, root :: xs = front ++ [xs.getLastD root] := by
  rcases List.eq_nil_or_concat xs with rfl | ⟨init, last, rfl⟩
  · exact ⟨[], rfl⟩
  · exact ⟨root :: init, by simp⟩

theorem rest_exists (root : α) (ys : List α) : ∃ rest, ys ++ [root] = ys.headD root :: rest := by
  cases ys with
  | nil => exact ⟨[], rfl⟩
  | cons y ys => exact ⟨ys ++ [root], rfl⟩

theorem Ring.split (ring : Ring next prev root (xs ++ ys)) : ∃ front rest, Split next prev root xs ys front rest := by
  obtain ⟨front, front_eq⟩ := front_exists root xs
  obtain ⟨rest, rest_eq⟩ := rest_exists root ys
  have length : xs.length = front.length := by
    have lengths := congrArg List.length front_eq
    simpa using lengths
  have links : List.Forall₂ (Linked next prev) (front ++ xs.getLastD root :: ys)
      (xs ++ ys.headD root :: rest) := by
    have links := ring.links
    rwa [← List.cons_append, front_eq, List.append_assoc, List.append_assoc, rest_eq] at links
  have before := List.forall₂_take_append _ _ _ links
  have after := List.forall₂_drop_append _ _ _ links
  rw [length, List.take_left] at before
  rw [length, List.drop_left] at after
  cases after with
  | cons across after => exact ⟨front, rest, front_eq, rest_eq, before, across, after⟩

/-- The node before the split is linked to the node after it. -/
theorem Ring.across (ring : Ring next prev root (xs ++ ys)) :
    Linked next prev (xs.getLastD root) (ys.headD root) := by
  obtain ⟨_, _, split⟩ := ring.split
  exact split.across

theorem Ring.next_eq (ring : Ring next prev root (xs ++ n :: ys)) : next n = ys.headD root := by
  have whole : xs ++ n :: ys = (xs ++ [n]) ++ ys := by simp
  rw [whole] at ring
  simpa using ring.across.1

theorem Ring.prev_eq (ring : Ring next prev root (xs ++ n :: ys)) : prev n = xs.getLastD root :=
  ring.across.2

theorem Ring.first_eq (ring : Ring next prev root ys) : next root = ys.headD root := by
  have whole : ys = [] ++ ys := rfl
  rw [whole] at ring
  exact ring.across.1

theorem Ring.last_eq (ring : Ring next prev root xs) : prev root = xs.getLastD root := by
  have whole : xs = xs ++ [] := by simp
  rw [whole] at ring
  exact ring.across.2

theorem mem_middle : p ∈ root :: (xs ++ n :: ys) ↔ p = n ∨ p ∈ root :: (xs ++ ys) := by
  simp only [List.mem_cons, List.mem_append]
  tauto

theorem before_mem (root : α) (xs ys : List α) : xs.getLastD root ∈ root :: (xs ++ ys) := by
  rcases List.eq_nil_or_concat xs with rfl | ⟨init, last, rfl⟩ <;> simp

theorem after_mem (root : α) (xs ys : List α) : ys.headD root ∈ root :: (xs ++ ys) := by
  cases ys <;> simp

/-- The neighbours of a node are in its list. -/
theorem Ring.next_mem (ring : Ring next prev root xs) (member : p ∈ root :: xs) : next p ∈ root :: xs := by
  rcases List.mem_cons.mp member with rfl | member
  · rw [ring.first_eq]
    exact after_mem p [] xs
  · obtain ⟨front, back, rfl⟩ := List.append_of_mem member
    rw [ring.next_eq]
    exact mem_middle.mpr (.inr (after_mem root front back))

theorem Ring.prev_mem (ring : Ring next prev root xs) (member : p ∈ root :: xs) : prev p ∈ root :: xs := by
  rcases List.mem_cons.mp member with rfl | member
  · rw [ring.last_eq]
    simpa only [List.append_nil] using before_mem p xs []
  · obtain ⟨front, back, rfl⟩ := List.append_of_mem member
    rw [ring.prev_eq]
    exact mem_middle.mpr (.inr (before_mem root front back))

theorem join {front rest : List α} (front_eq : root :: xs = front ++ [xs.getLastD root])
    (rest_eq : ys ++ [root] = ys.headD root :: rest) (before : List.Forall₂ (Linked next prev) front xs)
    (across : Linked next prev (xs.getLastD root) (ys.headD root))
    (after : List.Forall₂ (Linked next prev) ys rest) :
    List.Forall₂ (Linked next prev) (root :: (xs ++ ys)) (xs ++ ys ++ [root]) := by
  rw [← List.cons_append, front_eq, List.append_assoc, List.append_assoc, rest_eq]
  exact List.rel_append before (.cons across after)

/-- A node among the others of a list without repetitions. -/
theorem nodup_middle : (root :: (xs ++ n :: ys)).Nodup ↔ n ∉ root :: (xs ++ ys) ∧ (root :: (xs ++ ys)).Nodup := by
  have order : (root :: (xs ++ n :: ys)).Perm (n :: root :: (xs ++ ys)) :=
    (List.Perm.cons root List.perm_middle).trans (.swap n root _)
  rw [order.nodup_iff, List.nodup_cons]

section Change
variable {front rest : List α}

/-- The node before the split comes once, at the end of the links before it. -/
theorem front_ne (front_eq : root :: xs = front ++ [xs.getLastD root]) (nodup : (root :: (xs ++ ys)).Nodup)
    (member : n ∈ front ∨ n ∈ ys) : n ≠ xs.getLastD root := by
  rintro rfl
  have order : root :: (xs ++ ys) = front ++ (xs.getLastD root :: ys) := by
    rw [← List.cons_append, front_eq, List.append_assoc]
    rfl
  rw [order, List.nodup_append] at nodup
  rcases member with before | after
  · exact nodup.2.2 _ before _ List.mem_cons_self rfl
  · exact (List.nodup_cons.mp nodup.2.1).1 after

/-- And the node after it at their start. -/
theorem rest_ne (rest_eq : ys ++ [root] = ys.headD root :: rest) (nodup : (root :: (xs ++ ys)).Nodup)
    (member : n ∈ xs ∨ n ∈ rest) : n ≠ ys.headD root := by
  rintro rfl
  have turned : (xs ++ (ys ++ [root])).Nodup := by
    rw [← List.append_assoc]
    exact (List.perm_append_singleton root (xs ++ ys)).symm.nodup nodup
  rw [rest_eq, List.nodup_append] at turned
  rcases member with before | after
  · exact turned.2.2 _ before _ List.mem_cons_self rfl
  · exact (List.nodup_cons.mp turned.2.1).1 after

/-- The links before the split, where only the node before it and the node after it
have changed. -/
theorem before_congr (front_eq : root :: xs = front ++ [xs.getLastD root])
    (rest_eq : ys ++ [root] = ys.headD root :: rest) (nodup : (root :: (xs ++ ys)).Nodup)
    (before : List.Forall₂ (Linked next prev) front xs)
    (forth : ∀ a ∈ root :: (xs ++ ys), a ≠ xs.getLastD root → next' a = next a)
    (back : ∀ b ∈ root :: (xs ++ ys), b ≠ ys.headD root → prev' b = prev b) :
    List.Forall₂ (Linked next' prev') front xs := by
  apply linked_congr before
  · intro a member
    have early : a ∈ root :: xs := by
      rw [front_eq]
      exact List.mem_append_left _ member
    refine forth a ?_ (front_ne front_eq nodup (.inl member))
    rw [← List.cons_append]
    exact List.mem_append_left _ early
  · intro b member
    exact back b (by simp [member]) (rest_ne rest_eq nodup (.inl member))

/-- And those after it. -/
theorem after_congr (front_eq : root :: xs = front ++ [xs.getLastD root])
    (rest_eq : ys ++ [root] = ys.headD root :: rest) (nodup : (root :: (xs ++ ys)).Nodup)
    (after : List.Forall₂ (Linked next prev) ys rest)
    (forth : ∀ a ∈ root :: (xs ++ ys), a ≠ xs.getLastD root → next' a = next a)
    (back : ∀ b ∈ root :: (xs ++ ys), b ≠ ys.headD root → prev' b = prev b) :
    List.Forall₂ (Linked next' prev') ys rest := by
  apply linked_congr after
  · intro a member
    exact forth a (by simp [member]) (front_ne front_eq nodup (.inr member))
  · intro b member
    have late : b ∈ ys ++ [root] := by
      rw [rest_eq]
      exact List.mem_cons_of_mem _ member
    refine back b ?_ (rest_ne rest_eq nodup (.inr member))
    rcases List.mem_append.mp late with node | last
    · exact List.mem_cons_of_mem _ (List.mem_append_right _ node)
    · rw [List.mem_singleton.mp last]
      exact List.mem_cons_self

/-- A new node goes in at the split. -/
theorem Ring.insert (ring : Ring next prev root (xs ++ ys)) (fresh : n ∉ root :: (xs ++ ys))
    (into : Linked next' prev' (xs.getLastD root) n) (out : Linked next' prev' n (ys.headD root))
    (forth : ∀ a ∈ root :: (xs ++ ys), a ≠ xs.getLastD root → next' a = next a)
    (back : ∀ b ∈ root :: (xs ++ ys), b ≠ ys.headD root → prev' b = prev b) :
    Ring next' prev' root (xs ++ n :: ys) := by
  obtain ⟨front, rest, split⟩ := ring.split
  have nodup := ring.nodup
  constructor
  · exact nodup_middle.mpr ⟨fresh, nodup⟩
  · have before := before_congr split.front_eq split.rest_eq nodup split.before forth back
    have after := after_congr split.front_eq split.rest_eq nodup split.after forth back
    have rest_eq : n :: ys ++ [root] = (n :: ys).headD root :: (ys.headD root :: rest) := by
      rw [List.cons_append, split.rest_eq]
      rfl
    exact join split.front_eq rest_eq before into (.cons out after)

/-- The node after the split is taken out. -/
theorem Ring.delete (ring : Ring next prev root (xs ++ n :: ys))
    (across : Linked next' prev' (xs.getLastD root) (ys.headD root))
    (forth : ∀ a ∈ root :: (xs ++ ys), a ≠ xs.getLastD root → next' a = next a)
    (back : ∀ b ∈ root :: (xs ++ ys), b ≠ ys.headD root → prev' b = prev b) :
    Ring next' prev' root (xs ++ ys) := by
  obtain ⟨front, all, split⟩ := ring.split
  obtain ⟨rest, rest_eq⟩ := rest_exists root ys
  obtain rfl : ys ++ [root] = all := (List.cons.inj split.rest_eq).2
  have after := split.after
  rw [rest_eq] at after
  have nodup := (nodup_middle.mp ring.nodup).2
  refine ⟨nodup, join split.front_eq rest_eq ?_ across ?_⟩
  · exact before_congr split.front_eq rest_eq nodup split.before forth back
  · cases after with
    | cons _ after => exact after_congr split.front_eq rest_eq nodup after forth back

/-- Another node takes the place of the one after the split. -/
theorem Ring.replace (ring : Ring next prev root (xs ++ p :: ys)) (fresh : n ∉ root :: (xs ++ ys))
    (into : Linked next' prev' (xs.getLastD root) n) (out : Linked next' prev' n (ys.headD root))
    (forth : ∀ a ∈ root :: (xs ++ ys), a ≠ xs.getLastD root → next' a = next a)
    (back : ∀ b ∈ root :: (xs ++ ys), b ≠ ys.headD root → prev' b = prev b) :
    Ring next' prev' root (xs ++ n :: ys) := by
  classical
  have taken : Ring (Function.update next (xs.getLastD root) (ys.headD root))
      (Function.update prev (ys.headD root) (xs.getLastD root)) root (xs ++ ys) := by
    refine ring.delete ⟨?_, ?_⟩ ?_ ?_
    · rw [Function.update_self]
    · rw [Function.update_self]
    · exact fun a _ other => Function.update_of_ne other ..
    · exact fun b _ other => Function.update_of_ne other ..
  refine taken.insert fresh into out ?_ ?_
  · intro a member other
    rw [Function.update_of_ne other, forth a member other]
  · intro b member other
    rw [Function.update_of_ne other, back b member other]

/-- The links within a list, without its root. -/
theorem Ring.inner {f : α} {t init : List α} (ring : Ring next prev root (f :: t))
    (init_eq : f :: t = init ++ [t.getLastD f]) : List.Forall₂ (Linked next prev) init t := by
  have length : t.length = init.length := by
    have lengths := congrArg List.length init_eq
    simpa using lengths
  cases ring.links with
  | cons _ links =>
    rw [init_eq] at links
    have inner := List.forall₂_take_append _ _ _ links
    rwa [length, List.take_left] at inner

end Change

/-- A list may be looked at from any of its nodes. -/
theorem Ring.turn (ring : Ring next prev root (xs ++ n :: ys)) : Ring next prev n (ys ++ root :: xs) := by
  have around : root :: (xs ++ n :: ys) = (root :: xs) ++ (n :: ys) := by simp
  have targets : xs ++ n :: ys ++ [root] = (xs ++ [n]) ++ (ys ++ [root]) := by simp
  have length : (xs ++ [n]).length = (root :: xs).length := by simp
  have nodup := ring.nodup
  have links := ring.links
  rw [around] at nodup links
  rw [targets] at links
  have first := List.forall₂_take_append _ _ _ links
  have second := List.forall₂_drop_append _ _ _ links
  rw [length, List.take_left] at first
  rw [length, List.drop_left] at second
  have turned : n :: (ys ++ root :: xs) = (n :: ys) ++ (root :: xs) := by simp
  have targets' : ys ++ root :: xs ++ [n] = (ys ++ [root]) ++ (xs ++ [n]) := by simp
  constructor
  · rw [turned]
    exact List.perm_append_comm.nodup nodup
  · rw [turned, targets']
    exact List.rel_append second first

theorem Ring.to_first (ring : Ring next prev root (n :: ys)) : Ring next prev n (ys ++ [root]) := by
  have whole : n :: ys = [] ++ n :: ys := rfl
  rw [whole] at ring
  exact ring.turn

theorem Ring.of_first (ring : Ring next prev n (ys ++ [root])) : Ring next prev root (n :: ys) := ring.turn

section Splice
variable {other f : α} {t : List α}

/-- The nodes of one list go in at the split of another. -/
theorem Ring.splice (ring : Ring next prev root (xs ++ ys)) (ring' : Ring next prev other (f :: t))
    (disjoint : ∀ a ∈ root :: (xs ++ ys), a ∉ f :: t)
    (into : Linked next' prev' (xs.getLastD root) f) (out : Linked next' prev' (t.getLastD f) (ys.headD root))
    (forth : ∀ a ∈ root :: (xs ++ ys), a ≠ xs.getLastD root → next' a = next a)
    (back : ∀ b ∈ root :: (xs ++ ys), b ≠ ys.headD root → prev' b = prev b)
    (forth' : ∀ a ∈ f :: t, a ≠ t.getLastD f → next' a = next a)
    (back' : ∀ b ∈ f :: t, b ≠ f → prev' b = prev b) : Ring next' prev' root (xs ++ (f :: t ++ ys)) := by
  obtain ⟨front, rest, split⟩ := ring.split
  obtain ⟨init, init_eq⟩ := front_exists f t
  have nodup := ring.nodup
  have nodup' := (List.nodup_cons.mp ring'.nodup).2
  constructor
  · have order : (root :: (xs ++ (f :: t ++ ys))).Perm (root :: (xs ++ ys) ++ (f :: t)) := by
      have swapped : (f :: t ++ ys).Perm (ys ++ (f :: t)) := List.perm_append_comm
      simpa only [List.cons_append, List.append_assoc] using (swapped.append_left xs).cons root
    refine order.symm.nodup (List.nodup_append.mpr ⟨nodup, nodup', ?_⟩)
    rintro a member _ inside rfl
    exact disjoint a member inside
  · have before := before_congr split.front_eq split.rest_eq nodup split.before forth back
    have after := after_congr split.front_eq split.rest_eq nodup split.after forth back
    have inner : List.Forall₂ (Linked next' prev') init t := by
      have once := nodup'
      rw [init_eq] at once
      apply linked_congr (ring'.inner init_eq)
      · intro a member
        have early : a ∈ f :: t := by
          rw [init_eq]
          exact List.mem_append_left _ member
        exact forth' a early ((List.nodup_append.mp once).2.2 a member _ List.mem_cons_self)
      · intro b member
        refine back' b (List.mem_cons_of_mem f member) ?_
        rintro rfl
        exact (List.nodup_cons.mp nodup').1 member
    have rest_eq : f :: t ++ ys ++ [root] = (f :: t ++ ys).headD root :: (t ++ ys.headD root :: rest) := by
      rw [List.append_assoc, split.rest_eq]
      rfl
    refine join split.front_eq rest_eq before into ?_
    rw [init_eq, List.append_assoc]
    exact List.rel_append inner (.cons out after)

end Splice

end DoublyLinked
