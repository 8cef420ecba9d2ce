import AvaModule.Ds.ListHeap
import AvaModule.Lib.Loop

/-! The traversals of ds/list.h. A body may store where no list head of the list lies. -/
namespace AvaModule.ListHead
open DoublyLinked

variable {T : Target} {S : Type} {m : Nat → Byte} {lists lists' : Lists T} {calls : List (Call T)}
  {head member p : Usz T} {nodes : List (Usz T)}

/-- `CONTAINER_OF`, with the offset of the member -/
def containerOf (ptr member : Usz T) : Usz T := ptr - member

/-- `LIST_FIRST_ENTRY` -/
def listFirstEntry (m : Nat → Byte) (entry member : Usz T) : Usz T := containerOf (nextOf m entry) member

/-- What a body makes of the memory and of what else it has. -/
abbrev Body (T : Target) (S : Type) := Usz T → (Nat → Byte) × S → Option ((Nat → Byte) × S)

/-- `link` leads from a list head to the next one, `entryOf` from a list head to the loop variable, `nodeOf` back. -/
def forEachLoop (link : (Nat → Byte) → Usz T → Usz T) (entryOf nodeOf : Usz T → Usz T) (head : Usz T) (body : Body T S) :
    Loop (Usz T × (Nat → Byte) × S) ((Nat → Byte) × S) where
  turn := fun (entry, s) =>
    if nodeOf entry ≠ head then (body entry s).map fun s => .next (entryOf (link s.1 (nodeOf entry)), s)
    else some (.done s)

def forEachBy (link : (Nat → Byte) → Usz T → Usz T) (entryOf nodeOf : Usz T → Usz T) (head : Usz T) (body : Body T S)
    (s : (Nat → Byte) × S) : Option ((Nat → Byte) × S) :=
  (forEachLoop link entryOf nodeOf head body).run (entryOf (link s.1 head), s)

/-- `LIST_FOR_EACH` -/
def listForEach (head : Usz T) (body : Body T S) (s : (Nat → Byte) × S) : Option ((Nat → Byte) × S) :=
  forEachBy nextOf id id head body s

/-- `LIST_FOR_EACH_ENTRY` -/
def listForEachEntry (head member : Usz T) (body : Body T S) (s : (Nat → Byte) × S) : Option ((Nat → Byte) × S) :=
  forEachBy nextOf (containerOf · member) (· + member) head body s

/-- `LIST_FOR_EACH_PREV` -/
def listForEachPrev (head : Usz T) (body : Body T S) (s : (Nat → Byte) × S) : Option ((Nat → Byte) × S) :=
  forEachBy prevOf id id head body s

/-- `LIST_FOR_EACH_ENTRY_REVERSE` -/
def listForEachEntryReverse (head member : Usz T) (body : Body T S) (s : (Nat → Byte) × S) :
    Option ((Nat → Byte) × S) :=
  forEachBy prevOf (containerOf · member) (· + member) head body s

theorem containerOf_add (ptr member : Usz T) : containerOf ptr member + member = ptr :=
  BitVec.sub_add_cancel ptr member

/-- The body stores in none of the list heads. -/
def Spares (body : Body T S) (heads : List (Usz T)) : Prop :=
  ∀ entry s t, body entry s = some t → ∀ p ∈ heads, ∀ i, Within p i → t.1 i = s.1 i

section Walk
variable {link : (Nat → Byte) → Usz T → Usz T} {entryOf nodeOf : Usz T → Usz T} {body : Body T S}

/-- From any entry on, the loop does its body on what follows. -/
theorem walk_eq (back : ∀ p, nodeOf (entryOf p) = p) (fresh : head ∉ nodes)
    (steady : ∀ {entry s t}, body entry s = some t → ∀ q ∈ nodes, link t.1 q = link s.1 q) (s : (Nat → Byte) × S)
    (links : List.Forall₂ (fun a b => link s.1 a = b) (p :: nodes) (nodes ++ [head])) :
    (forEachLoop link entryOf nodeOf head body).run (entryOf (link s.1 p), s) =
      nodes.foldlM (fun s q => body (entryOf q) s) s := by
  induction nodes generalizing p s with
  | nil =>
    cases links with
    | cons last _ =>
      rw [Loop.run_eq, last]
      simp only [forEachLoop, back, ne_eq, not_true_eq_false, if_false]
      rfl
  | cons q nodes ih =>
    cases links with
    | cons first rest =>
      have differ : q ≠ head := fun same => fresh (same ▸ List.mem_cons_self)
      rw [Loop.run_eq, first, List.foldlM_cons]
      simp only [forEachLoop, back, ne_eq, differ, not_false_eq_true, if_true]
      cases done : body (entryOf q) s with
      | none => rfl
      | some t =>
        have kept : List.Forall₂ (fun a b => link t.1 a = b) (q :: nodes) (nodes ++ [head]) :=
          ((List.forall₂_and_left _ _).mpr ⟨steady done, rest⟩).imp fun _ _ both => both.1.trans both.2
        exact ih (fun member => fresh (List.mem_cons_of_mem q member))
          (fun next a member => steady next a (List.mem_cons_of_mem q member)) t kept

theorem forEachBy_eq (back : ∀ p, nodeOf (entryOf p) = p) (fresh : head ∉ nodes)
    (steady : ∀ {entry s t}, body entry s = some t → ∀ q ∈ nodes, link t.1 q = link s.1 q) (s : (Nat → Byte) × S)
    (links : List.Forall₂ (fun a b => link s.1 a = b) (head :: nodes) (nodes ++ [head])) :
    forEachBy link entryOf nodeOf head body s = (nodes.map entryOf).foldlM (fun s entry => body entry s) s := by
  rw [forEachBy, walk_eq back fresh steady s links, List.foldlM_map]

end Walk

section Traversals
variable {body : Body T S}

theorem Spares.next (spares : Spares body (head :: nodes)) {entry : Usz T} {s t : (Nat → Byte) × S}
    (done : body entry s = some t) : ∀ q ∈ nodes, nextOf t.1 q = nextOf s.1 q := by
  intro q member
  apply load_congr
  intro i lo hi
  exact spares _ _ _ done q (List.mem_cons_of_mem head member) i ⟨by omega, by omega⟩

theorem Spares.prev (spares : Spares body (head :: nodes)) {entry : Usz T} {s t : (Nat → Byte) × S}
    (done : body entry s = some t) : ∀ q ∈ nodes, prevOf t.1 q = prevOf s.1 q := by
  intro q member
  apply load_congr
  intro i lo hi
  exact spares _ _ _ done q (List.mem_cons_of_mem head member) i ⟨by omega, by omega⟩

/-- Forth the entries come in their order. -/
theorem forth_eq {entryOf nodeOf : Usz T → Usz T} (back : ∀ p, nodeOf (entryOf p) = p) (spares : Spares body (head :: nodes))
    (s : (Nat → Byte) × S) (ring : Ring (nextOf s.1) (prevOf s.1) head nodes) :
    forEachBy nextOf entryOf nodeOf head body s = (nodes.map entryOf).foldlM (fun s entry => body entry s) s :=
  forEachBy_eq back (List.nodup_cons.mp ring.nodup).1 spares.next s (ring.links.imp fun _ _ link => link.1)

/-- Back they come the other way round. -/
theorem back_eq {entryOf nodeOf : Usz T → Usz T} (back : ∀ p, nodeOf (entryOf p) = p) (spares : Spares body (head :: nodes))
    (s : (Nat → Byte) × S) (ring : Ring (nextOf s.1) (prevOf s.1) head nodes) :
    forEachBy prevOf entryOf nodeOf head body s =
      (nodes.reverse.map entryOf).foldlM (fun s entry => body entry s) s := by
  have links : List.Forall₂ (fun a b => prevOf s.1 a = b) (nodes ++ [head]) (head :: nodes) :=
    (ring.links.imp fun _ _ link => link.2).flip
  have turned := List.rel_reverse links
  rw [List.reverse_append, List.reverse_singleton, List.singleton_append, List.reverse_cons] at turned
  refine forEachBy_eq back ?_ ?_ s turned
  · exact fun member => (List.nodup_cons.mp ring.nodup).1 (List.mem_reverse.mp member)
  · exact fun done q member => spares.prev done q (List.mem_reverse.mp member)

theorem WellFormed.run (wf : WellFormed m lists) (applies : AppliesAll lists calls lists') :
    WellFormed (calls.foldl exec m) lists' := by
  induction applies generalizing m with
  | nil => exact wf
  | cons step _ ih => exact ih (wf.applies step)

/-- Whatever calls have made of the lists, a traversal does its body on every entry, or on the struct around it, once
and in order, and ends; `list_empty` tells whether there is an entry, and `LIST_FIRST_ENTRY` is the first one's struct. -/
theorem traversals (wf : WellFormed m lists) (applies : AppliesAll lists calls lists')
    (value : lists' head = some nodes) (spares : Spares body (head :: nodes)) (s : S) :
    let heap := calls.foldl exec m
    listForEach head body (heap, s) = nodes.foldlM (fun s entry => body entry s) (heap, s) ∧
    listForEachPrev head body (heap, s) = nodes.reverse.foldlM (fun s entry => body entry s) (heap, s) ∧
    listForEachEntry head member body (heap, s) =
      (nodes.map (containerOf · member)).foldlM (fun s entry => body entry s) (heap, s) ∧
    listForEachEntryReverse head member body (heap, s) =
      (nodes.map (containerOf · member)).reverse.foldlM (fun s entry => body entry s) (heap, s) ∧
    (listEmpty heap head = true ↔ nodes = []) ∧
    listFirstEntry heap head member = containerOf (nodes.headD head) member := by
  intro heap
  have ring : Ring (nextOf heap) (prevOf heap) head nodes := (wf.run applies).ring value
  have same (p : Usz T) : id (id p) = p := rfl
  have around (p : Usz T) : containerOf p member + member = p := containerOf_add p member
  refine ⟨?_, ?_, forth_eq around spares (heap, s) ring, ?_, ?_, ?_⟩
  · exact (forth_eq same spares (heap, s) ring).trans (by rw [List.map_id])
  · exact (back_eq same spares (heap, s) ring).trans (by rw [List.map_id])
  · exact (back_eq around spares (heap, s) ring).trans (by rw [List.map_reverse])
  · rw [listEmpty, decide_eq_true_iff, ring.first_eq]
    cases nodes with
    | nil => exact ⟨fun _ => rfl, fun _ => rfl⟩
    | cons q nodes =>
      have fresh := (List.nodup_cons.mp ring.nodup).1
      exact ⟨fun (first : q = head) => absurd (first ▸ List.mem_cons_self) fresh, fun none => by cases none⟩
  · rw [listFirstEntry, ring.first_eq]

end Traversals

/-- Two entries, whose structs start four bytes before them, written down in turn. -/
theorem traversals_two :
    listForEachEntryReverse (T := .mcu) 16 4 (fun entry s => some (s.1, entry :: s.2))
      (([.init 16, .addTail 48 16, .add 80 16] : List (Call .mcu)).foldl exec fun _ => 0, []) =
    (([80, 48].map (containerOf · 4)).reverse).foldlM (fun s entry => some (s.1, entry :: s.2))
      (([.init 16, .addTail 48 16, .add 80 16] : List (Call .mcu)).foldl exec fun _ => 0, []) := by
  have apart {p q : Usz .mcu} (below : p.toNat + 8 ≤ q.toNat) :
      q.toNat + 2 * wordBytes .mcu ≤ p.toNat ∨ p.toNat + 2 * wordBytes .mcu ≤ q.toNat := .inr below
  have first : Detached (T := .mcu) (Function.update (fun _ => none) 16 (some [])) 48 :=
    Detached.start.update (List.forall_mem_singleton.mpr (apart (by decide)))
  have second : Detached (T := .mcu) (Function.update (fun _ => none) 16 (some [])) 80 :=
    Detached.start.update (List.forall_mem_singleton.mpr (apart (by decide)))
  have both : ∀ q ∈ [(16 : Usz .mcu), 48], 80 + 2 * wordBytes .mcu ≤ q.toNat ∨ q.toNat + 2 * wordBytes .mcu ≤ 80 :=
    List.forall_mem_cons.mpr ⟨.inr (by decide), List.forall_mem_singleton.mpr (.inr (by decide))⟩
  have run : AppliesAll (T := .mcu) (fun _ => none) [.init 16, .addTail 48 16, .add 80 16] _ :=
    .cons (.init Detached.start) (.cons (.addTail (Function.update_self ..) first)
      (.cons (.add (Function.update_self ..) (second.update both)) .nil))
  exact (traversals (WellFormed.start _) run (Function.update_self ..) (fun _ _ _ done _ _ _ _ => by cases done; rfl) []).2.2.2.1

end AvaModule.ListHead
