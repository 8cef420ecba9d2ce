import Mathlib.Data.List.Nodup
import Mathlib.Data.Prod.Lex

/-! Stable priority queues. An entry's rank is its key and then the position in
the log at which it was entered; a queue sorted by rank serves equal keys in the
order of their entry, whatever happens to other entries in between. -/
namespace StableQueue
variable {ι κ : Type*}

theorem getElem?_append_singleton {l : List ι} {e x : ι} {p : Nat} (found : (l ++ [e])[p]? = some x) :
    l[p]? = some x ∨ (p = l.length ∧ x = e) := by
  rcases Nat.lt_trichotomy p l.length with before | rfl | after
  · rw [List.getElem?_append_left before] at found
    exact Or.inl found
  · rw [List.getElem?_concat_length, Option.some.injEq] at found
    exact Or.inr ⟨rfl, found.symm⟩
  · have long : (l ++ [e]).length ≤ p := by
      rw [List.length_append, List.length_singleton]
      omega
    rw [List.getElem?_eq_none long] at found
    cases found

theorem getElem?_append_old {l : List ι} {x : ι} {p : Nat} (found : l[p]? = some x) (more : List ι) :
    (l ++ more)[p]? = some x := by
  rw [List.getElem?_append_left (List.getElem?_eq_some_iff.mp found).1]
  exact found

inductive Entry (ι κ : Type*) where
  | enter (i : ι) (key : κ)
  | leave (i : ι)
  | other

/-- Of two entries with equal keys the later one does not leave first. -/
def Fair (log : List (Entry ι κ)) : Prop :=
  ∀ ⦃p q r : Nat⦄ ⦃a b : ι⦄ ⦃k : κ⦄, p < q → q < r →
    log[p]? = some (.enter a k) → log[q]? = some (.enter b k) → log[r]? = some (.leave b) →
    (∀ m, q < m → m < r → log[m]? ≠ some (.leave b)) → ∃ m, p < m ∧ m < r ∧ log[m]? = some (.leave a)

variable {log : List (Entry ι κ)}

/-- Fairness of a longer log is a matter of its last entry. -/
theorem Fair.concat (fair : Fair log) {e : Entry ι κ}
    (last : ∀ ⦃p q a b k⦄, e = .leave b → p < q → q < log.length → log[p]? = some (.enter a k) →
      log[q]? = some (.enter b k) → (∀ m, q < m → log[m]? ≠ some (.leave b)) →
      ∃ m, p < m ∧ log[m]? = some (.leave a)) :
    Fair (log ++ [e]) := by
  intro p q r a b k pq qr atP atQ atR between
  have rBound : r ≤ log.length := by
    have bound := (List.getElem?_eq_some_iff.mp atR).1
    rw [List.length_append, List.length_singleton] at bound
    omega
  have oldP : log[p]? = some (.enter a k) := by
    rw [← atP, List.getElem?_append_left (by omega)]
  have oldQ : log[q]? = some (.enter b k) := by
    rw [← atQ, List.getElem?_append_left (by omega)]
  have free : ∀ m, q < m → m < r → log[m]? ≠ some (.leave b) :=
    fun m after before found => between m after before (getElem?_append_old found _)
  rcases getElem?_append_singleton atR with oldR | ⟨rfl, leaving⟩
  · obtain ⟨m, after, before, found⟩ := fair pq qr oldP oldQ oldR free
    exact ⟨m, after, before, getElem?_append_old found _⟩
  · have gone : ∀ m, q < m → log[m]? ≠ some (.leave b) := by
      intro m after found
      exact free m after (List.getElem?_eq_some_iff.mp found).1 found
    obtain ⟨m, after, found⟩ := last leaving.symm pq qr oldP oldQ gone
    exact ⟨m, after, (List.getElem?_eq_some_iff.mp found).1, getElem?_append_old found _⟩

variable [LinearOrder κ]

def rank (key : ι → κ) (stamp : ι → Nat) (i : ι) : κ ×ₗ Nat := toLex (key i, stamp i)

/-- A queue whose log is fair: every entry of the log has left or is still
queued with its key and the stamp of its entry. -/
structure Served (log : List (Entry ι κ)) (queue : List ι) (key : ι → κ) (stamp : ι → Nat) : Prop where
  ordered : queue.Pairwise fun a b => rank key stamp a < rank key stamp b
  stamps : ∀ i ∈ queue, stamp i < log.length
  pending : ∀ ⦃p i k⦄, log[p]? = some (.enter i k) →
    (∃ m, p < m ∧ log[m]? = some (.leave i)) ∨ (i ∈ queue ∧ stamp i = p ∧ key i = k)
  fair : Fair log

variable {queue rest xs ys : List ι} {key key' : ι → κ} {stamp : ι → Nat} {i : ι}

theorem rank_lt_of_key_lt {j : ι} (lt : key i < key j) : rank key stamp i < rank key stamp j :=
  Prod.Lex.toLex_lt_toLex.mpr (Or.inl lt)

theorem key_le_of_rank_lt {j : ι} (lt : rank key stamp i < rank key stamp j) : key i ≤ key j := by
  rcases Prod.Lex.toLex_lt_toLex.mp lt with key | ⟨key, _⟩
  · exact le_of_lt key
  · exact le_of_eq key

theorem stamp_lt_of_rank_lt {j : ι} (lt : rank key stamp i < rank key stamp j) (same : key i = key j) :
    stamp i < stamp j := by
  rcases Prod.Lex.toLex_lt_toLex.mp lt with key | ⟨_, stamp⟩
  · exact absurd same (ne_of_lt key)
  · exact stamp

namespace Served

theorem empty (key : ι → κ) (stamp : ι → Nat) : Served [] [] key stamp := by
  refine ⟨List.Pairwise.nil, by simp, by simp, ?_⟩
  intro p q r a b k _ _ found
  simp at found

theorem nodup (h : Served log queue key stamp) : queue.Nodup :=
  h.ordered.imp fun lt same => absurd (same ▸ lt) (lt_irrefl _)

/-- Keys of absent entries are free to change. -/
theorem rekey (h : Served log queue key stamp) (same : ∀ i ∈ queue, key' i = key i) :
    Served log queue key' stamp := by
  refine ⟨h.ordered.imp_of_mem ?_, h.stamps, ?_, h.fair⟩
  · intro a b ha hb lt
    rwa [rank, rank, same a ha, same b hb]
  · intro p i k found
    rcases h.pending found with left | ⟨queued, stamped, keyed⟩
    · exact Or.inl left
    · exact Or.inr ⟨queued, stamped, (same i queued).trans keyed⟩

theorem other (h : Served log queue key stamp) : Served (log ++ [.other]) queue key stamp := by
  refine ⟨h.ordered, ?_, ?_, h.fair.concat ?_⟩
  · intro i queued
    have := h.stamps i queued
    rw [List.length_append]
    omega
  · intro p i k found
    rcases getElem?_append_singleton found with old | ⟨_, absurd⟩
    · rcases h.pending old with ⟨m, after, left⟩ | queued
      · exact Or.inl ⟨m, after, getElem?_append_old left _⟩
      · exact Or.inr queued
    · cases absurd
  · intro p q a b k leaving
    cases leaving

/-- A new entry goes after every queued one whose key is not greater. -/
theorem enter [DecidableEq ι] (h : Served log (xs ++ ys) key stamp) (fresh : i ∉ xs ++ ys)
    (low : ∀ x ∈ xs, key x ≤ key i) (high : ∀ y ∈ ys, key i < key y) :
    Served (log ++ [.enter i (key i)]) (xs ++ i :: ys) key (Function.update stamp i log.length) := by
  have kept : ∀ j ∈ xs ++ ys, Function.update stamp i log.length j = stamp j := by
    intro j queued
    refine Function.update_of_ne ?_ _ _
    rintro rfl
    exact fresh queued
  have ordered := h.ordered.imp_of_mem (S := fun a b =>
      rank key (Function.update stamp i log.length) a < rank key (Function.update stamp i log.length) b) (by
    intro a b ha hb lt
    rwa [rank, rank, kept a ha, kept b hb])
  rw [List.pairwise_append] at ordered
  refine ⟨?_, ?_, ?_, h.fair.concat ?_⟩
  · rw [List.pairwise_append, List.pairwise_cons]
    refine ⟨ordered.1, ⟨?_, ordered.2.1⟩, ?_⟩
    · intro y above
      exact rank_lt_of_key_lt (high y above)
    · intro x below b inside
      rcases List.mem_cons.mp inside with rfl | above
      · refine Prod.Lex.toLex_lt_toLex.mpr ?_
        rcases lt_or_eq_of_le (low x below) with lt | same
        · exact Or.inl lt
        · refine Or.inr ⟨same, ?_⟩
          rw [kept x (List.mem_append_left _ below), Function.update_self]
          exact h.stamps x (List.mem_append_left _ below)
      · exact ordered.2.2 x below b above
  · intro j queued
    rw [List.length_append, List.length_singleton]
    by_cases self : j = i
    · rw [self, Function.update_self]
      omega
    · have old : j ∈ xs ++ ys := by
        simp only [List.mem_append, List.mem_cons, self, false_or] at queued ⊢
        exact queued
      have := h.stamps j old
      rw [kept j old]
      omega
  · intro p j k found
    rcases getElem?_append_singleton found with old | ⟨rfl, new⟩
    · rcases h.pending old with ⟨m, after, left⟩ | ⟨queued, stamped, keyed⟩
      · exact Or.inl ⟨m, after, getElem?_append_old left _⟩
      · refine Or.inr ⟨?_, (kept j queued).trans stamped, keyed⟩
        simp only [List.mem_append, List.mem_cons] at queued ⊢
        tauto
    · cases new
      exact Or.inr ⟨by simp, Function.update_self _ _ _, rfl⟩
  · intro p q a b k leaving
    cases leaving

/-- The head leaves. -/
theorem leave (h : Served log (i :: rest) key stamp) : Served (log ++ [.leave i]) rest key stamp := by
  have ordered := List.pairwise_cons.mp h.ordered
  refine ⟨ordered.2, ?_, ?_, h.fair.concat ?_⟩
  · intro j queued
    have := h.stamps j (List.mem_cons_of_mem i queued)
    rw [List.length_append]
    omega
  · intro p j k found
    rcases getElem?_append_singleton found with old | ⟨_, absurd⟩
    · rcases h.pending old with ⟨m, after, left⟩ | ⟨queued, stamped, keyed⟩
      · exact Or.inl ⟨m, after, getElem?_append_old left _⟩
      · rcases List.mem_cons.mp queued with rfl | inRest
        · refine Or.inl ⟨log.length, ?_, List.getElem?_concat_length⟩
          exact (List.getElem?_eq_some_iff.mp old).1
        · exact Or.inr ⟨inRest, stamped, keyed⟩
    · cases absurd
  · intro p q a b k leaving pq _ atP atQ stays
    cases leaving
    rcases h.pending atP with left | ⟨queuedA, stampA, keyA⟩
    · exact left
    · rcases h.pending atQ with ⟨m, after, left⟩ | ⟨_, stampB, keyB⟩
      · exact absurd left (stays m after)
      · rcases List.mem_cons.mp queuedA with rfl | inRest
        · omega
        · have := stamp_lt_of_rank_lt (ordered.1 a inRest) (keyB.trans keyA.symm)
          omega

end Served

end StableQueue
