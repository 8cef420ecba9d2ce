import AvaModule.Ds.Spsc.Model
import AvaModule.Lib.Counter

/-! What the stale counters of both sides mean at every point of their loops.
Positions in the byte stream are natural numbers; `W` bytes are accepted and the
reader may read from `R` on. Cells of `[R, W)` hold the stream, and the cells the
writer fills lie above `W` and less than one ring above `R`. -/
namespace AvaModule.SpscRing
open Counter

variable {T : Target} {s t : St T} {R E : Nat}

/-- The reads are contiguous runs of the stream in increasing order; `E` is the
position after the last of them. -/
inductive Delivered (stream : List Byte) : Nat → List (List Byte) → Prop where
  | nil : Delivered stream 0 []
  | next (o : Nat) : Delivered stream e reads → e ≤ o → o + got.length ≤ stream.length →
      got = (stream.drop o).take got.length → Delivered stream (o + got.length) (reads ++ [got])

theorem Delivered.le (h : Delivered stream e reads) : e ≤ stream.length := by
  cases h with
  | nil => omega
  | next => assumption

theorem Delivered.append (h : Delivered stream e reads) (more : List Byte) :
    Delivered (stream ++ more) e reads := by
  induction h with
  | nil => exact .nil
  | next o _ after inside same ih =>
    refine .next o ih after (by simp only [List.length_append]; omega) ?_
    rw [List.drop_append_of_le_length (by omega), List.take_append_of_le_length]
    · exact same
    · rw [List.length_drop]
      omega

/-- The copy of the writer: its bytes fit above the unread ones, and the first
`i` of them are in place. -/
structure Filling (q : Spsc T) (accepted src : List Byte) (R : Nat) (wp size : Usz T) (i : Nat) :
    Prop where
  at_wp : wp = q.wp
  within : size.toNat ≤ src.length
  upto : i ≤ size.toNat
  space : accepted.length + size.toNat ≤ R + q.cap.toNat
  filled : ∀ j < i, q.buf ((accepted.length + j) % q.cap.toNat) = src.getD j 0

/-- The drop an `overwrite` call has computed from a position the reader has
reached or passed since. -/
structure Dropping (q : Spsc T) (accepted src : List Byte) (R : Nat) (wp size drop : Usz T) : Prop where
  at_wp : wp = q.wp
  policy : q.ePolicy = .overwrite
  whole : size.toNat = src.length
  amount : ∃ R₀ ≤ R, accepted.length + size.toNat = R₀ + q.cap.toNat + drop.toNat

def WriterInv (s : St T) (R : Nat) : Prop :=
  match s.writer with
  | .idle => True
  | .loadRp src wp => wp = s.wp ∧ src.length < T.modulus
  | .fetchAdd src wp size drop => Dropping s.toSpsc s.accepted src R wp size drop
  | .copy src wp size i => Filling s.toSpsc s.accepted src R wp size i

/-- The copy of the reader from position `R₀`: nothing it has still to copy is
below `R`. -/
structure Draining (q : Spsc T) (accepted : List Byte) (R E R₀ : Nat) (rp size : Usz T)
    (got : List Byte) : Prop where
  at_rp : rp = word _ R₀
  after : E ≤ R₀
  behind : R₀ ≤ R
  ahead : R ≤ R₀ + got.length
  upto : got.length ≤ size.toNat
  within : R₀ + size.toNat ≤ accepted.length
  ring : size.toNat ≤ q.cap.toNat
  same : got = (accepted.drop R₀).take got.length
  exact : q.ePolicy ≠ .overwrite → R₀ = R

def ReaderInv (s : St T) (R E : Nat) : Prop :=
  match s.reader with
  | .idle => True
  | .loadWp size rp => size ≠ 0 → rp = s.rp
  | .copy rp size got => ∃ R₀, Draining s.toSpsc s.accepted R E R₀ rp size got

structure Inv (s : St T) (R E : Nat) : Prop where
  pow : ∃ k, s.cap.toNat = 2 ^ k
  at_wp : s.wp = word _ s.accepted.length
  at_rp : s.rp = word _ R
  behind : R ≤ s.accepted.length
  space : s.accepted.length ≤ R + s.cap.toNat
  live : ∀ j, R ≤ j → j < s.accepted.length → s.accepted[j]? = some (s.buf (j % s.cap.toNat))
  writer : WriterInv s R
  reader : ReaderInv s R E
  delivered : Delivered s.accepted E s.returned
  ends : E ≤ R
  exact : s.ePolicy ≠ .overwrite → s.returned.flatten = s.accepted.take R

/-- An `overwrite` call may drop only bytes that are unread now, and none that a
read under way has still to copy. -/
def DropSafe (s : St T) (drop : Usz T) : Prop :=
  drop ≤ s.wp - s.rp ∧
    match s.reader with
    | .idle => True
    | .loadWp size _ => size = 0
    | .copy rp _ got => (s.rp - rp).toNat + drop.toNat ≤ got.length

def ActOk (act : Act T) (s : St T) : Prop :=
  s.ePolicy = .overwrite →
    match act, s.writer with
    | .write src, _ => src.length ≤ s.cap.toNat
    | .writer, .fetchAdd _ _ _ drop => DropSafe s drop
    | _, _ => True

namespace Inv

theorem cap_lt (inv : Inv s R E) : 2 * s.cap.toNat ≤ T.modulus := by
  obtain ⟨k, pow⟩ := inv.pow
  have small : 2 ^ k < 2 ^ T.bits := pow ▸ s.cap.isLt
  have narrow := (Nat.pow_lt_pow_iff_right (a := 2) (by decide)).mp small
  rw [pow, Target.modulus, ← Nat.pow_succ']
  exact Nat.pow_le_pow_right (by decide) narrow

theorem cap_pos (inv : Inv s R E) : 0 < s.cap.toNat := by
  obtain ⟨k, pow⟩ := inv.pow
  rw [pow]
  exact Nat.two_pow_pos k

theorem avail (inv : Inv s R E) : (s.wp - s.rp).toNat = s.accepted.length - R := by
  have := inv.cap_lt
  have := inv.cap_pos
  have := inv.space
  rw [inv.at_wp, inv.at_rp]
  exact toNat_word_sub inv.behind (by rw [Target.modulus] at *; omega)

/-- The two pieces of a copy visit the cells of consecutive positions. -/
theorem copyCell_eq (inv : Inv s R E) (n : Nat) {size : Usz T} (within : size.toNat ≤ s.cap.toNat)
    (lt : i < size.toNat) : copyCell s.cap (word _ n) size i = (n + i) % s.cap.toNat := by
  obtain ⟨k, pow⟩ := inv.pow
  have positive := inv.cap_pos
  have mask := toNat_word_mask pow n
  have bound := Nat.mod_lt n positive
  have rest : (s.cap - (word _ n &&& (s.cap - 1))).toNat = s.cap.toNat - n % s.cap.toNat := by
    rw [BitVec.toNat_sub_of_le, mask]
    rw [BitVec.le_def, mask]
    exact Nat.le_of_lt bound
  rw [mod_add (Nat.le_of_lt (Nat.lt_of_lt_of_le lt within)) positive]
  simp only [copyCell, mask, BitVec.lt_def, rest]
  by_cases fits : size.toNat < s.cap.toNat - n % s.cap.toNat
  · rw [if_pos fits, if_pos lt, if_pos (by omega)]
  · rw [if_neg fits, rest]

end Inv

end AvaModule.SpscRing
