import Mathlib.Data.List.DropRight
import JtagHw.Lib.Mealy

/-!
# A shift register is a window on its stream

A register of `N` cells that pushes at the back what it is fed and pops its
front is, at all times, the last `N` elements of one list: what it was loaded
with, followed by everything it has been fed since. `List.rtake N` names that
window, and the two facts below are all one shift does to it – the window moves
one place (`Fifo.push_rtake`), and what falls out is the element `N` places from
the end (`Fifo.headD_rtake`). Whole runs follow: `m` shifts answer the first `m`
elements of the stream (`Fifo.outputs_shift`) and leave the rest
(`Fifo.final_shift`).
-/

namespace Fifo

variable {α : Type*}

/-- One shift of a register: the front cell leaves, `x` enters at the back. -/
def push (r : List α) (x : α) : List α := r.tail ++ [x]

@[simp] theorem push_cons (a : α) (r : List α) (x : α) : push (a :: r) x = r ++ [x] := rfl

/-- A list as long as the window is its own window. -/
theorem rtake_of_length_eq {N : ℕ} {l : List α} (h : l.length = N) : l.rtake N = l := by
  simp [List.rtake, h]

/-- **The window moves one place.** -/
theorem push_rtake {N : ℕ} {l : List α} (hN : 0 < N) (hl : N ≤ l.length) (x : α) :
    push (l.rtake N) x = (l ++ [x]).rtake N := by
  obtain ⟨n, rfl⟩ := Nat.exists_eq_succ_of_ne_zero (Nat.ne_of_gt hN)
  have htail : (l.rtake (n + 1)).tail = l.rtake n := by
    rw [List.rtake, List.rtake, List.tail_drop]
    congr 1
    omega
  rw [push, htail, List.rtake_concat_succ]

/-- **What falls out of the window** is the element `N` places from the end. -/
theorem headD_rtake {N : ℕ} {l : List α} (d : α) :
    (l.rtake N).headD d = l.getD (l.length - N) d := by
  simp [List.rtake, List.headD_eq_head?_getD, List.head?_drop]

/-! ### Whole runs -/

/-- The shift register as a synchronous machine; `d` is what an empty register
would answer. -/
def shift (d : α) (r : List α) (x : α) : List α × α := (push r x, r.headD d)

/-- **A run leaves the rest of the stream in the register.** -/
theorem final_shift (d : α) :
    ∀ (xs r : List α), 0 < r.length → Mealy.final (shift d) r xs = (r ++ xs).drop xs.length
  | [], r, _ => by simp
  | x :: xs, a :: r, _ => by
    simp only [Mealy.final_cons, shift, push_cons]
    rw [final_shift d xs (r ++ [x]) (by simp)]
    simp

/-- **A run answers the front of the stream.** -/
theorem outputs_shift (d : α) :
    ∀ (xs r : List α), 0 < r.length → Mealy.outputs (shift d) r xs = (r ++ xs).take xs.length
  | [], r, _ => by simp
  | x :: xs, a :: r, _ => by
    simp only [Mealy.outputs_cons, shift, push_cons]
    rw [outputs_shift d xs (r ++ [x]) (by simp)]
    simp

end Fifo
