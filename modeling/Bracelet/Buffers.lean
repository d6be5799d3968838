import Mathlib.Tactic

/-!
# Writes into a buffer

A buffer is a list, and a write replaces a run of its elements.  `getElem?_write` and
`getElem?_window` say what is at each index; how writes compose follows index by index.
-/
namespace Bracelet.Buffer

variable {α : Type*}

/-- The buffer with the elements from `start` on replaced. -/
def write (buf : List α) (start : Nat) (xs : List α) : List α :=
  buf.take start ++ xs ++ buf.drop (start + xs.length)

/-- A run of elements. -/
def window (buf : List α) (start len : Nat) : List α := (buf.drop start).take len

variable {buf xs ys : List α} {start s len : Nat}

theorem getElem?_write (h : start ≤ buf.length) (i : Nat) : (write buf start xs)[i]? =
    if i < start then buf[i]? else if i < start + xs.length then xs[i - start]? else buf[i]? := by
  have htake : (buf.take start).length = start := List.length_take_of_le h
  unfold write
  rw [List.append_assoc, List.getElem?_append, htake, List.getElem?_append]
  split_ifs with hi hxs hxs
  · rw [List.getElem?_take_of_lt hi]
  · rfl
  · omega
  · omega
  · rw [List.getElem?_drop]
    congr 1
    omega

theorem getElem?_window (i : Nat) :
    (window buf start len)[i]? = if i < len then buf[start + i]? else none := by
  unfold window
  rw [List.getElem?_take, List.getElem?_drop]

theorem length_window (h : start + len ≤ buf.length) : (window buf start len).length = len := by
  unfold window
  rw [List.length_take, List.length_drop]
  omega

theorem length_write (h : start + xs.length ≤ buf.length) :
    (write buf start xs).length = buf.length := by
  unfold write
  simp only [List.length_append, List.length_take, List.length_drop]
  omega

/-- What was written. -/
theorem window_write (h : start ≤ buf.length) :
    window (write buf start xs) start xs.length = xs := by
  refine List.ext_getElem? fun i => ?_
  rw [getElem?_window, getElem?_write h]
  split_ifs with hi
  · omega
  · rw [Nat.add_sub_cancel_left]
  · omega
  · rw [List.getElem?_eq_none (not_lt.mp hi)]

/-- Writing beside a window. -/
theorem window_write_of_le (h : s ≤ buf.length) (hle : start + len ≤ s) :
    window (write buf s xs) start len = window buf start len := by
  refine List.ext_getElem? fun i => ?_
  rw [getElem?_window, getElem?_window, getElem?_write h]
  split_ifs <;> first | rfl | omega

/-- A write over all of an earlier one. -/
theorem write_write_cover (hbuf : start + ys.length ≤ buf.length) (hle : start ≤ s)
    (hcover : s + xs.length ≤ start + ys.length) :
    write (write buf s xs) start ys = write buf start ys := by
  have hlength : (write buf s xs).length = buf.length := length_write (by omega)
  refine List.ext_getElem? fun i => ?_
  rw [getElem?_write (by omega), getElem?_write (by omega), getElem?_write (by omega)]
  split_ifs <;> first | rfl | omega

/-- A write after another. -/
theorem write_append (h : start + xs.length + ys.length ≤ buf.length) :
    write (write buf start xs) (start + xs.length) ys = write buf start (xs ++ ys) := by
  have hlength : (write buf start xs).length = buf.length := length_write (by omega)
  refine List.ext_getElem? fun i => ?_
  rw [getElem?_write (by omega), getElem?_write (by omega), getElem?_write (by omega),
    List.length_append, List.getElem?_append]
  split_ifs <;> first | rfl | omega | (congr 1; omega)

theorem window_window {k o : Nat} (h : o + k ≤ len) :
    window (window buf start len) o k = window buf (start + o) k := by
  refine List.ext_getElem? fun i => ?_
  rw [getElem?_window, getElem?_window, getElem?_window]
  split_ifs <;> first | rfl | omega | rw [Nat.add_assoc]

/-- A write inside of a window replaces the window. -/
theorem write_window (hbuf : start + len ≤ buf.length) (hle : start ≤ s)
    (hcover : s + xs.length ≤ start + len) :
    write buf start (window (write buf s xs) start len) = write buf s xs := by
  have hlength : (write buf s xs).length = buf.length := length_write (by omega)
  refine List.ext_getElem? fun i => ?_
  rw [getElem?_write (by omega), length_window (by omega), getElem?_window]
  split_ifs
  · rw [getElem?_write (by omega), if_pos (by omega)]
  · rw [Nat.add_sub_cancel' (by omega)]
  · omega
  · rw [getElem?_write (by omega), if_neg (by omega), if_neg (by omega)]

theorem write_nil (h : start ≤ buf.length) : write buf start [] = buf := by
  refine List.ext_getElem? fun i => ?_
  rw [getElem?_write h]
  split_ifs <;> first | rfl | (simp only [List.length_nil] at *; omega)

end Bracelet.Buffer
