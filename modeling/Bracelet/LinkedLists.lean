import Mathlib.Tactic

/-!
# Doubly linked lists

A doubly linked list is given by the two links of each node.  `Segment` says that nodes
are linked in the order of a list, between a node before them and a node after them;
`Linked` is the whole of a list that ends in null both ways.  The edits (`push_front`,
`insert_after`, `unlink`) ask only for the links that they change, whatever order they
are written in.
-/
namespace Bracelet.LinkedList

variable {α : Type}

/-- The nodes, linked in this order, between `before` and `after`. -/
def Segment (next prev : α → Option α) (after : Option α) : Option α → List α → Prop
  | _, [] => True
  | before, x :: xs =>
    prev x = before ∧ next x = xs.head?.or after ∧ Segment next prev after (some x) xs

/-- The nodes of a list, in order. -/
def Linked (next prev : α → Option α) (xs : List α) : Prop := Segment next prev none none xs

variable {next prev next' prev' : α → Option α} {before after : Option α}

theorem segment_append {xs ys : List α} : Segment next prev after before (xs ++ ys) ↔
    Segment next prev (ys.head?.or after) before xs ∧
      Segment next prev after (xs.getLast?.or before) ys := by
  induction xs generalizing before with
  | nil => simp [Segment]
  | cons x xs ih =>
    rw [List.cons_append, Segment, Segment, ih]
    cases xs with
    | nil => simp [and_assoc]
    | cons x' xs => simp [and_assoc, List.getLast?_cons]

theorem Segment.congr {xs : List α} (h : Segment next prev after before xs)
    (hsame : ∀ x ∈ xs, next' x = next x ∧ prev' x = prev x) :
    Segment next' prev' after before xs := by
  induction xs generalizing before with
  | nil => trivial
  | cons x xs ih =>
    obtain ⟨hprev, hnext, hrest⟩ := h
    obtain ⟨hx, hxs⟩ := List.forall_mem_cons.mp hsame
    exact ⟨hx.2.trans hprev, hx.1.trans hnext, ih hrest hxs⟩

/-- Another node before. -/
theorem Segment.rehead {xs : List α} (h : Segment next prev after before xs)
    {before' : Option α} (hhead : ∀ x ∈ xs.head?, prev' x = before')
    (hnext : ∀ x ∈ xs, next' x = next x) (hprev : ∀ x ∈ xs.tail, prev' x = prev x) :
    Segment next' prev' after before' xs := by
  cases xs with
  | nil => trivial
  | cons x xs =>
    obtain ⟨-, hx, hrest⟩ := h
    refine ⟨hhead x rfl, (hnext x List.mem_cons_self).trans hx, hrest.congr fun y hy => ?_⟩
    exact ⟨hnext y (List.mem_cons_of_mem x hy), hprev y hy⟩

/-- Another node after. -/
theorem Segment.relast {xs : List α} (h : Segment next prev after before xs)
    {after' : Option α} (hlast : ∀ x ∈ xs.getLast?, next' x = after')
    (hprev : ∀ x ∈ xs, prev' x = prev x) (hnext : ∀ x ∈ xs.dropLast, next' x = next x) :
    Segment next' prev' after' before xs := by
  induction xs using List.reverseRecOn with
  | nil => trivial
  | append_singleton xs x _ =>
    rw [segment_append] at h ⊢
    obtain ⟨hxs, hx, -, -⟩ := h
    refine ⟨hxs.congr fun y hy => ?_, ?_, ?_, trivial⟩
    · have hy' : y ∈ xs ++ [x] := List.mem_append_left _ hy
      exact ⟨hnext y (by simpa using hy), hprev y hy'⟩
    · exact (hprev x (by simp)).trans hx
    · simpa using hlast x (by simp)

theorem Segment.next_eq {xs ys : List α} {x : α}
    (h : Segment next prev after before (xs ++ x :: ys)) : next x = ys.head?.or after := by
  obtain ⟨-, -, hx, -⟩ := segment_append.mp h
  exact hx

theorem Segment.prev_eq {xs ys : List α} {x : α}
    (h : Segment next prev after before (xs ++ x :: ys)) : prev x = xs.getLast?.or before := by
  obtain ⟨-, hx, -, -⟩ := segment_append.mp h
  exact hx

theorem Linked.next_eq {xs ys : List α} {x : α} (h : Linked next prev (xs ++ x :: ys)) :
    next x = ys.head? := by
  have hx := Segment.next_eq h
  rwa [Option.or_none] at hx

theorem Linked.prev_eq {xs ys : List α} {x : α} (h : Linked next prev (xs ++ x :: ys)) :
    prev x = xs.getLast? := by
  have hx := Segment.prev_eq h
  rwa [Option.or_none] at hx

theorem Linked.congr {xs : List α} (h : Linked next prev xs)
    (hsame : ∀ x ∈ xs, next' x = next x ∧ prev' x = prev x) : Linked next' prev' xs :=
  Segment.congr h hsame

/-- A node at the front. -/
theorem Linked.push_front {xs : List α} {x : α} (h : Linked next prev xs) (hxs : xs.Nodup)
    (hx : x ∉ xs) (hnext : next' x = xs.head?) (hprev : prev' x = none)
    (hhead : ∀ y ∈ xs.head?, prev' y = some x) (hnext' : ∀ y, y ≠ x → next' y = next y)
    (hprev' : ∀ y, y ≠ x → some y ≠ xs.head? → prev' y = prev y) :
    Linked next' prev' (x :: xs) := by
  have hne : ∀ y ∈ xs, y ≠ x := fun y hy hyx => hx (hyx ▸ hy)
  refine ⟨hprev, by simpa using hnext, Segment.rehead h hhead ?_ ?_⟩
  · exact fun y hy => hnext' y (hne y hy)
  · intro y hy
    refine hprev' y (hne y (List.mem_of_mem_tail hy)) fun hhead => ?_
    cases xs with
    | nil => cases hy
    | cons z xs =>
      obtain rfl : y = z := Option.some.inj hhead
      exact (List.nodup_cons.mp hxs).1 hy

/-- A node after another. -/
theorem Linked.insert_after {xs ys : List α} {cur x : α} (h : Linked next prev (xs ++ cur :: ys))
    (hnodup : (xs ++ cur :: ys).Nodup) (hx : x ∉ xs ++ cur :: ys) (hcur : next' cur = some x)
    (hnext : next' x = ys.head?) (hprev : prev' x = some cur)
    (hhead : ∀ y ∈ ys.head?, prev' y = some x)
    (hnext' : ∀ y, y ≠ x → y ≠ cur → next' y = next y)
    (hprev' : ∀ y, y ≠ x → some y ≠ ys.head? → prev' y = prev y) :
    Linked next' prev' (xs ++ cur :: x :: ys) := by
  obtain ⟨hxs, hcur_prev, -, hys⟩ := segment_append.mp h
  obtain ⟨-, hcurs, hdisjoint⟩ := List.nodup_append.mp hnodup
  obtain ⟨hcur_ys, hys_nodup⟩ := List.nodup_cons.mp hcurs
  have hhead_ne : ∀ y, y ∉ ys → some y ≠ ys.head? := fun y hy heq =>
    hy (List.mem_of_mem_head? heq.symm)
  have hx_cur : cur ≠ x := fun heq => hx (by simp [heq])
  refine segment_append.mpr ⟨Segment.congr hxs fun y hy => ?_, ?_, ?_, hprev, ?_, ?_⟩
  · have hne : y ≠ x := fun heq => hx (List.mem_append_left _ (heq ▸ hy))
    have hne_cur : y ≠ cur := hdisjoint y hy cur List.mem_cons_self
    have hys_y : y ∉ ys := fun hmem => hdisjoint y hy y (List.mem_cons_of_mem cur hmem) rfl
    exact ⟨hnext' y hne hne_cur, hprev' y hne (hhead_ne y hys_y)⟩
  · rw [hprev' cur hx_cur (hhead_ne cur hcur_ys), hcur_prev]
  · simpa using hcur
  · simpa using hnext
  · have hne : ∀ y ∈ ys, y ≠ x := fun y hy heq =>
      hx (List.mem_append_right _ (List.mem_cons_of_mem cur (heq ▸ hy)))
    refine Segment.rehead hys hhead ?_ ?_
    · exact fun y hy => hnext' y (hne y hy) fun heq => hcur_ys (heq ▸ hy)
    · intro y hy
      refine hprev' y (hne y (List.mem_of_mem_tail hy)) fun heq => ?_
      cases ys with
      | nil => cases hy
      | cons z ys =>
        obtain rfl : y = z := Option.some.inj heq
        exact (List.nodup_cons.mp hys_nodup).1 hy

/-- A node less. -/
theorem Linked.unlink {xs ys : List α} {x : α} (h : Linked next prev (xs ++ x :: ys))
    (hnodup : (xs ++ x :: ys).Nodup) (hlast : ∀ y ∈ xs.getLast?, next' y = ys.head?)
    (hhead : ∀ y ∈ ys.head?, prev' y = xs.getLast?)
    (hnext' : ∀ y, some y ≠ xs.getLast? → next' y = next y)
    (hprev' : ∀ y, some y ≠ ys.head? → prev' y = prev y) :
    Linked next' prev' (xs ++ ys) := by
  obtain ⟨hxs, -, -, hys⟩ := segment_append.mp h
  obtain ⟨hxs_nodup, hxys, hdisjoint⟩ := List.nodup_append.mp hnodup
  obtain ⟨-, hys_nodup⟩ := List.nodup_cons.mp hxys
  refine segment_append.mpr ⟨Segment.relast hxs ?_ ?_ ?_, Segment.rehead hys ?_ ?_ ?_⟩
  · intro y hy
    rw [hlast y hy, Option.or_none]
  · intro y hy
    refine hprev' y fun heq => ?_
    exact hdisjoint y hy y (List.mem_cons_of_mem x (List.mem_of_mem_head? heq.symm)) rfl
  · intro y hy
    refine hnext' y fun heq => ?_
    induction xs using List.reverseRecOn with
    | nil => cases hy
    | append_singleton xs z _ =>
      obtain rfl : y = z := by simpa using heq
      rw [List.dropLast_concat] at hy
      exact (List.nodup_append.mp hxs_nodup).2.2 y hy y List.mem_cons_self rfl
  · intro y hy
    rw [hhead y hy, Option.or_none]
  · intro y hy
    refine hnext' y fun heq => ?_
    exact hdisjoint y (List.mem_of_getLast? heq.symm) y (List.mem_cons_of_mem x hy) rfl
  · intro y hy
    refine hprev' y fun heq => ?_
    cases ys with
    | nil => cases hy
    | cons z ys =>
      obtain rfl : y = z := Option.some.inj heq
      exact (List.nodup_cons.mp hys_nodup).1 hy

end Bracelet.LinkedList
