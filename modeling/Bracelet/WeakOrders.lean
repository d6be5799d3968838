import Mathlib.Tactic

/-!
# Strict weak orders on lists

A comparison is a strict weak order on the elements of a list when it is irreflexive and
transitive there and so is the relation of being incomparable.  Of a comparison with the
first two laws, the third says that elements are compared by how many others lie below
them (`strictWeakOn_iff`).  A sort is only specified for strict weak orders (`Sorts`).
-/
namespace Bracelet.WeakOrder

variable {α : Type} (lt : α → α → Bool) (l : List α)

/-- Neither is less than the other. -/
def Incomparable (x y : α) : Prop := lt x y = false ∧ lt y x = false

structure StrictOn : Prop where
  irrefl : ∀ x ∈ l, lt x x = false
  trans : ∀ x ∈ l, ∀ y ∈ l, ∀ z ∈ l, lt x y = true → lt y z = true → lt x z = true

/-- **A strict weak order** on the elements of a list. -/
structure StrictWeakOn : Prop extends StrictOn lt l where
  incomparable : ∀ x ∈ l, ∀ y ∈ l, ∀ z ∈ l,
    Incomparable lt x y → Incomparable lt y z → Incomparable lt x z

/-- How many elements of the list lie below one. -/
def below (x : α) : Nat := l.countP fun w => lt w x

variable {lt l}

theorem countP_lt {p q : α → Bool} (hpq : ∀ x ∈ l, p x = true → q x = true) {a : α} (ha : a ∈ l)
    (hp : p a = false) (hq : q a = true) : l.countP p < l.countP q := by
  obtain ⟨as, bs, rfl⟩ := List.append_of_mem ha
  have hbefore : as.countP p ≤ as.countP q :=
    List.countP_mono_left fun x hx => hpq x (List.mem_append_left _ hx)
  have hafter : bs.countP p ≤ bs.countP q :=
    List.countP_mono_left fun x hx => hpq x (List.mem_append_right _ (List.mem_cons_of_mem a hx))
  simp only [List.countP_append, List.countP_cons, hp, hq, if_true, Bool.false_eq_true, if_false]
  omega

theorem StrictOn.below_le (h : StrictOn lt l) {x y : α} (hx : x ∈ l) (hy : y ∈ l)
    (hyx : lt y x = true) : below lt l y ≤ below lt l x :=
  List.countP_mono_left fun w hw hwy => h.trans w hw y hy x hx hwy hyx

theorem StrictOn.below_lt (h : StrictOn lt l) {x y : α} (hx : x ∈ l) (hy : y ∈ l)
    (hyx : lt y x = true) : below lt l y < below lt l x :=
  countP_lt (fun w hw hwy => h.trans w hw y hy x hx hwy hyx) hy (h.irrefl y hy) hyx

/-- Incomparable elements have the same below them. -/
theorem StrictWeakOn.below_le (h : StrictWeakOn lt l) {x y : α} (hx : x ∈ l) (hy : y ∈ l)
    (hxy : Incomparable lt x y) : below lt l y ≤ below lt l x := by
  refine List.countP_mono_left fun w hw hwy => ?_
  by_contra hwx
  rw [Bool.not_eq_true] at hwx
  by_cases hxw : lt x w = true
  · have := h.trans x hx w hw y hy hxw hwy
    rw [hxy.1] at this
    cases this
  · rw [Bool.not_eq_true] at hxw
    have := (h.incomparable w hw x hx y hy ⟨hwx, hxw⟩ hxy).1
    rw [hwy] at this
    cases this

/-- **When a strict order is weak**: of two elements, the one with fewer elements below is
the lesser. -/
theorem strictWeakOn_iff (h : StrictOn lt l) : StrictWeakOn lt l ↔
    ∀ x ∈ l, ∀ y ∈ l, below lt l x < below lt l y → lt x y = true := by
  constructor
  · intro hweak x hx y hy hlt
    by_contra hxy
    rw [Bool.not_eq_true] at hxy
    have hle : below lt l y ≤ below lt l x := by
      by_cases hyx : lt y x = true
      · exact h.below_le hx hy hyx
      · exact hweak.below_le hx hy ⟨hxy, by simpa using hyx⟩
    omega
  · intro hlevel
    have hsame : ∀ x ∈ l, ∀ y ∈ l, Incomparable lt x y → below lt l x = below lt l y := by
      intro x hx y hy hxy
      rcases Nat.lt_trichotomy (below lt l x) (below lt l y) with hlt | heq | hlt
      · exact absurd (hlevel x hx y hy hlt) (by simp [hxy.1])
      · exact heq
      · exact absurd (hlevel y hy x hx hlt) (by simp [hxy.2])
    refine ⟨h, fun x hx y hy z hz hxy hyz => ?_⟩
    have hxz : below lt l x = below lt l z := (hsame x hx y hy hxy).trans (hsame y hy z hz hyz)
    refine ⟨?_, ?_⟩
    · by_contra hlt
      have := h.below_lt hz hx (by simpa using hlt)
      omega
    · by_contra hlt
      have := h.below_lt hx hz (by simpa using hlt)
      omega

/-! ## Sorting -/

/-- What is asked of a sort: a permutation in which no later element is less than an
earlier one, if the comparison is a strict weak order on the elements. -/
def Sorts (sort : (α → α → Bool) → List α → List α) : Prop :=
  ∀ lt l, StrictWeakOn lt l →
    (sort lt l).Perm l ∧ (sort lt l).Pairwise fun x y => lt y x = false

/-- A sort. -/
def mergeSorted (lt : α → α → Bool) (l : List α) : List α :=
  (l.attach.mergeSort fun x y => !lt y.1 x.1).map Subtype.val

theorem sorts_mergeSorted : Sorts (mergeSorted (α := α)) := by
  intro lt l h
  refine ⟨?_, ?_⟩
  · have hperm := (List.mergeSort_perm l.attach fun x y => !lt y.1 x.1).map Subtype.val
    rwa [List.attach_map_subtype_val] at hperm
  · have hsorted : (l.attach.mergeSort fun x y => !lt y.1 x.1).Pairwise
        fun x y => (!lt y.1 x.1) = true := by
      refine List.pairwise_mergeSort (fun x y z hxy hyz => ?_) (fun x y => ?_) l.attach
      · simp only [Bool.not_eq_true'] at hxy hyz ⊢
        by_contra hzx
        rw [Bool.not_eq_false] at hzx
        by_cases hxy' : lt x.1 y.1 = true
        · have := h.trans z z.2 x x.2 y y.2 hzx hxy'
          rw [hyz] at this
          cases this
        · by_cases hyz' : lt y.1 z.1 = true
          · have := h.trans y y.2 z z.2 x x.2 hyz' hzx
            rw [hxy] at this
            cases this
          · have hinc := h.incomparable x x.2 y y.2 z z.2 ⟨by simpa using hxy', hxy⟩
              ⟨by simpa using hyz', hyz⟩
            rw [hinc.2] at hzx
            cases hzx
      · simp only [Bool.or_eq_true, Bool.not_eq_true']
        by_contra hboth
        simp only [not_or, Bool.not_eq_false] at hboth
        have := h.trans x x.2 y y.2 x x.2 hboth.2 hboth.1
        rw [h.irrefl x x.2] at this
        cases this
    refine List.pairwise_map.mpr (hsorted.imp fun hxy => ?_)
    simpa using hxy

end Bracelet.WeakOrder
