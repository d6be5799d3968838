import Mathlib.Order.Bounds.Basic

/-!
# Flat orders

An order with a bottom element in which nothing else is below anything but itself.  Two
elements have a join when one of them is the bottom or they are equal, and `merge`
computes it; any set has a join when it has an upper bound (`exists_isLUB_iff`).  So what
is merged into one element after another is the join of it all, in whatever order.
-/
namespace Bracelet

/-- Nothing is below an element but the bottom and itself. -/
class FlatOrder (α : Type*) extends PartialOrder α, OrderBot α where
  eq_of_le : ∀ a b : α, a ≤ b → a = ⊥ ∨ a = b

namespace FlatOrder

variable {α : Type*} [FlatOrder α]

theorem le_iff {a b : α} : a ≤ b ↔ a = ⊥ ∨ a = b := by
  refine ⟨eq_of_le a b, ?_⟩
  rintro (rfl | rfl)
  · exact bot_le
  · exact le_rfl

/-- The join of two elements, if they have one. -/
def merge [DecidableEq α] (a b : α) : Option α :=
  if a = ⊥ then some b else if b = ⊥ ∨ a = b then some a else none

/-- An upper bound is the join, or everything is the bottom. -/
theorem isLUB_of_mem {S : Set α} {a : α} (ha : a ∈ S) (hne : a ≠ ⊥) {b : α} (hb : b ∈ upperBounds S) :
    b = a ∧ IsLUB S a := by
  have heq : ∀ c ∈ upperBounds S, c = a := fun c hc =>
    ((eq_of_le a c (hc ha)).resolve_left hne).symm
  refine ⟨heq b hb, heq b hb ▸ hb, fun c hc => (heq c hc).ge⟩

/-- **A set has a join when it is bounded.** -/
theorem exists_isLUB_iff {S : Set α} : (∃ t, IsLUB S t) ↔ BddAbove S := by
  refine ⟨fun ⟨t, ht⟩ => ⟨t, ht.1⟩, fun ⟨b, hb⟩ => ?_⟩
  by_cases h : ∃ a ∈ S, a ≠ ⊥
  · obtain ⟨a, ha, hne⟩ := h
    exact ⟨a, (isLUB_of_mem ha hne hb).2⟩
  · simp only [not_exists, not_and, not_not] at h
    exact ⟨⊥, fun a ha => (h a ha).le, fun c _ => bot_le⟩

/-- A part of what has a join has one. -/
theorem exists_isLUB_mono {S T : Set α} (h : S ⊆ T) (hT : ∃ t, IsLUB T t) : ∃ t, IsLUB S t :=
  exists_isLUB_iff.mpr ((exists_isLUB_iff.mp hT).mono h)

/-- **To join one more element is to merge it.** -/
theorem isLUB_insert_iff [DecidableEq α] {S : Set α} {t a u : α} (ht : IsLUB S t) :
    IsLUB (insert a S) u ↔ merge t a = some u := by
  have hbounds : ∀ c, c ∈ upperBounds (insert a S) ↔ a ≤ c ∧ t ≤ c := by
    intro c
    rw [upperBounds_insert, Set.mem_inter_iff, Set.mem_Ici, ← isLUB_le_iff ht]
  have hiff : IsLUB (insert a S) u ↔ (a ≤ u ∧ t ≤ u) ∧ ∀ c, a ≤ c → t ≤ c → u ≤ c := by
    refine and_congr (hbounds u) ?_
    exact forall_congr' fun c => by rw [hbounds, and_imp]
  rw [hiff, merge]
  split_ifs with hbot heq
  · subst hbot
    rw [Option.some.injEq]
    constructor
    · rintro ⟨⟨hle, -⟩, hleast⟩
      exact hle.antisymm (hleast a le_rfl bot_le)
    · rintro rfl
      exact ⟨⟨le_rfl, bot_le⟩, fun c hc _ => hc⟩
  · have hle : a ≤ t := le_iff.mpr (heq.imp id Eq.symm)
    rw [Option.some.injEq]
    constructor
    · rintro ⟨⟨-, htu⟩, hleast⟩
      exact htu.antisymm (hleast t hle le_rfl)
    · rintro rfl
      exact ⟨⟨hle, le_rfl⟩, fun c _ hc => hc⟩
  · simp only [iff_false]
    rintro ⟨⟨hau, htu⟩, -⟩
    rcases eq_of_le a u hau with rfl | rfl
    · exact heq (.inl rfl)
    · rcases eq_of_le t a htu with rfl | rfl
      · exact hbot rfl
      · exact heq (.inr rfl)

end FlatOrder
end Bracelet
