import Mathlib.Tactic

/-!
# Walks and their weights

Walks in a graph with weighted edges, as the lists of the vertices after the first.  A graph
may also be given by labelled edges, of which several may join two vertices; its label
sequences weigh as much as walks when the labels of two vertices all weigh the same
(`exists_labels_iff`).
-/
namespace Bracelet

variable {V L : Type}

/-- A walk from `x` through the vertices of the list to `y`. -/
def Walk (edge : V → V → Prop) (x : V) : List V → V → Prop
  | [], y => x = y
  | z :: rest, y => edge x z ∧ Walk edge z rest y

/-- The sum of the weights of its edges. -/
def walkWeight (weight : V → V → Nat) (x : V) : List V → Nat
  | [] => 0
  | z :: rest => weight x z + walkWeight weight z rest

/-- A sequence of labelled edges from `x` to `y`. -/
def Labels (source target : L → V) (S : List L) (x : V) : List L → V → Prop
  | [], y => x = y
  | l :: rest, y => l ∈ S ∧ source l = x ∧ Labels source target S (target l) rest y

/-- **Walks weigh what label sequences do**, if each edge has the labels that join its vertices,
all of its weight. -/
theorem exists_labels_iff {source target : L → V} {S : List L} {edge : V → V → Prop}
    {weight : V → V → Nat} {labelWeight : L → Nat}
    (hedge : ∀ u v, edge u v ↔ ∃ l ∈ S, source l = u ∧ target l = v)
    (hweight : ∀ l ∈ S, weight (source l) (target l) = labelWeight l) (x y : V) (w : Nat) :
    (∃ ls, Labels source target S x ls y ∧ (ls.map labelWeight).sum = w) ↔
      ∃ rest, Walk edge x rest y ∧ walkWeight weight x rest = w := by
  constructor
  · rintro ⟨ls, hls, rfl⟩
    induction ls generalizing x with
    | nil => exact ⟨[], hls, rfl⟩
    | cons l ls ih =>
      obtain ⟨hl, rfl, hls⟩ := hls
      obtain ⟨rest, hwalk, hsum⟩ := ih _ hls
      refine ⟨target l :: rest, ⟨(hedge _ _).mpr ⟨l, hl, rfl, rfl⟩, hwalk⟩, ?_⟩
      rw [walkWeight, hsum, hweight l hl, List.map_cons, List.sum_cons]
  · rintro ⟨rest, hwalk, rfl⟩
    induction rest generalizing x with
    | nil => exact ⟨[], hwalk, rfl⟩
    | cons z rest ih =>
      obtain ⟨hxz, hwalk⟩ := hwalk
      obtain ⟨l, hl, rfl, rfl⟩ := (hedge _ _).mp hxz
      obtain ⟨ls, hls, hsum⟩ := ih _ hwalk
      refine ⟨l :: ls, ⟨hl, rfl, hls⟩, ?_⟩
      rw [List.map_cons, List.sum_cons, hsum, walkWeight, hweight l hl]

end Bracelet
