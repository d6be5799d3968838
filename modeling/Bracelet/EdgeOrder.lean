import Bracelet.EdgeWriter
import Bracelet.WeakOrders

/-!
# The order that edges are sorted by

`FunctionWriter::finish` sorts the edges of a kind by a comparison that asks for a lesser
value in every component.  It is irreflexive and transitive, but edges that differ from
both of two edges in one component only are incomparable to either, whatever the two are
to each other.
-/
namespace Bracelet.Edges

open WeakOrder

/-- The comparison of arrays of so many components. -/
def lessComponents (NUM_COMPONENTS : Nat) (x y : Components) : Bool :=
  if NUM_COMPONENTS = 2 then decide (x.1 < y.1) && decide (x.2.1 < y.2.1)
  else decide (x.1 < y.1) && decide (x.2.1 < y.2.1) && decide (x.2.2 < y.2.2)

theorem strictOn_lessComponents (n : Nat) (l : List Components) :
    StrictOn (lessComponents n) l := by
  unfold lessComponents
  refine ⟨fun x _ => ?_, fun x _ y _ z _ => ?_⟩
  · split <;> simp
  · split
    · simp only [Bool.and_eq_true, decide_eq_true_eq]
      exact fun hxy hyz => ⟨UInt32.lt_trans hxy.1 hyz.1, UInt32.lt_trans hxy.2 hyz.2⟩
    · simp only [Bool.and_eq_true, decide_eq_true_eq]
      exact fun hxy hyz => ⟨⟨UInt32.lt_trans hxy.1.1 hyz.1.1, UInt32.lt_trans hxy.1.2 hyz.1.2⟩,
        UInt32.lt_trans hxy.2 hyz.2⟩

/-- The edges of a list are properly ordered, and so they are when they are sorted. -/
structure SortedProperly (sort : (Components → Components → Bool) → List Components →
    List Components) (n : Nat) (data : List Components) : Prop where
  weak : StrictWeakOn (lessComponents n) data
  perm : (sort (lessComponents n) data).Perm data
  sorted : (sort (lessComponents n) data).Pairwise fun x y => lessComponents n y x = false

/-- Assignments to two locals, one of them twice: from a local and from a symbol. -/
def crossed : List Components := [(4, 3, 0), (2, 3, 0), (2, 0, 0)]

end Bracelet.Edges
