import Bracelet.VhmallocSlabs

/-!
# Live objects

The allocator's memory stands for a set of live objects (`Heap.live`): the elements of
slabs whose slots hold tags.  They are disjoint, a write to a slot changes one of them
(`Wrote.mem_live`), and a pointer is in one of them if and only if its slot holds a tag.
-/
namespace Bracelet.Vhmalloc

/-- A live object. -/
structure Obj where
  base : Nat
  size : Nat
  tag : UInt64
  deriving DecidableEq

def Obj.Contains (o : Obj) (ptr : Nat) : Prop := o.base ≤ ptr ∧ ptr < o.base + o.size

instance (o : Obj) (ptr : Nat) : Decidable (o.Contains ptr) := by
  unfold Obj.Contains
  infer_instance

variable {ι : Type} {h h' : Heap ι} {p : ι}

namespace Heap

/-- The element of a slot, with a tag. -/
def slot (h : Heap ι) (s : SlabId) (i : Nat) (tag : UInt64) : Obj where
  base := (h.slab s).objects + i * (h.pools (h.slab s).pool).element_size
  size := (h.pools (h.slab s).pool).element_size
  tag := tag

/-- **The live objects.** -/
def live (h : Heap ι) : Set Obj :=
  {o | ∃ s < h.slabs, ∃ i tag, (h.slab s).ids[i]? = some tag ∧ tag ≠ 0 ∧ o = h.slot s i tag}

end Heap

/-- What a slot contains. -/
theorem SlabInv.slot_contains {s : SlabId} (hs : SlabInv h s) {i : Nat}
    (hi : i < (h.slab s).capacity) (tag : UInt64) (ptr : Nat) :
    (h.slot s i tag).Contains ptr ↔ h.Within s ptr ∧
      (ptr - (h.slab s).objects) / (h.pools (h.slab s).pool).element_size = i := by
  have hpos := hs.element_size.pos
  unfold Obj.Contains Heap.slot Heap.Within Heap.bytes
  rw [Nat.div_eq_iff hpos]
  have hend : (i + 1) * (h.pools (h.slab s).pool).element_size ≤
      (h.slab s).capacity * (h.pools (h.slab s).pool).element_size :=
    Nat.mul_le_mul_right _ hi
  rw [Nat.add_mul, Nat.one_mul] at hend
  dsimp only
  omega

/-- Two slots with an address in common are one. -/
theorem Inv.slot_unique (hinv : Inv h) {s s' : SlabId} (hs : s < h.slabs) (hs' : s' < h.slabs)
    {i i' : Nat} (hi : i < (h.slab s).capacity) (hi' : i' < (h.slab s').capacity) {tag tag' : UInt64}
    {ptr : Nat} (hptr : (h.slot s i tag).Contains ptr) (hptr' : (h.slot s' i' tag').Contains ptr) :
    s = s' ∧ i = i' := by
  obtain ⟨hwithin, hindex⟩ := ((hinv.slabs s hs).slot_contains hi tag ptr).mp hptr
  obtain ⟨hwithin', hindex'⟩ := ((hinv.slabs s' hs').slot_contains hi' tag' ptr).mp hptr'
  obtain rfl := hinv.disjoint s hs s' hs' ptr hwithin hwithin'
  exact ⟨rfl, hindex.symm.trans hindex'⟩

theorem SlabInv.lt_capacity {s : SlabId} (hs : SlabInv h s) {i : Nat} {tag : UInt64}
    (hi : (h.slab s).ids[i]? = some tag) : i < (h.slab s).capacity := by
  rw [← hs.ids]
  exact (List.getElem?_eq_some_iff.mp hi).1

theorem SlabInv.slot_base {s : SlabId} (hs : SlabInv h s) (i : Nat) (tag : UInt64) :
    (h.slot s i tag).Contains (h.slot s i tag).base :=
  ⟨le_rfl, Nat.lt_add_of_pos_right hs.element_size.pos⟩

/-- **Live objects are disjoint.** -/
theorem Inv.live_disjoint (hinv : Inv h) {o o' : Obj} (ho : o ∈ h.live) (ho' : o' ∈ h.live)
    {ptr : Nat} (hptr : o.Contains ptr) (hptr' : o'.Contains ptr) : o = o' := by
  obtain ⟨s, hs, i, tag, hi, -, rfl⟩ := ho
  obtain ⟨s', hs', i', tag', hi', -, rfl⟩ := ho'
  obtain ⟨rfl, rfl⟩ := hinv.slot_unique hs hs' ((hinv.slabs s hs).lt_capacity hi)
    ((hinv.slabs s' hs').lt_capacity hi') hptr hptr'
  rw [Option.some_inj.mp (hi.symm.trans hi')]

theorem Inv.live_pos (hinv : Inv h) {o : Obj} (ho : o ∈ h.live) : 0 < o.base := by
  obtain ⟨s, hs, i, tag, -, -, rfl⟩ := ho
  exact Nat.lt_add_right _ (hinv.slabs s hs).pos

/-- **A write to a slot** changes the object of the slot. -/
theorem Wrote.mem_live {s : SlabId} {i : Nat} {tag : UInt64} (hw : Wrote h h' s i tag)
    (hinv : Inv h) (hs : s < h.slabs) (hi : i < (h.slab s).capacity) (o : Obj) :
    o ∈ h'.live ↔ tag ≠ 0 ∧ o = h.slot s i tag ∨
      o ∈ h.live ∧ ¬ o.Contains (h.slot s i tag).base := by
  have hslot : ∀ y j t, h'.slot y j t = h.slot y j t := fun y j t => by
    rw [Heap.slot, Heap.slot, hw.objects, hw.pool, hw.element_size]
  have hlt : i < (h.slab s).ids.length := by rwa [(hinv.slabs s hs).ids]
  constructor
  · rintro ⟨y, hy, j, t, hj, ht, rfl⟩
    rw [hw.slabs] at hy
    rw [hslot]
    rw [hw.ids] at hj
    by_cases hsame : y = s ∧ j = i
    · obtain ⟨rfl, rfl⟩ := hsame
      rw [if_pos rfl, List.getElem?_set_self hlt, Option.some_inj] at hj
      subst hj
      exact .inl ⟨ht, rfl⟩
    · have hj' : (h.slab y).ids[j]? = some t := by
        split_ifs at hj with hys
        · subst hys
          rwa [List.getElem?_set_ne fun heq => hsame ⟨rfl, heq.symm⟩] at hj
        · exact hj
      refine .inr ⟨⟨y, hy, j, t, hj', ht, rfl⟩, fun hcontains => hsame ?_⟩
      exact hinv.slot_unique hy hs ((hinv.slabs y hy).lt_capacity hj') hi hcontains
        ((hinv.slabs s hs).slot_base i tag)
  · rintro (⟨htag, rfl⟩ | ⟨⟨y, hy, j, t, hj, ht, rfl⟩, hout⟩)
    · refine ⟨s, hw.slabs ▸ hs, i, tag, ?_, htag, (hslot s i tag).symm⟩
      rw [hw.ids, if_pos rfl, List.getElem?_set_self hlt]
    · refine ⟨y, hw.slabs ▸ hy, j, t, ?_, ht, (hslot y j t).symm⟩
      rw [hw.ids]
      split_ifs with hys
      · subst hys
        have hne : i ≠ j := by
          rintro rfl
          exact hout ((hinv.slabs y hy).slot_base i t)
        rwa [List.getElem?_set_ne hne]
      · exact hj

/-- A new slab has no live object. -/
theorem NewSlab.live {n region : Nat} (hn : NewSlab h h' p n region) : h'.live = h.live := by
  have hslot : ∀ y < h.slabs, ∀ j t, h'.slot y j t = h.slot y j t := fun y hy j t => by
    have hne : y ≠ h.slabs := Nat.ne_of_lt hy
    rw [Heap.slot, Heap.slot, hn.objects, hn.pool, hn.element_size, if_neg hne, if_neg hne]
  ext o
  constructor
  · rintro ⟨y, hy, j, t, hj, ht, rfl⟩
    rw [hn.slabs] at hy
    rw [hn.ids] at hj
    rcases Nat.lt_succ_iff_lt_or_eq.mp hy with hy | rfl
    · rw [if_neg (Nat.ne_of_lt hy)] at hj
      exact ⟨y, hy, j, t, hj, ht, hslot y hy j t⟩
    · rw [if_pos rfl, List.getElem?_replicate] at hj
      split_ifs at hj
      exact absurd (Option.some_inj.mp hj).symm ht
  · rintro ⟨y, hy, j, t, hj, ht, rfl⟩
    refine ⟨y, hn.slabs ▸ Nat.lt_succ_of_lt hy, j, t, ?_, ht, (hslot y hy j t).symm⟩
    rw [hn.ids, if_neg (Nat.ne_of_lt hy), hj]

/-- The slot of a pointer. -/
theorem Inv.contains_iff (hinv : Inv h) {s : SlabId} (hs : s < h.slabs) {ptr : Nat}
    (hptr : h.Within s ptr) (o : Obj) :
    (o ∈ h.live ∧ o.Contains ptr) ↔ ∃ tag, tag ≠ 0 ∧ (h.slab s).ids[(ptr - (h.slab s).objects) /
      (h.pools (h.slab s).pool).element_size]? = some tag ∧ o = h.slot s
        ((ptr - (h.slab s).objects) / (h.pools (h.slab s).pool).element_size) tag := by
  constructor
  · rintro ⟨⟨y, hy, j, tag, hj, htag, rfl⟩, hcontains⟩
    obtain ⟨hwithin, rfl⟩ :=
      ((hinv.slabs y hy).slot_contains ((hinv.slabs y hy).lt_capacity hj) tag ptr).mp hcontains
    obtain rfl := hinv.disjoint s hs y hy ptr hptr hwithin
    exact ⟨tag, htag, hj, rfl⟩
  · rintro ⟨tag, htag, hj, rfl⟩
    refine ⟨⟨s, hs, _, tag, hj, htag, rfl⟩, ?_⟩
    exact ((hinv.slabs s hs).slot_contains ((hinv.slabs s hs).lt_capacity hj) tag ptr).mpr
      ⟨hptr, rfl⟩

end Bracelet.Vhmalloc
