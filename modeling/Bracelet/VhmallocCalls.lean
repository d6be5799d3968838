import Bracelet.VhmallocObjects

/-!
# What the calls do

Each call keeps `Inv`, reaches none of its failure paths, and does to the live objects
what its name says: `allocate` adds one in memory that none is in, `deallocate` removes
the one its pointer is in, `setTag` changes the tag of one, and `PointerInfo.of` reads
the object of an address.
-/
namespace Bracelet.Vhmalloc

open LinkedList

variable {ι : Type} [DecidableEq ι] {h h' : Heap ι} {p : ι}

/-! ## Allocating -/

/-- If the slab is the last of the free list and has one free slot, it is the slot of the
greatest offset. -/
def TakesLast (h : Heap ι) (p : ι) (rand : Nat) (s : SlabId) : Prop :=
  (h.slab s).free_next = none → (h.slab s).free = 1 →
    rand % (h.pools p).free + 1 = (h.pools p).free

omit [DecidableEq ι] in
/-- A free list that has free slots leads to one. -/
theorem searches_spec (hinv : Inv h) (hfree : 0 < (h.pools p).free) (rand : Nat) :
    ∃ offset s offset' i, randomOffset rand (h.pools p).free = .ok offset ∧
      findFree h (h.slabs + 1) offset (h.pools p).free_head = .ok (offset', s) ∧
      findSlot (h.slab s).ids offset' 0 = .ok i ∧ s < h.slabs ∧ (h.slab s).pool = p ∧
      (h.slab s).ids[i]? = some 0 ∧ TakesLast h p rand s := by
  obtain ⟨full, hp⟩ := hinv.pools p
  have hlt : rand % (h.pools p).free < ((freeOf h full).map fun s => (h.slab s).free).sum := by
    rw [sum_freeOf, ← hp.free]
    exact Nat.mod_lt _ hfree
  have hfuel : (freeOf h full).length < h.slabs + 1 :=
    Nat.lt_succ_of_le ((List.length_filter_le _ _).trans hp.length_le)
  obtain ⟨s, hs, offset', hoffset, hwalk, hlast⟩ := findFree_spec hp.free_linked hfuel hlt
  obtain ⟨hs, hpool⟩ := (hp.mem s).mp (mem_freeOf.mp hs).1
  have hslots := hoffset
  rw [(hinv.slabs s hs).free] at hslots
  obtain ⟨i, hslot, hi⟩ := findSlot_spec hslots 0
  rw [Nat.zero_add] at hslot
  refine ⟨_, s, offset', i, if_neg hfree.ne', by rw [hp.free_head, hwalk], hslot, hs, hpool, hi, ?_⟩
  intro hnone hone
  have hsum := hlast hnone
  rw [sum_freeOf, ← hp.free, hone] at hsum
  omega

/-- **What `allocate` does** when there are free slots. -/
theorem allocate_of_free (hinv : Inv h) (hfree : 0 < (h.pools p).free) {tag : UInt64}
    (htag : tag ≠ 0) (rand : Nat) :
    ∃ s i, s < h.slabs ∧ (h.slab s).pool = p ∧ (h.slab s).ids[i]? = some 0 ∧
      TakesLast h p rand s ∧
      (do
        let offset ← randomOffset rand (h.pools p).free
        let (offset, slab) ← findFree h (h.slabs + 1) offset (h.pools p).free_head
        let i ← findSlot (h.slab slab).ids offset 0
        let h := takeSlot h p slab i tag
        let alloc ← getElementPtr h p slab i
        return (alloc, h)) = .ok ((h.slot s i tag).base, takeSlot h p s i tag) := by
  obtain ⟨offset, s, offset', i, hrand, hwalk, hslot, hs, hpool, hi, hlast⟩ :=
    searches_spec hinv hfree rand
  refine ⟨s, i, hs, hpool, hi, hlast, ?_⟩
  have hw := (takeSlot_spec hinv hs hpool hi htag).1
  have hlt := (hinv.slabs s hs).lt_capacity hi
  rw [hrand, ok_bind, hwalk, ok_bind]
  dsimp only
  rw [hslot, ok_bind, getElementPtr, hw.capacity, hw.objects, hw.element_size]
  simp only [hlt, decide_true, assert_true, ok_bind, Heap.slot, hpool]
  rfl

/-- What `allocate` has done, with a slab added or not. -/
structure Allocated (h h' : Heap ι) (p : ι) (o : Obj) : Prop where
  inv : Inv h'
  element_size : ∀ q, (h'.pools q).element_size = (h.pools q).element_size
  size : o.size = (h.pools p).element_size
  /-- The object is inside of a slab. -/
  within : ∃ s < h'.slabs, ∀ ptr, o.Contains ptr → h'.Within s ptr
  /-- No live object has an address in common with it. -/
  disjoint : ∀ o' ∈ h.live, ∀ ptr, o.Contains ptr → ¬ o'.Contains ptr
  live : h'.live = insert o h.live
  pool : ∀ s < h'.slabs, (h'.slab s).pool = p ∨ ∃ s' < h.slabs, (h'.slab s).pool = (h.slab s').pool

/-- **Taking a slot** adds a live object. -/
theorem takeSlot_allocated (hinv : Inv h) {s : SlabId} (hs : s < h.slabs)
    (hpool : (h.slab s).pool = p) {i : Nat} (hi : (h.slab s).ids[i]? = some 0) {tag : UInt64}
    (htag : tag ≠ 0) : Allocated h (takeSlot h p s i tag) p (h.slot s i tag) := by
  obtain ⟨hw, hinv'⟩ := takeSlot_spec hinv hs hpool hi htag
  have hlt := (hinv.slabs s hs).lt_capacity hi
  have hdisjoint : ∀ o' ∈ h.live, ∀ ptr, (h.slot s i tag).Contains ptr → ¬ o'.Contains ptr := by
    rintro o' ⟨s', hs', i', tag', hi', htag', rfl⟩ ptr hptr hptr'
    obtain ⟨rfl, rfl⟩ :=
      hinv.slot_unique hs hs' hlt ((hinv.slabs s' hs').lt_capacity hi') hptr hptr'
    exact htag' (Option.some_inj.mp (hi'.symm.trans hi))
  refine ⟨hinv', hw.element_size, congrArg (fun q => (h.pools q).element_size) hpool,
    ⟨s, hw.slabs ▸ hs, fun ptr hptr => ?_⟩, hdisjoint, ?_, fun y hy => ?_⟩
  · rw [hw.within]
    exact (((hinv.slabs s hs).slot_contains hlt tag ptr).mp hptr).1
  · ext o
    rw [hw.mem_live hinv hs hlt, Set.mem_insert_iff]
    have hbase := (hinv.slabs s hs).slot_base i tag
    constructor
    · rintro (⟨-, rfl⟩ | ⟨ho, -⟩)
      · exact .inl rfl
      · exact .inr ho
    · rintro (rfl | ho)
      · exact .inl ⟨htag, rfl⟩
      · exact .inr ⟨ho, hdisjoint o ho _ hbase⟩
  · rw [hw.slabs] at hy
    exact .inr ⟨y, hy, hw.pool y⟩

theorem allocate_eq (h : Heap ι) (p : ι) (tag : UInt64) (rand region : Nat) :
    allocate h p tag rand region = (do
      assert (tag != 0)
      let h ← if (h.pools p).free ≤ overprovision then allocateSlab h p (2 * overprovision) region
        else .ok h
      let offset ← randomOffset rand (h.pools p).free
      let (offset, slab) ← findFree h (h.slabs + 1) offset (h.pools p).free_head
      let i ← findSlot (h.slab slab).ids offset 0
      let h := takeSlot h p slab i tag
      let alloc ← getElementPtr h p slab i
      return (alloc, h)) := rfl

/-- **`allocate`** returns a new object, or the page map is too small for its slab. -/
theorem allocate_spec (hinv : Inv h) (hsize : ElementSize (h.pools p).element_size)
    {tag : UInt64} (htag : tag ≠ 0) (rand : Nat) {region : Nat}
    (hfresh : (h.pools p).free ≤ overprovision →
      Fresh h region (slabBytes (h.pools p).element_size (2 * overprovision))) :
    (∃ o h', allocate h p tag rand region = .ok (o.base, h') ∧ o.tag = tag ∧
      Allocated h h' p o) ∨
    ((h.pools p).free ≤ overprovision ∧
      2 ^ 47 < region + slabBytes (h.pools p).element_size (2 * overprovision) ∧
      allocate h p tag rand region = .error .outOfBounds) := by
  have hassert : assert (tag != 0) = .ok () := congrArg assert (bne_iff_ne.mpr htag)
  rw [allocate_eq, hassert, ok_bind]
  by_cases hfew : (h.pools p).free ≤ overprovision
  · rw [if_pos hfew]
    rcases allocateSlab_spec hinv hsize (hfresh hfew) with
      ⟨h₁, n, hrun, hn, hinv₁, hpos, hfree, -⟩ | ⟨hbound, hrun⟩
    · have hfree_pos : 0 < (h₁.pools p).free := by omega
      obtain ⟨s, i, hs, hpool, hi, -, hcall⟩ := allocate_of_free hinv₁ hfree_pos htag rand
      have hdone := takeSlot_allocated hinv₁ hs hpool hi htag
      refine .inl ⟨h₁.slot s i tag, takeSlot h₁ p s i tag, by rw [hrun]; exact hcall, rfl,
        hdone.inv, fun q => (hdone.element_size q).trans (hn.element_size q),
        hdone.size.trans (hn.element_size p), hdone.within, ?_, ?_, fun y hy => ?_⟩
      · rw [← hn.live]
        exact hdone.disjoint
      · rw [hdone.live, hn.live]
      · rcases hdone.pool y hy with hy | ⟨y', hy', hpool'⟩
        · exact .inl hy
        · rw [hpool', hn.pool]
          rw [hn.slabs] at hy'
          rcases Nat.lt_succ_iff_lt_or_eq.mp hy' with hy' | rfl
          · rw [if_neg (Nat.ne_of_lt hy')]
            exact .inr ⟨y', hy', rfl⟩
          · exact .inl (if_pos rfl)
    · exact .inr ⟨hfew, hbound, by rw [hrun]; rfl⟩
  · have hfree_pos : 0 < (h.pools p).free := by omega
    obtain ⟨s, i, hs, hpool, hi, -, hcall⟩ := allocate_of_free hinv hfree_pos htag rand
    rw [if_neg hfew]
    exact .inl ⟨h.slot s i tag, takeSlot h p s i tag, hcall, rfl,
      takeSlot_allocated hinv hs hpool hi htag⟩

/-! ## Pointers into live objects -/

omit [DecidableEq ι] in
/-- **The slot of a pointer into a live object.** -/
theorem Inv.slot_of_live (hinv : Inv h) {o : Obj} (ho : o ∈ h.live) {ptr : Nat}
    (hptr : o.Contains ptr) : ∃ s i, getSlab h ptr = some s ∧ s < h.slabs ∧
      (h.slab s).ids[i]? = some o.tag ∧ o.tag ≠ 0 ∧ o = h.slot s i o.tag ∧
      getElementIndex h (h.slab s).pool s ptr = .ok (i, ptr - o.base) := by
  obtain ⟨s, hs, i, tag, hi, htag, rfl⟩ := ho
  obtain ⟨hwithin, rfl⟩ :=
    ((hinv.slabs s hs).slot_contains ((hinv.slabs s hs).lt_capacity hi) tag ptr).mp hptr
  refine ⟨s, _, (hinv.map ptr s).mpr ⟨hs, hwithin⟩, hs, hi, htag, rfl, ?_⟩
  rw [(getElementIndex_spec hinv hs hwithin).1]
  rw [Nat.mod_eq_sub_div_mul, Heap.slot, Nat.sub_sub]

omit [DecidableEq ι] in
/-- Calls that changed one slot. -/
theorem Wrote.live_erase {s : SlabId} {i : Nat} (hw : Wrote h h' s i 0) (hinv : Inv h)
    (hs : s < h.slabs) {tag : UInt64} (hi : (h.slab s).ids[i]? = some tag) (htag : tag ≠ 0) :
    h'.live = h.live \ {h.slot s i tag} := by
  have hslab := hinv.slabs s hs
  ext o
  rw [hw.mem_live hinv hs (hslab.lt_capacity hi), Set.mem_sdiff, Set.mem_singleton_iff]
  constructor
  · rintro (⟨hzero, -⟩ | ⟨ho, hout⟩)
    · exact absurd rfl hzero
    · refine ⟨ho, ?_⟩
      rintro rfl
      exact hout (hslab.slot_base i tag)
  · rintro ⟨ho, hne⟩
    exact .inr ⟨ho, fun hcontains =>
      hne (hinv.live_disjoint ho ⟨s, hs, i, tag, hi, htag, rfl⟩ hcontains (hslab.slot_base i tag))⟩

theorem deallocate_eq {s : SlabId} {ptr i offset : Nat}
    (hindex : getElementIndex h (h.slab s).pool s ptr = .ok (i, offset)) :
    deallocate h s ptr = if (h.slab s).free + 1 = 1
      then makeFree (writeSlot h (h.slab s).pool s i 0 ((h.slab s).free + 1)
        ((h.pools (h.slab s).pool).free + 1)) (h.slab s).pool s
      else .ok (writeSlot h (h.slab s).pool s i 0 ((h.slab s).free + 1)
        ((h.pools (h.slab s).pool).free + 1)) := by
  unfold deallocate
  dsimp only
  rw [hindex, ok_bind]
  simp only [writeSlot, Heap.setPool, Heap.setSlab, Function.update_self]
  rfl

/-- **`deallocate`** frees the live object of its pointer. -/
theorem deallocate_spec (hinv : Inv h) {o : Obj} (ho : o ∈ h.live) {ptr : Nat}
    (hptr : o.Contains ptr) : ∃ s i h', getSlab h ptr = some s ∧ deallocate h s ptr = .ok h' ∧
      Wrote h h' s i 0 ∧ Inv h' ∧ h'.live = h.live \ {o} := by
  obtain ⟨s, i, hmap, hs, hi, htag, hslot, hindex⟩ := hinv.slot_of_live ho hptr
  obtain ⟨h', hrun, hw, hinv'⟩ := freeSlot_spec hinv hs rfl hi htag
  exact ⟨s, i, h', hmap, by rw [deallocate_eq hindex, hrun], hw, hinv',
    hslot ▸ hw.live_erase hinv hs hi htag⟩

/-- **`xxfree`** of a pointer into a live object. -/
theorem xxfree_spec (hinv : Inv h) {o : Obj} (ho : o ∈ h.live) {ptr : Nat}
    (hptr : o.Contains ptr) : ∃ s i h', xxfree h ptr = .ok h' ∧ Wrote h h' s i 0 ∧ Inv h' ∧
      h'.live = h.live \ {o} := by
  obtain ⟨s, i, h', hmap, hrun, hw, hinv', hlive⟩ := deallocate_spec hinv ho hptr
  have hne : ptr ≠ 0 := Nat.ne_of_gt ((hinv.live_pos ho).trans_le hptr.1)
  exact ⟨s, i, h', by rw [xxfree, if_neg hne, hmap]; exact hrun, hw, hinv', hlive⟩

omit [DecidableEq ι] in
theorem Wrote.live_retag {s : SlabId} {i : Nat} {tag : UInt64} (hw : Wrote h h' s i tag)
    (hinv : Inv h) (hs : s < h.slabs) {old : UInt64} (hi : (h.slab s).ids[i]? = some old)
    (hold : old ≠ 0) (htag : tag ≠ 0) :
    h'.live = insert (h.slot s i tag) (h.live \ {h.slot s i old}) := by
  have hslab := hinv.slabs s hs
  ext o
  rw [hw.mem_live hinv hs (hslab.lt_capacity hi), Set.mem_insert_iff, Set.mem_sdiff,
    Set.mem_singleton_iff]
  refine or_congr (and_iff_right htag) (and_congr_right fun ho => not_congr ⟨?_, ?_⟩)
  · exact fun hcontains =>
      hinv.live_disjoint ho ⟨s, hs, i, old, hi, hold, rfl⟩ hcontains (hslab.slot_base i tag)
  · rintro rfl
    exact hslab.slot_base i tag

/-- **`setTag`** tags an object that has no tag, and stops at one that has. -/
theorem setTag_spec (hinv : Inv h) {o : Obj} (ho : o ∈ h.live) {ptr : Nat}
    (hptr : o.Contains ptr) (tag : UInt64) :
    (tag ≠ 0 ∧ o.tag = Tag_max ∧ ∃ s i h', setTag h ptr tag = .ok h' ∧ Wrote h h' s i tag ∧
      Inv h' ∧ h'.live = insert { o with tag := tag } (h.live \ {o})) ∨
    (¬ (tag ≠ 0 ∧ o.tag = Tag_max) ∧ setTag h ptr tag = .error .assertion) := by
  obtain ⟨s, i, hmap, hs, hi, htag, hslot, hindex⟩ := hinv.slot_of_live ho hptr
  have hget : (h.slab s).ids.getD i 0 = o.tag := by
    rw [List.getD_eq_getElem?_getD, hi, Option.getD_some]
  unfold setTag
  rw [hmap]
  dsimp only
  rw [hindex, ok_bind]
  dsimp only
  rw [hget]
  by_cases hzero : tag = 0
  · exact .inr ⟨fun hok => hok.1 hzero, by subst hzero; rfl⟩
  · have hassert : assert (tag != 0) = .ok () := congrArg assert (bne_iff_ne.mpr hzero)
    rw [hassert, ok_bind]
    by_cases hmax : o.tag = Tag_max
    · have hassert' : assert (o.tag == Tag_max) = .ok () := congrArg assert (beq_iff_eq.mpr hmax)
      obtain ⟨hlt, hold⟩ := List.getElem?_eq_some_iff.mp hi
      have hcount : (h.slab s).free = ((h.slab s).ids.set i tag).count 0 := by
        rw [List.count_set hlt, (hinv.slabs s hs).free, hold]
        simp [hzero, htag]
      have hw : Wrote h (writeSlot h (h.slab s).pool s i tag (h.slab s).free
          (h.pools (h.slab s).pool).free) s i tag := wrote_writeSlot ..
      refine .inl ⟨hzero, hmax, s, i, _, ?_, hw, writeSlot_inv hinv hs rfl hcount Iff.rfl rfl, ?_⟩
      · rw [hassert', ok_bind, writeSlot_same]
        rfl
      · rw [hw.live_retag hinv hs hi htag hzero, ← hslot]
        exact congrArg (insert · _) (congrArg (fun o => { o with tag := tag }) hslot).symm
    · have hassert' : assert (o.tag == Tag_max) = .error .assertion :=
        congrArg assert (beq_eq_false_iff_ne.mpr hmax)
      exact .inr ⟨fun hok => hmax hok.2, by rw [hassert']; rfl⟩

omit [DecidableEq ι] in
/-- **`PointerInfo.of`** at an address of a live object. -/
theorem of_live (hinv : Inv h) {o : Obj} (ho : o ∈ h.live) {ptr : Nat} (hptr : o.Contains ptr) :
    PointerInfo.of h ptr = .ok ⟨o.tag, ptr - o.base⟩ := by
  obtain ⟨s, i, hmap, hs, hi, htag, -, hindex⟩ := hinv.slot_of_live ho hptr
  have hget : (h.slab s).ids.getD i 0 = o.tag := by
    rw [List.getD_eq_getElem?_getD, hi, Option.getD_some]
  unfold PointerInfo.of getid
  rw [hmap]
  dsimp only
  rw [hindex, ok_bind]
  dsimp only
  rw [hget, if_neg htag]
  rfl

omit [DecidableEq ι] in
/-- **`PointerInfo.of`** at any other address. -/
theorem of_not_live (hinv : Inv h) {ptr : Nat} (hout : ∀ o ∈ h.live, ¬ o.Contains ptr) :
    PointerInfo.of h ptr = .ok ⟨0, 0⟩ := by
  unfold PointerInfo.of getid
  cases hmap : getSlab h ptr with
  | none => rfl
  | some s =>
    obtain ⟨hs, hwithin⟩ := (hinv.map ptr s).mp hmap
    obtain ⟨hindex, hlt⟩ := getElementIndex_spec hinv hs hwithin
    dsimp only
    rw [hindex, ok_bind]
    dsimp only
    split_ifs with hraw
    · rfl
    · rw [← (hinv.slabs s hs).ids] at hlt
      rw [List.getD_eq_getElem?_getD, List.getElem?_eq_getElem hlt, Option.getD_some] at hraw
      obtain ⟨ho, hcontains⟩ := (hinv.contains_iff hs hwithin _).mpr
        ⟨_, hraw, List.getElem?_eq_getElem hlt, rfl⟩
      exact absurd hcontains (hout _ ho)

end Bracelet.Vhmalloc
