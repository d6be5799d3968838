import Bracelet.VhmallocSlots

/-!
# New slabs

`allocateSlab` adds a slab of free slots to a pool (`NewSlab`) or runs out of the page
map; that the map is large enough is up to the addresses that `mmap` returns.
-/
namespace Bracelet.Vhmalloc

open LinkedList

variable {ι : Type} [DecidableEq ι] {h h' : Heap ι} {p : ι}

/-- The memory with a slab that is on no list. -/
def newSlab (h : Heap ι) (p : ι) (capacity region : Nat)
    (slabMap : Nat → Option (Nat → Option SlabId)) : Heap ι where
  pools := Function.update h.pools p { h.pools p with free := (h.pools p).free + capacity }
  slab := Function.update h.slab h.slabs { h.slab h.slabs with
    pool := p
    capacity := capacity
    free := capacity
    objects := region
    ids := List.replicate capacity 0 }
  slabs := h.slabs + 1
  slabMap := slabMap

omit [DecidableEq ι] in
/-- A slab was added. -/
structure NewSlab (h h' : Heap ι) (p : ι) (n region : Nat) : Prop where
  slabs : h'.slabs = h.slabs + 1
  element_size : ∀ q, (h'.pools q).element_size = (h.pools q).element_size
  pool : ∀ y, (h'.slab y).pool = if y = h.slabs then p else (h.slab y).pool
  capacity : ∀ y, (h'.slab y).capacity = if y = h.slabs then n else (h.slab y).capacity
  objects : ∀ y, (h'.slab y).objects = if y = h.slabs then region else (h.slab y).objects
  ids : ∀ y, (h'.slab y).ids =
    if y = h.slabs then List.replicate n 0 else (h.slab y).ids
  free : ∀ y, (h'.slab y).free = if y = h.slabs then n else (h.slab y).free

omit [DecidableEq ι] in
theorem NewSlab.bytes_self {capacity region : Nat} (hn : NewSlab h h' p capacity region) :
    h'.bytes h.slabs = capacity * (h.pools p).element_size := by
  rw [Heap.bytes, hn.capacity, hn.pool, hn.element_size, if_pos rfl, if_pos rfl]

omit [DecidableEq ι] in
theorem NewSlab.bytes {capacity region : Nat} (hn : NewSlab h h' p capacity region) {y : SlabId}
    (hy : y < h.slabs) : h'.bytes y = h.bytes y := by
  have hne : y ≠ h.slabs := Nat.ne_of_lt hy
  rw [Heap.bytes, Heap.bytes, hn.capacity, hn.pool, hn.element_size, if_neg hne, if_neg hne]

omit [DecidableEq ι] in
theorem NewSlab.within {capacity region : Nat} (hn : NewSlab h h' p capacity region) {y : SlabId}
    (hy : y < h.slabs) (ptr : Nat) : h'.Within y ptr ↔ h.Within y ptr := by
  rw [Heap.Within, Heap.Within, hn.bytes hy, hn.objects, if_neg (Nat.ne_of_lt hy)]

omit [DecidableEq ι] in
theorem NewSlab.within_self {capacity region : Nat} (hn : NewSlab h h' p capacity region)
    (ptr : Nat) : h'.Within h.slabs ptr ↔
      region ≤ ptr ∧ ptr < region + capacity * (h.pools p).element_size := by
  rw [Heap.Within, hn.bytes_self, hn.objects, if_pos rfl]

/-- What a slab in front of both lists of its pool leaves. -/
theorem newSlab_links (h : Heap ι) (p : ι) (capacity region : Nat)
    (m : Nat → Option (Nat → Option SlabId)) :
    ∃ h', addFreeFront (addFull (newSlab h p capacity region m) p h.slabs) p h.slabs = h' ∧
      NewSlab h h' p capacity region ∧ h'.slabMap = m ∧ (∀ q, q ≠ p → h'.pools q = h.pools q) ∧
      (h'.pools p = ⟨(h.pools p).element_size, (h.pools p).free + capacity, some h.slabs,
        if (h.pools p).free_head = none then some h.slabs else (h.pools p).free_tail,
        some h.slabs⟩) ∧
      ∀ y, (h'.slab y).next = (if y = h.slabs then (h.pools p).full_head else (h.slab y).next) ∧
        (h'.slab y).prev = (if some y = (h.pools p).full_head then some h.slabs
          else if y = h.slabs then none else (h.slab y).prev) ∧
        (h'.slab y).free_next =
          (if y = h.slabs then (h.pools p).free_head else (h.slab y).free_next) ∧
        (h'.slab y).free_prev = if some y = (h.pools p).free_head then some h.slabs
          else if y = h.slabs then none else (h.slab y).free_prev := by
  have heq := addFreeFront_eq (addFull (newSlab h p capacity region m) p h.slabs) p h.slabs
  have hslab : ∀ y, (newSlab h p capacity region m).slab y = if y = h.slabs then
      { h.slab h.slabs with
        pool := p
        capacity := capacity
        free := capacity
        objects := region
        ids := List.replicate capacity 0 } else h.slab y := fun y =>
    Function.update_apply _ _ _ _
  have hpools : ∀ q, (newSlab h p capacity region m).pools q =
      if q = p then { h.pools p with free := (h.pools p).free + capacity } else h.pools q :=
    fun q => Function.update_apply _ _ _ _
  refine ⟨_, heq, ⟨?_, fun q => ?_, fun y => ?_, fun y => ?_, fun y => ?_, fun y => ?_,
    fun y => ?_⟩, ?_, fun q hq => ?_, ?_, fun y => ⟨?_, ?_, ?_, ?_⟩⟩
  all_goals simp only [addFull_eq, relink_slab, relink_pools, relink_slabs, relink_slabMap, hslab]
  · rfl
  · by_cases hq : q = p <;> simp [hq, hpools]
  · by_cases hy : y = h.slabs <;> simp [hy]
  · by_cases hy : y = h.slabs <;> simp [hy]
  · by_cases hy : y = h.slabs <;> simp [hy]
  · by_cases hy : y = h.slabs <;> simp [hy]
  · by_cases hy : y = h.slabs <;> simp [hy]
  · rfl
  · simp [hpools, hq]
  · simp [hpools]
  · by_cases hy : y = h.slabs <;> simp [hy, hpools]
  · by_cases hy : y = h.slabs <;> simp [hy, hpools]
  · by_cases hy : y = h.slabs <;> simp [hy, hpools]
  · by_cases hy : y = h.slabs <;> simp [hy, hpools]

omit [DecidableEq ι] in
/-- Membership in the pools after a slab was added. -/
theorem NewSlab.mem_other {n region : Nat} (hn : NewSlab h h' p n region) {q : ι} (hq : q ≠ p)
    (y : SlabId) : y < h'.slabs ∧ (h'.slab y).pool = q ↔ y < h.slabs ∧ (h.slab y).pool = q := by
  rw [hn.slabs, hn.pool, Nat.lt_succ_iff_lt_or_eq]
  by_cases hy : y = h.slabs
  · simp [hy, hq.symm]
  · simp [hy]

/-- **A slab is added** to a memory: the pools. -/
theorem newSlab_pools (hinv : Inv h) (p : ι) {capacity : Nat} (hpos : 0 < capacity)
    (region : Nat) (m : Nat → Option (Nat → Option SlabId)) :
    ∃ h', addFreeFront (addFull (newSlab h p capacity region m) p h.slabs) p h.slabs = h' ∧
      NewSlab h h' p capacity region ∧ h'.slabMap = m ∧
      (h'.pools p).free = (h.pools p).free + capacity ∧ ∀ q, ∃ full, PoolInv h' q full := by
  obtain ⟨h', heq, hn, hmap, hothers, hself, hlinks⟩ :=
    newSlab_links h p capacity region m
  refine ⟨h', heq, hn, hmap, by rw [hself], fun q => ?_⟩
  obtain ⟨full, hp⟩ := hinv.pools q
  by_cases hq : q = p
  · subst hq
    refine ⟨h.slabs :: full, hp.addSlab rfl hn.slabs hn.pool (fun y hy => ?_) ?_
      (fun y => (hlinks y).1) (fun y => (hlinks y).2.1) (fun y => (hlinks y).2.2.1)
      (fun y => (hlinks y).2.2.2) (by rw [hself]) (by rw [hself]) ?_⟩
    · rw [hn.free, if_neg hy]
    · rwa [hn.free, if_pos rfl]
    · rw [hself, hn.free, if_pos rfl]
  · obtain ⟨own, hown⟩ := hinv.pools p
    have hne : ∀ y ∈ full, y ≠ h.slabs := fun y hy => Nat.ne_of_lt ((hp.mem y).mp hy).1
    have hout : ∀ y ∈ full, y ∉ own := fun y hy hy' =>
      hq (((hp.mem y).mp hy).2.symm.trans ((hown.mem y).mp hy').2)
    refine ⟨full, hp.congr (fun y => by rw [hp.mem, hn.mem_other hq]) (fun y hy => ⟨?_, ?_⟩)
      (fun y hy => ⟨?_, ?_⟩) (fun y hy => ?_) ?_ ?_ ?_⟩
    · rw [(hlinks y).1, if_neg (hne y hy)]
    · have hhead : some y ≠ (h.pools p).full_head := fun heq' => by
        rw [hown.full_head] at heq'
        exact hout y hy (List.mem_of_mem_head? heq'.symm)
      rw [(hlinks y).2.1, if_neg hhead, if_neg (hne y hy)]
    · rw [(hlinks y).2.2.1, if_neg (hne y hy)]
    · have hhead : some y ≠ (h.pools p).free_head := fun heq' => by
        rw [hown.free_head] at heq'
        exact hout y hy (mem_freeOf.mp (List.mem_of_mem_head? heq'.symm)).1
      rw [(hlinks y).2.2.2, if_neg hhead, if_neg (hne y hy)]
    · rw [hn.free, if_neg (hne y hy)]
    · rw [hothers q hq]
    · rw [hothers q hq]
    · rw [hothers q hq]

omit [DecidableEq ι] in
/-- The memory with a slab in a fresh region whose pages the map knows. -/
theorem NewSlab.inv {n region : Nat} (hn : NewSlab h h' p n region) (hinv : Inv h)
    (hsize : ElementSize (h.pools p).element_size)
    (hfresh : Fresh h region (n * (h.pools p).element_size))
    (hwhole : n * (h.pools p).element_size % PAGE = 0)
    (hsmall : n * (h.pools p).element_size < 2 ^ 63)
    (hmap : ∀ ptr, getSlab h' ptr = if region ≤ ptr ∧ ptr < region + n * (h.pools p).element_size
      then some h.slabs else getSlab h ptr)
    (hpools : ∀ q, ∃ full, PoolInv h' q full) : Inv h' where
  slabs y hy := by
    rw [hn.slabs] at hy
    rcases Nat.lt_succ_iff_lt_or_eq.mp hy with hy | hy
    · have hne : y ≠ h.slabs := Nat.ne_of_lt hy
      have hslab := hinv.slabs y hy
      refine ⟨?_, ?_, ?_, ?_, ?_, ?_, ?_, ?_⟩
      · rw [hn.pool, if_neg hne, hn.element_size]
        exact hslab.element_size
      · rw [hn.ids, hn.capacity, if_neg hne, if_neg hne, hslab.ids]
      · rw [hn.free, hn.ids, if_neg hne, if_neg hne, hslab.free]
      · rw [hn.bytes hy, hslab.whole_pages]
      · rw [hn.objects, if_neg hne]
        exact hslab.pos
      · rw [hn.objects, if_neg hne, hslab.aligned]
      · rw [hn.objects, if_neg hne, hn.bytes hy]
        exact hslab.bound
      · rw [hn.bytes hy]
        exact hslab.small
    · subst hy
      refine ⟨?_, ?_, ?_, ?_, ?_, ?_, ?_, ?_⟩
      · rwa [hn.pool, if_pos rfl, hn.element_size]
      · rw [hn.ids, hn.capacity, if_pos rfl, if_pos rfl, List.length_replicate]
      · rw [hn.free, hn.ids, if_pos rfl, if_pos rfl, List.count_replicate_self]
      · rwa [hn.bytes_self]
      · rw [hn.objects, if_pos rfl]
        exact hfresh.pos
      · rw [hn.objects, if_pos rfl, hfresh.aligned]
      · rw [hn.objects, if_pos rfl, hn.bytes_self]
        exact hfresh.bound
      · rwa [hn.bytes_self]
  disjoint y hy y' hy' ptr hptr hptr' := by
    have hnew : ∀ z < h.slabs, h'.Within z ptr → h'.Within h.slabs ptr → False :=
      fun z hz hz' hself => by
        obtain ⟨hle, hlt⟩ := (hn.within_self ptr).mp hself
        exact absurd (hfresh.disjoint z hz ptr ((hn.within hz ptr).mp hz') hle) (not_le.mpr hlt)
    rw [hn.slabs] at hy hy'
    rcases Nat.lt_succ_iff_lt_or_eq.mp hy with hy | rfl <;>
      rcases Nat.lt_succ_iff_lt_or_eq.mp hy' with hy' | rfl
    · exact hinv.disjoint y hy y' hy' ptr ((hn.within hy ptr).mp hptr)
        ((hn.within hy' ptr).mp hptr')
    · exact (hnew y hy hptr hptr').elim
    · exact (hnew y' hy' hptr' hptr).elim
    · rfl
  map ptr y := by
    rw [hmap, hn.slabs, Nat.lt_succ_iff_lt_or_eq]
    split_ifs with hin
    · rw [Option.some_inj]
      constructor
      · rintro rfl
        exact ⟨.inr rfl, (hn.within_self ptr).mpr hin⟩
      · rintro ⟨hy | hy, hptr⟩
        · have hle := hfresh.disjoint y hy ptr ((hn.within hy ptr).mp hptr) hin.1
          exact absurd hin.2 (not_lt.mpr hle)
        · exact hy.symm
    · rw [hinv.map]
      constructor
      · rintro ⟨hy, hptr⟩
        exact ⟨.inl hy, (hn.within hy ptr).mpr hptr⟩
      · rintro ⟨hy | rfl, hptr⟩
        · exact ⟨hy, (hn.within hy ptr).mp hptr⟩
        · exact absurd ((hn.within_self ptr).mp hptr) hin
  pools := hpools

theorem allocateSlab_eq (h : Heap ι) (p : ι) (region : Nat) :
    allocateSlab h p (2 * overprovision) region = (do
      let h₁ ← (List.range (numPages ((h.pools p).element_size * (2 * overprovision)))).foldlM
        (fun h' i => markSlab h' (region + i * PAGE) h.slabs)
        (newSlab h p (slabBytes (h.pools p).element_size (2 * overprovision) /
          (h.pools p).element_size) region h.slabMap)
      return addFreeFront (addFull h₁ p h.slabs) p h.slabs) := rfl

/-- **A slab is allocated**, or the page map is too small for it. -/
theorem allocateSlab_spec (hinv : Inv h) (hsize : ElementSize (h.pools p).element_size)
    {region : Nat} (hfresh : Fresh h region
      (slabBytes (h.pools p).element_size (2 * overprovision))) :
    (∃ h' n, allocateSlab h p (2 * overprovision) region = .ok h' ∧ NewSlab h h' p n region ∧
      Inv h' ∧ 0 < n ∧ (h'.pools p).free = (h.pools p).free + n ∧
      region + slabBytes (h.pools p).element_size (2 * overprovision) ≤ 2 ^ 47) ∨
    (2 ^ 47 < region + slabBytes (h.pools p).element_size (2 * overprovision) ∧
      allocateSlab h p (2 * overprovision) region = .error .outOfBounds) := by
  obtain ⟨hbytes, hle, hsmall⟩ := hsize.slabBytes
  have hpos : 0 < slabBytes (h.pools p).element_size (2 * overprovision) /
      (h.pools p).element_size := Nat.div_pos hle hsize.pos
  have hpages : numPages ((h.pools p).element_size * (2 * overprovision)) * PAGE =
      slabBytes (h.pools p).element_size (2 * overprovision) := rfl
  rw [allocateSlab_eq]
  generalize slabBytes (h.pools p).element_size (2 * overprovision) = size at *
  rcases markSlabs_spec (newSlab h p (size / (h.pools p).element_size) region h.slabMap)
    hfresh.aligned h.slabs (numPages ((h.pools p).element_size * (2 * overprovision)))
    with ⟨m, hrun, hbound, hmap⟩ | ⟨hbound, hrun⟩
  · obtain ⟨h', heq, hn, hm, hfree, hpools⟩ := newSlab_pools hinv p hpos region m
    have hpages_pos : numPages ((h.pools p).element_size * (2 * overprovision)) ≠ 0 := by
      intro hzero
      rw [hzero, Nat.zero_mul] at hpages
      exact absurd hle (by rw [← hpages]; exact not_le.mpr hsize.pos)
    have hwhole : size % PAGE = 0 := by rw [← hpages, Nat.mul_mod_left]
    have hmap' : ∀ ptr, getSlab h' ptr =
        if region ≤ ptr ∧ ptr < region + size then some h.slabs else getSlab h ptr := fun ptr => by
      rw [getSlab_congr (h := { newSlab h p (size / (h.pools p).element_size) region h.slabMap with
        slabMap := m }) hm, hmap, hpages]
      rfl
    rw [← hbytes] at hfresh hwhole hsmall hmap'
    have hinv' := hn.inv hinv hsize hfresh hwhole hsmall hmap' hpools
    refine .inl ⟨h', _, ?_, hn, hinv', hpos, hfree, hpages ▸ hbound.resolve_left hpages_pos⟩
    rw [hrun]
    exact congrArg Except.ok heq
  · rw [hpages] at hbound
    exact .inr ⟨hbound, by rw [hrun]; rfl⟩

end Bracelet.Vhmalloc
