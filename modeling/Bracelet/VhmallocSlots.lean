import Bracelet.VhmallocPools

/-!
# Slots

The searches of `allocate` end at a free slot, an address of a slab has an index, and
a write to one slot (`Wrote`) keeps the memory's invariant as long as the counts and
lists follow it; `takeSlot` does.
-/
namespace Bracelet.Vhmalloc

open LinkedList

variable {ι : Type} {h h' : Heap ι} {p : ι}

/-! ## Slots -/

/-- One slot differs. -/
structure Wrote (h h' : Heap ι) (s : SlabId) (i : Nat) (tag : UInt64) : Prop where
  slabs : h'.slabs = h.slabs
  element_size : ∀ q, (h'.pools q).element_size = (h.pools q).element_size
  pool : ∀ y, (h'.slab y).pool = (h.slab y).pool
  capacity : ∀ y, (h'.slab y).capacity = (h.slab y).capacity
  objects : ∀ y, (h'.slab y).objects = (h.slab y).objects
  ids : ∀ y, (h'.slab y).ids = if y = s then (h.slab s).ids.set i tag else (h.slab y).ids

theorem Wrote.bytes {s i tag} (hw : Wrote h h' s i tag) (y : SlabId) : h'.bytes y = h.bytes y := by
  rw [Heap.bytes, Heap.bytes, hw.capacity, hw.pool, hw.element_size]

theorem Wrote.within {s i tag} (hw : Wrote h h' s i tag) (y : SlabId) (ptr : Nat) :
    h'.Within y ptr ↔ h.Within y ptr := by
  rw [Heap.Within, Heap.Within, hw.bytes, hw.objects]

/-- A slab one of whose slots differs. -/
theorem Wrote.slabInv {s i tag} (hw : Wrote h h' s i tag) (hfree : (h'.slab s).free =
    (h'.slab s).ids.count 0) (hother : ∀ y, y ≠ s → (h'.slab y).free = (h.slab y).free)
    {y : SlabId} (hy : SlabInv h y) : SlabInv h' y where
  element_size := by
    rw [hw.pool, hw.element_size]
    exact hy.element_size
  ids := by
    rw [hw.ids, hw.capacity, ← hy.ids]
    by_cases hys : y = s
    · rw [if_pos hys, List.length_set, hys]
    · rw [if_neg hys]
  free := by
    by_cases hys : y = s
    · rw [hys, hfree]
    · rw [hother y hys, hw.ids, if_neg hys, hy.free]
  whole_pages := by
    rw [hw.bytes]
    exact hy.whole_pages
  pos := by
    rw [hw.objects]
    exact hy.pos
  aligned := by
    rw [hw.objects]
    exact hy.aligned
  bound := by
    rw [hw.objects, hw.bytes]
    exact hy.bound
  small := by
    rw [hw.bytes]
    exact hy.small

/-- The memory one of whose slots differs. -/
theorem Wrote.inv {s i tag} (hw : Wrote h h' s i tag) (hinv : Inv h)
    (hmap : h'.slabMap = h.slabMap) (hfree : (h'.slab s).free = (h'.slab s).ids.count 0)
    (hother : ∀ y, y ≠ s → (h'.slab y).free = (h.slab y).free)
    (hpools : ∀ q full, PoolInv h q full → ∃ full', PoolInv h' q full') : Inv h' where
  slabs y hy := hw.slabInv hfree hother (hinv.slabs y (hw.slabs ▸ hy))
  disjoint y hy y' hy' ptr hptr hptr' := by
    rw [hw.slabs] at hy hy'
    exact hinv.disjoint y hy y' hy' ptr ((hw.within y ptr).mp hptr) ((hw.within y' ptr).mp hptr')
  map ptr y := by
    rw [getSlab_congr hmap, hinv.map, hw.slabs, hw.within]
  pools q := by
    obtain ⟨full, hfull⟩ := hinv.pools q
    exact hpools q full hfull

/-- **The element a pointer is in.** -/
theorem getElementIndex_spec (hinv : Inv h) {s : SlabId} (hs : s < h.slabs) {ptr : Nat}
    (hptr : h.Within s ptr) :
    getElementIndex h (h.slab s).pool s ptr =
      .ok ((ptr - (h.slab s).objects) / (h.pools (h.slab s).pool).element_size,
        (ptr - (h.slab s).objects) % (h.pools (h.slab s).pool).element_size) ∧
    (ptr - (h.slab s).objects) / (h.pools (h.slab s).pool).element_size < (h.slab s).capacity := by
  have hslab := hinv.slabs s hs
  have hsmall := hslab.small
  obtain ⟨hle, hlt⟩ := hptr
  have hdiff : (ptr + 2 ^ 64 - (h.slab s).objects) % 2 ^ 64 = ptr - (h.slab s).objects := by
    have := hslab.bound
    omega
  have hindex : (ptr - (h.slab s).objects) / (h.pools (h.slab s).pool).element_size <
      (h.slab s).capacity := by
    rw [Nat.div_lt_iff_lt_mul hslab.element_size.pos]
    exact Nat.sub_lt_left_of_lt_add hle hlt
  refine ⟨?_, hindex⟩
  have hsigned : ptr - (h.slab s).objects < 2 ^ 63 := by
    unfold Heap.bytes at hlt hsmall
    omega
  unfold getElementIndex
  simp only [hdiff, hsigned, hindex, decide_true, Bool.and_self, assert_true, ok_bind]
  rfl

/-! ## Searching -/

/-- The slab with the free slot of an offset.  The slots of the last slab come last. -/
theorem findFree_spec {free : List SlabId} {fuel offset : Nat}
    (hlinked : Segment (fun s => (h.slab s).free_next) (fun s => (h.slab s).free_prev) none before
      free) (hfuel : free.length < fuel)
    (hoffset : offset < (free.map fun s => (h.slab s).free).sum) :
    ∃ s ∈ free, ∃ offset' < (h.slab s).free,
      findFree h fuel offset free.head? = .ok (offset', s) ∧
      ((h.slab s).free_next = none →
        offset + (h.slab s).free = (free.map fun s => (h.slab s).free).sum + offset') := by
  induction free generalizing fuel offset before with
  | nil => simp at hoffset
  | cons s free ih =>
    obtain ⟨fuel, rfl⟩ := Nat.exists_eq_succ_of_ne_zero (Nat.ne_zero_of_lt hfuel)
    obtain ⟨-, hnext, hrest⟩ := hlinked
    have hnext : (h.slab s).free_next = free.head? := by simpa using hnext
    rw [List.length_cons] at hfuel
    rw [List.map_cons, List.sum_cons] at hoffset ⊢
    rw [List.head?_cons, findFree]
    by_cases hle : (h.slab s).free ≤ offset
    · have hrest_offset : offset - (h.slab s).free < (free.map fun s => (h.slab s).free).sum := by
        omega
      obtain ⟨s', hs', offset', hlt, hrun, hlast⟩ :=
        ih hrest (Nat.lt_of_succ_lt_succ hfuel) hrest_offset
      refine ⟨s', List.mem_cons_of_mem s hs', offset', hlt, by rw [if_pos hle, hnext, hrun], ?_⟩
      intro hnone
      have := hlast hnone
      omega
    · refine ⟨s, List.mem_cons_self, offset, not_le.mp hle, by rw [if_neg hle], fun hnone => ?_⟩
      rw [hnext, List.head?_eq_none_iff] at hnone
      rw [hnone, List.map_nil, List.sum_nil]
      omega

/-- The free slot of an offset. -/
theorem findSlot_spec {ids : List UInt64} {offset : Nat} (hoffset : offset < ids.count 0)
    (start : Nat) : ∃ i, findSlot ids offset start = .ok (start + i) ∧ ids[i]? = some 0 := by
  induction ids generalizing offset start with
  | nil => simp at hoffset
  | cons id ids ih =>
    rw [findSlot]
    by_cases hid : id = 0
    · subst hid
      rw [List.count_cons_self] at hoffset
      rw [if_pos rfl]
      by_cases hzero : offset = 0
      · exact ⟨0, by rw [if_pos hzero]; rfl, rfl⟩
      · have hless : offset - 1 < ids.count 0 := by omega
        obtain ⟨i, hrun, hi⟩ := ih hless (start + 1)
        refine ⟨i + 1, ?_, hi⟩
        rw [if_neg hzero, hrun, Nat.add_right_comm, Nat.add_assoc]
    · rw [List.count_cons_of_ne hid] at hoffset
      obtain ⟨i, hrun, hi⟩ := ih hoffset (start + 1)
      refine ⟨i + 1, ?_, hi⟩
      rw [if_neg hid, hrun, Nat.add_right_comm, Nat.add_assoc]

/-! ## Taking a slot -/

theorem PoolInv.ne_of_pool {q : ι} {full : List SlabId} (hp : PoolInv h q full) {s y : SlabId}
    (hs : (h.slab s).pool ≠ q) (hy : y ∈ full) : y ≠ s := fun heq =>
  hs (heq ▸ ((hp.mem y).mp hy).2)

/-- The neighbours of a slab on the free list are slabs of its pool. -/
theorem PoolInv.neighbours {full : List SlabId} (hp : PoolInv h p full) {s : SlabId} (hs : s ∈ full)
    (hpos : 0 < (h.slab s).free) :
    (h.slab s).free_prev ≠ some s ∧ ∀ y, some y = (h.slab s).free_prev ∨
      some y = (h.slab s).free_next → (h.slab y).pool = p := by
  obtain ⟨xs, ys, hxs⟩ := List.append_of_mem (mem_freeOf.mpr ⟨hs, hpos⟩)
  have hnodup := freeOf_nodup hp
  have hlinked := hp.free_linked
  rw [hxs] at hnodup hlinked
  have hprev : (h.slab s).free_prev = xs.getLast? := hlinked.prev_eq
  have hnext : (h.slab s).free_next = ys.head? := hlinked.next_eq
  obtain ⟨-, -, hdisjoint⟩ := List.nodup_append.mp hnodup
  have hpool : ∀ y ∈ freeOf h full, (h.slab y).pool = p := fun y hy =>
    ((hp.mem y).mp (mem_freeOf.mp hy).1).2
  rw [hxs] at hpool
  rw [hprev, hnext]
  refine ⟨fun heq => ?_, fun y hy => ?_⟩
  · exact hdisjoint s (List.mem_of_getLast? heq) s List.mem_cons_self rfl
  · rcases hy with hy | hy
    · exact hpool y (List.mem_append_left _ (List.mem_of_getLast? hy.symm))
    · exact hpool y (List.mem_append_right _ (List.mem_cons_of_mem s (List.mem_of_mem_head? hy.symm)))

section
variable [DecidableEq ι]

/-- The memory with another tag in a slot and other counts. -/
def writeSlot (h : Heap ι) (p : ι) (s : SlabId) (i : Nat) (tag : UInt64) (free pool_free : Nat) :
    Heap ι :=
  (h.setSlab s { h.slab s with ids := (h.slab s).ids.set i tag, free := free }).setPool p
    { h.pools p with free := pool_free }

theorem writeSlot_slab (s : SlabId) (i : Nat) (tag : UInt64) (free pool_free : Nat) (y : SlabId) :
    (writeSlot h p s i tag free pool_free).slab y =
      if y = s then { h.slab s with ids := (h.slab s).ids.set i tag, free := free }
      else h.slab y := by
  simp [writeSlot, Heap.setPool, Heap.setSlab, Function.update_apply]

theorem writeSlot_pools (s : SlabId) (i : Nat) (tag : UInt64) (free pool_free : Nat) (q : ι) :
    (writeSlot h p s i tag free pool_free).pools q =
      if q = p then { h.pools p with free := pool_free } else h.pools q := by
  simp [writeSlot, Heap.setPool, Heap.setSlab, Function.update_apply]

theorem writeSlot_same (s : SlabId) (i : Nat) (tag : UInt64) :
    writeSlot h p s i tag (h.slab s).free (h.pools p).free =
      h.setSlab s { h.slab s with ids := (h.slab s).ids.set i tag } := by
  simp [writeSlot, Heap.setPool, Heap.setSlab]

theorem writeSlot_free (s : SlabId) (i : Nat) (tag : UInt64) (free pool_free : Nat) (y : SlabId) :
    ((writeSlot h p s i tag free pool_free).slab y).free =
      if y = s then free else (h.slab y).free := by
  rw [writeSlot_slab]
  split_ifs <;> rfl

theorem writeSlot_links (s : SlabId) (i : Nat) (tag : UInt64) (free pool_free : Nat) (y : SlabId) :
    ((writeSlot h p s i tag free pool_free).slab y).next = (h.slab y).next ∧
      ((writeSlot h p s i tag free pool_free).slab y).prev = (h.slab y).prev ∧
      ((writeSlot h p s i tag free pool_free).slab y).free_next = (h.slab y).free_next ∧
      ((writeSlot h p s i tag free pool_free).slab y).free_prev = (h.slab y).free_prev := by
  rw [writeSlot_slab]
  by_cases hy : y = s <;> simp [hy]

theorem wrote_writeSlot (s : SlabId) (i : Nat) (tag : UInt64) (free pool_free : Nat) :
    Wrote h (writeSlot h p s i tag free pool_free) s i tag where
  slabs := rfl
  element_size q := by
    rw [writeSlot_pools]
    split_ifs with hq
    · rw [hq]
    · rfl
  pool y := by
    rw [writeSlot_slab]
    split_ifs with hy
    · rw [hy]
    · rfl
  capacity y := by
    rw [writeSlot_slab]
    split_ifs with hy
    · rw [hy]
    · rfl
  objects y := by
    rw [writeSlot_slab]
    split_ifs with hy
    · rw [hy]
    · rfl
  ids y := by
    rw [writeSlot_slab]
    split_ifs <;> rfl

omit [DecidableEq ι] in
theorem Wrote.relink {s i tag} (hw : Wrote h h' s i tag) {pools : ι → Pool}
    (hpools : ∀ q, (pools q).element_size = (h'.pools q).element_size)
    (next prev free_next free_prev : SlabId → Option SlabId) :
    Wrote h (h'.relink pools next prev free_next free_prev) s i tag where
  slabs := hw.slabs
  element_size q := (hpools q).trans (hw.element_size q)
  pool := hw.pool
  capacity := hw.capacity
  objects := hw.objects
  ids := hw.ids

/-- The pools of other slabs than the one that was written. -/
theorem PoolInv.writeSlot_other {q : ι} {full : List SlabId} (hp : PoolInv h q full) {s : SlabId}
    (hs : (h.slab s).pool = p) (hq : q ≠ p) (i : Nat) (tag : UInt64) (free pool_free : Nat) :
    PoolInv (writeSlot h p s i tag free pool_free) q full := by
  have hne : ∀ y ∈ full, y ≠ s := fun y hy => hp.ne_of_pool (hs ▸ Ne.symm hq) hy
  have hsame : ∀ y ∈ full, (writeSlot h p s i tag free pool_free).slab y = h.slab y :=
    fun y hy => by rw [writeSlot_slab, if_neg (hne y hy)]
  refine hp.congr (fun y => ?_) (fun y hy => ?_) (fun y hy => ?_) (fun y hy => ?_) ?_ ?_ ?_
  · rw [hp.mem, (wrote_writeSlot s i tag free pool_free).pool]
    rfl
  · rw [hsame y hy]
    exact ⟨rfl, rfl⟩
  · rw [hsame y hy]
    exact ⟨rfl, rfl⟩
  · rw [hsame y hy]
  · rw [writeSlot_pools, if_neg hq]
  · rw [writeSlot_pools, if_neg hq]
  · rw [writeSlot_pools, if_neg hq]

omit [DecidableEq ι] in
/-- A pool whose slabs keep their links while others are relinked. -/
theorem PoolInv.relink_other {q : ι} {full : List SlabId} (hp : PoolInv h q full)
    {pools : ι → Pool} (hpools : pools q = h.pools q)
    {next prev free_next free_prev : SlabId → Option SlabId}
    (hfull : ∀ y ∈ full, next y = (h.slab y).next ∧ prev y = (h.slab y).prev)
    (hfree : ∀ y ∈ full, free_next y = (h.slab y).free_next ∧ free_prev y = (h.slab y).free_prev) :
    PoolInv (h.relink pools next prev free_next free_prev) q full := by
  refine hp.congr (fun y => hp.mem y) hfull hfree (fun y _ => rfl) ?_ ?_ ?_ <;>
    simp [hpools]

/-- A write to a slot of a slab that stays on the free list or off it. -/
theorem writeSlot_inv (hinv : Inv h) {s : SlabId} (hs : s < h.slabs) (hpool : (h.slab s).pool = p)
    {i : Nat} {tag : UInt64} {free pool_free : Nat}
    (hfree : free = ((h.slab s).ids.set i tag).count 0) (hpos : 0 < free ↔ 0 < (h.slab s).free)
    (hpool_free : pool_free + (h.slab s).free = (h.pools p).free + free) :
    Inv (writeSlot h p s i tag free pool_free) := by
  have hw : Wrote h (writeSlot h p s i tag free pool_free) s i tag := wrote_writeSlot ..
  refine hw.inv hinv rfl ?_ (fun y hy => ?_) fun q full hp => ⟨full, ?_⟩
  · rw [writeSlot_free, if_pos rfl, hw.ids, if_pos rfl, hfree]
  · rw [writeSlot_free, if_neg hy]
  · by_cases hq : q = p
    · subst hq
      refine hp.recount ((hp.mem s).mpr ⟨hs, hpool⟩) (fun y => ?_)
        (fun y => writeSlot_free s i tag free pool_free y) hpos
        (fun y => writeSlot_links s i tag free pool_free y) ?_ ?_ ?_
      · rw [hp.mem, hw.slabs, hw.pool]
      · rw [writeSlot_pools, if_pos rfl]
      · rw [writeSlot_pools, if_pos rfl]
      · rwa [writeSlot_pools, if_pos rfl]
    · exact hp.writeSlot_other hpool hq i tag free pool_free

/-- The last free slot of a slab was written: it leaves the free list. -/
theorem makeFull_writeSlot (hinv : Inv h) {s : SlabId} (hs : s < h.slabs)
    (hpool : (h.slab s).pool = p) {i : Nat} {tag : UInt64} {pool_free : Nat}
    (hcount : ((h.slab s).ids.set i tag).count 0 = 0) (hpos : 0 < (h.slab s).free)
    (hpool_free : pool_free + (h.slab s).free = (h.pools p).free) :
    Wrote h (makeFull (writeSlot h p s i tag 0 pool_free) p s) s i tag ∧
      Inv (makeFull (writeSlot h p s i tag 0 pool_free) p s) := by
  have hw : Wrote h (writeSlot h p s i tag 0 pool_free) s i tag := wrote_writeSlot ..
  have hfree_eq := writeSlot_free (h := h) (p := p) s i tag 0 pool_free
  have hlinks := writeSlot_links (h := h) (p := p) s i tag 0 pool_free
  have hpool_self := writeSlot_pools (h := h) (p := p) s i tag 0 pool_free p
  have hother := fun q full (hp : PoolInv h q full) (hq : q ≠ p) =>
    hp.writeSlot_other hpool hq i tag 0 pool_free
  have hmap : (writeSlot h p s i tag 0 pool_free).slabMap = h.slabMap := rfl
  rw [if_pos rfl] at hpool_self
  generalize writeSlot h p s i tag 0 pool_free = h₁ at *
  obtain ⟨own, hown⟩ := hinv.pools p
  obtain ⟨hself_prev, hneighbours⟩ := hown.neighbours ((hown.mem s).mpr ⟨hs, hpool⟩) hpos
  have hmake := makeFull_eq h₁ p (by rwa [(hlinks s).2.2.2])
  have hw' : Wrote h (makeFull h₁ p s) s i tag := by
    rw [hmake]
    exact hw.relink (fun q => by by_cases hq : q = p <;> simp [hq]) _ _ _ _
  rw [hmake] at hw' ⊢
  refine ⟨hw', hw'.inv hinv hmap ?_ (fun y hy => ?_) fun q full hp => ⟨full, ?_⟩⟩
  · rw [hw'.ids, if_pos rfl, hcount, relink_slab]
    exact (hfree_eq s).trans (if_pos rfl)
  · rw [relink_slab]
    exact (hfree_eq y).trans (if_neg hy)
  · by_cases hq : q = p
    · subst hq
      refine hp.unlink ((hp.mem s).mpr ⟨hs, hpool⟩) hpos (fun y => ?_) hfree_eq
        (fun y => ⟨(hlinks y).1, (hlinks y).2.1⟩) (fun y => ?_) (fun y => ?_) ?_ ?_ ?_
      · rw [hp.mem, hw'.slabs, hw'.pool]
      · simp [hlinks]
      · simp [hlinks]
      · simp [hpool_self]
      · simp [hpool_self, hlinks]
      · simpa [hpool_self] using hpool_free
    · -- The slabs before and after it on the free list are of its pool.
      have hne : ∀ y ∈ full, ∀ z, some z = (h.slab s).free_prev ∨ some z = (h.slab s).free_next →
          y ≠ z := fun y hy z hz heq =>
        hq (((hp.mem y).mp hy).2.symm.trans (hneighbours y (heq ▸ hz)))
      refine (hother q full hp hq).relink_other (Function.update_of_ne hq _ _)
        (fun y _ => ⟨rfl, rfl⟩) fun y hy => ⟨?_, ?_⟩
      · rw [if_neg]
        rw [(hlinks s).2.2.2]
        exact fun heq => hne y hy y (.inl heq) rfl
      · rw [if_neg]
        rw [(hlinks s).2.2.1]
        exact fun heq => hne y hy y (.inr heq) rfl

/-- A slot of a full slab was freed: the slab goes back to its place on the free list. -/
theorem makeFree_writeSlot (hinv : Inv h) {s : SlabId} (hs : s < h.slabs)
    (hpool : (h.slab s).pool = p) {i : Nat} {tag : UInt64} {free pool_free : Nat}
    (hcount : ((h.slab s).ids.set i tag).count 0 = free) (hpos : 0 < free)
    (hzero : (h.slab s).free = 0) (hpool_free : pool_free = (h.pools p).free + free) :
    ∃ h', makeFree (writeSlot h p s i tag free pool_free) p s = .ok h' ∧ Wrote h h' s i tag ∧
      Inv h' := by
  have hw : Wrote h (writeSlot h p s i tag free pool_free) s i tag := wrote_writeSlot ..
  have hfree_eq := writeSlot_free (h := h) (p := p) s i tag free pool_free
  have hlinks := writeSlot_links (h := h) (p := p) s i tag free pool_free
  have hpool_self := writeSlot_pools (h := h) (p := p) s i tag free pool_free p
  have hother := fun q full (hp : PoolInv h q full) (hq : q ≠ p) =>
    hp.writeSlot_other hpool hq i tag free pool_free
  have hmap : (writeSlot h p s i tag free pool_free).slabMap = h.slabMap := rfl
  rw [if_pos rfl] at hpool_self
  generalize writeSlot h p s i tag free pool_free = h₁ at *
  obtain ⟨own, hown⟩ := hinv.pools p
  obtain ⟨as, bs, hsplit⟩ := List.append_of_mem ((hown.mem s).mpr ⟨hs, hpool⟩)
  have hnodup := hown.nodup
  have hlinked := hown.linked
  have hlength := hown.length_le
  have hfree_linked := hown.free_linked
  have hfree_nodup := freeOf_nodup hown
  have hfree_head := hown.free_head
  have hfreeOf : freeOf h own = freeOf h as ++ freeOf h bs := by
    unfold freeOf
    rw [hsplit, List.filter_append, List.filter_cons_of_neg (by simp [hzero])]
  rw [hfreeOf] at hfree_linked hfree_nodup hfree_head
  rw [hsplit] at hnodup hlinked hlength
  have has : as.length ≤ h₁.slabs := by
    rw [hw.slabs]
    exact (List.length_append ▸ Nat.le_add_right _ _).trans hlength
  have hs_as : s ∉ as := fun hmem =>
    (List.nodup_append.mp hnodup).2.2 s hmem s List.mem_cons_self rfl
  have hfreeOf_as : freeOf h₁ as = freeOf h as :=
    List.filter_congr fun y hy => by
      have hne : y ≠ s := fun heq => hs_as (heq ▸ hy)
      rw [hfree_eq, if_neg hne]
  have hout : s ∉ freeOf h as ++ freeOf h bs := fun hmem => by
    rw [← hfreeOf] at hmem
    exact absurd (mem_freeOf.mp hmem).2 (by omega)
  obtain ⟨free_head, free_tail, free_next, free_prev, hrun, hlinked', hhead, hsame⟩ :=
    makeFree_spec (h := h₁) (p := p) (hlinked.congr fun y _ => ⟨(hlinks y).1, (hlinks y).2.1⟩) has
      hfreeOf_as (hfree_linked.congr fun y _ => (hlinks y).2.2) hfree_nodup hout
      (by rw [hpool_self]; exact hfree_head)
  have hw' : Wrote h (h₁.relink (Function.update h₁.pools p
      { h₁.pools p with free_head := free_head, free_tail := free_tail })
      (fun y => (h₁.slab y).next) (fun y => (h₁.slab y).prev) free_next free_prev) s i tag :=
    hw.relink (fun q => by by_cases hq : q = p <;> simp [hq]) _ _ _ _
  refine ⟨_, hrun, hw', hw'.inv hinv hmap ?_ (fun y hy => ?_) fun q full hp => ?_⟩
  · rw [hw'.ids, if_pos rfl, hcount, relink_slab]
    exact (hfree_eq s).trans (if_pos rfl)
  · rw [relink_slab]
    exact (hfree_eq y).trans (if_neg hy)
  · by_cases hq : q = p
    · subst hq
      refine ⟨own, hown.link hsplit hzero hpos (fun y => ?_) hfree_eq
        (fun y => ⟨(hlinks y).1, (hlinks y).2.1⟩) ?_ hlinked' ?_ ?_⟩
      · rw [hown.mem, hw'.slabs, hw'.pool]
      · simp [hpool_self]
      · simp [hhead]
      · simpa [hpool_self] using hpool_free
    · refine ⟨full, (hother q full hp hq).relink_other (Function.update_of_ne hq _ _)
        (fun y _ => ⟨rfl, rfl⟩) fun y hy => hsame y fun hmem => ?_⟩
      have hy_own : y ∈ own := by
        rw [hsplit]
        exact (List.filter_sublist.append (List.filter_sublist.cons_cons s)).subset hmem
      exact hq (((hp.mem y).mp hy).2.symm.trans ((hown.mem y).mp hy_own).2)

theorem takeSlot_eq (h : Heap ι) (p : ι) (s : SlabId) (i : Nat) (tag : UInt64) :
    takeSlot h p s i tag =
      if (h.slab s).free - 1 = 0
      then makeFull (writeSlot h p s i tag ((h.slab s).free - 1) ((h.pools p).free - 1)) p s
      else writeSlot h p s i tag ((h.slab s).free - 1) ((h.pools p).free - 1) := by
  unfold takeSlot writeSlot
  simp [Heap.setPool, Heap.setSlab]

/-- **A free slot is taken.** -/
theorem takeSlot_spec (hinv : Inv h) {s : SlabId} (hs : s < h.slabs) (hpool : (h.slab s).pool = p)
    {i : Nat} (hi : (h.slab s).ids[i]? = some 0) {tag : UInt64} (htag : tag ≠ 0) :
    Wrote h (takeSlot h p s i tag) s i tag ∧ Inv (takeSlot h p s i tag) := by
  have hslab := hinv.slabs s hs
  obtain ⟨hlt, hzero⟩ := List.getElem?_eq_some_iff.mp hi
  have hcount : ((h.slab s).ids.set i tag).count 0 = (h.slab s).free - 1 := by
    rw [List.count_set hlt, hslab.free, hzero]
    simp [htag]
  have hpos : 0 < (h.slab s).free := by
    rw [hslab.free, List.count_pos_iff, ← hzero]
    exact List.getElem_mem hlt
  have hpool_free : (h.slab s).free ≤ (h.pools p).free := by
    obtain ⟨full, hp⟩ := hinv.pools p
    rw [hp.free]
    exact List.le_sum_of_mem (List.mem_map.mpr ⟨s, (hp.mem s).mpr ⟨hs, hpool⟩, rfl⟩)
  rw [takeSlot_eq]
  split_ifs with hfull
  · rw [hfull] at hcount ⊢
    exact makeFull_writeSlot hinv hs hpool hcount hpos (by omega)
  · exact ⟨wrote_writeSlot .., writeSlot_inv hinv hs hpool hcount.symm (by omega) (by omega)⟩

/-- **A slot is freed.** -/
theorem freeSlot_spec (hinv : Inv h) {s : SlabId} (hs : s < h.slabs) (hpool : (h.slab s).pool = p)
    {i : Nat} {tag : UInt64} (hi : (h.slab s).ids[i]? = some tag) (htag : tag ≠ 0) :
    ∃ h', (if (h.slab s).free + 1 = 1
        then makeFree (writeSlot h p s i 0 ((h.slab s).free + 1) ((h.pools p).free + 1)) p s
        else .ok (writeSlot h p s i 0 ((h.slab s).free + 1) ((h.pools p).free + 1))) = .ok h' ∧
      Wrote h h' s i 0 ∧ Inv h' := by
  have hslab := hinv.slabs s hs
  obtain ⟨hlt, hget⟩ := List.getElem?_eq_some_iff.mp hi
  have hcount : ((h.slab s).ids.set i 0).count 0 = (h.slab s).free + 1 := by
    rw [List.count_set hlt, hslab.free, hget]
    simp [htag]
  split_ifs with hone
  · exact makeFree_writeSlot hinv hs hpool hcount (Nat.succ_pos _) (by omega) (by omega)
  · exact ⟨_, rfl, wrote_writeSlot ..,
      writeSlot_inv hinv hs hpool hcount.symm (by omega) (by omega)⟩

end

end Bracelet.Vhmalloc
