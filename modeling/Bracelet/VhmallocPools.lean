import Bracelet.VhmallocInvariant

/-!
# The lists of a pool

What the edits of the lists do to `PoolInv`: a slab is added to both lists of its pool
(`PoolInv.addSlab`), leaves the free list when its last slot is taken
(`PoolInv.takeSlot`) and comes back to its place when one is freed
(`PoolInv.freeSlot`); the pools of other slabs are left alone (`PoolInv.congr`).
-/
namespace Bracelet.Vhmalloc

open LinkedList

variable {ι : Type} {h h' : Heap ι} {p : ι} {full : List SlabId}

/-- A pool none of whose slabs differs. -/
theorem PoolInv.congr (hp : PoolInv h p full)
    (hmem : ∀ s, s ∈ full ↔ s < h'.slabs ∧ (h'.slab s).pool = p)
    (hfull : ∀ s ∈ full, (h'.slab s).next = (h.slab s).next ∧ (h'.slab s).prev = (h.slab s).prev)
    (hfree : ∀ s ∈ full, (h'.slab s).free_next = (h.slab s).free_next ∧
      (h'.slab s).free_prev = (h.slab s).free_prev)
    (hcount : ∀ s ∈ full, (h'.slab s).free = (h.slab s).free)
    (hfull_head : (h'.pools p).full_head = (h.pools p).full_head)
    (hfree_head : (h'.pools p).free_head = (h.pools p).free_head)
    (hpool_free : (h'.pools p).free = (h.pools p).free) : PoolInv h' p full := by
  have hfreeOf : freeOf h' full = freeOf h full :=
    List.filter_congr fun s hs => by rw [hcount s hs]
  exact {
    nodup := hp.nodup
    mem := hmem
    linked := hp.linked.congr hfull
    full_head := hfull_head.trans hp.full_head
    free_linked := by
      rw [hfreeOf]
      exact hp.free_linked.congr fun s hs => hfree s (List.mem_filter.mp hs).1
    free_head := by rw [hfree_head, hp.free_head, hfreeOf]
    free := by rw [hpool_free, hp.free, List.map_congr_left hcount] }

theorem freeOf_nodup (hp : PoolInv h p full) : (freeOf h full).Nodup := hp.nodup.filter _

theorem mem_freeOf {s : SlabId} : s ∈ freeOf h full ↔ s ∈ full ∧ 0 < (h.slab s).free := by
  simp [freeOf]

theorem PoolInv.length_le (hp : PoolInv h p full) : full.length ≤ h.slabs := by
  have hsub : full ⊆ List.range h.slabs := fun s hs =>
    List.mem_range.mpr ((hp.mem s).mp hs).1
  simpa using (hp.nodup.subperm hsub).length_le

/-- Full slabs do not count. -/
theorem sum_freeOf (h : Heap ι) (full : List SlabId) :
    ((freeOf h full).map fun s => (h.slab s).free).sum =
      (full.map fun s => (h.slab s).free).sum := by
  induction full with
  | nil => rfl
  | cons s full ih =>
    unfold freeOf at ih ⊢
    by_cases hs : 0 < (h.slab s).free
    · rw [List.filter_cons_of_pos (by simpa using hs), List.map_cons, List.map_cons,
        List.sum_cons, List.sum_cons, ih]
    · rw [List.filter_cons_of_neg (by simpa using hs), List.map_cons, List.sum_cons, ih,
        Nat.eq_zero_of_not_pos hs, Nat.zero_add]

/-- **A new slab** in front of both lists. -/
theorem PoolInv.addSlab (hp : PoolInv h p full) {s : SlabId} (hnew : s = h.slabs)
    (hslabs : h'.slabs = h.slabs + 1)
    (hpool : ∀ y, (h'.slab y).pool = if y = s then p else (h.slab y).pool)
    (hcount : ∀ y, y ≠ s → (h'.slab y).free = (h.slab y).free) (hpos : 0 < (h'.slab s).free)
    (hnext : ∀ y, (h'.slab y).next = if y = s then (h.pools p).full_head else (h.slab y).next)
    (hprev : ∀ y, (h'.slab y).prev = if some y = (h.pools p).full_head then some s
      else if y = s then none else (h.slab y).prev)
    (hfree_next : ∀ y, (h'.slab y).free_next =
      if y = s then (h.pools p).free_head else (h.slab y).free_next)
    (hfree_prev : ∀ y, (h'.slab y).free_prev = if some y = (h.pools p).free_head then some s
      else if y = s then none else (h.slab y).free_prev)
    (hfull_head : (h'.pools p).full_head = some s) (hfree_head : (h'.pools p).free_head = some s)
    (hfree : (h'.pools p).free = (h.pools p).free + (h'.slab s).free) :
    PoolInv h' p (s :: full) := by
  have hout : s ∉ full := fun hs => Nat.ne_of_lt ((hp.mem s).mp hs).1 hnew
  have hne : ∀ y ∈ full, y ≠ s := fun y hy heq => hout (heq ▸ hy)
  have hfreeOf : freeOf h' (s :: full) = s :: freeOf h full := by
    unfold freeOf
    rw [List.filter_cons_of_pos (by simpa using hpos)]
    exact congrArg (s :: ·) (List.filter_congr fun y hy => by rw [hcount y (hne y hy)])
  have hout_free : s ∉ freeOf h full := fun hs => hout (mem_freeOf.mp hs).1
  rw [hp.full_head] at hnext hprev
  rw [hp.free_head] at hfree_next hfree_prev
  have hhead : some s ≠ full.head? := fun heq => hout (List.mem_of_mem_head? heq.symm)
  have hhead_free : some s ≠ (freeOf h full).head? :=
    fun heq => hout_free (List.mem_of_mem_head? heq.symm)
  refine ⟨List.nodup_cons.mpr ⟨hout, hp.nodup⟩, fun y => ?_, ?_, hfull_head, ?_, ?_, ?_⟩
  · rw [List.mem_cons, hp.mem, hslabs, hpool, Nat.lt_succ_iff_lt_or_eq, ← hnew]
    by_cases hy : y = s <;> simp [hy]
  · refine hp.linked.push_front hp.nodup hout ?_ ?_ ?_ ?_ ?_
    · rw [hnext, if_pos rfl]
    · rw [hprev, if_neg hhead, if_pos rfl]
    · intro y hy
      rw [hprev, if_pos hy.symm]
    · intro y hy
      rw [hnext, if_neg hy]
    · intro y hy hy'
      rw [hprev, if_neg hy', if_neg hy]
  · rw [hfreeOf]
    refine hp.free_linked.push_front (freeOf_nodup hp) hout_free ?_ ?_ ?_ ?_ ?_
    · rw [hfree_next, if_pos rfl]
    · rw [hfree_prev, if_neg hhead_free, if_pos rfl]
    · intro y hy
      rw [hfree_prev, if_pos hy.symm]
    · intro y hy
      rw [hfree_next, if_neg hy]
    · intro y hy hy'
      rw [hfree_prev, if_neg hy', if_neg hy]
  · rw [hfreeOf, hfree_head]
    rfl
  · rw [hfree, hp.free, List.map_cons, List.sum_cons, Nat.add_comm]
    exact congrArg _ (congrArg _ (List.map_congr_left fun y hy => (hcount y (hne y hy)).symm))

/-- Counts of the slabs of a pool in which one slab's differs. -/
theorem sum_free_eq {s : SlabId} (hs : s ∈ full) (hnodup : full.Nodup) {n : Nat}
    (hcount : ∀ y, (h'.slab y).free = if y = s then n else (h.slab y).free) :
    (full.map fun y => (h'.slab y).free).sum + (h.slab s).free =
      (full.map fun y => (h.slab y).free).sum + n := by
  obtain ⟨xs, ys, rfl⟩ := List.append_of_mem hs
  obtain ⟨-, hys, hdisjoint⟩ := List.nodup_append.mp hnodup
  have hsame : ∀ zs : List SlabId, s ∉ zs →
      zs.map (fun y => (h'.slab y).free) = zs.map fun y => (h.slab y).free := by
    intro zs hzs
    refine List.map_congr_left fun y hy => ?_
    have hne : y ≠ s := fun heq => hzs (heq ▸ hy)
    rw [hcount, if_neg hne]
  have hxs : s ∉ xs := fun hmem => hdisjoint s hmem s List.mem_cons_self rfl
  simp only [List.map_append, List.map_cons, List.sum_append, List.sum_cons, hsame xs hxs,
    hsame ys (List.nodup_cons.mp hys).1, hcount s, if_pos]
  omega

/-- A slab whose count differs, but not whether it is full. -/
theorem PoolInv.recount (hp : PoolInv h p full) {s : SlabId} (hs : s ∈ full) {n : Nat}
    (hmem : ∀ y, y ∈ full ↔ y < h'.slabs ∧ (h'.slab y).pool = p)
    (hcount : ∀ y, (h'.slab y).free = if y = s then n else (h.slab y).free)
    (hpos : 0 < n ↔ 0 < (h.slab s).free)
    (hlinks : ∀ y, (h'.slab y).next = (h.slab y).next ∧ (h'.slab y).prev = (h.slab y).prev ∧
      (h'.slab y).free_next = (h.slab y).free_next ∧ (h'.slab y).free_prev = (h.slab y).free_prev)
    (hfull_head : (h'.pools p).full_head = (h.pools p).full_head)
    (hfree_head : (h'.pools p).free_head = (h.pools p).free_head)
    (hfree : (h'.pools p).free + (h.slab s).free = (h.pools p).free + n) : PoolInv h' p full := by
  have hfreeOf : freeOf h' full = freeOf h full := by
    refine List.filter_congr fun y _ => ?_
    rw [hcount]
    by_cases hy : y = s
    · subst hy
      simp [hpos]
    · rw [if_neg hy]
  have hsum := sum_free_eq hs hp.nodup hcount
  have hold := hp.free
  exact {
    nodup := hp.nodup
    mem := hmem
    linked := hp.linked.congr fun y _ => ⟨(hlinks y).1, (hlinks y).2.1⟩
    full_head := hfull_head.trans hp.full_head
    free_linked := by
      rw [hfreeOf]
      exact hp.free_linked.congr fun y _ => (hlinks y).2.2
    free_head := by rw [hfree_head, hp.free_head, hfreeOf]
    free := by omega }

/-- **A slab that is full now** has left the free list. -/
theorem PoolInv.unlink (hp : PoolInv h p full) {s : SlabId} (hs : s ∈ full)
    (hpos : 0 < (h.slab s).free) (hmem : ∀ y, y ∈ full ↔ y < h'.slabs ∧ (h'.slab y).pool = p)
    (hcount : ∀ y, (h'.slab y).free = if y = s then 0 else (h.slab y).free)
    (hlinks : ∀ y, (h'.slab y).next = (h.slab y).next ∧ (h'.slab y).prev = (h.slab y).prev)
    (hfree_next : ∀ y, (h'.slab y).free_next = if some y = (h.slab s).free_prev
      then (h.slab s).free_next else (h.slab y).free_next)
    (hfree_prev : ∀ y, (h'.slab y).free_prev = if some y = (h.slab s).free_next
      then (h.slab s).free_prev else (h.slab y).free_prev)
    (hfull_head : (h'.pools p).full_head = (h.pools p).full_head)
    (hfree_head : (h'.pools p).free_head = if (h.slab s).free_prev = none
      then (h.slab s).free_next else (h.pools p).free_head)
    (hfree : (h'.pools p).free + (h.slab s).free = (h.pools p).free) : PoolInv h' p full := by
  obtain ⟨xs, ys, hxs⟩ := List.append_of_mem (mem_freeOf.mpr ⟨hs, hpos⟩)
  have hnodup := freeOf_nodup hp
  have hlinked := hp.free_linked
  have hhead := hp.free_head
  rw [hxs] at hnodup hlinked hhead
  have hprev_s : (h.slab s).free_prev = xs.getLast? := hlinked.prev_eq
  have hnext_s : (h.slab s).free_next = ys.head? := hlinked.next_eq
  rw [hprev_s, hnext_s] at hfree_next hfree_prev hfree_head
  have hfreeOf : freeOf h' full = xs ++ ys := by
    have hfilter : freeOf h' full = (freeOf h full).filter (· ≠ s) := by
      unfold freeOf
      rw [List.filter_filter]
      refine List.filter_congr fun y _ => ?_
      rw [hcount]
      by_cases hy : y = s <;> simp [hy]
    obtain ⟨-, hys, hdisjoint⟩ := List.nodup_append.mp hnodup
    have hkeep : ∀ zs : List SlabId, s ∉ zs → zs.filter (· ≠ s) = zs := fun zs hzs =>
      List.filter_eq_self.mpr fun y hy => by
        have hne : y ≠ s := fun heq => hzs (heq ▸ hy)
        simpa using hne
    have hout : s ∉ xs := fun hmem => hdisjoint s hmem s List.mem_cons_self rfl
    rw [hfilter, hxs, List.filter_append, List.filter_cons_of_neg (by simp), hkeep xs hout,
      hkeep ys (List.nodup_cons.mp hys).1]
  have hsum := sum_free_eq hs hp.nodup hcount
  have hold := hp.free
  exact {
    nodup := hp.nodup
    mem := hmem
    linked := hp.linked.congr fun y _ => hlinks y
    full_head := hfull_head.trans hp.full_head
    free_linked := by
      rw [hfreeOf]
      refine hlinked.unlink hnodup ?_ ?_ ?_ ?_
      · intro y hy
        rw [hfree_next, if_pos hy.symm]
      · intro y hy
        rw [hfree_prev, if_pos hy.symm]
      · intro y hy
        rw [hfree_next, if_neg hy]
      · intro y hy
        rw [hfree_prev, if_neg hy]
    free_head := by
      rw [hfree_head, hfreeOf, hhead]
      cases xs with
      | nil => rfl
      | cons x xs => simp [List.getLast?_cons]
    free := by omega }

/-- Walking back from a slab finds the last slab before it that has free slots. -/
theorem findPredecessor_spec {as rest : List SlabId} {fuel : Nat}
    (hlinked : Linked (fun s => (h.slab s).next) (fun s => (h.slab s).prev) (as ++ rest))
    (hfuel : as.length < fuel) :
    findPredecessor h fuel as.getLast? = .ok (freeOf h as).getLast? := by
  induction as using List.reverseRecOn generalizing rest fuel with
  | nil =>
    obtain ⟨fuel, rfl⟩ := Nat.exists_eq_succ_of_ne_zero (Nat.ne_of_gt hfuel)
    rfl
  | append_singleton as c ih =>
    obtain ⟨fuel, rfl⟩ := Nat.exists_eq_succ_of_ne_zero (Nat.ne_zero_of_lt hfuel)
    rw [List.length_append, List.length_singleton] at hfuel
    rw [List.append_assoc] at hlinked
    rw [List.getLast?_concat, findPredecessor]
    by_cases hc : 0 < (h.slab c).free
    · simp [freeOf, hc]
    · have hprev : (h.slab c).prev = as.getLast? := hlinked.prev_eq
      rw [if_neg hc, hprev, ih hlinked (by omega)]
      simp [freeOf, hc]

/-- **A slab that is no longer full** is on the free list again, in its place. -/
theorem PoolInv.link (hp : PoolInv h p full) {as bs : List SlabId} {s : SlabId}
    (hfull : full = as ++ s :: bs) (hzero : (h.slab s).free = 0) {n : Nat} (hpos : 0 < n)
    (hmem : ∀ y, y ∈ full ↔ y < h'.slabs ∧ (h'.slab y).pool = p)
    (hcount : ∀ y, (h'.slab y).free = if y = s then n else (h.slab y).free)
    (hlinks : ∀ y, (h'.slab y).next = (h.slab y).next ∧ (h'.slab y).prev = (h.slab y).prev)
    (hfull_head : (h'.pools p).full_head = (h.pools p).full_head)
    (hfree_links : Linked (fun y => (h'.slab y).free_next) (fun y => (h'.slab y).free_prev)
      (freeOf h as ++ s :: freeOf h bs))
    (hfree_head : (h'.pools p).free_head = (freeOf h as ++ s :: freeOf h bs).head?)
    (hfree : (h'.pools p).free = (h.pools p).free + n) : PoolInv h' p full := by
  have hs : s ∈ full := hfull ▸ List.mem_append_right _ List.mem_cons_self
  have hnodup := hp.nodup
  rw [hfull] at hnodup
  obtain ⟨-, hbs, hdisjoint⟩ := List.nodup_append.mp hnodup
  have hfreeOf : freeOf h' full = freeOf h as ++ s :: freeOf h bs := by
    have hkeep : ∀ zs : List SlabId, s ∉ zs → freeOf h' zs = freeOf h zs := fun zs hzs =>
      List.filter_congr fun y hy => by
        have hne : y ≠ s := fun heq => hzs (heq ▸ hy)
        rw [hcount, if_neg hne]
    have hout : s ∉ as := fun hmem => hdisjoint s hmem s List.mem_cons_self rfl
    have hkeep_as := hkeep as hout
    have hkeep_bs := hkeep bs (List.nodup_cons.mp hbs).1
    unfold freeOf at hkeep_as hkeep_bs ⊢
    rw [hfull, List.filter_append, List.filter_cons_of_pos (by simpa [hcount] using hpos),
      hkeep_as, hkeep_bs]
  have hsum := sum_free_eq hs hp.nodup hcount
  have hold := hp.free
  exact {
    nodup := hp.nodup
    mem := hmem
    linked := hp.linked.congr fun y _ => hlinks y
    full_head := hfull_head.trans hp.full_head
    free_linked := by rwa [hfreeOf]
    free_head := by rw [hfree_head, hfreeOf]
    free := by omega }

/-- **`makeFree`** puts a slab on the free list after the slabs that come before it on the
list of all slabs, and leaves the rest. -/
theorem makeFree_spec [DecidableEq ι] {as bs xs ys : List SlabId} {s : SlabId}
    (hlinked : Linked (fun y => (h.slab y).next) (fun y => (h.slab y).prev) (as ++ s :: bs))
    (hlength : as.length ≤ h.slabs) (hxs : freeOf h as = xs)
    (hfree_linked : Linked (fun y => (h.slab y).free_next) (fun y => (h.slab y).free_prev)
      (xs ++ ys)) (hnodup : (xs ++ ys).Nodup) (hout : s ∉ xs ++ ys)
    (hfree_head : (h.pools p).free_head = (xs ++ ys).head?) :
    ∃ free_head free_tail free_next free_prev, makeFree h p s =
        .ok (h.relink (Function.update h.pools p
            { h.pools p with free_head := free_head, free_tail := free_tail })
          (fun y => (h.slab y).next) (fun y => (h.slab y).prev) free_next free_prev) ∧
      Linked free_next free_prev (xs ++ s :: ys) ∧ free_head = (xs ++ s :: ys).head? ∧
      ∀ y ∉ xs ++ s :: ys, free_next y = (h.slab y).free_next ∧
        free_prev y = (h.slab y).free_prev := by
  have hprev : (h.slab s).prev = as.getLast? := hlinked.prev_eq
  have hfind : findPredecessor h (h.slabs + 1) (h.slab s).prev = .ok xs.getLast? := by
    rw [hprev, findPredecessor_spec hlinked (Nat.lt_succ_of_le hlength), hxs]
  rw [makeFree, hfind, ok_bind]
  rcases List.eq_nil_or_concat xs with rfl | ⟨xs, cur, rfl⟩
  · have heq := addFreeFront_eq h p s
    rw [List.nil_append] at hfree_linked hfree_head hnodup hout
    rw [hfree_head] at heq
    have hhead : some s ≠ ys.head? := fun hs => hout (List.mem_of_mem_head? hs.symm)
    refine ⟨some s, _, _, _, congrArg Except.ok heq, ?_, rfl, fun y hy => ⟨?_, ?_⟩⟩
    · refine hfree_linked.push_front hnodup hout (if_pos rfl) ?_ ?_ ?_ ?_
      · rw [if_neg hhead, if_pos rfl]
      · exact fun y hy => if_pos hy.symm
      · exact fun y hy => if_neg hy
      · exact fun y hy hy' => by rw [if_neg hy', if_neg hy]
    · rw [if_neg]
      rintro rfl
      exact hy List.mem_cons_self
    · rw [if_neg, if_neg]
      · rintro rfl
        exact hy List.mem_cons_self
      · exact fun hs => hy (List.mem_cons_of_mem s (List.mem_of_mem_head? hs.symm))
  · simp only [List.concat_eq_append, List.append_assoc, List.singleton_append] at *
    have hne : s ≠ cur := by
      rintro rfl
      exact hout (List.mem_append_right _ List.mem_cons_self)
    have heq := addFreeAfter_eq h p hne
    have hnext : (h.slab cur).free_next = ys.head? := hfree_linked.next_eq
    rw [hnext] at heq
    have hys : s ∉ ys := fun hs => hout (List.mem_append_right _ (List.mem_cons_of_mem cur hs))
    have hhead : some s ≠ ys.head? := fun hs => hys (List.mem_of_mem_head? hs.symm)
    rw [List.getLast?_concat]
    refine ⟨_, _, _, _, congrArg Except.ok heq, ?_, ?_, fun y hy => ⟨?_, ?_⟩⟩
    · refine hfree_linked.insert_after hnodup hout (if_pos rfl) ?_ ?_ ?_ ?_ ?_
      · rw [if_neg hne, if_pos rfl]
      · rw [if_neg hhead, if_pos rfl]
      · exact fun y hy => if_pos hy.symm
      · exact fun y hy hy' => by rw [if_neg hy', if_neg hy]
      · exact fun y hy hy' => by rw [if_neg hy', if_neg hy]
    · rw [hfree_head, List.head?_append, List.head?_append, List.head?_cons, List.head?_cons]
    · rw [if_neg, if_neg]
      · rintro rfl
        exact hy (List.mem_append_right _ (List.mem_cons_of_mem _ List.mem_cons_self))
      · rintro rfl
        exact hy (List.mem_append_right _ List.mem_cons_self)
    · rw [if_neg, if_neg]
      · rintro rfl
        exact hy (List.mem_append_right _ (List.mem_cons_of_mem _ List.mem_cons_self))
      · exact fun hs => hy (List.mem_append_right _ (List.mem_cons_of_mem _
          (List.mem_cons_of_mem _ (List.mem_of_mem_head? hs.symm))))

end Bracelet.Vhmalloc
