import Bracelet.VhmallocRuns

/-!
# The lists of a pool

Beside what `PoolInv` says, a pool keeps the end of its free list (`PoolLists`).  The end
is right when it is a slab that has free slots and no next one (`TailOf`), whatever the
order of the others.  Insertions keep it so; `makeFull` leaves it alone, so it is wrong
after the last slab of the list has become full.
-/
namespace Bracelet.Vhmalloc

open LinkedList

section
variable {ι : Type} {h h' : Heap ι} {p q : ι}

/-- **The lists of a pool**, with both ends of the free list and the counts of the slabs. -/
structure PoolLists (h : Heap ι) (p : ι) (full : List SlabId) : Prop extends PoolInv h p full where
  free_tail : (h.pools p).free_tail = (freeOf h full).getLast?
  counts : ∀ s ∈ full, (h.slab s).free = (h.slab s).ids.count 0

/-- A slab of the pool with free slots, after which none comes on the free list. -/
structure IsLast (h : Heap ι) (q : ι) (t : SlabId) : Prop where
  lt : t < h.slabs
  pool : (h.slab t).pool = q
  free : 0 < (h.slab t).free
  next : (h.slab t).free_next = none

/-- The end of the free list is right. -/
def TailOf (h : Heap ι) (q : ι) : Prop :=
  (h.pools q).free_head = none ∧ (h.pools q).free_tail = none ∨
    ∃ t, (h.pools q).free_tail = some t ∧ IsLast h q t

theorem PoolInv.isLast_iff {full xs : List SlabId} {x t : SlabId} (hp : PoolInv h q full)
    (hxs : freeOf h full = xs ++ [x]) : IsLast h q t ↔ t = x := by
  have hlinked := hp.free_linked
  rw [hxs] at hlinked
  constructor
  · intro ht
    have hmem : t ∈ freeOf h full := mem_freeOf.mpr ⟨(hp.mem t).mpr ⟨ht.lt, ht.pool⟩, ht.free⟩
    rw [hxs] at hmem
    rcases List.mem_append.mp hmem with hmem | hmem
    · obtain ⟨as, bs, rfl⟩ := List.append_of_mem hmem
      rw [List.append_assoc, List.cons_append] at hlinked
      have hnext : (h.slab t).free_next = (bs ++ [x]).head? := hlinked.next_eq
      rw [ht.next] at hnext
      cases bs <;> cases hnext
    · exact List.mem_singleton.mp hmem
  · rintro rfl
    have hmem : t ∈ freeOf h full := hxs ▸ List.mem_append_right _ List.mem_cons_self
    obtain ⟨hfull, hfree⟩ := mem_freeOf.mp hmem
    exact ⟨((hp.mem t).mp hfull).1, ((hp.mem t).mp hfull).2, hfree, hlinked.next_eq⟩

theorem PoolInv.tail_iff {full : List SlabId} (hp : PoolInv h q full) :
    (h.pools q).free_tail = (freeOf h full).getLast? ↔ TailOf h q := by
  have hhead := hp.free_head
  unfold TailOf
  rcases List.eq_nil_or_concat (freeOf h full) with hnil | ⟨xs, x, hxs⟩
  · rw [hnil] at hhead ⊢
    rw [hhead]
    refine ⟨fun htail => .inl ⟨rfl, htail⟩, ?_⟩
    rintro (⟨-, htail⟩ | ⟨t, -, ht⟩)
    · exact htail
    · have hmem : t ∈ freeOf h full := mem_freeOf.mpr ⟨(hp.mem t).mpr ⟨ht.lt, ht.pool⟩, ht.free⟩
      rw [hnil] at hmem
      cases hmem
  · rw [List.concat_eq_append] at hxs
    have hsome : (h.pools q).free_head ≠ none := by
      rw [hhead, hxs]
      simp
    rw [hxs, List.getLast?_concat]
    constructor
    · exact fun htail => .inr ⟨x, htail, (hp.isLast_iff hxs).mpr rfl⟩
    · rintro (⟨hnone, -⟩ | ⟨t, htail, ht⟩)
      · exact absurd hnone hsome
      · rw [htail, (hp.isLast_iff hxs).mp ht]

/-! ## Insertions -/

/-- A slab that is about to be put on the free list of its pool. -/
structure Inserted (h : Heap ι) (p : ι) (s : SlabId) : Prop where
  lt : s < h.slabs
  pool : (h.slab s).pool = p
  free : 0 < (h.slab s).free
  tail : (h.pools p).free_tail ≠ some s

theorem Inserted.ne_last {s t : SlabId} (hs : Inserted h p s)
    (htail : (h.pools q).free_tail = some t) (ht : IsLast h q t) : t ≠ s := by
  rintro rfl
  obtain rfl : p = q := hs.pool.symm.trans ht.pool
  exact hs.tail htail

variable [DecidableEq ι]

theorem TailOf.addFreeFront {s : SlabId} (ht : TailOf h q) (hs : Inserted h p s) :
    TailOf (addFreeFront h p s) q := by
  rw [addFreeFront_eq]
  by_cases hnew : q = p ∧ (h.pools p).free_head = none
  · obtain ⟨rfl, hnone⟩ := hnew
    refine .inr ⟨s, by simp [hnone], hs.lt, hs.pool, hs.free, ?_⟩
    simp [hnone]
  rcases ht with ⟨hhead, htail⟩ | ⟨t, htail, ht⟩
  · have hq : q ≠ p := fun hq => hnew ⟨hq, hq ▸ hhead⟩
    exact .inl ⟨by simp [hq, hhead], by simp [hq, htail]⟩
  · have hne := hs.ne_last htail ht
    refine .inr ⟨t, ?_, ht.lt, ht.pool, ht.free, by simp [hne, ht.next]⟩
    by_cases hq : q = p
    · subst hq
      have hsome : (h.pools q).free_head ≠ none := fun hnone => hnew ⟨rfl, hnone⟩
      simp [hsome, htail]
    · simp [hq, htail]

theorem TailOf.addFreeAfter {s cur : SlabId} (ht : TailOf h q) (hs : Inserted h p s)
    (hcur : s ≠ cur) (hpool : (h.slab cur).pool = p) (hhead : (h.pools p).free_head ≠ none) :
    TailOf (addFreeAfter h p s cur) q := by
  rw [addFreeAfter_eq h p hcur]
  by_cases hnew : q = p ∧ (h.slab cur).free_next = none
  · obtain ⟨rfl, hnone⟩ := hnew
    refine .inr ⟨s, by simp [hnone], hs.lt, hs.pool, hs.free, ?_⟩
    simp [hcur, hnone]
  rcases ht with ⟨hnone, htail⟩ | ⟨t, htail, ht⟩
  · have hq : q ≠ p := fun hq => hhead (hq ▸ hnone)
    exact .inl ⟨by simp [hq, hnone], by simp [hq, htail]⟩
  · have hne := hs.ne_last htail ht
    have hne_cur : t ≠ cur := by
      rintro rfl
      exact hnew ⟨ht.pool.symm.trans hpool, ht.next⟩
    refine .inr ⟨t, ?_, ht.lt, ht.pool, ht.free, by simp [hne, hne_cur, ht.next]⟩
    by_cases hq : q = p
    · subst hq
      have hsome : (h.slab cur).free_next ≠ none := fun hnone => hnew ⟨rfl, hnone⟩
      simp [hsome, htail]
    · simp [hq, htail]

/-! ## Taking and freeing slots -/

theorem TailOf.writeSlot {s : SlabId} {free : Nat} (ht : TailOf h q)
    (hkeep : IsLast h q s → (h.pools q).free_tail = some s → 0 < free) (i : Nat) (tag : UInt64)
    (pool_free : Nat) : TailOf (writeSlot h p s i tag free pool_free) q := by
  have hhead : ((Vhmalloc.writeSlot h p s i tag free pool_free).pools q).free_head =
      (h.pools q).free_head := by
    rw [writeSlot_pools]
    by_cases hq : q = p <;> simp [hq]
  have htail : ((Vhmalloc.writeSlot h p s i tag free pool_free).pools q).free_tail =
      (h.pools q).free_tail := by
    rw [writeSlot_pools]
    by_cases hq : q = p <;> simp [hq]
  unfold TailOf
  rw [hhead, htail]
  refine ht.imp_right fun ⟨t, ht, hlast⟩ => ⟨t, ht, hlast.lt, ?_, ?_, ?_⟩
  · rw [(wrote_writeSlot s i tag free pool_free).pool, hlast.pool]
  · rw [writeSlot_free]
    split_ifs with hts
    · exact hkeep (hts ▸ hlast) (hts ▸ ht)
    · exact hlast.free
  · rw [(writeSlot_links s i tag free pool_free t).2.2.1, hlast.next]

/-- A slab that is not the last leaves the free list. -/
theorem TailOf.makeFull {s : SlabId} (ht : TailOf h q) (hself : (h.slab s).free_prev ≠ some s)
    (hprev : ∀ t, some t = (h.slab s).free_prev → (h.slab t).free_next = some s)
    (hhead : (h.pools p).free_head ≠ none) : TailOf (makeFull h p s) q := by
  rw [makeFull_eq h p hself]
  rcases ht with ⟨hnone, htail⟩ | ⟨t, htail, ht⟩
  · have hq : q ≠ p := fun hq => hhead (hq ▸ hnone)
    exact .inl ⟨by simp [hq, hnone], by simp [hq, htail]⟩
  · refine .inr ⟨t, ?_, ht.lt, ht.pool, ht.free, ?_⟩
    · by_cases hq : q = p
      · subst hq
        simpa using htail
      · simpa [hq] using htail
    · have hne : some t ≠ (h.slab s).free_prev := fun heq => by
        have hnext := hprev t heq
        rw [ht.next] at hnext
        cases hnext
      simp [hne, ht.next]

omit [DecidableEq ι] in
/-- A slab of the free list comes after the one before it. -/
theorem PoolInv.next_of_prev {full : List SlabId} (hp : PoolInv h p full) {s t : SlabId}
    (hs : s ∈ freeOf h full) (hprev : some t = (h.slab s).free_prev) :
    (h.slab t).free_next = some s := by
  obtain ⟨xs, ys, hxs⟩ := List.append_of_mem hs
  have hlinked := hp.free_linked
  rw [hxs] at hlinked
  have hlast : (h.slab s).free_prev = xs.getLast? := hlinked.prev_eq
  rw [hlast] at hprev
  obtain ⟨zs, rfl⟩ := List.getLast?_eq_some_iff.mp hprev.symm
  rw [List.append_assoc, List.singleton_append] at hlinked
  exact hlinked.next_eq

/-- **Taking a slot** keeps the end right unless it is the last slot of the last slab. -/
theorem TailOf.takeSlot (hinv : Inv h) {s : SlabId} (hs : s < h.slabs)
    (hpool : (h.slab s).pool = p) (hpos : 0 < (h.slab s).free) (ht : TailOf h q)
    (hlast : IsLast h p s → (h.pools p).free_tail = some s → (h.slab s).free ≠ 1) (i : Nat)
    (tag : UInt64) : TailOf (takeSlot h p s i tag) q := by
  have hkeep : IsLast h q s → (h.pools q).free_tail = some s → 0 < (h.slab s).free - 1 := by
    intro hq htail
    obtain rfl : p = q := hpool.symm.trans hq.pool
    have hne := hlast hq htail
    omega
  have hwritten := ht.writeSlot (p := p) hkeep i tag ((h.pools p).free - 1)
  rw [takeSlot_eq]
  split_ifs with hfull
  · obtain ⟨own, hown⟩ := hinv.pools p
    have hmem : s ∈ freeOf h own := mem_freeOf.mpr ⟨(hown.mem s).mpr ⟨hs, hpool⟩, hpos⟩
    have hlinks := writeSlot_links (h := h) (p := p) s i tag ((h.slab s).free - 1)
      ((h.pools p).free - 1)
    refine hwritten.makeFull ?_ (fun t hprev => ?_) ?_
    · rw [(hlinks s).2.2.2]
      exact (hown.neighbours ((hown.mem s).mpr ⟨hs, hpool⟩) hpos).1
    · rw [(hlinks s).2.2.2] at hprev
      rw [(hlinks t).2.2.1]
      exact hown.next_of_prev hmem hprev
    · rw [writeSlot_pools, if_pos rfl]
      dsimp only
      rw [hown.free_head, ne_eq, List.head?_eq_none_iff]
      exact List.ne_nil_of_mem hmem
  · exact hwritten

/-- Where `makeFree` puts a slab. -/
theorem makeFree_cases {as bs : List SlabId} {s : SlabId} (hrun : makeFree h p s = .ok h')
    (hlinked : Linked (fun y => (h.slab y).next) (fun y => (h.slab y).prev) (as ++ s :: bs))
    (hlength : as.length ≤ h.slabs) :
    h' = addFreeFront h p s ∨ ∃ cur ∈ freeOf h as, h' = addFreeAfter h p s cur := by
  have hprev : (h.slab s).prev = as.getLast? := hlinked.prev_eq
  rw [makeFree, hprev, findPredecessor_spec hlinked (Nat.lt_succ_of_le hlength), ok_bind] at hrun
  cases hcur : (freeOf h as).getLast? with
  | none =>
    rw [hcur] at hrun
    exact .inl (Except.ok.inj hrun).symm
  | some cur =>
    rw [hcur] at hrun
    exact .inr ⟨cur, List.mem_of_getLast? hcur, (Except.ok.inj hrun).symm⟩

/-- **Freeing a slot** keeps the end right. -/
theorem TailOf.freeSlot (hinv : Inv h) {s : SlabId} (hs : s < h.slabs)
    (hpool : (h.slab s).pool = p) (ht : ∀ q, TailOf h q) {i pool_free : Nat}
    (hrun : (if (h.slab s).free + 1 = 1
        then makeFree (Vhmalloc.writeSlot h p s i 0 ((h.slab s).free + 1) pool_free) p s
        else .ok (Vhmalloc.writeSlot h p s i 0 ((h.slab s).free + 1) pool_free)) = .ok h') :
    TailOf h' q := by
  have hwritten : ∀ q, TailOf (Vhmalloc.writeSlot h p s i 0 ((h.slab s).free + 1) pool_free) q :=
    fun q => (ht q).writeSlot (fun _ _ => Nat.succ_pos _) i 0 pool_free
  split_ifs at hrun with hone
  · obtain ⟨own, hown⟩ := hinv.pools p
    obtain ⟨as, bs, rfl⟩ := List.append_of_mem ((hown.mem s).mpr ⟨hs, hpool⟩)
    have hlinks := writeSlot_links (h := h) (p := p) s i 0 ((h.slab s).free + 1) pool_free
    have hw := wrote_writeSlot (h := h) (p := p) s i 0 ((h.slab s).free + 1) pool_free
    have hlength : as.length ≤ h.slabs :=
      (List.length_append ▸ Nat.le_add_right _ _).trans hown.length_le
    have hs_as : s ∉ as := fun hmem =>
      (List.nodup_append.mp hown.nodup).2.2 s hmem s List.mem_cons_self rfl
    have hinserted : Inserted (Vhmalloc.writeSlot h p s i 0 ((h.slab s).free + 1) pool_free) p s := by
      refine ⟨hs, (hw.pool s).trans hpool, ?_, fun htail => ?_⟩
      · rw [writeSlot_free, if_pos rfl]
        exact Nat.succ_pos _
      · rw [writeSlot_pools, if_pos rfl] at htail
        rcases ht p with ⟨-, hnone⟩ | ⟨t, hsome, hlast⟩
        · rw [hnone] at htail
          cases htail
        · obtain rfl := Option.some.inj (hsome.symm.trans htail)
          have := hlast.free
          omega
    rcases makeFree_cases hrun (hown.linked.congr fun y _ => ⟨(hlinks y).1, (hlinks y).2.1⟩) hlength
      with rfl | ⟨cur, hcur, rfl⟩
    · exact (hwritten q).addFreeFront hinserted
    · obtain ⟨hcur, hfree⟩ := mem_freeOf.mp hcur
      have hne : s ≠ cur := fun heq => hs_as (heq ▸ hcur)
      rw [writeSlot_free, if_neg hne.symm] at hfree
      have hcur_own := List.mem_append_left (s :: bs) hcur
      refine (hwritten q).addFreeAfter hinserted hne ?_ ?_
      · rw [hw.pool]
        exact ((hown.mem cur).mp hcur_own).2
      · rw [writeSlot_pools, if_pos rfl]
        dsimp only
        rw [hown.free_head, ne_eq, List.head?_eq_none_iff]
        exact List.ne_nil_of_mem (mem_freeOf.mpr ⟨hcur_own, hfree⟩)
  · obtain rfl := Except.ok.inj hrun
    exact hwritten q

/-! ## New slabs -/

/-- The slots that a pool has to choose from, after it got the slab that it needs. -/
def roomOf (h : Heap ι) (p : ι) : Nat :=
  if (h.pools p).free ≤ overprovision then
    (h.pools p).free + slabBytes (h.pools p).element_size (2 * overprovision) /
      (h.pools p).element_size
  else (h.pools p).free

omit [DecidableEq ι] in
theorem le_slabBytes (n : Nat) : n * (2 * overprovision) ≤ slabBytes n (2 * overprovision) := by
  unfold slabBytes numPages PAGE overprovision
  simp only [show (2 * 3 = 0) = False by decide, if_false]
  split <;> omega

/-- **A new slab** keeps the end right. -/
theorem TailOf.allocateSlab (hinv : Inv h) (ht : ∀ q, TailOf h q)
    (hsize : ElementSize (h.pools p).element_size) {region : Nat} (haligned : region % PAGE = 0)
    (hrun : allocateSlab h p (2 * overprovision) region = .ok h') :
    (∀ q, TailOf h' q) ∧
      (h'.pools p).free = (h.pools p).free +
        slabBytes (h.pools p).element_size (2 * overprovision) / (h.pools p).element_size ∧
      ∀ s, (h'.pools p).free_tail = some s → (h'.slab s).free = 1 →
        (h.pools p).free_tail = some s ∧ (h.slab s).free = 1 := by
  have hmany : 1 < slabBytes (h.pools p).element_size (2 * overprovision) /
      (h.pools p).element_size := by
    have hle := (Nat.le_div_iff_mul_le hsize.pos).mpr
      (Nat.mul_comm _ (2 * overprovision) ▸ le_slabBytes (h.pools p).element_size)
    exact lt_of_lt_of_le (by decide) hle
  rw [allocateSlab_eq] at hrun
  generalize slabBytes (h.pools p).element_size (2 * overprovision) /
    (h.pools p).element_size = n at *
  rcases markSlabs_spec (newSlab h p n region h.slabMap) haligned h.slabs
    (numPages ((h.pools p).element_size * (2 * overprovision))) with ⟨m, hmark, -⟩ | ⟨-, hmark⟩
  · obtain ⟨h₁, heq, hn, -, hothers, hself, hlinks⟩ := newSlab_links h p n region m
    obtain rfl : h₁ = h' := by
      rw [hmark, ok_bind] at hrun
      exact heq.symm.trans (Except.ok.inj hrun)
    obtain ⟨own, hown⟩ := hinv.pools p
    have hold : ∀ q t, IsLast h q t → (h₁.slab t).pool = q ∧ 0 < (h₁.slab t).free ∧
        (h₁.slab t).free_next = none := fun q t hlast => by
      have hne : t ≠ h.slabs := Nat.ne_of_lt hlast.lt
      rw [hn.pool, hn.free, (hlinks t).2.2.1, if_neg hne, if_neg hne, if_neg hne]
      exact ⟨hlast.pool, hlast.free, hlast.next⟩
    have hlt : ∀ t, t < h.slabs → t < h₁.slabs := fun t ht => by
      rw [hn.slabs]
      exact ht.trans (Nat.lt_succ_self _)
    refine ⟨fun q => ?_, by rw [hself], fun s htail hone => ?_⟩
    · by_cases hq : q = p
      · subst hq
        right
        by_cases hnone : (h.pools q).free_head = none
        · refine ⟨h.slabs, by rw [hself, if_pos hnone], ?_, ?_, ?_, ?_⟩
          · rw [hn.slabs]
            exact Nat.lt_succ_self _
          · rw [hn.pool, if_pos rfl]
          · rw [hn.free, if_pos rfl]
            exact Nat.zero_lt_of_lt hmany
          · rw [(hlinks _).2.2.1, if_pos rfl, hnone]
        · rcases ht q with ⟨hhead, -⟩ | ⟨t, htail, hlast⟩
          · exact absurd hhead hnone
          · obtain ⟨hpool, hfree, hnext⟩ := hold q t hlast
            exact ⟨t, by rw [hself, if_neg hnone, htail], hlt t hlast.lt, hpool, hfree, hnext⟩
      · unfold TailOf
        rw [hothers q hq]
        refine (ht q).imp_right fun ⟨t, htail, hlast⟩ => ?_
        obtain ⟨hpool, hfree, hnext⟩ := hold q t hlast
        exact ⟨t, htail, hlt t hlast.lt, hpool, hfree, hnext⟩
    · rw [hself] at htail
      dsimp only at htail
      rw [hn.free] at hone
      have hne : s ≠ h.slabs := fun heq => by
        rw [if_pos heq] at hone
        omega
      rw [if_neg hne] at hone
      split_ifs at htail with hnone
      · exact absurd (Option.some.inj htail).symm hne
      · exact ⟨htail, hone⟩
  · rw [hmark] at hrun
    cases hrun

/-! ## Runs -/

/-- The random offset is that of the one free slot of the last slab of the free list. -/
def FillsLast (h : Heap ι) (p : ι) (rand : Nat) : Prop :=
  ∃ t, (h.pools p).free_tail = some t ∧ (h.slab t).free = 1 ∧
    rand % roomOf h p + 1 = roomOf h p

/-- A call that does not fill the last slab of the free list, and what is live after it. -/
inductive KeepsLast : Heap ι × Set Obj → Heap ι × Set Obj → Prop
  | allocate {h h' : Heap ι} {live : Set Obj} {p : ι} {tag : UInt64} {rand region ptr : Nat}
      (htag : tag ≠ 0) (hregion : RegionFor h p region) (hlast : ¬ FillsLast h p rand)
      (hcall : allocate h p tag rand region = .ok (ptr, h')) :
      KeepsLast (h, live) (h', insert ⟨ptr, (h.pools p).element_size, tag⟩ live)
  | deallocate {h h' : Heap ι} {live : Set Obj} {o : Obj} {ptr : Nat} {s : SlabId}
      (ho : o ∈ live) (hptr : o.Contains ptr) (hs : getSlab h ptr = some s)
      (hcall : deallocate h s ptr = .ok h') : KeepsLast (h, live) (h', live \ {o})

theorem KeepsLast.step {m m' : Heap ι × Set Obj} (hstep : KeepsLast m m') : Step m m' := by
  cases hstep with
  | allocate htag hregion _ hcall => exact .allocate htag hregion hcall
  | deallocate ho hptr hs hcall => exact .deallocate ho hptr hs hcall

theorem TailOf.allocate (hinv : Inv h) (ht : ∀ q, TailOf h q)
    (hsize : ElementSize (h.pools p).element_size) {tag : UInt64} {rand region ptr : Nat}
    (hregion : RegionFor h p region) (htag : tag ≠ 0) (hlast : ¬ FillsLast h p rand)
    (hcall : allocate h p tag rand region = .ok (ptr, h')) : TailOf h' q := by
  have hassert : assert (tag != 0) = .ok () := congrArg assert (bne_iff_ne.mpr htag)
  rw [allocate_eq, hassert, ok_bind] at hcall
  by_cases hfew : (h.pools p).free ≤ overprovision
  · rw [if_pos hfew] at hcall
    rcases allocateSlab_spec hinv hsize (hregion hfew) with
      ⟨h₁, n, hrun, -, hinv₁, -⟩ | ⟨-, hrun⟩
    · obtain ⟨ht₁, hfree₁, htail₁⟩ := TailOf.allocateSlab hinv ht hsize (hregion hfew).aligned hrun
      have hroom : (h₁.pools p).free = roomOf h p := by rw [roomOf, if_pos hfew, hfree₁]
      have hmany := hsize.slabBytes.2.1
      have hpos : 0 < (h₁.pools p).free := by
        rw [hfree₁]
        exact Nat.add_pos_right _ (Nat.div_pos hmany hsize.pos)
      obtain ⟨s, i, hs, hpool, hi, htakes, hok⟩ := allocate_of_free hinv₁ hpos htag rand
      rw [hrun, ok_bind] at hcall
      obtain ⟨-, rfl⟩ := Prod.mk.inj (Except.ok.inj (hok.symm.trans hcall))
      refine TailOf.takeSlot hinv₁ hs hpool ?_ (ht₁ q) (fun hend htail hone => ?_) i tag
      · rw [(hinv₁.slabs s hs).free]
        exact List.count_pos_iff.mpr (List.mem_of_getElem? hi)
      · obtain ⟨htail, hone'⟩ := htail₁ s htail hone
        exact hlast ⟨s, htail, hone', hroom ▸ htakes hend.next hone⟩
    · rw [hrun] at hcall
      cases hcall
  · rw [if_neg hfew] at hcall
    have hroom : (h.pools p).free = roomOf h p := by rw [roomOf, if_neg hfew]
    obtain ⟨s, i, hs, hpool, hi, htakes, hok⟩ := allocate_of_free hinv
      (Nat.zero_lt_of_lt (not_le.mp hfew)) htag rand
    obtain ⟨-, rfl⟩ := Prod.mk.inj (Except.ok.inj (hok.symm.trans hcall))
    refine TailOf.takeSlot hinv hs hpool ?_ (ht q) (fun hend htail hone => ?_) i tag
    · rw [(hinv.slabs s hs).free]
      exact List.count_pos_iff.mpr (List.mem_of_getElem? hi)
    · exact hlast ⟨s, htail, hone, hroom ▸ htakes hend.next hone⟩

/-- One call. -/
theorem KeepsLast.tailOf {m m' : Heap ι × Set Obj} (hstep : KeepsLast m m') (hm : RunInv m)
    (ht : ∀ q, TailOf m.1 q) (q : ι) : TailOf m'.1 q := by
  obtain ⟨hinv, hsize, hlive⟩ := hm
  cases hstep with
  | @allocate h h' live p tag rand region ptr htag hregion hlast hcall =>
    exact TailOf.allocate hinv ht (hsize p) hregion htag hlast hcall
  | @deallocate h h' live o ptr s ho hptr hs hcall =>
    dsimp only at hlive
    subst hlive
    obtain ⟨s', i, hs', hlt, -, -, -, hindex⟩ := hinv.slot_of_live ho hptr
    obtain rfl : s' = s := Option.some_inj.mp (hs'.symm.trans hs)
    rw [deallocate_eq hindex] at hcall
    exact TailOf.freeSlot hinv hlt rfl ht hcall

omit [DecidableEq ι] in
theorem Inv.counts (hinv : Inv h) {full : List SlabId} (hp : PoolInv h p full) :
    ∀ s ∈ full, (h.slab s).free = (h.slab s).ids.count 0 := fun s hs =>
  (hinv.slabs s ((hp.mem s).mp hs).1).free

/-- **The lists of every pool** in every run whose calls do not fill the last slab of a
free list. -/
theorem pool_lists {start h : Heap ι} {live : Set Obj} (hstart : Start start)
    (hrun : Relation.ReflTransGen KeepsLast (start, ∅) (h, live)) (p : ι) :
    ∃ full, PoolLists h p full := by
  have hboth : ∀ m, Relation.ReflTransGen KeepsLast (start, ∅) m →
      RunInv m ∧ ∀ q, TailOf m.1 q := by
    intro m hm
    induction hm with
    | refl =>
      refine ⟨hstart.runInv, fun q => .inl ?_⟩
      obtain ⟨n, -, heq⟩ := hstart.pools_eq q
      simp [heq]
    | tail _ hstep ih => exact ⟨hstep.step.runInv ih.1, hstep.tailOf ih.1 ih.2⟩
  obtain ⟨hinv, htail⟩ := hboth _ hrun
  obtain ⟨full, hp⟩ := hinv.inv.pools p
  exact ⟨full, hp, hp.tail_iff.mpr (htail p), hinv.inv.counts hp⟩

end

/-! ## A slab at the end becomes full -/

/-- One pool of elements of a page. -/
def pagePool : Heap Unit where
  pools _ := ⟨4096, 0, none, none, none⟩
  slab _ := ⟨(), 0, 0, 0, none, none, none, none, []⟩
  slabs := 0
  slabMap _ := none

theorem pagePool_start : Start pagePool :=
  ⟨rfl, fun _ => rfl, fun _ => ⟨4096, ⟨12, by decide, by decide, by decide⟩,
    congrArg (fun pools => { pagePool with pools }) (funext fun _ => by simp [pagePool])⟩⟩

theorem pagePool_region : RegionFor pagePool () 65536 := fun _ =>
  ⟨by decide, by decide, by decide, fun _ hs => absurd hs (Nat.not_lt_zero _)⟩

/-- The first call of a run finds the pool without slabs. -/
theorem pool_lists_pagePool : ∃ ptr h, allocate pagePool () 7 0 65536 = .ok (ptr, h) ∧
    ∃ full, PoolLists h () full := by
  have hcall : ∃ ptr h, allocate pagePool () 7 0 65536 = .ok (ptr, h) := ⟨_, _, rfl⟩
  obtain ⟨ptr, h, hcall⟩ := hcall
  have hlast : ¬ FillsLast pagePool () 0 := fun ⟨_, htail, _⟩ => nomatch htail
  exact ⟨ptr, h, hcall, pool_lists pagePool_start
    (.single (.allocate (by decide) pagePool_region hlast hcall)) ()⟩

/-- The memory after a call. -/
def afterCall (h : Heap Unit) (rand region : Nat) : Heap Unit :=
  match allocate h () 7 rand region with
  | .ok (_, h') => h'
  | .error _ => h

theorem step_afterCall {h : Heap Unit} (live : Set Obj) (rand : Nat) {region : Nat}
    (hregion : RegionFor h () region) (hok : (allocate h () 7 rand region).isOk = true) :
    ∃ live', Step (h, live) (afterCall h rand region, live') := by
  unfold afterCall
  cases hcall : allocate h () 7 rand region with
  | error e =>
    rw [hcall] at hok
    cases hok
  | ok r => exact ⟨_, .allocate (by decide) hregion hcall⟩

/-- Three slots of a slab of six. -/
def half : Heap Unit := afterCall (afterCall (afterCall pagePool 0 65536) 0 0) 0 0

/-- A second slab, in front of it, and the other three slots of the first. -/
def filled : Heap Unit := afterCall (afterCall (afterCall half 8 90112) 7 0) 6 0

theorem half_region : RegionFor half () 90112 := fun _ => by
  have hslabs : half.slabs = 1 := by decide +kernel
  have hobjects : (half.slab 0).objects = 65536 := by decide +kernel
  have hbytes : half.bytes 0 = 24576 := by decide +kernel
  refine ⟨by decide, by decide, by decide +kernel, fun s hs ptr hptr hle => ?_⟩
  obtain rfl : s = 0 := by omega
  have hlt := hptr.2
  omega

/-- **After the last slab of the free list became full**, the list ends elsewhere. -/
theorem filled_not_lists : ∃ live, Relation.ReflTransGen Step (pagePool, ∅) (filled, live) ∧
    ¬ ∃ full, PoolLists filled () full := by
  have hmany : ∀ h : Heap Unit, overprovision < (h.pools ()).free → ∀ region,
      RegionFor h () region := fun h hlt region hle => absurd hle (not_le.mpr hlt)
  obtain ⟨live₁, h₁⟩ := step_afterCall ∅ 0 pagePool_region (by rfl)
  obtain ⟨live₂, h₂⟩ := step_afterCall live₁ 0
    (hmany (afterCall pagePool 0 65536) (by decide +kernel) 0) (by decide +kernel)
  obtain ⟨live₃, h₃⟩ := step_afterCall live₂ 0
    (hmany (afterCall (afterCall pagePool 0 65536) 0 0) (by decide +kernel) 0) (by decide +kernel)
  obtain ⟨live₄, h₄⟩ := step_afterCall live₃ 8 half_region (by decide +kernel)
  obtain ⟨live₅, h₅⟩ := step_afterCall live₄ 7
    (hmany (afterCall half 8 90112) (by decide +kernel) 0) (by decide +kernel)
  obtain ⟨live₆, h₆⟩ := step_afterCall live₅ 6
    (hmany (afterCall (afterCall half 8 90112) 7 0) (by decide +kernel) 0) (by decide +kernel)
  refine ⟨live₆, (((((Relation.ReflTransGen.single h₁).tail h₂).tail h₃).tail h₄).tail h₅).tail h₆, ?_⟩
  rintro ⟨full, hp⟩
  have htail : (filled.pools ()).free_tail = some 0 := by decide +kernel
  have hfull : (filled.slab 0).free = 0 := by decide +kernel
  rw [hp.free_tail] at htail
  have hmem := (mem_freeOf.mp (List.mem_of_getLast? htail)).2
  omega

end Bracelet.Vhmalloc
