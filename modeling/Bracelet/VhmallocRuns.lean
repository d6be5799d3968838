import Bracelet.VhmallocCalls

/-!
# Runs of the allocator

A run starts with pools that have no slabs, and keeps the set of live objects beside the
memory as the calls say it: what `allocate` returns is live until a pointer into it is
freed.  The memory of every run stands for that set, so no call of a run reaches a
failure path (`calls_safe`), and `PointerInfo.of` is exact about it (`lookup_exact`).
-/
namespace Bracelet.Vhmalloc

/-! ## Runs on pools -/

section
variable {ι : Type} [DecidableEq ι]

/-- Pools that `poolinit` has just made. -/
structure Start (h : Heap ι) : Prop where
  slabs : h.slabs = 0
  slabMap : ∀ region, h.slabMap region = none
  pools : ∀ p, ∃ n, ElementSize n ∧ poolinit h p n = h

/-- The region that a call may need for a slab is fresh. -/
def RegionFor (h : Heap ι) (p : ι) (region : Nat) : Prop :=
  (h.pools p).free ≤ overprovision →
    Fresh h region (slabBytes (h.pools p).element_size (2 * overprovision))

/-- One call, and what is live after it. -/
inductive Step : Heap ι × Set Obj → Heap ι × Set Obj → Prop
  | allocate {h h' : Heap ι} {live : Set Obj} {p : ι} {tag : UInt64} {rand region ptr : Nat}
      (htag : tag ≠ 0) (hregion : RegionFor h p region)
      (hcall : allocate h p tag rand region = .ok (ptr, h')) :
      Step (h, live) (h', insert ⟨ptr, (h.pools p).element_size, tag⟩ live)
  | deallocate {h h' : Heap ι} {live : Set Obj} {o : Obj} {ptr : Nat} {s : SlabId}
      (ho : o ∈ live) (hptr : o.Contains ptr) (hs : getSlab h ptr = some s)
      (hcall : deallocate h s ptr = .ok h') : Step (h, live) (h', live \ {o})

/-- What holds in every run on pools. -/
structure RunInv (m : Heap ι × Set Obj) : Prop where
  inv : Inv m.1
  element_size : ∀ p, ElementSize (m.1.pools p).element_size
  live : m.1.live = m.2

theorem Start.pools_eq {h : Heap ι} (hstart : Start h) (p : ι) :
    ∃ n, ElementSize n ∧ h.pools p = ⟨n, 0, none, none, none⟩ := by
  obtain ⟨n, hn, heq⟩ := hstart.pools p
  refine ⟨n, hn, ?_⟩
  rw [← heq]
  exact Function.update_self ..

omit [DecidableEq ι] in
/-- Memory without slabs. -/
theorem inv_of_empty {h : Heap ι} (hslabs : h.slabs = 0) (hmap : ∀ region, h.slabMap region = none)
    (hpools : ∀ p, (h.pools p).free = 0 ∧ (h.pools p).free_head = none ∧
      (h.pools p).full_head = none) : Inv h ∧ h.live = ∅ := by
  have hnone : ∀ s, ¬ s < h.slabs := fun s hs => by
    rw [hslabs] at hs
    exact Nat.not_lt_zero s hs
  refine ⟨⟨fun s hs => absurd hs (hnone s), fun s hs => absurd hs (hnone s), fun ptr s => ?_,
    fun p => ⟨[], List.nodup_nil, fun s => ?_, trivial, (hpools p).2.2, trivial, (hpools p).2.1,
      (hpools p).1⟩⟩, ?_⟩
  · refine ⟨fun hs => ?_, fun hs => absurd hs.1 (hnone s)⟩
    rw [getSlab_eq, hmap] at hs
    split_ifs at hs
    simp at hs
  · simp [hnone]
  · ext o
    simp only [Set.mem_empty_iff_false, iff_false]
    rintro ⟨s, hs, -⟩
    exact hnone s hs

theorem Start.runInv {h : Heap ι} (hstart : Start h) : RunInv (h, ∅) := by
  have hpools := hstart.pools_eq
  obtain ⟨hinv, hlive⟩ := inv_of_empty hstart.slabs hstart.slabMap fun p => by
    obtain ⟨n, -, heq⟩ := hpools p
    simp [heq]
  refine ⟨hinv, fun p => ?_, hlive⟩
  obtain ⟨n, hn, heq⟩ := hpools p
  dsimp only
  rwa [heq]

/-- One call. -/
theorem Step.runInv {m m' : Heap ι × Set Obj} (hstep : Step m m') (hm : RunInv m) : RunInv m' := by
  obtain ⟨hinv, hsize, hlive⟩ := hm
  cases hstep with
  | @allocate h h' live p tag rand region ptr htag hregion hcall =>
    rcases allocate_spec hinv (hsize p) htag rand hregion with
      ⟨o, h₁, hok, rfl, hdone⟩ | ⟨-, -, herror⟩
    · obtain ⟨rfl, rfl⟩ : o.base = ptr ∧ h₁ = h' := by
        simpa using hok.symm.trans hcall
      refine ⟨hdone.inv, fun q => ?_, ?_⟩
      · dsimp only
        rw [hdone.element_size]
        exact hsize q
      · dsimp only at hlive ⊢
        rw [hdone.live, hlive, ← hdone.size]
    · rw [herror] at hcall
      exact absurd hcall (by simp)
  | @deallocate h h' live o ptr s ho hptr hs hcall =>
    dsimp only at hlive
    subst hlive
    obtain ⟨s', i, h₁, hs', hok, hw, hinv', hlive'⟩ := deallocate_spec hinv ho hptr
    obtain rfl : s' = s := Option.some_inj.mp (hs'.symm.trans hs)
    obtain rfl : h₁ = h' := by simpa using hok.symm.trans hcall
    refine ⟨hinv', fun q => ?_, hlive'⟩
    dsimp only
    rw [hw.element_size]
    exact hsize q

/-- **Every run** keeps the memory and what it stands for. -/
theorem runInv_of_run {h : Heap ι} (hstart : Start h) {m : Heap ι × Set Obj}
    (hrun : Relation.ReflTransGen Step (h, ∅) m) : RunInv m := by
  induction hrun with
  | refl => exact hstart.runInv
  | tail _ hstep ih => exact hstep.runInv ih

/-- **No call of a run reaches a failure path, and no live object is handed out**: a call
of `allocate` returns an element inside of its slab that shares no address with a live
object, unless its slab lies beyond what the page map covers, and `deallocate` returns
for every pointer into a live object. -/
theorem calls_safe {start h : Heap ι} {live : Set Obj} (hstart : Start start)
    (hrun : Relation.ReflTransGen Step (start, ∅) (h, live)) :
    (∀ (p : ι) (tag : UInt64) (rand region : Nat), tag ≠ 0 → RegionFor h p region →
      (∃ ptr h', allocate h p tag rand region = .ok (ptr, h') ∧
        (∃ s, getSlab h' ptr = some s ∧ ∀ x, ptr ≤ x → x < ptr + (h.pools p).element_size →
          h'.Within s x) ∧
        ∀ o ∈ live, ∀ x, ptr ≤ x → x < ptr + (h.pools p).element_size → ¬ o.Contains x) ∨
      ((h.pools p).free ≤ overprovision ∧
        2 ^ 47 < region + slabBytes (h.pools p).element_size (2 * overprovision) ∧
        allocate h p tag rand region = .error .outOfBounds)) ∧
    ∀ o ∈ live, ∀ ptr, o.Contains ptr →
      ∃ s h', getSlab h ptr = some s ∧ deallocate h s ptr = .ok h' := by
  obtain ⟨hinv, hsize, hlive⟩ := runInv_of_run hstart hrun
  dsimp only at hinv hsize hlive
  subst hlive
  refine ⟨fun p tag rand region htag hregion => ?_, fun o ho ptr hptr => ?_⟩
  · rcases allocate_spec hinv (hsize p) htag rand hregion with ⟨o, h', hok, -, hdone⟩ | herror
    · obtain ⟨s, hs, hwithin⟩ := hdone.within
      rw [← hdone.size]
      have hbase : h'.Within s o.base :=
        hwithin o.base ⟨le_rfl, Nat.lt_add_of_pos_right (hdone.size ▸ (hsize p).pos)⟩
      exact .inl ⟨o.base, h', hok, ⟨s, (hdone.inv.map o.base s).mpr ⟨hs, hbase⟩,
        fun x hle hlt => hwithin x ⟨hle, hlt⟩⟩, fun o' ho' x hle hlt => hdone.disjoint o' ho' x ⟨hle, hlt⟩⟩
    · exact .inr herror
  · obtain ⟨s, i, h', hs, hok, -⟩ := deallocate_spec hinv ho hptr
    exact ⟨s, h', hs, hok⟩

/-- One pool of elements of 16 bytes. -/
def onePool : Heap Unit where
  pools _ := ⟨16, 0, none, none, none⟩
  slab _ := ⟨(), 0, 0, 0, none, none, none, none, []⟩
  slabs := 0
  slabMap _ := none

theorem onePool_start : Start onePool :=
  ⟨rfl, fun _ => rfl, fun _ => ⟨16, ⟨4, by decide, by decide, rfl⟩, by
    simp [poolinit, Heap.setPool, onePool]⟩⟩

theorem onePool_region : RegionFor onePool () 65536 := fun _ =>
  ⟨by decide, by decide, by decide, fun _ hs => absurd hs (Nat.not_lt_zero _)⟩

/-- An element is allocated, and freed by a pointer to its last byte. -/
theorem calls_safe_onePool : ∃ ptr h h', allocate onePool () 7 0 65536 = .ok (ptr, h) ∧
    ∃ s, getSlab h (ptr + 15) = some s ∧ deallocate h s (ptr + 15) = .ok h' := by
  rcases (calls_safe onePool_start .refl).1 () 7 0 65536 (by decide) onePool_region with
    ⟨ptr, h, hok, -⟩ | ⟨-, hbound, -⟩
  · have hstep : Step (onePool, ∅) (h, {⟨ptr, 16, 7⟩}) := by
      have hstep := @Step.allocate Unit _ _ h ∅ () 7 0 65536 ptr (by decide) onePool_region hok
      rwa [insert_empty_eq] at hstep
    obtain ⟨s, h', hs, hcall⟩ := (calls_safe onePool_start (.single hstep)).2 _
      (Set.mem_singleton _) (ptr + 15) ⟨by simp, by simp⟩
    exact ⟨ptr, h, h', hok, s, hs, hcall⟩
  · exact absurd hbound (by decide)

end

/-! ## Runs of the interface -/

section
variable {τ : Type} [DecidableEq τ]

/-- A program none of whose threads has called `xxmalloc`. -/
structure Process.Start (m : Process τ) : Prop where
  ready : ∀ t, m.ready t = false
  slabs : m.heap.slabs = 0
  slabMap : ∀ region, m.heap.slabMap region = none
  pools : ∀ p, m.heap.pools p = ⟨0, 0, none, none, none⟩

/-- The region that a call of `xxmalloc` may need for a slab is fresh, and below 2^47. -/
def Process.RegionFor (m : Process τ) (t : τ) (bin region : Nat) : Prop :=
  Vhmalloc.RegionFor (m.getReady t).heap (t, bin) region ∧
    (((m.getReady t).heap.pools (t, bin)).free ≤ overprovision →
      region + slabBytes ((m.getReady t).heap.pools (t, bin)).element_size
        (2 * overprovision) ≤ 2 ^ 47)

/-- One call that returns, and what is live after it. -/
inductive Process.Step : Process τ × Set Obj → Process τ × Set Obj → Prop
  | xxmalloc_null {m m' : Process τ} {live : Set Obj} {t : τ} {clzl_zero size rand region : Nat}
      (hcall : xxmalloc clzl_zero m t size rand region = .ok (none, m')) :
      Process.Step (m, live) (m', live)
  | xxmalloc {m m' : Process τ} {live : Set Obj} {t : τ} {clzl_zero size rand region ptr : Nat}
      (hregion : m.RegionFor t (sizeBin clzl_zero size) region)
      (hcall : xxmalloc clzl_zero m t size rand region = .ok (some ptr, m')) :
      Process.Step (m, live) (m', insert ⟨ptr,
        ((m.getReady t).heap.pools (t, sizeBin clzl_zero size)).element_size, Tag_max⟩ live)
  | setTag {m : Process τ} {heap : Heap (τ × Nat)} {live : Set Obj} {o : Obj} {ptr : Nat}
      {tag : UInt64} (ho : o ∈ live) (hptr : o.Contains ptr) (htag : tag ≠ 0)
      (hcall : setTag m.heap ptr tag = .ok heap) :
      Process.Step (m, live) ({ m with heap := heap }, insert { o with tag := tag } (live \ {o}))
  | xxfree {m : Process τ} {heap : Heap (τ × Nat)} {live : Set Obj} {o : Obj} {ptr : Nat}
      (ho : o ∈ live) (hptr : o.Contains ptr) (hcall : xxfree m.heap ptr = .ok heap) :
      Process.Step (m, live) ({ m with heap := heap }, live \ {o})

/-- What holds in every run of a program. -/
structure Process.RunInv (m : Process τ × Set Obj) : Prop where
  inv : Inv m.1.heap
  ready : ∀ t, m.1.ready t = true → ∀ i < NUMPOOLS,
    (m.1.heap.pools (t, i)).element_size = 2 ^ (i + 4)
  unready : ∀ t, m.1.ready t = false → ∀ s < m.1.heap.slabs, (m.1.heap.slab s).pool.1 ≠ t
  live : m.1.heap.live = m.2

omit [DecidableEq τ] in
theorem Process.Start.runInv {m : Process τ} (hstart : m.Start) : Process.RunInv (m, ∅) := by
  obtain ⟨hinv, hlive⟩ := inv_of_empty hstart.slabs hstart.slabMap fun p => by
    simp [hstart.pools]
  refine ⟨hinv, fun t ht => ?_, fun t _ s hs => ?_, hlive⟩
  · rw [hstart.ready] at ht
    exact absurd ht (by decide)
  · rw [hstart.slabs] at hs
    exact absurd hs (Nat.not_lt_zero s)

/-- The pools of a thread after `n` of them were made. -/
theorem initPools_fold (h : Heap (τ × Nat)) (t : τ) (n : Nat) :
    ∃ pools, (List.range n).foldl (fun h i => poolinit h (t, i) (2 ^ (i + 4))) h =
      { h with pools := pools } ∧ (∀ i < n, pools (t, i) = ⟨2 ^ (i + 4), 0, none, none, none⟩) ∧
      ∀ q, q.1 ≠ t ∨ n ≤ q.2 → pools q = h.pools q := by
  induction n with
  | zero => exact ⟨h.pools, rfl, fun i hi => absurd hi (Nat.not_lt_zero i), fun _ _ => rfl⟩
  | succ n ih =>
    obtain ⟨pools, hrun, hnew, hold⟩ := ih
    rw [List.range_succ, List.foldl_append, hrun]
    refine ⟨Function.update pools (t, n) ⟨2 ^ (n + 4), 0, none, none, none⟩, rfl,
      fun i hi => ?_, fun q hq => ?_⟩
    · by_cases hin : i = n
      · rw [hin, Function.update_self]
      · have hne : (t, i) ≠ (t, n) := fun heq => hin (Prod.mk.inj heq).2
        rw [Function.update_of_ne hne]
        exact hnew i (by omega)
    · have hne : q ≠ (t, n) := by
        rintro rfl
        rcases hq with hq | hq
        · exact hq rfl
        · exact Nat.not_succ_le_self n hq
      rw [Function.update_of_ne hne]
      exact hold q (hq.imp_right Nat.le_of_succ_le)

omit [DecidableEq τ] in
/-- Memory in which pools differ that no slab is of. -/
theorem Inv.congr_pools {h : Heap (τ × Nat)} (hinv : Inv h) {pools : τ × Nat → Pool}
    (hpools : ∀ s < h.slabs, pools (h.slab s).pool = h.pools (h.slab s).pool)
    (hnew : ∀ q, pools q = h.pools q ∨ (∀ s < h.slabs, (h.slab s).pool ≠ q) ∧
      (pools q).free = 0 ∧ (pools q).free_head = none ∧ (pools q).full_head = none) :
    Inv { h with pools := pools } ∧ ({ h with pools := pools } : Heap (τ × Nat)).live = h.live := by
  have hbytes : ∀ s < h.slabs, ({ h with pools := pools } : Heap (τ × Nat)).bytes s = h.bytes s :=
    fun s hs => by
      unfold Heap.bytes
      dsimp only
      rw [hpools s hs]
  have hwithin : ∀ s < h.slabs, ∀ ptr,
      ({ h with pools := pools } : Heap (τ × Nat)).Within s ptr ↔ h.Within s ptr :=
    fun s hs ptr => by rw [Heap.Within, hbytes s hs]; rfl
  refine ⟨⟨fun s hs => ?_, fun s hs s' hs' ptr hptr hptr' => ?_, fun ptr s => ?_, fun q => ?_⟩, ?_⟩
  · have hslab := hinv.slabs s hs
    refine ⟨?_, hslab.ids, hslab.free, ?_, hslab.pos, hslab.aligned, ?_, ?_⟩
    · dsimp only
      rw [hpools s hs]
      exact hslab.element_size
    · rw [hbytes s hs, hslab.whole_pages]
    · rw [hbytes s hs]
      exact hslab.bound
    · rw [hbytes s hs]
      exact hslab.small
  · exact hinv.disjoint s hs s' hs' ptr ((hwithin s hs ptr).mp hptr) ((hwithin s' hs' ptr).mp hptr')
  · exact (hinv.map ptr s).trans (and_congr_right fun hs => (hwithin s hs ptr).symm)
  · obtain ⟨full, hp⟩ := hinv.pools q
    rcases hnew q with hq | ⟨hnone, hfree, hfree_head, hfull_head⟩
    · exact ⟨full, hp.congr hp.mem (fun _ _ => ⟨rfl, rfl⟩) (fun _ _ => ⟨rfl, rfl⟩)
        (fun _ _ => rfl) (by dsimp only; rw [hq]) (by dsimp only; rw [hq])
        (by dsimp only; rw [hq])⟩
    · refine ⟨[], List.nodup_nil, fun s => ?_, trivial, hfull_head, trivial, hfree_head, hfree⟩
      simpa using hnone s
  · ext o
    have hslot : ∀ s < h.slabs, ∀ i tag,
        ({ h with pools := pools } : Heap (τ × Nat)).slot s i tag = h.slot s i tag :=
      fun s hs i tag => by
        unfold Heap.slot
        dsimp only
        rw [hpools s hs]
    constructor
    · rintro ⟨s, hs, i, tag, hi, htag, rfl⟩
      exact ⟨s, hs, i, tag, hi, htag, hslot s hs i tag⟩
    · rintro ⟨s, hs, i, tag, hi, htag, rfl⟩
      exact ⟨s, hs, i, tag, hi, htag, (hslot s hs i tag).symm⟩

/-- **A thread gets its pools.** -/
theorem Process.RunInv.getReady {m : Process τ} {live : Set Obj} (hm : Process.RunInv (m, live))
    (t : τ) : Process.RunInv (m.getReady t, live) ∧ (m.getReady t).ready t = true := by
  unfold Process.getReady
  split_ifs with ht
  · exact ⟨hm, ht⟩
  · obtain ⟨pools, hrun, hnew, hold⟩ := initPools_fold m.heap t NUMPOOLS
    have hunready := hm.unready t (Bool.eq_false_iff.mpr ht)
    have hpools : ∀ s < m.heap.slabs, pools (m.heap.slab s).pool =
        m.heap.pools (m.heap.slab s).pool := fun s hs => hold _ (.inl (hunready s hs))
    obtain ⟨hinv, hlive⟩ := hm.inv.congr_pools hpools fun q => by
      by_cases hq : q.1 = t ∧ q.2 < NUMPOOLS
      · obtain ⟨rfl, hi⟩ := hq
        refine .inr ⟨fun s hs heq => hunready s hs (congrArg Prod.fst heq), ?_⟩
        rw [hnew q.2 hi]
        exact ⟨rfl, rfl, rfl⟩
      · refine .inl (hold q ?_)
        rwa [not_and_or, not_lt] at hq
    unfold initPools
    rw [hrun]
    refine ⟨⟨hinv, fun t' ht' i hi => ?_, fun t' ht' s hs => ?_, hlive.trans hm.live⟩,
      Function.update_self ..⟩
    · dsimp only at ht' ⊢
      by_cases htt : t' = t
      · rw [htt, hnew i hi]
      · rw [Function.update_of_ne htt] at ht'
        rw [hold (t', i) (.inl htt)]
        exact hm.ready t' ht' i hi
    · dsimp only at ht' hs ⊢
      have htt : t' ≠ t := by
        rintro rfl
        rw [Function.update_self] at ht'
        exact absurd ht' (by decide)
      rw [Function.update_of_ne htt] at ht'
      exact hm.unready t' ht' s hs

/-- **`xxmalloc`** of a size that is not zero. -/
theorem xxmalloc_spec {m : Process τ} {live : Set Obj} (hm : Process.RunInv (m, live)) (t : τ)
    {clzl_zero size : Nat} (hsize : size ≠ 0) (hbin : sizeBin clzl_zero size < NUMPOOLS)
    (rand : Nat) {region : Nat} (hregion : m.RegionFor t (sizeBin clzl_zero size) region) :
    ∃ o h', xxmalloc clzl_zero m t size rand region =
        .ok (some o.base, { m.getReady t with heap := h' }) ∧ o.tag = Tag_max ∧
      Allocated (m.getReady t).heap h' (t, sizeBin clzl_zero size) o := by
  obtain ⟨hready, ht⟩ := hm.getReady t
  have hpool := hready.ready t ht _ hbin
  have helement : ElementSize
      ((m.getReady t).heap.pools (t, sizeBin clzl_zero size)).element_size := by
    rw [hpool]
    exact ⟨_, Nat.le_add_left .., by unfold NUMPOOLS at hbin; omega, rfl⟩
  have hmax : Tag_max ≠ 0 := by decide
  rcases allocate_spec hready.inv helement hmax rand hregion.1 with
    ⟨o, h', hok, htag, hdone⟩ | ⟨hfew, hbound, -⟩
  · refine ⟨o, h', ?_, htag, hdone⟩
    unfold xxmalloc
    rw [if_neg hsize]
    dsimp only
    rw [decide_eq_true hbin, assert_true, ok_bind, hok]
    rfl
  · exact absurd hbound (not_lt.mpr (hregion.2 hfew))

/-- A call of `xxmalloc` that returns memory. -/
theorem xxmalloc_some {m m' : Process τ} {t : τ} {clzl_zero size rand region ptr : Nat}
    (hcall : xxmalloc clzl_zero m t size rand region = .ok (some ptr, m')) :
    size ≠ 0 ∧ sizeBin clzl_zero size < NUMPOOLS := by
  unfold xxmalloc at hcall
  split_ifs at hcall with hsize
  · cases hcall
  · refine ⟨hsize, ?_⟩
    by_contra hbin
    dsimp only at hcall
    rw [decide_eq_false hbin] at hcall
    cases hcall

/-- A call of `xxmalloc` that returns null. -/
theorem xxmalloc_none {m m' : Process τ} {t : τ} {clzl_zero size rand region : Nat}
    (hcall : xxmalloc clzl_zero m t size rand region = .ok (none, m')) : m' = m := by
  unfold xxmalloc at hcall
  split_ifs at hcall with hsize
  · cases hcall
    rfl
  · dsimp only at hcall
    cases hassert : assert (sizeBin clzl_zero size < NUMPOOLS) with
    | error e =>
      rw [hassert] at hcall
      cases hcall
    | ok u =>
      rw [hassert, ok_bind] at hcall
      cases halloc : allocate (m.getReady t).heap (t, sizeBin clzl_zero size) Tag_max rand region with
      | error e =>
        rw [halloc] at hcall
        cases hcall
      | ok r =>
        rw [halloc, ok_bind] at hcall
        cases hcall

omit [DecidableEq τ] in
/-- A call that changed one slot. -/
theorem Process.RunInv.wrote {m : Process τ} {live live' : Set Obj}
    (hm : Process.RunInv (m, live)) {h' : Heap (τ × Nat)} {s : SlabId} {i : Nat} {tag : UInt64}
    (hw : Wrote m.heap h' s i tag) (hinv : Inv h') (hlive : h'.live = live') :
    Process.RunInv ({ m with heap := h' }, live') where
  inv := hinv
  ready t ht i hi := (hw.element_size (t, i)).trans (hm.ready t ht i hi)
  unready t ht y hy := by
    dsimp only at hy ⊢
    rw [hw.pool]
    exact hm.unready t ht y (hw.slabs ▸ hy)
  live := hlive

/-- **One call.** -/
theorem Process.Step.runInv {m m' : Process τ × Set Obj} (hstep : Process.Step m m')
    (hm : Process.RunInv m) : Process.RunInv m' := by
  cases hstep with
  | xxmalloc_null hcall =>
    obtain rfl := xxmalloc_none hcall
    exact hm
  | @xxmalloc m m' live t clzl_zero size rand region ptr hregion hcall =>
    obtain ⟨hsize, hbin⟩ := xxmalloc_some hcall
    obtain ⟨hready, ht⟩ := hm.getReady t
    obtain ⟨o, h', hok, htag, hdone⟩ := xxmalloc_spec hm t hsize hbin rand hregion
    obtain ⟨rfl, rfl⟩ : o.base = ptr ∧ { m.getReady t with heap := h' } = m' := by
      simpa using hok.symm.trans hcall
    refine ⟨hdone.inv, fun t' ht' i hi => ?_, fun t' ht' s hs => ?_, ?_⟩
    · exact (hdone.element_size (t', i)).trans (hready.ready t' ht' i hi)
    · rcases hdone.pool s hs with hpool | ⟨s', hs', hpool⟩
      · rintro rfl
        dsimp only at hpool ht'
        rw [hpool, ht] at ht'
        cases ht'
      · dsimp only at hpool ⊢
        rw [hpool]
        exact hready.unready t' ht' s' hs'
    · have hlive := hready.live
      dsimp only at hlive ⊢
      rw [hdone.live, hlive, ← hdone.size, ← htag]
  | @setTag m heap live o ptr tag ho hptr htag hcall =>
    have hlive := hm.live
    dsimp only at hlive
    rw [← hlive] at ho ⊢
    rcases setTag_spec hm.inv ho hptr tag with ⟨-, -, s, i, h', hok, hw, hinv', hlive'⟩ | ⟨-, herror⟩
    · obtain rfl : h' = heap := by simpa using hok.symm.trans hcall
      exact hm.wrote hw hinv' hlive'
    · rw [herror] at hcall
      cases hcall
  | @xxfree m heap live o ptr ho hptr hcall =>
    have hlive := hm.live
    dsimp only at hlive
    rw [← hlive] at ho ⊢
    obtain ⟨s, i, h', hok, hw, hinv', hlive'⟩ := xxfree_spec hm.inv ho hptr
    obtain rfl : h' = heap := by simpa using hok.symm.trans hcall
    exact hm.wrote hw hinv' hlive'

theorem process_runInv_of_run {start : Process τ} (hstart : start.Start)
    {m : Process τ × Set Obj} (hrun : Relation.ReflTransGen Process.Step (start, ∅) m) :
    Process.RunInv m := by
  induction hrun with
  | refl => exact hstart.runInv
  | tail _ hstep ih => exact hstep.runInv ih

/-- **Which calls return**, in every run: `xxfree` always, `setTag` for objects without a
tag, `xxmalloc` for sizes that have a pool. -/
theorem calls_return {start m : Process τ} {live : Set Obj} (hstart : start.Start)
    (hrun : Relation.ReflTransGen Process.Step (start, ∅) (m, live)) :
    (∀ o ∈ live, ∀ ptr, o.Contains ptr → ∃ h', xxfree m.heap ptr = .ok h') ∧
    (∀ o ∈ live, ∀ ptr, o.Contains ptr → ∀ tag,
      (∃ h', setTag m.heap ptr tag = .ok h') ↔ tag ≠ 0 ∧ o.tag = Tag_max) ∧
    ∀ t clzl_zero size rand region, size ≠ 0 → sizeBin clzl_zero size < NUMPOOLS →
      m.RegionFor t (sizeBin clzl_zero size) region →
      ∃ ptr m', xxmalloc clzl_zero m t size rand region = .ok (some ptr, m') := by
  have hm := process_runInv_of_run hstart hrun
  have hlive := hm.live
  dsimp only at hlive
  refine ⟨fun o ho ptr hptr => ?_, fun o ho ptr hptr tag => ?_,
    fun t clzl_zero size rand region hsize hbin hregion => ?_⟩
  · obtain ⟨-, -, h', hok, -⟩ := xxfree_spec hm.inv (hlive ▸ ho) hptr
    exact ⟨h', hok⟩
  · rcases setTag_spec hm.inv (hlive ▸ ho) hptr tag with
      ⟨hzero, hmax, -, -, h', hok, -⟩ | ⟨hnot, herror⟩
    · exact iff_of_true ⟨h', hok⟩ ⟨hzero, hmax⟩
    · refine iff_of_false ?_ hnot
      rintro ⟨h', hok⟩
      rw [herror] at hok
      cases hok
  · obtain ⟨o, h', hok, -⟩ := xxmalloc_spec hm t hsize hbin rand hregion
    exact ⟨_, _, hok⟩

/-- **The lookup of an address is exact** in every run: the tag and the offset for the
addresses of a live object, zeros for all others. -/
theorem lookup_exact {start m : Process τ} {live : Set Obj} (hstart : start.Start)
    (hrun : Relation.ReflTransGen Process.Step (start, ∅) (m, live)) (ptr : Nat) :
    (∀ o ∈ live, o.Contains ptr → PointerInfo.of m.heap ptr = .ok ⟨o.tag, ptr - o.base⟩) ∧
      ((∀ o ∈ live, ¬ o.Contains ptr) → PointerInfo.of m.heap ptr = .ok ⟨0, 0⟩) := by
  have hm := process_runInv_of_run hstart hrun
  have hlive := hm.live
  dsimp only at hlive
  subst hlive
  exact ⟨fun o ho hptr => of_live hm.inv ho hptr, fun hout => of_not_live hm.inv hout⟩

/-- A program with one thread. -/
def oneThread : Process Unit where
  ready _ := false
  heap := {
    pools _ := ⟨0, 0, none, none, none⟩
    slab _ := ⟨((), 0), 0, 0, 0, none, none, none, none, []⟩
    slabs := 0
    slabMap _ := none }

theorem oneThread_start : oneThread.Start :=
  ⟨fun _ => rfl, rfl, fun _ => rfl, fun _ => rfl⟩

theorem oneThread_region : oneThread.RegionFor () (sizeBin 64 24) 65536 :=
  ⟨fun _ => ⟨by decide, by decide, by decide, fun _ hs => absurd hs (Nat.not_lt_zero _)⟩,
    fun _ => by decide⟩

/-- Memory is allocated and tagged, and the tag is found at its fourth byte. -/
theorem lookup_exact_oneThread : ∃ ptr m h, xxmalloc 64 oneThread () 24 0 65536 =
    .ok (some ptr, m) ∧ setTag m.heap ptr 7 = .ok h ∧ PointerInfo.of h (ptr + 3) = .ok ⟨7, 3⟩ := by
  obtain ⟨-, -, hmalloc⟩ := calls_return oneThread_start .refl
  obtain ⟨ptr, m, hcall⟩ :=
    hmalloc () 64 24 0 65536 (by decide) (by decide) oneThread_region
  have hsize : ((oneThread.getReady ()).heap.pools ((), sizeBin 64 24)).element_size = 32 := by
    decide
  have hstep : Process.Step (oneThread, ∅) (m, insert ⟨ptr, 32, Tag_max⟩ ∅) :=
    hsize ▸ .xxmalloc oneThread_region hcall
  obtain ⟨-, hset, -⟩ := calls_return oneThread_start (.single hstep)
  have ho : (⟨ptr, 32, Tag_max⟩ : Obj) ∈ insert ⟨ptr, 32, Tag_max⟩ (∅ : Set Obj) :=
    Set.mem_insert ..
  have hptr : Obj.Contains ⟨ptr, 32, Tag_max⟩ ptr := ⟨le_rfl, by simp⟩
  obtain ⟨h, hcall'⟩ := (hset _ ho ptr hptr 7).mpr ⟨by decide, rfl⟩
  have hstep' := Process.Step.setTag ho hptr (by decide) hcall'
  have hrun := (Relation.ReflTransGen.single hstep).tail hstep'
  have hfound := (lookup_exact oneThread_start hrun (ptr + 3)).1 ⟨ptr, 32, 7⟩
    (Set.mem_insert ..) ⟨by simp, by simp⟩
  rw [Nat.add_sub_cancel_left] at hfound
  exact ⟨ptr, m, h, hcall, hcall', hfound⟩

end

end Bracelet.Vhmalloc
