import Bracelet.LinkedLists
import Bracelet.Vhmalloc

/-!
# What holds of the allocator's memory

Four views of free space agree (`PoolInv`): the zero ids of a slab, its count, the count
of its pool, and the doubly linked free list, which is the list of all slabs of the pool
less the full ones, in the same order.  Slabs lie in disjoint runs of whole pages, and
the page map knows them exactly (`Inv`).
-/
namespace Bracelet.Vhmalloc

open LinkedList

variable {ι : Type} [DecidableEq ι]

namespace Heap

/-- The bytes of a slab's elements. -/
def bytes (h : Heap ι) (s : SlabId) : Nat :=
  (h.slab s).capacity * (h.pools (h.slab s).pool).element_size

/-- An address inside of a slab. -/
def Within (h : Heap ι) (s : SlabId) (ptr : Nat) : Prop :=
  (h.slab s).objects ≤ ptr ∧ ptr < (h.slab s).objects + h.bytes s

end Heap

/-- The element sizes of pools. -/
def ElementSize (n : Nat) : Prop := ∃ k, 4 ≤ k ∧ k ≤ 29 ∧ n = 2 ^ k

/-- What holds of a slab. -/
structure SlabInv (h : Heap ι) (s : SlabId) : Prop where
  element_size : ElementSize (h.pools (h.slab s).pool).element_size
  ids : (h.slab s).ids.length = (h.slab s).capacity
  free : (h.slab s).free = (h.slab s).ids.count 0
  whole_pages : h.bytes s % PAGE = 0
  pos : 0 < (h.slab s).objects
  aligned : (h.slab s).objects % PAGE = 0
  bound : (h.slab s).objects + h.bytes s ≤ 2 ^ 64
  small : h.bytes s < 2 ^ 63

/-- The slabs of a list with free slots. -/
def freeOf (h : Heap ι) (full : List SlabId) : List SlabId :=
  full.filter fun s => 0 < (h.slab s).free

/-- What holds of a pool with these slabs. -/
structure PoolInv (h : Heap ι) (p : ι) (full : List SlabId) : Prop where
  nodup : full.Nodup
  mem : ∀ s, s ∈ full ↔ s < h.slabs ∧ (h.slab s).pool = p
  linked : Linked (fun s => (h.slab s).next) (fun s => (h.slab s).prev) full
  full_head : (h.pools p).full_head = full.head?
  free_linked : Linked (fun s => (h.slab s).free_next) (fun s => (h.slab s).free_prev)
    (freeOf h full)
  free_head : (h.pools p).free_head = (freeOf h full).head?
  free : (h.pools p).free = (full.map fun s => (h.slab s).free).sum

/-- **What holds of the memory.** -/
structure Inv (h : Heap ι) : Prop where
  slabs : ∀ s < h.slabs, SlabInv h s
  disjoint : ∀ s < h.slabs, ∀ s' < h.slabs, ∀ ptr, h.Within s ptr → h.Within s' ptr → s = s'
  map : ∀ ptr s, getSlab h ptr = some s ↔ s < h.slabs ∧ h.Within s ptr
  pools : ∀ p, ∃ full, PoolInv h p full

/-- **Memory that `mmap` may return**: whole pages that no slab uses. -/
structure Fresh (h : Heap ι) (region bytes : Nat) : Prop where
  pos : 0 < region
  aligned : region % PAGE = 0
  bound : region + bytes ≤ 2 ^ 64
  disjoint : ∀ s < h.slabs, ∀ ptr, h.Within s ptr → region ≤ ptr → region + bytes ≤ ptr

/-! ## Sizes -/

theorem ElementSize.pos {n : Nat} (h : ElementSize n) : 0 < n := by
  obtain ⟨k, -, -, rfl⟩ := h
  exact Nat.two_pow_pos k

/-- Element sizes divide the page size or are divided by it. -/
theorem ElementSize.slabBytes {n : Nat} (h : ElementSize n) :
    slabBytes n (2 * overprovision) / n * n = slabBytes n (2 * overprovision) ∧
      n ≤ slabBytes n (2 * overprovision) ∧ slabBytes n (2 * overprovision) < 2 ^ 63 := by
  obtain ⟨k, hk, hk', rfl⟩ := h
  interval_cases k <;> decide

theorem numPages_slabBytes (n : Nat) :
    numPages (if 2 * overprovision = 0 then n else n * (2 * overprovision)) * PAGE =
      slabBytes n (2 * overprovision) := rfl

omit [DecidableEq ι] in
theorem getSlab_eq (h : Heap ι) (ptr : Nat) : getSlab h ptr =
    if slabMap_size ≤ ptr / 2 ^ 30 then none
    else (h.slabMap (ptr / 2 ^ 30)).bind fun region => region (ptr % 2 ^ 30 / PAGE) := by
  unfold getSlab
  simp only [Nat.shiftRight_eq_div_pow, Nat.and_two_pow_sub_one_eq_mod]
  split
  · rfl
  · cases h.slabMap (ptr / 2 ^ 30) <;> rfl

/-! ## The page map -/

omit [DecidableEq ι] in
theorem getSlab_congr {h h' : Heap ι} (hmap : h'.slabMap = h.slabMap) (ptr : Nat) :
    getSlab h' ptr = getSlab h ptr := by
  rw [getSlab_eq, getSlab_eq, hmap]

omit [DecidableEq ι] in
theorem markSlab_spec (h : Heap ι) (ptr : Nat) (s : SlabId) (hptr : ptr < 2 ^ 47) :
    ∃ m, markSlab h ptr s = .ok { h with slabMap := m } ∧ ∀ ptr',
      getSlab { h with slabMap := m } ptr' =
        if ptr' / PAGE = ptr / PAGE then some s else getSlab h ptr' := by
  have hlow : ¬ slabMap_size ≤ ptr >>> 30 := by
    rw [Nat.shiftRight_eq_div_pow, slabMap_size]
    omega
  refine ⟨_, by rw [markSlab, if_neg hlow], fun ptr' => ?_⟩
  simp only [getSlab_eq, Nat.shiftRight_eq_div_pow, Nat.and_two_pow_sub_one_eq_mod,
    show PAGE = 2 ^ 12 by rfl]
  by_cases hregion : ptr' / 2 ^ 30 = ptr / 2 ^ 30
  · rw [hregion, Function.update_self, Option.bind_some]
    have hsize : ¬ slabMap_size ≤ ptr / 2 ^ 30 := by rwa [Nat.shiftRight_eq_div_pow] at hlow
    rw [if_neg hsize]
    by_cases hpage : ptr' % 2 ^ 30 / 2 ^ 12 = ptr % 2 ^ 30 / 2 ^ 12
    · have heq : ptr' / 2 ^ 12 = ptr / 2 ^ 12 := by omega
      rw [hpage, Function.update_self, if_pos heq]
    · have hne : ¬ ptr' / 2 ^ 12 = ptr / 2 ^ 12 := by omega
      rw [Function.update_of_ne hpage, if_neg hne, if_neg hsize]
      cases h.slabMap (ptr / 2 ^ 30) <;> rfl
  · have hne : ¬ ptr' / 2 ^ 12 = ptr / 2 ^ 12 := by omega
    rw [Function.update_of_ne hregion, if_neg hne]

omit [DecidableEq ι] in
theorem markSlab_outOfBounds (h : Heap ι) (ptr : Nat) (s : SlabId) (hptr : 2 ^ 47 ≤ ptr) :
    markSlab h ptr s = .error .outOfBounds := by
  have hhigh : slabMap_size ≤ ptr >>> 30 := by
    rw [Nat.shiftRight_eq_div_pow, slabMap_size]
    omega
  rw [markSlab, if_pos hhigh]

omit [DecidableEq ι] in
/-- The pages of a slab are entered, or the map is too small for them. -/
theorem markSlabs_spec (h : Heap ι) {region : Nat} (haligned : region % PAGE = 0) (s : SlabId)
    (pages : Nat) :
    (∃ m, (List.range pages).foldlM (fun h i => markSlab h (region + i * PAGE) s) h =
        .ok { h with slabMap := m } ∧
      (pages = 0 ∨ region + pages * PAGE ≤ 2 ^ 47) ∧ ∀ ptr, getSlab { h with slabMap := m } ptr =
        if region ≤ ptr ∧ ptr < region + pages * PAGE then some s else getSlab h ptr) ∨
    (2 ^ 47 < region + pages * PAGE ∧
      (List.range pages).foldlM (fun h i => markSlab h (region + i * PAGE) s) h =
        .error .outOfBounds) := by
  induction pages with
  | zero => exact .inl ⟨h.slabMap, rfl, .inl rfl, fun ptr => by rw [if_neg (by omega)]⟩
  | succ n ih =>
    rw [List.range_succ, List.foldlM_append]
    rcases ih with ⟨m, hrun, hbound, hmap⟩ | ⟨hbound, hrun⟩
    · rw [hrun, ok_bind, List.foldlM_cons]
      by_cases hptr : region + n * PAGE < 2 ^ 47
      · obtain ⟨m', hmark, hmap'⟩ := markSlab_spec { h with slabMap := m } _ s hptr
        refine .inl ⟨m', by rw [hmark]; rfl, .inr ?_, fun ptr => ?_⟩
        · unfold PAGE at haligned hptr ⊢
          omega
        · have hpage : ptr / PAGE = (region + n * PAGE) / PAGE ↔
              region + n * PAGE ≤ ptr ∧ ptr < region + (n + 1) * PAGE := by
            unfold PAGE at haligned ⊢
            omega
          rw [show ({ h with slabMap := m' } : Heap ι) =
            { { h with slabMap := m } with slabMap := m' } by rfl, hmap', hmap]
          simp only [hpage]
          unfold PAGE
          split_ifs <;> first | rfl | omega
      · refine .inr ⟨?_, ?_⟩
        · unfold PAGE at hptr ⊢
          omega
        · rw [markSlab_outOfBounds _ _ _ (not_lt.mp hptr)]
          rfl
    · have hle : n * PAGE ≤ (n + 1) * PAGE := Nat.mul_le_mul_right _ (Nat.le_succ n)
      exact .inr ⟨hbound.trans_le (Nat.add_le_add_left hle region), by rw [hrun]; rfl⟩

/-! ## Edits of links -/

/-- The memory with other links. -/
def Heap.relink (h : Heap ι) (pools : ι → Pool) (next prev free_next free_prev :
    SlabId → Option SlabId) : Heap ι :=
  { h with
    pools := pools
    slab := fun s => { h.slab s with
      next := next s
      prev := prev s
      free_next := free_next s
      free_prev := free_prev s } }

omit [DecidableEq ι] in
/-- What a heap is up to links. -/
theorem Heap.relink_congr {h : Heap ι} {pools pools' : ι → Pool} {slab : SlabId → Slab ι}
    {next prev free_next free_prev : SlabId → Option SlabId} (hpools : pools = pools')
    (hslab : ∀ s, slab s = { h.slab s with
      next := next s
      prev := prev s
      free_next := free_next s
      free_prev := free_prev s }) :
    ({ h with pools := pools, slab := slab } : Heap ι) =
      h.relink pools' next prev free_next free_prev := by
  rw [hpools, show slab = _ from funext hslab]
  rfl

section
variable (h : Heap ι) (pools : ι → Pool) (next prev free_next free_prev : SlabId → Option SlabId)
  (s : SlabId)
omit [DecidableEq ι]

@[simp] theorem relink_pools :
    (h.relink pools next prev free_next free_prev).pools = pools := rfl

@[simp] theorem relink_slabs :
    (h.relink pools next prev free_next free_prev).slabs = h.slabs := rfl

@[simp] theorem relink_slabMap :
    (h.relink pools next prev free_next free_prev).slabMap = h.slabMap := rfl

@[simp] theorem relink_slab : (h.relink pools next prev free_next free_prev).slab s =
    { h.slab s with
      next := next s
      prev := prev s
      free_next := free_next s
      free_prev := free_prev s } := rfl

end

theorem addFull_eq (h : Heap ι) (p : ι) (slab : SlabId) : addFull h p slab =
    h.relink (Function.update h.pools p { h.pools p with full_head := some slab })
      (fun s => if s = slab then (h.pools p).full_head else (h.slab s).next)
      (fun s => if some s = (h.pools p).full_head then some slab
        else if s = slab then none else (h.slab s).prev)
      (fun s => (h.slab s).free_next) (fun s => (h.slab s).free_prev) := by
  unfold addFull Heap.setSlab Heap.setPool
  simp only [Function.update_self]
  cases (h.pools p).full_head with
  | none =>
    dsimp only
    refine Heap.relink_congr rfl fun s => ?_
    by_cases hs : s = slab <;> simp [hs]
  | some next =>
    dsimp only
    refine Heap.relink_congr rfl fun s => ?_
    by_cases hs : s = slab <;> by_cases hn : s = next <;> simp_all [Function.update_apply]

theorem addFreeFront_eq (h : Heap ι) (p : ι) (slab : SlabId) : addFreeFront h p slab =
    h.relink (Function.update h.pools p { h.pools p with
        free_head := some slab
        free_tail := if (h.pools p).free_head = none then some slab else (h.pools p).free_tail })
      (fun s => (h.slab s).next) (fun s => (h.slab s).prev)
      (fun s => if s = slab then (h.pools p).free_head else (h.slab s).free_next)
      (fun s => if some s = (h.pools p).free_head then some slab
        else if s = slab then none else (h.slab s).free_prev) := by
  unfold addFreeFront Heap.setSlab Heap.setPool
  simp only [Function.update_self]
  cases (h.pools p).free_head with
  | none =>
    dsimp only
    refine Heap.relink_congr ?_ fun s => ?_
    · simp
    · by_cases hs : s = slab <;> simp [hs]
  | some next =>
    dsimp only
    refine Heap.relink_congr (by simp) fun s => ?_
    by_cases hs : s = slab <;> by_cases hn : s = next <;> simp_all [Function.update_apply]

theorem addFreeAfter_eq (h : Heap ι) (p : ι) {slab cur : SlabId} (hne : slab ≠ cur) :
    addFreeAfter h p slab cur =
      h.relink (Function.update h.pools p { h.pools p with
          free_tail := if (h.slab cur).free_next = none then some slab
            else (h.pools p).free_tail })
        (fun s => (h.slab s).next) (fun s => (h.slab s).prev)
        (fun s => if s = cur then some slab else if s = slab then (h.slab cur).free_next
          else (h.slab s).free_next)
        (fun s => if some s = (h.slab cur).free_next then some slab
          else if s = slab then some cur else (h.slab s).free_prev) := by
  unfold addFreeAfter Heap.setSlab Heap.setPool
  simp only [Function.update_self, Function.update_of_ne hne, Function.update_of_ne hne.symm]
  cases (h.slab cur).free_next with
  | none =>
    dsimp only
    refine Heap.relink_congr (by simp) fun s => ?_
    by_cases hs : s = slab <;> by_cases hc : s = cur <;> simp_all
  | some next =>
    dsimp only
    refine Heap.relink_congr (by simp) fun s => ?_
    by_cases hs : s = slab <;> by_cases hc : s = cur <;> by_cases hn : s = next <;>
      simp_all [Function.update_apply]

theorem makeFull_eq (h : Heap ι) (p : ι) {slab : SlabId}
    (hprev : (h.slab slab).free_prev ≠ some slab) : makeFull h p slab =
      h.relink (Function.update h.pools p { h.pools p with free_head :=
          if (h.slab slab).free_prev = none then (h.slab slab).free_next
          else (h.pools p).free_head })
        (fun s => (h.slab s).next) (fun s => (h.slab s).prev)
        (fun s => if some s = (h.slab slab).free_prev then (h.slab slab).free_next
          else (h.slab s).free_next)
        (fun s => if some s = (h.slab slab).free_next then (h.slab slab).free_prev
          else (h.slab s).free_prev) := by
  unfold makeFull Heap.setSlab Heap.setPool
  cases hp : (h.slab slab).free_prev with
  | none =>
    simp only [if_pos]
    cases hn : (h.slab slab).free_next with
    | none => exact Heap.relink_congr rfl fun s => by simp
    | some next =>
      dsimp only
      refine Heap.relink_congr rfl fun s => ?_
      by_cases hs : s = next <;> simp_all
  | some before =>
    have hb : slab ≠ before := fun heq => hprev (by rw [hp, heq])
    simp only [Function.update_of_ne hb]
    cases hn : (h.slab slab).free_next with
    | none =>
      dsimp only
      refine Heap.relink_congr (by simp) fun s => ?_
      by_cases hs : s = before <;> simp_all
    | some next =>
      dsimp only
      refine Heap.relink_congr (by simp) fun s => ?_
      by_cases hs : s = before <;> by_cases hn' : s = next <;> simp_all [Function.update_apply]

end Bracelet.Vhmalloc
