import Bracelet.VhmallocRuns

/-!
# Size classes

`xxmalloc` takes the bin of a request from the number of leading zeros of the request less one.  In
every run the pool of the bin has the least element size that is enough (`isLeast_sizeBin`), its
slabs are without a rest at the end, and `xxmalloc_usable_size` says that size.  A request of one
byte counts the leading zeros of zero, which is not defined (`classes_iff`).
-/
namespace Bracelet.Vhmalloc

/-- `__builtin_clzl`, where it is defined. -/
def clzl (x : Nat) : Option Nat := if x = 0 then none else some (63 - x.log2)

/-- The bin of a size that is not zero, if each step of it is defined. -/
def definedBin (size : Nat) : Option Nat := do
  let clzl ← clzl (size - 1)
  let logSize := (1 + 63 + 2 ^ 64 - clzl) % 2 ^ 64
  return if logSize < 4 then 0 else logSize - 4

def xxmalloc_usable_size {ι : Type} (h : Heap ι) (ptr : Nat) : Nat :=
  match getSlab h ptr with
  | some slab => (h.pools (h.slab slab).pool).element_size
  | none => 0

/-! ## Bins -/

/-- The bin does not depend on what is not defined. -/
theorem sizeBin_of_defined {size bin : Nat} (h : definedBin size = some bin) (clzl_zero : Nat) :
    sizeBin clzl_zero size = bin := by
  unfold definedBin clzl at h
  unfold sizeBin
  split_ifs at h ⊢ <;> simp_all

theorem definedBin_eq_none_iff {size : Nat} : definedBin size = none ↔ size - 1 = 0 := by
  unfold definedBin clzl
  split_ifs with h
  · exact iff_of_true rfl h
  · exact iff_of_false (by simp) h

/-- A bin is above a logarithm. -/
theorem definedBin_eq {size : Nat} (h : 1 < size) (hsize : size < 2 ^ 64) :
    definedBin size = some ((size - 1).log2 - 3) := by
  have hne : size - 1 ≠ 0 := by omega
  have hlog : (size - 1).log2 < 64 := (Nat.log2_lt hne).mpr (by omega)
  have hbin : (1 + 63 + 2 ^ 64 - (63 - (size - 1).log2)) % 2 ^ 64 = (size - 1).log2 + 1 := by
    omega
  rw [definedBin, clzl, if_neg hne]
  show some (if (1 + 63 + 2 ^ 64 - (63 - (size - 1).log2)) % 2 ^ 64 < 4 then 0
    else (1 + 63 + 2 ^ 64 - (63 - (size - 1).log2)) % 2 ^ 64 - 4) = _
  rw [hbin]
  split_ifs
  · congr 1
    omega
  · rfl

/-- The bins of requests up to the greatest element size. -/
theorem definedBin_lt_iff {size bin : Nat} (h : 1 < size) (hsize : size < 2 ^ 64)
    (hbin : definedBin size = some bin) : bin < NUMPOOLS ↔ size ≤ 2 ^ 29 := by
  have hne : size - 1 ≠ 0 := by omega
  obtain rfl := Option.some.inj ((definedBin_eq h hsize).symm.trans hbin)
  have hlog : (size - 1).log2 < 29 ↔ size - 1 < 2 ^ 29 := Nat.log2_lt hne
  unfold NUMPOOLS
  omega

/-- **The element size of a bin is the least that is enough.** -/
theorem isLeast_sizeBin {size bin : Nat} (h : 1 < size) (hsize : size ≤ 2 ^ 29)
    (hbin : definedBin size = some bin) :
    IsLeast {n | ElementSize n ∧ size ≤ n} (2 ^ (bin + 4)) := by
  have hne : size - 1 ≠ 0 := by omega
  have hlt : bin < NUMPOOLS := (definedBin_lt_iff h (by omega) hbin).mpr hsize
  obtain rfl := Option.some.inj ((definedBin_eq h (by omega)).symm.trans hbin)
  unfold NUMPOOLS at hlt
  refine ⟨⟨⟨_, by omega, by omega, rfl⟩, ?_⟩, ?_⟩
  · have hself : size - 1 < 2 ^ ((size - 1).log2 + 1) := Nat.lt_log2_self
    have hpow : 2 ^ ((size - 1).log2 + 1) ≤ 2 ^ ((size - 1).log2 - 3 + 4) :=
      Nat.pow_le_pow_right (by decide) (by omega)
    omega
  · rintro n ⟨⟨k, hk, -, rfl⟩, hle⟩
    have hlog : (size - 1).log2 < k := (Nat.log2_lt hne).mpr (by omega)
    exact Nat.pow_le_pow_right (by decide) (by omega)

/-! ## Slabs -/

/-- Slabs are whole pages and whole elements. -/
theorem ElementSize.slabBytes_count {n : Nat} (h : ElementSize n) (count : Nat) :
    Vhmalloc.slabBytes n count / n * n = Vhmalloc.slabBytes n count := by
  obtain ⟨k, hk, hk', rfl⟩ := h
  refine Nat.div_mul_cancel ?_
  unfold Vhmalloc.slabBytes numPages
  by_cases hpage : k ≤ 12
  · -- A page has a whole number of elements.
    exact Dvd.dvd.mul_left (Nat.pow_dvd_pow 2 hpage) _
  · -- An element is a whole number of pages.
    have hdvd : PAGE ∣ 2 ^ k := Nat.pow_dvd_pow 2 (show 12 ≤ k by omega)
    have hwhole : ∀ toAllocate, 2 ^ k ∣ toAllocate →
        2 ^ k ∣ (if toAllocate % PAGE = 0 then toAllocate / PAGE else toAllocate / PAGE + 1) * PAGE := by
      intro toAllocate hto
      have hpages := hdvd.trans hto
      rwa [if_pos (Nat.mod_eq_zero_of_dvd hpages), Nat.div_mul_cancel hpages]
    apply hwhole
    split_ifs
    · exact dvd_rfl
    · exact Dvd.intro _ rfl

section
variable {ι : Type} [DecidableEq ι]

omit [DecidableEq ι] in
theorem markSlabs_slab {pages : List Nat} {ptr : Nat → Nat} {s : SlabId} {h h' : Heap ι}
    (hrun : pages.foldlM (fun h i => markSlab h (ptr i) s) h = .ok h') : h'.slab = h.slab := by
  induction pages generalizing h with
  | nil => rw [Except.ok.inj hrun]
  | cons i pages ih =>
    rw [List.foldlM_cons] at hrun
    cases hmark : markSlab h (ptr i) s with
    | error e =>
      rw [hmark] at hrun
      cases hrun
    | ok h₁ =>
      rw [hmark, ok_bind] at hrun
      rw [ih hrun]
      unfold markSlab at hmark
      dsimp only at hmark
      split_ifs at hmark
      rw [← Except.ok.inj hmark]

/-- **The elements of a slab fill its pages.** -/
theorem allocateSlab_capacity {h h' : Heap ι} {p : ι} {count region : Nat}
    (hsize : ElementSize (h.pools p).element_size)
    (hrun : allocateSlab h p count region = .ok h') :
    (h'.slab h.slabs).capacity * (h.pools p).element_size =
      slabBytes (h.pools p).element_size count := by
  suffices hcapacity : (h'.slab h.slabs).capacity =
      slabBytes (h.pools p).element_size count / (h.pools p).element_size by
    rw [hcapacity, hsize.slabBytes_count]
  unfold allocateSlab at hrun
  dsimp only at hrun
  generalize hmarks : (List.range _).foldlM
    (fun h' i => markSlab h' (region + i * PAGE) h.slabs) _ = marked at hrun
  cases marked with
  | error e => cases hrun
  | ok h₁ =>
    obtain rfl := Except.ok.inj hrun
    rw [addFreeFront_eq, addFull_eq]
    simp only [relink_slab]
    rw [markSlabs_slab hmarks]
    simp [Heap.setSlab, Heap.setPool, slabBytes]

end

/-! ## Requests -/

section
variable {τ : Type} [DecidableEq τ]

/-- The size of an object is what can be used of it. -/
theorem usable_size_of_live {ι : Type} {h : Heap ι} (hinv : Inv h) {o : Obj} (ho : o ∈ h.live)
    {ptr : Nat} (hptr : o.Contains ptr) : xxmalloc_usable_size h ptr = o.size := by
  obtain ⟨s, i, hget, -, -, -, hslot, -⟩ := hinv.slot_of_live ho hptr
  rw [xxmalloc_usable_size, hget, hslot]
  rfl

/-- **A request fits its class**, in a state of a program. -/
structure FitsClass (m : Process τ) (t : τ) (size bin : Nat) : Prop where
  defined : definedBin size = some bin
  bin_lt : bin < NUMPOOLS
  /-- The element size of the pool is the least that is enough. -/
  element_size : IsLeast {n | ElementSize n ∧ size ≤ n}
    ((m.getReady t).heap.pools (t, bin)).element_size
  /-- The call returns an object of that size. -/
  usable_size : ∀ clzl_zero rand region, m.RegionFor t bin region →
    ∃ ptr m', xxmalloc clzl_zero m t size rand region = .ok (some ptr, m') ∧
      xxmalloc_usable_size m'.heap ptr = ((m.getReady t).heap.pools (t, bin)).element_size
  /-- A slab of the pool has elements up to its end. -/
  capacity : ∀ count region h', allocateSlab (m.getReady t).heap (t, bin) count region = .ok h' →
    (h'.slab (m.getReady t).heap.slabs).capacity *
        ((m.getReady t).heap.pools (t, bin)).element_size =
      slabBytes ((m.getReady t).heap.pools (t, bin)).element_size count

/-- **Requests of two bytes and more fit.** -/
theorem Process.RunInv.fitsClass {m : Process τ} {live : Set Obj} (hm : Process.RunInv (m, live))
    (t : τ) {size : Nat} (h : 1 < size) (hsize : size ≤ 2 ^ 29) :
    FitsClass m t size ((size - 1).log2 - 3) := by
  have hdefined := definedBin_eq h (show size < 2 ^ 64 by omega)
  have hbin := (definedBin_lt_iff h (by omega) hdefined).mpr hsize
  obtain ⟨hready, ht⟩ := hm.getReady t
  have hpool := hready.ready t ht _ hbin
  have hleast := isLeast_sizeBin h hsize hdefined
  rw [← hpool] at hleast
  refine ⟨hdefined, hbin, hleast, ?_, ?_⟩
  · intro clzl_zero rand region hregion
    have hsizeBin := sizeBin_of_defined hdefined clzl_zero
    obtain ⟨o, h', hok, -, hdone⟩ := xxmalloc_spec hm t (show size ≠ 0 by omega)
      (hsizeBin ▸ hbin) rand (hsizeBin ▸ hregion)
    rw [hsizeBin] at hdone
    have hpos : o.Contains o.base := by
      refine ⟨le_rfl, ?_⟩
      have hpos := hleast.1.1.pos
      rw [← hdone.size] at hpos
      exact Nat.lt_add_of_pos_right hpos
    refine ⟨_, _, hok, ?_⟩
    rw [usable_size_of_live hdone.inv (hdone.live ▸ Set.mem_insert o _) hpos, hdone.size]
  · intro count region h' hrun
    exact allocateSlab_capacity hleast.1.1 hrun

/-- Requests that no class fits stop at the assertion. -/
theorem xxmalloc_tooBig (m : Process τ) (t : τ) {size : Nat} (h : 2 ^ 29 < size)
    (hsize : size < 2 ^ 64) (clzl_zero rand region : Nat) :
    xxmalloc clzl_zero m t size rand region = .error .assertion := by
  have hdefined := definedBin_eq (show 1 < size by omega) hsize
  have hbin := mt (definedBin_lt_iff (by omega) hsize hdefined).mp (not_le.mpr h)
  rw [← sizeBin_of_defined hdefined clzl_zero] at hbin
  unfold xxmalloc
  rw [if_neg (by omega)]
  dsimp only
  rw [decide_eq_false hbin]
  rfl

/-- **The classes fit exactly the requests other than of one byte**, in every run. -/
theorem classes_iff {start m : Process τ} {live : Set Obj} (hstart : start.Start)
    (hrun : Relation.ReflTransGen Process.Step (start, ∅) (m, live)) (t : τ) {size : Nat}
    (hpos : 1 ≤ size) (hsize : size < 2 ^ 64) :
    ((size ≤ 2 ^ 29 → ∃ bin, FitsClass m t size bin) ∧
      (2 ^ 29 < size → ∀ clzl_zero rand region,
        xxmalloc clzl_zero m t size rand region = .error .assertion)) ↔ size ≠ 1 := by
  have hm := process_runInv_of_run hstart hrun
  constructor
  · rintro ⟨hfits, -⟩ rfl
    obtain ⟨bin, hbin⟩ := hfits (by decide)
    cases hbin.defined
  · intro hne
    refine ⟨fun hle => ⟨_, hm.fitsClass t (by omega) hle⟩, fun hlt => ?_⟩
    exact xxmalloc_tooBig m t hlt hsize

/-- The first request of a program is of 24 bytes, and gets 32. -/
theorem classes_iff_oneThread : ∃ ptr m, xxmalloc 64 oneThread () 24 0 65536 = .ok (some ptr, m) ∧
    xxmalloc_usable_size m.heap ptr = 32 := by
  obtain ⟨bin, hfits⟩ :=
    ((classes_iff oneThread_start .refl () (by decide) (by decide)).mpr (by decide)).1
      (show 24 ≤ 2 ^ 29 by decide)
  have hbin : bin = sizeBin 64 24 := (sizeBin_of_defined hfits.defined 64).symm
  subst hbin
  obtain ⟨ptr, m, hcall, husable⟩ := hfits.usable_size 64 0 65536 oneThread_region
  exact ⟨ptr, m, hcall, husable⟩

/-- A request of one byte counts the leading zeros of zero. -/
theorem oneByte_not_fitsClass : definedBin 1 = none ∧ ¬ ∃ bin, FitsClass oneThread () 1 bin := by
  refine ⟨rfl, ?_⟩
  rintro ⟨bin, hfits⟩
  cases hfits.defined

end

end Bracelet.Vhmalloc
