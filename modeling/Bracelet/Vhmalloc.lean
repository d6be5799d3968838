import Mathlib.Tactic

/-!
# The tracing allocator

`vhmalloc.cpp`: every thread has pools of elements of one size each; a pool takes its
elements from slabs, whose pages are entered in a map from addresses to slabs.  The
slots of a slab hold the tags of its live elements and zero for free ones.

A call is one step: pools are locked, and nothing else of a slab is touched before the
pool's lock is taken.  What the environment returns is a parameter of a call: `rand` of
`rand_r`, `region` of the `mmap` of a slab.  Addresses, sizes and counts are numbers;
differences of pointers are taken modulo 2^64.
-/
namespace Bracelet.Vhmalloc

inductive Fault
  /-- A failed assertion. -/
  | assertion
  /-- A null pointer was followed. -/
  | null
  | divisionByZero
  /-- The page map was written out of its bounds. -/
  | outOfBounds
  /-- The model of a loop ran out of steps. -/
  | diverges
  deriving DecidableEq, Repr

abbrev Result := Except Fault

def assert (cond : Bool) : Result Unit := if cond then .ok () else .error .assertion

@[simp] theorem assert_true : assert true = .ok () := rfl

@[simp] theorem ok_bind {α β : Type} (a : α) (f : α → Result β) :
    (Except.ok a : Result α) >>= f = f a := rfl

/-- The address of a slab's descriptor. -/
abbrev SlabId := Nat

structure Pool where
  element_size : Nat
  free : Nat
  free_head : Option SlabId
  free_tail : Option SlabId
  full_head : Option SlabId
  deriving DecidableEq, Repr

/-- A slab of a pool of `ι`. -/
structure Slab (ι : Type) where
  pool : ι
  capacity : Nat
  free : Nat
  objects : Nat
  prev : Option SlabId
  next : Option SlabId
  free_prev : Option SlabId
  free_next : Option SlabId
  ids : List UInt64

/-- The memory of the allocator.  Descriptors below `slabs` have been allocated; what
lies at others is not known. -/
structure Heap (ι : Type) where
  pools : ι → Pool
  slab : SlabId → Slab ι
  slabs : Nat
  slabMap : Nat → Option (Nat → Option SlabId)

def overprovision : Nat := 3

def slabMap_size : Nat := 2 ^ 17

def PAGE : Nat := 4096

variable {ι : Type} [DecidableEq ι]

namespace Heap

def setSlab (h : Heap ι) (s : SlabId) (value : Slab ι) : Heap ι :=
  { h with slab := Function.update h.slab s value }

def setPool (h : Heap ι) (p : ι) (value : Pool) : Heap ι :=
  { h with pools := Function.update h.pools p value }

end Heap

/-! ## Slab space -/

def getSlab (h : Heap ι) (ptr : Nat) : Option SlabId :=
  let offset := ptr >>> 30
  if slabMap_size ≤ offset then none
  else
    match h.slabMap offset with
    | none => none
    | some region =>
      let page := (ptr &&& (2 ^ 30 - 1)) >>> 12
      region page

def markSlab (h : Heap ι) (ptr : Nat) (slab : SlabId) : Result (Heap ι) :=
  let offset := ptr >>> 30
  if slabMap_size ≤ offset then .error .outOfBounds
  else
    -- A region that is new is filled with null.
    let region := (h.slabMap offset).getD fun _ => none
    let page := (ptr &&& (2 ^ 30 - 1)) >>> 12
    .ok { h with slabMap := Function.update h.slabMap offset (Function.update region page slab) }

def numPages (toAllocate : Nat) : Nat :=
  if toAllocate % PAGE = 0 then toAllocate / PAGE else toAllocate / PAGE + 1

/-- The bytes of a slab for so many elements. -/
def slabBytes (element_size count : Nat) : Nat :=
  numPages (if count = 0 then element_size else element_size * count) * PAGE

/-- What goes at the front of the list of all slabs of a pool. -/
def addFull (h : Heap ι) (p : ι) (slab : SlabId) : Heap ι :=
  let h := h.setSlab slab { h.slab slab with prev := none, next := (h.pools p).full_head }
  let h :=
    match (h.slab slab).next with
    | none => h
    | some next => h.setSlab next { h.slab next with prev := some slab }
  h.setPool p { h.pools p with full_head := some slab }

/-- What goes at the front of the list of slabs with free slots. -/
def addFreeFront (h : Heap ι) (p : ι) (slab : SlabId) : Heap ι :=
  let h := h.setSlab slab
    { h.slab slab with free_prev := none, free_next := (h.pools p).free_head }
  let h :=
    match (h.slab slab).free_next with
    | some next => h.setSlab next { h.slab next with free_prev := some slab }
    | none => h.setPool p { h.pools p with free_tail := some slab }
  h.setPool p { h.pools p with free_head := some slab }

def allocateSlab (h : Heap ι) (p : ι) (count region : Nat) : Result (Heap ι) := do
  let element_size := (h.pools p).element_size
  let toAllocate := if count = 0 then element_size else element_size * count
  let pages := numPages toAllocate
  let capacity := pages * PAGE / element_size
  let slab := h.slabs
  let h := { h with slabs := h.slabs + 1 }
  let h := h.setSlab slab { h.slab slab with
    pool := p
    capacity := capacity
    free := capacity
    objects := region
    ids := List.replicate capacity 0 }
  let h := h.setPool p { h.pools p with free := (h.pools p).free + capacity }
  let h ← (List.range pages).foldlM (fun h i => markSlab h (region + i * PAGE) slab) h
  let h := addFull h p slab
  return addFreeFront h p slab

/-- The index of the element, and the offset into it. -/
def getElementIndex (h : Heap ι) (p : ι) (slab : SlabId) (ptr : Nat) : Result (Nat × Nat) := do
  let slab_offset := (ptr + 2 ^ 64 - (h.slab slab).objects) % 2 ^ 64
  let element_size := (h.pools p).element_size
  let index := slab_offset / element_size
  let object_offset := slab_offset % element_size
  -- The offset is signed.
  assert (slab_offset < 2 ^ 63 && index < (h.slab slab).capacity)
  return (index, object_offset)

def getElementPtr (h : Heap ι) (p : ι) (slab : SlabId) (index : Nat) : Result Nat := do
  assert (index < (h.slab slab).capacity)
  return (h.slab slab).objects + index * (h.pools p).element_size

/-- The search of `makeFree` for a predecessor on the free list. -/
def findPredecessor (h : Heap ι) : Nat → Option SlabId → Result (Option SlabId)
  | 0, _ => .error .diverges
  | _ + 1, none => .ok none
  | fuel + 1, some cur =>
    if 0 < (h.slab cur).free then .ok (some cur) else findPredecessor h fuel (h.slab cur).prev

/-- What goes after a slab on the free list. -/
def addFreeAfter (h : Heap ι) (p : ι) (slab cur : SlabId) : Heap ι :=
  let h := h.setSlab slab
    { h.slab slab with free_next := (h.slab cur).free_next, free_prev := some cur }
  let h := h.setSlab cur { h.slab cur with free_next := some slab }
  match (h.slab slab).free_next with
  | some next => h.setSlab next { h.slab next with free_prev := some slab }
  | none => h.setPool p { h.pools p with free_tail := some slab }

def makeFree (h : Heap ι) (p : ι) (slab : SlabId) : Result (Heap ι) := do
  match ← findPredecessor h (h.slabs + 1) (h.slab slab).prev with
  | some cur => return addFreeAfter h p slab cur
  | none => return addFreeFront h p slab

def makeFull (h : Heap ι) (p : ι) (slab : SlabId) : Heap ι :=
  let h :=
    match (h.slab slab).free_prev with
    | some free_prev =>
      h.setSlab free_prev { h.slab free_prev with free_next := (h.slab slab).free_next }
    | none => h.setPool p { h.pools p with free_head := (h.slab slab).free_next }
  match (h.slab slab).free_next with
  | some free_next =>
    h.setSlab free_next { h.slab free_next with free_prev := (h.slab slab).free_prev }
  | none => h

def poolinit (h : Heap ι) (p : ι) (element_size : Nat) : Heap ι :=
  h.setPool p ⟨element_size, 0, none, none, none⟩

/-! ## Allocating -/

/-- The walk over the free list to the slab with the free slot of an offset. -/
def findFree (h : Heap ι) : Nat → Nat → Option SlabId → Result (Nat × SlabId)
  | 0, _, _ => .error .diverges
  | _ + 1, _, none => .error .null
  | fuel + 1, offset, some slab =>
    if (h.slab slab).free ≤ offset then
      findFree h fuel (offset - (h.slab slab).free) (h.slab slab).free_next
    else .ok (offset, slab)

/-- The place of the free slot of an offset. -/
def findSlot : List UInt64 → Nat → Nat → Result Nat
  | [], _, _ => .error .assertion
  | id :: ids, offset, i =>
    if id = 0 then if offset = 0 then .ok i else findSlot ids (offset - 1) (i + 1)
    else findSlot ids offset (i + 1)

/-- `rand % pool->free` -/
def randomOffset (rand free : Nat) : Result Nat :=
  if free = 0 then .error .divisionByZero else .ok (rand % free)

/-- What a slot of a slab is set to when it is taken. -/
def takeSlot (h : Heap ι) (p : ι) (slab : SlabId) (i : Nat) (tag : UInt64) : Heap ι :=
  let h := h.setSlab slab { h.slab slab with
    ids := (h.slab slab).ids.set i tag
    free := (h.slab slab).free - 1 }
  let h := h.setPool p { h.pools p with free := (h.pools p).free - 1 }
  if (h.slab slab).free = 0 then makeFull h p slab else h

def allocate (h : Heap ι) (p : ι) (tag : UInt64) (rand region : Nat) :
    Result (Nat × Heap ι) := do
  assert (tag != 0)
  let h ← if (h.pools p).free ≤ overprovision then allocateSlab h p (2 * overprovision) region
    else .ok h
  let offset ← randomOffset rand (h.pools p).free
  let (offset, slab) ← findFree h (h.slabs + 1) offset (h.pools p).free_head
  let i ← findSlot (h.slab slab).ids offset 0
  let h := takeSlot h p slab i tag
  let alloc ← getElementPtr h p slab i
  return (alloc, h)

def deallocate (h : Heap ι) (slab : SlabId) (ptr : Nat) : Result (Heap ι) := do
  let p := (h.slab slab).pool
  let (index, _) ← getElementIndex h p slab ptr
  let h := h.setSlab slab { h.slab slab with
    ids := (h.slab slab).ids.set index 0
    free := (h.slab slab).free + 1 }
  let h := h.setPool p { h.pools p with free := (h.pools p).free + 1 }
  if (h.slab slab).free = 1 then makeFree h p slab else return h

/-! ## The interface -/

structure PointerInfo where
  tag : UInt64
  offset : Nat
  deriving DecidableEq, Repr

def getid (h : Heap ι) (slab : SlabId) (ptr : Nat) : Result PointerInfo := do
  let (index, object_offset) ← getElementIndex h (h.slab slab).pool slab ptr
  let raw_id := (h.slab slab).ids.getD index 0
  if raw_id = 0 then return ⟨0, 0⟩ else return ⟨raw_id, object_offset⟩

/-- `PointerInfo::of` -/
def PointerInfo.of (h : Heap ι) (ptr : Nat) : Result PointerInfo :=
  match getSlab h ptr with
  | none => .ok ⟨0, 0⟩
  | some slab => getid h slab ptr

def Tag_max : UInt64 := 0xffffffffffffffff

def setTag (h : Heap ι) (ptr : Nat) (tag : UInt64) : Result (Heap ι) := do
  assert (tag != 0)
  match getSlab h ptr with
  | none => .error .assertion
  | some slab => do
    let (index, _) ← getElementIndex h (h.slab slab).pool slab ptr
    assert ((h.slab slab).ids.getD index 0 == Tag_max)
    return h.setSlab slab { h.slab slab with ids := (h.slab slab).ids.set index tag }

def xxfree (h : Heap ι) (ptr : Nat) : Result (Heap ι) :=
  if ptr = 0 then .ok h
  else
    match getSlab h ptr with
    | some slab => deallocate h slab ptr
    | none => .ok h

def NUMPOOLS : Nat := 26

/-- The bin of a size that is not zero; `__builtin_clzl` of zero is not defined. -/
def sizeBin (clzl_zero size : Nat) : Nat :=
  let clzl := if size - 1 = 0 then clzl_zero else 63 - (size - 1).log2
  let logSize := (1 + 63 + 2 ^ 64 - clzl) % 2 ^ 64
  if logSize < 4 then 0 else logSize - 4

/-- The memory of a program with threads of `τ`: whether a thread has its pools, and the
pools of all threads by bin. -/
structure Process (τ : Type) where
  ready : τ → Bool
  heap : Heap (τ × Nat)

variable {τ : Type} [DecidableEq τ]

/-- The pools of a thread. -/
def initPools (h : Heap (τ × Nat)) (t : τ) : Heap (τ × Nat) :=
  (List.range NUMPOOLS).foldl (fun h i => poolinit h (t, i) (2 ^ (i + 4))) h

/-- A thread gets its pools at its first call. -/
def Process.getReady (m : Process τ) (t : τ) : Process τ :=
  if m.ready t then m
  else { ready := Function.update m.ready t true, heap := initPools m.heap t }

/-- A call of `xxmalloc` by a thread that is not inside of one. -/
def xxmalloc (clzl_zero : Nat) (m : Process τ) (t : τ) (size rand region : Nat) :
    Result (Option Nat × Process τ) := do
  if size = 0 then return (none, m)
  else
    let m := m.getReady t
    let bin := sizeBin clzl_zero size
    assert (bin < NUMPOOLS)
    let (ptr, heap) ← allocate m.heap (t, bin) Tag_max rand region
    return (some ptr, { m with heap := heap })

end Bracelet.Vhmalloc
