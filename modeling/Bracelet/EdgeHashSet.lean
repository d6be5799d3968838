import Mathlib.Tactic

/-!
# The persistent edge hash set

`EdgeHashSet` is the open-addressing hash set in which a traced process records
its `(trace_site, value)` pairs.  The table is a memory-mapped file, so it is
rehashed in place when it doubles: the low bit of `trace_site`, which is otherwise
zero, says under which table size (`epoch`) a slot was last hashed.

The table is a function from positions to slots; only the positions below
`edge_count` are in the file.  Sizes and positions are natural numbers: before a
`size_t` could overflow, `ftruncate` has failed and the process is gone.  The hash
itself is 64-bit, and the mixing of `IndexSequence` wraps.  `fnv1a_64` is a
parameter; nothing below depends on what it computes.

Operations fail where the C++ asserts.  `outOfFuel` is a failure of the model
only: `rehashSlot` bounds the `while` loop of `increase_size`, and
`EdgeHashSetResize` shows that the bound is never met.
-/
namespace Bracelet.EdgeHashSet

structure BraceletTraceEdge where
  trace_site : UInt64
  value : UInt64
  deriving DecidableEq, Repr

/-! ## Slots -/

def EDGE_ZERO : BraceletTraceEdge := ⟨0, 0⟩

def edge_present (e : BraceletTraceEdge) : Bool := e.trace_site != 0

def edge_epoch (e : BraceletTraceEdge) : Bool := e.trace_site &&& 1 == 1

def edge_equal (a b : BraceletTraceEdge) : Bool :=
  a.trace_site >>> 1 == b.trace_site >>> 1 && a.value == b.value

def edge_set_epoch (e : BraceletTraceEdge) (epoch : Bool) : BraceletTraceEdge :=
  ⟨((e.trace_site >>> 1) <<< 1) ||| epoch.toUInt64, e.value⟩

/-- The edge a slot stands for: the bookkeeping bit cleared. -/
def canonical (e : BraceletTraceEdge) : BraceletTraceEdge := edge_set_epoch e false

/-- An edge a caller may add: `trace_site` is the address of a `BraceletTraceSite`,
aligned to more than a byte and not null. -/
def Traceable (e : BraceletTraceEdge) : Prop := e.trace_site &&& 1 = 0 ∧ e.trace_site ≠ 0

instance (e : BraceletTraceEdge) : Decidable (Traceable e) :=
  inferInstanceAs (Decidable (_ ∧ _))

/-! ## The table -/

inductive Failure
  /-- `assert(edge_epoch(e) == 0)` in `add_edge`. -/
  | epochBitSet
  /-- `assert(inserted_edges < resize_threshold)` in `add_edge`. -/
  | stillFull
  /-- `assert(0)` in `IndexSequence`: all 1024 attempts are used up. -/
  | attemptsExhausted
  | outOfFuel
  deriving DecidableEq, Repr

structure Table where
  edge_count : Nat
  inserted_edges : Nat
  resize_threshold : Nat
  edges : Nat → BraceletTraceEdge
  epoch : Bool

def Table.set (t : Table) (i : Nat) (e : BraceletTraceEdge) : Table :=
  { t with edges := Function.update t.edges i e }

def Table.update_resize_threshold (t : Table) : Table :=
  { t with resize_threshold := (t.edge_count * 3) / 4 }

/-- The constructor: a zero-filled file of `1 << log2_initial_buffer_size` slots. -/
def create (log2_initial_buffer_size : Nat) : Table :=
  Table.update_resize_threshold ⟨2 ^ log2_initial_buffer_size, 0, 0, fun _ => EDGE_ZERO, false⟩

/-! ## Probing -/

/-- The Murmur64 finalizer. -/
def murmur64 (hash : UInt64) : UInt64 :=
  let hash := hash ^^^ (hash >>> 33)
  let hash := hash * 0xff51afd7ed558ccd
  let hash := hash ^^^ (hash >>> 33)
  let hash := hash * 0xc4ceb9fe1a85ec53
  hash ^^^ (hash >>> 33)

/-- The positions `IndexSequence` yields while attempts remain. -/
def indices (edge_count : Nat) : Nat → UInt64 → List Nat
  | 0, _ => []
  | attempts + 1, hash =>
      let hash := if (attempts + 1) % 4 = 3 then murmur64 hash else hash + 1
      (hash.toNat &&& (edge_count - 1)) :: indices edge_count attempts hash

section
variable (fnv1a_64 : BraceletTraceEdge → UInt64)

def edge_hash (e : BraceletTraceEdge) : UInt64 :=
  fnv1a_64 ⟨(e.trace_site >>> 1) <<< 1, e.value⟩

/-- The whole `IndexSequence` of an edge. -/
def IndexSequence (edge_count : Nat) (e : BraceletTraceEdge) : List Nat :=
  indices edge_count 1024 (edge_hash fnv1a_64 e)

/-! ## Doubling -/

/-- The loop of `resize_insert`, for the edge in slot `i`, over the positions it
still has to probe.  `edge` is a reference to slot `i`, so it is read from there. -/
def resizeProbe (i : Nat) : List Nat → Table → Except Failure (Bool × Table)
  | [], _ => .error .attemptsExhausted
  | idx :: rest, t =>
      let edge := t.edges i
      let dst := t.edges idx
      if edge_present dst then
        if edge_epoch dst = t.epoch then
          if edge_equal edge dst then .ok (false, t) else resizeProbe i rest t
        else
          -- `std::swap(edge, dst)`
          .ok (true, (t.set i dst).set idx edge)
      else
        .ok (false, (t.set idx (edge_set_epoch edge t.epoch)).set i EDGE_ZERO)

/-- `resize_insert(edges[i])`: whether it has to be called again on the same slot,
and the table it leaves. -/
def resize_insert (t : Table) (i : Nat) : Except Failure (Bool × Table) :=
  let edge := t.edges i
  if !edge_present edge || edge_epoch edge == t.epoch then
    .ok (false, t)
  else
    let edge := edge_set_epoch edge t.epoch
    resizeProbe i (IndexSequence fnv1a_64 t.edge_count edge) (t.set i edge)

/-- Calling `resize_insert` on slot `i` until it returns false. -/
def rehashSlot (i : Nat) : Nat → Table → Except Failure Table
  | 0, _ => .error .outOfFuel
  | fuel + 1, t => do
      let (again, t) ← resize_insert fnv1a_64 t i
      if again then rehashSlot i fuel t else return t

/-- The rehashing loop of `increase_size`, over the positions still to visit. -/
def rehash : List Nat → Table → Except Failure Table
  | [], t => .ok t
  | i :: is, t => do rehash is (← rehashSlot fnv1a_64 i (t.edge_count + 1) t)

/-- The table once the file has been extended by `ftruncate` and mapped again: the
new slots are zero. -/
def Table.extend (t : Table) : Table :=
  { t with
    epoch := !t.epoch
    edge_count := t.edge_count * 2
    edges := fun i => if i < t.edge_count then t.edges i else EDGE_ZERO }

def increase_size (t : Table) : Except Failure Table := do
  let t' ← rehash fnv1a_64 (List.range t.edge_count) t.extend
  return t'.update_resize_threshold

/-! ## Adding -/

/-- The loop of `add_edge` over the positions it still has to probe. -/
def addProbe (e : BraceletTraceEdge) : List Nat → Table → Except Failure (Bool × Table)
  | [], _ => .error .attemptsExhausted
  | idx :: rest, t =>
      let dst := t.edges idx
      if !edge_present dst then
        .ok (true, { t.set idx e with inserted_edges := t.inserted_edges + 1 })
      else if edge_equal dst e then
        .ok (false, t)
      else
        addProbe e rest t

/-- The resize `add_edge` starts with. -/
def makeRoom (t : Table) : Except Failure Table :=
  if t.inserted_edges ≥ t.resize_threshold then do
    let t ← increase_size fnv1a_64 t
    if t.inserted_edges < t.resize_threshold then return t else throw .stillFull
  else
    return t

/-- `add_edge`: whether the edge was added, and the table it leaves. -/
def add_edge (t : Table) (e : BraceletTraceEdge) : Except Failure (Bool × Table) := do
  if edge_epoch e then throw .epochBitSet
  let t ← makeRoom fnv1a_64 t
  let e := edge_set_epoch e t.epoch
  addProbe e (IndexSequence fnv1a_64 t.edge_count e) t

/-- A sequence of `add_edge` calls: their answers, in order, and the last table. -/
def add_edges : List BraceletTraceEdge → Table → Except Failure (List Bool × Table)
  | [], t => .ok ([], t)
  | e :: es, t => do
      let (added, t) ← add_edge fnv1a_64 t e
      let (rest, t) ← add_edges es t
      return (added :: rest, t)

end

end Bracelet.EdgeHashSet
