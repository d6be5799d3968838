import Bracelet.Machine
import Bracelet.Records

/-!
# The set of ELF segments

`elf_segments.cpp` keeps the addresses of all loaded ELF segments behind one atomic
pointer, `ELF_SEGMENTS`.  `rescan` loads the pointer, asks the dynamic linker for the
segments that are loaded now, and replaces the old set by the new one with a
compare-exchange unless their hashes agree; what was published is never freed.
`dlopen` rescans after every library it loads, and `pointerIsInElfSegment` when nothing
has been published.

Here any family `ι` of threads makes these calls.  `step` is one atomic step of one
thread, so a run of `machine` is an interleaving.  `Local` says which atomic step a
thread is about to take; what it does to an object that nobody else has seen is part of
the step that scans.  A step is `none` where the thread would fail an assertion or follow
a pointer to nothing.

`since`, `known` and `completed` are history variables: what was loaded when a rescan
started, and before which rescans had returned.
-/
namespace Bracelet.Rescan

/-- An interval of addresses that passes the assertions of the scan. -/
structure AddrInterval where
  lower : Nat
  upper : Nat
  nonempty : lower < upper
  bound : upper < 2 ^ 64 - 1
  deriving DecidableEq

instance : Inhabited AddrInterval := ⟨⟨0, 1, by decide, by decide⟩⟩

namespace AddrInterval

def Contains (i : AddrInterval) (ptr : Nat) : Prop := i.lower ≤ ptr ∧ ptr < i.upper

instance (i : AddrInterval) (ptr : Nat) : Decidable (i.Contains ptr) :=
  inferInstanceAs (Decidable (_ ∧ _))

/-- The order of `std::sort`. -/
def le (i j : AddrInterval) : Bool := i.lower < j.lower || i.lower == j.lower && i.upper ≤ j.upper

/-- The bytes of an interval that are hashed. -/
def bytes (i : AddrInterval) : List UInt8 := leBytes 8 i.lower ++ leBytes 8 i.upper

end AddrInterval

/-- The address of an object.  A null `ElfSegments *` is `none`. -/
abbrev Ptr := Nat

variable {η : Type}

/-- A `struct ElfSegments`: the set is that of the addresses of its intervals. -/
structure ElfSegments (η : Type) where
  segments : List AddrInterval
  segments_hash : η

/-- What a scan makes of the segments that are loaded. -/
def ElfSegments.scan (xxh3 : List UInt8 → η) (loaded : List AddrInterval) : ElfSegments η where
  segments := loaded
  segments_hash := xxh3 ((loaded.mergeSort AddrInterval.le).flatMap AddrInterval.bytes)

/-- `segments.find(ptr) != segments.end()` -/
def ElfSegments.find (s : ElfSegments η) (ptr : Nat) : Bool := s.segments.any (·.Contains ptr)

/-- Who called `rescan`. -/
inductive Caller
  | dlopen
  /-- `pointerIsInElfSegment(ptr)` -/
  | lookup (ptr : Nat) (known : List AddrInterval)

/-- Where a thread is: the atomic step it takes next. -/
inductive Local
  | idle
  /-- In the `dlopen` of the C library. -/
  | linking
  /-- `rescan`: about to load `ELF_SEGMENTS`. -/
  | loading (caller : Caller)
  /-- `rescan`: about to ask for the segments that are loaded. -/
  | scanning (caller : Caller) (since : List AddrInterval) (old : Option Ptr)
  /-- `rescan`: about to compare the hashes. -/
  | comparing (caller : Caller) (since : List AddrInterval) (old : Option Ptr) (new_intervals : Ptr)
  /-- `rescan`: about to replace `old`. -/
  | exchanging (caller : Caller) (since : List AddrInterval) (old : Option Ptr)
      (new_intervals : Ptr)
  /-- `rescan` has returned. -/
  | returned (caller : Caller) (since : List AddrInterval)
  /-- `pointerIsInElfSegment`: about to load `ELF_SEGMENTS`. -/
  | looking (ptr : Nat) (known : List AddrInterval)
  /-- `pointerIsInElfSegment`: about to search a set. -/
  | finding (ptr : Nat) (known : List AddrInterval) (elf_segments : Ptr)
  /-- `pointerIsInElfSegment` has returned. -/
  | answered (ptr : Nat) (known : List AddrInterval) (found : Bool)

/-- The shared memory, what the dynamic linker has loaded, and every thread. -/
structure Config (ι η : Type) where
  loaded : List AddrInterval
  elf_segments : Option Ptr
  objects : Ptr → Option (ElfSegments η)
  threads : ι → Local
  completed : List AddrInterval

inductive Action
  /-- The thread calls `dlopen`. -/
  | dlopen
  /-- The dynamic linker loads a library for the thread. -/
  | link (segments : List AddrInterval)
  /-- The thread calls `pointerIsInElfSegment`. -/
  | lookup (ptr : Nat)
  /-- The thread takes its next step; an object it allocates is put at `fresh`. -/
  | next (fresh : Ptr)

structure Event (ι : Type) where
  thread : ι
  action : Action

variable {ι : Type} [DecidableEq ι]

/-- Thread `i` is now at `l`. -/
def Config.goto (c : Config ι η) (i : ι) (l : Local) : Config ι η :=
  { c with threads := Function.update c.threads i l }

/-- Object `p` is now `o`. -/
def Config.setObject (c : Config ι η) (p : Ptr) (o : Option (ElfSegments η)) : Config ι η :=
  { c with objects := Function.update c.objects p o }

/-- `rescan` returns. -/
def Config.return (c : Config ι η) (i : ι) (caller : Caller) (since : List AddrInterval) :
    Config ι η :=
  { c.goto i (.returned caller since) with completed := since ++ c.completed }

variable [DecidableEq η]

/-- The next atomic step of thread `i`. -/
def next (xxh3 : List UInt8 → η) (c : Config ι η) (i : ι) (fresh : Ptr) : Option (Config ι η) :=
  match c.threads i with
  | .idle => none
  | .linking => some (c.goto i (.loading .dlopen))
  | .loading caller => some (c.goto i (.scanning caller c.loaded c.elf_segments))
  | .scanning caller since old =>
    -- `make_unique` returns memory that is not in use
    if c.objects fresh = none then
      some ((c.setObject fresh (some (.scan xxh3 c.loaded))).goto i
        (.comparing caller since old fresh))
    else none
  | .comparing caller since none new => some (c.goto i (.exchanging caller since none new))
  | .comparing caller since (some old) new => do
    let new_intervals ← c.objects new
    let old_intervals ← c.objects old
    if new_intervals.segments_hash = old_intervals.segments_hash then
      some ((c.setObject new none).return i caller since)
    else some (c.goto i (.exchanging caller since (some old) new))
  | .exchanging caller since old new =>
    if c.elf_segments = old then some ({ c with elf_segments := some new }.return i caller since)
    else some ((c.setObject new none).goto i (.scanning caller since c.elf_segments))
  | .returned .dlopen _ => some (c.goto i .idle)
  | .returned (.lookup ptr known) _ => do
    let elf_segments ← c.elf_segments
    return c.goto i (.finding ptr known elf_segments)
  | .looking ptr known =>
    match c.elf_segments with
    | none => some (c.goto i (.loading (.lookup ptr known)))
    | some elf_segments => some (c.goto i (.finding ptr known elf_segments))
  | .finding ptr known elf_segments => do
    let object ← c.objects elf_segments
    return c.goto i (.answered ptr known (object.find ptr))
  | .answered _ _ _ => some (c.goto i .idle)

/-- What an idle thread may call. -/
def Action.call (c : Config ι η) : Action → Option Local
  | .dlopen => some .linking
  | .lookup ptr =>
    if ptr = 2 ^ 64 - 1 then some (.answered ptr c.completed false)
    else some (.looking ptr c.completed)
  | _ => none

/-- One step of a thread. -/
def step (xxh3 : List UInt8 → η) (c : Config ι η) (e : Event ι) : Option (Config ι η) :=
  match c.threads e.thread, e.action with
  | .idle, action => (action.call c).map (c.goto e.thread)
  | .linking, .link segments => some { c with loaded := c.loaded ++ segments }
  | _, .next fresh => next xxh3 c e.thread fresh
  | _, _ => none

/-- Nothing has been published, and no thread has called anything. -/
def initial (loaded : List AddrInterval) : Config ι η :=
  ⟨loaded, none, fun _ => none, fun _ => .idle, []⟩

/-- Any number of threads. -/
def machine (xxh3 : List UInt8 → η) (loaded : List AddrInterval) : Machine (Config ι η) (Event ι) :=
  ⟨initial loaded, step xxh3⟩

end Bracelet.Rescan
