import Bracelet.Machine

/-!
# The lock-free dlsym page list

`braceletReachabilityDlsymPageInsert(Symbol, Dst)` records the result of a
`dlsym()` call in a linked list of pages.  A call loads the head page, claims a
slot of it with a fetch-and-add on `count`, and stores its symbol there; when the
page is missing or full it maps a fresh page in front of the one it saw and
publishes it with a compare-exchange on the head.  A call whose compare-exchange
fails unmaps its page and goes on with the page that won.

Here any family `ι` of calls runs on one head pointer.  `step` is one atomic step
of one call, so a run of `machine` is an interleaving.  `Local` says which atomic
step a call is about to take and holds the variables it still needs; everything a
call does to a page nobody else has seen (`memset`, `Allocated->next`) is part of
the step that maps the page.  A step is `none` where the call would touch a page
that is not mapped.

`writes` is a history variable: the slots stored so far, newest first.
-/
namespace Bracelet.DlsymRuntime

/-- The address of a mapped page.  A null `struct DlsymPage *` is `none`. -/
abbrev PageAddr := Nat

/-- `DLSYM_PAGE_NUM_POINTERS`: a 16KiB page less its two header words. -/
def numPointers : Nat := 16384 / 8 - 2

/-- A `struct DlsymPage`.  `count` is not bounded by the capacity. -/
structure DlsymPage where
  next : Option PageAddr
  count : Nat
  pointers : Nat → UInt64

/-- A page as the runtime maps it: zeroed, and linked to the page it goes in
front of. -/
def DlsymPage.fresh (next : Option PageAddr) : DlsymPage := ⟨next, 0, fun _ => 0⟩

/-- Where a call is: the atomic step it takes next. -/
inductive Local
  /-- About to load `*Dst`. -/
  | loading
  /-- About to increment `page->count`. -/
  | claiming (page : PageAddr)
  /-- Has claimed slot `idx` of `page` and is about to store its symbol. -/
  | storing (page : PageAddr) (idx : Nat)
  /-- About to map a page to go in front of `page`. -/
  | allocating (page : Option PageAddr)
  /-- About to replace the head `page` by `allocated`. -/
  | publishing (page : Option PageAddr) (allocated : PageAddr)
  /-- Lost the race to `expected` and is about to unmap `allocated`. -/
  | unmapping (allocated : PageAddr) (expected : Option PageAddr)
  /-- Returned, having stored its symbol in slot `idx` of `page`. -/
  | returned (page : PageAddr) (idx : Nat)
  deriving DecidableEq

/-- The top of the loop: claim a slot of `Page`, or allocate when it is null. -/
def Local.enter : Option PageAddr → Local
  | some p => .claiming p
  | none => .allocating none

/-- One store to `pages[page].pointers[idx]`. -/
structure Write (ι : Type) where
  call : ι
  page : PageAddr
  idx : Nat

/-- The shared memory, every call's control state, and the stores so far. -/
structure Config (ι : Type) where
  head : Option PageAddr
  pages : PageAddr → Option DlsymPage
  calls : ι → Local
  writes : List (Write ι)

/-- The call that moves, and the address `mmap` returns if it allocates. -/
structure Event (ι : Type) where
  call : ι
  fresh : PageAddr

variable {ι : Type} [DecidableEq ι]

/-- Call `i` is now at `l`. -/
def Config.goto (c : Config ι) (i : ι) (l : Local) : Config ι :=
  { c with calls := Function.update c.calls i l }

/-- Page `p` now holds `pg`. -/
def Config.setPage (c : Config ι) (p : PageAddr) (pg : Option DlsymPage) : Config ι :=
  { c with pages := Function.update c.pages p pg }

/-- One atomic step of `braceletReachabilityDlsymPageInsert(symbol e.call, Dst)`. -/
def step (symbol : ι → UInt64) (c : Config ι) (e : Event ι) : Option (Config ι) :=
  match c.calls e.call with
  | .loading => some (c.goto e.call (.enter c.head))
  | .claiming p => do
      let pg ← c.pages p
      let c' := c.setPage p (some { pg with count := pg.count + 1 })
      if pg.count < numPointers then
        return c'.goto e.call (.storing p pg.count)
      else
        return c'.goto e.call (.allocating (some p))
  | .storing p idx => do
      let pg ← c.pages p
      let c' := c.setPage p
        (some { pg with pointers := Function.update pg.pointers idx (symbol e.call) })
      return { c'.goto e.call (.returned p idx) with writes := ⟨e.call, p, idx⟩ :: c.writes }
  | .allocating page =>
      -- `mmap` returns memory that is not in use
      if c.pages e.fresh = none then
        some ((c.setPage e.fresh (some (.fresh page))).goto e.call (.publishing page e.fresh))
      else
        none
  | .publishing page allocated =>
      if c.head = page then
        some { c.goto e.call (.claiming allocated) with head := some allocated }
      else
        some (c.goto e.call (.unmapping allocated c.head))
  | .unmapping allocated expected =>
      some ((c.setPage allocated none).goto e.call (.enter expected))
  | .returned _ _ => none

/-- No page yet, and every call about to start. -/
def initial : Config ι := ⟨none, fun _ => none, fun _ => .loading, []⟩

/-- Any number of concurrent calls on one head pointer. -/
def machine (symbol : ι → UInt64) : Machine (Config ι) (Event ι) := ⟨initial, step symbol⟩

end Bracelet.DlsymRuntime
