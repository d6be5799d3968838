import Bracelet.DebugLocationNames

/-!
# Instruction ranges

A line entry of the debug data covers the addresses from its start up to, and without, its end;
`sourceLocationMap` lists these ranges by position.  The loop over a range in `emitAddresses` goes
on to the end itself.  So it writes an address too many for each range, the first one after the
instructions of the position, and for an entry of a module that is not loaded, whose ends both are
the invalid address, it never ends.
-/
namespace Bracelet.Edges.DebugLocations

/-! ## The loop over a range -/

/-- The addresses from the first to the last one. -/
def closedRange (first last : Address) : List Address :=
  (List.range (last.toNat + 1 - first.toNat)).map fun i => UInt64.ofNat (first.toNat + i)

theorem mem_closedRange {first last a : Address} :
    a ∈ closedRange first last ↔ first ≤ a ∧ a ≤ last := by
  have hlt := last.toNat_lt
  rw [closedRange, List.mem_map, UInt64.le_iff_toNat_le, UInt64.le_iff_toNat_le]
  constructor
  · rintro ⟨i, hi, rfl⟩
    rw [List.mem_range] at hi
    rw [UInt64.toNat_ofNat_of_lt' (show _ < UInt64.size by unfold UInt64.size; omega)]
    omega
  · rintro ⟨hfirst, hlast⟩
    refine ⟨a.toNat - first.toNat, List.mem_range.mpr (by omega), ?_⟩
    rw [Nat.add_sub_cancel' hfirst]
    exact UInt64.ofNat_toNat

theorem closedRange_cons {first last : Address} (hlast : last.toNat < 2 ^ 64 - 1)
    (h : first ≤ last) : closedRange first last = first :: closedRange (first + 1) last := by
  rw [UInt64.le_iff_toNat_le] at h
  have hnext : (first + 1).toNat = first.toNat + 1 := by
    rw [UInt64.toNat_add, UInt64.toNat_one]
    omega
  have hcount : last.toNat + 1 - first.toNat = (last.toNat + 1 - (first + 1).toNat) + 1 := by
    omega
  have hhead : UInt64.ofNat (first.toNat + 0) = first := UInt64.ofNat_toNat
  unfold closedRange
  rw [hcount, List.range_succ_eq_map, List.map_cons, List.map_map, hnext, hhead]
  refine congrArg (first :: ·) (List.map_congr_left fun i _ => ?_)
  show UInt64.ofNat (first.toNat + (i + 1)) = UInt64.ofNat (first.toNat + 1 + i)
  congr 1
  omega

theorem closedRange_eq_nil {first last : Address} (h : ¬ first ≤ last) :
    closedRange first last = [] := by
  rw [UInt64.le_iff_toNat_le] at h
  have hnone : last.toNat + 1 - first.toNat = 0 := by omega
  rw [closedRange, hnone]
  rfl

/-- A loop that stops short of the greatest address goes through the whole range. -/
theorem expandRange_eq {last : Address} (hlast : last.toNat < 2 ^ 64 - 1) {fuel : Nat}
    {Addr : Address} (hfuel : last.toNat + 1 - Addr.toNat < fuel) :
    expandRange last fuel Addr = .ok (closedRange Addr last) := by
  induction fuel generalizing Addr with
  | zero => exact absurd hfuel (Nat.not_lt_zero _)
  | succ fuel ih =>
    unfold expandRange
    by_cases hle : Addr ≤ last
    · have hnext : last.toNat + 1 - (Addr + 1).toNat < fuel := by
        rw [UInt64.le_iff_toNat_le] at hle
        rw [UInt64.toNat_add, UInt64.toNat_one]
        omega
      rw [if_pos hle, ih hnext, ok_bind, closedRange_cons hlast hle]
      rfl
    · rw [if_neg hle, closedRange_eq_nil hle]
      rfl

/-- The counter of a loop up to the greatest address wraps around. -/
theorem expandRange_diverges {last : Address} (hlast : last.toNat = 2 ^ 64 - 1) (fuel : Nat)
    (Addr : Address) : expandRange last fuel Addr = .error .diverges := by
  induction fuel generalizing Addr with
  | zero => rfl
  | succ fuel ih =>
    have hle : Addr ≤ last := by
      have hlt := Addr.toNat_lt
      rw [UInt64.le_iff_toNat_le, hlast]
      omega
    rw [expandRange, if_pos hle, ih]
    rfl

/-! ## The source location map -/

/-- An entry of the line table of a compile unit, with the load addresses of its ends. -/
structure LineEntry where
  FileName : Bytes
  Line : Nat
  Column : Nat
  StartAddress : Address
  EndAddress : Address

namespace LineEntry
variable (LineEntry : LineEntry)

def location : SourceLocation := ⟨LineEntry.FileName, LineEntry.Line, LineEntry.Column⟩

def range : Address × Address := (LineEntry.StartAddress, LineEntry.EndAddress)

end LineEntry

/-- `slm[location].push_back(range)` -/
def pushRange (slm : SourceLocation → List (Address × Address)) (LineEntry : LineEntry) :
    SourceLocation → List (Address × Address) :=
  Function.update slm LineEntry.location (slm LineEntry.location ++ [LineEntry.range])

/-- The map of the line entries of the compile units of the modules. -/
def sourceLocationMap (modules : List (List (List LineEntry))) :
    SourceLocation → List (Address × Address) :=
  modules.foldl (fun slm units =>
    units.foldl (fun slm entries => entries.foldl pushRange slm) slm) fun _ => []

theorem foldl_pushRange (entries : List LineEntry) (slm : SourceLocation → List (Address × Address))
    (position : SourceLocation) : entries.foldl pushRange slm position =
      slm position ++ (entries.filter (·.location = position)).map LineEntry.range := by
  induction entries generalizing slm with
  | nil => simp
  | cons e entries ih =>
    rw [List.foldl_cons, ih]
    by_cases h : e.location = position
    · subst h
      simp [pushRange]
    · simp [pushRange, h, Function.update_of_ne (Ne.symm h)]

/-- **The ranges of a position** are those of its line entries, in order. -/
theorem sourceLocationMap_eq (modules : List (List (List LineEntry))) (position : SourceLocation) :
    sourceLocationMap modules position =
      (modules.flatten.flatten.filter (·.location = position)).map LineEntry.range := by
  have hall : sourceLocationMap modules = modules.flatten.flatten.foldl pushRange fun _ => [] := by
    rw [sourceLocationMap, List.foldl_flatten, List.foldl_flatten]
  rw [hall, foldl_pushRange, List.nil_append]

/-! ## The lines of a local -/

/-- A loop that ends goes through the whole range. -/
theorem expandRange_ok {range : Address × Address} {addresses : List Address}
    (h : expandRange range.2 (2 ^ 64) range.1 = .ok addresses) :
    addresses = closedRange range.1 range.2 := by
  have hlt := range.2.toNat_lt
  by_cases hlast : range.2.toNat = 2 ^ 64 - 1
  · rw [expandRange_diverges hlast] at h
    cases h
  · rw [expandRange_eq (by omega) (by omega)] at h
    exact (Except.ok.inj h).symm

/-- **The lines of a position** are those of its ranges, with their ends. -/
theorem mem_expandRanges {N : Node} {ranges : List (Address × Address)}
    {rows : List (Address × Node)} (h : expandRanges N ranges = .ok rows) {a : Address} :
    (a, N) ∈ rows ↔ ∃ range ∈ ranges, range.1 ≤ a ∧ a ≤ range.2 := by
  obtain ⟨addresses, haddresses, h⟩ := bind_ok h
  obtain rfl := Except.ok.inj h
  have hranges : addresses = ranges.map fun range => closedRange range.1 range.2 :=
    mapM_ok (fun range _ _ h => expandRange_ok h) haddresses
  simp [hranges, mem_closedRange]

/-- The lines are written exactly when no range ends at the greatest address. -/
theorem expandRanges_isOk_iff {N : Node} {ranges : List (Address × Address)} :
    (∃ rows, expandRanges N ranges = .ok rows) ↔
      ∀ range ∈ ranges, range.2.toNat ≠ 2 ^ 64 - 1 := by
  have hmapM : (∃ rows, expandRanges N ranges = .ok rows) ↔
      ∃ addresses, ranges.mapM (fun range => expandRange range.2 (2 ^ 64) range.1) =
        .ok addresses := by
    constructor
    · rintro ⟨rows, h⟩
      obtain ⟨addresses, haddresses, -⟩ := bind_ok h
      exact ⟨addresses, haddresses⟩
    · rintro ⟨addresses, h⟩
      exact ⟨_, by rw [expandRanges, h]; rfl⟩
  rw [hmapM, mapM_isOk_iff]
  refine forall₂_congr fun range _ => ⟨?_, fun hlast => ?_⟩
  · rintro ⟨addresses, h⟩ hlast
    rw [expandRange_diverges hlast] at h
    cases h
  · have hlt := range.2.toNat_lt
    exact ⟨_, expandRange_eq (by omega) (by omega)⟩

/-- **Exactly the addresses of half-open ranges are written**: the loops end, and an address has a
line for each range that it is in. -/
def ExpandsExactly (lines : Result (List (Address × Node))) (N : Node)
    (ranges : List (Address × Address)) : Prop :=
  ∃ rows, lines = .ok rows ∧
    ∀ a, rows.count (a, N) = ranges.countP fun range => range.1 ≤ a ∧ a < range.2

/-- **The addresses are never exactly those of the ranges**: the greatest end gets a line. -/
theorem not_expandsExactly {asserts : Bool} {env : EdgeOutput} {fi : FunctionInfo} {N : Node}
    {local_idx : Nat} {slm : SourceLocation → List (Address × Address)} {Name : Bytes}
    {position : SourceLocation} (hslm : env.slm = some slm)
    (hlocals : fi.debug_data.has_locals = true)
    (hName : fi.debug_data.local_name local_idx = .ok Name)
    (hposition : printedPosition asserts Name = .ok (some position)) (hmap : slm position ≠ [])
    (hordered : ∀ range ∈ slm position, range.1 ≤ range.2) :
    ¬ ExpandsExactly (emitAddresses asserts env fi N local_idx) N (slm position) := by
  rintro ⟨rows, hrows, hcount⟩
  rw [emitAddresses_eq hslm hlocals hName, hposition] at hrows
  obtain ⟨last, hlast⟩ : ∃ last, (slm position).argmax (·.2.toNat) = some last := by
    rw [← Option.ne_none_iff_exists', Ne, List.argmax_eq_none]
    exact hmap
  have hmem := List.argmax_mem hlast
  have hwritten : (last.2, N) ∈ rows :=
    (mem_expandRanges hrows).mpr ⟨last, hmem, hordered last hmem, UInt64.le_refl _⟩
  have hpos : 0 < (slm position).countP fun range => range.1 ≤ last.2 ∧ last.2 < range.2 := by
    rw [← hcount]
    exact List.count_pos_iff.mpr hwritten
  obtain ⟨range, hrange, hin⟩ := List.countP_pos_iff.mp hpos
  have hle := List.le_of_mem_argmax hrange hlast
  have hlt := UInt64.lt_iff_toNat_lt.mp (of_decide_eq_true hin).2
  omega

/-! ## A loaded and an unloaded module -/

/-- A position of four bytes, and one of a module that is not loaded. -/
def twoEntries : List (List (List LineEntry)) :=
  [[[⟨ascii "a.c", 1, 2, 0x1000, 0x1004⟩]],
    [[⟨ascii "b.c", 3, 4, 0xffffffffffffffff, 0xffffffffffffffff⟩]]]

def twoEntriesEnv : EdgeOutput where
  obj := ⟨false, 8, [], fun _ _ => .ok [], fun _ _ => .ok []⟩
  symbolName _ := .ok []
  slm := some (sourceLocationMap twoEntries)
  PrintCallArgumentCount := false

/-- The lines of the local of a function, by its name. -/
def linesOf (Name : Bytes) : Result (List (Address × Node)) :=
  emitAddresses true twoEntriesEnv (functionOf Name) (Node.ofLocal 0x1000 0) 0

/-- The fifth byte has a line too, and the lines of the unloaded module do not end. -/
theorem fourBytes_not_expandsExactly :
    linesOf (ascii "a.c:1:2|x") = .ok ([0x1000, 0x1001, 0x1002, 0x1003, 0x1004].map fun a =>
      (a, Node.ofLocal 0x1000 0)) ∧
    linesOf (ascii "b.c:3:4|y") = .error .diverges ∧
    ¬ ExpandsExactly (linesOf (ascii "a.c:1:2|x")) (Node.ofLocal 0x1000 0) [(0x1000, 0x1004)] := by
  have hfive : linesOf (ascii "a.c:1:2|x") = .ok ([0x1000, 0x1001, 0x1002, 0x1003, 0x1004].map
      fun a => (a, Node.ofLocal 0x1000 0)) := rfl
  refine ⟨hfive, ?_, ?_⟩
  · -- The counter wraps around, so this is not a computation.
    have hposition : printedPosition true (ascii "b.c:3:4|y") =
        .ok (some ⟨ascii "b.c", 3, 4⟩) := by decide
    have hranges : sourceLocationMap twoEntries ⟨ascii "b.c", 3, 4⟩ =
        [(0xffffffffffffffff, 0xffffffffffffffff)] := by decide
    rw [linesOf, emitAddresses_eq rfl rfl (local_name_functionOf (by decide)), hposition, ok_bind,
      addressesOf, hranges, expandRanges, List.mapM_cons, expandRange_diverges (by decide)]
    simp only [Bind.bind, Except.bind]
  · rw [hfive]
    rintro ⟨rows, hrows, hcount⟩
    obtain rfl := Except.ok.inj hrows
    exact absurd (hcount 0x1004) (by decide)

/-- The theorem at the loaded module. -/
theorem not_expandsExactly_fourBytes :
    ¬ ExpandsExactly (linesOf (ascii "a.c:1:2|x")) (Node.ofLocal 0x1000 0)
      (sourceLocationMap twoEntries ⟨ascii "a.c", 1, 2⟩) := by
  have hranges : sourceLocationMap twoEntries ⟨ascii "a.c", 1, 2⟩ = [(0x1000, 0x1004)] := by decide
  refine not_expandsExactly rfl rfl (local_name_functionOf (by decide)) (by decide) ?_ ?_
  · rw [hranges]
    exact List.cons_ne_nil _ _
  · rw [hranges]
    intro range hrange
    obtain rfl := List.mem_singleton.mp hrange
    decide

end Bracelet.Edges.DebugLocations
