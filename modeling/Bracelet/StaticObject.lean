import Bracelet.Dict
import Bracelet.EdgeReader
import Bracelet.OrderedMaps

/-!
# Static objects

An ELF file as an object whose addresses are pairs of a section and an offset, exploded
into the fields of a 64-bit word.  `translateAddr` finds the section of an address of the
debug information, `visitSections` gives the addresses of the sections, and
`resolvePointers` looks pointers up among the relocations of a section, which are parsed
when the section is first asked for one.  Symbols that are not defined in the file live
in a section of their own.

What LLVM says of the file is data; `Result` stands for its `Expected`.
-/
namespace Bracelet.ObjectParsing
open Edges (Address Result Failure ensure assert)

/-! ## Object files -/

structure SectionHeader where
  /-- Its place in the table of sections. -/
  index : Nat
  name : Result String
  address : UInt64
  size : UInt64
  /-- `SHF_ALLOC`, `SHF_WRITE`, `SHF_TLS` and `SHT_NOBITS`. -/
  alloc : Bool
  write : Bool
  tls : Bool
  nobits : Bool

def SectionHeader.isBSS (sec : SectionHeader) : Bool := (sec.alloc || sec.write) && sec.nobits

inductive SymbolType
  | NOTYPE | OBJECT | FUNC | SECTION | FILE | COMMON | TLS
  deriving DecidableEq, Repr

structure Symbol where
  name : Result String
  type : SymbolType
  address : Result UInt64
  /-- The section it is defined in, if any. -/
  symbol_section : Result (Option SectionHeader)

structure Relocation where
  offset : UInt64
  symbol : Option Symbol
  addend : Option Int64

structure SectionRef where
  header : SectionHeader
  /-- What its relocations are for, if it is a section of relocations. -/
  relocatedSection : Result (Option SectionHeader)
  relocations : List Relocation

structure ObjectFile where
  bytesInAddress : Nat
  sections : List SectionRef
  indexed : ∀ (i : Nat) (sec : SectionRef), sections[i]? = some sec → sec.header.index = i
  /-- A symbol is defined in a section of the file. -/
  defined : ∀ sec ∈ sections, ∀ reloc ∈ sec.relocations, ∀ symbol ∈ reloc.symbol, ∀ h,
    symbol.symbol_section = .ok (some h) → h ∈ sections.map SectionRef.header

/-! ## Exploded addresses -/

structure ExplodedAddress where
  section_offset : UInt32 := 0
  /-- One more than the index, so that no valid address is null. -/
  section_idx_plus_one : UInt16 := 0
  /-- Where a node keeps the index of a local. -/
  zero : UInt16 := 0
  deriving DecidableEq, Repr

namespace ExplodedAddress

def ofAddress (addr : Address) : ExplodedAddress where
  section_offset := addr.toUInt32
  section_idx_plus_one := (addr >>> 32).toUInt16
  zero := (addr >>> 48).toUInt16

def toAddress (exp : ExplodedAddress) : Address :=
  exp.section_offset.toUInt64 ||| (exp.section_idx_plus_one.toUInt64 <<< 32) |||
    (exp.zero.toUInt64 <<< 48)

def section_idx (asserts : Bool) (exp : ExplodedAddress) : Result UInt16 := do
  assert asserts (1 ≤ exp.section_idx_plus_one)
  return exp.section_idx_plus_one - 1

/-- The address of this offset in the section of this index. -/
def make (asserts : Bool) (idx : UInt16) (section_offset : UInt32) : Result Address := do
  assert asserts (idx < 65535)
  return { section_offset, section_idx_plus_one := idx + 1 : ExplodedAddress }.toAddress

end ExplodedAddress

def hex (n : UInt64) : String := String.ofList (Nat.toDigits 16 n.toNat)

variable (asserts : Bool)

/-! ## Addresses of the debug information -/

/-- The sections by their addresses; the first one with an address is kept. -/
structure ExplodedAddressLoadInfo where
  sections : List (Nat × SectionHeader)

def ExplodedAddressLoadInfo.new (obj : ObjectFile) : ExplodedAddressLoadInfo :=
  ⟨OrderedMap.ofList (obj.sections.map fun sec => (sec.header.address.toNat, sec.header))⟩

def ExplodedAddressLoadInfo.translateAddr (info : ExplodedAddressLoadInfo) (addr : Address) :
    Result Address :=
  match OrderedMap.floor info.sections addr.toNat with
  | none => .error (.error [s!"Should be able to find section for {hex addr}"])
  | some (_, sec) => do
    let sectionOff := addr - sec.address
    ensure (sectionOff < sec.size) s!"Address of {hex addr} should be inbounds for section {sec.index} of size {sec.size} "
    ExplodedAddress.make asserts (UInt16.ofNat sec.index) sectionOff.toUInt32

/-! ## The state of an object -/

/-- A section, with what LLVM knows of it unless it is the one of the extern symbols. -/
structure Section where
  name : String
  header : Option SectionHeader

/-- A map from the addresses of slots to what is there. -/
abbrev Relocations := List (UInt64 × Address)

structure StaticObject where
  obj : ObjectFile
  sections : List (Option Section)
  extern_symbols_section : UInt32
  /-- The relocations of the sections that have been asked for, by index. -/
  lazy_relocations : List (Nat × Relocations) := []
  extern_symbol_indices : List (String × UInt32) := []
  symbol_names : List (Address × String) := []

namespace StaticObject

/-- `sections.resize(count)` -/
def resize (sections : List (Option Section)) (count : Nat) : List (Option Section) :=
  sections.take count ++ List.replicate (count - sections.length) none

/-- One section of the loop in `init`. -/
def initSection (sections : List (Option Section)) (sec : SectionRef) :
    Result (List (Option Section)) := do
  let idx := sec.header.index
  let sections := if sections.length ≤ idx + 1 then resize sections (idx + 1) else sections
  ensure ((sections[idx]?.getD none).isNone) s!"Duplicate section idx {idx}"
  let name ← sec.header.name
  return sections.set idx (some ⟨name, some sec.header⟩)

def init (obj : ObjectFile) : Result StaticObject := do
  let sections ← obj.sections.foldlM initSection []
  return {
    obj
    sections := sections ++ [some ⟨"extern symbols section (bracelet)", none⟩]
    extern_symbols_section := UInt32.ofNat sections.length }

/-- One section of the loop in `visitSections`. -/
def visitSection {σ : Type} (so : StaticObject) (callback : σ → Edges.Section → Result σ) (s : σ)
    (s_idx : Nat) : Result σ :=
  if s_idx = so.extern_symbols_section.toNat then .ok s
  else match so.sections[s_idx]? with
    | some (some ⟨name, some sec⟩) => do
      let start ← ExplodedAddress.make asserts (UInt16.ofNat s_idx) 0
      callback s ⟨name, start, sec.size.toNat⟩
    -- Only the section of the extern symbols has no header.
    | some (some ⟨_, none⟩) => .error .abort
    | _ => .ok s

def visitSections {σ : Type} (so : StaticObject) (callback : σ → Edges.Section → Result σ) (s : σ) :
    Result σ :=
  (List.range so.sections.length).foldlM (so.visitSection asserts callback) s

def symbolName (so : StaticObject) (addr : Address) : Result String :=
  match Dict.get? so.symbol_names addr with
  | none => .error (.error [s!"Cannot find symbol name for address {hex addr}"])
  | some name => .ok name

/-! ## Relocations -/

/-- What changes an object; an error keeps what was done before it. -/
abbrev Step (α : Type) := Except (Failure × StaticObject) α

/-- A part of a step that does not change the object. -/
def attempt {α : Type} (so : StaticObject) : Result α → Step α
  | .ok a => .ok a
  | .error e => .error (e, so)

/-- The address of a symbol that is not defined in the file. -/
def externAddress (so : StaticObject) (symbol : Symbol) : Step (Address × StaticObject) := do
  let symbol_name ← so.attempt symbol.name
  let idx := match Dict.get? so.extern_symbol_indices symbol_name with
    | some idx => idx
    | none => UInt32.ofNat so.extern_symbol_indices.length
  let out ← so.attempt (ExplodedAddress.make asserts so.extern_symbols_section.toUInt16 idx)
  if (Dict.get? so.extern_symbol_indices symbol_name).isSome then return (out, so) else do
    let so := { so with
      extern_symbol_indices := Dict.set so.extern_symbol_indices symbol_name idx }
    so.attempt (assert true (Dict.get? so.symbol_names out).isNone)
    return (out, { so with symbol_names := Dict.set so.symbol_names out symbol_name })

/-- The address of a symbol that is. -/
def definedAddress (so : StaticObject) (symbol : Symbol) (symbol_addr : UInt64)
    (symbol_section : SectionHeader) (reladd : Int64) : Step (Address × StaticObject) := do
  let section_offset := ((symbol_addr - symbol_section.address) + reladd.toUInt64).toUInt32
  let out ← so.attempt
    (ExplodedAddress.make asserts (UInt16.ofNat symbol_section.index) section_offset)
  so.attempt (assert true (section_offset.toUInt64 ≤ symbol_section.size))
  if (Dict.get? so.symbol_names out).isSome then return (out, so) else do
    let symbol_name ← so.attempt symbol.name
    return (out, { so with symbol_names := Dict.set so.symbol_names out symbol_name })

/-- One relocation of the loop in `relocations`. -/
def addRelocation (state : Relocations × StaticObject) (reloc : Relocation) :
    Step (Relocations × StaticObject) := do
  let (relocations, so) := state
  so.attempt (assert asserts (Dict.get? relocations reloc.offset).isNone)
  match reloc.symbol with
  | none => return (relocations, so)
  | some symbol => do
    let symbol_addr ← so.attempt symbol.address
    let symbol_section ← so.attempt symbol.symbol_section
    let (out, so) ← match symbol_section with
      | none => so.externAddress asserts symbol
      | some symbol_section =>
        so.definedAddress asserts symbol symbol_addr symbol_section (reloc.addend.getD 0)
    return (Dict.set relocations reloc.offset out, so)

/-- One section of the loop in `relocations`. -/
def addRelocations (sec : SectionHeader) (state : Relocations × StaticObject)
    (reloc_section : SectionRef) : Step (Relocations × StaticObject) := do
  let relocation_target ← state.2.attempt reloc_section.relocatedSection
  match relocation_target with
  | none => return state
  | some target =>
    if target.index ≠ sec.index then return state
    else reloc_section.relocations.foldlM (addRelocation asserts) state

def relocations (so : StaticObject) (sec : SectionHeader) : Step (Relocations × StaticObject) :=
  match Dict.get? so.lazy_relocations sec.index with
  | some relocations => .ok (relocations, so)
  | none => do
    let (relocations, so) ← so.obj.sections.foldlM (addRelocations asserts sec) ([], so)
    return (relocations,
      { so with lazy_relocations := Dict.set so.lazy_relocations sec.index relocations })

/-- One slot of the loop in `resolvePointers`. -/
def resolveSlot (name : String) (sec : SectionHeader) (relocations : Relocations)
    (address : UInt64) : Result Address :=
  match Dict.get? relocations address with
  | some addr => .ok addr
  | none => do
    -- A slot of a section without contents is zero when the program starts.
    ensure sec.isBSS s!"Cannot find relocation for section {name}, address {address}"
    return 0

def resolvePointers (so : StaticObject) (count : Nat) (addr_raw : Address) :
    Step (List Address × StaticObject) := do
  so.attempt (assert asserts (8 == so.obj.bytesInAddress))
  if count = 0 then return ([], so) else do
  so.attempt (ensure (addr_raw != 0) "Can't copy from NULL")
  let addr := ExplodedAddress.ofAddress addr_raw
  let idx ← so.attempt (addr.section_idx asserts)
  so.attempt (ensure (idx.toNat < so.sections.length) "Address section is out of range")
  match so.sections[idx.toNat]? with
  | some (some ⟨name, some sec⟩) => do
    let section_offset := addr.section_offset.toUInt64
    so.attempt (ensure (section_offset ≤ sec.size) "Section offset is out of bounds for section")
    let room := (sec.size - section_offset) / 8
    so.attempt (ensure (count ≤ room.toNat)
      s!"Can only copy {room} addresses. {count} addresses desired.")
    let base_address := sec.address + section_offset
    let (relocations, so) ← so.relocations asserts sec
    let dst ← so.attempt ((List.range count).mapM fun i =>
      resolveSlot name sec relocations (base_address + UInt64.ofNat i * 8))
    return (dst, so)
  -- There is a section, and one of the file.
  | _ => so.attempt (.error .abort)

end StaticObject
end Bracelet.ObjectParsing
