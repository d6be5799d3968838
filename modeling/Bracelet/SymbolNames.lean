import Bracelet.StaticRuns

/-!
# The names of addresses

The name of an address is the one of the first relocation with its location among those
of the section that was asked for first.  It does not depend on the order of the calls
while the sections that are asked for give each location one name, and it is the name of a
function or an object defined there, if a relocation names one, while each of them gives
such a name (`symbolName_eq`).  A relocation by way of a section symbol gives the name of
the section instead.
-/
namespace Bracelet.ObjectParsing
open Edges (Address)

/-- A function or an object that is defined exactly at the location. -/
def Symbol.DefinedAt (symbol : Symbol) (l : Location) : Prop :=
  (symbol.type = .FUNC ∨ symbol.type = .OBJECT) ∧ ∃ symbol_addr sec,
    symbol.address = .ok symbol_addr ∧ symbol.symbol_section = .ok (some sec) ∧
      l = .inSection sec.index (symbol_addr - sec.address).toNat

namespace ObjectFile

/-- A relocation with this location names such a symbol. -/
def Names (obj : ObjectFile) (l : Location) (name : String) : Prop :=
  ∃ idx, ∃ reloc ∈ obj.relocationsOf idx, reloc.location = some l ∧
    ∃ symbol, reloc.symbol = some symbol ∧ symbol.DefinedAt l ∧ symbol.name = .ok name

/-- The relocations for these sections give each location one name, that of a function or
an object defined there if there is one. -/
structure NamesAgree (obj : ObjectFile) (asked : Nat → Prop) : Prop where
  one : ∀ l idx idx' name name', asked idx → asked idx' →
    recordedName (obj.relocationsOf idx) l = some name →
      recordedName (obj.relocationsOf idx') l = some name' → name = name'
  defined : ∀ l idx name, asked idx → recordedName (obj.relocationsOf idx) l = some name →
    (∃ name', obj.Names l name') → obj.Names l name

end ObjectFile

/-- The sections whose relocations some calls ask for. -/
def Asked (calls : List Call) (idx : Nat) : Prop := ∃ call ∈ calls, call.Asks idx

/-- The slots that calls resolve, with their addresses. -/
def resolved (obj : ObjectFile) (answers : List (Call × List Address)) :
    List ((Nat × UInt64) × Address) :=
  answers.flatMap fun answer => (answer.1.slots obj).zip answer.2

variable {asserts : Bool} {asked : Nat → Prop} {obj : ObjectFile} {so so' : StaticObject}

/-- A slot that is resolved is a pointer of a call. -/
theorem given_of_resolved {answers : List (Call × List Address)} {slot : Nat × UInt64}
    {addr : Address} (h : (slot, addr) ∈ resolved obj answers) :
    ∃ y ∈ answers, y.1.resolves ∧ (obj.slotTarget slot, addr) ∈ (y.1.locations obj).zip y.2 := by
  obtain ⟨⟨call, out⟩, hy, hzip⟩ := List.mem_flatMap.mp h
  refine ⟨_, hy, ?_⟩
  cases call with
  | translateAddr addr => cases hzip
  | visitSections => cases hzip
  | resolvePointers count addr' =>
    refine ⟨rfl, ?_⟩
    rw [Call.locations, List.zip_map_left]
    exact List.mem_map_of_mem hzip

/-- The null address has no name. -/
theorem Sound.names_zero (h : Sound asked so) : Dict.get? so.symbol_names 0 = none := by
  cases hget : Dict.get? so.symbol_names 0 with
  | none => rfl
  | some name =>
    obtain ⟨l, hl, -⟩ := h.names 0 name hget
    have hat : ∃ idx offset, ExplodedAddress.At 0 idx offset := by
      cases l with
      | inSection idx offset => exact ⟨idx, offset, hl⟩
      | external symbol_name =>
        obtain ⟨i, -, hat⟩ := hl
        exact ⟨_, _, hat⟩
    obtain ⟨idx, offset, hat⟩ := hat
    have hzero := (ExplodedAddress.at_iff.mp hat).1
    rw [UInt64.toNat_zero] at hzero
    omega

/-- A name that is recorded is one that a relocation gives to its location. -/
theorem ObjectFile.Records.within {l : Location} {name : String} (h : obj.Records asked l name) :
    l.Within obj := by
  cases l with
  | external symbol_name => trivial
  | inSection idx offset =>
    obtain ⟨idx', -, hname⟩ := h
    obtain ⟨reloc, hfind, -⟩ := Option.bind_eq_some_iff.mp hname
    have hmem := List.mem_of_find?_eq_some hfind
    have hloc : reloc.location = some (.inSection idx offset) := by
      simpa using List.find?_some hfind
    exact Relocation.within (ObjectFile.mem_relocationsOf hmem) hloc

/-- **The name of a pointer.** -/
theorem Stands.symbolName (h : Sound asked so) (hobj : so.obj = obj) {call : Call}
    (hcall : call.resolves) {l : Location} {addr : Address} (hstand : Stands call so (some l) addr)
    (hmem : some l ∈ call.locations obj) :
    ∃ name, so.symbolName addr = .ok name ∧ obj.Records asked l name := by
  subst hobj
  obtain ⟨hdenotes, hfits, hnamed⟩ := hstand
  obtain ⟨name, hname⟩ := hnamed hcall
  obtain ⟨l', hdenotes', hrecords⟩ := h.names addr name hname
  obtain rfl := hdenotes.injective h hdenotes' hfits (Call.within hmem) hrecords.within
  exact ⟨name, by rw [StaticObject.symbolName, hname], hrecords⟩

/-- A location is given one name. -/
theorem ObjectFile.NamesAgree.records (h : obj.NamesAgree asked) {l : Location}
    {name name' : String} (hname : obj.Records asked l name) (hname' : obj.Records asked l name') :
    name = name' := by
  cases l with
  | external symbol_name => exact hname.trans hname'.symm
  | inSection idx offset =>
    obtain ⟨i, hi, hname⟩ := hname
    obtain ⟨i', hi', hname'⟩ := hname'
    exact h.one _ i i' name name' hi hi' hname hname'

/-- It is the name of a function or an object that is defined there. -/
theorem ObjectFile.NamesAgree.names (h : obj.NamesAgree asked) {l : Location} {name : String}
    (hname : obj.Records asked l name) (hdefined : ∃ name', obj.Names l name') :
    obj.Names l name := by
  cases l with
  | external symbol_name =>
    -- Nothing is defined where a symbol of another file is.
    obtain ⟨_, _, _, _, _, _, _, ⟨-, _, _, -, -, hl⟩, -⟩ := hdefined
    cases hl
  | inSection idx offset =>
    obtain ⟨i, hi, hname⟩ := hname
    exact h.defined _ i name hi hname hdefined

/-- What a slot that is resolved in a run is called. -/
theorem symbolName_resolved (hinit : StaticObject.init obj = .ok so) {calls : List Call}
    (hasked : ∀ idx, Asked calls idx → asked idx)
    (hfits : ∀ call ∈ calls, ∀ l, call.Concerns obj l → l.Fits obj)
    {answers : List (Call × List Address)} (hrun : run asserts calls so = some (answers, so'))
    {slot : Nat × UInt64} {addr : Address} (hmem : (slot, addr) ∈ resolved obj answers) :
    match obj.slotTarget slot with
    | some l => ∃ name, so'.symbolName addr = .ok name ∧ obj.Records asked l name
    | none => so'.symbolName addr = so.symbolName 0 := by
  obtain ⟨rfl, hsound⟩ := init_sound asked hinit
  obtain ⟨hsound', hgrows, hstands⟩ :=
    run_stands hsound (fun call hcall idx hidx => hasked idx ⟨call, hcall, hidx⟩) hfits hrun
  obtain ⟨y, hy, hresolves, hzip⟩ := given_of_resolved hmem
  have hstand := (List.forall₂_iff_zip.mp (hstands y hy)).2 hzip
  cases htarget : so.obj.slotTarget slot with
  | some l =>
    rw [htarget] at hstand hzip
    exact hstand.symbolName hsound' hgrows.obj hresolves (List.of_mem_zip hzip).1
  | none =>
    rw [htarget] at hstand
    obtain rfl : addr = 0 := hstand
    show so'.symbolName 0 = so.symbolName 0
    rw [StaticObject.symbolName, StaticObject.symbolName, hsound'.names_zero, hsound.names_zero]

/-- **While the sections that are asked for agree on names, the name of a pointer does not
depend on the calls and their order**, and is that of a function or an object defined
there, if a relocation names one. -/
theorem symbolName_eq (hinit : StaticObject.init obj = .ok so) {calls calls' : List Call}
    (hagree : obj.NamesAgree (Asked (calls ++ calls')))
    (hfits : ∀ call ∈ calls ++ calls', ∀ l, call.Concerns obj l → l.Fits obj)
    {answers answers' : List (Call × List Address)} {so₁ so₂ : StaticObject}
    (hrun : run asserts calls so = some (answers, so₁))
    (hrun' : run asserts calls' so = some (answers', so₂)) :
    (∀ y ∈ resolved obj answers, ∀ z ∈ resolved obj answers', y.1 = z.1 →
      so₁.symbolName y.2 = so₂.symbolName z.2) ∧
      ∀ y ∈ resolved obj answers, ∀ l, obj.slotTarget y.1 = some l →
        (∃ name, obj.Names l name) → ∃ name, so₁.symbolName y.2 = .ok name ∧ obj.Names l name := by
  rw [List.forall_mem_append] at hfits
  have hasked : ∀ idx, Asked calls idx → Asked (calls ++ calls') idx :=
    fun idx ⟨call, hcall, hasks⟩ => ⟨call, List.mem_append_left _ hcall, hasks⟩
  have hasked' : ∀ idx, Asked calls' idx → Asked (calls ++ calls') idx :=
    fun idx ⟨call, hcall, hasks⟩ => ⟨call, List.mem_append_right _ hcall, hasks⟩
  constructor
  · rintro ⟨slot, addr⟩ hy ⟨slot', addr'⟩ hz heq
    obtain rfl : slot = slot' := heq
    have hname := symbolName_resolved hinit hasked hfits.1 hrun hy
    have hname' := symbolName_resolved hinit hasked' hfits.2 hrun' hz
    cases htarget : obj.slotTarget slot with
    | some l =>
      rw [htarget] at hname hname'
      obtain ⟨name, hname, hrecords⟩ := hname
      obtain ⟨name', hname', hrecords'⟩ := hname'
      show so₁.symbolName addr = so₂.symbolName addr'
      rw [hname, hname', hagree.records hrecords hrecords']
    | none =>
      rw [htarget] at hname hname'
      exact hname.trans hname'.symm
  · rintro ⟨slot, addr⟩ hy l htarget hdefined
    have hname := symbolName_resolved hinit hasked hfits.1 hrun hy
    rw [show obj.slotTarget slot = some l from htarget] at hname
    obtain ⟨name, hname, hrecords⟩ := hname
    exact ⟨name, hname, hagree.names hrecords hdefined⟩

/-! ## A function and its section -/

def textHeader : SectionHeader := ⟨1, .ok ".text", 0, 16, true, false, false, false⟩

/-- A function at the start of its section. -/
def function : Symbol := ⟨.ok "f", .FUNC, .ok 0, .ok (some textHeader)⟩

/-- The symbol of the section. -/
def textSection : Symbol := ⟨.ok ".text", .SECTION, .ok 0, .ok (some textHeader)⟩

/-- Two sections hold a pointer to the function, the second by way of this symbol. -/
def twoPointers (second : Symbol) (h : second.symbol_section = .ok (some textHeader)) :
    ObjectFile where
  bytesInAddress := 8
  sections := [
    ⟨⟨0, .ok "", 0, 0, false, false, false, false⟩, .ok none, []⟩,
    ⟨textHeader, .ok none, []⟩,
    ⟨⟨2, .ok ".data.a", 0, 8, true, true, false, false⟩, .ok none, []⟩,
    ⟨⟨3, .ok ".rela.data.a", 0, 24, false, false, false, false⟩,
      .ok (some ⟨2, .ok ".data.a", 0, 8, true, true, false, false⟩),
      [⟨0, some function, some 0⟩]⟩,
    ⟨⟨4, .ok ".data.b", 0, 8, true, true, false, false⟩, .ok none, []⟩,
    ⟨⟨5, .ok ".rela.data.b", 0, 24, false, false, false, false⟩,
      .ok (some ⟨4, .ok ".data.b", 0, 8, true, true, false, false⟩),
      [⟨0, some second, some 0⟩]⟩]
  indexed := by
    intro i sec h
    match i with
    | 0 | 1 | 2 | 3 | 4 | 5 => exact Option.some.inj h ▸ rfl
    | i + 6 => cases h
  defined := by
    simp [function, h]

def readA : Call := .resolvePointers 1 0x300000000
def readB : Call := .resolvePointers 1 0x500000000

/-- Both sections call the function by its name. -/
theorem twoPointers_eq : ∃ so, StaticObject.init (twoPointers function rfl) = .ok so ∧
    ∃ answers so₁ answers' so₂, run true [readA, readB] so = some (answers, so₁) ∧
      run true [readB, readA] so = some (answers', so₂) ∧
      ∀ y ∈ resolved (twoPointers function rfl) answers,
        ∀ z ∈ resolved (twoPointers function rfl) answers', y.1 = z.1 →
          so₁.symbolName y.2 = so₂.symbolName z.2 := by
  obtain ⟨so, hinit⟩ : ∃ so, StaticObject.init (twoPointers function rfl) = .ok so := ⟨_, rfl⟩
  obtain ⟨answers, so₁, answers', so₂, hrun, hrun'⟩ : ∃ answers so₁ answers' so₂,
      run true [readA, readB] so = some (answers, so₁) ∧
        run true [readB, readA] so = some (answers', so₂) := by
    obtain rfl := Except.ok.inj hinit
    exact ⟨_, _, _, _, rfl, rfl⟩
  have hcalls : ∀ call ∈ [readA, readB] ++ [readB, readA], call = readA ∨ call = readB := by
    simp only [List.cons_append, List.nil_append, List.mem_cons, List.not_mem_nil]
    tauto
  -- The sections that are asked for hold one relocation each.
  have hrelocs : ∀ call ∈ [readA, readB] ++ [readB, readA], ∀ idx, call.Asks idx →
      (twoPointers function rfl).relocationsOf idx = [⟨0, some function, some 0⟩] := by
    intro call hcall idx hasks
    obtain rfl | rfl := hcalls call hcall
    · obtain rfl : idx = 2 := hasks
      rfl
    · obtain rfl : idx = 4 := hasks
      rfl
  refine ⟨so, hinit, answers, so₁, answers', so₂, hrun, hrun',
    (symbolName_eq hinit ⟨?_, ?_⟩ ?_ hrun hrun').1⟩
  · rintro l idx idx' name name' ⟨call, hcall, hasks⟩ ⟨call', hcall', hasks'⟩ hname hname'
    rw [hrelocs call hcall idx hasks] at hname
    rw [hrelocs call' hcall' idx' hasks'] at hname'
    exact Option.some.inj (hname.symm.trans hname')
  · rintro l idx name ⟨call, hcall, hasks⟩ hname -
    rw [hrelocs call hcall idx hasks] at hname
    obtain ⟨reloc, hfind, hname⟩ := Option.bind_eq_some_iff.mp hname
    have hloc : reloc.location = some l := by simpa using List.find?_some hfind
    obtain rfl := List.mem_singleton.mp (List.mem_of_find?_eq_some hfind)
    obtain rfl : Location.inSection 1 0 = l := Option.some.inj hloc
    obtain rfl : "f" = name := Option.some.inj hname
    exact ⟨2, _, List.mem_cons_self, rfl, function, rfl, ⟨.inl rfl, 0, textHeader, rfl, rfl, rfl⟩, rfl⟩
  · intro call hcall l hl
    obtain ⟨idx, hasks, reloc, hmem, hloc⟩ : ∃ idx, call.Asks idx ∧
        ∃ reloc ∈ (twoPointers function rfl).relocationsOf idx, reloc.location = some l := by
      obtain rfl | rfl := hcalls call hcall <;> exact hl
    rw [hrelocs call hcall idx hasks] at hmem
    obtain rfl := List.mem_singleton.mp hmem
    obtain rfl : Location.inSection 1 0 = l := Option.some.inj hloc
    exact ⟨by norm_num, by norm_num⟩

/-- The order in which the two are read decides whether the pointer is called `f`. -/
theorem twoPointers_not_eq : ∃ so, StaticObject.init (twoPointers textSection rfl) = .ok so ∧
    ∃ answers so₁ answers' so₂, run true [readA, readB] so = some (answers, so₁) ∧
      run true [readB, readA] so = some (answers', so₂) ∧
      ∃ y ∈ resolved (twoPointers textSection rfl) answers,
        ∃ z ∈ resolved (twoPointers textSection rfl) answers', y.1 = z.1 ∧
          so₁.symbolName y.2 = .ok "f" ∧ so₂.symbolName z.2 = .ok ".text" ∧
          ∃ l, (twoPointers textSection rfl).slotTarget z.1 = some l ∧
            (twoPointers textSection rfl).Names l "f" := by
  refine ⟨_, rfl, [(readA, [0x200000000]), (readB, [0x200000000])], _,
    [(readB, [0x200000000]), (readA, [0x200000000])], _, rfl, rfl, ((2, 0), 0x200000000), ?_,
    ((2, 0), 0x200000000), ?_, rfl, rfl, rfl, .inSection 1 0, rfl, 2, _, List.mem_cons_self, rfl,
    function, rfl, ?_, rfl⟩
  · exact List.mem_cons_self
  · exact List.mem_cons_of_mem _ List.mem_cons_self
  · exact ⟨.inl rfl, 0, textHeader, rfl, rfl, rfl⟩

end Bracelet.ObjectParsing
