import Bracelet.SectionLookup

/-!
# Runs of a static object

A run of an object is a list of calls; an error ends its call and leaves what was done
before.  Every address that a call gives stands for a location: an offset in a section,
or a symbol that is not defined in the file.  While the locations fit the fields of an
exploded address this holds of all runs (`run_stands`), an address stands for one location
(`StaticObject.Denotes.injective`), and the name it has is one that the relocations of a
section that was asked for give to its location (`Sound.names`).
-/
namespace Bracelet.ObjectParsing
open Edges (Address Result Failure ensure assert Packable bind_ok foldlM_keeps)

/-! ## Locations -/

inductive Location
  | inSection (idx offset : Nat)
  | external (name : String)
  deriving DecidableEq, Repr

/-- The location that a relocation is for. -/
def Relocation.location (reloc : Relocation) : Option Location :=
  reloc.symbol.bind fun symbol =>
    match symbol.address, symbol.symbol_section, symbol.name with
    | .ok symbol_addr, .ok (some sec), _ =>
      some (.inSection sec.index
        ((symbol_addr - sec.address) + (reloc.addend.getD 0).toUInt64).toNat)
    | .ok _, .ok none, .ok symbol_name => some (.external symbol_name)
    | _, _, _ => none

/-- The name of its symbol. -/
def Relocation.name (reloc : Relocation) : Option String :=
  reloc.symbol.bind fun symbol => symbol.name.toOption

/-- The name that some relocations give a location: that of the first one. -/
def recordedName (relocs : List Relocation) (l : Location) : Option String :=
  (relocs.find? fun reloc => decide (reloc.location = some l)).bind Relocation.name

/-- The relocations for a section that a section of the file holds. -/
def SectionRef.relocationsFor (idx : Nat) (sec : SectionRef) : List Relocation :=
  match sec.relocatedSection with
  | .ok (some target) => if target.index = idx then sec.relocations else []
  | _ => []

namespace ObjectFile

/-- The relocations for a section. -/
def relocationsOf (obj : ObjectFile) (idx : Nat) : List Relocation :=
  obj.sections.flatMap (SectionRef.relocationsFor idx)

/-- The symbols of relocations that are not defined in the file. -/
def externs (obj : ObjectFile) : Finset String :=
  ((obj.sections.flatMap SectionRef.relocations).filterMap fun reloc =>
    match reloc.location with
    | some (.external name) => some name
    | _ => none).toFinset

/-- The name is one that the location can get from the relocations for these sections. -/
def Records (obj : ObjectFile) (asked : Nat → Prop) (l : Location) (name : String) : Prop :=
  match l with
  | .external symbol_name => name = symbol_name
  | .inSection _ _ => ∃ idx, asked idx ∧ recordedName (obj.relocationsOf idx) l = some name

end ObjectFile

/-- The location that some relocations leave in a slot: that of the last one. -/
def target (relocs : List Relocation) (slot : UInt64) : Option Location :=
  (relocs.reverse.find? fun reloc => reloc.offset == slot && reloc.symbol.isSome).bind
    Relocation.location

/-- The location fits the fields of an address, and the address a node. -/
def Location.Fits (obj : ObjectFile) : Location → Prop
  | .inSection idx offset => offset < 2 ^ 32 ∧ (idx + 1) * 2 ^ 32 + offset + 1 < 2 ^ 48
  | .external _ => obj.externs.card ≤ 2 ^ 32 ∧
    (obj.sections.length + 1) * 2 ^ 32 + obj.externs.card < 2 ^ 48

/-! ## Runs -/

inductive Call
  | translateAddr (addr : Address)
  | visitSections
  | resolvePointers (count : Nat) (addr : Address)

namespace StaticObject

/-- The addresses that a call gives. -/
def perform (asserts : Bool) (so : StaticObject) : Call → Step (List Address × StaticObject)
  | .translateAddr addr => do
    let out ← so.attempt ((ExplodedAddressLoadInfo.new so.obj).translateAddr asserts addr)
    return ([out], so)
  | .visitSections => do
    let out ← so.attempt (so.visitSections asserts (fun out sec => .ok (out ++ [sec.start])) [])
    return (out, so)
  | .resolvePointers count addr => so.resolvePointers asserts count addr

end StaticObject

/-- The slots that a call resolves, each with the index of its section. -/
def Call.slots (obj : ObjectFile) : Call → List (Nat × UInt64)
  | .resolvePointers count addr =>
    let exp := ExplodedAddress.ofAddress addr
    match obj.headers[(exp.section_idx_plus_one - 1).toNat]? with
    | some sec => (List.range count).map fun i =>
      (sec.index, sec.address + exp.section_offset.toUInt64 + UInt64.ofNat i * 8)
    | none => []
  | _ => []

/-- The location that the relocations leave in a slot of a section. -/
def ObjectFile.slotTarget (obj : ObjectFile) (slot : Nat × UInt64) : Option Location :=
  target (obj.relocationsOf slot.1) slot.2

def Call.resolves : Call → Bool
  | .resolvePointers _ _ => true
  | _ => false

/-- What the addresses of a call stand for; nothing does for a null pointer. -/
def Call.locations (obj : ObjectFile) : Call → List (Option Location)
  | .translateAddr addr =>
    match OrderedMap.floor (ExplodedAddressLoadInfo.new obj).sections addr.toNat with
    | some (_, sec) => [some (.inSection sec.index (addr - sec.address).toNat)]
    | none => []
  | .visitSections => (List.range obj.sections.length).map fun i => some (.inSection i 0)
  | .resolvePointers count addr =>
    ((Call.resolvePointers count addr).slots obj).map obj.slotTarget

/-- The call asks for the relocations of the section. -/
def Call.Asks : Call → Nat → Prop
  | .resolvePointers _ addr, idx =>
    idx = ((ExplodedAddress.ofAddress addr).section_idx_plus_one - 1).toNat
  | _, _ => False

/-- The locations that a call makes addresses for. -/
def Call.Concerns (obj : ObjectFile) : Call → Location → Prop
  | .translateAddr addr, l => ∃ k sec, l = .inSection sec.index (addr - sec.address).toNat ∧
    OrderedMap.floor (ExplodedAddressLoadInfo.new obj).sections addr.toNat = some (k, sec) ∧
      sec.Contains addr
  | .visitSections, l => ∃ i < obj.sections.length, l = .inSection i 0
  | .resolvePointers count addr, l => ∃ idx, (Call.resolvePointers count addr).Asks idx ∧
    ∃ reloc ∈ obj.relocationsOf idx, reloc.location = some l

/-- Calls, one after another: those that succeed, with the addresses they give.  There are
none when an assertion fails. -/
def run (asserts : Bool) : List Call → StaticObject →
    Option (List (Call × List Address) × StaticObject)
  | [], so => some ([], so)
  | call :: calls, so =>
    match so.perform asserts call with
    | .ok (out, so') => (run asserts calls so').map fun (rest, so'') => ((call, out) :: rest, so'')
    | .error (.error _, so') => run asserts calls so'
    | .error (_, _) => none

/-- The addresses that calls give, with what these stand for. -/
def given (obj : ObjectFile) (answers : List (Call × List Address)) :
    List (Option Location × Address) :=
  answers.flatMap fun answer => (answer.1.locations obj).zip answer.2

/-- In the object, the address stands for the location. -/
def StaticObject.Denotes (so : StaticObject) : Location → Address → Prop
  | .inSection idx offset, addr => ExplodedAddress.At addr idx offset
  | .external name, addr => ∃ i : UInt32, Dict.get? so.extern_symbol_indices name = some i ∧
    ExplodedAddress.At addr so.obj.sections.length i.toNat

/-! ## Locations and their addresses -/

namespace ObjectFile

variable {obj : ObjectFile}

theorem mem_relocationsOf {idx : Nat} {reloc : Relocation} (h : reloc ∈ obj.relocationsOf idx) :
    reloc ∈ obj.sections.flatMap SectionRef.relocations := by
  obtain ⟨sec, hsec, hmem⟩ := List.mem_flatMap.mp h
  refine List.mem_flatMap.mpr ⟨sec, hsec, ?_⟩
  unfold SectionRef.relocationsFor at hmem
  split at hmem
  · split at hmem
    · exact hmem
    · cases hmem
  · cases hmem

theorem mem_externs {reloc : Relocation} (h : reloc ∈ obj.sections.flatMap SectionRef.relocations)
    {name : String} (hloc : reloc.location = some (.external name)) : name ∈ obj.externs := by
  rw [externs, List.mem_toFinset, List.mem_filterMap]
  exact ⟨reloc, h, by rw [hloc]⟩

end ObjectFile

/-- From one state of an object to another: symbols keep their indices, and addresses
their names. -/
structure Grows (so so' : StaticObject) : Prop where
  obj : so'.obj = so.obj
  indices : ∀ name i, Dict.get? so.extern_symbol_indices name = some i →
    Dict.get? so'.extern_symbol_indices name = some i
  names : ∀ addr name, Dict.get? so.symbol_names addr = some name →
    Dict.get? so'.symbol_names addr = some name

theorem Grows.refl (so : StaticObject) : Grows so so := ⟨rfl, fun _ _ h => h, fun _ _ h => h⟩

theorem Grows.trans {so so' so'' : StaticObject} (h : Grows so so') (h' : Grows so' so'') :
    Grows so so'' :=
  ⟨h'.obj.trans h.obj, fun name i hi => h'.indices name i (h.indices name i hi),
    fun addr name hn => h'.names addr name (h.names addr name hn)⟩

/-- The address stands for the location and has a name. -/
structure Named (so : StaticObject) (l : Location) (addr : Address) : Prop where
  denotes : so.Denotes l addr
  named : ∃ name, Dict.get? so.symbol_names addr = some name

/-- What a slot holds is the address of a location that fits, if there is one for it. -/
def Filled (so : StaticObject) : Option Location → Option Address → Prop
  | some l, some addr => Named so l addr ∧ l.Fits so.obj
  | none, none => True
  | _, _ => False

theorem StaticObject.Denotes.mono {so so' : StaticObject} (h : Grows so so') {l : Location}
    {addr : Address} (hl : so.Denotes l addr) : so'.Denotes l addr := by
  cases l with
  | inSection idx offset => exact hl
  | external name =>
    obtain ⟨i, hi, hat⟩ := hl
    exact ⟨i, h.indices name i hi, h.obj ▸ hat⟩

theorem Named.mono {so so' : StaticObject} (h : Grows so so') {l : Location} {addr : Address}
    (hl : Named so l addr) : Named so' l addr := by
  obtain ⟨hdenotes, name, hname⟩ := hl
  exact ⟨hdenotes.mono h, name, h.names addr name hname⟩

theorem Filled.mono {so so' : StaticObject} (h : Grows so so') {l : Option Location}
    {addr : Option Address} (hl : Filled so l addr) : Filled so' l addr := by
  cases l <;> cases addr <;> try exact hl
  exact ⟨hl.1.mono h, h.obj ▸ hl.2⟩

/-- **The state of an object of a file.** -/
structure Sound (asked : Nat → Prop) (so : StaticObject) : Prop where
  sections : ∀ i < so.obj.sections.length, ∃ name header,
    so.obj.headers[i]? = some header ∧ so.sections[i]? = some (some ⟨name, some header⟩)
  length : so.sections.length = so.obj.sections.length + 1
  last : ∃ name, so.sections[so.obj.sections.length]? = some (some ⟨name, none⟩)
  externalSection : so.extern_symbols_section = UInt32.ofNat so.obj.sections.length
  indices : ∃ keys, Dict.Interned so.extern_symbol_indices keys ∧ keys.Nodup ∧
    ∀ name ∈ keys, name ∈ so.obj.externs
  lazy : ∀ idx relocs, Dict.get? so.lazy_relocations idx = some relocs → ∀ slot,
    Filled so (target (so.obj.relocationsOf idx) slot) (Dict.get? relocs slot)
  externs : ∀ name i, Dict.get? so.extern_symbol_indices name = some i → ∀ addr,
    ExplodedAddress.At addr so.obj.sections.length i.toNat →
      Dict.get? so.symbol_names addr = some name
  names : ∀ addr name, Dict.get? so.symbol_names addr = some name →
    ∃ l, so.Denotes l addr ∧ so.obj.Records asked l name

/-- The symbols that have indices are not more than there are. -/
theorem Sound.length_le {asked : Nat → Prop} {so : StaticObject} (h : Sound asked so) :
    so.extern_symbol_indices.length ≤ so.obj.externs.card := by
  obtain ⟨keys, hinterned, hnodup, hmem⟩ := h.indices
  rw [hinterned.length, ← List.toFinset_card_of_nodup hnodup]
  exact Finset.card_le_card fun name hname => hmem name (List.mem_toFinset.mp hname)

/-! ## Steps -/

/-- An error leaves a later state of the object; a failed assertion ends the run. -/
def Recovers (asked : Nat → Prop) (so : StaticObject) : Failure × StaticObject → Prop
  | (.error _, so') => Sound asked so' ∧ Grows so so'
  | (_, _) => True

/-- What a step answers, or that its error leaves the object sound. -/
def Leaves {α : Type} (asked : Nat → Prop) (so : StaticObject) (P : α → Prop) :
    StaticObject.Step α → Prop
  | .ok a => P a
  | .error e => Recovers asked so e

section
variable {α β : Type} {asked : Nat → Prop} {so so' : StaticObject} {P : α → Prop} {Q : β → Prop}

theorem Leaves.bind {x : StaticObject.Step α} {k : α → StaticObject.Step β} (hx : Leaves asked so P x)
    (hk : ∀ a, P a → Leaves asked so Q (k a)) : Leaves asked so Q (x >>= k) := by
  cases x with
  | ok a => exact hk a hx
  | error e => exact hx

/-- A part of a step that does not change the object. -/
theorem leaves_attempt (hs : Sound asked so') (hg : Grows so so') {r : Result α}
    (h : ∀ a, r = .ok a → P a) : Leaves asked so P (so'.attempt r) := by
  cases r with
  | ok a => exact h a rfl
  | error e =>
    cases e with
    | error messages => exact ⟨hs, hg⟩
    | abort => trivial
    | diverges => trivial

/-- An assertion is not an error. -/
theorem leaves_assert {checked cond : Bool} :
    Leaves asked so (fun _ => checked = true → cond = true) (so'.attempt (assert checked cond)) := by
  cases checked <;> cases cond <;> simp [assert, StaticObject.attempt, Leaves, Recovers]

theorem Leaves.mono {x : StaticObject.Step α} (hx : Leaves asked so P x) {P' : α → Prop}
    (h : ∀ a, P a → P' a) : Leaves asked so P' x := by
  cases x with
  | ok a => exact h a hx
  | error e => exact hx

/-- A step from a later state. -/
theorem Leaves.grown (hg : Grows so so') {x : StaticObject.Step α} (hx : Leaves asked so' P x) :
    Leaves asked so P x := by
  cases x with
  | ok a => exact hx
  | error e =>
    obtain ⟨e, so''⟩ := e
    cases e with
    | error messages => exact ⟨hx.1, hg.trans hx.2⟩
    | abort => trivial
    | diverges => trivial

end

/-! ## Relocations -/

section
variable {asserts : Bool} {asked : Nat → Prop} {so : StaticObject}

/-- The address and the object after a symbol has been given one. -/
structure Given (asked : Nat → Prop) (so : StaticObject) (l : Location)
    (p : Address × StaticObject) : Prop where
  sound : Sound asked p.2
  grows : Grows so p.2
  named : Named p.2 l p.1

theorem leaves_externAddress (h : Sound asked so) {symbol : Symbol}
    (hsymbol : ∀ name, symbol.name = .ok name →
      name ∈ so.obj.externs ∧ (Location.external name).Fits so.obj) :
    Leaves asked so (fun p => ∃ name, symbol.name = .ok name ∧ Given asked so (.external name) p)
      (so.externAddress asserts symbol) := by
  unfold StaticObject.externAddress
  refine Leaves.bind (P := fun name => symbol.name = .ok name)
    (leaves_attempt h (.refl so) fun _ hname => hname) fun name hname => ?_
  obtain ⟨hmem, hcard, hroom⟩ := hsymbol name hname
  have hsection : so.extern_symbols_section.toUInt16.toNat = so.obj.sections.length := by
    rw [h.externalSection, UInt32.toNat_toUInt16, UInt32.toNat_ofNat']
    omega
  refine Leaves.bind (leaves_attempt h (.refl so) fun _ hmake => hmake) fun addr hmake => ?_
  have hat : ∀ idx, ExplodedAddress.make asserts so.extern_symbols_section.toUInt16 idx = .ok addr →
      ExplodedAddress.At addr so.obj.sections.length idx.toNat := by
    intro idx hidx
    obtain ⟨addr', haddr', hat⟩ := ExplodedAddress.make_eq asserts
      (show so.extern_symbols_section.toUInt16.toNat < 65535 by rw [hsection]; omega) idx
    rw [← hsection, Except.ok.inj (hidx.symm.trans haddr')]
    exact hat
  cases hget : Dict.get? so.extern_symbol_indices name with
  | some idx =>
    simp only [hget] at hmake
    exact ⟨name, hname, h, .refl so, ⟨idx, hget, hat idx hmake⟩, name,
      h.externs name idx hget addr (hat idx hmake)⟩
  | none =>
    simp only [hget] at hmake
    refine Leaves.bind leaves_assert fun _ hunnamed => ⟨name, hname, ?_⟩
    have hunnamed : Dict.get? so.symbol_names addr = none := Option.isNone_iff_eq_none.mp (hunnamed rfl)
    obtain ⟨keys, hinterned, hnodup, hkeys⟩ := h.indices
    have hnew := hinterned.not_mem_of_get? hget
    have hnames : ∀ {addr' name'}, Dict.get? so.symbol_names addr' = some name' →
        Dict.get? (Dict.set so.symbol_names addr name) addr' = some name' := by
      intro addr' name' hn
      have hne : addr ≠ addr' := fun heq => by simp [← heq, hunnamed] at hn
      rw [Dict.get?_set, if_neg hne]
      exact hn
    have hgrows : Grows so { so with
        extern_symbol_indices := Dict.set so.extern_symbol_indices name
          (UInt32.ofNat so.extern_symbol_indices.length)
        symbol_names := Dict.set so.symbol_names addr name } := by
      refine ⟨rfl, fun k i hi => ?_, fun _ _ => hnames⟩
      have hne : name ≠ k := fun heq => by simp [heq, hi] at hget
      rw [Dict.get?_set, if_neg hne]
      exact hi
    have hindex : Dict.get? (Dict.set so.extern_symbol_indices name
        (UInt32.ofNat so.extern_symbol_indices.length)) name =
          some (UInt32.ofNat so.extern_symbol_indices.length) := by
      rw [Dict.get?_set, if_pos rfl]
    refine ⟨{ h with indices := ?_, lazy := ?_, externs := ?_, names := ?_ }, hgrows,
      ⟨_, hindex, hat _ hmake⟩, name, by rw [Dict.get?_set, if_pos rfl]⟩
    · refine ⟨keys ++ [name], hinterned.push hget, ?_, ?_⟩
      · refine List.nodup_append.mpr ⟨hnodup, List.nodup_singleton _, ?_⟩
        rintro a ha b hb rfl
        exact hnew (List.mem_singleton.mp hb ▸ ha)
      · intro k hk
        rcases List.mem_append.mp hk with hk | hk
        · exact hkeys k hk
        · exact List.mem_singleton.mp hk ▸ hmem
    · exact fun idx relocs hlazy slot => (h.lazy idx relocs hlazy slot).mono hgrows
    · intro k i hi addr' hat'
      rw [Dict.get?_set] at hi
      split at hi
      next heq =>
        obtain rfl := Option.some.inj hi
        obtain rfl := heq
        rw [hat'.unique (hat _ hmake), Dict.get?_set, if_pos rfl]
      next => exact hnames (h.externs k i hi addr' hat')
    · intro addr' name' hn
      rw [Dict.get?_set] at hn
      split at hn
      next heq =>
        obtain rfl := Option.some.inj hn
        exact ⟨.external name, ⟨_, hindex, heq ▸ hat _ hmake⟩, rfl⟩
      next =>
        obtain ⟨l, hl, hrecords⟩ := h.names addr' name' hn
        exact ⟨l, hl.mono hgrows, hrecords⟩

theorem leaves_definedAddress (h : Sound asked so) {symbol : Symbol} {symbol_addr : UInt64}
    {sec : SectionHeader} {reladd : Int64} {offset : UInt64}
    (hoffset : (symbol_addr - sec.address) + reladd.toUInt64 = offset)
    (hfits : (Location.inSection sec.index offset.toNat).Fits so.obj)
    (hfirst : (∀ addr, ¬ Named so (.inSection sec.index offset.toNat) addr) → ∀ name,
      symbol.name = .ok name → so.obj.Records asked (.inSection sec.index offset.toNat) name) :
    Leaves asked so (Given asked so (.inSection sec.index offset.toNat))
      (so.definedAddress asserts symbol symbol_addr sec reladd) := by
  obtain ⟨hlt, hroom⟩ := hfits
  unfold StaticObject.definedAddress
  rw [hoffset]
  refine Leaves.bind (leaves_attempt h (.refl so) fun _ hmake => hmake) fun addr hmake => ?_
  have hat : ExplodedAddress.At addr sec.index offset.toNat := by
    have hindex : (UInt16.ofNat sec.index).toNat = sec.index := by
      rw [UInt16.toNat_ofNat']
      omega
    obtain ⟨addr', haddr', hat⟩ := ExplodedAddress.make_eq asserts
      (show (UInt16.ofNat sec.index).toNat < 65535 by rw [hindex]; omega) offset.toUInt32
    rw [hindex, UInt64.toNat_toUInt32, Nat.mod_eq_of_lt hlt] at hat
    rwa [Except.ok.inj (hmake.symm.trans haddr')]
  refine Leaves.bind leaves_assert fun _ _ => ?_
  split
  next hnamed => exact ⟨h, .refl so, hat, Option.isSome_iff_exists.mp hnamed⟩
  next hunnamed =>
    have hunnamed : Dict.get? so.symbol_names addr = none := Option.not_isSome_iff_eq_none.mp hunnamed
    refine Leaves.bind (leaves_attempt h (.refl so) fun _ hname => hname) fun name hname => ?_
    have hnames : ∀ {addr' name'}, Dict.get? so.symbol_names addr' = some name' →
        Dict.get? (Dict.set so.symbol_names addr name) addr' = some name' := by
      intro addr' name' hn
      have hne : addr ≠ addr' := fun heq => by simp [← heq, hunnamed] at hn
      rw [Dict.get?_set, if_neg hne]
      exact hn
    have hgrows : Grows so { so with symbol_names := Dict.set so.symbol_names addr name } :=
      ⟨rfl, fun _ _ hi => hi, fun _ _ => hnames⟩
    refine ⟨{ h with lazy := ?_, externs := ?_, names := ?_ }, hgrows, hat, name,
      by rw [Dict.get?_set, if_pos rfl]⟩
    · exact fun idx relocs hlazy slot => (h.lazy idx relocs hlazy slot).mono hgrows
    · exact fun k i hi addr' hat' => hnames (h.externs k i hi addr' hat')
    · intro addr' name' hn
      rw [Dict.get?_set] at hn
      split at hn
      next heq =>
        obtain rfl := Option.some.inj hn
        refine ⟨_, heq ▸ hat, hfirst (fun addr₁ h₁ => ?_) name hname⟩
        -- The location has one address, which has no name yet.
        obtain ⟨hat₁, name₁, hname₁⟩ := h₁
        rw [ExplodedAddress.At.unique hat₁ hat, hunnamed] at hname₁
        cases hname₁
      next =>
        obtain ⟨l, hl, hrecords⟩ := h.names addr' name' hn
        exact ⟨l, hl.mono hgrows, hrecords⟩

/-- The slots that some relocations have filled. -/
structure Parsed (asked : Nat → Prop) (so : StaticObject) (relocs : List Relocation)
    (state : Relocations × StaticObject) : Prop where
  sound : Sound asked state.2
  grows : Grows so state.2
  filled : ∀ slot, Filled state.2 (target relocs slot) (Dict.get? state.1 slot)

/-- The first relocations for a section: their locations have names. -/
structure Parsing (asked : Nat → Prop) (so : StaticObject) (relocs : List Relocation)
    (state : Relocations × StaticObject) : Prop extends Parsed asked so relocs state where
  named : ∀ reloc ∈ relocs, ∀ l, reloc.location = some l → ∃ addr, Named state.2 l addr

theorem target_append_singleton (relocs : List Relocation) (reloc : Relocation) (slot : UInt64) :
    target (relocs ++ [reloc]) slot =
      if reloc.offset = slot ∧ reloc.symbol.isSome then reloc.location else target relocs slot := by
  unfold target
  rw [List.reverse_append, List.reverse_singleton, List.singleton_append, List.find?_cons]
  by_cases h : reloc.offset = slot ∧ reloc.symbol.isSome = true
  · simp [h]
  · rw [if_neg h]
    have hfalse : (reloc.offset == slot && reloc.symbol.isSome) = false := by simpa using h
    rw [hfalse]

/-- A slot is filled. -/
theorem Parsing.fill {relocs : List Relocation} {state : Relocations × StaticObject}
    (h : Parsing asked so relocs state) {reloc : Relocation} {l : Location} {p : Address × StaticObject}
    (hsymbol : reloc.symbol.isSome) (hloc : reloc.location = some l)
    (hgiven : Given asked state.2 l p) (hfits : l.Fits state.2.obj) :
    Parsing asked so (relocs ++ [reloc]) (Dict.set state.1 reloc.offset p.1, p.2) := by
  refine ⟨⟨hgiven.sound, h.grows.trans hgiven.grows, fun slot => ?_⟩, ?_⟩
  · rw [target_append_singleton, Dict.get?_set]
    by_cases hslot : reloc.offset = slot
    · rw [if_pos ⟨hslot, hsymbol⟩, if_pos hslot, hloc]
      exact ⟨hgiven.named, hgiven.grows.obj ▸ hfits⟩
    · rw [if_neg fun hboth => hslot hboth.1, if_neg hslot]
      exact (h.filled slot).mono hgiven.grows
  · intro r hr l' hl'
    rcases List.mem_append.mp hr with hr | hr
    · obtain ⟨addr, haddr⟩ := h.named r hr l' hl'
      exact ⟨addr, haddr.mono hgiven.grows⟩
    · obtain rfl := List.mem_singleton.mp hr
      obtain rfl := Option.some.inj (hloc.symm.trans hl')
      exact ⟨p.1, hgiven.named⟩

/-- The name of the first relocation with a location is the one that is recorded. -/
theorem ObjectFile.records_of_prefix {obj : ObjectFile} {idx : Nat} {relocs : List Relocation}
    {reloc : Relocation} (hpart : relocs ++ [reloc] <+: obj.relocationsOf idx) {l : Location}
    (hloc : reloc.location = some l) (hbefore : ∀ r ∈ relocs, r.location ≠ some l) {name : String}
    (hname : reloc.name = some name) : recordedName (obj.relocationsOf idx) l = some name := by
  obtain ⟨more, hmore⟩ := hpart
  have hfind : relocs.find? (fun r => decide (r.location = some l)) = none :=
    List.find?_eq_none.mpr fun r hr => by simpa using hbefore r hr
  rw [recordedName, ← hmore, List.append_assoc, List.find?_append, hfind]
  simp [hloc, hname]

variable {idx : Nat}

/-- **One relocation.** -/
theorem leaves_addRelocation {relocs : List Relocation} {state : Relocations × StaticObject}
    (h : Parsing asked so relocs state) {reloc : Relocation}
    (hasked : asked idx) (hpart : relocs ++ [reloc] <+: so.obj.relocationsOf idx)
    (hfits : ∀ reloc ∈ so.obj.relocationsOf idx, ∀ l, reloc.location = some l → l.Fits so.obj) :
    Leaves asked so (Parsing asked so (relocs ++ [reloc]))
      (StaticObject.addRelocation asserts state reloc) := by
  have hmem : reloc ∈ so.obj.relocationsOf idx :=
    hpart.subset (List.mem_append_right _ (List.mem_singleton_self reloc))
  have hfits := hfits reloc hmem
  have hobj := h.grows.obj
  refine Leaves.bind leaves_assert fun _ _ => ?_
  cases hsymbol : reloc.symbol with
  | none =>
    have hloc : reloc.location = none := by rw [Relocation.location, hsymbol]; rfl
    refine ⟨⟨h.sound, h.grows, fun slot => ?_⟩, fun r hr l hl => ?_⟩
    · rw [target_append_singleton, if_neg (by simp [hsymbol])]
      exact h.filled slot
    · rcases List.mem_append.mp hr with hr | hr
      · exact h.named r hr l hl
      · rw [List.mem_singleton.mp hr, hloc] at hl
        cases hl
  | some symbol =>
    have hsome : reloc.symbol.isSome = true := by rw [hsymbol]; rfl
    refine Leaves.bind (leaves_attempt h.sound h.grows fun _ h => h) fun symbol_addr haddr => ?_
    refine Leaves.bind (leaves_attempt h.sound h.grows fun _ h => h) fun symbol_section hsec => ?_
    cases symbol_section with
    | none =>
      refine Leaves.bind (Leaves.grown h.grows (leaves_externAddress h.sound fun name hname => ?_))
        fun p ⟨name, hname, hgiven⟩ => ?_
      · have hloc : reloc.location = some (.external name) := by
          simp [Relocation.location, hsymbol, haddr, hsec, hname]
        rw [hobj]
        exact ⟨ObjectFile.mem_externs (ObjectFile.mem_relocationsOf hmem) hloc, hfits _ hloc⟩
      · have hloc : reloc.location = some (.external name) := by
          simp [Relocation.location, hsymbol, haddr, hsec, hname]
        exact h.fill hsome hloc hgiven (hobj ▸ hfits _ hloc)
    | some sec =>
      have hloc : reloc.location = some (.inSection sec.index
          ((symbol_addr - sec.address) + (reloc.addend.getD 0).toUInt64).toNat) := by
        simp [Relocation.location, hsymbol, haddr, hsec]
      have hfit := hobj.symm ▸ hfits _ hloc
      refine Leaves.bind (Leaves.grown h.grows (leaves_definedAddress h.sound rfl hfit ?_))
        fun p hgiven => ?_
      · intro hunnamed name hname
        refine ⟨idx, hasked, ?_⟩
        rw [hobj]
        refine ObjectFile.records_of_prefix hpart hloc (fun r hr hl => ?_) ?_
        · obtain ⟨addr, haddr⟩ := h.named r hr _ hl
          exact hunnamed addr haddr
        · rw [Relocation.name, hsymbol, Option.bind_some, hname]
          rfl
      · exact h.fill hsome hloc hgiven hfit

/-- Relocations, one after another. -/
theorem leaves_addRelocationList {relocs more : List Relocation}
    {state : Relocations × StaticObject} (h : Parsing asked so relocs state)
    (hasked : asked idx) (hpart : relocs ++ more <+: so.obj.relocationsOf idx)
    (hfits : ∀ reloc ∈ so.obj.relocationsOf idx, ∀ l, reloc.location = some l → l.Fits so.obj) :
    Leaves asked so (Parsing asked so (relocs ++ more))
      (more.foldlM (StaticObject.addRelocation asserts) state) := by
  induction more generalizing relocs state with
  | nil =>
    rw [List.append_nil]
    exact h
  | cons reloc more ih =>
    rw [← List.singleton_append, ← List.append_assoc] at hpart
    rw [List.foldlM_cons]
    have hone := (List.prefix_append _ more).trans hpart
    refine Leaves.bind (leaves_addRelocation h hasked hone hfits) fun state₁ h₁ => ?_
    have hrest := ih h₁ hpart
    rwa [List.append_assoc, List.singleton_append] at hrest

/-- The sections that hold relocations, one after another. -/
theorem leaves_addRelocations {sec : SectionHeader} {relocs : List Relocation}
    {secs : List SectionRef} {state : Relocations × StaticObject} (h : Parsing asked so relocs state)
    (hasked : asked sec.index)
    (hpart : relocs ++ secs.flatMap (SectionRef.relocationsFor sec.index) <+:
      so.obj.relocationsOf sec.index)
    (hfits : ∀ reloc ∈ so.obj.relocationsOf sec.index, ∀ l, reloc.location = some l →
      l.Fits so.obj) :
    Leaves asked so (Parsing asked so (relocs ++ secs.flatMap (SectionRef.relocationsFor sec.index)))
      (secs.foldlM (StaticObject.addRelocations asserts sec) state) := by
  induction secs generalizing relocs state with
  | nil =>
    rw [List.flatMap_nil, List.append_nil]
    exact h
  | cons s secs ih =>
    rw [List.flatMap_cons, ← List.append_assoc] at hpart ⊢
    rw [List.foldlM_cons]
    have hone : Leaves asked so (Parsing asked so (relocs ++ s.relocationsFor sec.index))
        (StaticObject.addRelocations asserts sec state s) := by
      have hfirst := (List.prefix_append _ _).trans hpart
      refine Leaves.bind (leaves_attempt h.sound h.grows fun _ h => h) fun target htarget => ?_
      unfold SectionRef.relocationsFor at hfirst ⊢
      rw [htarget] at hfirst ⊢
      cases target with
      | none =>
        rw [List.append_nil]
        exact h
      | some target =>
        by_cases heq : target.index = sec.index
        · simp only [heq, ne_eq, not_true_eq_false, if_false, if_true] at hfirst ⊢
          exact leaves_addRelocationList h hasked hfirst hfits
        · simp only [heq, ne_eq, not_false_eq_true, if_true, if_false, List.append_nil]
          exact h
    exact Leaves.bind hone fun state₁ h₁ => ih h₁ hpart

/-- **The relocations of a section.** -/
theorem leaves_relocations (h : Sound asked so) {sec : SectionHeader} (hasked : asked sec.index)
    (hfits : ∀ reloc ∈ so.obj.relocationsOf sec.index, ∀ l, reloc.location = some l →
      l.Fits so.obj) :
    Leaves asked so (Parsed asked so (so.obj.relocationsOf sec.index)) (so.relocations asserts sec) := by
  unfold StaticObject.relocations
  cases hlazy : Dict.get? so.lazy_relocations sec.index with
  | some relocs => exact ⟨h, .refl so, h.lazy _ _ hlazy⟩
  | none =>
    have hempty : Parsing asked so [] ([], so) :=
      ⟨⟨h, .refl so, fun slot => trivial⟩, fun reloc hreloc => nomatch hreloc⟩
    refine Leaves.bind (leaves_addRelocations hempty hasked List.prefix_rfl hfits) ?_
    rintro ⟨relocs, so'⟩ ⟨⟨hsound, hgrows, hfilled⟩, -⟩
    have hsame : Grows so' { so' with
        lazy_relocations := Dict.set so'.lazy_relocations sec.index relocs } :=
      ⟨rfl, fun _ _ hi => hi, fun _ _ hn => hn⟩
    refine ⟨{ hsound with lazy := fun idx relocs' hget slot => ?_ }, hgrows.trans hsame,
      fun slot => (hfilled slot).mono hsame⟩
    rw [Dict.get?_set] at hget
    split at hget
    next heq =>
      obtain rfl := Option.some.inj hget
      have hfilled := (hfilled slot).mono hsame
      rw [List.nil_append] at hfilled
      have hrelocs : so'.obj.relocationsOf sec.index = so.obj.relocationsOf sec.index := by
        rw [hgrows.obj]
      rw [← heq]
      show Filled _ (target (so'.obj.relocationsOf sec.index) slot) _
      rw [hrelocs]
      exact hfilled
    next => exact (hsound.lazy idx relocs' hget slot).mono hsame

/-! ## Calls -/

/-- What an address of a call stands for; those of pointers have names. -/
def Stands (call : Call) (so : StaticObject) : Option Location → Address → Prop
  | some l, addr => so.Denotes l addr ∧ l.Fits so.obj ∧
    (call.resolves → ∃ name, Dict.get? so.symbol_names addr = some name)
  | none, addr => addr = 0

theorem Stands.mono {so so' : StaticObject} (h : Grows so so') {call : Call} {l : Option Location}
    {addr : Address} (hl : Stands call so l addr) : Stands call so' l addr := by
  cases l with
  | none => exact hl
  | some l =>
    obtain ⟨hdenotes, hfits, hnamed⟩ := hl
    refine ⟨hdenotes.mono h, h.obj ▸ hfits, fun hresolves => ?_⟩
    obtain ⟨name, hname⟩ := hnamed hresolves
    exact ⟨name, h.names addr name hname⟩

/-- The slots of a call. -/
theorem stands_slots {call : Call} {name : String} {sec : SectionHeader} {relocs : List Relocation}
    {relocations : Relocations}
    (hfilled : ∀ slot, Filled so (target relocs slot) (Dict.get? relocations slot))
    {slots : List UInt64} {dst : List Address}
    (h : slots.mapM (StaticObject.resolveSlot name sec relocations) = .ok dst) :
    List.Forall₂ (Stands call so) (slots.map (target relocs)) dst := by
  induction slots generalizing dst with
  | nil =>
    obtain rfl := Except.ok.inj h
    exact .nil
  | cons slot slots ih =>
    rw [List.mapM_cons] at h
    obtain ⟨addr, hslot, h⟩ := bind_ok h
    obtain ⟨rest, hrest, h⟩ := bind_ok h
    obtain rfl := Except.ok.inj h
    refine .cons ?_ (ih hrest)
    have hone := hfilled slot
    unfold StaticObject.resolveSlot at hslot
    cases hget : Dict.get? relocations slot with
    | some a =>
      simp only [hget] at hslot
      obtain rfl := Except.ok.inj hslot
      rw [hget] at hone
      cases htarget : target relocs slot with
      | some l =>
        rw [htarget] at hone
        obtain ⟨⟨hdenotes, hnamed⟩, hfits⟩ := hone
        exact ⟨hdenotes, hfits, fun _ => hnamed⟩
      | none =>
        rw [htarget] at hone
        exact hone.elim
    | none =>
      simp only [hget] at hslot
      obtain ⟨-, -, hslot⟩ := bind_ok hslot
      obtain rfl := Except.ok.inj hslot
      rw [hget] at hone
      cases htarget : target relocs slot with
      | some l =>
        rw [htarget] at hone
        exact hone.elim
      | none => rfl

/-- A section of the object is one of the file. -/
theorem Sound.header (h : Sound asked so) {i : Nat} {name : String} {sec : SectionHeader}
    (hsec : so.sections[i]? = some (some ⟨name, some sec⟩)) : so.obj.headers[i]? = some sec := by
  rcases lt_trichotomy i so.obj.sections.length with hlt | rfl | hgt
  · obtain ⟨name', header, hheader, hsec'⟩ := h.sections i hlt
    rw [hsec'] at hsec
    obtain ⟨-, rfl⟩ : name' = name ∧ header = sec := by simpa using hsec
    exact hheader
  · obtain ⟨name', hlast⟩ := h.last
    rw [hlast] at hsec
    cases hsec
  · rw [List.getElem?_eq_none (by rw [h.length]; omega)] at hsec
    cases hsec

/-- What a call leaves. -/
structure Called (asked : Nat → Prop) (so : StaticObject) (call : Call)
    (p : List Address × StaticObject) : Prop where
  sound : Sound asked p.2
  grows : Grows so p.2
  stands : List.Forall₂ (Stands call p.2) (call.locations so.obj) p.1

theorem leaves_resolvePointers (h : Sound asked so) {count : Nat} {addr : Address}
    (hasked : ∀ idx, (Call.resolvePointers count addr).Asks idx → asked idx)
    (hfits : ∀ l, (Call.resolvePointers count addr).Concerns so.obj l → l.Fits so.obj) :
    Leaves asked so (Called asked so (.resolvePointers count addr))
      (so.resolvePointers asserts count addr) := by
  unfold StaticObject.resolvePointers
  refine Leaves.bind leaves_assert fun _ _ => ?_
  split
  next hcount =>
    refine ⟨h, .refl so, ?_⟩
    subst hcount
    unfold Call.locations Call.slots
    dsimp only
    split <;> exact .nil
  next =>
    refine Leaves.bind (leaves_attempt (P := fun _ => True) h (.refl so) fun _ _ => trivial)
      fun _ _ => ?_
    refine Leaves.bind (leaves_attempt h (.refl so) fun _ h => h) fun idx hidx => ?_
    have hidx : idx = (ExplodedAddress.ofAddress addr).section_idx_plus_one - 1 := by
      obtain ⟨-, -, hidx⟩ := bind_ok hidx
      exact (Except.ok.inj hidx).symm
    refine Leaves.bind (leaves_attempt (P := fun _ => True) h (.refl so) fun _ _ => trivial)
      fun _ _ => ?_
    split
    next name sec hsec =>
      have hheader := h.header hsec
      have hindex : sec.index = idx.toNat := ObjectFile.index_of_getElem hheader
      refine Leaves.bind (leaves_attempt (P := fun _ => True) h (.refl so) fun _ _ => trivial)
        fun _ _ => ?_
      refine Leaves.bind (leaves_attempt (P := fun _ => True) h (.refl so) fun _ _ => trivial)
        fun _ _ => ?_
      have hasks : (Call.resolvePointers count addr).Asks sec.index := by
        rw [hindex, hidx]
        rfl
      refine Leaves.bind (leaves_relocations h (hasked _ hasks) fun reloc hreloc l hl =>
        hfits l ⟨_, hasks, reloc, hreloc, hl⟩) ?_
      rintro ⟨relocations, so'⟩ ⟨hsound, hgrows, hfilled⟩
      refine Leaves.bind (leaves_attempt hsound hgrows fun _ h => h) fun dst hdst => ?_
      refine ⟨hsound, hgrows, ?_⟩
      have hslots : List.Forall₂ (Stands (.resolvePointers count addr) so')
          (((List.range count).map fun i => sec.address +
            (ExplodedAddress.ofAddress addr).section_offset.toUInt64 + UInt64.ofNat i * 8).map
              (target (so.obj.relocationsOf sec.index))) dst :=
        stands_slots hfilled (by rw [List.mapM_map]; exact hdst)
      rw [List.map_map] at hslots
      unfold Call.locations Call.slots
      simp only [← hidx, hheader, List.map_map]
      exact hslots
    next => trivial

/-- The addresses of the sections. -/
theorem visitSections_stands (h : Sound asked so)
    (hfits : ∀ l, Call.visitSections.Concerns so.obj l → l.Fits so.obj) {out : List Address}
    (hs : so.visitSections asserts (fun out sec => .ok (out ++ [sec.start])) [] = .ok out) :
    List.Forall₂ (Stands .visitSections so) (Call.visitSections.locations so.obj) out := by
  have hfits : ∀ i < so.obj.sections.length, (Location.inSection i 0).Fits so.obj :=
    fun i hi => hfits _ ⟨i, hi, rfl⟩
  have hexternal : ∀ i ≤ so.obj.sections.length,
      i = so.extern_symbols_section.toNat ↔ i = so.obj.sections.length := by
    intro i hi
    have hn : so.obj.sections.length < 2 ^ 32 := by
      by_contra hbig
      have := (hfits (2 ^ 16) (by omega)).2
      omega
    rw [h.externalSection, UInt32.toNat_ofNat', Nat.mod_eq_of_lt hn]
  have hfold : ∀ m ≤ so.obj.sections.length, ∀ out, (List.range m).foldlM
      (so.visitSection asserts fun out sec => .ok (out ++ [sec.start])) [] = .ok out →
      List.Forall₂ (Stands .visitSections so)
        ((List.range m).map fun i => some (.inSection i 0)) out := by
    intro m
    induction m with
    | zero =>
      rintro - out hs
      obtain rfl := Except.ok.inj hs
      exact .nil
    | succ m ih =>
      intro hm out hs
      rw [List.range_succ, List.foldlM_append] at hs
      obtain ⟨before, hbefore, hs⟩ := bind_ok hs
      obtain ⟨name, header, -, hsec⟩ := h.sections m hm
      have hne : m ≠ so.extern_symbols_section.toNat := fun heq =>
        absurd ((hexternal m (by omega)).mp heq) (by omega)
      obtain ⟨-, hroom⟩ := hfits m hm
      have hindex : (UInt16.ofNat m).toNat = m := by
        rw [UInt16.toNat_ofNat']
        omega
      obtain ⟨start, hmake, hat⟩ := ExplodedAddress.make_eq asserts
        (show (UInt16.ofNat m).toNat < 65535 by rw [hindex]; omega) 0
      rw [hindex] at hat
      simp only [List.foldlM_cons, List.foldlM_nil, StaticObject.visitSection, if_neg hne, hsec,
        hmake, Edges.ok_bind] at hs
      obtain rfl := Except.ok.inj hs
      rw [List.range_succ, List.map_append]
      exact List.rel_append (ih (by omega) before hbefore) (.cons ⟨hat, hfits m hm, nofun⟩ .nil)
  unfold StaticObject.visitSections at hs
  rw [h.length, List.range_succ, List.foldlM_append] at hs
  obtain ⟨before, hbefore, hs⟩ := bind_ok hs
  have hlast := (hexternal _ le_rfl).mpr rfl
  simp only [List.foldlM_cons, List.foldlM_nil, StaticObject.visitSection, if_pos hlast] at hs
  obtain rfl := Except.ok.inj hs
  exact hfold _ le_rfl before hbefore

/-- The address of an address of the debug information. -/
theorem translateAddr_stands {addr out : Address}
    (hfits : ∀ l, (Call.translateAddr addr).Concerns so.obj l → l.Fits so.obj)
    (hs : (ExplodedAddressLoadInfo.new so.obj).translateAddr asserts addr = .ok out) :
    List.Forall₂ (Stands (.translateAddr addr) so) ((Call.translateAddr addr).locations so.obj)
      [out] := by
  cases hfloor : OrderedMap.floor (ExplodedAddressLoadInfo.new so.obj).sections addr.toNat with
  | none => simp [ExplodedAddressLoadInfo.translateAddr, hfloor] at hs
  | some p =>
    obtain ⟨k, sec⟩ := p
    obtain ⟨hcontains, heq⟩ | ⟨-, messages, herror⟩ := translateAddr_eq asserts hfloor
    · have hfit := hfits _ ⟨k, sec, rfl, hfloor, hcontains⟩
      obtain ⟨hoffset, hroom⟩ := hfit
      have hindex : (UInt16.ofNat sec.index).toNat = sec.index := by
        rw [UInt16.toNat_ofNat']
        omega
      obtain ⟨out', hmake, hat⟩ := ExplodedAddress.make_eq asserts
        (show (UInt16.ofNat sec.index).toNat < 65535 by rw [hindex]; omega)
        (addr - sec.address).toUInt32
      rw [hindex, UInt64.toNat_toUInt32, Nat.mod_eq_of_lt hoffset] at hat
      obtain rfl := Except.ok.inj (hmake.symm.trans (heq ▸ hs))
      simp only [Call.locations, hfloor]
      refine .cons ⟨hat, ⟨hoffset, hroom⟩, fun hresolves => ?_⟩ .nil
      cases hresolves
    · rw [herror] at hs
      cases hs

/-- **A call whose locations fit gives their addresses.** -/
theorem leaves_perform (asserts : Bool) (h : Sound asked so) {call : Call}
    (hasked : ∀ idx, call.Asks idx → asked idx)
    (hfits : ∀ l, call.Concerns so.obj l → l.Fits so.obj) :
    Leaves asked so (Called asked so call) (so.perform asserts call) := by
  cases call with
  | translateAddr addr =>
    refine Leaves.bind (leaves_attempt h (.refl so) fun _ h => h) fun out hout => ?_
    exact ⟨h, .refl so, translateAddr_stands hfits hout⟩
  | visitSections =>
    refine Leaves.bind (leaves_attempt h (.refl so) fun _ h => h) fun out hout => ?_
    exact ⟨h, .refl so, visitSections_stands h hfits hout⟩
  | resolvePointers count addr => exact leaves_resolvePointers h hasked hfits

/-! ## Runs -/

/-- **What every run gives.** -/
theorem run_stands {calls : List Call} (h : Sound asked so)
    (hasked : ∀ call ∈ calls, ∀ idx, call.Asks idx → asked idx)
    (hfits : ∀ call ∈ calls, ∀ l, call.Concerns so.obj l → l.Fits so.obj)
    {answers : List (Call × List Address)} {so' : StaticObject}
    (hs : run asserts calls so = some (answers, so')) :
    Sound asked so' ∧ Grows so so' ∧
      ∀ y ∈ answers, List.Forall₂ (Stands y.1 so') (y.1.locations so.obj) y.2 := by
  induction calls generalizing so answers with
  | nil =>
    obtain ⟨rfl, rfl⟩ := Prod.mk.inj (Option.some.inj hs)
    exact ⟨h, .refl so, fun y hy => nomatch hy⟩
  | cons call calls ih =>
    rw [List.forall_mem_cons] at hfits hasked
    -- The calls after this one, in the state that it leaves.
    have hrest : ∀ {so₁}, Sound asked so₁ → Grows so so₁ →
        ∀ {rest}, run asserts calls so₁ = some (rest, so') →
        Sound asked so' ∧ Grows so₁ so' ∧
          ∀ y ∈ rest, List.Forall₂ (Stands y.1 so') (y.1.locations so.obj) y.2 := by
      intro so₁ hsound hgrows rest hs
      have hrest := ih hsound hasked.2 (hgrows.obj ▸ hfits.2) hs
      rwa [hgrows.obj] at hrest
    have hcall := leaves_perform asserts h hasked.1 hfits.1
    unfold run at hs
    cases hperform : so.perform asserts call with
    | ok p =>
      obtain ⟨out, so₁⟩ := p
      rw [hperform] at hcall
      obtain ⟨hsound, hgrows, hstands⟩ := hcall
      simp only [hperform, Option.map_eq_some_iff] at hs
      obtain ⟨⟨rest, so₂⟩, hs, heq⟩ := hs
      obtain ⟨rfl, rfl⟩ := Prod.mk.inj heq
      obtain ⟨hsound', hgrows', hstands'⟩ := hrest hsound hgrows hs
      refine ⟨hsound', Grows.trans hgrows hgrows', List.forall_mem_cons.mpr ⟨?_, hstands'⟩⟩
      exact hstands.imp fun _ _ hone => hone.mono hgrows'
    | error e =>
      obtain ⟨e, so₁⟩ := e
      rw [hperform] at hcall
      simp only [hperform] at hs
      cases e with
      | error messages =>
        obtain ⟨hsound', hgrows', hstands'⟩ := hrest hcall.1 hcall.2 hs
        exact ⟨hsound', Grows.trans hcall.2 hgrows', hstands'⟩
      | abort => cases hs
      | diverges => cases hs

/-- An address that is given, with what it stands for. -/
theorem stands_of_mem_given {obj : ObjectFile} {answers : List (Call × List Address)}
    (h : ∀ y ∈ answers, List.Forall₂ (Stands y.1 so) (y.1.locations obj) y.2)
    {l : Option Location} {addr : Address} (hmem : (l, addr) ∈ given obj answers) :
    ∃ call, l ∈ call.locations obj ∧ Stands call so l addr := by
  obtain ⟨y, hy, hzip⟩ := List.mem_flatMap.mp hmem
  exact ⟨y.1, (List.of_mem_zip hzip).1, (List.forall₂_iff_zip.mp (h y hy)).2 hzip⟩

end

/-! ## The object of a file -/

/-- The sections that are added, one after another. -/
theorem initSections_eq {secs : List SectionRef} {sections out : List (Option Section)}
    (hidx : ∀ i sec, secs[i]? = some sec → sec.header.index = sections.length + i)
    (hs : secs.foldlM StaticObject.initSection sections = .ok out) :
    ∃ more, out = sections ++ more ∧
      List.Forall₂ (fun sec s => ∃ name, s = some ⟨name, some sec.header⟩) secs more := by
  induction secs generalizing sections with
  | nil => exact ⟨[], by rw [List.append_nil, ← Except.ok.inj hs], .nil⟩
  | cons sec secs ih =>
    rw [List.foldlM_cons] at hs
    obtain ⟨sections₁, hone, hs⟩ := bind_ok hs
    obtain ⟨-, -, hone⟩ := bind_ok hone
    obtain ⟨name, -, hone⟩ := bind_ok hone
    have hindex : sec.header.index = sections.length := hidx 0 sec rfl
    have hadded : sections₁ = sections ++ [some ⟨name, some sec.header⟩] := by
      have hresize : StaticObject.resize sections (sections.length + 1) = sections ++ [none] := by
        simp [StaticObject.resize]
      rw [hindex, if_pos (Nat.le_succ _), hresize] at hone
      rw [← Except.ok.inj hone]
      simp
    subst hadded
    obtain ⟨more, rfl, hmore⟩ := ih (fun i sec' h => by
      rw [hidx (i + 1) sec' h, List.length_append, List.length_singleton]
      omega) hs
    exact ⟨_ :: more, by rw [List.append_assoc, List.singleton_append], .cons ⟨name, rfl⟩ hmore⟩

/-- The object of a file, before any call. -/
theorem init_sound {obj : ObjectFile} {so : StaticObject} (asked : Nat → Prop)
    (h : StaticObject.init obj = .ok so) :
    so.obj = obj ∧ Sound asked so := by
  obtain ⟨sections, hsections, h⟩ := bind_ok h
  obtain rfl := Except.ok.inj h
  have hidx : ∀ i sec, obj.sections[i]? = some sec →
      sec.header.index = ([] : List (Option Section)).length + i :=
    fun i sec hsec => by rw [obj.indexed i sec hsec, List.length_nil, Nat.zero_add]
  obtain ⟨more, hsame, hmore⟩ := initSections_eq hidx hsections
  rw [List.nil_append] at hsame
  subst hsame
  have hlength : sections.length = obj.sections.length := hmore.length_eq.symm
  refine ⟨rfl, ?_⟩
  refine {
    sections := fun i hi => ?_
    length := by rw [List.length_append, hlength]; rfl
    last := ⟨_, by rw [← hlength, List.getElem?_concat_length]⟩
    externalSection := by rw [hlength]
    indices := ⟨[], Dict.Interned.nil, List.nodup_nil, fun _ h => nomatch h⟩
    lazy := fun _ _ h => nomatch h
    externs := fun _ _ h => nomatch h
    names := fun _ _ h => nomatch h }
  have hi' : i < sections.length := hlength ▸ hi
  obtain ⟨name, hname⟩ := (List.forall₂_iff_get.mp hmore).2 i hi hi'
  refine ⟨name, obj.sections[i].header, ?_, ?_⟩
  · rw [ObjectFile.headers, List.getElem?_map, List.getElem?_eq_getElem hi]
    rfl
  · rw [List.getElem?_append_left hi', List.getElem?_eq_getElem hi']
    exact congrArg some hname

/-! ## Locations of a file -/

/-- A location in a section of the file. -/
def Location.Within (obj : ObjectFile) : Location → Prop
  | .inSection idx _ => idx < obj.sections.length
  | .external _ => True

variable {obj : ObjectFile}

theorem ObjectFile.index_lt {sec : SectionHeader} (h : sec ∈ obj.headers) :
    sec.index < obj.sections.length := by
  obtain ⟨hlt, -⟩ := List.getElem?_eq_some_iff.mp (ObjectFile.exists_getElem h)
  rwa [ObjectFile.headers, List.length_map] at hlt

theorem Relocation.within {reloc : Relocation} {l : Location}
    (hmem : reloc ∈ obj.sections.flatMap SectionRef.relocations)
    (hloc : reloc.location = some l) : l.Within obj := by
  obtain ⟨s, hs, hreloc⟩ := List.mem_flatMap.mp hmem
  obtain ⟨symbol, hsymbol, hl⟩ := Option.bind_eq_some_iff.mp hloc
  cases l with
  | external name => trivial
  | inSection idx offset =>
    split at hl
    next symbol_addr sec _ hsec =>
      obtain ⟨rfl, -⟩ := Location.inSection.inj (Option.some.inj hl)
      exact ObjectFile.index_lt (obj.defined s hs reloc hreloc symbol hsymbol sec hsec)
    next => cases hl
    next => cases hl

/-- What a call gives addresses for lies in the file. -/
theorem Call.within {call : Call} {l : Location} (h : some l ∈ call.locations obj) :
    l.Within obj := by
  cases call with
  | translateAddr addr =>
    simp only [locations] at h
    split at h
    next k sec hfloor =>
      rw [Option.some.inj (List.mem_singleton.mp h)]
      exact ObjectFile.index_lt (ObjectFile.floor_eq_some_iff.mp hfloor).1.1
    next => cases h
  | visitSections =>
    obtain ⟨i, hi, heq⟩ := List.mem_map.mp h
    rw [← Option.some.inj heq]
    exact List.mem_range.mp hi
  | resolvePointers count addr =>
    rw [locations] at h
    obtain ⟨slot, hslot, htarget⟩ := List.mem_map.mp h
    simp only [slots] at hslot
    split at hslot
    next sec hsec =>
      obtain ⟨i, -, rfl⟩ := List.mem_map.mp hslot
      obtain ⟨reloc, hfind, hloc⟩ := Option.bind_eq_some_iff.mp htarget
      have hmem := List.mem_reverse.mp (List.mem_of_find?_eq_some hfind)
      exact Relocation.within (ObjectFile.mem_relocationsOf hmem) hloc
    next => cases hslot

/-! ## Addresses -/

/-- An address stands for one location. -/
theorem StaticObject.Denotes.injective {so : StaticObject} (h : Sound asked so) {l m : Location}
    {addr : Address} (hl : so.Denotes l addr) (hm : so.Denotes m addr) (hfits : l.Fits so.obj)
    (hlw : l.Within so.obj) (hmw : m.Within so.obj) : l = m := by
  -- The two fields of the address.
  have hfields : ∀ {idx offset idx' offset' : Nat}, ExplodedAddress.At addr idx offset →
      ExplodedAddress.At addr idx' offset' → idx = idx' ∧ offset = offset' := by
    intro idx offset idx' offset' hat hat'
    exact ⟨Nat.succ.inj (hat.1.symm.trans hat'.1), hat.2.1.symm.trans hat'.2.1⟩
  cases l with
  | inSection idx offset =>
    cases m with
    | inSection idx' offset' =>
      obtain ⟨rfl, rfl⟩ := hfields hl hm
      rfl
    | external name =>
      obtain ⟨i, -, hat⟩ := hm
      exact absurd (hfields hl hat).1 (Nat.ne_of_lt hlw)
  | external name =>
    obtain ⟨i, hi, hat⟩ := hl
    cases m with
    | inSection idx offset => exact absurd (hfields hm hat).1 (Nat.ne_of_lt hmw)
    | external name' =>
      obtain ⟨i', hi', hat'⟩ := hm
      have hsame : i = i' := UInt32.toNat_inj.mp (hfields hat hat').2
      obtain ⟨keys, hinterned, -⟩ := h.indices
      have hlen : keys.length ≤ 2 ^ 32 :=
        hinterned.length ▸ h.length_le.trans hfits.1
      obtain ⟨hmem, hplace⟩ := hinterned.mem_of_get? hi
      obtain ⟨hmem', hplace'⟩ := hinterned.mem_of_get? hi'
      have hlt := Dict.place_lt hmem
      have hlt' := Dict.place_lt hmem'
      have hnat : Dict.place keys name = Dict.place keys name' := by
        have := congrArg UInt32.toNat (hplace.symm.trans (hsame.trans hplace'))
        rw [UInt32.toNat_ofNat', UInt32.toNat_ofNat'] at this
        omega
      have hget := Dict.getElem_place hmem
      rw [hnat, Dict.getElem_place hmem'] at hget
      rw [Option.some.inj hget]

end Bracelet.ObjectParsing
