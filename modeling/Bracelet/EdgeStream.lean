import Bracelet.EdgeWriter

/-!
# What the writers leave

`record_words` is the record of a function in the stream, in terms of the final tables
of symbols and strings.  Tables only grow, and what has an index keeps it
(`FunctionGraph.Known`), so the stream of a graph is the records of its functions one
after another (`writeFunctions_written`).
-/
namespace Bracelet.Edges

section
variable {GV : Type} [DecidableEq GV]

/-! ## The record of a function -/

/-- The number of an end: symbols are odd, locals even. -/
def End.number (symbols : List GV) : End GV → UInt32
  | .sym gv => UInt32.ofNat (2 * Dict.place symbols gv + 1)
  | .loc local_idx => UInt32.ofNat (2 * local_idx)

def End.Known (symbols : List GV) : End GV → Prop
  | .sym gv => gv ∈ symbols
  | .loc _ => True

/-- The index of a local fits a node. -/
def End.Fits : End GV → Prop
  | .sym _ => True
  | .loc local_idx => local_idx < 65535

/-- The names of the locals that calls make. -/
def names (ops : List (Op GV)) : List Bytes :=
  ops.filterMap fun
    | .freshLocal Name => some Name
    | _ => none

/-- The edges of a kind that calls add. -/
def edges (ops : List (Op GV)) (kind : EdgeKind) : List (End GV × End GV × UInt32) :=
  ops.filterMap fun
    | .addEdge k to_end from_end idx => if k = kind then some (to_end, from_end, idx) else none
    | _ => none

namespace FunctionGraph

def component (f : FunctionGraph GV) : Bytes := (f.sbom.map Prod.fst).getD []

def version (f : FunctionGraph GV) : Bytes := (f.sbom.map Prod.snd).getD []

end FunctionGraph

def components (symbols : List GV) (e : End GV × End GV × UInt32) : Components :=
  (e.1.number symbols, e.2.1.number symbols, e.2.2)

def storage (sort : EdgeSort) (symbols : List GV) (f : FunctionGraph GV) (kind : EdgeKind) :
    List Components :=
  sort kind.NUM_COMPONENTS ((edges f.ops kind).map (components symbols))

/-- The words of a function. -/
def record_words (sort : EdgeSort) (symbols : List GV) (strings : List Bytes)
    (f : FunctionGraph GV) : List UInt32 :=
  [UInt32.ofNat (Dict.place symbols f.function), UInt32.ofNat (Dict.place strings f.component),
    UInt32.ofNat (Dict.place strings f.version), UInt32.ofNat (names f.ops).length, f.NumAllocas] ++
  EdgeKind.all.flatMap fun kind =>
    UInt32.ofNat (edges f.ops kind).length ::
      FunctionWriter.edge_words kind.indexed 0 (storage sort symbols f kind)

def name_indices (strings : List Bytes) (Names : List Bytes) : List UInt32 :=
  Names.map fun Name => UInt32.ofNat (Dict.place strings Name)

/-! ## Growing tables -/

/-- The tables of a graph writer with these strings. -/
structure Tables (gw : GraphWriter GV) (strings : List Bytes) : Prop where
  interned : Dict.Interned gw.StringBlobIndices strings
  blob : gw.StringBlob = strings.flatMap (· ++ [0])
  nul_free : ∀ S ∈ strings, 0 ∉ S
  symbols : Dict.Interned gw.Symbols gw.symbols_in_order

theorem End.number_of_grown {symbols symbols' : List GV} (h : symbols <+: symbols') {e : End GV}
    (he : e.Known symbols) : e.number symbols' = e.number symbols := by
  cases e with
  | sym gv => simp [End.number, Dict.place_of_grown h he]
  | loc i => rfl

omit [DecidableEq GV] in
theorem End.Known.mono {symbols symbols' : List GV} (h : symbols <+: symbols') {e : End GV}
    (he : e.Known symbols) : e.Known symbols' := by
  cases e with
  | sym gv => exact h.subset he
  | loc i => trivial

theorem name_indices_of_grown {strings strings' : List Bytes} (h : strings <+: strings')
    {Names : List Bytes} (hn : ∀ n ∈ Names, n ∈ strings) :
    name_indices strings' Names = name_indices strings Names :=
  List.map_congr_left fun n hmem => by rw [Dict.place_of_grown h (hn n hmem)]

/-- Every end of the edges has a number. -/
def EdgesKnown (symbols : List GV) (ops : List (Op GV)) : Prop :=
  ∀ kind, ∀ e ∈ edges ops kind, e.1.Known symbols ∧ e.2.1.Known symbols

theorem components_of_grown {symbols symbols' : List GV} (h : symbols <+: symbols')
    {ops : List (Op GV)} (hk : EdgesKnown symbols ops) (kind : EdgeKind) :
    (edges ops kind).map (components symbols') = (edges ops kind).map (components symbols) := by
  refine List.map_congr_left fun e he => ?_
  obtain ⟨h1, h2⟩ := hk kind e he
  rw [components, components, End.number_of_grown h h1, End.number_of_grown h h2]

/-- The tables know what the function refers to. -/
structure FunctionGraph.Known (record_debug_data : Bool) (symbols : List GV)
    (strings : List Bytes) (f : FunctionGraph GV) : Prop where
  function : f.function ∈ symbols
  component : f.component ∈ strings
  version : f.version ∈ strings
  names : record_debug_data = true → ∀ n ∈ names f.ops, n ∈ strings
  edges : EdgesKnown symbols f.ops

omit [DecidableEq GV] in
theorem FunctionGraph.Known.mono {record : Bool} {symbols symbols' : List GV}
    {strings strings' : List Bytes} (hsym : symbols <+: symbols') (hstr : strings <+: strings')
    {f : FunctionGraph GV} (h : f.Known record symbols strings) :
    f.Known record symbols' strings' where
  function := hsym.subset h.function
  component := hstr.subset h.component
  version := hstr.subset h.version
  names hr n hn := hstr.subset (h.names hr n hn)
  edges kind e he := ⟨(h.edges kind e he).1.mono hsym, (h.edges kind e he).2.mono hsym⟩

/-- The record of a function does not change as the tables grow. -/
theorem record_words_of_grown {record : Bool} {symbols symbols' : List GV}
    {strings strings' : List Bytes} (hsym : symbols <+: symbols') (hstr : strings <+: strings')
    {f : FunctionGraph GV} (h : f.Known record symbols strings) (sort : EdgeSort) :
    record_words sort symbols' strings' f = record_words sort symbols strings f := by
  unfold record_words storage
  simp only [Dict.place_of_grown hsym h.function, Dict.place_of_grown hstr h.component,
    Dict.place_of_grown hstr h.version, components_of_grown hsym h.edges]

/-! ## One call -/

variable {asserts : Bool}

theorem as_u32_ok {n : Nat} {w : UInt32} (h : as_u32 asserts n = .ok w) : w = UInt32.ofNat n := by
  unfold as_u32 at h
  have h := assert_bind h
  exact (Except.ok.inj h).symm

/-- There is room for the symbols of a graph. -/
def Room (symbols : List GV) : Prop := symbols.length ≤ 2 ^ 31

omit [DecidableEq GV] in
theorem Room.of_grown {symbols symbols' : List GV} (h : Room symbols')
    (hp : symbols <+: symbols') : Room symbols := hp.length_le.trans h

theorem toUInt64_ofNat {n : Nat} (h : n < 2 ^ 32) : (UInt32.ofNat n).toUInt64 = UInt64.ofNat n := by
  apply UInt64.toNat_inj.mp
  simp
  omega

/-- What interning a symbol changes. -/
theorem symbol_spec {gw gw' : GraphWriter GV} {strings : List Bytes} {GO : GV} {n : Node}
    (ht : Tables gw strings) (h : gw.symbol asserts GO = .ok (n, gw')) :
    ∃ S o, gw' = { gw with Symbols := S, symbols_in_order := o } ∧ Tables gw' strings ∧
      gw.symbols_in_order <+: o ∧ GO ∈ o ∧
      (Room o → n = Node.ofSymbol (UInt64.ofNat (Dict.place o GO))) := by
  unfold GraphWriter.symbol at h
  split at h
  · rename_i idx hidx
    obtain ⟨node, hnode, h⟩ := bind_ok h
    obtain ⟨rfl, rfl⟩ := Prod.mk.inj (Except.ok.inj h)
    obtain ⟨hmem, rfl⟩ := ht.symbols.mem_of_get? hidx
    refine ⟨gw.Symbols, gw.symbols_in_order, rfl, ht, List.prefix_rfl, hmem, fun hroom => ?_⟩
    have hlt := Dict.place_lt hmem
    unfold Room at hroom
    rw [Node.mkSymbol_ok hnode, toUInt64_ofNat (by omega)]
  · rename_i hnone
    have h := assert_bind h
    obtain ⟨node, hnode, h⟩ := bind_ok h
    obtain ⟨rfl, rfl⟩ := Prod.mk.inj (Except.ok.inj h)
    have hnew := ht.symbols.push hnone
    refine ⟨_, _, rfl, { ht with symbols := hnew }, List.prefix_append _ _, by simp, fun _ => ?_⟩
    have hplace : Dict.place (gw.symbols_in_order ++ [GO]) GO = gw.symbols_in_order.length := by
      simp [Dict.place, List.idxOf_append, ht.symbols.not_mem_of_get? hnone]
    rw [Node.mkSymbol_ok hnode, hplace, ht.symbols.length]

/-- What interning a string changes. -/
theorem string_spec {gw : GraphWriter GV} {strings : List Bytes} (ht : Tables gw strings)
    {S : Bytes} (hS : 0 ∉ S) : ∃ I B strings',
      gw.string S = (UInt32.ofNat (Dict.place strings' S),
        { gw with StringBlobIndices := I, StringBlob := B }) ∧
      Tables { gw with StringBlobIndices := I, StringBlob := B } strings' ∧
      strings <+: strings' ∧ S ∈ strings' := by
  unfold GraphWriter.string
  split
  · rename_i idx hidx
    obtain ⟨hmem, rfl⟩ := ht.interned.mem_of_get? hidx
    exact ⟨_, _, strings, rfl, ht, List.prefix_rfl, hmem⟩
  · rename_i hnone
    have hplace : Dict.place (strings ++ [S]) S = gw.StringBlobIndices.length := by
      simp [Dict.place, List.idxOf_append, ht.interned.not_mem_of_get? hnone, ht.interned.length]
    refine ⟨_, gw.StringBlob ++ S ++ [0], strings ++ [S], ?_,
      ⟨ht.interned.push hnone, ?_, ?_, ht.symbols⟩, List.prefix_append _ _, by simp⟩
    · rw [hplace]
    · simp [ht.blob]
    · intro S' hS'
      rcases List.mem_append.mp hS' with hS' | hS'
      · exact ht.nul_free S' hS'
      · rwa [List.mem_singleton.mp hS']

theorem packable_place {symbols : List GV} (hroom : Room symbols) {gv : GV} (h : gv ∈ symbols) :
    Packable (UInt64.ofNat (Dict.place symbols gv)) := by
  have hlt := Dict.place_lt h
  unfold Room at hroom
  unfold Packable
  rw [UInt64.toNat_ofNat']
  omega

/-- The node an end is given. -/
def End.node (symbols : List GV) (this : UInt64) : End GV → Node
  | .sym gv => Node.ofSymbol (UInt64.ofNat (Dict.place symbols gv))
  | .loc local_idx => Node.ofLocal this (UInt64.ofNat local_idx)

theorem odd_word {k : Nat} (h : k < 2 ^ 31) :
    ((UInt64.ofNat k <<< 1) ||| 1).toUInt32 = UInt32.ofNat (2 * k + 1) := by
  apply UInt32.toNat_inj.mp
  have hk : (UInt64.ofNat k).toNat = k := by
    rw [UInt64.toNat_ofNat']
    omega
  have hshift : (UInt64.ofNat k <<< 1).toNat = k * 2 := by
    rw [UInt64.toNat_shiftLeft, hk, show (1 : UInt64).toNat % 64 = 1 by decide, Nat.shiftLeft_eq]
    omega
  rw [UInt64.toNat_toUInt32, UInt64.toNat_or, hshift, UInt64.toNat_one, UInt32.toNat_ofNat',
    show k * 2 = k <<< 1 by rw [Nat.shiftLeft_eq, pow_one],
    ← Nat.shiftLeft_add_eq_or_of_lt (by omega), Nat.shiftLeft_eq]
  omega

theorem even_word {i : Nat} (h : i < 65535) :
    (UInt64.ofNat i).toUInt16.toUInt32 <<< 1 = UInt32.ofNat (2 * i) := by
  apply UInt32.toNat_inj.mp
  have hi : ((UInt64.ofNat i).toUInt16.toUInt32).toNat = i := by
    simp
    omega
  rw [UInt32.toNat_shiftLeft, hi, show (1 : UInt32).toNat % 32 = 1 by decide, Nat.shiftLeft_eq,
    UInt32.toNat_ofNat']
  omega

/-- **Nodes are encoded by their numbers.** -/
theorem encode_node_spec {symbols : List GV} (hroom : Room symbols) {fw : FunctionWriter}
    (hthis : Packable fw.ThisSymbolIdx) {e : End GV} (hk : e.Known symbols) (hfit : e.Fits) :
    fw.encode_node asserts (e.node symbols fw.ThisSymbolIdx) = .ok (e.number symbols) := by
  unfold FunctionWriter.encode_node
  cases e with
  | sym gv =>
    have hp := packable_place hroom hk
    have hlt := Dict.place_lt hk
    unfold Room at hroom
    simp only [End.node, Node.valid_ofSymbol hp, assert_true, ok_bind,
      Node.local_idx_ofSymbol hp, Node.symbol_ofSymbol hp, End.number]
    exact congrArg Except.ok (odd_word (by omega))
  | loc i =>
    have hi : (UInt64.ofNat i).toNat < 65535 := by
      have hfit : i < 65535 := hfit
      rw [UInt64.toNat_ofNat']
      omega
    simp only [End.node, Node.valid_ofLocal hthis hi, assert_true, ok_bind,
      Node.local_idx_ofLocal hthis hi, Node.symbol_ofLocal hthis hi, End.number, beq_self_eq_true]
    exact congrArg Except.ok (even_word hfit)

/-! ## The calls of one function -/

/-- **The state after some calls**: `f` is what has been written of the function. -/
structure Writing (start : GraphWriter GV) (strings₀ : List Bytes) (f : FunctionGraph GV)
    (gw : GraphWriter GV) (fw : FunctionWriter) (strings : List Bytes) : Prop where
  tables : Tables gw strings
  grown_symbols : start.symbols_in_order <+: gw.symbols_in_order
  grown_strings : strings₀ <+: strings
  function_data : gw.function_data = start.function_data
  num_functions : gw.num_functions = start.num_functions + 1
  record : gw.record_debug_data = start.record_debug_data
  known : f.Known start.record_debug_data gw.symbols_in_order strings
  local_names : gw.local_names = start.local_names ++
    if start.record_debug_data then name_indices strings (names f.ops) else []
  this : Room gw.symbols_in_order →
    fw.ThisSymbolIdx = UInt64.ofNat (Dict.place gw.symbols_in_order f.function)
  component : fw.SbomComponentIdx = UInt32.ofNat (Dict.place strings f.component)
  version : fw.SbomVersionIdx = UInt32.ofNat (Dict.place strings f.version)
  num_locals : fw.num_locals = UInt32.ofNat (names f.ops).length
  edges : Room gw.symbols_in_order → ∀ kind,
    fw.m_edges kind = (edges f.ops kind).map (components gw.symbols_in_order)

section
variable {start gw gw' : GraphWriter GV} {strings₀ strings : List Bytes} {f : FunctionGraph GV}
  {fw : FunctionWriter}

/-- Interning a symbol. -/
theorem Writing.symbol (h : Writing start strings₀ f gw fw strings) {GO : GV} {n : Node}
    (hs : gw.symbol asserts GO = .ok (n, gw')) :
    Writing start strings₀ f gw' fw strings ∧ gw.symbols_in_order <+: gw'.symbols_in_order ∧
      GO ∈ gw'.symbols_in_order ∧ (Room gw'.symbols_in_order →
        n = Node.ofSymbol (UInt64.ofNat (Dict.place gw'.symbols_in_order GO))) := by
  obtain ⟨S, o, rfl, ht, hp, hmem, hn⟩ := symbol_spec h.tables hs
  refine ⟨{ h with
    tables := ht
    grown_symbols := h.grown_symbols.trans hp
    known := ?_
    this := ?_
    edges := ?_ }, hp, hmem, hn⟩
  · exact h.known.mono hp List.prefix_rfl
  · intro hroom
    rw [h.this (hroom.of_grown hp)]
    exact congrArg UInt64.ofNat (Dict.place_of_grown hp h.known.function).symm
  · intro hroom kind
    rw [h.edges (hroom.of_grown hp), components_of_grown hp h.known.edges]

/-- The node of an end. -/
theorem Writing.node (h : Writing start strings₀ f gw fw strings) {e : End GV} {n : Node}
    (hs : fw.node asserts gw e = .ok (n, gw')) :
    Writing start strings₀ f gw' fw strings ∧ gw.symbols_in_order <+: gw'.symbols_in_order ∧
      e.Known gw'.symbols_in_order ∧ (Room gw'.symbols_in_order →
        n = e.node gw'.symbols_in_order fw.ThisSymbolIdx) := by
  cases e with
  | sym gv => exact h.symbol hs
  | loc i =>
    obtain ⟨node, hnode, hs⟩ := bind_ok hs
    obtain ⟨rfl, rfl⟩ := Prod.mk.inj (Except.ok.inj hs)
    exact ⟨h, List.prefix_rfl, trivial, fun _ => Node.mkLocal_ok hnode⟩

omit [DecidableEq GV] in
theorem names_append (ops ops' : List (Op GV)) : names (ops ++ ops') = names ops ++ names ops' :=
  List.filterMap_append

omit [DecidableEq GV] in
theorem edges_append (ops ops' : List (Op GV)) (kind : EdgeKind) :
    Edges.edges (ops ++ ops') kind = Edges.edges ops kind ++ Edges.edges ops' kind :=
  List.filterMap_append

/-- A call that interns a symbol changes nothing else. -/
theorem Writing.after_symbol (h : Writing start strings₀ f gw fw strings) (gv : GV) :
    Writing start strings₀ { f with ops := f.ops ++ [.symbol gv] } gw fw strings := by
  have hnames : names (f.ops ++ [.symbol gv]) = names f.ops := by simp [names]
  have hedges : ∀ kind, Edges.edges (f.ops ++ [.symbol gv]) kind = Edges.edges f.ops kind :=
    fun kind => by simp [Edges.edges]
  refine { h with known := ?_, local_names := ?_, num_locals := ?_, edges := ?_ }
  · exact { h.known with
      names := fun hr => hnames ▸ h.known.names hr
      edges := fun kind => hedges kind ▸ h.known.edges kind }
  · rw [hnames]
    exact h.local_names
  · rw [hnames]
    exact h.num_locals
  · intro hroom kind
    rw [hedges]
    exact h.edges hroom kind

/-- `freshLocal` -/
theorem Writing.after_freshLocal (h : Writing start strings₀ f gw fw strings) {Name : Bytes}
    (hName : 0 ∉ Name) {fw' : FunctionWriter} (hs : fw.freshLocal asserts gw Name = .ok (gw', fw')) :
    ∃ strings', Writing start strings₀ { f with ops := f.ops ++ [.freshLocal Name] } gw' fw'
      strings' := by
  have hnames : names (f.ops ++ [.freshLocal Name]) = names f.ops ++ [Name] := by simp [names]
  have hedges : ∀ kind, Edges.edges (f.ops ++ [.freshLocal Name]) kind = Edges.edges f.ops kind :=
    fun kind => by simp [Edges.edges]
  have hnum : fw.num_locals + 1 = UInt32.ofNat (names f.ops ++ [Name]).length := by
    rw [h.num_locals, List.length_append]
    exact (UInt32.ofNat_add _ _).symm
  unfold FunctionWriter.freshLocal at hs
  obtain ⟨n, -, hs⟩ := bind_ok hs
  obtain ⟨rfl, rfl⟩ := Prod.mk.inj (Except.ok.inj hs)
  rw [h.record]
  cases hr : start.record_debug_data with
  | false =>
    refine ⟨strings, { h with known := ?_, local_names := ?_, num_locals := ?_, edges := ?_ }⟩
    · exact { h.known with
        names := fun htrue => by simp [hr] at htrue
        edges := fun kind => hedges kind ▸ h.known.edges kind }
    · simpa [hr] using h.local_names
    · rw [hnames]
      exact hnum
    · intro hroom kind
      rw [hedges]
      exact h.edges hroom kind
  | true =>
    obtain ⟨I, B, strings', hstring, ht, hp, hmem⟩ := string_spec h.tables hName
    rw [if_pos rfl, hstring]
    refine ⟨strings', { h with
      tables := { ht with }
      grown_strings := h.grown_strings.trans hp
      known := ?_
      local_names := ?_
      component := ?_
      version := ?_
      num_locals := ?_
      edges := ?_ }⟩
    · exact {
        function := h.known.function
        component := hp.subset h.known.component
        version := hp.subset h.known.version
        names := fun _ n hn => by
          rw [hnames, List.mem_append, List.mem_singleton] at hn
          rcases hn with hn | rfl
          · exact hp.subset (h.known.names hr n hn)
          · exact hmem
        edges := fun kind => hedges kind ▸ h.known.edges kind }
    · rw [hr, if_pos rfl, hnames]
      simp only [name_indices, List.map_append, List.map_cons, List.map_nil, ← List.append_assoc]
      congr 1
      rw [h.local_names, hr, if_pos rfl]
      congr 1
      exact (name_indices_of_grown hp (h.known.names hr)).symm
    · rw [h.component]
      exact congrArg UInt32.ofNat (Dict.place_of_grown hp h.known.component).symm
    · rw [h.version]
      exact congrArg UInt32.ofNat (Dict.place_of_grown hp h.known.version).symm
    · rw [hnames]
      exact hnum
    · intro hroom kind
      rw [hedges]
      exact h.edges hroom kind

theorem End.node_of_grown {symbols symbols' : List GV} (h : symbols <+: symbols') {e : End GV}
    (he : e.Known symbols) (this : UInt64) : e.node symbols' this = e.node symbols this := by
  cases e with
  | sym gv => simp [End.node, Dict.place_of_grown h he]
  | loc i => rfl

/-- `addEdge`, of nodes just made. -/
theorem Writing.after_addEdge (h : Writing start strings₀ f gw fw strings) {kind : EdgeKind}
    {to_end from_end : End GV} {idx : UInt32} (hto : to_end.Fits) (hfrom : from_end.Fits)
    {gw₁ : GraphWriter GV} {to_node from_node : Node} {fw' : FunctionWriter}
    (hs₁ : fw.node asserts gw to_end = .ok (to_node, gw₁))
    (hs₂ : fw.node asserts gw₁ from_end = .ok (from_node, gw'))
    (hs : fw.addEdge asserts kind ⟨to_node, from_node, idx⟩ = .ok fw') :
    Writing start strings₀ { f with ops := f.ops ++ [.addEdge kind to_end from_end idx] } gw' fw'
      strings := by
  obtain ⟨h₁, -, hk₁, hn₁⟩ := h.node hs₁
  obtain ⟨h₂, hp, hk₂, hn₂⟩ := h₁.node hs₂
  have hk₁ := hk₁.mono hp
  unfold FunctionWriter.addEdge at hs
  obtain ⟨to_number, hto_number, hs⟩ := bind_ok hs
  obtain ⟨from_number, hfrom_number, hs⟩ := bind_ok hs
  obtain rfl := Except.ok.inj hs
  have hnames : names (f.ops ++ [.addEdge kind to_end from_end idx]) = names f.ops := by
    simp [names]
  have hedges : ∀ k, Edges.edges (f.ops ++ [.addEdge kind to_end from_end idx]) k =
      Edges.edges f.ops k ++ if kind = k then [(to_end, from_end, idx)] else [] := by
    intro k
    by_cases hk : kind = k <;> simp [Edges.edges, hk]
  refine { h₂ with known := ?_, local_names := ?_, num_locals := ?_, edges := ?_ }
  · refine { h₂.known with names := fun hr => hnames ▸ h₂.known.names hr, edges := ?_ }
    intro k e he
    rw [hedges, List.mem_append] at he
    rcases he with he | he
    · exact h₂.known.edges k e he
    · split at he
      · obtain rfl := List.mem_singleton.mp he
        exact ⟨hk₁, hk₂⟩
      · cases he
  · rw [hnames]
    exact h₂.local_names
  · rw [hnames]
    exact h₂.num_locals
  · intro hroom k
    have hthis : Packable fw.ThisSymbolIdx := by
      rw [h₂.this hroom]
      exact packable_place hroom h₂.known.function
    have hto_eq : to_number = to_end.number gw'.symbols_in_order := by
      rw [hn₁ (hroom.of_grown hp), ← End.node_of_grown hp (by assumption)] at hto_number
      exact (Except.ok.inj ((encode_node_spec hroom hthis hk₁ hto).symm.trans hto_number)).symm
    have hfrom_eq : from_number = from_end.number gw'.symbols_in_order := by
      rw [hn₂ hroom] at hfrom_number
      exact (Except.ok.inj ((encode_node_spec hroom hthis hk₂ hfrom).symm.trans hfrom_number)).symm
    rw [hedges]
    by_cases hk : kind = k
    · subst hk
      simp [h₂.edges hroom, components, hto_eq, hfrom_eq]
    · simp [hk, Function.update_of_ne (Ne.symm hk), h₂.edges hroom k]

/-- What a call may be given. -/
def Op.Fits : Op GV → Prop
  | .symbol _ => True
  | .freshLocal Name => 0 ∉ Name
  | .addEdge _ to_end from_end _ => to_end.Fits ∧ from_end.Fits

/-- What may be written of a function. -/
structure FunctionGraph.Fits (f : FunctionGraph GV) : Prop where
  component : 0 ∉ f.component
  version : 0 ∉ f.version
  ops : ∀ op ∈ f.ops, op.Fits

/-- One call. -/
theorem Writing.step (h : Writing start strings₀ f gw fw strings) {op : Op GV} (hop : op.Fits)
    {fw' : FunctionWriter} (hs : FunctionWriter.step asserts (gw, fw) op = .ok (gw', fw')) :
    ∃ strings', Writing start strings₀ { f with ops := f.ops ++ [op] } gw' fw' strings' := by
  cases op with
  | symbol gv =>
    obtain ⟨⟨n, gw₁⟩, hsym, hs⟩ := bind_ok hs
    obtain ⟨rfl, rfl⟩ := Prod.mk.inj (Except.ok.inj hs)
    exact ⟨strings, (h.symbol hsym).1.after_symbol gv⟩
  | freshLocal Name => exact h.after_freshLocal hop hs
  | addEdge kind to_end from_end idx =>
    obtain ⟨⟨to_node, gw₁⟩, hs₁, hs⟩ := bind_ok hs
    obtain ⟨⟨from_node, gw₂⟩, hs₂, hs⟩ := bind_ok hs
    obtain ⟨fw₁, hs₃, hs⟩ := bind_ok hs
    obtain ⟨rfl, rfl⟩ := Prod.mk.inj (Except.ok.inj hs)
    exact ⟨strings, h.after_addEdge hop.1 hop.2 hs₁ hs₂ hs₃⟩

/-- All calls. -/
theorem Writing.run {ops : List (Op GV)} (hops : ∀ op ∈ ops, op.Fits) {fw' : FunctionWriter}
    (h : Writing start strings₀ f gw fw strings)
    (hs : ops.foldlM (FunctionWriter.step asserts) (gw, fw) = .ok (gw', fw')) :
    ∃ strings', Writing start strings₀ { f with ops := f.ops ++ ops } gw' fw' strings' := by
  induction ops generalizing f gw fw strings with
  | nil =>
    obtain ⟨rfl, rfl⟩ := Prod.mk.inj (Except.ok.inj hs)
    exact ⟨strings, by simpa using h⟩
  | cons op ops ih =>
    rw [List.foldlM_cons] at hs
    obtain ⟨⟨gw₁, fw₁⟩, hstep, hs⟩ := bind_ok hs
    obtain ⟨strings₁, h₁⟩ := h.step (hops op List.mem_cons_self) hstep
    obtain ⟨strings', h'⟩ := ih (fun o ho => hops o (List.mem_cons_of_mem op ho)) h₁ hs
    exact ⟨strings', by simpa using h'⟩

end

/-- The constructor. -/
theorem writing_new {start gw : GraphWriter GV} {strings₀ : List Bytes} (ht : Tables start strings₀)
    {f : FunctionGraph GV} {fw : FunctionWriter} (hfit : f.Fits) (hf : f.ops = [])
    (hs : FunctionWriter.new asserts start f.function f.sbom = .ok (gw, fw)) :
    ∃ strings, Writing start strings₀ f gw fw strings := by
  unfold FunctionWriter.new at hs
  obtain ⟨⟨n, gw₁⟩, hsym, hs⟩ := bind_ok hs
  have ht₀ : Tables { start with num_functions := start.num_functions + 1 } strings₀ :=
    { ht with }
  obtain ⟨S, o, rfl, ht₁, hp, hmem, hn⟩ := symbol_spec ht₀ hsym
  have hthis : Room o → n.symbol = UInt64.ofNat (Dict.place o f.function) := by
    intro hroom
    rw [hn hroom, Node.symbol_ofSymbol (packable_place hroom hmem)]
  cases hsbom : f.sbom with
  | some sbom =>
    obtain ⟨ComponentName, Version⟩ := sbom
    have hcomponent : f.component = ComponentName := by simp [FunctionGraph.component, hsbom]
    have hversion : f.version = Version := by simp [FunctionGraph.version, hsbom]
    obtain ⟨I₁, B₁, strings₁, hc, ht₂, hp₁, hmem₁⟩ := string_spec ht₁ (hcomponent ▸ hfit.component)
    obtain ⟨I₂, B₂, strings₂, hv, ht₃, hp₂, hmem₂⟩ := string_spec ht₂ (hversion ▸ hfit.version)
    simp only [hsbom, hc, hv] at hs
    obtain ⟨rfl, rfl⟩ := Prod.mk.inj (Except.ok.inj hs)
    exact ⟨strings₂, {
      tables := ht₃
      grown_symbols := hp
      grown_strings := hp₁.trans hp₂
      function_data := rfl
      num_functions := rfl
      record := rfl
      known := {
        function := hmem
        component := hcomponent ▸ hp₂.subset hmem₁
        version := hversion ▸ hmem₂
        names := fun _ => by simp [hf, names]
        edges := fun kind => by simp [hf, Edges.edges] }
      local_names := by simp [hf, names, name_indices]
      this := hthis
      component := by
        rw [hcomponent]
        exact congrArg UInt32.ofNat (Dict.place_of_grown hp₂ hmem₁).symm
      version := by rw [hversion]
      num_locals := by simp [hf, names]
      edges := fun _ kind => by simp [hf, Edges.edges] }⟩
  | none =>
    obtain ⟨I₁, B₁, strings₁, hc, ht₂, hp₁, hmem₁⟩ := string_spec ht₁ List.not_mem_nil
    simp only [hsbom, hc] at hs
    obtain ⟨rfl, rfl⟩ := Prod.mk.inj (Except.ok.inj hs)
    have hcomponent : f.component = [] := by simp [FunctionGraph.component, hsbom]
    have hversion : f.version = [] := by simp [FunctionGraph.version, hsbom]
    exact ⟨strings₁, {
      tables := ht₂
      grown_symbols := hp
      grown_strings := hp₁
      function_data := rfl
      num_functions := rfl
      record := rfl
      known := {
        function := hmem
        component := hcomponent ▸ hmem₁
        version := hversion ▸ hmem₁
        names := fun _ => by simp [hf, names]
        edges := fun kind => by simp [hf, Edges.edges] }
      local_names := by simp [hf, names, name_indices]
      this := hthis
      component := by rw [hcomponent]
      version := by rw [hversion]
      num_locals := by simp [hf, names]
      edges := fun _ kind => by simp [hf, Edges.edges] }⟩

theorem storage_words_ok {sort : EdgeSort} {kind : EdgeKind} {data : List Components}
    {words : List UInt32} (h : FunctionWriter.storage_words asserts sort kind data = .ok words) :
    words = UInt32.ofNat data.length ::
      FunctionWriter.edge_words kind.indexed 0 (sort kind.NUM_COMPONENTS data) := by
  unfold FunctionWriter.storage_words at h
  obtain ⟨count, hcount, h⟩ := bind_ok h
  rw [← as_u32_ok hcount]
  exact (Except.ok.inj h).symm

/-- `finish` appends the record of the function. -/
theorem Writing.finish {start gw gw' : GraphWriter GV} {strings₀ strings : List Bytes}
    {f : FunctionGraph GV} {fw : FunctionWriter} (h : Writing start strings₀ f gw fw strings)
    {sort : EdgeSort} (hs : fw.finish asserts sort gw f.NumAllocas = .ok gw') :
    ∃ words, gw' = { gw with function_data := gw.function_data ++ words } ∧
      (Room gw.symbols_in_order → words = record_words sort gw.symbols_in_order strings f) := by
  unfold FunctionWriter.finish at hs
  obtain ⟨this, hthis, hs⟩ := bind_ok hs
  obtain ⟨words, hwords, hs⟩ := bind_ok hs
  obtain rfl := Except.ok.inj hs
  refine ⟨_, by rw [List.append_assoc], fun hroom => ?_⟩
  have hsymbol : this = UInt32.ofNat (Dict.place gw.symbols_in_order f.function) := by
    have hlt := Dict.place_lt h.known.function
    unfold Room at hroom
    rw [as_u32_ok hthis, h.this hroom, UInt64.toNat_ofNat', Nat.mod_eq_of_lt (by omega)]
  have hedges : words = EdgeKind.all.map fun kind =>
      UInt32.ofNat (Edges.edges f.ops kind).length ::
        FunctionWriter.edge_words kind.indexed 0 (storage sort gw.symbols_in_order f kind) := by
    refine mapM_ok (fun kind _ b hb => ?_) hwords
    rw [storage_words_ok hb, h.edges hroom kind, storage, List.length_map]
  rw [hsymbol, hedges, h.component, h.version, h.num_locals, record_words, List.flatMap_def]

/-! ## The functions of a graph -/

/-- **The state after some functions.** -/
structure Written (recorded : Bool) (sort : EdgeSort) (fs : List (FunctionGraph GV))
    (gw : GraphWriter GV) (strings : List Bytes) : Prop where
  tables : Tables gw strings
  record : gw.record_debug_data = recorded
  known : ∀ f ∈ fs, f.Known recorded gw.symbols_in_order strings
  num_functions : gw.num_functions = UInt32.ofNat fs.length
  local_names : gw.local_names =
    if recorded then fs.flatMap fun f => name_indices strings (names f.ops) else []
  function_data : Room gw.symbols_in_order →
    gw.function_data = fs.flatMap (record_words sort gw.symbols_in_order strings)

omit [DecidableEq GV] in
theorem flatMap_names_of_grown {symbols : List GV} {strings strings' : List Bytes}
    (hp : strings <+: strings') {fs : List (FunctionGraph GV)}
    (hk : ∀ f ∈ fs, f.Known true symbols strings) :
    (fs.flatMap fun f => name_indices strings' (names f.ops)) =
      fs.flatMap fun f => name_indices strings (names f.ops) :=
  List.flatMap_congr fun f hf => name_indices_of_grown hp ((hk f hf).names rfl)

/-- One more function. -/
theorem Written.step {recorded : Bool} {sort : EdgeSort} {fs : List (FunctionGraph GV)}
    {gw gw' : GraphWriter GV} {strings : List Bytes} (h : Written recorded sort fs gw strings)
    {f : FunctionGraph GV} (hf : f.Fits)
    (hs : writeFunction asserts sort gw f = .ok gw') :
    ∃ strings', Written recorded sort (fs ++ [f]) gw' strings' := by
  unfold writeFunction at hs
  obtain ⟨⟨gw₁, fw₁⟩, hnew, hs⟩ := bind_ok hs
  obtain ⟨⟨gw₂, fw₂⟩, hrun, hs⟩ := bind_ok hs
  obtain ⟨strings₁, h₁⟩ := writing_new h.tables (f := { f with ops := [] })
    { component := hf.component, version := hf.version, ops := fun op hop => nomatch hop } rfl hnew
  obtain ⟨strings₂, h₂⟩ := h₁.run hf.ops hrun
  have h₂ : Writing gw strings f gw₂ fw₂ strings₂ := by simpa using h₂
  obtain ⟨words, rfl, hwords⟩ := h₂.finish hs
  have hrecord := h₂.record.trans h.record
  refine ⟨strings₂, { h₂.tables with }, hrecord, ?_, ?_, ?_, ?_⟩
  · intro g hg
    rcases List.mem_append.mp hg with hg | hg
    · exact (h.known g hg).mono h₂.grown_symbols h₂.grown_strings
    · obtain rfl := List.mem_singleton.mp hg
      exact h.record ▸ h₂.known
  · rw [List.length_append]
    exact h₂.num_functions.trans (h.num_functions ▸ (UInt32.ofNat_add _ _).symm)
  · show gw₂.local_names = _
    rw [h₂.local_names, h.local_names, h.record]
    cases recorded with
    | false => rfl
    | true =>
      rw [if_pos rfl, if_pos rfl, if_pos rfl, List.flatMap_append,
        flatMap_names_of_grown h₂.grown_strings h.known, List.flatMap_singleton]
  · intro hroom
    show gw₂.function_data ++ words = _
    rw [hwords hroom, h₂.function_data, h.function_data (hroom.of_grown h₂.grown_symbols),
      List.flatMap_append, List.flatMap_singleton]
    congr 1
    exact List.flatMap_congr fun g hg =>
      (record_words_of_grown h₂.grown_symbols h₂.grown_strings (h.known g hg) sort).symm

theorem Written.run {recorded : Bool} {sort : EdgeSort} {fs more : List (FunctionGraph GV)}
    {gw gw' : GraphWriter GV} {strings : List Bytes} (h : Written recorded sort fs gw strings)
    (hf : ∀ f ∈ more, f.Fits)
    (hs : more.foldlM (writeFunction asserts sort) gw = .ok gw') :
    ∃ strings', Written recorded sort (fs ++ more) gw' strings' := by
  induction more generalizing fs gw strings with
  | nil =>
    obtain rfl := Except.ok.inj hs
    exact ⟨strings, by simpa using h⟩
  | cons f more ih =>
    rw [List.foldlM_cons] at hs
    obtain ⟨gw₁, hstep, hs⟩ := bind_ok hs
    obtain ⟨strings₁, h₁⟩ := h.step (hf f List.mem_cons_self) hstep
    obtain ⟨strings', h'⟩ := ih h₁ (fun g hg => hf g (List.mem_cons_of_mem f hg)) hs
    exact ⟨strings', by simpa using h'⟩

/-- **The stream of a graph is the records of its functions, one after another.** -/
theorem writeFunctions_written {sort : EdgeSort} {g : Graph GV} {gw : GraphWriter GV}
    (hf : ∀ f ∈ g.functions, f.Fits)
    (hs : writeFunctions asserts sort g = .ok gw) :
    ∃ strings, Written g.record_debug_data sort g.functions gw strings := by
  have hempty : Written g.record_debug_data sort []
      ({ record_debug_data := g.record_debug_data } : GraphWriter GV) [] :=
    { tables := ⟨Dict.Interned.nil, rfl, by simp, Dict.Interned.nil⟩
      record := rfl
      known := fun f hf => nomatch hf
      num_functions := rfl
      local_names := by simp
      function_data := fun _ => rfl }
  exact hempty.run hf hs

end
end Bracelet.Edges
