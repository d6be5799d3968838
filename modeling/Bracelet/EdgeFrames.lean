import Bracelet.EdgeReader
import Bracelet.EdgeStream

/-!
# What the readers make of a record

The reader's side of `record_words`: `next_function` takes the record of a function
off the front of the stream of its graph and the names of its locals off the front of
theirs, and what it passes on describes the function (`Reads`).
-/
namespace Bracelet.Edges

section
variable {GV : Type} [DecidableEq GV]

/-! ## Strings -/

/-- The offsets of strings that lie one after another. -/
def offsets : Nat → List Bytes → List Nat
  | _, [] => []
  | offset, S :: strings => offset :: offsets (offset + S.length + 1) strings

theorem findIdx?_nul {S : Bytes} (hS : 0 ∉ S) (rest : Bytes) :
    (S ++ 0 :: rest).findIdx? (· == 0) = some S.length := by
  induction S with
  | nil => simp [List.findIdx?_cons]
  | cons b S ih =>
    rw [List.mem_cons, not_or] at hS
    have hb : (b == 0) = false := by simpa using Ne.symm hS.1
    simp [List.findIdx?_cons, hb, ih hS.2]

theorem takeWhile_nul {S : Bytes} (hS : 0 ∉ S) (rest : Bytes) :
    (S ++ 0 :: rest).takeWhile (· != 0) = S := by
  induction S with
  | nil => rfl
  | cons b S ih =>
    rw [List.mem_cons, not_or] at hS
    have hb : (b != 0) = true := by simpa using Ne.symm hS.1
    simp [hb, ih hS.2]

theorem string_offsets_from_strings (front : Bytes) {strings : List Bytes}
    (hnul : ∀ S ∈ strings, 0 ∉ S) {fuel : Nat} (hfuel : strings.length < fuel) :
    string_offsets_from (front ++ strings.flatMap (· ++ [0])) fuel front.length =
      .ok (offsets front.length strings) := by
  induction strings generalizing front fuel with
  | nil =>
    obtain ⟨fuel, rfl⟩ := Nat.exists_eq_succ_of_ne_zero (Nat.ne_of_gt hfuel)
    simp [string_offsets_from, offsets]
  | cons S strings ih =>
    obtain ⟨fuel, rfl⟩ := Nat.exists_eq_succ_of_ne_zero (Nat.ne_zero_of_lt hfuel)
    rw [List.length_cons] at hfuel
    have hS := hnul S List.mem_cons_self
    have hlt : front.length < (front ++ (S :: strings).flatMap (· ++ [0])).length := by
      simp
    have hdrop : (front ++ (S :: strings).flatMap (· ++ [0])).drop front.length =
        S ++ 0 :: strings.flatMap (· ++ [0]) := by simp
    have hnext := ih (front ++ S ++ [0]) (fun S' h => hnul S' (List.mem_cons_of_mem S h))
      (Nat.lt_of_succ_lt_succ hfuel)
    have hblob : front ++ S ++ [0] ++ strings.flatMap (· ++ [0]) =
        front ++ (S :: strings).flatMap (· ++ [0]) := by simp
    have hlen : (front ++ S ++ [0]).length = front.length + S.length + 1 := by
      simp
      omega
    rw [hblob, hlen] at hnext
    rw [string_offsets_from, if_pos hlt, hdrop, findIdx?_nul hS]
    simp only [hnext, ok_bind]
    rfl

theorem getElem?_offsets {strings : List Bytes} {i : Nat} (h : i < strings.length) (offset : Nat) :
    (offsets offset strings)[i]? =
      some (offset + ((strings.take i).flatMap (· ++ [0])).length) := by
  induction strings generalizing offset i with
  | nil => simp at h
  | cons S strings ih =>
    cases i with
    | zero => simp [offsets]
    | succ i =>
      rw [offsets, List.getElem?_cons_succ, ih (Nat.lt_of_succ_lt_succ h)]
      simp only [List.take_succ_cons, List.flatMap_cons, List.length_append, List.length_singleton]
      congr 1
      omega

/-- The debug data with these strings. -/
structure HasStrings (gdd : GraphDebugData) (strings : List Bytes) : Prop where
  blob : gdd.string_blob = strings.flatMap (· ++ [0])
  offsets : gdd.string_offsets = offsets 0 strings
  nul_free : ∀ S ∈ strings, 0 ∉ S

/-- Strings are read back by their indices. -/
theorem HasStrings.string {gdd : GraphDebugData} {strings : List Bytes} (h : HasStrings gdd strings)
    {S : Bytes} (hS : S ∈ strings) : gdd.string (Dict.place strings S) = .ok S := by
  have hlt := Dict.place_lt hS
  have hget : strings[Dict.place strings S] = S := by simp [Dict.place]
  have hblob : strings.flatMap (· ++ [0]) =
      (strings.take (Dict.place strings S)).flatMap (· ++ [0]) ++
        S ++ 0 :: (strings.drop (Dict.place strings S + 1)).flatMap (· ++ [0]) := by
    conv_lhs => rw [← List.take_append_drop (Dict.place strings S) strings,
      List.drop_eq_getElem_cons hlt, hget]
    simp
  unfold GraphDebugData.string
  rw [h.offsets, getElem?_offsets hlt, h.blob]
  simp only [Nat.zero_add]
  rw [hblob, List.append_assoc, List.drop_left, takeWhile_nul (h.nul_free S hS)]

/-! ## Edges -/

/-- The node an end is read as. -/
def End.read (address : GV → Address) (this : GV) : End GV → Node
  | .sym gv => Node.ofSymbol (address gv)
  | .loc local_idx => Node.ofLocal (address this) (UInt64.ofNat local_idx)

/-- The edge that is read; the index of an edge without one is not. -/
def readEdge (address : GV → Address) (this : GV) (indexed : Bool) (e : End GV × End GV × UInt32) :
    Edge :=
  ⟨e.1.read address this, e.2.1.read address this, if indexed then e.2.2 else 0⟩

theorem number_odd {k : Nat} (h : k < 2 ^ 31) :
    UInt32.ofNat (2 * k + 1) &&& 1 = 1 ∧ (UInt32.ofNat (2 * k + 1) >>> 1).toNat = k := by
  have hnat : (UInt32.ofNat (2 * k + 1)).toNat = 2 * k + 1 := by
    rw [UInt32.toNat_ofNat']
    omega
  constructor
  · apply UInt32.toNat_inj.mp
    rw [UInt32.toNat_and, hnat, UInt32.toNat_one, Nat.and_one_is_mod]
    omega
  · rw [UInt32.toNat_shiftRight, hnat, Nat.shiftRight_eq_div_pow,
      show (1 : UInt32).toNat % 32 = 1 by decide]
    omega

theorem number_even {i : Nat} (h : i < 65535) :
    UInt32.ofNat (2 * i) &&& 1 = 0 ∧ (UInt32.ofNat (2 * i) >>> 1).toUInt64 = UInt64.ofNat i := by
  have hnat : (UInt32.ofNat (2 * i)).toNat = 2 * i := by
    rw [UInt32.toNat_ofNat']
    omega
  constructor
  · apply UInt32.toNat_inj.mp
    rw [UInt32.toNat_and, hnat, UInt32.toNat_one, UInt32.toNat_zero, Nat.and_one_is_mod]
    omega
  · apply UInt64.toNat_inj.mp
    rw [UInt32.toNat_toUInt64, UInt32.toNat_shiftRight, hnat, Nat.shiftRight_eq_div_pow,
      show (1 : UInt32).toNat % 32 = 1 by decide, UInt64.toNat_ofNat']
    omega

section
variable {asserts : Bool} {address : GV → Address} {symbols : List GV} {this : GV}

theorem symbol_address_place {gv : GV} (h : gv ∈ symbols) :
    symbol_address (symbols.map address) (Dict.place symbols gv) = .ok (address gv) := by
  simp [symbol_address, Dict.getElem_place h]

variable (hroom : Room symbols) (haddress : ∀ gv ∈ symbols, Packable (address gv))
  (hthis : this ∈ symbols)
include hroom haddress hthis

/-- Nodes are decoded from their numbers. -/
theorem decode_node_number {e : End GV} (hk : e.Known symbols) (hfit : e.Fits) :
    decode_node asserts (symbols.map address) (e.number symbols) (address this) =
      .ok (e.read address this) := by
  unfold decode_node
  cases e with
  | sym gv =>
    have hlt := Dict.place_lt hk
    unfold Room at hroom
    obtain ⟨hlow, hhigh⟩ := number_odd (k := Dict.place symbols gv) (by omega)
    simp only [End.number, hlow, hhigh, symbol_address_place hk, ok_bind,
      Node.mkSymbol_eq (haddress gv hk), End.read]
    rfl
  | loc i =>
    have hi : i < 65535 := hfit
    obtain ⟨hlow, hhigh⟩ := number_even hi
    have hnat : (UInt64.ofNat i).toNat < 65535 := by
      rw [UInt64.toNat_ofNat']
      omega
    simp only [End.number, hlow, hhigh, Node.mkLocal_eq (haddress this hthis) hnat, End.read]
    rfl

omit [DecidableEq GV] hroom in
theorem valid_read {e : End GV} (hk : e.Known symbols) (hfit : e.Fits) :
    (e.read address this).valid = true := by
  cases e with
  | sym gv => exact Node.valid_ofSymbol (haddress gv hk)
  | loc i =>
    have hi : i < 65535 := hfit
    refine Node.valid_ofLocal (haddress this hthis) ?_
    rw [UInt64.toNat_ofNat']
    omega

/-- **The edges are read back from their words**, whatever the value they start from. -/
theorem visitEdgesInner_edge_words {τ : Type} (cb : τ → Edge → Result τ) (indexed : Bool)
    {es : List (End GV × End GV × UInt32)}
    (hes : ∀ e ∈ es, (e.1.Known symbols ∧ e.1.Fits) ∧ e.2.1.Known symbols ∧ e.2.1.Fits)
    (prev : UInt32) (t : τ) :
    visitEdgesInner asserts (symbols.map address) (Node.ofSymbol (address this)) indexed cb prev
        (FunctionWriter.edge_words indexed prev (es.map (components symbols))) t =
      (es.map (readEdge address this indexed)).foldlM cb t := by
  induction es generalizing prev t with
  | nil => cases indexed <;> rfl
  | cons e es ih =>
    obtain ⟨to_end, from_end, idx⟩ := e
    obtain ⟨⟨hk₁, hf₁⟩, hk₂, hf₂⟩ := hes _ List.mem_cons_self
    have ih := ih fun e he => hes e (List.mem_cons_of_mem _ he)
    have hto : prev + (to_end.number symbols - prev) = to_end.number symbols := by
      rw [UInt32.add_comm, UInt32.sub_add_cancel]
    have hfrom : to_end.number symbols + (from_end.number symbols - to_end.number symbols) =
        from_end.number symbols := by
      rw [UInt32.add_comm, UInt32.sub_add_cancel]
    have hedge : ∀ i, mkEdge asserts (to_end.read address this) (from_end.read address this) i =
        .ok ⟨to_end.read address this, from_end.read address this, i⟩ := fun i => by
      simp [mkEdge, valid_read haddress hthis hk₁ hf₁, valid_read haddress hthis hk₂ hf₂]
    have hsymbol := Node.symbol_ofSymbol (haddress this hthis)
    have hvalid := Node.valid_ofSymbol (haddress this hthis)
    have hto_node : decode_node asserts (symbols.map address) (to_end.number symbols)
        (address this) = .ok (to_end.read address this) :=
      decode_node_number hroom haddress hthis hk₁ hf₁
    have hfrom_node : decode_node asserts (symbols.map address) (from_end.number symbols)
        (address this) = .ok (from_end.read address this) :=
      decode_node_number hroom haddress hthis hk₂ hf₂
    rw [List.map_cons, List.map_cons, List.foldlM_cons]
    cases indexed with
    | true =>
      simp only [components, FunctionWriter.edge_words, visitEdgesInner, zigzag_decode_encode, hto,
        hfrom, hsymbol, hvalid, assert_true, if_true, List.cons_append, List.nil_append, hto_node,
        hfrom_node, ok_bind,
        hedge]
      exact bind_congr fun t => ih _ t
    | false =>
      simp only [components, FunctionWriter.edge_words, visitEdgesInner, zigzag_decode_encode, hto,
        hfrom, hsymbol, hvalid, assert_true, Bool.false_eq_true, if_false, List.nil_append,
        hto_node, hfrom_node, ok_bind,
        hedge]
      exact bind_congr fun t => ih _ t

end

/-! ## Words -/

@[simp] theorem next_word_cons (header : GraphHeader) (word : UInt32) (words : List UInt32)
    (addresses : List Address) (gdd : GraphDebugData) :
    Frame.next_word ⟨header, word :: words, addresses, gdd⟩ =
      .ok (word, ⟨header, words, addresses, gdd⟩) := by
  simp [Frame.next_word, Frame.next_words]

theorem next_words_append (header : GraphHeader) {front words : List UInt32}
    (addresses : List Address) (gdd : GraphDebugData) {count : Nat} (h : front.length = count) :
    Frame.next_words ⟨header, front ++ words, addresses, gdd⟩ count =
      .ok (front, ⟨header, words, addresses, gdd⟩) := by
  subst h
  simp [Frame.next_words]

omit [DecidableEq GV] in
theorem length_edge_words (indexed : Bool) (prev : UInt32) (data : List Components) :
    (FunctionWriter.edge_words indexed prev data).length =
      (if indexed then 3 else 2) * data.length := by
  induction data generalizing prev with
  | nil => simp [FunctionWriter.edge_words]
  | cons e data ih =>
    obtain ⟨to_number, from_number, idx⟩ := e
    cases indexed <;> simp [FunctionWriter.edge_words, ih] <;> ring

theorem toNat_ofNat_lt {n : Nat} (h : n < 2 ^ 32) : (UInt32.ofNat n).toNat = n := by
  rw [UInt32.toNat_ofNat', Nat.mod_eq_of_lt h]

/-- The words of a kind of edges. -/
theorem next_edges_append (header : GraphHeader) (addresses : List Address) (gdd : GraphDebugData)
    (edge_data : EdgeKind → List UInt32) (kind : EdgeKind) {data : List Components}
    (h : data.length < 2 ^ 32) (words : List UInt32) :
    next_edges (edge_data, ⟨header, (UInt32.ofNat data.length ::
        FunctionWriter.edge_words kind.indexed 0 data) ++ words, addresses, gdd⟩) kind =
      .ok (Function.update edge_data kind (FunctionWriter.edge_words kind.indexed 0 data),
        ⟨header, words, addresses, gdd⟩) := by
  have hlen : (FunctionWriter.edge_words kind.indexed 0 data).length =
      kind.NUM_COMPONENTS * (UInt32.ofNat data.length).toNat := by
    rw [length_edge_words, toNat_ofNat_lt h, EdgeKind.NUM_COMPONENTS]
  simp only [next_edges, List.cons_append, next_word_cons, ok_bind,
    next_words_append header addresses gdd hlen]
  rfl

/-- The words of several kinds. -/
theorem foldlM_next_edges (header : GraphHeader) (addresses : List Address) (gdd : GraphDebugData)
    (edge_data : EdgeKind → List UInt32) {data : EdgeKind → List Components}
    (h : ∀ kind, (data kind).length < 2 ^ 32) (words : List UInt32) (kinds : List EdgeKind) :
    ∃ edge_data', kinds.foldlM next_edges (edge_data, ⟨header, kinds.flatMap (fun kind =>
          UInt32.ofNat (data kind).length :: FunctionWriter.edge_words kind.indexed 0 (data kind)) ++
          words, addresses, gdd⟩) = .ok (edge_data', ⟨header, words, addresses, gdd⟩) ∧
      ∀ kind, edge_data' kind = if kind ∈ kinds
        then FunctionWriter.edge_words kind.indexed 0 (data kind) else edge_data kind := by
  induction kinds generalizing edge_data with
  | nil => exact ⟨edge_data, rfl, fun kind => by simp⟩
  | cons k kinds ih =>
    obtain ⟨edge_data', hrun, hdata⟩ :=
      ih (Function.update edge_data k (FunctionWriter.edge_words k.indexed 0 (data k)))
    refine ⟨edge_data', ?_, fun kind => ?_⟩
    · rw [List.foldlM_cons, List.flatMap_cons, List.append_assoc,
        next_edges_append header addresses gdd edge_data k (h k), ok_bind, hrun]
    · rw [hdata]
      by_cases hk : kind = k
      · subst hk
        simp
      · simp [hk]

/-! ## Locals -/

/-- The debug data at hand while a graph is read. -/
structure HasLocals (recorded : Bool) (gdd : GraphDebugData) (strings : List Bytes)
    (locals : List UInt32) : Prop where
  strings : HasStrings gdd strings
  locals : gdd.local_indices = if recorded then some locals else none

omit [DecidableEq GV] in
/-- Taking the locals of a function. -/
theorem HasLocals.next_locals {recorded : Bool} {gdd : GraphDebugData} {strings : List Bytes}
    {front more : List UInt32} (h : HasLocals recorded gdd strings (front ++ more))
    (header : GraphHeader) (words : List UInt32) (addresses : List Address)
    {n : UInt32} (hn : recorded = true → n.toNat = front.length) :
    ∃ out gdd', Frame.next_locals ⟨header, words, addresses, gdd⟩ n =
        .ok (out, ⟨header, words, addresses, gdd'⟩) ∧
      HasLocals recorded out strings front ∧ HasLocals recorded gdd' strings more := by
  obtain ⟨hstrings, hlocals⟩ := h
  unfold Frame.next_locals
  cases recorded with
  | false =>
    have hnone : gdd.local_indices = none := by simpa using hlocals
    refine ⟨gdd, gdd, by simp [GraphDebugData.has_locals, hnone], ⟨hstrings, hlocals⟩, ?_⟩
    exact ⟨hstrings, hlocals⟩
  | true =>
    have hsome : gdd.local_indices = some (front ++ more) := by simpa using hlocals
    refine ⟨{ gdd with local_indices := some front }, { gdd with local_indices := some more },
      ?_, ⟨⟨hstrings.blob, hstrings.offsets, hstrings.nul_free⟩, rfl⟩,
      ⟨⟨hstrings.blob, hstrings.offsets, hstrings.nul_free⟩, rfl⟩⟩
    simp [GraphDebugData.has_locals, GraphDebugData.debug_data_split_at, hsome, hn rfl]

/-- Locals are read back by their places. -/
theorem HasLocals.local_name {gdd : GraphDebugData} {strings Names : List Bytes}
    (h : HasLocals true gdd strings (name_indices strings Names))
    (hsmall : strings.length ≤ 2 ^ 32) (hmem : ∀ n ∈ Names, n ∈ strings) {i : Nat}
    (hi : i < Names.length) : gdd.local_name i = .ok Names[i] := by
  have hname := hmem _ (List.getElem_mem hi)
  have hlt := Dict.place_lt hname
  have hlocals : gdd.local_indices = some (name_indices strings Names) := by simpa using h.locals
  unfold GraphDebugData.local_name
  simp only [hlocals, Option.getD_some, name_indices, List.getElem?_map,
    List.getElem?_eq_getElem hi, Option.map_some, toNat_ofNat_lt (hlt.trans_le hsmall)]
  exact h.strings.string hname

/-! ## Functions -/

/-- What may be written and read of a function. -/
structure FunctionGraph.Valid (f : FunctionGraph GV) : Prop extends f.Fits where
  num_locals : (names f.ops).length < 2 ^ 32
  num_allocas : f.NumAllocas.toNat ≤ (names f.ops).length

/-- **The function that was written.** -/
structure Reads (asserts recorded : Bool) (address : GV → Address) (f : FunctionGraph GV)
    (info : FunctionInfo) : Prop where
  function : info.function = Node.ofSymbol (address f.function)
  num_locals : info.num_locals.toNat = (names f.ops).length
  num_allocas : info.num_allocas = f.NumAllocas
  /-- Absent when one of the strings is empty. -/
  sbom_info : info.sbom_info = f.sbom.filter fun sbom => sbom.1 ≠ [] ∧ sbom.2 ≠ []
  has_locals : info.debug_data.has_locals = recorded
  local_name : recorded = true → ∀ (i : Nat) (hi : i < (names f.ops).length),
    info.debug_data.local_name i = .ok (names f.ops)[i]
  /-- The edges of a kind, in some order. -/
  edges : ∀ kind, ∃ es : List Edge,
    es.Perm ((edges f.ops kind).map (readEdge address f.function kind.indexed)) ∧
    ∀ {τ : Type} (cb : τ → Edge → Result τ) (t : τ),
      info.visitEdges asserts kind cb t = es.foldlM cb t

omit [DecidableEq GV] in
theorem fits_of_mem_edges {f : FunctionGraph GV} (h : f.Fits) {kind : EdgeKind}
    {e : End GV × End GV × UInt32} (he : e ∈ edges f.ops kind) : e.1.Fits ∧ e.2.1.Fits := by
  obtain ⟨op, hop, he⟩ := List.mem_filterMap.mp he
  have hfit := h.ops op hop
  cases op with
  | symbol gv => cases he
  | freshLocal Name => cases he
  | addEdge k to_end from_end idx =>
    simp only at he
    split at he
    · obtain rfl := Option.some.inj he
      exact hfit
    · cases he

omit [DecidableEq GV] in
theorem sbom_info_eq (f : FunctionGraph GV) :
    (if (f.component != [] && f.version != []) = true then some (f.component, f.version)
      else none) = f.sbom.filter fun sbom => sbom.1 ≠ [] ∧ sbom.2 ≠ [] := by
  cases h : f.sbom with
  | none => simp [FunctionGraph.component, h]
  | some sbom =>
    by_cases h₁ : sbom.1 = [] <;> by_cases h₂ : sbom.2 = [] <;>
      simp [FunctionGraph.component, FunctionGraph.version, Option.filter, h, h₁, h₂]

section
variable (asserts : Bool) {recorded : Bool} {sort : EdgeSort} {address : GV → Address}
  {symbols : List GV} {strings : List Bytes}

/-- The edges are those that were added, in the order of the sort. -/
theorem visitEdges_storage (hsort : ∀ n l, (sort n l).Perm l) (hroom : Room symbols)
    (haddress : ∀ gv ∈ symbols, Packable (address gv)) {f : FunctionGraph GV} (hfit : f.Fits)
    (hthis : f.function ∈ symbols) (hknown : EdgesKnown symbols f.ops) (kind : EdgeKind) :
    ∃ es : List Edge,
      es.Perm ((edges f.ops kind).map (readEdge address f.function kind.indexed)) ∧
      ∀ {τ : Type} (cb : τ → Edge → Result τ) (t : τ),
        visitEdgesInner asserts (symbols.map address) (Node.ofSymbol (address f.function))
            kind.indexed cb 0
            (FunctionWriter.edge_words kind.indexed 0 (storage sort symbols f kind)) t =
          es.foldlM cb t := by
  have hperm := hsort kind.NUM_COMPONENTS ((edges f.ops kind).map (components symbols))
  obtain ⟨es, hes, hes_perm⟩ :
      ∃ es : List (End GV × End GV × UInt32),
        storage sort symbols f kind = es.map (components symbols) ∧ es.Perm (edges f.ops kind) := by
    have hcomp := congrFun (congrFun (List.eq_map_comp_perm (components symbols))
      (storage sort symbols f kind)) (edges f.ops kind)
    exact hcomp.mpr hperm
  have hends : ∀ e ∈ es, (e.1.Known symbols ∧ e.1.Fits) ∧ e.2.1.Known symbols ∧ e.2.1.Fits := by
    intro e he
    have he := hes_perm.subset he
    obtain ⟨h₁, h₂⟩ := hknown kind e he
    obtain ⟨h₃, h₄⟩ := fits_of_mem_edges hfit he
    exact ⟨⟨h₁, h₃⟩, h₂, h₄⟩
  refine ⟨es.map (readEdge address f.function kind.indexed), hes_perm.map _, fun cb t => ?_⟩
  rw [hes]
  exact visitEdgesInner_edge_words hroom haddress hthis cb kind.indexed hends 0 t

/-- **A function is read back from its record**, and nothing else is taken. -/
theorem next_function_record (hsort : ∀ n l, (sort n l).Perm l) (hroom : Room symbols)
    (haddress : ∀ gv ∈ symbols, Packable (address gv)) (hsmall : strings.length ≤ 2 ^ 32)
    {f : FunctionGraph GV} (hvalid : f.Valid) (hknown : f.Known recorded symbols strings)
    (hcount : ∀ kind, (edges f.ops kind).length < 2 ^ 32) (header : GraphHeader)
    {gdd : GraphDebugData} {more : List UInt32}
    (hlocals : HasLocals recorded gdd strings (name_indices strings (names f.ops) ++ more))
    (words : List UInt32) :
    ∃ info gdd', next_function asserts ⟨header, record_words sort symbols strings f ++ words,
          symbols.map address, gdd⟩ = .ok (info, ⟨header, words, symbols.map address, gdd'⟩) ∧
      Reads asserts recorded address f info ∧ HasLocals recorded gdd' strings more := by
  have hplace : Dict.place symbols f.function < 2 ^ 32 := by
    have := Dict.place_lt hknown.function
    unfold Room at hroom
    omega
  have hstring : ∀ {S : Bytes}, S ∈ strings → (UInt32.ofNat (Dict.place strings S)).toNat =
      Dict.place strings S := fun hS => toNat_ofNat_lt ((Dict.place_lt hS).trans_le hsmall)
  have hallocas : f.NumAllocas ≤ UInt32.ofNat (names f.ops).length := by
    rw [UInt32.le_iff_toNat_le, toNat_ofNat_lt hvalid.num_locals]
    exact hvalid.num_allocas
  have hstorage : ∀ kind, (storage sort symbols f kind).length = (edges f.ops kind).length :=
    fun kind => by
      rw [storage, (hsort _ _).length_eq, List.length_map]
  obtain ⟨out, gdd', hnext, hout, hgdd'⟩ := hlocals.next_locals header
    (EdgeKind.all.flatMap (fun kind => UInt32.ofNat (edges f.ops kind).length ::
      FunctionWriter.edge_words kind.indexed 0 (storage sort symbols f kind)) ++ words)
    (symbols.map address) (n := UInt32.ofNat (names f.ops).length) fun _ => by
      rw [toNat_ofNat_lt hvalid.num_locals, name_indices, List.length_map]
  obtain ⟨edge_data, hedges, hdata⟩ := foldlM_next_edges header (symbols.map address) gdd'
    (fun _ => []) (fun kind => (hstorage kind).trans_lt (hcount kind)) words EdgeKind.all
  simp only [hstorage] at hedges
  refine ⟨{ function := Node.ofSymbol (address f.function)
            num_allocas := f.NumAllocas
            num_locals := UInt32.ofNat (names f.ops).length
            debug_data := out
            sbom_info := if (f.component != [] && f.version != []) = true
              then some (f.component, f.version) else none
            edge_data
            symbol_addresses := symbols.map address }, gdd', ?_, ?_, hgdd'⟩
  · simp only [next_function, record_words, List.cons_append, List.nil_append, next_word_cons,
      ok_bind, toNat_ofNat_lt hplace, symbol_address_place hknown.function, hallocas, decide_true,
      ensure_true, hnext, Node.mkSymbol_eq (haddress _ hknown.function),
      hstring hknown.component, hstring hknown.version, hout.strings.string hknown.component,
      hout.strings.string hknown.version, hedges]
    rfl
  · exact {
      function := rfl
      num_locals := toNat_ofNat_lt hvalid.num_locals
      num_allocas := rfl
      sbom_info := sbom_info_eq f
      has_locals := by
        unfold GraphDebugData.has_locals
        rw [hout.locals]
        cases recorded <;> rfl
      local_name := fun hr i hi => by
        subst hr
        exact hout.local_name hsmall (hknown.names rfl) hi
      edges := fun kind => by
        obtain ⟨es, hperm, hvisit⟩ := visitEdges_storage asserts hsort hroom haddress
          hvalid.toFits hknown.function hknown.edges kind
        refine ⟨es, hperm, fun cb t => ?_⟩
        unfold FunctionInfo.visitEdges
        simp only [hdata kind, if_pos (EdgeKind.mem_all kind)]
        exact hvisit cb t }

end

end
end Bracelet.Edges
