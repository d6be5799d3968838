import Bracelet.EdgeCodecs
import Bracelet.EdgeFrames

/-!
# The round trip of the embedded graph

Graphs that were written lie in the graph sections of an object, each with its
pointers resolved, between runs of zeros (`Laid`, `LaidOut`).  Reading the object then
gives the callback what describes the functions of the graphs, in order
(`readEdges_serialised`).
-/
namespace Bracelet.Edges

section
variable {GV : Type} [DecidableEq GV]

/-! ## Headers -/

theorem length_flatMap_wordBytes (words : List UInt32) :
    (words.flatMap wordBytes).length = 4 * words.length := by
  induction words with
  | nil => rfl
  | cons w words ih =>
    simp only [List.flatMap_cons, List.length_append, ih, wordBytes, length_leBytes,
      List.length_cons]
    omega

/-- A word is read back from its place. -/
theorem word_flatMap_wordBytes (front : List UInt32) (word : UInt32) (words : List UInt32) :
    UInt32.ofNat (ofLE ((((front ++ word :: words).flatMap wordBytes).drop
      (4 * front.length)).take 4)) = word := by
  have hfront := length_flatMap_wordBytes front
  have hword : (wordBytes word).length = 4 := length_leBytes 4 _
  rw [List.flatMap_append, List.drop_left' hfront, List.flatMap_cons, List.take_left' hword,
    wordBytes, ofLE_leBytes, Nat.mod_eq_of_lt (by have := word.toNat_lt; omega)]
  exact UInt32.ofNat_toNat

theorem GraphHeader.ofBytes_bytes {header : GraphHeader} {m₀ m₁ : UInt32}
    (h : header.magic_number = [m₀, m₁]) : ofBytes header.bytes = header := by
  obtain ⟨magic, w₂, w₃, w₄, w₅, w₆, w₇, w₈, w₉⟩ := header
  obtain rfl : magic = [m₀, m₁] := h
  have word : ∀ front word words, [m₀, m₁, w₂, w₃, w₄, w₅, w₆, w₇, w₈, w₉] =
      front ++ word :: words → UInt32.ofNat (ofLE
        (([m₀, m₁, w₂, w₃, w₄, w₅, w₆, w₇, w₈, w₉].flatMap wordBytes).drop
          (4 * front.length) |>.take 4)) = word := by
    intro front word words hsplit
    rw [hsplit]
    exact word_flatMap_wordBytes front word words
  unfold ofBytes bytes GraphHeader.words
  simp only
  congr 1
  · exact congrArg₂ (fun a b => [a, b]) (word [] _ _ rfl) (word [_] _ _ rfl)
  · exact word [_, _] _ _ rfl
  · exact word [_, _, _] _ _ rfl
  · exact word [_, _, _, _] _ _ rfl
  · exact word [_, _, _, _, _] _ _ rfl
  · exact word [_, _, _, _, _, _] _ _ rfl
  · exact word [_, _, _, _, _, _, _] _ _ rfl
  · exact word [_, _, _, _, _, _, _, _] _ _ rfl
  · exact word [_, _, _, _, _, _, _, _, _] _ _ rfl

theorem GraphHeader.length_bytes {header : GraphHeader}
    (h : header.magic_number = GRAPH_MAGIC_NUMBER) : header.bytes.length = GraphHeader.size := by
  rw [bytes, length_flatMap_wordBytes, GraphHeader.words, h]
  rfl

/-- The magic number does not start with a zero. -/
theorem find_padding (n : Nat) {rest : Bytes} (h : graph_magic_number_bytes <+: rest) :
    find graph_magic_number_bytes (List.replicate n 0 ++ rest) = some n := by
  induction n with
  | zero =>
    obtain ⟨tail, rfl⟩ := h
    have hprefix : graph_magic_number_bytes.isPrefixOf (graph_magic_number_bytes ++ tail) = true :=
      List.isPrefixOf_iff_prefix.mpr (List.prefix_append _ _)
    rw [List.replicate_zero, List.nil_append]
    cases hrest : graph_magic_number_bytes ++ tail with
    | nil => simp [find, ← hrest, hprefix]
    | cons b bytes => rw [find, if_pos (by rw [← hrest]; exact hprefix)]
  | succ n ih =>
    have hne : graph_magic_number_bytes.isPrefixOf (0 :: (List.replicate n 0 ++ rest)) = false := rfl
    rw [List.replicate_succ, List.cons_append, find, hne, ih]
    rfl

theorem find_zeros (n : Nat) : find graph_magic_number_bytes (List.replicate n 0) = none := by
  induction n with
  | zero => rfl
  | succ n ih =>
    have hne : graph_magic_number_bytes.isPrefixOf (0 :: List.replicate n 0) = false := rfl
    rw [List.replicate_succ, find, hne, ih]
    rfl

theorem GraphHeader.magic_first {header : GraphHeader}
    (h : header.magic_number = GRAPH_MAGIC_NUMBER) : graph_magic_number_bytes <+: header.bytes := by
  rw [bytes, GraphHeader.words, h, List.flatMap_append]
  exact List.prefix_append _ _

/-! ## Debug data -/

variable {asserts : Bool} {Z : Zstd} {V : StreamVByte} {sort : EdgeSort}

/-- The lengths of a graph fit its header. -/
structure Sized (gw : GraphWriter GV) (image : GraphImage GV) : Prop where
  symbols : Room gw.symbols_in_order
  string_blob : gw.StringBlob.length < 2 ^ 32
  local_names : gw.local_names.length < 2 ^ 32
  function_array : gw.function_data.length < 2 ^ 32
  function_data : image.function_data.length < 2 ^ 32
  debug_data : image.debug_data.length < 2 ^ 32

omit [DecidableEq GV] in
theorem writeTo_ok {gw : GraphWriter GV} {image : GraphImage GV}
    (h : gw.writeTo asserts Z V = .ok image) :
    image.debug_data = Z.compress (gw.StringBlob ++ V.delta_encode gw.local_names 0) ∧
      image.symbols = gw.symbols_in_order ∧
      image.function_data = Z.compress (V.encode gw.function_data) ∧
      image.header = {
        magic_number := GRAPH_MAGIC_NUMBER
        function_data_compressed_size := UInt32.ofNat image.function_data.length
        debug_data_compressed_size := UInt32.ofNat image.debug_data.length
        num_symbols := UInt32.ofNat gw.Symbols.length
        string_blob_length := UInt32.ofNat gw.StringBlob.length
        has_debug_locals := if gw.record_debug_data then 1 else 0
        total_num_locals := UInt32.ofNat gw.local_names.length
        num_functions := gw.num_functions
        function_array_length := UInt32.ofNat gw.function_data.length } := by
  unfold GraphWriter.writeTo at h
  obtain ⟨_, -, h⟩ := bind_ok h
  obtain ⟨_, -, h⟩ := bind_ok h
  obtain ⟨a, ha, h⟩ := bind_ok h
  obtain ⟨b, hb, h⟩ := bind_ok h
  obtain ⟨c, hc, h⟩ := bind_ok h
  obtain ⟨d, hd, h⟩ := bind_ok h
  obtain ⟨e, he, h⟩ := bind_ok h
  obtain ⟨f, hf, h⟩ := bind_ok h
  obtain rfl := Except.ok.inj h
  rw [as_u32_ok ha, as_u32_ok hb, as_u32_ok hc, as_u32_ok hd, as_u32_ok he, as_u32_ok hf]
  exact ⟨rfl, rfl, rfl, rfl⟩

/-- A buffer with room for padding, filled. -/
theorem overwrite_resize (buffer data : Bytes) :
    ∃ padding, overwrite (resize buffer (data.length + STREAMVBYTE_PADDING)) data =
      data ++ padding ∧ padding.length = STREAMVBYTE_PADDING := by
  refine ⟨_, rfl, ?_⟩
  unfold resize
  simp only [List.length_drop, List.length_append, List.length_take, List.length_replicate]
  omega

theorem length_resize (buffer : Bytes) (n : Nat) : (resize buffer n).length = n := by
  unfold resize
  simp only [List.length_append, List.length_take, List.length_replicate]
  omega

theorem length_le_blob (strings : List Bytes) :
    strings.length ≤ (strings.flatMap (· ++ [0])).length := by
  induction strings with
  | nil => exact Nat.le_refl 0
  | cons S strings ih =>
    simp only [List.length_cons, List.flatMap_cons, List.length_append]
    omega

theorem getLast?_blob {strings : List Bytes} (h : strings.flatMap (· ++ [0]) ≠ []) :
    (strings.flatMap (· ++ [0])).getLast? = some 0 := by
  induction strings using List.reverseRecOn with
  | nil => simp at h
  | append_singleton strings S _ => simp

/-- **The tables are read back from the debug data.** -/
theorem parse_debug_data_written (hZ : Z.Lossless) (hV : V.Lossless) {gw : GraphWriter GV}
    {strings : List Bytes} (ht : Tables gw strings) {image : GraphImage GV}
    (himage : gw.writeTo asserts Z V = .ok image) (hsized : Sized gw image) {target : Object}
    {address : Address} (haddress : address ≠ 0)
    (hcopy : target.copyData image.debug_data.length address = .ok image.debug_data)
    (buffer : Bytes) :
    ∃ gdd buffer', parse_debug_data asserts Z V target buffer image.header address =
        .ok (gdd, buffer') ∧ HasLocals gw.record_debug_data gdd strings gw.local_names := by
  obtain ⟨hdebug, -, -, hheader⟩ := writeTo_ok himage
  have hne : (address != 0) = true := by simpa using haddress
  have hsize := toNat_ofNat_lt hsized.debug_data
  have hblob := toNat_ofNat_lt hsized.string_blob
  have hlocals := toNat_ofNat_lt hsized.local_names
  obtain ⟨padding, hfull, hpadding⟩ :=
    overwrite_resize buffer (gw.StringBlob ++ V.delta_encode gw.local_names 0)
  have hle : gw.StringBlob.length ≤
      (gw.StringBlob ++ V.delta_encode gw.local_names 0 ++ padding).length := by
    simp only [List.length_append]
    omega
  have htake : (gw.StringBlob ++ V.delta_encode gw.local_names 0 ++ padding).take
      gw.StringBlob.length = gw.StringBlob := by rw [List.append_assoc, List.take_left]
  have hdrop : (gw.StringBlob ++ V.delta_encode gw.local_names 0 ++ padding).drop
      gw.StringBlob.length = V.delta_encode gw.local_names 0 ++ padding := by
    rw [List.append_assoc, List.drop_left]
  have hencoded : ((V.delta_encode gw.local_names 0 ++ padding).length + 2 ^ 64 -
      STREAMVBYTE_PADDING) % 2 ^ 64 = (V.delta_encode gw.local_names 0).length := by
    have := hV.delta_length gw.local_names 0
    have := hsized.local_names
    rw [List.length_append, hpadding]
    omega
  have hoffsets : string_offsets_from gw.StringBlob (gw.StringBlob.length + 1) 0 =
      .ok (offsets 0 strings) := by
    have hfuel := length_le_blob strings
    rw [ht.blob]
    exact string_offsets_from_strings [] ht.nul_free (Nat.lt_succ_of_le hfuel)
  have hlast : (gw.StringBlob != []) = true → (gw.StringBlob.getLast? == some 0) = true := by
    intro hb
    rw [ht.blob] at hb ⊢
    rw [getLast?_blob (by simpa using hb)]
    rfl
  have hstrings : ∀ locals, HasStrings ⟨gw.StringBlob, locals, offsets 0 strings⟩ strings :=
    fun _ => ⟨ht.blob, rfl, ht.nul_free⟩
  refine ⟨⟨gw.StringBlob, if gw.record_debug_data then some gw.local_names else none,
    offsets 0 strings⟩, gw.StringBlob ++ V.delta_encode gw.local_names 0 ++ padding, ?_,
    ⟨hstrings _, rfl⟩⟩
  unfold parse_debug_data
  rw [hheader]
  rw [hdebug] at hcopy hsize ⊢
  simp only [hne, assert_true, ok_bind, hsize, hcopy, tryContext_ok, hZ.size, length_resize]
  rw [hZ.decompress _ _ (Nat.le_add_right _ _)]
  simp only [beq_self_eq_true, assert_true, ok_bind, hfull, hblob, hlocals, hle, decide_true,
    ensure_true, htake, hdrop, hencoded, hV.delta_validate, hV.delta_decode, hoffsets]
  have hrest : ∀ string_indices_ref : Option (List UInt32),
      (if (gw.StringBlob != []) = true then do
        ensure (gw.StringBlob.getLast? == some 0) "string_blob doesn't end with '"
        return (GraphDebugData.mk gw.StringBlob string_indices_ref (offsets 0 strings),
          gw.StringBlob ++ V.delta_encode gw.local_names 0 ++ padding)
      else return (GraphDebugData.mk gw.StringBlob string_indices_ref (offsets 0 strings),
          gw.StringBlob ++ V.delta_encode gw.local_names 0 ++ padding) : Result _) =
      .ok (GraphDebugData.mk gw.StringBlob string_indices_ref (offsets 0 strings),
          gw.StringBlob ++ V.delta_encode gw.local_names 0 ++ padding) := by
    intro string_indices_ref
    split
    · rw [hlast (by assumption)]
      rfl
    · rfl
  cases gw.record_debug_data
  · exact hrest none
  · exact hrest (some gw.local_names)

/-! ## The functions of a graph -/

theorem length_edges_le (sort : EdgeSort) (hsort : ∀ n l, (sort n l).Perm l) (symbols : List GV)
    (strings : List Bytes) (f : FunctionGraph GV) (kind : EdgeKind) :
    (edges f.ops kind).length < (record_words sort symbols strings f).length := by
  have hmem : ∀ kinds : List EdgeKind, kind ∈ kinds → (edges f.ops kind).length <
      (kinds.flatMap fun kind => UInt32.ofNat (edges f.ops kind).length ::
        FunctionWriter.edge_words kind.indexed 0 (storage sort symbols f kind)).length := by
    intro kinds hkind
    have hlen : (storage sort symbols f kind).length = (edges f.ops kind).length := by
      rw [storage, (hsort _ _).length_eq, List.length_map]
    obtain ⟨front, back, rfl⟩ := List.append_of_mem hkind
    simp only [List.flatMap_append, List.flatMap_cons, List.length_append, List.length_cons,
      length_edge_words, hlen]
    split <;> omega
  have := hmem EdgeKind.all (EdgeKind.mem_all kind)
  unfold record_words
  rw [List.length_append]
  omega

theorem length_le_records (sort : EdgeSort) (symbols : List GV) (strings : List Bytes)
    (fs : List (FunctionGraph GV)) :
    fs.length ≤ (fs.flatMap (record_words sort symbols strings)).length := by
  induction fs with
  | nil => exact Nat.le_refl 0
  | cons f fs ih =>
    simp only [List.flatMap_cons, List.length_append, List.length_cons, record_words]
    omega

section
variable {recorded : Bool} {address : GV → Address} {symbols : List GV} {strings : List Bytes}

/-- The functions of a graph are passed on one by one. -/
theorem readFunctions_records (hsort : ∀ n l, (sort n l).Perm l) (hroom : Room symbols)
    (haddress : ∀ gv ∈ symbols, Packable (address gv)) (hsmall : strings.length ≤ 2 ^ 32)
    {fs : List (FunctionGraph GV)} (hvalid : ∀ f ∈ fs, f.Valid)
    (hknown : ∀ f ∈ fs, f.Known recorded symbols strings)
    (hcount : (fs.flatMap (record_words sort symbols strings)).length < 2 ^ 32)
    (header : GraphHeader) {gdd : GraphDebugData} (hlocals : HasLocals recorded gdd strings
      (fs.flatMap fun f => name_indices strings (names f.ops))) :
    ∃ infos, List.Forall₂ (Reads asserts recorded address) fs infos ∧
      ∀ {σ : Type} (callback : σ → FunctionInfo → Result σ) (s : σ),
        readFunctions asserts callback fs.length ⟨header,
            fs.flatMap (record_words sort symbols strings), symbols.map address, gdd⟩ s =
          infos.foldlM callback s := by
  induction fs generalizing gdd with
  | nil => exact ⟨[], .nil, fun callback s => rfl⟩
  | cons f fs ih =>
    rw [List.flatMap_cons, List.length_append] at hcount
    rw [List.flatMap_cons] at hlocals
    obtain ⟨info, gdd', hnext, hreads, hlocals'⟩ := next_function_record asserts hsort
      hroom haddress hsmall (hvalid f List.mem_cons_self) (hknown f List.mem_cons_self)
      (fun kind => (length_edges_le sort hsort symbols strings f kind).trans (by omega)) header
      hlocals (fs.flatMap (record_words sort symbols strings))
    obtain ⟨infos, hinfos, hrun⟩ := ih (fun g hg => hvalid g (List.mem_cons_of_mem f hg))
      (fun g hg => hknown g (List.mem_cons_of_mem f hg)) (by omega) hlocals'
    refine ⟨info :: infos, .cons hreads hinfos, fun callback s => ?_⟩
    rw [List.length_cons, readFunctions, List.flatMap_cons, hnext, ok_bind, List.foldlM_cons]
    exact bind_congr fun s => hrun callback s

end

/-! ## A graph in a section -/

/-- **Where a graph lies**: its pointers resolve to its debug data and its symbols. -/
structure Placed (target : Object) (address : GV → Address) (section_start : Address)
    (offset : Nat) (image : GraphImage GV) (debug_pointer symbol_pointers : Bytes) : Prop where
  debug_pointer : debug_pointer.length = target.pointerSize
  symbol_pointers : symbol_pointers.length = image.symbols.length * target.pointerSize
  debug_data : ∃ debug_data_address, debug_data_address ≠ 0 ∧
    target.resolvePointers 1 (section_start + UInt64.ofNat (offset + GraphHeader.size)) =
      .ok [debug_data_address] ∧
    target.copyData image.debug_data.length debug_data_address = .ok image.debug_data
  symbols : target.resolvePointers image.symbols.length (section_start +
    UInt64.ofNat (offset + GraphHeader.size + target.pointerSize)) =
      .ok (image.symbols.map address)

/-- The bytes of a graph. -/
def graph_bytes (image : GraphImage GV) (debug_pointer symbol_pointers : Bytes) : Bytes :=
  image.header.bytes ++ (debug_pointer ++ (symbol_pointers ++ image.function_data))

theorem consumeBytes_eq {full front bytes rest : Bytes} {section_start : Address} {cursor n : Nat}
    (hfull : full = front ++ (bytes ++ rest)) (hcursor : cursor = front.length)
    (hn : n = bytes.length) (what : String) :
    Cursor.consumeBytes ⟨full, section_start, cursor⟩ n what =
      .ok (bytes, ⟨full, section_start, cursor + n⟩) := by
  subst hfull hcursor hn
  have hle : front.length + bytes.length ≤ (front ++ (bytes ++ rest)).length := by
    simp only [List.length_append]
    omega
  unfold Cursor.consumeBytes
  simp only [hle, decide_true, ensure_true, ok_bind, List.drop_left, List.take_left]
  rfl

theorem consumeAddresses_eq {target : Object} {full front bytes rest : Bytes}
    {section_start : Address} {cursor count : Nat} (hfull : full = front ++ (bytes ++ rest))
    (hcursor : cursor = front.length) (hn : count * target.pointerSize = bytes.length)
    {addresses : List Address} (hresolve : target.resolvePointers count
      (section_start + UInt64.ofNat cursor) = .ok addresses) (what : String) :
    Cursor.consumeAddresses target ⟨full, section_start, cursor⟩ count what =
      .ok (addresses, ⟨full, section_start, cursor + bytes.length⟩) := by
  unfold Cursor.consumeAddresses
  rw [consumeBytes_eq hfull hcursor hn, hn]
  simp only [ok_bind, hresolve, tryContext_ok]
  rfl

theorem Tables.length_symbols {gw : GraphWriter GV} {strings : List Bytes} (h : Tables gw strings) :
    gw.Symbols.length = gw.symbols_in_order.length := h.symbols.length

/-- **A graph is read back**, and the cursor is left after it. -/
theorem consumeOneGraph_written (hZ : Z.Lossless) (hV : V.Lossless) {gw : GraphWriter GV}
    {strings : List Bytes} (ht : Tables gw strings) {image : GraphImage GV}
    (himage : gw.writeTo asserts Z V = .ok image) (hsized : Sized gw image) {target : Object}
    {address : GV → Address} {front rest debug_pointer symbol_pointers : Bytes} {c : Cursor}
    (hfull : c.full_section_data =
      front ++ (graph_bytes image debug_pointer symbol_pointers ++ rest))
    (hcursor : c.section_data_cursor = front.length)
    (hplaced : Placed target address c.section_start front.length image debug_pointer
      symbol_pointers) (decoder : FrameDecoder) :
    ∃ gdd decoder', consumeOneGraph asserts Z V target decoder c =
        .ok (⟨image.header, gw.function_data, gw.symbols_in_order.map address, gdd⟩, decoder',
          { c with section_data_cursor :=
              front.length + (graph_bytes image debug_pointer symbol_pointers).length }) ∧
      HasLocals gw.record_debug_data gdd strings gw.local_names := by
  obtain ⟨full_section_data, section_start, section_data_cursor⟩ := c
  obtain ⟨-, himage_symbols, hdata, hheader⟩ := writeTo_ok himage
  obtain ⟨debug_data_address, hne, hdebug_pointer, hcopy⟩ := hplaced.debug_data
  have hmagic : image.header.magic_number = GRAPH_MAGIC_NUMBER := by rw [hheader]
  have hheader_len := GraphHeader.length_bytes hmagic
  have hsymbols : image.header.num_symbols.toNat = image.symbols.length := by
    rw [hheader, himage_symbols, ht.length_symbols]
    exact toNat_ofNat_lt (by have := hsized.symbols; unfold Room at this; omega)
  have hdata_len : image.header.function_data_compressed_size.toNat =
      image.function_data.length := by
    rw [hheader]
    exact toNat_ofNat_lt hsized.function_data
  have harray : image.header.function_array_length.toNat = gw.function_data.length := by
    rw [hheader]
    exact toNat_ofNat_lt hsized.function_array
  have hsegments : full_section_data = front ++ (image.header.bytes ++
      (debug_pointer ++ (symbol_pointers ++ (image.function_data ++ rest)))) := by
    simpa [graph_bytes] using hfull
  have hlen₁ : front.length + GraphHeader.size = (front ++ image.header.bytes).length := by
    rw [List.length_append, hheader_len]
  have hlen₂ : front.length + GraphHeader.size + debug_pointer.length =
      (front ++ image.header.bytes ++ debug_pointer).length := by
    rw [List.length_append, hlen₁]
  have hlen₃ : front.length + GraphHeader.size + debug_pointer.length + symbol_pointers.length =
      (front ++ image.header.bytes ++ debug_pointer ++ symbol_pointers).length := by
    rw [List.length_append, hlen₂]
  have hbytes : ∀ what, Cursor.consumeBytes ⟨full_section_data, section_start, front.length⟩
      GraphHeader.size what = .ok (image.header.bytes,
        ⟨full_section_data, section_start, front.length + GraphHeader.size⟩) :=
    consumeBytes_eq hsegments rfl hheader_len.symm
  have hdebug : ∀ what, Cursor.consumeAddresses target
      ⟨full_section_data, section_start, front.length + GraphHeader.size⟩ 1 what =
      .ok ([debug_data_address], ⟨full_section_data, section_start,
        front.length + GraphHeader.size + debug_pointer.length⟩) :=
    consumeAddresses_eq (by rw [hsegments, List.append_assoc]) hlen₁
      (by rw [hplaced.debug_pointer, one_mul]) hdebug_pointer
  have haddresses : ∀ what, Cursor.consumeAddresses target ⟨full_section_data, section_start,
      front.length + GraphHeader.size + debug_pointer.length⟩ image.symbols.length what =
      .ok (image.symbols.map address, ⟨full_section_data, section_start,
        front.length + GraphHeader.size + debug_pointer.length + symbol_pointers.length⟩) :=
    consumeAddresses_eq (by rw [hsegments, List.append_assoc, List.append_assoc]) hlen₂
      hplaced.symbol_pointers.symm (by rw [hplaced.debug_pointer]; exact hplaced.symbols)
  have hfunction_data : ∀ what, Cursor.consumeBytes ⟨full_section_data, section_start,
      front.length + GraphHeader.size + debug_pointer.length + symbol_pointers.length⟩
      image.function_data.length what = .ok (image.function_data, ⟨full_section_data,
        section_start, front.length + GraphHeader.size + debug_pointer.length +
          symbol_pointers.length + image.function_data.length⟩) :=
    consumeBytes_eq (by rw [hsegments, List.append_assoc, List.append_assoc, List.append_assoc])
      hlen₃ rfl
  obtain ⟨padding, hfilled, -⟩ :=
    overwrite_resize decoder.function_data_decompressed (V.encode gw.function_data)
  obtain ⟨gdd, buffer, hparse, hlocals⟩ := parse_debug_data_written hZ hV ht himage hsized hne hcopy
    decoder.decompressed_debug_data
  have hend : front.length + GraphHeader.size + debug_pointer.length + symbol_pointers.length +
      image.function_data.length =
        front.length + (graph_bytes image debug_pointer symbol_pointers).length := by
    simp only [graph_bytes, List.length_append, hheader_len]
    omega
  refine ⟨gdd, ⟨V.encode gw.function_data ++ padding, buffer⟩, ?_, hlocals⟩
  obtain rfl : section_data_cursor = front.length := hcursor
  unfold consumeOneGraph
  simp only [hbytes, ok_bind, GraphHeader.ofBytes_bytes hmagic, hmagic, beq_self_eq_true,
    assert_true, hdebug, hsymbols, haddresses, hdata_len, hfunction_data, List.headD_cons]
  rw [hdata, hZ.size]
  simp only [hZ.decompress _ _ (Nat.le_refl _), beq_self_eq_true, assert_true, ok_bind, hfilled,
    harray, hV.validate, ensure_true, hV.decode, hparse]
  rw [hdata] at hend
  rw [himage_symbols, hend]
  rfl

/-- **A graph that was written**, in an object with these addresses. -/
structure Serialised (asserts : Bool) (Z : Zstd) (V : StreamVByte) (sort : EdgeSort)
    (address : GV → Address) (g : Graph GV) (image : GraphImage GV) : Prop where
  valid : ∀ f ∈ g.functions, f.Valid
  written : ∃ gw, serialise asserts Z V sort g = .ok (gw, image) ∧ Sized gw image
  packable : ∀ gv ∈ image.symbols, Packable (address gv)

/-- What describes the functions of a graph. -/
def ReadsGraph (asserts : Bool) (address : GV → Address) (g : Graph GV)
    (infos : List FunctionInfo) : Prop :=
  List.Forall₂ (Reads asserts g.record_debug_data address) g.functions infos

section
variable {address : GV → Address}

/-- The callback is given the functions of a graph. -/
theorem consumeOneGraph_serialised (hZ : Z.Lossless) (hV : V.Lossless)
    (hsort : ∀ n l, (sort n l).Perm l) {g : Graph GV} {image : GraphImage GV}
    (h : Serialised asserts Z V sort address g image) {target : Object}
    {front rest debug_pointer symbol_pointers : Bytes} {c : Cursor}
    (hfull : c.full_section_data =
      front ++ (graph_bytes image debug_pointer symbol_pointers ++ rest))
    (hcursor : c.section_data_cursor = front.length)
    (hplaced : Placed target address c.section_start front.length image debug_pointer
      symbol_pointers) (decoder : FrameDecoder) :
    ∃ frame decoder' infos, consumeOneGraph asserts Z V target decoder c =
        .ok (frame, decoder', { c with section_data_cursor :=
          front.length + (graph_bytes image debug_pointer symbol_pointers).length }) ∧
      ReadsGraph asserts address g infos ∧
      ∀ {σ : Type} (callback : σ → FunctionInfo → Result σ) (s : σ),
        readFrame asserts callback s frame = infos.foldlM callback s := by
  obtain ⟨gw, hserialise, hsized⟩ := h.written
  obtain ⟨gw', hfunctions, hserialise⟩ := bind_ok hserialise
  obtain ⟨image', himage, hserialise⟩ := bind_ok hserialise
  obtain ⟨rfl, rfl⟩ := Prod.mk.inj (Except.ok.inj hserialise)
  obtain ⟨strings, hwritten⟩ := writeFunctions_written (fun f hf => (h.valid f hf).toFits) hfunctions
  obtain ⟨gdd, decoder', hconsume, hlocals⟩ := consumeOneGraph_written hZ hV hwritten.tables himage
    hsized hfull hcursor hplaced decoder
  obtain ⟨-, hsymbols, -, hheader⟩ := writeTo_ok himage
  have hsmall : strings.length ≤ 2 ^ 32 := by
    have hle := length_le_blob strings
    rw [← hwritten.tables.blob] at hle
    exact hle.trans hsized.string_blob.le
  have hdata := hwritten.function_data hsized.symbols
  have hcount := hsized.function_array
  rw [hdata] at hcount
  have hlocals' : HasLocals g.record_debug_data gdd strings
      (g.functions.flatMap fun f => name_indices strings (names f.ops)) := by
    rw [hwritten.record] at hlocals
    refine ⟨hlocals.strings, ?_⟩
    rw [hlocals.locals, hwritten.local_names]
    cases g.record_debug_data <;> rfl
  obtain ⟨infos, hinfos, hrun⟩ := readFunctions_records hsort hsized.symbols
    (hsymbols ▸ h.packable) hsmall h.valid hwritten.known hcount image'.header hlocals'
  have hnum : image'.header.num_functions.toNat = g.functions.length := by
    rw [hheader, hwritten.num_functions]
    exact toNat_ofNat_lt
      ((length_le_records sort gw'.symbols_in_order strings g.functions).trans_lt hcount)
  refine ⟨_, decoder', infos, hconsume, hinfos, fun callback s => ?_⟩
  unfold readFrame
  rw [hnum, hdata]
  exact hrun callback s

/-! ## Sections -/

/-- **A section** from an offset on: graphs with runs of zeros between them. -/
inductive Laid (target : Object) (address : GV → Address) (section_start : Address) :
    Nat → List (GraphImage GV) → Bytes → Prop
  | padding (offset n : Nat) : Laid target address section_start offset [] (List.replicate n 0)
  | graph {offset n : Nat} {image : GraphImage GV} {images : List (GraphImage GV)}
      {debug_pointer symbol_pointers bytes : Bytes}
      (hplaced : Placed target address section_start (offset + n) image debug_pointer
        symbol_pointers)
      (hrest : Laid target address section_start
        (offset + n + (graph_bytes image debug_pointer symbol_pointers).length) images bytes) :
      Laid target address section_start offset (image :: images)
        (List.replicate n 0 ++ (graph_bytes image debug_pointer symbol_pointers ++ bytes))

/-- **The sections of an object**, some of which hold graphs. -/
inductive LaidOut (target : Object) (address : GV → Address) :
    List Section → List (GraphImage GV) → Prop
  | nil : LaidOut target address [] []
  | other {sec : Section} {sections : List Section} {images : List (GraphImage GV)}
      (hname : sec.name ≠ graph_section_name target.isApple)
      (hrest : LaidOut target address sections images) :
      LaidOut target address (sec :: sections) images
  | graphs {sec : Section} {sections : List Section} {images images' : List (GraphImage GV)}
      {bytes : Bytes} (hname : sec.name = graph_section_name target.isApple)
      (hcopy : target.copyData sec.size sec.start = .ok bytes)
      (hlaid : Laid target address sec.start 0 images bytes)
      (hrest : LaidOut target address sections images') :
      LaidOut target address (sec :: sections) (images ++ images')

/-- A graph starts with the magic number. -/
theorem Serialised.magic_first {g : Graph GV} {image : GraphImage GV}
    (h : Serialised asserts Z V sort address g image) (debug_pointer symbol_pointers : Bytes) :
    graph_magic_number_bytes <+: graph_bytes image debug_pointer symbol_pointers := by
  obtain ⟨gw, hserialise, -⟩ := h.written
  obtain ⟨gw', -, hserialise⟩ := bind_ok hserialise
  obtain ⟨image', himage, hserialise⟩ := bind_ok hserialise
  obtain ⟨rfl, rfl⟩ := Prod.mk.inj (Except.ok.inj hserialise)
  obtain ⟨-, -, -, hheader⟩ := writeTo_ok himage
  have hmagic : image'.header.magic_number = GRAPH_MAGIC_NUMBER := by rw [hheader]
  exact (GraphHeader.magic_first hmagic).trans (List.prefix_append _ _)

/-- The loop over a section. -/
theorem runOnSection_loop_laid (hZ : Z.Lossless) (hV : V.Lossless)
    (hsort : ∀ n l, (sort n l).Perm l) {target : Object} {section_start : Address} {offset : Nat}
    {images : List (GraphImage GV)} {bytes : Bytes}
    (hlaid : Laid target address section_start offset images bytes) {graphs : List (Graph GV)}
    (hgraphs : List.Forall₂ (Serialised asserts Z V sort address) graphs images) {front : Bytes}
    (hfront : front.length = offset) (decoder : FrameDecoder) :
    ∃ infoss decoder', List.Forall₂ (ReadsGraph asserts address) graphs infoss ∧
      ∀ {σ : Type} (callback : σ → FunctionInfo → Result σ) (s : σ) (fuel : Nat),
        bytes.length < fuel →
        runOnSection_loop asserts Z V target (readFrame asserts callback) fuel decoder
            ⟨front ++ bytes, section_start, front.length⟩ s =
          (do
            let s ← infoss.flatten.foldlM callback s
            return (decoder', s)) := by
  induction hlaid generalizing graphs front decoder with
  | padding offset n =>
    cases hgraphs
    refine ⟨[], decoder, .nil, fun callback s fuel hfuel => ?_⟩
    obtain ⟨fuel, rfl⟩ := Nat.exists_eq_succ_of_ne_zero (Nat.ne_zero_of_lt hfuel)
    unfold runOnSection_loop
    simp only [List.drop_left, find_zeros]
    split <;> rfl
  | @graph offset n image images debug_pointer symbol_pointers bytes hplaced hrest ih =>
    obtain _ | @⟨g, _, graphs, _, hg, hgs⟩ := hgraphs
    have hmagic := hg.magic_first debug_pointer symbol_pointers
    have hlen : 8 ≤ (graph_bytes image debug_pointer symbol_pointers).length := hmagic.length_le
    have hfound := find_padding n (hmagic.trans (List.prefix_append _ bytes))
    have hskip : (front ++ List.replicate n 0).length = front.length + n := by simp
    obtain ⟨frame, decoder₁, infos, hconsume, hinfos, hread⟩ := consumeOneGraph_serialised
      (c := ⟨front ++ (List.replicate n 0 ++ (graph_bytes image debug_pointer symbol_pointers ++
        bytes)), section_start, front.length + n⟩) hZ hV hsort hg (List.append_assoc _ _ _).symm
      hskip.symm (by rw [hskip, hfront]; exact hplaced) decoder
    have hfront' : (front ++ List.replicate n 0 ++
        graph_bytes image debug_pointer symbol_pointers).length =
        offset + n + (graph_bytes image debug_pointer symbol_pointers).length := by
      rw [List.length_append, hskip, hfront]
    obtain ⟨infoss, decoder', hinfoss, hrun⟩ := ih hgs hfront' decoder₁
    refine ⟨infos :: infoss, decoder', .cons hinfos hinfoss, fun callback s fuel hfuel => ?_⟩
    obtain ⟨fuel, rfl⟩ := Nat.exists_eq_succ_of_ne_zero (Nat.ne_zero_of_lt hfuel)
    simp only [List.length_append, List.length_replicate] at hfuel
    have hlt : front.length < (front ++ (List.replicate n 0 ++
        (graph_bytes image debug_pointer symbol_pointers ++ bytes))).length := by
      simp only [List.length_append]
      omega
    have hnext := fun s => hrun callback s fuel (by omega)
    rw [List.length_append, hskip, List.append_assoc, List.append_assoc] at hnext
    unfold runOnSection_loop
    simp only [if_pos hlt, List.drop_left, hfound, hconsume, ok_bind, hread, hskip, hnext,
      List.flatten_cons, List.foldlM_append, bind_assoc]

/-- The loop over the sections. -/
theorem foldlM_readSection (hZ : Z.Lossless) (hV : V.Lossless) (hsort : ∀ n l, (sort n l).Perm l)
    {target : Object} {sections : List Section} {images : List (GraphImage GV)}
    (hlaid : LaidOut target address sections images) {graphs : List (Graph GV)}
    (hgraphs : List.Forall₂ (Serialised asserts Z V sort address) graphs images)
    (decoder : FrameDecoder) :
    ∃ infoss decoder', List.Forall₂ (ReadsGraph asserts address) graphs infoss ∧
      ∀ {σ : Type} (callback : σ → FunctionInfo → Result σ) (s : σ),
        sections.foldlM (readSection asserts Z V target callback) (decoder, s) =
          (do
            let s ← infoss.flatten.foldlM callback s
            return (decoder', s)) := by
  induction hlaid generalizing graphs decoder with
  | nil =>
    cases hgraphs
    exact ⟨[], decoder, .nil, fun callback s => rfl⟩
  | @other sec sections images hname hrest ih =>
    obtain ⟨infoss, decoder', hinfoss, hrun⟩ := ih hgraphs decoder
    refine ⟨infoss, decoder', hinfoss, fun callback s => ?_⟩
    have hstep : readSection asserts Z V target callback (decoder, s) sec = .ok (decoder, s) := by
      simp [readSection, hname]
    rw [List.foldlM_cons, hstep, ok_bind, hrun]
  | @graphs sec sections images images' bytes hname hcopy hlaid hrest ih =>
    have hhere := List.forall₂_take_append _ _ _ hgraphs
    have hthere := List.forall₂_drop_append _ _ _ hgraphs
    obtain ⟨infoss, decoder₁, hinfoss, hloop⟩ := runOnSection_loop_laid hZ hV hsort hlaid hhere
      List.length_nil decoder
    obtain ⟨infoss', decoder', hinfoss', hrun⟩ := ih hthere decoder₁
    refine ⟨infoss ++ infoss', decoder', ?_, fun callback s => ?_⟩
    · rw [← List.take_append_drop images.length graphs]
      exact List.rel_append hinfoss hinfoss'
    · have hstep : readSection asserts Z V target callback (decoder, s) sec =
          (do
            let s ← infoss.flatten.foldlM callback s
            return (decoder₁, s)) := by
        rw [← hloop callback s (bytes.length + 1) (Nat.lt_succ_self _)]
        simp [readSection, runOnSection, hname, hcopy]
      rw [List.foldlM_cons, hstep, List.flatten_append, List.foldlM_append, bind_assoc, bind_assoc]
      exact bind_congr fun s => hrun callback s

/-- **The embedded graph is read back**: for each function of each graph, in order, the
callback is given what describes it. -/
theorem readEdges_serialised (hZ : Z.Lossless) (hV : V.Lossless)
    (hsort : ∀ n l, (sort n l).Perm l) {target : Object} {graphs : List (Graph GV)}
    {images : List (GraphImage GV)}
    (hgraphs : List.Forall₂ (Serialised asserts Z V sort address) graphs images)
    (hlaid : LaidOut target address target.sections images) :
    ∃ infoss, List.Forall₂ (ReadsGraph asserts address) graphs infoss ∧
      ∀ {σ : Type} (callback : σ → FunctionInfo → Result σ) (s : σ),
        readEdges asserts Z V target callback s = infoss.flatten.foldlM callback s := by
  obtain ⟨infoss, decoder', hinfoss, hrun⟩ := foldlM_readSection hZ hV hsort hlaid hgraphs {}
  refine ⟨infoss, hinfoss, fun callback s => ?_⟩
  unfold readEdges
  rw [hrun, bind_assoc]
  exact bind_pure _

end

end

/-! ## A graph with one function -/

def sampleSort : EdgeSort := fun _ => List.insertionSort fun x y => ¬(y.1 < x.1 ∧ y.2.1 < x.2.1)

def sampleGraph : Graph Nat where
  record_debug_data := true
  functions := [{
    function := 0
    sbom := some ([0x7a], [0x31])
    ops := [.freshLocal [0x70], .addEdge .Assign (.loc 0) (.sym 0) 0,
      .addEdge .Call (.loc 0) (.sym 1) 1]
    NumAllocas := 1 }]

def sampleWriter : GraphWriter Nat where
  StringBlobIndices := [([0x7a], 0), ([0x31], 1), ([0x70], 2)]
  StringBlob := [0x7a, 0, 0x31, 0, 0x70, 0]
  Symbols := [(0, 0), (1, 1)]
  symbols_in_order := [0, 1]
  local_names := [2]
  function_data := [0, 0, 1, 1, 1, 1, 0, 2, 0, 0, 1, 0, 6, 1, 0, 0, 0, 0]
  record_debug_data := true
  num_functions := 1

def sampleImage : GraphImage Nat where
  header := {
    magic_number := GRAPH_MAGIC_NUMBER
    function_data_compressed_size := 32
    debug_data_compressed_size := 17
    num_symbols := 2
    string_blob_length := 6
    has_debug_locals := 1
    total_num_locals := 1
    num_functions := 1
    function_array_length := 18 }
  debug_data := [40, 181, 47, 253, 32, 8, 65, 0, 0, 122, 0, 49, 0, 112, 0, 0, 2]
  symbols := [0, 1]
  function_data := [40, 181, 47, 253, 32, 23, 185, 0, 0, 0, 0, 0, 0, 0, 0, 0, 1, 1, 1, 1, 0, 2, 0, 0,
    1, 0, 6, 1, 0, 0, 0, 0]

def sampleAddress (gv : Nat) : Address := if gv = 0 then 0x4000 else 0x5000

def sampleSection : Bytes :=
  List.replicate 8 0 ++ (graph_bytes sampleImage (List.replicate 8 0xff) (List.replicate 16 0xff) ++
    List.replicate 4 0)

def sampleObject : Object where
  isApple := false
  sections := [⟨".text", 0x100, 16⟩, ⟨"GR_graph_edges", 0x1000, sampleSection.length⟩]
  copyData _ address := .ok (if address = 0x1000 then sampleSection else sampleImage.debug_data)
  resolvePointers _ address :=
    .ok (if address = 0x1030 then [0x2000] else [0x4000, 0x5000])

theorem sampleGraph_valid : ∀ f ∈ sampleGraph.functions, f.Valid := by
  intro f hf
  obtain rfl := List.mem_singleton.mp hf
  refine { component := by decide, version := by decide, ops := ?_, num_locals := by decide,
           num_allocas := by decide }
  intro op hop
  simp only [List.mem_cons, List.not_mem_nil, or_false] at hop
  rcases hop with rfl | rfl | rfl
  · exact (by decide : (0 : UInt8) ∉ [0x70])
  · exact ⟨(by decide : 0 < 65535), trivial⟩
  · exact ⟨(by decide : 0 < 65535), trivial⟩

theorem sampleGraph_serialised :
    Serialised true zstd streamvbyte sampleSort sampleAddress sampleGraph sampleImage where
  valid := sampleGraph_valid
  written := ⟨sampleWriter, rfl, {
    symbols := (by decide : sampleWriter.symbols_in_order.length ≤ 2 ^ 31)
    string_blob := by decide
    local_names := by decide
    function_array := by decide
    function_data := by decide
    debug_data := by decide }⟩
  packable := by
    intro gv hgv
    obtain rfl | rfl : gv = 0 ∨ gv = 1 := by simpa [sampleImage] using hgv
    · exact (by decide : (0x4000 : UInt64).toNat < 2 ^ 48 - 1)
    · exact (by decide : (0x5000 : UInt64).toNat < 2 ^ 48 - 1)

theorem sampleObject_laidOut : LaidOut sampleObject sampleAddress sampleObject.sections
    [sampleImage] := by
  have hcopy : sampleObject.copyData sampleSection.length 0x1000 = .ok sampleSection := rfl
  have hplaced : Placed sampleObject sampleAddress 0x1000 (0 + 8) sampleImage
      (List.replicate 8 0xff) (List.replicate 16 0xff) :=
    ⟨rfl, rfl, ⟨0x2000, by decide, rfl, rfl⟩, rfl⟩
  exact .other (by decide) (.graphs rfl hcopy (.graph hplaced (.padding _ 4)) .nil)

theorem sampleObject_read : ∃ infoss,
    List.Forall₂ (ReadsGraph true sampleAddress) [sampleGraph] infoss ∧
      ∀ {σ : Type} (callback : σ → FunctionInfo → Result σ) (s : σ),
        readEdges true zstd streamvbyte sampleObject callback s = infoss.flatten.foldlM callback s :=
  readEdges_serialised zstd_lossless streamvbyte_lossless
    (fun _ l => List.perm_insertionSort _ l) (.cons sampleGraph_serialised .nil) sampleObject_laidOut

end Bracelet.Edges
