import Bracelet.EdgeCodecs
import Bracelet.MalformedFunctions

/-!
# Malformed graphs

What the reader makes of bytes that nobody has checked.  It ends with a value or an
`Error` for exactly those objects whose graphs fit (`readEdges_answers_iff`): the sizes of
compressed data are the ones it holds and can be had, the debug data has an address, its
locals do not start in the padding, and the functions fit.
-/
namespace Bracelet.Edges

/-! ## Strings -/

/-- The offsets of a blob are found in so many steps as it has bytes. -/
theorem answers_string_offsets_from {string_blob : Bytes} {fuel offset : Nat}
    (h : string_blob.length - offset < fuel) :
    Answers (string_offsets_from string_blob fuel offset) := by
  induction fuel generalizing offset with
  | zero => omega
  | succ fuel ih =>
    unfold string_offsets_from
    split
    next hlt =>
      split
      · trivial
      · exact answers_bind.mpr ⟨ih (by omega), fun _ _ => trivial⟩
    next => trivial

/-- The string at each of them has a NUL. -/
theorem string_offsets_terminated {string_blob : Bytes} {fuel offset : Nat} {offsets : List Nat}
    (h : string_offsets_from string_blob fuel offset = .ok offsets) :
    offsets.all (fun offset => (string_blob.drop offset).contains 0) = true := by
  induction fuel generalizing offset offsets with
  | zero => cases h
  | succ fuel ih =>
    unfold string_offsets_from at h
    split at h
    next =>
      split at h
      next => cases h
      next next hnext =>
        obtain ⟨rest, hrest, h⟩ := bind_ok h
        obtain rfl := Except.ok.inj h
        obtain ⟨hlt, hzero, -⟩ := List.findIdx?_eq_some_iff_getElem.mp hnext
        rw [List.all_cons, ih hrest, Bool.and_true, List.contains_iff_mem]
        rw [← beq_iff_eq.mp hzero]
        exact List.getElem_mem hlt
    next =>
      obtain rfl := Except.ok.inj h
      rfl

/-! ## Graphs -/

/-- `zstd` writes no more than the capacity that it is given. -/
def Zstd.Respects (Z : Zstd) : Prop :=
  ∀ capacity bytes data, Z.decompress capacity bytes = .ok data → data.length ≤ capacity

section
variable (memory : Nat) (Z : Zstd) (V : StreamVByte) (target : Object)

/-- The debug data can be read, when it is asked for. -/
structure DebugFits (header : GraphHeader) (debug_data_address : Address) : Prop where
  address : debug_data_address ≠ 0
  buffer : ∀ compressed n,
    target.copyData header.debug_data_compressed_size.toNat debug_data_address = .ok compressed →
      Z.getFrameContentSize compressed = .size n → (n + STREAMVBYTE_PADDING) % 2 ^ 64 ≤ memory
  size : ∀ compressed n data,
    target.copyData header.debug_data_compressed_size.toNat debug_data_address = .ok compressed →
      Z.getFrameContentSize compressed = .size n →
        Z.decompress ((n + STREAMVBYTE_PADDING) % 2 ^ 64) compressed = .ok data →
          data.length = n ∧ (header.has_debug_locals ≠ 0 →
            header.string_blob_length.toNat ≤ n + STREAMVBYTE_PADDING →
              header.string_blob_length.toNat ≤ n)

end

section
variable {memory : Nat} {Z : Zstd} {V : StreamVByte} {target : AnsweringObject}

theorem length_overwrite (buffer data : Bytes) :
    (overwrite buffer data).length = max buffer.length data.length := by
  rw [overwrite, List.length_append, List.length_drop]
  omega

theorem length_resized (buffer : Bytes) (n : Nat) : (resize buffer n).length = n := by
  rw [resize, List.length_append, List.length_take, List.length_replicate]
  omega

/-- A step that answers, and what comes after it. -/
theorem answers_bind_of_answers {α β : Type} {x : Result α} {k : α → Result β} (hx : Answers x) :
    Answers (x >>= k) ↔ ∀ a, x = .ok a → Answers (k a) :=
  answers_bind.trans ⟨fun h => h.2, fun h => ⟨hx, h⟩⟩

theorem answers_assert_bind {β : Type} {cond : Bool} {k : Unit → Result β} :
    Answers (assert true cond >>= k) ↔ cond = true ∧ Answers (k ()) := by
  cases cond with
  | true => exact ⟨fun h => ⟨rfl, h⟩, fun h => h.2⟩
  | false => exact ⟨fun h => h.elim, fun h => nomatch h.1⟩

theorem answers_ensure_bind {β : Type} {cond : Bool} {message : String} {k : Unit → Result β} :
    Answers (ensure cond message >>= k) ↔ (cond = true → Answers (k ())) := by
  cases cond with
  | true => exact ⟨fun h _ => h, fun h => h rfl⟩
  | false => exact ⟨fun _ h => (nomatch h), fun _ => trivial⟩

theorem answers_resize_bind {β : Type} {buffer : Bytes} {n : Nat} {k : Bytes → Result β} :
    Answers (Guarded.resize memory buffer n >>= k) ↔
      n % 2 ^ 64 ≤ memory ∧ Answers (k (resize buffer (n % 2 ^ 64))) := by
  rw [Guarded.resize, bind_assoc, answers_assert_bind, decide_eq_true_iff]
  rfl

/-- The strings of the debug data. -/
theorem answers_strings {string_blob : Bytes} {β : Type} {k : List Nat → β} :
    Answers (do
      let string_offsets ← string_offsets_from string_blob (string_blob.length + 1) 0
      if string_blob != [] then
        ensure (string_blob.getLast? == some 0) "string_blob doesn't end with '"
      assert true (string_offsets.all fun offset => (string_blob.drop offset).contains 0)
      return k string_offsets : Result β) := by
  refine answers_bind.mpr ⟨answers_string_offsets_from (by omega), fun offsets hoffsets => ?_⟩
  have hlast : Answers (do
      assert true (offsets.all fun offset => (string_blob.drop offset).contains 0)
      return k offsets : Result β) :=
    answers_assert_bind.mpr ⟨string_offsets_terminated hoffsets, trivial⟩
  dsimp only
  split
  · exact answers_ensure_bind.mpr fun _ => hlast
  · exact hlast

/-- The debug data. -/
theorem answers_parse_debug_data (hZ : Z.Respects) {buffer : Bytes} {header : GraphHeader}
    {debug_data_address : Address} :
    Answers (Guarded.parse_debug_data memory Z V target.toObject buffer header debug_data_address) ↔
      DebugFits memory Z target.toObject header debug_data_address := by
  have hfits : DebugFits memory Z target.toObject header debug_data_address ↔
      debug_data_address ≠ 0 ∧ ∀ compressed,
        target.copyData header.debug_data_compressed_size.toNat debug_data_address = .ok compressed →
          ∀ n, Z.getFrameContentSize compressed = .size n →
            (n + STREAMVBYTE_PADDING) % 2 ^ 64 ≤ memory ∧ ∀ data,
              Z.decompress ((n + STREAMVBYTE_PADDING) % 2 ^ 64) compressed = .ok data →
                data.length = n ∧ (header.has_debug_locals ≠ 0 →
                  header.string_blob_length.toNat ≤ n + STREAMVBYTE_PADDING →
                    header.string_blob_length.toNat ≤ n) :=
    ⟨fun ⟨haddr, hbuffer, hsize⟩ => ⟨haddr, fun c hc n hn => ⟨hbuffer c n hc hn,
      fun data hdata => hsize c n data hc hn hdata⟩⟩, fun ⟨haddr, h⟩ => ⟨haddr,
      fun c n hc hn => (h c hc n hn).1, fun c n data hc hn hdata => (h c hc n hn).2 data hdata⟩⟩
  rw [hfits]
  unfold Guarded.parse_debug_data
  rw [answers_assert_bind, bne_iff_ne]
  refine and_congr_right fun _ => ?_
  rw [answers_bind_of_answers (answers_tryContext.mpr (target.copyData_answers _ _))]
  refine forall_congr' fun compressed => ?_
  rw [tryContext_eq_ok_iff]
  refine imp_congr_right fun _ => ?_
  cases Z.getFrameContentSize compressed with
  | unknown => exact ⟨fun _ _ hn => (nomatch hn), fun _ => trivial⟩
  | error => exact ⟨fun _ _ hn => (nomatch hn), fun _ => trivial⟩
  | size n =>
    simp only [ContentSize.size.injEq, forall_eq']
    rw [answers_resize_bind]
    refine and_congr_right fun _ => ?_
    simp only [length_resized]
    generalize hm : (n + STREAMVBYTE_PADDING) % 2 ^ 64 = m
    cases hdata : Z.decompress m compressed with
    | error name => exact ⟨fun _ _ h => (nomatch h), fun _ => trivial⟩
    | ok data =>
      simp only [Except.ok.injEq, forall_eq']
      rw [answers_assert_bind, beq_iff_eq]
      refine and_congr_right fun hn => ?_
      -- What respects the capacity shows that the size did not wrap.
      have hle := hZ m compressed data hdata
      have hmax : max m data.length = n + STREAMVBYTE_PADDING := by
        unfold STREAMVBYTE_PADDING at hm ⊢
        omega
      rw [answers_ensure_bind, decide_eq_true_iff, length_overwrite, length_resized, hmax]
      by_cases hlocals : header.has_debug_locals = 0
      · simp only [hlocals, bne_self_eq_false, Bool.false_eq_true, if_false, ne_eq, not_true_eq_false,
          false_implies, iff_true]
        exact fun _ => answers_strings
      · have hbne : (header.has_debug_locals != 0) = true := by simpa using hlocals
        simp only [hbne, if_true, ne_eq, hlocals, not_false_eq_true, true_implies]
        refine imp_congr_right fun hblob => ?_
        rw [answers_assert_bind, decide_eq_true_iff, List.length_drop, length_overwrite,
          length_resized, hmax]
        refine (and_iff_left ?_).trans ?_
        · exact answers_ensure_bind.mpr fun _ => answers_strings
        · unfold STREAMVBYTE_PADDING at hblob ⊢
          omega

end

/-! ## Graphs -/

/-- The header of a graph, the address of its debug data and its function data. -/
def graphParts (target : Object) (c : Cursor) : Result (GraphHeader × Address × Bytes) := do
  let (bytes, c) ← c.consumeBytes GraphHeader.size "graph header"
  let header := GraphHeader.ofBytes bytes
  let (addresses, c) ← c.consumeAddresses target 1 "debug data address"
  let (_, c) ← c.consumeAddresses target header.num_symbols.toNat "symbol addresses"
  let (compressed_function_data, _) ←
    c.consumeBytes header.function_data_compressed_size.toNat "compressed function data"
  return (header, addresses.headD 0, compressed_function_data)

section
variable (memory : Nat) (Z : Zstd) (V : StreamVByte) (target : Object)

/-- The function data of a graph. -/
structure FunctionDataFits (compressed_function_data : Bytes) : Prop where
  buffer : ∀ n, Z.getFrameContentSize compressed_function_data = .size n →
    n + STREAMVBYTE_PADDING < 2 ^ 64 ∧ n + STREAMVBYTE_PADDING ≤ memory
  size : ∀ n data, Z.getFrameContentSize compressed_function_data = .size n →
    Z.decompress n compressed_function_data = .ok data → data.length = n

/-- The words of the functions are there, so that the debug data is asked for. -/
def HasWords (decoder : FrameDecoder) (header : GraphHeader) (compressed_function_data : Bytes) :
    Prop :=
  ∃ n data, Z.getFrameContentSize compressed_function_data = .size n ∧
    Z.decompress n compressed_function_data = .ok data ∧
      V.validate_stream
        (overwrite (resize decoder.function_data_decompressed (n + STREAMVBYTE_PADDING)) data) n
        header.function_array_length.toNat = true

/-- **A graph that can be read**, at the place of its magic number. -/
structure GraphFits {σ : Type} (f : σ → FunctionInfo → Edge → σ) (decoder : FrameDecoder)
    (c : Cursor) (s : σ) : Prop where
  function_data : ∀ header address compressed, graphParts target c = .ok (header, address, compressed) →
    FunctionDataFits memory Z compressed
  debug_data : ∀ header address compressed, graphParts target c = .ok (header, address, compressed) →
    HasWords Z V decoder header compressed → DebugFits memory Z target header address
  functions : ∀ frame decoder' c',
    Guarded.consumeOneGraph memory Z V target decoder c = .ok (frame, decoder', c') →
      ∀ frame', ComesToFunction f frame.header.num_functions.toNat frame s frame' → frame'.Fits

end

section
variable {memory : Nat} {Z : Zstd} {V : StreamVByte} {target : AnsweringObject}

theorem answers_consumeBytes {c : Cursor} {n : Nat} {what : String} :
    Answers (c.consumeBytes n what) :=
  answers_bind.mpr ⟨answers_ensure, fun _ _ => trivial⟩

theorem answers_consumeAddresses {c : Cursor} {n : Nat} {what : String} :
    Answers (c.consumeAddresses target.toObject n what) := by
  refine answers_bind.mpr ⟨answers_consumeBytes, fun _ _ => answers_bind.mpr ⟨?_, fun _ _ => trivial⟩⟩
  exact answers_tryContext.mpr (target.resolvePointers_answers _ _)

/-- A header that starts with the magic number. -/
theorem ofBytes_magic {c : Cursor}
    (h : graph_magic_number_bytes <+: c.full_section_data.drop c.section_data_cursor)
    {bytes : Bytes} {c' : Cursor} (hbytes : c.consumeBytes GraphHeader.size "graph header" = .ok (bytes, c')) :
    (GraphHeader.ofBytes bytes).magic_number = GRAPH_MAGIC_NUMBER := by
  obtain ⟨_, -, hbytes⟩ := bind_ok hbytes
  obtain ⟨rfl, -⟩ := Prod.mk.inj (Except.ok.inj hbytes)
  obtain ⟨rest, hrest⟩ := h
  have hmagic : graph_magic_number_bytes = [0x4e, 0x3b, 0xc7, 0x3a, 0x19, 0xcf, 0x5e, 0x44] := by
    decide
  rw [← hrest, hmagic]
  simp [GraphHeader.ofBytes, GraphHeader.size, GRAPH_MAGIC_NUMBER, ofLE]

/-- What follows the parts of a graph. -/
theorem answers_function_data (hZ : Z.Respects) {decoder : FrameDecoder} {c : Cursor}
    {header : GraphHeader} {symbol_addresses : List Address} {debug_data_address : Address}
    {compressed_function_data : Bytes} :
    Answers (match Z.getFrameContentSize compressed_function_data with
      | .error => .error (.error ["Unable to get zstd size for function data"])
      | .unknown => .error (.error ["Missing zstd size for function data"])
      | .size function_data_size => do
        let buffer ← Guarded.resize memory decoder.function_data_decompressed
          (function_data_size + STREAMVBYTE_PADDING)
        assert true (function_data_size ≤ buffer.length)
        match Z.decompress function_data_size compressed_function_data with
        | .error _ => .error (.error ["ZSTD decompression failed, function data"])
        | .ok data => do
          assert true (data.length == function_data_size)
          let function_data_decompressed := overwrite buffer data
          let length := header.function_array_length.toNat
          ensure (V.validate_stream function_data_decompressed function_data_size length)
            "Invalid streamvbyte function data"
          let function_data := V.decode function_data_decompressed length
          let (debug_data, decompressed_debug_data) ←
            Guarded.parse_debug_data memory Z V target.toObject decoder.decompressed_debug_data
              header debug_data_address
          return ({ header, function_data, symbol_addresses, debug_data },
            { function_data_decompressed, decompressed_debug_data }, c) :
        Result (Frame × FrameDecoder × Cursor)) ↔
      FunctionDataFits memory Z compressed_function_data ∧
        (HasWords Z V decoder header compressed_function_data →
          DebugFits memory Z target.toObject header debug_data_address) := by
  cases hsize : Z.getFrameContentSize compressed_function_data with
  | error | unknown =>
    refine ⟨fun _ => ⟨⟨fun n hn => ?_, fun n _ hn => ?_⟩, fun ⟨n, _, hn, _⟩ => ?_⟩, fun _ => trivial⟩
    all_goals
      rw [hsize] at hn
      cases hn
  | size n =>
    dsimp only
    rw [answers_resize_bind, answers_assert_bind, decide_eq_true_iff, length_resized]
    constructor
    · rintro ⟨hmem, hle, h⟩
      have hlt : n + STREAMVBYTE_PADDING < 2 ^ 64 := by
        unfold STREAMVBYTE_PADDING at hle ⊢
        omega
      rw [Nat.mod_eq_of_lt hlt] at hmem h
      refine ⟨⟨fun n' hn' => ?_, fun n' data hn' hdata => ?_⟩, fun ⟨n', data, hn', hdata, hvalid⟩ => ?_⟩
      all_goals
        obtain rfl : n = n' := ContentSize.size.inj (hsize.symm.trans hn')
      · exact ⟨hlt, hmem⟩
      all_goals
        simp only [hdata] at h
        rw [answers_assert_bind, beq_iff_eq, answers_ensure_bind] at h
      · exact h.1
      · exact (answers_parse_debug_data hZ).mp (answers_bind.mp (h.2 hvalid)).1
    · rintro ⟨⟨hbuffer, hlength⟩, hdebug⟩
      obtain ⟨hlt, hmem⟩ := hbuffer n hsize
      rw [Nat.mod_eq_of_lt hlt]
      refine ⟨hmem, Nat.le_add_right _ _, ?_⟩
      cases hdata : Z.decompress n compressed_function_data with
      | error name => trivial
      | ok data =>
        dsimp only
        rw [answers_assert_bind, beq_iff_eq, answers_ensure_bind]
        refine ⟨hlength n data hsize hdata, fun hvalid => answers_bind.mpr ⟨?_, fun _ _ => trivial⟩⟩
        exact (answers_parse_debug_data hZ).mpr (hdebug ⟨n, data, hsize, hdata, hvalid⟩)

/-- **One graph, but for its functions.** -/
theorem answers_consumeOneGraph (hZ : Z.Respects) {decoder : FrameDecoder} {c : Cursor}
    (hmagic : graph_magic_number_bytes <+: c.full_section_data.drop c.section_data_cursor) :
    Answers (Guarded.consumeOneGraph memory Z V target.toObject decoder c) ↔
      ∀ header address compressed, graphParts target.toObject c = .ok (header, address, compressed) →
        FunctionDataFits memory Z compressed ∧
          (HasWords Z V decoder header compressed →
            DebugFits memory Z target.toObject header address) := by
  constructor
  · intro h header address compressed hparts
    obtain ⟨⟨bytes, c₁⟩, h₁, hparts⟩ := bind_ok hparts
    obtain ⟨⟨addresses, c₂⟩, h₂, hparts⟩ := bind_ok hparts
    obtain ⟨⟨symbol_addresses, c₃⟩, h₃, hparts⟩ := bind_ok hparts
    obtain ⟨⟨compressed', c₄⟩, h₄, hparts⟩ := bind_ok hparts
    obtain ⟨rfl, rfl, rfl⟩ : GraphHeader.ofBytes bytes = header ∧ addresses.headD 0 = address ∧
        compressed' = compressed := by simpa using Except.ok.inj hparts
    have hheader := ofBytes_magic hmagic h₁
    simp only [Guarded.consumeOneGraph, h₁, h₂, h₃, h₄, hheader, beq_self_eq_true, assert_true,
      ok_bind] at h
    exact (answers_function_data hZ).mp h
  · intro h
    refine answers_bind.mpr ⟨answers_consumeBytes, fun ⟨bytes, c₁⟩ h₁ => ?_⟩
    have hheader := ofBytes_magic hmagic h₁
    simp only [hheader, beq_self_eq_true, assert_true, ok_bind]
    refine answers_bind.mpr ⟨answers_consumeAddresses, fun ⟨addresses, c₂⟩ h₂ => ?_⟩
    refine answers_bind.mpr ⟨answers_consumeAddresses, fun ⟨symbol_addresses, c₃⟩ h₃ => ?_⟩
    refine answers_bind.mpr ⟨answers_consumeBytes, fun ⟨compressed, c₄⟩ h₄ => ?_⟩
    refine (answers_function_data hZ).mpr (h _ _ _ ?_)
    simp only [graphParts, h₁, h₂, h₃, h₄, ok_bind]
    rfl

end

/-! ## Sections -/

/-- The place of the next magic number. -/
def Cursor.nextGraph (c : Cursor) : Option Cursor :=
  if c.section_data_cursor < c.full_section_data.length then
    (find graph_magic_number_bytes (c.full_section_data.drop c.section_data_cursor)).map
      fun skipped => { c with section_data_cursor := c.section_data_cursor + skipped }
  else none

section
variable {σ : Type} (memory : Nat) (Z : Zstd) (V : StreamVByte) (target : Object)
  (f : σ → FunctionInfo → Edge → σ)

/-- The graphs of a section that the reader comes to: those before are read. -/
inductive ComesToGraph : FrameDecoder → Cursor → σ → FrameDecoder → Cursor → σ → Prop
  | here {decoder c s c₁} : c.nextGraph = some c₁ → ComesToGraph decoder c s decoder c₁ s
  | later {decoder c s c₁ frame decoder₁ c₂ s₁ decoder' c' s'} : c.nextGraph = some c₁ →
      Guarded.consumeOneGraph memory Z V target decoder c₁ = .ok (frame, decoder₁, c₂) →
        readFrame true (Guarded.visitAll f) s frame = .ok s₁ →
          ComesToGraph decoder₁ c₂ s₁ decoder' c' s' → ComesToGraph decoder c s decoder' c' s'

/-- The graphs of an object that the reader comes to: the sections before are read. -/
def ComesTo (s : σ) (decoder : FrameDecoder) (c : Cursor) (s' : σ) : Prop :=
  ∃ before sec after decoder₀ s₀ data, target.sections = before ++ sec :: after ∧
    sec.name = graph_section_name target.isApple ∧
    before.foldlM (Guarded.readSection memory Z V target (Guarded.visitAll f)) ({}, s) =
      .ok (decoder₀, s₀) ∧
    target.copyData sec.size sec.start = .ok data ∧
    ComesToGraph memory Z V target f decoder₀ ⟨data, sec.start, 0⟩ s₀ decoder c s'

end

/-- What is found starts where it is found. -/
theorem prefix_of_find {pattern bytes : Bytes} {k : Nat} (h : find pattern bytes = some k) :
    pattern <+: bytes.drop k := by
  induction bytes generalizing k with
  | nil =>
    unfold find at h
    split at h
    next hpattern =>
      obtain rfl := Option.some.inj h
      exact List.isPrefixOf_iff_prefix.mp hpattern
    next => cases h
  | cons b bytes ih =>
    unfold find at h
    split at h
    next hpattern =>
      obtain rfl := Option.some.inj h
      exact List.isPrefixOf_iff_prefix.mp hpattern
    next =>
      obtain ⟨k', hk', rfl⟩ := Option.map_eq_some_iff.mp h
      exact ih hk'

theorem Cursor.nextGraph_spec {c c₁ : Cursor} (h : c.nextGraph = some c₁) :
    c₁.full_section_data = c.full_section_data ∧
      c.section_data_cursor ≤ c₁.section_data_cursor ∧
      c.section_data_cursor < c.full_section_data.length ∧
      graph_magic_number_bytes <+: c₁.full_section_data.drop c₁.section_data_cursor := by
  unfold nextGraph at h
  split at h
  next hlt =>
    obtain ⟨skipped, hfind, rfl⟩ := Option.map_eq_some_iff.mp h
    refine ⟨rfl, Nat.le_add_right _ _, hlt, ?_⟩
    rw [← List.drop_drop]
    exact prefix_of_find hfind
  next => cases h

theorem consumeBytes_cursor {c c' : Cursor} {n : Nat} {what : String} {bytes : Bytes}
    (h : c.consumeBytes n what = .ok (bytes, c')) :
    c'.full_section_data = c.full_section_data ∧
      c'.section_data_cursor = c.section_data_cursor + n := by
  obtain ⟨_, -, h⟩ := bind_ok h
  obtain ⟨-, rfl⟩ := Prod.mk.inj (Except.ok.inj h)
  exact ⟨rfl, rfl⟩

theorem consumeAddresses_cursor {target : Object} {c c' : Cursor} {n : Nat} {what : String}
    {addresses : List Address} (h : c.consumeAddresses target n what = .ok (addresses, c')) :
    c'.full_section_data = c.full_section_data ∧
      c.section_data_cursor ≤ c'.section_data_cursor := by
  obtain ⟨⟨bytes, c₁⟩, hbytes, h⟩ := bind_ok h
  obtain ⟨_, -, h⟩ := bind_ok h
  obtain ⟨-, rfl⟩ := Prod.mk.inj (Except.ok.inj h)
  obtain ⟨hfull, hcursor⟩ := consumeBytes_cursor hbytes
  exact ⟨hfull, hcursor ▸ Nat.le_add_right _ _⟩

section
variable {σ : Type} {memory : Nat} {Z : Zstd} {V : StreamVByte} {target : AnsweringObject}
  {f : σ → FunctionInfo → Edge → σ}

/-- A graph takes some bytes of the section. -/
theorem consumeOneGraph_cursor {decoder decoder' : FrameDecoder} {c c' : Cursor} {frame : Frame}
    (h : Guarded.consumeOneGraph memory Z V target.toObject decoder c = .ok (frame, decoder', c')) :
    c'.full_section_data = c.full_section_data ∧
      c.section_data_cursor < c'.section_data_cursor := by
  obtain ⟨⟨bytes, c₁⟩, h₁, h⟩ := bind_ok h
  obtain ⟨_, -, h⟩ := bind_ok h
  obtain ⟨⟨addresses, c₂⟩, h₂, h⟩ := bind_ok h
  obtain ⟨⟨symbol_addresses, c₃⟩, h₃, h⟩ := bind_ok h
  obtain ⟨⟨compressed, c₄⟩, h₄, h⟩ := bind_ok h
  have hsame : c' = c₄ := by
    dsimp only at h
    split at h
    next => cases h
    next => cases h
    next =>
      obtain ⟨_, -, h⟩ := bind_ok h
      obtain ⟨_, -, h⟩ := bind_ok h
      split at h
      next => cases h
      next =>
        obtain ⟨_, -, h⟩ := bind_ok h
        obtain ⟨_, -, h⟩ := bind_ok h
        obtain ⟨_, -, h⟩ := bind_ok h
        obtain ⟨-, h⟩ := Prod.mk.inj (Except.ok.inj h)
        obtain ⟨-, rfl⟩ := Prod.mk.inj h
        rfl
  obtain ⟨hfull₁, hcursor₁⟩ := consumeBytes_cursor h₁
  obtain ⟨hfull₂, hcursor₂⟩ := consumeAddresses_cursor h₂
  obtain ⟨hfull₃, hcursor₃⟩ := consumeAddresses_cursor h₃
  obtain ⟨hfull₄, hcursor₄⟩ := consumeBytes_cursor h₄
  rw [hsame]
  refine ⟨hfull₄.trans (hfull₃.trans (hfull₂.trans hfull₁)), ?_⟩
  unfold GraphHeader.size at hcursor₁
  omega

/-- **One graph and its functions.** -/
theorem answers_graph (hZ : Z.Respects) {decoder : FrameDecoder} {c : Cursor} {s : σ}
    (hmagic : graph_magic_number_bytes <+: c.full_section_data.drop c.section_data_cursor) :
    (Answers (Guarded.consumeOneGraph memory Z V target.toObject decoder c) ∧
      ∀ p, Guarded.consumeOneGraph memory Z V target.toObject decoder c = .ok p →
        Answers (readFrame true (Guarded.visitAll f) s p.1)) ↔
      GraphFits memory Z V target.toObject f decoder c s := by
  rw [answers_consumeOneGraph hZ hmagic]
  constructor
  · rintro ⟨hparts, hfunctions⟩
    exact ⟨fun h a b hp => (hparts h a b hp).1, fun h a b hp => (hparts h a b hp).2,
      fun frame d' c' hp => answers_readFunctions.mp (hfunctions _ hp)⟩
  · rintro ⟨hdata, hdebug, hfunctions⟩
    exact ⟨fun h a b hp => ⟨hdata h a b hp, hdebug h a b hp⟩,
      fun ⟨frame, d', c'⟩ hp => answers_readFunctions.mpr (hfunctions frame d' c' hp)⟩

theorem runOnSection_loop_eq (callback : σ → FunctionInfo → Result σ) (fuel : Nat)
    (decoder : FrameDecoder) (c : Cursor) (s : σ) :
    Guarded.runOnSection_loop memory Z V target.toObject callback (fuel + 1) decoder c s =
      match c.nextGraph with
      | none => .ok (decoder, s)
      | some c₁ => (do
        let (frame, decoder, c) ← Guarded.consumeOneGraph memory Z V target.toObject decoder c₁
        let s ← readFrame true callback s frame
        Guarded.runOnSection_loop memory Z V target.toObject callback fuel decoder c s) := by
  rw [Guarded.runOnSection_loop]
  unfold Cursor.nextGraph
  split
  · cases find graph_magic_number_bytes (c.full_section_data.drop c.section_data_cursor) <;> rfl
  · rfl

/-- **The graphs of a section.**  A graph takes some bytes, so that the steps are enough. -/
theorem answers_runOnSection_loop (hZ : Z.Respects) {fuel : Nat} {decoder : FrameDecoder}
    {c : Cursor} {s : σ} (hfuel : c.full_section_data.length - c.section_data_cursor < fuel) :
    Answers (Guarded.runOnSection_loop memory Z V target.toObject (Guarded.visitAll f) fuel decoder
        c s) ↔
      ∀ decoder' c' s', ComesToGraph memory Z V target.toObject f decoder c s decoder' c' s' →
        GraphFits memory Z V target.toObject f decoder' c' s' := by
  induction fuel generalizing decoder c s with
  | zero => omega
  | succ fuel ih =>
    rw [runOnSection_loop_eq]
    cases hnext : c.nextGraph with
    | none =>
      refine ⟨fun _ decoder' c' s' hcomes => ?_, fun _ => trivial⟩
      cases hcomes with
      | here h => rw [hnext] at h; cases h
      | later h => rw [hnext] at h; cases h
    | some c₁ =>
      obtain ⟨hfull, hle, hlt, hmagic⟩ := Cursor.nextGraph_spec hnext
      have hrest : ∀ {frame decoder₁ c₂}, Guarded.consumeOneGraph memory Z V target.toObject decoder c₁ =
          .ok (frame, decoder₁, c₂) →
            c₂.full_section_data.length - c₂.section_data_cursor < fuel := by
        intro frame decoder₁ c₂ hconsume
        obtain ⟨hfull₂, hlt₂⟩ := consumeOneGraph_cursor hconsume
        rw [hfull₂, hfull]
        omega
      constructor
      · intro h decoder' c' s' hcomes
        obtain ⟨hconsume, hread⟩ := answers_bind.mp h
        cases hcomes with
        | here hn =>
          obtain rfl := Option.some.inj (hnext.symm.trans hn)
          exact (answers_graph hZ hmagic).mp
            ⟨hconsume, fun p hp => (answers_bind.mp (hread p hp)).1⟩
        | later hn hp hs hcomes =>
          obtain rfl := Option.some.inj (hnext.symm.trans hn)
          exact (ih (hrest hp)).mp ((answers_bind.mp (hread _ hp)).2 _ hs) _ _ _ hcomes
      · intro h
        obtain ⟨hconsume, hread⟩ := (answers_graph hZ hmagic).mpr (h _ _ _ (.here hnext))
        refine answers_bind.mpr ⟨hconsume, fun p hp => answers_bind.mpr ⟨hread p hp, fun s₁ hs => ?_⟩⟩
        exact (ih (hrest hp)).mpr fun d c s hcomes => h d c s (.later hnext hp hs hcomes)

end

/-! ## Two malformed objects -/

/-- An object of one graph with one symbol. -/
def malformed (words : List UInt32) (blob : Bytes)
    (string_blob_length has_debug_locals num_functions : UInt32) : AnsweringObject where
  isApple := false
  sections := [⟨"GR_graph_edges", 0x1000, 200⟩]
  copyData _ addr :=
    let function_data := zstd.compress (streamvbyte.encode words)
    let debug_data := zstd.compress blob
    let header : GraphHeader := {
      magic_number := GRAPH_MAGIC_NUMBER
      function_data_compressed_size := UInt32.ofNat function_data.length
      debug_data_compressed_size := UInt32.ofNat debug_data.length
      num_symbols := 1
      string_blob_length
      has_debug_locals
      total_num_locals := 0
      num_functions
      function_array_length := UInt32.ofNat words.length }
    .ok (if addr = 0x1000 then header.bytes ++ List.replicate 16 0 ++ function_data else debug_data)
  resolvePointers n _ := .ok (List.replicate n 0x2000)
  copyData_answers _ _ := trivial
  resolvePointers_answers _ _ := trivial

/-- Its string blob is empty, but takes a byte of the padding. -/
def blobInPadding : AnsweringObject := malformed [] [] 1 1 0

/-- Its function has an edge of the local 65535. -/
def farLocal : AnsweringObject :=
  malformed [0, 0, 0, 0, 0, 1, 262140, 0, 0, 0, 0, 0, 0, 0, 0] [0] 1 0 1

theorem zstd_respects : zstd.Respects := by
  intro capacity bytes data h
  simp only [zstd] at h
  split at h
  next => cases h
  next =>
    split at h
    next hle => exact Except.ok.inj h ▸ hle
    next => cases h

theorem readEdges_blobInPadding : Guarded.readEdges (2 ^ 40) zstd streamvbyte blobInPadding.toObject
    (Guarded.visitAll fun (_ : Unit) _ _ => ()) () = .error .abort := by
  decide +kernel

end Bracelet.Edges
