import Bracelet.EdgeWriter

/-!
# Reading the embedded graph

`readEdges`: the graph sections of an object are searched for the magic number, and
what lies at each place it is found is read as a graph (`consumeOneGraph`): header,
address of the debug data, addresses of the symbols, compressed function data.  The
callback is then given the functions of the graph one by one; the edges of a function
are decoded when it asks for them (`visitEdges`).

Callbacks pass a state on.  Buffers that are kept from one graph to the next are
modelled where something of their old content survives.
-/
namespace Bracelet.Edges

abbrev Address := UInt64

structure Section where
  name : String
  start : Address
  size : Nat
  deriving DecidableEq, Repr

/-- What is used of an object file or a core dump. -/
structure Object where
  isApple : Bool
  pointerSize : Nat := 8
  /-- What `visitSections` goes through, in order. -/
  sections : List Section
  /-- So many bytes from an address. -/
  copyData : Nat → Address → Result Bytes
  /-- So many pointers from an address. -/
  resolvePointers : Nat → Address → Result (List Address)

def graph_section_name (is_apple : Bool) : String :=
  if is_apple then "__DATA,__GR_graph_edges" else "GR_graph_edges"

def STREAMVBYTE_PADDING : Nat := 16

/-- `%x` -/
def hex (n : Nat) : String := String.ofList (Nat.toDigits 16 n)

/-- A buffer after `resize(n)`. -/
def resize (buffer : Bytes) (n : Nat) : Bytes :=
  buffer.take n ++ List.replicate (n - buffer.length) 0

/-- A buffer with data copied to its front. -/
def overwrite (buffer data : Bytes) : Bytes := data ++ buffer.drop data.length

/-! ## Debug data -/

structure GraphDebugData where
  string_blob : Bytes
  local_indices : Option (List UInt32)
  string_offsets : List Nat
  deriving DecidableEq, Repr

namespace GraphDebugData

def has_locals (gdd : GraphDebugData) : Bool := gdd.local_indices.isSome

/-- The string up to its NUL. -/
def string (gdd : GraphDebugData) (string_idx : Nat) : Result Bytes :=
  match gdd.string_offsets[string_idx]? with
  | none => .error (.error [s!"string index {string_idx} is out of bounds"])
  | some offset => .ok ((gdd.string_blob.drop offset).takeWhile (· != 0))

/-- Asked of debug data with locals only. -/
def local_name (gdd : GraphDebugData) (idx : Nat) : Result Bytes :=
  match (gdd.local_indices.getD [])[idx]? with
  | none => .error (.error [s!"local idx {idx} is out of bounds"])
  | some string_idx => gdd.string string_idx.toNat

/-- The first locals, and the rest. -/
def debug_data_split_at (gdd : GraphDebugData) (pos : Nat) :
    Result (GraphDebugData × GraphDebugData) := do
  let local_indices := gdd.local_indices.getD []
  ensure (pos ≤ local_indices.length) s!"Local index {pos} is out of range"
  return ({ gdd with local_indices := some (local_indices.take pos) },
    { gdd with local_indices := some (local_indices.drop pos) })

end GraphDebugData

/-- The offsets at which strings start, from an offset on; each takes a step. -/
def string_offsets_from (string_blob : Bytes) : Nat → Nat → Result (List Nat)
  | 0, _ => .error .diverges
  | fuel + 1, offset =>
    if offset < string_blob.length then
      match (string_blob.drop offset).findIdx? (· == 0) with
      -- The literal of the message ends at its NUL.
      | none => .error (.error ["string_blob doesn't end with '"])
      | some next => do
        let offsets ← string_offsets_from string_blob fuel (offset + next + 1)
        return offset :: offsets
    else .ok []

section
variable (asserts : Bool) (Z : Zstd) (V : StreamVByte)

/-- Returns the buffer of the decompressed data too. -/
def parse_debug_data (target : Object) (decompressed_debug_data : Bytes) (header : GraphHeader)
    (debug_data_address : Address) : Result (GraphDebugData × Bytes) := do
  assert asserts (debug_data_address != 0)
  let address := hex debug_data_address.toNat
  let size := header.debug_data_compressed_size.toNat
  let compressed_debug_data ← tryContext (target.copyData size debug_data_address)
    s!"Reading debug data at address {address}"
  match Z.getFrameContentSize compressed_debug_data with
  | .unknown | .error => .error (.error ["Unable to get zstd size for debug data"])
  | .size debug_data_size =>
    let buffer := resize decompressed_debug_data (debug_data_size + STREAMVBYTE_PADDING)
    match Z.decompress buffer.length compressed_debug_data with
    | .error name => .error (.error [s!"ZSTD decompression failed, debug data {name}, {size}"])
    | .ok data => do
      assert asserts (data.length == debug_data_size)
      let full_decompressed_debug_data := overwrite buffer data
      let blob_length := header.string_blob_length.toNat
      ensure (blob_length ≤ full_decompressed_debug_data.length) "string blob length too large"
      let string_blob := full_decompressed_debug_data.take blob_length
      let total_num_locals := header.total_num_locals.toNat
      let string_indices_ref ←
        if header.has_debug_locals != 0 then do
          let encoded_local_indices := full_decompressed_debug_data.drop blob_length
          let encoded_size :=
            (encoded_local_indices.length + 2 ^ 64 - STREAMVBYTE_PADDING) % 2 ^ 64
          ensure (V.validate_stream encoded_local_indices encoded_size total_num_locals)
            (s!"Failed to validate debug data local index stream ({total_num_locals} locals " ++
              s!"encoded into {encoded_size} bytes)")
          pure (some (V.delta_decode encoded_local_indices total_num_locals 0))
        else pure none
      let string_offsets ← string_offsets_from string_blob (string_blob.length + 1) 0
      if string_blob != [] then
        ensure (string_blob.getLast? == some 0) "string_blob doesn't end with '"
      return (⟨string_blob, string_indices_ref, string_offsets⟩, full_decompressed_debug_data)

/-! ## Frames -/

/-- A graph that is being read. -/
structure Frame where
  header : GraphHeader
  function_data : List UInt32
  symbol_addresses : List Address
  debug_data : GraphDebugData

def symbol_address (symbol_addresses : List Address) (idx : Nat) : Result Address :=
  match symbol_addresses[idx]? with
  | none => .error (.error ["symbol address is out of bounds"])
  | some address => .ok address

def decode_node (symbol_addresses : List Address) (number : UInt32) (function_address : Address) :
    Result Node :=
  if number &&& 1 != 0 then do
    let address ← symbol_address symbol_addresses (number >>> 1).toNat
    Node.mkSymbol asserts address
  else Node.mkLocal asserts function_address (number >>> 1).toUInt64

namespace Frame

def next_words (frame : Frame) (count : Nat) : Result (List UInt32 × Frame) := do
  ensure (count ≤ frame.function_data.length)
    s!"unexpected end of function data. Expected at least {count} more"
  return (frame.function_data.take count,
    { frame with function_data := frame.function_data.drop count })

def next_word (frame : Frame) : Result (UInt32 × Frame) := do
  let (out, frame) ← frame.next_words 1
  return (out.headD 0, frame)

def next_locals (frame : Frame) (num_locals : UInt32) : Result (GraphDebugData × Frame) :=
  if frame.debug_data.has_locals then do
    let (out, state) ← frame.debug_data.debug_data_split_at num_locals.toNat
    return (out, { frame with debug_data := state })
  else .ok (frame.debug_data, frame)

end Frame

/-! ## Functions -/

/-- What the callback is given. -/
structure FunctionInfo where
  function : Node
  num_allocas : UInt32
  num_locals : UInt32
  debug_data : GraphDebugData
  sbom_info : Option (Bytes × Bytes)
  edge_data : EdgeKind → List UInt32
  symbol_addresses : List Address

/-- An edge between two nodes. -/
def mkEdge (to_node from_node : Node) (idx : UInt32) : Result Edge := do
  assert asserts to_node.valid
  assert asserts from_node.valid
  return ⟨to_node, from_node, idx⟩

/-- The loop over the words of the edges, whose number is a multiple of that of the
components. -/
def visitEdgesInner {τ : Type} (symbol_addresses : List Address) (function : Node) (indexed : Bool)
    (cb : τ → Edge → Result τ) : UInt32 → List UInt32 → τ → Result τ
  | prev, to_delta :: from_delta :: edge_data, t => do
    let to_number := prev + zigzag_decode to_delta
    let from_number := to_number + zigzag_decode from_delta
    assert asserts function.valid
    let to_node ← decode_node asserts symbol_addresses to_number function.symbol
    let from_node ← decode_node asserts symbol_addresses from_number function.symbol
    match indexed, edge_data with
    | true, idx :: edge_data => do
      let t ← cb t (← mkEdge asserts to_node from_node idx)
      visitEdgesInner symbol_addresses function indexed cb from_number edge_data t
    | true, [] => .ok t
    | false, edge_data => do
      let t ← cb t (← mkEdge asserts to_node from_node 0)
      visitEdgesInner symbol_addresses function indexed cb from_number edge_data t
  | _, _, t => .ok t

def FunctionInfo.visitEdges {τ : Type} (info : FunctionInfo) (kind : EdgeKind)
    (cb : τ → Edge → Result τ) (t : τ) : Result τ :=
  visitEdgesInner asserts info.symbol_addresses info.function kind.indexed cb 0
    (info.edge_data kind) t

/-- The words of the edges of a kind. -/
def next_edges (state : (EdgeKind → List UInt32) × Frame) (kind : EdgeKind) :
    Result ((EdgeKind → List UInt32) × Frame) := do
  let (edge_data, frame) := state
  let (edge_count, frame) ← frame.next_word
  let (data, frame) ← frame.next_words (kind.NUM_COMPONENTS * edge_count.toNat)
  return (Function.update edge_data kind data, frame)

/-- The next function of a frame. -/
def next_function (frame : Frame) : Result (FunctionInfo × Frame) := do
  let (function_symbol_index, frame) ← frame.next_word
  let (component_string_index, frame) ← frame.next_word
  let (version_string_index, frame) ← frame.next_word
  let function_address ← symbol_address frame.symbol_addresses function_symbol_index.toNat
  let (num_locals, frame) ← frame.next_word
  let (num_allocas, frame) ← frame.next_word
  let allocas := num_allocas.toNat
  let locals := num_locals.toNat
  ensure (num_allocas ≤ num_locals) s!"num_allocas ({allocas}) <= num_locals ({locals})"
  let (debug_data, frame) ← frame.next_locals num_locals
  let function ← Node.mkSymbol asserts function_address
  let sComp ← debug_data.string component_string_index.toNat
  let vComp ← debug_data.string version_string_index.toNat
  let sbom_info := if sComp != [] && vComp != [] then some (sComp, vComp) else none
  let (edge_data, frame) ← EdgeKind.all.foldlM next_edges (fun _ => [], frame)
  return ({ function, num_allocas, num_locals, debug_data, sbom_info, edge_data,
            symbol_addresses := frame.symbol_addresses }, frame)

/-- So many functions of a frame. -/
def readFunctions {σ : Type} (callback : σ → FunctionInfo → Result σ) : Nat → Frame → σ → Result σ
  | 0, _, s => .ok s
  | n + 1, frame, s => do
    let (info, frame) ← next_function asserts frame
    let s ← callback s info
    readFunctions callback n frame s

/-- The callback of `runOnSection`. -/
def readFrame {σ : Type} (callback : σ → FunctionInfo → Result σ) (s : σ) (frame : Frame) :
    Result σ :=
  readFunctions asserts callback frame.header.num_functions.toNat frame s

/-! ## Sections -/

namespace GraphHeader

/-- The header that lies in memory as these bytes. -/
def ofBytes (bytes : Bytes) : GraphHeader :=
  let word (i : Nat) := UInt32.ofNat (ofLE ((bytes.drop (4 * i)).take 4))
  { magic_number := [word 0, word 1]
    function_data_compressed_size := word 2
    debug_data_compressed_size := word 3
    num_symbols := word 4
    string_blob_length := word 5
    has_debug_locals := word 6
    total_num_locals := word 7
    num_functions := word 8
    function_array_length := word 9 }

def size : Nat := 40

end GraphHeader

/-- The buffers with some padding after the data. -/
structure FrameDecoder where
  function_data_decompressed : Bytes := []
  decompressed_debug_data : Bytes := []

/-- A section that is being read. -/
structure Cursor where
  full_section_data : Bytes
  section_start : Address
  section_data_cursor : Nat

def graph_magic_number_bytes : Bytes := GRAPH_MAGIC_NUMBER.flatMap wordBytes

/-- The first place of a pattern. -/
def find (pattern : Bytes) : Bytes → Option Nat
  | [] => if pattern.isPrefixOf [] then some 0 else none
  | b :: bytes =>
    if pattern.isPrefixOf (b :: bytes) then some 0 else (find pattern bytes).map (· + 1)

namespace Cursor

def consumeBytes (c : Cursor) (num_bytes : Nat) (what : String) : Result (Bytes × Cursor) := do
  let left := c.full_section_data.length - c.section_data_cursor
  ensure (c.section_data_cursor + num_bytes ≤ c.full_section_data.length)
    s!"Buffer has only {left} bytes. {num_bytes} expected. (Reading {what})"
  return ((c.full_section_data.drop c.section_data_cursor).take num_bytes,
    { c with section_data_cursor := c.section_data_cursor + num_bytes })

def consumeAddresses (target : Object) (c : Cursor) (count : Nat) (what : String) :
    Result (List Address × Cursor) := do
  let addr := c.section_start + UInt64.ofNat c.section_data_cursor
  let (_, c) ← c.consumeBytes (count * target.pointerSize) what
  let addresses ← tryContext (target.resolvePointers count addr) s!"Reading addresses for {what}"
  return (addresses, c)

end Cursor

def consumeOneGraph (target : Object) (decoder : FrameDecoder) (c : Cursor) :
    Result (Frame × FrameDecoder × Cursor) := do
  let (bytes, c) ← c.consumeBytes GraphHeader.size "graph header"
  let header := GraphHeader.ofBytes bytes
  assert asserts (header.magic_number == GRAPH_MAGIC_NUMBER)
  let (addresses, c) ← c.consumeAddresses target 1 "debug data address"
  let debug_data_address := addresses.headD 0
  let (symbol_addresses, c) ← c.consumeAddresses target header.num_symbols.toNat "symbol addresses"
  let (compressed_function_data, c) ←
    c.consumeBytes header.function_data_compressed_size.toNat "compressed function data"
  match Z.getFrameContentSize compressed_function_data with
  | .error => .error (.error ["Unable to get zstd size for function data"])
  | .unknown => .error (.error ["Missing zstd size for function data"])
  | .size function_data_size =>
    let buffer := resize decoder.function_data_decompressed
      (function_data_size + STREAMVBYTE_PADDING)
    match Z.decompress function_data_size compressed_function_data with
    | .error _ => .error (.error ["ZSTD decompression failed, function data"])
    | .ok data => do
      assert asserts (data.length == function_data_size)
      let function_data_decompressed := overwrite buffer data
      let length := header.function_array_length.toNat
      ensure (V.validate_stream function_data_decompressed function_data_size length)
        "Invalid streamvbyte function data"
      let function_data := V.decode function_data_decompressed length
      let (debug_data, decompressed_debug_data) ←
        parse_debug_data asserts Z V target decoder.decompressed_debug_data header
          debug_data_address
      return ({ header, function_data, symbol_addresses, debug_data },
        { function_data_decompressed, decompressed_debug_data }, c)

/-- The loop of `runOnSection`; a graph takes a step. -/
def runOnSection_loop {σ : Type} (target : Object) (cb : σ → Frame → Result σ) :
    Nat → FrameDecoder → Cursor → σ → Result (FrameDecoder × σ)
  | 0, _, _, _ => .error .diverges
  | fuel + 1, decoder, c, s =>
    if c.section_data_cursor < c.full_section_data.length then
      match find graph_magic_number_bytes (c.full_section_data.drop c.section_data_cursor) with
      | none => .ok (decoder, s)
      | some skipped => do
        -- Bytes that are skipped and not zero are only logged.
        let c := { c with section_data_cursor := c.section_data_cursor + skipped }
        let (frame, decoder, c) ← consumeOneGraph asserts Z V target decoder c
        let s ← cb s frame
        runOnSection_loop target cb fuel decoder c s
    else .ok (decoder, s)

def runOnSection {σ : Type} (target : Object) (decoder : FrameDecoder) (sec : Section)
    (cb : σ → Frame → Result σ) (s : σ) : Result (FrameDecoder × σ) := do
  let name := sec.name
  let full_section_data ← tryContext (target.copyData sec.size sec.start) s!"Reading section {name}"
  runOnSection_loop asserts Z V target cb (full_section_data.length + 1) decoder
    ⟨full_section_data, sec.start, 0⟩ s

/-- The callback of `visitSections`. -/
def readSection {σ : Type} (target : Object) (callback : σ → FunctionInfo → Result σ)
    (state : FrameDecoder × σ) (sec : Section) : Result (FrameDecoder × σ) :=
  if sec.name != graph_section_name target.isApple then .ok state
  else runOnSection asserts Z V target state.1 sec (readFrame asserts callback) state.2

/-- **Reads the graphs of an object.** -/
def readEdges {σ : Type} (target : Object) (callback : σ → FunctionInfo → Result σ) (s : σ) :
    Result σ := do
  let (_, s) ← target.sections.foldlM (readSection asserts Z V target callback) ({}, s)
  return s

end
end Bracelet.Edges
