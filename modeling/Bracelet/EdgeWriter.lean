import Bracelet.Dict
import Bracelet.EdgeNodes
import Bracelet.Records

/-!
# Writing the embedded graph

`GraphWriter` and `FunctionWriter`: a graph is a table of symbols, a table of strings,
the names of the locals of its functions, and a stream of words with the record of
each function; `writeTo` compresses the parts and puts a header in front.

A function is written by a sequence of calls (`Op`), one function at a time.  Global
values are those an alias stands for.  `streamvbyte`, `zstd` and the sort are
parameters.
-/
namespace Bracelet.Edges

/-! ## Codecs -/

inductive ContentSize
  | size (n : Nat)
  | unknown
  | error

/-- What is used of `zstd`. -/
structure Zstd where
  compress : Bytes → Bytes
  getFrameContentSize : Bytes → ContentSize
  /-- Into a buffer of the given capacity; the error is its name. -/
  decompress : Nat → Bytes → Except String Bytes

structure Zstd.Lossless (Z : Zstd) : Prop where
  size : ∀ data, Z.getFrameContentSize (Z.compress data) = .size data.length
  decompress : ∀ data capacity, data.length ≤ capacity →
    Z.decompress capacity (Z.compress data) = .ok data

/-- What is used of `streamvbyte`. -/
structure StreamVByte where
  encode : List UInt32 → Bytes
  delta_encode : List UInt32 → UInt32 → Bytes
  /-- Whether the bytes, so many of them, hold exactly so many words. -/
  validate_stream : Bytes → Nat → Nat → Bool
  decode : Bytes → Nat → List UInt32
  delta_decode : Bytes → Nat → UInt32 → List UInt32

/-- Decoding reads back what was encoded, whatever the bytes that follow it. -/
structure StreamVByte.Lossless (V : StreamVByte) : Prop where
  validate : ∀ words rest,
    V.validate_stream (V.encode words ++ rest) (V.encode words).length words.length = true
  decode : ∀ words rest, V.decode (V.encode words ++ rest) words.length = words
  delta_validate : ∀ words previous rest, V.validate_stream (V.delta_encode words previous ++ rest)
    (V.delta_encode words previous).length words.length = true
  delta_decode : ∀ words previous rest,
    V.delta_decode (V.delta_encode words previous ++ rest) words.length previous = words
  /-- `streamvbyte_max_compressedbytes` -/
  delta_length : ∀ words previous,
    (V.delta_encode words previous).length ≤ (words.length + 3) / 4 + 4 * words.length

/-- The components of an edge; the third is read of indexed edges only. -/
abbrev Components := UInt32 × UInt32 × UInt32

/-- The sort of edges of so many components. -/
abbrev EdgeSort := Nat → List Components → List Components

/-! ## The header -/

def GRAPH_MAGIC_NUMBER : List UInt32 := [0x3ac73b4e, 0x445ecf19]

structure GraphHeader where
  magic_number : List UInt32
  function_data_compressed_size : UInt32
  debug_data_compressed_size : UInt32
  num_symbols : UInt32
  string_blob_length : UInt32
  has_debug_locals : UInt32
  total_num_locals : UInt32
  num_functions : UInt32
  function_array_length : UInt32
  deriving DecidableEq, Repr

def wordBytes (w : UInt32) : Bytes := leBytes 4 w.toNat

namespace GraphHeader

def words (h : GraphHeader) : List UInt32 :=
  h.magic_number ++ [h.function_data_compressed_size, h.debug_data_compressed_size, h.num_symbols,
    h.string_blob_length, h.has_debug_locals, h.total_num_locals, h.num_functions,
    h.function_array_length]

/-- The header as it lies in memory. -/
def bytes (h : GraphHeader) : Bytes := h.words.flatMap wordBytes

end GraphHeader

/-! ## The graph writer -/

section
variable {GV : Type} [DecidableEq GV] (asserts : Bool)

def as_u32 (n : Nat) : Result UInt32 := do
  assert asserts (n ≤ 2 ^ 32 - 1)
  return UInt32.ofNat n

structure GraphWriter (GV : Type) where
  StringBlobIndices : List (Bytes × UInt32) := []
  StringBlob : Bytes := []
  Symbols : List (GV × UInt32) := []
  symbols_in_order : List GV := []
  local_names : List UInt32 := []
  function_data : List UInt32 := []
  record_debug_data : Bool
  num_functions : UInt32 := 0

namespace GraphWriter

def symbol (gw : GraphWriter GV) (GO : GV) : Result (Node × GraphWriter GV) :=
  match Dict.get? gw.Symbols GO with
  | some idx => do
    let node ← Node.mkSymbol asserts idx.toUInt64
    return (node, gw)
  | none => do
    let idx := gw.Symbols.length
    assert asserts (idx == gw.symbols_in_order.length)
    let node ← Node.mkSymbol asserts (UInt64.ofNat idx)
    return (node, { gw with
      Symbols := Dict.set gw.Symbols GO (UInt32.ofNat idx)
      symbols_in_order := gw.symbols_in_order ++ [GO] })

def string (gw : GraphWriter GV) (S : Bytes) : UInt32 × GraphWriter GV :=
  match Dict.get? gw.StringBlobIndices S with
  | some idx => (idx, gw)
  | none =>
    let idx := UInt32.ofNat gw.StringBlobIndices.length
    (idx, { gw with
      StringBlob := gw.StringBlob ++ S ++ [0]
      StringBlobIndices := Dict.set gw.StringBlobIndices S idx })

end GraphWriter

/-! ## The function writer -/

structure FunctionWriter where
  ThisSymbolIdx : UInt64
  SbomComponentIdx : UInt32
  SbomVersionIdx : UInt32
  num_locals : UInt32 := 0
  m_edges : EdgeKind → List Components := fun _ => []

/-- The end of an edge: a global value, or a local of the function. -/
inductive End (GV : Type)
  | sym (gv : GV)
  | loc (local_idx : Nat)
  deriving DecidableEq, Repr

/-- A call on the writers. -/
inductive Op (GV : Type)
  | symbol (gv : GV)
  | freshLocal (Name : Bytes)
  | addEdge (kind : EdgeKind) (to_end from_end : End GV) (idx : UInt32)

/-- A function to write: what its constructor and `finish` are given, and the calls
between them. -/
structure FunctionGraph (GV : Type) where
  function : GV
  sbom : Option (Bytes × Bytes)
  ops : List (Op GV)
  NumAllocas : UInt32

namespace FunctionWriter

def new (gw : GraphWriter GV) (F : GV) (sbomInfo : Option (Bytes × Bytes)) :
    Result (GraphWriter GV × FunctionWriter) := do
  let gw := { gw with num_functions := gw.num_functions + 1 }
  let (this, gw) ← gw.symbol asserts F
  match sbomInfo with
  | some (ComponentName, Version) =>
    let (component, gw) := gw.string ComponentName
    let (version, gw) := gw.string Version
    return (gw, { ThisSymbolIdx := this.symbol, SbomComponentIdx := component,
                  SbomVersionIdx := version })
  | none =>
    let (emp, gw) := gw.string []
    return (gw, { ThisSymbolIdx := this.symbol, SbomComponentIdx := emp, SbomVersionIdx := emp })

def freshLocal (gw : GraphWriter GV) (fw : FunctionWriter) (Name : Bytes) :
    Result (GraphWriter GV × FunctionWriter) := do
  let gw :=
    if gw.record_debug_data then
      let (name, gw) := gw.string Name
      { gw with local_names := gw.local_names ++ [name] }
    else gw
  let _ ← Node.mkLocal asserts fw.ThisSymbolIdx fw.num_locals.toUInt64
  return (gw, { fw with num_locals := fw.num_locals + 1 })

def encode_node (fw : FunctionWriter) (n : Node) : Result UInt32 := do
  assert asserts n.valid
  match n.local_idx with
  | some idx => do
    assert asserts (n.symbol == fw.ThisSymbolIdx)
    return idx.toUInt32 <<< 1
  | none => return ((n.symbol <<< 1) ||| 1).toUInt32

/-- The node of an end. -/
def node (gw : GraphWriter GV) (fw : FunctionWriter) : End GV → Result (Node × GraphWriter GV)
  | .sym gv => gw.symbol asserts gv
  | .loc local_idx => do
    let n ← Node.mkLocal asserts fw.ThisSymbolIdx (UInt64.ofNat local_idx)
    return (n, gw)

def addEdge (fw : FunctionWriter) (kind : EdgeKind) (e : Edge) : Result FunctionWriter := do
  let to_number ← fw.encode_node asserts e.to_node
  let from_number ← fw.encode_node asserts e.from_node
  let data := fw.m_edges kind ++ [(to_number, from_number, e.idx)]
  return { fw with m_edges := Function.update fw.m_edges kind data }

def step (state : GraphWriter GV × FunctionWriter) (op : Op GV) :
    Result (GraphWriter GV × FunctionWriter) :=
  let (gw, fw) := state
  match op with
  | .symbol gv => do
    let (_, gw) ← gw.symbol asserts gv
    return (gw, fw)
  | .freshLocal Name => fw.freshLocal asserts gw Name
  | .addEdge kind to_end from_end idx => do
    let (to_node, gw) ← fw.node asserts gw to_end
    let (from_node, gw) ← fw.node asserts gw from_end
    let fw ← fw.addEdge asserts kind ⟨to_node, from_node, idx⟩
    return (gw, fw)

/-- The words of sorted edges: the zig-zag deltas to the component before. -/
def edge_words (indexed : Bool) : UInt32 → List Components → List UInt32
  | _, [] => []
  | previous_value, (to_number, from_number, idx) :: data =>
    zigzag_encode (to_number - previous_value) :: zigzag_encode (from_number - to_number) ::
      ((if indexed then [idx] else []) ++ edge_words indexed from_number data)

def storage_words (sort : EdgeSort) (kind : EdgeKind) (data : List Components) :
    Result (List UInt32) := do
  let count ← as_u32 asserts data.length
  return count :: edge_words kind.indexed 0 (sort kind.NUM_COMPONENTS data)

def finish (sort : EdgeSort) (gw : GraphWriter GV) (fw : FunctionWriter) (NumAllocas : UInt32) :
    Result (GraphWriter GV) := do
  let this ← as_u32 asserts fw.ThisSymbolIdx.toNat
  let edges ← EdgeKind.all.mapM fun kind => storage_words asserts sort kind (fw.m_edges kind)
  return { gw with function_data := gw.function_data ++
    [this, fw.SbomComponentIdx, fw.SbomVersionIdx, fw.num_locals, NumAllocas] ++ edges.flatten }

end FunctionWriter

/-! ## A graph -/

structure Graph (GV : Type) where
  record_debug_data : Bool
  functions : List (FunctionGraph GV)

/-- The global variables `writeTo` adds to the module. -/
structure GraphImage (GV : Type) where
  header : GraphHeader
  debug_data : Bytes
  symbols : List GV
  function_data : Bytes

def writeFunction (sort : EdgeSort) (gw : GraphWriter GV) (f : FunctionGraph GV) :
    Result (GraphWriter GV) := do
  let state ← FunctionWriter.new asserts gw f.function f.sbom
  let (gw, fw) ← f.ops.foldlM (FunctionWriter.step asserts) state
  fw.finish asserts sort gw f.NumAllocas

def writeFunctions (sort : EdgeSort) (g : Graph GV) : Result (GraphWriter GV) :=
  g.functions.foldlM (writeFunction asserts sort) { record_debug_data := g.record_debug_data }

def GraphWriter.writeTo (Z : Zstd) (V : StreamVByte) (gw : GraphWriter GV) :
    Result (GraphImage GV) := do
  let _ ← as_u32 asserts gw.function_data.length
  let function_data_compressed := Z.compress (V.encode gw.function_data)
  let _ ← as_u32 asserts gw.local_names.length
  let debug_data_compressed := Z.compress (gw.StringBlob ++ V.delta_encode gw.local_names 0)
  return {
    header := {
      magic_number := GRAPH_MAGIC_NUMBER
      function_data_compressed_size := ← as_u32 asserts function_data_compressed.length
      debug_data_compressed_size := ← as_u32 asserts debug_data_compressed.length
      num_symbols := ← as_u32 asserts gw.Symbols.length
      string_blob_length := ← as_u32 asserts gw.StringBlob.length
      has_debug_locals := if gw.record_debug_data then 1 else 0
      total_num_locals := ← as_u32 asserts gw.local_names.length
      num_functions := gw.num_functions
      function_array_length := ← as_u32 asserts gw.function_data.length }
    debug_data := debug_data_compressed
    symbols := gw.symbols_in_order
    function_data := function_data_compressed }

/-- A whole graph, written. -/
def serialise (Z : Zstd) (V : StreamVByte) (sort : EdgeSort) (g : Graph GV) :
    Result (GraphWriter GV × GraphImage GV) := do
  let gw ← writeFunctions asserts sort g
  let image ← gw.writeTo asserts Z V
  return (gw, image)

end
end Bracelet.Edges
