import Bracelet.Dict
import Bracelet.EdgeReader

/-!
# The first points-to pass

`EmitC::initial_pass` of `PointsTo.cpp`.  It goes through the edges of every function and
learns what each node without a local index is: data that is stored into, a function with so
many arguments, or nothing in particular.  A symbol that another function mentions is looked
up once among the overrides of the prelude.
-/
namespace Bracelet.Edges.PointsTo

/-! ## Node states -/

/-- What is known about a node. -/
inductive NodeState
  /-- This node is undefined. -/
  | Undefined
  /-- This node is global data. -/
  | GlobalData
  /-- This node is a function with the given number of arguments. -/
  | Function (nargs : UInt16)
  deriving DecidableEq, Repr

def NodeState.stringify : NodeState → String
  | Undefined => "NodeStateUndefined"
  | GlobalData => "NodeStateGlobalData"
  | Function nargs => "NodeStateFunction(" ++ toString nargs.toNat ++ ")"

/-! ## Functions -/

/-- The nodes of an edge, in order. -/
def out_edges (e : Edge) : List Node := [e.to_node, e.from_node]

/-- A function and its edges, in the order in which `visitAllEdges` presents them.  Its
locals are all its own. -/
structure GraphFunction where
  function : Node
  num_allocas : UInt32
  num_locals : UInt32
  edges : List (EdgeKind × Edge)
  is_symbol : function.local_idx = none
  locals : ∀ edge ∈ edges, ∀ n ∈ out_edges edge.2, n.local_idx ≠ none → n.symbol = function.symbol

/-! ## The pass -/

/-- The state of the emitter, as far as the pass changes it. -/
structure EmitC where
  node_states : List (Node × NodeState) := []
  /-- The nodes whose names have been looked up. -/
  node_checked_for_override : List Node := []
  /-- The names of the overrides that nodes have. -/
  override_nodes : List (Node × String) := []
  deriving DecidableEq, Repr

section
variable (asserts : Bool) (symbolName : Address → Result String)
  (override_nargs : List (String × UInt16))

/-- Sixteen hexadecimal digits. -/
def hex16 (addr : Address) : String :=
  let digits := Nat.toDigits 16 addr.toNat
  String.ofList (List.replicate (16 - digits.length) '0' ++ digits)

/-- The C identifier of a symbol, along with its name. -/
def renderSymbol (addr : Address) : String :=
  let name := match symbolName addr with
    | .ok name => name
    | .error _ => "<unknown>"
  "NODE_0x" ++ hex16 addr ++ " /* " ++ name ++ " */"

/-- `full_name.substr(0, full_name.find('@'))` -/
def unversioned (full_name : String) : String :=
  String.ofList (full_name.toList.takeWhile (· ≠ '@'))

namespace EmitC

/-- Sets the state of a node, unless it has one that is not undefined. -/
def setNargs (node : Node) (node_state : NodeState) (st : EmitC) : Result EmitC := do
  assert asserts node.local_idx.isNone
  match Dict.get? st.node_states node with
  | none | some .Undefined =>
    return { st with node_states := Dict.set st.node_states node node_state }
  | some current =>
    if node_state = .Undefined then return st
    let rendered := renderSymbol symbolName node.symbol
    ensure (current = node_state) ("nargs mismatch for node " ++ rendered ++ ". Current: "
      ++ current.stringify ++ "; New: " ++ node_state.stringify)
    return st

/-- The name of a node is looked up among the overrides, the first time. -/
def checkOverride (st : EmitC) (out : Node) : Result EmitC := do
  if out ∈ st.node_checked_for_override then return st
  let st := { st with node_checked_for_override := out :: st.node_checked_for_override }
  let full_name ← symbolName out.symbol
  let name := unversioned full_name
  match Dict.get? override_nargs name with
  | none => return st
  | some nargs =>
    let st := { st with override_nodes := Dict.set st.override_nodes out name }
    st.setNargs asserts symbolName out (.Function nargs)

/-- What `initial_pass` makes of a node of an edge of a function. -/
def visitOut (function : Node) (st : EmitC) (out : Node) : Result EmitC := do
  if out.symbol = function.symbol then return st
  assert asserts out.local_idx.isNone
  let st ← st.setNargs asserts symbolName out .Undefined
  st.checkOverride asserts symbolName override_nargs out

/-- The callback of `visitAllEdges`; `current_function_nargs` is the number of arguments of
the function according to the edges before. -/
def visitEdge (function : Node) (state : EmitC × UInt32) (edge : EdgeKind × Edge) :
    Result (EmitC × UInt32) := do
  let (st, current_function_nargs) := state
  let (kind, e) := edge
  let (st, current_function_nargs) ← match kind with
    | .Call => do
      if e.from_node.local_idx.isNone then
        let st ← st.setNargs asserts symbolName e.from_node (.Function e.idx.toUInt16)
        pure (st, current_function_nargs)
      else pure (st, current_function_nargs)
    | .Store => do
      if e.to_node.local_idx.isNone then
        let st ← st.setNargs asserts symbolName e.to_node .GlobalData
        pure (st, current_function_nargs)
      else pure (st, current_function_nargs)
    | .ArgumentDefinition => pure (st, max current_function_nargs (e.idx + 1))
    | _ => pure (st, current_function_nargs)
  let st ← (out_edges e).foldlM (visitOut asserts symbolName override_nargs function) st
  return (st, current_function_nargs)

/-- The callback of `readEdges`. -/
def visitFunction (st : EmitC) (fi : GraphFunction) : Result EmitC := do
  let (st, current_function_nargs) ←
    fi.edges.foldlM (visitEdge asserts symbolName override_nargs fi.function) (st, 0)
  st.setNargs asserts symbolName fi.function (.Function current_function_nargs.toUInt16)

/-- **Populates node states and override usage**, for the functions in the order in which
`readEdges` presents them. -/
def initial_pass (fs : List GraphFunction) : Result EmitC :=
  fs.foldlM (visitFunction asserts symbolName override_nargs) {}

end EmitC
end
end Bracelet.Edges.PointsTo
