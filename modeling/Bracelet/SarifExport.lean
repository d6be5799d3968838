import Bracelet.Dict

/-!
# Exported traces

`export_sarif.py` reports a reachable function twice: as a SARIF result with the calls that
lead to it, and as a Code Quality issue.  Both are made from one list of addresses, which
`find_path_to_target` reads off a path of the call graph: for each call the entry of the caller
and the call site, and at the end the target.

LLDB and `networkx` are parameters, and so are `hashlib.md5` and `str.upper`.  The edges of a
graph are the `add_edge` calls in their order, of which the last one between two nodes wins.
-/
namespace Bracelet.ExportSarif

/-! ## The graph -/

/-- What `parse_node` makes of a column of the table. -/
inductive GraphNode
  | addr (addr : Int)
  | name (name : String)
  deriving DecidableEq, Repr

/-- A function or a symbol: its name, which may be empty, and the address it is loaded at. -/
structure SBSymbol where
  name : String
  start : Int

structure SBContext where
  function : Option SBSymbol := none
  symbol : Option SBSymbol := none

structure SBTarget where
  ResolveLoadAddress : Int → SBContext
  FindFunctions : String → List SBContext

/-- The start of the function, or else of the symbol. -/
def SBContext.start_addr (ctx : SBContext) : Option Int :=
  match ctx.function with
  | some f => some f.start
  | none => ctx.symbol.map SBSymbol.start

def LLDB_INVALID_ADDRESS : Int := 0xffffffffffffffff

/-- An address that is not the null or the invalid one. -/
def valid_start (start_addr : Option Int) : Option Int :=
  start_addr.filter fun start => start != 0 && start != LLDB_INVALID_ADDRESS

/-- Its `add_edge` calls: caller, callee and `call_site`. -/
structure DiGraph where
  edges : List (GraphNode × GraphNode × GraphNode)

namespace DiGraph

def add_edge (G : DiGraph) (u v call_site : GraphNode) : DiGraph := ⟨G.edges ++ [(u, v, call_site)]⟩

def nodes (G : DiGraph) : List GraphNode := (G.edges.flatMap fun e => [e.1, e.2.1]).eraseDups

/-- `G.get_edge_data(u, v).get("call_site")` -/
def call_site? (G : DiGraph) (u v : GraphNode) : Option GraphNode :=
  (G.edges.reverse.find? fun e => e.1 = u ∧ e.2.1 = v).map fun e => e.2.2

def in_degree (G : DiGraph) (n : GraphNode) : Nat :=
  ((G.edges.filter fun e => e.2.1 = n).map Prod.fst).eraseDups.length

end DiGraph

/-- The library: `ancestors` in the order of the set, and `shortest_path`, if there is one. -/
structure Networkx where
  ancestors : DiGraph → GraphNode → List GraphNode
  shortest_path : DiGraph → GraphNode → GraphNode → Option (List GraphNode)

section
variable (nx : Networkx) (target : SBTarget)

/-- The bridging edges of a node. -/
def bridge (G : DiGraph) : GraphNode → DiGraph
  | .name _ => G
  | .addr node =>
    let sb_addr := target.ResolveLoadAddress node
    let start_addr := valid_start sb_addr.start_addr
    let G := match start_addr with
      | some start => if start ≠ node then G.add_edge (.addr start) (.addr node) (.addr start) else G
      | none => G
    let names := (sb_addr.symbol.toList ++ sb_addr.function.toList).map SBSymbol.name
    match names.find? (· ≠ "") with
    | none => G
    | some sym_name =>
      let G := G.add_edge (.name sym_name) (.addr node) (.name sym_name)
      match start_addr with
      | some start => G.add_edge (.name sym_name) (.addr start) (.name sym_name)
      | none => G

/-- The graph of the rows: caller, call site and callee. -/
def build_callgraph (rows : List (GraphNode × GraphNode × GraphNode)) : DiGraph :=
  let G : DiGraph := ⟨rows.map fun row => (row.1, row.2.2, row.2.1)⟩
  G.nodes.foldl (bridge target) G

/-! ## The path -/

/-- The node to search: the target, or the start of its function. -/
def search_target (G : DiGraph) (target_addr : Int) : Option GraphNode :=
  if .addr target_addr ∈ G.nodes then some (.addr target_addr)
  else
    ((target.ResolveLoadAddress target_addr).start_addr.filter fun func_start =>
      func_start != 0 && decide (.addr func_start ∈ G.nodes)).map .addr

/-- The node is an address of a function named `main`. -/
def is_main : GraphNode → Bool
  | .name _ => false
  | .addr anc =>
    let sb_addr := target.ResolveLoadAddress anc
    let names := (sb_addr.function.toList ++ sb_addr.symbol.toList).map SBSymbol.name
    names.find? (· ≠ "") = some "main"

def main_node (ancestors : List GraphNode) : Option GraphNode :=
  match ancestors.find? (is_main target) with
  | some anc => some anc
  | none => if .name "main" ∈ ancestors then some (.name "main") else none

/-- The path from the root that is the furthest away. -/
def furthest_root (G : DiGraph) (search_target : GraphNode) (ancestors : List GraphNode) :
    List GraphNode :=
  let roots := ancestors.filter fun n => G.in_degree n = 0
  roots.foldl (fun longest_path r =>
    match nx.shortest_path G r search_target with
    | some p => if longest_path.length < p.length then p else longest_path
    | none => longest_path) []

/-- `func_path`, which is empty when there is no path to be traced. -/
def func_path (G : DiGraph) (target_addr : Int) : List GraphNode :=
  match search_target target G target_addr with
  | none => []
  | some search_target =>
    let ancestors := nx.ancestors G search_target
    let func_path := match main_node target ancestors with
      | some main_node => (nx.shortest_path G main_node search_target).getD []
      | none => []
    if func_path = [] then furthest_root nx G search_target ancestors else func_path

def add_to_trace (trace : List Int) (addr : Int) : List Int :=
  if trace.getLast? = some addr then trace else trace ++ [addr]

/-- The entry of a caller; a name is looked up. -/
def entry_addr : GraphNode → Option Int
  | .addr u => some u
  | .name u =>
    match target.FindFunctions u with
    | [] => none
    | ctx :: _ => ctx.start_addr

/-- The entry of a caller and its call site. -/
def add_call (G : DiGraph) (trace : List Int) (call : GraphNode × GraphNode) : List Int :=
  let trace := match entry_addr target call.1 with
    | some u => add_to_trace trace u
    | none => trace
  match G.call_site? call.1 call.2 with
  | some (.addr call_site) => add_to_trace trace call_site
  | _ => trace

/-- The addresses of a path of functions. -/
def trace_of (G : DiGraph) (func_path : List GraphNode) (target_addr : Int) : List Int :=
  if func_path = [] then [target_addr]
  else
    let trace := (func_path.zip func_path.tail).foldl (add_call target G) []
    let trace := match func_path.getLast? with
      | some (.addr last_node) => add_to_trace trace last_node
      | _ => trace
    add_to_trace trace target_addr

def find_path_to_target (G : DiGraph) (target_addr : Int) : List Int :=
  trace_of target G (func_path nx target G target_addr) target_addr

end

/-! ## The reports -/

structure LineLoc where
  file : String
  start_line : Nat
  start_col : Nat
  end_line : Nat
  end_col : Nat
  deriving DecidableEq, Repr

/-- The function and the line of each address that has them. -/
abbrev LocsMap := List (Int × String × LineLoc)

/-- The path is absolute. -/
def is_absolute (file : String) : Bool := file.toList.head? = some '/'

def hex (n : Int) : String :=
  (if n < 0 then "-0x" else "0x") ++ String.ofList (Nat.toDigits 16 n.natAbs)

inductive Message
  | vulnerable (fn_name : String) (addr : Int)
  | call_site (fn_name : String) (addr : Int)
  deriving DecidableEq, Repr

namespace Message

def addr : Message → Int
  | vulnerable _ addr => addr
  | call_site _ addr => addr

def text : Message → String
  | vulnerable fn_name addr => "Vulnerable function " ++ fn_name ++ " (" ++ hex addr ++ ")"
  | call_site fn_name addr => "Call site in " ++ fn_name ++ " (" ++ hex addr ++ ")"

end Message

structure Location where
  uri : String
  startLine : Nat
  startColumn : Nat
  endLine : Nat
  endColumn : Nat
  message : Message
  deriving DecidableEq, Repr

structure ThreadFlowLocation where
  location : Location
  nestingLevel : Nat
  deriving DecidableEq, Repr

/-- A result, with the locations of its one thread flow. -/
structure Result where
  ruleId : String
  message : String
  locations : Option (List Location)
  thread_flow : List ThreadFlowLocation
  deriving DecidableEq, Repr

section
variable (path_addresses : List Int) (locs_map : LocsMap)

/-- The location of a step, if its address has one. -/
def location_obj (idx : Nat) (addr : Int) : Option Location :=
  (Dict.get? locs_map addr).map fun (fn_name, loc) =>
    { uri := if is_absolute loc.file then "file://" ++ loc.file else loc.file
      startLine := loc.start_line
      startColumn := loc.start_col
      endLine := loc.end_line
      endColumn := loc.end_col
      message :=
        if idx = path_addresses.length - 1 then .vulnerable fn_name addr
        else .call_site fn_name addr }

/-- The loops from the last step back: the first one whose location will do. -/
def last_step (ok : LineLoc → Bool) : Option Nat :=
  (List.range path_addresses.length).reverse.find? fun idx =>
    match path_addresses[idx]?.bind (Dict.get? locs_map) with
    | some (_, loc) => ok loc
    | none => false

/-- Absolute paths are dropped when there is a `source_target`. -/
def in_target (source_target : Option String) (loc : LineLoc) : Bool :=
  !(source_target.isSome && is_absolute loc.file)

/-- The step of the top-level location. -/
def target_idx (source_target : Option String) : Option Nat :=
  match last_step path_addresses locs_map (in_target source_target) with
  | some idx => some idx
  | none => last_step path_addresses locs_map fun _ => true

/-- What the loop over the steps has built. -/
structure Flow where
  level : Nat := 1
  top_level_location : Option Location := none
  thread_flow_locations : List ThreadFlowLocation := []

/-- One step of the path. -/
def Flow.add (target_idx : Option Nat) (flow : Flow) (step : Int × Nat) : Flow :=
  let (addr, idx) := step
  -- Skip caller function steps
  if idx % 2 = 0 ∧ idx ≠ path_addresses.length - 1 then flow
  else match location_obj path_addresses locs_map idx addr with
    | none => flow
    | some location =>
      { level := flow.level + 1
        top_level_location :=
          if target_idx = some idx then some location else flow.top_level_location
        thread_flow_locations := flow.thread_flow_locations ++ [⟨location, flow.level⟩] }

def flow (source_target : Option String) : Flow :=
  path_addresses.zipIdx.foldl
    (Flow.add path_addresses locs_map (target_idx path_addresses locs_map source_target)) {}

variable (upper md5 : String → String) (cve_id classification target justification : String)
  (source_target : Option String)

def create_sarif_result : Option Result :=
  let flow := flow path_addresses locs_map source_target
  if flow.thread_flow_locations = [] then none
  else some
    { ruleId := cve_id
      message := "[" ++ cve_id ++ "] " ++ upper classification ++ "\n" ++ justification ++ "."
      locations := flow.top_level_location.map ([·])
      thread_flow := flow.thread_flow_locations }

structure Issue where
  description : String
  fingerprint : String
  severity : String
  path : String
  linesBegin : Nat
  linesEnd : Nat
  deriving DecidableEq, Repr

/-- The issue of a step. -/
def issue_at (idx : Nat) (addr : Int) (fn_name : String) (loc : LineLoc) : Issue :=
  let step_desc :=
    if idx = path_addresses.length - 1 then
      "Vulnerable function " ++ target ++ " reachable at address " ++ hex addr
    else "Vulnerable function " ++ target ++ " reachable from call site in " ++ fn_name ++
      " at address " ++ hex addr
  { description := "[" ++ cve_id ++ "] " ++ upper classification ++ " - " ++ step_desc ++ ". " ++
      justification ++ "."
    fingerprint := md5 ("trace-step-" ++ cve_id ++ "-" ++ toString addr ++ "-" ++ toString idx)
    severity := "critical"
    path := loc.file
    linesBegin := loc.start_line
    linesEnd := loc.end_line }

/-- The issue, with the step that it is about. -/
def codequality_issue : Option (Nat × Issue) := do
  let idx ← last_step path_addresses locs_map (in_target source_target)
  let addr ← path_addresses[idx]?
  let (fn_name, loc) ← Dict.get? locs_map addr
  return (idx, issue_at path_addresses upper md5 cve_id classification target justification idx addr
    fn_name loc)

def create_codequality_issue : Option Issue :=
  (codequality_issue path_addresses locs_map upper md5 cve_id classification target justification
    source_target).map Prod.snd

end
end Bracelet.ExportSarif
