import Bracelet.Dict
import Bracelet.SimpleRules

/-!
# Searching the call graph

`cg_lib.CallGraph` is built from the `callgraph` table of a run and its
`DebugTable`.  Its graph joins functions: of a row, it keeps the function of the
call site and the function of the callee.  `print_path_from_main` starts at the first
node the `DebugTable` calls `main` and asks `networkx` for a path to each waypoint in
turn; it answers with the path it prints, or with `None`.

`shortest_path` is a parameter; `NetworkxExact` is what is assumed of it.
-/
namespace Bracelet

/-- A line of `callgraph.csv`. -/
structure Row where
  caller : Node
  callee : Node
  kind : CallKind
  deriving DecidableEq, Repr

/-- `networkx.shortest_path` on the graph with the given edges, with weights. -/
abbrev ShortestPath :=
  List (Node × Node × CallKind) → (CallKind → Nat) → Node → Node → Option (List Node)

/-- `format_hex`, and the local index after a colon. -/
def printNodePure : Node → String
  | .sym addr => "0x" ++ hex 16 addr
  | .loc symbol local_idx => "0x" ++ hex 16 symbol ++ ":0x" ++ hex 4 local_idx
where
  hex (width n : Nat) : String :=
    let digits := Nat.toDigits 16 n
    String.ofList (List.replicate (width - digits.length) '0' ++ digits)

structure CallGraph where
  DebugTable : List (Node × String)
  table : List Row

namespace CallGraph

def KIND_WEIGHTS : CallKind → Nat
  | .Direct => 1
  | .Conservative => 100

def KIND_ARROWS : CallKind → String
  | .Direct => "--->"
  | .Conservative => "-?->"

variable (g : CallGraph)

/-- The edges of `G`, in the order in which they are added. -/
def edges : List (Node × Node × CallKind) :=
  g.table.map fun r => (.sym r.caller.symbol, .sym r.callee.symbol, r.kind)

/-- `G.nodes` -/
def nodes : List Node := g.edges.flatMap fun e => [e.1, e.2.1]

def Edge (x y : Node) : Prop := ∃ kind, (x, y, kind) ∈ g.edges

/-- `G[u][v]["kind"]`: the last edge added between two nodes wins. -/
def kind? (u v : Node) : Option CallKind :=
  Dict.get? (Dict.ofList (g.edges.map fun e => ((e.1, e.2.1), e.2.2))) (u, v)

def pretty (x : Node) : String := (Dict.get? g.DebugTable x).getD (printNodePure x)

section
variable (shortest_path : ShortestPath)

def print_path_between (x y : Node) : Option String :=
  if x ∉ g.nodes ∨ y ∉ g.nodes then none
  else (shortest_path g.edges KIND_WEIGHTS x y).map fun p =>
    String.join <| (p.zip p.tail).map fun e =>
      " " ++ ((g.kind? e.1 e.2).map KIND_ARROWS).getD "" ++ " " ++ g.pretty e.2

/-- The loop over the nodes still to reach. -/
def walk (cur : Node) (output : String) : List Node → Option String
  | [] => some output
  | waypoint :: to_reach => do
      let next_path ← g.print_path_between shortest_path cur waypoint
      walk waypoint (output ++ next_path) to_reach

/-- The first node the `DebugTable` calls `main`. -/
def main_addr : Option Node := (g.DebugTable.find? fun e => e.2 = "main").map Prod.fst

def print_path_from_main (target : Node) (waypoints : List Node) : Option String := do
  let main_addr ← g.main_addr
  g.walk shortest_path main_addr (g.pretty main_addr) (waypoints ++ [target])

/-- `networkx` finds a path between two nodes exactly when there is one. -/
def NetworkxExact : Prop :=
  ∀ x ∈ g.nodes, ∀ y ∈ g.nodes,
    (shortest_path g.edges KIND_WEIGHTS x y).isSome = true ↔ Relation.ReflTransGen g.Edge x y

end

variable {g} {shortest_path : ShortestPath}

theorem mem_nodes {x y : Node} (h : g.Edge x y) : x ∈ g.nodes ∧ y ∈ g.nodes := by
  obtain ⟨kind, h⟩ := h
  exact ⟨List.mem_flatMap.mpr ⟨_, h, by simp⟩, List.mem_flatMap.mpr ⟨_, h, by simp⟩⟩

theorem edge_of_mem {r : Row} (h : r ∈ g.table) :
    g.Edge (.sym r.caller.symbol) (.sym r.callee.symbol) :=
  ⟨r.kind, List.mem_map.mpr ⟨r, h, rfl⟩⟩

theorem exists_row_of_edge {x y : Node} (h : g.Edge x y) :
    ∃ r ∈ g.table, x = .sym r.caller.symbol ∧ y = .sym r.callee.symbol := by
  obtain ⟨kind, h⟩ := h
  obtain ⟨r, hr, he⟩ := List.mem_map.mp h
  cases he
  exact ⟨r, hr, rfl, rfl⟩

/-- A node reached by a path is a node of the graph, if its start is. -/
theorem mem_nodes_of_path {x y : Node} (hx : x ∈ g.nodes) (h : Relation.ReflTransGen g.Edge x y) :
    y ∈ g.nodes := by
  induction h with
  | refl => exact hx
  | tail _ he _ => exact (mem_nodes he).2

/-- The nodes lie in order on a path of the graph from `cur`. -/
def PathThrough (g : CallGraph) (cur : Node) : List Node → Prop
  | [] => True
  | waypoint :: to_reach =>
    cur ∈ g.nodes ∧ Relation.ReflTransGen g.Edge cur waypoint ∧ g.PathThrough waypoint to_reach

theorem print_path_between_isSome (hexact : g.NetworkxExact shortest_path) (x y : Node) :
    (g.print_path_between shortest_path x y).isSome = true ↔
      x ∈ g.nodes ∧ Relation.ReflTransGen g.Edge x y := by
  by_cases hx : x ∈ g.nodes
  · by_cases hy : y ∈ g.nodes
    · simp [print_path_between, hx, hy, hexact x hx y hy]
    · simp only [print_path_between, hy, not_false_eq_true, or_true, if_true,
        Option.isSome_none, Bool.false_eq_true, false_iff, not_and]
      exact fun _ hpath => hy (mem_nodes_of_path hx hpath)
  · simp [print_path_between, hx]

theorem walk_isSome (hexact : g.NetworkxExact shortest_path) (cur : Node) (output : String)
    (to_reach : List Node) :
    (g.walk shortest_path cur output to_reach).isSome = true ↔ g.PathThrough cur to_reach := by
  induction to_reach generalizing cur output with
  | nil => simp [walk, PathThrough]
  | cons waypoint to_reach ih =>
    have hbetween := print_path_between_isSome hexact cur waypoint
    unfold PathThrough
    rw [← and_assoc, ← hbetween]
    cases hp : g.print_path_between shortest_path cur waypoint with
    | none => simp [walk, hp]
    | some next_path => simp [walk, hp, ih]

/-- **A path is printed exactly when there is one** from `main` through the waypoints. -/
theorem print_path_from_main_isSome (hexact : g.NetworkxExact shortest_path) (t : Node)
    (waypoints : List Node) :
    (g.print_path_from_main shortest_path t waypoints).isSome = true ↔
      ∃ m, g.main_addr = some m ∧ g.PathThrough m (waypoints ++ [t]) := by
  unfold print_path_from_main
  cases hmain : g.main_addr with
  | none => simp
  | some m => simp [walk_isSome hexact]

end CallGraph

/-! ## The tables of a run -/

/-- What the object file tells about the nodes of a program. -/
structure Binary (P : Program) where
  symbolName : Nat → Option String
  local_name : Node → String
  named : ∀ F ∈ P.functions, symbolName F.symbol = some F.function_name

namespace Binary
variable {P : Program} (B : Binary P)

/-- `printDebugNode`, for a node whose symbol has a name. -/
def printDebugNode (n : Node) : Option String :=
  (B.symbolName n.symbol).map fun symbol_name =>
    let name := if symbol_name = "" then "<UnknownSymbol>" else symbol_name
    if n.isLocal then name ++ " -> " ++ B.local_name n else name

/-- The lines of `DebugTable.facts`: those of the ordinary functions. -/
def debug_lines : List (Node × String) :=
  (P.functions.filter fun F => ¬ F.is_globals).flatMap fun F =>
    F.SeenNodes.filterMap fun n => (B.printDebugNode n).map (n, ·)

/-- The call graph of a run that wrote `table`. -/
def callGraph (table : List Row) : CallGraph := ⟨Dict.ofList B.debug_lines, table⟩

/-- **The two computations agree** on every function that is not a pseudo-function:
its address is read from `reachable` exactly when a path from `main` is printed. -/
def Agrees (shortest_path : ShortestPath) (table : List Row) : Prop :=
  ∀ t, (∀ F ∈ P.functions, F.symbol = t → ¬ F.is_globals) →
    (P.Reachable t ↔
      ((B.callGraph table).print_path_from_main shortest_path (.sym t) []).isSome = true)

end Binary

/-- `table` is the `callgraph` relation as souffle wrote it out. -/
def Program.IsCallgraph (P : Program) (table : List Row) : Prop :=
  ∀ r : Row, r ∈ table ↔ Simple P (.callgraph r.caller r.callee r.kind)

end Bracelet
