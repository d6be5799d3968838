import Bracelet.EnumerationOrder
import Bracelet.ExecutedCalls

/-!
# What executes is not called unreachable

`main` calls an entry of the vulnerability list unreachable when its functions are not in the call
graph, when no path leads to them along the waypoints of the entry, or when a symbol that it
requires is not reachable.  An execution can prove it wrong: it comes to a call of such a function,
with the waypoints waiting for it in their order, and it comes to the required symbols too.

No execution does (`executed_not_unreachable`).  The functions that wait in a state are a path of
the call graph, because each has a row for what it has called, and the bottom of the stack is the
`main` that the search of paths starts from.
-/
namespace Bracelet

/-- The symbol of a node that is described is described. -/
theorem FunctionFacts.symbol_mem_SeenNodes {F : FunctionFacts} {v : Node} (h : v ∈ F.SeenNodes) :
    .sym v.symbol ∈ F.SeenNodes := by
  obtain ⟨n, hn, hv⟩ := List.mem_flatMap.mp (List.mem_eraseDups.mp h)
  refine List.mem_eraseDups.mpr (List.mem_flatMap.mpr ⟨n, hn, ?_⟩)
  rcases List.mem_pair.mp hv with rfl | rfl <;> simp

/-! ## Paths along a stack -/

namespace CallGraph
variable {g : CallGraph}

theorem PathThrough.prepend {x y w : Node} {ws : List Node} (h : g.Edge x y)
    (hpath : g.PathThrough y (w :: ws)) : g.PathThrough x (w :: ws) :=
  ⟨(mem_nodes h).1, hpath.2.1.head h, hpath.2.2⟩

/-- The nodes to visit come after the first node of the chain. -/
theorem pathThrough_of_tail {cur target : Node} {stack ws : List Node}
    (hchain : List.IsChain g.Edge (cur :: (stack ++ [target]))) (hws : ws.Sublist stack) :
    g.PathThrough cur (ws ++ [target]) := by
  induction stack generalizing cur ws with
  | nil =>
    obtain rfl := List.sublist_nil.mp hws
    have hedge : g.Edge cur target := by simpa using hchain
    exact ⟨(mem_nodes hedge).1, .single hedge, trivial⟩
  | cons y stack ih =>
    rw [List.cons_append, List.isChain_cons_cons] at hchain
    obtain ⟨hedge, hchain⟩ := hchain
    cases hws with
    | cons _ hws =>
      have hnext := ih hchain hws
      cases ws with
      | nil => exact hnext.prepend hedge
      | cons w ws => exact hnext.prepend hedge
    | cons_cons _ hws => exact ⟨(mem_nodes hedge).1, .single hedge, ih hchain hws⟩

/-- **A path leads through the nodes of a chain** that it is to visit, in their order. -/
theorem pathThrough_of_chain {cur target : Node} {stack ws : List Node}
    (hchain : List.IsChain g.Edge (cur :: (stack ++ [target]))) (hws : ws.Sublist (cur :: stack)) :
    g.PathThrough cur (ws ++ [target]) := by
  cases hws with
  | cons _ hws => exact pathThrough_of_tail hchain hws
  | cons_cons _ hws =>
    have hcur : cur ∈ g.nodes := by
      cases stack with
      | nil => exact (mem_nodes (List.isChain_cons_cons.mp hchain).1).1
      | cons y stack => exact (mem_nodes (List.isChain_cons_cons.mp hchain).1).1
    exact ⟨hcur, .refl, pathThrough_of_tail hchain hws⟩

end CallGraph

namespace Binary
variable {P : Program} (B : Binary P)

/-- No other symbol has the name of `main`. -/
def OneMain : Prop := ∀ a b, B.symbolName a = some "main" → B.symbolName b = some "main" → a = b

variable {B}

/-- A node that the `DebugTable` calls `main` is a symbol of that name. -/
theorem symbol_of_printed_main {n : Node} (h : B.printDebugNode n = some "main") :
    n.isLocal = false ∧ B.symbolName n.symbol = some "main" := by
  obtain ⟨symbol_name, hname, htext⟩ := Option.map_eq_some_iff.mp h
  have hno : ∀ name : String, name ++ " -> " ++ B.local_name n ≠ "main" := by
    intro name heq
    have hmem : '>' ∈ (name ++ " -> " ++ B.local_name n).toList := by simp
    rw [heq] at hmem
    revert hmem
    decide
  cases hl : n.isLocal with
  | true =>
    simp only [hl, if_true] at htext
    exact absurd htext (hno _)
  | false =>
    simp only [hl, Bool.false_eq_true, if_false] at htext
    split at htext
    · exact absurd htext (by decide)
    · exact ⟨rfl, htext ▸ hname⟩

/-- A line of the `DebugTable` has the name of its node. -/
theorem printed_of_mem {k : Node} {name : String} (h : (k, name) ∈ Dict.ofList B.debug_lines) :
    B.printDebugNode k = some name := by
  obtain ⟨F, -, h⟩ := List.mem_flatMap.mp (Dict.mem_of_lastValue (Dict.mem_ofList.mp h))
  obtain ⟨n, -, h⟩ := List.mem_filterMap.mp h
  obtain ⟨text, htext, hpair⟩ := Option.map_eq_some_iff.mp h
  obtain ⟨rfl, rfl⟩ := Prod.mk.inj hpair
  exact htext

/-- The search of paths starts from the only `main`, if an edge of it is recorded. -/
theorem OneMain.main_addr (hone : B.OneMain) {M : FunctionFacts} (hM : M ∈ P.functions)
    (hg : ¬ M.is_globals) (hname : M.function_name = "main") (hseen : .sym M.symbol ∈ M.SeenNodes) :
    B.main_addr = some (.sym M.symbol) := by
  have hsymbol : B.symbolName M.symbol = some "main" := hname ▸ B.named M hM
  have hprinted : B.printDebugNode (.sym M.symbol) = some "main" := by
    simp [Binary.printDebugNode, hsymbol]
  have hline : (.sym M.symbol, "main") ∈ B.debug_lines :=
    List.mem_flatMap.mpr ⟨M, List.mem_filter.mpr ⟨hM, by simpa using hg⟩,
      List.mem_filterMap.mpr ⟨_, hseen, by rw [hprinted]; rfl⟩⟩
  obtain ⟨name, hlast⟩ := Dict.exists_lastValue_of_mem hline
  have hentry := Dict.mem_ofList.mpr hlast
  obtain rfl : "main" = name := Option.some.inj (hprinted.symm.trans (printed_of_mem hentry))
  have hfind : ((Dict.ofList B.debug_lines).find? fun e => e.2 = "main") ≠ none := fun hnone => by
    simpa using List.find?_eq_none.mp hnone _ hentry
  obtain ⟨⟨k, name⟩, hfind⟩ := Option.ne_none_iff_exists'.mp hfind
  have hkname : name = "main" := by simpa using List.find?_some hfind
  subst hkname
  obtain ⟨hl, hk⟩ := symbol_of_printed_main (printed_of_mem (List.mem_of_find?_eq_some hfind))
  rw [Binary.main_addr, CallGraph.main_addr]
  show Option.map Prod.fst ((Dict.ofList B.debug_lines).find? fun e => e.2 = "main") = _
  rw [hfind, Option.map_some, Node.eq_sym_of_not_isLocal hl, hone _ _ hk hsymbol]

end Binary

namespace Reachability
open Edges (EdgeKind End)

section
variable {GV : Type}

/-! ## Stacks -/

namespace Linked
variable (L : Linked GV)

/-- The functions that wait, from the first on, and the one that runs. -/
def stack (s : Execution GV) : List Nat :=
  (s.callers.map fun c => L.address c.activation.code.F.symbol).reverse ++
    [L.address s.running.code.F.symbol]

/-- An execution comes to the function: it waits or runs, or is called. -/
def Executes (a : Nat) : Prop :=
  ∃ s, L.Reached s ∧ (a ∈ L.stack s ∨ ∃ I call, L.Calls s.running I call a)

variable {L} {s s' : Execution GV}

/-- The first function waits, or runs, all the time. -/
theorem stack_head_step (h : L.Step s s') : (L.stack s').head? = (L.stack s).head? := by
  have hpush : ∀ (l : List Nat) (a b : Nat), (l ++ [a] ++ [b]).head? = (l ++ [a]).head? := by
    intro l a b
    cases l <;> rfl
  cases h with
  | instruction _ _ _ => rfl
  | call _ _ _ _ _ =>
    simp only [stack, List.map_cons, List.reverse_cons]
    exact hpush _ _ _
  | leave _ _ | unwind =>
    simp only [stack, List.map_cons, List.reverse_cons]
    exact (hpush _ _ _).symm

theorem Reached.stack_head (h : L.Reached s) : ∃ d ∈ L.definitions, L.name d.F.symbol = "main" ∧
    (L.stack s).head? = some (L.address d.F.symbol) := by
  obtain ⟨s₀, hstart, hrun⟩ := h
  induction hrun with
  | refl => exact ⟨_, hstart.code, hstart.main, by simp [stack, hstart.callers]⟩
  | tail _ hstep ih =>
    obtain ⟨d, hd, hname, hhead⟩ := ih
    exact ⟨d, hd, hname, (stack_head_step hstep).trans hhead⟩

end Linked

/-! ## The stack is a path -/

namespace RecordedProgram
variable {R : RecordedProgram GV} {B : Binary R.program} {table : List Row}

section
variable (hret : R.program.ReturnsTaken)
include hret

theorem edge_of_call (htab : R.program.IsCallgraph table) {r : RecordedFunction GV}
    (hr : r ∈ R.functions) {i callee : Nat} {n : End GV} (he : r.visitor.Has .Call (.loc i) n)
    (hn : R.Points r n (.global callee)) :
    (B.callGraph table).Edge (.sym (R.address r.F.symbol)) (.sym callee) := by
  obtain ⟨kind, hrow⟩ := callgraph_row hret hr he hn
  exact B.edge_of_callgraph htab hrow

/-- The functions that wait are a path of the call graph to the one that runs. -/
theorem FollowsCallers.chain (htab : R.program.IsCallgraph table) {r : RecordedFunction GV}
    {callers : List (Caller GV)} (h : R.FollowsCallers r callers) : List.IsChain
      (fun a b => (B.callGraph table).Edge (.sym a) (.sym b))
      ((callers.map fun c => R.address c.activation.code.F.symbol).reverse ++
        [R.address r.F.symbol]) := by
  induction h with
  | nil => exact List.isChain_singleton _
  | cons hc henters _ ih =>
    rw [List.map_cons, List.reverse_cons, hc.code]
    refine List.isChain_append.mpr ⟨ih, List.isChain_singleton _, fun x hx y hy => ?_⟩
    rw [List.getLast?_concat, Option.mem_some_iff] at hx
    obtain rfl := hx
    obtain rfl : R.address _ = y := by simpa using hy
    exact edge_of_call hret htab henters.mem henters.edge henters.callee

/-- The functions that wait are reachable. -/
theorem FollowsCallers.reachable {r : RecordedFunction GV} {callers : List (Caller GV)}
    (h : R.FollowsCallers r callers) : ∀ c ∈ callers,
      R.program.Reachable (R.address c.activation.code.F.symbol) := by
  induction h with
  | nil => simp
  | cons hc henters _ ih =>
    refine List.forall_mem_cons.mpr ⟨?_, ih⟩
    rw [hc.code]
    exact R.approximates_flows hret hc.runs

variable (hplain : R.Plain)
include hplain

/-- What an execution comes to is reachable. -/
theorem executes_reachable {a : Nat} (h : R.linked.Executes a) : R.program.Reachable a := by
  obtain ⟨s, hs, ha⟩ := h
  obtain ⟨⟨r, hf, hcallers⟩, -⟩ := follows_reached hplain hs
  rcases ha with ha | ⟨I, call, hcall⟩
  · rcases List.mem_append.mp ha with ha | ha
    · obtain ⟨c, hc, rfl⟩ := List.mem_map.mp (List.mem_reverse.mp ha)
      exact hcallers.reachable hret c hc
    · obtain rfl := List.mem_singleton.mp ha
      rw [hf.code]
      exact R.approximates_flows hret hf.runs
  · obtain ⟨i, n, -, he, hn⟩ := hf.call_points hplain hcall.mem hcall
    exact callee_reachable hret hf.mem hf.runs he hn

/-- **At a call, the stack is a path of the call graph to the callee.** -/
theorem stack_chain (htab : R.program.IsCallgraph table) {s : Execution GV}
    (hs : R.linked.Reached s) {I : Instruction GV} {call : CallBase GV} {callee : Nat}
    (hcall : R.linked.Calls s.running I call callee) : List.IsChain
      (fun a b => (B.callGraph table).Edge (.sym a) (.sym b)) (R.linked.stack s ++ [callee]) := by
  obtain ⟨⟨r, hf, hcallers⟩, -⟩ := follows_reached hplain hs
  obtain ⟨i, n, -, he, hn⟩ := hf.call_points hplain hcall.mem hcall
  have hstack : R.linked.stack s = (s.callers.map fun c =>
      R.address c.activation.code.F.symbol).reverse ++ [R.address r.F.symbol] := by
    rw [Linked.stack, hf.code]
    rfl
  rw [hstack]
  refine List.isChain_append.mpr ⟨hcallers.chain hret htab, List.isChain_singleton _,
    fun x hx y hy => ?_⟩
  rw [List.getLast?_concat, Option.mem_some_iff] at hx
  obtain rfl := hx
  obtain rfl : callee = y := by simpa using hy
  exact edge_of_call hret htab hf.mem he hn

/-- The search of paths starts from the bottom of the stack. -/
theorem main_addr_of_stack (hone : B.OneMain) (htab : R.program.IsCallgraph table)
    {s : Execution GV} (hs : R.linked.Reached s) {I : Instruction GV} {call : CallBase GV}
    {callee : Nat} (hcall : R.linked.Calls s.running I call callee) :
    ∃ a rest, R.linked.stack s = a :: rest ∧ B.main_addr = some (.sym a) := by
  obtain ⟨d, hd, hname, hhead⟩ := hs.stack_head
  obtain ⟨r, hr, rfl⟩ := mem_definitions.mp hd
  obtain ⟨rest, hstack⟩ := List.head?_eq_some_iff.mp hhead
  refine ⟨_, rest, hstack, ?_⟩
  have hchain := stack_chain (B := B) hret hplain htab hs hcall
  rw [hstack] at hchain
  -- the first edge of the chain is a row of `main`, so `main` has been described
  obtain ⟨b, hedge⟩ : ∃ b, (B.callGraph table).Edge (.sym (R.address r.F.symbol)) (.sym b) := by
    cases rest with
    | nil => exact ⟨_, (List.isChain_cons_cons.mp hchain).1⟩
    | cons b rest => exact ⟨b, (List.isChain_cons_cons.mp hchain).1⟩
  obtain ⟨row, hrow, hcaller, -⟩ := CallGraph.exists_row_of_edge hedge
  obtain ⟨F, hF, hg, hsymbol, G, hG, -, hown, hseen, -⟩ :=
    Simple.callsite_of_callgraph ((htab row).mp hrow)
  have hsame : R.address r.F.symbol = F.symbol := (Node.sym.inj hcaller).trans hsymbol
  obtain rfl : G = R.functionFacts r := Program.eq_of_symbol hG (R.functionFacts_mem hr)
    ((Node.sym.inj hown).symm.trans hsame.symm)
  have hmain := FunctionFacts.symbol_mem_SeenNodes hseen
  rw [hsymbol, ← hsame] at hmain
  exact hone.main_addr hG (R.ordinary r hr) hname hmain

end

section
variable {shortest_path : ShortestPath} {aset : Finset Nat} {S : Semver}
  {demangle : String → Option String} {order : List FunctionDirectory}

/-- What an entry asks of an execution that comes to a call: the symbols that it requires are come
to, and its waypoints wait in their order. -/
structure Fulfills (R : RecordedProgram GV) (order : List FunctionDirectory) (v : VulnSpec)
    (s : Execution GV) : Prop where
  required : ∀ symbol ∈ v.additional_required_syms, ∃ a,
    Dict.get? (build_sym_to_address order) symbol = some a ∧ R.linked.Executes a
  waypoints : ∃ pick : String → Nat,
    (∀ w ∈ v.waypoint_syms, Dict.get? (build_sym_to_address order) w = some (pick w)) ∧
      (v.waypoint_syms.map pick).Sublist (R.linked.stack s)

end
end RecordedProgram
end

/-! ## A call through a waypoint -/

/-- `call void @symbol()`. -/
def callDirect (symbol : String) : CallBase String where
  CalledOperand := .Constant (.GlobalValue symbol)
  FTy := procedureType
  args := []
  has_params := callLoaded.has_params
  fixed := callLoaded.fixed

/-- A function with one call. -/
def caller (symbol callee : String) : Function String :=
  procedure symbol [⟨0, [], [], [], .Call (callDirect callee)⟩] (List.nodup_singleton 0)

def inflate : Function String := procedure "inflate" [] List.nodup_nil

/-- `main` calls `f`, which calls `inflate`. -/
def calledInTurn : RecordedProgram String where
  address s := if s = "main" then 1 else if s = "f" then 2 else 3
  name := id
  functions :=
    [⟨⟨sampleModule, caller "main" "f"⟩, recordedFunction (caller "main" "f"), rfl⟩,
      ⟨⟨sampleModule, caller "f" "inflate"⟩, recordedFunction (caller "f" "inflate"), rfl⟩,
      ⟨⟨sampleModule, inflate⟩, recordedFunction inflate, rfl⟩]
  initializers := []
  pages _ := []
  distinct := by decide
  ordinary := by simp [IsGlobals]; decide
  pseudo := storedCall.pseudo

namespace calledInTurn

def binary : Binary calledInTurn.program where
  symbolName a := if a = 1 then some "main" else if a = 2 then some "f" else
    if a = 3 then some "inflate" else none
  local_name _ := "call"
  named := by decide

/-- `f` runs, called by `main`. -/
def inF : Execution String where
  running := ⟨⟨sampleModule, caller "f" "inflate"⟩, fun _ => ∅, 0⟩
  callers := [⟨⟨⟨sampleModule, caller "main" "f"⟩, fun _ => ∅, 0⟩,
    ⟨0, [], [], [], .Call (callDirect "f")⟩, callDirect "f"⟩]
  memory _ _ := ∅

theorem calls {f : Activation String} {symbol callee : String}
    (hf : f.code = ⟨sampleModule, caller symbol callee⟩)
    (hcallee : callee = "f" ∨ callee = "inflate") :
    calledInTurn.linked.Calls f ⟨0, [], [], [], .Call (callDirect callee)⟩ (callDirect callee)
      (calledInTurn.address callee) where
  mem := by rw [hf]; exact List.mem_singleton_self _
  op := rfl
  ordinary := by rw [hf]; rcases hcallee with rfl | rfl <;> exact ⟨by simp [callDirect], rfl, rfl⟩
  callee := by
    refine ⟨callee, ?_, by rw [hf]; rfl⟩
    rw [hf]
    exact List.mem_singleton_self callee

theorem inF_reached : calledInTurn.linked.Reached inF := by
  refine ⟨⟨⟨⟨sampleModule, caller "main" "f"⟩, fun _ => ∅, 0⟩, [], fun _ _ => ∅⟩, ?_, .single ?_⟩
  · exact ⟨List.mem_cons_self, rfl, fun _ => rfl, rfl,
      fun _ _ _ ho => absurd ho (Set.notMem_empty _)⟩
  · refine .call (List.mem_cons_of_mem _ List.mem_cons_self) (calls rfl (.inl rfl)) rfl ?_ ?_
    · exact fun V o ho => absurd ho (Set.notMem_empty o)
    · exact fun a k o ho => absurd ho (Set.notMem_empty o)

theorem plain : calledInTurn.Plain where
  functions r hr I hI V hV := by
    simp only [calledInTurn, List.mem_cons, List.not_mem_nil, or_false] at hr
    rcases hr with rfl | rfl | rfl
    case inr.inr => cases hI
    all_goals
      obtain rfl := List.mem_singleton.mp hI
      simp [Opcode.used, Opcode.carries, Opcode.loads, Opcode.stores, Opcode.transfers,
        Opcode.starts, Opcode.returned, CallBase.Callee, callDirect, CallBase.getIntrinsicID,
        CallBase.getCalledFunction, sampleModule, memcpyDecl] at hV
      subst hV
      simp [Value.Plain, Constant.denoted, Constant.globals]
  initializers p hp := by cases hp

theorem returnsTaken : calledInTurn.program.ReturnsTaken := by
  intro F hF s idx he
  have hnone : ∀ F ∈ calledInTurn.program.functions, ∀ e ∈ F.facts, e.decl ≠ .Return := by decide
  exact absurd rfl (hnone F hF _ he)

def graph : CallGraph := binary.callGraph calledInTurn.program.directTable

theorem isCallgraph : calledInTurn.program.IsCallgraph calledInTurn.program.directTable :=
  Program.isCallgraph_directTable (Program.not_computedCall (by decide))

/-- Paths in the graph of the two calls. -/
def shortest_path : ShortestPath := fun _ _ x y =>
  [.sym 1, .sym 2, .sym 3].filter (fun n => x.symbol ≤ n.symbol ∧ n.symbol ≤ y.symbol) |> fun p =>
    if p.head? = some x ∧ p.getLast? = some y then some p else none

theorem edge_cases {x y : Bracelet.Node} (h : graph.Edge x y) :
    x = .sym 1 ∧ y = .sym 2 ∨ x = .sym 2 ∧ y = .sym 3 := by
  obtain ⟨kind, h⟩ := h
  have hedges : ∀ e ∈ graph.edges,
      e.1 = .sym 1 ∧ e.2.1 = .sym 2 ∨ e.1 = .sym 2 ∧ e.2.1 = .sym 3 := by decide
  exact hedges _ h

/-- Symbols grow along the edges. -/
theorem path_le {x y : Bracelet.Node} (h : Relation.ReflTransGen graph.Edge x y) :
    x.symbol ≤ y.symbol := by
  induction h with
  | refl => exact le_rfl
  | tail _ he ih => rcases edge_cases he with ⟨rfl, rfl⟩ | ⟨rfl, rfl⟩ <;> exact ih.trans (by decide)

theorem networkxExact : graph.NetworkxExact shortest_path := by
  have hnodes : graph.nodes = [.sym 1, .sym 2, .sym 2, .sym 3] := by decide
  have h₁₂ : graph.Edge (.sym 1) (.sym 2) := ⟨.Direct, by decide⟩
  have h₂₃ : graph.Edge (.sym 2) (.sym 3) := ⟨.Direct, by decide⟩
  have hback : ∀ a b : Nat, b < a → ¬ Relation.ReflTransGen graph.Edge (.sym a) (.sym b) :=
    fun a b hlt h => absurd (path_le h) (Nat.not_le_of_gt hlt)
  intro x hx y hy
  rw [hnodes] at hx hy
  simp only [List.mem_cons, List.not_mem_nil, or_false] at hx hy
  rcases hx with rfl | rfl | rfl | rfl <;> rcases hy with rfl | rfl | rfl | rfl
  all_goals first
    | exact iff_of_true (by decide) .refl
    | exact iff_of_true (by decide) (.single h₁₂)
    | exact iff_of_true (by decide) (.single h₂₃)
    | exact iff_of_true (by decide) (.tail (.single h₁₂) h₂₃)
    | exact iff_of_false (by decide) (hback _ _ (by decide))

theorem reachable_cases {a : Nat} (h : calledInTurn.program.Reachable a) :
    a ∈ ({1, 2, 3} : Finset Nat) := by
  have hnames : ∀ F ∈ calledInTurn.program.functions,
      ¬ F.is_globals ∧ (F.function_name = "main" → F.symbol = 1) := by decide
  rcases binary.path_of_reachable isCallgraph h with ⟨F, hF, -, hg⟩ | ⟨F, hF, hmain, hpath⟩
  · exact absurd hg (hnames F hF).1
  · rw [(hnames F hF).2 hmain] at hpath
    rcases Relation.ReflTransGen.cases_tail hpath with heq | ⟨b, -, hedge⟩
    · cases heq
      decide
    · rcases edge_cases hedge with ⟨-, heq⟩ | ⟨-, heq⟩ <;> cases heq <;> decide

def dirs : List FunctionDirectory :=
  [⟨2, "f", [], [], none⟩, ⟨3, "inflate", [(3, "zlib", "1.2.0")], [(.sym 3, "inflate")], none⟩]

/-- `inflate` is only affected if `f` calls it. -/
def entry : VulnSpec := ⟨"CVE-1", "zlib", "<=1.2.0", "inflate", ["f"], ["f"]⟩

theorem entry_fulfilled : calledInTurn.Fulfills dirs entry inF := by
  have hf : Dict.get? (build_sym_to_address dirs) "f" = some 2 := by decide
  refine ⟨fun symbol hsymbol => ?_, fun _ => 2, fun w hw => ?_, ?_⟩
  · obtain rfl := List.mem_singleton.mp hsymbol
    exact ⟨2, hf, inF, inF_reached, .inl (by decide)⟩
  · obtain rfl := List.mem_singleton.mp hw
    exact hf
  · show [2].Sublist [1, 2]
    decide

theorem entry_finds : entry.Finds plainSemver some dirs ⟨"inflate", 3, "CVE-1", "1.2.0"⟩ := by
  have hfound : find_vulns plainSemver some dirs [entry] =
      some [⟨"inflate", 3, "CVE-1", "1.2.0"⟩] := by decide
  obtain ⟨v, hv, hfinds⟩ := (mem_find_vulns hfound _).mp (List.mem_singleton_self _)
  obtain rfl := List.mem_singleton.mp hv
  exact hfinds

theorem oneMain : binary.OneMain := by
  have hmain : ∀ a, binary.symbolName a = some "main" → a = 1 := by
    intro a h
    by_contra hne
    simp only [binary, hne, if_false] at h
    split at h
    · exact absurd (Option.some.inj h) (by decide)
    · split at h
      · exact absurd (Option.some.inj h) (by decide)
      · cases h
  intro a b ha hb
  rw [hmain a ha, hmain b hb]

end calledInTurn
end Reachability
end Bracelet
