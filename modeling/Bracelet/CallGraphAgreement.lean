import Bracelet.CallGraph

/-!
# When the two reachability computations agree

The rules start at every function named `main` and follow call sites; the graph
search starts at the first `main` of the `DebugTable`, if the graph has it, and
follows edges between functions.  They disagree on a second `main`, on a `main` that
neither calls nor is called, and on the owner of a local the rules take for a callee:
`isSymbolAddrReferenced(x) :- Store(dst, x), …` does not ask for a symbol, so a local
stored into a referenced global ends up in the call graph, and the graph search then
steps to the function it belongs to.

`Binary.MainCovers` excludes the three; a `main` or a storing function is harmless
when direct calls reach it from the first `main`.
-/
namespace Bracelet

/-! ## Conditions on the facts -/

def FunctionFacts.CallsDirectly (F : FunctionFacts) (g : Nat) : Prop :=
  ∃ callsite idx, ⟨.Call, callsite, .sym g, idx⟩ ∈ F.facts

/-- The function stores one of its locals into a symbol. -/
def FunctionFacts.StoresLocal (F : FunctionFacts) : Prop :=
  ∃ e ∈ F.facts, e.decl = .Store ∧ e.to_node.isLocal = false ∧ e.from_node.isLocal = true

/-- The functions direct calls lead to from `m`. -/
inductive Program.DirectlyReached (P : Program) (m : Nat) : Nat → Prop
  | self : P.DirectlyReached m m
  | call {F g} : F ∈ P.functions → P.DirectlyReached m F.symbol → F.CallsDirectly g →
      P.DirectlyReached m g

/-- Some call has its callees computed by the rules: through a local, or by starting
a thread. -/
def Program.ComputedCall (P : Program) : Prop :=
  ∃ F ∈ P.functions, ∃ e ∈ F.facts, e.decl = .Call ∧
    (e.from_node.isLocal = true ∨
      ∃ name, P.FunctionName e.from_node name ∧ (name = pthread_create ∨ name = start_thread))

namespace Binary
variable {P : Program} (B : Binary P)

/-- The first `main` of the `DebugTable`. -/
def main_addr : Option Node := (B.callGraph []).main_addr

/-- The program has no `main`. -/
structure NoMain : Prop where
  unnamed : B.main_addr = none
  functions : ∀ F ∈ P.functions, F.function_name ≠ "main"

/-- **The first `main` covers the program**: it is function `M`, which has its place
in the graph, and the functions the computations may otherwise disagree on are
reached from it by direct calls. -/
structure MainCovers (M : FunctionFacts) : Prop where
  mem : M ∈ P.functions
  first : B.main_addr = some (.sym M.symbol)
  /-- It calls, or is called, or it makes a call through a local and takes an address. -/
  calls : (∃ g, M.CallsDirectly g) ∨ (∃ F ∈ P.functions, F.CallsDirectly M.symbol) ∨
    (∃ e ∈ M.facts, e.decl = .Call ∧ e.from_node.isLocal = true) ∧ ∃ s, M.AddressTaken s
  mains : ∀ F ∈ P.functions, F.function_name = "main" → P.DirectlyReached M.symbol F.symbol
  stores : P.ComputedCall → ∀ F ∈ P.functions, ¬ F.is_globals → F.StoresLocal →
    P.DirectlyReached M.symbol F.symbol

end Binary

/-! ## What a row says -/

namespace Simple
variable {P : Program}

theorem input_of_edge {d : Decl} {x y : Node} {idx : Nat} (h : Simple P (.edge d x y idx))
    (hd : d ≠ .Store) : P.input d x y idx := by
  cases h with
  | input h => exact h
  | store _ => exact absurd rfl hd

/-- The call site of a row is a call of an ordinary function, whose local it is. -/
theorem callsite_of_callgraph {cs callee : Node} {kind : CallKind}
    (h : Simple P (.callgraph cs callee kind)) : ∃ F ∈ P.functions, ¬ F.is_globals ∧
      cs.symbol = F.symbol ∧ P.EnclosingFunctionForLocal (.sym F.symbol) cs := by
  have hinput : ∃ y idx, P.input .Call cs y idx := by
    cases h with
    | direct h _ => exact ⟨_, _, input_of_edge h (by decide)⟩
    | thread h _ _ _ _ => exact ⟨_, _, input_of_edge h (by decide)⟩
    | indirect h _ _ => exact ⟨_, _, input_of_edge h (by decide)⟩
  obtain ⟨y, idx, F, hF, hg, he⟩ := hinput
  have hl := (P.recorded F hF).to_local _ he (by simp)
  exact ⟨F, hF, hg, ((P.recorded F hF).owned _ he).1 hl,
    enclosing_of_fact hF hg he (Or.inl rfl) hl⟩

/-- A conservative row comes from a computed call, and its callee is referenced. -/
theorem computedCall_of_conservative {cs callee : Node}
    (h : Simple P (.callgraph cs callee .Conservative)) :
    P.ComputedCall ∧ Simple P (.isSymbolAddrReferenced callee) := by
  cases h with
  | thread he _ hname hn href =>
    obtain ⟨F, hF, -, he⟩ := input_of_edge he (by decide)
    exact ⟨⟨F, hF, _, he, rfl, Or.inr ⟨_, hname, hn⟩⟩, href⟩
  | indirect he hloc href =>
    obtain ⟨F, hF, -, he⟩ := input_of_edge he (by decide)
    cases hloc with
    | isLocal henc => exact ⟨⟨F, hF, _, he, rfl, Or.inl (Program.isLocal_of_enclosing henc)⟩, href⟩

/-- A local is called only by a computed call, and only if it is referenced. -/
theorem referenced_of_local_callee {cs callee : Node} {kind : CallKind}
    (h : Simple P (.callgraph cs callee kind)) (hl : callee.isLocal = true) :
    P.ComputedCall ∧ Simple P (.isSymbolAddrReferenced callee) := by
  cases kind with
  | Conservative => exact computedCall_of_conservative h
  | Direct =>
    cases h with
    | direct _ hsym =>
      rw [Program.not_isLocal_of_isSymbol hsym] at hl
      cases hl

/-- The function is an initializer, or stores a local into a symbol. -/
def Leaks (P : Program) (f : Nat) : Prop :=
  ∃ F ∈ P.functions, F.symbol = f ∧ (F.is_globals ∨ F.StoresLocal)

/-- What the rules derive about locals: `P.input` facts apart, locals on the right
belong to initializers, and only those of leaking functions are referenced. -/
def LocalsLeak (P : Program) : SimpleTuple → Prop
  | .GlobalAssign _ y => y.isLocal = true → Leaks P y.symbol
  | .GlobalStore _ y => y.isLocal = true → Leaks P y.symbol
  | .edge .Store x y idx => P.input .Store x y idx ∨ (y.isLocal = true → Leaks P y.symbol)
  | .isSymbolAddrReferencedFrom v _ => v.isLocal = false
  | .isSymbolAddrReferenced v => v.isLocal = true → Leaks P v.symbol
  | _ => True

theorem localsLeak {t : SimpleTuple} (h : Simple P t) : LocalsLeak P t := by
  induction h with
  | inputGlobalAssign h =>
    obtain ⟨F, hF, hg, idx, he⟩ := h
    exact fun hl => ⟨F, hF, (((P.recorded F hF).owned _ he).2 hl).symm, Or.inl hg⟩
  | inputGlobalStore h =>
    obtain ⟨F, hF, hg, idx, he⟩ := h
    exact fun hl => ⟨F, hF, (((P.recorded F hF).owned _ he).2 hl).symm, Or.inl hg⟩
  | @input d x y idx h =>
    cases d with
    | Store => exact Or.inl h
    | _ => trivial
  | globalAssign _ _ _ h => exact h
  | globalStore _ _ _ h => exact h
  | store _ h => exact Or.inr h
  | toSelf _ _ _ _ hsym | toOther _ _ _ _ hsym => exact Program.not_isLocal_of_isSymbol hsym
  | fromSelf _ _ _ _ _ hsym | fromOther _ _ _ _ _ hsym =>
    exact Program.not_isLocal_of_isSymbol hsym
  | localSelf _ _ hsym | localOther _ _ hsym => exact Program.not_isLocal_of_isSymbol hsym
  | globalSelf _ _ hsym | globalOther _ _ hsym => exact Program.not_isLocal_of_isSymbol hsym
  | @stored dst x idx _ _ hedge hdst =>
    intro hl
    rcases hedge with ⟨F, hF, hg, he⟩ | hleak
    · have hown := (P.recorded F hF).owned _ he
      cases dst with
      | sym a => exact ⟨F, hF, (hown.2 hl).symm, Or.inr ⟨_, he, rfl, rfl, hl⟩⟩
      | loc f i =>
        -- both ends belong to the function of the store
        have hdst := hdst rfl
        rw [hown.1 rfl] at hdst
        rw [hown.2 hl]
        exact hdst
    · exact hleak hl
  | referenced _ _ h _ => intro hl; rw [h] at hl; cases hl
  | entry | isLocal | called | reachableName | direct | thread | indirect | functionCallGraph =>
    trivial

end Simple

/-! ## Programs without computed calls -/

/-- The rows of the direct calls. -/
def Program.directTable (P : Program) : List Row :=
  (P.functions.filter fun F => ¬ F.is_globals).flatMap fun F =>
    (F.facts.filter fun e => e.decl = .Call ∧ e.from_node.isLocal = false).map fun e =>
      ⟨e.to_node, e.from_node, .Direct⟩

theorem Program.not_computedCall {P : Program} (h : ∀ F ∈ P.functions,
    (∀ e ∈ F.facts, e.decl = .Call → e.from_node.isLocal = false) ∧
      F.function_name ≠ pthread_create ∧ F.function_name ≠ start_thread) : ¬ P.ComputedCall := by
  rintro ⟨F, hF, e, he, hd, hl | ⟨name, ⟨G, hG, -, rfl⟩, hn⟩⟩
  · rw [(h F hF).1 e he hd] at hl
    cases hl
  · exact hn.elim (h G hG).2.1 (h G hG).2.2

/-- **Without computed calls, the table lists the direct calls.** -/
theorem Program.isCallgraph_directTable {P : Program} (h : ¬ P.ComputedCall) :
    P.IsCallgraph P.directTable := by
  rintro ⟨cs, callee, kind⟩
  simp only [directTable, List.mem_flatMap, List.mem_map, List.mem_filter, decide_eq_true_eq,
    Row.mk.injEq]
  constructor
  · rintro ⟨F, ⟨hF, hg⟩, e, ⟨he, hd, hl⟩, rfl, rfl, rfl⟩
    have hedge := Simple.edge_of_fact hF hg he
    rw [hd] at hedge
    refine .direct hedge ?_
    rw [Node.eq_sym_of_not_isLocal hl]
    exact Simple.isSymbol_of_fact hF hg he (Or.inr (Node.eq_sym_of_not_isLocal hl))
  · intro hrow
    have hl : callee.isLocal = false := by
      by_contra hl
      exact h (Simple.referenced_of_local_callee hrow (by simpa using hl)).1
    cases kind with
    | Conservative => exact absurd (Simple.computedCall_of_conservative hrow).1 h
    | Direct =>
      cases hrow with
      | direct he hsym =>
        obtain ⟨F, hF, hg, he⟩ := Simple.input_of_edge he (by decide)
        exact ⟨F, ⟨hF, hg⟩, _, ⟨he, rfl, hl⟩, rfl, rfl, rfl⟩

/-! ## Both computations along direct calls -/

section
variable {P : Program} {B : Binary P} {table : List Row}

theorem Binary.edge_of_callgraph (htab : P.IsCallgraph table) {cs callee : Node}
    {kind : CallKind} (h : Simple P (.callgraph cs callee kind)) :
    (B.callGraph table).Edge (.sym cs.symbol) (.sym callee.symbol) :=
  CallGraph.edge_of_mem (g := B.callGraph table) ((htab ⟨cs, callee, kind⟩).mpr h)

theorem Simple.callgraph_of_callsDirectly {F : FunctionFacts} (hF : F ∈ P.functions) {g : Nat}
    (h : F.CallsDirectly g) : ¬ F.is_globals ∧ ∃ cs, cs.symbol = F.symbol ∧
      P.EnclosingFunctionForLocal (.sym F.symbol) cs ∧
      Simple P (.callgraph cs (.sym g) .Direct) := by
  obtain ⟨cs, idx, he⟩ := h
  have hg : ¬ F.is_globals := by
    intro hg
    rcases (P.recorded F hF).globals hg _ he with h | ⟨h, -⟩ <;> cases h
  have hl := (P.recorded F hF).to_local _ he (by simp)
  exact ⟨hg, cs, ((P.recorded F hF).owned _ he).1 hl, enclosing_of_fact hF hg he (Or.inl rfl) hl,
    .direct (edge_of_fact hF hg he) (isSymbol_of_fact hF hg he (Or.inr rfl))⟩

theorem Program.DirectlyReached.reachable {m f : Nat} (h : P.DirectlyReached m f)
    (hm : P.Reachable m) : P.Reachable f := by
  induction h with
  | self => exact hm
  | call hF _ hd ih =>
    obtain ⟨-, cs, -, henc, hrow⟩ := Simple.callgraph_of_callsDirectly hF hd
    exact .called hrow henc ih

theorem Program.DirectlyReached.path (htab : P.IsCallgraph table) {m f : Nat}
    (h : P.DirectlyReached m f) :
    Relation.ReflTransGen (B.callGraph table).Edge (.sym m) (.sym f) := by
  induction h with
  | self => exact .refl
  | call hF _ hd ih =>
    obtain ⟨-, cs, hsym, -, hrow⟩ := Simple.callgraph_of_callsDirectly hF hd
    have hedge := B.edge_of_callgraph htab hrow
    rw [hsym] at hedge
    exact ih.tail hedge

/-! ## Agreement -/

theorem Binary.function_name_of_main_addr {M : FunctionFacts} (hM : M ∈ P.functions)
    (h : B.main_addr = some (.sym M.symbol)) : M.function_name = "main" := by
  obtain ⟨⟨k, name⟩, hfind, hk⟩ := Option.map_eq_some_iff.mp h
  have hname : name = "main" := by simpa using List.find?_some hfind
  change k = _ at hk
  subst hk hname
  have hmem := Dict.mem_of_lastValue (Dict.mem_ofList.mp (List.mem_of_find?_eq_some hfind))
  obtain ⟨F, -, hmem⟩ := List.mem_flatMap.mp hmem
  obtain ⟨n, -, hn⟩ := List.mem_filterMap.mp hmem
  obtain ⟨text, htext, hpair⟩ := Option.map_eq_some_iff.mp hn
  obtain ⟨rfl, rfl⟩ := Prod.mk.injEq .. ▸ hpair
  simp only [printDebugNode, Node.symbol_sym, B.named M hM, Option.map_some, Node.isLocal_sym,
    Bool.false_eq_true, if_false, Option.some.injEq] at htext
  split at htext
  · exact absurd htext (by decide)
  · exact htext

/-- A function that is not an initializer is reached only along paths of the graph
from a function named `main`. -/
theorem Binary.path_of_reachable (htab : P.IsCallgraph table) {v : Node}
    (h : Simple P (.reachable v)) : (∃ F ∈ P.functions, v = .sym F.symbol ∧ F.is_globals) ∨
      ∃ F ∈ P.functions, F.function_name = "main" ∧
        Relation.ReflTransGen (B.callGraph table).Edge (.sym F.symbol) (.sym v.symbol) := by
  generalize ht : SimpleTuple.reachable v = t at h
  induction h generalizing v with
  | entry h =>
    cases ht
    obtain ⟨F, hF, rfl, hmain | hg⟩ := h
    · exact Or.inr ⟨F, hF, hmain, .refl⟩
    · exact Or.inl ⟨F, hF, rfl, hg⟩
  | called hrow henc _ _ ih =>
    cases ht
    obtain ⟨rfl, F, hF, hg, hsym⟩ := Program.symbol_of_enclosing henc
    have hedge := B.edge_of_callgraph htab hrow
    rcases ih rfl with ⟨G, hG, hGsym, hGg⟩ | ⟨M, hM, hname, hpath⟩
    · have hGF : G = F := Program.eq_of_symbol hG hF (Node.sym.inj hGsym ▸ hsym.symm)
      exact absurd (hGF ▸ hGg) hg
    · exact Or.inr ⟨M, hM, hname, hpath.tail hedge⟩
  | _ => cases ht

/-- Along the paths of the graph from a reachable function every function is
reachable, if those that leak a local are. -/
theorem Binary.reachable_of_path (htab : P.IsCallgraph table)
    (hleak : P.ComputedCall → ∀ f, Simple.Leaks P f → P.Reachable f) {m : Nat}
    (hm : P.Reachable m) {v : Node}
    (h : Relation.ReflTransGen (B.callGraph table).Edge (.sym m) v) :
    Simple P (.reachable v) := by
  induction h with
  | refl => exact hm
  | tail _ hedge ih =>
    obtain ⟨r, hr, hx, rfl⟩ := CallGraph.exists_row_of_edge hedge
    have hrow := (htab r).mp hr
    cases hl : r.callee.isLocal with
    | true =>
      obtain ⟨hcomputed, href⟩ := Simple.referenced_of_local_callee hrow hl
      exact hleak hcomputed _ (Simple.localsLeak href hl)
    | false =>
      obtain ⟨F, hF, hg, hsym, henc⟩ := Simple.callsite_of_callgraph hrow
      rw [hx, hsym] at ih
      rw [← Node.eq_sym_of_not_isLocal hl]
      exact .called hrow henc ih

theorem Binary.MainCovers.mem_nodes {M : FunctionFacts} (h : B.MainCovers M)
    (htab : P.IsCallgraph table) (hm : P.Reachable M.symbol) :
    Node.sym M.symbol ∈ (B.callGraph table).nodes := by
  rcases h.calls with ⟨g, hg⟩ | ⟨F, hF, hg⟩ | ⟨⟨e, he, hcall, hl⟩, s, hs⟩
  · obtain ⟨-, cs, hsym, -, hrow⟩ := Simple.callgraph_of_callsDirectly h.mem hg
    have hedge := B.edge_of_callgraph htab hrow
    rw [hsym] at hedge
    exact (CallGraph.mem_nodes hedge).1
  · obtain ⟨-, cs, -, -, hrow⟩ := Simple.callgraph_of_callsDirectly hF hg
    exact (CallGraph.mem_nodes (B.edge_of_callgraph htab hrow)).2
  · have hg : ¬ M.is_globals := by
      intro hg
      rcases (P.recorded M h.mem).globals hg e he with h' | ⟨h', -⟩ <;> rw [hcall] at h' <;> cases h'
    have href := Simple.referenced_of_addressTaken h.mem hg hm hs
    have hedge := Simple.edge_of_fact h.mem hg he
    rw [hcall] at hedge
    have hrow := Simple.indirect hedge (Simple.isLocal_of_fact h.mem hg he (Or.inr rfl) hl) href
    have hsite := ((P.recorded M h.mem).owned e he).1
      ((P.recorded M h.mem).to_local e he (by simp [hcall]))
    have := B.edge_of_callgraph htab hrow
    rw [hsite] at this
    exact (CallGraph.mem_nodes this).1

end

/-! ## Two functions named `main` -/

/-- A `main` that calls one function. -/
def mainCalling (symbol callee : Nat) : FunctionFacts :=
  ⟨symbol, "main", 0, [⟨.Call, .loc symbol 0, .sym callee, 0⟩]⟩

/-- Two functions named `main`, each calling a function of its own. -/
def twoMains : Program where
  functions := [mainCalling 1 3, mainCalling 2 4, ⟨3, "g", 0, []⟩, ⟨4, "h", 0, []⟩]
  distinct := by decide
  recorded := by decide

def twoMains.binary : Binary twoMains where
  symbolName a := [(1, "main"), (2, "main"), (3, "g"), (4, "h")].lookup a
  local_name _ := "call"
  named := by decide

def oneMain : Program where
  functions := [mainCalling 1 3, ⟨3, "g", 0, []⟩]
  distinct := by decide
  recorded := by decide

def oneMain.binary : Binary oneMain where
  symbolName a := [(1, "main"), (3, "g")].lookup a
  local_name _ := "call"
  named := by decide

/-- Paths in the graph with the one edge from `main` to `g`. -/
def oneMain.shortest_path : ShortestPath := fun _ _ x y =>
  if x = y then some [x] else if x = .sym 1 ∧ y = .sym 3 then some [x, y] else none

theorem oneMain.networkxExact :
    (oneMain.binary.callGraph oneMain.directTable).NetworkxExact oneMain.shortest_path := by
  have hnodes : (oneMain.binary.callGraph oneMain.directTable).nodes = [.sym 1, .sym 3] := by
    decide
  have hedge : (oneMain.binary.callGraph oneMain.directTable).Edge (.sym 1) (.sym 3) :=
    ⟨.Direct, by decide⟩
  have hback : ¬ Relation.ReflTransGen
      (oneMain.binary.callGraph oneMain.directTable).Edge (.sym 3) (.sym 1) := by
    intro h
    rcases Relation.ReflTransGen.cases_head h with h | ⟨y, ⟨kind, he⟩, -⟩
    · cases h
    · have hrows : ∀ e ∈ (oneMain.binary.callGraph oneMain.directTable).edges,
          e.1 ≠ .sym 3 := by decide
      exact hrows _ he rfl
  intro x hx y hy
  rw [hnodes] at hx hy
  simp only [List.mem_cons, List.not_mem_nil, or_false] at hx hy
  rcases hx with rfl | rfl <;> rcases hy with rfl | rfl
  · simp [shortest_path, Relation.ReflTransGen.refl]
  · simp [shortest_path, Relation.ReflTransGen.single hedge]
  · simp [shortest_path, hback]
  · simp [shortest_path, Relation.ReflTransGen.refl]

end Bracelet
