import Bracelet.EmittedStatements

/-!
# What flows in the C program of a graph

The C program that is emitted for a graph stands for the graph in the points-to analysis.
`Flow` is the meaning of the edges of a graph, and the meaning of the C program is what an
inclusion-based analysis finds in it; here all functions are taken for reached, as such an analysis
does.

* `flow_included`: the analysis finds in the program whatever flows in the graph.
-/
namespace Bracelet.Edges.PointsTo
open PointerPrograms (Inclusion Obj Operand Procedure Prog Stmt)

/-! ## From the graph to the program -/

/-- The locals that are given blocks. -/
def Allocated (asserts : Bool) (fs : List GraphFunction) (n : Bracelet.Node) : Prop :=
  ∃ fi ∈ fs, ∃ allocas, fi.firstLocals asserts fi.num_allocas = .ok allocas ∧
    ∃ a ∈ allocas, n = toNode a

/-- The calls from a call site have as many arguments. -/
def GraphFunction.CallsOnce (fi : GraphFunction) : Prop :=
  ∀ e e', (.Call, e) ∈ fi.edges → (.Call, e') ∈ fi.edges → e.to_node = e'.to_node → e.idx = e'.idx

namespace Project
variable (p : Project) (prog : Prog CVar CName) (P : Program) (allocation : Bracelet.Node → Prop)

/-- The procedure `f` has a statement for the fact. -/
structure HasFact (f : CName) (e : Fact) (c : CStmt) : Prop where
  standsFor : c.StandsFor e
  has : prog.Has f (p.meaning c)
  used : ∀ m ∈ c.used, p.Declared m
  set : ∀ m ∈ c.set, p.isFunction m = false

/-- The program has the statements that stand for the graph. -/
structure Covers : Prop where
  facts : ∀ F ∈ P.functions, ∃ n, p.isFunction n = true ∧ toNode n = .sym F.symbol ∧
    ∀ e ∈ F.facts, ∃ c, p.HasFact prog (p.name n) e c
  supplied : ∀ F ∈ P.functions, ∀ callsite callee value nargs idx,
    ⟨.Call, callsite, callee, nargs⟩ ∈ F.facts → ⟨.ArgumentSupply, callsite, value, idx⟩ ∈ F.facts →
    idx < nargs
  blocks : ∀ n, allocation n → ∃ a f, n = toNode a ∧ prog.Has f (.malloc (.node a))
  globals : ∀ n, n.local_idx = none → p.Declared n → p.isFunction n = false → .node n ∈ prog.globals

/-- What the analysis of the program finds of a fact of the graph. -/
def Finds : FlowFact → Prop
  | .points n o => ∀ x, toNode x = n → p.Declared x →
      ∃ y, toNode y = o ∧ Inclusion prog (.val (p.operandOf x) (p.objectOf y))
  | .holds o o' => ∃ y z, toNode y = o ∧ toNode z = o' ∧
      Inclusion prog (.holds (p.objectOf y) (p.objectOf z))
  | .reached _ => True

variable {p prog P allocation} {start : Nat → Prop}

/-- The value of a node that is used. -/
theorem Finds.val {x : Node} {o : Bracelet.Node} (h : p.Finds prog (.points (toNode x) o))
    (hx : p.Declared x) :
    ∃ y, toNode y = o ∧ Inclusion prog (.val (p.operandOf x) (p.objectOf y)) := h x rfl hx

/-- A node that is assigned to. -/
theorem finds_of_var {x y : Node} (hx : p.isFunction x = false)
    (h : Inclusion prog (.val (.var (.node x)) (p.objectOf y))) :
    p.Finds prog (.points (toNode x) (toNode y)) := by
  intro x' hx' _
  obtain rfl := toNode_inj hx'
  exact ⟨y, rfl, by rwa [(not_isFunction_eq hx).1]⟩

/-- The procedure that a callee is found to be. -/
theorem Finds.callee {x n : Node} (h : p.Finds prog (.points (toNode x) (toNode n)))
    (hx : p.Declared x) (hn : p.isFunction n = true) :
    Inclusion prog (.val (p.operandOf x) (.fn (p.name n))) := by
  obtain ⟨y, hy, hval⟩ := h.val hx
  obtain rfl := toNode_inj hy
  rwa [(isFunction_eq hn).2] at hval

/-- **What flows in the graph is found in the program.** -/
theorem Covers.finds (hc : p.Covers prog P allocation) {fact : FlowFact}
    (h : Flow P allocation start fact) : p.Finds prog fact := by
  induction h with
  | start _ => trivial
  | symbol s =>
    intro x hx hdeclared
    refine ⟨x, hx, ?_⟩
    cases hfn : p.isFunction x with
    | true =>
      rw [(isFunction_eq hfn).1, (isFunction_eq hfn).2]
      exact .fn _
    | false =>
      rw [(not_isFunction_eq hfn).1, (not_isFunction_eq hfn).2]
      have hsymbol : x.local_idx = none := by
        have := isLocal_toNode x
        rw [hx] at this
        simpa using this.symm
      exact .global (hc.globals x hsymbol hdeclared hfn)
  | @allocation f i hi =>
    obtain ⟨a, g, ha, hmalloc⟩ := hc.blocks _ hi
    have hlocal : a.local_idx.isSome = true := by
      rw [← isLocal_toNode, ← ha]
      rfl
    have hfn : p.isFunction a = false := by
      cases hfn : p.isFunction a with
      | true => rw [symbol_of_isFunction hfn] at hlocal; cases hlocal
      | false => rfl
    rw [ha]
    refine finds_of_var hfn ?_
    rw [(not_isFunction_eq hfn).2]
    exact .malloc hmalloc
  | assign hF he _ _ _ ih =>
    obtain ⟨n, -, -, hfacts⟩ := hc.facts _ hF
    obtain ⟨c, hstands, hhas, hused, hset⟩ := hfacts _ he
    cases hstands with
    | assign dest source _ =>
      obtain ⟨y, rfl, hval⟩ := Finds.val ih (hused source (by simp [CStmt.used]))
      exact finds_of_var (hset dest (by simp [CStmt.set])) (.copy hhas hval)
  | load hF he _ _ _ _ ihaddr ihholds =>
    obtain ⟨n, -, -, hfacts⟩ := hc.facts _ hF
    obtain ⟨c, hstands, hhas, hused, hset⟩ := hfacts _ he
    cases hstands with
    | load into addr _ =>
      obtain ⟨y, rfl, hval⟩ := Finds.val ihaddr (hused addr (by simp [CStmt.used]))
      obtain ⟨y', z, hy, rfl, hholds⟩ := ihholds
      obtain rfl := toNode_inj hy
      exact finds_of_var (hset into (by simp [CStmt.set])) (.load hhas hval hholds)
  | store hF he _ _ _ _ ihaddr ihvalue =>
    obtain ⟨n, -, -, hfacts⟩ := hc.facts _ hF
    obtain ⟨c, hstands, hhas, hused, -⟩ := hfacts _ he
    cases hstands with
    | store addr value _ =>
      obtain ⟨y, hy, haddr⟩ := Finds.val ihaddr (hused addr (by simp [CStmt.used]))
      obtain ⟨z, hz, hvalue⟩ := Finds.val ihvalue (hused value (by simp [CStmt.used]))
      exact ⟨y, z, hy, hz, .store hhas haddr hvalue⟩
  | call => trivial
  | @argument F G callsite callee nargs formal value idx o hF hG hcall _ _ hsupply hdefine _ _
      ihcallee ihvalue =>
    obtain ⟨n, -, -, hfacts⟩ := hc.facts _ hF
    obtain ⟨m, hm, hsymbol, hdefines⟩ := hc.facts _ hG
    obtain ⟨c, hstands, hhas, hused, -⟩ := hfacts _ hcall
    have hlt := hc.supplied F hF _ _ _ _ _ hcall hsupply
    cases hstands with
    | call callsite callee nargs =>
      rw [← hsymbol] at ihcallee
      have hfn := Finds.callee ihcallee (hused callee (by simp [CStmt.used])) hm
      obtain ⟨c', hstands', hhas', hused', -⟩ := hfacts _ hsupply
      obtain ⟨d, hstandsd, hhasd, -, hsetd⟩ := hdefines _ hdefine
      generalize hcs : toNode callsite = cs at hstands'
      cases hstands' with
      | supply callsite' arg_no value =>
        obtain rfl := toNode_inj hcs
        generalize hno : arg_no.toNat = no at hstandsd
        cases hstandsd with
        | define formal arg_no' _ =>
          obtain ⟨y, rfl, hval⟩ := Finds.val ihvalue (hused' value (by simp [CStmt.used]))
          refine finds_of_var (hsetd formal (by simp [CStmt.set])) (.param hhasd ?_)
          rw [← hno]
          exact .supply hhas hfn (by simp [hlt]) (.copy hhas' hval)
  | @returned F G callsite callee nargs value idx o hF hG hcall _ _ hreturn _ _ ihcallee ihvalue =>
    obtain ⟨n, -, -, hfacts⟩ := hc.facts _ hF
    obtain ⟨m, hm, hsymbol, hreturns⟩ := hc.facts _ hG
    obtain ⟨c, hstands, hhas, hused, hset⟩ := hfacts _ hcall
    obtain ⟨d, hstandsd, hhasd, husedd, -⟩ := hreturns _ hreturn
    cases hstands with
    | call callsite callee nargs =>
      rw [← hsymbol] at ihcallee
      have hfn := Finds.callee ihcallee (hused callee (by simp [CStmt.used])) hm
      cases hstandsd with
      | ret value _ _ =>
        obtain ⟨y, rfl, hval⟩ := Finds.val ihvalue (husedd value (by simp [CStmt.used]))
        exact finds_of_var (hset callsite (by simp [CStmt.set]))
          (.result hhas hfn (.ret (.inl hhasd) hval))

end Project

section
variable {asserts : Bool} {emitPages : GraphFunction → Edge → Result (List (Node × Node))}
  {symbolName : Address → Result String} {override_nargs : List (String × UInt16)}
  {conservative_mode : Bool} {fs : List GraphFunction} {p : Project}
  {prelude : String → Option (Procedure CVar CName)} {prog : Prog CVar CName} {P : Program}

/-- The files of a graph cover it. -/
theorem emitted_covers
    (hemit : emitC asserts symbolName override_nargs emitPages conservative_mode fs = .ok p)
    (hlink : p.link prelude = some prog) (hdistinct : (fs.map GraphFunction.function).Nodup)
    (hP : Describes emitPages fs P) (honce : ∀ fi ∈ fs, fi.CallsOnce) :
    p.Covers prog P (Allocated asserts fs) := by
  obtain ⟨-, hfiles⟩ := emitted_files hemit hdistinct
  have hfile : ∀ fi ∈ fs, ∃ f st, (fi.function, f) ∈ p.files ∧ p.node_states = st.node_states ∧
      emitFile asserts emitPages st fi = .ok f := by
    intro fi hfi
    obtain ⟨st, -, hstates, -, hwrite, -⟩ := emitC_ok hemit
    obtain ⟨f, hf⟩ := writeFunctions_emits hwrite hfi
    exact ⟨f, st, (hfiles _ _).mpr ⟨fi, hfi, rfl, st, hstates, hf⟩, hstates, hf⟩
  constructor
  case facts =>
    intro F hF
    obtain ⟨fi, hfi, hsymbol, hstated⟩ := hP.program F hF
    obtain ⟨f, st, hmem, hstates, hf⟩ := hfile fi hfi
    obtain ⟨-, nargs, hstate, -⟩ := emitFile_ok hf
    refine ⟨fi.function, ?_, hsymbol, fun e he => ?_⟩
    · simp [Project.isFunction, fi.is_symbol, hstates, hstate, NodeState.isFunction]
    · obtain ⟨c, hc, hstands⟩ := emitted_fact hf (hstated e he)
      obtain ⟨s, hs, hhas⟩ := Project.has_of_mem hlink hmem hc
      obtain ⟨rfl, hused, hset⟩ := Project.stmt_some hs
      exact ⟨c, hstands, hhas, hused, hset⟩
  case supplied =>
    intro F hF callsite callee value nargs idx hcall hsupply
    obtain ⟨fi, hfi, hsymbol, hstated⟩ := hP.program F hF
    obtain ⟨f, st, hmem, hstates, hf⟩ := hfile fi hfi
    obtain ⟨-, -, -, -, -, hargs, -⟩ := emitFile_ok hf
    obtain ⟨c, hc, hstands⟩ := emitted_fact hf (hstated _ hsupply)
    obtain ⟨s, hs, -⟩ := Project.has_of_mem hlink hmem hc
    generalize hcs : callsite = cs at hstands
    cases hstands with
    | supply callsite' arg_no value =>
      obtain ⟨declared, hdeclared, rfl, hlt⟩ := Project.supply_declared hs
      rw [hargs] at hdeclared
      obtain ⟨e, he, rfl⟩ := List.mem_map.mp hdeclared
      rw [mem_ofKind] at he
      generalize hfact : (⟨.Call, callsite, callee, nargs⟩ : Fact) = fact at hcall
      cases hstated _ hcall with
      | @edge d e' he' =>
        obtain ⟨rfl, rfl, -, rfl⟩ := Fact.mk.inj hfact
        rw [honce fi hfi e' e he' he (toNode_inj hcs)]
        exact hlt
      | page => cases hfact
  case blocks =>
    rintro n ⟨fi, hfi, allocas, hallocas, a, ha, rfl⟩
    obtain ⟨f, st, hmem, -, hf⟩ := hfile fi hfi
    obtain ⟨-, -, -, -, hfirst, -⟩ := emitFile_ok hf
    obtain rfl := Except.ok.inj (hfirst.symm.trans hallocas)
    exact ⟨a, _, rfl, Project.has_malloc hlink hmem ha⟩
  case globals =>
    intro n hsymbol hdeclared hfn
    obtain ⟨-, -, -, -, -, -, hglobals⟩ := Project.link_ok hlink
    obtain ⟨state, hstate⟩ := Option.isSome_iff_exists.mp (hdeclared hsymbol)
    refine (hglobals _).mpr ⟨n, state, (Dict.mem_iff_get? (emitted_symbols hemit).1).mpr hstate, ?_,
      rfl⟩
    simpa [Project.isFunction, hsymbol, hstate] using hfn

/-- **What flows in a graph is found in its program.**  An inclusion-based analysis of the C files
is sound for the edges, whatever the overrides and the conservative bodies add. -/
theorem flow_included
    (hemit : emitC asserts symbolName override_nargs emitPages conservative_mode fs = .ok p)
    (hlink : p.link prelude = some prog) (hdistinct : (fs.map GraphFunction.function).Nodup)
    (hP : Describes emitPages fs P) (honce : ∀ fi ∈ fs, fi.CallsOnce) {start : Nat → Prop}
    {x y : Node} (hx : p.Declared x)
    (hflow : Flow P (Allocated asserts fs) start (.points (toNode x) (toNode y))) :
    Inclusion prog (.val (p.operandOf x) (p.objectOf y)) := by
  obtain ⟨y', hy, hval⟩ :=
    ((emitted_covers hemit hlink hdistinct hP honce).finds hflow).val hx
  obtain rfl := toNode_inj hy
  exact hval

end

/-! ## A value that is passed and returned -/

def passingEdges : List (EdgeKind × Edge) :=
  [(.Assign, ⟨.ofLocal 1 1, .ofSymbol 2, 0⟩), (.Store, ⟨.ofLocal 1 0, .ofSymbol 3, 0⟩),
    (.Load, ⟨.ofLocal 1 2, .ofLocal 1 0, 0⟩), (.Call, ⟨.ofLocal 1 3, .ofLocal 1 1, 1⟩),
    (.ArgumentSupply, ⟨.ofLocal 1 3, .ofLocal 1 2, 0⟩)]

def returningEdges : List (EdgeKind × Edge) :=
  [(.ArgumentDefinition, ⟨.ofLocal 2 0, .ofSymbol 2, 0⟩), (.Return, ⟨.ofSymbol 2, .ofLocal 2 0, 0⟩)]

theorem passing_symbol : (Node.ofSymbol 1).local_idx = none := by decide

theorem returning_symbol : (Node.ofSymbol 2).local_idx = none := by decide

theorem passing_locals : ∀ edge ∈ passingEdges, ∀ n ∈ out_edges edge.2, n.local_idx ≠ none →
    n.symbol = (Node.ofSymbol 1).symbol := by decide

theorem returning_locals : ∀ edge ∈ returningEdges, ∀ n ∈ out_edges edge.2, n.local_idx ≠ none →
    n.symbol = (Node.ofSymbol 2).symbol := by decide

/-- It keeps symbol 3 in a block, loads it, and passes it to a function that is in a local. -/
def passing : GraphFunction where
  function := .ofSymbol 1
  num_allocas := 1
  num_locals := 4
  edges := passingEdges
  is_symbol := passing_symbol
  locals := passing_locals

/-- It returns its argument. -/
def returning : GraphFunction where
  function := .ofSymbol 2
  num_allocas := 0
  num_locals := 1
  edges := returningEdges
  is_symbol := returning_symbol
  locals := returning_locals

def passedFacts : List FunctionFacts :=
  [⟨1, "passing", 1, [⟨.Assign, .loc 1 1, .sym 2, 0⟩, ⟨.Store, .loc 1 0, .sym 3, 0⟩,
      ⟨.Load, .loc 1 2, .loc 1 0, 0⟩, ⟨.Call, .loc 1 3, .loc 1 1, 1⟩,
      ⟨.ArgumentSupply, .loc 1 3, .loc 1 2, 0⟩]⟩,
    ⟨2, "returning", 0, [⟨.ArgumentDefinition, .loc 2 0, .sym 2, 0⟩,
      ⟨.Return, .sym 2, .loc 2 0, 0⟩]⟩]

theorem passedFacts_distinct : (passedFacts.map FunctionFacts.symbol).Nodup := by decide

theorem passedFacts_recorded : ∀ F ∈ passedFacts, F.Recorded := by decide

/-- Their facts. -/
def passed : Program where
  functions := passedFacts
  distinct := passedFacts_distinct
  recorded := passedFacts_recorded

def noPages (_ : GraphFunction) (_ : Edge) : Result (List (Node × Node)) := .ok []

theorem says_noPages {fi : GraphFunction} {fact : Fact} : fi.Says noPages fact ↔
    ∃ edge ∈ fi.edges, ∃ d ∈ Decl.all, d.kind = edge.1 ∧
      fact = ⟨d, toNode edge.2.to_node, toNode edge.2.from_node, edge.2.idx.toNat⟩ := by
  constructor
  · intro h
    cases h with
    | @edge d e he => exact ⟨_, he, d, d.mem_all, rfl, rfl⟩
    | @page E lines line _ hlines hline =>
      obtain rfl := Except.ok.inj hlines
      cases hline
  · rintro ⟨⟨kind, e⟩, he, d, -, rfl, rfl⟩
    exact .edge he

theorem passed_described : Describes noPages [passing, returning] passed := by
  constructor
  case program =>
    simp only [says_noPages]
    decide +kernel
  case graph =>
    have hedges : ∀ fi ∈ [passing, returning], ∃ F ∈ passed.functions,
        toNode fi.function = .sym F.symbol ∧ ∀ edge ∈ fi.edges, ∀ d ∈ Decl.all, d.kind = edge.1 →
          ⟨d, toNode edge.2.to_node, toNode edge.2.from_node, edge.2.idx.toNat⟩ ∈ F.facts := by
      decide +kernel
    intro fi hfi
    obtain ⟨F, hF, hsymbol, hfacts⟩ := hedges fi hfi
    refine ⟨F, hF, hsymbol, fun e he => ?_⟩
    obtain ⟨edge, hedge, d, hd, hkind, rfl⟩ := says_noPages.mp he
    exact hfacts edge hedge d hd hkind

theorem passed_distinct : ([passing, returning].map GraphFunction.function).Nodup := by
  decide

theorem passed_callsOnce : ∀ fi ∈ [passing, returning], fi.CallsOnce := by
  have hidx : ∀ fi ∈ [passing, returning], ∀ e ∈ fi.edges, ∀ e' ∈ fi.edges, e.1 = .Call →
      e'.1 = .Call → e.2.idx = e'.2.idx := by decide
  exact fun fi hfi e e' he he' _ => hidx fi hfi _ he _ he' rfl rfl

def passingFacts : FunctionFacts := passedFacts[0]

def returningFacts : FunctionFacts := passedFacts[1]

/-- Symbol 3 flows to the call site. -/
theorem passed_flow : Flow passed (Allocated true [passing, returning]) (fun _ => True)
    (.points (.loc 1 3) (.sym 3)) := by
  have hpassing : passingFacts ∈ passed.functions := List.getElem_mem _
  have hreturning : returningFacts ∈ passed.functions := List.getElem_mem _
  have hassign : ⟨.Assign, .loc 1 1, .sym 2, 0⟩ ∈ passingFacts.facts := by decide
  have hstore : ⟨.Store, .loc 1 0, .sym 3, 0⟩ ∈ passingFacts.facts := by decide
  have hload : ⟨.Load, .loc 1 2, .loc 1 0, 0⟩ ∈ passingFacts.facts := by decide
  have hcall : ⟨.Call, .loc 1 3, .loc 1 1, 1⟩ ∈ passingFacts.facts := by decide
  have hsupply : ⟨.ArgumentSupply, .loc 1 3, .loc 1 2, 0⟩ ∈ passingFacts.facts := by decide
  have hdefine : ⟨.ArgumentDefinition, .loc 2 0, .sym 2, 0⟩ ∈ returningFacts.facts := by decide
  have hreturn : ⟨.Return, .sym 2, .loc 2 0, 0⟩ ∈ returningFacts.facts := by decide
  have hreached : ∀ f, Flow passed (Allocated true [passing, returning]) (fun _ => True)
      (.reached f) := fun f => .start trivial
  have hblock : Flow passed (Allocated true [passing, returning]) (fun _ => True)
      (.points (.loc 1 0) (.loc 1 0)) :=
    .allocation ⟨passing, List.mem_cons_self, [.ofLocal 1 0], rfl, .ofLocal 1 0,
      List.mem_cons_self, by decide⟩
  have hvalue := Flow.load hpassing hload (hreached 1) hblock
    (.store hpassing hstore (hreached 1) hblock (.symbol 3))
  have hcallee : Flow passed (Allocated true [passing, returning]) (fun _ => True)
      (.points (.loc 1 1) (.sym returningFacts.symbol)) :=
    .assign hpassing hassign (hreached 1) (.symbol 2)
  exact .returned hpassing hreturning hcall (hreached 1) hcallee hreturn
    (.argument hpassing hreturning hcall (hreached 1) hcallee hsupply hdefine hvalue)

def passingFile : CFile where
  function := .ofSymbol 1
  nargs := 0
  locals := [.ofLocal 1 0, .ofLocal 1 1, .ofLocal 1 2, .ofLocal 1 3]
  allocas := [.ofLocal 1 0]
  call_args := [(.ofLocal 1 3, 1)]
  loop := [.assign (.ofLocal 1 1) (.ofSymbol 2), .load (.ofLocal 1 2) (.ofLocal 1 0),
    .store (.ofLocal 1 0) (.ofSymbol 3), .call (.ofLocal 1 3) (.ofLocal 1 1) 1,
    .supply (.ofLocal 1 3) 0 (.ofLocal 1 2)]

def returningFile : CFile where
  function := .ofSymbol 2
  nargs := 1
  locals := [.ofLocal 2 0]
  allocas := []
  call_args := []
  loop := [.ret (.ofLocal 2 0), .define (.ofLocal 2 0) 0]

/-- The files of the two functions, where symbol 3 has the name of an override. -/
def overriddenProject : Project where
  node_states := [(.ofSymbol 2, .Function 1), (.ofSymbol 3, .Function 1),
    (.ofSymbol 1, .Function 0)]
  override_nodes := [(.ofSymbol 3, "keep")]
  files := [(.ofSymbol 1, passingFile), (.ofSymbol 2, returningFile)]
  conservative := []

def overriddenNames (addr : Address) : Result String :=
  .ok (if addr = 3 then "keep@VERS_1" else "other")

theorem overridden_emitted :
    emitC true overriddenNames [("keep", 1)] noPages true [passing, returning] =
      .ok overriddenProject := by
  rfl

/-- The override returns null. -/
def keepNothing (_ : String) : Option (Procedure CVar CName) :=
  some { nparams := 1, autos := [], entry := [], loop := [], final := none }

theorem overridden_links : (overriddenProject.link keepNothing).isSome = true := by
  decide +kernel

theorem overridden_declared : overriddenProject.Declared (.ofLocal 1 3) := by
  unfold Project.Declared
  decide

/-- The analysis of the program finds that the override is passed and returned. -/
theorem overridden_found : ∃ prog, overriddenProject.link keepNothing = some prog ∧
    Inclusion prog (.val (overriddenProject.operandOf (.ofLocal 1 3))
      (overriddenProject.objectOf (.ofSymbol 3))) := by
  obtain ⟨prog, hlink⟩ := Option.isSome_iff_exists.mp overridden_links
  exact ⟨prog, hlink, flow_included overridden_emitted hlink passed_distinct passed_described
    passed_callsOnce overridden_declared passed_flow⟩

end Bracelet.Edges.PointsTo
