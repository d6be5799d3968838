import Bracelet.EmittedFlows

/-!
# What the C program of a graph computes

Without overrides and conservative bodies, every statement of the program stands for a fact of the
graph (`Reflects`), so an analysis of the program finds nothing but what flows in the graph
(`inclusion_iff_flow`).  What its variables and blocks hold while it runs flows in the graph as well
(`emitted_runs_flow`).
-/
namespace Bracelet.Edges.PointsTo
open PointerPrograms (Exec Inclusion InclusionFact Obj Operand Procedure Prog Stmt)

/-! ## From the program to the graph -/

namespace Project
variable (p : Project) (prog : Prog CVar CName) (P : Program) (allocation : Bracelet.Node → Prop)

/-- A statement of `F` gives a block to a local, or stands for a fact. -/
def Stated (F : FunctionFacts) (s : Stmt CVar CName) : Prop :=
  (∃ a, s = .malloc (.node a) ∧ allocation (toNode a)) ∨
    ∃ e ∈ F.facts, ∃ c, c.StandsFor e ∧ s = p.meaning c ∧ ∀ m ∈ c.set, p.isFunction m = false

/-- Every statement of the program comes from the graph. -/
structure Reflects : Prop where
  has : ∀ f s, prog.Has f s → ∃ F ∈ P.functions, ∃ n, f = .node n ∧ toNode n = .sym F.symbol ∧
    p.Stated allocation F s
  final : ∀ f proc, prog.procedures f = some proc → proc.final = none
  globals : ∀ x ∈ prog.globals, ∃ n, x = .node n ∧ n.local_idx = none ∧ p.isFunction n = false
  names : ∀ n, p.name n = .node n

/-- What a fact of the analysis says of the graph, where a value, a parameter or a result is what
flows to the end of an edge. -/
def Means (flow : FlowFact → Prop) : InclusionFact CVar CName → Prop
  | .val e o =>
    (∀ x, e = p.operandOf x → ∃ y, o = p.objectOf y ∧ flow (.points (toNode x) (toNode y))) ∧
      ∀ callsite i, e = .var (.call_arg callsite i) → ∃ F ∈ P.functions, ∃ value y,
        ⟨.ArgumentSupply, toNode callsite, value, i⟩ ∈ F.facts ∧ o = p.objectOf y ∧
          flow (.points value (toNode y))
  | .holds o o' => ∀ y, o = p.objectOf y → ∃ z, o' = p.objectOf z ∧
      flow (.holds (toNode y) (toNode z))
  | .arg f i o => ∀ n, f = .node n → ∃ F ∈ P.functions, ∃ callsite callee nargs value y,
      ⟨.Call, callsite, callee, nargs⟩ ∈ F.facts ∧ ⟨.ArgumentSupply, callsite, value, i⟩ ∈ F.facts ∧
        o = p.objectOf y ∧ flow (.points callee (toNode n)) ∧ flow (.points value (toNode y))
  | .ret f o => ∀ n, f = .node n → ∃ G ∈ P.functions, toNode n = .sym G.symbol ∧ ∃ value idx y,
      ⟨.Return, .sym G.symbol, value, idx⟩ ∈ G.facts ∧ o = p.objectOf y ∧
        flow (.points value (toNode y))

variable {p prog P allocation} {flow : FlowFact → Prop} {x y n : Node}

theorem operandOf_var {v : CVar} (h : .var v = p.operandOf x) :
    v = .node x ∧ p.isFunction x = false := by
  cases hfn : p.isFunction x with
  | true => simp [operandOf, hfn] at h
  | false =>
    simp only [operandOf, hfn, Bool.false_eq_true, if_false, Operand.var.injEq] at h
    exact ⟨h, rfl⟩

section
variable (hnames : ∀ n, p.name n = .node n)
include hnames

theorem operandOf_fn {f : CName} (h : .fn f = p.operandOf x) :
    f = .node x ∧ p.isFunction x = true := by
  cases hfn : p.isFunction x with
  | true =>
    simp only [operandOf, hfn, if_true, Operand.fn.injEq] at h
    exact ⟨h.trans (hnames x), rfl⟩
  | false => simp [operandOf, hfn] at h

theorem objectOf_inj (h : p.objectOf x = p.objectOf y) : x = y := by
  cases hx : p.isFunction x with
  | true =>
    cases hy : p.isFunction y with
    | true =>
      rw [(isFunction_eq hx).2, (isFunction_eq hy).2, hnames, hnames] at h
      exact CName.node.inj (Obj.fn.inj h)
    | false => rw [(isFunction_eq hx).2, (not_isFunction_eq hy).2] at h; cases h
  | false =>
    cases hy : p.isFunction y with
    | true => rw [(not_isFunction_eq hx).2, (isFunction_eq hy).2] at h; cases h
    | false =>
      rw [(not_isFunction_eq hx).2, (not_isFunction_eq hy).2] at h
      exact CVar.node.inj (Obj.site.inj h)

theorem objectOf_fn {f : CName} (h : .fn f = p.objectOf y) :
    f = .node y ∧ p.isFunction y = true := by
  cases hy : p.isFunction y with
  | true =>
    rw [(isFunction_eq hy).2, hnames] at h
    exact ⟨Obj.fn.inj h, rfl⟩
  | false => rw [(not_isFunction_eq hy).2] at h; cases h

end

/-- What is found of a node that is used. -/
theorem Means.points {o : Obj CVar CName} (h : p.Means P flow (.val (p.operandOf x) o)) :
    ∃ y, o = p.objectOf y ∧ flow (.points (toNode x) (toNode y)) := h.1 x rfl

/-- What is found of a callee. -/
theorem Means.callee (hnames : ∀ n, p.name n = .node n) {f : CName}
    (h : p.Means P flow (.val (p.operandOf x) (.fn f))) :
    ∃ n, f = .node n ∧ flow (.points (toNode x) (toNode n)) := by
  obtain ⟨y, hy, hflow⟩ := h.points
  exact ⟨y, (objectOf_fn hnames hy).1, hflow⟩

/-- A variable of a node. -/
theorem means_of_points {o : Obj CVar CName} (ho : o = p.objectOf y)
    (h : flow (.points (toNode x) (toNode y))) : p.Means P flow (.val (.var (.node x)) o) := by
  refine ⟨fun x' hx' => ?_, fun _ _ hvar => by cases hvar⟩
  obtain rfl := CVar.node.inj (operandOf_var hx').1
  exact ⟨y, ho, h⟩

section
variable (hr : p.Reflects prog P allocation) {f : CName} {v : CVar} {e e' : Operand CVar CName}
include hr

/-! Where each kind of statement comes from. -/

theorem Reflects.of_malloc (h : prog.Has f (.malloc v)) :
    ∃ a, v = .node a ∧ allocation (toNode a) := by
  obtain ⟨F, -, n, -, -, ⟨a, ha, halloc⟩ | ⟨fact, -, c, -, hc, -⟩⟩ := hr.has _ _ h
  · exact ⟨a, Stmt.malloc.inj ha, halloc⟩
  · cases c <;> cases hc

/-- A copy is an assignment, or supplies an argument. -/
theorem Reflects.of_copy (h : prog.Has f (.copy v e)) : ∃ F ∈ P.functions,
    (∃ dest source idx, ⟨.Assign, toNode dest, toNode source, idx⟩ ∈ F.facts ∧
      v = .node dest ∧ e = p.operandOf source) ∨
    ∃ callsite value arg_no, ⟨.ArgumentSupply, toNode callsite, toNode value, arg_no⟩ ∈ F.facts ∧
      v = .call_arg callsite arg_no ∧ e = p.operandOf value := by
  obtain ⟨F, hF, n, -, -, ⟨a, ha, -⟩ | ⟨fact, hfact, c, hstands, hc, -⟩⟩ := hr.has _ _ h
  · cases ha
  · cases hstands with
    | assign dest source idx =>
      obtain ⟨rfl, rfl⟩ := Stmt.copy.inj hc
      exact ⟨F, hF, .inl ⟨dest, source, idx, hfact, rfl, rfl⟩⟩
    | supply callsite arg_no value =>
      obtain ⟨rfl, rfl⟩ := Stmt.copy.inj hc
      exact ⟨F, hF, .inr ⟨callsite, value, _, hfact, rfl, rfl⟩⟩
    | _ => cases hc

theorem Reflects.of_param {i : Nat} (h : prog.Has f (.param v i)) : ∃ F ∈ P.functions, ∃ n value,
    f = .node n ∧ toNode n = .sym F.symbol ∧ v = .node value ∧
      ⟨.ArgumentDefinition, toNode value, .sym F.symbol, i⟩ ∈ F.facts := by
  obtain ⟨F, hF, n, hf, hn, ⟨a, ha, -⟩ | ⟨fact, hfact, c, hstands, hc, -⟩⟩ := hr.has _ _ h
  · cases ha
  · cases hstands with
    | define value arg_no function =>
      obtain ⟨rfl, rfl⟩ := Stmt.param.inj hc
      have hdefines := (P.recorded F hF).definition _ hfact rfl
      dsimp only at hdefines
      subst hdefines
      exact ⟨F, hF, n, value, hf, hn, rfl, hfact⟩
    | _ => cases hc

theorem Reflects.of_load (h : prog.Has f (.load v e)) : ∃ F ∈ P.functions, ∃ into addr idx,
    ⟨.Load, toNode into, toNode addr, idx⟩ ∈ F.facts ∧ v = .node into ∧ e = p.operandOf addr := by
  obtain ⟨F, hF, n, -, -, ⟨a, ha, -⟩ | ⟨fact, hfact, c, hstands, hc, -⟩⟩ := hr.has _ _ h
  · cases ha
  · cases hstands with
    | load into addr idx =>
      obtain ⟨rfl, rfl⟩ := Stmt.load.inj hc
      exact ⟨F, hF, into, addr, idx, hfact, rfl, rfl⟩
    | _ => cases hc

theorem Reflects.of_store (h : prog.Has f (.store e e')) : ∃ F ∈ P.functions, ∃ addr value idx,
    ⟨.Store, toNode addr, toNode value, idx⟩ ∈ F.facts ∧
      e = p.operandOf addr ∧ e' = p.operandOf value := by
  obtain ⟨F, hF, n, -, -, ⟨a, ha, -⟩ | ⟨fact, hfact, c, hstands, hc, -⟩⟩ := hr.has _ _ h
  · cases ha
  · cases hstands with
    | store addr value idx =>
      obtain ⟨rfl, rfl⟩ := Stmt.store.inj hc
      exact ⟨F, hF, addr, value, idx, hfact, rfl, rfl⟩
    | _ => cases hc

theorem Reflects.of_call {args : List CVar} (h : prog.Has f (.call v e args)) :
    ∃ F ∈ P.functions, ∃ callsite callee nargs,
      ⟨.Call, toNode callsite, toNode callee, nargs⟩ ∈ F.facts ∧ v = .node callsite ∧
        e = p.operandOf callee ∧ args = (List.range nargs).map (.call_arg callsite) := by
  obtain ⟨F, hF, n, -, -, ⟨a, ha, -⟩ | ⟨fact, hfact, c, hstands, hc, -⟩⟩ := hr.has _ _ h
  · cases ha
  · cases hstands with
    | call callsite callee nargs =>
      obtain ⟨rfl, rfl, rfl⟩ := Stmt.call.inj hc
      exact ⟨F, hF, callsite, callee, _, hfact, rfl, rfl, rfl⟩
    | _ => cases hc

theorem Reflects.of_returns (h : prog.Returns f e) : ∃ F ∈ P.functions, ∃ n value idx,
    f = .node n ∧ toNode n = .sym F.symbol ∧ e = p.operandOf value ∧
      ⟨.Return, .sym F.symbol, toNode value, idx⟩ ∈ F.facts := by
  rcases h with hhas | ⟨proc, hproc, hfinal⟩
  · obtain ⟨F, hF, n, hf, hn, ⟨a, ha, -⟩ | ⟨fact, hfact, c, hstands, hc, -⟩⟩ := hr.has _ _ hhas
    · cases ha
    · cases hstands with
      | ret value function idx =>
        obtain rfl := Stmt.ret.inj hc
        have hreturned := (P.recorded F hF).returned _ hfact rfl
        dsimp only at hreturned
        subst hreturned
        exact ⟨F, hF, n, value, idx, hf, hn, rfl, hfact⟩
      | _ => cases hc
  · rw [hr.final f proc hproc] at hfinal
    cases hfinal

end

/-- A call site belongs to one function. -/
theorem same_of_callsite {F G : FunctionFacts} (hF : F ∈ P.functions) (hG : G ∈ P.functions)
    {callsite callee value : Bracelet.Node} {nargs i : Nat}
    (hcall : ⟨.Call, callsite, callee, nargs⟩ ∈ F.facts)
    (hsupply : ⟨.ArgumentSupply, callsite, value, i⟩ ∈ G.facts) : F = G := by
  have hF' := (P.recorded F hF).to_local _ hcall (by simp)
  have hG' := (P.recorded G hG).to_local _ hsupply (by simp)
  exact Program.eq_of_symbol hF hG
    (((P.recorded F hF).owned _ hcall).1 hF' ▸ ((P.recorded G hG).owned _ hsupply).1 hG')

/-- **What is found in the program flows in the graph.** -/
theorem Reflects.means (hr : p.Reflects prog P allocation) {fact : InclusionFact CVar CName}
    (h : Inclusion prog fact) :
    p.Means P (Flow P allocation fun _ => True) fact := by
  have hreached : ∀ f, Flow P allocation (fun _ => True) (.reached f) := fun f => .start trivial
  induction h with
  | fn f =>
    refine ⟨fun x hx => ?_, fun _ _ hvar => by cases hvar⟩
    obtain ⟨rfl, hfn⟩ := operandOf_fn hr.names hx
    refine ⟨x, by rw [(isFunction_eq hfn).2, hr.names], ?_⟩
    rw [toNode_symbol (symbol_of_isFunction hfn)]
    exact .symbol _
  | global hx =>
    obtain ⟨n, rfl, hsymbol, hfn⟩ := hr.globals _ hx
    refine means_of_points (not_isFunction_eq hfn).2.symm ?_
    rw [toNode_symbol hsymbol]
    exact .symbol _
  | malloc hhas =>
    obtain ⟨a, rfl, halloc⟩ := hr.of_malloc hhas
    refine ⟨fun x hx => ?_, fun _ _ hvar => by cases hvar⟩
    obtain ⟨hax, hfn⟩ := operandOf_var hx
    obtain rfl := CVar.node.inj hax
    refine ⟨a, (not_isFunction_eq hfn).2.symm, ?_⟩
    cases hlocal : a.local_idx with
    | none =>
      rw [toNode_symbol hlocal]
      exact .symbol _
    | some i =>
      rw [toNode, hlocal] at halloc ⊢
      exact .allocation halloc
  | copy hhas _ ih =>
    obtain ⟨F, hF, ⟨dest, source, idx, he, rfl, rfl⟩ | ⟨callsite, value, i, he, rfl, rfl⟩⟩ :=
      hr.of_copy hhas
    · obtain ⟨y, ho, hflow⟩ := ih.points
      exact means_of_points ho (.assign hF he (hreached _) hflow)
    · obtain ⟨y, ho, hflow⟩ := ih.points
      refine ⟨fun x hx => CVar.noConfusion (operandOf_var hx).1, fun callsite' i hvar => ?_⟩
      obtain ⟨rfl, rfl⟩ := CVar.call_arg.inj (Operand.var.inj hvar)
      exact ⟨F, hF, toNode value, y, he, ho, hflow⟩
  | param hhas _ ih =>
    obtain ⟨F, hF, n, value, rfl, hn, rfl, he⟩ := hr.of_param hhas
    obtain ⟨G, hG, callsite, callee, nargs, value', y, hcall, hsupply, ho, hcallee, hvalue⟩ :=
      ih n rfl
    rw [hn] at hcallee
    exact means_of_points ho (.argument hG hF hcall (hreached _) hcallee hsupply he hvalue)
  | load hhas _ _ ihaddr ihholds =>
    obtain ⟨F, hF, into, addr, idx, he, rfl, rfl⟩ := hr.of_load hhas
    obtain ⟨y, rfl, haddr⟩ := ihaddr.points
    obtain ⟨z, ho, hholds⟩ := ihholds y rfl
    exact means_of_points ho (.load hF he (hreached _) haddr hholds)
  | store hhas _ _ ihaddr ihvalue =>
    obtain ⟨F, hF, addr, value, idx, he, rfl, rfl⟩ := hr.of_store hhas
    obtain ⟨y, rfl, haddr⟩ := ihaddr.points
    obtain ⟨z, rfl, hvalue⟩ := ihvalue.points
    intro y' hy'
    obtain rfl := objectOf_inj hr.names hy'
    exact ⟨z, rfl, .store hF he (hreached _) haddr hvalue⟩
  | supply hhas _ harg _ ihcallee ihvalue =>
    obtain ⟨F, hF, callsite, callee, nargs, he, rfl, rfl, rfl⟩ := hr.of_call hhas
    obtain ⟨m, rfl, hcallee⟩ := Means.callee hr.names ihcallee
    intro m' hm'
    obtain rfl := CName.node.inj hm'
    rw [List.getElem?_map] at harg
    obtain ⟨j, hj, rfl⟩ := Option.map_eq_some_iff.mp harg
    obtain ⟨hlt, hj⟩ := List.getElem?_eq_some_iff.mp hj
    rw [List.getElem_range] at hj
    subst hj
    obtain ⟨G, hG, value, y, hsupply, ho, hvalue⟩ := ihvalue.2 callsite _ rfl
    obtain rfl := same_of_callsite hF hG he hsupply
    exact ⟨F, hF, _, _, _, value, y, he, hsupply, ho, hcallee, hvalue⟩
  | result hhas _ _ ihcallee ihret =>
    obtain ⟨F, hF, callsite, callee, nargs, he, rfl, rfl, rfl⟩ := hr.of_call hhas
    obtain ⟨m, rfl, hcallee⟩ := Means.callee hr.names ihcallee
    obtain ⟨G, hG, hm, value, idx, y, hreturn, ho, hvalue⟩ := ihret m rfl
    rw [hm] at hcallee
    exact means_of_points ho (.returned hF hG he (hreached _) hcallee hreturn hvalue)
  | ret hreturns _ ih =>
    obtain ⟨F, hF, n, value, idx, rfl, hn, rfl, he⟩ := hr.of_returns hreturns
    obtain ⟨y, ho, hvalue⟩ := ih.points
    intro n' hn'
    obtain rfl := CName.node.inj hn'
    exact ⟨F, hF, hn, toNode value, idx, y, he, ho, hvalue⟩

end Project

section
variable {asserts : Bool} {emitPages : GraphFunction → Edge → Result (List (Node × Node))}
  {symbolName : Address → Result String} {override_nargs : List (String × UInt16)}
  {conservative_mode : Bool} {fs : List GraphFunction} {p : Project} {prog : Prog CVar CName}
  {P : Program}

/-- Without overrides and conservative bodies, the program has nothing but the files. -/
theorem emitted_reflects
    (hemit : emitC asserts symbolName override_nargs emitPages conservative_mode fs = .ok p)
    (hoverrides : p.override_nodes = []) (hconservative : p.conservative = [])
    (hlink : p.link (fun _ => none) = some prog)
    (hdistinct : (fs.map GraphFunction.function).Nodup) (hP : Describes emitPages fs P) :
    p.Reflects prog P (Allocated asserts fs) := by
  obtain ⟨-, hfiles⟩ := emitted_files hemit hdistinct
  obtain ⟨definitions, hdefinitions, -, -, hnode, hoverride, hglobals⟩ := Project.link_ok hlink
  have hnames : ∀ n, p.name n = .node n := by
    intro n
    simp [Project.name, hoverrides, Dict.get?]
  -- every procedure is that of a file
  have hproc : ∀ f proc, prog.procedures f = some proc → ∃ n file, f = .node n ∧
      (n, file) ∈ p.files ∧ p.compile file = some proc := by
    intro f proc hf
    have hmem : (f, proc) ∈ definitions := by
      cases f with
      | node n => exact hnode n proc hf
      | override o =>
        rcases hoverride o proc hf with hmem | hnone
        · exact hmem
        · cases hnone
    rcases (Project.definitions_ok hdefinitions).2 _ hmem with
      ⟨n, file, hfile, hn, hcompile⟩ | ⟨c, hc, -⟩
    · exact ⟨n, file, hn.trans (hnames n), hfile, hcompile⟩
    · rw [hconservative] at hc
      cases hc
  constructor
  case has =>
    rintro f s ⟨proc, hf, hs⟩
    obtain ⟨n, file, rfl, hfile, hcompile⟩ := hproc f proc hf
    obtain ⟨fi, hfi, rfl, st, -, hfilei⟩ := (hfiles _ _).mp hfile
    obtain ⟨-, -, hentry, -, hloop⟩ := Project.compile_ok hcompile
    obtain ⟨F, hF, hsymbol, hstated⟩ := hP.graph fi hfi
    refine ⟨F, hF, fi.function, rfl, hsymbol, ?_⟩
    rcases hs with hs | hs
    · rw [hentry] at hs
      obtain ⟨a, ha, rfl⟩ := List.mem_map.mp hs
      obtain ⟨-, -, -, -, hfirst, -⟩ := emitFile_ok hfilei
      exact .inl ⟨a, rfl, fi, hfi, _, hfirst, a, ha, rfl⟩
    · obtain ⟨c, hc, hstmt⟩ := hloop s hs
      obtain ⟨e, he, hstands⟩ := emitted_stmt hfilei hc
      obtain ⟨rfl, -, hset⟩ := Project.stmt_some hstmt
      exact .inr ⟨e, hstated e he, c, hstands, rfl, hset⟩
  case final =>
    intro f proc hf
    obtain ⟨-, file, -, -, hcompile⟩ := hproc f proc hf
    exact (Project.compile_ok hcompile).2.1
  case globals =>
    intro x hx
    obtain ⟨n, state, hmem, hstate, rfl⟩ := (hglobals x).mp hx
    obtain ⟨hnodup, hsymbols⟩ := emitted_symbols hemit
    refine ⟨n, rfl, hsymbols n (List.mem_map_of_mem hmem), ?_⟩
    simp [Project.isFunction, (Dict.mem_iff_get? hnodup).mp hmem, hstate]
  case names => exact hnames

/-- **The program of a graph means the graph.**  Without overrides and conservative bodies, an
inclusion-based analysis of the C files finds what flows in the graph, and nothing else. -/
theorem inclusion_iff_flow
    (hemit : emitC asserts symbolName override_nargs emitPages conservative_mode fs = .ok p)
    (hoverrides : p.override_nodes = []) (hconservative : p.conservative = [])
    (hlink : p.link (fun _ => none) = some prog)
    (hdistinct : (fs.map GraphFunction.function).Nodup) (hP : Describes emitPages fs P)
    (honce : ∀ fi ∈ fs, fi.CallsOnce) {x : Node} (hx : p.Declared x) (y : Node) :
    Inclusion prog (.val (p.operandOf x) (p.objectOf y)) ↔
      Flow P (Allocated asserts fs) (fun _ => True) (.points (toNode x) (toNode y)) := by
  have hr := emitted_reflects hemit hoverrides hconservative hlink hdistinct hP
  constructor
  · intro h
    obtain ⟨y', hy, hflow⟩ := (hr.means h).points
    obtain rfl := Project.objectOf_inj hr.names hy
    exact hflow
  · intro h
    obtain ⟨y', hy, hval⟩ := ((emitted_covers hemit hlink hdistinct hP honce).finds h).val hx
    obtain rfl := toNode_inj hy
    exact hval

/-- **What the program computes flows in the graph**, in its variables and in its blocks. -/
theorem emitted_runs_flow
    (hemit : emitC asserts symbolName override_nargs emitPages conservative_mode fs = .ok p)
    (hoverrides : p.override_nodes = []) (hconservative : p.conservative = [])
    (hlink : p.link (fun _ => none) = some prog)
    (hdistinct : (fs.map GraphFunction.function).Nodup) (hP : Describes emitPages fs P)
    {s : Exec CVar CName} (hs : prog.Reached s) :
    (∀ x o, p.isFunction x = false → (s.vars (.node x)).obj = some o → ∃ y, o = p.objectOf y ∧
      Flow P (Allocated asserts fs) (fun _ => True) (.points (toNode x) (toNode y))) ∧
    ∀ x id o, p.isFunction x = false → (s.heap (.node x) id).obj = some o → ∃ y, o = p.objectOf y ∧
      Flow P (Allocated asserts fs) (fun _ => True) (.holds (toNode x) (toNode y)) := by
  have hr := emitted_reflects hemit hoverrides hconservative hlink hdistinct hP
  have hin := PointerPrograms.run_included hs
  constructor
  · intro x o hx ho
    have hval := hr.means (hin.vars (.node x) o ho)
    rw [← (Project.not_isFunction_eq hx).1] at hval
    exact hval.points
  · intro x id o hx ho
    exact hr.means (hin.heap (.node x) id o ho) x (Project.not_isFunction_eq hx).2.symm

end

/-! ## A program without overrides -/

/-- The files of the two functions. -/
def passedProject : Project where
  node_states := [(.ofSymbol 2, .Function 1), (.ofSymbol 3, .Undefined), (.ofSymbol 1, .Function 0)]
  override_nodes := []
  files := [(.ofSymbol 1, passingFile), (.ofSymbol 2, returningFile)]
  conservative := []

theorem passed_emitted : emitC true (fun _ => .ok "") [] noPages false [passing, returning] =
    .ok passedProject := by
  rfl

theorem passed_links : (passedProject.link fun _ => none).isSome = true := by
  decide +kernel

theorem passed_declared : passedProject.Declared (.ofLocal 1 3) := by
  unfold Project.Declared
  decide

/-- The analysis finds that symbol 3 is passed and returned. -/
theorem passed_found : ∃ prog, passedProject.link (fun _ => none) = some prog ∧
    Inclusion prog (.val (passedProject.operandOf (.ofLocal 1 3))
      (passedProject.objectOf (.ofSymbol 3))) := by
  obtain ⟨prog, hlink⟩ := Option.isSome_iff_exists.mp passed_links
  exact ⟨prog, hlink, (inclusion_iff_flow passed_emitted rfl rfl hlink passed_distinct
    passed_described passed_callsOnce passed_declared (.ofSymbol 3)).mpr passed_flow⟩

theorem passed_local : passedProject.isFunction (.ofLocal 1 0) = false := by
  decide

/-- After the first statement of `passing`, its local holds a block, which flows to it. -/
theorem passed_run : ∃ prog, passedProject.link (fun _ => none) = some prog ∧ ∃ s, prog.Reached s ∧
    (s.vars (.node (.ofLocal 1 0))).obj = some (.site (.node (.ofLocal 1 0))) ∧
    ∃ y, .site (.node (.ofLocal 1 0)) = passedProject.objectOf y ∧
      Flow passed (Allocated true [passing, returning]) (fun _ => True)
        (.points (toNode (.ofLocal 1 0)) (toNode y)) := by
  obtain ⟨prog, hlink⟩ := Option.isSome_iff_exists.mp passed_links
  have hfile : (.ofSymbol 1, passingFile) ∈ passedProject.files := List.mem_cons_self
  obtain ⟨proc, hcompile, hproc⟩ := Project.compiles hlink hfile
  obtain ⟨-, -, hentry, -⟩ := Project.compile_ok hcompile
  have hautos : (passedProject.compile passingFile).map Procedure.autos =
      some [.call_arg (.ofLocal 1 3) 0] := by decide +kernel
  rw [hcompile, Option.map_some, Option.some.injEq] at hautos
  have hrun : ∃ s, prog.Reached s ∧
      (s.vars (.node (.ofLocal 1 0))).obj = some (.site (.node (.ofLocal 1 0))) := by
    refine ⟨_, (Relation.ReflTransGen.single (.enter rfl hproc)).tail (.malloc rfl hentry), ?_⟩
    simp [Exec.assign, Exec.goOn, PointerPrograms.Activation.enter, hautos,
      PointerPrograms.Val.obj]
  obtain ⟨s, hs, hobj⟩ := hrun
  refine ⟨prog, hlink, s, hs, hobj, ?_⟩
  exact (emitted_runs_flow passed_emitted rfl rfl hlink passed_distinct passed_described hs).1
    _ _ passed_local hobj

end Bracelet.Edges.PointsTo
