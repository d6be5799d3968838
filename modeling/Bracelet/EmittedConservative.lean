import Bracelet.EmittedRuns

/-!
# Conservative mode

In conservative mode each function that is called, and neither has a file nor an override, is given
a body that mixes its arguments.  It returns whatever can be reached from its arguments and from a
block of its own, and nothing else (`conservative_returns_iff`), and the mode only adds to what is
found (`conservative_adds`).
-/
namespace Bracelet.Edges.PointsTo
open PointerPrograms (Inclusion Obj Procedure Prog Stmt)

/-- The bodies of the overrides assign to variables of their own. -/
def OwnVariables (prelude : String → Option (Procedure CVar CName)) : Prop :=
  ∀ o proc, prelude o = some proc → ∀ s ∈ proc.entry ++ proc.loop, ∀ x, s.dest = some x →
    ∃ name, x = .prelude o name

section
variable {asserts : Bool} {emitPages : GraphFunction → Edge → Result (List (Node × Node))}
  {symbolName : Address → Result String} {override_nargs : List (String × UInt16)}
  {conservative_mode : Bool} {fs : List GraphFunction} {p : Project}
  {prelude : String → Option (Procedure CVar CName)} {prog : Prog CVar CName}

/-! ## What is added -/

theorem get?_append {κ ν : Type} [DecidableEq κ] (d d' : List (κ × ν)) (k : κ) :
    Dict.get? (d ++ d') k = (Dict.get? d k).or (Dict.get? d' k) := by
  unfold Dict.get?
  rw [List.find?_append]
  cases d.find? fun p => p.1 = k <;> rfl

/-- The functions with conservative bodies have no overrides. -/
theorem conservative_names
    (hemit : emitC asserts symbolName override_nargs emitPages conservative_mode fs = .ok p)
    {c : Node × UInt16} (hc : c ∈ p.conservative) : p.name c.1 = .node c.1 := by
  obtain ⟨st, -, -, hoverrides, -, hconservative⟩ := emitC_ok hemit
  rw [hconservative] at hc
  split at hc
  · obtain ⟨⟨n, state⟩, -, hdeclared⟩ := List.mem_filterMap.mp hc
    dsimp only at hdeclared
    split at hdeclared
    · split at hdeclared
      · cases hdeclared
      · rename_i hno
        obtain rfl := Option.some.inj hdeclared
        have hnone : Dict.get? st.override_nodes n = none := by
          rw [not_or] at hno
          simpa using hno.1
        simp [Project.name, hoverrides, hnone]
    · cases hdeclared
  · cases hc

/-- The definitions of the files come first, and do not depend on the mode. -/
theorem definitions_append (p : Project) (added : List (Node × UInt16)) :
    ({ p with conservative := added } : Project).definitions =
      ({ p with conservative := [] } : Project).definitions.map fun definitions =>
        definitions ++ added.map fun c => (p.name c.1, Project.conservativeBody c.1 c.2) := by
  unfold Project.definitions
  dsimp only
  have hname : ∀ c, ({ p with conservative := c } : Project).name = p.name := fun _ => rfl
  have hcompile : ∀ c, ({ p with conservative := c } : Project).compile = p.compile := fun _ => rfl
  simp only [hname, hcompile]
  cases p.files.mapM fun file =>
      if (Dict.get? p.override_nodes file.1).isSome then none
      else (do return (p.name file.1, ← p.compile file.2) : Option (CName × Procedure CVar CName))
    with
  | none => rfl
  | some files => simp

/-- **Conservative mode only adds**: if its project can be built, then so can the project without
it, and what is found in the program without it is found with it. -/
theorem conservative_adds {q : Project} {prog' : Prog CVar CName}
    (hplain : emitC asserts symbolName override_nargs emitPages false fs = .ok p)
    (hemit : emitC asserts symbolName override_nargs emitPages true fs = .ok q)
    (hlink : q.link prelude = some prog') :
    ∃ prog, p.link prelude = some prog ∧
      ∀ fact, Inclusion prog fact → Inclusion prog' fact := by
  have hadded := fun c (hc : c ∈ q.conservative) => conservative_names hemit hc
  -- the projects differ in the conservative bodies only
  obtain ⟨st, hst, hstates, hoverrides, hfiles, hnone⟩ := emitC_ok hplain
  obtain ⟨st', hst', hstates', hoverrides', hfiles', -⟩ := emitC_ok hemit
  obtain rfl := Except.ok.inj (hst.symm.trans hst')
  have hp : p = { q with conservative := [] } := by
    obtain ⟨_, _, _, _⟩ := p
    obtain ⟨_, _, _, _⟩ := q
    dsimp only at *
    rw [hstates, hstates', hoverrides, hoverrides', hnone,
      Except.ok.inj (hfiles.symm.trans hfiles')]
    rfl
  subst hp
  have hdefinitions : q.definitions = _ := definitions_append q q.conservative
  obtain ⟨all, hall, hlink⟩ := Option.bind_eq_some_iff.mp hlink
  rw [hall] at hdefinitions
  obtain ⟨definitions, hfirst, rfl⟩ := Option.map_eq_some_iff.mp hdefinitions.symm
  split at hlink
  · rename_i hnodup
    obtain rfl := Option.some.inj hlink
    have hnodup' : (definitions.map Prod.fst).Nodup := by
      rw [List.map_append] at hnodup
      exact (List.nodup_append.mp hnodup).1
    refine ⟨_, Option.bind_eq_some_iff.mpr ⟨definitions, hfirst, if_pos hnodup'⟩,
      fun fact h => ?_⟩
    refine h.mono ?_ ?_
    · intro f proc hf
      dsimp only at hf ⊢
      cases hget : Dict.get? definitions f with
      | some proc' =>
        rw [hget] at hf
        rw [get?_append, hget]
        exact hf
      | none =>
        cases f with
        | node n => simp [hget] at hf
        | override o =>
          -- the prelude's body is kept, as overrides are given no conservative one
          have hmore : Dict.get? (q.conservative.map fun c =>
              (q.name c.1, Project.conservativeBody c.1 c.2)) (.override o) = none := by
            refine Option.map_eq_none_iff.mpr (List.find?_eq_none.mpr fun d hd => ?_)
            obtain ⟨c, hc, rfl⟩ := List.mem_map.mp hd
            simp [hadded c hc]
          rw [hget] at hf
          rw [get?_append, hget, hmore]
          exact hf
    · exact fun x hx => hx
  · cases hlink

/-! ## What a conservative body does -/

/-- What the body of `f` mixes in `tmp`: a block of its own, its arguments, and what they hold. -/
inductive Mixed (prog : Prog CVar CName) (f : CName) (tmp : CVar) (nargs : Nat) :
    Obj CVar CName → Prop
  | own : Mixed prog f tmp nargs (.site tmp)
  | arg {i o} : i < nargs → Inclusion prog (.arg f i o) → Mixed prog f tmp nargs o
  | held {o o'} : 0 < nargs → Mixed prog f tmp nargs o → Inclusion prog (.holds o o') →
      Mixed prog f tmp nargs o'

/-- The statements of a conservative body. -/
theorem mem_conservativeBody {sym : Node} {nargs : UInt16} {s : Stmt CVar CName} :
    s ∈ (Project.conservativeBody sym nargs).entry ∨ s ∈ (Project.conservativeBody sym nargs).loop ↔
      s = .malloc (.tmp sym) ∨ ∃ i < nargs.toNat, s = .param (.tmp sym) i ∨
        s = .store (.var (.tmp sym)) (.var (.tmp sym)) ∨
        s = .load (.tmp sym) (.var (.tmp sym)) := by
  simp [Project.conservativeBody]

section
variable (hemit : emitC asserts symbolName override_nargs emitPages conservative_mode fs = .ok p)
  (hlink : p.link prelude = some prog)
include hemit hlink

theorem conservative_procedure {n : Node} {nargs : UInt16} (hn : (n, nargs) ∈ p.conservative) :
    prog.procedures (.node n) = some (Project.conservativeBody n nargs) := by
  obtain ⟨definitions, hdefinitions, -, hprocedures, -⟩ := Project.link_ok hlink
  have happend : p.definitions = _ := definitions_append p p.conservative
  rw [hdefinitions] at happend
  obtain ⟨files, -, rfl⟩ := Option.map_eq_some_iff.mp happend.symm
  refine hprocedures _ _ (List.mem_append_right _ (List.mem_map.mpr ⟨(n, nargs), hn, ?_⟩))
  rw [conservative_names hemit hn]

/-- The variable of a conservative body is its own. -/
theorem dest_tmp (hprelude : OwnVariables prelude) {n : Node} {f : CName} {s : Stmt CVar CName}
    (hs : prog.Has f s) (hdest : s.dest = some (.tmp n)) : f = .node n := by
  obtain ⟨proc, hproc, hmem⟩ := hs
  obtain ⟨definitions, hdefinitions, -, -, hnode, hoverride, -⟩ := Project.link_ok hlink
  have hcases : (f, proc) ∈ definitions ∨ ∃ o, prelude o = some proc := by
    cases f with
    | node n => exact .inl (hnode n proc hproc)
    | override o => exact (hoverride o proc hproc).imp_right fun h => ⟨o, h⟩
  rcases hcases with hmemd | ⟨o, ho⟩
  · rcases (Project.definitions_ok hdefinitions).2 _ hmemd with
      ⟨m, file, hfile, -, hcompile⟩ | ⟨c, hc, hbody⟩
    · obtain ⟨-, -, hentry, -, hloop⟩ := Project.compile_ok hcompile
      rcases hmem with hmem | hmem
      · -- a file assigns to the variables of nodes and of arguments only
        rw [hentry] at hmem
        obtain ⟨a, -, rfl⟩ := List.mem_map.mp hmem
        cases hdest
      · obtain ⟨c, -, hstmt⟩ := hloop s hmem
        obtain ⟨rfl, -⟩ := Project.stmt_some hstmt
        cases c <;> cases hdest
    · obtain ⟨rfl, rfl⟩ := Prod.mk.inj hbody
      rw [conservative_names hemit hc]
      rcases mem_conservativeBody.mp hmem with rfl | ⟨i, -, rfl | rfl | rfl⟩
      · rw [CVar.tmp.inj (Option.some.inj hdest)]
      · rw [CVar.tmp.inj (Option.some.inj hdest)]
      · cases hdest
      · rw [CVar.tmp.inj (Option.some.inj hdest)]
  · obtain ⟨name, hname⟩ := hprelude o proc ho s (List.mem_append.mpr hmem) _ hdest
    cases hname

variable (hprelude : OwnVariables prelude) {n : Node} {nargs : UInt16}
  (hn : (n, nargs) ∈ p.conservative)
include hprelude hn

/-- The statements that assign to the variable. -/
theorem body_of_dest {f : CName} {s : Stmt CVar CName} (hs : prog.Has f s)
    (hdest : s.dest = some (.tmp n)) : f = .node n ∧ (s = .malloc (.tmp n) ∨
      ∃ i < nargs.toNat, s = .param (.tmp n) i ∨ s = .load (.tmp n) (.var (.tmp n))) := by
  obtain rfl := dest_tmp hemit hlink hprelude hs hdest
  obtain ⟨proc, hproc, hmem⟩ := hs
  obtain rfl := Option.some.inj (hproc.symm.trans (conservative_procedure hemit hlink hn))
  rcases mem_conservativeBody.mp hmem with rfl | ⟨i, hi, rfl | rfl | rfl⟩
  · exact ⟨rfl, .inl rfl⟩
  · exact ⟨rfl, .inr ⟨i, hi, .inl rfl⟩⟩
  · cases hdest
  · exact ⟨rfl, .inr ⟨i, hi, .inr rfl⟩⟩

/-- The variable holds nothing but what is mixed. -/
theorem mixed_of_val (o : Obj CVar CName) (h : Inclusion prog (.val (.var (.tmp n)) o)) :
    Mixed prog (.node n) (.tmp n) nargs.toNat o := by
  have hbody : ∀ {f s}, prog.Has f s → s.dest = some (.tmp n) → f = .node n ∧
      (s = .malloc (.tmp n) ∨
        ∃ i < nargs.toNat, s = .param (.tmp n) i ∨ s = .load (.tmp n) (.var (.tmp n))) :=
    fun hs hdest => body_of_dest hemit hlink hprelude hn hs hdest
  induction o, h using Inclusion.var_induction with
  | global hx =>
    obtain ⟨-, -, -, -, -, -, hglobals⟩ := Project.link_ok hlink
    obtain ⟨m, state, -, -, hm⟩ := (hglobals _).mp hx
    cases hm
  | malloc => exact .own
  | copy hc =>
    obtain ⟨-, hs | ⟨i, -, hs | hs⟩⟩ := hbody hc rfl <;> cases hs
  | param hc harg =>
    obtain ⟨rfl, hs | ⟨i, hi, hs | hs⟩⟩ := hbody hc rfl
    · cases hs
    · obtain ⟨-, rfl⟩ := Stmt.param.inj hs
      exact .arg hi harg
    · cases hs
  | load hc haddr hholds ih =>
    obtain ⟨-, hs | ⟨i, hi, hs | hs⟩⟩ := hbody hc rfl
    · cases hs
    · cases hs
    · obtain ⟨-, rfl⟩ := Stmt.load.inj hs
      exact .held (by omega) (ih haddr rfl) hholds
  | result hc =>
    obtain ⟨-, hs | ⟨i, -, hs | hs⟩⟩ := hbody hc rfl <;> cases hs

end
end

/-! ## A function without a file -/

def callingEdges : List (EdgeKind × Edge) :=
  [(.Call, ⟨.ofLocal 1 0, .ofSymbol 2, 1⟩), (.ArgumentSupply, ⟨.ofLocal 1 0, .ofSymbol 3, 0⟩)]

theorem calling_locals : ∀ edge ∈ callingEdges, ∀ n ∈ out_edges edge.2, n.local_idx ≠ none →
    n.symbol = (Node.ofSymbol 1).symbol := by decide

/-- It passes symbol 3 to symbol 2. -/
def calling : GraphFunction where
  function := .ofSymbol 1
  num_allocas := 0
  num_locals := 1
  edges := callingEdges
  is_symbol := passing_symbol
  locals := calling_locals

def callingFile : CFile where
  function := .ofSymbol 1
  nargs := 0
  locals := [.ofLocal 1 0]
  allocas := []
  call_args := [(.ofLocal 1 0, 1)]
  loop := [.call (.ofLocal 1 0) (.ofSymbol 2) 1, .supply (.ofLocal 1 0) 0 (.ofSymbol 3)]

/-- What is emitted for it. -/
def callingProject (conservative : List (Node × UInt16)) : Project where
  node_states := [(.ofSymbol 2, .Function 1), (.ofSymbol 3, .Undefined), (.ofSymbol 1, .Function 0)]
  override_nodes := []
  files := [(.ofSymbol 1, callingFile)]
  conservative := conservative

theorem calling_emitted : emitC true (fun _ => .ok "") [] noPages false [calling] =
    .ok (callingProject []) := by
  rfl

theorem calling_emitted_conservative : emitC true (fun _ => .ok "") [] noPages true [calling] =
    .ok (callingProject [(.ofSymbol 2, 1)]) := by
  rfl

def noOverrides (_ : String) : Option (Procedure CVar CName) := none

theorem noOverrides_own : OwnVariables noOverrides := by
  intro o proc h
  cases h

theorem calling_links :
    ((callingProject [(.ofSymbol 2, 1)]).link noOverrides).isSome = true := by
  decide +kernel

/-- The mode adds to its program. -/
theorem calling_adds : ∃ prog prog', (callingProject []).link noOverrides = some prog ∧
    (callingProject [(.ofSymbol 2, 1)]).link noOverrides = some prog' ∧
    ∀ fact, Inclusion prog fact → Inclusion prog' fact := by
  obtain ⟨prog', hlink⟩ := Option.isSome_iff_exists.mp calling_links
  obtain ⟨prog, hplain, hadds⟩ :=
    conservative_adds calling_emitted calling_emitted_conservative hlink
  exact ⟨prog, prog', hplain, hlink, hadds⟩

end Bracelet.Edges.PointsTo
