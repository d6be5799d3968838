import Bracelet.RecordedPrograms

/-!
# Executions follow the recorded flows

Every object that an execution makes is one that the recorded edges speak of (`nodeOf`): global
values are symbols, and what an instruction makes is its local.  In every state that an execution of
a recorded program reaches, what a value is made of flows into its node, what a cell holds is held
by its object, and the functions that run have been reached (`Follows`).  The steps of the machine
keep this, one after another: each of them takes addresses where the edges of its instruction take
them.

The constants of the program are not to wrap global values, which have no node then (`Plain`).
-/
namespace Bracelet.Reachability
open Edges (Bytes EdgeKind End Op edges)

section
variable {GV : Type}

/-! ## Operands -/

/-- All global values that the value is made of occur in it unwrapped. -/
def Value.Plain : Value GV → Prop
  | .Constant c => ∀ G ∈ c.denoted, G ∈ c.globals
  | .Local _ | .InlineAsm => True

/-- The operands that an instruction uses the value of. -/
def Opcode.used (M : Module GV) (op : Opcode GV) : List (Value GV) :=
  op.carries ++ op.loads ++ op.stores.flatMap (fun s => [s.1, s.2]) ++
    (op.transfers M).flatMap (fun t => [t.1, t.2]) ++ (op.starts M).toList ++ op.returned.toList ++
    match op with
    | .Call call => call.Callee M :: call.args
    | _ => []

namespace Opcode
variable {M : Module GV} {op : Opcode GV} {V : Value GV} {p : Value GV × Value GV}

theorem used_carries (h : V ∈ op.carries) : V ∈ op.used M := by simp [used, h]

theorem used_loads (h : V ∈ op.loads) : V ∈ op.used M := by simp [used, h]

theorem used_stores (h : p ∈ op.stores) : p.1 ∈ op.used M ∧ p.2 ∈ op.used M := by
  have hmem : ∀ W ∈ [p.1, p.2], W ∈ op.used M := fun W hW => by
    have : W ∈ op.stores.flatMap fun s => [s.1, s.2] := List.mem_flatMap.mpr ⟨p, h, hW⟩
    simp [used, this]
  exact ⟨hmem _ (by simp), hmem _ (by simp)⟩

theorem used_transfers (h : p ∈ op.transfers M) : p.1 ∈ op.used M ∧ p.2 ∈ op.used M := by
  have hmem : ∀ W ∈ [p.1, p.2], W ∈ op.used M := fun W hW => by
    have : W ∈ (op.transfers M).flatMap fun t => [t.1, t.2] := List.mem_flatMap.mpr ⟨p, h, hW⟩
    simp [used, this]
  exact ⟨hmem _ (by simp), hmem _ (by simp)⟩

theorem used_starts (h : V ∈ op.starts M) : V ∈ op.used M := by
  simp [used, Option.mem_toList.mpr h]

theorem used_returned (h : V ∈ op.returned) : V ∈ op.used M := by
  simp [used, Option.mem_toList.mpr h]

theorem used_call {call : CallBase GV} (h : op = .Call call) :
    call.Callee M ∈ op.used M ∧ ∀ A ∈ call.args, A ∈ op.used M := by
  subst h
  exact ⟨by simp [used], fun A hA => by simp [used, hA]⟩

end Opcode

namespace RecordedProgram
variable (R : RecordedProgram GV)

/-- No constant wraps a global value. -/
structure Plain : Prop where
  functions : ∀ r ∈ R.functions, ∀ I ∈ r.F.body, ∀ V ∈ I.op.used r.M, V.Plain
  initializers : ∀ p ∈ R.linked.globals, ∀ c ∈ p.2.initializer, (Value.Constant c).Plain

/-! ## The nodes of objects -/

/-- The local of a value in the function at an address. -/
def localOf (function : Nat) (V : LocalValue) : Option Nat :=
  (R.functions.find? fun r => R.address r.F.symbol == function).bind fun r =>
    Dict.get? r.visitor.Locals V

/-- The local of the area of variable arguments in the function at an address. -/
def areaOf (function : Nat) : Nat :=
  (((R.functions.find? fun r => R.address r.F.symbol == function).bind
    fun r => r.visitor.VarArgs).getD 0) + 1

/-- The node that an object is in the recorded edges. -/
def nodeOf : Object → Bracelet.Node
  | .global a => .sym a
  | .made function id _ => .loc function ((R.localOf function (.Instruction id)).getD 0)
  | .area function _ => .loc function (R.areaOf function)

/-- The locals that are objects of their own: allocations, and results of calls. -/
def allocation (n : Bracelet.Node) : Prop :=
  ∃ r ∈ R.functions, ∃ i, n = .loc (R.address r.F.symbol) i ∧
    (i < r.visitor.NumAllocas ∨ ∃ callee, r.visitor.Has .Call (.loc i) callee)

/-- What flows in the recorded program. -/
abbrev Flows : FlowFact → Prop := Flow R.program R.allocation R.program.Entry

variable {R} {r : RecordedFunction GV}

theorem find_function (hr : r ∈ R.functions) :
    R.functions.find? (fun r' => R.address r'.F.symbol == R.address r.F.symbol) = some r := by
  have hnodup := (List.nodup_append.mp R.distinct).1
  cases hfind : R.functions.find? (fun r' => R.address r'.F.symbol == R.address r.F.symbol) with
  | none => exact absurd (List.find?_eq_none.mp hfind r hr) (by simp)
  | some r' =>
    have hsame : R.address r'.F.symbol = R.address r.F.symbol := by
      simpa using List.find?_some hfind
    rw [List.inj_on_of_nodup_map hnodup (List.mem_of_find?_eq_some hfind) hr hsame]

theorem localOf_eq (hr : r ∈ R.functions) (V : LocalValue) :
    R.localOf (R.address r.F.symbol) V = Dict.get? r.visitor.Locals V := by
  rw [localOf, find_function hr, Option.bind_some]

theorem areaOf_eq (hr : r ∈ R.functions) {a : Nat} (ha : a ∈ r.visitor.VarArgs) :
    R.areaOf (R.address r.F.symbol) = a + 1 := by
  rw [areaOf, find_function hr, Option.bind_some, Option.mem_def.mp ha, Option.getD_some]

theorem nodeOf_made (hr : r ∈ R.functions) {id i : Nat}
    (h : Dict.get? r.visitor.Locals (.Instruction id) = some i) (n : Nat) :
    R.nodeOf (.made (R.address r.F.symbol) id n) = .loc (R.address r.F.symbol) i := by
  rw [nodeOf, localOf_eq hr, h, Option.getD_some]

/-! ## Flows along recorded edges -/

/-- The value of an end of the edges of a function may be the address of an object. -/
def Points (R : RecordedProgram GV) (r : RecordedFunction GV) (n : End GV) (o : Object) : Prop :=
  R.Flows (.points (nodeAt R.address (R.address r.F.symbol) n) (R.nodeOf o))

/-- An object may hold the address of another. -/
def Holds (R : RecordedProgram GV) (a o : Object) : Prop :=
  R.Flows (.holds (R.nodeOf a) (R.nodeOf o))

/-- The function may run. -/
def Runs (R : RecordedProgram GV) (r : RecordedFunction GV) : Prop :=
  R.Flows (.reached (R.address r.F.symbol))

/-- What a path of assignments starts with flows to its end. -/
theorem flows_path {F : FunctionFacts} (hF : F ∈ R.program.functions) {ops : List (Op GV)}
    (hfacts : F.facts = factsOf R.address F.symbol R.pages ops) (hrun : R.Flows (.reached F.symbol))
    {t f : End GV} (h : Path (assignments ops) t f) {o : Bracelet.Node}
    (ht : R.Flows (.points (nodeAt R.address F.symbol t) o)) :
    R.Flows (.points (nodeAt R.address F.symbol f) o) := by
  induction h with
  | refl => exact ht
  | tail _ hstep ih =>
    obtain ⟨⟨t', f', idx⟩, he, heq⟩ := List.mem_map.mp hstep
    obtain ⟨rfl, rfl⟩ := Prod.mk.inj heq
    have hfact : ⟨.Assign, nodeAt R.address F.symbol t', nodeAt R.address F.symbol f', idx.toNat⟩ ∈
        factsOf R.address F.symbol R.pages ops := @mem_factsOf _ _ _ R.pages _ .Assign _ _ _ he
    rw [← hfacts] at hfact
    exact .assign hF hfact hrun ih

section
variable (hr : r ∈ R.functions) (hrun : R.Runs r) {t f : End GV} {a o : Object}
include hr

omit hr in
theorem fact_of_edge {d : Decl} {idx : UInt32} (h : (t, f, idx) ∈ edges r.visitor.FW.ops d.kind) :
    ⟨d, nodeAt R.address (R.address r.F.symbol) t, nodeAt R.address (R.address r.F.symbol) f,
      idx.toNat⟩ ∈ (R.functionFacts r).facts :=
  mem_factsOf h

omit hr in
theorem points_symbol (gv : GV) : R.Points r (.sym gv) (.global (R.address gv)) := .symbol _

/-- A local that is an object of its own. -/
theorem points_made {id i : Nat} (h : Dict.get? r.visitor.Locals (.Instruction id) = some i)
    (hi : i < r.visitor.NumAllocas ∨ ∃ callee, r.visitor.Has .Call (.loc i) callee) (n : Nat) :
    R.Points r (.loc i) (.made (R.address r.F.symbol) id n) := by
  unfold Points
  rw [nodeOf_made hr h]
  exact .allocation ⟨r, hr, i, rfl, hi⟩

include hrun

theorem points_assign (h : r.visitor.Has .Assign t f) (hf : R.Points r f o) : R.Points r t o := by
  obtain ⟨idx, he⟩ := h
  exact .assign (R.functionFacts_mem hr) (fact_of_edge (d := .Assign) he) hrun hf

theorem points_load (h : r.visitor.Has .Load t f) (hf : R.Points r f a) (ho : R.Holds a o) :
    R.Points r t o := by
  obtain ⟨idx, he⟩ := h
  exact .load (R.functionFacts_mem hr) (fact_of_edge (d := .Load) he) hrun hf ho

theorem holds_store (h : r.visitor.Has .Store t f) (ht : R.Points r t a) (hf : R.Points r f o) :
    R.Holds a o := by
  obtain ⟨idx, he⟩ := h
  exact .store (R.functionFacts_mem hr) (fact_of_edge (d := .Store) he) hrun ht hf

theorem points_path (h : Path (assignments r.visitor.FW.ops) t f) (ht : R.Points r t o) :
    R.Points r f o :=
  flows_path (R.functionFacts_mem hr) rfl hrun h ht

end

/-! ## Activations -/


/-- A recorded function runs, and what its values are made of flows into their locals. -/
structure FollowsIn (R : RecordedProgram GV) (f : Activation GV) (r : RecordedFunction GV) :
    Prop where
  mem : r ∈ R.functions
  code : f.code = r.toDefinition
  runs : R.Runs r
  values : ∀ V, ∀ o ∈ f.values V, ∃ i, Dict.get? r.visitor.Locals V = some i ∧ R.Points r (.loc i) o

namespace FollowsIn
variable {f : Activation GV} (h : R.FollowsIn f r) {I : Instruction GV} {V : Value GV} {o a : Object}
  {memory : Memory}

/-- A value that is made of something has a node. -/
theorem not_nodeless (hV : V.Plain) (ho : o ∈ R.linked.eval f V) : ¬ V.Nodeless := by
  cases V with
  | Constant c =>
    obtain ⟨G, hG, -⟩ := ho
    exact fun hnil => List.ne_nil_of_mem (hV G hG) hnil
  | Local V => exact id
  | InlineAsm => exact absurd ho (Set.notMem_empty o)

include h

/-- **What a value is made of flows into every node that stands for it.** -/
theorem points_of_eval (hV : V.Plain) {n : End GV} (hn : EdgeVisitor.StandsFor r.M r.visitor V n)
    (ho : o ∈ R.linked.eval f V) : R.Points r n o := by
  cases V with
  | Constant c =>
    obtain ⟨G, hG, rfl⟩ := ho
    rw [h.code]
    exact points_path h.mem h.runs (hn _ (List.mem_map_of_mem (hV G hG))) (points_symbol _)
  | Local V =>
    obtain ⟨i, hi, rfl⟩ := hn
    obtain ⟨j, hj, hpoints⟩ := h.values V o ho
    obtain rfl := Option.some.inj (hi.symm.trans hj)
    exact hpoints
  | InlineAsm => exact absurd hn id

variable (hplain : R.Plain) (hmemory : ∀ a k, ∀ o ∈ memory a k, R.Holds a o)
  (hI : I ∈ f.code.F.body)
include hplain hI

theorem plain_of_used (hV : V ∈ I.op.used r.M) : V.Plain := by
  rw [h.code] at hI
  exact hplain.functions r h.mem I hI V hV

omit hplain in
theorem records : EdgeVisitor.Records r.M r.F r.visitor I := by
  rw [h.code] at hI
  exact (EdgeVisitor.run_records r.run).2 I hI

/-- An operand of an edge of the instruction: what it is made of flows into the node. -/
theorem joined_points {kind : EdgeKind} {To : Value GV} (hV : V ∈ I.op.used r.M)
    (ho : o ∈ R.linked.eval f V)
    (hjoins : ¬ V.Nodeless → EdgeVisitor.Joins r.M r.visitor kind To V) :
    ∃ t n, EdgeVisitor.StandsFor r.M r.visitor To t ∧ r.visitor.Has kind t n ∧ R.Points r n o := by
  have hp := h.plain_of_used hplain hI hV
  obtain ⟨t, n, ht, hn, he⟩ := hjoins (not_nodeless hp ho)
  exact ⟨t, n, ht, he, h.points_of_eval hp hn ho⟩

/-- A call: what may be entered flows into the node of the callee. -/
theorem call_points {call : CallBase GV} {callee : Nat} (hcall : R.linked.Calls f I call callee) :
    ∃ i n, EdgeVisitor.RecordsCall r.M r.visitor I call i ∧ r.visitor.Has .Call (.loc i) n ∧
      R.Points r n (.global callee) := by
  have hordinary : call.Ordinary r.M := by
    have := hcall.ordinary
    rwa [h.code] at this
  have hcallee : Object.global callee ∈ R.linked.eval f (call.Callee r.M) := by
    have := hcall.callee
    rwa [h.code] at this
  obtain ⟨i, hi⟩ := (h.records hI).calls call hcall.op hordinary
  obtain ⟨n, hn, he⟩ := hi.callee
  have hp := h.plain_of_used hplain hI (Opcode.used_call hcall.op).1
  exact ⟨i, n, hi, he, h.points_of_eval hp hn hcallee⟩

include hmemory

/-- **What an instruction brings into its result flows into its local.** -/
theorem points_of_brings (hb : R.linked.Brings f memory I o) :
    ∃ i, Dict.get? r.visitor.Locals (.Instruction I.id) = some i ∧ R.Points r (.loc i) o := by
  have hrecords := h.records hI
  cases hb with
  | carried hV ho =>
    obtain ⟨t, n, ⟨i, hi, rfl⟩, he, hn⟩ :=
      h.joined_points hplain hI (Opcode.used_carries hV) ho (hrecords.carries _ hV)
    exact ⟨i, hi, points_assign h.mem h.runs he hn⟩
  | loaded hP ha ho =>
    obtain ⟨t, n, ⟨i, hi, rfl⟩, he, hn⟩ :=
      h.joined_points hplain hI (Opcode.used_loads hP) ha (hrecords.loads _ hP)
    exact ⟨i, hi, points_load h.mem h.runs he hn (hmemory _ _ _ ho)⟩
  | allocated hop =>
    rw [h.code] at hI ⊢
    obtain ⟨i, hlt, hi⟩ := (EdgeVisitor.run_records r.run).1.allocas I hI hop
    exact ⟨i, hi, points_made h.mem hi (.inl hlt) _⟩
  | returned hcall hvoid _ =>
    obtain ⟨i, n, hi, he, -⟩ := h.call_points hplain hI hcall
    rw [h.code]
    exact ⟨i, hi.result hvoid, points_made h.mem (hi.result hvoid) (.inr ⟨n, he⟩) _⟩
  | @found call a hop hasm hdlsym hvoid ha =>
    rw [h.code] at hdlsym ha
    obtain ⟨i, hi, idx, he⟩ := hrecords.pages call hop hasm hdlsym
    exact ⟨i, hi hvoid, .assign (R.functionFacts_mem h.mem) (mem_factsOf_page he ha) h.runs
      (.symbol a)⟩

/-- **What an instruction writes into an object is held by it.** -/
theorem holds_of_writes (hw : R.linked.Writes f memory I a o) : R.Holds a o := by
  have hrecords := h.records hI
  cases hw with
  | @stored s _ _ hs ha ho =>
    obtain ⟨hp₁, hp₂⟩ := Opcode.used_stores (M := r.M) hs
    have hplain₁ := h.plain_of_used hplain hI hp₁
    have hplain₂ := h.plain_of_used hplain hI hp₂
    obtain ⟨t, n, ht, hn, he⟩ :=
      hrecords.stores s hs (not_nodeless hplain₁ ha) (not_nodeless hplain₂ ho)
    exact holds_store h.mem h.runs he (h.points_of_eval hplain₁ ht ha)
      (h.points_of_eval hplain₂ hn ho)
  | @transferred t _ b _ k ht ha hb ho =>
    rw [h.code] at ht
    obtain ⟨hp₁, hp₂⟩ := Opcode.used_transfers ht
    obtain ⟨tmp, src, dst, hsrc, hdst, hload, hstore⟩ := hrecords.transfers t ht
    have hb := h.points_of_eval (h.plain_of_used hplain hI hp₂) hsrc hb
    have ha := h.points_of_eval (h.plain_of_used hplain hI hp₁) hdst ha
    exact holds_store h.mem h.runs hstore ha
      (points_load h.mem h.runs hload hb (hmemory _ _ _ ho))
  | @started list _ hlist ha =>
    rw [h.code] at hlist ⊢
    obtain ⟨tmp, dst, m, hm, hdst, hload, hstore⟩ := hrecords.starts list hlist
    have ha := h.points_of_eval (h.plain_of_used hplain hI (Opcode.used_starts hlist)) hdst ha
    refine holds_store h.mem h.runs hstore ha ?_
    -- the model list holds its area, which is an allocation like the list
    have hvariadic : r.F.type.isVarArg = true := by
      rw [← EdgeVisitor.run_VarArgs r.run, Option.mem_def.mp hm]
      rfl
    obtain ⟨m', hm', hlt, ⟨idx, he⟩, -⟩ :=
      (EdgeVisitor.run_records r.run).1.variadic hvariadic
    obtain rfl := Option.some.inj (hm'.symm.trans hm)
    obtain ⟨idx', he'⟩ := hload
    have hself : ∀ i < r.visitor.NumAllocas, R.Flows (.points (.loc (R.address r.F.symbol) i)
        (.loc (R.address r.F.symbol) i)) := fun i hi => .allocation ⟨r, h.mem, i, rfl, .inl hi⟩
    have hheld : R.Flows (.holds (.loc (R.address r.F.symbol) m')
        (.loc (R.address r.F.symbol) (m' + 1))) :=
      .store (R.functionFacts_mem h.mem) (fact_of_edge (d := .Store) he) h.runs
        (hself m' (by omega)) (hself (m' + 1) hlt)
    show R.Flows (.points _ (.loc _ (R.areaOf (R.address r.F.symbol))))
    rw [areaOf_eq h.mem hm']
    exact .load (R.functionFacts_mem h.mem) (fact_of_edge (d := .Load) he') h.runs
      (hself m' (by omega)) hheld

end FollowsIn

/-! ## Calls -/

/-- A function that is called runs, with its arguments flowing into their locals. -/
structure Enters (R : RecordedProgram GV) (r r' : RecordedFunction GV) (call : CallBase GV) (i : Nat)
    (n : End GV) (I : Instruction GV) : Prop where
  mem : r ∈ R.functions
  mem' : r' ∈ R.functions
  runs : R.Runs r
  recorded : EdgeVisitor.RecordsCall r.M r.visitor I call i
  edge : r.visitor.Has .Call (.loc i) n
  callee : R.Points r n (.global (R.address r'.F.symbol))

namespace Enters
variable {r' : RecordedFunction GV} {call : CallBase GV} {i : Nat} {n : End GV} {I : Instruction GV}
  {o : Object} (h : R.Enters r r' call i n I)
include h

theorem runs' : R.Runs r' := by
  obtain ⟨idx, he⟩ := h.edge
  exact .call (R.functionFacts_mem h.mem) (fact_of_edge (d := .Call) he) h.runs h.callee

/-- What is supplied to a slot flows into what is defined there. -/
theorem points_argument {idx : UInt32} {value formal : End GV}
    (hsupply : (.loc i, value, idx) ∈ edges r.visitor.FW.ops .ArgumentSupply)
    (hdefinition : (formal, .sym r'.F.symbol, idx) ∈ edges r'.visitor.FW.ops .ArgumentDefinition)
    (ho : R.Points r value o) : R.Points r' formal o := by
  obtain ⟨m, he⟩ := h.edge
  exact .argument (R.functionFacts_mem h.mem) (R.functionFacts_mem h.mem')
    (fact_of_edge (d := .Call) he) h.runs h.callee (fact_of_edge (d := .ArgumentSupply) hsupply)
    (fact_of_edge (d := .ArgumentDefinition) hdefinition) ho

/-- What the function returns flows into the local of the call. -/
theorem points_returned {value : End GV} (hreturn : r'.visitor.Has .Return (.sym r'.F.symbol) value)
    (ho : R.Points r' value o) : R.Points r (.loc i) o := by
  obtain ⟨m, he⟩ := h.edge
  obtain ⟨idx, he'⟩ := hreturn
  exact .returned (R.functionFacts_mem h.mem) (R.functionFacts_mem h.mem')
    (fact_of_edge (d := .Call) he) h.runs h.callee (fact_of_edge (d := .Return) he') ho

end Enters

/-! ## Executions -/

/-- A function waits for what it has called: the callee flows into the node of the call. -/
inductive FollowsCallers (R : RecordedProgram GV) :
    RecordedFunction GV → List (Caller GV) → Prop
  | nil {r : RecordedFunction GV} : FollowsCallers R r []
  | cons {r r' : RecordedFunction GV} {c : Caller GV} {callers : List (Caller GV)} {i : Nat}
      {n : End GV} : R.FollowsIn c.activation r → R.Enters r r' c.call i n c.I →
      FollowsCallers R r callers → FollowsCallers R r' (c :: callers)

/-- **The invariant**: the state follows the flows of the recorded program. -/
structure Follows (R : RecordedProgram GV) (s : Execution GV) : Prop where
  running : ∃ r, R.FollowsIn s.running r ∧ R.FollowsCallers r s.callers
  memory : ∀ a k, ∀ o ∈ s.memory a k, R.Holds a o

theorem mem_definitions {d : Definition GV} :
    d ∈ R.linked.definitions ↔ ∃ r ∈ R.functions, r.toDefinition = d := List.mem_map

/-- An instruction whose result flows into its local. -/
theorem FollowsIn.update {f : Activation GV} (h : R.FollowsIn f r) {id : Nat} {result : Addresses}
    (hresult : ∀ o ∈ result, ∃ i, Dict.get? r.visitor.Locals (.Instruction id) = some i ∧
      R.Points r (.loc i) o) :
    R.FollowsIn { f with values := Function.update f.values (.Instruction id) result } r where
  mem := h.mem
  code := h.code
  runs := h.runs
  values V o ho := by
    by_cases hV : V = .Instruction id
    · subst hV
      exact hresult o (by simpa using ho)
    · exact h.values V o (by simpa [Function.update_of_ne hV] using ho)

/-- A variadic call has its arguments from the slot on that the model of them is defined at. -/
theorem slot_eq {call : CallBase GV} {F : Function GV} (htype : F.type = call.FTy) {no : Nat}
    {A : Value GV} (hA : call.args[no]? = some A) :
    (no < F.args.length → call.slot no = no) ∧
      (F.type.isVarArg = true → F.args.length ≤ no → call.slot no = F.args.length) := by
  have hparams : F.args.length = call.FTy.getNumParams := by
    rw [F.arg_size, htype]
    rfl
  have hpos : 0 < call.args.length := (Nat.zero_le no).trans_lt (List.getElem?_eq_some_iff.mp hA).1
  unfold CallBase.slot CallBase.isVarArg
  rw [hparams, htype]
  refine ⟨fun hlt => ?_, fun hvar hle => ?_⟩
  · split
    · exact min_eq_left hlt.le
    · rfl
  · simp [hvar, hpos, hle]

section
variable (hplain : R.Plain)
include hplain

/-- The first state. -/
theorem follows_start {s : Execution GV} (hs : R.linked.Starts s) : R.Follows s where
  running := by
    obtain ⟨r, hr, hcode⟩ := mem_definitions.mp hs.code
    have hmain : R.name r.F.symbol = "main" := by
      rw [← hs.main, ← hcode]
      rfl
    refine ⟨r, ⟨hr, hcode.symm, ?_, fun V o ho => ?_⟩, ?_⟩
    · exact .start ⟨R.functionFacts r, R.functionFacts_mem hr, rfl, .inl hmain⟩
    · rw [hs.values V] at ho
      exact absurd ho (Set.notMem_empty o)
    · rw [hs.callers]
      exact .nil
  memory a k o ho := by
    obtain ⟨p, hp, hwritten, c, hc, G, hG, rfl, rfl⟩ := hs.memory a k o ho
    have hglobal := hplain.initializers p hp c hc G hG
    obtain ⟨i, hi, hp⟩ := List.mem_flatMap.mp hp
    obtain ⟨GVar, hGVar, rfl⟩ := List.mem_map.mp hp
    obtain ⟨hGVar, hcomdat⟩ := List.mem_filter.mp hGVar
    obtain ⟨n, idx, hstore, hpath⟩ := emitInitializers_records i.run hGVar (of_decide_eq_true hcomdat)
      hwritten hc (List.mem_map_of_mem hglobal)
    have hmem := R.initializerFacts_mem hi
    have hrun : R.Flows (.reached (R.address i.symbol)) :=
      .start ⟨R.initializerFacts i, hmem, rfl, .inr (R.pseudo i hi)⟩
    have hvalue := flows_path hmem rfl hrun hpath (.symbol (R.address (i.M.getAliaseeObject G)))
    exact .store hmem (mem_factsOf (d := .Store) hstore) hrun (.symbol _) hvalue

/-- **One step.** -/
theorem follows_step {s s' : Execution GV} (hs : R.Follows s) (hstep : R.linked.Step s s') :
    R.Follows s' := by
  obtain ⟨⟨r, hf, hcallers⟩, hmemory⟩ := hs
  cases hstep with
  | instruction hI hresult hwrites =>
    refine ⟨⟨r, hf.update fun o ho => hf.points_of_brings hplain hmemory hI (hresult o ho),
      hcallers⟩, fun a k o ho => ?_⟩
    rcases hwrites a k o ho with hold | hnew
    · exact hmemory a k o hold
    · exact hf.holds_of_writes hplain hmemory hI hnew
  | @call f callers memory memory' I call d values no hd hcall htype hpasses hspills =>
    obtain ⟨r', hr', rfl⟩ := mem_definitions.mp hd
    obtain ⟨i, n, hrecorded, he, hn⟩ := hf.call_points hplain hcall.mem hcall
    have henters : R.Enters r r' call i n I := ⟨hf.mem, hr', hf.runs, hrecorded, he, hn⟩
    have hused := (Opcode.used_call (M := r.M) hcall.op).2
    -- an argument flows into what is defined at its slot
    have hsupplied : ∀ no A o, call.args[no]? = some A → o ∈ R.linked.eval f A → ∀ formal,
        (formal, .sym r'.F.symbol, UInt32.ofNat (call.slot no)) ∈
          edges r'.visitor.FW.ops .ArgumentDefinition → R.Points r' formal o := by
      intro no A o hA ho formal hdefinition
      have hp := hf.plain_of_used hplain hcall.mem (hused A (List.mem_of_getElem? hA))
      obtain ⟨m, hm, hsupply⟩ := hrecorded.supplies no A hA (FollowsIn.not_nodeless hp ho)
      exact henters.points_argument hsupply hdefinition (hf.points_of_eval hp hm ho)
    have hreceives := (EdgeVisitor.run_records r'.run).1
    refine ⟨⟨r', ⟨hr', rfl, henters.runs', fun V o ho => ?_⟩, .cons hf henters hcallers⟩,
      fun a k o ho => ?_⟩
    · obtain ⟨no, A, rfl, hno, hA, ho⟩ := hpasses V o ho
      obtain ⟨j, hj, hdefinition⟩ := hreceives.arguments no hno
      refine ⟨j, hj, hsupplied no A o hA ho _ ?_⟩
      rw [(slot_eq htype hA).1 hno]
      exact hdefinition
    · rcases hspills a k o ho with hold | ⟨hvar, rfl, no, A, hno, hA, ho⟩
      · exact hmemory a k o hold
      · obtain ⟨m, hm, hlt, -, d, ⟨idx, hstore⟩, hdefinition⟩ := hreceives.variadic hvar
        have hpoints := hsupplied no A o hA ho (.loc d) (by
          rw [(slot_eq htype hA).2 hvar hno]
          exact hdefinition)
        show R.Flows (.holds (.loc _ (R.areaOf (R.address r'.F.symbol))) (R.nodeOf o))
        rw [areaOf_eq hr' hm]
        exact .store (R.functionFacts_mem hr') (fact_of_edge (d := .Store) hstore) henters.runs'
          (.allocation ⟨r', hr', m + 1, rfl, .inl hlt⟩) hpoints
  | @leave f c callers memory I result hI hresult =>
    cases hcallers with
    | cons hc henters hrest =>
      refine ⟨⟨_, hc.update fun o ho => ?_, hrest⟩, hmemory⟩
      obtain ⟨hvoid, V, hV, ho⟩ := hresult o ho
      have hp := hf.plain_of_used hplain hI (Opcode.used_returned hV)
      obtain ⟨n, hn, hreturn⟩ := (hf.records hI).returned V hV (FollowsIn.not_nodeless hp ho)
      exact ⟨_, henters.recorded.result hvoid,
        henters.points_returned hreturn (hf.points_of_eval hp hn ho)⟩
  | unwind =>
    cases hcallers with
    | cons hc henters hrest => exact ⟨⟨_, hc, hrest⟩, hmemory⟩

/-- **Whatever an execution reaches follows the recorded flows.** -/
theorem follows_reached {s : Execution GV} (hs : R.linked.Reached s) : R.Follows s := by
  obtain ⟨s₀, hstart, hrun⟩ := hs
  induction hrun with
  | refl => exact follows_start hplain hstart
  | tail _ hstep ih => exact follows_step hplain ih hstep

end
end RecordedProgram
end
end Bracelet.Reachability
