import Bracelet.DlsymWalks
import Bracelet.PointerPrograms
import Bracelet.PointsTo

/-!
# The C files of a graph

`EmitC::emitC` writes a C file for each function of a graph, a file with the globals, and in
conservative mode a file for each function that is called and not there.  `templates/c.txt` makes of
each edge a statement of the loop of its function; here the statements are kept, with nodes for the
identifiers that are printed for them.

`Project.link` is what the C files mean: a pointer program, unless they do not compile or two of
them define one name.  A function with a file must not have the name of an override, because the
prelude defines it too.  The overrides of the prelude are a parameter.
-/
namespace Bracelet.Edges.PointsTo
open PointerPrograms (Operand Procedure Prog Stmt)

/-! ## What is written -/

/-- A statement of the loop of a function. -/
inductive CStmt
  /-- `NONDET dest = source;` -/
  | assign (dest source : Node)
  /-- `NONDET into = *((T*)addr);` -/
  | load (into addr : Node)
  /-- `NONDET *((T*)addr) = value;` -/
  | store (addr value : Node)
  /-- `NONDET callsite = callee(call_arg_0, …);` -/
  | call (callsite callee : Node) (nargs : UInt32)
  /-- `NONDET return value;` -/
  | ret (value : Node)
  /-- `NONDET value = arg0;` -/
  | define (value : Node) (arg_no : UInt32)
  /-- `NONDET call_arg_0 = value;` -/
  | supply (callsite : Node) (arg_no : UInt32) (value : Node)
  deriving DecidableEq

/-- The file of a function: it defines the locals, which are null, and the function, which gives a
block to each of `allocas`, declares `call_args`, and loops. -/
structure CFile where
  function : Node
  nargs : UInt16
  locals : List Node
  allocas : List Node
  /-- The call sites, and how many variables are declared for their arguments. -/
  call_args : List (Node × UInt32)
  loop : List CStmt

/-- The directory that is compiled. -/
structure Project where
  node_states : List (Node × NodeState)
  override_nodes : List (Node × String)
  files : List (Node × CFile)
  /-- The functions with conservative bodies. -/
  conservative : List (Node × UInt16)

/-- `visitEdges` for the edges of a kind. -/
def GraphFunction.ofKind (fi : GraphFunction) (kind : EdgeKind) : List Edge :=
  (fi.edges.filter fun edge => edge.1 = kind).map Prod.snd

def NodeState.isFunction : NodeState → Bool
  | .Function _ => true
  | _ => false

section
variable (asserts : Bool) (symbolName : Address → Result String)
  (override_nargs : List (String × UInt16))
  -- the assignments for a `DlsymPagePointer` edge, as `DlsymWalks.emitPages` gives them
  (emitPages : GraphFunction → Edge → Result (List (Node × Node)))

/-- The first locals of a function. -/
def GraphFunction.firstLocals (fi : GraphFunction) (count : UInt32) : Result (List Node) :=
  (List.range count.toNat).mapM fun i => Node.mkLocal asserts fi.function.symbol (UInt64.ofNat i)

/-- A call site is a local of the function. -/
def assertCallsite (fi : GraphFunction) (callsite : Node) : Result Unit := do
  assert asserts (callsite.symbol == fi.function.symbol)
  assert asserts callsite.local_idx.isSome

/-- `templates/c.txt` -/
def emitFile (st : EmitC) (fi : GraphFunction) : Result CFile :=
  match Dict.get? st.node_states fi.function with
  | some (.Function this_function_nargs) => do
    let locals ← fi.firstLocals asserts fi.num_locals
    let allocas ← fi.firstLocals asserts fi.num_allocas
    (fi.ofKind .Call).forM fun call =>
      if call.idx = 0 then .ok () else assertCallsite asserts fi call.to_node
    (fi.ofKind .ArgumentSupply).forM fun e => assertCallsite asserts fi e.to_node
    let pointers ← (fi.ofKind .DlsymPagePointer).mapM (emitPages fi)
    return {
      function := fi.function
      nargs := this_function_nargs
      locals := locals
      allocas := allocas
      call_args := (fi.ofKind .Call).map fun call => (call.to_node, call.idx)
      loop :=
        (fi.ofKind .Assign).map (fun e => .assign e.to_node e.from_node) ++
        (fi.ofKind .Load).map (fun e => .load e.to_node e.from_node) ++
        (fi.ofKind .Store).map (fun e => .store e.to_node e.from_node) ++
        (fi.ofKind .Call).map (fun call => .call call.to_node call.from_node call.idx) ++
        (fi.ofKind .Return).map (fun e => .ret e.from_node) ++
        (fi.ofKind .ArgumentDefinition).map (fun e => .define e.to_node e.idx) ++
        (fi.ofKind .ArgumentSupply).map (fun e => .supply e.to_node e.idx e.from_node) ++
        pointers.flatten.map (fun p => .assign p.1 p.2) }
  -- `node_states.at` and `std::get` throw
  | _ => .error .abort

/-- A file is named by the address of its function. -/
def writeFunctions (st : EmitC) (fs : List GraphFunction) : Result (List (Node × CFile)) :=
  fs.foldlM (fun files fi => do
    let file ← emitFile asserts emitPages st fi
    return Dict.set files fi.function file) []

/-- Functions that are neither overridden nor given a file. -/
def declared_functions (st : EmitC) (fs : List GraphFunction) : List (Node × UInt16) :=
  st.node_states.filterMap fun (node, state) =>
    match state with
    | .Function nargs =>
      if (Dict.get? st.override_nodes node).isSome ∨ node ∈ fs.map GraphFunction.function then none
      else some (node, nargs)
    | _ => none

/-- **The files for the functions of a graph**, once the prelude has declared what is known of every
node. -/
def emitC (conservative_mode : Bool) (fs : List GraphFunction) : Result Project := do
  let st ← tryContext (EmitC.initial_pass asserts symbolName override_nargs fs) "initial edge pass"
  -- a warning names each node that is undefined
  st.node_states.forM fun (node, state) =>
    if state = .Undefined then do let _ ← symbolName node.symbol else .ok ()
  let files ← writeFunctions asserts emitPages st fs
  return {
    node_states := st.node_states
    override_nodes := st.override_nodes
    files := files
    conservative := if conservative_mode then declared_functions st fs else [] }

end

/-! ## What it means -/

/-- A variable of the program. -/
inductive CVar
  /-- That of a node. -/
  | node (n : Node)
  | call_arg (callsite : Node) (i : Nat)
  /-- `tmp` of a conservative body. -/
  | tmp (sym : Node)
  /-- One of an override. -/
  | prelude (override name : String)
  deriving DecidableEq

/-- A function of the program. -/
inductive CName
  | node (n : Node)
  | override (name : String)
  deriving DecidableEq

namespace Project
variable (p : Project)

/-- The name of a function: a macro stands for that of an override. -/
def name (n : Node) : CName :=
  match Dict.get? p.override_nodes n with
  | some override => .override override
  | none => .node n

/-- What `show_node` refers to, if it is declared. -/
def operand (f : CFile) (n : Node) : Option (Operand CVar CName) :=
  if n.local_idx.isSome then
    if n ∈ f.locals then some (.var (.node n)) else none
  else (Dict.get? p.node_states n).map fun state =>
      if state.isFunction then .fn (p.name n) else .var (.node n)

/-- What can be assigned to. -/
def lvalue? (f : CFile) (n : Node) : Option CVar := do
  match ← p.operand f n with
  | .var x => some x
  | .fn _ => none

/-- A function is called with as many arguments as it has, unless it is cast. -/
def callable (callee : Node) (nargs : UInt32) : Bool :=
  callee.local_idx.isSome ||
    match Dict.get? p.node_states callee with
    | some (.Function declared) => declared.toNat == nargs.toNat
    | _ => false

def stmt (f : CFile) : CStmt → Option (Stmt CVar CName)
  | .assign dest source => do return .copy (← p.lvalue? f dest) (← p.operand f source)
  | .load into addr => do return .load (← p.lvalue? f into) (← p.operand f addr)
  | .store addr value => do return .store (← p.operand f addr) (← p.operand f value)
  | .call callsite callee nargs =>
    if p.callable callee nargs then do
      return .call (← p.lvalue? f callsite) (← p.operand f callee)
        ((List.range nargs.toNat).map (.call_arg callsite))
    else none
  | .ret value => do return .ret (← p.operand f value)
  | .define value arg_no =>
    if arg_no.toNat < f.nargs.toNat then do
      return .param (← p.lvalue? f value) arg_no.toNat
    else none
  | .supply callsite arg_no value =>
    if ∃ declared ∈ f.call_args, declared.1 = callsite ∧ arg_no.toNat < declared.2.toNat then do
      return .copy (.call_arg callsite arg_no.toNat) (← p.operand f value)
    else none

/-- The function of a file, if the file compiles. -/
def compile (f : CFile) : Option (Procedure CVar CName) :=
  if f.locals.Nodup ∧ f.allocas ⊆ f.locals ∧
      ((f.call_args.filter fun c => c.2 ≠ 0).map Prod.fst).Nodup then do
    let loop ← f.loop.mapM (p.stmt f)
    return {
      nparams := f.nargs.toNat
      autos := f.call_args.flatMap fun c => (List.range c.2.toNat).map (.call_arg c.1)
      entry := f.allocas.map fun n => .malloc (.node n)
      loop := loop
      final := none }
  else none

/-- `templates/conservative.txt` -/
def conservativeBody (sym : Node) (nargs : UInt16) : Procedure CVar CName where
  nparams := nargs.toNat
  autos := [.tmp sym]
  entry := [.malloc (.tmp sym)]
  loop := (List.range nargs.toNat).flatMap fun i =>
    [.param (.tmp sym) i, .store (.var (.tmp sym)) (.var (.tmp sym)),
      .load (.tmp sym) (.var (.tmp sym))]
  final := some (.var (.tmp sym))

/-- The functions that are defined. -/
def definitions : Option (List (CName × Procedure CVar CName)) := do
  let files ← p.files.mapM fun file =>
    -- the prelude, which each file includes, has a definition of an override already
    if (Dict.get? p.override_nodes file.1).isSome then none
    else do return (p.name file.1, ← p.compile file.2)
  return files ++ p.conservative.map fun c => (p.name c.1, conservativeBody c.1 c.2)

/-- **The program of a project**, if it can be built.  A function has the body of its file, a
conservative body, or that of its override. -/
def link (prelude : String → Option (Procedure CVar CName)) : Option (Prog CVar CName) := do
  let definitions ← p.definitions
  if (definitions.map Prod.fst).Nodup then
    return {
      procedures := fun name =>
        match Dict.get? definitions name, name with
        | some proc, _ => some proc
        | none, .override override => prelude override
        | none, .node _ => none
      globals := p.node_states.filterMap fun (node, state) =>
        if state.isFunction then none else some (.node node) }
  else none

end Project
end Bracelet.Edges.PointsTo
