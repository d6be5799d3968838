import Bracelet.EdgeWriter

/-!
# Recording the edges of a function

The LLVM pass `BraceletReachability` visits the instructions of every function and
records, through a `FunctionWriter`, how values flow through it (`EdgeVisitor`).  What
it does to the writer is a list of calls, those that `EdgeWriter` writes the graph from.

A value is known by its node.  A global value has a symbol, an instruction or an
argument gets a local when it is first met, and so does a constant in which several
global values meet; all other constants have no node (`none`).  An edge needs two nodes:
its constructor stops the pass at a null one.

Tracing is off, as it is by default.  What the verifier of LLVM checks of a call is part
of the structures.
-/
namespace Bracelet.Reachability
open Edges (Bytes EdgeKind End Op ascii)

/-! ## Modules -/

inductive Ty
  | void
  | named (text : String)
  deriving DecidableEq, Repr

structure FunctionType where
  ReturnType : Ty
  params : List Ty
  isVarArg : Bool
  /-- A word counts the types of the result and of the parameters. -/
  bounded : params.length + 1 < 2 ^ 32
  deriving DecidableEq

def FunctionType.getNumParams (FTy : FunctionType) : Nat := FTy.params.length

/-- The intrinsics that the visitor tells apart, and the others by name. -/
inductive IntrinsicID
  | not_intrinsic | vastart | vacopy | vaend | memmove | memcpy
  | other (name : String)
  deriving DecidableEq, Repr

/-- The operands that the visitor reads. -/
def IntrinsicID.operands : IntrinsicID → Nat
  | vastart => 1
  | vacopy | memmove | memcpy => 2
  | _ => 0

structure FunctionDecl where
  name : String
  type : FunctionType
  IntrinsicID : IntrinsicID
  has_operands : IntrinsicID.operands ≤ type.params.length

/-- Constants, as `constantNode` tells them apart. -/
inductive Constant (GV : Type)
  | GlobalValue (gv : GV)
  | ConstantExpr (operands : List (Constant GV))
  | ConstantAggregate (operands : List (Constant GV))
  /-- Numbers, null pointers, `undef`, `poison` and the like. -/
  | ConstantData
  | BlockAddress (F : GV)
  | NoCFIValue (gv : GV)
  | DSOLocalEquivalent (gv : GV)
  | ConstantPtrAuth (operands : List (Constant GV))

/-- An instruction or an argument of the function. -/
inductive LocalValue
  | Instruction (id : Nat)
  | Argument (no : Nat)
  deriving DecidableEq, Repr

inductive Value (GV : Type)
  | Constant (c : Constant GV)
  | Local (V : LocalValue)
  | InlineAsm

section
variable {GV : Type}

/-- Calls, invokes and `callbr`. -/
structure CallBase (GV : Type) where
  CalledOperand : Value GV
  FTy : FunctionType
  args : List (Value GV)
  has_params : FTy.params.length ≤ args.length
  fixed : FTy.isVarArg = false → args.length = FTy.params.length

/-- Casts other than those that the visitor has a case of their own for. -/
inductive CastOp
  | Trunc | ZExt | SExt | FPToUI | FPToSI | UIToFP | SIToFP | FPTrunc | FPExt
  deriving DecidableEq, Repr

/-- Instructions that the visitor does nothing for. -/
inductive OtherOp
  | Br | Switch | IndirectBr | Resume | Unreachable | CleanupRet | CatchRet | CatchSwitch
  | Fence | CleanupPad | CatchPad | ICmp | FCmp | LandingPad
  deriving DecidableEq, Repr

inductive Opcode (GV : Type)
  | Alloca
  | Store (PointerOperand ValueOperand : Value GV)
  | Load (PointerOperand : Value GV)
  | AtomicCmpXchg (PointerOperand CompareOperand NewValOperand : Value GV)
  | AtomicRMW (PointerOperand ValOperand : Value GV)
  | GetElementPtr (PointerOperand : Value GV) (indices : List (Value GV))
  | PHI (incoming_values : List (Value GV))
  | PtrToInt (PointerOperand : Value GV)
  | IntToPtr (op : Value GV)
  | BitCast (op : Value GV)
  | AddrSpaceCast (op : Value GV)
  | Cast (kind : CastOp) (op : Value GV)
  | Select (Condition TrueValue FalseValue : Value GV)
  | VAArg (PointerOperand : Value GV)
  | ExtractElement (vector index : Value GV)
  | InsertElement (vector element index : Value GV)
  | ShuffleVector (first second : Value GV)
  | ExtractValue (aggregate : Value GV)
  | InsertValue (aggregate value : Value GV)
  | Freeze (op : Value GV)
  | Return (op : Option (Value GV))
  | UnaryOperator (op : Value GV)
  | BinaryOperator (first second : Value GV)
  | Call (call : CallBase GV)
  | Other (kind : OtherOp) (operands : List (Value GV))

structure Instruction (GV : Type) where
  id : Nat
  name : Bytes
  /-- As it is printed as an operand. -/
  operand : Bytes
  /-- The printed debug location. -/
  location : Bytes
  op : Opcode GV

structure Argument where
  name : Bytes
  operand : Bytes

structure Function (GV : Type) where
  symbol : GV
  type : FunctionType
  args : List Argument
  /-- The instructions of the blocks, in order. -/
  body : List (Instruction GV)
  arg_size : args.length = type.params.length
  distinct : (body.map Instruction.id).Nodup

structure GlobalVariable (GV : Type) where
  symbol : GV
  name : String
  isExternallyInitialized : Bool
  initializer : Option (Constant GV)
  comdat : Option String

structure Module (GV : Type) where
  /-- The object that an alias stands for; other global values are objects. -/
  getAliaseeObject : GV → GV
  getFunction : GV → Option FunctionDecl
  /-- The variable that is made for a `dlsym` call of a function. -/
  PagePtr : GV → Nat → GV
  /-- In the order of the module. -/
  global_variables : List (GlobalVariable GV)
  NoIncludeDebugData : Bool

/-! ## The writer -/

/-- Why the pass stops. -/
inductive Abort
  /-- The constructor of an edge is given a null node. -/
  | nullNode
  | assertion
  deriving DecidableEq, Repr

abbrev Visited := Except Abort

/-- `none` is the null node. -/
abbrev Node (GV : Type) := Option (End GV)

/-- The calls on a function writer so far. -/
structure Writer (GV : Type) where
  ops : List (Op GV) := []
  num_locals : Nat := 0

namespace Writer

/-- The symbol of a global object. -/
def symbol (FW : Writer GV) (GO : GV) : Node GV × Writer GV :=
  (some (.sym GO), { FW with ops := FW.ops ++ [.symbol GO] })

def freshLocal (FW : Writer GV) (Name : Bytes) : Nat × Writer GV :=
  (FW.num_locals,
    { FW with ops := FW.ops ++ [.freshLocal Name], num_locals := FW.num_locals + 1 })

/-- Constructs an edge and records it. -/
def addEdge (FW : Writer GV) (kind : EdgeKind) (to_node from_node : Node GV) (idx : UInt32) :
    Visited (Writer GV) :=
  match to_node, from_node with
  | some to_end, some from_end =>
    .ok { FW with ops := FW.ops ++ [.addEdge kind to_end from_end idx] }
  | _, _ => .error .nullNode

end Writer

/-! ## Constants -/

structure MultiConstantNodeBuilder (GV : Type) where
  FreshNodeCreated : Bool := false
  Out : Node GV := none

/-- A second node gets the constant a local of its own. -/
def MultiConstantNodeBuilder.add (B : MultiConstantNodeBuilder GV) (FW : Writer GV) (N : Node GV) :
    Visited (MultiConstantNodeBuilder GV × Writer GV) :=
  match N, B.Out with
  | none, _ => .ok (B, FW)
  | some _, none => .ok ({ B with Out := N }, FW)
  | some _, some _ =>
    if B.FreshNodeCreated then do
      let FW ← FW.addEdge .Assign B.Out N 0
      return (B, FW)
    else do
      let (fresh, FW) := FW.freshLocal (ascii "<bracelet constant>")
      let Out := some (.loc fresh)
      let FW ← FW.addEdge .Assign Out B.Out 0
      let FW ← FW.addEdge .Assign Out N 0
      return (⟨true, Out⟩, FW)

section
variable (M : Module GV)

mutual

def constantNode : Constant GV → Writer GV → Visited (Node GV × Writer GV)
  | .GlobalValue G, FW => .ok (FW.symbol (M.getAliaseeObject G))
  | .ConstantExpr operands, FW => do
    let (B, FW) ← addOperands operands {} FW
    return (B.Out, FW)
  | .ConstantAggregate operands, FW => do
    let (B, FW) ← addOperands operands {} FW
    return (B.Out, FW)
  -- We don't care about these constants.
  | .ConstantData, FW | .BlockAddress _, FW | .NoCFIValue _, FW | .DSOLocalEquivalent _, FW
  | .ConstantPtrAuth _, FW => .ok (none, FW)

def addOperands : List (Constant GV) → MultiConstantNodeBuilder GV → Writer GV →
    Visited (MultiConstantNodeBuilder GV × Writer GV)
  | [], B, FW => .ok (B, FW)
  | O :: operands, B, FW => do
    let (N, FW) ← constantNode O FW
    let (B, FW) ← B.add FW N
    addOperands operands B FW

end

/-! ## Global initializers -/

/-- One global variable of the loop that writes the initializers, to the writer of its
comdat. -/
def emitInitializer (FW : Writer GV) (GVar : GlobalVariable GV) : Visited (Writer GV) :=
  match GVar.initializer with
  | none => .ok FW
  | some initializer =>
    if GVar.isExternallyInitialized || "llvm.".isPrefixOf GVar.name then .ok FW else do
      let (Value, FW) ← constantNode M initializer FW
      if Value.isNone then return FW else
      let (N, FW) ← constantNode M (.GlobalValue GVar.symbol) FW
      FW.addEdge .Store N Value 0

/-- What the writer of a comdat is told. -/
def emitInitializers (comdat : Option String) : Visited (Writer GV) :=
  (M.global_variables.filter fun GVar => GVar.comdat = comdat).foldlM (emitInitializer M) {}

/-! ## Values -/

variable (F : Function GV)

structure EdgeVisitor (GV : Type) where
  FW : Writer GV := {}
  Locals : List (LocalValue × Nat) := []
  VarArgs : Option Nat := none
  CallVoidNumber : Nat := 0
  NumAllocas : Nat := 0

def nameWithLocation (I : Instruction GV) (LocalName : Bytes) : Bytes :=
  if M.NoIncludeDebugData then []
  else I.location ++ ascii "|" ++ if LocalName = [] then I.operand else LocalName

/-- The name that `freshLocalForValue` gives to the local of a value. -/
def localName : LocalValue → Bytes
  | .Instruction id =>
    match F.body.find? (·.id == id) with
    | some I => nameWithLocation M I I.name
    | none => []
  | .Argument no =>
    match F.args[no]? with
    | some A => if A.name ≠ [] then A.name else if M.NoIncludeDebugData then [] else A.operand
    | none => []

namespace EdgeVisitor
variable (v : EdgeVisitor GV)

def node : Value GV → Visited (Node GV × EdgeVisitor GV)
  | .Constant ConstantValue => do
    let (N, FW) ← constantNode M ConstantValue v.FW
    return (N, { v with FW })
  | .Local V =>
    match Dict.get? v.Locals V with
    | some i => .ok (some (.loc i), v)
    | none =>
      let (i, FW) := v.FW.freshLocal (localName M F V)
      .ok (some (.loc i), { v with FW, Locals := Dict.set v.Locals V i })
  | .InlineAsm => .ok (none, v)

def freshLocal (Name : Bytes) : Nat × EdgeVisitor GV :=
  let (i, FW) := v.FW.freshLocal Name
  (i, { v with FW })

def addEdge (kind : EdgeKind) (to_node from_node : Node GV) (idx : UInt32) :
    Visited (EdgeVisitor GV) := do
  let FW ← v.FW.addEdge kind to_node from_node idx
  return { v with FW }

def addStoreEdge (To From : Value GV) : Visited (EdgeVisitor GV) := do
  let (FromN, v) ← v.node M F From
  let (ToN, v) ← v.node M F To
  if FromN.isSome && ToN.isSome then v.addEdge .Store ToN FromN 0 else return v

def addLoadEdge (To From : Value GV) : Visited (EdgeVisitor GV) := do
  let (FromN, v) ← v.node M F From
  if FromN.isNone then return v else
  let (ToN, v) ← v.node M F To
  v.addEdge .Load ToN FromN 0

def addAssignEdge (To From : Value GV) : Visited (EdgeVisitor GV) := do
  let (FromN, v) ← v.node M F From
  if FromN.isNone then return v else
  let (ToN, v) ← v.node M F To
  v.addEdge .Assign ToN FromN 0

end EdgeVisitor

/-! ## Calls -/

namespace CallBase

/-- The function called by name, at its own type. -/
def getCalledFunction (I : CallBase GV) : Option FunctionDecl :=
  match I.CalledOperand with
  | .Constant (.GlobalValue G) => (M.getFunction G).filter fun decl => decl.type = I.FTy
  | _ => none

def getIntrinsicID (I : CallBase GV) : IntrinsicID :=
  match I.getCalledFunction M with
  | some decl => decl.IntrinsicID
  | none => .not_intrinsic

/-- The called operand, or what it is an alias of. -/
def Callee (I : CallBase GV) : Value GV :=
  match I.CalledOperand with
  | .Constant (.GlobalValue G) => .Constant (.GlobalValue (M.getAliaseeObject G))
  | V => V

/-- In C code the prototype `f()` gets interpreted as `f(...)`, but only in some places;
so functions are variadic only if there is at least one argument. -/
def isVarArg (I : CallBase GV) : Bool := I.FTy.isVarArg && decide (0 < I.args.length)

/-- A call of `dlsym`, which gets an edge of its own. -/
def callsDlsym (I : CallBase GV) : Bool :=
  (I.getCalledFunction M).map FunctionDecl.name == some "dlsym"

def nargs (I : CallBase GV) : UInt32 :=
  UInt32.ofNat (if I.isVarArg then I.FTy.getNumParams + 1 else I.FTy.getNumParams)

/-- The slot of an argument: all the variadic ones share the last. -/
def slot (I : CallBase GV) (Idx : Nat) : Nat :=
  if I.isVarArg then min Idx I.FTy.getNumParams else Idx

end CallBase

namespace EdgeVisitor
variable (v : EdgeVisitor GV)

/-- The loop over the arguments, from one on. -/
def supplyArguments (I : CallBase GV) (INode : Node GV) :
    Nat → List (Value GV) → EdgeVisitor GV → Visited (EdgeVisitor GV)
  | _, [], v => .ok v
  | Idx, A :: args, v =>
    if !I.isVarArg && decide (I.FTy.getNumParams ≤ Idx) then .error .assertion else do
      let (ArgNode, v) ← v.node M F A
      let v ← if ArgNode.isNone then pure v
        else v.addEdge .ArgumentSupply INode ArgNode (UInt32.ofNat (I.slot Idx))
      supplyArguments I INode (Idx + 1) args v

/-- The node of the call itself. -/
def callNode (I : Instruction GV) (call : CallBase GV) : Visited (Node GV × EdgeVisitor GV) :=
  if call.FTy.ReturnType = .void then
    let Name := nameWithLocation M I (ascii s!"VoidCall_{v.CallVoidNumber}")
    let (i, v) := { v with CallVoidNumber := v.CallVoidNumber + 1 }.freshLocal Name
    .ok (some (.loc i), v)
  else v.node M F (.Local (.Instruction I.id))

/-- What a memory transfer does: a value is loaded from the source and stored to the
destination. -/
def transfer (Name : String) (Src Dst : Value GV) : Visited (EdgeVisitor GV) := do
  let (Tmp, v) := v.freshLocal (ascii Name)
  let (SrcN, v) ← v.node M F Src
  let v ← v.addEdge .Load (some (.loc Tmp)) SrcN 0
  let (DstN, v) ← v.node M F Dst
  v.addEdge .Store DstN (some (.loc Tmp)) 0

/-- `va_start`: what is in the model list is copied to the real one. -/
def startVarArgs (List : Value GV) : Visited (EdgeVisitor GV) :=
  match v.VarArgs with
  | none => .error .assertion
  | some VarArgs => do
    let (Tmp, v) := v.freshLocal (ascii "vastart() tmp")
    let v ← v.addEdge .Load (some (.loc Tmp)) (some (.loc VarArgs)) 0
    let (ListN, v) ← v.node M F List
    v.addEdge .Store ListN (some (.loc Tmp)) 0

/-- A call that is not one of an intrinsic. -/
def visitOrdinaryCall (I : Instruction GV) (call : CallBase GV) : Visited (EdgeVisitor GV) := do
  let (INode, v) ← v.callNode M F I call
  if call.callsDlsym M then
    -- The call that is inserted after this one is not visited.
    let (PagePtr, FW) := v.FW.symbol (M.PagePtr F.symbol I.id)
    { v with FW }.addEdge .DlsymPagePointer INode PagePtr 0
  else do
    let v ← supplyArguments M F call INode 0 call.args v
    let (CalleeN, v) ← v.node M F (call.Callee M)
    v.addEdge .Call INode CalleeN call.nargs

/-- A call that is not inline assembly. -/
def visitCall (I : Instruction GV) (call : CallBase GV) : Visited (EdgeVisitor GV) :=
  match call.getIntrinsicID M, call.args with
  | .not_intrinsic, _ => v.visitOrdinaryCall M F I call
  | .vastart, List :: _ => v.startVarArgs M F List
  | .vacopy, Dst :: Src :: _ => v.transfer M F "va_copy() tmp" Src Dst
  | .vaend, _ => .ok v
  | .memmove, Dst :: Src :: _ | .memcpy, Dst :: Src :: _ => v.transfer M F "memcpy tmp" Src Dst
  | .other _, _ => .ok v
  -- `getArgOperand` checks its index.
  | _, _ => .error .assertion

def visitCallBase (I : Instruction GV) (call : CallBase GV) : Visited (EdgeVisitor GV) :=
  match call.CalledOperand with
  | .InlineAsm => .ok v
  | _ => v.visitCall M F I call

/-! ## Instructions -/

def visitReturnInst (op : Option (Value GV)) : Visited (EdgeVisitor GV) :=
  match op with
  | none => .ok v
  | some V => do
    let (N, v) ← v.node M F V
    if N.isNone then return v else
    let (This, FW) := v.FW.symbol F.symbol
    { v with FW }.addEdge .Return This N 0

/-- `addAssignEdge` for each of the values, in order. -/
def addAssignEdges (To : Value GV) (Vs : List (Value GV)) : Visited (EdgeVisitor GV) :=
  Vs.foldlM (fun v V => v.addAssignEdge M F To V) v

def visit (I : Instruction GV) : Visited (EdgeVisitor GV) :=
  let This : Value GV := .Local (.Instruction I.id)
  match I.op with
  | .Store P V => v.addStoreEdge M F P V
  | .Load P => v.addLoadEdge M F This P
  | .AtomicCmpXchg P _ V | .AtomicRMW P V => do
    let v ← v.addLoadEdge M F This P
    v.addStoreEdge M F P V
  | .GetElementPtr V _ | .PtrToInt V | .IntToPtr V | .BitCast V | .AddrSpaceCast V | .Cast _ V
  | .ExtractElement V _ | .ExtractValue V | .Freeze V | .UnaryOperator V =>
    v.addAssignEdge M F This V
  | .Select _ V W | .InsertElement V W _ | .ShuffleVector V W | .InsertValue V W
  | .BinaryOperator V W => v.addAssignEdges M F This [V, W]
  | .PHI Vs => v.addAssignEdges M F This Vs
  -- va_arg is not used by the clang or clang++ frontend.
  | .VAArg _ => .error .assertion
  | .Return V => v.visitReturnInst M F V
  | .Call call => v.visitCallBase M F I call
  | .Alloca | .Other _ _ => .ok v

/-! ## Functions -/

def preprocessVisitAllocaInst (I : Instruction GV) : Visited (EdgeVisitor GV) :=
  match I.op with
  | .Alloca =>
    let (i, v') := v.freshLocal (ascii "ALLOCA_" ++ I.name)
    if i ≠ v.Locals.length then .error .assertion
    else .ok { v' with Locals := Dict.set v.Locals (.Instruction I.id) i }
  | _ => .ok v

/-- The model of the variadic arguments: a list, its area and what is stored there. -/
def defineVarArgs : Visited (EdgeVisitor GV) := do
  let (VarArgs, v) := v.freshLocal (ascii "TheVarArgsAlloca")
  let (SaveSpace, v) := v.freshLocal (ascii "TheVarArgsArea")
  let v := { v with VarArgs := some VarArgs, NumAllocas := v.NumAllocas + 2 }
  let (ArgData, v) := v.freshLocal (ascii "TheVarArgs")
  let v ← v.addEdge .ArgumentDefinition (some (.loc ArgData)) (some (.sym F.symbol))
    (UInt32.ofNat F.args.length)
  let v ← v.addEdge .Store (some (.loc SaveSpace)) (some (.loc ArgData)) 0
  v.addEdge .Store (some (.loc VarArgs)) (some (.loc SaveSpace)) 0

def defineArgument (no : Nat) : Visited (EdgeVisitor GV) := do
  let (N, v) ← v.node M F (.Local (.Argument no))
  v.addEdge .ArgumentDefinition N (some (.sym F.symbol)) (UInt32.ofNat no)

/-- The constructor. -/
def new : Visited (EdgeVisitor GV) := do
  let v ← F.body.foldlM preprocessVisitAllocaInst {}
  let v := { v with NumAllocas := v.Locals.length }
  let v ← if F.type.isVarArg then v.defineVarArgs F else pure v
  (List.range F.args.length).foldlM (fun v no => v.defineArgument M F no) v

/-- **Visits a function.** -/
def run : Visited (EdgeVisitor GV) := do
  let v ← new M F
  F.body.foldlM (fun v I => v.visit M F I) v

end EdgeVisitor

/-- What is written of a function. -/
def functionGraph (sbom : Option (Bytes × Bytes)) : Visited (Edges.FunctionGraph GV) := do
  let v ← EdgeVisitor.run M F
  return { function := F.symbol, sbom, ops := v.FW.ops, NumAllocas := UInt32.ofNat v.NumAllocas }

end
end
end Bracelet.Reachability
