import Bracelet.RecordedValues

/-!
# Executions of a linked program

What the instructions of a program may do with addresses when it runs.  A value is seen as the set
of the objects whose addresses it is made of, and memory as cells that hold values; everything else
that a program computes is left open.  The rules of the machine bound a step from above: what is in
a value or in a cell after a step was there before, or the instruction brings it there from one of
its operands (`Brings`, `Writes`).  So every execution of the program is a run of the machine, in
whatever order branches take it through its instructions, and runs that forget addresses are runs
as well.

Functions are called at their own types, as they have to be.  A function without code moves no
addresses, but may return memory that it has allocated.  Neither do intrinsics that the visitor
passes over, and inline assembly.
-/
namespace Bracelet.Reachability
open Edges (EdgeKind End)

/-! ## Objects -/

inductive Object
  /-- The function or the variable at the address. -/
  | global (address : Nat)
  /-- What an instruction of a function makes: an `alloca` its object, the call of a function
  without code the memory that it returns.  It may make many. -/
  | made (function id instance_no : Nat)
  /-- The area of the variable arguments in a call of a function. -/
  | area (function instance_no : Nat)
  deriving DecidableEq, Repr

/-- A value is made of the addresses of these objects. -/
abbrev Addresses := Set Object

/-- What the cells of an object hold. -/
abbrev Memory := Object → Nat → Addresses

section
variable {GV : Type}

mutual

/-- The global values whose addresses a constant is made of. -/
def Constant.denoted : Constant GV → List GV
  | .GlobalValue G | .NoCFIValue G | .DSOLocalEquivalent G => [G]
  | .ConstantExpr operands => operandsDenoted operands
  | .ConstantAggregate operands => operandsDenoted operands
  | .ConstantPtrAuth operands => operandsDenoted operands
  | .ConstantData | .BlockAddress _ => []

def operandsDenoted : List (Constant GV) → List GV
  | [] => []
  | O :: operands => O.denoted ++ operandsDenoted operands

end

/-! ## Programs -/

/-- A function with the module it is defined in. -/
structure Definition (GV : Type) where
  M : Module GV
  F : Function GV

/-- A program as it is loaded. -/
structure Linked (GV : Type) where
  address : GV → Nat
  name : GV → String
  definitions : List (Definition GV)
  /-- Variables, with the modules that initialize them. -/
  globals : List (Module GV × GlobalVariable GV)
  /-- The addresses that calls of `dlsym` have put on the pages of a variable. -/
  pages : Nat → List Nat

/-- The activation of a function. -/
structure Activation (GV : Type) where
  code : Definition GV
  values : LocalValue → Addresses
  instance_no : Nat

/-- A function at a call that it has not returned from. -/
structure Caller (GV : Type) where
  activation : Activation GV
  I : Instruction GV
  call : CallBase GV

structure Execution (GV : Type) where
  running : Activation GV
  callers : List (Caller GV)
  memory : Memory

namespace Linked
variable (L : Linked GV)

def Defined (address : Nat) : Prop := ∃ d ∈ L.definitions, L.address d.F.symbol = address

/-- What a value is made of. -/
def eval (f : Activation GV) : Value GV → Addresses
  | .Constant c => { o | ∃ G ∈ c.denoted, o = .global (L.address (f.code.M.getAliaseeObject G)) }
  | .Local V => f.values V
  | .InlineAsm => ∅

/-! ## Instructions -/

/-- The function makes a call from which the function or variable at the address may be
entered. -/
structure Calls (f : Activation GV) (I : Instruction GV) (call : CallBase GV) (callee : Nat) :
    Prop where
  mem : I ∈ f.code.F.body
  op : I.op = .Call call
  ordinary : call.Ordinary f.code.M
  callee : .global callee ∈ L.eval f (call.Callee f.code.M)

/-- The objects that an instruction may bring into its result. -/
inductive Brings (f : Activation GV) (memory : Memory) (I : Instruction GV) : Object → Prop
  | carried {V : Value GV} {o : Object} : V ∈ I.op.carries → o ∈ L.eval f V → Brings f memory I o
  | loaded {P : Value GV} {a o : Object} {k : Nat} : P ∈ I.op.loads → a ∈ L.eval f P →
      o ∈ memory a k → Brings f memory I o
  | allocated {n : Nat} : I.op = .Alloca →
      Brings f memory I (.made (L.address f.code.F.symbol) I.id n)
  | returned {call : CallBase GV} {callee n : Nat} : L.Calls f I call callee →
      call.FTy.ReturnType ≠ .void → ¬ L.Defined callee →
      Brings f memory I (.made (L.address f.code.F.symbol) I.id n)
  | found {call : CallBase GV} {a : Nat} : I.op = .Call call → call.CalledOperand ≠ .InlineAsm →
      call.Dlsym f.code.M → call.FTy.ReturnType ≠ .void →
      a ∈ L.pages (L.address (f.code.M.PagePtr f.code.F.symbol I.id)) →
      Brings f memory I (.global a)

/-- The objects whose addresses an instruction may write into an object. -/
inductive Writes (f : Activation GV) (memory : Memory) (I : Instruction GV) : Object → Object → Prop
  | stored {s : Value GV × Value GV} {a o : Object} : s ∈ I.op.stores → a ∈ L.eval f s.1 →
      o ∈ L.eval f s.2 → Writes f memory I a o
  | transferred {t : Value GV × Value GV} {a b o : Object} {k : Nat} :
      t ∈ I.op.transfers f.code.M → a ∈ L.eval f t.1 → b ∈ L.eval f t.2 → o ∈ memory b k →
      Writes f memory I a o
  | started {list : Value GV} {a : Object} : list ∈ I.op.starts f.code.M → a ∈ L.eval f list →
      Writes f memory I a (.area (L.address f.code.F.symbol) f.instance_no)

/-! ## Steps -/

/-- The values of a function that is entered: its arguments. -/
def Passes (f : Activation GV) (call : CallBase GV) (d : Definition GV)
    (values : LocalValue → Addresses) : Prop :=
  ∀ V, ∀ o ∈ values V, ∃ no A, V = .Argument no ∧ no < d.F.args.length ∧
    call.args[no]? = some A ∧ o ∈ L.eval f A

/-- The memory of a function that is entered: the arguments after those are in its area. -/
def Spills (f : Activation GV) (call : CallBase GV) (d : Definition GV) (instance_no : Nat)
    (memory memory' : Memory) : Prop :=
  ∀ a k, ∀ o ∈ memory' a k, o ∈ memory a k ∨
    d.F.type.isVarArg = true ∧ a = .area (L.address d.F.symbol) instance_no ∧
      ∃ no A, d.F.args.length ≤ no ∧ call.args[no]? = some A ∧ o ∈ L.eval f A

/-- **The machine.** -/
inductive Step : Execution GV → Execution GV → Prop
  | instruction {f : Activation GV} {callers : List (Caller GV)} {memory memory' : Memory}
      {I : Instruction GV} {result : Addresses} : I ∈ f.code.F.body →
      (∀ o ∈ result, L.Brings f memory I o) →
      (∀ a k, ∀ o ∈ memory' a k, o ∈ memory a k ∨ L.Writes f memory I a o) →
      Step ⟨f, callers, memory⟩
        ⟨{ f with values := Function.update f.values (.Instruction I.id) result }, callers, memory'⟩
  | call {f : Activation GV} {callers : List (Caller GV)} {memory memory' : Memory}
      {I : Instruction GV} {call : CallBase GV} {d : Definition GV}
      {values : LocalValue → Addresses} {instance_no : Nat} : d ∈ L.definitions →
      L.Calls f I call (L.address d.F.symbol) → d.F.type = call.FTy →
      L.Passes f call d values → L.Spills f call d instance_no memory memory' →
      Step ⟨f, callers, memory⟩ ⟨⟨d, values, instance_no⟩, ⟨f, I, call⟩ :: callers, memory'⟩
  | leave {f : Activation GV} {c : Caller GV} {callers : List (Caller GV)} {memory : Memory}
      {I : Instruction GV} {result : Addresses} : I ∈ f.code.F.body →
      (∀ o ∈ result, c.call.FTy.ReturnType ≠ .void ∧ ∃ V ∈ I.op.returned, o ∈ L.eval f V) →
      Step ⟨f, c :: callers, memory⟩
        ⟨{ c.activation with
            values := Function.update c.activation.values (.Instruction c.I.id) result },
          callers, memory⟩
  /-- An exception leaves the function. -/
  | unwind {f : Activation GV} {c : Caller GV} {callers : List (Caller GV)} {memory : Memory} :
      Step ⟨f, c :: callers, memory⟩ ⟨c.activation, callers, memory⟩

/-- What a variable holds to begin with. -/
def Initialized (a o : Object) : Prop :=
  ∃ p ∈ L.globals, written p.2 = true ∧ ∃ c ∈ p.2.initializer, ∃ G ∈ c.denoted,
    a = .global (L.address (p.1.getAliaseeObject p.2.symbol)) ∧
      o = .global (L.address (p.1.getAliaseeObject G))

/-- `main` is entered. -/
structure Starts (s : Execution GV) : Prop where
  code : s.running.code ∈ L.definitions
  main : L.name s.running.code.F.symbol = "main"
  values : ∀ V, s.running.values V = ∅
  callers : s.callers = []
  memory : ∀ a k, ∀ o ∈ s.memory a k, L.Initialized a o

/-- An execution of the program may come to this. -/
def Reached (s : Execution GV) : Prop := ∃ s₀, L.Starts s₀ ∧ Relation.ReflTransGen L.Step s₀ s

end Linked
end
end Bracelet.Reachability
