import Mathlib.Tactic

/-!
# The facts of a program

`bracelet-edges` writes one directory of fact files for each function: the edges
the compiler pass recorded for it, and what the rules have to know about the nodes
at their ends.  `run_it_simple.py` concatenates the directories; the initializers
of globals are recorded as the edges of pseudo-functions, whose files go to
relations of their own (`GlobalAssign`, `GlobalStore`, …).

A directory is named by the address of its function, so no two functions of a
program share a `symbol`.
-/
namespace Bracelet

/-- A node: the symbol at an address, or a local of the function at an address. -/
inductive Node
  | sym (addr : Nat)
  | loc (symbol : Nat) (local_idx : Nat)
  deriving DecidableEq, Repr

namespace Node

/-- The symbol component of the node. -/
def symbol : Node → Nat
  | .sym addr => addr
  | .loc symbol _ => symbol

def isLocal : Node → Bool
  | .sym _ => false
  | .loc _ _ => true

@[simp] theorem symbol_sym (a : Nat) : (sym a).symbol = a := rfl
@[simp] theorem symbol_loc (f i : Nat) : (loc f i).symbol = f := rfl
@[simp] theorem isLocal_sym (a : Nat) : (sym a).isLocal = false := rfl
@[simp] theorem isLocal_loc (f i : Nat) : (loc f i).isLocal = true := rfl

theorem eq_loc_of_isLocal {n : Node} (h : n.isLocal = true) : ∃ i, n = loc n.symbol i := by
  cases n with
  | sym a => cases h
  | loc f i => exact ⟨i, rfl⟩

theorem eq_sym_of_not_isLocal {n : Node} (h : n.isLocal = false) : n = sym n.symbol := by
  cases n with
  | sym a => rfl
  | loc f i => cases h

end Node

/-- The relations both rule generators declare for edges. -/
inductive Decl
  | Assign | Load | Store | Call | Return | ArgumentDefinition | ArgumentSupply
  deriving DecidableEq, Repr

/-- The types of the columns of a declaration. -/
inductive ColumnType
  | Value | FunctionDefinition | Callsite
  deriving DecidableEq, Repr

namespace Decl

def to_ty : Decl → ColumnType
  | Assign | Load | Store | ArgumentDefinition => .Value
  | Call | ArgumentSupply => .Callsite
  | Return => .FunctionDefinition

def from_ty : Decl → ColumnType
  | ArgumentDefinition => .FunctionDefinition
  | _ => .Value

end Decl

/-- A line of a fact file; `idx` is the third column of the variadic relations. -/
structure Fact where
  decl : Decl
  to_node : Node
  from_node : Node
  idx : Nat
  deriving DecidableEq, Repr

/-- The fact directory of one function. -/
structure FunctionFacts where
  symbol : Nat
  function_name : String
  num_allocas : Nat
  facts : List Fact

namespace FunctionFacts
variable (F : FunctionFacts)

/-- The pseudo-function of a module's initializers, told by its name. -/
def is_globals : Prop := "bracelet_reachability_globals".toList <:+: F.function_name.toList

instance : Decidable F.is_globals := inferInstanceAs (Decidable (_ <:+: _))

/-- The ends of the edges, in the order `emitNodeInfo` is called on them. -/
def endpoints : List Node := F.facts.flatMap fun e => [e.to_node, e.from_node]

/-- The nodes `emitNodeInfo` describes, each once: the ends, after their symbols. -/
def SeenNodes : List Node := (F.endpoints.flatMap fun n => [.sym n.symbol, n]).eraseDups

def IsSymbol (v : Node) : Prop := v ∈ F.SeenNodes ∧ v.isLocal = false

def IsAlloca (v : Node) : Prop := v ∈ F.SeenNodes ∧ ∃ i < F.num_allocas, v = .loc v.symbol i

def EnclosingFunctionForLocal (f v : Node) : Prop :=
  f = .sym F.symbol ∧ v ∈ F.SeenNodes ∧ v.isLocal = true

variable {F}

theorem mem_SeenNodes_of_fact {e : Fact} (he : e ∈ F.facts) {n : Node}
    (hn : n = e.to_node ∨ n = e.from_node) : n ∈ F.SeenNodes ∧ Node.sym n.symbol ∈ F.SeenNodes := by
  have hend : n ∈ F.endpoints := List.mem_flatMap.mpr ⟨e, he, by simpa using hn⟩
  exact ⟨List.mem_eraseDups.mpr (List.mem_flatMap.mpr ⟨n, hend, by simp⟩),
    List.mem_eraseDups.mpr (List.mem_flatMap.mpr ⟨n, hend, by simp⟩)⟩

theorem isSymbol_of_fact {e : Fact} (he : e ∈ F.facts) {s : Nat}
    (hn : e.to_node = .sym s ∨ e.from_node = .sym s) : F.IsSymbol (.sym s) :=
  ⟨(mem_SeenNodes_of_fact he (hn.imp Eq.symm Eq.symm)).1, rfl⟩

theorem enclosing_of_fact {e : Fact} (he : e ∈ F.facts) {n : Node}
    (hn : n = e.to_node ∨ n = e.from_node) (hl : n.isLocal = true) :
    F.EnclosingFunctionForLocal (.sym F.symbol) n :=
  ⟨rfl, (mem_SeenNodes_of_fact he hn).1, hl⟩

end FunctionFacts

/-- The shape of the edges the pass records: locals belong to the function, values
are computed into locals, calls are named by locals, and parameters and returned
values are those of the function itself. -/
structure FunctionFacts.Recorded (F : FunctionFacts) : Prop where
  owned : ∀ e ∈ F.facts, (e.to_node.isLocal = true → e.to_node.symbol = F.symbol) ∧
    (e.from_node.isLocal = true → e.from_node.symbol = F.symbol)
  to_local : ∀ e ∈ F.facts, e.decl ∈ [.Assign, .Load, .Call, .ArgumentDefinition, .ArgumentSupply] →
    e.to_node.isLocal = true
  definition : ∀ e ∈ F.facts, e.decl = .ArgumentDefinition → e.from_node = .sym F.symbol
  returned : ∀ e ∈ F.facts, e.decl = .Return → e.to_node = .sym F.symbol
  /-- A pseudo-function only stores constants into the globals. -/
  globals : F.is_globals → ∀ e ∈ F.facts, e.decl = .Assign ∨
    (e.decl = .Store ∧ e.to_node.isLocal = false)

instance (F : FunctionFacts) : Decidable F.Recorded :=
  decidable_of_iff
    ((∀ e ∈ F.facts, (e.to_node.isLocal = true → e.to_node.symbol = F.symbol) ∧
        (e.from_node.isLocal = true → e.from_node.symbol = F.symbol)) ∧
      (∀ e ∈ F.facts,
        e.decl ∈ [.Assign, .Load, .Call, .ArgumentDefinition, .ArgumentSupply] →
          e.to_node.isLocal = true) ∧
      (∀ e ∈ F.facts, e.decl = .ArgumentDefinition → e.from_node = .sym F.symbol) ∧
      (∀ e ∈ F.facts, e.decl = .Return → e.to_node = .sym F.symbol) ∧
      (F.is_globals → ∀ e ∈ F.facts, e.decl = .Assign ∨
        (e.decl = .Store ∧ e.to_node.isLocal = false)))
    ⟨fun ⟨h1, h2, h3, h4, h5⟩ => ⟨h1, h2, h3, h4, h5⟩, fun h => ⟨h.1, h.2, h.3, h.4, h.5⟩⟩

/-- A program: one fact directory for each function. -/
structure Program where
  functions : List FunctionFacts
  distinct : (functions.map FunctionFacts.symbol).Nodup
  recorded : ∀ F ∈ functions, F.Recorded

namespace Program
variable {P : Program}

theorem eq_of_symbol {F G : FunctionFacts} (hF : F ∈ P.functions) (hG : G ∈ P.functions)
    (h : F.symbol = G.symbol) : F = G :=
  List.inj_on_of_nodup_map P.distinct hF hG h

end Program
end Bracelet
