import Bracelet.Executions
import Bracelet.Flow

/-!
# The facts of a recorded program

The functions of a linked program, with what the visitor has recorded of each, and its initializers.
Their edges are the facts that the rules work on (`RecordedProgram.program`): a symbol is known by
its address, a local by the function that it belongs to, and the page that a call of `dlsym` has an
edge to is replaced by the addresses on it.  The facts have the shape that the rules ask for,
because the recorded edges have it.
-/
namespace Bracelet
open Edges (EdgeKind)

/-- The edges that are the facts of a declaration. -/
def Decl.kind : Decl → EdgeKind
  | Assign => .Assign
  | Load => .Load
  | Store => .Store
  | Call => .Call
  | Return => .Return
  | ArgumentDefinition => .ArgumentDefinition
  | ArgumentSupply => .ArgumentSupply

def Decl.all : List Decl :=
  [.Assign, .Load, .Store, .Call, .Return, .ArgumentDefinition, .ArgumentSupply]

theorem Decl.mem_all (d : Decl) : d ∈ Decl.all := by cases d <;> decide

end Bracelet

namespace Bracelet.Reachability
open Edges (Bytes EdgeKind End Op edges)

section
variable {GV : Type}

/-! ## The facts of a function -/

section
variable (address : GV → Nat) (function : Nat)

/-- A node in the fact files of the function at an address. -/
def nodeAt : End GV → Bracelet.Node
  | .sym gv => .sym (address gv)
  | .loc i => .loc function i

@[simp] theorem isLocal_nodeAt (n : End GV) : (nodeAt address function n).isLocal = n.isLocal := by
  cases n <;> rfl

theorem symbol_of_isLocal {n : End GV} (h : (nodeAt address function n).isLocal = true) :
    (nodeAt address function n).symbol = function := by
  cases n with
  | sym gv => cases h
  | loc i => rfl

/-- The assignments that are printed for the page of a `dlsym` call. -/
def pageFacts (pages : Nat → List Nat) (e : End GV × End GV × UInt32) : List Fact :=
  match e.2.1 with
  | .sym page =>
    (pages (address page)).map fun a => ⟨.Assign, nodeAt address function e.1, .sym a, 0⟩
  | .loc _ => []

/-- The facts of a list of calls on the writer. -/
def factsOf (pages : Nat → List Nat) (ops : List (Op GV)) : List Fact :=
  (Decl.all.flatMap fun d => (edges ops d.kind).map fun e =>
      ⟨d, nodeAt address function e.1, nodeAt address function e.2.1, e.2.2.toNat⟩) ++
    (edges ops .DlsymPagePointer).flatMap (pageFacts address function pages)

variable {address function} {pages : Nat → List Nat} {ops : List (Op GV)}

theorem mem_factsOf {d : Decl} {t f : End GV} {idx : UInt32} (h : (t, f, idx) ∈ edges ops d.kind) :
    ⟨d, nodeAt address function t, nodeAt address function f, idx.toNat⟩ ∈
      factsOf address function pages ops :=
  List.mem_append_left _ (List.mem_flatMap.mpr ⟨d, d.mem_all, List.mem_map.mpr ⟨_, h, rfl⟩⟩)

theorem mem_factsOf_page {t : End GV} {page : GV} {idx : UInt32} {a : Nat}
    (h : (t, .sym page, idx) ∈ edges ops .DlsymPagePointer) (ha : a ∈ pages (address page)) :
    ⟨.Assign, nodeAt address function t, .sym a, 0⟩ ∈ factsOf address function pages ops :=
  List.mem_append_right _ (List.mem_flatMap.mpr ⟨_, h, List.mem_map.mpr ⟨a, ha, rfl⟩⟩)

/-- A fact is an edge, or an assignment for a page. -/
theorem factsOf_cases {e : Fact} (he : e ∈ factsOf address function pages ops) :
    (∃ t f idx, (t, f, idx) ∈ edges ops e.decl.kind ∧ e.to_node = nodeAt address function t ∧
      e.from_node = nodeAt address function f) ∨
    (e.decl = .Assign ∧ e.from_node.isLocal = false ∧ ∃ t f idx,
      (t, f, idx) ∈ edges ops .DlsymPagePointer ∧ e.to_node = nodeAt address function t) := by
  rcases List.mem_append.mp he with he | he
  · obtain ⟨d, -, he⟩ := List.mem_flatMap.mp he
    obtain ⟨⟨t, f, idx⟩, hedge, rfl⟩ := List.mem_map.mp he
    exact .inl ⟨t, f, idx, hedge, rfl, rfl⟩
  · obtain ⟨⟨t, f, idx⟩, hedge, he⟩ := List.mem_flatMap.mp he
    cases f with
    | loc i => cases he
    | sym page =>
      obtain ⟨a, -, rfl⟩ := List.mem_map.mp he
      exact .inr ⟨rfl, rfl, t, .sym page, idx, hedge, rfl⟩

end

/-! ## Programs -/

/-- A function that the pass has recorded. -/
structure RecordedFunction (GV : Type) extends Definition GV where
  visitor : EdgeVisitor GV
  run : EdgeVisitor.run M F = .ok visitor

/-- The initializers of a comdat of a module, as they have been recorded. -/
structure RecordedInitializers (GV : Type) where
  M : Module GV
  comdat : Option String
  symbol : GV
  FW : Writer GV
  run : emitInitializers M comdat = .ok FW

/-- The name of a pseudo-function of initializers. -/
def IsGlobals (name : String) : Prop := "bracelet_reachability_globals".toList <:+: name.toList

/-- A linked program that the pass has recorded: each function has its address to itself, and the
initializers are told by their names. -/
structure RecordedProgram (GV : Type) where
  address : GV → Nat
  name : GV → String
  functions : List (RecordedFunction GV)
  initializers : List (RecordedInitializers GV)
  pages : Nat → List Nat
  distinct : (functions.map (fun r => address r.F.symbol) ++
    initializers.map fun i => address i.symbol).Nodup
  ordinary : ∀ r ∈ functions, ¬ IsGlobals (name r.F.symbol)
  pseudo : ∀ i ∈ initializers, IsGlobals (name i.symbol)

namespace RecordedProgram
variable (R : RecordedProgram GV)

/-- The program as it is loaded. -/
def linked : Linked GV where
  address := R.address
  name := R.name
  definitions := R.functions.map RecordedFunction.toDefinition
  globals := R.initializers.flatMap fun i =>
    (i.M.global_variables.filter fun GVar => GVar.comdat = i.comdat).map fun GVar => (i.M, GVar)
  pages := R.pages

def functionFacts (r : RecordedFunction GV) : FunctionFacts where
  symbol := R.address r.F.symbol
  function_name := R.name r.F.symbol
  num_allocas := r.visitor.NumAllocas
  facts := factsOf R.address (R.address r.F.symbol) R.pages r.visitor.FW.ops

def initializerFacts (i : RecordedInitializers GV) : FunctionFacts where
  symbol := R.address i.symbol
  function_name := R.name i.symbol
  num_allocas := 0
  facts := factsOf R.address (R.address i.symbol) R.pages i.FW.ops

variable {R}

/-- The facts of edges of the shape have the shape that the rules ask for. -/
theorem recorded_of_shaped {F : FunctionFacts} {function : GV} {ops : List (Op GV)}
    (hfacts : F.facts = factsOf R.address F.symbol R.pages ops)
    (hsymbol : F.symbol = R.address function)
    (hshaped : ∀ kind, ∀ e ∈ edges ops kind, kind.HasShape function e.1 e.2.1)
    (hglobals : F.is_globals → ∀ kind, ∀ e ∈ edges ops kind,
      kind = .Assign ∨ kind = .Store ∧ e.1.isLocal = false) : F.Recorded := by
  constructor
  case owned =>
    intro e he
    rcases factsOf_cases (hfacts ▸ he) with ⟨t, f, idx, -, ht, hf⟩ | ⟨-, hsym, t, f, idx, -, ht⟩
    · rw [ht, hf]
      exact ⟨symbol_of_isLocal _ _, symbol_of_isLocal _ _⟩
    · rw [ht]
      exact ⟨symbol_of_isLocal _ _, fun hl => by simp [hsym] at hl⟩
  case to_local =>
    intro e he hd
    rcases factsOf_cases (hfacts ▸ he) with ⟨t, f, idx, hedge, ht, -⟩ | ⟨-, -, t, f, idx, hedge, ht⟩
    · have hshape := hshaped _ _ hedge
      rw [ht, isLocal_nodeAt]
      cases hdecl : e.decl <;> rw [hdecl] at hshape hd
      case Store | Return => simp at hd
      case ArgumentDefinition => exact hshape.1
      all_goals exact hshape
    · rw [ht, isLocal_nodeAt]
      exact (hshaped _ _ hedge).1
  case definition =>
    intro e he hd
    rcases factsOf_cases (hfacts ▸ he) with ⟨t, f, idx, hedge, -, hf⟩ | ⟨hassign, -⟩
    · rw [hd] at hedge
      obtain ⟨-, rfl⟩ : t.isLocal = true ∧ f = .sym function := hshaped _ _ hedge
      rw [hf, hsymbol]
      rfl
    · rw [hd] at hassign
      cases hassign
  case returned =>
    intro e he hd
    rcases factsOf_cases (hfacts ▸ he) with ⟨t, f, idx, hedge, ht, -⟩ | ⟨hassign, -⟩
    · rw [hd] at hedge
      have hshape : t = .sym function := hshaped _ _ hedge
      rw [ht, hshape, hsymbol]
      rfl
    · rw [hd] at hassign
      cases hassign
  case globals =>
    intro hg e he
    rcases factsOf_cases (hfacts ▸ he) with ⟨t, f, idx, hedge, ht, -⟩ | ⟨hassign, -⟩
    · rcases hglobals hg _ _ hedge with hkind | ⟨hkind, hl⟩
      · left
        cases hdecl : e.decl <;> rw [hdecl] at hkind <;> first | rfl | cases hkind
      · right
        refine ⟨?_, by rw [ht, isLocal_nodeAt, hl]⟩
        cases hdecl : e.decl <;> rw [hdecl] at hkind <;> first | rfl | cases hkind
    · exact .inl hassign

theorem functionFacts_recorded {r : RecordedFunction GV} (hr : r ∈ R.functions) :
    (R.functionFacts r).Recorded :=
  recorded_of_shaped rfl rfl (EdgeVisitor.run_shaped r.run) fun hg => absurd hg (R.ordinary r hr)

theorem initializerFacts_recorded (i : RecordedInitializers GV) :
    (R.initializerFacts i).Recorded := by
  have hinit : i.FW.Initializes i.symbol := emitInitializers_initializes i.run
  refine recorded_of_shaped rfl rfl hinit.shaped fun _ kind e he => ?_
  by_cases hstore : kind = .Store
  · subst hstore
    exact .inr ⟨rfl, hinit.stores e he⟩
  · refine .inl (by_contra fun hassign => ?_)
    rw [hinit.kinds kind (by simp [hassign, hstore])] at he
    cases he

variable (R)

/-- **The facts of the program.** -/
def program : Program where
  functions := R.functions.map R.functionFacts ++ R.initializers.map R.initializerFacts
  distinct := by
    have h := R.distinct
    rw [List.map_append, List.map_map, List.map_map]
    exact h
  recorded F hF := by
    rcases List.mem_append.mp hF with hF | hF
    · obtain ⟨r, hr, rfl⟩ := List.mem_map.mp hF
      exact functionFacts_recorded hr
    · obtain ⟨i, -, rfl⟩ := List.mem_map.mp hF
      exact initializerFacts_recorded i

theorem functionFacts_mem {r : RecordedFunction GV} (hr : r ∈ R.functions) :
    R.functionFacts r ∈ R.program.functions :=
  List.mem_append_left _ (List.mem_map_of_mem hr)

theorem initializerFacts_mem {i : RecordedInitializers GV} (hi : i ∈ R.initializers) :
    R.initializerFacts i ∈ R.program.functions :=
  List.mem_append_right _ (List.mem_map_of_mem hi)

end RecordedProgram
end
end Bracelet.Reachability
