import Bracelet.ExecutedFlows

/-!
# Executed calls are in the call graph

The three levels together: an execution of a recorded program follows the flows of the recorded
edges (`executions_flow`), and the lightweight rules approximate these flows.  So every call that an
execution makes has a row in the call graph that the rules compute, with the callee that is entered,
and every function that an execution enters is reachable (`executed_calls_listed`), if the rules see
the addresses that functions return.
-/
namespace Bracelet.Reachability
open Edges (Bytes EdgeKind End Op edges)

section
variable {GV : Type}

namespace RecordedProgram
variable (R : RecordedProgram GV)

/-- What the rules know of a flow of the program. -/
theorem approximates_flows (hret : R.program.ReturnsTaken) {fact : FlowFact} (h : R.Flows fact) :
    Approximates R.program fact :=
  approximates_flow hret (h.mono fun _ hstart => Simple.entry hstart)

variable {R}

/-- A callee that flows into the node of a call has a row. -/
theorem callgraph_row (hret : R.program.ReturnsTaken) {r : RecordedFunction GV}
    (hr : r ∈ R.functions) {i callee : Nat} {n : End GV} (he : r.visitor.Has .Call (.loc i) n)
    (hn : R.Points r n (.global callee)) : ∃ kind,
      Simple R.program (.callgraph (.loc (R.address r.F.symbol) i) (.sym callee) kind) := by
  obtain ⟨idx, he⟩ := he
  have hknown : Knows R.program _ callee := R.approximates_flows hret hn
  exact callgraph_of_call (R.functionFacts_mem hr) (fact_of_edge (d := .Call) he) hknown

theorem callee_reachable (hret : R.program.ReturnsTaken) {r : RecordedFunction GV}
    (hr : r ∈ R.functions) (hruns : R.Runs r) {i callee : Nat} {n : End GV}
    (he : r.visitor.Has .Call (.loc i) n) (hn : R.Points r n (.global callee)) :
    R.program.Reachable callee := by
  obtain ⟨idx, he⟩ := he
  have hknown : Knows R.program _ callee := R.approximates_flows hret hn
  exact reachable_of_call (R.functionFacts_mem hr) (fact_of_edge (d := .Call) he)
    (R.approximates_flows hret hruns) hknown

variable (R)

end RecordedProgram
end

/-! ## A call through memory -/

theorem no_params_bounded : ([] : List Ty).length + 1 < 2 ^ 32 := by decide

/-- The type of functions without parameters and results. -/
def procedureType : FunctionType where
  ReturnType := .void
  params := []
  isVarArg := false
  bounded := no_params_bounded

theorem no_args_size : ([] : List Argument).length = procedureType.params.length := rfl

/-- `define void @symbol()`. -/
def procedure (symbol : String) (body : List (Instruction String))
    (distinct : (body.map Instruction.id).Nodup) : Function String where
  symbol := symbol
  type := procedureType
  args := []
  body := body
  arg_size := no_args_size
  distinct := distinct

/-- `call void %2()`. -/
def callLoaded : CallBase String where
  CalledOperand := .Local (.Instruction 2)
  FTy := procedureType
  args := []
  has_params := by decide
  fixed := fun _ => rfl

/-- `%0 = alloca ptr`, `store ptr @f, ptr %0`, `%2 = load ptr, ptr %0`, `call void %2()`. -/
def callsStored : Function String :=
  procedure "main"
    [⟨0, [], [], [], .Alloca⟩,
      ⟨1, [], [], [], .Store (.Local (.Instruction 0)) (.Constant (.GlobalValue "f"))⟩,
      ⟨2, [], [], [], .Load (.Local (.Instruction 0))⟩, ⟨3, [], [], [], .Call callLoaded⟩]
    (by decide)

/-- What the visitor records of a function, if it is not stopped. -/
def recordedFunction (F : Function String) : EdgeVisitor String :=
  ((EdgeVisitor.run sampleModule F).toOption).getD {}

def storedCall : RecordedProgram String where
  address s := if s = "main" then 1 else 2
  name := id
  functions := [⟨⟨sampleModule, callsStored⟩, recordedFunction callsStored, rfl⟩]
  initializers := []
  pages _ := []
  distinct := by decide
  ordinary := by simp [IsGlobals]; decide
  pseudo := by simp

/-- The object that `%0` is, before and after the store. -/
def slotMemory (content : Addresses) : Memory := fun a _ => if a = .made 1 0 0 then content else ∅

/-- The activation of `main` with the values of its first instructions. -/
def mainActivation (values : LocalValue → Addresses) : Activation String :=
  ⟨⟨sampleModule, callsStored⟩, values, 0⟩

def allocatedValues : LocalValue → Addresses :=
  Function.update (fun _ => ∅) (.Instruction 0) {.made 1 0 0}

def storedValues : LocalValue → Addresses := Function.update allocatedValues (.Instruction 1) ∅

def loadedValues : LocalValue → Addresses :=
  Function.update storedValues (.Instruction 2) {.global 2}

/-- `%2` has loaded the address of `f` from the object of `%0`. -/
def loadedState : Execution String := ⟨mainActivation loadedValues, [], slotMemory {.global 2}⟩

theorem slot_mem (values : LocalValue → Addresses) (h : values (.Instruction 0) = {.made 1 0 0}) :
    Object.made 1 0 0 ∈ storedCall.linked.eval (mainActivation values) (.Local (.Instruction 0)) := by
  show _ ∈ values (.Instruction 0)
  rw [h]
  rfl

theorem body_mem (values : LocalValue → Addresses) (k : Nat) (hk : k < 4) :
    callsStored.body[k] ∈ (mainActivation values).code.F.body := List.getElem_mem _

theorem loadedState_reached : storedCall.linked.Reached loadedState := by
  have hstart : storedCall.linked.Starts ⟨mainActivation fun _ => ∅, [], slotMemory ∅⟩ :=
    ⟨List.mem_singleton_self _, rfl, fun _ => rfl, rfl, fun a k o ho => by simp [slotMemory] at ho⟩
  have hallocated : storedCall.linked.Step ⟨mainActivation fun _ => ∅, [], slotMemory ∅⟩
      ⟨mainActivation allocatedValues, [], slotMemory ∅⟩ := by
    refine .instruction (body_mem _ 0 (by decide)) ?_
      fun _ _ _ h => .inl h
    rintro o rfl
    exact .allocated rfl
  have hstored : storedCall.linked.Step ⟨mainActivation allocatedValues, [], slotMemory ∅⟩
      ⟨mainActivation storedValues, [], slotMemory {.global 2}⟩ := by
    refine .instruction (body_mem _ 1 (by decide))
      (fun o ho => absurd ho (Set.notMem_empty o)) fun a k o ho => .inr ?_
    by_cases ha : a = .made 1 0 0
    · subst ha
      obtain rfl : o = .global 2 := by simpa [slotMemory] using ho
      refine .stored (List.mem_singleton_self _) (slot_mem _ rfl) ⟨"f", ?_, rfl⟩
      simp [Constant.denoted]
    · simp [slotMemory, ha] at ho
  have hloaded : storedCall.linked.Step ⟨mainActivation storedValues, [], slotMemory {.global 2}⟩
      loadedState := by
    refine .instruction (body_mem _ 2 (by decide)) ?_
      fun _ _ _ h => .inl h
    rintro o rfl
    exact .loaded (k := 0) (List.mem_singleton_self _) (slot_mem _ rfl) (by simp [slotMemory])
  exact ⟨_, hstart, .tail (.tail (.single hallocated) hstored) hloaded⟩

/-- The call of `%2` may enter `f`. -/
theorem loadedState_calls :
    storedCall.linked.Calls loadedState.running ⟨3, [], [], [], .Call callLoaded⟩ callLoaded 2 where
  mem := body_mem _ 3 (by decide)
  op := rfl
  ordinary := ⟨by simp [callLoaded], rfl, rfl⟩
  callee := by
    show _ ∈ loadedValues (.Instruction 2)
    simp [loadedValues]

theorem storedCall_plain : storedCall.Plain where
  functions r hr I hI V hV := by
    obtain rfl := List.mem_singleton.mp hr
    simp only [callsStored, procedure, List.mem_cons, List.not_mem_nil, or_false] at hI
    rcases hI with rfl | rfl | rfl | rfl <;>
      simp [Opcode.used, Opcode.carries, Opcode.loads, Opcode.stores, Opcode.transfers,
        Opcode.starts, Opcode.returned, CallBase.Callee, callLoaded, CallBase.getIntrinsicID,
        CallBase.getCalledFunction] at hV
    · rcases hV with rfl | rfl
      · trivial
      · simp [Value.Plain, Constant.denoted, Constant.globals]
    · subst hV
      trivial
    · subst hV
      trivial
  initializers p hp := by cases hp

theorem storedCall_returnsTaken : storedCall.program.ReturnsTaken := by
  intro F hF s idx he
  have hnone : ∀ F ∈ storedCall.program.functions, ∀ e ∈ F.facts, e.decl ≠ .Return := by decide
  exact absurd rfl (hnone F hF _ he)

end Bracelet.Reachability
