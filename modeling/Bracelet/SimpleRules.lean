import Bracelet.FunctionFacts

/-!
# The lightweight rules

The Datalog program `gen_rules_simple.py` prints, one constructor a rule; the rules
it prints in a loop over the declarations are constructors with the declaration as a
parameter.  `Simple P` is the least model over the input files `run_it_simple.py`
assembles from the function directories of `P`.
-/
namespace Bracelet

/-! ## The input files -/

namespace Program
variable (P : Program)

/-- The concatenated edge files of the ordinary functions. -/
def input (d : Decl) (x y : Node) (idx : Nat) : Prop :=
  ∃ F ∈ P.functions, ¬ F.is_globals ∧ ⟨d, x, y, idx⟩ ∈ F.facts

/-- The `Global…` edge files: those of the pseudo-functions. -/
def global_input (d : Decl) (x y : Node) : Prop :=
  ∃ F ∈ P.functions, F.is_globals ∧ ∃ idx, ⟨d, x, y, idx⟩ ∈ F.facts

def IsSymbol (v : Node) : Prop := ∃ F ∈ P.functions, ¬ F.is_globals ∧ F.IsSymbol v

def EnclosingFunctionForLocal (f v : Node) : Prop :=
  ∃ F ∈ P.functions, ¬ F.is_globals ∧ F.EnclosingFunctionForLocal f v

def FunctionName (fn : Node) (name : String) : Prop :=
  ∃ F ∈ P.functions, fn = .sym F.symbol ∧ name = F.function_name

/-- `reachable.facts`: where an execution may start. -/
def entry (v : Node) : Prop :=
  ∃ F ∈ P.functions, v = .sym F.symbol ∧ (F.function_name = "main" ∨ F.is_globals)

variable {P}

theorem isLocal_of_enclosing {f v : Node} (h : P.EnclosingFunctionForLocal f v) :
    v.isLocal = true := h.choose_spec.2.2.2.2

/-- A local is enclosed by the ordinary function it belongs to. -/
theorem symbol_of_enclosing {f v : Node} (h : P.EnclosingFunctionForLocal f v) :
    f = .sym v.symbol ∧ ∃ F ∈ P.functions, ¬ F.is_globals ∧ F.symbol = v.symbol := by
  obtain ⟨F, hF, hg, rfl, hseen, hl⟩ := h
  have hown : v.symbol = F.symbol := by
    obtain ⟨n, hn, hv⟩ := List.mem_flatMap.mp (List.mem_eraseDups.mp hseen)
    obtain ⟨e, he, hne⟩ := List.mem_flatMap.mp hn
    have hvn : v = n := by
      simp only [List.mem_cons, List.not_mem_nil, or_false] at hv
      rcases hv with rfl | hv
      · cases hl
      · exact hv
    subst hvn
    have hrec := (P.recorded F hF).owned e he
    simp only [List.mem_cons, List.not_mem_nil, or_false] at hne
    rcases hne with rfl | rfl
    · exact hrec.1 hl
    · exact hrec.2 hl
  exact ⟨by rw [hown], F, hF, hg, hown.symm⟩

theorem not_isLocal_of_isSymbol {v : Node} (h : P.IsSymbol v) : v.isLocal = false :=
  h.choose_spec.2.2.2

end Program

/-! ## The program -/

inductive CallKind
  | Direct | Conservative
  deriving DecidableEq, Repr

inductive SimpleTuple
  | GlobalAssign (x y : Node)
  | GlobalStore (x y : Node)
  | edge (d : Decl) (x y : Node) (idx : Nat)
  | IsLocal (v : Node)
  | isSymbolAddrReferencedFrom (v f : Node)
  | isSymbolAddrReferenced (v : Node)
  | reachable (v : Node)
  | callgraph (caller callee : Node) (kind : CallKind)
  | ReachableName (fn : Node) (name : String)
  | FunctionCallGraph (caller : Node) (callerN : String) (callee : Node) (calleeN : String)
      (kind : CallKind)

/-- The declarations the loop prints no rule for. -/
def Decl.skipped (d : Decl) : Bool := d == .Call

def pthread_create : String := "pthread_create"

/-- `std::thread::_M_start_thread`. -/
def start_thread : String :=
  "_ZNSt6thread15_M_start_threadESt10unique_ptrINS_6_StateESt14default_deleteIS1_EEPFvvE"

open SimpleTuple in
/-- **The least model of the lightweight rules.** -/
inductive Simple (P : Program) : SimpleTuple → Prop
  | inputGlobalAssign {x y} : P.global_input .Assign x y → Simple P (GlobalAssign x y)
  | inputGlobalStore {x y} : P.global_input .Store x y → Simple P (GlobalStore x y)
  | input {d x y idx} : P.input d x y idx → Simple P (edge d x y idx)
  | entry {v} : P.entry v → Simple P (reachable v)
  /-- `IsLocal(x) :- EnclosingFunctionForLocal(_, x).` -/
  | isLocal {f x} : P.EnclosingFunctionForLocal f x → Simple P (IsLocal x)
  /-- `GlobalAssign(x, z) :- GlobalAssign(x, y), GlobalAssign(y, z).` -/
  | globalAssign {x y z} : Simple P (GlobalAssign x y) → Simple P (GlobalAssign y z) →
      Simple P (GlobalAssign x z)
  /-- `GlobalStore(x, z) :- GlobalStore(x, y), GlobalAssign(y, z).` -/
  | globalStore {x y z} : Simple P (GlobalStore x y) → Simple P (GlobalAssign y z) →
      Simple P (GlobalStore x z)
  /-- `Store(x, y) :- GlobalStore(x, y).` -/
  | store {x y} : Simple P (GlobalStore x y) → Simple P (edge .Store x y 0)
  /-- `(x, f) :- name(x, _), EnclosingFunctionForLocal(f, x), IsSymbol(x).` -/
  | toSelf {d x y idx f} : d.skipped = false → d.to_ty = .Value → Simple P (edge d x y idx) →
      P.EnclosingFunctionForLocal f x → P.IsSymbol x → Simple P (isSymbolAddrReferencedFrom x f)
  /-- `(x, f) :- name(x, y), EnclosingFunctionForLocal(f, y), IsSymbol(x).` -/
  | toOther {d x y idx f} : d.skipped = false → d.to_ty = .Value → Simple P (edge d x y idx) →
      P.EnclosingFunctionForLocal f y → P.IsSymbol x → Simple P (isSymbolAddrReferencedFrom x f)
  /-- `(x, f) :- name(_, x), EnclosingFunctionForLocal(f, x), IsSymbol(x).` -/
  | fromSelf {d x y idx f} : d.skipped = false → d.from_ty = .Value → d ≠ .Store →
      Simple P (edge d y x idx) → P.EnclosingFunctionForLocal f x → P.IsSymbol x →
      Simple P (isSymbolAddrReferencedFrom x f)
  /-- `(x, f) :- name(y, x), EnclosingFunctionForLocal(f, y), IsSymbol(x).` -/
  | fromOther {d x y idx f} : d.skipped = false → d.from_ty = .Value → d ≠ .Store →
      Simple P (edge d y x idx) → P.EnclosingFunctionForLocal f y → P.IsSymbol x →
      Simple P (isSymbolAddrReferencedFrom x f)
  /-- `(x, f) :- Store(dst, x), EnclosingFunctionForLocal(f, x), IsSymbol(x), IsLocal(dst).` -/
  | localSelf {dst x idx f} : Simple P (edge .Store dst x idx) →
      P.EnclosingFunctionForLocal f x → P.IsSymbol x → Simple P (IsLocal dst) →
      Simple P (isSymbolAddrReferencedFrom x f)
  /-- `(x, f) :- Store(dst, x), EnclosingFunctionForLocal(f, dst), IsSymbol(x), IsLocal(dst).` -/
  | localOther {dst x idx f} : Simple P (edge .Store dst x idx) →
      P.EnclosingFunctionForLocal f dst → P.IsSymbol x → Simple P (IsLocal dst) →
      Simple P (isSymbolAddrReferencedFrom x f)
  /-- `(x, f) :- Store(dst, x), EnclosingFunctionForLocal(f, x), IsSymbol(x), IsSymbol(dst),
  isSymbolAddrReferenced(dst).` -/
  | globalSelf {dst x idx f} : Simple P (edge .Store dst x idx) →
      P.EnclosingFunctionForLocal f x → P.IsSymbol x → P.IsSymbol dst →
      Simple P (isSymbolAddrReferenced dst) → Simple P (isSymbolAddrReferencedFrom x f)
  /-- `(x, f) :- Store(dst, x), EnclosingFunctionForLocal(f, dst), IsSymbol(x), IsSymbol(dst),
  isSymbolAddrReferenced(dst).` -/
  | globalOther {dst x idx f} : Simple P (edge .Store dst x idx) →
      P.EnclosingFunctionForLocal f dst → P.IsSymbol x → P.IsSymbol dst →
      Simple P (isSymbolAddrReferenced dst) → Simple P (isSymbolAddrReferencedFrom x f)
  /-- `isSymbolAddrReferenced(x) :- Store(dst, x), isSymbolAddrReferenced(dst).` -/
  | stored {dst x idx} : Simple P (edge .Store dst x idx) →
      Simple P (isSymbolAddrReferenced dst) → Simple P (isSymbolAddrReferenced x)
  /-- `reachable(callee) :- callgraph(cs, callee, _), EnclosingFunctionForLocal(caller, cs),
  reachable(caller).` -/
  | called {cs callee kind caller} : Simple P (callgraph cs callee kind) →
      P.EnclosingFunctionForLocal caller cs → Simple P (reachable caller) →
      Simple P (reachable callee)
  /-- `ReachableName(callee, name) :- reachable(callee), FunctionName(callee, name).` -/
  | reachableName {callee name} : Simple P (reachable callee) → P.FunctionName callee name →
      Simple P (ReachableName callee name)
  /-- `isSymbolAddrReferenced(v) :- isSymbolAddrReferencedFrom(v, f), reachable(f).` -/
  | referenced {v f} : Simple P (isSymbolAddrReferencedFrom v f) → Simple P (reachable f) →
      Simple P (isSymbolAddrReferenced v)
  /-- `callgraph(callsite, callee, "Direct") :- Call(callsite, callee), IsSymbol(callee).` -/
  | direct {callsite callee idx} : Simple P (edge .Call callsite callee idx) →
      P.IsSymbol callee → Simple P (callgraph callsite callee .Direct)
  /-- Indirect calls through `pthread_create` or `std::thread`. -/
  | thread {callsite callee idx name indirect} : Simple P (edge .Call callsite callee idx) →
      P.IsSymbol callee → P.FunctionName callee name →
      name = pthread_create ∨ name = start_thread → Simple P (isSymbolAddrReferenced indirect) →
      Simple P (callgraph callsite indirect .Conservative)
  /-- `callgraph(callsite, callee, "Conservative") :- Call(callsite, callee_ptr),
  IsLocal(callee_ptr), isSymbolAddrReferenced(callee).` -/
  | indirect {callsite callee_ptr idx callee} : Simple P (edge .Call callsite callee_ptr idx) →
      Simple P (IsLocal callee_ptr) → Simple P (isSymbolAddrReferenced callee) →
      Simple P (callgraph callsite callee .Conservative)
  | functionCallGraph {caller callerN callsite callee calleeN kind} :
      P.EnclosingFunctionForLocal caller callsite → Simple P (callgraph callsite callee kind) →
      P.FunctionName caller callerN → P.FunctionName callee calleeN →
      Simple P (FunctionCallGraph caller callerN callee calleeN kind)

/-- The functions the rules reach. -/
def Program.Reachable (P : Program) (f : Nat) : Prop := Simple P (.reachable (.sym f))

/-! ## What a fact makes referenced -/

namespace Simple
variable {P : Program} {F : FunctionFacts}

theorem edge_of_fact (hF : F ∈ P.functions) (hg : ¬ F.is_globals) {e : Fact} (he : e ∈ F.facts) :
    Simple P (.edge e.decl e.to_node e.from_node e.idx) :=
  .input ⟨F, hF, hg, he⟩

theorem isSymbol_of_fact (hF : F ∈ P.functions) (hg : ¬ F.is_globals) {e : Fact}
    (he : e ∈ F.facts) {s : Nat} (hn : e.to_node = .sym s ∨ e.from_node = .sym s) :
    P.IsSymbol (.sym s) :=
  ⟨F, hF, hg, FunctionFacts.isSymbol_of_fact he hn⟩

theorem enclosing_of_fact (hF : F ∈ P.functions) (hg : ¬ F.is_globals) {e : Fact}
    (he : e ∈ F.facts) {n : Node} (hn : n = e.to_node ∨ n = e.from_node)
    (hl : n.isLocal = true) : P.EnclosingFunctionForLocal (.sym F.symbol) n :=
  ⟨F, hF, hg, FunctionFacts.enclosing_of_fact he hn hl⟩

theorem isLocal_of_fact (hF : F ∈ P.functions) (hg : ¬ F.is_globals) {e : Fact}
    (he : e ∈ F.facts) {n : Node} (hn : n = e.to_node ∨ n = e.from_node)
    (hl : n.isLocal = true) : Simple P (.IsLocal n) :=
  .isLocal (enclosing_of_fact hF hg he hn hl)

end Simple

/-- The function takes the address of symbol `s`: an edge has `s` at one end, in a
column of values, and a local at the other, or is a store of `s` to a local. -/
def FunctionFacts.AddressTaken (F : FunctionFacts) (s : Nat) : Prop :=
  ∃ e ∈ F.facts, e.decl ≠ .Call ∧
    ((e.decl.from_ty = .Value ∧ e.from_node = .sym s ∧ e.to_node.isLocal = true) ∨
      (e.decl.to_ty = .Value ∧ e.to_node = .sym s ∧ e.from_node.isLocal = true))

/-- A symbol whose address the function takes is referenced from it. -/
theorem Simple.referencedFrom_of_addressTaken {P : Program} {F : FunctionFacts}
    (hF : F ∈ P.functions) (hg : ¬ F.is_globals) {s : Nat} (hs : F.AddressTaken s) :
    Simple P (.isSymbolAddrReferencedFrom (.sym s) (.sym F.symbol)) := by
  obtain ⟨e, he, hcall, ⟨hty, hfrom, hl⟩ | ⟨hty, hto, hl⟩⟩ := hs
  · have hedge := edge_of_fact hF hg he
    have hsym := isSymbol_of_fact hF hg he (Or.inr hfrom)
    have henc := enclosing_of_fact hF hg he (Or.inl rfl) hl
    rw [hfrom] at hedge
    by_cases hst : e.decl = .Store
    · rw [hst] at hedge
      exact .localOther hedge henc hsym (.isLocal henc)
    · exact .fromOther (by simpa [Decl.skipped] using hcall) hty hst hedge henc hsym
  · have hedge := edge_of_fact hF hg he
    have hsym := isSymbol_of_fact hF hg he (Or.inl hto)
    have henc := enclosing_of_fact hF hg he (Or.inr rfl) hl
    rw [hto] at hedge
    exact .toOther (by simpa [Decl.skipped] using hcall) hty hedge henc hsym

/-- **A reachable function that takes the address of a symbol references it.** -/
theorem Simple.referenced_of_addressTaken {P : Program} {F : FunctionFacts}
    (hF : F ∈ P.functions) (hg : ¬ F.is_globals) (hr : Simple P (.reachable (.sym F.symbol)))
    {s : Nat} (hs : F.AddressTaken s) : Simple P (.isSymbolAddrReferenced (.sym s)) :=
  .referenced (referencedFrom_of_addressTaken hF hg hs) hr

end Bracelet
