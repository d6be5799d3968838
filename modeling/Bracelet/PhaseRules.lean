import Bracelet.FunctionFacts

/-!
# The two phases of the pointer analysis

The Datalog programs `gen_rules.py` prints for `phase1` and `phase2`, with the rules
it prints in a loop over the declarations taking the declaration as a parameter.

Values are nodes under up to three stars; the value under `$***` stands for
everything deeper.  Phase 1 runs on the directory of each function and keeps, of
every relation, the tuples between `precious` values; `combine.MAPPING` renames what
it keeps to input files, on whose union phase 2 runs.
-/
namespace Bracelet

/-! ## Values -/

inductive Stars
  | none | one | two | three
  /-- `$***` -/
  | more
  deriving DecidableEq, Repr

/-- One more star; there is no more than `$***`. -/
def Stars.star : Stars → Stars
  | none => one
  | one => two
  | two => three
  | three => more
  | more => more

structure Value where
  stars : Stars
  node : Node
  deriving DecidableEq, Repr

namespace Value

def star (v : Value) : Value := ⟨v.stars.star, v.node⟩

/-- The value of the node itself. -/
def ofNode (n : Node) : Value := ⟨.none, n⟩

/-- The values `ValueName` files under a node: up to two stars, and `$***`. -/
def names (n : Node) : List Value := [⟨.none, n⟩, ⟨.one, n⟩, ⟨.two, n⟩, ⟨.more, n⟩]

end Value

/-! ## Input files -/

/-- The input relations of both phases. -/
structure PhaseInput where
  edge : Decl → Value → Value → Nat → Prop
  IsSymbol : Value → Prop
  IsAlloca : Value → Prop
  Starred : Value → Value → Prop
  ValueName : Value → Value → Prop
  EnclosingFunctionForLocal : Value → Value → Prop
  entry : Value → Prop

/-- The files of one function directory. -/
def FunctionFacts.files (F : FunctionFacts) : PhaseInput where
  edge d x y idx := ∃ e ∈ F.facts, e.decl = d ∧ x = .ofNode e.to_node ∧ y = .ofNode e.from_node ∧
    idx = e.idx
  IsSymbol v := ∃ n, F.IsSymbol n ∧ v = .ofNode n
  IsAlloca v := ∃ n, F.IsAlloca n ∧ v = .ofNode n
  Starred a b := b.node ∈ F.SeenNodes ∧ a = b.star
  ValueName core v := ∃ n ∈ F.SeenNodes, core = .ofNode n ∧ v ∈ Value.names n
  EnclosingFunctionForLocal f v :=
    ∃ g n, F.EnclosingFunctionForLocal g n ∧ f = .ofNode g ∧ v = .ofNode n
  entry v := v = .ofNode (.sym F.symbol) ∧ (F.function_name = "main" ∨ F.is_globals)

/-! ## The programs -/

inductive Phase
  | phase1 | phase2
  deriving DecidableEq, Repr

inductive PhaseTuple
  | isValue (v : Value)
  | Sub (d : Decl) (x y : Value) (idx : Nat)
  | PreciousSub (d : Decl) (x y : Value) (idx : Nat)
  | sub (x y : Value)
  | precious (v : Value)
  | PreciousStarred (a b : Value)
  | PreciousValueName (a b : Value)
  | PreciousIsAlloca (a : Value)
  | reachable (v : Value)

open PhaseTuple in
/-- **The least model of the rules of a phase.** -/
inductive Derives (phase : Phase) (I : PhaseInput) : PhaseTuple → Prop
  /-- `isValue(x) :- name(x, _).` -/
  | isValueTo {d x y idx} : I.edge d x y idx → Derives phase I (isValue x)
  /-- `isValue(x) :- name(_, x).` -/
  | isValueFrom {d x y idx} : I.edge d y x idx → Derives phase I (isValue x)
  /-- `Subname(to2, from) :- name(to, from), sub(to2, to).` -/
  | subTo {d x y idx x'} : d.to_ty = .Value → d ≠ .Store → I.edge d x y idx →
      Derives phase I (sub x' x) → Derives phase I (Sub d x' y idx)
  /-- `Subname(to, from2) :- name(to, from), sub(from, from2).` -/
  | subFrom {d x y idx y'} : d.from_ty = .Value → I.edge d x y idx →
      Derives phase I (sub y y') → Derives phase I (Sub d x y' idx)
  /-- `PreciousSubname(to, from) :- Subname(to, from), precious(to), precious(from).` -/
  | preciousSub {d x y idx} : Derives phase I (Sub d x y idx) → Derives phase I (precious x) →
      Derives phase I (precious y) → Derives phase I (PreciousSub d x y idx)
  /-- `precious(v) :- IsSymbol(v).` -/
  | preciousSymbol {v} : I.IsSymbol v → Derives phase I (precious v)
  /-- `precious(v) :- ArgumentDefinition(v, _, _).` -/
  | preciousDefinition {v f idx} : I.edge .ArgumentDefinition v f idx → Derives phase I (precious v)
  /-- `precious(v) :- Call(v, _).` -/
  | preciousCall {v f idx} : I.edge .Call v f idx → Derives phase I (precious v)
  /-- `precious(v) :- SubArgumentSupply(_, v, _), IsAlloca(v).` -/
  | preciousAlloca {cs v idx} : Derives phase I (Sub .ArgumentSupply cs v idx) → I.IsAlloca v →
      Derives phase I (precious v)
  /-- `precious(v) :- precious(x), ValueName(x, v).` -/
  | preciousName {x v} : Derives phase I (precious x) → I.ValueName x v →
      Derives phase I (precious v)
  /-- `sub(dstStar, srcStar) :- sub(dst, src), Starred(dstStar, dst), Starred(srcStar, src).` -/
  | star {dst src dstStar srcStar} : phase = .phase2 → Derives phase I (sub dst src) →
      I.Starred dstStar dst → I.Starred srcStar src → Derives phase I (sub dstStar srcStar)
  /-- `sub(x, z) :- sub(x, y), sub(y, z).` -/
  | trans {x y z} : phase = .phase2 → Derives phase I (sub x y) → Derives phase I (sub y z) →
      Derives phase I (sub x z)
  /-- `sub(dst, value) :- SubLoad(dst, ptr), SubStore(ptr, value).` -/
  | loadStore {dst ptr value i j} : phase = .phase1 → Derives phase I (Sub .Load dst ptr i) →
      Derives phase I (Sub .Store ptr value j) → Derives phase I (sub dst value)
  /-- `sub(dst, value) :- Starred(dst, ptr), SubStore(ptr, value).` -/
  | storeStar {dst ptr value idx} : I.Starred dst ptr → Derives phase I (Sub .Store ptr value idx) →
      Derives phase I (sub dst value)
  /-- `sub(dst, value) :- Starred(value, ptr), SubLoad(dst, ptr).` -/
  | loadStar {dst ptr value idx} : I.Starred value ptr → Derives phase I (Sub .Load dst ptr idx) →
      Derives phase I (sub dst value)
  /-- `SubStore(to2, from) :- Store(to, from), sub(to, to2).` -/
  | subStore {x y idx x'} : I.edge .Store x y idx → Derives phase I (sub x x') →
      Derives phase I (Sub .Store x' y idx)
  /-- `sub(x, x) :- isValue(x).` -/
  | refl {x} : Derives phase I (isValue x) → Derives phase I (sub x x)
  /-- `sub(x, y) :- SubAssign(x, y).` -/
  | assign {x y idx} : Derives phase I (Sub .Assign x y idx) → Derives phase I (sub x y)
  /-- `sub(call, returnValue) :- SubCall(call, f), SubReturn(f, returnValue).` -/
  | returned {call f returnValue i j} : Derives phase I (Sub .Call call f i) →
      Derives phase I (Sub .Return f returnValue j) → Derives phase I (sub call returnValue)
  /-- `sub(calleeArg, callerArg) :- SubArgumentSupply(call, callerArg, i), SubCall(call, f),
  SubArgumentDefinition(calleeArg, f, i).` -/
  | argument {call callerArg calleeArg f idx n} :
      Derives phase I (Sub .ArgumentSupply call callerArg idx) → Derives phase I (Sub .Call call f n) →
      Derives phase I (Sub .ArgumentDefinition calleeArg f idx) →
      Derives phase I (sub calleeArg callerArg)
  /-- `PreciousStarred(a, b) :- Starred(a, b), precious(a).` -/
  | preciousStarred {a b} : I.Starred a b → Derives phase I (precious a) →
      Derives phase I (PreciousStarred a b)
  /-- `PreciousValueName(a, b) :- ValueName(a, b), precious(a).` -/
  | preciousValueName {a b} : I.ValueName a b → Derives phase I (precious a) →
      Derives phase I (PreciousValueName a b)
  /-- `PreciousIsAlloca(a) :- IsAlloca(a), precious(a).` -/
  | preciousIsAlloca {a} : I.IsAlloca a → Derives phase I (precious a) →
      Derives phase I (PreciousIsAlloca a)
  | entry {v} : phase = .phase2 → I.entry v → Derives phase I (reachable v)
  /-- `reachable(x) :- IsSymbol(x), reachable(f), EnclosingFunctionForLocal(f, cs),
  PreciousSubCall(cs, x).` -/
  | called {x f cs idx} : phase = .phase2 → I.IsSymbol x → Derives phase I (reachable f) →
      I.EnclosingFunctionForLocal f cs → Derives phase I (PreciousSub .Call cs x idx) →
      Derives phase I (reachable x)

/-! ## Runs -/

namespace Program
variable (P : Program)

/-- The files of all functions, concatenated. -/
def union : PhaseInput where
  edge d x y idx := ∃ F ∈ P.functions, F.files.edge d x y idx
  IsSymbol v := ∃ F ∈ P.functions, F.files.IsSymbol v
  IsAlloca v := ∃ F ∈ P.functions, F.files.IsAlloca v
  Starred a b := ∃ F ∈ P.functions, F.files.Starred a b
  ValueName core v := ∃ F ∈ P.functions, F.files.ValueName core v
  EnclosingFunctionForLocal f v := ∃ F ∈ P.functions, F.files.EnclosingFunctionForLocal f v
  entry v := ∃ F ∈ P.functions, F.files.entry v

/-- `combine.MAPPING`: the files phase 1 wrote for the functions, under the names of
the files phase 2 reads. -/
def summaries : PhaseInput where
  edge d x y idx := ∃ F ∈ P.functions, Derives .phase1 F.files (.PreciousSub d x y idx)
  IsSymbol := P.union.IsSymbol
  IsAlloca v := ∃ F ∈ P.functions, Derives .phase1 F.files (.PreciousIsAlloca v)
  Starred a b := ∃ F ∈ P.functions, Derives .phase1 F.files (.PreciousStarred a b)
  ValueName core v := ∃ F ∈ P.functions, Derives .phase1 F.files (.PreciousValueName core v)
  EnclosingFunctionForLocal := P.union.EnclosingFunctionForLocal
  entry := P.union.entry

/-- **Summarising preserves the call edges**: what phase 2 derives of the callees
that are symbols from all facts, it derives from the summaries of the functions. -/
def Summarised : Prop := ∀ callsite callee idx, P.union.IsSymbol callee →
  Derives .phase2 P.union (.PreciousSub .Call callsite callee idx) →
  Derives .phase2 P.summaries (.PreciousSub .Call callsite callee idx)

end Program
end Bracelet
