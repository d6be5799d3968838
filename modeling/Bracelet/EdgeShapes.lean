import Bracelet.VisitorLocals

/-!
# The shape of the recorded edges

Whatever the visitor records of a function, values are computed into locals, calls are named by
locals, and what is defined or returned is an argument or the result of the function itself
(`EdgeKind.HasShape`).  The rules for fact files rest on this.  Every step of the visitor keeps it,
so it holds of all edges of a function (`run_shaped`); the edges of the initializers are
assignments to locals and stores to variables (`emitInitializers_shaped`).
-/
namespace Bracelet.Edges

variable {GV : Type}

def End.isLocal : End GV → Bool
  | .sym _ => false
  | .loc _ => true

/-- The ends that an edge of the kind has, in a function. -/
def EdgeKind.HasShape (function : GV) : EdgeKind → End GV → End GV → Prop
  | .Store, _, _ => True
  | .Return, t, _ => t = .sym function
  | .ArgumentDefinition, t, f => t.isLocal = true ∧ f = .sym function
  | .DlsymPagePointer, t, f => t.isLocal = true ∧ f.isLocal = false
  | .Assign, t, _ | .Load, t, _ | .Call, t, _ | .ArgumentSupply, t, _ => t.isLocal = true

end Bracelet.Edges

namespace Bracelet.Reachability
open Edges (Bytes EdgeKind End Op edges bind_ok foldlM_keeps)

section
variable {GV : Type}

/-! ## Writers -/

/-- The edges that a writer has been told have the shape. -/
def Writer.Shaped (function : GV) (FW : Writer GV) : Prop :=
  ∀ kind, ∀ e ∈ edges FW.ops kind, kind.HasShape function e.1 e.2.1

/-- A node that is a local. -/
def Node.IsLocal (N : Node GV) : Prop := ∃ i, N = some (.loc i)

namespace Writer
variable {function : GV} {FW FW' : Writer GV}

theorem shaped_empty : ({} : Writer GV).Shaped function := fun _ _ h => nomatch h

theorem Shaped.symbol (h : FW.Shaped function) (GO : GV) : (FW.symbol GO).2.Shaped function := by
  intro kind e he
  refine h kind e ?_
  simpa [Writer.symbol, edges] using he

theorem Shaped.freshLocal (h : FW.Shaped function) (Name : Bytes) :
    (FW.freshLocal Name).2.Shaped function := by
  intro kind e he
  refine h kind e ?_
  simpa [Writer.freshLocal, edges] using he

/-- An edge of the shape is added. -/
theorem Shaped.addEdge (h : FW.Shaped function) {kind : EdgeKind} {T S : Node GV} {idx : UInt32}
    (hadd : FW.addEdge kind T S idx = .ok FW')
    (hshape : ∀ t ∈ T, ∀ f ∈ S, kind.HasShape function t f) : FW'.Shaped function := by
  cases T with
  | none => cases hadd
  | some t =>
    cases S with
    | none => cases hadd
    | some f =>
      obtain rfl := Except.ok.inj hadd
      intro k e he
      rw [Edges.edges_append, List.mem_append] at he
      rcases he with he | he
      · exact h k e he
      · by_cases hk : kind = k
        · subst hk
          obtain rfl : e = (t, f, idx) := by simpa [edges] using he
          exact hshape t rfl f rfl
        · simp [edges, hk] at he

end Writer

/-! ## Constants -/

variable {M : Module GV} {function : GV}

/-- The node that a builder has made is a local. -/
def MultiConstantNodeBuilder.Local (B : MultiConstantNodeBuilder GV) : Prop :=
  B.FreshNodeCreated = true → Node.IsLocal B.Out

theorem hasShape_of_local {kind : EdgeKind}
    (hkind : kind ∈ [EdgeKind.Assign, .Load, .Call, .ArgumentSupply]) {N N' : Node GV}
    (hN : Node.IsLocal N) : ∀ t ∈ N, ∀ f ∈ N', kind.HasShape function t f := by
  obtain ⟨i, rfl⟩ := hN
  rintro t ⟨⟩ f -
  simp only [List.mem_cons, List.not_mem_nil, or_false] at hkind
  rcases hkind with rfl | rfl | rfl | rfl <;> rfl

theorem MultiConstantNodeBuilder.add_shaped {B B' : MultiConstantNodeBuilder GV}
    {FW FW' : Writer GV} {N : Node GV} (h : FW.Shaped function) (hB : B.Local)
    (hadd : B.add FW N = .ok (B', FW')) : FW'.Shaped function ∧ B'.Local := by
  unfold add at hadd
  split at hadd
  · obtain ⟨rfl, rfl⟩ := Prod.mk.inj (Except.ok.inj hadd)
    exact ⟨h, hB⟩
  next hOut =>
    obtain ⟨rfl, rfl⟩ := Prod.mk.inj (Except.ok.inj hadd)
    refine ⟨h, fun hfresh => ?_⟩
    obtain ⟨i, hi⟩ := hB hfresh
    cases hOut.symm.trans hi
  · split at hadd
    next hfresh =>
      obtain ⟨FW₁, hedge, hadd⟩ := bind_ok hadd
      obtain ⟨rfl, rfl⟩ := Prod.mk.inj (Except.ok.inj hadd)
      exact ⟨h.addEdge hedge (hasShape_of_local (by simp) (hB hfresh)), hB⟩
    next =>
      obtain ⟨FW₁, hold, hadd⟩ := bind_ok hadd
      obtain ⟨FW₂, hnew, hadd⟩ := bind_ok hadd
      obtain ⟨rfl, rfl⟩ := Prod.mk.inj (Except.ok.inj hadd)
      have hlocal : Node.IsLocal (some (.loc FW.num_locals) : Node GV) := ⟨_, rfl⟩
      have h₁ := (h.freshLocal (Edges.ascii "<bracelet constant>")).addEdge hold
        (hasShape_of_local (by simp) hlocal)
      exact ⟨h₁.addEdge hnew (hasShape_of_local (by simp) hlocal), fun _ => hlocal⟩

mutual

theorem constantNode_shaped : ∀ (c : Constant GV) {FW FW' : Writer GV} {N : Node GV},
    FW.Shaped function → constantNode M c FW = .ok (N, FW') → FW'.Shaped function
  | .GlobalValue G, FW, FW', N, h, hc => by
    rw [constantNode] at hc
    obtain ⟨rfl, rfl⟩ := Prod.mk.inj (Except.ok.inj hc)
    exact h.symbol _
  | .ConstantExpr operands, FW, FW', N, h, hc | .ConstantAggregate operands, FW, FW', N, h, hc => by
    rw [constantNode] at hc
    obtain ⟨⟨B, FW₁⟩, hadd, hc⟩ := bind_ok hc
    obtain ⟨rfl, rfl⟩ := Prod.mk.inj (Except.ok.inj hc)
    exact addOperands_shaped operands h (fun hfresh => by cases hfresh) hadd
  | .ConstantData, FW, FW', N, h, hc | .BlockAddress _, FW, FW', N, h, hc
  | .NoCFIValue _, FW, FW', N, h, hc | .DSOLocalEquivalent _, FW, FW', N, h, hc
  | .ConstantPtrAuth _, FW, FW', N, h, hc => by
    rw [constantNode] at hc
    obtain ⟨rfl, rfl⟩ := Prod.mk.inj (Except.ok.inj hc)
    exact h

theorem addOperands_shaped : ∀ (operands : List (Constant GV))
    {B B' : MultiConstantNodeBuilder GV} {FW FW' : Writer GV}, FW.Shaped function → B.Local →
    addOperands M operands B FW = .ok (B', FW') → FW'.Shaped function
  | [], B, B', FW, FW', h, _, hadd => by
    rw [addOperands] at hadd
    obtain ⟨rfl, rfl⟩ := Prod.mk.inj (Except.ok.inj hadd)
    exact h
  | O :: operands, B, B', FW, FW', h, hB, hadd => by
    rw [addOperands] at hadd
    obtain ⟨⟨N, FW₁⟩, hN, hadd⟩ := bind_ok hadd
    obtain ⟨⟨B₁, FW₂⟩, hone, hadd⟩ := bind_ok hadd
    have h₁ := constantNode_shaped O h hN
    obtain ⟨h₂, hB₁⟩ := MultiConstantNodeBuilder.add_shaped h₁ hB hone
    exact addOperands_shaped operands h₂ hB₁ hadd

end

/-! ## Initializers -/

/-- The edges of initializers are assignments to locals and stores to variables. -/
structure Writer.Initializes (function : GV) (FW : Writer GV) : Prop where
  shaped : FW.Shaped function
  kinds : ∀ kind ∉ ({.Assign, .Store} : Set EdgeKind), edges FW.ops kind = []
  stores : ∀ e ∈ edges FW.ops .Store, e.1.isLocal = false

theorem Writer.Initializes.constantNode {FW FW' : Writer GV} (h : FW.Initializes function)
    {c : Constant GV} {N : Node GV} (hc : constantNode M c FW = .ok (N, FW')) :
    FW'.Initializes function := by
  obtain ⟨N', FW'', hc', hassigns, -⟩ := constantNode_spec (M := M) c FW
  obtain ⟨rfl, rfl⟩ := Prod.mk.inj (Except.ok.inj (hc'.symm.trans hc))
  refine ⟨constantNode_shaped c h.shaped hc, fun kind hkind => ?_, ?_⟩
  · simp only [Set.mem_insert_iff, Set.mem_singleton_iff, not_or] at hkind
    rw [hassigns.edges kind (by simpa using hkind.1), h.kinds kind (by simpa using hkind)]
  · rw [hassigns.edges .Store (by simp)]
    exact h.stores

theorem emitInitializer_initializes {FW FW' : Writer GV} {GVar : GlobalVariable GV}
    (h : FW.Initializes function) (hemit : emitInitializer M FW GVar = .ok FW') :
    FW'.Initializes function := by
  unfold emitInitializer at hemit
  split at hemit
  · exact Except.ok.inj hemit ▸ h
  split at hemit
  · exact Except.ok.inj hemit ▸ h
  obtain ⟨⟨V, FW₁⟩, hV, hemit⟩ := bind_ok hemit
  have h₁ := h.constantNode hV
  dsimp only at hemit
  split at hemit
  · exact Except.ok.inj hemit ▸ h₁
  obtain ⟨⟨N, FW₂⟩, hN, hemit⟩ := bind_ok hemit
  have h₂ := h₁.constantNode hN
  rw [constantNode] at hN
  obtain ⟨rfl, -⟩ := Prod.mk.inj (Except.ok.inj hN)
  cases V with
  | none => cases hemit
  | some n =>
    have hstored := h₂.shaped.addEdge hemit fun _ _ _ _ => trivial
    obtain rfl := Except.ok.inj hemit
    refine ⟨hstored, fun kind hkind => ?_, fun e he => ?_⟩
    · simp only [Set.mem_insert_iff, Set.mem_singleton_iff, not_or] at hkind
      rw [Edges.edges_append, h₂.kinds kind (by simpa using hkind)]
      simp [edges, Ne.symm hkind.2]
    · rw [Edges.edges_append, List.mem_append] at he
      rcases he with he | he
      · exact h₂.stores e he
      · obtain rfl : e = (.sym (M.getAliaseeObject GVar.symbol), n, 0) := by simpa [edges] using he
        rfl

/-- **The edges of the initializers.** -/
theorem emitInitializers_initializes {comdat : Option String} {FW : Writer GV}
    (h : emitInitializers M comdat = .ok FW) : FW.Initializes function :=
  foldlM_keeps (P := Writer.Initializes function)
    (fun _ hFW _ _ _ hstep => emitInitializer_initializes hFW hstep)
    ⟨Writer.shaped_empty, fun _ _ => rfl, fun _ he => nomatch he⟩ h

/-! ## Values -/

namespace EdgeVisitor

variable {F : Function GV} {n : Nat} {v v' : EdgeVisitor GV}

/-- The edges that have been recorded have the shape; so many locals are allocations. -/
structure Shaped (F : Function GV) (n : Nat) (v : EdgeVisitor GV) : Prop where
  edges : v.FW.Shaped F.symbol
  NumAllocas : v.NumAllocas = n

/-- The node of an instruction or an argument is a local. -/
theorem node_isLocal {V : LocalValue} {N : Node GV} (h : v.node M F (.Local V) = .ok (N, v')) :
    Node.IsLocal N := by
  obtain ⟨N', v'', h', -, i, rfl, -⟩ := v.node_spec (M := M) (F := F) (.Local V)
  obtain ⟨rfl, -⟩ := Prod.mk.inj (Except.ok.inj (h'.symm.trans h))
  exact ⟨i, rfl⟩

theorem Shaped.node (hs : v.Shaped F n) {V : Value GV} {N : Node GV}
    (h : v.node M F V = .ok (N, v')) : v'.Shaped F n := by
  cases V with
  | Constant c =>
    obtain ⟨⟨N, FW⟩, hN, h⟩ := bind_ok h
    obtain ⟨rfl, rfl⟩ := Prod.mk.inj (Except.ok.inj h)
    exact ⟨constantNode_shaped c hs.edges hN, hs.NumAllocas⟩
  | InlineAsm =>
    obtain ⟨rfl, rfl⟩ := Prod.mk.inj (Except.ok.inj h)
    exact hs
  | Local V =>
    unfold EdgeVisitor.node at h
    cases hget : Dict.get? v.Locals V with
    | some i =>
      simp only [hget] at h
      obtain ⟨rfl, rfl⟩ := Prod.mk.inj (Except.ok.inj h)
      exact hs
    | none =>
      simp only [hget] at h
      obtain ⟨rfl, rfl⟩ := Prod.mk.inj (Except.ok.inj h)
      exact ⟨hs.edges.freshLocal _, hs.NumAllocas⟩

theorem Shaped.addEdge (hs : v.Shaped F n) {kind : EdgeKind} {T S : Node GV} {idx : UInt32}
    (h : v.addEdge kind T S idx = .ok v')
    (hshape : ∀ t ∈ T, ∀ f ∈ S, kind.HasShape F.symbol t f) : v'.Shaped F n := by
  obtain ⟨FW, hadd, h⟩ := bind_ok h
  obtain rfl := Except.ok.inj h
  exact ⟨hs.edges.addEdge hadd hshape, hs.NumAllocas⟩

theorem Shaped.freshLocal (hs : v.Shaped F n) (Name : Bytes) : (v.freshLocal Name).2.Shaped F n :=
  ⟨hs.edges.freshLocal Name, hs.NumAllocas⟩

theorem Shaped.symbol (hs : v.Shaped F n) (GO : GV) :
    Shaped F n { v with FW := (v.FW.symbol GO).2 } :=
  ⟨hs.edges.symbol GO, hs.NumAllocas⟩

section
variable (hs : v.Shaped F n)
include hs

theorem addStoreEdge_shaped {To From : Value GV} (h : v.addStoreEdge M F To From = .ok v') :
    v'.Shaped F n := by
  obtain ⟨⟨FromN, v₁⟩, hFrom, h⟩ := bind_ok h
  obtain ⟨⟨ToN, v₂⟩, hTo, h⟩ := bind_ok h
  have hs₂ := (hs.node hFrom).node hTo
  dsimp only at h
  split at h
  · exact hs₂.addEdge h fun _ _ _ _ => trivial
  · exact Except.ok.inj h ▸ hs₂

/-- An edge to the local of a value, if there is a node that it comes from. -/
theorem toLocal_shaped {kind : EdgeKind}
    (hkind : kind ∈ [EdgeKind.Assign, .Load, .Call, .ArgumentSupply]) {X : LocalValue}
    {From : Value GV}
    (h : (do
      let (FromN, v) ← v.node M F From
      if FromN.isNone then return v else
      let (ToN, v) ← v.node M F (.Local X)
      v.addEdge kind ToN FromN 0) = .ok v') : v'.Shaped F n := by
  obtain ⟨⟨FromN, v₁⟩, hFrom, h⟩ := bind_ok h
  have hs₁ := hs.node hFrom
  dsimp only at h
  split at h
  · exact Except.ok.inj h ▸ hs₁
  · obtain ⟨⟨ToN, v₂⟩, hTo, h⟩ := bind_ok h
    exact (hs₁.node hTo).addEdge h (hasShape_of_local hkind (node_isLocal hTo))

theorem addLoadEdge_shaped {X : LocalValue} {P : Value GV}
    (h : v.addLoadEdge M F (.Local X) P = .ok v') : v'.Shaped F n :=
  toLocal_shaped hs (by simp) h

theorem addAssignEdge_shaped {X : LocalValue} {V : Value GV}
    (h : v.addAssignEdge M F (.Local X) V = .ok v') : v'.Shaped F n :=
  toLocal_shaped hs (by simp) h

theorem addAssignEdges_shaped {X : LocalValue} {Vs : List (Value GV)}
    (h : v.addAssignEdges M F (.Local X) Vs = .ok v') : v'.Shaped F n :=
  foldlM_keeps (P := Shaped F n) (fun _ hv _ _ _ hstep => addAssignEdge_shaped hv hstep) hs h

/-! ## Calls -/

theorem callNode_shaped {I : Instruction GV} {call : CallBase GV} {N : Node GV}
    (h : v.callNode M F I call = .ok (N, v')) : v'.Shaped F n ∧ Node.IsLocal N := by
  unfold callNode at h
  split at h
  · obtain ⟨rfl, rfl⟩ := Prod.mk.inj (Except.ok.inj h)
    exact ⟨⟨hs.edges.freshLocal _, hs.NumAllocas⟩, _, rfl⟩
  · exact ⟨hs.node h, node_isLocal h⟩

theorem supplyArguments_shaped {call : CallBase GV} {INode : Node GV} {args : List (Value GV)}
    {Idx : Nat} (hI : Node.IsLocal INode)
    (h : supplyArguments M F call INode Idx args v = .ok v') : v'.Shaped F n := by
  induction args generalizing Idx v with
  | nil => exact Except.ok.inj h ▸ hs
  | cons A args ih =>
    unfold supplyArguments at h
    split at h
    · cases h
    · obtain ⟨⟨ArgNode, v₁⟩, hA, h⟩ := bind_ok h
      have hs₁ := hs.node hA
      dsimp only at h
      split at h
      · exact ih hs₁ h
      · obtain ⟨v₂, hedge, h⟩ := bind_ok h
        exact ih (hs₁.addEdge hedge (hasShape_of_local (by simp) hI)) h

theorem transfer_shaped {Name : String} {Src Dst : Value GV}
    (h : v.transfer M F Name Src Dst = .ok v') : v'.Shaped F n := by
  have hs₁ := hs.freshLocal (Edges.ascii Name)
  obtain ⟨⟨SrcN, v₂⟩, hSrc, h⟩ := bind_ok h
  obtain ⟨v₃, hload, h⟩ := bind_ok h
  obtain ⟨⟨DstN, v₄⟩, hDst, h⟩ := bind_ok h
  have hs₃ := (hs₁.node hSrc).addEdge hload (hasShape_of_local (by simp) ⟨_, rfl⟩)
  exact (hs₃.node hDst).addEdge h fun _ _ _ _ => trivial

theorem startVarArgs_shaped {List : Value GV} (h : v.startVarArgs M F List = .ok v') :
    v'.Shaped F n := by
  unfold startVarArgs at h
  split at h
  · cases h
  · have hs₁ := hs.freshLocal (Edges.ascii "vastart() tmp")
    obtain ⟨v₂, hload, h⟩ := bind_ok h
    obtain ⟨⟨ListN, v₃⟩, hN, h⟩ := bind_ok h
    have hs₂ := hs₁.addEdge hload (hasShape_of_local (by simp) ⟨_, rfl⟩)
    exact (hs₂.node hN).addEdge h fun _ _ _ _ => trivial

theorem visitOrdinaryCall_shaped {I : Instruction GV} {call : CallBase GV}
    (h : v.visitOrdinaryCall M F I call = .ok v') : v'.Shaped F n := by
  obtain ⟨⟨INode, v₁⟩, hI, h⟩ := bind_ok h
  obtain ⟨hs₁, hI⟩ := callNode_shaped hs hI
  dsimp only at h
  split at h
  · refine (hs₁.symbol _).addEdge h ?_
    obtain ⟨i, rfl⟩ := hI
    rintro t ⟨⟩ f ⟨⟩
    exact ⟨rfl, rfl⟩
  · obtain ⟨v₂, hsupply, h⟩ := bind_ok h
    obtain ⟨⟨CalleeN, v₃⟩, hC, h⟩ := bind_ok h
    have hs₂ := supplyArguments_shaped hs₁ hI hsupply
    exact (hs₂.node hC).addEdge h (hasShape_of_local (by simp) hI)

theorem visitCallBase_shaped {I : Instruction GV} {call : CallBase GV}
    (h : v.visitCallBase M F I call = .ok v') : v'.Shaped F n := by
  rcases v.visitCallBase_cases (M := M) (F := F) I call with
    ⟨-, hvisit⟩ | ⟨-, -, hvisit⟩ | ⟨-, list, rest, -, hvisit⟩ |
    ⟨-, Name, Dst, Src, rest, -, hvisit⟩ | ⟨-, hvisit⟩ <;> rw [hvisit] at h
  · exact Except.ok.inj h ▸ hs
  · exact visitOrdinaryCall_shaped hs h
  · exact startVarArgs_shaped hs h
  · exact transfer_shaped hs h
  · exact Except.ok.inj h ▸ hs

/-! ## Instructions -/

theorem visitReturnInst_shaped {op : Option (Value GV)} (h : v.visitReturnInst M F op = .ok v') :
    v'.Shaped F n := by
  unfold visitReturnInst at h
  split at h
  · exact Except.ok.inj h ▸ hs
  · obtain ⟨⟨N, v₁⟩, hN, h⟩ := bind_ok h
    have hs₁ := hs.node hN
    dsimp only at h
    split at h
    · exact Except.ok.inj h ▸ hs₁
    · refine (hs₁.symbol _).addEdge h ?_
      rintro t ⟨⟩ f -
      rfl

/-- **A visit records edges of the shape.** -/
theorem visit_shaped {I : Instruction GV} (h : v.visit M F I = .ok v') : v'.Shaped F n := by
  unfold visit at h
  cases hop : I.op <;> simp only [hop] at h
  case Store => exact addStoreEdge_shaped hs h
  case Load => exact addLoadEdge_shaped hs h
  case AtomicCmpXchg | AtomicRMW =>
    obtain ⟨v₁, hload, h⟩ := bind_ok h
    exact addStoreEdge_shaped (addLoadEdge_shaped hs hload) h
  case Select | InsertElement | ShuffleVector | InsertValue | BinaryOperator | PHI =>
    exact addAssignEdges_shaped hs h
  case VAArg => cases h
  case Return => exact visitReturnInst_shaped hs h
  case Call => exact visitCallBase_shaped hs h
  case Alloca | Other => exact Except.ok.inj h ▸ hs
  all_goals exact addAssignEdge_shaped hs h

end

/-! ## Functions -/

theorem preprocessVisitAllocaInst_shaped (hs : v.Shaped F n) {I : Instruction GV}
    (h : v.preprocessVisitAllocaInst I = .ok v') : v'.Shaped F n := by
  unfold preprocessVisitAllocaInst at h
  split at h
  · dsimp only at h
    split at h
    · cases h
    · obtain rfl := Except.ok.inj h
      exact ⟨hs.edges.freshLocal _, hs.NumAllocas⟩
  · exact Except.ok.inj h ▸ hs

theorem defineVarArgs_shaped (hs : v.Shaped F n) (h : v.defineVarArgs F = .ok v') :
    v'.Shaped F (n + 2) := by
  let v₁ := (v.freshLocal (Edges.ascii "TheVarArgsAlloca")).2
  let v₂ := (v₁.freshLocal (Edges.ascii "TheVarArgsArea")).2
  let v₃ := { v₂ with VarArgs := some v.FW.num_locals, NumAllocas := v₂.NumAllocas + 2 }
  have hs₃ : (v₃.freshLocal (Edges.ascii "TheVarArgs")).2.Shaped F (n + 2) :=
    ⟨((hs.edges.freshLocal _).freshLocal _).freshLocal _, congrArg (· + 2) hs.NumAllocas⟩
  obtain ⟨v₄, hdefinition, h⟩ := bind_ok h
  obtain ⟨v₅, harea, h⟩ := bind_ok h
  refine ((hs₃.addEdge hdefinition ?_).addEdge harea fun _ _ _ _ => trivial).addEdge h
    fun _ _ _ _ => trivial
  rintro t ⟨⟩ f ⟨⟩
  exact ⟨rfl, rfl⟩

theorem defineArgument_shaped (hs : v.Shaped F n) {no : Nat}
    (h : v.defineArgument M F no = .ok v') : v'.Shaped F n := by
  obtain ⟨⟨N, v₁⟩, hN, h⟩ := bind_ok h
  refine (hs.node hN).addEdge h ?_
  obtain ⟨i, rfl⟩ := node_isLocal hN
  rintro t ⟨⟩ f ⟨⟩
  exact ⟨rfl, rfl⟩

theorem defineArguments_shaped (hs : v.Shaped F n) {nos : List Nat}
    (h : nos.foldlM (fun v no => v.defineArgument M F no) v = .ok v') : v'.Shaped F n :=
  foldlM_keeps (P := Shaped F n) (fun _ hv _ _ _ hstep => defineArgument_shaped hv hstep) hs h

/-- After the pass that gives the `alloca`s their locals. -/
theorem preprocess_shaped (h : F.body.foldlM preprocessVisitAllocaInst {} = .ok v) :
    Shaped F v.Locals.length { v with NumAllocas := v.Locals.length } := by
  have hs : v.Shaped F 0 := foldlM_keeps (P := Shaped F 0)
    (fun _ hv _ _ _ hstep => preprocessVisitAllocaInst_shaped hv hstep)
    ⟨Writer.shaped_empty, rfl⟩ h
  exact ⟨hs.edges, rfl⟩

theorem new_shaped (h : new M F = .ok v) : v.Shaped F v.NumAllocas := by
  obtain ⟨v₁, hallocas, h⟩ := bind_ok h
  have hs₂ := preprocess_shaped hallocas
  have hedges : v.FW.Shaped F.symbol := by
    dsimp only at h
    split at h
    · obtain ⟨v₂, hvar, h⟩ := bind_ok h
      exact (defineArguments_shaped (defineVarArgs_shaped hs₂ hvar) h).edges
    · exact (defineArguments_shaped hs₂ h).edges
  exact ⟨hedges, rfl⟩

/-- The instructions that are visited add neither edges of another shape nor allocations. -/
theorem visits_shaped (hs : v.Shaped F n) {body : List (Instruction GV)}
    (h : body.foldlM (fun v I => v.visit M F I) v = .ok v') : v'.Shaped F n :=
  foldlM_keeps (P := Shaped F n) (fun _ hv _ _ _ hstep => visit_shaped hv hstep) hs h

/-- **All edges that are recorded of a function have the shape.** -/
theorem run_shaped (h : run M F = .ok v) : v.FW.Shaped F.symbol := by
  obtain ⟨v₁, hnew, h⟩ := bind_ok h
  exact (visits_shaped (new_shaped hnew) h).edges

end EdgeVisitor
end
end Bracelet.Reachability
