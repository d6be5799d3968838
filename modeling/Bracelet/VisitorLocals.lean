import Bracelet.VisitorStart

/-!
# The locals of a visited function

An edge that the visitor records ends in global objects and in locals, and its locals
have been made (`Writer.Made`): their indices are below the number of locals so far.
Every step of the visitor keeps this, and with it that different values have different
locals (`Leads`), so it holds of what is written of a function (`run_safe`) and of the
initializers (`emitInitializers_made`).
-/
namespace Bracelet.Edges

variable {GV : Type}

/-- An end that is one of the first locals, or a global value. -/
def End.Below (num_locals : Nat) : End GV → Prop
  | .sym _ => True
  | .loc local_idx => local_idx < num_locals

theorem End.Below.mono {m n : Nat} (hmn : m ≤ n) {e : End GV} (he : e.Below m) : e.Below n := by
  cases e with
  | sym gv => trivial
  | loc i => exact lt_of_lt_of_le he hmn

/-- The ends of the edge that a call adds. -/
def Op.ends : Op GV → List (End GV)
  | .symbol _ | .freshLocal _ => []
  | .addEdge _ to_end from_end _ => [to_end, from_end]

end Bracelet.Edges

namespace Bracelet.Reachability
open Edges (Bytes EdgeKind End Op names bind_ok foldlM_keeps)

section
variable {GV : Type}

/-! ## Writers -/

/-- The locals at the ends of edges have been made. -/
structure Writer.Made (FW : Writer GV) : Prop where
  count : (names FW.ops).length = FW.num_locals
  ends : ∀ op ∈ FW.ops, ∀ e ∈ op.ends, e.Below FW.num_locals

/-- A node that has been made. -/
def Writer.Has (FW : Writer GV) (N : Node GV) : Prop := ∀ e ∈ N, e.Below FW.num_locals

/-- From one state of a writer to another, which has made its locals if the first has. -/
structure Writer.Leads (FW FW' : Writer GV) : Prop where
  num_locals : FW.num_locals ≤ FW'.num_locals
  made : FW.Made → FW'.Made

namespace Writer

variable {FW FW' FW'' : Writer GV}

theorem made_empty : ({} : Writer GV).Made := ⟨rfl, fun _ h => nomatch h⟩

theorem Has.mono (h : FW.Leads FW') {N : Node GV} (hN : FW.Has N) : FW'.Has N :=
  fun e he => (hN e he).mono h.num_locals

theorem has_none : FW.Has none := fun _ h => nomatch h

theorem has_sym (gv : GV) : FW.Has (some (.sym gv)) := by
  rintro e ⟨⟩
  trivial

theorem has_loc {i : Nat} (h : i < FW.num_locals) : FW.Has (some (.loc i)) := by
  rintro e ⟨⟩
  exact h

theorem Leads.refl (FW : Writer GV) : FW.Leads FW := ⟨le_rfl, id⟩

theorem Leads.trans (h : FW.Leads FW') (h' : FW'.Leads FW'') : FW.Leads FW'' :=
  ⟨h.num_locals.trans h'.num_locals, fun hm => h'.made (h.made hm)⟩

theorem leads_symbol (FW : Writer GV) (GO : GV) : FW.Leads (FW.symbol GO).2 where
  num_locals := le_rfl
  made h := by
    refine ⟨by simpa [symbol, names] using h.count, fun op hop e he => ?_⟩
    rcases List.mem_append.mp hop with hop | hop
    · exact h.ends op hop e he
    · obtain rfl := List.mem_singleton.mp hop
      cases he

theorem leads_freshLocal (FW : Writer GV) (Name : Bytes) : FW.Leads (FW.freshLocal Name).2 where
  num_locals := Nat.le_succ _
  made h := by
    refine ⟨by simpa [freshLocal, names] using h.count, fun op hop e he => ?_⟩
    rcases List.mem_append.mp hop with hop | hop
    · exact (h.ends op hop e he).mono (Nat.le_succ _)
    · obtain rfl := List.mem_singleton.mp hop
      cases he

theorem leads_addEdge {kind : EdgeKind} {T F : Node GV} {idx : UInt32}
    (hadd : FW.addEdge kind T F idx = .ok FW') (hT : FW.Has T) (hF : FW.Has F) : FW.Leads FW' := by
  cases T with
  | none => cases hadd
  | some t =>
    cases F with
    | none => cases hadd
    | some f =>
      obtain rfl := Except.ok.inj hadd
      refine ⟨le_rfl, fun h => ⟨by simpa [names] using h.count, fun op hop e he => ?_⟩⟩
      rcases List.mem_append.mp hop with hop | hop
      · exact h.ends op hop e he
      · obtain rfl := List.mem_singleton.mp hop
        rcases List.mem_cons.mp he with rfl | he
        · exact hT _ rfl
        · obtain rfl := List.mem_singleton.mp he
          exact hF _ rfl

end Writer

/-! ## Constants -/

theorem MultiConstantNodeBuilder.add_leads {B B' : MultiConstantNodeBuilder GV}
    {FW FW' : Writer GV} {N : Node GV} (hadd : B.add FW N = .ok (B', FW')) (hB : FW.Has B.Out)
    (hN : FW.Has N) : FW.Leads FW' ∧ FW'.Has B'.Out := by
  unfold add at hadd
  split at hadd
  · obtain ⟨rfl, rfl⟩ := Prod.mk.inj (Except.ok.inj hadd)
    exact ⟨.refl _, hB⟩
  · obtain ⟨rfl, rfl⟩ := Prod.mk.inj (Except.ok.inj hadd)
    exact ⟨.refl _, hN⟩
  · split at hadd
    · obtain ⟨FW₁, hedge, hadd⟩ := bind_ok hadd
      obtain ⟨rfl, rfl⟩ := Prod.mk.inj (Except.ok.inj hadd)
      have h := Writer.leads_addEdge hedge hB hN
      exact ⟨h, hB.mono h⟩
    · obtain ⟨FW₂, hold, hadd⟩ := bind_ok hadd
      obtain ⟨FW₃, hnew, hadd⟩ := bind_ok hadd
      obtain ⟨rfl, rfl⟩ := Prod.mk.inj (Except.ok.inj hadd)
      have h₁ := FW.leads_freshLocal (Edges.ascii "<bracelet constant>")
      have hfresh : (FW.freshLocal (Edges.ascii "<bracelet constant>")).2.Has
          (some (.loc FW.num_locals)) := Writer.has_loc (Nat.lt_succ_self _)
      have h₂ := Writer.leads_addEdge hold hfresh (hB.mono h₁)
      have h₃ := Writer.leads_addEdge hnew (hfresh.mono h₂) ((hN.mono h₁).mono h₂)
      exact ⟨(h₁.trans h₂).trans h₃, (hfresh.mono h₂).mono h₃⟩

section
variable {M : Module GV}

mutual

/-- The node of a constant has been made. -/
theorem constantNode_leads : ∀ (c : Constant GV) {FW FW' : Writer GV} {N : Node GV},
    constantNode M c FW = .ok (N, FW') → FW.Leads FW' ∧ FW'.Has N
  | .GlobalValue G, FW, FW', N, h => by
    rw [constantNode] at h
    obtain ⟨rfl, rfl⟩ := Prod.mk.inj (Except.ok.inj h)
    exact ⟨FW.leads_symbol _, Writer.has_sym _⟩
  | .ConstantExpr operands, FW, FW', N, h => by
    rw [constantNode] at h
    obtain ⟨⟨B, FW₁⟩, hadd, h⟩ := bind_ok h
    obtain ⟨rfl, rfl⟩ := Prod.mk.inj (Except.ok.inj h)
    exact addOperands_leads operands hadd Writer.has_none
  | .ConstantAggregate operands, FW, FW', N, h => by
    rw [constantNode] at h
    obtain ⟨⟨B, FW₁⟩, hadd, h⟩ := bind_ok h
    obtain ⟨rfl, rfl⟩ := Prod.mk.inj (Except.ok.inj h)
    exact addOperands_leads operands hadd Writer.has_none
  | .ConstantData, FW, FW', N, h | .BlockAddress _, FW, FW', N, h | .NoCFIValue _, FW, FW', N, h
  | .DSOLocalEquivalent _, FW, FW', N, h | .ConstantPtrAuth _, FW, FW', N, h => by
    rw [constantNode] at h
    obtain ⟨rfl, rfl⟩ := Prod.mk.inj (Except.ok.inj h)
    exact ⟨.refl _, Writer.has_none⟩

theorem addOperands_leads : ∀ (operands : List (Constant GV)) {B B' : MultiConstantNodeBuilder GV}
    {FW FW' : Writer GV}, addOperands M operands B FW = .ok (B', FW') → FW.Has B.Out →
    FW.Leads FW' ∧ FW'.Has B'.Out
  | [], B, B', FW, FW', h, hB => by
    rw [addOperands] at h
    obtain ⟨rfl, rfl⟩ := Prod.mk.inj (Except.ok.inj h)
    exact ⟨.refl _, hB⟩
  | O :: operands, B, B', FW, FW', h, hB => by
    rw [addOperands] at h
    obtain ⟨⟨N, FW₁⟩, hN, h⟩ := bind_ok h
    obtain ⟨⟨B₁, FW₂⟩, hadd, h⟩ := bind_ok h
    obtain ⟨h₁, hN⟩ := constantNode_leads O hN
    obtain ⟨h₂, hB₁⟩ := MultiConstantNodeBuilder.add_leads hadd (hB.mono h₁) hN
    obtain ⟨h₃, hB'⟩ := addOperands_leads operands h hB₁
    exact ⟨(h₁.trans h₂).trans h₃, hB'⟩

end

theorem emitInitializer_leads {FW FW' : Writer GV} {GVar : GlobalVariable GV}
    (h : emitInitializer M FW GVar = .ok FW') : FW.Leads FW' := by
  unfold emitInitializer at h
  split at h
  · obtain rfl := Except.ok.inj h
    exact .refl _
  · split at h
    · obtain rfl := Except.ok.inj h
      exact .refl _
    · obtain ⟨⟨V, FW₁⟩, hV, h⟩ := bind_ok h
      obtain ⟨h₁, hV⟩ := constantNode_leads _ hV
      dsimp only at h
      split at h
      · obtain rfl := Except.ok.inj h
        exact h₁
      · obtain ⟨⟨N, FW₂⟩, hN, h⟩ := bind_ok h
        obtain ⟨h₂, hN⟩ := constantNode_leads _ hN
        exact (h₁.trans h₂).trans (Writer.leads_addEdge h hN (hV.mono h₂))

/-- What is written of the initializers. -/
theorem emitInitializers_made {comdat : Option String} {FW : Writer GV}
    (h : emitInitializers M comdat = .ok FW) : FW.Made :=
  foldlM_keeps (P := Writer.Made) (fun _ hm _ _ _ hstep => (emitInitializer_leads hstep).made hm)
    Writer.made_empty h

end

/-! ## Values -/

namespace EdgeVisitor

variable {M : Module GV} {F : Function GV} {v v' v'' : EdgeVisitor GV}

/-- The visitor has made the locals it knows. -/
structure Safe (v : EdgeVisitor GV) : Prop where
  made : v.FW.Made
  numbered : v.Numbered
  VarArgs : ∀ i ∈ v.VarArgs, i < v.FW.num_locals

/-- From one state of the visitor to another. -/
structure Leads (v v' : EdgeVisitor GV) : Prop where
  num_locals : v.FW.num_locals ≤ v'.FW.num_locals
  safe : v.Safe → v'.Safe

theorem Leads.refl (v : EdgeVisitor GV) : v.Leads v := ⟨le_rfl, id⟩

theorem Leads.trans (h : v.Leads v') (h' : v'.Leads v'') : v.Leads v'' :=
  ⟨h.num_locals.trans h'.num_locals, fun hs => h'.safe (h.safe hs)⟩

theorem Leads.has (h : v.Leads v') {N : Node GV} (hN : v.FW.Has N) : v'.FW.Has N :=
  fun e he => (hN e he).mono h.num_locals

/-- A state that differs in its writer only. -/
theorem leads_of_writer {FW : Writer GV} (h : v.FW.Leads FW) : v.Leads { v with FW } where
  num_locals := h.num_locals
  safe hs :=
    { made := h.made hs.made
      numbered := ⟨fun V i hi => (hs.numbered.lt V i hi).trans_le h.num_locals,
        hs.numbered.injective⟩
      VarArgs := fun i hi => (hs.VarArgs i hi).trans_le h.num_locals }

theorem leads_withLocal {V : LocalValue} (hget : Dict.get? v.Locals V = none) (Name : Bytes) :
    v.Leads (v.withLocal V Name) where
  num_locals := Nat.le_succ _
  safe hs :=
    { made := (v.FW.leads_freshLocal Name).made hs.made
      numbered := (extends_withLocal hget Name : v.Extends ∅ _).numbered hs.numbered
      VarArgs := fun i hi => (hs.VarArgs i hi).trans (Nat.lt_succ_self _) }

theorem freshLocal_leads (v : EdgeVisitor GV) (Name : Bytes) : v.Leads (v.freshLocal Name).2 :=
  leads_of_writer (v.FW.leads_freshLocal Name)

/-- An edge of nodes that have been made. -/
theorem addEdge_leads {kind : EdgeKind} {T S : Node GV} {idx : UInt32}
    (h : v.addEdge kind T S idx = .ok v') (hT : v.FW.Has T) (hS : v.FW.Has S) : v.Leads v' := by
  obtain ⟨FW, hadd, h⟩ := bind_ok h
  obtain rfl := Except.ok.inj h
  exact leads_of_writer (Writer.leads_addEdge hadd hT hS)

section
variable (hs : v.Safe)
include hs

/-- The node of a value has been made. -/
theorem node_leads {V : Value GV} {N : Node GV} (h : v.node M F V = .ok (N, v')) :
    v.Leads v' ∧ v'.FW.Has N := by
  cases V with
  | Constant c =>
    obtain ⟨⟨N, FW⟩, hN, h⟩ := bind_ok h
    obtain ⟨rfl, rfl⟩ := Prod.mk.inj (Except.ok.inj h)
    obtain ⟨hleads, hN⟩ := constantNode_leads c hN
    exact ⟨leads_of_writer hleads, hN⟩
  | InlineAsm =>
    obtain ⟨rfl, rfl⟩ := Prod.mk.inj (Except.ok.inj h)
    exact ⟨.refl _, Writer.has_none⟩
  | Local V =>
    unfold node at h
    cases hget : Dict.get? v.Locals V with
    | some i =>
      simp only [hget] at h
      obtain ⟨rfl, rfl⟩ := Prod.mk.inj (Except.ok.inj h)
      exact ⟨.refl _, Writer.has_loc (hs.numbered.lt V i hget)⟩
    | none =>
      simp only [hget] at h
      obtain ⟨rfl, rfl⟩ := Prod.mk.inj (Except.ok.inj h)
      exact ⟨leads_withLocal hget _, Writer.has_loc (Nat.lt_succ_self _)⟩

theorem addStoreEdge_leads {To From : Value GV} (h : v.addStoreEdge M F To From = .ok v') :
    v.Leads v' := by
  obtain ⟨⟨FromN, v₁⟩, hFrom, h⟩ := bind_ok h
  obtain ⟨h₁, hFrom⟩ := node_leads hs hFrom
  obtain ⟨⟨ToN, v₂⟩, hTo, h⟩ := bind_ok h
  obtain ⟨h₂, hTo⟩ := node_leads (h₁.safe hs) hTo
  dsimp only at h
  split at h
  · exact (h₁.trans h₂).trans (addEdge_leads h hTo (h₂.has hFrom))
  · obtain rfl := Except.ok.inj h
    exact h₁.trans h₂

/-- The edges whose far end is the node of a value. -/
theorem assignLike_leads {kind : EdgeKind} {To From : Value GV}
    (h : (do
      let (FromN, v) ← v.node M F From
      if FromN.isNone then return v else
      let (ToN, v) ← v.node M F To
      v.addEdge kind ToN FromN 0) = .ok v') : v.Leads v' := by
  obtain ⟨⟨FromN, v₁⟩, hFrom, h⟩ := bind_ok h
  obtain ⟨h₁, hFrom⟩ := node_leads hs hFrom
  dsimp only at h
  split at h
  · obtain rfl := Except.ok.inj h
    exact h₁
  · obtain ⟨⟨ToN, v₂⟩, hTo, h⟩ := bind_ok h
    obtain ⟨h₂, hTo⟩ := node_leads (h₁.safe hs) hTo
    exact (h₁.trans h₂).trans (addEdge_leads h hTo (h₂.has hFrom))

theorem addLoadEdge_leads {To From : Value GV} (h : v.addLoadEdge M F To From = .ok v') :
    v.Leads v' := assignLike_leads hs h

theorem addAssignEdge_leads {To From : Value GV} (h : v.addAssignEdge M F To From = .ok v') :
    v.Leads v' := assignLike_leads hs h

theorem addAssignEdges_leads {To : Value GV} {Vs : List (Value GV)}
    (h : v.addAssignEdges M F To Vs = .ok v') : v.Leads v' := by
  refine foldlM_keeps (P := v.Leads) (fun v₁ h₁ V _ v₂ hstep => ?_) (.refl v) h
  exact h₁.trans (addAssignEdge_leads (h₁.safe hs) hstep)

/-! ## Calls -/

theorem callNode_leads {I : Instruction GV} {call : CallBase GV} {N : Node GV}
    (h : v.callNode M F I call = .ok (N, v')) : v.Leads v' ∧ v'.FW.Has N := by
  unfold callNode at h
  split at h
  · obtain ⟨rfl, rfl⟩ := Prod.mk.inj (Except.ok.inj h)
    have hvoid : v.Leads { v with CallVoidNumber := v.CallVoidNumber + 1 } :=
      ⟨le_rfl, fun hs => ⟨hs.made, ⟨hs.numbered.lt, hs.numbered.injective⟩, hs.VarArgs⟩⟩
    exact ⟨hvoid.trans (freshLocal_leads _ _), Writer.has_loc (Nat.lt_succ_self _)⟩
  · exact node_leads hs h

theorem supplyArguments_leads {call : CallBase GV} {INode : Node GV} {args : List (Value GV)}
    {Idx : Nat} (hI : v.FW.Has INode) (h : supplyArguments M F call INode Idx args v = .ok v') :
    v.Leads v' := by
  induction args generalizing Idx v with
  | nil =>
    obtain rfl := Except.ok.inj h
    exact .refl v
  | cons A args ih =>
    unfold supplyArguments at h
    split at h
    · cases h
    · obtain ⟨⟨ArgNode, v₁⟩, hA, h⟩ := bind_ok h
      obtain ⟨h₁, hA⟩ := node_leads hs hA
      dsimp only at h
      split at h
      · exact h₁.trans (ih (h₁.safe hs) (h₁.has hI) h)
      · obtain ⟨v₂, hedge, h⟩ := bind_ok h
        have h₁₂ := h₁.trans (addEdge_leads hedge (h₁.has hI) hA)
        exact h₁₂.trans (ih (h₁₂.safe hs) (h₁₂.has hI) h)

theorem transfer_leads {Name : String} {Src Dst : Value GV}
    (h : v.transfer M F Name Src Dst = .ok v') : v.Leads v' := by
  have h₁ := v.freshLocal_leads (Edges.ascii Name)
  have hTmp : (v.freshLocal (Edges.ascii Name)).2.FW.Has (some (.loc v.FW.num_locals)) :=
    Writer.has_loc (Nat.lt_succ_self _)
  obtain ⟨⟨SrcN, v₂⟩, hSrc, h⟩ := bind_ok h
  obtain ⟨h₂, hSrc⟩ := node_leads (h₁.safe hs) hSrc
  obtain ⟨v₃, hload, h⟩ := bind_ok h
  have h₃ := addEdge_leads hload (h₂.has hTmp) hSrc
  obtain ⟨⟨DstN, v₄⟩, hDst, h⟩ := bind_ok h
  have h₁₃ := (h₁.trans h₂).trans h₃
  obtain ⟨h₄, hDst⟩ := node_leads (h₁₃.safe hs) hDst
  exact (h₁₃.trans h₄).trans (addEdge_leads h hDst (((h₂.trans h₃).trans h₄).has hTmp))

theorem startVarArgs_leads {List : Value GV} (h : v.startVarArgs M F List = .ok v') :
    v.Leads v' := by
  unfold startVarArgs at h
  split at h
  · cases h
  · rename_i VarArgs hVarArgs
    have h₁ := v.freshLocal_leads (Edges.ascii "vastart() tmp")
    have hTmp : (v.freshLocal (Edges.ascii "vastart() tmp")).2.FW.Has
        (some (.loc v.FW.num_locals)) := Writer.has_loc (Nat.lt_succ_self _)
    have hList : v.FW.Has (some (.loc VarArgs)) := Writer.has_loc (hs.VarArgs _ hVarArgs)
    obtain ⟨v₂, hload, h⟩ := bind_ok h
    have h₂ := addEdge_leads hload hTmp (h₁.has hList)
    obtain ⟨⟨ListN, v₃⟩, hN, h⟩ := bind_ok h
    obtain ⟨h₃, hN⟩ := node_leads ((h₁.trans h₂).safe hs) hN
    exact ((h₁.trans h₂).trans h₃).trans (addEdge_leads h hN ((h₂.trans h₃).has hTmp))

theorem visitOrdinaryCall_leads {I : Instruction GV} {call : CallBase GV}
    (h : v.visitOrdinaryCall M F I call = .ok v') : v.Leads v' := by
  obtain ⟨⟨INode, v₁⟩, hI, h⟩ := bind_ok h
  obtain ⟨h₁, hI⟩ := callNode_leads hs hI
  dsimp only at h
  split at h
  · have h₂ := leads_of_writer (v₁.FW.leads_symbol (M.PagePtr F.symbol I.id))
    exact (h₁.trans h₂).trans (addEdge_leads h (h₂.has hI) (Writer.has_sym _))
  · obtain ⟨v₂, hsupply, h⟩ := bind_ok h
    have h₂ := supplyArguments_leads (h₁.safe hs) hI hsupply
    obtain ⟨⟨CalleeN, v₃⟩, hC, h⟩ := bind_ok h
    obtain ⟨h₃, hC⟩ := node_leads ((h₁.trans h₂).safe hs) hC
    exact ((h₁.trans h₂).trans h₃).trans (addEdge_leads h ((h₂.trans h₃).has hI) hC)

theorem visitCallBase_leads {I : Instruction GV} {call : CallBase GV}
    (h : v.visitCallBase M F I call = .ok v') : v.Leads v' := by
  have hcall : ∀ {v'}, v.visitCall M F I call = .ok v' → v.Leads v' := by
    intro v' h
    unfold visitCall at h
    split at h
    · exact visitOrdinaryCall_leads hs h
    · exact startVarArgs_leads hs h
    · exact transfer_leads hs h
    · exact Except.ok.inj h ▸ .refl v
    · exact transfer_leads hs h
    · exact transfer_leads hs h
    · exact Except.ok.inj h ▸ .refl v
    · cases h
  unfold visitCallBase at h
  split at h
  · exact Except.ok.inj h ▸ .refl v
  · exact hcall h

/-! ## Instructions -/

theorem visitReturnInst_leads {op : Option (Value GV)} (h : v.visitReturnInst M F op = .ok v') :
    v.Leads v' := by
  unfold visitReturnInst at h
  split at h
  · exact Except.ok.inj h ▸ .refl v
  · obtain ⟨⟨N, v₁⟩, hN, h⟩ := bind_ok h
    obtain ⟨h₁, hN⟩ := node_leads hs hN
    dsimp only at h
    split at h
    · exact Except.ok.inj h ▸ h₁
    · have h₂ := leads_of_writer (v₁.FW.leads_symbol F.symbol)
      exact (h₁.trans h₂).trans (addEdge_leads h (Writer.has_sym _) (h₂.has hN))

/-- **A visit makes the locals it uses.** -/
theorem visit_leads {I : Instruction GV} (h : v.visit M F I = .ok v') : v.Leads v' := by
  unfold visit at h
  cases hop : I.op <;> simp only [hop] at h
  case Store => exact addStoreEdge_leads hs h
  case Load => exact addLoadEdge_leads hs h
  case AtomicCmpXchg | AtomicRMW =>
    obtain ⟨v₁, hload, h⟩ := bind_ok h
    have h₁ := addLoadEdge_leads hs hload
    exact h₁.trans (addStoreEdge_leads (h₁.safe hs) h)
  case Select | InsertElement | ShuffleVector | InsertValue | BinaryOperator | PHI =>
    exact addAssignEdges_leads hs h
  case VAArg => cases h
  case Return => exact visitReturnInst_leads hs h
  case Call => exact visitCallBase_leads hs h
  case Alloca | Other => exact Except.ok.inj h ▸ .refl v
  all_goals exact addAssignEdge_leads hs h

end

/-! ## Functions -/

theorem safe_empty : ({} : EdgeVisitor GV).Safe :=
  ⟨Writer.made_empty, ⟨fun _ _ h => (nomatch h), fun _ _ _ h => (nomatch h)⟩, fun _ h => nomatch h⟩

theorem defineVarArgs_safe (hs : v.Safe) (h : v.defineVarArgs F = .ok v') : v'.Safe := by
  let v₁ := (v.freshLocal (Edges.ascii "TheVarArgsAlloca")).2
  let v₂ := (v₁.freshLocal (Edges.ascii "TheVarArgsArea")).2
  let v₃ := { v₂ with VarArgs := some v.FW.num_locals, NumAllocas := v₂.NumAllocas + 2 }
  let v₄ := (v₃.freshLocal (Edges.ascii "TheVarArgs")).2
  have hs₂ : v₂.Safe := (v₁.freshLocal_leads _).safe ((v.freshLocal_leads _).safe hs)
  have hs₃ : v₃.Safe := by
    refine ⟨hs₂.made, ⟨hs₂.numbered.lt, hs₂.numbered.injective⟩, ?_⟩
    rintro i ⟨⟩
    exact (Nat.lt_succ_self _).trans (Nat.lt_succ_self _)
  have hs₄ : v₄.Safe := (v₃.freshLocal_leads _).safe hs₃
  have hhas : ∀ i < 3, v₄.FW.Has (some (.loc (v.FW.num_locals + i))) :=
    fun i hi => Writer.has_loc (Nat.add_lt_add_left hi _)
  obtain ⟨v₅, hdefinition, h⟩ := bind_ok h
  obtain ⟨v₆, harea, h⟩ := bind_ok h
  have h₅ : v₄.Leads v₅ := addEdge_leads hdefinition (hhas 2 (by omega)) (Writer.has_sym _)
  have h₆ := h₅.trans
    (addEdge_leads harea (h₅.has (hhas 1 (by omega))) (h₅.has (hhas 2 (by omega))))
  have h₇ := h₆.trans (addEdge_leads h (h₆.has (hhas 0 (by omega))) (h₆.has (hhas 1 (by omega))))
  exact h₇.safe hs₄

/-- What the constructor makes. -/
theorem new_safe (h : new M F = .ok v) : v.Safe := by
  obtain ⟨v₁, hallocas, h⟩ := bind_ok h
  have hempty : Allocated ([] : List (Instruction GV)) {} :=
    ⟨safe_empty.numbered, rfl, fun _ _ h => (nomatch h), rfl, fun _ => rfl⟩
  obtain ⟨v₁', hallocas', halloc⟩ := allocated_fold [] F.body hempty F.distinct
  obtain rfl := Except.ok.inj (hallocas.symm.trans hallocas')
  have hmade : v₁.FW.Made := by
    refine foldlM_keeps (P := fun v : EdgeVisitor GV => v.FW.Made) (fun v hm I _ v' hstep => ?_)
      Writer.made_empty hallocas
    unfold preprocessVisitAllocaInst at hstep
    split at hstep
    · dsimp only at hstep
      split at hstep
      · cases hstep
      · exact Except.ok.inj hstep ▸ (v.FW.leads_freshLocal _).made hm
    · exact Except.ok.inj hstep ▸ hm
  have hs₁ : ({ v₁ with NumAllocas := v₁.Locals.length } : EdgeVisitor GV).Safe :=
    ⟨hmade, ⟨halloc.numbered.lt, halloc.numbered.injective⟩, by simp [halloc.VarArgs]⟩
  have harguments : ∀ {v₂ : EdgeVisitor GV}, v₂.Safe →
      (List.range F.args.length).foldlM (fun v no => v.defineArgument M F no) v₂ = .ok v →
      v.Safe := by
    intro v₂ hs₂ h
    refine foldlM_keeps (P := Safe) (fun v hs no _ v' hstep => ?_) hs₂ h
    obtain ⟨⟨N, v₁⟩, hN, hstep⟩ := bind_ok hstep
    obtain ⟨h₁, hN⟩ := node_leads hs hN
    exact (h₁.trans (addEdge_leads hstep hN (Writer.has_sym _))).safe hs
  dsimp only at h
  split at h
  · obtain ⟨v₂, hvar, h⟩ := bind_ok h
    exact harguments (defineVarArgs_safe hs₁ hvar) h
  · exact harguments hs₁ h

/-- **What is written of a function has made the locals it uses.** -/
theorem run_safe (h : run M F = .ok v) : v.Safe := by
  obtain ⟨v₁, hnew, h⟩ := bind_ok h
  exact foldlM_keeps (P := Safe) (fun v hs I _ v' hstep => (visit_leads hs hstep).safe hs)
    (new_safe hnew) h

end EdgeVisitor
end
end Bracelet.Reachability
