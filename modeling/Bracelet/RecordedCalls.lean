import Bracelet.VisitedInstructions

/-!
# The recorded calls of a function

A call that is not one of an intrinsic, of `dlsym` or of inline assembly gets one `Call` edge, from
a local of its own, and its arguments are supplied to slots below the number of arguments in it
(`visit_ordinary`).  No other instruction records calls, arguments that are supplied, or definitions
of arguments (`visit_other`).
-/
namespace Bracelet.Reachability
open Edges (Bytes EdgeKind End Op edges bind_ok)

section
variable {GV : Type} (M : Module GV) (F : Function GV)

/-- A call that gets a `Call` edge. -/
structure CallBase.Ordinary (call : CallBase GV) : Prop where
  asm : call.CalledOperand ≠ .InlineAsm
  intrinsic : call.getIntrinsicID M = .not_intrinsic
  dlsym : call.callsDlsym M = false

/-- The kinds of edges that all other instructions record. -/
def otherKinds : Set EdgeKind :=
  { kind | kind ≠ .Call ∧ kind ≠ .ArgumentSupply ∧ kind ≠ .ArgumentDefinition }

namespace EdgeVisitor
variable {M F} {v v' w : EdgeVisitor GV} {I : Instruction GV}

/-! ## One visit -/

/-- A call that gets no `Call` edge. -/
theorem visitCallBase_other {call : CallBase GV} (hcall : ¬ call.Ordinary M)
    (h : v.visitCallBase M F I call = .ok v') : v.Extends otherKinds v' := by
  rcases v.visitCallBase_cases (M := M) (F := F) I call with
    ⟨-, hvisit⟩ | ⟨hasm, hid, hvisit⟩ | ⟨-, list, rest, -, hvisit⟩ |
    ⟨-, Name, Dst, Src, rest, -, hvisit⟩ | ⟨-, hvisit⟩
  · obtain rfl := Except.ok.inj (hvisit.symm.trans h)
    exact .refl v
  · cases hdlsym : call.callsDlsym M with
    | true =>
      obtain ⟨w, hw, hext⟩ := v.dlsymCall_spec (F := F) I hdlsym
      obtain rfl := Except.ok.inj ((hvisit.trans hw).symm.trans h)
      exact hext.mono (by simp [Set.insert_subset_iff, otherKinds])
    | false => exact absurd ⟨hasm, hid, hdlsym⟩ hcall
  · rw [hvisit] at h
    cases hVarArgs : v.VarArgs with
    | none =>
      rw [startVarArgs, hVarArgs] at h
      cases h
    | some VarArgs =>
      by_cases hnull : list.shape M = .null
      · rw [v.startVarArgs_null hVarArgs hnull] at h
        cases h
      · obtain ⟨w, hw, hext⟩ := v.startVarArgs_spec (F := F) hVarArgs hnull
        obtain rfl := Except.ok.inj (hw.symm.trans h)
        exact hext.mono (by simp [Set.insert_subset_iff, otherKinds])
  · rw [hvisit] at h
    by_cases hnull : Src.shape M = .null ∨ Dst.shape M = .null
    · rw [v.transfer_null Name hnull] at h
      cases h
    · rw [not_or] at hnull
      obtain ⟨w, hw, hext, -⟩ := v.transfer_spec (F := F) Name hnull.1 hnull.2
      obtain rfl := Except.ok.inj (hw.symm.trans h)
      exact hext.mono (by simp [Set.insert_subset_iff, otherKinds])
  · obtain rfl := Except.ok.inj (hvisit.symm.trans h)
    exact .refl v

/-- **Other instructions record neither calls nor arguments.** -/
theorem visit_other (hcall : ∀ call, I.op = .Call call → ¬ call.Ordinary M)
    (h : v.visit M F I = .ok v') : v.Extends otherKinds v' := by
  unfold visit at h
  cases hop : I.op with
  | GetElementPtr V _ | PtrToInt V | IntToPtr V | BitCast V | AddrSpaceCast V | Cast _ V
  | ExtractElement V _ | ExtractValue V | Freeze V | UnaryOperator V =>
    rw [hop] at h
    obtain ⟨w, hw, hext, -⟩ := v.addAssignEdge_spec (M := M) (F := F) (.Instruction I.id) V
    obtain rfl := Except.ok.inj (hw.symm.trans h)
    exact hext.mono (by simp [otherKinds])
  | Select _ V W | InsertElement V W _ | ShuffleVector V W | InsertValue V W
  | BinaryOperator V W =>
    rw [hop] at h
    obtain ⟨w, hw, hext, -⟩ := v.addAssignEdges_spec (M := M) (F := F) (.Instruction I.id) [V, W]
    obtain rfl := Except.ok.inj (hw.symm.trans h)
    exact hext.mono (by simp [otherKinds])
  | PHI Vs =>
    rw [hop] at h
    obtain ⟨w, hw, hext, -⟩ := v.addAssignEdges_spec (M := M) (F := F) (.Instruction I.id) Vs
    obtain rfl := Except.ok.inj (hw.symm.trans h)
    exact hext.mono (by simp [otherKinds])
  | Store P V =>
    rw [hop] at h
    obtain ⟨w, hw, hext, -⟩ := v.addStoreEdge_spec (M := M) (F := F) P V
    obtain rfl := Except.ok.inj (hw.symm.trans h)
    exact hext.mono (by simp [Set.insert_subset_iff, otherKinds])
  | Load P =>
    rw [hop] at h
    obtain ⟨w, hw, hext, -⟩ := v.addLoadEdge_spec (M := M) (F := F) (.Instruction I.id) P
    obtain rfl := Except.ok.inj (hw.symm.trans h)
    exact hext.mono (by simp [Set.insert_subset_iff, otherKinds])
  | AtomicCmpXchg P _ V | AtomicRMW P V =>
    rw [hop] at h
    obtain ⟨w, hw, hext₁, -⟩ := v.addLoadEdge_spec (M := M) (F := F) (.Instruction I.id) P
    obtain ⟨u, hu, hext₂, -⟩ := w.addStoreEdge_spec (M := M) (F := F) P V
    simp only [hw, ok_bind] at h
    obtain rfl := Except.ok.inj (hu.symm.trans h)
    exact (hext₁.mono (by simp [Set.insert_subset_iff, otherKinds])).trans
      (hext₂.mono (by simp [Set.insert_subset_iff, otherKinds]))
  | VAArg P =>
    rw [hop] at h
    cases h
  | Return V =>
    rw [hop] at h
    obtain ⟨w, hw, hext, -⟩ := v.visitReturnInst_spec (M := M) (F := F) V
    obtain rfl := Except.ok.inj (hw.symm.trans h)
    exact hext.mono (by simp [Set.insert_subset_iff, otherKinds])
  | Call call =>
    rw [hop] at h
    exact visitCallBase_other (hcall call hop) h
  | Alloca | Other _ _ =>
    rw [hop] at h
    obtain rfl := Except.ok.inj h
    exact .refl v

/-- **A call is recorded once.** -/
theorem visit_ordinary {call : CallBase GV} (hop : I.op = .Call call) (hcall : call.Ordinary M)
    (hv : v.Numbered) (h : v.visit M F I = .ok v') :
    v.Extends {.Assign, .ArgumentSupply, .Call} v' ∧
      ∃ i n more, NodeAt M F v v' (call.Callee M) n ∧ CallLocal v v' I i ∧
        edges v'.FW.ops .Call = edges v.FW.ops .Call ++ [(.loc i, n, call.nargs)] ∧
        edges v'.FW.ops .ArgumentSupply = edges v.FW.ops .ArgumentSupply ++ more ∧
        ∀ e ∈ more, e.1 = .loc i ∧ e.2.2 < call.nargs := by
  have hvisit : v.visit M F I = v.visitOrdinaryCall M F I call := by
    simp only [visit, hop, visitCallBase]
    split
    next hasm => exact absurd hasm hcall.asm
    next => simp only [visitCall, hcall.intrinsic]
  rw [hvisit] at h
  by_cases hnull : (call.Callee M).shape M = .null
  · rw [v.ordinaryCall_null I hnull] at h
    cases h
  · obtain ⟨w, i, n, more, hw, hext, hn, hcalls, hsupplies, hmore, hi⟩ :=
      v.ordinaryCall_spec (F := F) I hcall.dlsym hnull
    obtain rfl := Except.ok.inj (hw.symm.trans h)
    exact ⟨hext, i, n, more, hn, hi hv, hcalls, hsupplies, hmore⟩

end EdgeVisitor
end
end Bracelet.Reachability
