import Bracelet.VisitorEdges

/-!
# What a visit records

A visit comes to one of three ends: it stops the pass at an assertion of its own
(`Opcode.Stops`), at the null node of an operand that it makes an end of an edge
unchecked (`Opcode.endpoints`), or it goes through, and then every value that the
instruction carries, loads, stores, transfers or returns is recorded (`Recorded`).
-/
namespace Bracelet.Reachability
open Edges (Bytes EdgeKind End Op edges)

section
variable {GV : Type} (M : Module GV) (F : Function GV)

/-! ## Instructions -/

namespace Opcode

/-- The visitor stops: at `va_arg`, and at `va_start` in a function that is not variadic. -/
def Stops : Opcode GV → Bool
  | .VAArg _ => true
  | .Call call => decide (call.getIntrinsicID M = .vastart) && !F.type.isVarArg
  | _ => false

/-- The operands of a call whose nodes become ends of edges unchecked. -/
def callEndpoints (call : CallBase GV) : List (Value GV) :=
  match call.getIntrinsicID M with
  | .not_intrinsic => [call.Callee M]
  | .vastart => call.args.take 1
  | .vacopy | .memmove | .memcpy => call.args.take 2
  | .vaend | .other _ => []

/-- The operands whose nodes become ends of edges unchecked. -/
def endpoints : Opcode GV → List (Value GV)
  | .Call call =>
    match call.CalledOperand with
    | .InlineAsm => []
    | _ => callEndpoints M call
  | _ => []

/-- The operands that the result is made of.  An address is made of the address that it is
an offset from. -/
def carries : Opcode GV → List (Value GV)
  | .GetElementPtr V _ | .PtrToInt V | .IntToPtr V | .BitCast V | .AddrSpaceCast V | .Cast _ V
  | .ExtractElement V _ | .ExtractValue V | .Freeze V | .UnaryOperator V => [V]
  | .Select _ V W | .InsertElement V W _ | .ShuffleVector V W | .InsertValue V W
  | .BinaryOperator V W => [V, W]
  | .PHI Vs => Vs
  | _ => []

/-- The addresses that the result is read from. -/
def loads : Opcode GV → List (Value GV)
  | .Load P | .AtomicCmpXchg P _ _ | .AtomicRMW P _ | .VAArg P => [P]
  | _ => []

/-- The addresses that are written to, with the values. -/
def stores : Opcode GV → List (Value GV × Value GV)
  | .Store P V | .AtomicCmpXchg P _ V | .AtomicRMW P V => [(P, V)]
  | _ => []

/-- The destination and the source of a transfer of memory. -/
def transfers : Opcode GV → List (Value GV × Value GV)
  | .Call call =>
    match call.getIntrinsicID M, call.args with
    | .memmove, Dst :: Src :: _ | .memcpy, Dst :: Src :: _ | .vacopy, Dst :: Src :: _ => [(Dst, Src)]
    | _, _ => []
  | _ => []

def returned : Opcode GV → Option (Value GV)
  | .Return V => V
  | _ => none

end Opcode

namespace EdgeVisitor

/-- Between the states, a value is loaded from one address and stored to another. -/
def Transferred (v v' : EdgeVisitor GV) (Dst Src : Value GV) : Prop :=
  ∃ tmp src dst, NodeAt M F v v' Src src ∧ NodeAt M F v v' Dst dst ∧
    Added v v' .Load tmp src ∧ Added v v' .Store dst tmp

/-- Between the states, what the instruction does with its operands is recorded. -/
structure Recorded (v v' : EdgeVisitor GV) (I : Instruction GV) : Prop where
  carries : ∀ V ∈ I.op.carries, V.shape M ≠ .null →
    Linked M F v v' .Assign (.Local (.Instruction I.id)) V
  loads : ∀ P ∈ I.op.loads, P.shape M ≠ .null →
    Linked M F v v' .Load (.Local (.Instruction I.id)) P
  stores : ∀ s ∈ I.op.stores, s.1.shape M ≠ .null → s.2.shape M ≠ .null →
    Linked M F v v' .Store s.1 s.2
  transfers : ∀ t ∈ I.op.transfers M, Transferred M F v v' t.1 t.2
  returned : ∀ V ∈ I.op.returned, V.shape M ≠ .null →
    ∃ n, NodeAt M F v v' V n ∧ Added v v' .Return (.sym F.symbol) n

variable {M F}

/-! ## The ends of a visit -/

variable {v : EdgeVisitor GV} {I : Instruction GV}

/-- **A visit that stops at an assertion of its own.** -/
theorem visit_stops (hv : v.VarArgs.isSome = F.type.isVarArg) (h : I.op.Stops M F) :
    v.visit M F I = .error .assertion := by
  cases hop : I.op with
  | VAArg P => simp [visit, hop]
  | Call call =>
    obtain ⟨hid, hfixed⟩ : call.getIntrinsicID M = .vastart ∧ F.type.isVarArg = false := by
      simpa [hop, Opcode.Stops] using h
    have hnone : v.VarArgs = none := by simpa [hfixed] using hv
    have hcall : v.visit M F I = v.visitCallBase M F I call := by simp [visit, hop]
    rw [hcall]
    rcases v.visitCallBase_cases (M := M) (F := F) I call with
      ⟨hasm, -⟩ | ⟨-, hid', -⟩ | ⟨-, list, rest, -, hvisit⟩ | ⟨hid', -⟩ | ⟨hid', -⟩
    · simp [getIntrinsicID_of_inlineAsm hasm] at hid
    · cases hid.symm.trans hid'
    · rw [hvisit, startVarArgs]
      split
      next => rfl
      next hsome => cases hnone.symm.trans hsome
    · simp [hid] at hid'
    · simp [hid] at hid'
  | _ => simp [hop, Opcode.Stops] at h

theorem endpoints_call {call : CallBase GV} (hasm : call.CalledOperand ≠ .InlineAsm) :
    (Opcode.Call call).endpoints M = Opcode.callEndpoints M call := by
  simp only [Opcode.endpoints]

/-- An intrinsic is not inline assembly. -/
theorem not_inlineAsm {call : CallBase GV} (h : call.getIntrinsicID M ≠ .not_intrinsic) :
    call.CalledOperand ≠ .InlineAsm :=
  fun hasm => h (getIntrinsicID_of_inlineAsm hasm)

theorem endpoints_transfer {call : CallBase GV} {Dst Src : Value GV} {rest : List (Value GV)}
    (h : call.getIntrinsicID M ∈ [IntrinsicID.vacopy, .memmove, .memcpy])
    (hargs : call.args = Dst :: Src :: rest) : (Opcode.Call call).endpoints M = [Dst, Src] := by
  have hasm : call.CalledOperand ≠ .InlineAsm :=
    not_inlineAsm (M := M) fun hid => by simp [hid] at h
  rw [endpoints_call hasm, Opcode.callEndpoints]
  simp only [List.mem_cons, List.not_mem_nil, or_false] at h
  rcases h with h | h | h <;> simp [h, hargs]

/-- **A visit that stops at a null node.** -/
theorem visit_null (hv : v.VarArgs.isSome = F.type.isVarArg) (hstop : ¬ I.op.Stops M F)
    (h : ∃ V ∈ I.op.endpoints M, V.shape M = .null) : v.visit M F I = .error .nullNode := by
  obtain ⟨V, hV, hnull⟩ := h
  cases hop : I.op with
  | Call call =>
    rw [hop] at hV hstop
    have hcall : v.visit M F I = v.visitCallBase M F I call := by simp [visit, hop]
    rw [hcall]
    rcases v.visitCallBase_cases (M := M) (F := F) I call with
      ⟨hasm, -⟩ | ⟨hasm, hid, hvisit⟩ | ⟨hid, list, rest, hargs, hvisit⟩ |
      ⟨hid, Name, Dst, Src, rest, hargs, hvisit⟩ | ⟨hid, -⟩
    · simp [Opcode.endpoints, hasm] at hV
    · rw [endpoints_call hasm, Opcode.callEndpoints, hid] at hV
      rw [hvisit]
      exact v.ordinaryCall_null I (List.mem_singleton.mp hV ▸ hnull)
    · rw [endpoints_call (not_inlineAsm (M := M) (by simp [hid])), Opcode.callEndpoints, hid, hargs]
        at hV
      have hvariadic : v.VarArgs.isSome = true := by
        rw [hv]
        by_contra hfixed
        exact hstop (by simpa [Opcode.Stops, hid] using hfixed)
      obtain ⟨VarArgs, hVarArgs⟩ := Option.isSome_iff_exists.mp hvariadic
      rw [hvisit]
      exact v.startVarArgs_null hVarArgs (List.mem_singleton.mp hV ▸ hnull)
    · rw [endpoints_transfer hid hargs] at hV
      rw [hvisit]
      refine v.transfer_null Name ?_
      simp only [List.mem_cons, List.not_mem_nil, or_false] at hV
      rcases hV with rfl | rfl
      · exact Or.inr hnull
      · exact Or.inl hnull
    · have hasm : call.CalledOperand ≠ .InlineAsm := not_inlineAsm (M := M) (by
        rcases hid with hid | ⟨name, hid⟩ <;> simp [hid])
      rw [endpoints_call hasm, Opcode.callEndpoints] at hV
      rcases hid with hid | ⟨name, hid⟩ <;> simp [hid] at hV
  | _ =>
    rw [hop] at hV
    exact absurd hV List.not_mem_nil

/-- A visit that only assigns. -/
theorem recorded_of_carries {v' : EdgeVisitor GV} {Vs : List (Value GV)}
    (hcarries : I.op.carries = Vs) (hloads : I.op.loads = []) (hstores : I.op.stores = [])
    (htransfers : I.op.transfers M = []) (hreturned : I.op.returned = none)
    (h : ∀ V ∈ Vs, V.shape M ≠ .null → Linked M F v v' .Assign (.Local (.Instruction I.id)) V) :
    Recorded M F v v' I where
  carries := hcarries ▸ h
  loads := by simp [hloads]
  stores := by simp [hstores]
  transfers := by simp [htransfers]
  returned := by simp [hreturned]

/-- A call that goes through. -/
theorem visitCallBase_spec {call : CallBase GV} (hop : I.op = .Call call)
    (hv : v.VarArgs.isSome = F.type.isVarArg) (hstop : ¬ I.op.Stops M F)
    (hends : ∀ V ∈ I.op.endpoints M, V.shape M ≠ .null) :
    ∃ v', v.visitCallBase M F I call = .ok v' ∧ v.Extends Set.univ v' ∧
      ∀ t ∈ I.op.transfers M, Transferred M F v v' t.1 t.2 := by
  rw [hop] at hstop hends ⊢
  rcases v.visitCallBase_cases (M := M) (F := F) I call with
    ⟨hasm, hvisit⟩ | ⟨hasm, hid, hvisit⟩ | ⟨hid, list, rest, hargs, hvisit⟩ |
    ⟨hid, Name, Dst, Src, rest, hargs, hvisit⟩ | ⟨hid, hvisit⟩
  · refine ⟨v, hvisit, .refl v, ?_⟩
    simp [Opcode.transfers, getIntrinsicID_of_inlineAsm hasm]
  · rw [endpoints_call hasm, Opcode.callEndpoints, hid] at hends
    have hcallee := hends _ (List.mem_singleton_self _)
    have hnone : ∀ v' : EdgeVisitor GV, ∀ t ∈ (Opcode.Call call).transfers M,
        Transferred M F v v' t.1 t.2 := by simp [Opcode.transfers, hid]
    rw [hvisit]
    cases hdlsym : call.callsDlsym M with
    | true =>
      obtain ⟨v', hcall, hext⟩ := v.dlsymCall_spec (F := F) I hdlsym
      exact ⟨v', hcall, hext.univ, hnone v'⟩
    | false =>
      obtain ⟨v', -, -, -, hcall, hext, -⟩ := v.ordinaryCall_spec (F := F) I hdlsym hcallee
      exact ⟨v', hcall, hext.univ, hnone v'⟩
  · rw [endpoints_call (not_inlineAsm (M := M) (by simp [hid])), Opcode.callEndpoints, hid, hargs]
      at hends
    have hvariadic : v.VarArgs.isSome = true := by
      rw [hv]
      by_contra hfixed
      exact hstop (by simpa [Opcode.Stops, hid] using hfixed)
    obtain ⟨VarArgs, hVarArgs⟩ := Option.isSome_iff_exists.mp hvariadic
    obtain ⟨v', hstart, hext⟩ := v.startVarArgs_spec (F := F) hVarArgs (hends list (by simp))
    refine ⟨v', hvisit.trans hstart, hext.univ, ?_⟩
    simp [Opcode.transfers, hid]
  · rw [endpoints_transfer hid hargs] at hends
    obtain ⟨v', htransfer, hext, hrecorded⟩ :=
      v.transfer_spec (F := F) Name (hends Src (by simp)) (hends Dst (by simp))
    refine ⟨v', hvisit.trans htransfer, hext.univ, ?_⟩
    have hone : (Opcode.Call call).transfers M = [(Dst, Src)] := by
      simp only [List.mem_cons, List.not_mem_nil, or_false] at hid
      rcases hid with hid | hid | hid <;> simp [Opcode.transfers, hid, hargs]
    rw [hone]
    exact List.forall_mem_singleton.mpr hrecorded
  · refine ⟨v, hvisit, .refl v, ?_⟩
    rcases hid with hid | ⟨name, hid⟩ <;> simp [Opcode.transfers, hid]

/-- **A visit that goes through.** -/
theorem visit_spec (hv : v.VarArgs.isSome = F.type.isVarArg) (hstop : ¬ I.op.Stops M F)
    (hends : ∀ V ∈ I.op.endpoints M, V.shape M ≠ .null) :
    ∃ v', v.visit M F I = .ok v' ∧ v.Extends Set.univ v' ∧ Recorded M F v v' I := by
  cases hop : I.op with
  | GetElementPtr V _ | PtrToInt V | IntToPtr V | BitCast V | AddrSpaceCast V | Cast _ V
  | ExtractElement V _ | ExtractValue V | Freeze V | UnaryOperator V =>
    obtain ⟨v', hassign, hext, hlinked⟩ :=
      v.addAssignEdge_spec (M := M) (F := F) (.Instruction I.id) V
    refine ⟨v', by simp [visit, hop, hassign], hext.univ, ?_⟩
    refine recorded_of_carries ?_ ?_ ?_ ?_ ?_ (List.forall_mem_singleton.mpr hlinked) <;>
      rw [hop] <;> rfl
  | Select _ V W | InsertElement V W _ | ShuffleVector V W | InsertValue V W
  | BinaryOperator V W =>
    obtain ⟨v', hassign, hext, hlinked⟩ :=
      v.addAssignEdges_spec (M := M) (F := F) (.Instruction I.id) [V, W]
    refine ⟨v', by simp only [visit, hop, hassign], hext.univ, ?_⟩
    refine recorded_of_carries ?_ ?_ ?_ ?_ ?_ hlinked <;> rw [hop] <;> rfl
  | PHI Vs =>
    obtain ⟨v', hassign, hext, hlinked⟩ :=
      v.addAssignEdges_spec (M := M) (F := F) (.Instruction I.id) Vs
    refine ⟨v', by simp only [visit, hop, hassign], hext.univ, ?_⟩
    refine recorded_of_carries ?_ ?_ ?_ ?_ ?_ hlinked <;> rw [hop] <;> rfl
  | Store P V =>
    obtain ⟨v', hstore, hext, hlinked⟩ := v.addStoreEdge_spec (M := M) (F := F) P V
    refine ⟨v', by simp only [visit, hop, hstore], hext.univ, ?_⟩
    constructor <;> simp [hop, Opcode.carries, Opcode.loads, Opcode.stores, Opcode.transfers,
      Opcode.returned]
    exact hlinked
  | Load P =>
    obtain ⟨v', hload, hext, hlinked⟩ :=
      v.addLoadEdge_spec (M := M) (F := F) (.Instruction I.id) P
    refine ⟨v', by simp only [visit, hop, hload], hext.univ, ?_⟩
    constructor <;> simp [hop, Opcode.carries, Opcode.loads, Opcode.stores, Opcode.transfers,
      Opcode.returned]
    exact hlinked
  | AtomicCmpXchg P _ V | AtomicRMW P V =>
    obtain ⟨v₁, hload, hext₁, hloaded⟩ :=
      v.addLoadEdge_spec (M := M) (F := F) (.Instruction I.id) P
    obtain ⟨v', hstore, hext₂, hstored⟩ := v₁.addStoreEdge_spec (M := M) (F := F) P V
    refine ⟨v', by simp only [visit, hop, hload, hstore, ok_bind], hext₁.univ.trans hext₂.univ, ?_⟩
    constructor <;> simp [hop, Opcode.carries, Opcode.loads, Opcode.stores, Opcode.transfers,
      Opcode.returned]
    · exact fun hP => (hloaded hP).mono (.refl v) hext₂.univ
    · exact fun hP hV => (hstored hP hV).mono hext₁.univ (.refl v')
  | VAArg P => exact absurd (by rw [hop]; rfl) hstop
  | Return V =>
    obtain ⟨v', hreturn, hext, hrecorded⟩ := v.visitReturnInst_spec (M := M) (F := F) V
    refine ⟨v', by simp only [visit, hop, hreturn], hext.univ, ?_⟩
    constructor <;> simp [hop, Opcode.carries, Opcode.loads, Opcode.stores, Opcode.transfers,
      Opcode.returned]
    exact hrecorded
  | Call call =>
    obtain ⟨v', hcall, hext, htransfers⟩ := visitCallBase_spec hop hv hstop hends
    refine ⟨v', by simp only [visit, hop, hcall], hext, ?_⟩
    constructor
    case transfers => exact htransfers
    all_goals simp [hop, Opcode.carries, Opcode.loads, Opcode.stores, Opcode.returned]
  | Alloca | Other _ _ =>
    refine ⟨v, by simp only [visit, hop], .refl v, ?_⟩
    refine recorded_of_carries ?_ ?_ ?_ ?_ ?_ (List.forall_mem_nil _) <;> rw [hop] <;> rfl

end EdgeVisitor
end
end Bracelet.Reachability
