import Bracelet.ConstantFlow
import Bracelet.EdgeShapes
import Bracelet.RecordedCalls

/-!
# What a function's edges say of its values

When the visitor is done with a function, each value that it has met has a node that stands for it
(`StandsFor`): the local of an instruction or an argument, or a node that the symbols of a constant
are assigned to.  The edges between these nodes tell what each instruction does with its operands
(`Records`), and what the function is given (`Receives`).  A visit records this of its instruction,
nothing is taken back later, so it holds of every instruction (`run_records`).
-/
namespace Bracelet.Reachability
open Edges (Bytes EdgeKind End Op edges bind_ok foldlM_keeps)

section
variable {GV : Type} (M : Module GV) (F : Function GV)

namespace Opcode

/-- The list that `va_start` fills. -/
def starts : Opcode GV → Option (Value GV)
  | .Call call =>
    match call.getIntrinsicID M, call.args with
    | .vastart, List :: _ => some List
    | _, _ => none
  | _ => none

end Opcode

/-- A call of `dlsym` that gets an edge of its own. -/
structure CallBase.Dlsym (call : CallBase GV) : Prop where
  intrinsic : call.getIntrinsicID M = .not_intrinsic
  dlsym : call.callsDlsym M = true

namespace EdgeVisitor

/-- The node stands for the value. -/
def StandsFor (w : EdgeVisitor GV) : Value GV → End GV → Prop
  | .Constant c, n => ∀ s ∈ c.symbols M, Path (assignments w.FW.ops) (.sym s) n
  | .Local V, n => ∃ i, Dict.get? w.Locals V = some i ∧ n = .loc i
  | .InlineAsm, _ => False

/-- The edge has been recorded. -/
def Has (w : EdgeVisitor GV) (kind : EdgeKind) (t f : End GV) : Prop :=
  ∃ idx, (t, f, idx) ∈ edges w.FW.ops kind

/-- An edge has been recorded between nodes that stand for the values. -/
def Joins (w : EdgeVisitor GV) (kind : EdgeKind) (To From : Value GV) : Prop :=
  ∃ t f, StandsFor M w To t ∧ StandsFor M w From f ∧ w.Has kind t f

/-- What is recorded of a call: its callee, and its arguments in their slots. -/
structure RecordsCall (w : EdgeVisitor GV) (I : Instruction GV) (call : CallBase GV) (i : Nat) :
    Prop where
  result : call.FTy.ReturnType ≠ .void → Dict.get? w.Locals (.Instruction I.id) = some i
  callee : ∃ n, StandsFor M w (call.Callee M) n ∧ w.Has .Call (.loc i) n
  supplies : ∀ Idx A, call.args[Idx]? = some A → ¬ A.Nodeless → ∃ n, StandsFor M w A n ∧
    (.loc i, n, UInt32.ofNat (call.slot Idx)) ∈ edges w.FW.ops .ArgumentSupply

/-- **What is recorded of an instruction.** -/
structure Records (w : EdgeVisitor GV) (I : Instruction GV) : Prop where
  carries : ∀ V ∈ I.op.carries, ¬ V.Nodeless → Joins M w .Assign (.Local (.Instruction I.id)) V
  loads : ∀ P ∈ I.op.loads, ¬ P.Nodeless → Joins M w .Load (.Local (.Instruction I.id)) P
  stores : ∀ s ∈ I.op.stores, ¬ s.1.Nodeless → ¬ s.2.Nodeless → Joins M w .Store s.1 s.2
  transfers : ∀ t ∈ I.op.transfers M, ∃ tmp src dst, StandsFor M w t.2 src ∧
    StandsFor M w t.1 dst ∧ w.Has .Load tmp src ∧ w.Has .Store dst tmp
  starts : ∀ list ∈ I.op.starts M, ∃ tmp dst, ∃ a ∈ w.VarArgs, StandsFor M w list dst ∧
    w.Has .Load tmp (.loc a) ∧ w.Has .Store dst tmp
  returned : ∀ V ∈ I.op.returned, ¬ V.Nodeless →
    ∃ n, StandsFor M w V n ∧ w.Has .Return (.sym F.symbol) n
  calls : ∀ call, I.op = .Call call → call.Ordinary M → ∃ i, RecordsCall M w I call i
  pages : ∀ call, I.op = .Call call → call.CalledOperand ≠ .InlineAsm → call.Dlsym M →
    ∃ i, (call.FTy.ReturnType ≠ .void → Dict.get? w.Locals (.Instruction I.id) = some i) ∧
      w.Has .DlsymPagePointer (.loc i) (.sym (M.PagePtr F.symbol I.id))

variable {M F} {v v' w w' : EdgeVisitor GV} {S : Set EdgeKind} {I : Instruction GV}

/-! ## Nothing is taken back -/

theorem edges_subset (h : w.Extends S w') (kind : EdgeKind) :
    edges w.FW.ops kind ⊆ edges w'.FW.ops kind := by
  obtain ⟨more, hops⟩ := h.FW.ops
  rw [← hops, Edges.edges_append]
  exact List.subset_append_left _ _

theorem assignments_subset (h : w.Extends S w') :
    assignments w.FW.ops ⊆ assignments w'.FW.ops :=
  List.map_subset _ (edges_subset h .Assign)

theorem StandsFor.mono (hext : w.Extends S w') {V : Value GV} {n : End GV}
    (h : StandsFor M w V n) : StandsFor M w' V n := by
  cases V with
  | Constant c => exact fun s hs => (h s hs).mono (assignments_subset hext)
  | Local V =>
    obtain ⟨i, hi, rfl⟩ := h
    exact ⟨i, hext.locals V i hi, rfl⟩
  | InlineAsm => exact h

theorem Has.mono (hext : w.Extends S w') {kind : EdgeKind} {t f : End GV} (h : w.Has kind t f) :
    w'.Has kind t f := by
  obtain ⟨idx, he⟩ := h
  exact ⟨idx, edges_subset hext kind he⟩

theorem Joins.mono (hext : w.Extends S w') {kind : EdgeKind} {To From : Value GV}
    (h : Joins M w kind To From) : Joins M w' kind To From := by
  obtain ⟨t, f, ht, hf, he⟩ := h
  exact ⟨t, f, ht.mono hext, hf.mono hext, he.mono hext⟩

theorem RecordsCall.mono (hext : w.Extends S w') {call : CallBase GV} {i : Nat}
    (h : RecordsCall M w I call i) : RecordsCall M w' I call i where
  result hvoid := hext.locals _ i (h.result hvoid)
  callee := by
    obtain ⟨n, hn, he⟩ := h.callee
    exact ⟨n, hn.mono hext, he.mono hext⟩
  supplies Idx A hA hnode := by
    obtain ⟨n, hn, he⟩ := h.supplies Idx A hA hnode
    exact ⟨n, hn.mono hext, edges_subset hext _ he⟩

theorem Records.mono (hext : w.Extends S w') (h : Records M F w I) : Records M F w' I where
  carries V hV hnode := (h.carries V hV hnode).mono hext
  loads P hP hnode := (h.loads P hP hnode).mono hext
  stores s hs hto hfrom := (h.stores s hs hto hfrom).mono hext
  transfers t ht := by
    obtain ⟨tmp, src, dst, hsrc, hdst, hload, hstore⟩ := h.transfers t ht
    exact ⟨tmp, src, dst, hsrc.mono hext, hdst.mono hext, hload.mono hext, hstore.mono hext⟩
  starts list hlist := by
    obtain ⟨tmp, dst, a, ha, hdst, hload, hstore⟩ := h.starts list hlist
    exact ⟨tmp, dst, a, hext.VarArgs ▸ ha, hdst.mono hext, hload.mono hext, hstore.mono hext⟩
  returned V hV hnode := by
    obtain ⟨n, hn, he⟩ := h.returned V hV hnode
    exact ⟨n, hn.mono hext, he.mono hext⟩
  calls call hop hcall := by
    obtain ⟨i, hi⟩ := h.calls call hop hcall
    exact ⟨i, hi.mono hext⟩
  pages call hop hasm hcall := by
    obtain ⟨i, hi, he⟩ := h.pages call hop hasm hcall
    exact ⟨i, fun hvoid => hext.locals _ i (hi hvoid), he.mono hext⟩

/-! ## What a visit leaves behind -/

/-- The node that was answered stands for the value. -/
theorem NodeAt.standsFor {V : Value GV} {n : End GV} (h : NodeAt M F v v' V n) :
    StandsFor M v' V n := by
  obtain ⟨x, x', -, hnode, hext⟩ := h
  refine StandsFor.mono hext ?_
  cases V with
  | Constant c =>
    obtain ⟨⟨N, FW⟩, hN, hnode⟩ := bind_ok hnode
    obtain ⟨rfl, rfl⟩ := Prod.mk.inj (Except.ok.inj hnode)
    obtain ⟨N', FW', es, hN', hcovers⟩ := constantNode_covers (M := M) c x.FW
    obtain ⟨rfl, rfl⟩ := Prod.mk.inj (Except.ok.inj (hN'.symm.trans hN))
    intro s hs
    have hpath := ((hcovers.node n rfl).2 s).mpr hs
    refine hpath.mono ?_
    show es ⊆ assignments FW'.ops
    rw [hcovers.assigns]
    exact List.subset_append_right _ _
  | Local V =>
    obtain ⟨N, x'', hnode', -, i, rfl, hi⟩ := x.node_spec (M := M) (F := F) (.Local V)
    obtain ⟨hn, rfl⟩ := Prod.mk.inj (Except.ok.inj (hnode'.symm.trans hnode))
    exact ⟨i, hi, (Option.some.inj hn).symm⟩
  | InlineAsm => cases hnode

theorem Added.has {kind : EdgeKind} {t f : End GV} (h : Added v v' kind t f) : v'.Has kind t f := by
  obtain ⟨x, x', idx, -, hadd, hext⟩ := h
  obtain rfl := Except.ok.inj hadd
  refine ⟨idx, edges_subset hext kind ?_⟩
  rw [Edges.edges_append]
  exact List.mem_append_right _ (by simp [edges])

theorem Linked.joins {kind : EdgeKind} {To From : Value GV} (h : Linked M F v v' kind To From) :
    Joins M v' kind To From := by
  obtain ⟨t, f, ht, hf, hadd⟩ := h
  exact ⟨t, f, ht.standsFor, hf.standsFor, hadd.has⟩

/-! ## Calls -/

/-- The local of a call that has a result is that of its value. -/
theorem callNode_result {call : CallBase GV} {i : Nat}
    (h : v.callNode M F I call = .ok (some (.loc i), v')) (hvoid : call.FTy.ReturnType ≠ .void) :
    Dict.get? v'.Locals (.Instruction I.id) = some i := by
  rw [callNode, if_neg hvoid] at h
  obtain ⟨N, v'', h', -, j, rfl, hj⟩ := v.node_spec (M := M) (F := F) (.Local (.Instruction I.id))
  obtain ⟨hN, rfl⟩ := Prod.mk.inj (Except.ok.inj (h'.symm.trans h))
  obtain rfl := End.loc.inj (Option.some.inj hN)
  exact hj

/-- Each argument that has a node is supplied to its slot. -/
theorem supplyArguments_each (call : CallBase GV) (i : Nat) {args : List (Value GV)} {Idx : Nat}
    (h : supplyArguments M F call (some (.loc i)) Idx args v = .ok v') :
    v.Extends {.Assign, .ArgumentSupply} v' ∧
      ∀ k A, args[k]? = some A → ¬ A.Nodeless → ∃ n, StandsFor M v' A n ∧
        (.loc i, n, UInt32.ofNat (call.slot (Idx + k))) ∈ edges v'.FW.ops .ArgumentSupply := by
  induction args generalizing Idx v with
  | nil =>
    obtain rfl := Except.ok.inj h
    exact ⟨.refl _, fun k A hA => by simp at hA⟩
  | cons B args ih =>
    unfold supplyArguments at h
    split at h
    · cases h
    obtain ⟨⟨N, v₁⟩, hB, h⟩ := bind_ok h
    obtain ⟨N', v₁', hB', hext₁, hans⟩ := v.node_spec (M := M) (F := F) B
    obtain ⟨rfl, rfl⟩ := Prod.mk.inj (Except.ok.inj (hB'.symm.trans hB))
    dsimp only at h
    -- the arguments after the first are those of the rest of the list
    have hrest : ∀ {v₂ : EdgeVisitor GV},
        supplyArguments M F call (some (.loc i)) (Idx + 1) args v₂ = .ok v' →
        v₂.Extends {.Assign, .ArgumentSupply} v' ∧
          ∀ k A, args[k]? = some A → ¬ A.Nodeless → ∃ n, StandsFor M v' A n ∧
            (.loc i, n, UInt32.ofNat (call.slot (Idx + (k + 1)))) ∈
              edges v'.FW.ops .ArgumentSupply := by
      intro v₂ hv₂
      obtain ⟨hext, hall⟩ := ih hv₂
      refine ⟨hext, fun k A hA hnode => ?_⟩
      have hk := hall k A hA hnode
      rwa [Nat.add_assoc, Nat.add_comm 1 k] at hk
    cases N' with
    | none =>
      obtain ⟨hext, hall⟩ := hrest h
      refine ⟨(hext₁.mono (by simp)).trans hext, fun k A hA hnode => ?_⟩
      cases k with
      | zero =>
        obtain rfl : B = A := by simpa using hA
        exact absurd ((B.shape_eq_null M).mp (hans.isNone.mp rfl)) hnode
      | succ k => exact hall k A hA hnode
    | some n =>
      obtain ⟨v₂, hadd, h⟩ := bind_ok h
      obtain ⟨hext, hall⟩ := hrest h
      obtain rfl := Except.ok.inj hadd
      have hkind : EdgeKind.ArgumentSupply ∈ ({.Assign, .ArgumentSupply} : Set EdgeKind) := by simp
      have hext₂ := v₁'.extends_addEdge hkind (.loc i) n (UInt32.ofNat (call.slot Idx))
      refine ⟨((hext₁.mono (by simp)).trans hext₂).trans hext, fun k A hA hnode => ?_⟩
      cases k with
      | zero =>
        obtain rfl : B = A := by simpa using hA
        refine ⟨n, ((nodeAt_of_node hB' rfl).standsFor.mono hext₂).mono hext,
          edges_subset hext _ ?_⟩
        rw [Edges.edges_append]
        exact List.mem_append_right _ (by simp [edges])
      | succ k => exact hall k A hA hnode

/-- A call is recorded. -/
theorem visitOrdinaryCall_records {call : CallBase GV} (hdlsym : call.callsDlsym M = false)
    (h : v.visitOrdinaryCall M F I call = .ok v') : ∃ i, RecordsCall M v' I call i := by
  obtain ⟨⟨INode, v₁⟩, hI, h⟩ := bind_ok h
  obtain ⟨i, v₁', hI', hext₁, -⟩ := v.callNode_spec (M := M) (F := F) I call
  obtain ⟨rfl, rfl⟩ := Prod.mk.inj (Except.ok.inj (hI'.symm.trans hI))
  dsimp only at h
  rw [if_neg (by simp [hdlsym])] at h
  obtain ⟨v₂, hargs, h⟩ := bind_ok h
  obtain ⟨hext₂, hall⟩ := supplyArguments_each call i hargs
  obtain ⟨⟨N, v₃⟩, hN, h⟩ := bind_ok h
  obtain ⟨N', v₃', hN', hext₃, -⟩ := v₂.node_spec (M := M) (F := F) (call.Callee M)
  obtain ⟨rfl, rfl⟩ := Prod.mk.inj (Except.ok.inj (hN'.symm.trans hN))
  cases N' with
  | none =>
    rw [addEdge_none_right] at h
    cases h
  | some n =>
    have hext₄ : v₃'.Extends {.Call} _ :=
      v₃'.extends_addEdge (Set.mem_singleton _) (.loc i) n call.nargs
    obtain rfl := Except.ok.inj h
    refine ⟨i, fun hvoid => ?_, ⟨n, ?_, call.nargs, ?_⟩, fun Idx A hA hnode => ?_⟩
    · exact hext₃.locals _ i (hext₂.locals _ i (callNode_result hI hvoid))
    · exact (nodeAt_of_node hN' rfl).standsFor.mono hext₄
    · rw [Edges.edges_append]
      exact List.mem_append_right _ (by simp [edges])
    · obtain ⟨m, hm, he⟩ := hall Idx A hA hnode
      rw [Nat.zero_add] at he
      exact ⟨m, (hm.mono hext₃).mono hext₄, edges_subset hext₄ _ (edges_subset hext₃ _ he)⟩

/-- A call of `dlsym` is recorded with its page. -/
theorem dlsymCall_records {call : CallBase GV} (hdlsym : call.callsDlsym M = true)
    (h : v.visitOrdinaryCall M F I call = .ok v') :
    ∃ i, (call.FTy.ReturnType ≠ .void → Dict.get? v'.Locals (.Instruction I.id) = some i) ∧
      v'.Has .DlsymPagePointer (.loc i) (.sym (M.PagePtr F.symbol I.id)) := by
  obtain ⟨⟨INode, v₁⟩, hI, h⟩ := bind_ok h
  obtain ⟨i, v₁', hI', -, -⟩ := v.callNode_spec (M := M) (F := F) I call
  obtain ⟨rfl, rfl⟩ := Prod.mk.inj (Except.ok.inj (hI'.symm.trans hI))
  dsimp only at h
  rw [if_pos hdlsym] at h
  have hresult : call.FTy.ReturnType ≠ .void →
      Dict.get? v₁'.Locals (.Instruction I.id) = some i := callNode_result hI'
  obtain rfl := Except.ok.inj h
  refine ⟨i, hresult, 0, ?_⟩
  simp [Writer.symbol, edges]

/-- `va_start` is recorded as a copy from the model list. -/
theorem startVarArgs_records {list : Value GV} (h : v.startVarArgs M F list = .ok v') :
    ∃ tmp dst, ∃ a ∈ v'.VarArgs, StandsFor M v' list dst ∧ v'.Has .Load tmp (.loc a) ∧
      v'.Has .Store dst tmp := by
  unfold startVarArgs at h
  split at h
  · cases h
  next a ha =>
    obtain ⟨v₁, hload, hext₁, hloaded⟩ :=
      (v.freshLocal (Edges.ascii "vastart() tmp")).2.addEdge_spec .Load (.loc v.FW.num_locals)
        (.loc a) 0
    simp only [freshLocal, Writer.freshLocal] at h hload
    rw [hload, ok_bind] at h
    obtain ⟨N, v₂, hN, hext₂, -⟩ := v₁.node_spec (M := M) (F := F) list
    rw [hN, ok_bind] at h
    cases N with
    | none => cases h
    | some dst =>
      obtain ⟨v₃, hstore, hext₃, hstored⟩ := v₂.addEdge_spec .Store dst (.loc v.FW.num_locals) 0
      obtain rfl := Except.ok.inj (hstore.symm.trans h)
      have hloaded' := (hloaded.has.mono hext₂).mono hext₃
      refine ⟨.loc v.FW.num_locals, dst, a, ?_, ?_, hloaded', hstored.has⟩
      · rw [hext₃.VarArgs, hext₂.VarArgs, hext₁.VarArgs]
        exact ha
      · exact (nodeAt_of_node hN rfl).standsFor.mono hext₃

/-! ## Visits -/

/-- The opcode of the calls that are not one of an intrinsic. -/
theorem visit_ordinaryCall {call : CallBase GV} (hop : I.op = .Call call)
    (hasm : call.CalledOperand ≠ .InlineAsm) (hid : call.getIntrinsicID M = .not_intrinsic) :
    v.visit M F I = v.visitOrdinaryCall M F I call := by
  simp only [visit, hop, visitCallBase, visitCall, hid]

/-- **A visit records what the instruction does.** -/
theorem visit_records (hv : v.VarArgs.isSome = F.type.isVarArg) (h : v.visit M F I = .ok v') :
    v.Extends Set.univ v' ∧ Records M F v' I := by
  have hstop : ¬ I.op.Stops M F := fun hstop => by
    rw [visit_stops hv hstop] at h
    cases h
  have hends : ∀ V ∈ I.op.endpoints M, V.shape M ≠ .null := fun V hV hnull => by
    rw [visit_null hv hstop ⟨V, hV, hnull⟩] at h
    cases h
  obtain ⟨v₁, hvisit, hext, hrecorded⟩ := visit_spec hv hstop hends
  obtain rfl := Except.ok.inj (hvisit.symm.trans h)
  have hnode : ∀ {V : Value GV}, ¬ V.Nodeless → V.shape M ≠ .null := fun hV hshape =>
    hV ((Value.shape_eq_null M _).mp hshape)
  refine ⟨hext, ?_⟩
  constructor
  case carries => exact fun V hV hne => (hrecorded.carries V hV (hnode hne)).joins
  case loads => exact fun P hP hne => (hrecorded.loads P hP (hnode hne)).joins
  case stores => exact fun s hs hto hfrom => (hrecorded.stores s hs (hnode hto) (hnode hfrom)).joins
  case transfers =>
    intro t ht
    obtain ⟨tmp, src, dst, hsrc, hdst, hload, hstore⟩ := hrecorded.transfers t ht
    exact ⟨tmp, src, dst, hsrc.standsFor, hdst.standsFor, hload.has, hstore.has⟩
  case starts =>
    intro list hlist
    cases hop : I.op with
    | Call call =>
      rw [hop] at hlist
      simp only [Opcode.starts] at hlist
      split at hlist
      next L rest hid hargs =>
        obtain rfl := Option.mem_some.mp hlist
        have hasm : call.CalledOperand ≠ .InlineAsm := not_inlineAsm (M := M) (by simp [hid])
        rcases v.visitCallBase_cases (M := M) (F := F) I call with
          ⟨hasm', -⟩ | ⟨-, hid', -⟩ | ⟨-, L', more, hargs', hvisit'⟩ | ⟨hid', -⟩ | ⟨hid', -⟩
        · exact absurd hasm' hasm
        · simp [hid] at hid'
        · obtain ⟨rfl, -⟩ := List.cons.inj (hargs.symm.trans hargs')
          have hcall : v.visit M F I = v.startVarArgs M F L := by
            simp only [visit, hop]
            exact hvisit'
          exact startVarArgs_records (hcall ▸ h)
        · simp [hid] at hid'
        · simp [hid] at hid'
      next => cases hlist
    | _ =>
      rw [hop] at hlist
      cases hlist
  case returned =>
    intro V hV hne
    obtain ⟨n, hn, hadd⟩ := hrecorded.returned V hV (hnode hne)
    exact ⟨n, hn.standsFor, hadd.has⟩
  case calls =>
    intro call hop hcall
    rw [visit_ordinaryCall hop hcall.asm hcall.intrinsic] at h
    exact visitOrdinaryCall_records hcall.dlsym h
  case pages =>
    intro call hop hasm hcall
    rw [visit_ordinaryCall hop hasm hcall.intrinsic] at h
    exact dlsymCall_records hcall.dlsym h

/-! ## What a function is given -/

/-- **What is recorded of the allocations and the arguments of a function.**  The area of the
variable arguments comes after the list that points to it. -/
structure Receives (F : Function GV) (w : EdgeVisitor GV) : Prop where
  allocas : ∀ I ∈ F.body, I.op = .Alloca →
    ∃ i < w.NumAllocas, Dict.get? w.Locals (.Instruction I.id) = some i
  arguments : ∀ no < F.args.length, ∃ i, Dict.get? w.Locals (.Argument no) = some i ∧
    (.loc i, .sym F.symbol, UInt32.ofNat no) ∈ edges w.FW.ops .ArgumentDefinition
  variadic : F.type.isVarArg = true → ∃ a ∈ w.VarArgs, a + 1 < w.NumAllocas ∧
    w.Has .Store (.loc a) (.loc (a + 1)) ∧ ∃ d, w.Has .Store (.loc (a + 1)) (.loc d) ∧
      (.loc d, .sym F.symbol, UInt32.ofNat F.args.length) ∈ edges w.FW.ops .ArgumentDefinition

theorem Receives.mono (hext : w.Extends S w') (hallocas : w'.NumAllocas = w.NumAllocas)
    (h : Receives F w) : Receives F w' where
  allocas I hI hop := by
    obtain ⟨i, hlt, hi⟩ := h.allocas I hI hop
    exact ⟨i, hallocas ▸ hlt, hext.locals _ i hi⟩
  arguments no hno := by
    obtain ⟨i, hi, he⟩ := h.arguments no hno
    exact ⟨i, hext.locals _ i hi, edges_subset hext _ he⟩
  variadic hvar := by
    obtain ⟨a, ha, hlt, hlist, d, harea, he⟩ := h.variadic hvar
    exact ⟨a, hext.VarArgs ▸ ha, hallocas ▸ hlt, hlist.mono hext, d, harea.mono hext,
      edges_subset hext _ he⟩

/-- The pass over the instructions that gives the `alloca`s their locals. -/
theorem allocas_fold (before after : List (Instruction GV)) {v v' : EdgeVisitor GV}
    (hv : Allocated before v) (hids : ((before ++ after).map Instruction.id).Nodup)
    (hbefore : ∀ I ∈ before, I.op = .Alloca →
      ∃ i < v.FW.num_locals, Dict.get? v.Locals (.Instruction I.id) = some i)
    (h : after.foldlM preprocessVisitAllocaInst v = .ok v') :
    Allocated (before ++ after) v' ∧ ∀ I ∈ before ++ after, I.op = .Alloca →
      ∃ i < v'.FW.num_locals, Dict.get? v'.Locals (.Instruction I.id) = some i := by
  induction after generalizing before v with
  | nil =>
    obtain rfl := Except.ok.inj h
    simpa using ⟨hv, hbefore⟩
  | cons J after ih =>
    have hJ : J.id ∉ before.map Instruction.id := by
      intro hmem
      rw [List.map_append, List.nodup_append] at hids
      exact hids.2.2 _ hmem _ (by simp) rfl
    rw [List.foldlM_cons] at h
    obtain ⟨v₁, hstep, h⟩ := bind_ok h
    obtain ⟨v₁', hstep', hv₁⟩ := allocated_step hv hJ
    obtain rfl := Except.ok.inj (hstep'.symm.trans hstep)
    have hone : ∀ I ∈ before ++ [J], I.op = .Alloca →
        ∃ i < v₁'.FW.num_locals, Dict.get? v₁'.Locals (.Instruction I.id) = some i := by
      unfold preprocessVisitAllocaInst at hstep
      split at hstep
      next hop =>
        dsimp only at hstep
        split at hstep
        · cases hstep
        obtain rfl := Except.ok.inj hstep
        intro I hI hIop
        rcases List.mem_append.mp hI with hI | hI
        · obtain ⟨i, hlt, hi⟩ := hbefore I hI hIop
          have hne : LocalValue.Instruction J.id ≠ .Instruction I.id := fun heq =>
            hJ (LocalValue.Instruction.inj heq ▸ List.mem_map_of_mem hI)
          exact ⟨i, hlt.trans (Nat.lt_succ_self _), by rw [Dict.get?_set, if_neg hne, hi]⟩
        · obtain rfl := List.mem_singleton.mp hI
          exact ⟨v.FW.num_locals, Nat.lt_succ_self _, by rw [Dict.get?_set, if_pos rfl]; rfl⟩
      next hop =>
        obtain rfl := Except.ok.inj hstep
        intro I hI hIop
        rcases List.mem_append.mp hI with hI | hI
        · exact hbefore I hI hIop
        · exact absurd (List.mem_singleton.mp hI ▸ hIop) hop
    simpa using ih (before ++ [J]) hv₁ (by simpa using hids) hone h

/-- Each of the arguments is defined. -/
theorem defineArguments_each {nos : List Nat}
    (h : nos.foldlM (fun v no => v.defineArgument M F no) v = .ok v') :
    v.Extends Set.univ v' ∧ ∀ no ∈ nos, ∃ i, Dict.get? v'.Locals (.Argument no) = some i ∧
      (.loc i, .sym F.symbol, UInt32.ofNat no) ∈ edges v'.FW.ops .ArgumentDefinition := by
  induction nos generalizing v with
  | nil =>
    obtain rfl := Except.ok.inj h
    exact ⟨.refl _, by simp⟩
  | cons no nos ih =>
    rw [List.foldlM_cons] at h
    obtain ⟨v₁, hstep, h⟩ := bind_ok h
    obtain ⟨hext, hall⟩ := ih h
    obtain ⟨⟨N, v₂⟩, hN, hstep⟩ := bind_ok hstep
    obtain ⟨N', v₂', hN', hext₂, i, rfl, hi⟩ :=
      v.node_spec (M := M) (F := F) (.Local (.Argument no))
    obtain ⟨rfl, rfl⟩ := Prod.mk.inj (Except.ok.inj (hN'.symm.trans hN))
    obtain rfl := Except.ok.inj hstep
    have hext₃ := v₂'.extends_addEdge (Set.mem_univ EdgeKind.ArgumentDefinition) (.loc i)
      (.sym F.symbol) (UInt32.ofNat no)
    refine ⟨(hext₂.univ.trans hext₃).trans hext, List.forall_mem_cons.mpr ⟨⟨i, ?_, ?_⟩, hall⟩⟩
    · exact hext.locals _ i (hext₃.locals _ i hi)
    · refine edges_subset hext _ ?_
      rw [Edges.edges_append]
      exact List.mem_append_right _ (by simp [edges])

variable (M) in
/-- **The constructor records what the function is given.** -/
theorem new_receives (h : new M F = .ok v) : Receives F v := by
  obtain ⟨v₁, hallocas, h⟩ := bind_ok h
  have hempty : Allocated ([] : List (Instruction GV)) {} :=
    ⟨safe_empty.numbered, rfl, fun _ _ h => (nomatch h), rfl, fun _ => rfl⟩
  obtain ⟨hv₁, hall⟩ := allocas_fold [] F.body hempty F.distinct (by simp) hallocas
  rw [List.nil_append] at hall
  have hs₁ := preprocess_shaped hallocas
  -- the arguments, after the model of the variable ones
  have harguments : ∀ {n : Nat} {v₂ : EdgeVisitor GV}, v₂.Shaped F n →
      (List.range F.args.length).foldlM (fun v no => v.defineArgument M F no) v₂ = .ok v →
      v₂.Extends Set.univ v ∧ v.NumAllocas = n ∧
        ∀ no < F.args.length, ∃ i, Dict.get? v.Locals (.Argument no) = some i ∧
          (.loc i, .sym F.symbol, UInt32.ofNat no) ∈ edges v.FW.ops .ArgumentDefinition := by
    intro n v₂ hs₂ h
    obtain ⟨hext, hargs⟩ := defineArguments_each h
    exact ⟨hext, (defineArguments_shaped hs₂ h).NumAllocas,
      fun no hno => hargs no (List.mem_range.mpr hno)⟩
  dsimp only at h
  split at h
  next hvar =>
    obtain ⟨v₂, hdefine, h⟩ := bind_ok h
    obtain ⟨hext, hallocas', hargs⟩ := harguments (defineVarArgs_shaped hs₁ hdefine) h
    obtain rfl := Except.ok.inj hdefine
    refine ⟨fun I hI hop => ?_, hargs, fun _ => ⟨v₁.FW.num_locals, ?_, ?_, ?_, v₁.FW.num_locals + 2,
      ?_, ?_⟩⟩
    · obtain ⟨i, hlt, hi⟩ := hall I hI hop
      refine ⟨i, ?_, hext.locals _ i hi⟩
      rw [hallocas', hv₁.length]
      omega
    · rw [hext.VarArgs]
      rfl
    · rw [hallocas', hv₁.length]
      omega
    · refine Has.mono hext ⟨0, ?_⟩
      simp [edges]
    · refine Has.mono hext ⟨0, ?_⟩
      simp [edges]
    · refine edges_subset hext _ ?_
      simp [edges]
  next hfixed =>
    obtain ⟨hext, hallocas', hargs⟩ := harguments hs₁ h
    refine ⟨fun I hI hop => ?_, hargs, fun hvar => absurd hvar hfixed⟩
    obtain ⟨i, hlt, hi⟩ := hall I hI hop
    refine ⟨i, ?_, hext.locals _ i hi⟩
    rw [hallocas', hv₁.length]
    exact hlt

/-! ## Whole functions -/

/-- The visits of some instructions record what they do. -/
theorem visits_record {body : List (Instruction GV)} (hv : v.VarArgs.isSome = F.type.isVarArg)
    (h : body.foldlM (fun v I => v.visit M F I) v = .ok v') :
    v.Extends Set.univ v' ∧ ∀ I ∈ body, Records M F v' I := by
  induction body generalizing v with
  | nil =>
    obtain rfl := Except.ok.inj h
    exact ⟨.refl _, by simp⟩
  | cons I body ih =>
    rw [List.foldlM_cons] at h
    obtain ⟨v₁, hstep, h⟩ := bind_ok h
    obtain ⟨hext, hrecords⟩ := visit_records hv hstep
    obtain ⟨hext', hall⟩ := ih (hext.VarArgs ▸ hv) h
    exact ⟨hext.trans hext', List.forall_mem_cons.mpr ⟨hrecords.mono hext', hall⟩⟩

/-- **The edges of a function tell what it is given and what each of its instructions does.** -/
theorem run_records (h : run M F = .ok v) : Receives F v ∧ ∀ I ∈ F.body, Records M F v I := by
  obtain ⟨v₁, hnew, h⟩ := bind_ok h
  obtain ⟨v₁', hnew', hv₁⟩ := new_spec M F
  obtain rfl := Except.ok.inj (hnew'.symm.trans hnew)
  obtain ⟨hext, hall⟩ := visits_record hv₁.VarArgs h
  exact ⟨(new_receives M hnew).mono hext (visits_shaped (new_shaped hnew) h).NumAllocas, hall⟩

/-- A function has the model list of variable arguments exactly if it is variadic. -/
theorem run_VarArgs (h : run M F = .ok v) : v.VarArgs.isSome = F.type.isVarArg := by
  obtain ⟨v₁, hnew, h⟩ := bind_ok h
  obtain ⟨v₁', hnew', hv₁⟩ := new_spec M F
  obtain rfl := Except.ok.inj (hnew'.symm.trans hnew)
  rw [(visits_record hv₁.VarArgs h).1.VarArgs, hv₁.VarArgs]

end EdgeVisitor

/-! ## Initializers -/

variable {M}

theorem emitInitializer_grows {FW FW' : Writer GV} {GVar : GlobalVariable GV}
    (h : emitInitializer M FW GVar = .ok FW') : FW.Grows Set.univ FW' := by
  unfold emitInitializer at h
  split at h
  · exact Except.ok.inj h ▸ .refl FW
  split at h
  · exact Except.ok.inj h ▸ .refl FW
  next c _ _ =>
    obtain ⟨V, FW₁, hV, hassigns, -⟩ := constantNode_spec (M := M) c FW
    rw [hV, ok_bind] at h
    cases V with
    | none => exact Except.ok.inj h ▸ hassigns.mono (Set.subset_univ _)
    | some n =>
      obtain ⟨T, FW₂, hT, hsymbol, hmatches⟩ :=
        constantNode_spec (M := M) (.GlobalValue GVar.symbol) FW₁
      simp only [Option.isNone_some, Bool.false_eq_true, if_false, hT, ok_bind] at h
      cases T with
      | none => cases h
      | some t =>
        obtain rfl := Except.ok.inj h
        exact (hassigns.trans hsymbol).mono (Set.subset_univ _) |>.trans
          (FW₂.grows_addEdge (Set.mem_univ _) t n 0)

theorem Writer.Grows.edges_subset {S : Set EdgeKind} {FW FW' : Writer GV} (h : FW.Grows S FW')
    (kind : EdgeKind) : Edges.edges FW.ops kind ⊆ Edges.edges FW'.ops kind := by
  obtain ⟨more, hops⟩ := h.ops
  rw [← hops, Edges.edges_append]
  exact List.subset_append_left _ _

/-- The store of an initializer is from a node that the symbols of the constant are assigned to. -/
theorem emitInitializer_stores {FW FW' : Writer GV} {GVar : GlobalVariable GV}
    (h : emitInitializer M FW GVar = .ok FW') (hwritten : written GVar = true) {c : Constant GV}
    (hc : c ∈ GVar.initializer) {s : GV} (hs : s ∈ c.symbols M) : ∃ n idx,
      (.sym (M.getAliaseeObject GVar.symbol), n, idx) ∈ edges FW'.ops .Store ∧
        Path (assignments FW'.ops) (.sym s) n := by
  have hskip : (GVar.isExternallyInitialized || "llvm.".isPrefixOf GVar.name) = false := by
    simpa [written] using hwritten
  obtain ⟨N, FW₁, es, hN, hcovers⟩ := constantNode_covers (M := M) c FW
  obtain ⟨n, rfl⟩ : ∃ n, N = some n := Option.ne_none_iff_exists'.mp fun hnone =>
    List.ne_nil_of_mem hs (hcovers.null.mp hnone)
  have hpath := ((hcovers.node n rfl).2 s).mpr hs
  unfold emitInitializer at h
  rw [Option.mem_def.mp hc] at h
  simp only [hskip, Bool.false_eq_true, if_false, hN, ok_bind, Option.isNone_some, constantNode] at h
  obtain rfl := Except.ok.inj h
  refine ⟨n, 0, ?_, hpath.mono fun e he => ?_⟩
  · rw [Edges.edges_append]
    exact List.mem_append_right _ (by simp [edges])
  · rw [assignments_append]
    refine List.mem_append_left _ ?_
    show e ∈ assignments (FW₁.ops ++ _)
    rw [assignments_append, hcovers.assigns]
    exact List.mem_append_left _ (List.mem_append_right _ he)

/-- **What a variable is initialized with is recorded**: a store to it, of a node that the symbols
of the constant are assigned to. -/
theorem emitInitializers_records {comdat : Option String} {FW : Writer GV}
    (h : emitInitializers M comdat = .ok FW) {GVar : GlobalVariable GV}
    (hGVar : GVar ∈ M.global_variables) (hcomdat : GVar.comdat = comdat)
    (hwritten : written GVar = true) {c : Constant GV} (hc : c ∈ GVar.initializer) {s : GV}
    (hs : s ∈ c.symbols M) : ∃ n idx,
      (.sym (M.getAliaseeObject GVar.symbol), n, idx) ∈ edges FW.ops .Store ∧
        Path (assignments FW.ops) (.sym s) n := by
  obtain ⟨before, after, hsplit⟩ := List.append_of_mem
    (List.mem_filter.mpr ⟨hGVar, decide_eq_true hcomdat⟩ :
      GVar ∈ M.global_variables.filter fun GVar => GVar.comdat = comdat)
  unfold emitInitializers at h
  rw [hsplit, List.foldlM_append] at h
  obtain ⟨FW₁, -, h⟩ := bind_ok h
  rw [List.foldlM_cons] at h
  obtain ⟨FW₂, hone, h⟩ := bind_ok h
  have hgrows : FW₂.Grows Set.univ FW := foldlM_keeps (P := FW₂.Grows Set.univ)
    (fun _ hFW _ _ _ hstep => hFW.trans (emitInitializer_grows hstep)) (.refl FW₂) h
  obtain ⟨n, idx, hstore, hpath⟩ := emitInitializer_stores hone hwritten hc hs
  exact ⟨n, idx, hgrows.edges_subset .Store hstore,
    hpath.mono (List.map_subset _ (hgrows.edges_subset .Assign))⟩

end
end Bracelet.Reachability
