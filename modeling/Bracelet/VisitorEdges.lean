import Bracelet.VisitorNodes

/-!
# The visits of instructions

What a visit does, instruction by instruction: which edges it adds between the nodes of
which operands (`NodeAt`, `Added`), and when it stops the pass.
-/
namespace Bracelet.Reachability
open Edges (Bytes EdgeKind End Op edges)

namespace EdgeVisitor

section
variable {GV : Type} (M : Module GV) (F : Function GV)

/-! ## Between two states -/

/-- Between the states, the visitor is answered that this is the node of the value. -/
def NodeAt (v v' : EdgeVisitor GV) (V : Value GV) (n : End GV) : Prop :=
  ∃ w w', v.Extends Set.univ w ∧ w.node M F V = .ok (some n, w') ∧ w'.Extends Set.univ v'

/-- Between the states, the edge is added. -/
def Added (v v' : EdgeVisitor GV) (kind : EdgeKind) (t f : End GV) : Prop :=
  ∃ w w' idx, v.Extends Set.univ w ∧ w.addEdge kind (some t) (some f) idx = .ok w' ∧
    w'.Extends Set.univ v'

variable {M F} {S : Set EdgeKind} {v v' w w' : EdgeVisitor GV} {V : Value GV} {n t f : End GV}
  {kind : EdgeKind}

theorem NodeAt.mono (h : NodeAt M F w w' V n) (h₀ : v.Extends S w) (h₁ : w'.Extends S v') :
    NodeAt M F v v' V n := by
  obtain ⟨x, x', hx, hn, hx'⟩ := h
  exact ⟨x, x', h₀.univ.trans hx, hn, hx'.trans h₁.univ⟩

theorem Added.mono (h : Added w w' kind t f) (h₀ : v.Extends S w) (h₁ : w'.Extends S v') :
    Added v v' kind t f := by
  obtain ⟨x, x', idx, hx, hn, hx'⟩ := h
  exact ⟨x, x', idx, h₀.univ.trans hx, hn, hx'.trans h₁.univ⟩

theorem nodeAt_of_node {N : Node GV} (h : v.node M F V = .ok (N, v')) (hN : N = some n) :
    NodeAt M F v v' V n :=
  ⟨v, v', .refl v, hN ▸ h, .refl v'⟩

/-- Asking for the node of a value that has one. -/
theorem node_some (v : EdgeVisitor GV) (V : Value GV) (hV : V.shape M ≠ .null) : ∃ n v',
    v.node M F V = .ok (some n, v') ∧ v.Extends {.Assign} v' ∧ NodeAt M F v v' V n := by
  obtain ⟨N, v', hnode, hext, hanswer⟩ := v.node_spec (M := M) (F := F) V
  obtain ⟨n, rfl⟩ := hanswer.exists_some hV
  exact ⟨n, v', hnode, hext, nodeAt_of_node hnode rfl⟩

/-- Asking for the node of a value that has none. -/
theorem node_none (v : EdgeVisitor GV) (V : Value GV) (hV : V.shape M = .null) : ∃ v',
    v.node M F V = .ok (none, v') ∧ v.Extends {.Assign} v' := by
  obtain ⟨N, v', hnode, hext, hanswer⟩ := v.node_spec (M := M) (F := F) V
  obtain rfl := hanswer.isNone.mpr hV
  exact ⟨v', hnode, hext⟩

/-- Adding an edge between two nodes. -/
theorem addEdge_spec (v : EdgeVisitor GV) (kind : EdgeKind) (t f : End GV) (idx : UInt32) :
    ∃ v', v.addEdge kind (some t) (some f) idx = .ok v' ∧ v.Extends {kind} v' ∧
      Added v v' kind t f :=
  ⟨_, rfl, v.extends_addEdge (Set.mem_singleton _) t f idx, v, _, idx, .refl v, rfl, .refl _⟩

/-! ## The edges of an instruction -/

/-- Between the states, an edge of the kind is added from a node of one value to a node of
another. -/
def Linked (M : Module GV) (F : Function GV) (v v' : EdgeVisitor GV) (kind : EdgeKind)
    (To From : Value GV) : Prop :=
  ∃ t f, NodeAt M F v v' To t ∧ NodeAt M F v v' From f ∧ Added v v' kind t f

theorem Linked.mono {To From : Value GV} (h : Linked M F w w' kind To From) (h₀ : v.Extends S w)
    (h₁ : w'.Extends S v') : Linked M F v v' kind To From := by
  obtain ⟨t, f, ht, hf, hadd⟩ := h
  exact ⟨t, f, ht.mono h₀ h₁, hf.mono h₀ h₁, hadd.mono h₀ h₁⟩

theorem shape_local (V : LocalValue) : (Value.Local V : Value GV).shape M ≠ .null := by
  simp [Value.shape]

theorem addAssignEdge_spec (v : EdgeVisitor GV) (X : LocalValue) (V : Value GV) : ∃ v',
    v.addAssignEdge M F (.Local X) V = .ok v' ∧ v.Extends {.Assign} v' ∧
      (V.shape M ≠ .null → Linked M F v v' .Assign (.Local X) V) := by
  unfold addAssignEdge
  by_cases hV : V.shape M = .null
  · obtain ⟨v', hnode, hext⟩ := v.node_none (F := F) V hV
    exact ⟨v', by simp [hnode, pure, Except.pure], hext, fun h => absurd hV h⟩
  obtain ⟨f, v₁, hf, hext₁, hatf⟩ := v.node_some (F := F) V hV
  obtain ⟨t, v₂, ht, hext₂, hatt⟩ := v₁.node_some (M := M) (F := F) (.Local X) (shape_local X)
  obtain ⟨v', hadd, hext₃, hadded⟩ := v₂.addEdge_spec .Assign t f 0
  refine ⟨v', ?_, (hext₁.trans hext₂).trans hext₃, fun _ => ⟨t, f, ?_, ?_, ?_⟩⟩
  · simp [hf, ht, hadd]
  · exact hatt.mono hext₁ hext₃
  · exact hatf.mono (.refl v) (hext₂.trans hext₃)
  · exact hadded.mono (hext₁.trans hext₂) (.refl v')

theorem addLoadEdge_spec (v : EdgeVisitor GV) (X : LocalValue) (P : Value GV) : ∃ v',
    v.addLoadEdge M F (.Local X) P = .ok v' ∧ v.Extends {.Assign, .Load} v' ∧
      (P.shape M ≠ .null → Linked M F v v' .Load (.Local X) P) := by
  unfold addLoadEdge
  by_cases hP : P.shape M = .null
  · obtain ⟨v', hnode, hext⟩ := v.node_none (F := F) P hP
    exact ⟨v', by simp [hnode, pure, Except.pure], hext.mono (by simp), fun h => absurd hP h⟩
  obtain ⟨f, v₁, hf, hext₁, hatf⟩ := v.node_some (F := F) P hP
  obtain ⟨t, v₂, ht, hext₂, hatt⟩ := v₁.node_some (M := M) (F := F) (.Local X) (shape_local X)
  obtain ⟨v', hadd, hext₃, hadded⟩ := v₂.addEdge_spec .Load t f 0
  have hnodes : v.Extends {.Assign, .Load} v₂ := (hext₁.trans hext₂).mono (by simp)
  refine ⟨v', ?_, hnodes.trans (hext₃.mono (by simp)), fun _ => ⟨t, f, ?_, ?_, ?_⟩⟩
  · simp [hf, ht, hadd]
  · exact hatt.mono hext₁.univ hext₃.univ
  · exact hatf.mono (.refl v) (hext₂.univ.trans hext₃.univ)
  · exact hadded.mono (hext₁.trans hext₂) (.refl v')

theorem addStoreEdge_spec (v : EdgeVisitor GV) (P V : Value GV) : ∃ v',
    v.addStoreEdge M F P V = .ok v' ∧ v.Extends {.Assign, .Store} v' ∧
      (P.shape M ≠ .null → V.shape M ≠ .null → Linked M F v v' .Store P V) := by
  unfold addStoreEdge
  obtain ⟨FromN, v₁, hFrom, hext₁, hans₁⟩ := v.node_spec (M := M) (F := F) V
  obtain ⟨ToN, v₂, hTo, hext₂, hans₂⟩ := v₁.node_spec (M := M) (F := F) P
  have hnodes : v.Extends {.Assign, .Store} v₂ := (hext₁.trans hext₂).mono (by simp)
  cases FromN with
  | none =>
    refine ⟨v₂, ?_, hnodes, fun _ hV => absurd (hans₁.isNone.mp rfl) hV⟩
    simp [hFrom, hTo, pure, Except.pure]
  | some f =>
    cases ToN with
    | none =>
      refine ⟨v₂, ?_, hnodes, fun hP _ => absurd (hans₂.isNone.mp rfl) hP⟩
      simp [hFrom, hTo, pure, Except.pure]
    | some t =>
      obtain ⟨v', hadd, hext₃, hadded⟩ := v₂.addEdge_spec .Store t f 0
      refine ⟨v', ?_, hnodes.trans (hext₃.mono (by simp)), fun _ _ => ⟨t, f, ?_, ?_, ?_⟩⟩
      · simp [hFrom, hTo, hadd]
      · exact (nodeAt_of_node hTo rfl).mono hext₁.univ hext₃.univ
      · exact (nodeAt_of_node hFrom rfl).mono (.refl v) (hext₂.univ.trans hext₃.univ)
      · exact hadded.mono (hext₁.trans hext₂) (.refl v')

/-- Each of the values is assigned. -/
theorem addAssignEdges_spec (v : EdgeVisitor GV) (X : LocalValue) (Vs : List (Value GV)) : ∃ v',
    v.addAssignEdges M F (.Local X) Vs = .ok v' ∧ v.Extends {.Assign} v' ∧
      ∀ V ∈ Vs, V.shape M ≠ .null → Linked M F v v' .Assign (.Local X) V := by
  unfold addAssignEdges
  induction Vs generalizing v with
  | nil => exact ⟨v, rfl, .refl v, by simp⟩
  | cons V Vs ih =>
    obtain ⟨v₁, hV, hext₁, hlinked⟩ := v.addAssignEdge_spec (M := M) (F := F) X V
    obtain ⟨v', hVs, hext₂, hall⟩ := ih v₁
    refine ⟨v', ?_, hext₁.trans hext₂, fun W hW hshape => ?_⟩
    · rw [List.foldlM_cons, hV]
      exact hVs
    · rcases List.mem_cons.mp hW with rfl | hW
      · exact (hlinked hshape).mono (.refl v) hext₂
      · exact (hall W hW hshape).mono hext₁ (.refl v')

/-- A transfer of a value between two addresses. -/
theorem transfer_spec (v : EdgeVisitor GV) (Name : String) {Src Dst : Value GV}
    (hSrc : Src.shape M ≠ .null) (hDst : Dst.shape M ≠ .null) : ∃ v',
    v.transfer M F Name Src Dst = .ok v' ∧ v.Extends {.Assign, .Load, .Store} v' ∧
      ∃ tmp src dst, NodeAt M F v v' Src src ∧ NodeAt M F v v' Dst dst ∧
        Added v v' .Load tmp src ∧ Added v v' .Store dst tmp := by
  unfold transfer
  have hext₀ : v.Extends {.Assign, .Load, .Store} _ := v.extends_freshLocal (Edges.ascii Name)
  obtain ⟨src, v₁, hsrc, hext₁, hatsrc⟩ :=
    (v.freshLocal (Edges.ascii Name)).2.node_some (F := F) Src hSrc
  obtain ⟨v₂, hload, hext₂, haddload⟩ := v₁.addEdge_spec .Load (.loc v.FW.num_locals) src 0
  obtain ⟨dst, v₃, hdst, hext₃, hatdst⟩ := v₂.node_some (F := F) Dst hDst
  obtain ⟨v', hstore, hext₄, haddstore⟩ := v₃.addEdge_spec .Store dst (.loc v.FW.num_locals) 0
  have hbefore : v.Extends {.Assign, .Load, .Store} v₂ :=
    (hext₀.trans (hext₁.mono (by simp))).trans (hext₂.mono (by simp))
  have hafter : v₂.Extends {.Assign, .Load, .Store} v' :=
    (hext₃.mono (by simp)).trans (hext₄.mono (by simp))
  refine ⟨v', ?_, hbefore.trans hafter, .loc v.FW.num_locals, src, dst, ?_, ?_, ?_, ?_⟩
  · simp only [freshLocal, Writer.freshLocal] at hsrc ⊢
    simp [hsrc, hload, hdst, hstore]
  · exact hatsrc.mono hext₀ ((hext₂.mono (by simp)).trans hafter)
  · exact hatdst.mono hbefore (hext₄.mono (by simp))
  · exact haddload.mono (hext₀.trans (hext₁.mono (by simp))) hafter
  · exact haddstore.mono (hbefore.trans (hext₃.mono (by simp))) (.refl v')

/-- A transfer stops the pass at an address without a node. -/
theorem transfer_null (v : EdgeVisitor GV) (Name : String) {Src Dst : Value GV}
    (h : Src.shape M = .null ∨ Dst.shape M = .null) :
    v.transfer M F Name Src Dst = .error .nullNode := by
  unfold transfer
  by_cases hSrc : Src.shape M = .null
  · obtain ⟨v₁, hsrc, -⟩ := (v.freshLocal (Edges.ascii Name)).2.node_none (F := F) Src hSrc
    simp only [freshLocal, Writer.freshLocal] at hsrc ⊢
    simp [hsrc, addEdge_none_right]
  have hDst := h.resolve_left hSrc
  obtain ⟨src, v₁, hsrc, -, -⟩ :=
    (v.freshLocal (Edges.ascii Name)).2.node_some (F := F) Src hSrc
  obtain ⟨v₂, hload, -, -⟩ := v₁.addEdge_spec .Load (.loc v.FW.num_locals) src 0
  obtain ⟨v₃, hdst, -⟩ := v₂.node_none (F := F) Dst hDst
  simp only [freshLocal, Writer.freshLocal] at hsrc ⊢
  simp [hsrc, hload, hdst, addEdge_none_left]

theorem visitReturnInst_spec (v : EdgeVisitor GV) (op : Option (Value GV)) : ∃ v',
    v.visitReturnInst M F op = .ok v' ∧ v.Extends {.Assign, .Return} v' ∧
      ∀ V ∈ op, V.shape M ≠ .null →
        ∃ n, NodeAt M F v v' V n ∧ Added v v' .Return (.sym F.symbol) n := by
  cases op with
  | none => exact ⟨v, rfl, .refl v, by simp⟩
  | some V =>
    unfold visitReturnInst
    by_cases hV : V.shape M = .null
    · obtain ⟨v', hnode, hext⟩ := v.node_none (F := F) V hV
      refine ⟨v', by simp [hnode, pure, Except.pure], hext.mono (by simp), ?_⟩
      intro W hW hshape
      exact absurd ((Option.mem_some.mp hW) ▸ hV) hshape
    obtain ⟨n, v₁, hn, hext₁, hatn⟩ := v.node_some (F := F) V hV
    have hext₂ : v₁.Extends {.Assign, .Return} _ :=
      extends_of_grows (v₁.FW.grows_symbol F.symbol)
    obtain ⟨v', hadd, hext₃, hadded⟩ :=
      addEdge_spec { v₁ with FW := (v₁.FW.symbol F.symbol).2 } .Return (.sym F.symbol) n 0
    have hbefore := (hext₁.mono (by simp)).trans hext₂
    refine ⟨v', ?_, hbefore.trans (hext₃.mono (by simp)), fun W hW _ => ⟨n, ?_, ?_⟩⟩
    · simp only [hn, ok_bind]
      exact hadd
    · obtain rfl := Option.mem_some.mp hW
      exact hatn.mono (.refl v) (hext₂.trans (hext₃.mono (by simp)))
    · exact hadded.mono hbefore (.refl v')

/-! ## Calls -/

/-- The local of a call: that of its value, or one of its own if it returns nothing. -/
structure CallLocal (v v' : EdgeVisitor GV) (I : Instruction GV) (i : Nat) : Prop where
  own : Dict.get? v'.Locals (.Instruction I.id) = some i ∨
    v.FW.num_locals ≤ i ∧ ∀ V, Dict.get? v'.Locals V ≠ some i
  lt : i < v'.FW.num_locals

theorem CallLocal.mono {I : Instruction GV} {i : Nat} (h : CallLocal v w I i)
    (hext : w.Extends S v') : CallLocal v v' I i := by
  refine ⟨h.own.imp (hext.locals _ i) fun ⟨hle, hfree⟩ => ⟨hle, fun V hV => ?_⟩,
    h.lt.trans_le hext.FW.num_locals⟩
  rcases hext.fresh V i hV with hV | hlt
  · exact hfree V hV
  · exact absurd (h.lt.trans_le hlt) (lt_irrefl i)

theorem callNode_spec (v : EdgeVisitor GV) (I : Instruction GV) (call : CallBase GV) : ∃ i v',
    v.callNode M F I call = .ok (some (.loc i), v') ∧ v.Extends {.Assign} v' ∧
      (v.Numbered → CallLocal v v' I i) := by
  unfold callNode
  split
  next hvoid =>
    refine ⟨v.FW.num_locals, _, rfl, ?_, fun hv => ⟨Or.inr ⟨le_rfl, fun V hV => ?_⟩,
      Nat.lt_succ_self _⟩⟩
    · have hext : v.Extends {.Assign} { v with CallVoidNumber := v.CallVoidNumber + 1 } :=
        ⟨.refl _, fun _ _ h => h, fun _ _ h => Or.inl h, rfl, fun hv => ⟨hv.lt, hv.injective⟩⟩
      exact hext.trans (extends_freshLocal _ _)
    · exact absurd (hv.lt V _ hV) (lt_irrefl _)
  next hvalue =>
    obtain ⟨N, v', hnode, hext, i, rfl, hi⟩ :=
      v.node_spec (M := M) (F := F) (.Local (.Instruction I.id))
    exact ⟨i, v', hnode, hext, fun hv => ⟨Or.inl hi, (hext.numbered hv).lt _ i hi⟩⟩

theorem slot_lt_nargs (call : CallBase GV) {Idx : Nat}
    (h : call.isVarArg = true ∨ Idx < call.FTy.getNumParams) :
    UInt32.ofNat (call.slot Idx) < call.nargs := by
  have hbounded : call.FTy.getNumParams + 1 < 2 ^ 32 := call.FTy.bounded
  have hlt : call.slot Idx < if call.isVarArg then call.FTy.getNumParams + 1
      else call.FTy.getNumParams := by
    unfold CallBase.slot
    split
    · exact Nat.lt_succ_of_le (min_le_right _ _)
    next hfixed => exact h.resolve_left hfixed
  have hle : (if call.isVarArg then call.FTy.getNumParams + 1 else call.FTy.getNumParams) <
      2 ^ 32 := by
    split <;> omega
  unfold CallBase.nargs
  rw [UInt32.lt_iff_toNat_lt, UInt32.toNat_ofNat', UInt32.toNat_ofNat', Nat.mod_eq_of_lt hle,
    Nat.mod_eq_of_lt (hlt.trans hle)]
  exact hlt

/-- **Every argument that has a node is supplied**, to a slot below the number of
arguments of the call. -/
theorem supplyArguments_spec (call : CallBase GV) (i : Nat) {Idx : Nat} {args : List (Value GV)}
    (h : call.isVarArg = true ∨ Idx + args.length ≤ call.FTy.getNumParams) (v : EdgeVisitor GV) :
    ∃ v' more, supplyArguments M F call (some (.loc i)) Idx args v = .ok v' ∧
      v.Extends {.Assign, .ArgumentSupply} v' ∧
      edges v'.FW.ops .ArgumentSupply = edges v.FW.ops .ArgumentSupply ++ more ∧
      ∀ e ∈ more, e.1 = .loc i ∧ e.2.2 < call.nargs := by
  induction args generalizing Idx v with
  | nil => exact ⟨v, [], rfl, .refl v, by simp, by simp⟩
  | cons A args ih =>
    simp only [List.length_cons] at h
    have hslot := slot_lt_nargs call (h.imp_right fun h => (by omega : Idx < call.FTy.getNumParams))
    have hcheck : ¬ (!call.isVarArg && decide (call.FTy.getNumParams ≤ Idx)) = true := by
      rcases h with h | h
      · simp [h]
      · simp only [Bool.and_eq_true, decide_eq_true_eq, not_and, not_le]
        omega
    have hrest := h.imp_right fun h => (by omega : Idx + 1 + args.length ≤ call.FTy.getNumParams)
    obtain ⟨N, v₁, hN, hext₁, -⟩ := v.node_spec (M := M) (F := F) A
    have hsame := hext₁.FW.edges .ArgumentSupply (by simp)
    unfold supplyArguments
    simp only [if_neg hcheck, hN, ok_bind]
    cases N with
    | none =>
      obtain ⟨v', more, hargs, hext₂, hedges, hmore⟩ := ih hrest v₁
      exact ⟨v', more, hargs, (hext₁.mono (by simp)).trans hext₂, by rw [hedges, hsame], hmore⟩
    | some n =>
      obtain ⟨v', more, hargs, hext₃, hedges, hmore⟩ := ih hrest
        { v₁ with FW := { v₁.FW with ops := v₁.FW.ops ++
          [.addEdge .ArgumentSupply (.loc i) n (UInt32.ofNat (call.slot Idx))] } }
      refine ⟨v', (.loc i, n, UInt32.ofNat (call.slot Idx)) :: more, hargs,
        (hext₁.mono (by simp)).trans ((v₁.extends_addEdge (by simp) _ n _).trans hext₃), ?_, ?_⟩
      · rw [hedges, Edges.edges_append, hsame, List.append_assoc]
        rfl
      · rw [List.forall_mem_cons]
        exact ⟨⟨rfl, hslot⟩, hmore⟩

/-- Functions are called through symbols. -/
theorem callee_of_calledFunction {call : CallBase GV} {decl : FunctionDecl}
    (h : call.getCalledFunction M = some decl) :
    ∃ G, call.CalledOperand = .Constant (.GlobalValue G) ∧ M.getFunction G = some decl ∧
      decl.type = call.FTy := by
  unfold CallBase.getCalledFunction at h
  split at h
  next G hG =>
    obtain ⟨hdecl, htype⟩ := Option.filter_eq_some_iff.mp h
    exact ⟨G, hG, hdecl, of_decide_eq_true htype⟩
  next => cases h

theorem callee_of_callsDlsym {call : CallBase GV} (h : call.callsDlsym M = true) :
    (call.Callee M).shape M ≠ .null := by
  obtain ⟨decl, hdecl, -⟩ := Option.map_eq_some_iff.mp (eq_of_beq h)
  obtain ⟨G, hG, -, -⟩ := callee_of_calledFunction hdecl
  simp [CallBase.Callee, hG, Value.shape, Constant.shape]

theorem dlsymCall_spec (v : EdgeVisitor GV) (I : Instruction GV) {call : CallBase GV}
    (h : call.callsDlsym M = true) : ∃ v', v.visitOrdinaryCall M F I call = .ok v' ∧
      v.Extends {.Assign, .DlsymPagePointer} v' := by
  obtain ⟨i, v₁, hnode, hext₁, -⟩ := v.callNode_spec (M := M) (F := F) I call
  have hext₂ : v₁.Extends {.Assign, .DlsymPagePointer} _ :=
    extends_of_grows (v₁.FW.grows_symbol (M.PagePtr F.symbol I.id))
  obtain ⟨v', hadd, hext₃, -⟩ :=
    addEdge_spec { v₁ with FW := (v₁.FW.symbol (M.PagePtr F.symbol I.id)).2 } .DlsymPagePointer
      (.loc i) (.sym (M.PagePtr F.symbol I.id)) 0
  refine ⟨v', ?_, ((hext₁.mono (by simp)).trans hext₂).trans (hext₃.mono (by simp))⟩
  unfold visitOrdinaryCall
  simp only [hnode, ok_bind]
  rw [if_pos h]
  exact hadd

/-- The arguments of a call fit its type. -/
theorem args_fit (call : CallBase GV) :
    call.isVarArg = true ∨ 0 + call.args.length ≤ call.FTy.getNumParams := by
  unfold CallBase.isVarArg
  cases hvar : call.FTy.isVarArg with
  | false =>
    right
    rw [Nat.zero_add, call.fixed hvar]
    exact le_rfl
  | true =>
    rcases Nat.eq_zero_or_pos call.args.length with h0 | hpos
    · right
      omega
    · left
      simp [hpos]

/-- **A call is recorded with its node, its callee and its number of arguments.** -/
theorem ordinaryCall_spec (v : EdgeVisitor GV) (I : Instruction GV) {call : CallBase GV}
    (h : call.callsDlsym M = false) (hcallee : (call.Callee M).shape M ≠ .null) :
    ∃ v' i n more, v.visitOrdinaryCall M F I call = .ok v' ∧
      v.Extends {.Assign, .ArgumentSupply, .Call} v' ∧ NodeAt M F v v' (call.Callee M) n ∧
      edges v'.FW.ops .Call = edges v.FW.ops .Call ++ [(.loc i, n, call.nargs)] ∧
      edges v'.FW.ops .ArgumentSupply = edges v.FW.ops .ArgumentSupply ++ more ∧
      (∀ e ∈ more, e.1 = .loc i ∧ e.2.2 < call.nargs) ∧
      (v.Numbered → CallLocal v v' I i) := by
  obtain ⟨i, v₁, hnode, hext₁, hi⟩ := v.callNode_spec (M := M) (F := F) I call
  obtain ⟨v₂, more, hargs, hext₂, hsupply, hmore⟩ :=
    supplyArguments_spec (M := M) (F := F) call i (args_fit call) v₁
  obtain ⟨n, v₃, hn, hext₃, hatn⟩ := v₂.node_some (F := F) _ hcallee
  have hadd := v₃.addEdge_some .Call (.loc i) n call.nargs
  have hext₄ : v₃.Extends {.Call} _ := v₃.extends_addEdge (Set.mem_singleton _) (.loc i) n call.nargs
  have hbefore : v.Extends {.Assign, .ArgumentSupply, .Call} v₂ :=
    (hext₁.mono (by simp)).trans (hext₂.mono (Set.insert_subset_insert (by simp)))
  have hafter : v₂.Extends {.Assign, .ArgumentSupply, .Call} _ :=
    (hext₃.mono (by simp)).trans (hext₄.mono (by simp))
  refine ⟨_, i, n, more, ?_, hbefore.trans hafter, hatn.mono hbefore.univ hext₄.univ, ?_, ?_,
    hmore, ?_⟩
  · unfold visitOrdinaryCall
    simp only [hnode, ok_bind, h, hargs, hn]
    exact hadd
  · rw [Edges.edges_append, hext₃.FW.edges .Call (by simp), hext₂.FW.edges .Call (by simp),
      hext₁.FW.edges .Call (by simp)]
    rfl
  · rw [hext₄.FW.edges .ArgumentSupply (by simp), hext₃.FW.edges .ArgumentSupply (by simp), hsupply,
      hext₁.FW.edges .ArgumentSupply (by simp)]
  · exact fun hv => ((hi hv).mono hext₂.univ).mono hafter.univ

theorem ordinaryCall_null (v : EdgeVisitor GV) (I : Instruction GV) {call : CallBase GV}
    (hcallee : (call.Callee M).shape M = .null) :
    v.visitOrdinaryCall M F I call = .error .nullNode := by
  obtain ⟨i, v₁, hnode, -, -⟩ := v.callNode_spec (M := M) (F := F) I call
  obtain ⟨v₂, -, hargs, -, -, -⟩ := supplyArguments_spec (M := M) (F := F) call i (args_fit call) v₁
  obtain ⟨v₃, hN, -⟩ := v₂.node_none (F := F) _ hcallee
  have h : ¬ call.callsDlsym M = true := fun h => callee_of_callsDlsym h hcallee
  unfold visitOrdinaryCall
  simp only [hnode, ok_bind]
  rw [if_neg h, hargs, ok_bind, hN, ok_bind, addEdge_none_right]

/-! ## Which call it is -/

/-- An intrinsic is given the operands that the visitor reads. -/
theorem operands_le_args (call : CallBase GV) :
    (call.getIntrinsicID M).operands ≤ call.args.length := by
  unfold CallBase.getIntrinsicID
  cases hdecl : call.getCalledFunction M with
  | none => exact Nat.zero_le _
  | some decl =>
    obtain ⟨-, -, -, htype⟩ := callee_of_calledFunction hdecl
    calc decl.IntrinsicID.operands ≤ decl.type.params.length := decl.has_operands
      _ = call.FTy.params.length := by rw [htype]
      _ ≤ call.args.length := call.has_params

/-- Inline assembly is no intrinsic. -/
theorem getIntrinsicID_of_inlineAsm {call : CallBase GV} (h : call.CalledOperand = .InlineAsm) :
    call.getIntrinsicID M = .not_intrinsic := by
  simp [CallBase.getIntrinsicID, CallBase.getCalledFunction, h]

theorem exists_cons_cons {α : Type} {as : List α} (h : 2 ≤ as.length) :
    ∃ a b rest, as = a :: b :: rest := by
  match as, h with
  | a :: b :: rest, _ => exact ⟨a, b, rest, rfl⟩

/-- **What `visitCallBase` does for a call.** -/
theorem visitCallBase_cases (v : EdgeVisitor GV) (I : Instruction GV) (call : CallBase GV) :
    (call.CalledOperand = .InlineAsm ∧ v.visitCallBase M F I call = .ok v) ∨
    (call.CalledOperand ≠ .InlineAsm ∧ call.getIntrinsicID M = .not_intrinsic ∧
      v.visitCallBase M F I call = v.visitOrdinaryCall M F I call) ∨
    (call.getIntrinsicID M = .vastart ∧ ∃ List rest, call.args = List :: rest ∧
      v.visitCallBase M F I call = v.startVarArgs M F List) ∨
    (call.getIntrinsicID M ∈ [.vacopy, .memmove, .memcpy] ∧
      ∃ Name Dst Src rest, call.args = Dst :: Src :: rest ∧
        v.visitCallBase M F I call = v.transfer M F Name Src Dst) ∨
    ((call.getIntrinsicID M = .vaend ∨ ∃ name, call.getIntrinsicID M = .other name) ∧
      v.visitCallBase M F I call = .ok v) := by
  have hargs := operands_le_args (M := M) call
  by_cases hasm : call.CalledOperand = .InlineAsm
  · exact Or.inl ⟨hasm, by simp [visitCallBase, hasm]⟩
  have hvisit : v.visitCallBase M F I call = v.visitCall M F I call := by
    unfold visitCallBase
    split
    next h => exact absurd h hasm
    next => rfl
  right
  rw [hvisit]
  unfold visitCall
  cases hid : call.getIntrinsicID M with
  | not_intrinsic => exact Or.inl ⟨hasm, rfl, rfl⟩
  | vaend => exact Or.inr (Or.inr (Or.inr ⟨Or.inl rfl, rfl⟩))
  | other name => exact Or.inr (Or.inr (Or.inr ⟨Or.inr ⟨name, rfl⟩, rfl⟩))
  | vastart =>
    obtain ⟨List, rest, h⟩ := List.exists_cons_of_length_pos (hargs.trans' (by rw [hid, IntrinsicID.operands]))
    exact Or.inr (Or.inl ⟨rfl, List, rest, h, by rw [h]⟩)
  | vacopy =>
    obtain ⟨Dst, Src, rest, h⟩ := exists_cons_cons (hargs.trans' (by rw [hid, IntrinsicID.operands]))
    exact Or.inr (Or.inr (Or.inl ⟨by simp, _, Dst, Src, rest, h, by rw [h]⟩))
  | memmove =>
    obtain ⟨Dst, Src, rest, h⟩ := exists_cons_cons (hargs.trans' (by rw [hid, IntrinsicID.operands]))
    exact Or.inr (Or.inr (Or.inl ⟨by simp, _, Dst, Src, rest, h, by rw [h]⟩))
  | memcpy =>
    obtain ⟨Dst, Src, rest, h⟩ := exists_cons_cons (hargs.trans' (by rw [hid, IntrinsicID.operands]))
    exact Or.inr (Or.inr (Or.inl ⟨by simp, _, Dst, Src, rest, h, by rw [h]⟩))

/-- `va_start` in a variadic function. -/
theorem startVarArgs_spec (v : EdgeVisitor GV) {VarArgs : Nat} (hv : v.VarArgs = some VarArgs)
    {List : Value GV} (hList : List.shape M ≠ .null) : ∃ v', v.startVarArgs M F List = .ok v' ∧
      v.Extends {.Assign, .Load, .Store} v' := by
  have hext₀ : v.Extends {.Assign, .Load, .Store} _ :=
    v.extends_freshLocal (Edges.ascii "vastart() tmp")
  obtain ⟨v₁, hload, hext₁, -⟩ := (v.freshLocal (Edges.ascii "vastart() tmp")).2.addEdge_spec .Load
    (.loc v.FW.num_locals) (.loc VarArgs) 0
  obtain ⟨n, v₂, hn, hext₂, -⟩ := v₁.node_some (F := F) List hList
  obtain ⟨v', hstore, hext₃, -⟩ := v₂.addEdge_spec .Store n (.loc v.FW.num_locals) 0
  refine ⟨v', ?_, ((hext₀.trans (hext₁.mono (by simp))).trans (hext₂.mono (by simp))).trans
    (hext₃.mono (by simp))⟩
  unfold startVarArgs
  split
  next hnone => cases hnone.symm.trans hv
  next VarArgs' hsome =>
    obtain rfl := Option.some.inj (hsome.symm.trans hv)
    simp only [freshLocal, Writer.freshLocal] at hload ⊢
    simp [hload, hn, hstore]

theorem startVarArgs_null (v : EdgeVisitor GV) {VarArgs : Nat} (hv : v.VarArgs = some VarArgs)
    {List : Value GV} (hList : List.shape M = .null) :
    v.startVarArgs M F List = .error .nullNode := by
  obtain ⟨v₁, hload, -, -⟩ := (v.freshLocal (Edges.ascii "vastart() tmp")).2.addEdge_spec .Load
    (.loc v.FW.num_locals) (.loc VarArgs) 0
  obtain ⟨v₂, hn, -⟩ := v₁.node_none (F := F) List hList
  unfold startVarArgs
  split
  next hnone => cases hnone.symm.trans hv
  next VarArgs' hsome =>
    obtain rfl := Option.some.inj (hsome.symm.trans hv)
    simp only [freshLocal, Writer.freshLocal] at hload ⊢
    simp [hload, hn, addEdge_none_left]

end
end EdgeVisitor
end Bracelet.Reachability
