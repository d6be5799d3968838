import Bracelet.EdgeVisitor
import Bracelet.EdgeStream

/-!
# The nodes of values

What `node` answers is known but for the number of a local (`Shape`): the null node, the
symbol of a global object, or a local.  Asking never stops the pass, and adds no edges but
the assignments that bring the global values of a constant together.
-/
namespace Bracelet.Reachability
open Edges (Bytes EdgeKind End Op edges)

@[simp] theorem ok_bind {α β : Type} (a : α) (f : α → Visited β) :
    (Except.ok a >>= f : Visited β) = f a := rfl

@[simp] theorem error_bind {α β : Type} (e : Abort) (f : α → Visited β) :
    ((Except.error e : Visited α) >>= f) = .error e := rfl

/-! ## Shapes -/

/-- A node, but for the number of a local. -/
inductive Shape (GV : Type)
  | null
  | symbol (GO : GV)
  | loc
  deriving DecidableEq

/-- Two nodes that meet in a constant. -/
def Shape.add {GV : Type} : Shape GV → Shape GV → Shape GV
  | s, .null => s
  | .null, s => s
  | _, _ => .loc

theorem Shape.add_ne_null_left {GV : Type} {s t : Shape GV} (h : s ≠ .null) : s.add t ≠ .null := by
  cases s <;> cases t <;> simp_all [Shape.add]

theorem Shape.add_ne_null_right {GV : Type} {s t : Shape GV} (h : t ≠ .null) : s.add t ≠ .null := by
  cases s <;> cases t <;> simp_all [Shape.add]

section
variable {GV : Type} (M : Module GV)

mutual

def Constant.shape : Constant GV → Shape GV
  | .GlobalValue G => .symbol (M.getAliaseeObject G)
  | .ConstantExpr operands => operandsShape .null operands
  | .ConstantAggregate operands => operandsShape .null operands
  | .ConstantData | .BlockAddress _ | .NoCFIValue _ | .DSOLocalEquivalent _
  | .ConstantPtrAuth _ => .null

def operandsShape : Shape GV → List (Constant GV) → Shape GV
  | s, [] => s
  | s, O :: operands => operandsShape (s.add (Constant.shape O)) operands

end

def Value.shape : Value GV → Shape GV
  | .Constant c => c.shape M
  | .Local _ => .loc
  | .InlineAsm => .null

/-! ## What a writer is told -/

/-- From one state of a writer to another: nothing is taken back, and the edges that are
added are of the kinds given. -/
structure Writer.Grows (S : Set EdgeKind) (FW FW' : Writer GV) : Prop where
  ops : FW.ops <+: FW'.ops
  num_locals : FW.num_locals ≤ FW'.num_locals
  edges : ∀ kind ∉ S, edges FW'.ops kind = edges FW.ops kind

/-- Only assignments are added. -/
abbrev Writer.Assigns (FW FW' : Writer GV) : Prop := FW.Grows {.Assign} FW'

variable {M} {S T : Set EdgeKind} {FW FW' FW'' : Writer GV}

theorem Writer.Grows.refl (FW : Writer GV) : FW.Grows S FW :=
  ⟨List.prefix_rfl, le_rfl, fun _ _ => rfl⟩

theorem Writer.Grows.trans (h : FW.Grows S FW') (h' : FW'.Grows S FW'') : FW.Grows S FW'' :=
  ⟨h.ops.trans h'.ops, h.num_locals.trans h'.num_locals,
    fun kind hk => (h'.edges kind hk).trans (h.edges kind hk)⟩

theorem Writer.Grows.mono (hST : S ⊆ T) (h : FW.Grows S FW') : FW.Grows T FW' :=
  ⟨h.ops, h.num_locals, fun kind hk => h.edges kind fun hS => hk (hST hS)⟩

theorem Writer.grows_symbol (FW : Writer GV) (GO : GV) : FW.Grows S (FW.symbol GO).2 :=
  ⟨List.prefix_append _ _, le_rfl, fun kind _ => by simp [Writer.symbol, edges]⟩

theorem Writer.grows_freshLocal (FW : Writer GV) (Name : Bytes) :
    FW.Grows S (FW.freshLocal Name).2 :=
  ⟨List.prefix_append _ _, Nat.le_succ _, fun kind _ => by simp [Writer.freshLocal, edges]⟩

theorem Writer.addEdge_some (FW : Writer GV) (kind : EdgeKind) (t f : End GV) (idx : UInt32) :
    FW.addEdge kind (some t) (some f) idx =
      .ok { FW with ops := FW.ops ++ [.addEdge kind t f idx] } := rfl

theorem Writer.grows_addEdge (FW : Writer GV) {kind : EdgeKind} (hkind : kind ∈ S)
    (t f : End GV) (idx : UInt32) :
    FW.Grows S { FW with ops := FW.ops ++ [.addEdge kind t f idx] } := by
  refine ⟨List.prefix_append _ _, le_rfl, fun k hk => ?_⟩
  have hne : kind ≠ k := fun h => hk (h ▸ hkind)
  simp [edges, hne]

/-- The node has the shape; a local is one of those that were made between the states. -/
def Shape.Matches (FW FW' : Writer GV) : Shape GV → Node GV → Prop
  | .null, N => N = none
  | .symbol GO, N => N = some (.sym GO) ∧ FW.ops.length < FW'.ops.length
  | .loc, N => ∃ i, N = some (.loc i) ∧ FW.num_locals ≤ i ∧ i < FW'.num_locals

theorem Shape.Matches.mono {s : Shape GV} {N : Node GV} {FW₀ FW₁ : Writer GV}
    (h : s.Matches FW FW' N) (h₀ : FW₀.Grows S FW) (h₁ : FW'.Grows S FW₁) :
    s.Matches FW₀ FW₁ N := by
  cases s with
  | null => exact h
  | symbol GO =>
    exact ⟨h.1, h₀.ops.length_le.trans_lt (h.2.trans_le h₁.ops.length_le)⟩
  | loc =>
    obtain ⟨i, hi, hlo, hhi⟩ := h
    exact ⟨i, hi, h₀.num_locals.trans hlo, hhi.trans_le h₁.num_locals⟩

/-- A node is null exactly when its shape is. -/
theorem Shape.Matches.isNone {s : Shape GV} {N : Node GV} (h : s.Matches FW FW' N) :
    N = none ↔ s = .null := by
  cases s with
  | null => exact iff_of_true h rfl
  | symbol GO => simp [h.1]
  | loc =>
    obtain ⟨i, rfl, -, -⟩ := h
    simp

theorem Shape.Matches.exists_some {s : Shape GV} {N : Node GV} (h : s.Matches FW FW' N)
    (hs : s ≠ .null) : ∃ n, N = some n :=
  Option.ne_none_iff_exists'.mp fun hN => hs (h.isNone.mp hN)

/-! ## Constants -/

@[simp] theorem Shape.add_null (s : Shape GV) : s.add .null = s := by
  cases s <;> rfl

@[simp] theorem Shape.null_add (s : Shape GV) : Shape.null.add s = s := by
  cases s <;> rfl

theorem Shape.add_of_ne_null {s t : Shape GV} (hs : s ≠ .null) (ht : t ≠ .null) :
    s.add t = .loc := by
  cases s <;> cases t <;> first | rfl | contradiction

/-- Adding a node to a builder that has gathered the nodes of some operands. -/
theorem MultiConstantNodeBuilder.add_spec {B : MultiConstantNodeBuilder GV} {N : Node GV}
    {s t : Shape GV} {FW₀ FW₁ : Writer GV} (h₀ : FW₀.Assigns FW₁) (h₁ : FW₁.Assigns FW)
    (hB : s.Matches FW₀ FW₁ B.Out) (hfresh : B.FreshNodeCreated = true → s = .loc)
    (hN : t.Matches FW₁ FW N) :
    ∃ B' FW', B.add FW N = .ok (B', FW') ∧ FW.Assigns FW' ∧ (s.add t).Matches FW₀ FW' B'.Out ∧
      (B'.FreshNodeCreated = true → s.add t = .loc) := by
  by_cases ht : t = .null
  · subst ht
    obtain rfl : N = none := hN
    rw [Shape.add_null]
    exact ⟨B, FW, rfl, .refl FW, hB.mono (.refl _) h₁, hfresh⟩
  obtain ⟨n, rfl⟩ := hN.exists_some ht
  by_cases hs : s = .null
  · subst hs
    have hOut : B.Out = none := hB
    rw [Shape.null_add]
    refine ⟨{ B with Out := some n }, FW, by simp [add, hOut], .refl FW, hN.mono h₀ (.refl _), ?_⟩
    exact fun hB' => absurd (hfresh hB') (by simp)
  obtain ⟨out, hOut⟩ := hB.exists_some hs
  rw [Shape.add_of_ne_null hs ht]
  by_cases hcreated : B.FreshNodeCreated = true
  · obtain rfl := hfresh hcreated
    have hassign : FW.Assigns _ := FW.grows_addEdge (Set.mem_singleton _) out n 0
    refine ⟨B, _, ?_, hassign, hB.mono (.refl _) (h₁.trans hassign), fun _ => rfl⟩
    simp [add, hOut, hcreated, Writer.addEdge_some, pure, Except.pure]
  · have hlocal : FW.Assigns _ := FW.grows_freshLocal (Edges.ascii "<bracelet constant>")
    have hfirst := hlocal.trans (Writer.grows_addEdge _ (Set.mem_singleton _) (.loc FW.num_locals) out 0)
    have hboth := hfirst.trans
      (Writer.grows_addEdge _ (Set.mem_singleton _) (.loc FW.num_locals) n 0)
    refine ⟨⟨true, some (.loc FW.num_locals)⟩, _, ?_, hboth, ⟨FW.num_locals, rfl, ?_, ?_⟩,
      fun _ => rfl⟩
    · simp only [add, hOut, hcreated, Writer.freshLocal, Writer.addEdge_some, ok_bind]
      rfl
    · exact (h₀.trans h₁).num_locals
    · exact Nat.lt_succ_self _

mutual

/-- **Asking for the node of a constant.** -/
theorem constantNode_spec : ∀ (c : Constant GV) (FW : Writer GV), ∃ N FW',
    constantNode M c FW = .ok (N, FW') ∧ FW.Assigns FW' ∧ (c.shape M).Matches FW FW' N
  | .GlobalValue G, FW => by
    refine ⟨(FW.symbol (M.getAliaseeObject G)).1, (FW.symbol (M.getAliaseeObject G)).2,
      by rw [constantNode], FW.grows_symbol _, ?_⟩
    rw [Constant.shape]
    exact ⟨rfl, by simp [Writer.symbol]⟩
  | .ConstantExpr operands, FW => by
    obtain ⟨B, FW', hadd, hassigns, hmatches⟩ := addOperands_spec operands {} FW FW .null
      (.refl FW) rfl (fun h => nomatch h)
    refine ⟨B.Out, FW', ?_, hassigns, ?_⟩
    · rw [constantNode, hadd]
      rfl
    · rw [Constant.shape]
      exact hmatches
  | .ConstantAggregate operands, FW => by
    obtain ⟨B, FW', hadd, hassigns, hmatches⟩ := addOperands_spec operands {} FW FW .null
      (.refl FW) rfl (fun h => nomatch h)
    refine ⟨B.Out, FW', ?_, hassigns, ?_⟩
    · rw [constantNode, hadd]
      rfl
    · rw [Constant.shape]
      exact hmatches
  | .ConstantData, FW | .BlockAddress _, FW | .NoCFIValue _, FW | .DSOLocalEquivalent _, FW
  | .ConstantPtrAuth _, FW =>
    ⟨none, FW, by rw [constantNode], .refl FW, by rw [Constant.shape]; rfl⟩

theorem addOperands_spec : ∀ (operands : List (Constant GV)) (B : MultiConstantNodeBuilder GV)
    (FW₀ FW : Writer GV) (s : Shape GV), FW₀.Assigns FW → s.Matches FW₀ FW B.Out →
    (B.FreshNodeCreated = true → s = .loc) → ∃ B' FW',
    addOperands M operands B FW = .ok (B', FW') ∧ FW₀.Assigns FW' ∧
      (operandsShape M s operands).Matches FW₀ FW' B'.Out
  | [], B, FW₀, FW, s, h₀, hB, _ => by
    refine ⟨B, FW, by rw [addOperands], h₀, ?_⟩
    rw [operandsShape]
    exact hB
  | O :: operands, B, FW₀, FW, s, h₀, hB, hfresh => by
    obtain ⟨N, FW₁, hN, h₁, hmatches⟩ := constantNode_spec O FW
    obtain ⟨B', FW₂, hadd, h₂, hB', hfresh'⟩ := B.add_spec h₀ h₁ hB hfresh hmatches
    obtain ⟨B'', FW', hrest, hassigns, hout⟩ := addOperands_spec operands B' FW₀ FW₂ _
      ((h₀.trans h₁).trans h₂) hB' hfresh'
    refine ⟨B'', FW', ?_, hassigns, ?_⟩
    · rw [addOperands, hN]
      simp only [ok_bind, hadd, hrest]
    · rw [operandsShape]
      exact hout

end

end
/-! ## Values -/

section
variable {GV : Type} {M : Module GV} {F : Function GV}

namespace EdgeVisitor

/-- The values that have locals have different ones. -/
structure Numbered (v : EdgeVisitor GV) : Prop where
  lt : ∀ V i, Dict.get? v.Locals V = some i → i < v.FW.num_locals
  injective : ∀ V W i, Dict.get? v.Locals V = some i → Dict.get? v.Locals W = some i → V = W

/-- From one state of the visitor to another: nothing is taken back, and the edges that are
added are of the kinds given. -/
structure Extends (S : Set EdgeKind) (v v' : EdgeVisitor GV) : Prop where
  FW : v.FW.Grows S v'.FW
  locals : ∀ V i, Dict.get? v.Locals V = some i → Dict.get? v'.Locals V = some i
  fresh : ∀ V i, Dict.get? v'.Locals V = some i →
    Dict.get? v.Locals V = some i ∨ v.FW.num_locals ≤ i
  VarArgs : v'.VarArgs = v.VarArgs
  numbered : v.Numbered → v'.Numbered

variable {S T : Set EdgeKind} {v v' v'' : EdgeVisitor GV}

theorem Extends.refl (v : EdgeVisitor GV) : v.Extends S v :=
  ⟨.refl _, fun _ _ h => h, fun _ _ h => Or.inl h, rfl, fun hv => hv⟩

theorem Extends.trans (h : v.Extends S v') (h' : v'.Extends S v'') : v.Extends S v'' where
  FW := h.FW.trans h'.FW
  locals V i hi := h'.locals V i (h.locals V i hi)
  fresh V i hi := by
    rcases h'.fresh V i hi with hi | hi
    · exact h.fresh V i hi
    · exact Or.inr (h.FW.num_locals.trans hi)
  VarArgs := h'.VarArgs.trans h.VarArgs
  numbered hv := h'.numbered (h.numbered hv)

theorem Extends.mono (hST : S ⊆ T) (h : v.Extends S v') : v.Extends T v' :=
  ⟨h.FW.mono hST, h.locals, h.fresh, h.VarArgs, h.numbered⟩

theorem Extends.univ (h : v.Extends S v') : v.Extends Set.univ v' := h.mono (Set.subset_univ S)

/-- A state that differs in its writer only. -/
theorem extends_of_grows {FW : Writer GV} (h : v.FW.Grows S FW) : v.Extends S { v with FW } :=
  ⟨h, fun _ _ hi => hi, fun _ _ hi => Or.inl hi, rfl,
    fun hv => ⟨fun V i hi => (hv.lt V i hi).trans_le h.num_locals, hv.injective⟩⟩

/-- What asking for the node of a value answers. -/
def Answers (M : Module GV) (v v' : EdgeVisitor GV) : Value GV → Node GV → Prop
  | .Constant c, N => (c.shape M).Matches v.FW v'.FW N
  | .Local V, N => ∃ i, N = some (.loc i) ∧ Dict.get? v'.Locals V = some i
  | .InlineAsm, N => N = none

theorem Answers.isNone {V : Value GV} {N : Node GV} (h : Answers M v v' V N) :
    N = none ↔ V.shape M = .null := by
  cases V with
  | Constant c => exact Shape.Matches.isNone h
  | Local V =>
    obtain ⟨i, rfl, -⟩ := h
    simp [Value.shape]
  | InlineAsm => exact iff_of_true h rfl

theorem Answers.exists_some {V : Value GV} {N : Node GV} (h : Answers M v v' V N)
    (hV : V.shape M ≠ .null) : ∃ n, N = some n :=
  Option.ne_none_iff_exists'.mp fun hN => hV (h.isNone.mp hN)

/-- The state after a value has got a local. -/
def withLocal (v : EdgeVisitor GV) (V : LocalValue) (Name : Bytes) : EdgeVisitor GV :=
  { v with
    FW := (v.FW.freshLocal Name).2
    Locals := Dict.set v.Locals V v.FW.num_locals }

theorem extends_withLocal {V : LocalValue} (hget : Dict.get? v.Locals V = none) (Name : Bytes) :
    v.Extends S (v.withLocal V Name) where
  FW := v.FW.grows_freshLocal Name
  locals W i hi := by
    have hne : V ≠ W := fun h => by simp [← h, hget] at hi
    simpa [withLocal, Dict.get?_set, hne] using hi
  fresh W i hi := by
    rw [withLocal, Dict.get?_set] at hi
    split at hi
    · exact Or.inr (Option.some.inj hi).le
    · exact Or.inl hi
  VarArgs := rfl
  numbered hv := by
    refine ⟨fun W i hi => ?_, fun W W' i hi hi' => ?_⟩
    · rw [withLocal, Dict.get?_set] at hi
      split at hi
      · exact Option.some.inj hi ▸ Nat.lt_succ_self _
      · exact (hv.lt W i hi).trans_le (Nat.le_succ _)
    · rw [withLocal, Dict.get?_set] at hi hi'
      split at hi <;> split at hi'
      next h h' => exact h.symm.trans h'
      next h h' => exact absurd (hv.lt W' i hi') (by simp [← Option.some.inj hi])
      next h h' => exact absurd (hv.lt W i hi) (by simp [← Option.some.inj hi'])
      next h h' => exact hv.injective W W' i hi hi'

/-- **Asking for the node of a value.** -/
theorem node_spec (v : EdgeVisitor GV) (V : Value GV) : ∃ N v', v.node M F V = .ok (N, v') ∧
    v.Extends {.Assign} v' ∧ Answers M v v' V N := by
  cases V with
  | Constant c =>
    obtain ⟨N, FW, hnode, hassigns, hmatches⟩ := constantNode_spec (M := M) c v.FW
    refine ⟨N, { v with FW }, ?_, extends_of_grows hassigns, hmatches⟩
    simp [node, hnode, pure, Except.pure]
  | InlineAsm => exact ⟨none, v, rfl, .refl v, rfl⟩
  | Local V =>
    cases hget : Dict.get? v.Locals V with
    | some i => exact ⟨some (.loc i), v, by simp [node, hget], .refl v, ⟨i, rfl, hget⟩⟩
    | none =>
      refine ⟨some (.loc v.FW.num_locals), v.withLocal V (localName M F V), ?_,
        extends_withLocal hget _, v.FW.num_locals, rfl, ?_⟩
      · simp [node, hget, withLocal, Writer.freshLocal]
      · simp [withLocal, Dict.get?_set]

/-! ## Edges -/

/-- Two nodes are made an edge; a null node stops the pass. -/
theorem addEdge_some (v : EdgeVisitor GV) (kind : EdgeKind) (t f : End GV) (idx : UInt32) :
    v.addEdge kind (some t) (some f) idx =
      .ok { v with FW := { v.FW with ops := v.FW.ops ++ [.addEdge kind t f idx] } } := rfl

theorem addEdge_none_left (v : EdgeVisitor GV) (kind : EdgeKind) (N : Node GV) (idx : UInt32) :
    v.addEdge kind none N idx = .error .nullNode := by
  cases N <;> rfl

theorem addEdge_none_right (v : EdgeVisitor GV) (kind : EdgeKind) (N : Node GV) (idx : UInt32) :
    v.addEdge kind N none idx = .error .nullNode := by
  cases N <;> rfl

theorem extends_addEdge (v : EdgeVisitor GV) {kind : EdgeKind} (hkind : kind ∈ S) (t f : End GV)
    (idx : UInt32) :
    v.Extends S { v with FW := { v.FW with ops := v.FW.ops ++ [.addEdge kind t f idx] } } :=
  extends_of_grows (v.FW.grows_addEdge hkind t f idx)

theorem extends_freshLocal (v : EdgeVisitor GV) (Name : Bytes) :
    v.Extends S (v.freshLocal Name).2 :=
  extends_of_grows (v.FW.grows_freshLocal Name)

end EdgeVisitor
end
end Bracelet.Reachability
