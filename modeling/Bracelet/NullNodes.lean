import Bracelet.VisitedInstructions
import Bracelet.VisitorStart

/-!
# Null nodes

A value has no node when it is inline assembly or a constant in which no global value
occurs.  The constructors of edges assert that both of their nodes are there.  The edges of
constants, of initializers and of most instructions are only made of nodes that were
checked; what a call, `va_start`, `va_copy`, `memcpy` or `memmove` makes an end of is not
checked, and the first operand without a node stops the pass.
-/
namespace Bracelet.Reachability

section
variable {GV : Type}

/-! ## Values without a node -/

mutual

/-- The global values that occur in a constant, other than those that are wrapped in a
constant of another kind. -/
def Constant.globals : Constant GV → List GV
  | .GlobalValue G => [G]
  | .ConstantExpr operands => operandsGlobals operands
  | .ConstantAggregate operands => operandsGlobals operands
  | .ConstantData | .BlockAddress _ | .NoCFIValue _ | .DSOLocalEquivalent _
  | .ConstantPtrAuth _ => []

def operandsGlobals : List (Constant GV) → List GV
  | [] => []
  | O :: operands => O.globals ++ operandsGlobals operands

end

/-- Inline assembly and the constants without a global value. -/
def Value.Nodeless : Value GV → Prop
  | .Constant c => c.globals = []
  | .Local _ => False
  | .InlineAsm => True

variable (M : Module GV)

theorem Shape.add_eq_null {s t : Shape GV} : s.add t = .null ↔ s = .null ∧ t = .null := by
  constructor
  · intro h
    refine ⟨?_, ?_⟩
    · by_contra hs
      exact Shape.add_ne_null_left hs h
    · by_contra ht
      exact Shape.add_ne_null_right ht h
  · rintro ⟨rfl, rfl⟩
    rfl

mutual

theorem Constant.shape_eq_null : ∀ c : Constant GV, c.shape M = .null ↔ c.globals = []
  | .GlobalValue G => by simp [Constant.shape, Constant.globals]
  | .ConstantExpr operands | .ConstantAggregate operands => by
    rw [Constant.shape, Constant.globals, operandsShape_eq_null operands .null]
    exact and_iff_right rfl
  | .ConstantData | .BlockAddress _ | .NoCFIValue _ | .DSOLocalEquivalent _
  | .ConstantPtrAuth _ => by
    simp [Constant.shape, Constant.globals]

theorem operandsShape_eq_null : ∀ (operands : List (Constant GV)) (s : Shape GV),
    operandsShape M s operands = .null ↔ s = .null ∧ operandsGlobals operands = []
  | [], s => by simp [operandsShape, operandsGlobals]
  | O :: operands, s => by
    rw [operandsShape, operandsGlobals, operandsShape_eq_null operands, Shape.add_eq_null,
      Constant.shape_eq_null O, List.append_eq_nil_iff, and_assoc]

end

/-- The shape is null for the values without a node. -/
theorem Value.shape_eq_null (V : Value GV) : V.shape M = .null ↔ V.Nodeless := by
  cases V with
  | Constant c => exact c.shape_eq_null M
  | Local V => simp [Value.shape, Value.Nodeless]
  | InlineAsm => exact iff_of_true rfl trivial

/-! ## Initializers -/

/-- **The edges of initializers have both ends.** -/
theorem emitInitializer_ok (FW : Writer GV) (GVar : GlobalVariable GV) :
    ∃ FW', emitInitializer M FW GVar = .ok FW' := by
  unfold emitInitializer
  cases GVar.initializer with
  | none => exact ⟨FW, rfl⟩
  | some initializer =>
    obtain ⟨N, FW₁, hN, -, -⟩ := constantNode_spec (M := M) initializer FW
    dsimp only
    split
    · exact ⟨FW, rfl⟩
    rw [hN, ok_bind]
    cases N with
    | none => exact ⟨FW₁, rfl⟩
    | some n =>
      obtain ⟨T, FW₂, hT, -, hsymbol⟩ :=
        constantNode_spec (M := M) (.GlobalValue GVar.symbol) FW₁
      obtain ⟨rfl, -⟩ : T = some (.sym (M.getAliaseeObject GVar.symbol)) ∧ _ := by
        rw [Constant.shape] at hsymbol
        exact hsymbol
      have hadd := FW₂.addEdge_some .Store (.sym (M.getAliaseeObject GVar.symbol)) n 0
      refine ⟨{ FW₂ with ops := FW₂.ops ++
        [.addEdge .Store (.sym (M.getAliaseeObject GVar.symbol)) n 0] }, ?_⟩
      simp only [Option.isNone_some, Bool.false_eq_true, if_false, hT, ok_bind]
      exact hadd

theorem emitInitializers_ok (comdat : Option String) :
    ∃ FW, emitInitializers M comdat = .ok FW := by
  unfold emitInitializers
  generalize M.global_variables.filter (fun GVar => GVar.comdat = comdat) = globals
  generalize ({} : Writer GV) = FW
  induction globals generalizing FW with
  | nil => exact ⟨FW, rfl⟩
  | cons GVar globals ih =>
    obtain ⟨FW', hstep⟩ := emitInitializer_ok M FW GVar
    rw [List.foldlM_cons, hstep]
    exact ih FW'

/-! ## Functions -/

variable (F : Function GV)

/-- The instructions that are visited if no null node stops the pass. -/
def visited : List (Instruction GV) := F.body.takeWhile fun I => !I.op.Stops M F

namespace EdgeVisitor
variable {M F}

/-- The visits stop at the first null node. -/
theorem visits_null_iff (body : List (Instruction GV)) {v : EdgeVisitor GV}
    (hv : v.VarArgs.isSome = F.type.isVarArg) :
    body.foldlM (fun v I => v.visit M F I) v = .error .nullNode ↔
      ∃ I ∈ body.takeWhile (fun I => !I.op.Stops M F), ∃ V ∈ I.op.endpoints M, V.Nodeless := by
  induction body generalizing v with
  | nil => simp [pure, Except.pure]
  | cons I rest ih =>
    rw [List.foldlM_cons]
    by_cases hstop : I.op.Stops M F = true
    · rw [visit_stops hv hstop, error_bind]
      simp [hstop]
    rw [List.takeWhile_cons_of_pos (by simpa using hstop)]
    simp only [List.mem_cons, exists_eq_or_imp]
    by_cases hnull : ∃ V ∈ I.op.endpoints M, V.Nodeless
    · have hvisit : v.visit M F I = .error .nullNode := by
        obtain ⟨V, hV, hnodeless⟩ := hnull
        exact visit_null hv hstop ⟨V, hV, (V.shape_eq_null M).mpr hnodeless⟩
      rw [hvisit, error_bind]
      exact iff_of_true rfl (Or.inl hnull)
    · have hends : ∀ V ∈ I.op.endpoints M, V.shape M ≠ .null := fun V hV hshape =>
        hnull ⟨V, hV, (V.shape_eq_null M).mp hshape⟩
      obtain ⟨v', hvisit, hext, -⟩ := visit_spec hv hstop hends
      rw [hvisit, ok_bind, ih (hext.VarArgs ▸ hv)]
      exact (or_iff_right hnull).symm

variable (M F)

theorem run_null_iff : run M F = .error .nullNode ↔
    ∃ I ∈ visited M F, ∃ V ∈ I.op.endpoints M, V.Nodeless := by
  obtain ⟨v, hnew, hv⟩ := new_spec M F
  unfold run
  rw [hnew, ok_bind]
  exact visits_null_iff F.body hv.VarArgs

end EdgeVisitor

/-- No edge is made with a null node, neither for the function nor for the initializers. -/
def NoNullEnd : Prop :=
  (∀ comdat, emitInitializers M comdat ≠ .error .nullNode) ∧
    EdgeVisitor.run M F ≠ .error .nullNode

/-- **When no edge has a null end**: the operands that calls and memory intrinsics make ends
of all have nodes. -/
theorem noNullEnd_iff : NoNullEnd M F ↔
    ∀ I ∈ visited M F, ∀ V ∈ I.op.endpoints M, ¬ V.Nodeless := by
  have hinit : ∀ comdat, emitInitializers M comdat ≠ .error .nullNode := fun comdat => by
    obtain ⟨FW, hFW⟩ := emitInitializers_ok M comdat
    simp [hFW]
  unfold NoNullEnd
  rw [and_iff_right hinit, ne_eq, EdgeVisitor.run_null_iff]
  push Not
  rfl

end

/-! ## A copy from the null pointer -/

/-- `llvm.memcpy.p0.p0.i64`. -/
def memcpyDecl : FunctionDecl where
  name := "llvm.memcpy.p0.p0.i64"
  type :=
    { ReturnType := .void
      params := [.named "ptr", .named "ptr", .named "i64", .named "i1"]
      isVarArg := false
      bounded := by decide }
  IntrinsicID := .memcpy
  has_operands := by decide

def sampleModule : Module String where
  getAliaseeObject := id
  getFunction G := if G = memcpyDecl.name then some memcpyDecl else none
  PagePtr _ _ := "page"
  global_variables := []
  NoIncludeDebugData := true

/-- `call void @llvm.memcpy.p0.p0.i64(ptr %p, ptr null, i64 0, i1 false)`. -/
def copyFromNull : CallBase String where
  CalledOperand := .Constant (.GlobalValue memcpyDecl.name)
  FTy := memcpyDecl.type
  args := [.Local (.Argument 0), .Constant .ConstantData, .Constant .ConstantData,
    .Constant .ConstantData]
  has_params := by decide
  fixed := fun _ => rfl

/-- `define void @symbol(ptr %p)`. -/
def pointerFunction (symbol : String) (body : List (Instruction String))
    (distinct : (body.map Instruction.id).Nodup) : Function String where
  symbol := symbol
  type :=
    { ReturnType := .void
      params := [.named "ptr"]
      isVarArg := false
      bounded := by decide }
  args := [⟨Edges.ascii "p", Edges.ascii "%p"⟩]
  body := body
  arg_size := rfl
  distinct := distinct

/-- `define void @copiesNull(ptr %p)`, whose body is the copy and `ret void`. -/
def copiesNull : Function String :=
  pointerFunction "copiesNull" [⟨0, [], [], [], .Call copyFromNull⟩, ⟨1, [], [], [], .Return none⟩]
    (by decide)

theorem copiesNull_nullEnd : ¬ NoNullEnd sampleModule copiesNull := by
  have hrun : EdgeVisitor.run sampleModule copiesNull = .error .nullNode := by rfl
  exact fun h => h.2 hrun

end Bracelet.Reachability
