import Bracelet.NullNodes

/-!
# The flow of constants

The node of a constant stands for the global values that occur in it: there is a path of
assignments from the symbol of each, and from no other symbol.  A constant with one of
them has its symbol as its node; in larger ones they are brought together in fresh locals,
each of which gets the nodes of some operands.  Global values that are wrapped
(`dso_local_equivalent`, `no_cfi`, `ptrauth`) do not count.
-/
namespace Bracelet.Reachability
open Edges (Bytes EdgeKind End Op edges)

/-! ## Paths -/

section
variable {α : Type}

/-- A path of edges, which are given by their ends: first to, then from. -/
def Path (es : List (α × α)) : α → α → Prop := Relation.ReflTransGen fun a b => (b, a) ∈ es

variable {es es' : List (α × α)} {x n o : α}

theorem Path.mono (hsub : es ⊆ es') (h : Path es x n) : Path es' x n :=
  Relation.ReflTransGen.mono (fun _ _ hab => hsub hab) _ _ h

/-- A path that uses the last edge starts with one to its source. -/
theorem Path.concat_cases (h : Path (es ++ [(o, n)]) x o') : Path es x o' ∨ Path es x n := by
  induction h with
  | refl => exact .inl .refl
  | @tail b c _ hstep ih =>
    rcases ih with hb | hn
    · rcases List.mem_append.mp hstep with hold | hnew
      · exact .inl (hb.tail hold)
      · obtain ⟨-, rfl⟩ := Prod.mk.inj (List.mem_singleton.mp hnew)
        exact .inr hb
    · exact .inr hn

theorem path_concat : Path (es ++ [(o, n)]) x o ↔ Path es x o ∨ Path es x n := by
  constructor
  · exact Path.concat_cases
  · rintro (h | h)
    · exact h.mono (List.subset_append_left es _)
    · exact (h.mono (List.subset_append_left es _)).tail (by simp)

/-- What leads to a node is not changed by edges elsewhere. -/
theorem Path.of_closed {K : Set α} (hK : ∀ e ∈ es, e.1 ∈ K → e.2 ∈ K ∧ e ∈ es') (hn : n ∈ K)
    (h : Path es x n) : Path es' x n := by
  have hboth : x ∈ K ∧ Path es' x n := by
    induction h using Relation.ReflTransGen.head_induction_on with
    | refl => exact ⟨hn, .refl⟩
    | head hstep _ ih =>
      obtain ⟨hin, hmem⟩ := hK _ hstep ih.1
      exact ⟨hin, .head hmem ih.2⟩
  exact hboth.2

end

section
variable {GV : Type}

/-- The ends of the assignments that calls add. -/
def assignments (ops : List (Op GV)) : List (End GV × End GV) :=
  (edges ops .Assign).map fun e => (e.1, e.2.1)

theorem assignments_append (ops ops' : List (Op GV)) :
    assignments (ops ++ ops') = assignments ops ++ assignments ops' := by
  rw [assignments, Edges.edges_append, List.map_append]
  rfl

/-! ## What a call adds -/

/-- A local that was made between the states. -/
def New (FW FW' : Writer GV) : End GV → Prop
  | .sym _ => False
  | .loc i => FW.num_locals ≤ i ∧ i < FW'.num_locals

/-- A symbol, or a local that was made between the states. -/
def Usable (FW FW' : Writer GV) : End GV → Prop
  | .sym _ => True
  | .loc i => FW.num_locals ≤ i ∧ i < FW'.num_locals

/-- From one state to another, the assignments are added, all of them to new locals and
none from an old one. -/
structure Adds (FW FW' : Writer GV) (es : List (End GV × End GV)) : Prop where
  assigns : assignments FW'.ops = assignments FW.ops ++ es
  num_locals : FW.num_locals ≤ FW'.num_locals
  ends : ∀ e ∈ es, New FW FW' e.1 ∧ Usable FW FW' e.2

variable {FW FW₁ FW₂ : Writer GV} {es es₁ : List (End GV × End GV)} {n : End GV}

theorem New.mono (h : New FW₁ FW₂ n) {FW' : Writer GV} (h₀ : FW.num_locals ≤ FW₁.num_locals)
    (h₁ : FW₂.num_locals ≤ FW'.num_locals) : New FW FW' n := by
  cases n with
  | sym s => exact h
  | loc i => exact ⟨h₀.trans h.1, h.2.trans_le h₁⟩

theorem Usable.mono (h : Usable FW₁ FW₂ n) {FW' : Writer GV}
    (h₀ : FW.num_locals ≤ FW₁.num_locals) (h₁ : FW₂.num_locals ≤ FW'.num_locals) :
    Usable FW FW' n := by
  cases n with
  | sym s => trivial
  | loc i => exact ⟨h₀.trans h.1, h.2.trans_le h₁⟩

theorem New.usable (h : New FW FW₁ n) : Usable FW FW₁ n := by
  cases n with
  | sym s => trivial
  | loc i => exact h

theorem Adds.trans (h : Adds FW FW₁ es) (h₁ : Adds FW₁ FW₂ es₁) : Adds FW FW₂ (es ++ es₁) where
  assigns := by rw [h₁.assigns, h.assigns, List.append_assoc]
  num_locals := h.num_locals.trans h₁.num_locals
  ends e he := by
    rcases List.mem_append.mp he with he | he
    · obtain ⟨hto, hfrom⟩ := h.ends e he
      exact ⟨hto.mono le_rfl h₁.num_locals, hfrom.mono le_rfl h₁.num_locals⟩
    · obtain ⟨hto, hfrom⟩ := h₁.ends e he
      exact ⟨hto.mono h.num_locals le_rfl, hfrom.mono h.num_locals le_rfl⟩

/-- New locals of later calls are not usable in earlier ones, and the other way round. -/
theorem New.not_usable_before (h : New FW₁ FW₂ n) : ¬ Usable FW FW₁ n := by
  cases n with
  | sym s => exact absurd h id
  | loc i => exact fun husable => absurd husable.2 (not_lt.mpr h.1)

theorem New.not_usable_after (h : New FW FW₁ n) : ¬ Usable FW₁ FW₂ n := by
  cases n with
  | sym s => exact absurd h id
  | loc i => exact fun husable => absurd h.2 (not_lt.mpr husable.1)

theorem Adds.path_left (h : Adds FW FW₁ es) (h₁ : Adds FW₁ FW₂ es₁) (hn : Usable FW FW₁ n)
    (x : End GV) : Path (es ++ es₁) x n ↔ Path es x n := by
  refine ⟨Path.of_closed (K := {n | Usable FW FW₁ n}) (fun e he hto => ?_) hn,
    Path.mono (List.subset_append_left es es₁)⟩
  rcases List.mem_append.mp he with he | he
  · exact ⟨(h.ends e he).2, he⟩
  · exact absurd hto (h₁.ends e he).1.not_usable_before

theorem Adds.path_right (h : Adds FW FW₁ es) (h₁ : Adds FW₁ FW₂ es₁) (hn : Usable FW₁ FW₂ n)
    (x : End GV) : Path (es ++ es₁) x n ↔ Path es₁ x n := by
  refine ⟨Path.of_closed (K := {n | Usable FW₁ FW₂ n}) (fun e he hto => ?_) hn,
    Path.mono (List.subset_append_right es es₁)⟩
  rcases List.mem_append.mp he with he | he
  · exact absurd hto (h.ends e he).1.not_usable_after
  · exact ⟨(h₁.ends e he).2, he⟩

theorem Adds.refl (FW : Writer GV) : Adds FW FW [] := ⟨by simp, le_rfl, by simp⟩

theorem Adds.symbol (FW : Writer GV) (GO : GV) : Adds FW (FW.symbol GO).2 [] :=
  ⟨by simp [Writer.symbol, assignments, edges], le_rfl, by simp⟩

theorem Adds.freshLocal (FW : Writer GV) (Name : Bytes) : Adds FW (FW.freshLocal Name).2 [] :=
  ⟨by simp [Writer.freshLocal, assignments, edges], Nat.le_succ _, by simp⟩

/-- An assignment to a new local. -/
theorem Adds.concat (h : Adds FW FW₁ es) {t f : End GV} (ht : New FW FW₁ t)
    (hf : Usable FW FW₁ f) (idx : UInt32) :
    Adds FW { FW₁ with ops := FW₁.ops ++ [.addEdge .Assign t f idx] } (es ++ [(t, f)]) where
  assigns := by
    rw [assignments_append, h.assigns, List.append_assoc]
    rfl
  num_locals := h.num_locals
  ends e he := by
    rcases List.mem_append.mp he with he | he
    · exact h.ends e he
    · obtain rfl := List.mem_singleton.mp he
      exact ⟨ht, hf⟩

/-! ## Constants -/

/-- **What a node stands for**: the symbols of some global values, from which the
assignments that were added lead to it. -/
structure Covers (FW FW' : Writer GV) (es : List (End GV × End GV)) (symbols : List GV)
    (N : Node GV) : Prop extends Adds FW FW' es where
  null : N = none ↔ symbols = []
  node : ∀ n, N = some n → Usable FW FW' n ∧ ∀ s, Path es (.sym s) n ↔ s ∈ symbols

theorem Covers.null_of {symbols : List GV} (h : Adds FW FW₁ es) (hsymbols : symbols = []) :
    Covers FW FW₁ es symbols none :=
  { h with
    null := by simp [hsymbols]
    node := by simp }

theorem Covers.some_of {symbols : List GV} (h : Adds FW FW₁ es) (hsymbols : symbols ≠ [])
    (hn : Usable FW FW₁ n) (hpaths : ∀ s, Path es (.sym s) n ↔ s ∈ symbols) :
    Covers FW FW₁ es symbols (some n) :=
  { h with
    null := by simp [hsymbols]
    node := fun n' hn' => by
      obtain rfl := Option.some.inj hn'
      exact ⟨hn, hpaths⟩ }

/-- The node that a builder has made is a new local. -/
def Fresh (FW FW' : Writer GV) (B : MultiConstantNodeBuilder GV) : Prop :=
  B.FreshNodeCreated = true → ∃ o, B.Out = some o ∧ New FW FW' o

/-- **Adding a node to a builder.** -/
theorem MultiConstantNodeBuilder.add_covers {B : MultiConstantNodeBuilder GV} {N : Node GV}
    {symbols symbols₁ : List GV} (h : Covers FW FW₁ es symbols B.Out) (hfresh : Fresh FW FW₁ B)
    (h₁ : Covers FW₁ FW₂ es₁ symbols₁ N) : ∃ B' FW' es', B.add FW₂ N = .ok (B', FW') ∧
      Covers FW FW' es' (symbols ++ symbols₁) B'.Out ∧ Fresh FW FW' B' := by
  have hboth := h.toAdds.trans h₁.toAdds
  cases N with
  | none =>
    have hnone := h₁.null.mp rfl
    refine ⟨B, FW₂, es ++ es₁, rfl, ?_, fun hB => ?_⟩
    · rw [hnone, List.append_nil]
      refine { hboth with null := h.null, node := fun n hn => ?_ }
      obtain ⟨husable, hpaths⟩ := h.node n hn
      refine ⟨husable.mono le_rfl h₁.num_locals, fun s => ?_⟩
      rw [h.toAdds.path_left h₁.toAdds husable, hpaths]
    · obtain ⟨o, ho, hnew⟩ := hfresh hB
      exact ⟨o, ho, hnew.mono le_rfl h₁.num_locals⟩
  | some n =>
    obtain ⟨hn, hpaths_n⟩ := h₁.node n rfl
    have hsome₁ : symbols₁ ≠ [] := fun hnil => by simpa using h₁.null.mpr hnil
    have hright := fun s => h.toAdds.path_right h₁.toAdds hn (.sym s)
    cases hOut : B.Out with
    | none =>
      have hnone := h.null.mp hOut
      refine ⟨{ B with Out := some n }, FW₂, es ++ es₁, by simp [add, hOut], ?_, fun hB => ?_⟩
      · rw [hnone, List.nil_append]
        refine .some_of hboth hsome₁ (hn.mono h.num_locals le_rfl) fun s => ?_
        rw [hright, hpaths_n]
      · obtain ⟨o, ho, -⟩ := hfresh hB
        rw [hOut] at ho
        cases ho
    | some out =>
      obtain ⟨hout, hpaths_out⟩ := h.node out hOut
      have hleft := fun s => h.toAdds.path_left h₁.toAdds hout (.sym s)
      have hsome : symbols ++ symbols₁ ≠ [] := by simp [hsome₁]
      by_cases hcreated : B.FreshNodeCreated = true
      · obtain ⟨o, ho, hnew⟩ := hfresh hcreated
        obtain rfl := Option.some.inj (hOut.symm.trans ho)
        have hadds := hboth.concat (hnew.mono le_rfl h₁.num_locals) (hn.mono h.num_locals le_rfl) 0
        refine ⟨B, { FW₂ with ops := FW₂.ops ++ [.addEdge .Assign out n 0] },
          es ++ es₁ ++ [(out, n)], ?_, ?_, fun _ => ⟨out, hOut, hnew.mono le_rfl h₁.num_locals⟩⟩
        · simp [add, hOut, hcreated, Writer.addEdge_some, pure, Except.pure]
        · rw [hOut]
          refine .some_of hadds hsome (hout.mono le_rfl h₁.num_locals) fun s => ?_
          rw [path_concat, hleft, hright, hpaths_out, hpaths_n, List.mem_append]
      · -- A local of its own, and the edges to it from both nodes.
        have hlocal := hboth.trans (.freshLocal FW₂ (Edges.ascii "<bracelet constant>"))
        have hnew : New FW (FW₂.freshLocal (Edges.ascii "<bracelet constant>")).2
            (.loc FW₂.num_locals) := ⟨hboth.num_locals, Nat.lt_succ_self _⟩
        have hfirst := hlocal.concat hnew (hout.mono le_rfl (h₁.num_locals.trans (Nat.le_succ _))) 0
        have hadds := hfirst.concat (hnew.mono le_rfl le_rfl) (hn.mono h.num_locals (Nat.le_succ _)) 0
        rw [List.append_nil] at hadds
        have hstart : ∀ s, ¬ Path (es ++ es₁) (.sym s) (.loc FW₂.num_locals) := fun s hpath => by
          rcases Relation.ReflTransGen.cases_tail hpath with heq | ⟨b, -, hedge⟩
          · cases heq
          · exact absurd (hboth.ends _ hedge).1.2 (lt_irrefl _)
        refine ⟨⟨true, some (.loc FW₂.num_locals)⟩, _, _, ?_, .some_of hadds hsome hnew.usable
          fun s => ?_, fun _ => ⟨_, rfl, hnew⟩⟩
        · simp only [add, hOut, hcreated, Writer.freshLocal, Writer.addEdge_some, ok_bind]
          rfl
        · rw [List.mem_append, ← hpaths_out, ← hpaths_n, ← hleft, ← hright]
          constructor
          · intro hpath
            rcases path_concat.mp hpath with hpath | hpath
            · exact .inl ((path_concat.mp hpath).resolve_left (hstart s))
            · exact hpath.concat_cases.symm
          · rintro (hpath | hpath)
            · exact path_concat.mpr (.inl (path_concat.mpr (.inr hpath)))
            · exact path_concat.mpr (.inr (hpath.mono (List.subset_append_left _ _)))

/-! ## The symbols of a constant -/

variable (M : Module GV)

/-- The symbols of the global values that occur in a constant. -/
def Constant.symbols (c : Constant GV) : List GV := c.globals.map M.getAliaseeObject

variable {M}

mutual

/-- **The node of a constant** covers the symbols that occur in it. -/
theorem constantNode_covers : ∀ (c : Constant GV) (FW : Writer GV), ∃ N FW' es,
    constantNode M c FW = .ok (N, FW') ∧ Covers FW FW' es (c.symbols M) N
  | .GlobalValue G, FW => by
    refine ⟨_, _, [], by rw [constantNode], ?_⟩
    rw [Constant.symbols, Constant.globals]
    refine .some_of (.symbol FW _) (by simp) trivial fun s => ?_
    rw [List.map_singleton, List.mem_singleton]
    constructor
    · intro hpath
      rcases Relation.ReflTransGen.cases_tail hpath with heq | ⟨b, -, hedge⟩
      · exact (End.sym.inj heq).symm
      · cases hedge
    · rintro rfl
      exact .refl
  | .ConstantExpr operands, FW | .ConstantAggregate operands, FW => by
    have hempty : Covers FW FW [] [] (none : Node GV) := .null_of (.refl FW) rfl
    obtain ⟨B, FW', es, hadd, hcovers⟩ := addOperands_covers operands {} FW FW [] [] hempty nofun
    refine ⟨B.Out, FW', es, ?_, ?_⟩
    · rw [constantNode, hadd]
      rfl
    · rw [Constant.symbols, Constant.globals]
      exact hcovers
  | .ConstantData, FW | .BlockAddress _, FW | .NoCFIValue _, FW | .DSOLocalEquivalent _, FW
  | .ConstantPtrAuth _, FW => by
    refine ⟨none, FW, [], by rw [constantNode], .null_of (.refl FW) ?_⟩
    rw [Constant.symbols, Constant.globals, List.map_nil]

theorem addOperands_covers : ∀ (operands : List (Constant GV)) (B : MultiConstantNodeBuilder GV)
    (FW FW₁ : Writer GV) (es : List (End GV × End GV)) (symbols : List GV),
    Covers FW FW₁ es symbols B.Out → Fresh FW FW₁ B → ∃ B' FW' es',
      addOperands M operands B FW₁ = .ok (B', FW') ∧
      Covers FW FW' es' (symbols ++ (operandsGlobals operands).map M.getAliaseeObject) B'.Out
  | [], B, FW, FW₁, es, symbols, h, _ => by
    refine ⟨B, FW₁, es, by rw [addOperands], ?_⟩
    rwa [operandsGlobals, List.map_nil, List.append_nil]
  | O :: operands, B, FW, FW₁, es, symbols, h, hfresh => by
    obtain ⟨N, FW₂, es₁, hN, hcovers⟩ := constantNode_covers O FW₁
    obtain ⟨B', FW₃, es₂, hadd, hB', hfresh'⟩ := B.add_covers h hfresh hcovers
    obtain ⟨B'', FW', es', hrest, hall⟩ :=
      addOperands_covers operands B' FW FW₃ es₂ _ hB' hfresh'
    refine ⟨B'', FW', es', ?_, ?_⟩
    · rw [addOperands, hN]
      simp only [ok_bind, hadd, hrest]
    · rw [operandsGlobals, List.map_append, ← List.append_assoc]
      exact hall

end

/-! ## Initializers -/

variable (M)

/-- Whether the initializer of a variable is written. -/
def written (GVar : GlobalVariable GV) : Bool :=
  !(GVar.isExternallyInitialized || "llvm.".isPrefixOf GVar.name)

/-- **A constant is summarised by its symbols**: by the node it gets, and by the store that
is recorded for a variable that it initializes. -/
structure Summarised (c : Constant GV) (symbols : List GV) : Prop where
  node : ∀ FW, ∃ N FW' es, constantNode M c FW = .ok (N, FW') ∧
    assignments FW'.ops = assignments FW.ops ++ es ∧ (N = none ↔ symbols = []) ∧
    ∀ n, N = some n → ∀ s, Path es (.sym s) n ↔ s ∈ symbols
  store : ∀ FW GVar, GVar.initializer = some c → written GVar = true →
    ∃ FW' es, emitInitializer M FW GVar = .ok FW' ∧
      assignments FW'.ops = assignments FW.ops ++ es ∧
      (symbols = [] → edges FW'.ops .Store = edges FW.ops .Store) ∧
      (symbols ≠ [] → ∃ n, edges FW'.ops .Store =
        edges FW.ops .Store ++ [(.sym (M.getAliaseeObject GVar.symbol), n, 0)] ∧
        ∀ s, Path es (.sym s) n ↔ s ∈ symbols)

/-- **Every constant** is summarised by the global values that occur in it. -/
theorem constant_summarised (c : Constant GV) : Summarised M c (c.symbols M) where
  node FW := by
    obtain ⟨N, FW', es, hN, hcovers⟩ := constantNode_covers (M := M) c FW
    exact ⟨N, FW', es, hN, hcovers.assigns, hcovers.null, fun n hn => (hcovers.node n hn).2⟩
  store FW GVar hinit hwritten := by
    obtain ⟨N, FW₁, es, hN, hcovers⟩ := constantNode_covers (M := M) c FW
    obtain ⟨N', FW₁', hN', hassigns, -⟩ := constantNode_spec (M := M) c FW
    obtain ⟨rfl, rfl⟩ := Prod.mk.inj (Except.ok.inj (hN'.symm.trans hN))
    have hskip : (GVar.isExternallyInitialized || "llvm.".isPrefixOf GVar.name) = false := by
      simpa [written] using hwritten
    have hstore := hassigns.edges .Store (by simp)
    unfold emitInitializer
    rw [hinit]
    simp only [hskip, Bool.false_eq_true, if_false, hN, ok_bind]
    cases N' with
    | none =>
      refine ⟨FW₁', es, rfl, hcovers.assigns, fun _ => hstore, fun hne => ?_⟩
      exact absurd (hcovers.null.mp rfl) hne
    | some n =>
      refine ⟨{ FW₁' with ops := FW₁'.ops ++ [.symbol (M.getAliaseeObject GVar.symbol)] ++
        [.addEdge .Store (.sym (M.getAliaseeObject GVar.symbol)) n 0] }, es, ?_, ?_, fun hnil => ?_,
        fun _ => ⟨n, ?_, (hcovers.node n rfl).2⟩⟩
      · simp only [Option.isNone_some, Bool.false_eq_true, if_false, constantNode, ok_bind]
        rfl
      · rw [assignments_append, assignments_append, hcovers.assigns]
        simp [assignments, edges]
      · exact absurd (hcovers.null.mpr hnil) (by simp)
      · rw [Edges.edges_append, Edges.edges_append, hstore]
        simp [edges]

end

/-! ## Wrapped global values -/

section
variable {GV : Type}

mutual

/-- All global values in a constant, wrapped or not. -/
def Constant.mentioned : Constant GV → List GV
  | .GlobalValue G | .NoCFIValue G | .DSOLocalEquivalent G | .BlockAddress G => [G]
  | .ConstantExpr operands => operandsMentioned operands
  | .ConstantAggregate operands => operandsMentioned operands
  | .ConstantPtrAuth operands => operandsMentioned operands
  | .ConstantData => []

def operandsMentioned : List (Constant GV) → List GV
  | [] => []
  | O :: operands => O.mentioned ++ operandsMentioned operands

end

end

/-- `dso_local_equivalent @f` has no node. -/
theorem wrapped_not_summarised : ¬ Summarised sampleModule (.DSOLocalEquivalent "f")
    ((Constant.DSOLocalEquivalent "f").mentioned.map sampleModule.getAliaseeObject) := by
  intro h
  obtain ⟨N, FW', es, hN, -, hnull, -⟩ := h.node {}
  rw [constantNode] at hN
  obtain ⟨rfl, -⟩ := Prod.mk.inj (Except.ok.inj hN)
  have hnil := hnull.mp rfl
  simp [Constant.mentioned] at hnil

end Bracelet.Reachability
