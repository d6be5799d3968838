import Bracelet.NodeStates

/-!
# The first pass and the order of the graph

The callbacks of the pass are sequences of updates, and so is the pass.  What is said about a
node (`Evidence`) does not depend on the order of the functions or of their edges, and the
states are its joins: `initial_pass_order`.
-/
namespace Bracelet.Edges.PointsTo

/-! ## The updates of a graph -/

/-- The arguments of a function, according to its edges. -/
def definedArguments (nargs : UInt32) : EdgeKind × Edge → UInt32
  | (.ArgumentDefinition, e) => max nargs (e.idx + 1)
  | _ => nargs

def GraphFunction.nargs (fi : GraphFunction) : UInt16 :=
  (fi.edges.foldl definedArguments 0).toUInt16

/-- The updates of a node of an edge of a function. -/
def outUpdates (function out : Node) : List Update :=
  if out.symbol = function.symbol then [] else [.state out .Undefined, .override out]

def kindUpdates : EdgeKind × Edge → List Update
  | (.Call, e) =>
    if e.from_node.local_idx = none then [.state e.from_node (.Function e.idx.toUInt16)] else []
  | (.Store, e) => if e.to_node.local_idx = none then [.state e.to_node .GlobalData] else []
  | _ => []

def edgeUpdates (function : Node) (edge : EdgeKind × Edge) : List Update :=
  kindUpdates edge ++ (out_edges edge.2).flatMap (outUpdates function)

def GraphFunction.updates (fi : GraphFunction) : List Update :=
  fi.edges.flatMap (edgeUpdates fi.function) ++ [.state fi.function (.Function fi.nargs)]

section
variable {asserts : Bool} {symbolName : Address → Result String}
  {override_nargs : List (String × UInt16)}

/-- A fold of folds. -/
theorem foldlM_flatMap {σ α β : Type} {f : α → List β} {step : σ → β → Result σ}
    {big : σ → α → Result σ} {l : List α} (h : ∀ s, ∀ a ∈ l, big s a = (f a).foldlM step s) (s : σ) :
    l.foldlM big s = (l.flatMap f).foldlM step s := by
  induction l generalizing s with
  | nil => rfl
  | cons a l ih =>
    rw [List.foldlM_cons, List.flatMap_cons, List.foldlM_append, h s a List.mem_cons_self]
    exact congrArg _ (funext fun t => ih (fun s b hb => h s b (List.mem_cons_of_mem a hb)) t)

theorem visitOut_eq {function out : Node} (st : EmitC)
    (h : out.local_idx ≠ none → out.symbol = function.symbol) :
    st.visitOut asserts symbolName override_nargs function out =
      (outUpdates function out).foldlM (EmitC.apply asserts symbolName override_nargs) st := by
  unfold EmitC.visitOut outUpdates
  split
  next => rfl
  next hne =>
    have hsymbol : out.local_idx = none := by
      by_contra hlocal
      exact hne (h hlocal)
    rw [hsymbol, Option.isNone_none, assert_true, ok_bind]
    simp only [List.foldlM_cons, List.foldlM_nil, bind_pure]
    rfl

/-- What an edge does is its updates. -/
theorem visitEdge_eq {fi : GraphFunction} {edge : EdgeKind × Edge} (hedge : edge ∈ fi.edges)
    (st : EmitC) (nargs : UInt32) :
    EmitC.visitEdge asserts symbolName override_nargs fi.function (st, nargs) edge =
      (edgeUpdates fi.function edge).foldlM (EmitC.apply asserts symbolName override_nargs) st >>=
        fun st => .ok (st, definedArguments nargs edge) := by
  have hout : ∀ st, (out_edges edge.2).foldlM
      (EmitC.visitOut asserts symbolName override_nargs fi.function) st =
        ((out_edges edge.2).flatMap (outUpdates fi.function)).foldlM
          (EmitC.apply asserts symbolName override_nargs) st :=
    foldlM_flatMap fun st out hmem => visitOut_eq st (fi.locals edge hedge out hmem)
  obtain ⟨kind, e⟩ := edge
  unfold EmitC.visitEdge edgeUpdates
  rw [List.foldlM_append]
  dsimp only
  simp only [hout]
  cases kind with
  | Call =>
    by_cases h : e.from_node.local_idx = none
    · simp [kindUpdates, definedArguments, h]
      rfl
    · simp [kindUpdates, definedArguments, h]
      rfl
  | Store =>
    by_cases h : e.to_node.local_idx = none
    · simp [kindUpdates, definedArguments, h]
      rfl
    · simp [kindUpdates, definedArguments, h]
      rfl
  | _ =>
    simp [kindUpdates, definedArguments]
    rfl

theorem foldlM_visitEdge {fi : GraphFunction} {l : List (EdgeKind × Edge)} (hl : l ⊆ fi.edges)
    (st : EmitC) (nargs : UInt32) :
    l.foldlM (EmitC.visitEdge asserts symbolName override_nargs fi.function) (st, nargs) =
      (l.flatMap (edgeUpdates fi.function)).foldlM (EmitC.apply asserts symbolName override_nargs) st
        >>= fun st => .ok (st, l.foldl definedArguments nargs) := by
  induction l generalizing st nargs with
  | nil => rfl
  | cons edge l ih =>
    have hedge := hl List.mem_cons_self
    have hrest : l ⊆ fi.edges := fun _ h => hl (List.mem_cons_of_mem edge h)
    rw [List.foldlM_cons, List.flatMap_cons, List.foldlM_append, visitEdge_eq hedge, bind_assoc,
      bind_assoc]
    exact congrArg _ (funext fun st => ih hrest st _)

theorem visitFunction_eq (st : EmitC) (fi : GraphFunction) :
    st.visitFunction asserts symbolName override_nargs fi =
      fi.updates.foldlM (EmitC.apply asserts symbolName override_nargs) st := by
  unfold EmitC.visitFunction GraphFunction.updates
  rw [foldlM_visitEdge (List.Subset.refl _), List.foldlM_append, bind_assoc]
  refine congrArg _ (funext fun st => ?_)
  simp only [List.foldlM_cons, List.foldlM_nil, bind_pure]
  rfl

/-- **The pass is a sequence of updates.** -/
theorem initial_pass_eq (fs : List GraphFunction) :
    EmitC.initial_pass asserts symbolName override_nargs fs =
      (fs.flatMap GraphFunction.updates).foldlM (EmitC.apply asserts symbolName override_nargs) {} :=
  foldlM_flatMap (fun st fi _ => visitFunction_eq st fi) {}

end

/-! ## Evidence -/

/-- The node is mentioned by another function. -/
def Referenced (fs : List GraphFunction) (n : Node) : Prop :=
  ∃ fi ∈ fs, ∃ edge ∈ fi.edges, n ∈ out_edges edge.2 ∧ n.symbol ≠ fi.function.symbol

/-- What the edges say about a node. -/
inductive Evidence (symbolName : Address → Result String) (override_nargs : List (String × UInt16))
    (fs : List GraphFunction) : Node → NodeState → Prop
  /-- It is called with so many arguments. -/
  | call {fi : GraphFunction} {e : Edge} (hfi : fi ∈ fs) (hedge : (.Call, e) ∈ fi.edges)
      (hsymbol : e.from_node.local_idx = none) :
      Evidence symbolName override_nargs fs e.from_node (.Function e.idx.toUInt16)
  /-- It is stored into. -/
  | store {fi : GraphFunction} {e : Edge} (hfi : fi ∈ fs) (hedge : (.Store, e) ∈ fi.edges)
      (hsymbol : e.to_node.local_idx = none) :
      Evidence symbolName override_nargs fs e.to_node .GlobalData
  /-- It is a function, and its edges define so many arguments. -/
  | definition {fi : GraphFunction} (hfi : fi ∈ fs) :
      Evidence symbolName override_nargs fs fi.function (.Function fi.nargs)
  /-- Another function mentions it. -/
  | reference {n : Node} (h : Referenced fs n) :
      Evidence symbolName override_nargs fs n .Undefined
  /-- Another function mentions it, and there is an override of its name. -/
  | override {n : Node} {name : String} {nargs : UInt16} (h : Referenced fs n)
      (hname : overrideOf symbolName override_nargs n = .ok (some (name, nargs))) :
      Evidence symbolName override_nargs fs n (.Function nargs)

theorem mem_outUpdates {function out : Node} {u : Update} :
    u ∈ outUpdates function out ↔
      out.symbol ≠ function.symbol ∧ (u = .state out .Undefined ∨ u = .override out) := by
  unfold outUpdates
  split
  next h => simp [h]
  next h => simp [h]

theorem override_mem_updates {fs : List GraphFunction} {n : Node} :
    .override n ∈ fs.flatMap GraphFunction.updates ↔ Referenced fs n := by
  have hkind : ∀ edge, .override n ∉ kindUpdates edge := by
    rintro ⟨kind, e⟩
    cases kind <;> simp only [kindUpdates] <;> (try split_ifs) <;> simp
  simp only [List.mem_flatMap, GraphFunction.updates, edgeUpdates, List.mem_append, mem_outUpdates,
    hkind, List.mem_singleton, reduceCtorEq, false_or, or_false, Update.override.injEq, Referenced]
  constructor
  · rintro ⟨fi, hfi, edge, hedge, out, hout, hne, rfl⟩
    exact ⟨fi, hfi, edge, hedge, hout, hne⟩
  · rintro ⟨fi, hfi, edge, hedge, hout, hne⟩
    exact ⟨fi, hfi, edge, hedge, n, hout, hne, rfl⟩

theorem mem_kindUpdates {edge : EdgeKind × Edge} {n : Node} {s : NodeState} :
    .state n s ∈ kindUpdates edge ↔ n.local_idx = none ∧
      (edge.1 = .Call ∧ n = edge.2.from_node ∧ s = .Function edge.2.idx.toUInt16 ∨
        edge.1 = .Store ∧ n = edge.2.to_node ∧ s = .GlobalData) := by
  obtain ⟨kind, e⟩ := edge
  cases kind <;> simp only [kindUpdates, reduceCtorEq, false_and, or_false, false_or, and_false,
    List.not_mem_nil, true_and]
  all_goals
    split_ifs with h
    · simp only [List.mem_singleton, Update.state.injEq]
      constructor
      · rintro ⟨rfl, rfl⟩
        exact ⟨h, rfl, rfl⟩
      · exact fun ⟨_, hn, hs⟩ => ⟨hn, hs⟩
    · simp only [List.not_mem_nil, false_iff]
      rintro ⟨hn, rfl, -⟩
      exact h hn

/-- **The updates are the evidence.** -/
theorem mem_evidence {symbolName : Address → Result String} {override_nargs : List (String × UInt16)}
    {fs : List GraphFunction} {n : Node} {s : NodeState} :
    s ∈ evidence symbolName override_nargs (fs.flatMap GraphFunction.updates) n ↔
      Evidence symbolName override_nargs fs n s := by
  constructor
  · rintro (hs | ⟨hn, name, nargs, hname, rfl⟩)
    · obtain ⟨fi, hfi, hs⟩ := List.mem_flatMap.mp hs
      rcases List.mem_append.mp hs with hs | hs
      · obtain ⟨edge, hedge, hs⟩ := List.mem_flatMap.mp hs
        rcases List.mem_append.mp hs with hs | hs
        · obtain ⟨kind, e⟩ := edge
          obtain ⟨hn, ⟨rfl, rfl, rfl⟩ | ⟨rfl, rfl, rfl⟩⟩ := mem_kindUpdates.mp hs
          · exact .call hfi hedge hn
          · exact .store hfi hedge hn
        · obtain ⟨out, hout, hs⟩ := List.mem_flatMap.mp hs
          obtain ⟨hne, heq | heq⟩ := mem_outUpdates.mp hs
          · obtain ⟨rfl, rfl⟩ := Update.state.inj heq
            exact .reference ⟨fi, hfi, edge, hedge, hout, hne⟩
          · cases heq
      · obtain ⟨rfl, rfl⟩ := Update.state.inj (List.mem_singleton.mp hs)
        exact .definition hfi
    · exact .override (override_mem_updates.mp hn) hname
  · have hedge_mem : ∀ {fi : GraphFunction} {edge} {u : Update}, fi ∈ fs → edge ∈ fi.edges →
        u ∈ edgeUpdates fi.function edge → u ∈ fs.flatMap GraphFunction.updates :=
      fun hfi hedge hu => List.mem_flatMap.mpr
        ⟨_, hfi, List.mem_append_left _ (List.mem_flatMap.mpr ⟨_, hedge, hu⟩)⟩
    rintro (⟨hfi, hedge, hn⟩ | ⟨hfi, hedge, hn⟩ | hfi | ⟨fi, hfi, edge, hedge, hout, hne⟩ | ⟨h, hname⟩)
    · exact .inl (hedge_mem hfi hedge (List.mem_append_left _
        (mem_kindUpdates.mpr ⟨hn, .inl ⟨rfl, rfl, rfl⟩⟩)))
    · exact .inl (hedge_mem hfi hedge (List.mem_append_left _
        (mem_kindUpdates.mpr ⟨hn, .inr ⟨rfl, rfl, rfl⟩⟩)))
    · exact .inl (List.mem_flatMap.mpr ⟨_, hfi, List.mem_append_right _ (List.mem_singleton_self _)⟩)
    · exact .inl (hedge_mem hfi hedge (List.mem_append_right _
        (List.mem_flatMap.mpr ⟨n, hout, mem_outUpdates.mpr ⟨hne, .inl rfl⟩⟩)))
    · exact .inr ⟨override_mem_updates.mpr h, _, _, hname, rfl⟩

/-- Updates are about nodes without a local index. -/
theorem updates_symbol {fs : List GraphFunction} {u : Update}
    (hu : u ∈ fs.flatMap GraphFunction.updates) : u.node.local_idx = none := by
  have hout : ∀ {n}, Referenced fs n → n.local_idx = none := by
    rintro n ⟨fi, hfi, edge, hedge, hn, hne⟩
    by_contra hlocal
    exact hne (fi.locals edge hedge n hn hlocal)
  cases u with
  | override n => exact hout (override_mem_updates.mp hu)
  | state n s =>
    have hs : s ∈ evidence (fun _ => .error .abort) [] (fs.flatMap GraphFunction.updates) n := .inl hu
    rcases mem_evidence.mp hs with ⟨-, -, hn⟩ | ⟨-, -, hn⟩ | hfi | h | ⟨h, -⟩
    · exact hn
    · exact hn
    · exact GraphFunction.is_symbol _
    · exact hout h
    · exact hout h

/-! ## The order of the graph -/

/-- The same functions with the same edges, in another order. -/
def Reordered (fs gs : List GraphFunction) : Prop :=
  ∃ hs, fs.Perm hs ∧
    List.Forall₂ (fun f g => f.function = g.function ∧ f.edges.Perm g.edges) hs gs

/-- Each function of one order is in the other. -/
structure Covered (fs gs : List GraphFunction) : Prop where
  same : ∀ f ∈ fs, ∃ g ∈ gs, f.function = g.function ∧ f.edges.Perm g.edges

theorem Reordered.covered {fs gs : List GraphFunction} (h : Reordered fs gs) : Covered fs gs := by
  obtain ⟨hs, hperm, hsame⟩ := h
  constructor
  intro f hf
  obtain ⟨i, hi, rfl⟩ := List.getElem_of_mem (hperm.mem_iff.mp hf)
  have hi' : i < gs.length := hsame.length_eq ▸ hi
  exact ⟨gs[i], List.getElem_mem hi', hsame.get hi hi'⟩

theorem Reordered.covers {fs gs : List GraphFunction} (h : Reordered fs gs) : Covered gs fs := by
  obtain ⟨hs, hperm, hsame⟩ := h
  constructor
  intro g hg
  obtain ⟨i, hi, rfl⟩ := List.getElem_of_mem hg
  have hi' : i < hs.length := hsame.length_eq ▸ hi
  obtain ⟨hfunction, hedges⟩ := hsame.get hi' hi
  exact ⟨hs[i], hperm.mem_iff.mpr (List.getElem_mem hi'), hfunction.symm, hedges.symm⟩

theorem toNat_max (a b : UInt32) : (max a b).toNat = max a.toNat b.toNat := by
  have hmax : max a b = if a ≤ b then b else a := rfl
  rw [hmax]
  split
  next h => exact (max_eq_right (UInt32.le_iff_toNat_le.mp h)).symm
  next h => exact (max_eq_left (UInt32.lt_iff_toNat_lt.mp (UInt32.not_le.mp h)).le).symm

/-- The number of arguments is a maximum. -/
theorem nargs_eq_of_perm {f g : GraphFunction} (h : f.edges.Perm g.edges) : f.nargs = g.nargs := by
  have hcomm : ∀ a ∈ f.edges, ∀ b ∈ f.edges, ∀ nargs,
      definedArguments (definedArguments nargs a) b = definedArguments (definedArguments nargs b) a := by
    rintro ⟨k, e⟩ - ⟨k', e'⟩ - nargs
    cases k <;> cases k' <;> simp only [definedArguments]
    apply UInt32.toNat_inj.mp
    simp only [toNat_max]
    exact max_right_comm ..
  unfold GraphFunction.nargs
  rw [h.foldl_eq' hcomm]

theorem Referenced.of_covered {fs gs : List GraphFunction} (h : Covered fs gs) {n : Node}
    (hn : Referenced fs n) : Referenced gs n := by
  obtain ⟨f, hf, edge, hedge, hout, hne⟩ := hn
  obtain ⟨g, hg, hfunction, hedges⟩ := h.same f hf
  exact ⟨g, hg, edge, hedges.mem_iff.mp hedge, hout, hfunction ▸ hne⟩

section
variable {asserts : Bool} {symbolName : Address → Result String}
  {override_nargs : List (String × UInt16)}

/-- The evidence is the same in any order. -/
theorem Evidence.of_covered {fs gs : List GraphFunction} (h : Covered fs gs) {n : Node} {s : NodeState}
    (hs : Evidence symbolName override_nargs fs n s) : Evidence symbolName override_nargs gs n s := by
  cases hs with
  | call hf hedge hsymbol =>
    obtain ⟨g, hg, -, hedges⟩ := h.same _ hf
    exact .call hg (hedges.mem_iff.mp hedge) hsymbol
  | store hf hedge hsymbol =>
    obtain ⟨g, hg, -, hedges⟩ := h.same _ hf
    exact .store hg (hedges.mem_iff.mp hedge) hsymbol
  | definition hf =>
    obtain ⟨g, hg, hfunction, hedges⟩ := h.same _ hf
    rw [hfunction, nargs_eq_of_perm hedges]
    exact .definition hg
  | reference hn => exact .reference (hn.of_covered h)
  | override hn hname => exact .override (hn.of_covered h) hname

/-- The join of the evidence. -/
abbrev Join (symbolName : Address → Result String) (override_nargs : List (String × UInt16))
    (fs : List GraphFunction) (n : Node) (s : NodeState) : Prop :=
  IsLUB { t | Evidence symbolName override_nargs fs n t } s

theorem evidence_updates (fs : List GraphFunction) (n : Node) :
    evidence symbolName override_nargs (fs.flatMap GraphFunction.updates) n =
      { t | Evidence symbolName override_nargs fs n t } :=
  Set.ext fun _ => mem_evidence

theorem initial_pass_recorded {fs : List GraphFunction} {st : EmitC}
    (h : EmitC.initial_pass asserts symbolName override_nargs fs = .ok st) :
    Recorded symbolName override_nargs (fs.flatMap GraphFunction.updates) st :=
  recorded_foldlM (initial_pass_eq fs ▸ h)

/-- **What the pass finds is the join of the evidence.** -/
theorem initial_pass_states {fs : List GraphFunction} {st : EmitC}
    (h : EmitC.initial_pass asserts symbolName override_nargs fs = .ok st) {n : Node} {s : NodeState} :
    Dict.get? st.node_states n = some s ↔
      (∃ t, Evidence symbolName override_nargs fs n t) ∧ Join symbolName override_nargs fs n s := by
  rw [(initial_pass_recorded h).joined.get?_iff, evidence_updates]
  rfl

/-- The overrides are those of the nodes that other functions mention. -/
theorem initial_pass_overrides {fs : List GraphFunction} {st : EmitC}
    (h : EmitC.initial_pass asserts symbolName override_nargs fs = .ok st) {n : Node} {name : String} :
    Dict.get? st.override_nodes n = some name ↔ Referenced fs n ∧
      ∃ nargs, overrideOf symbolName override_nargs n = .ok (some (name, nargs)) := by
  rw [(initial_pass_recorded h).overrides, override_mem_updates]

/-- **It succeeds when the evidence has joins and the symbols have names.** -/
theorem initial_pass_isOk_iff {fs : List GraphFunction} :
    (∃ st, EmitC.initial_pass asserts symbolName override_nargs fs = .ok st) ↔
      (∀ n, ∃ s, Join symbolName override_nargs fs n s) ∧
        ∀ n, Referenced fs n → ∃ name, symbolName n.symbol = .ok name := by
  rw [initial_pass_eq, foldlM_isOk_iff fun _ hu => updates_symbol hu]
  simp only [evidence_updates, override_mem_updates]

end

/-- **The pass does not depend on the order of the graph.**  It succeeds in both orders or in
neither, with the same states and overrides; the states are the joins of the evidence, and it
succeeds when these exist and the symbols that other functions mention have names. -/
theorem initial_pass_order (asserts : Bool) (symbolName : Address → Result String)
    (override_nargs : List (String × UInt16)) (fs gs : List GraphFunction) (h : Reordered fs gs) :
    let pass := EmitC.initial_pass asserts symbolName override_nargs
    ((∃ st, pass fs = .ok st) ↔ ∃ st, pass gs = .ok st) ∧
      (∀ st st', pass fs = .ok st → pass gs = .ok st' → ∀ n,
        Dict.get? st.node_states n = Dict.get? st'.node_states n ∧
          Dict.get? st.override_nodes n = Dict.get? st'.override_nodes n) ∧
      (∀ st, pass fs = .ok st → ∀ n s, Dict.get? st.node_states n = some s ↔
        (∃ t, Evidence symbolName override_nargs fs n t) ∧ Join symbolName override_nargs fs n s) ∧
      ((∃ st, pass fs = .ok st) ↔ (∀ n, ∃ s, Join symbolName override_nargs fs n s) ∧
        ∀ n, Referenced fs n → ∃ name, symbolName n.symbol = .ok name) := by
  intro pass
  have hevidence : ∀ n, { t | Evidence symbolName override_nargs fs n t } =
      { t | Evidence symbolName override_nargs gs n t } := fun n =>
    Set.ext fun t => ⟨fun ht => ht.of_covered h.covered, fun ht => ht.of_covered h.covers⟩
  have hreferenced : ∀ n, Referenced fs n ↔ Referenced gs n := fun n =>
    ⟨fun hn => hn.of_covered h.covered, fun hn => hn.of_covered h.covers⟩
  refine ⟨?_, ?_, fun st hst n s => initial_pass_states hst, initial_pass_isOk_iff⟩
  · rw [initial_pass_isOk_iff, initial_pass_isOk_iff]
    simp only [Join, hevidence, hreferenced]
  · intro st st' hst hst' n
    constructor
    · refine Option.ext fun s => ?_
      rw [initial_pass_states hst, initial_pass_states hst', Join, Join, hevidence]
      exact and_congr_left fun _ => exists_congr fun t => Set.ext_iff.mp (hevidence n) t
    · refine Option.ext fun name => ?_
      rw [initial_pass_overrides hst, initial_pass_overrides hst', hreferenced]

/-- A function that stores into data and calls two functions. -/
def storing : GraphFunction where
  function := .ofSymbol 1
  num_allocas := 0
  num_locals := 1
  edges := [(.Store, ⟨.ofSymbol 4, .ofLocal 1 0, 0⟩), (.Call, ⟨.ofLocal 1 0, .ofSymbol 2, 1⟩),
    (.Call, ⟨.ofLocal 1 0, .ofSymbol 3, 2⟩)]
  is_symbol := by decide
  locals := by decide

/-- The same function, with its edges the other way round. -/
def storingReversed : GraphFunction where
  function := .ofSymbol 1
  num_allocas := 0
  num_locals := 1
  edges := [(.Call, ⟨.ofLocal 1 0, .ofSymbol 3, 2⟩), (.Call, ⟨.ofLocal 1 0, .ofSymbol 2, 1⟩),
    (.Store, ⟨.ofSymbol 4, .ofLocal 1 0, 0⟩)]
  is_symbol := by decide
  locals := by decide

/-- One of the functions that it calls. -/
def called : GraphFunction where
  function := .ofSymbol 3
  num_allocas := 0
  num_locals := 2
  edges := [(.ArgumentDefinition, ⟨.ofLocal 3 0, .ofSymbol 3, 0⟩),
    (.ArgumentDefinition, ⟨.ofLocal 3 1, .ofSymbol 3, 1⟩)]
  is_symbol := by decide
  locals := by decide

def namesOfFour (addr : Address) : Result String :=
  if addr = 2 then .ok "malloc@GLIBC_2.2.5" else .ok "other"

/-- Two orders of the two functions. -/
theorem storing_order :
    let pass := EmitC.initial_pass true namesOfFour [("malloc", 1)]
    (∃ st, pass [storing, called] = .ok st) ∧ ∃ st, pass [called, storingReversed] = .ok st := by
  have h : Reordered [storing, called] [called, storingReversed] := by
    refine ⟨[called, storing], List.Perm.swap _ _ _, ?_⟩
    refine .cons ⟨rfl, List.Perm.refl _⟩ (.cons ⟨rfl, ?_⟩ .nil)
    exact (List.reverse_perm storing.edges).symm
  have hok : ∃ st, EmitC.initial_pass true namesOfFour [("malloc", 1)] [storing, called] = .ok st :=
    ⟨_, rfl⟩
  exact ⟨hok, (initial_pass_order true namesOfFour [("malloc", 1)] _ _ h).1.mp hok⟩

/-- A function with an edge from a symbol. -/
def referring : GraphFunction where
  function := .ofSymbol 1
  num_allocas := 0
  num_locals := 1
  edges := [(.Assign, ⟨.ofLocal 1 0, .ofSymbol 2, 0⟩)]
  is_symbol := by decide
  locals := by decide

def noNames (_ : Address) : Result String := .error (.error ["Cannot find symbol name for address 2"])

/-- The pass also fails when a symbol has no name, whatever the evidence. -/
theorem referring_fails :
    (∀ n, ∃ s, Join noNames [] [referring] n s) ∧
      ¬ ∃ st, EmitC.initial_pass true noNames [] [referring] = .ok st := by
  constructor
  · intro n
    have hok : ∃ st, EmitC.initial_pass true namesOfFour [] [referring] = .ok st := ⟨_, rfl⟩
    refine FlatOrder.exists_isLUB_mono ?_ ((initial_pass_isOk_iff.mp hok).1 n)
    rintro s (⟨hf, hedge, hn⟩ | ⟨hf, hedge, hn⟩ | hf | hn | ⟨-, hname⟩)
    · exact .call hf hedge hn
    · exact .store hf hedge hn
    · exact .definition hf
    · exact .reference hn
    · cases hname
  · rintro ⟨st, h⟩
    cases h

end Bracelet.Edges.PointsTo
