import Bracelet.PhaseRules

/-!
# What the summaries preserve

Phase 1 substitutes one end of an edge at a time, and drops every tuple with an end
that is not precious.  `DirectFlow` is the flow of symbols along the edges with every
address its own cell: what is stored through a node is loaded through the same node.
The summaries derive all of it, for every program: forwards from its source, a flow
composes in phase 1 by substituting the right end of edges only, up to the parameters,
results and globals where functions meet.
-/
namespace Bracelet

/-! ## Flow through cells -/

inductive CellFact
  /-- The address of symbol `s` may be the value of node `n`. -/
  | value (n : Node) (s : Nat)
  /-- It may be stored at the address that is the value of `n`. -/
  | cell (n : Node) (s : Nat)

open CellFact in
/-- **The flow of symbols**, each address a cell of its own. -/
inductive DirectFlow (P : Program) : CellFact → Prop
  | symbol (s) : DirectFlow P (value (.sym s) s)
  | assign {F dest src idx s} : F ∈ P.functions → ⟨.Assign, dest, src, idx⟩ ∈ F.facts →
      DirectFlow P (value src s) → DirectFlow P (value dest s)
  | load {F into addr idx s} : F ∈ P.functions → ⟨.Load, into, addr, idx⟩ ∈ F.facts →
      DirectFlow P (cell addr s) → DirectFlow P (value into s)
  | store {F addr v idx s} : F ∈ P.functions → ⟨.Store, addr, v, idx⟩ ∈ F.facts →
      DirectFlow P (value v s) → DirectFlow P (cell addr s)
  | argument {F F' G callsite callee n formal v idx s} :
      F ∈ P.functions → ⟨.Call, callsite, callee, n⟩ ∈ F.facts →
      F' ∈ P.functions → ⟨.ArgumentSupply, callsite, v, idx⟩ ∈ F'.facts →
      G ∈ P.functions → ⟨.ArgumentDefinition, formal, .sym G.symbol, idx⟩ ∈ G.facts →
      DirectFlow P (value callee G.symbol) → DirectFlow P (value v s) →
      DirectFlow P (value formal s)
  | returned {F G callsite callee n v idx s} :
      F ∈ P.functions → ⟨.Call, callsite, callee, n⟩ ∈ F.facts →
      G ∈ P.functions → ⟨.Return, .sym G.symbol, v, idx⟩ ∈ G.facts →
      DirectFlow P (value callee G.symbol) → DirectFlow P (value v s) →
      DirectFlow P (value callsite s)

/-! ## The summaries derive the flow -/

section
variable {P : Program}

/-- Phase 1 takes node `n` of `F` to a precious value from which the summaries derive
symbol `s`. -/
def Reaches (P : Program) (F : FunctionFacts) (n : Node) (s : Nat) : Prop :=
  ∃ y, Derives .phase1 F.files (.sub (.ofNode n) y) ∧ Derives .phase1 F.files (.precious y) ∧
    (y = .ofNode (.sym s) ∨ Derives .phase2 P.summaries (.sub y (.ofNode (.sym s))))

/-- The same of what `F` stores at node `n`. -/
def ReachesStored (P : Program) (F : FunctionFacts) (n : Node) (s : Nat) : Prop :=
  ∃ y idx, Derives .phase1 F.files (.Sub .Store (.ofNode n) y idx) ∧
    Derives .phase1 F.files (.precious y) ∧
    (y = .ofNode (.sym s) ∨ Derives .phase2 P.summaries (.sub y (.ofNode (.sym s))))

/-- What the summaries derive of a flow. -/
def Summarises (P : Program) : CellFact → Prop
  | .value (.sym a) s => a = s
  | .value (.loc f i) s => ∀ F ∈ P.functions, F.symbol = f → Reaches P F (.loc f i) s
  | .cell (.sym g) s =>
      Derives .phase2 P.summaries (.sub (Value.ofNode (.sym g)).star (.ofNode (.sym s)))
  | .cell (.loc f i) s => ∀ F ∈ P.functions, F.symbol = f → ReachesStored P F (.loc f i) s

namespace FunctionFacts
variable {F : FunctionFacts}

theorem edge_of_fact {e : Fact} (he : e ∈ F.facts) :
    F.files.edge e.decl (.ofNode e.to_node) (.ofNode e.from_node) e.idx :=
  ⟨e, he, rfl, rfl, rfl, rfl⟩

/-- Every end of an edge is substituted for itself. -/
theorem sub_self {phase : Phase} {e : Fact} (he : e ∈ F.facts) {n : Node}
    (hn : n = e.to_node ∨ n = e.from_node) :
    Derives phase F.files (.sub (.ofNode n) (.ofNode n)) := by
  rcases hn with rfl | rfl
  · exact .refl (.isValueTo (edge_of_fact he))
  · exact .refl (.isValueFrom (edge_of_fact he))

theorem precious_symbol {phase : Phase} {e : Fact} (he : e ∈ F.facts) {s : Nat}
    (hn : e.to_node = .sym s ∨ e.from_node = .sym s) :
    Derives phase F.files (.precious (.ofNode (.sym s))) :=
  .preciousSymbol ⟨_, isSymbol_of_fact he hn, rfl⟩

/-- The cell of a symbol is precious, and known to be its cell. -/
theorem precious_star (phase : Phase) {e : Fact} (he : e ∈ F.facts) {s : Nat}
    (hn : e.to_node = .sym s ∨ e.from_node = .sym s) :
    Derives phase F.files (.precious (Value.ofNode (.sym s)).star) ∧
      F.files.Starred (Value.ofNode (.sym s)).star (.ofNode (.sym s)) := by
  have hseen := (mem_SeenNodes_of_fact he (hn.imp Eq.symm Eq.symm)).1
  exact ⟨.preciousName (precious_symbol he hn) ⟨_, hseen, rfl, by simp [Value.names, Value.star,
    Value.ofNode, Stars.star]⟩, hseen, rfl⟩

end FunctionFacts

open FunctionFacts

/-- A value at one end of an edge reaches what flows into it. -/
theorem reaches_of_operand {F : FunctionFacts} (hF : F ∈ P.functions) {e : Fact}
    (he : e ∈ F.facts) {n : Node} (hn : n = e.to_node ∨ n = e.from_node) {s : Nat}
    (h : Summarises P (.value n s)) : Reaches P F n s := by
  cases n with
  | sym a =>
    cases h
    exact ⟨_, sub_self he hn, precious_symbol he (hn.imp Eq.symm Eq.symm), Or.inl rfl⟩
  | loc f i =>
    refine h F hF ?_
    have hown := (P.recorded F hF).owned e he
    rcases hn with hn | hn
    · exact (hn ▸ hown.1 (hn ▸ rfl) : (Node.loc f i).symbol = F.symbol).symm
    · exact (hn ▸ hown.2 (hn ▸ rfl) : (Node.loc f i).symbol = F.symbol).symm

/-- The right end of an edge is substituted by what it reaches. -/
theorem sub_right {F : FunctionFacts} {e : Fact} (he : e ∈ F.facts) (hty : e.decl.from_ty = .Value)
    {s : Nat} (h : Reaches P F e.from_node s) :
    ∃ y, Derives .phase1 F.files (.Sub e.decl (.ofNode e.to_node) y e.idx) ∧
      Derives .phase1 F.files (.precious y) ∧
      (y = .ofNode (.sym s) ∨ Derives .phase2 P.summaries (.sub y (.ofNode (.sym s)))) := by
  obtain ⟨y, hsub, hp, hy⟩ := h
  exact ⟨y, .subFrom hty (edge_of_fact he) hsub, hp, hy⟩

namespace Summary

theorem edge {F : FunctionFacts} (hF : F ∈ P.functions) {d : Decl} {x y : Value} {idx : Nat}
    (h : Derives .phase1 F.files (.Sub d x y idx)) (hx : Derives .phase1 F.files (.precious x))
    (hy : Derives .phase1 F.files (.precious y)) : P.summaries.edge d x y idx :=
  ⟨F, hF, .preciousSub h hx hy⟩

/-- Phase 2 goes on from a summarised edge to what its right end reaches. -/
theorem sub_right {d : Decl} {x y : Value} {idx s : Nat} (h : P.summaries.edge d x y idx)
    (hty : d.from_ty = .Value)
    (hy : y = .ofNode (.sym s) ∨ Derives .phase2 P.summaries (.sub y (.ofNode (.sym s)))) :
    Derives .phase2 P.summaries (.Sub d x (.ofNode (.sym s)) idx) := by
  refine .subFrom hty h ?_
  rcases hy with rfl | hy
  · exact .refl (.isValueFrom h)
  · exact hy

end Summary

/-- Joining a step of phase 2 to what its end reaches. -/
theorem sub_trans {x y : Value} {s : Nat} (h : Derives .phase2 P.summaries (.sub x y))
    (hy : y = .ofNode (.sym s) ∨ Derives .phase2 P.summaries (.sub y (.ofNode (.sym s)))) :
    Derives .phase2 P.summaries (.sub x (.ofNode (.sym s))) := by
  rcases hy with rfl | hy
  · exact h
  · exact .trans rfl h hy

/-- The summaries know the callee of a call a symbol flows to. -/
theorem summary_call {F : FunctionFacts} (hF : F ∈ P.functions) {callsite callee : Node}
    {n g : Nat} (he : ⟨.Call, callsite, callee, n⟩ ∈ F.facts)
    (h : Summarises P (.value callee g)) :
    Derives .phase2 P.summaries (.Sub .Call (.ofNode callsite) (.ofNode (.sym g)) n) := by
  obtain ⟨y, hsub, hp, hy⟩ := Bracelet.sub_right he rfl (reaches_of_operand hF he (Or.inr rfl) h)
  exact Summary.sub_right (Summary.edge hF hsub (.preciousCall (edge_of_fact he)) hp) rfl hy

theorem summarises_of_local {n : Node} (hl : n.isLocal = true) {s : Nat}
    (h : ∀ F ∈ P.functions, F.symbol = n.symbol → Reaches P F n s) :
    Summarises P (.value n s) := by
  cases n with
  | sym a => cases hl
  | loc f i => exact h

/-- What flows into a call site or a parameter reaches it from outside the function. -/
theorem reaches_precious {F : FunctionFacts} (hF : F ∈ P.functions) {e : Fact} (he : e ∈ F.facts)
    (hp : Derives .phase1 F.files (.precious (.ofNode e.to_node)))
    (hl : e.to_node.isLocal = true) {s : Nat}
    (h : Derives .phase2 P.summaries (.sub (.ofNode e.to_node) (.ofNode (.sym s)))) :
    Summarises P (.value e.to_node s) := by
  refine summarises_of_local hl fun G hG hsym => ?_
  obtain rfl : G = F :=
    Program.eq_of_symbol hG hF (hsym.trans (((P.recorded F hF).owned e he).1 hl))
  exact ⟨_, sub_self he (Or.inl rfl), hp, Or.inr h⟩

/-- **The summaries derive every flow.** -/
theorem summarises_flow {fact : CellFact} (h : DirectFlow P fact) : Summarises P fact := by
  induction h with
  | symbol s => rfl
  | @assign F dest src idx s hF he _ ih =>
    have hl := (P.recorded F hF).to_local _ he (by simp)
    refine summarises_of_local hl fun G hG hsym => ?_
    obtain rfl : G = F :=
      Program.eq_of_symbol hG hF (hsym.trans (((P.recorded F hF).owned _ he).1 hl))
    obtain ⟨y, hsub, hp, hy⟩ := sub_right he rfl (reaches_of_operand hF he (Or.inr rfl) ih)
    exact ⟨y, .assign hsub, hp, hy⟩
  | @load F into addr idx s hF he _ ih =>
    have hl := (P.recorded F hF).to_local _ he (by simp)
    have hown := (P.recorded F hF).owned _ he
    refine summarises_of_local hl fun G hG hsym => ?_
    obtain rfl : G = F := Program.eq_of_symbol hG hF (hsym.trans (hown.1 hl))
    have hsub : Derives .phase1 G.files (.Sub .Load (.ofNode into) (.ofNode addr) idx) :=
      .subTo rfl (by decide) (edge_of_fact he) (sub_self he (Or.inl rfl))
    cases addr with
    | sym g =>
      -- a global: the flow goes on in phase 2, from its cell
      obtain ⟨hp, hst⟩ := precious_star .phase1 he (s := g) (Or.inr rfl)
      exact ⟨_, .loadStar hst hsub, hp, Or.inr ih⟩
    | loc f i =>
      -- a local: what is stored there was stored by the same function
      obtain ⟨y, j, hstore, hp, hy⟩ := ih G hG (hown.2 rfl).symm
      exact ⟨y, .loadStore rfl hsub hstore, hp, hy⟩
  | @store F addr v idx s hF he _ ih =>
    have hown := (P.recorded F hF).owned _ he
    obtain ⟨y, hsub, hp, hy⟩ := sub_right he rfl (reaches_of_operand hF he (Or.inr rfl) ih)
    cases addr with
    | sym g =>
      obtain ⟨hpstar, hst⟩ := precious_star .phase1 he (s := g) (Or.inl rfl)
      have hedge := Summary.edge hF hsub (precious_symbol he (Or.inl rfl)) hp
      exact .storeStar ⟨F, hF, .preciousStarred hst hpstar⟩ (Summary.sub_right hedge rfl hy)
    | loc f i =>
      intro G hG hsym
      obtain rfl : G = F := Program.eq_of_symbol hG hF (hsym.trans (hown.1 rfl))
      exact ⟨y, idx, hsub, hp, hy⟩
  | @argument F F' G callsite callee n formal v idx s hF hc hF' hs hG hd _ _ ihc ihv =>
    have hcall := summary_call hF hc ihc
    obtain ⟨y, hsub, hp, hy⟩ := sub_right hs rfl (reaches_of_operand hF' hs (Or.inr rfl) ihv)
    have hcs : Derives .phase1 F'.files (.precious (.ofNode callsite)) := by
      have hl := (P.recorded F hF).to_local _ hc (by simp)
      obtain rfl : F = F' := Program.eq_of_symbol hF hF'
        ((((P.recorded F hF).owned _ hc).1 hl).symm.trans (((P.recorded F' hF').owned _ hs).1 hl))
      exact .preciousCall (edge_of_fact hc)
    have hsupply := Summary.edge hF' hsub hcs hp
    have hpd : Derives .phase1 G.files (.precious (.ofNode formal)) :=
      .preciousDefinition (edge_of_fact hd)
    have hdef : P.summaries.edge .ArgumentDefinition (.ofNode formal) (.ofNode (.sym G.symbol)) idx :=
      Summary.edge hG (.subTo rfl (by decide) (edge_of_fact hd) (sub_self hd (Or.inl rfl))) hpd
        (precious_symbol hd (Or.inr rfl))
    refine reaches_precious hG hd hpd ((P.recorded G hG).to_local _ hd (by simp)) ?_
    exact .argument (Summary.sub_right hsupply rfl hy) hcall
      (.subTo rfl (by decide) hdef (.refl (.isValueTo hdef)))
  | @returned F G callsite callee n v idx s hF hc hG hv _ _ ihc ihv =>
    have hcall := summary_call hF hc ihc
    obtain ⟨y, hsub, hp, hy⟩ := sub_right hv rfl (reaches_of_operand hG hv (Or.inr rfl) ihv)
    have hret := Summary.edge hG hsub (precious_symbol hv (Or.inl rfl)) hp
    exact reaches_precious hF hc (.preciousCall (edge_of_fact hc))
      ((P.recorded F hF).to_local _ hc (by simp))
      (.returned hcall (Summary.sub_right hret rfl hy))

end
end Bracelet
