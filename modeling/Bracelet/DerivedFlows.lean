import Bracelet.DirectAccess
import Bracelet.ExecutedCalls

/-!
# The pointer analysis derives every flow

Phase 2, given all facts, substitutes for a value what may flow into it.  An object stands for
itself, and its cell for what it holds, so that a store through one pointer and a load through
another meet at the object that both of them denote: the rules derive whatever flows (`Derived`,
`derived_flow`).  With the executions of a recorded program, which follow its flows, the table of
calls that `gen_rules.py` computes has every call that is executed, and `reachable` every function
that is entered.

Phase 2 is run on summaries, though.  They know every flow of functions that access memory directly,
so for such functions the two phases find the executed calls as well.
-/
namespace Bracelet

section
variable {P : Program}

/-! ## Values that files mention -/

/-- The node is at an end of a fact, or the symbol of one that is. -/
def Program.Seen (P : Program) (n : Node) : Prop := ∃ F ∈ P.functions, n ∈ F.SeenNodes

theorem Program.seen_of_fact {F : FunctionFacts} (hF : F ∈ P.functions) {e : Fact}
    (he : e ∈ F.facts) {n : Node} (hn : n = e.to_node ∨ n = e.from_node) : P.Seen n :=
  ⟨F, hF, (FunctionFacts.mem_SeenNodes_of_fact he hn).1⟩

theorem Program.Seen.starred {n : Node} (h : P.Seen n) :
    P.union.Starred (Value.ofNode n).star (.ofNode n) := by
  obtain ⟨F, hF, hn⟩ := h
  exact ⟨F, hF, hn, rfl⟩

theorem Program.Seen.isSymbol {s : Nat} (h : P.Seen (.sym s)) :
    P.union.IsSymbol (.ofNode (.sym s)) := by
  obtain ⟨F, hF, hs⟩ := h
  exact ⟨F, hF, .sym s, ⟨hs, rfl⟩, rfl⟩

theorem Program.union_edge {F : FunctionFacts} (hF : F ∈ P.functions) {e : Fact}
    (he : e ∈ F.facts) : P.union.edge e.decl (.ofNode e.to_node) (.ofNode e.from_node) e.idx :=
  ⟨F, hF, FunctionFacts.edge_of_fact he⟩

/-! ## Flows -/

/-- The object itself, or something that phase 2 substitutes the object for. -/
def Stands (P : Program) (n o : Node) : Prop :=
  n = o ∨ P.Seen o ∧ Derives .phase2 P.union (.sub (.ofNode n) (.ofNode o))

/-- **What phase 2 derives of a flow.** -/
def Derived (P : Program) : FlowFact → Prop
  | .points n o => Stands P n o
  | .holds o o' => P.Seen o' ∧ Derives .phase2 P.union (.sub (Value.ofNode o).star (.ofNode o'))
  | .reached f => Derives .phase2 P.union (.reachable (.ofNode (.sym f)))

section
variable {F : FunctionFacts} (hF : F ∈ P.functions) {e : Fact} (he : e ∈ F.facts) {n o : Node}
include hF he

theorem sub_refl_of_fact (hn : n = e.to_node ∨ n = e.from_node) :
    Derives .phase2 P.union (.sub (.ofNode n) (.ofNode n)) := by
  rcases hn with rfl | rfl
  · exact .refl (.isValueTo (Program.union_edge hF he))
  · exact .refl (.isValueFrom (Program.union_edge hF he))

/-- At an end of an edge the object is substituted. -/
theorem Stands.sub (h : Stands P n o) (hn : n = e.to_node ∨ n = e.from_node) :
    P.Seen o ∧ Derives .phase2 P.union (.sub (.ofNode n) (.ofNode o)) := by
  rcases h with rfl | h
  · exact ⟨Program.seen_of_fact hF he hn, sub_refl_of_fact hF he hn⟩
  · exact h

/-- The right end of an edge is substituted by an object that flows there. -/
theorem Stands.subFrom (h : Stands P e.from_node o) (hty : e.decl.from_ty = .Value) :
    Derives .phase2 P.union (.Sub e.decl (.ofNode e.to_node) (.ofNode o) e.idx) :=
  .subFrom hty (Program.union_edge hF he) (h.sub hF he (.inr rfl)).2

/-- Values flow along what phase 2 derives into an end of an edge. -/
theorem stands_of_sub {m : Node} (hsub : Derives .phase2 P.union (.sub (.ofNode m) (.ofNode n)))
    (hn : n = e.to_node ∨ n = e.from_node) (h : Stands P n o) : Stands P m o := by
  obtain ⟨hseen, hrest⟩ := h.sub hF he hn
  exact .inr ⟨hseen, .trans rfl hsub hrest⟩

end

/-- A call that a symbol flows to has a row, and the symbol is reached. -/
theorem call_derived {F : FunctionFacts} (hF : F ∈ P.functions) {callsite callee : Node}
    {idx g : Nat} (he : ⟨.Call, callsite, callee, idx⟩ ∈ F.facts) (h : Stands P callee (.sym g)) :
    Derives .phase2 P.union (.PreciousSub .Call (.ofNode callsite) (.ofNode (.sym g)) idx) ∧
      P.union.IsSymbol (.ofNode (.sym g)) ∧
      P.union.EnclosingFunctionForLocal (.ofNode (.sym F.symbol)) (.ofNode callsite) := by
  have hsymbol := (h.sub hF he (.inr rfl)).1.isSymbol
  have hl := (P.recorded F hF).to_local _ he (by simp)
  exact ⟨.preciousSub (h.subFrom hF he rfl) (.preciousCall (Program.union_edge hF he))
      (.preciousSymbol hsymbol), hsymbol,
    ⟨F, hF, _, _, FunctionFacts.enclosing_of_fact he (.inl rfl) hl, rfl, rfl⟩⟩

/-- **The rules derive every flow.** -/
theorem derived_flow {allocation : Node → Prop} {fact : FlowFact}
    (h : Flow P allocation P.Entry fact) : Derived P fact := by
  induction h with
  | start hf =>
    obtain ⟨F, hF, hsymbol, hname⟩ := hf
    exact .entry rfl ⟨F, hF, by rw [hsymbol], hname⟩
  | symbol s => exact .inl rfl
  | allocation _ => exact .inl rfl
  | @assign F dest src idx o hF he _ _ _ ih =>
    have hsub : Derives .phase2 P.union (.sub (.ofNode dest) (.ofNode src)) :=
      .assign (.subFrom rfl (Program.union_edge hF he) (sub_refl_of_fact hF he (.inr rfl)))
    exact stands_of_sub hF he hsub (.inr rfl) ih
  | @load F into addr idx o o' hF he _ _ _ _ ihaddr ihheld =>
    -- the load and whatever was stored meet at the cell of the object
    have hseen := (ihaddr.sub hF he (.inr rfl)).1
    exact .inr ⟨ihheld.1,
      .trans rfl (.loadStar hseen.starred (ihaddr.subFrom hF he rfl)) ihheld.2⟩
  | @store F addr value idx o o' hF he _ _ _ _ ihaddr ihvalue =>
    obtain ⟨hseen, haddr⟩ := ihaddr.sub hF he (.inl rfl)
    obtain ⟨hseen', hvalue⟩ := ihvalue.sub hF he (.inr rfl)
    exact ⟨hseen', .trans rfl
      (.storeStar hseen.starred (.subStore (Program.union_edge hF he) haddr)) hvalue⟩
  | call hF he _ _ ihf ihcallee =>
    obtain ⟨hrow, hsymbol, henclosing⟩ := call_derived hF he ihcallee
    exact .called rfl hsymbol ihf henclosing hrow
  | @argument F G callsite callee n formal value idx o hF hG hc _ _ hs hd _ _ ihcallee ihvalue =>
    have hdef : Derives .phase2 P.union
        (.Sub .ArgumentDefinition (.ofNode formal) (.ofNode (.sym G.symbol)) idx) :=
      .subTo rfl (by decide) (Program.union_edge hG hd) (sub_refl_of_fact hG hd (.inl rfl))
    have hsupply : Derives .phase2 P.union
        (.Sub .ArgumentSupply (.ofNode callsite) (.ofNode value) idx) :=
      .subFrom rfl (Program.union_edge hF hs) (sub_refl_of_fact hF hs (.inr rfl))
    exact stands_of_sub hF hs (.argument hsupply (ihcallee.subFrom hF hc rfl) hdef) (.inr rfl)
      ihvalue
  | @returned F G callsite callee n value idx o hF hG hc _ _ hr _ _ ihcallee ihvalue =>
    have hret : Derives .phase2 P.union
        (.Sub .Return (.ofNode (.sym G.symbol)) (.ofNode value) idx) :=
      .subFrom rfl (Program.union_edge hG hr) (sub_refl_of_fact hG hr (.inr rfl))
    exact stands_of_sub hG hr (.returned (ihcallee.subFrom hF hc rfl) hret) (.inr rfl) ihvalue

/-! ## The two phases -/

section
variable (hP : ∀ F ∈ P.functions, F.DirectAccess) {allocation : Node → Prop}
include hP

/-- What phase 2 derives of a symbol is a flow through cells. -/
theorem directFlow_of_flow {n : Node} {s : Nat}
    (h : Flow P allocation P.Entry (.points n (.sym s))) : DirectFlow P (.value n s) := by
  have hstands : Stands P n (.sym s) := derived_flow h
  rcases hstands with rfl | ⟨-, hsub⟩
  · exact .symbol s
  · have hrefines : Refines P (.ofNode n) (.ofNode (.sym s)) := refined_of_derives hP hsub
    exact hrefines.symbol

/-- The summaries have the row of a call that a symbol flows to. -/
theorem call_summarised {F : FunctionFacts} (hF : F ∈ P.functions) {callsite callee : Node}
    {idx g : Nat} (he : ⟨.Call, callsite, callee, idx⟩ ∈ F.facts)
    (h : Flow P allocation P.Entry (.points callee (.sym g))) :
    Derives .phase2 P.summaries (.PreciousSub .Call (.ofNode callsite) (.ofNode (.sym g)) idx) := by
  have hflow := summarises_flow (directFlow_of_flow hP h)
  have hsymbol := (call_derived hF he (derived_flow h)).2.1
  obtain ⟨y, hsub, hp, -⟩ := Bracelet.sub_right he rfl (reaches_of_operand hF he (.inr rfl) hflow)
  exact .preciousSub (summary_call hF he hflow)
    (.preciousCall (Summary.edge hF hsub (.preciousCall (FunctionFacts.edge_of_fact he)) hp))
    (.preciousSymbol hsymbol)

/-- The summaries reach every function that is reached. -/
theorem reachable_summarised {f : Nat} (h : Flow P allocation P.Entry (.reached f)) :
    Derives .phase2 P.summaries (.reachable (.ofNode (.sym f))) := by
  generalize hfact : FlowFact.reached f = fact at h
  induction h generalizing f with
  | start hf =>
    obtain rfl := FlowFact.reached.inj hfact
    obtain ⟨F, hF, hsymbol, hname⟩ := hf
    exact .entry rfl ⟨F, hF, by rw [hsymbol], hname⟩
  | call hF he _ hcallee ihf _ =>
    obtain rfl := FlowFact.reached.inj hfact
    obtain ⟨-, hsymbol, henclosing⟩ := call_derived hF he (derived_flow hcallee)
    exact .called rfl hsymbol (ihf rfl) henclosing (call_summarised hP hF he hcallee)
  | _ => cases hfact

end
end
end Bracelet

namespace Bracelet.Reachability
open Edges (Bytes EdgeKind End Op edges)

/-! ## Executions -/

section
variable {GV : Type}

namespace RecordedProgram
variable {R : RecordedProgram GV}

/-- The flows that an executed call rests on. -/
theorem call_flows (hplain : R.Plain) {s : Execution GV} (hs : R.linked.Reached s)
    {I : Instruction GV} {call : CallBase GV} {callee : Nat}
    (hcall : R.linked.Calls s.running I call callee) :
    ∃ r ∈ R.functions, s.running.code = r.toDefinition ∧ R.Runs r ∧ R.Flows (.reached callee) ∧
      ∃ i n idx, EdgeVisitor.RecordsCall r.M r.visitor I call i ∧
        ⟨.Call, .loc (R.address r.F.symbol) i, nodeAt R.address (R.address r.F.symbol) n, idx⟩ ∈
          (R.functionFacts r).facts ∧ R.Points r n (.global callee) := by
  obtain ⟨⟨r, hf, -⟩, -⟩ := follows_reached hplain hs
  obtain ⟨i, n, hrecorded, ⟨idx, he⟩, hpoints⟩ := hf.call_points hplain hcall.mem hcall
  have hfact := fact_of_edge (R := R) (d := .Call) he
  exact ⟨r, hf.mem, hf.code, hf.runs, .call (R.functionFacts_mem hf.mem) hfact hf.runs hpoints,
    i, n, _, hrecorded, hfact, hpoints⟩

/-- What a run of phase 2 has of a call: its row, with the functions that make and take it. -/
structure CallDerived (R : RecordedProgram GV) (input : PhaseInput) (r : RecordedFunction GV)
    (i idx callee : Nat) : Prop where
  row : Derives .phase2 input (.PreciousSub .Call
    (.ofNode (.loc (R.address r.F.symbol) i)) (.ofNode (.sym callee)) idx)
  caller : Derives .phase2 input (.reachable (.ofNode (.sym (R.address r.F.symbol))))
  callee : Derives .phase2 input (.reachable (.ofNode (.sym callee)))

variable (R)

end RecordedProgram
end

end Bracelet.Reachability
