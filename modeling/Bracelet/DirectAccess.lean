import Bracelet.Summaries

/-!
# Programs that access memory directly

A function accesses memory directly when every local it loads or stores through is
nothing but an address: an `alloca` that is not copied, passed or stored.  Nothing is
substituted for such an address, so what phase 2 derives of all facts is a flow
through cells, and the summaries derive every flow.

A store through a computed pointer is another matter.  When neither its address nor
the value it stores is precious, both ends have to be substituted to join precious
values, and phase 1 substitutes one of them.
-/
namespace Bracelet

namespace Fact

/-- The operand through which an edge accesses memory. -/
def address (e : Fact) : Option Node :=
  match e.decl with
  | .Load => some e.from_node
  | .Store => some e.to_node
  | _ => none

/-- The ends of an edge that are not addresses. -/
def operands (e : Fact) : List Node :=
  match e.decl with
  | .Load => [e.to_node]
  | .Store => [e.from_node]
  | _ => [e.to_node, e.from_node]

end Fact

/-- A local through which the function accesses memory is nothing but an address. -/
def FunctionFacts.DirectAccess (F : FunctionFacts) : Prop :=
  ∀ e ∈ F.facts, ∀ a ∈ e.address, a.isLocal = true → ∀ e' ∈ F.facts, a ∉ e'.operands

instance (F : FunctionFacts) : Decidable F.DirectAccess :=
  inferInstanceAs (Decidable (∀ e ∈ F.facts, ∀ a ∈ e.address, a.isLocal = true →
    ∀ e' ∈ F.facts, a ∉ e'.operands))

section
variable {P : Program}

/-- The node is a symbol, or memory is accessed through it. -/
def Program.IsAddress (P : Program) (n : Node) : Prop :=
  n.isLocal = false ∨ ∃ F ∈ P.functions, ∃ e ∈ F.facts, n ∈ e.address

theorem Program.isAddress_of_mem {F : FunctionFacts} (hF : F ∈ P.functions) {e : Fact}
    (he : e ∈ F.facts) {a : Node} (ha : a ∈ e.address) : P.IsAddress a :=
  .inr ⟨F, hF, e, he, ha⟩

/-- An end of an edge of `F` that is a local belongs to `F`. -/
theorem Program.owner {F : FunctionFacts} (hF : F ∈ P.functions) {e : Fact} (he : e ∈ F.facts)
    {n : Node} (hn : n = e.to_node ∨ n = e.from_node) (hl : n.isLocal = true) :
    n.symbol = F.symbol := by
  have hown := (P.recorded F hF).owned e he
  rcases hn with rfl | rfl
  · exact hown.1 hl
  · exact hown.2 hl

theorem Fact.end_of_address {e : Fact} {n : Node} (h : n ∈ e.address) :
    n = e.to_node ∨ n = e.from_node := by
  unfold Fact.address at h
  split at h <;> simp_all

theorem Fact.end_of_operands {e : Fact} {n : Node} (h : n ∈ e.operands) :
    n = e.to_node ∨ n = e.from_node := by
  unfold Fact.operands at h
  split at h <;> simp_all

theorem Program.not_isAddress (hP : ∀ F ∈ P.functions, F.DirectAccess) {F : FunctionFacts}
    (hF : F ∈ P.functions) {e : Fact} (he : e ∈ F.facts) {n : Node} (hn : n ∈ e.operands)
    (hl : n.isLocal = true) : ¬ P.IsAddress n := by
  rintro (h | ⟨G, hG, e', he', ha⟩)
  · simp [hl] at h
  · obtain rfl : F = G := Program.eq_of_symbol hF hG
      ((Program.owner hF he (Fact.end_of_operands hn) hl).symm.trans
        (Program.owner hG he' (Fact.end_of_address ha) hl))
    exact hP F hF e' he' n ha hl e he hn

/-- What a value may be in a flow; the values direct accesses do not meet may be
anything. -/
def flowsTo (P : Program) : Value → Set Nat
  | ⟨.none, n⟩ => {s | DirectFlow P (.value n s)}
  | ⟨.one, n⟩ => {s | P.IsAddress n → DirectFlow P (.cell n s)}
  | _ => Set.univ

/-- Nothing is substituted for an address. -/
def Program.Fixed (P : Program) (v : Value) : Prop := v.stars = .none ∧ P.IsAddress v.node

/-- `y` may be substituted for `x`. -/
structure Refines (P : Program) (x y : Value) : Prop where
  flows : flowsTo P y ⊆ flowsTo P x
  fixed : P.Fixed x → y = x

theorem Refines.refl (x : Value) : Refines P x x := ⟨Set.Subset.rfl, fun _ => rfl⟩

theorem Refines.trans {x y z : Value} (hxy : Refines P x y) (hyz : Refines P y z) :
    Refines P x z := by
  refine ⟨hyz.flows.trans hxy.flows, fun hx => ?_⟩
  obtain rfl := hxy.fixed hx
  exact hyz.fixed hx

/-- Into a value that is not an address only the flow matters. -/
theorem Refines.of_flows {x y : Value} (hx : ¬ P.Fixed x) (h : flowsTo P y ⊆ flowsTo P x) :
    Refines P x y := ⟨h, fun hf => absurd hf hx⟩

theorem Program.not_fixed_star (v : Value) : ¬ P.Fixed v.star := by
  unfold Program.Fixed Value.star Stars.star
  cases v.stars <;> simp

theorem Refines.star {x y : Value} (h : Refines P x y) : Refines P x.star y.star := by
  refine .of_flows (Program.not_fixed_star x) ?_
  by_cases hx : P.Fixed x
  · rw [h.fixed hx]
  · obtain ⟨st, n⟩ := x
    cases st with
    | none =>
      have hn : ¬ P.IsAddress n := fun hn => hx ⟨rfl, hn⟩
      intro s _ hn'
      exact absurd hn' hn
    | one | two | three | more => exact Set.subset_univ _

/-- An edge of phase 2 comes from a fact, with its columns of values substituted. -/
structure Substituted (P : Program) (d : Decl) (x y : Value) (idx : Nat) (F : FunctionFacts)
    (e : Fact) : Prop where
  mem : F ∈ P.functions
  fact : e ∈ F.facts
  decl : e.decl = d
  idx : e.idx = idx
  left : Refines P x (.ofNode e.to_node)
  right : Refines P (.ofNode e.from_node) y
  fixed_left : d.to_ty ≠ .Value ∨ d = .Store → x = .ofNode e.to_node
  fixed_right : d.from_ty ≠ .Value → y = .ofNode e.from_node

/-- What holds of the tuples phase 2 derives of all facts. -/
def Refined (P : Program) : PhaseTuple → Prop
  | .sub x y => Refines P x y
  | .Sub d x y idx => ∃ F e, Substituted P d x y idx F e
  | _ => True

/-- An edge stands for itself. -/
theorem Substituted.of_edge {d : Decl} {x y : Value} {idx : Nat} (h : P.union.edge d x y idx) :
    ∃ F e, Substituted P d x y idx F e ∧ x = .ofNode e.to_node ∧ y = .ofNode e.from_node := by
  obtain ⟨F, hF, e, he, hd, rfl, rfl, hidx⟩ := h
  exact ⟨F, e, ⟨hF, he, hd, hidx.symm, .refl _, .refl _, fun _ => rfl, fun _ => rfl⟩, rfl, rfl⟩

section
variable (hP : ∀ F ∈ P.functions, F.DirectAccess) {x y : Value} {idx : Nat} {F : FunctionFacts}
  {e : Fact}
include hP

/-- The left end of an edge into a local is not an address. -/
theorem Substituted.not_fixed {d : Decl} (h : Substituted P d x y idx F e)
    (hd : d ∈ [Decl.Assign, .Load, .Call, .ArgumentDefinition, .ArgumentSupply]) :
    ¬ P.Fixed x := by
  intro hx
  have hl := (P.recorded F h.mem).to_local e h.fact (h.decl ▸ hd)
  have heq := h.left.fixed hx
  refine Program.not_isAddress hP h.mem h.fact ?_ hl (heq ▸ hx : P.Fixed (.ofNode e.to_node)).2
  obtain ⟨d, to_node, from_node, i⟩ := e
  obtain rfl : d = _ := h.decl
  cases d <;> simp [Fact.operands] at hd ⊢

theorem Substituted.assign (h : Substituted P .Assign x y idx F e) : Refines P x y := by
  refine .of_flows (h.not_fixed hP (by simp)) (h.right.flows.trans (.trans ?_ h.left.flows))
  obtain ⟨d, to_node, from_node, i⟩ := e
  obtain rfl : d = .Assign := h.decl
  exact fun s hs => .assign h.mem h.fact hs

/-- What a load reads flows from the cell of its address. -/
theorem Substituted.load (h : Substituted P .Load x y idx F e) : Refines P x y.star := by
  refine .of_flows (h.not_fixed hP (by simp)) (.trans ?_ h.left.flows)
  obtain ⟨d, to_node, from_node, i⟩ := e
  obtain rfl : d = .Load := h.decl
  have haddr := P.isAddress_of_mem h.mem h.fact (a := from_node) rfl
  obtain rfl := h.right.fixed ⟨rfl, haddr⟩
  exact fun s hs => .load h.mem h.fact (hs haddr)

omit hP in
/-- What is stored flows to the cell of the address. -/
theorem Substituted.store (h : Substituted P .Store x y idx F e) : Refines P x.star y := by
  refine .of_flows (Program.not_fixed_star x) (h.right.flows.trans ?_)
  obtain ⟨d, to_node, from_node, i⟩ := e
  obtain rfl : d = .Store := h.decl
  obtain rfl := h.fixed_left (Or.inr rfl)
  exact fun s hs _ => .store h.mem h.fact hs

omit hP in
/-- Nothing is substituted for the address of a store. -/
theorem Substituted.store_fixed {x' : Value} (h : Substituted P .Store x y idx F e)
    (hx : Refines P x x') : x' = x := by
  obtain ⟨d, to_node, from_node, i⟩ := e
  obtain rfl : d = .Store := h.decl
  obtain rfl := h.fixed_left (Or.inr rfl)
  exact hx.fixed ⟨rfl, P.isAddress_of_mem h.mem h.fact rfl⟩

omit hP in
/-- The symbol itself flows from every value it may be substituted for. -/
theorem Refines.symbol {n : Node} {s : Nat} (h : Refines P (.ofNode n) (.ofNode (.sym s))) :
    DirectFlow P (.value n s) := h.flows (DirectFlow.symbol s)

theorem Substituted.returned {f : Value} {i : Nat} {G : FunctionFacts} {e' : Fact}
    (h : Substituted P .Call x f idx F e) (hr : Substituted P .Return f y i G e') :
    Refines P x y := by
  refine .of_flows (h.not_fixed hP (by simp)) (hr.right.flows.trans ?_)
  obtain rfl := h.fixed_left (Or.inl (by decide))
  obtain rfl := hr.fixed_left (Or.inl (by decide))
  obtain ⟨d, callsite, callee, n⟩ := e
  obtain rfl : d = .Call := h.decl
  have hret := (P.recorded G hr.mem).returned e' hr.fact hr.decl
  obtain ⟨d, f, v, j⟩ := e'
  obtain rfl : d = .Return := hr.decl
  obtain rfl : f = .sym G.symbol := hret
  exact fun s hs => .returned h.mem h.fact hr.mem hr.fact h.right.symbol hs

theorem Substituted.argument {cs f v : Value} {n : Nat} {F' G : FunctionFacts} {e' e'' : Fact}
    (hs : Substituted P .ArgumentSupply cs v idx F' e') (hc : Substituted P .Call cs f n F e)
    (hd : Substituted P .ArgumentDefinition x f idx G e'') : Refines P x v := by
  refine .of_flows (hd.not_fixed hP (by simp)) (hs.right.flows.trans (.trans ?_ hd.left.flows))
  have hcs := (hs.fixed_left (Or.inl (by decide))).symm.trans (hc.fixed_left (Or.inl (by decide)))
  obtain rfl := hd.fixed_right (by decide)
  obtain ⟨d, callsite, callee, n⟩ := e
  obtain rfl : d = .Call := hc.decl
  obtain ⟨d, callsite', arg, j⟩ := e'
  obtain rfl : d = .ArgumentSupply := hs.decl
  obtain rfl : callsite' = callsite := congrArg Value.node hcs
  have hdef := (P.recorded G hd.mem).definition e'' hd.fact hd.decl
  obtain ⟨d, formal, f, k⟩ := e''
  obtain rfl : d = .ArgumentDefinition := hd.decl
  obtain rfl : f = .sym G.symbol := hdef
  obtain rfl : j = idx := hs.idx
  obtain rfl : k = j := hd.idx
  exact fun s hflow => .argument hc.mem hc.fact hs.mem hs.fact hd.mem hd.fact hc.right.symbol hflow

end

/-- **When memory is accessed directly, phase 2 derives flows only.** -/
theorem refined_of_derives (hP : ∀ F ∈ P.functions, F.DirectAccess) {t : PhaseTuple}
    (h : Derives .phase2 P.union t) : Refined P t := by
  induction h with
  | subTo hty hst he _ ih =>
    obtain ⟨F, e, hs, rfl, rfl⟩ := Substituted.of_edge he
    refine ⟨F, e, { hs with left := ih, fixed_left := ?_ }⟩
    rintro (h | rfl)
    · exact absurd hty h
    · exact absurd rfl hst
  | subFrom hty he _ ih =>
    obtain ⟨F, e, hs, rfl, rfl⟩ := Substituted.of_edge he
    exact ⟨F, e, { hs with right := ih, fixed_right := fun h => absurd hty h }⟩
  | subStore he _ ih =>
    obtain ⟨F, e, hs, rfl, rfl⟩ := Substituted.of_edge he
    obtain rfl := hs.store_fixed ih
    exact ⟨F, e, hs⟩
  | star _ _ hd hs ih =>
    obtain ⟨_, _, _, rfl⟩ := hd
    obtain ⟨_, _, _, rfl⟩ := hs
    exact ih.star
  | trans _ _ _ ih ih' => exact ih.trans ih'
  | loadStore hph => cases hph
  | storeStar hst _ ih =>
    obtain ⟨_, _, _, rfl⟩ := hst
    obtain ⟨F, e, hs⟩ := ih
    exact hs.store
  | loadStar hst _ ih =>
    obtain ⟨_, _, _, rfl⟩ := hst
    obtain ⟨F, e, hs⟩ := ih
    exact hs.load hP
  | refl => exact .refl _
  | assign _ ih =>
    obtain ⟨F, e, hs⟩ := ih
    exact hs.assign hP
  | returned _ _ ihc ihr =>
    obtain ⟨F, e, hc⟩ := ihc
    obtain ⟨G, e', hr⟩ := ihr
    exact hc.returned hP hr
  | argument _ _ _ ihs ihc ihd =>
    obtain ⟨F', e', hs⟩ := ihs
    obtain ⟨F, e, hc⟩ := ihc
    obtain ⟨G, e'', hd⟩ := ihd
    exact hs.argument hP hc hd
  | _ => trivial

end

/-- `main` calls the function it stored in a local. -/
def calledThroughLocal : Program where
  functions := [{
    symbol := 1
    function_name := "main"
    num_allocas := 1
    facts := [⟨.Store, .loc 1 0, .sym 2, 0⟩, ⟨.Load, .loc 1 1, .loc 1 0, 0⟩,
      ⟨.Call, .loc 1 2, .loc 1 1, 0⟩] }]
  distinct := by decide
  recorded := by decide

namespace ComputedStore
open FunctionFacts

/-- `main` stores `h` in `x`, and through a copy of `y` what it loads through a copy of
`x`; then it calls what it loads from `y`. -/
def main : FunctionFacts where
  symbol := 1
  function_name := "main"
  num_allocas := 2
  facts := [
    ⟨.Store, .loc 1 0, .sym 2, 0⟩,
    ⟨.Assign, .loc 1 2, .loc 1 0, 0⟩,
    ⟨.Load, .loc 1 3, .loc 1 2, 0⟩,
    ⟨.Assign, .loc 1 4, .loc 1 1, 0⟩,
    ⟨.Store, .loc 1 4, .loc 1 3, 0⟩,
    ⟨.Load, .loc 1 5, .loc 1 1, 0⟩,
    ⟨.Call, .loc 1 6, .loc 1 5, 0⟩]

def program : Program where
  functions := [main]
  distinct := by decide
  recorded := by decide

def v (n : Nat) : Value := .ofNode (.loc 1 n)
def h : Value := .ofNode (.sym 2)

/-- What phase 1 substitutes in `main`. -/
def subs : List (Value × Value) :=
  [(v 0, v 0), (v 1, v 1), (v 2, v 2), (v 2, v 0), (v 3, v 3), (v 3, (v 2).star), (v 3, (v 0).star),
    (v 3, h), (v 4, v 4), (v 4, v 1), (v 5, v 5), (v 5, v 3), (v 5, (v 1).star),
    (v 5, (v 2).star), (v 6, v 6), (h, h), ((v 0).star, h), ((v 1).star, v 3),
    ((v 1).star, (v 2).star), ((v 4).star, v 3), ((v 4).star, (v 2).star),
    ((v 4).star, (v 0).star), ((v 4).star, h)]

/-- The edges phase 1 makes of those of `main`. -/
def edges : Decl → List (Value × Value)
  | .Assign => [(v 2, v 0), (v 4, v 1)]
  | .Load => [(v 3, v 2), (v 3, v 0), (v 5, v 1), (v 5, v 2), ((v 1).star, v 2), ((v 4).star, v 2)]
  | .Store => [(v 0, h), (v 4, v 3), (v 4, (v 2).star), (v 4, (v 0).star), (v 4, h), (v 1, v 3)]
  | .Call => [(v 6, v 5), (v 6, v 3), (v 6, (v 1).star), (v 6, (v 2).star)]
  | _ => []

def Closed : PhaseTuple → Prop
  | .isValue x => (x, x) ∈ subs
  | .sub x y => (x, y) ∈ subs
  | .Sub d x y _ => (x, y) ∈ edges d
  | .precious x => x.node ∈ [.sym 1, .sym 2, .loc 1 6]
  | .PreciousSub d x y _ => (x, y) ∈ edges d ∧ y.node ∈ [.sym 1, .sym 2, .loc 1 6]
  | _ => True

theorem closed_of_derives {t : PhaseTuple} (ht : Derives .phase1 main.files t) : Closed t := by
  induction ht with
  | isValueTo he =>
    obtain ⟨e, he, -, rfl, -, -⟩ := he
    exact (by decide : ∀ e ∈ main.facts, (Value.ofNode e.to_node, Value.ofNode e.to_node) ∈ subs) e he
  | isValueFrom he =>
    obtain ⟨e, he, -, -, rfl, -⟩ := he
    exact (by decide :
      ∀ e ∈ main.facts, (Value.ofNode e.from_node, Value.ofNode e.from_node) ∈ subs) e he
  | subTo hty hst he _ ih =>
    obtain ⟨e, he, rfl, rfl, rfl, -⟩ := he
    exact (by decide : ∀ e ∈ main.facts, e.decl.to_ty = .Value → e.decl ≠ .Store →
      ∀ p ∈ subs, p.2 = Value.ofNode e.to_node → (p.1, Value.ofNode e.from_node) ∈ edges e.decl)
      e he hty hst _ ih rfl
  | subFrom hty he _ ih =>
    obtain ⟨e, he, rfl, rfl, rfl, -⟩ := he
    exact (by decide : ∀ e ∈ main.facts, e.decl.from_ty = .Value →
      ∀ p ∈ subs, p.1 = Value.ofNode e.from_node → (Value.ofNode e.to_node, p.2) ∈ edges e.decl)
      e he hty _ ih rfl
  | preciousSub _ _ _ ih _ ih' => exact ⟨ih, ih'⟩
  | preciousSymbol hv =>
    obtain ⟨n, ⟨hn, hl⟩, rfl⟩ := hv
    exact (by decide : ∀ n ∈ main.SeenNodes, n.isLocal = false →
      n ∈ [Node.sym 1, .sym 2, .loc 1 6]) n hn hl
  | preciousDefinition he =>
    obtain ⟨e, he, hd, -⟩ := he
    exact absurd hd ((by decide : ∀ e ∈ main.facts, e.decl ≠ .ArgumentDefinition) e he)
  | preciousCall he =>
    obtain ⟨e, he, hd, rfl, -⟩ := he
    exact (by decide : ∀ e ∈ main.facts, e.decl = .Call →
      e.to_node ∈ [Node.sym 1, .sym 2, .loc 1 6]) e he hd
  | preciousAlloca _ _ ih => cases ih
  | preciousName _ hv ih =>
    obtain ⟨n, -, rfl, hv⟩ := hv
    simp only [Value.names, List.mem_cons, List.not_mem_nil, or_false] at hv
    rcases hv with rfl | rfl | rfl | rfl <;> exact ih
  | star hph => cases hph
  | trans hph => cases hph
  | loadStore _ _ _ ih ih' =>
    exact (by decide : ∀ l ∈ edges .Load, ∀ s ∈ edges .Store, s.1 = l.2 → (l.1, s.2) ∈ subs)
      _ ih _ ih' rfl
  | storeStar hst _ ih =>
    obtain ⟨-, rfl⟩ := hst
    exact (by decide : ∀ s ∈ edges .Store, (s.1.star, s.2) ∈ subs) _ ih
  | loadStar hst _ ih =>
    obtain ⟨-, rfl⟩ := hst
    exact (by decide : ∀ l ∈ edges .Load, (l.1, l.2.star) ∈ subs) _ ih
  | subStore he _ ih =>
    obtain ⟨e, he, hd, rfl, rfl, -⟩ := he
    exact (by decide : ∀ e ∈ main.facts, e.decl = .Store →
      ∀ p ∈ subs, p.1 = Value.ofNode e.to_node → (p.2, Value.ofNode e.from_node) ∈ edges .Store)
      e he hd _ ih rfl
  | refl _ ih => exact ih
  | assign _ ih => exact (by decide : ∀ p ∈ edges .Assign, p ∈ subs) _ ih
  | returned _ _ _ ih => cases ih
  | argument _ _ _ ih => cases ih
  | _ => trivial

/-- The summaries have no call at all. -/
theorem no_summary_call (x y : Value) (idx : Nat) : ¬ program.summaries.edge .Call x y idx := by
  rintro ⟨F, hF, hd⟩
  obtain rfl : F = main := List.mem_singleton.mp hF
  obtain ⟨hmem, hy⟩ := closed_of_derives hd
  exact (by decide : ∀ p ∈ edges .Call, p.2.node ∉ [Node.sym 1, .sym 2, .loc 1 6]) _ hmem hy

theorem edge {e : Fact} (he : e ∈ main.facts) :
    program.union.edge e.decl (.ofNode e.to_node) (.ofNode e.from_node) e.idx :=
  ⟨main, List.mem_singleton.mpr rfl, edge_of_fact he⟩

theorem starred {b : Value} (hb : b.node ∈ main.SeenNodes) : program.union.Starred b.star b :=
  ⟨main, List.mem_singleton.mpr rfl, hb, rfl⟩

theorem isSymbol : program.union.IsSymbol h :=
  ⟨main, List.mem_singleton.mpr rfl, .sym 2, ⟨by decide, rfl⟩, rfl⟩

/-- From all facts, phase 2 derives that `main` calls `h`. -/
theorem call : Derives .phase2 program.union (.PreciousSub .Call (v 6) h 0) := by
  have store_x : program.union.edge .Store (v 0) h 0 :=
    edge (e := ⟨.Store, .loc 1 0, .sym 2, 0⟩) (by decide)
  have copy_x : program.union.edge .Assign (v 2) (v 0) 0 :=
    edge (e := ⟨.Assign, .loc 1 2, .loc 1 0, 0⟩) (by decide)
  have load_x : program.union.edge .Load (v 3) (v 2) 0 :=
    edge (e := ⟨.Load, .loc 1 3, .loc 1 2, 0⟩) (by decide)
  have copy_y : program.union.edge .Assign (v 4) (v 1) 0 :=
    edge (e := ⟨.Assign, .loc 1 4, .loc 1 1, 0⟩) (by decide)
  have store_y : program.union.edge .Store (v 4) (v 3) 0 :=
    edge (e := ⟨.Store, .loc 1 4, .loc 1 3, 0⟩) (by decide)
  have load_y : program.union.edge .Load (v 5) (v 1) 0 :=
    edge (e := ⟨.Load, .loc 1 5, .loc 1 1, 0⟩) (by decide)
  have call : program.union.edge .Call (v 6) (v 5) 0 :=
    edge (e := ⟨.Call, .loc 1 6, .loc 1 5, 0⟩) (by decide)
  -- what is loaded through the copy of `x` is `h`
  have x_h : Derives .phase2 program.union (.sub (v 0).star h) :=
    .storeStar (starred (by decide)) (.subFrom rfl store_x (.refl (.isValueFrom store_x)))
  have copied_x : Derives .phase2 program.union (.sub (v 2) (v 0)) :=
    .assign (.subFrom rfl copy_x (.refl (.isValueFrom copy_x)))
  have loaded_x : Derives .phase2 program.union (.sub (v 3) (v 0).star) :=
    .loadStar (starred (by decide)) (.subFrom rfl load_x copied_x)
  -- it is stored through the copy of `y`, and loaded from `y`
  have copied_y : Derives .phase2 program.union (.sub (v 4) (v 1)) :=
    .assign (.subFrom rfl copy_y (.refl (.isValueFrom copy_y)))
  have stored_y : Derives .phase2 program.union (.sub (v 1).star (v 3)) :=
    .storeStar (starred (by decide)) (.subStore store_y copied_y)
  have loaded_y : Derives .phase2 program.union (.sub (v 5) (v 1).star) :=
    .loadStar (starred (by decide)) (.subFrom rfl load_y (.refl (.isValueFrom load_y)))
  exact .preciousSub
    (.subFrom rfl call (.trans rfl loaded_y (.trans rfl stored_y (.trans rfl loaded_x x_h))))
    (.preciousCall call) (.preciousSymbol isSymbol)

end ComputedStore

end Bracelet
