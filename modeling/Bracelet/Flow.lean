import Bracelet.SimpleRules

/-!
# Where values flow, and what the lightweight rules miss

`Flow` is the meaning the rules approximate: the least field- and flow-insensitive
inclusion semantics of the edges of the functions reached.  A symbol denotes itself,
assignments copy, loads and stores go through the objects an address denotes, and a
resolved call passes its arguments and takes the returned values.

The rules replace points-to sets by one set of symbols whose address is taken
somewhere reachable.  The invariant of the comparison is `Approximates`: whatever
symbol flows into a local is referenced, and whatever symbol an object holds is
referenced, or is stored in it by a fact.  Every edge feeds the referenced symbols
but one: an edge `Return(f, s)` has no local at either end, so a function may hand
out an address that no rule sees.
-/
namespace Bracelet

/-! ## The semantics -/

inductive FlowFact
  /-- The value of node `n` may be the address of object `o`. -/
  | points (n o : Node)
  /-- Object `o` may hold the address of object `o'`. -/
  | holds (o o' : Node)
  /-- The function may run. -/
  | reached (f : Nat)

open FlowFact in
/-- **The inclusion semantics** of the functions reached from `start`.  The locals of
`allocation` denote objects of their own. -/
inductive Flow (P : Program) (allocation : Node → Prop) (start : Nat → Prop) : FlowFact → Prop
  | start {f} : start f → Flow P allocation start (reached f)
  | symbol (s) : Flow P allocation start (points (.sym s) (.sym s))
  | allocation {f i} : allocation (.loc f i) →
      Flow P allocation start (points (.loc f i) (.loc f i))
  | assign {F dest src idx o} : F ∈ P.functions → ⟨.Assign, dest, src, idx⟩ ∈ F.facts →
      Flow P allocation start (reached F.symbol) → Flow P allocation start (points src o) →
      Flow P allocation start (points dest o)
  | load {F into addr idx o o'} : F ∈ P.functions → ⟨.Load, into, addr, idx⟩ ∈ F.facts →
      Flow P allocation start (reached F.symbol) → Flow P allocation start (points addr o) →
      Flow P allocation start (holds o o') → Flow P allocation start (points into o')
  | store {F addr value idx o o'} : F ∈ P.functions → ⟨.Store, addr, value, idx⟩ ∈ F.facts →
      Flow P allocation start (reached F.symbol) → Flow P allocation start (points addr o) →
      Flow P allocation start (points value o') → Flow P allocation start (holds o o')
  | call {F callsite callee idx g} : F ∈ P.functions → ⟨.Call, callsite, callee, idx⟩ ∈ F.facts →
      Flow P allocation start (reached F.symbol) →
      Flow P allocation start (points callee (.sym g)) → Flow P allocation start (reached g)
  | argument {F G callsite callee n formal value idx o} : F ∈ P.functions → G ∈ P.functions →
      ⟨.Call, callsite, callee, n⟩ ∈ F.facts → Flow P allocation start (reached F.symbol) →
      Flow P allocation start (points callee (.sym G.symbol)) →
      ⟨.ArgumentSupply, callsite, value, idx⟩ ∈ F.facts →
      ⟨.ArgumentDefinition, formal, .sym G.symbol, idx⟩ ∈ G.facts →
      Flow P allocation start (points value o) → Flow P allocation start (points formal o)
  | returned {F G callsite callee n value idx o} : F ∈ P.functions → G ∈ P.functions →
      ⟨.Call, callsite, callee, n⟩ ∈ F.facts → Flow P allocation start (reached F.symbol) →
      Flow P allocation start (points callee (.sym G.symbol)) →
      ⟨.Return, .sym G.symbol, value, idx⟩ ∈ G.facts →
      Flow P allocation start (points value o) → Flow P allocation start (points callsite o)

/-- Where an execution may start: in a `main`, or in an initializer. -/
def Program.Entry (P : Program) (f : Nat) : Prop := P.entry (.sym f)

/-- **The rules see every call.**  Of the functions the rules reach, every callee the
semantics delivers to a call site is in the call graph; so the rules reach every
function the semantics reaches. -/
structure Program.Sound (P : Program) (allocation : Node → Prop) : Prop where
  callgraph : ∀ F ∈ P.functions, P.Reachable F.symbol → ∀ callsite callee idx g,
    ⟨.Call, callsite, callee, idx⟩ ∈ F.facts →
    Flow P allocation P.Reachable (.points callee (.sym g)) →
    ∃ kind, Simple P (.callgraph callsite (.sym g) kind)
  reachable : ∀ f, Flow P allocation P.Entry (.reached f) → P.Reachable f

/-! ## What the rules know of a flow -/

variable {P : Program} {allocation : Node → Prop}

/-- What a symbol flowing into a node entails.  In an initializer, whose locals are
constants under construction, the closed assignments record it. -/
def Knows (P : Program) : Node → Nat → Prop
  | .sym a, s => a = s
  | .loc f i, s => (∀ F ∈ P.functions, F.symbol = f → F.is_globals →
        Simple P (.GlobalAssign (.loc f i) (.sym s))) ∧
      (∀ F ∈ P.functions, F.symbol = f → ¬ F.is_globals →
        Simple P (.isSymbolAddrReferenced (.sym s)))

/-- What the rules know of a fact of the semantics. -/
def Approximates (P : Program) : FlowFact → Prop
  | .points n (.sym s) => Knows P n s
  | .points n (.loc _ _) => n.isLocal = true
  | .holds (.sym g) (.sym s) => Simple P (.isSymbolAddrReferenced (.sym s)) ∨
      ∃ idx, Simple P (.edge .Store (.sym g) (.sym s) idx)
  | .holds (.loc _ _) (.sym s) => Simple P (.isSymbolAddrReferenced (.sym s))
  | .holds _ (.loc _ _) => True
  | .reached f => P.Reachable f

section Locals
variable {F : FunctionFacts} (hF : F ∈ P.functions)
include hF

theorem Knows.referenced {i s : Nat} (h : Knows P (.loc F.symbol i) s) (hg : ¬ F.is_globals) :
    Simple P (.isSymbolAddrReferenced (.sym s)) := h.2 F hF rfl hg

theorem Knows.globalAssign {i s : Nat} (h : Knows P (.loc F.symbol i) s) (hg : F.is_globals) :
    Simple P (.GlobalAssign (.loc F.symbol i) (.sym s)) := h.1 F hF rfl hg

theorem knows_of_referenced {i s : Nat} (hg : ¬ F.is_globals)
    (h : Simple P (.isSymbolAddrReferenced (.sym s))) : Knows P (.loc F.symbol i) s :=
  ⟨fun _ hG hGF hGg => absurd (Program.eq_of_symbol hG hF hGF ▸ hGg) hg, fun _ _ _ _ => h⟩

theorem knows_of_globalAssign {i s : Nat} (hg : F.is_globals)
    (h : Simple P (.GlobalAssign (.loc F.symbol i) (.sym s))) : Knows P (.loc F.symbol i) s :=
  ⟨fun _ _ _ _ => h, fun _ hG hGF hGg => absurd (Program.eq_of_symbol hG hF hGF ▸ hg) hGg⟩

/-- In an ordinary function, a symbol at the value end of an edge is referenced: it is
the value, and the function takes its address, or it flows there. -/
theorem referenced_of_operand (hg : ¬ F.is_globals) (hr : P.Reachable F.symbol) {n : Node}
    {s : Nat} (hown : n.isLocal = true → n.symbol = F.symbol) (hk : Knows P n s)
    (htaken : n = .sym s → F.AddressTaken s) : Simple P (.isSymbolAddrReferenced (.sym s)) := by
  cases n with
  | sym a =>
    cases hk
    exact Simple.referenced_of_addressTaken hF hg hr (htaken rfl)
  | loc f i =>
    obtain rfl : f = F.symbol := hown rfl
    exact Knows.referenced hF hk hg

end Locals

/-- **The functions whose returned addresses the rules see**: every symbol a function
returns by an edge is also an end of another of its edges. -/
def Program.ReturnsTaken (P : Program) : Prop :=
  ∀ F ∈ P.functions, ∀ s idx, ⟨.Return, .sym F.symbol, .sym s, idx⟩ ∈ F.facts → F.AddressTaken s

/-! ## The invariant, edge by edge -/

section Edges
variable {F : FunctionFacts} (hF : F ∈ P.functions)
include hF

/-- A value a function computes into one of its locals is known there, when the
operand it comes from is. -/
theorem approximates_assign {dest src o : Node} {idx : Nat}
    (he : ⟨.Assign, dest, src, idx⟩ ∈ F.facts) (hr : P.Reachable F.symbol)
    (hsrc : Approximates P (.points src o)) : Approximates P (.points dest o) := by
  have hown := (P.recorded F hF).owned _ he
  obtain ⟨i, hi⟩ := Node.eq_loc_of_isLocal ((P.recorded F hF).to_local _ he (by simp))
  change dest = _ at hi
  cases o with
  | loc f j => rw [hi]; rfl
  | sym s =>
    have hdest : dest.symbol = F.symbol := hown.1 (by rw [hi]; rfl)
    rw [hdest] at hi
    subst hi
    by_cases hg : F.is_globals
    · have hin : Simple P (.GlobalAssign (.loc F.symbol i) src) :=
        .inputGlobalAssign ⟨F, hF, hg, idx, he⟩
      refine knows_of_globalAssign hF hg ?_
      cases src with
      | sym a => cases hsrc; exact hin
      | loc f j =>
        obtain rfl : f = F.symbol := hown.2 rfl
        exact .globalAssign hin (Knows.globalAssign hF hsrc hg)
    · refine knows_of_referenced hF hg (referenced_of_operand hF hg hr hown.2 hsrc ?_)
      rintro rfl
      exact ⟨_, he, by simp, Or.inl ⟨rfl, rfl, rfl⟩⟩

/-- An object whose address a function loads from or stores to holds referenced
symbols, if it is the function that names it. -/
theorem referenced_of_address (hg : ¬ F.is_globals) (hr : P.Reachable F.symbol) {addr : Node}
    {g s : Nat} (hown : addr.isLocal = true → addr.symbol = F.symbol)
    (haddr : Approximates P (.points addr (.sym g)))
    (htaken : addr = .sym g → F.AddressTaken g)
    (hholds : Approximates P (.holds (.sym g) (.sym s))) :
    Simple P (.isSymbolAddrReferenced (.sym s)) := by
  have hg' := referenced_of_operand hF hg hr hown haddr htaken
  rcases hholds with h | ⟨idx, h⟩
  · exact h
  · exact .stored h hg'

theorem approximates_load {into addr o o' : Node} {idx : Nat}
    (he : ⟨.Load, into, addr, idx⟩ ∈ F.facts) (hr : P.Reachable F.symbol)
    (haddr : Approximates P (.points addr o)) (hholds : Approximates P (.holds o o')) :
    Approximates P (.points into o') := by
  have hown := (P.recorded F hF).owned _ he
  obtain ⟨i, hi⟩ := Node.eq_loc_of_isLocal ((P.recorded F hF).to_local _ he (by simp))
  change into = _ at hi
  cases o' with
  | loc f j => rw [hi]; rfl
  | sym s =>
    have hinto : into.symbol = F.symbol := hown.1 (by rw [hi]; rfl)
    rw [hinto] at hi
    subst hi
    have hg : ¬ F.is_globals := by
      intro hg
      rcases (P.recorded F hF).globals hg _ he with h | ⟨h, -⟩ <;> cases h
    refine knows_of_referenced hF hg ?_
    cases o with
    | loc f j => exact hholds
    | sym g =>
      refine referenced_of_address hF hg hr hown.2 haddr ?_ hholds
      rintro rfl
      exact ⟨_, he, by simp, Or.inl ⟨rfl, rfl, rfl⟩⟩

theorem approximates_store {addr value o o' : Node} {idx : Nat}
    (he : ⟨.Store, addr, value, idx⟩ ∈ F.facts) (hr : P.Reachable F.symbol)
    (haddr : Approximates P (.points addr o)) (hvalue : Approximates P (.points value o')) :
    Approximates P (.holds o o') := by
  have hown := (P.recorded F hF).owned _ he
  cases o' with
  | loc f j => cases o <;> trivial
  | sym s =>
    by_cases hg : F.is_globals
    · -- an initializer stores into a global it names
      have hto : addr.isLocal = false := by
        rcases (P.recorded F hF).globals hg _ he with h | ⟨-, h⟩
        · cases h
        · exact h
      have haddr' := Node.eq_sym_of_not_isLocal hto
      rw [haddr'] at haddr he
      have hin : Simple P (.GlobalStore (.sym addr.symbol) value) :=
        .inputGlobalStore ⟨F, hF, hg, idx, he⟩
      cases o with
      | loc f j => cases haddr
      | sym g =>
        cases haddr
        refine Or.inr ⟨0, .store ?_⟩
        cases value with
        | sym a => cases hvalue; exact hin
        | loc f j =>
          obtain rfl : f = F.symbol := hown.2 rfl
          exact .globalStore hin (Knows.globalAssign hF hvalue hg)
    · cases addr with
      | loc f j =>
        -- a symbol stored through a local is referenced by the store itself
        have href : Simple P (.isSymbolAddrReferenced (.sym s)) := by
          refine referenced_of_operand hF hg hr hown.2 hvalue ?_
          rintro rfl
          exact ⟨_, he, by simp, Or.inl ⟨rfl, rfl, rfl⟩⟩
        cases o with
        | loc f' j' => exact href
        | sym g => exact Or.inl href
      | sym a =>
        cases o with
        | loc f' j' => cases haddr
        | sym g =>
          cases haddr
          cases value with
          | sym b =>
            cases hvalue
            exact Or.inr ⟨idx, Simple.edge_of_fact hF hg he⟩
          | loc f' j' =>
            obtain rfl : f' = F.symbol := hown.2 rfl
            exact Or.inl (Knows.referenced hF hvalue hg)

omit hF in
theorem not_globals_of_decl (hF : F ∈ P.functions) {e : Fact} (he : e ∈ F.facts)
    (hd : e.decl ≠ .Assign ∧ e.decl ≠ .Store) : ¬ F.is_globals := by
  intro hg
  rcases (P.recorded F hF).globals hg e he with h | ⟨h, -⟩
  · exact hd.1 h
  · exact hd.2 h

/-- A callee the semantics delivers to a call site of a reached function is in the
call graph. -/
theorem callgraph_of_call {callsite callee : Node} {idx g : Nat}
    (he : ⟨.Call, callsite, callee, idx⟩ ∈ F.facts)
    (hcallee : Approximates P (.points callee (.sym g))) :
    ∃ kind, Simple P (.callgraph callsite (.sym g) kind) := by
  have hg : ¬ F.is_globals := not_globals_of_decl hF he (by simp)
  have hown := (P.recorded F hF).owned _ he
  cases callee with
  | sym a =>
    cases hcallee
    exact ⟨_, .direct (Simple.edge_of_fact hF hg he)
      (Simple.isSymbol_of_fact hF hg he (Or.inr rfl))⟩
  | loc f i =>
    obtain rfl : f = F.symbol := hown.2 rfl
    exact ⟨_, .indirect (Simple.edge_of_fact hF hg he)
      (Simple.isLocal_of_fact hF hg he (Or.inr rfl) rfl) (Knows.referenced hF hcallee hg)⟩

theorem reachable_of_call {callsite callee : Node} {idx g : Nat}
    (he : ⟨.Call, callsite, callee, idx⟩ ∈ F.facts) (hr : P.Reachable F.symbol)
    (hcallee : Approximates P (.points callee (.sym g))) : P.Reachable g := by
  have hg : ¬ F.is_globals := not_globals_of_decl hF he (by simp)
  obtain ⟨kind, h⟩ := callgraph_of_call hF he hcallee
  exact .called h (Simple.enclosing_of_fact hF hg he (Or.inl rfl)
    ((P.recorded F hF).to_local _ he (by simp))) hr

theorem approximates_argument {G : FunctionFacts} (hG : G ∈ P.functions)
    {callsite value formal o : Node} {idx : Nat}
    (hs : ⟨.ArgumentSupply, callsite, value, idx⟩ ∈ F.facts)
    (hd : ⟨.ArgumentDefinition, formal, .sym G.symbol, idx⟩ ∈ G.facts)
    (hr : P.Reachable F.symbol) (hvalue : Approximates P (.points value o)) :
    Approximates P (.points formal o) := by
  have hown := (P.recorded G hG).owned _ hd
  obtain ⟨i, hi⟩ := Node.eq_loc_of_isLocal ((P.recorded G hG).to_local _ hd (by simp))
  change formal = _ at hi
  cases o with
  | loc f j => rw [hi]; rfl
  | sym s =>
    have hformal : formal.symbol = G.symbol := hown.1 (by rw [hi]; rfl)
    rw [hformal] at hi
    subst hi
    refine knows_of_referenced hG (not_globals_of_decl hG hd (by simp)) ?_
    refine referenced_of_operand hF (not_globals_of_decl hF hs (by simp)) hr
      ((P.recorded F hF).owned _ hs).2 hvalue ?_
    rintro rfl
    exact ⟨_, hs, by simp, Or.inl ⟨rfl, rfl, (P.recorded F hF).to_local _ hs (by simp)⟩⟩

theorem approximates_returned (hret : P.ReturnsTaken) {G : FunctionFacts}
    (hG : G ∈ P.functions) {callsite callee value o : Node} {n idx : Nat}
    (hc : ⟨.Call, callsite, callee, n⟩ ∈ F.facts)
    (hv : ⟨.Return, .sym G.symbol, value, idx⟩ ∈ G.facts)
    (hr : P.Reachable G.symbol) (hvalue : Approximates P (.points value o)) :
    Approximates P (.points callsite o) := by
  have hown := (P.recorded F hF).owned _ hc
  obtain ⟨i, hi⟩ := Node.eq_loc_of_isLocal ((P.recorded F hF).to_local _ hc (by simp))
  change callsite = _ at hi
  cases o with
  | loc f j => rw [hi]; rfl
  | sym s =>
    have hsite : callsite.symbol = F.symbol := hown.1 (by rw [hi]; rfl)
    rw [hsite] at hi
    subst hi
    refine knows_of_referenced hF (not_globals_of_decl hF hc (by simp)) ?_
    refine referenced_of_operand hG (not_globals_of_decl hG hv (by simp)) hr
      ((P.recorded G hG).owned _ hv).2 hvalue ?_
    rintro rfl
    exact hret G hG s idx hv

end Edges

/-- **The rules approximate every flow**, if they see the addresses functions return. -/
theorem approximates_flow (hret : P.ReturnsTaken) {fact : FlowFact}
    (h : Flow P allocation P.Reachable fact) : Approximates P fact := by
  induction h with
  | start h => exact h
  | symbol s => exact rfl
  | allocation h => rfl
  | assign hF he _ _ hr hsrc => exact approximates_assign hF he hr hsrc
  | load hF he _ _ _ hr haddr hholds => exact approximates_load hF he hr haddr hholds
  | store hF he _ _ _ hr haddr hvalue => exact approximates_store hF he hr haddr hvalue
  | call hF he _ _ hr hcallee => exact reachable_of_call hF he hr hcallee
  | argument hF hG _ _ _ hs hd _ hr _ hvalue => exact approximates_argument hF hG hs hd hr hvalue
  | returned hF hG hc _ _ hv _ hr hcallee hvalue =>
    exact approximates_returned hF hret hG hc hv (reachable_of_call hF hc hr hcallee) hvalue

theorem Flow.mono {start start' : Nat → Prop} (hs : ∀ f, start f → start' f) {fact : FlowFact}
    (h : Flow P allocation start fact) : Flow P allocation start' fact := by
  induction h with
  | start h => exact .start (hs _ h)
  | symbol s => exact .symbol s
  | allocation h => exact .allocation h
  | assign hF he _ _ hr hsrc => exact .assign hF he hr hsrc
  | load hF he _ _ _ hr haddr hholds => exact .load hF he hr haddr hholds
  | store hF he _ _ _ hr haddr hvalue => exact .store hF he hr haddr hvalue
  | call hF he _ _ hr hcallee => exact .call hF he hr hcallee
  | argument hF hG hc _ _ hs hd _ hr hcallee hvalue =>
    exact .argument hF hG hc hr hcallee hs hd hvalue
  | returned hF hG hc _ _ hv _ hr hcallee hvalue => exact .returned hF hG hc hr hcallee hv hvalue

/-- `main` calls `f`, and calls what it returns. -/
def callsReturned : FunctionFacts :=
  ⟨1, "main", 0, [⟨.Call, .loc 1 0, .sym 2, 0⟩, ⟨.Call, .loc 1 1, .loc 1 0, 0⟩]⟩

/-- `f` returns the address of `g`, symbol 3. -/
def returnsAddress : FunctionFacts := ⟨2, "f", 0, [⟨.Return, .sym 2, .sym 3, 0⟩]⟩

def returnedAddress : Program where
  functions := [callsReturned, returnsAddress, ⟨3, "g", 0, []⟩]
  distinct := by decide
  recorded := by decide

/-- The rules derive no referenced symbol for it, and `f` as the only callee. -/
def SeesOnlyF : SimpleTuple → Prop
  | .GlobalAssign _ _ | .GlobalStore _ _ => False
  | .edge d x y _ => (d = .Call ∧ (y = .sym 2 ∨ y = .loc 1 0)) ∨ (d = .Return ∧ x = .sym 2)
  | .isSymbolAddrReferencedFrom _ _ | .isSymbolAddrReferenced _ => False
  | .callgraph _ callee _ => callee = .sym 2
  | _ => True

theorem seesOnlyF {t : SimpleTuple} (h : Simple returnedAddress t) : SeesOnlyF t := by
  have hglobals : ∀ F ∈ returnedAddress.functions, ¬ F.is_globals := by decide
  induction h with
  | inputGlobalAssign h => obtain ⟨F, hF, hg, -⟩ := h; exact hglobals F hF hg
  | inputGlobalStore h => obtain ⟨F, hF, hg, -⟩ := h; exact hglobals F hF hg
  | input h =>
    obtain ⟨F, hF, -, he⟩ := h
    simp only [returnedAddress, List.mem_cons, List.not_mem_nil, or_false] at hF
    rcases hF with rfl | rfl | rfl <;> simp [callsReturned, returnsAddress] at he
    · rcases he with ⟨rfl, -, rfl, -⟩ | ⟨rfl, -, rfl, -⟩
      · exact Or.inl ⟨rfl, Or.inl rfl⟩
      · exact Or.inl ⟨rfl, Or.inr rfl⟩
    · obtain ⟨rfl, rfl, -⟩ := he
      exact Or.inr ⟨rfl, rfl⟩
  | globalAssign _ _ h => exact h
  | globalStore _ _ h => exact h
  | store _ h => exact h.elim
  | toSelf hs ht _ _ _ h | toOther hs ht _ _ _ h =>
    rcases h with ⟨rfl, -⟩ | ⟨rfl, -⟩
    · cases hs
    · cases ht
  | fromSelf _ _ _ _ henc hsym =>
    have := Program.isLocal_of_enclosing henc
    rw [Program.not_isLocal_of_isSymbol hsym] at this
    cases this
  | fromOther hs _ _ _ henc _ h =>
    rcases h with ⟨rfl, -⟩ | ⟨rfl, rfl⟩
    · cases hs
    · cases Program.isLocal_of_enclosing henc
  | localSelf _ _ _ _ h => rcases h with ⟨h, -⟩ | ⟨h, -⟩ <;> cases h
  | localOther _ _ _ _ h => rcases h with ⟨h, -⟩ | ⟨h, -⟩ <;> cases h
  | globalSelf _ _ _ _ _ _ h => exact h
  | globalOther _ _ _ _ _ _ h => exact h
  | stored _ _ _ h => exact h
  | referenced _ _ h => exact h
  | direct _ hsym h =>
    rcases h with ⟨-, rfl | rfl⟩ | ⟨h, -⟩
    · rfl
    · cases Program.not_isLocal_of_isSymbol hsym
    · cases h
  | thread _ _ _ _ _ _ h => exact h.elim
  | indirect _ _ _ _ _ h => exact h.elim
  | entry | isLocal | called | reachableName | functionCallGraph => trivial

/-- The same program when `f` keeps the address in a local as well. -/
def takenAddress : Program where
  functions := [callsReturned,
    ⟨2, "f", 0, [⟨.Assign, .loc 2 0, .sym 3, 0⟩, ⟨.Return, .sym 2, .sym 3, 0⟩]⟩,
    ⟨3, "g", 0, []⟩]
  distinct := by decide
  recorded := by decide

end Bracelet
