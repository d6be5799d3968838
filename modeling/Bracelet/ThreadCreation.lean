import Bracelet.CallGraphAgreement

/-!
# Threads

A call of `pthread_create` starts a function that no call edge names, so the
lightweight rules add an edge to every referenced symbol.  They recognise the callee
by its row of `FunctionName`, and that relation is read from the function directories:
a routine without one, as those of the C library are, has a name in the symbol table
of the binary and no row.

Where the rules compute no callee, they reach what direct calls lead to
(`Program.Started`); where they compute one, they reach everything referenced.
-/
namespace Bracelet

/-- The routines the rules name. -/
def IsThreadRoutine (name : String) : Prop := name = pthread_create ∨ name = start_thread

instance (name : String) : Decidable (IsThreadRoutine name) :=
  inferInstanceAs (Decidable (_ ∨ _))

/-- The callees of one of the function's calls are computed: it is made through a
local, or its callee has the row of a thread routine. -/
def FunctionFacts.ComputesCall (F : FunctionFacts) (P : Program) : Prop :=
  ∃ e ∈ F.facts, e.decl = .Call ∧
    (e.from_node.isLocal = true ∨ ∃ name, P.FunctionName e.from_node name ∧ IsThreadRoutine name)

/-- Direct calls lead there from where an execution may start. -/
def Program.Started (P : Program) (f : Nat) : Prop :=
  ∃ M ∈ P.functions, (M.function_name = "main" ∨ M.is_globals) ∧ P.DirectlyReached M.symbol f

/-- **The over-approximation fires**: once a reachable function calls a thread routine,
whatever function symbol is referenced from a reachable function is reachable. -/
def Binary.ThreadsFire {P : Program} (B : Binary P) (is_function : Nat → Prop) : Prop :=
  (∃ f cs s kind name, Simple P (.reachable f) ∧ P.EnclosingFunctionForLocal f cs ∧
      Simple P (.callgraph cs (.sym s) kind) ∧ B.symbolName s = some name ∧
      IsThreadRoutine name) →
    ∀ s g, is_function s → Simple P (.isSymbolAddrReferencedFrom (.sym s) g) →
      Simple P (.reachable g) → P.Reachable s

/-- A function direct calls lead to calls a symbol with the name of a thread routine. -/
def Binary.CreatesThread {P : Program} (B : Binary P) : Prop :=
  ∃ F ∈ P.functions, P.Started F.symbol ∧ ∃ s name, F.CallsDirectly s ∧
    B.symbolName s = some name ∧ IsThreadRoutine name

/-- Some function direct calls lead to has computed callees. -/
def Program.ComputesStarted (P : Program) : Prop :=
  ∃ F ∈ P.functions, P.Started F.symbol ∧ F.ComputesCall P

/-- Whatever function symbol has its address taken where direct calls lead, direct
calls lead to. -/
def Program.TakenStarted (P : Program) (is_function : Nat → Prop) : Prop :=
  ∀ G ∈ P.functions, ¬ G.is_globals → P.Started G.symbol →
    ∀ s, is_function s → G.AddressTaken s → P.Started s

/-- An ordinary function takes the address of a symbol. -/
def Program.TakesAddress (P : Program) (v f : Node) : Prop :=
  ∃ F ∈ P.functions, ¬ F.is_globals ∧ f = .sym F.symbol ∧ ∃ s, v = .sym s ∧ F.AddressTaken s

variable {P : Program}

/-! ## What is referenced -/

namespace Simple

/-- The locals on the right of the `Global…` relations belong to initializers, and no
local is on the left of `GlobalStore`. -/
def OfGlobals (P : Program) : SimpleTuple → Prop
  | .GlobalAssign _ y => y.isLocal = true → ∃ F ∈ P.functions, F.is_globals ∧ y.symbol = F.symbol
  | .GlobalStore x y => x.isLocal = false ∧
      (y.isLocal = true → ∃ F ∈ P.functions, F.is_globals ∧ y.symbol = F.symbol)
  | _ => True

theorem ofGlobals {t : SimpleTuple} (h : Simple P t) : OfGlobals P t := by
  induction h with
  | inputGlobalAssign h =>
    obtain ⟨F, hF, hg, idx, he⟩ := h
    exact fun hl => ⟨F, hF, hg, ((P.recorded F hF).owned _ he).2 hl⟩
  | @inputGlobalStore x y h =>
    obtain ⟨F, hF, hg, idx, he⟩ := h
    have hto : x.isLocal = false := by
      rcases (P.recorded F hF).globals hg _ he with h | h
      · cases h
      · exact h.2
    exact ⟨hto, fun hl => ⟨F, hF, hg, ((P.recorded F hF).owned _ he).2 hl⟩⟩
  | globalAssign _ _ _ ih => exact ih
  | globalStore _ _ ih ih' => exact ⟨ih.1, ih'⟩
  | _ => trivial

/-- An edge with the local of an ordinary function at one end is one of its facts. -/
theorem fact_of_edge {d : Decl} {x y f v : Node} {idx : Nat} (h : Simple P (.edge d x y idx))
    (hf : P.EnclosingFunctionForLocal f v) (hv : v = x ∨ v = y) :
    ∃ F ∈ P.functions, ¬ F.is_globals ∧ f = .sym F.symbol ∧ ⟨d, x, y, idx⟩ ∈ F.facts := by
  have hl := Program.isLocal_of_enclosing hf
  obtain ⟨rfl, G, hG, hGg, hGs⟩ := Program.symbol_of_enclosing hf
  cases h with
  | input h =>
    obtain ⟨F, hF, hg, he⟩ := h
    refine ⟨F, hF, hg, ?_, he⟩
    rcases hv with rfl | rfl
    · rw [((P.recorded F hF).owned _ he).1 hl]
    · rw [((P.recorded F hF).owned _ he).2 hl]
  | store h =>
    obtain ⟨hx, hy⟩ := ofGlobals h
    rcases hv with rfl | rfl
    · rw [hx] at hl
      cases hl
    · obtain ⟨F, hF, hg, hs⟩ := hy hl
      exact absurd (Program.eq_of_symbol hG hF (hGs.trans hs) ▸ hg) hGg

theorem not_enclosed_symbol {f v : Node} (hf : P.EnclosingFunctionForLocal f v)
    (hs : P.IsSymbol v) : False := by
  have hl := Program.isLocal_of_enclosing hf
  rw [Program.not_isLocal_of_isSymbol hs] at hl
  cases hl

theorem takesAddress_of_to {d : Decl} {v y f : Node} {idx : Nat} (hd : d ≠ .Call)
    (hty : d.to_ty = .Value) (he : Simple P (.edge d v y idx))
    (henc : P.EnclosingFunctionForLocal f y) (hs : P.IsSymbol v) : P.TakesAddress v f := by
  obtain ⟨F, hF, hg, hf, he⟩ := fact_of_edge he henc (Or.inr rfl)
  have hv := Node.eq_sym_of_not_isLocal (Program.not_isLocal_of_isSymbol hs)
  exact ⟨F, hF, hg, hf, _, hv, _, he, hd, Or.inr ⟨hty, hv, Program.isLocal_of_enclosing henc⟩⟩

theorem takesAddress_of_from {d : Decl} {v y f : Node} {idx : Nat} (hd : d ≠ .Call)
    (hty : d.from_ty = .Value) (he : Simple P (.edge d y v idx))
    (henc : P.EnclosingFunctionForLocal f y) (hs : P.IsSymbol v) : P.TakesAddress v f := by
  obtain ⟨F, hF, hg, hf, he⟩ := fact_of_edge he henc (Or.inl rfl)
  have hv := Node.eq_sym_of_not_isLocal (Program.not_isLocal_of_isSymbol hs)
  exact ⟨F, hF, hg, hf, _, hv, _, he, hd, Or.inl ⟨hty, hv, Program.isLocal_of_enclosing henc⟩⟩

/-- **A symbol is referenced from the functions that take its address.** -/
theorem referencedFrom_iff {v f : Node} :
    Simple P (.isSymbolAddrReferencedFrom v f) ↔ P.TakesAddress v f := by
  constructor
  · intro h
    cases h with
    | toSelf _ _ _ henc hs | fromSelf _ _ _ _ henc hs | localSelf _ henc hs _
    | globalSelf _ henc hs _ _ => exact (not_enclosed_symbol henc hs).elim
    | globalOther _ henc _ hs _ => exact (not_enclosed_symbol henc hs).elim
    | toOther hd hty he henc hs =>
      exact takesAddress_of_to (by simpa [Decl.skipped] using hd) hty he henc hs
    | fromOther hd hty _ he henc hs =>
      exact takesAddress_of_from (by simpa [Decl.skipped] using hd) hty he henc hs
    | localOther he henc hs _ => exact takesAddress_of_from (by simp) rfl he henc hs
  · rintro ⟨F, hF, hg, rfl, s, rfl, hs⟩
    exact referencedFrom_of_addressTaken hF hg hs

end Simple

/-! ## What is reached -/

theorem Program.Started.reachable {f : Nat} (h : P.Started f) : P.Reachable f := by
  obtain ⟨M, hM, hentry, hreach⟩ := h
  exact hreach.reachable (.entry ⟨M, hM, rfl, hentry⟩)

theorem Program.Started.call {F : FunctionFacts} (hF : F ∈ P.functions)
    (h : P.Started F.symbol) {s : Nat} (hs : F.CallsDirectly s) : P.Started s := by
  obtain ⟨M, hM, hentry, hreach⟩ := h
  exact ⟨M, hM, hentry, .call hF hreach hs⟩

namespace Simple

/-- A row is a direct call, or a computed one to a referenced symbol. -/
theorem call_of_callgraph {cs callee f : Node} {kind : CallKind}
    (h : Simple P (.callgraph cs callee kind)) (henc : P.EnclosingFunctionForLocal f cs) :
    ∃ F ∈ P.functions, ¬ F.is_globals ∧ f = .sym F.symbol ∧
      ((∃ s, callee = .sym s ∧ F.CallsDirectly s) ∨ F.ComputesCall P) := by
  cases h with
  | direct he hsym =>
    obtain ⟨F, hF, hg, hf, he⟩ := fact_of_edge he henc (Or.inl rfl)
    have hcallee := Node.eq_sym_of_not_isLocal (Program.not_isLocal_of_isSymbol hsym)
    exact ⟨F, hF, hg, hf, Or.inl ⟨_, hcallee, cs, _, hcallee ▸ he⟩⟩
  | thread he _ hname hn _ =>
    obtain ⟨F, hF, hg, hf, he⟩ := fact_of_edge he henc (Or.inl rfl)
    exact ⟨F, hF, hg, hf, Or.inr ⟨_, he, rfl, Or.inr ⟨_, hname, hn⟩⟩⟩
  | indirect he hloc _ =>
    obtain ⟨F, hF, hg, hf, he⟩ := fact_of_edge he henc (Or.inl rfl)
    cases hloc with
    | isLocal hptr =>
      exact ⟨F, hF, hg, hf, Or.inr ⟨_, he, rfl, Or.inl (Program.isLocal_of_enclosing hptr)⟩⟩

/-- **Without a computed call, the rules reach what direct calls lead to.** -/
theorem started_of_reachable (h : ¬ P.ComputesStarted) {v : Node}
    (hr : Simple P (.reachable v)) : ∃ f, v = .sym f ∧ P.Started f := by
  generalize ht : SimpleTuple.reachable v = t at hr
  induction hr generalizing v with
  | entry hentry =>
    cases ht
    obtain ⟨F, hF, rfl, hmain⟩ := hentry
    exact ⟨F.symbol, rfl, F, hF, hmain, .self⟩
  | called hrow henc _ _ ih =>
    cases ht
    obtain ⟨F, hF, -, rfl, hcall⟩ := call_of_callgraph hrow henc
    obtain ⟨f, hf, hstarted⟩ := ih rfl
    obtain rfl := Node.sym.inj hf
    rcases hcall with ⟨s, rfl, hs⟩ | hcomputed
    · exact ⟨s, rfl, hstarted.call hF hs⟩
    · exact absurd ⟨F, hF, hstarted, hcomputed⟩ h
  | _ => cases ht

/-- **With a computed call, they reach everything referenced.** -/
theorem reachable_of_computes (h : P.ComputesStarted) {v : Node}
    (hv : Simple P (.isSymbolAddrReferenced v)) : Simple P (.reachable v) := by
  obtain ⟨F, hF, hstarted, e, he, hd, hcallee⟩ := h
  have hg : ¬ F.is_globals := by
    intro hg
    rcases (P.recorded F hF).globals hg e he with h | ⟨h, -⟩ <;> simp [hd] at h
  have hl := (P.recorded F hF).to_local e he (by simp [hd])
  have henc := enclosing_of_fact hF hg he (Or.inl rfl) hl
  have hedge := edge_of_fact hF hg he
  rw [hd] at hedge
  rcases hcallee with hptr | ⟨name, hname, hn⟩
  · exact .called (.indirect hedge (isLocal_of_fact hF hg he (Or.inr rfl) hptr) hv) henc
      hstarted.reachable
  · obtain ⟨G, hG, hfrom, rfl⟩ := hname
    have hsym : P.IsSymbol e.from_node := hfrom ▸ isSymbol_of_fact hF hg he (Or.inr hfrom)
    exact .called (.thread hedge hsym ⟨G, hG, hfrom, rfl⟩ hn hv) henc hstarted.reachable

end Simple

/-! ## When the over-approximation fires -/

/-- **The over-approximation fires exactly when** no function that direct calls lead to
calls a thread routine, or the callees of some call of theirs are computed, or direct
calls lead to whatever functions they take the address of. -/
theorem threadsFire_iff (P : Program) (B : Binary P) (is_function : Nat → Prop) :
    B.ThreadsFire is_function ↔
      (B.CreatesThread → P.ComputesStarted ∨ P.TakenStarted is_function) := by
  constructor
  · rintro hfire ⟨F, hF, hstarted, s, name, hs, hname, hroutine⟩
    by_cases hcomputed : P.ComputesStarted
    · exact Or.inl hcomputed
    right
    intro G hG hg hGs t ht htaken
    obtain ⟨-, cs, -, henc, hrow⟩ := Simple.callgraph_of_callsDirectly hF hs
    have href := Simple.referencedFrom_iff.mpr ⟨G, hG, hg, rfl, t, rfl, htaken⟩
    have hreach := hfire ⟨_, cs, s, _, name, hstarted.reachable, henc, hrow, hname, hroutine⟩
      t _ ht href hGs.reachable
    obtain ⟨f, hf, hfs⟩ := Simple.started_of_reachable hcomputed hreach
    exact Node.sym.inj hf ▸ hfs
  · rintro h ⟨f, cs, s, kind, name, hf, henc, hrow, hname, hroutine⟩ t g ht href hg
    by_cases hcomputed : P.ComputesStarted
    · exact Simple.reachable_of_computes hcomputed (.referenced href hg)
    obtain ⟨F, hF, -, rfl, hcall⟩ := Simple.call_of_callgraph hrow henc
    obtain ⟨_, hFs, hstarted⟩ := Simple.started_of_reachable hcomputed hf
    obtain rfl := Node.sym.inj hFs
    rcases hcall with ⟨s', hs', hcalls⟩ | hcomputes
    · obtain rfl := Node.sym.inj hs'
      have htaken := (h ⟨F, hF, hstarted, s, name, hcalls, hname, hroutine⟩).resolve_left hcomputed
      obtain ⟨G, hG, hGg, rfl, t', ht', htakes⟩ := Simple.referencedFrom_iff.mp href
      obtain rfl := Node.sym.inj ht'
      obtain ⟨_, hGs, hGstarted⟩ := Simple.started_of_reachable hcomputed hg
      obtain rfl := Node.sym.inj hGs
      exact (htaken G hG hGg hGstarted t ht htakes).reachable
    · exact absurd ⟨F, hF, hstarted, hcomputes⟩ hcomputed

/-! ## A thread started through the C library -/

/-- `main` passes `worker` to `pthread_create`, which has no directory. -/
def spawning : Program where
  functions :=
    [⟨1, "main", 0, [⟨.ArgumentSupply, .loc 1 0, .sym 2, 2⟩, ⟨.Call, .loc 1 0, .sym 3, 4⟩]⟩,
      ⟨2, "worker", 0, []⟩]
  distinct := by decide
  recorded := by decide

def spawning.binary : Binary spawning where
  symbolName a := [(1, "main"), (2, "worker"), (3, "pthread_create")].lookup a
  local_name _ := "call"
  named := by decide

theorem spawning.calls : ∀ F ∈ spawning.functions, ∀ e ∈ F.facts, e.decl = .Call →
    e.from_node = .sym 3 := by decide

theorem spawning.not_computesStarted : ¬ spawning.ComputesStarted := by
  rintro ⟨F, hF, -, e, he, hd, hl | ⟨name, ⟨G, hG, hsym, -⟩, -⟩⟩
  · rw [calls F hF e he hd] at hl
    cases hl
  · rw [calls F hF e he hd] at hsym
    have hdirs : ∀ G ∈ spawning.functions, G.symbol ≠ 3 := by decide
    exact hdirs G hG (Node.sym.inj hsym).symm

theorem spawning.started {f : Nat} (h : spawning.Started f) : f = 1 ∨ f = 3 := by
  obtain ⟨M, hM, hentry, hreach⟩ := h
  have hmain : ∀ M ∈ spawning.functions, (M.function_name = "main" ∨ M.is_globals) →
      M.symbol = 1 := by decide +kernel
  induction hreach with
  | self => exact Or.inl (hmain M hM hentry)
  | call hF _ hcall _ =>
    obtain ⟨cs, idx, he⟩ := hcall
    exact Or.inr (Node.sym.inj (calls _ hF _ he rfl))

/-- `worker` is not reachable. -/
theorem spawning_not_fires : ¬ spawning.binary.ThreadsFire (· ∈ [1, 2, 3]) := by
  intro hfire
  have hF : ⟨1, "main", 0, [⟨.ArgumentSupply, .loc 1 0, .sym 2, 2⟩, ⟨.Call, .loc 1 0, .sym 3, 4⟩]⟩ ∈
      spawning.functions := List.mem_cons_self
  have hmain : Simple spawning (.reachable (.sym 1)) := .entry ⟨_, hF, rfl, Or.inl rfl⟩
  obtain ⟨hg, cs, -, henc, hrow⟩ := Simple.callgraph_of_callsDirectly (g := 3) hF
    ⟨.loc 1 0, 4, by simp⟩
  have href : Simple spawning (.isSymbolAddrReferencedFrom (.sym 2) (.sym 1)) :=
    Simple.referencedFrom_of_addressTaken hF hg
      ⟨⟨.ArgumentSupply, .loc 1 0, .sym 2, 2⟩, by simp, by decide, Or.inl ⟨rfl, rfl, rfl⟩⟩
  have hreach := hfire ⟨_, cs, 3, _, pthread_create, hmain, henc, hrow, rfl, Or.inl rfl⟩
    2 _ (by simp) href hmain
  obtain ⟨f, hf, hstarted⟩ := Simple.started_of_reachable spawning.not_computesStarted hreach
  obtain rfl := Node.sym.inj hf
  exact absurd (spawning.started hstarted) (by decide)

end Bracelet
