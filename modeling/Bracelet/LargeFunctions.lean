import Bracelet.NodeNumbers
import Bracelet.NullNodes

/-!
# Functions of any size

The functions of a module, visited and written.  `traceFunctions` keeps the nodes that
the writers are asked for.  They are numbered safely exactly when no function makes more
than 65535 locals and at most 2^31 symbols are mentioned (`safelyNumbered_iff`).
-/
namespace Bracelet.Reachability
open Edges

section
variable {GV : Type}

/-- What is written of a function, and the locals that its values have. -/
structure Emission (GV : Type) where
  graph : FunctionGraph GV
  Locals : List (LocalValue × Nat)

/-- What the pass writes, of a function or of the initializers of a module. -/
inductive Emitted (M : Module GV) : Emission GV → Prop
  | function {F : Function GV} {sbom : Option (Bytes × Bytes)} {v : EdgeVisitor GV}
      (h : EdgeVisitor.run M F = .ok v) :
      Emitted M ⟨⟨F.symbol, sbom, v.FW.ops, UInt32.ofNat v.NumAllocas⟩, v.Locals⟩
  | initializers {comdat : Option String} {symbol : GV} {sbom : Option (Bytes × Bytes)}
      {FW : Writer GV} (h : emitInitializers M comdat = .ok FW) :
      Emitted M ⟨⟨symbol, sbom, FW.ops, 0⟩, []⟩

/-- What the writers were asked for while a function was written. -/
structure FunctionTrace (GV : Type) where
  emission : Emission GV
  fw : FunctionWriter
  nodes : List (End GV × Edges.Node)

section
variable [DecidableEq GV]

/-- One function; `finish` asks for no nodes. -/
def traceFunction (gw : GraphWriter GV) (e : Emission GV) :
    Result (FunctionTrace GV × GraphWriter GV) := do
  let (this, _) ← gw.symbol true e.graph.function
  let state ← FunctionWriter.new true gw e.graph.function e.graph.sbom
  let (nodes, gw, fw) ← FunctionWriter.trace e.graph.ops state
  return (⟨e, fw, (.sym e.graph.function, this) :: nodes⟩, gw)

/-- The functions of a graph, one after another. -/
def traceFunctions : List (Emission GV) → GraphWriter GV →
    Result (List (FunctionTrace GV) × GraphWriter GV)
  | [], gw => .ok ([], gw)
  | e :: es, gw => do
    let (t, gw) ← traceFunction gw e
    let (ts, gw) ← traceFunctions es gw
    return (t :: ts, gw)

/-- The nodes of a function tell apart what they stand for, edges hold them in words that
tell them apart, and the reader takes each word for what its node stands for. -/
structure FunctionTrace.Safe (symbols : List GV) (t : FunctionTrace GV) : Prop where
  ends : ∀ p ∈ t.nodes, ∀ q ∈ t.nodes, p.2 = q.2 ↔ p.1 = q.1
  values : ∀ V i, Dict.get? t.emission.Locals V = some i → ∃ n, (.loc i, n) ∈ t.nodes ∧
    ∀ W j m, Dict.get? t.emission.Locals W = some j → (.loc j, m) ∈ t.nodes → m = n → W = V
  numbers : ∀ p ∈ t.nodes, ∃ number, t.fw.encode_node true p.2 = .ok number ∧
    (∀ q ∈ t.nodes, t.fw.encode_node true q.2 = .ok number → q.2 = p.2) ∧
    ∀ address : GV → Address, (∀ gv ∈ symbols, Packable (address gv)) →
      decode_node true (symbols.map address) number (address t.emission.graph.function) =
        .ok (p.1.read address t.emission.graph.function)

/-- No assertion fails, and the nodes are safe. -/
def SafelyNumbered (record_debug_data : Bool) (es : List (Emission GV)) : Prop :=
  ∃ ts gw, traceFunctions es { record_debug_data } = .ok (ts, gw) ∧
    ∀ t ∈ ts, t.Safe gw.symbols_in_order

/-! ## What the writers do -/

/-- The constructor of a function writer asks for the symbol of its function. -/
theorem new_eq {gw gw' : GraphWriter GV} {F : GV} {n : Edges.Node}
    (h : gw.symbol true F = .ok (n, gw')) (sbom : Option (Bytes × Bytes)) :
    ∃ state, FunctionWriter.new true gw F sbom = .ok state ∧ state.1.Symbols = gw'.Symbols ∧
      state.1.symbols_in_order = gw'.symbols_in_order ∧ state.2.ThisSymbolIdx = n.symbol ∧
      state.2.num_locals = 0 := by
  have hcount : ∃ gw₁, ({ gw with num_functions := gw.num_functions + 1 }).symbol true F =
      .ok (n, gw₁) ∧ gw₁.Symbols = gw'.Symbols ∧ gw₁.symbols_in_order = gw'.symbols_in_order := by
    unfold GraphWriter.symbol at h ⊢
    cases hget : Dict.get? gw.Symbols F with
    | some idx =>
      simp only [hget] at h ⊢
      obtain ⟨node, hnode, h⟩ := bind_ok h
      obtain ⟨rfl, rfl⟩ := Prod.mk.inj (Except.ok.inj h)
      rw [hnode]
      exact ⟨_, rfl, rfl, rfl⟩
    | none =>
      simp only [hget] at h ⊢
      obtain ⟨⟨⟩, hassert, h⟩ := bind_ok h
      obtain ⟨node, hnode, h⟩ := bind_ok h
      obtain ⟨rfl, rfl⟩ := Prod.mk.inj (Except.ok.inj h)
      rw [hassert, Edges.ok_bind, hnode]
      exact ⟨_, rfl, rfl, rfl⟩
  obtain ⟨gw₁, hsymbol, hS, ho⟩ := hcount
  unfold FunctionWriter.new
  simp only [hsymbol, Edges.ok_bind]
  cases sbom with
  | none =>
    obtain ⟨hS₁, ho₁⟩ := string_symbols gw₁ []
    exact ⟨_, rfl, hS₁.trans hS, ho₁.trans ho, rfl, rfl⟩
  | some sbom =>
    obtain ⟨hS₁, ho₁⟩ := string_symbols gw₁ sbom.1
    obtain ⟨hS₂, ho₂⟩ := string_symbols (gw₁.string sbom.1).2 sbom.2
    exact ⟨_, rfl, (hS₂.trans hS₁).trans hS, (ho₂.trans ho₁).trans ho, rfl, rfl⟩

/-- What is known of the nodes of a function, in terms of the table of the graph. -/
structure FunctionTrace.Follows (symbols : List GV) (t : FunctionTrace GV) : Prop where
  known : t.emission.graph.function ∈ symbols
  given : ∀ p ∈ t.nodes, Given symbols t.fw.ThisSymbolIdx p.1 p.2
  ends : t.nodes.map Prod.fst = .sym t.emission.graph.function :: asked 0 t.emission.graph.ops
  this : Room symbols →
    t.fw.ThisSymbolIdx = UInt64.ofNat (Dict.place symbols t.emission.graph.function)
  count : (names t.emission.graph.ops).length ≤ 65535

theorem FunctionTrace.Follows.mono {symbols symbols' : List GV} (hp : symbols <+: symbols')
    {t : FunctionTrace GV} (h : t.Follows symbols) : t.Follows symbols' where
  known := hp.subset h.known
  given p hp' := (h.given p hp').mono hp
  ends := h.ends
  this hroom := by rw [h.this (hroom.of_grown hp), Dict.place_of_grown hp h.known]
  count := h.count

theorem traceFunction_spec {gw gw' : GraphWriter GV} (h : Table gw) {e : Emission GV}
    {t : FunctionTrace GV} (hs : traceFunction gw e = .ok (t, gw')) :
    t.emission = e ∧ Table.Adds gw gw' e.graph.globals ∧ t.Follows gw'.symbols_in_order := by
  obtain ⟨⟨this, gw₁⟩, hsymbol, hs⟩ := bind_ok hs
  obtain ⟨state, hnew, hs⟩ := bind_ok hs
  obtain ⟨⟨nodes, gw₂, fw⟩, htrace, hs⟩ := bind_ok hs
  obtain ⟨rfl, rfl⟩ := Prod.mk.inj (Except.ok.inj hs)
  obtain ⟨hadds, hgiven⟩ := h.symbol hsymbol 0
  obtain ⟨state', hnew', hS, ho, hthis, hnum⟩ := new_eq hsymbol e.graph.sbom
  obtain rfl := Except.ok.inj (hnew.symm.trans hnew')
  have hready : Ready this.symbol 0 state :=
    ⟨hadds.table.congr ⟨hS, ho⟩, hthis, by rw [hnum]; rfl, Nat.zero_le _⟩
  have hstepped := hready.trace htrace
  have hmem : e.graph.function ∈ gw₁.symbols_in_order := hgiven.known
  have hgrown : gw₁.symbols_in_order <+: gw₂.symbols_in_order := ho ▸ hstepped.adds.grown
  refine ⟨rfl, ?_, ?_⟩
  · have hbefore : Table.Adds gw state.1 [e.graph.function] :=
      ⟨hadds.table.congr ⟨hS, ho⟩, ho ▸ hadds.grown, ho ▸ hadds.mem⟩
    exact hbefore.trans hstepped.adds
  · have hthis' : fw.ThisSymbolIdx = this.symbol := hstepped.ready.this
    refine ⟨hgrown.subset hmem, ?_, by rw [List.map_cons, hstepped.ends], fun hroom => ?_,
      (Nat.zero_add _).symm.le.trans hstepped.ready.bound⟩
    · refine List.forall_mem_cons.mpr ⟨?_, hthis' ▸ hstepped.given⟩
      exact ⟨hgrown.subset hmem, (hgiven.mono hgrown).node⟩
    · have hroom₁ := hroom.of_grown hgrown
      rw [hthis', hgiven.node (indexed_of_room hroom₁ hmem), End.node,
        Node.symbol_ofSymbol (packable_place hroom₁ hmem), Dict.place_of_grown hgrown hmem]

theorem traceFunctions_spec {gw gw' : GraphWriter GV} (h : Table gw) {es : List (Emission GV)}
    {ts : List (FunctionTrace GV)} (hs : traceFunctions es gw = .ok (ts, gw')) :
    ts.map FunctionTrace.emission = es ∧
      Table.Adds gw gw' (es.flatMap fun e => e.graph.globals) ∧
      ∀ t ∈ ts, t.Follows gw'.symbols_in_order := by
  induction es generalizing gw ts with
  | nil =>
    obtain ⟨rfl, rfl⟩ := Prod.mk.inj (Except.ok.inj hs)
    exact ⟨rfl, h.adds_nil, fun t ht => nomatch ht⟩
  | cons e es ih =>
    obtain ⟨⟨t, gw₁⟩, hone, hs⟩ := bind_ok hs
    obtain ⟨⟨more, gw₂⟩, hrest, hs⟩ := bind_ok hs
    obtain ⟨rfl, rfl⟩ := Prod.mk.inj (Except.ok.inj hs)
    obtain ⟨hemission, hadds, hfollows⟩ := traceFunction_spec h hone
    obtain ⟨hemissions, hadds', hfollows'⟩ := ih hadds.table hrest
    refine ⟨by rw [List.map_cons, hemission, hemissions], ?_, ?_⟩
    · rw [List.flatMap_cons]
      exact hadds.trans hadds'
    · exact List.forall_mem_cons.mpr ⟨hfollows.mono hadds'.grown, hfollows'⟩

/-! ## The ends that are asked for -/

/-- The locals of calls are asked for one after another. -/
theorem loc_mem_asked {k : Nat} {ops : List (Op GV)} {i : Nat} (hk : k ≤ i)
    (hi : i < k + (names ops).length) : .loc i ∈ asked k ops := by
  induction ops generalizing k with
  | nil =>
    simp only [names, List.filterMap_nil, List.length_nil] at hi
    omega
  | cons op ops ih =>
    rw [count_cons] at hi
    rw [asked, List.mem_append]
    by_cases hnext : k + op.fresh ≤ i
    · exact Or.inr (ih hnext hi)
    · cases op with
      | freshLocal Name =>
        rw [Op.fresh] at hnext
        obtain rfl : i = k := by omega
        exact Or.inl (List.mem_singleton_self _)
      | symbol gv => exact absurd hk hnext
      | addEdge kind to_end from_end idx => exact absurd hk hnext

omit [DecidableEq GV] in
/-- An end that is asked for is a symbol, a new local, or one of an edge. -/
theorem below_of_asked {N k : Nat} {ops : List (Op GV)}
    (hends : ∀ op ∈ ops, ∀ e ∈ op.ends, e.Below N) (hk : k + (names ops).length ≤ N) {e : End GV}
    (he : e ∈ asked k ops) : e.Below N := by
  induction ops generalizing k with
  | nil => cases he
  | cons op ops ih =>
    rw [count_cons] at hk
    rw [asked, List.mem_append] at he
    rcases he with he | he
    · cases op with
      | symbol gv =>
        obtain rfl := List.mem_singleton.mp he
        trivial
      | freshLocal Name =>
        obtain rfl := List.mem_singleton.mp he
        rw [Op.fresh] at hk
        show k < N
        omega
      | addEdge kind to_end from_end idx => exact hends _ List.mem_cons_self e he
    · exact ih (fun o ho => hends o (List.mem_cons_of_mem op ho)) hk he

/-- What the pass writes of a function uses the locals that it makes. -/
structure Emission.Bound (e : Emission GV) : Prop where
  ends : ∀ op ∈ e.graph.ops, ∀ n ∈ op.ends, n.Below (names e.graph.ops).length
  lt : ∀ V i, Dict.get? e.Locals V = some i → i < (names e.graph.ops).length
  injective : ∀ V W i, Dict.get? e.Locals V = some i → Dict.get? e.Locals W = some i → V = W

omit [DecidableEq GV] in
theorem Emitted.bound {M : Module GV} {e : Emission GV} (h : Emitted M e) : e.Bound := by
  cases h with
  | function h =>
    have hs := EdgeVisitor.run_safe h
    have hcount := hs.made.count
    exact ⟨hcount ▸ hs.made.ends, hcount ▸ hs.numbered.lt, hs.numbered.injective⟩
  | initializers h =>
    have hm := emitInitializers_made h
    exact ⟨hm.count ▸ hm.ends, fun _ _ h => (nomatch h), fun _ _ _ h => (nomatch h)⟩

/-! ## Few locals and few symbols -/

/-- With few locals and few symbols, nodes are safe. -/
theorem FunctionTrace.Follows.safe {symbols : List GV} {t : FunctionTrace GV}
    (h : t.Follows symbols) (hroom : Room symbols) (hb : t.emission.Bound) : t.Safe symbols := by
  have hthis : Packable t.fw.ThisSymbolIdx := by
    rw [h.this hroom]
    exact packable_place hroom h.known
  have hasked : ∀ p ∈ t.nodes, p.1 ∈ .sym t.emission.graph.function :: asked 0 t.emission.graph.ops :=
    fun p hp => h.ends ▸ List.mem_map_of_mem hp
  have hfits : ∀ p ∈ t.nodes, p.1.Fits := by
    intro p hp
    rcases List.mem_cons.mp (hasked p hp) with heq | hmem
    · rw [heq]
      trivial
    · have hbelow := below_of_asked hb.ends (Nat.zero_add _).le hmem
      exact hbelow.fits h.count
  have hnode : ∀ p ∈ t.nodes, p.2 = p.1.node symbols t.fw.ThisSymbolIdx :=
    fun p hp => (h.given p hp).node (indexed_of_room hroom (h.given p hp).known)
  have hends : ∀ p ∈ t.nodes, ∀ q ∈ t.nodes, p.2 = q.2 ↔ p.1 = q.1 := by
    intro p hp q hq
    rw [hnode p hp, hnode q hq]
    exact ⟨node_injective hroom hthis (h.given p hp).known (h.given q hq).known (hfits p hp)
      (hfits q hq), fun heq => by rw [heq]⟩
  have hencode : ∀ p ∈ t.nodes, t.fw.encode_node true p.2 = .ok (p.1.number symbols) :=
    fun p hp => (h.given p hp).encode_node hroom hthis (hfits p hp)
  have hdecode : ∀ p ∈ t.nodes, ∀ address : GV → Address, (∀ gv ∈ symbols, Packable (address gv)) →
      decode_node true (symbols.map address) (p.1.number symbols)
        (address t.emission.graph.function) = .ok (p.1.read address t.emission.graph.function) :=
    fun p hp address haddress =>
      decode_node_number hroom haddress h.known (h.given p hp).known (hfits p hp)
  refine ⟨hends, fun V i hi => ?_, fun p hp => ⟨_, hencode p hp, fun q hq hsame => ?_, hdecode p hp⟩⟩
  · have hmem : .loc i ∈ t.nodes.map Prod.fst := by
      rw [h.ends]
      exact List.mem_cons_of_mem _
        (loc_mem_asked (Nat.zero_le i) ((Nat.zero_add _).symm ▸ hb.lt V i hi))
    obtain ⟨⟨e, n⟩, hp, rfl⟩ := List.mem_map.mp hmem
    refine ⟨n, hp, fun W j m hj hq hmn => ?_⟩
    obtain rfl : j = i := End.loc.inj ((hends _ hq _ hp).mp hmn)
    exact hb.injective W V j hj hi
  · -- The reader, with the places of the symbols for addresses, reads the nodes themselves.
    let address : GV → Address := fun gv => UInt64.ofNat (Dict.place symbols gv)
    have haddress : ∀ gv ∈ symbols, Packable (address gv) := fun gv hgv => packable_place hroom hgv
    have hread : ∀ r ∈ t.nodes, r.1.read address t.emission.graph.function = r.2 := by
      intro r hr
      rw [hnode r hr]
      cases r.1 with
      | sym gv => rfl
      | loc i => rw [End.read, End.node, h.this hroom]
    have hnumber : q.1.number symbols = p.1.number symbols :=
      Except.ok.inj ((hencode q hq).symm.trans hsame)
    have hreads := (hdecode q hq address haddress).symm.trans
      (hnumber ▸ hdecode p hp address haddress)
    rw [← hread q hq, ← hread p hp]
    exact Except.ok.inj hreads

section
variable {S : Finset GV} (hS : S.card ≤ 2 ^ 31) {gw : GraphWriter GV} (h : Table gw)
  (hin : ∀ gv ∈ gw.symbols_in_order, gv ∈ S)
include hS h hin

/-- With few locals and few symbols, no assertion fails. -/
theorem traceFunction_succeeds {e : Emission GV} (hgvs : ∀ gv ∈ e.graph.globals, gv ∈ S)
    (hb : e.Bound) (hcount : (names e.graph.ops).length ≤ 65535) :
    ∃ t gw', traceFunction gw e = .ok (t, gw') := by
  have hlen : gw.symbols_in_order.length < 2 ^ 48 - 1 :=
    ((h.length_le hin).trans hS).trans_lt (by norm_num)
  obtain ⟨n, gw₁, hsymbol⟩ := h.symbol_succeeds e.graph.function hlen
  obtain ⟨hadds, hgiven⟩ := h.symbol hsymbol 0
  obtain ⟨state, hnew, hsym, ho, hthis, hnum⟩ := new_eq hsymbol e.graph.sbom
  have htable : Table state.1 := hadds.table.congr ⟨hsym, ho⟩
  have hready : Ready n.symbol 0 state := ⟨htable, hthis, by rw [hnum]; rfl, Nat.zero_le _⟩
  have hin₁ : ∀ gv ∈ state.1.symbols_in_order, gv ∈ S := fun gv hgv =>
    ((hadds.mem gv).mp (ho ▸ hgv)).elim (hin gv) fun hgv =>
      hgvs gv (List.mem_singleton.mp hgv ▸ List.mem_cons_self)
  have hroom : Room gw₁.symbols_in_order := ho ▸ (htable.length_le hin₁).trans hS
  have hpack : Packable n.symbol := by
    have hplace := packable_place hroom hgiven.known
    rw [hgiven.node (indexed_of_room hroom hgiven.known), End.node, Node.symbol_ofSymbol hplace]
    exact hplace
  have hends : ∀ op ∈ e.graph.ops, ∀ n ∈ op.ends, n.Fits := fun op hop n hn =>
    (hb.ends op hop n hn).fits hcount
  obtain ⟨nodes, state', htrace⟩ := hready.trace_succeeds hS hpack hin₁ hends
    (fun gv hgv => hgvs gv (List.mem_cons_of_mem _ hgv)) ((Nat.zero_add _).le.trans hcount)
  simp only [traceFunction, hsymbol, hnew, htrace, Edges.ok_bind]
  exact ⟨_, _, rfl⟩

theorem traceFunctions_succeeds {es : List (Emission GV)}
    (hgvs : ∀ gv ∈ es.flatMap fun e => e.graph.globals, gv ∈ S) (hb : ∀ e ∈ es, e.Bound)
    (hcount : ∀ e ∈ es, (names e.graph.ops).length ≤ 65535) :
    ∃ ts gw', traceFunctions es gw = .ok (ts, gw') := by
  induction es generalizing gw with
  | nil => exact ⟨[], gw, rfl⟩
  | cons e es ih =>
    rw [List.flatMap_cons] at hgvs
    rw [List.forall_mem_cons] at hb hcount
    have hfirst : ∀ gv ∈ e.graph.globals, gv ∈ S := fun gv hgv =>
      hgvs gv (List.mem_append_left _ hgv)
    obtain ⟨t, gw₁, hone⟩ := traceFunction_succeeds hS h hin hfirst hb.1 hcount.1
    obtain ⟨-, hadds, -⟩ := traceFunction_spec h hone
    obtain ⟨ts, gw', hrest⟩ := ih hadds.table
      (fun gv hgv => ((hadds.mem gv).mp hgv).elim (hin gv) (hfirst gv))
      (fun gv hgv => hgvs gv (List.mem_append_right _ hgv)) hb.2 hcount.2
    simp only [traceFunctions, hone, hrest, Edges.ok_bind]
    exact ⟨_, _, rfl⟩

end

/-! ## Too many symbols -/

/-- The symbol after the first 2^31 has the number of the first. -/
theorem FunctionTrace.Follows.not_safe {symbols : List GV} (hnodup : symbols.Nodup)
    (hlen : 2 ^ 31 < symbols.length) {t : FunctionTrace GV} (h : t.Follows symbols)
    {n : Edges.Node} (hmem : (.sym symbols[2 ^ 31], n) ∈ t.nodes) : ¬ t.Safe symbols := by
  intro hsafe
  have hplace : Dict.place symbols symbols[2 ^ 31] = 2 ^ 31 := hnodup.idxOf_getElem _ _
  have hnode : n = Node.ofSymbol (UInt64.ofNat (2 ^ 31)) := by
    have hgiven := (h.given _ hmem).node (by rw [End.Indexed, hplace]; norm_num)
    rwa [End.node, hplace] at hgiven
  obtain ⟨number, hencode, -, hdecode⟩ := hsafe.numbers _ hmem
  have hnumber : number = 1 := by
    have hone : t.fw.encode_node true (Node.ofSymbol (UInt64.ofNat (2 ^ 31))) = .ok 1 := by
      have hvalid : (Node.ofSymbol (UInt64.ofNat (2 ^ 31))).valid = true := by decide
      simp only [FunctionWriter.encode_node, hvalid, assert_true, Edges.ok_bind,
        Node.local_idx_ofSymbol_any]
      rfl
    rw [hnode] at hencode
    exact Except.ok.inj (hencode.symm.trans hone)
  have hfirst : 0 < symbols.length := by omega
  let address : GV → Address := fun gv => if gv = symbols[0] then 0 else 1
  have haddress : ∀ gv ∈ symbols, Packable (address gv) := by
    intro gv _
    unfold address Packable
    split <;> decide
  have hread := hdecode address haddress
  have hdecoded : decode_node true (symbols.map address) 1
      (address t.emission.graph.function) = .ok (Node.ofSymbol 0) := by
    have hzero : symbol_address (symbols.map address) 0 = .ok 0 := by
      simp [symbol_address, List.getElem?_eq_getElem hfirst, address]
    have hpack : Packable 0 := by
      unfold Packable
      decide
    show (do
      let address ← symbol_address (symbols.map address) 0
      Node.mkSymbol true address) = _
    rw [hzero, Edges.ok_bind, Node.mkSymbol_eq hpack]
  have hne : symbols[2 ^ 31] ≠ symbols[0] := fun heq => by
    have := hnodup.getElem_inj_iff.mp heq
    omega
  rw [hnumber, hdecoded] at hread
  have haddr : address symbols[2 ^ 31] = 1 := if_neg hne
  have := Except.ok.inj hread
  rw [End.read, haddr] at this
  exact absurd this (by decide)

omit [DecidableEq GV] in
theorem sym_mem_asked {k : Nat} {ops : List (Op GV)} {gv : GV}
    (h : gv ∈ ops.flatMap Op.globals) : .sym gv ∈ asked k ops := by
  induction ops generalizing k with
  | nil => cases h
  | cons op ops ih =>
    rw [List.flatMap_cons, List.mem_append] at h
    rw [asked, List.mem_append]
    refine h.imp (fun hop => ?_) ih
    have hend : ∀ {e : End GV}, gv ∈ e.globals → e = .sym gv := by
      intro e he
      cases e with
      | sym gv' => rw [List.mem_singleton.mp he]
      | loc i => cases he
    cases op with
    | symbol gv' => exact List.mem_singleton.mpr (congrArg End.sym (List.mem_singleton.mp hop))
    | freshLocal Name => cases hop
    | addEdge kind to_end from_end idx =>
      rcases List.mem_append.mp hop with hto | hfrom
      · exact hend hto ▸ List.mem_cons_self
      · exact hend hfrom ▸ List.mem_cons_of_mem _ List.mem_cons_self

theorem table_empty (record_debug_data : Bool) :
    Table ({ record_debug_data } : GraphWriter GV) :=
  ⟨Dict.Interned.nil, List.nodup_nil⟩

/-- A graph whose nodes are safe does not mention too many symbols. -/
theorem SafelyNumbered.card_le {record_debug_data : Bool} {es : List (Emission GV)}
    (h : SafelyNumbered record_debug_data es) :
    (es.flatMap fun e => e.graph.globals).toFinset.card ≤ 2 ^ 31 := by
  obtain ⟨ts, gw, hts, hsafe⟩ := h
  obtain ⟨hemissions, hadds, hfollows⟩ := traceFunctions_spec (table_empty _) hts
  have hmem : ∀ gv, gv ∈ gw.symbols_in_order ↔ gv ∈ es.flatMap fun e => e.graph.globals := by
    intro gv
    rw [hadds.mem]
    exact or_iff_right List.not_mem_nil
  have hsame : (es.flatMap fun e => e.graph.globals).toFinset = gw.symbols_in_order.toFinset := by
    ext gv
    rw [List.mem_toFinset, List.mem_toFinset, hmem]
  rw [hsame, List.toFinset_card_of_nodup hadds.table.nodup]
  by_contra hlen
  have hlen : 2 ^ 31 < gw.symbols_in_order.length := by omega
  obtain ⟨e, he, hgv⟩ := List.mem_flatMap.mp
    ((hmem _).mp (List.getElem_mem (l := gw.symbols_in_order) hlen))
  obtain ⟨t, ht, rfl⟩ := List.mem_map.mp (hemissions ▸ he)
  have hasked : .sym gw.symbols_in_order[2 ^ 31] ∈ t.nodes.map Prod.fst := by
    rw [(hfollows t ht).ends]
    rcases List.mem_cons.mp hgv with heq | hmem
    · exact heq ▸ List.mem_cons_self
    · exact List.mem_cons_of_mem _ (sym_mem_asked hmem)
  obtain ⟨⟨e, n⟩, hp, rfl⟩ := List.mem_map.mp hasked
  exact (hfollows t ht).not_safe hadds.table.nodup hlen hp (hsafe t ht)

/-- A function of a graph whose nodes are safe does not make too many locals. -/
theorem SafelyNumbered.count_le {record_debug_data : Bool} {es : List (Emission GV)}
    (h : SafelyNumbered record_debug_data es) :
    ∀ e ∈ es, (names e.graph.ops).length ≤ 65535 := by
  obtain ⟨ts, gw, hts, -⟩ := h
  obtain ⟨hemissions, -, hfollows⟩ := traceFunctions_spec (table_empty _) hts
  intro e he
  obtain ⟨t, ht, rfl⟩ := List.mem_map.mp (hemissions ▸ he)
  exact (hfollows t ht).count

/-- **The nodes of the functions of a module are numbered safely exactly when no function
makes more than 65535 locals and at most 2^31 symbols are mentioned.** -/
theorem safelyNumbered_iff {M : Module GV} (record_debug_data : Bool) {es : List (Emission GV)}
    (hes : ∀ e ∈ es, Emitted M e) :
    SafelyNumbered record_debug_data es ↔
      (∀ e ∈ es, (names e.graph.ops).length ≤ 65535) ∧
        (es.flatMap fun e => e.graph.globals).toFinset.card ≤ 2 ^ 31 := by
  refine ⟨fun h => ⟨h.count_le, h.card_le⟩, fun ⟨hcount, hcard⟩ => ?_⟩
  have hb : ∀ e ∈ es, e.Bound := fun e he => (hes e he).bound
  obtain ⟨ts, gw, hts⟩ := traceFunctions_succeeds hcard (table_empty record_debug_data)
    (fun gv hgv => absurd hgv List.not_mem_nil)
    (fun gv hgv => List.mem_toFinset.mpr hgv) hb hcount
  obtain ⟨hemissions, hadds, hfollows⟩ := traceFunctions_spec (table_empty _) hts
  have hroom : Room gw.symbols_in_order :=
    (hadds.table.length_le fun gv hgv => List.mem_toFinset.mpr
      (((hadds.mem gv).mp hgv).resolve_left List.not_mem_nil)).trans hcard
  refine ⟨ts, gw, hts, fun t ht => (hfollows t ht).safe hroom (hb _ ?_)⟩
  exact hemissions ▸ List.mem_map_of_mem ht

end

/-- `define void @stores(ptr %p)`, which stores its argument to a variable. -/
def stores : Function String :=
  pointerFunction "stores"
    [⟨0, ascii "a", ascii "%a", [], .Alloca⟩,
      ⟨1, [], [], [], .Store (.Local (.Instruction 0)) (.Local (.Argument 0))⟩,
      ⟨2, [], [], [], .Return none⟩] (by decide)

theorem stores_safelyNumbered : ∃ v, EdgeVisitor.run sampleModule stores = .ok v ∧
    SafelyNumbered true [⟨⟨"stores", none, v.FW.ops, UInt32.ofNat v.NumAllocas⟩, v.Locals⟩] := by
  obtain ⟨v, hrun, hcount, hcard⟩ : ∃ v, EdgeVisitor.run sampleModule stores = .ok v ∧
      (names v.FW.ops).length ≤ 65535 ∧
      ("stores" :: v.FW.ops.flatMap Op.globals).toFinset.card ≤ 2 ^ 31 :=
    ⟨_, rfl, by decide, by decide⟩
  refine ⟨v, hrun, (safelyNumbered_iff (M := sampleModule) true ?_).mpr ⟨?_, ?_⟩⟩
  · exact List.forall_mem_singleton.mpr (.function (F := stores) hrun)
  · exact List.forall_mem_singleton.mpr hcount
  · rw [List.flatMap_singleton]
    exact hcard

/-! ## A function of many variables -/

/-- A function that does nothing but allocate so many variables. -/
def allocates (count : Nat) : Function String where
  symbol := "allocates"
  type := { ReturnType := .void, params := [], isVarArg := false, bounded := by decide }
  args := []
  body := (List.range count).map fun id => ⟨id, [], [], [], .Alloca⟩
  arg_size := rfl
  distinct := by
    rw [List.map_map]
    exact List.nodup_range.map fun _ _ h => h

/-- Every variable has a local. -/
theorem preprocess_allocas {body : List (Instruction GV)} (hbody : ∀ I ∈ body, I.op = .Alloca)
    {v v' : EdgeVisitor GV}
    (h : body.foldlM EdgeVisitor.preprocessVisitAllocaInst v = .ok v') :
    v'.FW.num_locals = v.FW.num_locals + body.length := by
  induction body generalizing v with
  | nil =>
    obtain rfl := Except.ok.inj h
    rfl
  | cons I body ih =>
    rw [List.forall_mem_cons] at hbody
    rw [List.foldlM_cons] at h
    obtain ⟨v₁, hone, h⟩ := bind_ok h
    have hcount : v₁.FW.num_locals = v.FW.num_locals + 1 := by
      simp only [EdgeVisitor.preprocessVisitAllocaInst, hbody.1] at hone
      split at hone
      · cases hone
      · obtain rfl := Except.ok.inj hone
        rfl
    rw [ih hbody.2 h, hcount, List.length_cons]
    omega

theorem run_allocates (count : Nat) : ∃ v,
    EdgeVisitor.run sampleModule (allocates count) = .ok v ∧ (names v.FW.ops).length = count := by
  obtain ⟨v, hnew, -⟩ := EdgeVisitor.new_spec sampleModule (allocates count)
  have hops : ∀ I ∈ (allocates count).body, I.op = .Alloca := by simp [allocates]
  have hvisit : ∀ body : List (Instruction String), (∀ I ∈ body, I.op = .Alloca) →
      body.foldlM (fun v I => v.visit sampleModule (allocates count) I) v = .ok v := by
    intro body hbody
    induction body with
    | nil => rfl
    | cons I body ih =>
      rw [List.forall_mem_cons] at hbody
      rw [List.foldlM_cons, EdgeVisitor.visit, hbody.1]
      exact ih hbody.2
  have hrun : EdgeVisitor.run sampleModule (allocates count) = .ok v := by
    unfold EdgeVisitor.run
    rw [hnew]
    exact hvisit _ hops
  refine ⟨v, hrun, ?_⟩
  rw [(EdgeVisitor.run_safe hrun).made.count]
  obtain ⟨v₁, hallocas, hnew⟩ := bind_ok hnew
  have hcount := preprocess_allocas hops hallocas
  obtain rfl := Except.ok.inj hnew
  simpa [allocates] using hcount

theorem allocates_not_safelyNumbered : ∃ v,
    EdgeVisitor.run sampleModule (allocates 65536) = .ok v ∧ ∀ record_debug_data sbom,
      ¬ SafelyNumbered record_debug_data
        [⟨⟨"allocates", sbom, v.FW.ops, UInt32.ofNat v.NumAllocas⟩, v.Locals⟩] := by
  obtain ⟨v, hrun, hlen⟩ := run_allocates 65536
  refine ⟨v, hrun, fun record_debug_data sbom hsafe => ?_⟩
  have hle := hsafe.count_le _ (List.mem_singleton_self _)
  simp only [hlen] at hle
  omega

end
end Bracelet.Reachability
