import Bracelet.EdgeFrames
import Bracelet.VisitorLocals

/-!
# The numbers of nodes

A node packs a local index into 16 bits, plus one, and an edge holds a node in 32 bits,
of which one tells symbols and locals apart.  Nothing between the counters and the
packing checks that they stay below these bounds.

`FunctionWriter.trace` follows the writers and keeps every node that they are asked for.
No assertion fails while few locals are made and few symbols are mentioned
(`Ready.trace_succeeds`), and different ends have different nodes (`node_injective`).
-/
namespace Bracelet.Edges

section
variable {GV : Type} [DecidableEq GV]

/-! ## The nodes that are asked for -/

namespace FunctionWriter

/-- The nodes that a call asks for, with the ends they stand for. -/
def asks (state : GraphWriter GV × FunctionWriter) : Op GV → Result (List (End GV × Node))
  | .symbol gv => do
    let (n, _) ← state.1.symbol true gv
    return [(.sym gv, n)]
  | .freshLocal _ => do
    let n ← Node.mkLocal true state.2.ThisSymbolIdx state.2.num_locals.toUInt64
    return [(.loc state.2.num_locals.toNat, n)]
  | .addEdge _ to_end from_end _ => do
    let (to_node, gw) ← state.2.node true state.1 to_end
    let (from_node, _) ← state.2.node true gw from_end
    return [(to_end, to_node), (from_end, from_node)]

/-- Calls, one after another, with the nodes that they ask for. -/
def trace : List (Op GV) → GraphWriter GV × FunctionWriter →
    Result (List (End GV × Node) × GraphWriter GV × FunctionWriter)
  | [], state => .ok ([], state)
  | op :: ops, state => do
    let nodes ← asks state op
    let state ← step true state op
    let (more, state) ← trace ops state
    return (nodes ++ more, state)

end FunctionWriter

def End.globals : End GV → List GV
  | .sym gv => [gv]
  | .loc _ => []

/-- The global values that a call mentions. -/
def Op.globals : Op GV → List GV
  | .symbol gv => [gv]
  | .freshLocal _ => []
  | .addEdge _ to_end from_end _ => to_end.globals ++ from_end.globals

def FunctionGraph.globals (f : FunctionGraph GV) : List GV :=
  f.function :: f.ops.flatMap Op.globals

/-! ## Symbols -/

/-- The table of symbols. -/
structure Table (gw : GraphWriter GV) : Prop where
  interned : Dict.Interned gw.Symbols gw.symbols_in_order
  nodup : gw.symbols_in_order.Nodup

/-- From one table to another, which has some more symbols. -/
structure Table.Adds (gw gw' : GraphWriter GV) (gvs : List GV) : Prop where
  table : Table gw'
  grown : gw.symbols_in_order <+: gw'.symbols_in_order
  mem : ∀ gv, gv ∈ gw'.symbols_in_order ↔ gv ∈ gw.symbols_in_order ∨ gv ∈ gvs

theorem Table.adds_nil {gw : GraphWriter GV} (h : Table gw) : Table.Adds gw gw [] :=
  ⟨h, List.prefix_rfl, by simp⟩

theorem Table.Adds.trans {gw gw' gw'' : GraphWriter GV} {gvs more : List GV}
    (h : Table.Adds gw gw' gvs) (h' : Table.Adds gw' gw'' more) :
    Table.Adds gw gw'' (gvs ++ more) := by
  refine ⟨h'.table, h.grown.trans h'.grown, fun gv => ?_⟩
  rw [h'.mem, h.mem, List.mem_append, or_assoc]

/-- The index of a symbol fits a word of the table. -/
def End.Indexed (symbols : List GV) : End GV → Prop
  | .sym gv => Dict.place symbols gv < 2 ^ 32
  | .loc _ => True

/-- A node that the writers gave for an end. -/
structure Given (symbols : List GV) (this : UInt64) (e : End GV) (n : Node) : Prop where
  known : e.Known symbols
  node : e.Indexed symbols → n = e.node symbols this

theorem Given.mono {symbols symbols' : List GV} (hp : symbols <+: symbols') {this : UInt64}
    {e : End GV} {n : Node} (h : Given symbols this e n) : Given symbols' this e n := by
  refine ⟨h.known.mono hp, fun hi => ?_⟩
  rw [End.node_of_grown hp h.known]
  refine h.node ?_
  cases e with
  | sym gv => simpa only [End.Indexed, Dict.place_of_grown hp h.known] using hi
  | loc i => trivial

/-- Asking for a symbol. -/
theorem Table.symbol {gw gw' : GraphWriter GV} (h : Table gw) {GO : GV} {n : Node}
    (hs : gw.symbol true GO = .ok (n, gw')) (this : UInt64) :
    Table.Adds gw gw' [GO] ∧ Given gw'.symbols_in_order this (.sym GO) n := by
  unfold GraphWriter.symbol at hs
  split at hs
  · rename_i idx hidx
    obtain ⟨node, hnode, hs⟩ := bind_ok hs
    obtain ⟨rfl, rfl⟩ := Prod.mk.inj (Except.ok.inj hs)
    obtain ⟨hmem, rfl⟩ := h.interned.mem_of_get? hidx
    refine ⟨⟨h, List.prefix_rfl, fun gv => ?_⟩, hmem, fun hlt => ?_⟩
    · rw [List.mem_singleton]
      exact ⟨Or.inl, fun hgv => hgv.elim id fun heq => heq ▸ hmem⟩
    · rw [Node.mkSymbol_ok hnode, toUInt64_ofNat hlt]
      rfl
  · rename_i hnone
    have hs := assert_bind hs
    obtain ⟨node, hnode, hs⟩ := bind_ok hs
    obtain ⟨rfl, rfl⟩ := Prod.mk.inj (Except.ok.inj hs)
    have hnew := h.interned.not_mem_of_get? hnone
    have hplace : Dict.place (gw.symbols_in_order ++ [GO]) GO = gw.symbols_in_order.length := by
      simp [Dict.place, List.idxOf_append, hnew]
    refine ⟨⟨⟨h.interned.push hnone, ?_⟩, List.prefix_append _ _, by simp⟩, by simp [End.Known],
      fun _ => ?_⟩
    · exact List.nodup_append.mpr ⟨h.nodup, List.nodup_singleton _, by
        rintro a ha b hb rfl
        exact hnew (List.mem_singleton.mp hb ▸ ha)⟩
    · rw [Node.mkSymbol_ok hnode, End.node, hplace, h.interned.length]

/-- There is a node for a symbol while the table is not too long. -/
theorem Table.symbol_succeeds {gw : GraphWriter GV} (h : Table gw) (GO : GV)
    (hlen : gw.symbols_in_order.length < 2 ^ 48 - 1) :
    ∃ n gw', gw.symbol true GO = .ok (n, gw') := by
  unfold GraphWriter.symbol
  split
  · rename_i idx hidx
    have hpack : Packable idx.toUInt64 := by
      have hlt := idx.toNat_lt
      unfold Packable
      rw [UInt32.toNat_toUInt64]
      omega
    exact ⟨_, gw, by rw [Node.mkSymbol_eq hpack]; rfl⟩
  · have hpack : Packable (UInt64.ofNat gw.Symbols.length) := by
      unfold Packable
      rw [UInt64.toNat_ofNat', h.interned.length]
      omega
    have hlength : (gw.Symbols.length == gw.symbols_in_order.length) = true := by
      rw [h.interned.length, beq_self_eq_true]
    simp only [Node.mkSymbol_eq hpack, hlength, assert_true, ok_bind]
    exact ⟨_, _, rfl⟩

/-- Asking for the node of an end. -/
theorem Table.node {gw gw' : GraphWriter GV} (h : Table gw) {fw : FunctionWriter} {e : End GV}
    {n : Node} (hs : fw.node true gw e = .ok (n, gw')) :
    Table.Adds gw gw' e.globals ∧ Given gw'.symbols_in_order fw.ThisSymbolIdx e n := by
  cases e with
  | sym gv => exact h.symbol hs _
  | loc i =>
    obtain ⟨node, hnode, hs⟩ := bind_ok hs
    obtain ⟨rfl, rfl⟩ := Prod.mk.inj (Except.ok.inj hs)
    exact ⟨h.adds_nil, trivial, fun _ => Node.mkLocal_ok hnode⟩

theorem Table.node_succeeds {gw : GraphWriter GV} (h : Table gw) {fw : FunctionWriter}
    (hthis : Packable fw.ThisSymbolIdx) {e : End GV} (hfit : e.Fits)
    (hlen : gw.symbols_in_order.length < 2 ^ 48 - 1) :
    ∃ n gw', fw.node true gw e = .ok (n, gw') := by
  cases e with
  | sym gv => exact h.symbol_succeeds gv hlen
  | loc i =>
    have hi : (UInt64.ofNat i).toNat < 65535 := by
      have hfit : i < 65535 := hfit
      rw [UInt64.toNat_ofNat']
      omega
    simp only [FunctionWriter.node, Node.mkLocal_eq hthis hi, ok_bind]
    exact ⟨_, gw, rfl⟩

/-! ## The calls of one function -/

/-- The number of locals that a call makes. -/
def Op.fresh : Op GV → Nat
  | .freshLocal _ => 1
  | _ => 0

/-- The ends whose nodes a call asks for, after so many locals. -/
def Op.asked (k : Nat) : Op GV → List (End GV)
  | .symbol gv => [.sym gv]
  | .freshLocal _ => [.loc k]
  | .addEdge _ to_end from_end _ => [to_end, from_end]

/-- The ends whose nodes calls ask for. -/
def asked : Nat → List (Op GV) → List (End GV)
  | _, [] => []
  | k, op :: ops => op.asked k ++ asked (k + op.fresh) ops

omit [DecidableEq GV] in
theorem count_cons (k : Nat) (op : Op GV) (ops : List (Op GV)) :
    k + (names (op :: ops)).length = k + op.fresh + (names ops).length := by
  cases op with
  | freshLocal Name =>
    have hlen : (names (.freshLocal Name :: ops)).length = (names ops).length + 1 := by simp [names]
    rw [hlen, Op.fresh]
    omega
  | symbol gv => rfl
  | addEdge kind to_end from_end idx => rfl

/-- The writers, after so many locals of a function. -/
structure Ready (this : UInt64) (k : Nat) (state : GraphWriter GV × FunctionWriter) : Prop where
  table : Table state.1
  this : state.2.ThisSymbolIdx = this
  num_locals : state.2.num_locals.toNat = k
  bound : k ≤ 65535

omit [DecidableEq GV] in
theorem string_symbols (gw : GraphWriter GV) (S : Bytes) :
    (gw.string S).2.Symbols = gw.Symbols ∧
      (gw.string S).2.symbols_in_order = gw.symbols_in_order := by
  unfold GraphWriter.string
  split <;> exact ⟨rfl, rfl⟩

omit [DecidableEq GV] in
/-- The writer after it has recorded the name of a local. -/
theorem freshLocal_symbols (gw : GraphWriter GV) (Name : Bytes) :
    (if gw.record_debug_data then { (gw.string Name).2 with
      local_names := (gw.string Name).2.local_names ++ [(gw.string Name).1] }
      else gw).Symbols = gw.Symbols ∧
    (if gw.record_debug_data then { (gw.string Name).2 with
      local_names := (gw.string Name).2.local_names ++ [(gw.string Name).1] }
      else gw).symbols_in_order = gw.symbols_in_order := by
  split
  · exact string_symbols gw Name
  · exact ⟨rfl, rfl⟩

/-- A table is about the symbols only. -/
theorem Table.congr {gw gw' : GraphWriter GV} (h : Table gw)
    (heq : gw'.Symbols = gw.Symbols ∧ gw'.symbols_in_order = gw.symbols_in_order) : Table gw' :=
  ⟨by rw [heq.1, heq.2]; exact h.interned, by rw [heq.2]; exact h.nodup⟩

section
variable {this : UInt64} {k : Nat} {state state' : GraphWriter GV × FunctionWriter}

/-- What one call does. -/
structure Stepped (this : UInt64) (k : Nat) (state state' : GraphWriter GV × FunctionWriter)
    (gvs : List GV) (ends : List (End GV)) (nodes : List (End GV × Node)) : Prop where
  ready : Ready this k state'
  adds : Table.Adds state.1 state'.1 gvs
  given : ∀ p ∈ nodes, Given state'.1.symbols_in_order this p.1 p.2
  ends : nodes.map Prod.fst = ends

theorem mkLocal_bound {sym i : UInt64} {n : Node} (h : Node.mkLocal true sym i = .ok n)
    (hi : i.toNat ≤ 65535) : i.toNat < 65535 := by
  unfold Node.mkLocal at h
  have h := assert_bind h
  by_contra hlt
  have heq : i = 65535 := UInt64.toNat_inj.mp (by
    rw [show (65535 : UInt64).toNat = 65535 by decide]
    omega)
  subst heq
  cases h

omit [DecidableEq GV] in
theorem addEdge_edges {fw fw' : FunctionWriter} {kind : EdgeKind} {e : Edge}
    (h : fw.addEdge true kind e = .ok fw') : ∃ m_edges, fw' = { fw with m_edges } := by
  obtain ⟨to_number, -, h⟩ := bind_ok h
  obtain ⟨from_number, -, h⟩ := bind_ok h
  exact ⟨_, (Except.ok.inj h).symm⟩

/-- **One call.** -/
theorem Ready.step (h : Ready this k state) {op : Op GV} {nodes : List (End GV × Node)}
    (hasks : FunctionWriter.asks state op = .ok nodes)
    (hs : FunctionWriter.step true state op = .ok state') :
    Stepped this (k + op.fresh) state state' op.globals (op.asked k) nodes := by
  obtain ⟨gw, fw⟩ := state
  obtain ⟨htable, rfl, rfl, hbound⟩ := h
  cases op with
  | symbol gv =>
    obtain ⟨⟨n, gw₁⟩, hsym, hasks⟩ := bind_ok hasks
    obtain rfl := Except.ok.inj hasks
    obtain ⟨hadds, hgiven⟩ := htable.symbol hsym fw.ThisSymbolIdx
    simp only [FunctionWriter.step, hsym, ok_bind] at hs
    obtain rfl := Except.ok.inj hs
    exact ⟨⟨hadds.table, rfl, rfl, hbound⟩, hadds, List.forall_mem_singleton.mpr hgiven, rfl⟩
  | freshLocal Name =>
    obtain ⟨n, hn, hasks⟩ := bind_ok hasks
    obtain rfl := Except.ok.inj hasks
    obtain ⟨-, -, hs⟩ := bind_ok hs
    obtain rfl := Except.ok.inj hs
    have hsame := freshLocal_symbols gw Name
    have hidx : fw.num_locals.toUInt64 = UInt64.ofNat fw.num_locals.toNat := by
      apply UInt64.toNat_inj.mp
      have hlt := fw.num_locals.toNat_lt
      rw [UInt32.toNat_toUInt64, UInt64.toNat_ofNat']
      omega
    have hlt : fw.num_locals.toNat < 65535 := by
      rw [← UInt32.toNat_toUInt64]
      exact mkLocal_bound hn (UInt32.toNat_toUInt64 _ ▸ hbound)
    have hadd : (fw.num_locals + 1).toNat = fw.num_locals.toNat + 1 := by
      rw [UInt32.toNat_add, UInt32.toNat_one]
      omega
    refine ⟨⟨htable.congr hsame, rfl, hadd, hlt⟩,
      ⟨htable.congr hsame, by rw [hsame.2], by simp [hsame.2, Op.globals]⟩, ?_, rfl⟩
    refine List.forall_mem_singleton.mpr ⟨trivial, fun _ => ?_⟩
    exact (Node.mkLocal_ok hn).trans (congrArg _ hidx)
  | addEdge kind to_end from_end idx =>
    obtain ⟨⟨to_node, gw₁⟩, hto, hasks⟩ := bind_ok hasks
    obtain ⟨⟨from_node, gw₂⟩, hfrom, hasks⟩ := bind_ok hasks
    obtain rfl := Except.ok.inj hasks
    obtain ⟨hadds₁, hgiven₁⟩ := htable.node hto
    obtain ⟨hadds₂, hgiven₂⟩ := hadds₁.table.node hfrom
    simp only [FunctionWriter.step, hto, hfrom, ok_bind] at hs
    obtain ⟨fw', hedge, hs⟩ := bind_ok hs
    obtain rfl := Except.ok.inj hs
    obtain ⟨m_edges, rfl⟩ := addEdge_edges hedge
    exact ⟨⟨hadds₂.table, rfl, rfl, hbound⟩, hadds₁.trans hadds₂,
      List.forall_mem_cons.mpr ⟨hgiven₁.mono hadds₂.grown, List.forall_mem_singleton.mpr hgiven₂⟩,
      rfl⟩

/-- **Calls, one after another.** -/
theorem Ready.trace (h : Ready this k state) {ops : List (Op GV)} {nodes : List (End GV × Node)}
    (hs : FunctionWriter.trace ops state = .ok (nodes, state')) :
    Stepped this (k + (names ops).length) state state' (ops.flatMap Op.globals) (asked k ops)
      nodes := by
  induction ops generalizing k state nodes with
  | nil =>
    obtain ⟨rfl, rfl⟩ := Prod.mk.inj (Except.ok.inj hs)
    exact ⟨h, h.table.adds_nil, fun p hp => (nomatch hp), rfl⟩
  | cons op ops ih =>
    obtain ⟨first, hasks, hs⟩ := bind_ok hs
    obtain ⟨state₁, hstep, hs⟩ := bind_ok hs
    obtain ⟨⟨more, state₂⟩, hrest, hs⟩ := bind_ok hs
    obtain ⟨rfl, rfl⟩ := Prod.mk.inj (Except.ok.inj hs)
    have h₁ := h.step hasks hstep
    have h₂ := ih h₁.ready hrest
    have hcount := count_cons k op ops
    refine ⟨hcount ▸ h₂.ready, ?_, ?_, ?_⟩
    · rw [List.flatMap_cons]
      exact h₁.adds.trans h₂.adds
    · intro p hp
      rcases List.mem_append.mp hp with hp | hp
      · exact (h₁.given p hp).mono h₂.adds.grown
      · exact h₂.given p hp
    · rw [List.map_append, h₁.ends, h₂.ends, asked]

/-! ## When no assertion fails -/

omit [DecidableEq GV] in
theorem End.Below.fits {N : Nat} {e : End GV} (h : e.Below N) (hN : N ≤ 65535) : e.Fits := by
  cases e with
  | sym gv => trivial
  | loc i => exact lt_of_lt_of_le h hN

/-- A table of some symbols is not longer than there are. -/
theorem Table.length_le {gw : GraphWriter GV} (h : Table gw) {S : Finset GV}
    (hin : ∀ gv ∈ gw.symbols_in_order, gv ∈ S) : gw.symbols_in_order.length ≤ S.card := by
  rw [← List.toFinset_card_of_nodup h.nodup]
  exact Finset.card_le_card fun gv hgv => hin gv (List.mem_toFinset.mp hgv)

theorem indexed_of_room {symbols : List GV} (hroom : Room symbols) {e : End GV}
    (hk : e.Known symbols) : e.Indexed symbols := by
  cases e with
  | sym gv =>
    have hlt := Dict.place_lt hk
    unfold Room at hroom
    exact lt_of_lt_of_le hlt (hroom.trans (by norm_num))
  | loc i => trivial

/-- A node that was given for an end has the number of the end. -/
theorem Given.encode_node {symbols : List GV} (hroom : Room symbols) {fw : FunctionWriter}
    (hthis : Packable fw.ThisSymbolIdx) {e : End GV} {n : Node}
    (h : Given symbols fw.ThisSymbolIdx e n) (hfit : e.Fits) :
    fw.encode_node true n = .ok (e.number symbols) := by
  rw [h.node (indexed_of_room hroom h.known)]
  exact encode_node_spec hroom hthis h.known hfit

section
variable {S : Finset GV} (hS : S.card ≤ 2 ^ 31) (hthis : Packable this)
include hS hthis

theorem Ready.step_succeeds (h : Ready this k state) (hin : ∀ gv ∈ state.1.symbols_in_order, gv ∈ S)
    {op : Op GV} (hends : ∀ e ∈ op.ends, e.Fits) (hgvs : ∀ gv ∈ op.globals, gv ∈ S)
    (hk : k + op.fresh ≤ 65535) :
    ∃ nodes state', FunctionWriter.asks state op = .ok nodes ∧
      FunctionWriter.step true state op = .ok state' := by
  obtain ⟨gw, fw⟩ := state
  obtain ⟨htable, rfl, rfl, -⟩ := h
  have hlen : gw.symbols_in_order.length < 2 ^ 48 - 1 :=
    ((htable.length_le hin).trans hS).trans_lt (by norm_num)
  cases op with
  | symbol gv =>
    obtain ⟨n, gw', hsym⟩ := htable.symbol_succeeds gv hlen
    simp only [FunctionWriter.asks, FunctionWriter.step, hsym, ok_bind]
    exact ⟨_, _, rfl, rfl⟩
  | freshLocal Name =>
    have hlt : fw.num_locals.toUInt64.toNat < 65535 := by
      rw [UInt32.toNat_toUInt64]
      exact hk
    simp only [FunctionWriter.asks, FunctionWriter.step, FunctionWriter.freshLocal,
      Node.mkLocal_eq hthis hlt, ok_bind]
    exact ⟨_, _, rfl, rfl⟩
  | addEdge kind to_end from_end idx =>
    obtain ⟨hto_fit, hfrom_fit⟩ : to_end.Fits ∧ from_end.Fits := by simpa [Op.ends] using hends
    obtain ⟨to_node, gw₁, hto⟩ := htable.node_succeeds hthis hto_fit hlen
    obtain ⟨hadds₁, hgiven₁⟩ := htable.node hto
    have hin₁ : ∀ gv ∈ gw₁.symbols_in_order, gv ∈ S := fun gv hgv =>
      ((hadds₁.mem gv).mp hgv).elim (hin gv) fun hgv => hgvs gv (List.mem_append_left _ hgv)
    have hlen₁ := ((hadds₁.table.length_le hin₁).trans hS).trans_lt
      (show 2 ^ 31 < 2 ^ 48 - 1 by norm_num)
    obtain ⟨from_node, gw₂, hfrom⟩ := hadds₁.table.node_succeeds hthis hfrom_fit hlen₁
    obtain ⟨hadds₂, hgiven₂⟩ := hadds₁.table.node hfrom
    have hin₂ : ∀ gv ∈ gw₂.symbols_in_order, gv ∈ S := fun gv hgv =>
      ((hadds₂.mem gv).mp hgv).elim (hin₁ gv) fun hgv => hgvs gv (List.mem_append_right _ hgv)
    have hroom : Room gw₂.symbols_in_order := (hadds₂.table.length_le hin₂).trans hS
    simp only [FunctionWriter.asks, FunctionWriter.step, FunctionWriter.addEdge, hto, hfrom,
      ok_bind, (hgiven₁.mono hadds₂.grown).encode_node hroom hthis hto_fit,
      hgiven₂.encode_node hroom hthis hfrom_fit]
    exact ⟨_, _, rfl, rfl⟩

theorem Ready.trace_succeeds (h : Ready this k state)
    (hin : ∀ gv ∈ state.1.symbols_in_order, gv ∈ S) {ops : List (Op GV)}
    (hends : ∀ op ∈ ops, ∀ e ∈ op.ends, e.Fits) (hgvs : ∀ gv ∈ ops.flatMap Op.globals, gv ∈ S)
    (hk : k + (names ops).length ≤ 65535) :
    ∃ nodes state', FunctionWriter.trace ops state = .ok (nodes, state') := by
  induction ops generalizing k state with
  | nil => exact ⟨[], state, rfl⟩
  | cons op ops ih =>
    have hcount := count_cons k op ops
    rw [hcount] at hk
    rw [List.flatMap_cons] at hgvs
    obtain ⟨nodes, state₁, hasks, hstep⟩ := h.step_succeeds hS hthis hin
      (hends op List.mem_cons_self) (fun gv hgv => hgvs gv (List.mem_append_left _ hgv)) (by omega)
    have h₁ := h.step hasks hstep
    obtain ⟨more, state₂, hrest⟩ := ih h₁.ready
      (fun gv hgv => ((h₁.adds.mem gv).mp hgv).elim (hin gv)
        fun hgv => hgvs gv (List.mem_append_left _ hgv))
      (fun o ho => hends o (List.mem_cons_of_mem op ho))
      (fun gv hgv => hgvs gv (List.mem_append_right _ hgv)) hk
    refine ⟨nodes ++ more, state₂, ?_⟩
    simp only [FunctionWriter.trace, hasks, hstep, hrest, ok_bind]
    rfl

end

/-! ## Numbers -/

/-- Different ends have different nodes. -/
theorem node_injective {symbols : List GV} (hroom : Room symbols) (hthis : Packable this)
    {e e' : End GV} (hk : e.Known symbols) (hk' : e'.Known symbols) (hfit : e.Fits)
    (hfit' : e'.Fits) (h : e.node symbols this = e'.node symbols this) : e = e' := by
  have hidx : ∀ {i : Nat}, i < 65535 → (UInt64.ofNat i).toNat = i := by
    intro i hi
    rw [UInt64.toNat_ofNat']
    omega
  cases e with
  | sym gv =>
    cases e' with
    | sym gv' =>
      have hplace := congrArg Node.symbol h
      simp only [End.node, Node.symbol_ofSymbol (packable_place hroom hk),
        Node.symbol_ofSymbol (packable_place hroom hk')] at hplace
      have hlt := Dict.place_lt hk
      have hlt' := Dict.place_lt hk'
      have hplace := congrArg UInt64.toNat hplace
      unfold Room at hroom
      rw [UInt64.toNat_ofNat', UInt64.toNat_ofNat', Nat.mod_eq_of_lt (by omega),
        Nat.mod_eq_of_lt (by omega)] at hplace
      have hget := Dict.getElem_place hk
      rw [hplace, Dict.getElem_place hk'] at hget
      rw [Option.some.inj hget]
    | loc i =>
      have hlocal := congrArg Node.local_idx h
      rw [End.node, End.node, Node.local_idx_ofSymbol (packable_place hroom hk),
        Node.local_idx_ofLocal hthis (by rw [hidx hfit']; exact hfit')] at hlocal
      cases hlocal
  | loc i =>
    cases e' with
    | sym gv =>
      have hlocal := congrArg Node.local_idx h
      rw [End.node, End.node, Node.local_idx_ofSymbol (packable_place hroom hk'),
        Node.local_idx_ofLocal hthis (by rw [hidx hfit]; exact hfit)] at hlocal
      cases hlocal
    | loc i' =>
      have hraw := congrArg (fun n => n.m_raw.toNat) h
      simp only [End.node] at hraw
      rw [Node.toNat_ofLocal hthis (by rw [hidx hfit]; exact hfit),
        Node.toNat_ofLocal hthis (by rw [hidx hfit']; exact hfit'), hidx hfit, hidx hfit'] at hraw
      rw [show i = i' by omega]

end
end
end Bracelet.Edges
