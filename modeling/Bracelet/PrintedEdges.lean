import Bracelet.CandidateFunctions

/-!
# The tables of a sequence of edges

Between `enter_function` and `exit_function` the visitor is given a sequence of edges.  Each is
printed as rows of the edge tables (`printedBy`), one for most and one for each pointer more for a
page of resolved `dlsym` calls, and a row describes the nodes at its ends (`run_printed`).

A node is described once, after its symbol, and where it is described depends on the node alone.
So the tables of symbols, locals and stack slots list the described nodes in order
(`Described.place`), and these are the nodes of the edge tables with their symbols
(`tables_closed`).
-/
namespace Bracelet.Edges.PrintedEdges
open CandidateFunctions (pointersOf visitPagesOf_collect visitEdges_collect mem_seen_emitNodeInfo)

/-! ## Rows -/

/-- The rows that an edge is printed as. -/
def printedBy (env : EdgeOutput) (fuel : Nat) : EdgeKind × Edge → Result (List (EdgeKind × Edge))
  | (.DlsymPagePointer, E) => do
    let pointers ← pointersOf env.obj fuel E.from_node
    return pointers.map (fun p => (.Assign, ⟨E.to_node, Node.ofSymbol p, 0⟩)) ++
      [(.DlsymPagePointer, E)]
  | (.Call, E) => .ok [(.Call, if env.PrintCallArgumentCount then E else { E with idx := 0 })]
  | (kind, E) => .ok [(kind, E)]

section
variable (asserts : Bool) (env : EdgeOutput) (fi : FunctionInfo)

def printRow (v : EdgeOutputVisitor) (row : EdgeKind × Edge) : Result EdgeOutputVisitor :=
  v.printEdge asserts env fi row.1 row.2

/-- The directory of a function that is given a sequence of edges. -/
def visitAll (fuel : Nat) (edges : List (EdgeKind × Edge)) : Result (Bytes × FactTables) := do
  let (function_name, v) ← enter_function env fi
  let v ← edges.foldlM
    (fun v e => v.visit_edge asserts env fi fuel function_name e.1 e.2) v
  return (function_name, v.tables)

end

section
variable {asserts : Bool} {env : EdgeOutput} {fi : FunctionInfo} {v v' : EdgeOutputVisitor}

theorem visitPointer_printed {dest : Node} {p : Address}
    (h : EdgeOutputVisitor.visitPointer asserts env fi dest v p = .ok v') :
    printRow asserts env fi v (.Assign, ⟨dest, Node.ofSymbol p, 0⟩) = .ok v' := by
  obtain ⟨symbol, hsymbol, h⟩ := bind_ok (tryContext_eq_ok h)
  obtain ⟨e, he, h⟩ := bind_ok h
  have he := assert_bind (assert_bind he)
  obtain rfl := Except.ok.inj he
  obtain rfl := Node.mkSymbol_ok hsymbol
  exact h

theorem foldlM_visitPointer {dest : Node} {pointers : List Address}
    (h : pointers.foldlM (EdgeOutputVisitor.visitPointer asserts env fi dest) v = .ok v') :
    (pointers.map fun p => (EdgeKind.Assign, (⟨dest, Node.ofSymbol p, 0⟩ : Edge))).foldlM
      (printRow asserts env fi) v = .ok v' := by
  induction pointers generalizing v with
  | nil => exact h
  | cons p pointers ih =>
    rw [List.foldlM_cons] at h
    obtain ⟨v₁, hp, h⟩ := bind_ok h
    rw [List.map_cons, List.foldlM_cons, visitPointer_printed hp]
    exact ih h

/-- **An edge is printed as its rows.** -/
theorem visit_edge_printed {fuel : Nat} {name : Bytes} {kind : EdgeKind} {E : Edge}
    (h : v.visit_edge asserts env fi fuel name kind E = .ok v') :
    ∃ rows, printedBy env fuel (kind, E) = .ok rows ∧
      rows.foldlM (printRow asserts env fi) v = .ok v' := by
  have h := tryContext_eq_ok h
  unfold EdgeOutputVisitor.visit_edge_inner at h
  have hone : ∀ row : EdgeKind × Edge, v.printEdge asserts env fi row.1 row.2 = .ok v' →
      [row].foldlM (printRow asserts env fi) v = .ok v' := by
    intro row hrow
    rw [List.foldlM_cons, printRow, hrow]
    rfl
  cases kind with
  | DlsymPagePointer =>
    obtain ⟨v₁, hpages, h⟩ := bind_ok h
    obtain ⟨pointers, hpointers, hfold⟩ := visitPagesOf_collect hpages
    refine ⟨_, by rw [printedBy, hpointers]; rfl, ?_⟩
    rw [List.foldlM_append, foldlM_visitPointer hfold, ok_bind, List.foldlM_cons, printRow, h]
    rfl
  | Call => exact ⟨_, rfl, hone _ h⟩
  | _ => exact ⟨_, rfl, hone _ h⟩

/-- A sequence of edges is printed as the rows of each in turn. -/
theorem run_printed {fuel : Nat} {name : Bytes} {edges : List (EdgeKind × Edge)}
    (h : edges.foldlM (fun v e => v.visit_edge asserts env fi fuel name e.1 e.2) v = .ok v') :
    ∃ rows, edges.mapM (printedBy env fuel) = .ok rows ∧
      rows.flatten.foldlM (printRow asserts env fi) v = .ok v' := by
  induction edges generalizing v with
  | nil => exact ⟨[], rfl, h⟩
  | cons e edges ih =>
    rw [List.foldlM_cons] at h
    obtain ⟨v₁, he, h⟩ := bind_ok h
    obtain ⟨row, hrow, hone⟩ := visit_edge_printed he
    obtain ⟨rows, hrows, hrest⟩ := ih h
    refine ⟨row :: rows, ?_, ?_⟩
    · rw [List.mapM_cons, hrow, ok_bind, hrows]
      rfl
    · rw [List.flatten_cons, List.foldlM_append, hone]
      exact hrest

/-- What an edge table holds are the rows of its kind, in order. -/
theorem OutputTables_rows {rows : List (EdgeKind × Edge)}
    (h : rows.foldlM (printRow asserts env fi) v = .ok v') (kind : EdgeKind) :
    v'.tables.OutputTables kind =
      v.tables.OutputTables kind ++ (rows.filter (·.1 = kind)).map Prod.snd := by
  induction rows generalizing v with
  | nil =>
    obtain rfl := Except.ok.inj h
    simp
  | cons row rows ih =>
    rw [List.foldlM_cons] at h
    obtain ⟨v₁, hrow, h⟩ := bind_ok h
    rw [ih h, EdgeOutputVisitor.printEdge_OutputTables hrow, List.filter_cons]
    by_cases hkind : row.1 = kind
    · simp [hkind]
    · simp [hkind, Ne.symm hkind]

/-! ## Where nodes are described -/

/-- A local that is a stack slot of the function. -/
def isAlloca (fi : FunctionInfo) (n : Node) : Bool :=
  match n.local_idx with
  | some local_idx => local_idx.toNat < fi.num_allocas.toNat
  | none => false

theorem nodeInfo_place {N : Node} {info : FactTables} (h : nodeInfo asserts env fi N = .ok info) :
    info.IsSymbol = [N].filter (·.local_idx = none) ∧
    info.EnclosingFunctionForLocal =
      ([N].filter (·.local_idx ≠ none)).map (fun n => (fi.function, n)) ∧
    info.IsAlloca = [N].filter (isAlloca fi) := by
  obtain ⟨D, -, h⟩ := bind_ok h
  obtain ⟨A, -, h⟩ := bind_ok h
  obtain rfl := Except.ok.inj h
  simp only [FactTables.append_IsSymbol, FactTables.append_EnclosingFunctionForLocal,
    FactTables.append_IsAlloca, List.append_nil]
  unfold placeLines
  cases hlocal : N.local_idx with
  | none => simp [hlocal, isAlloca]
  | some i => by_cases hi : i.toNat < fi.num_allocas.toNat <;> simp [hlocal, isAlloca, hi]

/-- What the visitor keeps: a node is described once, with its symbol, and the tables that say
where nodes belong list the described nodes in order. -/
structure Described (fi : FunctionInfo) (v : EdgeOutputVisitor) : Prop where
  nodup : v.SeenNodes.Nodup
  symbols : ∀ n ∈ v.SeenNodes, Node.ofSymbol n.symbol ∈ v.SeenNodes
  place : v.tables.IsSymbol = v.SeenNodes.reverse.filter (·.local_idx = none) ∧
    v.tables.EnclosingFunctionForLocal =
      (v.SeenNodes.reverse.filter (·.local_idx ≠ none)).map (fun n => (fi.function, n)) ∧
    v.tables.IsAlloca = v.SeenNodes.reverse.filter (isAlloca fi)

/-- A new node is described after its symbol. -/
theorem described_emitSeen (hv : Described fi v) {N : Node} (hnew : N ∉ v.SeenNodes)
    (hsym : Node.ofSymbol N.symbol = N ∨ Node.ofSymbol N.symbol ∈ v.SeenNodes)
    (h : v.emitSeen asserts env fi N = .ok v') : Described fi v' := by
  obtain ⟨info, hinfo, rfl⟩ := EdgeOutputVisitor.emitSeen_ok h
  obtain ⟨hsymbol, hlocal, halloca⟩ := nodeInfo_place hinfo
  obtain ⟨hsymbols, hlocals, hallocas⟩ := hv.place
  refine ⟨List.nodup_cons.mpr ⟨hnew, hv.nodup⟩, fun n hn => ?_, ?_, ?_, ?_⟩
  · rcases List.mem_cons.mp hn with rfl | hn
    · rcases hsym with hself | hseen
      · rw [hself]
        exact List.mem_cons_self
      · exact List.mem_cons_of_mem _ hseen
    · exact List.mem_cons_of_mem _ (hv.symbols n hn)
  · rw [FactTables.append_IsSymbol, hsymbols, hsymbol, List.reverse_cons, List.filter_append]
  · rw [FactTables.append_EnclosingFunctionForLocal, hlocals, hlocal, List.reverse_cons,
      List.filter_append, List.map_append]
  · rw [FactTables.append_IsAlloca, hallocas, halloca, List.reverse_cons, List.filter_append]

theorem described_emitNodeInfo (hv : Described fi v) {N : Node}
    (h : v.emitNodeInfo asserts env fi N = .ok v') : Described fi v' := by
  rcases EdgeOutputVisitor.emitNodeInfo_ok h with
    ⟨-, rfl⟩ | ⟨hnew, hsym, h⟩ | ⟨hnew, hne, hsymnew, v₁, h₁, h⟩
  · exact hv
  · exact described_emitSeen hv hnew hsym h
  · have hself : Node.ofSymbol (Node.ofSymbol N.symbol).symbol = Node.ofSymbol N.symbol :=
      Node.ofSymbol_symbol (Node.local_idx_ofSymbol_any N.symbol)
    have hv₁ := described_emitSeen hv hsymnew (Or.inl hself) h₁
    obtain ⟨info, -, rfl⟩ := EdgeOutputVisitor.emitSeen_ok h₁
    refine described_emitSeen hv₁ ?_ (Or.inr List.mem_cons_self) h
    rw [List.mem_cons, not_or]
    exact ⟨Ne.symm hne, hnew⟩

/-- The nodes that a row mentions, with their symbols. -/
def RowMentions (e : Edge) (n : Node) : Prop :=
  n = e.to_node ∨ n = e.from_node ∨ n = Node.ofSymbol e.to_node.symbol ∨
    n = Node.ofSymbol e.from_node.symbol

theorem described_line (hv : Described fi v) (kind : EdgeKind) (e : Edge) :
    Described fi ⟨v.SeenNodes, v.tables ++
      { OutputTables := Function.update (fun _ => []) kind [e] }⟩ := by
  obtain ⟨hsymbols, hlocals, hallocas⟩ := hv.place
  refine ⟨hv.nodup, hv.symbols, ?_, ?_, ?_⟩
  · rw [FactTables.append_IsSymbol, List.append_nil, hsymbols]
  · rw [FactTables.append_EnclosingFunctionForLocal, List.append_nil, hlocals]
  · rw [FactTables.append_IsAlloca, List.append_nil, hallocas]

/-- A row of an edge table describes the nodes that it mentions, and no others. -/
theorem described_printRow (hv : Described fi v) {row : EdgeKind × Edge}
    (h : printRow asserts env fi v row = .ok v') : Described fi v' ∧
      ∀ n, n ∈ v'.SeenNodes ↔ n ∈ v.SeenNodes ∨ RowMentions row.2 n := by
  obtain ⟨v₁, h₁, h₂⟩ := bind_ok h
  have hline := described_line hv row.1 row.2
  have hv₁ := described_emitNodeInfo hline h₁
  refine ⟨described_emitNodeInfo hv₁ h₂, fun n => ?_⟩
  rw [mem_seen_emitNodeInfo hv₁.symbols h₂, mem_seen_emitNodeInfo hline.symbols h₁]
  simp only [RowMentions, or_assoc, or_left_comm]

/-- The nodes after some rows are those that the rows mention. -/
theorem described_rows (hv : Described fi v) {rows : List (EdgeKind × Edge)}
    (h : rows.foldlM (printRow asserts env fi) v = .ok v') : Described fi v' ∧
      ∀ n, n ∈ v'.SeenNodes ↔ n ∈ v.SeenNodes ∨ ∃ row ∈ rows, RowMentions row.2 n := by
  induction rows generalizing v with
  | nil =>
    obtain rfl := Except.ok.inj h
    simp [hv]
  | cons row rows ih =>
    rw [List.foldlM_cons] at h
    obtain ⟨v₁, hrow, h⟩ := bind_ok h
    obtain ⟨hv₁, hone⟩ := described_printRow hv hrow
    obtain ⟨hv', hrest⟩ := ih hv₁ h
    refine ⟨hv', fun n => ?_⟩
    rw [hrest, hone, List.exists_mem_cons_iff, or_assoc]

end

/-! ## What nodes are called -/

section
variable {asserts : Bool} {env : EdgeOutput} {fi : FunctionInfo} {v v' : EdgeOutputVisitor}

theorem mem_debugLines_iff {N : Node} {lines : List (Node × Bytes)}
    (h : debugLines env fi N = .ok lines) (row : Node × Bytes) :
    row ∈ lines ↔ row.1 = N ∧ printDebugNode env fi row.1 = .ok row.2 := by
  obtain ⟨n, text⟩ := row
  unfold debugLines at h
  cases hname : env.symbolName N.symbol with
  | ok name =>
    rw [hname] at h
    obtain ⟨text', htext, h⟩ := bind_ok h
    obtain rfl := Except.ok.inj h
    rw [List.mem_singleton]
    constructor
    · intro heq
      obtain ⟨rfl, rfl⟩ := Prod.mk.inj heq
      exact ⟨rfl, htext⟩
    · rintro ⟨rfl, htext'⟩
      rw [Except.ok.inj (htext.symm.trans htext')]
  | error e =>
    rw [hname] at h
    obtain rfl := Except.ok.inj h
    refine iff_of_false List.not_mem_nil ?_
    rintro ⟨rfl, htext⟩
    rw [printDebugNode, hname] at htext
    cases htext

/-- The `DebugTable` lists the described nodes that have a name. -/
def Named (env : EdgeOutput) (fi : FunctionInfo) (v : EdgeOutputVisitor) : Prop :=
  ∀ row, row ∈ v.tables.DebugTable ↔
    row.1 ∈ v.SeenNodes ∧ printDebugNode env fi row.1 = .ok row.2

theorem named_emitSeen (hv : Named env fi v) {N : Node}
    (h : v.emitSeen asserts env fi N = .ok v') : Named env fi v' := by
  obtain ⟨info, hinfo, rfl⟩ := EdgeOutputVisitor.emitSeen_ok h
  intro row
  rw [FactTables.append_DebugTable, List.mem_append, hv row,
    mem_debugLines_iff (nodeInfo_ok asserts env fi hinfo).1, List.mem_cons, ← or_and_right, or_comm]

theorem named_printRow (hv : Named env fi v) {row : EdgeKind × Edge}
    (h : printRow asserts env fi v row = .ok v') : Named env fi v' := by
  have hstep : ∀ v N v', Named env fi v → v.emitSeen asserts env fi N = .ok v' →
      Named env fi v' := fun v N v' hv h => named_emitSeen hv h
  obtain ⟨v₁, h₁, h₂⟩ := bind_ok h
  refine EdgeOutputVisitor.emitNodeInfo_rule hstep
    (EdgeOutputVisitor.emitNodeInfo_rule hstep ?_ h₁) h₂
  intro row
  rw [FactTables.append_DebugTable, List.append_nil]
  exact hv row

theorem named_rows (hv : Named env fi v) {rows : List (EdgeKind × Edge)}
    (h : rows.foldlM (printRow asserts env fi) v = .ok v') : Named env fi v' :=
  foldlM_keeps (fun _ hv _ _ _ hrow => named_printRow hv hrow) hv h

end

/-- No node has a name before the first edge. -/
theorem enter_function_named {env : EdgeOutput} {fi : FunctionInfo} {v : EdgeOutputVisitor}
    {name : Bytes} (h : enter_function env fi = .ok (name, v)) : Named env fi v := by
  obtain ⟨name', -, h⟩ := bind_ok h
  obtain ⟨rfl, rfl⟩ := Prod.mk.inj (Except.ok.inj h)
  intro row
  simp

/-! ## Closed tables -/

/-- The node is in a row of an edge table. -/
def InEdgeTable (tables : FactTables) (n : Node) : Prop :=
  ∃ kind, ∃ e ∈ tables.OutputTables kind, n = e.to_node ∨ n = e.from_node

/-- The node is in a row of an edge table, or is the symbol of a local that is. -/
def Mentioned (tables : FactTables) (n : Node) : Prop :=
  InEdgeTable tables n ∨
    ∃ l, InEdgeTable tables l ∧ l.local_idx ≠ none ∧ n = Node.ofSymbol l.symbol

/-- **The tables of a function are closed**: what they mention has one row, as a symbol or as a
local of the function, and nothing else has a row. -/
structure Closed (fi : FunctionInfo) (tables : FactTables) : Prop where
  symbols : tables.IsSymbol.Nodup ∧
    ∀ n, n ∈ tables.IsSymbol ↔ Mentioned tables n ∧ n.local_idx = none
  locals : tables.EnclosingFunctionForLocal.Nodup ∧
    ∀ f n, (f, n) ∈ tables.EnclosingFunctionForLocal ↔
      f = fi.function ∧ Mentioned tables n ∧ n.local_idx ≠ none
  allocas : tables.IsAlloca.Nodup ∧
    ∀ n, n ∈ tables.IsAlloca ↔
      Mentioned tables n ∧ ∃ i, n.local_idx = some i ∧ i.toNat < fi.num_allocas.toNat

section
variable {asserts : Bool} {env : EdgeOutput} {fi : FunctionInfo} {v v' : EdgeOutputVisitor}

theorem isAlloca_iff {n : Node} : isAlloca fi n = true ↔
    ∃ i, n.local_idx = some i ∧ i.toNat < fi.num_allocas.toNat := by
  unfold isAlloca
  cases n.local_idx <;> simp

theorem closed_of_described (hv : Described fi v)
    (hseen : ∀ n, n ∈ v.SeenNodes ↔ Mentioned v.tables n) : Closed fi v.tables := by
  obtain ⟨hsymbols, hlocals, hallocas⟩ := hv.place
  have hnodup := List.nodup_reverse.mpr hv.nodup
  refine ⟨⟨?_, fun n => ?_⟩, ⟨?_, fun f n => ?_⟩, ?_, fun n => ?_⟩
  · rw [hsymbols]
    exact hnodup.filter _
  · rw [hsymbols, List.mem_filter, List.mem_reverse, hseen, decide_eq_true_eq]
  · rw [hlocals]
    exact (hnodup.filter _).map fun m n h => (Prod.mk.inj h).2
  · simp only [hlocals, List.mem_map, List.mem_filter, List.mem_reverse, hseen, decide_eq_true_eq,
      Prod.mk.injEq]
    constructor
    · rintro ⟨m, hm, rfl, rfl⟩
      exact ⟨rfl, hm⟩
    · rintro ⟨rfl, hn⟩
      exact ⟨n, hn, rfl, rfl⟩
  · rw [hallocas]
    exact hnodup.filter _
  · rw [hallocas, List.mem_filter, List.mem_reverse, hseen, isAlloca_iff]

/-- What the rows mention is what the edge tables mention. -/
theorem mentioned_iff {rows : List (EdgeKind × Edge)} {tables : FactTables}
    (htables : ∀ kind, tables.OutputTables kind = (rows.filter (·.1 = kind)).map Prod.snd)
    (n : Node) : Mentioned tables n ↔ ∃ row ∈ rows, RowMentions row.2 n := by
  have hin : ∀ m, InEdgeTable tables m ↔
      ∃ row ∈ rows, m = row.2.to_node ∨ m = row.2.from_node := by
    intro m
    simp [InEdgeTable, htables]
  have hself : ∀ m : Node, m.local_idx = none → Node.ofSymbol m.symbol = m :=
    fun m h => Node.ofSymbol_symbol h
  unfold Mentioned
  simp only [hin]
  constructor
  · rintro (⟨row, hrow, hn⟩ | ⟨l, ⟨row, hrow, hl⟩, -, rfl⟩)
    · exact ⟨row, hrow, by rcases hn with rfl | rfl <;> simp [RowMentions]⟩
    · exact ⟨row, hrow, by rcases hl with rfl | rfl <;> simp [RowMentions]⟩
  · -- The symbol of a symbol is the symbol itself.
    have hend : ∀ row ∈ rows, ∀ m : Node, (m = row.2.to_node ∨ m = row.2.from_node) →
        (∃ row ∈ rows, Node.ofSymbol m.symbol = row.2.to_node ∨
          Node.ofSymbol m.symbol = row.2.from_node) ∨
        ∃ l : Node, (∃ row ∈ rows, l = row.2.to_node ∨ l = row.2.from_node) ∧
          l.local_idx ≠ none ∧ Node.ofSymbol m.symbol = Node.ofSymbol l.symbol := by
      intro row hrow m hm
      by_cases hlocal : m.local_idx = none
      · rw [hself m hlocal]
        exact Or.inl ⟨row, hrow, hm⟩
      · exact Or.inr ⟨m, ⟨row, hrow, hm⟩, hlocal, rfl⟩
    rintro ⟨row, hrow, rfl | rfl | rfl | rfl⟩
    · exact Or.inl ⟨row, hrow, Or.inl rfl⟩
    · exact Or.inl ⟨row, hrow, Or.inr rfl⟩
    · exact hend row hrow _ (Or.inl rfl)
    · exact hend row hrow _ (Or.inr rfl)

/-- What a directory is before its first edge. -/
theorem enter_function_ok {name : Bytes} (h : enter_function env fi = .ok (name, v)) :
    v.SeenNodes = [] ∧ Described fi v ∧ ∀ kind, v.tables.OutputTables kind = [] := by
  obtain ⟨name', -, h⟩ := bind_ok h
  obtain ⟨rfl, rfl⟩ := Prod.mk.inj (Except.ok.inj h)
  exact ⟨rfl, ⟨List.nodup_nil, by simp, rfl, rfl, rfl⟩, fun _ => rfl⟩

theorem closed_of_run {fuel : Nat} {edges : List (EdgeKind × Edge)} {name : Bytes}
    {v₀ : EdgeOutputVisitor} (henter : enter_function env fi = .ok (name, v₀))
    (hrun : edges.foldlM (fun v e => v.visit_edge asserts env fi fuel name e.1 e.2) v₀ = .ok v) :
    Closed fi v.tables := by
  obtain ⟨hnone, hv₀, hempty⟩ := enter_function_ok henter
  obtain ⟨rows, -, hfold⟩ := run_printed hrun
  obtain ⟨hv, hseen⟩ := described_rows hv₀ hfold
  have htables : ∀ kind, v.tables.OutputTables kind =
      (rows.flatten.filter (·.1 = kind)).map Prod.snd := by
    intro kind
    rw [OutputTables_rows hfold, hempty, List.nil_append]
  refine closed_of_described hv fun n => ?_
  rw [hseen, mentioned_iff htables, hnone]
  simp

/-- **The tables of every sequence of edges are closed.** -/
theorem tables_closed {fuel : Nat} {edges : List (EdgeKind × Edge)} {name : Bytes}
    {tables : FactTables} (h : visitAll asserts env fi fuel edges = .ok (name, tables)) :
    Closed fi tables := by
  obtain ⟨⟨name', v₀⟩, henter, h⟩ := bind_ok h
  obtain ⟨v, hrun, h⟩ := bind_ok h
  obtain ⟨rfl, rfl⟩ := Prod.mk.inj (Except.ok.inj h)
  exact closed_of_run henter hrun

/-- A function with a stack slot, in a program with a page of one resolved pointer. -/
def onePageEnv : EdgeOutput where
  obj := {
    isApple := false
    sections := []
    copyData _ _ := .ok [1, 0, 0, 0, 0, 0, 0, 0]
    resolvePointers _ address :=
      .ok [if address = 0x9000 then 0x5000 else if address = 0x5010 then 0x3000 else 0] }
  symbolName _ := .ok []
  slm := none
  PrintCallArgumentCount := true

def oneSlot : FunctionInfo where
  function := Node.ofSymbol 0x1000
  num_allocas := 1
  num_locals := 2
  debug_data := ⟨[], none, []⟩
  sbom_info := none
  edge_data _ := []
  symbol_addresses := []

/-- An edge of the slot to a local, after the resolved pointer got there. -/
def pageEdges : List (EdgeKind × Edge) :=
  [(.DlsymPagePointer, ⟨Node.ofLocal 0x1000 1, Node.ofSymbol 0x9000, 0⟩),
    (.Store, ⟨Node.ofLocal 0x1000 0, Node.ofLocal 0x1000 1, 0⟩)]

/-- The function and the pointer are described, and the slot is a stack slot. -/
theorem tables_closed_pageEdges : ∃ name tables,
    visitAll true onePageEnv oneSlot 2 pageEdges = .ok (name, tables) ∧ Closed oneSlot tables ∧
      tables.IsSymbol = [Node.ofSymbol 0x1000, Node.ofSymbol 0x3000, Node.ofSymbol 0x9000] ∧
      tables.IsAlloca = [Node.ofLocal 0x1000 0] := by
  obtain ⟨name, tables, hrun, hrows⟩ : ∃ name tables,
      visitAll true onePageEnv oneSlot 2 pageEdges = .ok (name, tables) ∧
        tables.IsSymbol = [Node.ofSymbol 0x1000, Node.ofSymbol 0x3000, Node.ofSymbol 0x9000] ∧
        tables.IsAlloca = [Node.ofLocal 0x1000 0] := ⟨_, _, rfl, rfl, rfl⟩
  exact ⟨name, tables, hrun, tables_closed hrun, hrows⟩

/-! ## The directories of an object -/

/-- The edges of a function are visited kind by kind. -/
theorem visitKinds_run {fuel : Nat} {name : Bytes} {kinds : List EdgeKind}
    (h : kinds.foldlM (fun v kind => fi.visitEdges asserts kind
      (fun v e => v.visit_edge asserts env fi fuel name kind e) v) v = .ok v') :
    ∃ edges : List (EdgeKind × Edge),
      edges.foldlM (fun v e => v.visit_edge asserts env fi fuel name e.1 e.2) v = .ok v' := by
  induction kinds generalizing v with
  | nil => exact ⟨[], h⟩
  | cons kind kinds ih =>
    rw [List.foldlM_cons] at h
    obtain ⟨v₁, hkind, h⟩ := bind_ok h
    obtain ⟨es, -, hes⟩ := visitEdges_collect hkind
    obtain ⟨edges, hedges⟩ := ih h
    refine ⟨es.map (fun e => (kind, e)) ++ edges, ?_⟩
    rw [List.foldlM_append, List.foldlM_map]
    dsimp only
    rw [hes]
    exact hedges

/-- **Every directory that is written is closed.** -/
theorem dumped_closed {Z : Zstd} {V : StreamVByte} {fuel : Nat} {dump : List Dumped}
    (h : dumpEdges asserts Z V env fuel = .ok dump) : ∀ d ∈ dump, Closed d.fi d.tables := by
  intro d hd
  obtain ⟨⟨name, v₀⟩, henter, hdump⟩ :=
    bind_ok (CandidateFunctions.good_of_dumpEdges h d hd).dumped
  obtain ⟨v, hvisit, hdump⟩ := bind_ok hdump
  obtain ⟨-, htables⟩ := Prod.mk.inj (Except.ok.inj hdump)
  obtain ⟨edges, hrun⟩ := visitKinds_run hvisit
  exact htables ▸ closed_of_run henter hrun

end

end Bracelet.Edges.PrintedEdges
