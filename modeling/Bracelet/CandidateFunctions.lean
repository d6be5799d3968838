import Bracelet.EdgeOutput
import Bracelet.EdgeRoundTrip
import Bracelet.Verdicts

/-!
# Finding the functions of a dump

`find_vulns` reads the directories that `bracelet-edges` wrote: the row of the
`SbomTable` says whether a function belongs to the package, and the row of the
`DebugTable` with the address of the function whether it is the affected one.  The first
is written for each function with a bill of materials; the second only when an edge of
the function mentions it, or one of its locals (`Mentioned`).

A directory is named by the address of its function: of two descriptions of one
function, as inline functions have them, the later one is kept (`written`).
-/
namespace Bracelet.CandidateFunctions
open Edges (EdgeOutput EdgeOutputVisitor FunctionInfo EdgeKind Edge Bytes Address Dumped Result)

/-! ## The edges of a function -/

def collect {α : Type} (as : List α) (a : α) : Result (List α) := .ok (as ++ [a])

/-- The edges of a kind, in order. -/
def edgesOf (asserts : Bool) (fi : FunctionInfo) (kind : EdgeKind) : Result (List Edge) :=
  fi.visitEdges asserts kind collect []

/-- The pointers in the pages of a page pointer. -/
def pointersOf (obj : Edges.Object) (fuel : Nat) (page_ptr_node : Edges.Node) :
    Result (List Address) :=
  Edges.visitPagesOf obj collect fuel page_ptr_node []

section
variable (asserts : Bool) (env : EdgeOutput) (fuel : Nat)

/-- The symbol is at an end of the edge, or in the pages that it points to. -/
def EdgeMentions (kind : EdgeKind) (e : Edge) (symbol : Address) : Prop :=
  e.to_node.symbol = symbol ∨ e.from_node.symbol = symbol ∨
    (kind = .DlsymPagePointer ∧ ∃ pointers, pointersOf env.obj fuel e.from_node = .ok pointers ∧
      ∃ p ∈ pointers, (Edges.Node.ofSymbol p).symbol = symbol)

/-- An edge of the function mentions the function or one of its locals. -/
def Mentioned (fi : FunctionInfo) : Prop :=
  ∃ kind edges, edgesOf asserts fi kind = .ok edges ∧
    ∃ e ∈ edges, EdgeMentions env fuel kind e fi.function.symbol

end

/-! ## Loops that collect -/

section
variable {σ : Type}

/-- What is visited can be collected first. -/
theorem visitEdgesInner_collect {asserts : Bool} {symbol_addresses : List Address}
    {function : Edges.Node} {indexed : Bool} {cb : σ → Edge → Result σ} :
    ∀ {prev : UInt32} {data : List UInt32} {t t' : σ} (acc : List Edge),
    Edges.visitEdgesInner asserts symbol_addresses function indexed cb prev data t = .ok t' →
    ∃ edges, Edges.visitEdgesInner asserts symbol_addresses function indexed collect prev data acc =
      .ok (acc ++ edges) ∧ edges.foldlM cb t = .ok t'
  | _, [], t, t', acc, h => ⟨[], by simp [Edges.visitEdgesInner], h⟩
  | _, [_], t, t', acc, h => ⟨[], by simp [Edges.visitEdgesInner], h⟩
  | prev, to_delta :: from_delta :: data, t, t', acc, h => by
    rw [Edges.visitEdgesInner] at h
    obtain ⟨_, hvalid, h⟩ := Edges.bind_ok h
    obtain ⟨to_node, hto, h⟩ := Edges.bind_ok h
    obtain ⟨from_node, hfrom, h⟩ := Edges.bind_ok h
    rw [Edges.visitEdgesInner, hvalid, Edges.ok_bind, hto, Edges.ok_bind, hfrom, Edges.ok_bind]
    cases indexed with
    | true =>
      cases data with
      | nil => exact ⟨[], by simp, h⟩
      | cons idx data =>
        obtain ⟨e, he, h⟩ := Edges.bind_ok h
        obtain ⟨t₁, ht, h⟩ := Edges.bind_ok h
        obtain ⟨edges, hedges, hfold⟩ := visitEdgesInner_collect (acc ++ [e]) h
        refine ⟨e :: edges, ?_, by rw [List.foldlM_cons, ht]; exact hfold⟩
        simpa [he, collect] using hedges
    | false =>
      obtain ⟨e, he, h⟩ := Edges.bind_ok h
      obtain ⟨t₁, ht, h⟩ := Edges.bind_ok h
      obtain ⟨edges, hedges, hfold⟩ := visitEdgesInner_collect (acc ++ [e]) h
      refine ⟨e :: edges, ?_, by rw [List.foldlM_cons, ht]; exact hfold⟩
      simpa [he, collect] using hedges

theorem visitEdges_collect {asserts : Bool} {fi : FunctionInfo} {kind : EdgeKind}
    {cb : σ → Edge → Result σ} {t t' : σ} (h : fi.visitEdges asserts kind cb t = .ok t') :
    ∃ edges, edgesOf asserts fi kind = .ok edges ∧ edges.foldlM cb t = .ok t' := by
  obtain ⟨edges, hedges, hfold⟩ := visitEdgesInner_collect [] h
  exact ⟨edges, hedges, hfold⟩

theorem foldlM_collect {α : Type} (as acc : List α) :
    as.foldlM collect acc = .ok (acc ++ as) := by
  induction as generalizing acc with
  | nil => simp [pure, Except.pure]
  | cons a as ih => simp [List.foldlM_cons, collect, ih]

theorem visitPages_collect {obj : Edges.Object} {visit : σ → Address → Result σ} {fuel : Nat}
    {page : Address} {s s' : σ} (h : Edges.visitPages obj visit fuel page s = .ok s')
    (acc : List Address) :
    ∃ pointers, Edges.visitPages obj collect fuel page acc = .ok (acc ++ pointers) ∧
      pointers.foldlM visit s = .ok s' := by
  induction fuel generalizing page s acc with
  | zero => cases h
  | succ fuel ih =>
    unfold Edges.visitPages at h ⊢
    split at h
    next h0 => exact ⟨[], by simp [h0], h⟩
    next h0 =>
      obtain ⟨count, hcount, hrest⟩ := Edges.bind_ok h
      obtain ⟨body, hbody, hrest⟩ := Edges.bind_ok hrest
      obtain ⟨s₁, hs₁, hrest⟩ := Edges.bind_ok hrest
      obtain ⟨next, hnext, hrest⟩ := Edges.bind_ok hrest
      obtain ⟨pointers, hpointers, hfold⟩ := ih hrest
        (acc ++ body.take (min (ofLE count) Edges.DLSYM_PAGE_NUM_POINTERS))
      refine ⟨_, ?_, by rw [List.foldlM_append, hs₁]; exact hfold⟩
      rw [if_neg h0, hcount, Edges.ok_bind, hbody, Edges.ok_bind, foldlM_collect, Edges.ok_bind,
        hnext, Edges.ok_bind, hpointers, List.append_assoc]

theorem visitPagesOf_collect {obj : Edges.Object} {visit : σ → Address → Result σ} {fuel : Nat}
    {n : Edges.Node} {s s' : σ} (h : Edges.visitPagesOf obj visit fuel n s = .ok s') :
    ∃ pointers, pointersOf obj fuel n = .ok pointers ∧ pointers.foldlM visit s = .ok s' := by
  obtain ⟨_, hensure, h⟩ := Edges.bind_ok h
  obtain ⟨page, hpage, h⟩ := Edges.bind_ok h
  obtain ⟨pointers, hpointers, hfold⟩ := visitPages_collect h []
  refine ⟨pointers, ?_, hfold⟩
  rw [pointersOf, Edges.visitPagesOf, hensure, Edges.ok_bind, hpage, Edges.ok_bind]
  exact hpointers

end

/-! ## What is described -/

/-- What the visitor keeps: the symbols seen are those that the `DebugTable` lists, and
the symbol of a node that is seen is seen too. -/
structure Described (env : EdgeOutput) (v : EdgeOutputVisitor) : Prop where
  lists : ∀ n ∈ v.SeenNodes, n.local_idx = none → ∀ name, env.symbolName n.symbol = .ok name →
    (n, Edges.listedName name) ∈ v.tables.DebugTable
  listed : ∀ row ∈ v.tables.DebugTable, row.1.local_idx = none → row.1 ∈ v.SeenNodes ∧
    ∃ name, env.symbolName row.1.symbol = .ok name ∧ row.2 = Edges.listedName name
  symbols : ∀ n ∈ v.SeenNodes, Edges.Node.ofSymbol n.symbol ∈ v.SeenNodes

theorem ofSymbol_inj {m n : Edges.Node}
    (h : Edges.Node.ofSymbol m.symbol = Edges.Node.ofSymbol n.symbol) : m.symbol = n.symbol := by
  have hraw := congrArg (fun n : Edges.Node => n.m_raw.toNat) h
  simp only [Edges.Node.raw_ofSymbol_symbol] at hraw
  have hm := Edges.Node.toNat_symbol_succ m
  have hn := Edges.Node.toNat_symbol_succ n
  have hsucc : m.symbol + 1 = n.symbol + 1 := UInt64.toNat_inj.mp (by omega)
  have := congrArg (· - (1 : UInt64)) hsucc
  simpa using this

section
variable {asserts : Bool} {env : EdgeOutput} {fi : FunctionInfo} {v v' : EdgeOutputVisitor}

/-- What is kept of the visitor while the symbol of a node is still to be described. -/
def DescribedRows (env : EdgeOutput) (v : EdgeOutputVisitor) : Prop :=
  (∀ n ∈ v.SeenNodes, n.local_idx = none → ∀ name, env.symbolName n.symbol = .ok name →
    (n, Edges.listedName name) ∈ v.tables.DebugTable) ∧
  ∀ row ∈ v.tables.DebugTable, row.1.local_idx = none → row.1 ∈ v.SeenNodes ∧
    ∃ name, env.symbolName row.1.symbol = .ok name ∧ row.2 = Edges.listedName name

theorem describedRows_emitSeen (hv : DescribedRows env v) {N : Edges.Node}
    (h : v.emitSeen asserts env fi N = .ok v') : DescribedRows env v' := by
  obtain ⟨info, hinfo, rfl⟩ := EdgeOutputVisitor.emitSeen_ok h
  have hlines := (Edges.nodeInfo_ok asserts env fi hinfo).1
  have hrow := Edges.mem_debugLines env fi hlines
  have hsymbol := fun hN : N.local_idx = none =>
    Except.ok.inj (hlines.symm.trans (Edges.debugLines_symbol env fi hN))
  constructor
  · intro n hn hl name hname
    rw [Edges.FactTables.append_DebugTable, List.mem_append]
    rcases List.mem_cons.mp hn with rfl | hn
    · right
      rw [hsymbol hl, hname]
      exact List.mem_singleton.mpr rfl
    · exact Or.inl (hv.1 n hn hl name hname)
  · intro row hmem hl
    rw [Edges.FactTables.append_DebugTable, List.mem_append] at hmem
    rcases hmem with hmem | hmem
    · obtain ⟨hseen, hname⟩ := hv.2 row hmem hl
      exact ⟨List.mem_cons_of_mem _ hseen, hname⟩
    · have hN := hrow row hmem
      refine ⟨hN ▸ List.mem_cons_self, ?_⟩
      rw [hsymbol (hN ▸ hl)] at hmem
      cases hname : env.symbolName N.symbol with
      | ok name =>
        rw [hname] at hmem
        exact ⟨name, hN ▸ hname, congrArg Prod.snd (List.mem_singleton.mp hmem)⟩
      | error e =>
        rw [hname] at hmem
        cases hmem

/-- Seeing a node adds it and, if need be, its symbol. -/
theorem mem_seen_emitNodeInfo (hsym : ∀ n ∈ v.SeenNodes, Edges.Node.ofSymbol n.symbol ∈ v.SeenNodes)
    {N : Edges.Node} (h : v.emitNodeInfo asserts env fi N = .ok v') (n : Edges.Node) :
    n ∈ v'.SeenNodes ↔ n ∈ v.SeenNodes ∨ n = N ∨ n = Edges.Node.ofSymbol N.symbol := by
  rcases EdgeOutputVisitor.emitNodeInfo_ok h with
    ⟨hseen, rfl⟩ | ⟨-, hs, h⟩ | ⟨-, -, -, v₁, h₁, h⟩
  · have hsymN := hsym N hseen
    refine ⟨Or.inl, ?_⟩
    rintro (hn | hn | hn)
    · exact hn
    · rw [hn]
      exact hseen
    · rw [hn]
      exact hsymN
  · obtain ⟨info, -, rfl⟩ := EdgeOutputVisitor.emitSeen_ok h
    rw [List.mem_cons]
    constructor
    · rintro (hn | hn)
      · exact Or.inr (Or.inl hn)
      · exact Or.inl hn
    · rintro (hn | hn | hn)
      · exact Or.inr hn
      · exact Or.inl hn
      · rw [hn]
        exact hs
  · obtain ⟨info, -, rfl⟩ := EdgeOutputVisitor.emitSeen_ok h₁
    obtain ⟨info', -, rfl⟩ := EdgeOutputVisitor.emitSeen_ok h
    rw [List.mem_cons, List.mem_cons, ← or_assoc, or_comm]

theorem described_emitNodeInfo (hv : Described env v) {N : Edges.Node}
    (h : v.emitNodeInfo asserts env fi N = .ok v') : Described env v' := by
  have hrows : DescribedRows env v' := EdgeOutputVisitor.emitNodeInfo_rule
    (fun v N v' hv h => describedRows_emitSeen hv h) ⟨hv.lists, hv.listed⟩ h
  refine ⟨hrows.1, hrows.2, fun n hn => ?_⟩
  rw [mem_seen_emitNodeInfo hv.symbols h] at hn ⊢
  rcases hn with hn | rfl | rfl
  · exact Or.inl (hv.symbols n hn)
  · exact Or.inr (Or.inr rfl)
  · rw [Edges.Node.ofSymbol_symbol (Edges.Node.local_idx_ofSymbol_any N.symbol)]
    exact Or.inr (Or.inr rfl)

/-- A symbol is seen with the nodes that belong to it. -/
theorem symbol_seen_emitNodeInfo (hv : Described env v) {N f : Edges.Node}
    (hf : f.local_idx = none) (h : v.emitNodeInfo asserts env fi N = .ok v') :
    f ∈ v'.SeenNodes ↔ f ∈ v.SeenNodes ∨ N.symbol = f.symbol := by
  rw [mem_seen_emitNodeInfo hv.symbols h]
  have hiff : (f = N ∨ f = Edges.Node.ofSymbol N.symbol) ↔ N.symbol = f.symbol := by
    constructor
    · rintro (rfl | hfN)
      · rfl
      · refine ofSymbol_inj ?_
        rw [← hfN, Edges.Node.ofSymbol_symbol hf]
    · intro hs
      right
      rw [hs, Edges.Node.ofSymbol_symbol hf]
  rw [hiff]

theorem described_append (hv : Described env v) (lines : Edges.FactTables)
    (hlines : lines.DebugTable = []) : Described env ⟨v.SeenNodes, v.tables ++ lines⟩ := by
  obtain ⟨h1, h2, h3⟩ := hv
  refine ⟨?_, ?_, h3⟩ <;>
    rwa [Edges.FactTables.append_DebugTable, hlines, List.append_nil]

/-- From one visitor to the next: the bill of materials stays, and the symbols that are
seen besides are those of which `M` holds. -/
def Extends (env : EdgeOutput) (v v' : EdgeOutputVisitor) (M : Edges.Node → Prop) : Prop :=
  Described env v → Described env v' ∧ v'.tables.SbomTable = v.tables.SbomTable ∧
    ∀ f : Edges.Node, f.local_idx = none → (f ∈ v'.SeenNodes ↔ f ∈ v.SeenNodes ∨ M f)

theorem Extends.trans {v₁ : EdgeOutputVisitor} {M M' : Edges.Node → Prop}
    (h : Extends env v v₁ M) (h' : Extends env v₁ v' M') :
    Extends env v v' fun f => M f ∨ M' f := by
  intro hv
  obtain ⟨hv₁, hsbom, hseen⟩ := h hv
  obtain ⟨hv', hsbom', hseen'⟩ := h' hv₁
  exact ⟨hv', hsbom'.trans hsbom, fun f hf => by rw [hseen' f hf, hseen f hf, or_assoc]⟩

theorem Extends.congr {M M' : Edges.Node → Prop} (h : Extends env v v' M)
    (hM : ∀ f, M f ↔ M' f) : Extends env v v' M' := by
  intro hv
  obtain ⟨hv', hsbom, hseen⟩ := h hv
  exact ⟨hv', hsbom, fun f hf => by rw [hseen f hf, hM]⟩

theorem extends_foldlM {α : Type} {f : EdgeOutputVisitor → α → Result EdgeOutputVisitor}
    {M : α → Edges.Node → Prop} (hf : ∀ v a v', f v a = .ok v' → Extends env v v' (M a))
    {as : List α} {v v' : EdgeOutputVisitor} (h : as.foldlM f v = .ok v') :
    Extends env v v' fun n => ∃ a ∈ as, M a n := by
  induction as generalizing v with
  | nil =>
    obtain rfl := Except.ok.inj h
    exact fun hv => ⟨hv, rfl, by simp⟩
  | cons a as ih =>
    rw [List.foldlM_cons] at h
    obtain ⟨v₁, ha, h⟩ := Edges.bind_ok h
    exact ((hf v a v₁ ha).trans (ih h)).congr fun n => by simp

theorem emitNodeInfo_SbomTable {N : Edges.Node} (h : v.emitNodeInfo asserts env fi N = .ok v') :
    v'.tables.SbomTable = v.tables.SbomTable := by
  refine EdgeOutputVisitor.emitNodeInfo_rule (P := fun w => w.tables.SbomTable = v.tables.SbomTable)
    ?_ rfl h
  intro w N w' hw hN
  obtain ⟨info, hinfo, rfl⟩ := EdgeOutputVisitor.emitSeen_ok hN
  rw [Edges.FactTables.append_SbomTable, (Edges.nodeInfo_ok asserts env fi hinfo).2.1,
    List.append_nil, hw]

theorem extends_printEdge {kind : EdgeKind} {e : Edge}
    (h : v.printEdge asserts env fi kind e = .ok v') :
    Extends env v v' fun f => e.to_node.symbol = f.symbol ∨ e.from_node.symbol = f.symbol := by
  intro hv
  obtain ⟨v₁, h₁, h₂⟩ := Edges.bind_ok h
  have hd := described_append hv
    { OutputTables := Function.update (fun _ => []) kind [e] } rfl
  have hd₁ := described_emitNodeInfo hd h₁
  refine ⟨described_emitNodeInfo hd₁ h₂, ?_, fun f hf => ?_⟩
  · rw [emitNodeInfo_SbomTable h₂, emitNodeInfo_SbomTable h₁, Edges.FactTables.append_SbomTable,
      List.append_nil]
  · rw [symbol_seen_emitNodeInfo hd₁ hf h₂, symbol_seen_emitNodeInfo hd hf h₁, or_assoc]

theorem extends_visitPointer {dest : Edges.Node} {p : Address}
    (h : EdgeOutputVisitor.visitPointer asserts env fi dest v p = .ok v') :
    Extends env v v' fun f =>
      dest.symbol = f.symbol ∨ (Edges.Node.ofSymbol p).symbol = f.symbol := by
  obtain ⟨symbol, hsymbol, h⟩ := Edges.bind_ok (Edges.tryContext_eq_ok h)
  obtain ⟨e, he, h⟩ := Edges.bind_ok h
  have he := Edges.assert_bind (Edges.assert_bind he)
  obtain rfl := Except.ok.inj he
  obtain rfl := Edges.Node.mkSymbol_ok hsymbol
  have hprinted := extends_printEdge h
  exact hprinted

/-! ## Whole functions -/

theorem extends_visit_edge {fuel : Nat} {name : Bytes} {kind : EdgeKind} {e : Edge}
    (h : v.visit_edge asserts env fi fuel name kind e = .ok v') :
    Extends env v v' fun f => EdgeMentions env fuel kind e f.symbol := by
  have h := Edges.tryContext_eq_ok h
  unfold EdgeOutputVisitor.visit_edge_inner at h
  have hplain : kind ≠ .DlsymPagePointer → ∀ f : Edges.Node,
      (e.to_node.symbol = f.symbol ∨ e.from_node.symbol = f.symbol) ↔
        EdgeMentions env fuel kind e f.symbol := by
    intro hkind f
    simp [EdgeMentions, hkind]
  cases kind with
  | DlsymPagePointer =>
    obtain ⟨v₁, hpages, h⟩ := Edges.bind_ok h
    obtain ⟨pointers, hpointers, hfold⟩ := visitPagesOf_collect hpages
    have hwalk := extends_foldlM (M := fun p f => e.to_node.symbol = f.symbol ∨
      (Edges.Node.ofSymbol p).symbol = f.symbol) (fun v p v' h => extends_visitPointer h) hfold
    refine (hwalk.trans (extends_printEdge h)).congr fun f => ?_
    constructor
    · rintro (⟨p, hp, hto | hsym⟩ | hto | hfrom)
      · exact Or.inl hto
      · exact Or.inr (Or.inr ⟨rfl, pointers, hpointers, p, hp, hsym⟩)
      · exact Or.inl hto
      · exact Or.inr (Or.inl hfrom)
    · rintro (hto | hfrom | ⟨-, pointers', hpointers', p, hp, hsym⟩)
      · exact Or.inr (Or.inl hto)
      · exact Or.inr (Or.inr hfrom)
      · obtain rfl := Except.ok.inj (hpointers.symm.trans hpointers')
        exact Or.inl ⟨p, hp, Or.inr hsym⟩
  | Call =>
    refine Extends.congr (extends_printEdge h) fun f => ?_
    rw [← hplain (by simp)]
    split <;> rfl
  | _ => exact Extends.congr (extends_printEdge h) (hplain (by simp))

/-- **The directory of a function**: its bill of materials has one row at most, and the
`DebugTable` a row for the function exactly when an edge mentions it; the row has the
name of the function. -/
theorem dumpFunction_spec {fuel : Nat} {name : Bytes} {tables : Edges.FactTables}
    (hf : fi.function.local_idx = none) (h : Edges.dumpFunction asserts env fi fuel = .ok (name, tables)) :
    env.symbolName fi.function.symbol = .ok name ∧
    tables.SbomTable = (fi.sbom_info.map fun sbom => (fi.function, sbom.1, sbom.2)).toList ∧
    ∀ text, (fi.function, text) ∈ tables.DebugTable ↔
      Mentioned asserts env fuel fi ∧ text = Edges.listedName name := by
  obtain ⟨⟨name', v₀⟩, henter, h⟩ := Edges.bind_ok h
  obtain ⟨name'', hname, henter⟩ := Edges.bind_ok henter
  obtain ⟨rfl, rfl⟩ := Prod.mk.inj (Except.ok.inj henter)
  obtain ⟨v, hvisit, h⟩ := Edges.bind_ok h
  obtain ⟨rfl, rfl⟩ := Prod.mk.inj (Except.ok.inj h)
  have hkind : ∀ (v : EdgeOutputVisitor) (kind : EdgeKind) (v' : EdgeOutputVisitor),
      fi.visitEdges asserts kind
        (fun v e => v.visit_edge asserts env fi fuel name'' kind e) v = .ok v' →
      Extends env v v' fun f => ∃ edges, edgesOf asserts fi kind = .ok edges ∧
        ∃ e ∈ edges, EdgeMentions env fuel kind e f.symbol := by
    intro v kind v' h
    obtain ⟨edges, hedges, hfold⟩ := visitEdges_collect h
    have hall := extends_foldlM (fun v e v' h => extends_visit_edge h) hfold
    refine hall.congr fun f => ?_
    constructor
    · exact fun hm => ⟨edges, hedges, hm⟩
    · rintro ⟨edges', hedges', hm⟩
      obtain rfl := Except.ok.inj (hedges.symm.trans hedges')
      exact hm
  have hstart : ∀ rows, Described env ⟨[], { SbomTable := rows }⟩ := by
    intro rows
    refine ⟨?_, ?_, ?_⟩ <;> simp
  obtain ⟨hd, hsbom, hseen⟩ := extends_foldlM hkind hvisit (hstart _)
  have hmention : fi.function ∈ v.SeenNodes ↔ Mentioned asserts env fuel fi := by
    rw [hseen fi.function hf]
    simp [Mentioned, Edges.EdgeKind.mem_all]
  refine ⟨hname, ?_, fun text => ?_⟩
  · rw [hsbom]
    cases fi.sbom_info <;> rfl
  · rw [← hmention]
    constructor
    · intro hrow
      obtain ⟨hmem, name, hname', htext⟩ := hd.listed _ hrow hf
      obtain rfl := Except.ok.inj (hname.symm.trans hname')
      exact ⟨hmem, htext⟩
    · rintro ⟨hmem, rfl⟩
      exact hd.lists _ hmem hf _ hname

end
/-! ## The functions of an object -/

section
variable {asserts : Bool}

theorem next_function_symbol {frame frame' : Edges.Frame} {fi : FunctionInfo}
    (h : Edges.next_function asserts frame = .ok (fi, frame')) : fi.function.local_idx = none := by
  obtain ⟨⟨_, _⟩, -, h⟩ := Edges.bind_ok h
  obtain ⟨⟨_, _⟩, -, h⟩ := Edges.bind_ok h
  obtain ⟨⟨_, _⟩, -, h⟩ := Edges.bind_ok h
  obtain ⟨function_address, -, h⟩ := Edges.bind_ok h
  obtain ⟨⟨_, _⟩, -, h⟩ := Edges.bind_ok h
  obtain ⟨⟨_, _⟩, -, h⟩ := Edges.bind_ok h
  obtain ⟨_, -, h⟩ := Edges.bind_ok h
  obtain ⟨⟨_, _⟩, -, h⟩ := Edges.bind_ok h
  obtain ⟨function, hfunction, h⟩ := Edges.bind_ok h
  obtain ⟨_, -, h⟩ := Edges.bind_ok h
  obtain ⟨_, -, h⟩ := Edges.bind_ok h
  obtain ⟨⟨_, _⟩, -, h⟩ := Edges.bind_ok h
  obtain ⟨rfl, -⟩ := Prod.mk.inj (Except.ok.inj h)
  obtain rfl := Edges.Node.mkSymbol_ok hfunction
  exact Edges.Node.local_idx_ofSymbol_any _

theorem foldlM_keeps {α σ : Type} {P : σ → Prop} {f : σ → α → Result σ}
    (hf : ∀ s a s', P s → f s a = .ok s' → P s') {as : List α} {s s' : σ} (hs : P s)
    (h : as.foldlM f s = .ok s') : P s' := by
  induction as generalizing s with
  | nil => exact Except.ok.inj h ▸ hs
  | cons a as ih =>
    rw [List.foldlM_cons] at h
    obtain ⟨s₁, ha, h⟩ := Edges.bind_ok h
    exact ih (hf s a s₁ hs ha) h

variable {σ : Type} {P : σ → Prop} {cb : σ → FunctionInfo → Result σ}

theorem readFunctions_keeps
    (hcb : ∀ s fi s', fi.function.local_idx = none → P s → cb s fi = .ok s' → P s') {n : Nat}
    {frame : Edges.Frame} {s s' : σ} (hs : P s)
    (h : Edges.readFunctions asserts cb n frame s = .ok s') : P s' := by
  induction n generalizing frame s with
  | zero => exact Except.ok.inj h ▸ hs
  | succ n ih =>
    obtain ⟨⟨fi, frame'⟩, hfi, h⟩ := Edges.bind_ok h
    obtain ⟨s₁, hs₁, h⟩ := Edges.bind_ok h
    exact ih (hcb s fi s₁ (next_function_symbol hfi) hs hs₁) h

theorem runOnSection_loop_keeps {Z : Edges.Zstd} {V : Edges.StreamVByte} {target : Edges.Object}
    {onFrame : σ → Edges.Frame → Result σ} (hframe : ∀ s frame s', P s → onFrame s frame = .ok s' → P s')
    {fuel : Nat} {decoder decoder' : Edges.FrameDecoder} {c : Edges.Cursor} {s s' : σ} (hs : P s)
    (h : Edges.runOnSection_loop asserts Z V target onFrame fuel decoder c s = .ok (decoder', s')) :
    P s' := by
  induction fuel generalizing decoder c s with
  | zero => cases h
  | succ fuel ih =>
    unfold Edges.runOnSection_loop at h
    split at h
    · split at h
      · exact (Prod.mk.inj (Except.ok.inj h)).2 ▸ hs
      · obtain ⟨⟨frame, decoder₁, c₁⟩, -, h⟩ := Edges.bind_ok h
        obtain ⟨s₁, hs₁, h⟩ := Edges.bind_ok h
        exact ih (hframe s frame s₁ hs hs₁) h
    · exact (Prod.mk.inj (Except.ok.inj h)).2 ▸ hs

/-- **What the callback keeps, reading the edges of an object keeps.** -/
theorem readEdges_keeps {Z : Edges.Zstd} {V : Edges.StreamVByte} {target : Edges.Object}
    (hcb : ∀ s fi s', fi.function.local_idx = none → P s → cb s fi = .ok s' → P s') {s s' : σ}
    (hs : P s) (h : Edges.readEdges asserts Z V target cb s = .ok s') : P s' := by
  obtain ⟨⟨decoder, s₁⟩, hsections, hlast⟩ := Edges.bind_ok h
  obtain rfl := Except.ok.inj hlast
  refine foldlM_keeps (P := fun state : Edges.FrameDecoder × σ => P state.2) ?_ (s := ({}, s))
    hs hsections
  intro state sec state' hstate hsec
  unfold Edges.readSection at hsec
  split at hsec
  · exact Except.ok.inj hsec ▸ hstate
  · obtain ⟨_, -, hsec⟩ := Edges.bind_ok hsec
    exact runOnSection_loop_keeps (fun s frame s' hs h => readFunctions_keeps hcb hs h) hstate hsec

end
/-! ## The search -/

/-- A node as it is read back from a table. -/
def toNode (n : Edges.Node) : Bracelet.Node :=
  match n.local_idx with
  | none => .sym n.symbol.toNat
  | some local_idx => .loc n.symbol.toNat local_idx.toNat

theorem toNode_eq_sym {f n : Edges.Node} (hf : f.local_idx = none) :
    toNode n = .sym f.symbol.toNat ↔ n = f := by
  constructor
  · intro h
    unfold toNode at h
    split at h
    next hn =>
      have hs := UInt64.toNat_inj.mp (Bracelet.Node.sym.inj h)
      rw [← Edges.Node.ofSymbol_symbol hn, hs, Edges.Node.ofSymbol_symbol hf]
    next => cases h
  · rintro rfl
    simp [toNode, hf]

section
variable (S : Semver) (demangle : String → Option String) (vuln : VulnSpec)
  (constraint : List (VersionConstraint S)) (text : Bytes → String)
  (inlined : Address → Option (List (Bracelet.Node × String)))

/-- The directory of a function as `find_vulns` reads it; `text` decodes what a file
holds, and the files of inlined functions come from elsewhere. -/
def directory (d : Dumped) : FunctionDirectory where
  addr := d.fi.function.symbol.toNat
  function_name := text d.function_name
  SbomTable := d.tables.SbomTable.map fun row => (row.1.symbol.toNat, text row.2.1, text row.2.2)
  DebugTable := d.tables.DebugTable.map fun row => (toNode row.1, text row.2)
  InlineFunctions := inlined d.fi.function.symbol

/-- What is on disk in the end. -/
def written (dump : List Dumped) : List Dumped :=
  (Dict.ofList (dump.map fun d => (d.fi.function.symbol, d))).map Prod.snd

/-- The function belongs to the package, at a version in the range. -/
def InRange (d : Dumped) (version : String) : Prop :=
  ∃ component version_bytes v, d.fi.sbom_info = some (component, version_bytes) ∧
    text component = vuln.package_name ∧ text version_bytes = version ∧
    parse_semver S version.toList = some v ∧ version_satisfies_range v constraint = true

/-- Its name is the affected function. -/
def Named (d : Dumped) : Prop :=
  names_function demangle vuln.affected_function (text d.function_name) = true

/-- The name it is listed by is the affected function. -/
def Listed (d : Dumped) : Prop :=
  names_function demangle vuln.affected_function (text (Edges.listedName d.function_name)) = true

/-- What is to be reported of the function. -/
def target (d : Dumped) (version : String) : TargetFunction :=
  ⟨vuln.affected_function, d.fi.function.symbol.toNat, vuln.cve_id, version⟩

/-- **The candidates are found completely**: apart from inlined copies, which are reported
under names of their own, what is found is the functions of the dump that belong to the
package, at a version in the range, and have the name of the affected function. -/
def FoundCompletely (dump : List Dumped) (found : List TargetFunction) : Prop :=
  ∀ t, t.name = vuln.affected_function → (t ∈ found ↔ ∃ d ∈ dump, ∃ version,
    InRange S vuln constraint text d version ∧ Named demangle vuln text d ∧ t = target vuln d version)

/-- **The rows are there**: a function of the package that has the name is mentioned by one
of its edges, in the description that is kept; and a function without a name, which
is listed as `<UnknownSymbol>`, is not the affected function under that name only. -/
structure RowsThere (asserts : Bool) (env : EdgeOutput) (fuel : Nat) (dump : List Dumped) : Prop where
  kept : ∀ d ∈ dump, ∀ version, InRange S vuln constraint text d version →
    Named demangle vuln text d → ∃ w ∈ written dump, w.fi.function = d.fi.function ∧
      InRange S vuln constraint text w version ∧ Mentioned asserts env fuel w.fi ∧
      Listed demangle vuln text w
  named : ∀ w ∈ written dump, ∀ version, InRange S vuln constraint text w version →
    Mentioned asserts env fuel w.fi → Listed demangle vuln text w → Named demangle vuln text w

end

section
variable {S : Semver} {demangle : String → Option String} {vuln : VulnSpec}
  {constraint : List (VersionConstraint S)} {text : Bytes → String}
  {inlined : Address → Option (List (Bracelet.Node × String))}

theorem mem_of_mem_written {dump : List Dumped} {w : Dumped} (h : w ∈ written dump) : w ∈ dump := by
  obtain ⟨⟨a, w'⟩, hw, rfl⟩ := List.mem_map.mp h
  obtain ⟨d, hd, he⟩ := List.mem_map.mp (Dict.mem_of_lastValue (Dict.mem_ofList.mp hw))
  obtain ⟨-, rfl⟩ := Prod.mk.inj he
  exact hd

/-- The row of the bill of materials as it is looked up. -/
theorem get?_valid_addrs {d : Dumped} (hsbom : d.tables.SbomTable =
      (d.fi.sbom_info.map fun sbom => (d.fi.function, sbom.1, sbom.2)).toList)
    (a : Nat) (version : String) :
    Dict.get? (valid_addrs S vuln constraint (directory text inlined d)) a = some version ↔
      a = d.fi.function.symbol.toNat ∧ InRange S vuln constraint text d version := by
  unfold valid_addrs directory
  simp only [hsbom]
  rw [Dict.get?_ofList]
  cases hs : d.fi.sbom_info with
  | none => simp [Dict.lastValue, InRange, hs]
  | some sbom =>
    obtain ⟨component, version_bytes⟩ := sbom
    simp only [Option.map_some, Option.toList_some, List.map_cons, List.map_nil]
    cases hv : parse_semver S (text version_bytes).toList with
    | none =>
      simp only [List.filterMap_cons, List.filterMap_nil, hv]
      constructor
      · intro h
        cases h
      · rintro ⟨-, c, vb, v, hsome, -, rfl, hparse, -⟩
        obtain ⟨-, rfl⟩ := Prod.mk.inj (Option.some_inj.mp (hs.symm.trans hsome))
        rw [hv] at hparse
        cases hparse
    | some v =>
      by_cases hok : text component = vuln.package_name ∧ version_satisfies_range v constraint = true
      · simp only [List.filterMap_cons, List.filterMap_nil, hv, if_pos hok]
        constructor
        · intro h
          obtain ⟨ha, hversion⟩ := Prod.mk.inj (List.mem_singleton.mp (Dict.mem_of_lastValue h))
          subst hversion
          exact ⟨ha, component, version_bytes, v, hs, hok.1, rfl, hv, hok.2⟩
        · rintro ⟨rfl, c, vb, v', hsome, -, rfl, -, -⟩
          obtain ⟨-, rfl⟩ := Prod.mk.inj (Option.some_inj.mp (hs.symm.trans hsome))
          simp [Dict.lastValue]
      · simp only [List.filterMap_cons, List.filterMap_nil, hv, if_neg hok]
        constructor
        · intro h
          cases h
        · rintro ⟨-, c, vb, v', hsome, hc, rfl, hparse, hrange⟩
          obtain ⟨rfl, rfl⟩ := Prod.mk.inj (Option.some_inj.mp (hs.symm.trans hsome))
          obtain rfl := Option.some_inj.mp (hv.symm.trans hparse)
          exact absurd ⟨hc, hrange⟩ hok

/-- What a description that has been written guarantees. -/
structure Good (asserts : Bool) (env : EdgeOutput) (fuel : Nat) (d : Dumped) : Prop where
  symbol : d.fi.function.local_idx = none
  dumped : Edges.dumpFunction asserts env d.fi fuel = .ok (d.function_name, d.tables)

theorem good_of_dumpEdges {asserts : Bool} {Z : Edges.Zstd} {V : Edges.StreamVByte}
    {env : EdgeOutput} {fuel : Nat} {dump : List Dumped}
    (h : Edges.dumpEdges asserts Z V env fuel = .ok dump) : ∀ d ∈ dump, Good asserts env fuel d := by
  refine readEdges_keeps (P := fun dirs : List Dumped => ∀ d ∈ dirs, Good asserts env fuel d)
    ?_ (by simp) h
  intro dirs fi dirs' hsymbol hdirs hfi
  obtain ⟨⟨name, tables⟩, hdump, hfi⟩ := Edges.bind_ok hfi
  obtain rfl := Except.ok.inj hfi
  intro d hd
  rcases List.mem_append.mp hd with hd | hd
  · exact hdirs d hd
  · obtain rfl := List.mem_singleton.mp hd
    exact ⟨hsymbol, hdump⟩

theorem ne_inlined (name row : String) : name ++ " (inlined into " ++ row ++ ")" ≠ name := by
  intro h
  have hlen := congrArg String.length h
  have hparen : ")".length = 1 := rfl
  simp only [String.length_append, hparen] at hlen
  omega

/-- **What is found in a directory under the name of the entry.** -/
theorem mem_targets {asserts : Bool} {env : EdgeOutput} {fuel : Nat} {w : Dumped}
    (hw : Good asserts env fuel w) {t : TargetFunction} (ht : t.name = vuln.affected_function) :
    t ∈ targets S demangle vuln constraint (directory text inlined w) ↔
      ∃ version, InRange S vuln constraint text w version ∧ Mentioned asserts env fuel w.fi ∧
        Listed demangle vuln text w ∧ t = target vuln w version := by
  obtain ⟨hname, hsbom, hdebug⟩ := dumpFunction_spec hw.symbol hw.dumped
  have hget := @get?_valid_addrs S vuln constraint text inlined w hsbom
  rw [targets, List.mem_flatMap]
  constructor
  · rintro ⟨row, hrow, hmem⟩
    obtain ⟨⟨n, name⟩, hn, rfl⟩ := List.mem_map.mp hrow
    unfold row_targets at hmem
    split at hmem
    · cases hmem
    next a ha =>
      split at hmem
      · cases hmem
      next version hversion =>
        obtain ⟨rfl, hrange⟩ := (hget a version).mp hversion
        obtain rfl := (toNode_eq_sym hw.symbol).mp ha
        obtain ⟨hmention, rfl⟩ := (hdebug name).mp hn
        refine ⟨version, hrange, hmention, ?_⟩
        rcases List.mem_append.mp hmem with hmem | hmem
        · split at hmem
          next hlisted => exact ⟨hlisted, List.mem_singleton.mp hmem⟩
          next => cases hmem
        · exfalso
          split at hmem
          · cases hmem
          · split at hmem
            · obtain rfl := List.mem_singleton.mp hmem
              exact ne_inlined _ _ ht
            · cases hmem
  · rintro ⟨version, hrange, hmention, hlisted, rfl⟩
    refine ⟨(toNode w.fi.function, text (Edges.listedName w.function_name)), ?_, ?_⟩
    · exact List.mem_map.mpr ⟨_, (hdebug _).mpr ⟨hmention, rfl⟩, rfl⟩
    · have hsym := (toNode_eq_sym hw.symbol).mpr (rfl : w.fi.function = w.fi.function)
      have hlisted' : names_function demangle vuln.affected_function
        (text (Edges.listedName w.function_name)) = true := hlisted
      unfold row_targets
      simp only [hsym, (hget _ version).mpr ⟨rfl, hrange⟩, hlisted', if_true]
      exact List.mem_append_left _ (List.mem_singleton.mpr rfl)

theorem function_eq_of_target {d w : Dumped} (hd : d.fi.function.local_idx = none)
    (hw : w.fi.function.local_idx = none) {version version' : String}
    (h : target vuln d version = target vuln w version') :
    w.fi.function = d.fi.function ∧ version = version' := by
  obtain ⟨-, haddr, -, hversion⟩ := TargetFunction.mk.inj h
  have hsymbol := UInt64.toNat_inj.mp haddr
  refine ⟨?_, hversion⟩
  rw [← Edges.Node.ofSymbol_symbol hd, hsymbol, Edges.Node.ofSymbol_symbol hw]

/-- **The candidates of a dump are found completely exactly when the rows are there.** -/
theorem foundCompletely_iff {asserts : Bool} {Z : Edges.Zstd} {V : Edges.StreamVByte}
    {env : EdgeOutput} {fuel : Nat} {dump : List Dumped}
    (hdump : Edges.dumpEdges asserts Z V env fuel = .ok dump)
    (hrange : parse_purl_cons S vuln.package_version = some constraint) :
    ∃ found, find_vulns S demangle ((written dump).map (directory text inlined)) [vuln] =
        some found ∧
      (FoundCompletely S demangle vuln constraint text dump found ↔
        RowsThere S demangle vuln constraint text asserts env fuel dump) := by
  have hgood := good_of_dumpEdges hdump
  refine ⟨((written dump).map (directory text inlined)).flatMap (targets S demangle vuln constraint),
    by simp [find_vulns, hrange], ?_⟩
  have hmem : ∀ t : TargetFunction, t.name = vuln.affected_function →
      (t ∈ ((written dump).map (directory text inlined)).flatMap
          (targets S demangle vuln constraint) ↔
        ∃ w ∈ written dump, ∃ version, InRange S vuln constraint text w version ∧
          Mentioned asserts env fuel w.fi ∧ Listed demangle vuln text w ∧
          t = target vuln w version) := by
    intro t ht
    simp only [List.mem_flatMap, List.mem_map]
    constructor
    · rintro ⟨_, ⟨w, hw, rfl⟩, htarget⟩
      exact ⟨w, hw, (mem_targets (hgood w (mem_of_mem_written hw)) ht).mp htarget⟩
    · rintro ⟨w, hw, htarget⟩
      exact ⟨_, ⟨w, hw, rfl⟩, (mem_targets (hgood w (mem_of_mem_written hw)) ht).mpr htarget⟩
  constructor
  · intro hfound
    refine ⟨fun d hd version hrange hnamed => ?_, fun w hw version hrange hmention hlisted => ?_⟩
    · obtain ⟨w, hw, version', hrange', hmention, hlisted, he⟩ :=
        (hmem _ rfl).mp ((hfound (target vuln d version) rfl).mpr ⟨d, hd, version, hrange, hnamed, rfl⟩)
      obtain ⟨hfun, rfl⟩ := function_eq_of_target (hgood d hd).symbol
        (hgood w (mem_of_mem_written hw)).symbol he
      exact ⟨w, hw, hfun, hrange', hmention, hlisted⟩
    · obtain ⟨d, hd, version', -, hnamed, he⟩ := (hfound (target vuln w version) rfl).mp
        ((hmem _ rfl).mpr ⟨w, hw, version, hrange, hmention, hlisted, rfl⟩)
      have hgw := hgood w (mem_of_mem_written hw)
      have hgd := hgood d hd
      obtain ⟨hfun, -⟩ := function_eq_of_target hgw.symbol hgd.symbol he
      -- both names are the name of the symbol
      have hdname := (dumpFunction_spec hgd.symbol hgd.dumped).1
      have hwname := (dumpFunction_spec hgw.symbol hgw.dumped).1
      rw [hfun] at hdname
      have hsame := Except.ok.inj (hdname.symm.trans hwname)
      unfold Named at hnamed ⊢
      rwa [← hsame]
  · intro hrows t ht
    rw [hmem t ht]
    constructor
    · rintro ⟨w, hw, version, hrange, hmention, hlisted, rfl⟩
      exact ⟨w, mem_of_mem_written hw, version, hrange,
        hrows.named w hw version hrange hmention hlisted, rfl⟩
    · rintro ⟨d, hd, version, hrange, hnamed, rfl⟩
      obtain ⟨w, hw, hfun, hrange', hmention, hlisted⟩ := hrows.kept d hd version hrange hnamed
      exact ⟨w, hw, version, hrange', hmention, hlisted, by simp [target, hfun]⟩

end

/-! ## Two executables with one function -/

/-- Every symbol is `f`. -/
def namedEnv (obj : Edges.Object) : EdgeOutput := ⟨obj, fun _ => .ok (Edges.ascii "f"), none, false⟩

def zEntry : VulnSpec := ⟨"CVE-1", "z", ">=1", "f", [], []⟩

/-- The function of `sampleGraph` without its edges. -/
def bareImage : Edges.GraphImage Nat where
  header := {
    magic_number := Edges.GRAPH_MAGIC_NUMBER
    function_data_compressed_size := 26
    debug_data_compressed_size := 13
    num_symbols := 1
    string_blob_length := 4
    has_debug_locals := 1
    total_num_locals := 0
    num_functions := 1
    function_array_length := 13 }
  debug_data := [40, 181, 47, 253, 32, 4, 33, 0, 0, 122, 0, 49, 0]
  symbols := [0]
  function_data := [40, 181, 47, 253, 32, 17, 137, 0, 0, 0, 0, 0, 0, 0, 0, 1, 0, 0, 0, 0, 0, 0, 0,
    0, 0, 0]

def bareSection : Bytes :=
  Edges.graph_bytes bareImage (List.replicate 8 0xff) (List.replicate 8 0xff)

def bareObject : Edges.Object where
  isApple := false
  sections := [⟨"GR_graph_edges", 0x1000, bareSection.length⟩]
  copyData _ address := .ok (if address = 0x1000 then bareSection else bareImage.debug_data)
  resolvePointers _ address := .ok (if address = 0x1028 then [0x2000] else [0x4000])

/-- The executable has one function, of which the test holds. -/
def dumpsOne (obj : Edges.Object) (test : Dumped → Bool) : Bool :=
  match Edges.dumpEdges true Edges.zstd Edges.streamvbyte (namedEnv obj) 1 with
  | .ok [d] => test d
  | _ => false

theorem exists_of_dumpsOne {obj : Edges.Object} {test : Dumped → Bool}
    (h : dumpsOne obj test = true) : ∃ d, Edges.dumpEdges true Edges.zstd Edges.streamvbyte
      (namedEnv obj) 1 = .ok [d] ∧ test d = true := by
  unfold dumpsOne at h
  split at h
  next d hd => exact ⟨d, hd, h⟩
  next => cases h

theorem zEntry_parses : ∃ constraint,
    parse_purl_cons plainSemver zEntry.package_version = some constraint ∧
      version_satisfies_range ([1] : List Nat) constraint = true :=
  ⟨_, rfl, by decide⟩

theorem zEntry_inRange {d : Dumped} {constraint : List (VersionConstraint plainSemver)}
    (hrange : version_satisfies_range ([1] : List Nat) constraint = true)
    (hsbom : d.fi.sbom_info = some ([0x7a], [0x31])) :
    InRange plainSemver zEntry constraint Edges.showBytes d "1" :=
  ⟨_, _, [1], hsbom, by decide, by decide, rfl, hrange⟩

theorem zEntry_named {d : Dumped} (hname : d.function_name = Edges.ascii "f") :
    Named some zEntry Edges.showBytes d := by
  unfold Named
  rw [hname]
  decide

/-- The function of `sampleGraph`, which an edge mentions, is found. -/
theorem foundCompletely_iff_sampleObject : ∃ dump constraint found,
    Edges.dumpEdges true Edges.zstd Edges.streamvbyte (namedEnv Edges.sampleObject) 1 = .ok dump ∧
      find_vulns plainSemver some ((written dump).map (directory Edges.showBytes fun _ => none))
        [zEntry] = some found ∧
      FoundCompletely plainSemver some zEntry constraint Edges.showBytes dump found := by
  have htest : dumpsOne Edges.sampleObject (fun d => d.function_name = Edges.ascii "f" ∧
      (edgesOf true d.fi .Assign).toOption =
        some [⟨Edges.Node.ofLocal 0x4000 0, d.fi.function, 0⟩]) = true := by
    decide +kernel
  obtain ⟨d, hdump, htest⟩ := exists_of_dumpsOne htest
  obtain ⟨hname, hedges⟩ := of_decide_eq_true htest
  obtain ⟨constraint, hparses, -⟩ := zEntry_parses
  have hmention : Mentioned true (namedEnv Edges.sampleObject) 1 d.fi := by
    cases he : edgesOf true d.fi .Assign with
    | error e => simp [he, Except.toOption] at hedges
    | ok edges =>
      rw [he] at hedges
      obtain rfl := Option.some.inj hedges
      exact ⟨.Assign, _, he, _, List.mem_singleton.mpr rfl, Or.inr (Or.inl rfl)⟩
  have hlisted : Listed some zEntry Edges.showBytes d := by
    unfold Listed
    rw [hname]
    decide
  obtain ⟨found, hfound, hiff⟩ := @foundCompletely_iff plainSemver some zEntry constraint
    Edges.showBytes (fun _ => none) _ _ _ _ _ _ hdump hparses
  refine ⟨[d], constraint, found, hdump, hfound, hiff.mpr ⟨?_, ?_⟩⟩
  · intro d' hd' version hin _
    obtain rfl := List.mem_singleton.mp hd'
    exact ⟨d', List.mem_singleton.mpr rfl, rfl, hin, hmention, hlisted⟩
  · intro w hw version _ _ _
    obtain rfl := List.mem_singleton.mp (mem_of_mem_written hw)
    exact zEntry_named hname

/-- Without its edges, it is not. -/
theorem bareObject_not_foundCompletely : ∃ dump constraint,
    Edges.dumpEdges true Edges.zstd Edges.streamvbyte (namedEnv bareObject) 1 = .ok dump ∧
      parse_purl_cons plainSemver zEntry.package_version = some constraint ∧
      find_vulns plainSemver some ((written dump).map (directory Edges.showBytes fun _ => none))
        [zEntry] = some [] ∧
      ¬ FoundCompletely plainSemver some zEntry constraint Edges.showBytes dump [] := by
  have htest : dumpsOne bareObject (fun d => d.fi.sbom_info = some ([0x7a], [0x31]) ∧
      d.function_name = Edges.ascii "f" ∧ d.tables.DebugTable = []) = true := by
    decide +kernel
  obtain ⟨d, hdump, htest⟩ := exists_of_dumpsOne htest
  obtain ⟨hsbom, hname, hnone⟩ := of_decide_eq_true htest
  obtain ⟨constraint, hparses, hrange⟩ := zEntry_parses
  refine ⟨[d], constraint, hdump, hparses, ?_, fun hfound => ?_⟩
  · simp [find_vulns, hparses, written, Dict.ofList, Dict.set, targets, directory, hnone]
  · exact List.not_mem_nil ((hfound (target zEntry d "1") rfl).mpr
      ⟨d, List.mem_singleton.mpr rfl, "1", zEntry_inRange hrange hsbom, zEntry_named hname, rfl⟩)

end Bracelet.CandidateFunctions
