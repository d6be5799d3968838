import Bracelet.EmittedFiles
import Bracelet.InitialPass
import Bracelet.RecordedPrograms

/-!
# The statements of the C program of a graph

The facts of a graph are its edges, where the pages of `dlsym` calls are replaced by assignments.
Each fact has a statement in the file of its function, and each statement stands for a fact
(`emitted_fact`, `emitted_stmt`).  In a project that can be built, a statement means what the nodes
in it stand for (`stmt_some`), and it is one of the procedure of its function (`has_of_mem`).
-/
namespace Bracelet.Edges.PointsTo
open PointerPrograms (Obj Operand Procedure Prog Stmt)

/-! ## The facts of a graph -/

/-- The node in the facts. -/
def toNode (n : Node) : Bracelet.Node :=
  match n.local_idx with
  | none => .sym n.symbol.toNat
  | some local_idx => .loc n.symbol.toNat local_idx.toNat

@[simp] theorem isLocal_toNode (n : Node) : (toNode n).isLocal = n.local_idx.isSome := by
  unfold toNode
  cases n.local_idx <;> rfl

@[simp] theorem symbol_toNode (n : Node) : (toNode n).symbol = n.symbol.toNat := by
  unfold toNode
  cases n.local_idx <;> rfl

theorem toNode_symbol {n : Node} (h : n.local_idx = none) : toNode n = .sym n.symbol.toNat := by
  rw [toNode, h]

theorem raw_of_local_idx {n : Node} {i : UInt16} (h : n.local_idx = some i) :
    n.m_raw.toNat % 65536 = i.toNat + 1 := by
  have hraw : (n.m_raw &&& 0xffff).toNat = n.m_raw.toNat % 65536 := by
    rw [UInt64.toNat_and, show (0xffff : UInt64).toNat = 2 ^ 16 - 1 by decide,
      Nat.and_two_pow_sub_one_eq_mod]
  have hne : n.m_raw.toNat % 65536 ≠ 0 := by
    intro h0
    rw [Node.local_idx_eq_none.mpr h0] at h
    cases h
  have hraw0 : n.m_raw &&& 0xffff ≠ 0 := by
    intro h0
    rw [h0] at hraw
    exact hne hraw.symm
  simp only [Node.local_idx, beq_iff_eq, if_neg hraw0, Option.some.injEq] at h
  have hle : (1 : UInt64) ≤ n.m_raw &&& 0xffff := by
    rw [UInt64.le_iff_toNat_le, hraw, UInt64.toNat_one]
    omega
  rw [← h, UInt64.toNat_toUInt16, UInt64.toNat_sub_of_le _ _ hle, hraw, UInt64.toNat_one]
  omega

theorem toNode_inj {n m : Node} (h : toNode n = toNode m) : n = m := by
  have hsymbol : n.symbol = m.symbol := by
    have := congrArg Bracelet.Node.symbol h
    rw [symbol_toNode, symbol_toNode] at this
    exact UInt64.toNat_inj.mp this
  have hdiv : n.m_raw.toNat / 65536 = m.m_raw.toNat / 65536 := by
    rw [← Node.toNat_symbol_succ, ← Node.toNat_symbol_succ, hsymbol]
  have hmod : n.m_raw.toNat % 65536 = m.m_raw.toNat % 65536 := by
    unfold toNode at h
    cases hn : n.local_idx with
    | none =>
      cases hm : m.local_idx with
      | none => rw [Node.local_idx_eq_none.mp hn, Node.local_idx_eq_none.mp hm]
      | some j => simp [hn, hm] at h
    | some i =>
      cases hm : m.local_idx with
      | none => simp [hn, hm] at h
      | some j =>
        simp only [hn, hm, Bracelet.Node.loc.injEq] at h
        rw [raw_of_local_idx hn, raw_of_local_idx hm, h.2]
  have hraw : n.m_raw = m.m_raw := UInt64.toNat_inj.mp (by omega)
  cases n
  exact congrArg Node.mk hraw

section
variable (emitPages : GraphFunction → Edge → Result (List (Node × Node)))

/-- **A fact of a function of the graph**: one of its edges, or the assignment for a pointer on a
page. -/
inductive GraphFunction.Says (fi : GraphFunction) : Fact → Prop
  | edge {d : Decl} {e : Edge} : (d.kind, e) ∈ fi.edges →
      Says fi ⟨d, toNode e.to_node, toNode e.from_node, e.idx.toNat⟩
  | page {E : Edge} {lines : List (Node × Node)} {line : Node × Node} :
      (.DlsymPagePointer, E) ∈ fi.edges → emitPages fi E = .ok lines → line ∈ lines →
      Says fi ⟨.Assign, toNode line.1, toNode line.2, 0⟩

/-- The program has the functions of the graph, and their facts. -/
structure Describes (fs : List GraphFunction) (P : Program) : Prop where
  program : ∀ F ∈ P.functions, ∃ fi ∈ fs, toNode fi.function = .sym F.symbol ∧
    ∀ e ∈ F.facts, fi.Says emitPages e
  graph : ∀ fi ∈ fs, ∃ F ∈ P.functions, toNode fi.function = .sym F.symbol ∧
    ∀ e, fi.Says emitPages e → e ∈ F.facts

end

/-- The statement stands for the fact. -/
inductive CStmt.StandsFor : CStmt → Fact → Prop
  | assign (dest source : Node) (idx : Nat) :
      StandsFor (.assign dest source) ⟨.Assign, toNode dest, toNode source, idx⟩
  | load (into addr : Node) (idx : Nat) :
      StandsFor (.load into addr) ⟨.Load, toNode into, toNode addr, idx⟩
  | store (addr value : Node) (idx : Nat) :
      StandsFor (.store addr value) ⟨.Store, toNode addr, toNode value, idx⟩
  | call (callsite callee : Node) (nargs : UInt32) :
      StandsFor (.call callsite callee nargs) ⟨.Call, toNode callsite, toNode callee, nargs.toNat⟩
  | ret (value : Node) (function : Bracelet.Node) (idx : Nat) :
      StandsFor (.ret value) ⟨.Return, function, toNode value, idx⟩
  | define (value : Node) (arg_no : UInt32) (function : Bracelet.Node) :
      StandsFor (.define value arg_no) ⟨.ArgumentDefinition, toNode value, function, arg_no.toNat⟩
  | supply (callsite : Node) (arg_no : UInt32) (value : Node) :
      StandsFor (.supply callsite arg_no value)
        ⟨.ArgumentSupply, toNode callsite, toNode value, arg_no.toNat⟩

/-! ## What is emitted -/

/-- The results of a list of steps that all have one. -/
theorem mapM_some {α β : Type} {g : α → Option β} {l : List α} {l' : List β}
    (h : l.mapM g = some l') :
    (∀ a ∈ l, ∃ b ∈ l', g a = some b) ∧ ∀ b ∈ l', ∃ a ∈ l, g a = some b := by
  induction l generalizing l' with
  | nil =>
    obtain rfl := Option.some.inj h
    simp
  | cons a l ih =>
    rw [List.mapM_cons] at h
    obtain ⟨b, hb, h⟩ := Option.bind_eq_some_iff.mp h
    obtain ⟨bs, hbs, h⟩ := Option.bind_eq_some_iff.mp h
    obtain rfl := Option.some.inj h
    obtain ⟨hfrom, hto⟩ := ih hbs
    constructor
    · rintro x (_ | ⟨_, hx⟩)
      · exact ⟨b, List.mem_cons_self, hb⟩
      · obtain ⟨y, hy, hxy⟩ := hfrom x hx
        exact ⟨y, List.mem_cons_of_mem b hy, hxy⟩
    · rintro y (_ | ⟨_, hy⟩)
      · exact ⟨a, List.mem_cons_self, hb⟩
      · obtain ⟨x, hx, hxy⟩ := hto y hy
        exact ⟨x, List.mem_cons_of_mem a hx, hxy⟩

section
variable {asserts : Bool} {emitPages : GraphFunction → Edge → Result (List (Node × Node))}
  {st : EmitC} {fi : GraphFunction} {f : CFile}

theorem mem_ofKind {kind : EdgeKind} {e : Edge} : e ∈ fi.ofKind kind ↔ (kind, e) ∈ fi.edges := by
  simp [GraphFunction.ofKind]

/-- What a file holds. -/
theorem emitFile_ok (h : emitFile asserts emitPages st fi = .ok f) :
    ∃ pointers nargs, Dict.get? st.node_states fi.function = some (.Function nargs) ∧
      (fi.ofKind .DlsymPagePointer).mapM (emitPages fi) = .ok pointers ∧
      fi.firstLocals asserts fi.num_allocas = .ok f.allocas ∧
      f.call_args = (fi.ofKind .Call).map (fun call => (call.to_node, call.idx)) ∧
      f.loop = (fi.ofKind .Assign).map (fun e => .assign e.to_node e.from_node) ++
        (fi.ofKind .Load).map (fun e => .load e.to_node e.from_node) ++
        (fi.ofKind .Store).map (fun e => .store e.to_node e.from_node) ++
        (fi.ofKind .Call).map (fun call => .call call.to_node call.from_node call.idx) ++
        (fi.ofKind .Return).map (fun e => .ret e.from_node) ++
        (fi.ofKind .ArgumentDefinition).map (fun e => .define e.to_node e.idx) ++
        (fi.ofKind .ArgumentSupply).map (fun e => .supply e.to_node e.idx e.from_node) ++
        pointers.flatten.map (fun p => .assign p.1 p.2) := by
  unfold emitFile at h
  split at h
  · rename_i nargs hstate
    obtain ⟨locals, -, h⟩ := bind_ok h
    obtain ⟨allocas, hallocas, h⟩ := bind_ok h
    obtain ⟨_, -, h⟩ := bind_ok h
    obtain ⟨_, -, h⟩ := bind_ok h
    obtain ⟨pointers, hpointers, h⟩ := bind_ok h
    obtain rfl := Except.ok.inj h
    exact ⟨pointers, nargs, hstate, hpointers, hallocas, rfl, rfl⟩
  · cases h

/-- The statement for an edge that is a fact. -/
def CStmt.ofEdge (d : Decl) (e : Edge) : CStmt :=
  match d with
  | .Assign => .assign e.to_node e.from_node
  | .Load => .load e.to_node e.from_node
  | .Store => .store e.to_node e.from_node
  | .Call => .call e.to_node e.from_node e.idx
  | .Return => .ret e.from_node
  | .ArgumentDefinition => .define e.to_node e.idx
  | .ArgumentSupply => .supply e.to_node e.idx e.from_node

theorem CStmt.standsFor_ofEdge (d : Decl) (e : Edge) :
    (ofEdge d e).StandsFor ⟨d, toNode e.to_node, toNode e.from_node, e.idx.toNat⟩ := by
  cases d <;> constructor

theorem mem_loop (h : emitFile asserts emitPages st fi = .ok f) {c : CStmt} : c ∈ f.loop ↔
    (∃ d e, (d.kind, e) ∈ fi.edges ∧ c = .ofEdge d e) ∨
      ∃ E lines line, (.DlsymPagePointer, E) ∈ fi.edges ∧ emitPages fi E = .ok lines ∧
        line ∈ lines ∧ c = .assign line.1 line.2 := by
  obtain ⟨pointers, nargs, -, hpointers, -, -, hloop⟩ := emitFile_ok h
  have hpages : ∀ line, line ∈ pointers.flatten ↔ ∃ E lines, (.DlsymPagePointer, E) ∈ fi.edges ∧
      emitPages fi E = .ok lines ∧ line ∈ lines := by
    intro line
    simp only [List.mem_flatten, mem_of_mapM hpointers, mem_ofKind]
    constructor
    · rintro ⟨lines, ⟨E, hE, hlines⟩, hline⟩
      exact ⟨E, lines, hE, hlines, hline⟩
    · rintro ⟨E, lines, hE, hlines, hline⟩
      exact ⟨lines, ⟨E, hE, hlines⟩, hline⟩
  rw [hloop]
  simp only [List.mem_append, List.mem_map, mem_ofKind, hpages, or_assoc]
  constructor
  · rintro (⟨e, he, rfl⟩ | ⟨e, he, rfl⟩ | ⟨e, he, rfl⟩ | ⟨e, he, rfl⟩ | ⟨e, he, rfl⟩ |
      ⟨e, he, rfl⟩ | ⟨e, he, rfl⟩ | ⟨line, ⟨E, lines, hE, hlines, hline⟩, rfl⟩)
    · exact .inl ⟨.Assign, e, he, rfl⟩
    · exact .inl ⟨.Load, e, he, rfl⟩
    · exact .inl ⟨.Store, e, he, rfl⟩
    · exact .inl ⟨.Call, e, he, rfl⟩
    · exact .inl ⟨.Return, e, he, rfl⟩
    · exact .inl ⟨.ArgumentDefinition, e, he, rfl⟩
    · exact .inl ⟨.ArgumentSupply, e, he, rfl⟩
    · exact .inr ⟨E, lines, line, hE, hlines, hline, rfl⟩
  · rintro (⟨d, e, he, rfl⟩ | ⟨E, lines, line, hE, hlines, hline, rfl⟩)
    · cases d with
      | Assign => exact .inl ⟨e, he, rfl⟩
      | Load => exact .inr (.inl ⟨e, he, rfl⟩)
      | Store => exact .inr (.inr (.inl ⟨e, he, rfl⟩))
      | Call => exact .inr (.inr (.inr (.inl ⟨e, he, rfl⟩)))
      | Return => exact .inr (.inr (.inr (.inr (.inl ⟨e, he, rfl⟩))))
      | ArgumentDefinition => exact .inr (.inr (.inr (.inr (.inr (.inl ⟨e, he, rfl⟩)))))
      | ArgumentSupply => exact .inr (.inr (.inr (.inr (.inr (.inr (.inl ⟨e, he, rfl⟩))))))
    · exact .inr (.inr (.inr (.inr (.inr (.inr (.inr
        ⟨line, ⟨E, lines, hE, hlines, hline⟩, rfl⟩))))))

/-- Every fact has a statement. -/
theorem emitted_fact (h : emitFile asserts emitPages st fi = .ok f) {e : Fact}
    (he : fi.Says emitPages e) : ∃ c ∈ f.loop, c.StandsFor e := by
  cases he with
  | @edge d e he => exact ⟨_, (mem_loop h).mpr (.inl ⟨d, e, he, rfl⟩), CStmt.standsFor_ofEdge d e⟩
  | @page E lines line hE hlines hline =>
    exact ⟨_, (mem_loop h).mpr (.inr ⟨E, lines, line, hE, hlines, hline, rfl⟩), .assign _ _ _⟩

/-- Every statement stands for a fact. -/
theorem emitted_stmt (h : emitFile asserts emitPages st fi = .ok f) {c : CStmt}
    (hc : c ∈ f.loop) : ∃ e, fi.Says emitPages e ∧ c.StandsFor e := by
  rcases (mem_loop h).mp hc with ⟨d, e, he, rfl⟩ | ⟨E, lines, line, hE, hlines, hline, rfl⟩
  · exact ⟨_, .edge he, CStmt.standsFor_ofEdge d e⟩
  · exact ⟨_, .page hE hlines hline, .assign _ _ _⟩

theorem get?_writeFunctions {fs : List GraphFunction} {files files' : List (Node × CFile)}
    (h : fs.foldlM (fun files fi => do
      let file ← emitFile asserts emitPages st fi
      return Dict.set files fi.function file) files = .ok files')
    (hdistinct : (fs.map GraphFunction.function).Nodup) (hkeys : (files.map Prod.fst).Nodup) :
    (files'.map Prod.fst).Nodup ∧ ∀ n f, Dict.get? files' n = some f ↔
      (∃ fi ∈ fs, n = fi.function ∧ emitFile asserts emitPages st fi = .ok f) ∨
        n ∉ fs.map GraphFunction.function ∧ Dict.get? files n = some f := by
  induction fs generalizing files with
  | nil =>
    obtain rfl := Except.ok.inj h
    exact ⟨hkeys, by simp⟩
  | cons fi fs ih =>
    rw [List.map_cons, List.nodup_cons] at hdistinct
    rw [List.foldlM_cons] at h
    obtain ⟨one, hone, h⟩ := bind_ok h
    obtain ⟨file, hfile, hone⟩ := bind_ok hone
    obtain rfl := Except.ok.inj hone
    obtain ⟨hkeys', hget⟩ := ih h hdistinct.2 (Dict.nodup_keys_set hkeys _ _)
    refine ⟨hkeys', fun n f => ?_⟩
    rw [hget, Dict.get?_set, List.exists_mem_cons_iff, List.map_cons, List.mem_cons]
    by_cases hn : n = fi.function
    · subst hn
      have hno : ¬ ∃ fi' ∈ fs, fi.function = fi'.function ∧
          emitFile asserts emitPages st fi' = .ok f := by
        rintro ⟨fi', hfi', heq, -⟩
        exact hdistinct.1 (heq ▸ List.mem_map_of_mem hfi')
      simp [hno, hdistinct.1, hfile]
    · simp [hn, Ne.symm hn]

/-- The files are those of the functions. -/
theorem writeFunctions_ok {fs : List GraphFunction} {files : List (Node × CFile)}
    (h : writeFunctions asserts emitPages st fs = .ok files)
    (hdistinct : (fs.map GraphFunction.function).Nodup) :
    (files.map Prod.fst).Nodup ∧ ∀ n f, (n, f) ∈ files ↔
      ∃ fi ∈ fs, n = fi.function ∧ emitFile asserts emitPages st fi = .ok f := by
  obtain ⟨hkeys, hget⟩ := get?_writeFunctions h hdistinct List.nodup_nil
  refine ⟨hkeys, fun n f => ?_⟩
  rw [Dict.mem_iff_get? hkeys, hget]
  simp [Dict.get?]

/-- Every function has a file. -/
theorem writeFunctions_emits {fs : List GraphFunction} {files : List (Node × CFile)}
    (h : writeFunctions asserts emitPages st fs = .ok files) (hfi : fi ∈ fs) :
    ∃ f, emitFile asserts emitPages st fi = .ok f := by
  unfold writeFunctions at h
  generalize ([] : List (Node × CFile)) = files₀ at h
  induction fs generalizing files₀ with
  | nil => cases hfi
  | cons fi' fs ih =>
    rw [List.foldlM_cons] at h
    obtain ⟨one, hone, h⟩ := bind_ok h
    obtain ⟨file, hfile, -⟩ := bind_ok hone
    rcases List.mem_cons.mp hfi with rfl | hfi
    · exact ⟨file, hfile⟩
    · exact ih hfi one h

/-! ## What a project refers to -/

section
namespace Project
variable (p : Project)

/-- The node is a function, according to the first pass. -/
def isFunction (n : Node) : Bool :=
  n.local_idx.isNone && (Dict.get? p.node_states n).any NodeState.isFunction

/-- What a node is in a statement. -/
def operandOf (n : Node) : Operand CVar CName :=
  if p.isFunction n then .fn (p.name n) else .var (.node n)

/-- The object of a node. -/
def objectOf (n : Node) : Obj CVar CName :=
  if p.isFunction n then .fn (p.name n) else .site (.node n)

/-- A symbol is declared when the first pass has come across it. -/
def Declared (n : Node) : Prop := n.local_idx = none → (Dict.get? p.node_states n).isSome

/-- What a statement means, if it compiles. -/
def meaning : CStmt → Stmt CVar CName
  | .assign dest source => .copy (.node dest) (p.operandOf source)
  | .load into addr => .load (.node into) (p.operandOf addr)
  | .store addr value => .store (p.operandOf addr) (p.operandOf value)
  | .call callsite callee nargs =>
    .call (.node callsite) (p.operandOf callee)
      ((List.range nargs.toNat).map (.call_arg callsite))
  | .ret value => .ret (p.operandOf value)
  | .define value arg_no => .param (.node value) arg_no.toNat
  | .supply callsite arg_no value => .copy (.call_arg callsite arg_no.toNat) (p.operandOf value)

end Project

/-- The nodes that the statement takes the values of. -/
def CStmt.used : CStmt → List Node
  | .assign _ source => [source]
  | .load _ addr => [addr]
  | .store addr value => [addr, value]
  | .call _ callee _ => [callee]
  | .ret value => [value]
  | .define _ _ => []
  | .supply _ _ value => [value]

/-- The node that the statement assigns to. -/
def CStmt.set : CStmt → List Node
  | .assign dest _ => [dest]
  | .load into _ => [into]
  | .call callsite _ _ => [callsite]
  | .define value _ => [value]
  | .store _ _ | .ret _ | .supply _ _ _ => []

namespace Project
variable {p : Project} {f : CFile} {n : Node}

theorem operand_some {e : Operand CVar CName} (h : p.operand f n = some e) :
    e = p.operandOf n ∧ p.Declared n := by
  unfold operand at h
  split at h
  · rename_i hlocal
    obtain ⟨i, hi⟩ := Option.isSome_iff_exists.mp hlocal
    split at h
    · obtain rfl := Option.some.inj h
      refine ⟨?_, fun hnone => by rw [hi] at hnone; cases hnone⟩
      simp [operandOf, isFunction, hi]
    · cases h
  · rename_i hlocal
    have hnone : n.local_idx = none := by simpa using hlocal
    obtain ⟨state, hstate, rfl⟩ := Option.map_eq_some_iff.mp h
    refine ⟨?_, fun _ => by rw [hstate]; rfl⟩
    simp [operandOf, isFunction, hnone, hstate]

theorem lvalue_some {x : CVar} (h : p.lvalue? f n = some x) :
    x = .node n ∧ p.isFunction n = false := by
  obtain ⟨e, he, hx⟩ := Option.bind_eq_some_iff.mp h
  obtain ⟨rfl, -⟩ := operand_some he
  cases hfn : p.isFunction n with
  | true => simp [operandOf, hfn] at hx
  | false =>
    simp only [operandOf, hfn, Bool.false_eq_true, if_false, Option.some.injEq] at hx
    exact ⟨hx.symm, rfl⟩

theorem isFunction_eq (h : p.isFunction n = true) :
    p.operandOf n = .fn (p.name n) ∧ p.objectOf n = .fn (p.name n) := by
  simp [operandOf, objectOf, h]

theorem not_isFunction_eq (h : p.isFunction n = false) :
    p.operandOf n = .var (.node n) ∧ p.objectOf n = .site (.node n) := by
  simp [operandOf, objectOf, h]

theorem symbol_of_isFunction (h : p.isFunction n = true) : n.local_idx = none := by
  simp only [isFunction, Bool.and_eq_true, Option.isNone_iff_eq_none] at h
  exact h.1

/-- **A statement that compiles** has its meaning.  It uses nodes that are declared and assigns to
variables. -/
theorem stmt_some {c : CStmt} {s : Stmt CVar CName} (h : p.stmt f c = some s) :
    s = p.meaning c ∧ (∀ m ∈ c.used, p.Declared m) ∧ ∀ m ∈ c.set, p.isFunction m = false := by
  cases c with
  | assign dest source | load dest source =>
    obtain ⟨x, hx, h⟩ := Option.bind_eq_some_iff.mp h
    obtain ⟨e, he, h⟩ := Option.bind_eq_some_iff.mp h
    obtain ⟨rfl, hdest⟩ := lvalue_some hx
    obtain ⟨rfl, hsource⟩ := operand_some he
    obtain rfl := Option.some.inj h
    simp [meaning, CStmt.used, CStmt.set, hdest, hsource]
  | store addr value =>
    obtain ⟨x, hx, h⟩ := Option.bind_eq_some_iff.mp h
    obtain ⟨e, he, h⟩ := Option.bind_eq_some_iff.mp h
    obtain ⟨rfl, haddr⟩ := operand_some hx
    obtain ⟨rfl, hvalue⟩ := operand_some he
    obtain rfl := Option.some.inj h
    simp [meaning, CStmt.used, CStmt.set, haddr, hvalue]
  | call callsite callee nargs =>
    simp only [stmt] at h
    split at h
    · obtain ⟨x, hx, h⟩ := Option.bind_eq_some_iff.mp h
      obtain ⟨e, he, h⟩ := Option.bind_eq_some_iff.mp h
      obtain ⟨rfl, hcallsite⟩ := lvalue_some hx
      obtain ⟨rfl, hcallee⟩ := operand_some he
      obtain rfl := Option.some.inj h
      simp [meaning, CStmt.used, CStmt.set, hcallsite, hcallee]
    · cases h
  | ret value =>
    obtain ⟨e, he, h⟩ := Option.bind_eq_some_iff.mp h
    obtain ⟨rfl, hvalue⟩ := operand_some he
    obtain rfl := Option.some.inj h
    simp [meaning, CStmt.used, CStmt.set, hvalue]
  | define value arg_no =>
    simp only [stmt] at h
    split at h
    · obtain ⟨x, hx, h⟩ := Option.bind_eq_some_iff.mp h
      obtain ⟨rfl, hvalue⟩ := lvalue_some hx
      obtain rfl := Option.some.inj h
      simp [meaning, CStmt.used, CStmt.set, hvalue]
    · cases h
  | supply callsite arg_no value =>
    simp only [stmt] at h
    split at h
    · obtain ⟨e, he, h⟩ := Option.bind_eq_some_iff.mp h
      obtain ⟨rfl, hvalue⟩ := operand_some he
      obtain rfl := Option.some.inj h
      simp [meaning, CStmt.used, CStmt.set, hvalue]
    · cases h

/-- The variable of an argument is declared where it is assigned. -/
theorem supply_declared {callsite value : Node} {arg_no : UInt32} {s : Stmt CVar CName}
    (h : p.stmt f (.supply callsite arg_no value) = some s) :
    ∃ declared ∈ f.call_args, declared.1 = callsite ∧ arg_no.toNat < declared.2.toNat := by
  simp only [stmt] at h
  split at h
  · assumption
  · cases h

end Project
end

/-! ## The declared symbols -/

section
variable {asserts : Bool} {symbolName : Address → Result String}
  {override_nargs : List (String × UInt16)} {fs : List GraphFunction}

namespace EmitC
variable {st st' : EmitC} {n : Node} {s : NodeState}

theorem setNargs_states (h : st.setNargs asserts symbolName n s = .ok st') :
    st'.node_states = st.node_states ∨ ∃ t, st'.node_states = Dict.set st.node_states n t := by
  unfold setNargs at h
  have h := assert_bind h
  split at h
  · obtain rfl := Except.ok.inj h
    exact .inr ⟨s, rfl⟩
  · obtain rfl := Except.ok.inj h
    exact .inr ⟨s, rfl⟩
  · split at h
    · obtain rfl := Except.ok.inj h
      exact .inl rfl
    · obtain ⟨_, -, h⟩ := bind_ok h
      obtain rfl := Except.ok.inj h
      exact .inl rfl

theorem apply_states {u : Update}
    (h : st.apply asserts symbolName override_nargs u = .ok st') :
    st'.node_states = st.node_states ∨ ∃ t, st'.node_states = Dict.set st.node_states u.node t := by
  cases u with
  | state n s => exact setNargs_states h
  | override n =>
    simp only [apply, checkOverride] at h
    split at h
    · obtain rfl := Except.ok.inj h
      exact .inl rfl
    · obtain ⟨full_name, -, h⟩ := bind_ok h
      split at h
      · obtain rfl := Except.ok.inj h
        exact .inl rfl
      · have hset := setNargs_states h
        exact hset

end EmitC

/-- The first pass has one state for each node, and all its nodes are symbols. -/
theorem initial_pass_symbols {st : EmitC}
    (h : EmitC.initial_pass asserts symbolName override_nargs fs = .ok st) :
    (st.node_states.map Prod.fst).Nodup ∧
      ∀ n ∈ st.node_states.map Prod.fst, n.local_idx = none := by
  rw [initial_pass_eq] at h
  refine foldlM_keeps (P := fun st : EmitC => (st.node_states.map Prod.fst).Nodup ∧
    ∀ n ∈ st.node_states.map Prod.fst, n.local_idx = none) ?_ (by simp) h
  rintro st ⟨hnodup, hsymbols⟩ u hu st' hst'
  rcases EmitC.apply_states hst' with heq | ⟨t, heq⟩
  · rw [heq]
    exact ⟨hnodup, hsymbols⟩
  · rw [heq]
    refine ⟨Dict.nodup_keys_set hnodup _ _, fun n hn => ?_⟩
    rw [Dict.keys_set] at hn
    split at hn
    · exact hsymbols n hn
    · rcases List.mem_append.mp hn with hn | hn
      · exact hsymbols n hn
      · obtain rfl := List.mem_singleton.mp hn
        exact updates_symbol hu

end

/-! ## What a project means -/

section
variable {symbolName : Address → Result String} {override_nargs : List (String × UInt16)}
  {conservative_mode : Bool} {fs : List GraphFunction} {p : Project}
  {prelude : String → Option (Procedure CVar CName)} {prog : Prog CVar CName}

/-- What is emitted. -/
theorem emitC_ok
    (h : emitC asserts symbolName override_nargs emitPages conservative_mode fs = .ok p) :
    ∃ st, EmitC.initial_pass asserts symbolName override_nargs fs = .ok st ∧
      p.node_states = st.node_states ∧ p.override_nodes = st.override_nodes ∧
      writeFunctions asserts emitPages st fs = .ok p.files ∧
      p.conservative = if conservative_mode then declared_functions st fs else [] := by
  obtain ⟨st, hst, h⟩ := bind_ok h
  obtain ⟨_, -, h⟩ := bind_ok h
  obtain ⟨files, hfiles, h⟩ := bind_ok h
  obtain rfl := Except.ok.inj h
  exact ⟨st, tryContext_eq_ok hst, rfl, rfl, hfiles, rfl⟩

theorem emitted_symbols
    (h : emitC asserts symbolName override_nargs emitPages conservative_mode fs = .ok p) :
    (p.node_states.map Prod.fst).Nodup ∧ ∀ n ∈ p.node_states.map Prod.fst, n.local_idx = none := by
  obtain ⟨st, hst, hstates, -⟩ := emitC_ok h
  rw [hstates]
  exact initial_pass_symbols hst

/-- The files of a project, and what they stand for. -/
theorem emitted_files
    (h : emitC asserts symbolName override_nargs emitPages conservative_mode fs = .ok p)
    (hdistinct : (fs.map GraphFunction.function).Nodup) :
    (p.files.map Prod.fst).Nodup ∧ ∀ n f, (n, f) ∈ p.files ↔ ∃ fi ∈ fs, n = fi.function ∧
      ∃ st : EmitC, p.node_states = st.node_states ∧ emitFile asserts emitPages st fi = .ok f := by
  obtain ⟨st, -, hstates, -, hfiles, -⟩ := emitC_ok h
  obtain ⟨hkeys, hmem⟩ := writeFunctions_ok hfiles hdistinct
  refine ⟨hkeys, fun n f => ?_⟩
  rw [hmem]
  constructor
  · rintro ⟨fi, hfi, rfl, hemit⟩
    exact ⟨fi, hfi, rfl, st, hstates, hemit⟩
  · rintro ⟨fi, hfi, rfl, st', hstates', hemit⟩
    refine ⟨fi, hfi, rfl, ?_⟩
    rw [← hemit]
    unfold emitFile
    rw [← hstates, hstates']

namespace Project

/-- The definitions of a program. -/
theorem link_ok (h : p.link prelude = some prog) : ∃ definitions,
    p.definitions = some definitions ∧ (definitions.map Prod.fst).Nodup ∧
      (∀ name proc, (name, proc) ∈ definitions → prog.procedures name = some proc) ∧
      (∀ n proc, prog.procedures (.node n) = some proc → (.node n, proc) ∈ definitions) ∧
      (∀ o proc, prog.procedures (.override o) = some proc →
        (.override o, proc) ∈ definitions ∨ prelude o = some proc) ∧
      ∀ x, x ∈ prog.globals ↔ ∃ n state, (n, state) ∈ p.node_states ∧ state.isFunction = false ∧
        x = .node n := by
  obtain ⟨definitions, hdefinitions, h⟩ := Option.bind_eq_some_iff.mp h
  split at h
  · rename_i hnodup
    obtain rfl := Option.some.inj h
    refine ⟨definitions, hdefinitions, hnodup, fun name proc hmem => ?_, fun n proc hproc => ?_,
      fun o proc hproc => ?_, fun x => ?_⟩
    · simp only [(Dict.mem_iff_get? hnodup).mp hmem]
    · dsimp only at hproc
      cases hget : Dict.get? definitions (.node n) with
      | none => simp [hget] at hproc
      | some proc' =>
        rw [hget] at hproc
        obtain rfl := Option.some.inj hproc
        exact (Dict.mem_iff_get? hnodup).mpr hget
    · dsimp only at hproc
      cases hget : Dict.get? definitions (.override o) with
      | none =>
        rw [hget] at hproc
        exact .inr hproc
      | some proc' =>
        rw [hget] at hproc
        obtain rfl := Option.some.inj hproc
        exact .inl ((Dict.mem_iff_get? hnodup).mpr hget)
    · simp only [List.mem_filterMap]
      constructor
      · rintro ⟨⟨n, state⟩, hmem, hx⟩
        dsimp only at hx
        split at hx
        · cases hx
        · rename_i hfn
          obtain rfl := Option.some.inj hx
          exact ⟨n, state, hmem, by simpa using hfn, rfl⟩
      · rintro ⟨n, state, hmem, hfn, rfl⟩
        exact ⟨(n, state), hmem, by simp [hfn]⟩
  · cases h

/-- The definitions are those of the files, and conservative ones. -/
theorem definitions_ok {definitions : List (CName × Procedure CVar CName)}
    (h : p.definitions = some definitions) :
    (∀ n f, (n, f) ∈ p.files → ∃ proc, p.compile f = some proc ∧ (p.name n, proc) ∈ definitions) ∧
      ∀ d ∈ definitions, (∃ n f, (n, f) ∈ p.files ∧ d.1 = p.name n ∧ p.compile f = some d.2) ∨
        ∃ c ∈ p.conservative, d = (p.name c.1, conservativeBody c.1 c.2) := by
  obtain ⟨files, hfiles, h⟩ := Option.bind_eq_some_iff.mp h
  obtain rfl := Option.some.inj h
  obtain ⟨hfrom, hto⟩ := mapM_some hfiles
  constructor
  · intro n f hf
    obtain ⟨d, hd, hcompile⟩ := hfrom _ hf
    split at hcompile
    · cases hcompile
    · obtain ⟨proc, hproc, hpair⟩ := Option.bind_eq_some_iff.mp hcompile
      obtain rfl := Option.some.inj hpair
      exact ⟨proc, hproc, List.mem_append_left _ hd⟩
  · intro d hd
    rcases List.mem_append.mp hd with hd | hd
    · obtain ⟨⟨n, f⟩, hf, hcompile⟩ := hto d hd
      split at hcompile
      · cases hcompile
      · obtain ⟨proc, hproc, hpair⟩ := Option.bind_eq_some_iff.mp hcompile
        obtain rfl := Option.some.inj hpair
        exact .inl ⟨n, f, hf, rfl, hproc⟩
    · obtain ⟨c, hc, rfl⟩ := List.mem_map.mp hd
      exact .inr ⟨c, hc, rfl⟩

/-- What a file that compiles means. -/
theorem compile_ok {f : CFile} {proc : Procedure CVar CName} (h : p.compile f = some proc) :
    ((f.call_args.filter fun c => c.2 ≠ 0).map Prod.fst).Nodup ∧ proc.final = none ∧
      proc.entry = f.allocas.map (fun n => .malloc (.node n)) ∧
      (∀ c ∈ f.loop, ∃ s ∈ proc.loop, p.stmt f c = some s) ∧
      ∀ s ∈ proc.loop, ∃ c ∈ f.loop, p.stmt f c = some s := by
  unfold compile at h
  split at h
  · rename_i hok
    obtain ⟨loop, hloop, h⟩ := Option.bind_eq_some_iff.mp h
    obtain rfl := Option.some.inj h
    obtain ⟨hfrom, hto⟩ := mapM_some hloop
    exact ⟨hok.2.2, rfl, rfl, hfrom, hto⟩
  · cases h

/-- Every file compiles. -/
theorem compiles (h : p.link prelude = some prog) {n : Node} {f : CFile} (hf : (n, f) ∈ p.files) :
    ∃ proc, p.compile f = some proc ∧ prog.procedures (p.name n) = some proc := by
  obtain ⟨definitions, hdefinitions, -, hprocedures, -⟩ := link_ok h
  obtain ⟨proc, hproc, hmem⟩ := (definitions_ok hdefinitions).1 n f hf
  exact ⟨proc, hproc, hprocedures _ _ hmem⟩

/-- **A statement of a file** is one of the program. -/
theorem has_of_mem (h : p.link prelude = some prog) {n : Node} {f : CFile} (hf : (n, f) ∈ p.files)
    {c : CStmt} (hc : c ∈ f.loop) : ∃ s, p.stmt f c = some s ∧ prog.Has (p.name n) s := by
  obtain ⟨proc, hcompile, hproc⟩ := compiles h hf
  obtain ⟨-, -, -, hloop, -⟩ := compile_ok hcompile
  obtain ⟨s, hs, hstmt⟩ := hloop c hc
  exact ⟨s, hstmt, proc, hproc, .inr hs⟩

theorem has_malloc (h : p.link prelude = some prog) {n a : Node} {f : CFile}
    (hf : (n, f) ∈ p.files) (ha : a ∈ f.allocas) : prog.Has (p.name n) (.malloc (.node a)) := by
  obtain ⟨proc, hcompile, hproc⟩ := compiles h hf
  obtain ⟨-, -, hentry, -⟩ := compile_ok hcompile
  exact ⟨proc, hproc, .inl (hentry ▸ List.mem_map_of_mem ha)⟩

end Project
end
end

end Bracelet.Edges.PointsTo
