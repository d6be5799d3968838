import Bracelet.DlsymPages
import Bracelet.EdgeOutput

/-!
# Reading the dlsym pages back

The list of pages that `braceletReachabilityDlsymPageInsert` leaves in memory has two
readers: `bracelet-edges` writes an `Assign` edge for each pointer of a page, and the
C emitter of the points-to analysis a statement.  Both walk the pages from the head
and look at the slots below the count of a page.

The list of a reachable configuration is finite (`Reachable.chain`), so both walks come
to an end.  A slot holds a null pointer until its claim is stored, and for good when
`dlsym()` failed; the emitter leaves it out and `bracelet-edges` does not.
-/
namespace Bracelet.DlsymWalks
open DlsymRuntime Edges

/-! ## The list is finite -/

/-- The pages from a link on are these, in order. -/
def Chain (pages : PageAddr → Option DlsymPage) : Option PageAddr → List PageAddr → Prop
  | none, l => l = []
  | some _, [] => False
  | some p, q :: l => p = q ∧ (pages p).isSome ∧ Chain pages (nextOf pages p) l

section
variable {pages pages' : PageAddr → Option DlsymPage}

theorem Chain.listed {head link : Option PageAddr} {l : List PageAddr} (h : Chain pages link l)
    (hlink : ∀ p, link = some p → OnList head pages p) : ∀ p ∈ l, OnList head pages p := by
  induction l generalizing link with
  | nil => simp
  | cons q l ih =>
    cases link with
    | none => cases h
    | some p =>
      obtain ⟨rfl, -, hrest⟩ := h
      have hp := hlink p rfl
      refine List.forall_mem_cons.mpr ⟨hp, ih hrest fun r hr => .next hp hr⟩

/-- What is on the list is in the chain. -/
theorem Chain.mem {head : Option PageAddr} {l : List PageAddr} (h : Chain pages head l)
    {p : PageAddr} (hp : OnList head pages p) : p ∈ l := by
  have hall : ∀ {link : Option PageAddr} {l : List PageAddr}, Chain pages link l →
      (∀ p, link = some p → p ∈ l) ∧ ∀ p ∈ l, ∀ q, nextOf pages p = some q → q ∈ l := by
    intro link l
    induction l generalizing link with
    | nil =>
      intro h
      cases link with
      | none => simp
      | some p => cases h
    | cons q l ih =>
      intro h
      cases link with
      | none => cases h
      | some p =>
        obtain ⟨rfl, -, hrest⟩ := h
        obtain ⟨hlink, hnext⟩ := ih hrest
        refine ⟨fun r hr => by simp [Option.some.inj hr], List.forall_mem_cons.mpr ⟨?_, ?_⟩⟩
        · exact fun r hr => List.mem_cons_of_mem _ (hlink r hr)
        · exact fun r hr s hs => List.mem_cons_of_mem _ (hnext r hr s hs)
  induction hp with
  | head hp => exact (hall h).1 _ hp
  | next _ hn ih => exact (hall h).2 _ ih _ hn

/-- The chain only depends on the pages in it. -/
theorem Chain.congr {link : Option PageAddr} {l : List PageAddr} (h : Chain pages link l)
    (hl : ∀ p ∈ l, (pages' p).isSome ∧ nextOf pages' p = nextOf pages p) :
    Chain pages' link l := by
  induction l generalizing link with
  | nil => cases link <;> exact h
  | cons q l ih =>
    cases link with
    | none => cases h
    | some p =>
      obtain ⟨rfl, -, hrest⟩ := h
      obtain ⟨hp, hl⟩ := List.forall_mem_cons.mp hl
      exact ⟨rfl, hp.1, hp.2 ▸ ih hrest hl⟩

end

section
variable {ι : Type} [DecidableEq ι] {symbol : ι → UInt64} {c d : Config ι} {i : ι}

/-- A step leaves the `next` pointers of the listed pages alone. -/
theorem nextOf_of_stepped (h : Stepped symbol c i d) (hc : Inv symbol c) {p : PageAddr}
    (hp : c.Listed p) : (d.pages p).isSome ∧ nextOf d.pages p = nextOf c.pages p := by
  obtain ⟨pg, hpg⟩ := h.listed_mapped hc p (h.listed_mono hc hp)
  refine ⟨by simp [hpg], ?_⟩
  cases h with
  | load _ | publish _ _ | lose _ _ => rfl
  | @claim q pg' _ hq _ | @overshoot q pg' _ hq _ | @store q _ pg' _ hq =>
    by_cases hpq : p = q
    · subst hpq
      simp [nextOf, Config.goto, Config.setPage, hq]
    · exact nextOf_update_ne hpq
  | @allocate page a _ ha =>
    exact nextOf_update_ne fun hpa : p = a => hc.unmapped_off ha (hpa ▸ hp)
  | @unmap a page hl =>
    exact nextOf_update_ne fun hpa : p = a => hc.owned_off i a (by simp [hl, Local.owned?]) (hpa ▸ hp)

theorem chain_of_stepped (h : Stepped symbol c i d) (hc : Inv symbol c) {l : List PageAddr}
    (hl : Chain c.pages c.head l) : ∃ l', Chain d.pages d.head l' := by
  have hkept : Chain d.pages c.head l :=
    hl.congr fun p hp => nextOf_of_stepped h hc (hl.listed (fun _ hq => .head hq) p hp)
  cases h with
  | @publish page a hca hh =>
    have hfresh := hc.publishing_fresh i page a hca
    exact ⟨a :: l, rfl, by simp [hfresh], by simpa [nextOf, hfresh, DlsymPage.fresh, ← hh] using hl⟩
  | _ => exact ⟨l, hkept⟩

/-- **The list of a reachable configuration is finite.** -/
theorem Reachable.chain (h : (machine symbol).Reachable c) : ∃ l, Chain c.pages c.head l := by
  have hboth : Inv symbol c ∧ ∃ l, Chain c.pages c.head l := by
    refine @Machine.Reachable.invariant _ _ (machine symbol)
      (fun c => Inv symbol c ∧ ∃ l, Chain c.pages c.head l) ?_ ?_ c h
    · exact ⟨inv_initial symbol, [], by simp [machine, initial, Chain]⟩
    · rintro c e d ⟨hc, l, hl⟩ hstep
      have hst := stepped_of_step hstep
      exact ⟨hst.inv hc, chain_of_stepped hst hc hl⟩
  exact hboth.2

end
/-! ## The pages in a snapshot -/

/-- A link as it lies in memory. -/
def linkWord : Option PageAddr → Address
  | none => 0
  | some p => UInt64.ofNat p

/-- The words of a page's slots. -/
def slots (pg : DlsymPage) : List Address := (List.range DLSYM_PAGE_NUM_POINTERS).map pg.pointers

/-- The slots below the count. -/
def claimed (pg : DlsymPage) : List Address := (slots pg).take (min pg.count DLSYM_PAGE_NUM_POINTERS)

/-- **The object is a snapshot of the configuration**: it has the head in the symbol at
`page_ptr`, and each listed page at its address, which is not null. -/
structure Snapshot {ι : Type} (obj : Object) (page_ptr : Address) (c : Config ι) : Prop where
  head : obj.resolvePointers 1 page_ptr = .ok [linkWord c.head]
  mapped : ∀ p, c.Listed p → 0 < p ∧ p < 2 ^ 64
  next : ∀ p pg, c.Listed p → c.pages p = some pg →
    obj.resolvePointers 1 (UInt64.ofNat p) = .ok [linkWord pg.next]
  count : ∀ p pg, c.Listed p → c.pages p = some pg →
    pg.count < 2 ^ 64 ∧ obj.copyData 8 (UInt64.ofNat p + 8) = .ok (leBytes 8 pg.count)
  pointers : ∀ p pg, c.Listed p → c.pages p = some pg →
    obj.resolvePointers DLSYM_PAGE_NUM_POINTERS (UInt64.ofNat p + 16) = .ok (slots pg)

/-- The pointers in the slots of these pages that the readers look at. -/
def pagePointers (pages : PageAddr → Option DlsymPage) (l : List PageAddr) : List Address :=
  l.flatMap fun p => ((pages p).map claimed).getD []

section
variable {ι : Type} {obj : Object} {page_ptr : Address} {c : Config ι} {σ : Type}

theorem linkWord_ne_zero (h : Snapshot obj page_ptr c) {p : PageAddr} (hp : c.Listed p) :
    linkWord (some p) ≠ 0 := by
  obtain ⟨hpos, hlt⟩ := h.mapped p hp
  intro h0
  have hnat : (UInt64.ofNat p).toNat = 0 := by
    rw [linkWord] at h0
    rw [h0]
    rfl
  rw [UInt64.toNat_ofNat', Nat.mod_eq_of_lt hlt] at hnat
  exact Nat.ne_of_gt hpos hnat

/-- **The walk visits the pointers of the chain in order**, and a step for each page is
enough. -/
theorem visitPages_chain (h : Snapshot obj page_ptr c) (visit : σ → Address → Result σ)
    {l : List PageAddr} {link : Option PageAddr} (hl : Chain c.pages link l)
    (hlink : ∀ p, link = some p → c.Listed p) {fuel : Nat} (hfuel : l.length < fuel) (s : σ) :
    visitPages obj visit fuel (linkWord link) s = (pagePointers c.pages l).foldlM visit s := by
  induction l generalizing link fuel s with
  | nil =>
    cases link with
    | some p => cases hl
    | none =>
      obtain ⟨fuel, rfl⟩ := Nat.exists_eq_succ_of_ne_zero (Nat.ne_of_gt hfuel)
      rfl
  | cons q l ih =>
    cases link with
    | none => cases hl
    | some p =>
      obtain ⟨rfl, hsome, hrest⟩ := hl
      obtain ⟨pg, hpg⟩ := Option.isSome_iff_exists.mp hsome
      obtain ⟨fuel, rfl⟩ := Nat.exists_eq_succ_of_ne_zero (Nat.ne_zero_of_lt hfuel)
      have hp := hlink p rfl
      have hnext : nextOf c.pages p = pg.next := by simp [nextOf, hpg]
      have hcount := h.count p pg hp hpg
      have hmod : ofLE (leBytes 8 pg.count) = pg.count := by
        rw [ofLE_leBytes]
        exact Nat.mod_eq_of_lt (by omega)
      have hpage : linkWord (some p) = UInt64.ofNat p := rfl
      rw [visitPages, if_neg (linkWord_ne_zero h hp), hpage, hcount.2, h.pointers p pg hp hpg,
        h.next p pg hp hpg]
      simp only [tryContext_ok, ok_bind, hmod, List.headD_cons]
      have hcons : pagePointers c.pages (p :: l) = claimed pg ++ pagePointers c.pages l := by
        simp [pagePointers, hpg]
      rw [hcons, List.foldlM_append, ← hnext]
      refine bind_congr fun s' => ?_
      exact ih hrest (fun r hr => .next hp hr) (by simp at hfuel; omega) s'

theorem visitPagesOf_chain (h : Snapshot obj page_ptr c) (hptr : Packable page_ptr)
    (visit : σ → Address → Result σ) {l : List PageAddr} (hl : Chain c.pages c.head l) {fuel : Nat}
    (hfuel : l.length < fuel) (s : σ) :
    visitPagesOf obj visit fuel (Edges.Node.ofSymbol page_ptr) s =
      (pagePointers c.pages l).foldlM visit s := by
  simp only [visitPagesOf, Edges.Node.local_idx_ofSymbol hptr, Option.isNone_none, ensure_true, ok_bind,
    Edges.Node.symbol_ofSymbol hptr, h.head, tryContext_ok, List.headD_cons]
  exact visitPages_chain h visit hl (fun _ hp => .head hp) hfuel s

/-- The pointers of the chain are those in visible slots. -/
theorem mem_pagePointers {l : List PageAddr} (hl : Chain c.pages c.head l) (s : Address) :
    s ∈ pagePointers c.pages l ↔
      ∃ p idx pg, c.Visible p idx ∧ c.pages p = some pg ∧ pg.pointers idx = s := by
  have hnum : numPointers = DLSYM_PAGE_NUM_POINTERS := rfl
  have hslot : ∀ pg : DlsymPage, s ∈ claimed pg ↔
      ∃ idx < min pg.count numPointers, pg.pointers idx = s := by
    intro pg
    have hmin : min (min pg.count DLSYM_PAGE_NUM_POINTERS) DLSYM_PAGE_NUM_POINTERS =
        min pg.count numPointers := by rw [hnum]; omega
    rw [claimed, slots, ← List.map_take, List.take_range, hmin]
    simp
  simp only [pagePointers, List.mem_flatMap, Config.Visible]
  constructor
  · rintro ⟨p, hp, hs⟩
    cases hpg : c.pages p with
    | none => simp [hpg] at hs
    | some pg =>
      obtain ⟨idx, hidx, hs⟩ := (hslot pg).mp (by simpa [hpg] using hs)
      exact ⟨p, idx, pg, ⟨hl.listed (fun _ hq => .head hq) p hp, pg, hpg, hidx⟩, hpg, hs⟩
  · rintro ⟨p, idx, pg, ⟨hp, pg', hpg', hidx⟩, hpg, hs⟩
    obtain rfl := Option.some_inj.mp (hpg'.symm.trans hpg)
    exact ⟨p, hl.mem hp, by simpa [hpg] using (hslot pg').mpr ⟨idx, hidx, hs⟩⟩

end
/-! ## What the readers write -/

/-- The node of the symbol at an address. -/
def IsSymbolNode (n : Edges.Node) (s : Address) : Prop :=
  n.valid = true ∧ n.local_idx = none ∧ n.symbol = s

/-- The symbols that a list of assignments assigns to a node. -/
def assigned (dest : Edges.Node) (lines : List (Edges.Node × Edges.Node)) : Set Address :=
  {s | ∃ line ∈ lines, line.1 = dest ∧ IsSymbolNode line.2 s}

theorem isSymbolNode_ofSymbol {s : Address} (h : Packable s) : IsSymbolNode (Edges.Node.ofSymbol s) s :=
  ⟨Edges.Node.valid_ofSymbol h, Edges.Node.local_idx_ofSymbol h, Edges.Node.symbol_ofSymbol h⟩

theorem IsSymbolNode.packable {n : Edges.Node} {s : Address} (h : IsSymbolNode n s) : Packable s := by
  obtain ⟨hv, hl, rfl⟩ := h
  exact Edges.Node.packable_symbol hv hl

/-- The symbols of the nodes of pointers that fit into nodes are the pointers. -/
theorem assigned_ofSymbol {dest : Edges.Node} {pointers : List Address}
    (h : ∀ p ∈ pointers, Packable p) :
    assigned dest (pointers.map fun p => (dest, Edges.Node.ofSymbol p)) = {s | s ∈ pointers} := by
  ext s
  simp only [assigned, Set.mem_ofPred_eq, List.mem_map]
  constructor
  · rintro ⟨_, ⟨p, hp, rfl⟩, -, hsym⟩
    have hps : p = s := by
      rw [← hsym.2.2]
      exact (Edges.Node.symbol_ofSymbol (h p hp)).symm
    exact hps ▸ hp
  · exact fun hs => ⟨_, ⟨s, hs, rfl⟩, rfl, isSymbolNode_ofSymbol (h s hs)⟩

/-! ### The statements of the C emitter -/

section
variable (asserts : Bool) (obj : Object) (fi : FunctionInfo)

/-- The statement for a pointer of a page, as the node it assigns to and the value. -/
def emitPointer (dlsym_output : Edges.Node) (lines : List (Edges.Node × Edges.Node)) (pointer : Address) :
    Result (List (Edges.Node × Edges.Node)) :=
  if pointer = 0 then .ok lines else do
    -- a local is rendered in its own function only
    assert asserts (dlsym_output.local_idx.isNone || dlsym_output.symbol == fi.function.symbol)
    let symbol ← Edges.Node.mkSymbol asserts pointer
    return lines ++ [(dlsym_output, symbol)]

/-- The statements for a `DlsymPagePointer` edge. -/
def emitPages (fuel : Nat) (E : Edge) : Result (List (Edges.Node × Edges.Node)) :=
  visitPagesOf obj (emitPointer asserts fi E.to_node) fuel E.from_node []

end

section
variable {asserts : Bool} {fi : FunctionInfo} {dest : Edges.Node}

/-- The statements are for the pointers that are not null. -/
theorem emitPointers_ok {pointers : List Address} {lines lines' : List (Edges.Node × Edges.Node)}
    (h : pointers.foldlM (emitPointer asserts fi dest) lines = .ok lines') :
    lines' = lines ++ (pointers.filter (· ≠ 0)).map fun p => (dest, Edges.Node.ofSymbol p) := by
  induction pointers generalizing lines with
  | nil => simpa using (Except.ok.inj h).symm
  | cons p pointers ih =>
    rw [List.foldlM_cons] at h
    obtain ⟨lines₁, hp, h⟩ := bind_ok h
    rw [ih h]
    unfold emitPointer at hp
    split at hp
    next h0 =>
      obtain rfl := Except.ok.inj hp
      simp [h0]
    next h0 =>
      obtain ⟨symbol, hsymbol, hp⟩ := bind_ok (assert_bind hp)
      obtain rfl := Except.ok.inj hp
      rw [Edges.Node.mkSymbol_ok hsymbol]
      simp [h0]

theorem emitPointers_exists (hdest : dest.local_idx.isNone ∨ dest.symbol = fi.function.symbol)
    {pointers : List Address} (h : ∀ p ∈ pointers, Packable p) (lines : List (Edges.Node × Edges.Node)) :
    ∃ lines', pointers.foldlM (emitPointer asserts fi dest) lines = .ok lines' := by
  induction pointers generalizing lines with
  | nil => exact ⟨lines, rfl⟩
  | cons p pointers ih =>
    obtain ⟨hp, hrest⟩ := List.forall_mem_cons.mp h
    have hcheck : (dest.local_idx.isNone || dest.symbol == fi.function.symbol) = true := by
      simpa using hdest
    rw [List.foldlM_cons]
    by_cases h0 : p = 0
    · simpa [emitPointer, h0] using ih hrest lines
    · simpa [emitPointer, h0, hcheck, Edges.Node.mkSymbol_eq hp, pure, Except.pure] using ih hrest _

end

/-! ### The edges of bracelet-edges -/

section
variable {asserts : Bool} {env : EdgeOutput} {fi : FunctionInfo} {dest : Edges.Node}

/-- The `Assign` edges of a directory. -/
def assignLines (v : EdgeOutputVisitor) : List (Edges.Node × Edges.Node) :=
  (v.tables.OutputTables .Assign).map fun e => (e.to_node, e.from_node)

theorem visitPointer_ok {v v' : EdgeOutputVisitor} {p : Address}
    (h : EdgeOutputVisitor.visitPointer asserts env fi dest v p = .ok v') :
    assignLines v' = assignLines v ++ [(dest, Edges.Node.ofSymbol p)] := by
  obtain ⟨symbol, hsymbol, h⟩ := bind_ok (tryContext_eq_ok h)
  obtain ⟨e, he, h⟩ := bind_ok h
  have he := assert_bind (assert_bind he)
  obtain rfl := Except.ok.inj he
  obtain rfl := Edges.Node.mkSymbol_ok hsymbol
  simp [assignLines, EdgeOutputVisitor.printEdge_OutputTables h]

/-- The edges are for all pointers. -/
theorem visitPointers_ok {pointers : List Address} {v v' : EdgeOutputVisitor}
    (h : pointers.foldlM (EdgeOutputVisitor.visitPointer asserts env fi dest) v = .ok v') :
    assignLines v' = assignLines v ++ pointers.map fun p => (dest, Edges.Node.ofSymbol p) := by
  induction pointers generalizing v with
  | nil => simpa using congrArg assignLines (Except.ok.inj h).symm
  | cons p pointers ih =>
    rw [List.foldlM_cons] at h
    obtain ⟨v₁, hp, h⟩ := bind_ok h
    rw [ih h, visitPointer_ok hp]
    simp

theorem visitPointers_exists (hvalid : dest.valid = true)
    (hinfo : ∃ info, nodeInfo asserts env fi dest = .ok info) {pointers : List Address}
    (h : ∀ p ∈ pointers, Packable p) (v : EdgeOutputVisitor) :
    ∃ v', pointers.foldlM (EdgeOutputVisitor.visitPointer asserts env fi dest) v = .ok v' := by
  induction pointers generalizing v with
  | nil => exact ⟨v, rfl⟩
  | cons p pointers ih =>
    obtain ⟨hp, hrest⟩ := List.forall_mem_cons.mp h
    obtain ⟨v₁, h₁⟩ := EdgeOutputVisitor.printEdge_exists v .Assign
      (e := ⟨dest, Edges.Node.ofSymbol p, 0⟩) hinfo
      (nodeInfo_symbol asserts env fi (Edges.Node.local_idx_ofSymbol hp))
    have hstep : EdgeOutputVisitor.visitPointer asserts env fi dest v p = .ok v₁ := by
      simp [EdgeOutputVisitor.visitPointer, Edges.Node.mkSymbol_eq hp, mkEdge, hvalid,
        Edges.Node.valid_ofSymbol hp, h₁, pure, Except.pure]
    rw [List.foldlM_cons, hstep]
    exact ih hrest v₁

end

/-! ## The readers agree -/

section
variable {ι : Type} (asserts : Bool) (env : EdgeOutput) (fi : FunctionInfo)
  (v : EdgeOutputVisitor) (E : Edge) (page_ptr : Address)

/-- The edge is a `DlsymPagePointer` edge of the function, and its output node can be
described. -/
structure PagePointerEdge : Prop where
  valid : E.to_node.valid = true
  local_of : E.to_node.local_idx.isNone ∨ E.to_node.symbol = fi.function.symbol
  described : ∃ info, nodeInfo asserts env fi E.to_node = .ok info
  from_node : E.from_node = Edges.Node.ofSymbol page_ptr
  packable : Packable page_ptr

/-- The pointers that are stored in slots below the counts of the listed pages. -/
def stored (c : Config ι) : Set Address :=
  {s | s ≠ 0 ∧ ∃ p idx pg, c.Visible p idx ∧ c.pages p = some pg ∧ pg.pointers idx = s}

/-- **The readers agree**: with enough steps both walks come to an end without an error,
and the symbols that the new `Assign` edges assign to the output node, those that the
statements assign to it, and the stored pointers are the same. -/
def ReadersAgree (c : Config ι) : Prop :=
  ∃ n, ∀ fuel ≥ n, ∃ v' lines statements,
    v.visit_edge_inner asserts env fi fuel .DlsymPagePointer E = .ok v' ∧
    assignLines v' = assignLines v ++ lines ∧
    emitPages asserts env.obj fi fuel E = .ok statements ∧
    assigned E.to_node lines = stored c ∧ assigned E.to_node statements = stored c

end

section
variable {ι : Type} {asserts : Bool} {env : EdgeOutput} {fi : FunctionInfo}
  {v : EdgeOutputVisitor} {E : Edge} {page_ptr : Address} {c : Config ι}

/-- What the walk of `bracelet-edges` writes for the pointers of a chain. -/
theorem visit_pages_ok (hE : PagePointerEdge asserts env fi E page_ptr)
    (hs : Snapshot env.obj page_ptr c) {l : List PageAddr} (hl : Chain c.pages c.head l)
    {fuel : Nat} (hfuel : l.length < fuel) {v' : EdgeOutputVisitor}
    (h : v.visit_edge_inner asserts env fi fuel .DlsymPagePointer E = .ok v') :
    assignLines v' = assignLines v ++
      (pagePointers c.pages l).map fun p => (E.to_node, Edges.Node.ofSymbol p) := by
  obtain ⟨v₁, h₁, h⟩ := bind_ok h
  rw [hE.from_node, visitPagesOf_chain hs hE.packable _ hl hfuel] at h₁
  rw [← visitPointers_ok h₁]
  simp [assignLines, EdgeOutputVisitor.printEdge_OutputTables h]

/-- **Both walks end without an error when the pointers fit into nodes.** -/
theorem walks_exist (hE : PagePointerEdge asserts env fi E page_ptr)
    (hs : Snapshot env.obj page_ptr c) {l : List PageAddr} (hl : Chain c.pages c.head l)
    (hp : ∀ p ∈ pagePointers c.pages l, Packable p) {fuel : Nat} (hfuel : l.length < fuel) :
    ∃ v' statements, v.visit_edge_inner asserts env fi fuel .DlsymPagePointer E = .ok v' ∧
      emitPages asserts env.obj fi fuel E = .ok statements := by
  obtain ⟨v₁, h₁⟩ := visitPointers_exists hE.valid hE.described hp v
  have hfrom : ∃ info, nodeInfo asserts env fi E.from_node = .ok info :=
    nodeInfo_symbol asserts env fi (hE.from_node ▸ Edges.Node.local_idx_ofSymbol hE.packable)
  obtain ⟨v', hv'⟩ := EdgeOutputVisitor.printEdge_exists v₁ .DlsymPagePointer hE.described hfrom
  obtain ⟨statements, hst⟩ : ∃ statements,
      (pagePointers c.pages l).foldlM (emitPointer asserts fi E.to_node) [] = .ok statements :=
    emitPointers_exists hE.local_of hp []
  refine ⟨v', statements, ?_, ?_⟩
  · simp only [EdgeOutputVisitor.visit_edge_inner]
    rw [hE.from_node, visitPagesOf_chain hs hE.packable _ hl hfuel, h₁, ok_bind]
    exact hv'
  · rw [emitPages, hE.from_node, visitPagesOf_chain hs hE.packable _ hl hfuel]
    exact hst

/-- **The readers agree exactly when no pointer they look at is null** or too wide for a
node. -/
theorem readersAgree_iff_of_chain (hE : PagePointerEdge asserts env fi E page_ptr)
    (hs : Snapshot env.obj page_ptr c) {l : List PageAddr} (hl : Chain c.pages c.head l) :
    ReadersAgree asserts env fi v E c ↔
      ∀ p ∈ pagePointers c.pages l, p ≠ 0 ∧ Packable p := by
  have hstored : stored c = {s | s ≠ 0 ∧ s ∈ pagePointers c.pages l} := by
    ext s
    simp [stored, mem_pagePointers hl]
  constructor
  · rintro ⟨n, hagree⟩ p hp
    obtain ⟨v', lines, statements, hvisit, hlines, -, hsame, -⟩ :=
      hagree (max n (l.length + 1)) (le_max_left _ _)
    have hwrote := visit_pages_ok hE hs hl (lt_of_lt_of_le (Nat.lt_succ_self _) (le_max_right n _))
      hvisit
    obtain rfl := List.append_cancel_left (hlines.symm.trans hwrote)
    have hpack : ∀ s, s ∈ stored c → Packable s := by
      intro s hs
      rw [← hsame] at hs
      obtain ⟨_, _, -, hsym⟩ := hs
      exact hsym.packable
    by_cases h0 : p = 0
    · -- a null pointer is written as the symbol at address zero
      exfalso
      have hmem : (0 : Address) ∈ stored c := by
        rw [← hsame]
        have hzero : Packable 0 := by simp [Packable]
        refine ⟨_, List.mem_map.mpr ⟨p, hp, rfl⟩, rfl, ?_⟩
        rw [h0]
        exact isSymbolNode_ofSymbol hzero
      exact hmem.1 rfl
    · exact ⟨h0, hpack p (by rw [hstored]; exact ⟨h0, hp⟩)⟩
  · intro h
    refine ⟨l.length + 1, fun fuel hfuel => ?_⟩
    obtain ⟨v', statements, hvisit, hemit⟩ := walks_exist (v := v) hE hs hl (fun p hp => (h p hp).2) hfuel
    have hstatements := hemit
    rw [emitPages, hE.from_node, visitPagesOf_chain hs hE.packable _ hl hfuel] at hstatements
    have hfilter : (pagePointers c.pages l).filter (· ≠ 0) = pagePointers c.pages l :=
      List.filter_eq_self.mpr fun p hp => by simpa using (h p hp).1
    have hlines := emitPointers_ok hstatements
    rw [hfilter, List.nil_append] at hlines
    have hset : {s | s ∈ pagePointers c.pages l} = stored c := by
      rw [hstored]
      ext s
      exact ⟨fun hs => ⟨(h s hs).1, hs⟩, fun hs => hs.2⟩
    have hassigned : assigned E.to_node ((pagePointers c.pages l).map fun p =>
        (E.to_node, Edges.Node.ofSymbol p)) = {s | s ∈ pagePointers c.pages l} :=
      assigned_ofSymbol fun p hp => (h p hp).2
    exact ⟨v', _, statements, hvisit, visit_pages_ok hE hs hl hfuel hvisit, hemit,
      hassigned.trans hset, hlines ▸ hassigned.trans hset⟩

/-- **The readers of a reachable configuration agree exactly when every slot they look
at holds the address of a symbol**: no null pointer, and none that a node has no room
for. -/
theorem readersAgree_iff [DecidableEq ι] {symbol : ι → UInt64}
    (h : (machine symbol).Reachable c) (hE : PagePointerEdge asserts env fi E page_ptr)
    (hs : Snapshot env.obj page_ptr c) :
    ReadersAgree asserts env fi v E c ↔ ∀ p idx pg, c.Visible p idx → c.pages p = some pg →
      pg.pointers idx ≠ 0 ∧ Packable (pg.pointers idx) := by
  obtain ⟨l, hl⟩ := Reachable.chain h
  rw [readersAgree_iff_of_chain hE hs hl]
  constructor
  · intro hall p idx pg hv hpg
    exact hall _ ((mem_pagePointers hl _).mpr ⟨p, idx, pg, hv, hpg, rfl⟩)
  · intro hall s hmem
    obtain ⟨p, idx, pg, hv, hpg, rfl⟩ := (mem_pagePointers hl s).mp hmem
    exact hall p idx pg hv hpg

end

/-! ## A snapshot between a claim and its store -/

/-- The memory of a configuration as an object. -/
def snapshotOf {ι : Type} (c : Config ι) (page_ptr : Address) : Object where
  isApple := false
  sections := []
  copyData _ addr :=
    match c.pages (addr - 8).toNat with
    | some pg => .ok (leBytes 8 pg.count)
    | none => .error (.error ["Invalid load address"])
  resolvePointers count addr :=
    if count = 1 ∧ addr = page_ptr then .ok [linkWord c.head]
    else
      match c.pages (if count = 1 then addr else addr - 16).toNat with
      | some pg => .ok (if count = 1 then [linkWord pg.next] else slots pg)
      | none => .error (.error ["Invalid load address"])

theorem snapshot_snapshotOf {ι : Type} {c : Config ι} {page_ptr : Address}
    (h : ∀ p pg, c.Listed p → c.pages p = some pg →
      0 < p ∧ p < 2 ^ 64 ∧ p ≠ page_ptr.toNat ∧ pg.count < 2 ^ 64)
    (hmapped : ∀ p, c.Listed p → (c.pages p).isSome) :
    Snapshot (snapshotOf c page_ptr) page_ptr c := by
  have hnat : ∀ p pg, c.Listed p → c.pages p = some pg → (UInt64.ofNat p).toNat = p := by
    intro p pg hp hpg
    rw [UInt64.toNat_ofNat']
    exact Nat.mod_eq_of_lt (h p pg hp hpg).2.1
  refine ⟨by simp [snapshotOf], ?_, ?_, ?_, ?_⟩
  · intro p hp
    obtain ⟨pg, hpg⟩ := Option.isSome_iff_exists.mp (hmapped p hp)
    exact ⟨(h p pg hp hpg).1, (h p pg hp hpg).2.1⟩
  · intro p pg hp hpg
    have hne : UInt64.ofNat p ≠ page_ptr := fun he =>
      (h p pg hp hpg).2.2.1 (he ▸ (hnat p pg hp hpg).symm)
    simp [snapshotOf, hne, hnat p pg hp hpg, hpg]
  · intro p pg hp hpg
    refine ⟨(h p pg hp hpg).2.2.2, ?_⟩
    simp [snapshotOf, hnat p pg hp hpg, hpg]
  · intro p pg hp hpg
    simp [snapshotOf, DLSYM_PAGE_NUM_POINTERS, hnat p pg hp hpg, hpg]

/-- A call that maps the first page at `0x10000`, claims its first slot and stores. -/
def firstCall : List (Event Unit) := List.replicate 5 ⟨(), 0x10000⟩

def firstSymbol (_ : Unit) : UInt64 := 0x401000

/-- After so many steps the page is mapped, and the call has claimed its slot. -/
theorem run_firstCall {n : Nat} (hn : n = 4 ∨ n = 5) :
    ∃ c, (machine firstSymbol).Reachable c ∧ c.head = some 0x10000 ∧ ∃ pg,
      c.pages 0x10000 = some pg ∧ pg.next = none ∧ pg.count = 1 ∧
        pg.pointers 0 = if n = 4 then 0 else 0x401000 := by
  have hrun : ((machine firstSymbol).run initial (firstCall.take n)).map (fun c =>
      (c.head, (c.pages 0x10000).map fun pg => (pg.next, pg.count, pg.pointers 0))) =
        some (some 0x10000, some (none, 1, if n = 4 then 0 else 0x401000)) := by
    rcases hn with rfl | rfl <;> decide
  obtain ⟨c, hc, hview⟩ := Option.map_eq_some_iff.mp hrun
  rw [Prod.mk.injEq] at hview
  obtain ⟨pg, hpg, hpage⟩ := Option.map_eq_some_iff.mp hview.2
  simp only [Prod.mk.injEq] at hpage
  exact ⟨c, ⟨_, hc⟩, hview.1, pg, hpg, hpage⟩

/-- A function with one local, the output of its only `dlsym` call. -/
def callingFunction : FunctionInfo where
  function := Edges.Node.ofSymbol 0x1000
  num_allocas := 0
  num_locals := 1
  debug_data := ⟨[], none, []⟩
  sbom_info := none
  edge_data _ := []
  symbol_addresses := []

def pagesEdge : Edge := ⟨Edges.Node.ofLocal 0x1000 0, Edges.Node.ofSymbol 0x4000, 0⟩

def snapshotEnv (obj : Object) : EdgeOutput := ⟨obj, fun _ => .ok (ascii "f"), none, false⟩

theorem pagesEdge_ok (obj : Object) :
    PagePointerEdge true (snapshotEnv obj) callingFunction pagesEdge 0x4000 where
  valid := by decide
  local_of := Or.inr (by decide)
  described := ⟨_, rfl⟩
  from_node := rfl
  packable := by simp [Packable]

theorem listed_single {ι : Type} {c : Config ι} {a : PageAddr} {pg : DlsymPage}
    (hhead : c.head = some a) (hpg : c.pages a = some pg) (hnext : pg.next = none) {p : PageAddr}
    (hp : c.Listed p) : p = a := by
  induction hp with
  | head h => exact Option.some.inj (h.symm.trans hhead)
  | next _ hn ih =>
    subst ih
    simp [nextOf, hpg, hnext] at hn

theorem snapshot_single {c : Config Unit} {pg : DlsymPage} (hhead : c.head = some 0x10000)
    (hpg : c.pages 0x10000 = some pg) (hnext : pg.next = none) (hcount : pg.count = 1) :
    Snapshot (snapshotOf c 0x4000) 0x4000 c := by
  apply snapshot_snapshotOf
  · intro p pg' hp hpg'
    obtain rfl := listed_single hhead hpg hnext hp
    obtain rfl := Option.some_inj.mp (hpg.symm.trans hpg')
    exact ⟨by decide, by decide, by decide, by rw [hcount]; decide⟩
  · intro p hp
    obtain rfl := listed_single hhead hpg hnext hp
    simp [hpg]

/-- Once the call has stored, the readers agree. -/
theorem readersAgree_iff_firstCall : ∃ c, (machine firstSymbol).Reachable c ∧
    ReadersAgree true (snapshotEnv (snapshotOf c 0x4000)) callingFunction ⟨[], {}⟩ pagesEdge c := by
  obtain ⟨c, hreach, hhead, pg, hpg, hnext, hcount, hstored⟩ := run_firstCall (Or.inr rfl)
  refine ⟨c, hreach, (readersAgree_iff hreach (pagesEdge_ok _)
    (snapshot_single hhead hpg hnext hcount)).mpr ?_⟩
  rintro p idx pg' ⟨hp, pg'', hpg'', hidx⟩ hpg'
  obtain rfl := listed_single hhead hpg hnext hp
  obtain rfl := Option.some_inj.mp (hpg''.symm.trans hpg')
  obtain rfl := Option.some_inj.mp (hpg.symm.trans hpg'')
  rw [hcount] at hidx
  have hidx0 : idx = 0 := Nat.lt_one_iff.mp (lt_of_lt_of_le hidx (min_le_left _ _))
  rw [hidx0, hstored]
  simp [Packable]

/-- Between its claim and its store, they do not: `bracelet-edges` writes an edge from the
symbol at address zero. -/
theorem claimed_slot_disagrees : ∃ c, (machine firstSymbol).Reachable c ∧
    Snapshot (snapshotOf c 0x4000) 0x4000 c ∧
    PagePointerEdge true (snapshotEnv (snapshotOf c 0x4000)) callingFunction pagesEdge 0x4000 ∧
    ¬ ReadersAgree true (snapshotEnv (snapshotOf c 0x4000)) callingFunction ⟨[], {}⟩ pagesEdge c := by
  obtain ⟨c, hreach, hhead, pg, hpg, hnext, hcount, hnull⟩ := run_firstCall (Or.inl rfl)
  have hsnap := snapshot_single hhead hpg hnext hcount
  refine ⟨c, hreach, hsnap, pagesEdge_ok _, fun hagree => ?_⟩
  obtain ⟨l, hl⟩ := Reachable.chain hreach
  have hall := (readersAgree_iff_of_chain (pagesEdge_ok _) hsnap hl).mp hagree
  have hvisible : c.Visible 0x10000 0 := ⟨.head hhead, pg, hpg, by rw [hcount]; decide⟩
  exact (hall _ ((mem_pagePointers hl _).mpr ⟨_, 0, pg, hvisible, hpg, hnull⟩)).1 rfl

end Bracelet.DlsymWalks
