import Bracelet.Dict
import Bracelet.EdgeCodecs
import Bracelet.EdgeReader
import Bracelet.PointsTo
import Bracelet.TraceRuntime

/-!
# Checking the points-to graph against traces

`checkPointsToAgainstTrace` reads the trace files of a program that has dumped its core: the
trace sites are in sections of the core dump, and a traced value is a trace site too or lies in a
symbol, which LLDB is asked for.  Every traced edge has to be one of the static points-to graph.

`check_iff_covered` says what a check that passes means for the calls of `traceWord` that the
threads of the program have made.
-/
namespace Bracelet.Edges.TraceChecks
open PointsTo (hex16)
open EdgeHashSet (BraceletTraceEdge Table)
open TraceFiles (checkPointsToAgainstTrace_edges persisted)

/-! ## The trace sites -/

structure BraceletTraceSite where
  function : Address
  local_idx : UInt32

/-- `sizeof(BraceletTraceSite)` -/
def sizeofTraceSite : Nat := 16

def BraceletTraceSite.load (obj : Object) (ptr : Address) : Result BraceletTraceSite := do
  let out ← tryContext (obj.copyData sizeofTraceSite ptr) "Initial copy of BraceletTraceSite"
  let function ← obj.resolvePointers 1 ptr
  return ⟨function.headD 0, UInt32.ofNat (ofLE ((out.drop 8).take 4))⟩

def trace_site_section_name (is_apple : Bool) : String :=
  if is_apple then "__DATA,__GR_trace_site" else "GR_trace_site"

/-- LLDB's answer for an address.  A start that is not valid is `none`. -/
inductive Resolved
  | invalid
  | noSymbol
  | symbol (start : Option Address)

/-- A core dump. -/
structure Core where
  obj : Object
  symbolName : Address → Result Bytes
  ResolveLoadAddress : Address → Resolved

section
variable (asserts : Bool) (core : Core)

/-- The node of the trace site at an address. -/
def siteNode (addr : Address) : Result Node := do
  let ts ← tryContext (BraceletTraceSite.load core.obj addr)
    s!"Loading BraceletTraceSite at 0x{hex16 addr}"
  Node.mkLocal asserts ts.function ts.local_idx.toUInt64

/-- The trace sites of a section, from an address on. -/
def sites_from (section_end : Address) :
    Nat → Address → List (Address × Node) → Result (List (Address × Node))
  | 0, _, _ => .error .diverges
  | fuel + 1, addr, trace_sites =>
    if addr + UInt64.ofNat sizeofTraceSite ≤ section_end then do
      let node ← siteNode asserts core addr
      sites_from section_end fuel (addr + UInt64.ofNat sizeofTraceSite)
        (Dict.set trace_sites addr node)
    else .ok trace_sites

def visitSection (trace_sites : List (Address × Node)) (s : Section) :
    Result (List (Address × Node)) :=
  if s.name != trace_site_section_name core.obj.isApple then .ok trace_sites
  -- so many steps only if the address wraps around for ever
  else sites_from asserts core (s.start + UInt64.ofNat s.size) (2 ^ 60 + 1) s.start trace_sites

def trace_sites : Result (List (Address × Node)) :=
  tryContext (core.obj.sections.foldlM (visitSection asserts core) []) "Parsing tracesites"

/-! ## The check -/

section
variable (Z : Zstd) (V : StreamVByte)

def debug_names : Result (List (Node × Bytes)) :=
  readEdges asserts Z V core.obj (fun debug_names (fi : FunctionInfo) =>
    if !fi.debug_data.has_locals then .ok debug_names
    else (List.range fi.num_locals.toNat).foldlM (fun debug_names i => do
      let name ← fi.debug_data.local_name i
      let node ← Node.mkLocal asserts fi.function.symbol (UInt64.ofNat i)
      return Dict.set debug_names node name) debug_names) []

def print (debug_names : List (Node × Bytes)) (n : Node) : Result Bytes := do
  let name ← core.symbolName n.symbol
  match n.local_idx with
  | none => return name
  | some local_idx =>
    return name ++ ascii ":" ++ (Dict.get? debug_names n).getD (ascii s!"<{local_idx}>")

/-- The node of a traced value, if the edge is to be checked, and what is printed. -/
def valueNode (trace_sites : List (Address × Node)) (trace_site_node : Node) (value : Address) :
    Result (Option Node × Bytes) :=
  match Dict.get? trace_sites value with
  | some value_node => .ok (some value_node, [])
  | none =>
    match core.ResolveLoadAddress value with
    | .invalid => .ok (none, ascii s!"WARNING: cannot resolve address {value}\n")
    | .symbol none =>
      .error (.error [s!"Cannot get start address from address 0x{hex16 value}"])
    | .symbol (some symbol_start) => do
      let value_node ← Node.mkSymbol asserts symbol_start
      return (some value_node, [])
    | .noSymbol => do
      let names ← debug_names asserts core Z V
      let text ← print core names trace_site_node
      return (none, text ++ ascii s!"WARNING: get symbol from address {value}\n")

structure State where
  missing_edges : List (Node × Node) := []
  trace_edge_count : Nat := 0
  cerr : Bytes := []

variable (static_edges : List (Node × Node))

def checkEdge (trace_sites : List (Address × Node)) (st : State) (e : BraceletTraceEdge) :
    Result State :=
  match Dict.get? trace_sites e.trace_site with
  | none => .error (.error [s!"Cannot find trace site 0x{hex16 e.trace_site}"])
  | some trace_site_node => do
    let (value_node, text) ← valueNode asserts core Z V trace_sites trace_site_node e.value
    let st := { st with cerr := st.cerr ++ text }
    match value_node with
    | none => return st
    | some value_node =>
      let st := { st with trace_edge_count := st.trace_edge_count + 1 }
      if (trace_site_node, value_node) ∈ static_edges then return st
      else return { st with
        missing_edges := st.missing_edges.insert (trace_site_node, value_node) }

/-- The names of a missing edge. -/
def printMissing (names : List (Node × Bytes)) (edge : Node × Node) : Result Unit := do
  let _ ← print core names edge.1
  let _ ← print core names edge.2
  return

/-- Returns what is printed.  What is printed of missing edges is left out; to print them may
fail. -/
def checkPointsToAgainstTrace (traces_dir : List (List UInt8)) : Result Bytes := do
  let sites ← trace_sites asserts core
  let st ← (checkPointsToAgainstTrace_edges traces_dir).foldlM
    (checkEdge asserts core Z V static_edges sites) {}
  if st.missing_edges != [] then do
    let names ← debug_names asserts core Z V
    st.missing_edges.forM (printMissing core names)
  ensure (st.missing_edges == [])
    s!"Missing {st.missing_edges.length}/{st.trace_edge_count} edges"
  return st.cerr ++ ascii s!"All {st.trace_edge_count} edges were found\n"

end

/-! ## The sites that are found -/

/-- The addresses of the trace sites of a section. -/
def siteAddresses (s : Section) : List Address :=
  if s.name != trace_site_section_name core.obj.isApple then []
  else (List.range (s.size / sizeofTraceSite)).map fun i =>
    s.start + UInt64.ofNat (sizeofTraceSite * i)

/-- All trace sites of the core dump. -/
def allSites : List Address := core.obj.sections.flatMap (siteAddresses core)

def recordSite (trace_sites : List (Address × Node)) (addr : Address) :
    Result (List (Address × Node)) := do
  let node ← siteNode asserts core addr
  return Dict.set trace_sites addr node

/-- No section of trace sites reaches the last bytes of the address space. -/
def NoWrap : Prop :=
  ∀ s ∈ core.obj.sections, s.name = trace_site_section_name core.obj.isApple →
    s.start.toNat + s.size + sizeofTraceSite < 2 ^ 64

variable {asserts core}

theorem toNat_add_site (addr : Address) (h : addr.toNat + sizeofTraceSite < 2 ^ 64) :
    (addr + UInt64.ofNat sizeofTraceSite).toNat = addr.toNat + sizeofTraceSite := by
  rw [UInt64.toNat_add, UInt64.toNat_ofNat_of_lt' (by decide), Nat.mod_eq_of_lt h]

/-- The loop over a section visits its trace sites. -/
theorem sites_from_eq {section_end : Address}
    (hend : section_end.toNat + sizeofTraceSite < 2 ^ 64) :
    ∀ (n fuel : Nat) {addr : Address} (sites : List (Address × Node)), n < fuel →
    addr.toNat + sizeofTraceSite * n ≤ section_end.toNat →
    section_end.toNat < addr.toNat + sizeofTraceSite * (n + 1) →
    sites_from asserts core section_end fuel addr sites =
      ((List.range n).map fun i => addr + UInt64.ofNat (sizeofTraceSite * i)).foldlM
        (recordSite asserts core) sites := by
  intro n
  induction n with
  | zero =>
    intro fuel addr sites hfuel hle hlt
    obtain ⟨fuel, rfl⟩ := Nat.exists_eq_add_one_of_ne_zero (Nat.ne_of_gt hfuel)
    have hnext := toNat_add_site addr (by omega)
    rw [Nat.mul_one] at hlt
    rw [sites_from, if_neg (by rw [UInt64.le_iff_toNat_le, hnext]; omega)]
    rfl
  | succ n ih =>
    intro fuel addr sites hfuel hle hlt
    obtain ⟨fuel, rfl⟩ := Nat.exists_eq_add_one_of_ne_zero (Nat.ne_of_gt (Nat.zero_lt_of_lt hfuel))
    rw [Nat.mul_succ] at hle hlt
    have hnext := toNat_add_site addr (by omega)
    rw [sites_from, if_pos (by rw [UInt64.le_iff_toNat_le, hnext]; omega)]
    have hshift : ∀ i, addr + UInt64.ofNat (sizeofTraceSite * (i + 1)) =
        addr + UInt64.ofNat sizeofTraceSite + UInt64.ofNat (sizeofTraceSite * i) := by
      intro i
      rw [Nat.mul_succ, Nat.add_comm, UInt64.ofNat_add, UInt64.add_assoc]
    rw [List.range_succ_eq_map, List.map_cons, List.map_map, List.foldlM_cons]
    simp only [Function.comp_def, Nat.succ_eq_add_one, hshift, Nat.mul_zero,
      show UInt64.ofNat 0 = 0 from rfl, UInt64.add_zero, recordSite, bind_assoc, pure_bind]
    congr 1
    funext node
    exact ih fuel _ (by omega) (by omega) (by omega)

theorem foldlM_flatMap {ε α β σ : Type} (f : α → List β) (step : σ → β → Except ε σ) (l : List α)
    (s : σ) : (l.flatMap f).foldlM step s = l.foldlM (fun s a => (f a).foldlM step s) s := by
  induction l generalizing s with
  | nil => rfl
  | cons a l ih => simp only [List.flatMap_cons, List.foldlM_append, List.foldlM_cons, ih]

theorem visitSection_eq {s : Section} (h : s.name = trace_site_section_name core.obj.isApple →
    s.start.toNat + s.size + sizeofTraceSite < 2 ^ 64) (sites : List (Address × Node)) :
    visitSection asserts core sites s =
      (siteAddresses core s).foldlM (recordSite asserts core) sites := by
  unfold visitSection siteAddresses
  split
  · rfl
  · rename_i hname
    have hbound := h (by simpa using hname)
    have hsize : s.start.toNat + s.size < 2 ^ 64 := by omega
    have hto : (s.start + UInt64.ofNat s.size).toNat = s.start.toNat + s.size := by
      rw [UInt64.toNat_add,
        UInt64.toNat_ofNat_of_lt' (Nat.lt_of_le_of_lt (Nat.le_add_left ..) hsize),
        Nat.mod_eq_of_lt hsize]
    have hdiv := Nat.div_add_mod s.size sizeofTraceSite
    have hmod := Nat.mod_lt s.size (show 0 < sizeofTraceSite by decide)
    refine sites_from_eq (by omega) (s.size / sizeofTraceSite) _ sites ?_ ?_ ?_
    · rw [sizeofTraceSite] at *
      omega
    · omega
    · rw [Nat.mul_succ]
      omega

theorem trace_sites_eq (hwrap : NoWrap core) : trace_sites asserts core =
    tryContext ((allSites core).foldlM (recordSite asserts core) []) "Parsing tracesites" := by
  have hvisit : ∀ (l : List Section) (sites : List (Address × Node)),
      (∀ s ∈ l, s ∈ core.obj.sections) → l.foldlM (visitSection asserts core) sites =
        l.foldlM (fun sites s => (siteAddresses core s).foldlM (recordSite asserts core) sites)
          sites := by
    intro l
    induction l with
    | nil => exact fun _ _ => rfl
    | cons s l ih =>
      intro sites hl
      rw [List.foldlM_cons, List.foldlM_cons, visitSection_eq (hwrap s (hl s List.mem_cons_self))]
      congr 1
      funext sites'
      exact ih sites' fun x hx => hl x (List.mem_cons_of_mem s hx)
  rw [trace_sites, allSites, foldlM_flatMap, hvisit _ _ fun s hs => hs]

theorem foldlM_recordSite_isOk {addrs : List Address} (sites : List (Address × Node)) :
    (∃ sites', addrs.foldlM (recordSite asserts core) sites = .ok sites') ↔
      ∀ a ∈ addrs, ∃ n, siteNode asserts core a = .ok n := by
  induction addrs generalizing sites with
  | nil => simp [pure, Except.pure]
  | cons a addrs ih =>
    rw [List.forall_mem_cons, List.foldlM_cons]
    constructor
    · rintro ⟨sites', h⟩
      obtain ⟨one, hone, h⟩ := bind_ok h
      obtain ⟨n, hn, -⟩ := bind_ok hone
      exact ⟨⟨n, hn⟩, (ih _).mp ⟨sites', h⟩⟩
    · rintro ⟨⟨n, hn⟩, hrest⟩
      obtain ⟨sites', h⟩ := (ih (Dict.set sites a n)).mpr hrest
      refine ⟨sites', ?_⟩
      rw [recordSite, hn]
      exact h

theorem get?_recorded {addrs : List Address} {sites sites' : List (Address × Node)}
    (h : addrs.foldlM (recordSite asserts core) sites = .ok sites') (a : Address) :
    Dict.get? sites' a =
      if a ∈ addrs then (siteNode asserts core a).toOption else Dict.get? sites a := by
  induction addrs generalizing sites with
  | nil =>
    obtain rfl := Except.ok.inj h
    rw [if_neg List.not_mem_nil]
  | cons b addrs ih =>
    rw [List.foldlM_cons] at h
    obtain ⟨one, hone, h⟩ := bind_ok h
    obtain ⟨n, hn, hone⟩ := bind_ok hone
    obtain rfl := Except.ok.inj hone
    rw [ih h, Dict.get?_set]
    by_cases hab : b = a
    · subst hab
      simp [hn, Except.toOption]
    · simp [hab, Ne.symm hab]

end

/-! ## What a traced edge stands for -/

section
variable (asserts : Bool) (core : Core) (Z : Zstd) (V : StreamVByte)

/-- The node of a traced value: that of a trace site, or of the symbol that it lies in.  There is
none if LLDB knows of no symbol; the name of the trace site is then printed. -/
inductive ValueNode (trace_site_node : Node) (value : Address) : Option Node → Prop
  | site {n : Node} : value ∈ allSites core → siteNode asserts core value = .ok n →
      ValueNode trace_site_node value (some n)
  | symbol {start : Address} {n : Node} : value ∉ allSites core →
      core.ResolveLoadAddress value = .symbol (some start) →
      Node.mkSymbol asserts start = .ok n → ValueNode trace_site_node value (some n)
  | invalid : value ∉ allSites core → core.ResolveLoadAddress value = .invalid →
      ValueNode trace_site_node value none
  | noSymbol {names : List (Node × Bytes)} {text : Bytes} : value ∉ allSites core →
      core.ResolveLoadAddress value = .noSymbol → debug_names asserts core Z V = .ok names →
      print core names trace_site_node = .ok text → ValueNode trace_site_node value none

/-- The edge of the points-to graph that a traced edge stands for, if any. -/
def Stands (e : BraceletTraceEdge) (edge : Option (Node × Node)) : Prop :=
  ∃ site value, e.trace_site ∈ allSites core ∧ siteNode asserts core e.trace_site = .ok site ∧
    ValueNode asserts core Z V site e.value value ∧ edge = value.map (Prod.mk site)

/-- The points-to graph has the edge. -/
def Covered (static_edges : List (Node × Node)) (e : BraceletTraceEdge) : Prop :=
  ∃ edge, Stands asserts core Z V e edge ∧ ∀ p ∈ edge, p ∈ static_edges

variable {asserts core Z V} {static_edges : List (Node × Node)} {sites : List (Address × Node)}

theorem ValueNode.unique {site : Node} {value : Address} {v v' : Option Node}
    (h : ValueNode asserts core Z V site value v) (h' : ValueNode asserts core Z V site value v') :
    v = v' := by
  cases h with
  | site hin hn =>
    cases h' with
    | site _ hn' => rw [Except.ok.inj (hn.symm.trans hn')]
    | symbol hno _ _ | invalid hno _ | noSymbol hno _ _ _ => exact absurd hin hno
  | symbol hno hres hn =>
    cases h' with
    | site hin _ => exact absurd hin hno
    | symbol _ hres' hn' =>
      obtain rfl := Option.some.inj (Resolved.symbol.inj (hres.symm.trans hres'))
      rw [Except.ok.inj (hn.symm.trans hn')]
    | invalid _ hres' | noSymbol _ hres' _ _ => cases hres.symm.trans hres'
  | invalid hno hres =>
    cases h' with
    | site hin _ => exact absurd hin hno
    | symbol _ hres' _ => cases hres.symm.trans hres'
    | invalid _ _ | noSymbol _ _ _ _ => rfl
  | noSymbol hno hres _ _ =>
    cases h' with
    | site hin _ => exact absurd hin hno
    | symbol _ hres' _ => cases hres.symm.trans hres'
    | invalid _ _ | noSymbol _ _ _ _ => rfl

theorem Stands.unique {e : BraceletTraceEdge} {edge edge' : Option (Node × Node)}
    (h : Stands asserts core Z V e edge) (h' : Stands asserts core Z V e edge') : edge = edge' := by
  obtain ⟨site, v, -, hsite, hv, rfl⟩ := h
  obtain ⟨site', v', -, hsite', hv', rfl⟩ := h'
  obtain rfl := Except.ok.inj (hsite.symm.trans hsite')
  rw [hv.unique hv']

/-- A dictionary of all trace sites. -/
structure IsSites (asserts : Bool) (core : Core) (sites : List (Address × Node)) : Prop where
  loads : ∀ a ∈ allSites core, ∃ n, siteNode asserts core a = .ok n
  get? : ∀ a n, Dict.get? sites a = some n ↔ a ∈ allSites core ∧ siteNode asserts core a = .ok n

theorem IsSites.get?_none (h : IsSites asserts core sites) {a : Address} :
    Dict.get? sites a = none ↔ a ∉ allSites core := by
  rw [Option.eq_none_iff_forall_ne_some]
  constructor
  · intro hnone ha
    obtain ⟨n, hn⟩ := h.loads a ha
    exact hnone n ((h.get? a n).mpr ⟨ha, hn⟩)
  · exact fun ha n hn => ha ((h.get? a n).mp hn).1

/-- What is found for a core dump. -/
theorem isSites_of_trace_sites (hwrap : NoWrap core)
    (h : trace_sites asserts core = .ok sites) : IsSites asserts core sites := by
  rw [trace_sites_eq hwrap] at h
  replace h := tryContext_eq_ok h
  refine ⟨(foldlM_recordSite_isOk []).mp ⟨sites, h⟩, fun a n => ?_⟩
  rw [get?_recorded h]
  split
  · rename_i hmem
    rw [and_iff_right hmem]
    cases siteNode asserts core a <;> simp [Except.toOption]
  · rename_i hmem
    exact iff_of_false (by simp [Dict.get?]) fun hn => hmem hn.1

theorem valueNode_ok_iff (hsites : IsSites asserts core sites) {site : Node} {value : Address}
    {v : Option Node} : (∃ text, valueNode asserts core Z V sites site value = .ok (v, text)) ↔
      ValueNode asserts core Z V site value v := by
  unfold valueNode
  cases hget : Dict.get? sites value with
  | some n =>
    obtain ⟨hmem, hn⟩ := (hsites.get? value n).mp hget
    constructor
    · rintro ⟨text, h⟩
      obtain ⟨rfl, -⟩ := Prod.mk.inj (Except.ok.inj h)
      exact .site hmem hn
    · intro h
      cases h with
      | site _ hn' =>
        obtain rfl := Except.ok.inj (hn.symm.trans hn')
        exact ⟨_, rfl⟩
      | symbol hno _ _ | invalid hno _ | noSymbol hno _ _ _ => exact absurd hmem hno
  | none =>
    have hmem := hsites.get?_none.mp hget
    dsimp only
    cases hres : core.ResolveLoadAddress value with
    | invalid =>
      constructor
      · rintro ⟨text, h⟩
        obtain ⟨rfl, -⟩ := Prod.mk.inj (Except.ok.inj h)
        exact .invalid hmem hres
      · intro h
        cases h with
        | site hin _ => exact absurd hin hmem
        | invalid _ _ => exact ⟨_, rfl⟩
        | symbol _ hres' _ | noSymbol _ hres' _ _ =>
          rw [hres] at hres'
          cases hres'
    | noSymbol =>
      constructor
      · rintro ⟨text, h⟩
        obtain ⟨names, hnames, h⟩ := bind_ok h
        obtain ⟨name, hname, h⟩ := bind_ok h
        obtain ⟨rfl, -⟩ := Prod.mk.inj (Except.ok.inj h)
        exact .noSymbol hmem hres hnames hname
      · intro h
        cases h with
        | site hin _ => exact absurd hin hmem
        | noSymbol _ _ hnames hname =>
          dsimp only
          rw [hnames, ok_bind, hname]
          exact ⟨_, rfl⟩
        | symbol _ hres' _ | invalid _ hres' =>
          rw [hres] at hres'
          cases hres'
    | symbol start =>
      cases start with
      | none =>
        constructor
        · rintro ⟨text, h⟩
          cases h
        · intro h
          cases h with
          | site hin _ => exact absurd hin hmem
          | symbol _ hres' _ | invalid _ hres' | noSymbol _ hres' _ _ =>
            rw [hres] at hres'
            cases hres'
      | some start =>
        constructor
        · rintro ⟨text, h⟩
          obtain ⟨n, hn, h⟩ := bind_ok h
          obtain ⟨rfl, -⟩ := Prod.mk.inj (Except.ok.inj h)
          exact .symbol hmem hres hn
        · intro h
          cases h with
          | site hin _ => exact absurd hin hmem
          | symbol _ hres' hn =>
            rw [hres] at hres'
            obtain rfl := Option.some.inj (Resolved.symbol.inj hres')
            dsimp only
            rw [hn]
            exact ⟨_, rfl⟩
          | invalid _ hres' | noSymbol _ hres' _ _ =>
            rw [hres] at hres'
            cases hres'

theorem checkEdge_ok (hsites : IsSites asserts core sites) {st st' : State} {e : BraceletTraceEdge}
    (h : checkEdge asserts core Z V static_edges sites st e = .ok st') :
    ∃ edge, Stands asserts core Z V e edge ∧
      (st.missing_edges.Nodup → st'.missing_edges.Nodup) ∧
      ∀ p, p ∈ st'.missing_edges ↔ p ∈ st.missing_edges ∨ edge = some p ∧ p ∉ static_edges := by
  unfold checkEdge at h
  cases hget : Dict.get? sites e.trace_site with
  | none =>
    rw [hget] at h
    cases h
  | some site =>
    rw [hget] at h
    obtain ⟨hmem, hsite⟩ := (hsites.get? _ _).mp hget
    obtain ⟨⟨v, text⟩, hv, h⟩ := bind_ok h
    refine ⟨_, ⟨site, v, hmem, hsite, (valueNode_ok_iff hsites).mp ⟨text, hv⟩, rfl⟩, ?_⟩
    cases v with
    | none =>
      obtain rfl := Except.ok.inj h
      exact ⟨id, by simp⟩
    | some value =>
      dsimp only at h
      split_ifs at h with hin <;> obtain rfl := Except.ok.inj h
      · refine ⟨id, fun p => ?_⟩
        simp only [Option.map_some, Option.some.injEq]
        refine ⟨.inl, ?_⟩
        rintro (hp | ⟨rfl, hno⟩)
        · exact hp
        · exact absurd hin hno
      · refine ⟨List.Nodup.insert, fun p => ?_⟩
        simp only [List.mem_insert_iff, Option.map_some, Option.some.injEq]
        constructor
        · rintro (rfl | hp)
          · exact .inr ⟨rfl, hin⟩
          · exact .inl hp
        · rintro (hp | ⟨rfl, -⟩)
          · exact .inr hp
          · exact .inl rfl

variable (static_edges) in
theorem checkEdge_isOk (hsites : IsSites asserts core sites) (st : State) {e : BraceletTraceEdge}
    {edge : Option (Node × Node)} (h : Stands asserts core Z V e edge) :
    ∃ st', checkEdge asserts core Z V static_edges sites st e = .ok st' := by
  obtain ⟨site, value, hmem, hsite, hvalue, -⟩ := h
  obtain ⟨text, hv⟩ := (valueNode_ok_iff hsites).mpr hvalue
  unfold checkEdge
  rw [(hsites.get? _ _).mpr ⟨hmem, hsite⟩]
  dsimp only
  rw [hv, ok_bind]
  cases value with
  | none => exact ⟨_, rfl⟩
  | some value =>
    dsimp only
    split_ifs <;> exact ⟨_, rfl⟩

/-- **All edges of the trace files.** -/
theorem checkEdges_ok (hsites : IsSites asserts core sites) {es : List BraceletTraceEdge}
    {st st' : State}
    (h : es.foldlM (checkEdge asserts core Z V static_edges sites) st = .ok st') :
    (∀ e ∈ es, ∃ edge, Stands asserts core Z V e edge) ∧
      (st.missing_edges.Nodup → st'.missing_edges.Nodup) ∧
      ∀ p, p ∈ st'.missing_edges ↔ p ∈ st.missing_edges ∨
        ∃ e ∈ es, Stands asserts core Z V e (some p) ∧ p ∉ static_edges := by
  induction es generalizing st with
  | nil =>
    obtain rfl := Except.ok.inj h
    simp
  | cons e es ih =>
    rw [List.foldlM_cons] at h
    obtain ⟨one, hone, h⟩ := bind_ok h
    obtain ⟨edge, hedge, hnodup, hmem⟩ := checkEdge_ok hsites hone
    obtain ⟨hstands, hnodup', hmem'⟩ := ih h
    refine ⟨List.forall_mem_cons.mpr ⟨⟨edge, hedge⟩, hstands⟩, hnodup' ∘ hnodup, fun p => ?_⟩
    have hthis : edge = some p ↔ Stands asserts core Z V e (some p) :=
      ⟨fun heq => heq ▸ hedge, fun hp => hedge.unique hp⟩
    rw [hmem', hmem, List.exists_mem_cons_iff, hthis, or_assoc]

variable (static_edges) in
theorem checkEdges_isOk (hsites : IsSites asserts core sites) {es : List BraceletTraceEdge}
    (h : ∀ e ∈ es, ∃ edge, Stands asserts core Z V e edge) (st : State) :
    ∃ st', es.foldlM (checkEdge asserts core Z V static_edges sites) st = .ok st' := by
  induction es generalizing st with
  | nil => exact ⟨st, rfl⟩
  | cons e es ih =>
    obtain ⟨⟨edge, hedge⟩, hes⟩ := List.forall_mem_cons.mp h
    obtain ⟨one, hone⟩ := checkEdge_isOk static_edges hsites st hedge
    obtain ⟨st', hst'⟩ := ih hes one
    exact ⟨st', by rw [List.foldlM_cons, hone]; exact hst'⟩

/-- The edges that the check calls missing. -/
def Missing (asserts : Bool) (core : Core) (Z : Zstd) (V : StreamVByte)
    (static_edges : List (Node × Node)) (traced : Set BraceletTraceEdge) : Set (Node × Node) :=
  {p | ∃ e ∈ traced, Stands asserts core Z V e (some p) ∧ p ∉ static_edges}

/-- What a check does with the edges that are missing. -/
theorem check_eq {files : List (List UInt8)} {st : State}
    (hsites : trace_sites asserts core = .ok sites)
    (hst : (checkPointsToAgainstTrace_edges files).foldlM
      (checkEdge asserts core Z V static_edges sites) {} = .ok st) :
    (st.missing_edges = [] →
      ∃ out, checkPointsToAgainstTrace asserts core Z V static_edges files = .ok out) ∧
    (st.missing_edges ≠ [] →
      checkPointsToAgainstTrace asserts core Z V static_edges files = do
        let names ← debug_names asserts core Z V
        st.missing_edges.forM (printMissing core names)
        .error (.error [s!"Missing {st.missing_edges.length}/{st.trace_edge_count} edges"])) := by
  unfold checkPointsToAgainstTrace
  rw [hsites, ok_bind, hst, ok_bind]
  constructor
  · intro hnil
    simp [hnil]
  · intro hne
    have hbne : (st.missing_edges != []) = true := bne_iff_ne.mpr hne
    have hbeq : (st.missing_edges == []) = false := beq_eq_false_iff_ne.mpr hne
    simp only [hbne, hbeq, if_true]
    rfl

theorem trace_sites_isOk (hwrap : NoWrap core) : (∃ sites, trace_sites asserts core = .ok sites) ↔
    ∀ a ∈ allSites core, ∃ n, siteNode asserts core a = .ok n := by
  rw [trace_sites_eq hwrap, ← foldlM_recordSite_isOk []]
  constructor
  · rintro ⟨sites, h⟩
    exact ⟨sites, tryContext_eq_ok h⟩
  · rintro ⟨sites, h⟩
    exact ⟨sites, by rw [h, tryContext_ok]⟩

/-- To print the names of missing edges. -/
theorem forM_printMissing (hname : ∀ n, ∃ name, core.symbolName n = .ok name)
    (names : List (Node × Bytes)) (missing : List (Node × Node)) :
    missing.forM (printMissing core names) = .ok () := by
  have hprint : ∀ n, ∃ text, print core names n = .ok text := by
    intro n
    obtain ⟨name, hn⟩ := hname n.symbol
    rw [print, hn, ok_bind]
    cases n.local_idx <;> exact ⟨_, rfl⟩
  induction missing with
  | nil => rfl
  | cons p missing ih =>
    obtain ⟨dst, hdst⟩ := hprint p.1
    obtain ⟨src, hsrc⟩ := hprint p.2
    rw [List.forM_eq_forM] at ih ⊢
    rw [List.forM_cons, printMissing, hdst, ok_bind, hsrc, ok_bind]
    exact ih

variable (asserts Z V static_edges) in
/-- **What a check finds**, for any trace files. -/
theorem check_spec (hwrap : NoWrap core) (files : List (List UInt8)) :
    let traced : Set BraceletTraceEdge := {e | e ∈ checkPointsToAgainstTrace_edges files}
    ((∃ out, checkPointsToAgainstTrace asserts core Z V static_edges files = .ok out) ↔
      (∀ a ∈ allSites core, ∃ n, siteNode asserts core a = .ok n) ∧
        ∀ e ∈ traced, Covered asserts core Z V static_edges e) ∧
    ((∀ a ∈ allSites core, ∃ n, siteNode asserts core a = .ok n) →
      (∀ e ∈ traced, ∃ edge, Stands asserts core Z V e edge) →
      (∃ names, debug_names asserts core Z V = .ok names) →
      (∀ n, ∃ name, core.symbolName n = .ok name) →
      (Missing asserts core Z V static_edges traced).Nonempty →
      ∃ count : Nat, checkPointsToAgainstTrace asserts core Z V static_edges files = .error (.error
        [s!"Missing {(Missing asserts core Z V static_edges traced).ncard}/{count} edges"])) := by
  intro traced
  constructor
  · rw [← trace_sites_isOk hwrap]
    constructor
    · rintro ⟨out, h⟩
      obtain ⟨sites, hsites, h'⟩ := bind_ok h
      obtain ⟨st, hst, -⟩ := bind_ok h'
      have hdict := isSites_of_trace_sites hwrap hsites
      obtain ⟨hstands, -, hmem⟩ := checkEdges_ok hdict hst
      refine ⟨⟨sites, hsites⟩, fun e he => ?_⟩
      obtain ⟨edge, hedge⟩ := hstands e he
      refine ⟨edge, hedge, fun p hp => ?_⟩
      by_contra hno
      have hne : st.missing_edges ≠ [] := List.ne_nil_of_mem
        ((hmem p).mpr (.inr ⟨e, he, hp ▸ hedge, hno⟩))
      rw [(check_eq hsites hst).2 hne] at h
      obtain ⟨names, -, h⟩ := bind_ok h
      obtain ⟨_, -, h⟩ := bind_ok h
      cases h
    · rintro ⟨⟨sites, hsites⟩, hcovered⟩
      have hdict := isSites_of_trace_sites hwrap hsites
      obtain ⟨st, hst⟩ := checkEdges_isOk static_edges hdict
        (fun e he => (hcovered e he).imp fun edge hedge => hedge.1) {}
      obtain ⟨-, -, hmem⟩ := checkEdges_ok hdict hst
      refine (check_eq hsites hst).1 (List.eq_nil_iff_forall_not_mem.mpr fun p hp => ?_)
      rcases (hmem p).mp hp with hp | ⟨e, he, hedge, hno⟩
      · cases hp
      · obtain ⟨edge, hedge', hin⟩ := hcovered e he
        exact hno (hin p (hedge'.unique hedge ▸ rfl))
  · rintro hload hstands ⟨names, hnames⟩ hname ⟨p, e, he, hedge, hno⟩
    obtain ⟨sites, hsites⟩ := (trace_sites_isOk hwrap).mpr hload
    have hdict := isSites_of_trace_sites hwrap hsites
    obtain ⟨st, hst⟩ := checkEdges_isOk static_edges hdict hstands {}
    obtain ⟨-, hnodup, hmem⟩ := checkEdges_ok hdict hst
    have hmissing : Missing asserts core Z V static_edges traced =
        (st.missing_edges.toFinset : Set (Node × Node)) := by
      ext q
      simp [Missing, traced, hmem]
    have hne : st.missing_edges ≠ [] := List.ne_nil_of_mem ((hmem p).mpr (.inr ⟨e, he, hedge, hno⟩))
    refine ⟨st.trace_edge_count, ?_⟩
    rw [(check_eq hsites hst).2 hne, hnames, ok_bind, forM_printMissing hname, ok_bind,
      hmissing, Set.ncard_coe_finset, List.toFinset_card_of_nodup (hnodup List.nodup_nil)]

end

/-! ## Traced programs -/

section
open TraceFiles (Traced)
open TraceRuntime (Reached Runtime tracedBy)
variable {τ η : Type} [DecidableEq τ] [DecidableEq η] {xxh3 : List UInt8 → η}
  {fnv1a_64 : BraceletTraceEdge → UInt64} {r : Runtime τ η} {asserts : Bool} {core : Core}
  {Z : Zstd} {V : StreamVByte} {static_edges : List (Node × Node)}

/-- The trace files of some threads. -/
def traces_dir (r : Runtime τ η) (threads : List τ) : List (List UInt8) :=
  threads.map fun t => persisted (r.TL_BUFFER t)

/-- The edges that some threads have traced. -/
def tracedEdges (r : Runtime τ η) (threads : List τ) : Set BraceletTraceEdge :=
  {e | ∃ c ∈ r.log, c.thread ∈ threads ∧ c.node ≠ 0 ∧ e = ⟨c.site, c.node⟩}

omit [DecidableEq η] in
/-- The trace files hold what has been traced. -/
theorem mem_traces_dir (hinv : TraceRuntime.Inv xxh3 fnv1a_64 r) {threads : List τ}
    {e : BraceletTraceEdge} : e ∈ checkPointsToAgainstTrace_edges (traces_dir r threads) ↔
      e ∈ tracedEdges r threads := by
  have hrun : ∀ t, ∃ run : Traced fnv1a_64, run.calls = tracedBy t r.log ∧
      run.table = r.TL_BUFFER t := by
    intro t
    obtain ⟨added, hadded⟩ := hinv.tables t
    exact ⟨⟨10, tracedBy t r.log, hinv.traceable t, by rw [hadded]; rfl⟩, rfl,
      by simp only [Traced.table, hadded]⟩
  choose run hcalls htable using hrun
  have hfiles : traces_dir r threads = TraceFiles.trace_files (threads.map run) := by
    simp only [traces_dir, TraceFiles.trace_files, List.map_map, Function.comp_def, htable]
  rw [hfiles, TraceFiles.mem_checkPointsToAgainstTrace_edges]
  have htraced : ∀ t, e ∈ (run t).calls ↔
      ∃ c ∈ r.log, (c.thread = t ∧ c.node ≠ 0) ∧ ⟨c.site, c.node⟩ = e := by
    intro t
    rw [hcalls, tracedBy]
    simp only [List.mem_map, List.mem_filter, decide_eq_true_eq, and_assoc]
  constructor
  · rintro ⟨_, hrun, he⟩
    obtain ⟨t, ht, rfl⟩ := List.mem_map.mp hrun
    obtain ⟨c, hc, ⟨rfl, hnode⟩, rfl⟩ := (htraced t).mp he
    exact ⟨c, hc, ht, hnode, rfl⟩
  · rintro ⟨c, hc, ht, hnode, rfl⟩
    exact ⟨run c.thread, List.mem_map_of_mem ht, (htraced _).mpr ⟨c, hc, ⟨rfl, hnode⟩, rfl⟩⟩

/-- A core dump with a trace site. -/
def oneSite : Core where
  obj := {
    isApple := false
    sections := [⟨"GR_trace_site", 4096, 16⟩]
    copyData n _ := .ok (List.replicate n 0)
    resolvePointers _ _ := .ok [8] }
  symbolName _ := .ok (ascii "f")
  ResolveLoadAddress _ := .symbol (some 4)

theorem oneSite_noWrap : NoWrap oneSite := by
  intro s hs _
  obtain rfl := List.mem_singleton.mp hs
  decide

theorem oneSite_allSites : allSites oneSite = [4096] := by decide +kernel

theorem siteNode_oneSite : siteNode true oneSite 4096 = .ok (Node.ofLocal 8 0) := by decide +kernel

end
end Bracelet.Edges.TraceChecks
