import Bracelet.DlsymWalks
import Bracelet.DumpedPrograms

/-!
# What `dlsym` finds is dumped

Whatever order the steps of concurrent calls of `braceletReachabilityDlsymPageInsert` are taken in,
each slot below the counts of the listed pages has been claimed by one call, and each call that has
claimed a slot has one (`recorded_calls`).  So a walk over the pages of a snapshot comes to each
such call once.  It finds the symbol of the call, or a null pointer if the call has not stored it
yet.

The snapshot is what `bracelet-edges` sees of the calls.  The symbols that they have stored arrive
in the facts of the function that has called `dlsym`, each as an assignment to the result of the
call (`found_delivered`).
-/
namespace Bracelet
namespace DlsymRuntime

section
variable {ι : Type}

/-- Every slot below the count of a page has been claimed. -/
def Config.Counted (c : Config ι) : Prop :=
  ∀ p pg idx, c.pages p = some pg → idx < min pg.count numPointers →
    ∃ i, (c.calls i).slot? = some (p, idx)

/-- What a walk over the slots finds in the slot of a call. -/
def Config.recorded (symbol : ι → UInt64) (c : Config ι) (i : ι) : UInt64 :=
  match c.calls i with
  | .returned _ _ => symbol i
  | _ => 0

variable [DecidableEq ι] {symbol : ι → UInt64} {c d : Config ι} {i : ι}

/-- A claimed slot stays claimed. -/
theorem Stepped.slot_kept (h : Stepped symbol c i d) {j : ι} {s : PageAddr × Nat}
    (hs : (c.calls j).slot? = some s) : (d.calls j).slot? = some s := by
  by_cases hj : j = i
  · subst hj
    cases h with
    | store hl _ => simpa [hl, Local.slot?, Config.goto] using hs
    | load hl | claim hl _ _ | overshoot hl _ _ | allocate hl _ | publish hl _ | lose hl _
    | unmap hl => simp [hl, Local.slot?] at hs
  · rw [h.other hj]
    exact hs

/-- **A step counts a slot only for the call that claims it.** -/
theorem Stepped.counted (h : Stepped symbol c i d) (hc : c.Counted) : d.Counted := by
  intro p pg idx hp hidx
  have hkept : ∀ pg₀, c.pages p = some pg₀ → idx < min pg₀.count numPointers →
      ∃ j, (d.calls j).slot? = some (p, idx) := fun pg₀ hp₀ hlt =>
    (hc p pg₀ idx hp₀ hlt).imp fun j hj => h.slot_kept hj
  cases h with
  | load _ | publish _ _ | lose _ _ => exact hkept pg hp hidx
  | @claim q pg₀ hl hq hlt =>
    by_cases hpq : p = q
    · subst hpq
      obtain rfl : { pg₀ with count := pg₀.count + 1 } = pg := by simpa [Config.goto] using hp
      by_cases hnew : idx = pg₀.count
      · exact ⟨i, by simp [Config.goto, Local.slot?, hnew]⟩
      · refine hkept pg₀ hq (lt_min ?_ (lt_of_lt_of_le hidx (min_le_right _ _)))
        have hle : idx < pg₀.count + 1 := lt_of_lt_of_le hidx (min_le_left _ _)
        omega
    · exact hkept pg (by simpa [Config.goto, Config.setPage, hpq] using hp) hidx
  | @overshoot q pg₀ hl hq hfull =>
    by_cases hpq : p = q
    · subst hpq
      exact hkept pg₀ hq (lt_min (lt_of_lt_of_le hidx ((min_le_right _ _).trans hfull))
        (lt_of_lt_of_le hidx (min_le_right _ _)))
    · exact hkept pg (by simpa [Config.goto, Config.setPage, hpq] using hp) hidx
  | @store q k pg₀ hl hq =>
    by_cases hpq : p = q
    · subst hpq
      obtain rfl : { pg₀ with pointers := Function.update pg₀.pointers k (symbol i) } = pg := by
        simpa [Config.goto] using hp
      exact hkept pg₀ hq hidx
    · exact hkept pg (by simpa [Config.goto, Config.setPage, hpq] using hp) hidx
  | @allocate page a hl ha =>
    by_cases hpa : p = a
    · subst hpa
      obtain rfl : DlsymPage.fresh page = pg := by simpa [Config.goto, Config.setPage] using hp
      simp [DlsymPage.fresh] at hidx
    · exact hkept pg (by simpa [Config.goto, Config.setPage, hpa] using hp) hidx
  | @unmap a page hl =>
    by_cases hpa : p = a
    · subst hpa
      simp [Config.goto, Config.setPage] at hp
    · exact hkept pg (by simpa [Config.goto, Config.setPage, hpa] using hp) hidx

theorem reachable_counted (h : (machine symbol).Reachable c) : c.Counted := by
  refine @Machine.Reachable.invariant _ _ (machine symbol) (fun c => c.Counted) ?_ ?_ c h
  · intro p pg idx hp
    cases hp
  · exact fun _ _ _ hc hstep => (stepped_of_step hstep).counted hc

end
end DlsymRuntime

namespace DlsymWalks
open DlsymRuntime Edges

/-! ## One slot for each call -/

section
variable {pages : PageAddr → Option DlsymPage}

theorem Chain.unique {link : Option PageAddr} {l l' : List PageAddr} (h : Chain pages link l)
    (h' : Chain pages link l') : l = l' := by
  induction l generalizing link l' with
  | nil =>
    cases link with
    | none =>
      cases l' with
      | nil => rfl
      | cons q' l' => cases h'
    | some p => cases h
  | cons q l ih =>
    cases link with
    | none => cases h
    | some p =>
      cases l' with
      | nil => cases h'
      | cons q' l' =>
        obtain ⟨rfl, -, hrest⟩ := h
        obtain ⟨rfl, -, hrest'⟩ := h'
        rw [ih hrest hrest']

theorem Chain.from_mem {link : Option PageAddr} {l : List PageAddr} (h : Chain pages link l)
    {p : PageAddr} (hp : p ∈ l) : ∃ l', Chain pages (some p) l' ∧ l'.length ≤ l.length := by
  induction l generalizing link with
  | nil => cases hp
  | cons q l ih =>
    cases link with
    | none => cases h
    | some r =>
      have hwhole := h
      obtain ⟨rfl, -, hrest⟩ := h
      rcases List.mem_cons.mp hp with rfl | hp
      · exact ⟨p :: l, hwhole, le_rfl⟩
      · obtain ⟨l', hl', hle⟩ := ih hrest hp
        exact ⟨l', hl', hle.trans (Nat.le_succ _)⟩

/-- No page is on the list twice: it would come round to itself for ever. -/
theorem Chain.nodup {link : Option PageAddr} {l : List PageAddr} (h : Chain pages link l) :
    l.Nodup := by
  induction l generalizing link with
  | nil => exact List.nodup_nil
  | cons q l ih =>
    cases link with
    | none => cases h
    | some r =>
      have hwhole := h
      obtain ⟨rfl, -, hrest⟩ := h
      refine List.nodup_cons.mpr ⟨fun hmem => ?_, ih hrest⟩
      obtain ⟨l', hl', hle⟩ := hrest.from_mem hmem
      rw [← hwhole.unique hl', List.length_cons] at hle
      omega

/-- The slots of these pages that the readers look at. -/
def visibleSlots (pages : PageAddr → Option DlsymPage) (l : List PageAddr) :
    List (PageAddr × Nat) :=
  l.flatMap fun p => (List.range (min (((pages p).map DlsymPage.count).getD 0) numPointers)).map
    fun idx => (p, idx)

theorem mem_visibleSlots {l : List PageAddr} {p : PageAddr} {idx : Nat} :
    (p, idx) ∈ visibleSlots pages l ↔
      p ∈ l ∧ ∃ pg, pages p = some pg ∧ idx < min pg.count numPointers := by
  simp only [visibleSlots, List.mem_flatMap, List.mem_map, List.mem_range, Prod.mk.injEq]
  constructor
  · rintro ⟨q, hq, k, hk, rfl, rfl⟩
    cases hpg : pages q with
    | none => simp [hpg] at hk
    | some pg => exact ⟨hq, pg, rfl, by simpa [hpg] using hk⟩
  · rintro ⟨hp, pg, hpg, hidx⟩
    exact ⟨p, hp, idx, by simpa [hpg] using hidx, rfl, rfl⟩

theorem nodup_visibleSlots {l : List PageAddr} (h : l.Nodup) : (visibleSlots pages l).Nodup := by
  refine List.nodup_flatMap.mpr ⟨fun p _ => ?_, h.imp fun {p q} hpq => ?_⟩
  · exact List.nodup_range.map fun a b hab => (Prod.mk.inj hab).2
  · intro s hp hq
    obtain ⟨a, -, rfl⟩ := List.mem_map.mp hp
    obtain ⟨b, -, heq⟩ := List.mem_map.mp hq
    exact hpq (Prod.mk.inj heq).1.symm

/-- The word in a slot. -/
def wordAt (pages : PageAddr → Option DlsymPage) (s : PageAddr × Nat) : Address :=
  ((pages s.1).map fun pg => pg.pointers s.2).getD 0

theorem pagePointers_eq_map (l : List PageAddr) :
    pagePointers pages l = (visibleSlots pages l).map (wordAt pages) := by
  have hnum : DLSYM_PAGE_NUM_POINTERS = numPointers := rfl
  rw [pagePointers, visibleSlots, List.map_flatMap]
  refine List.flatMap_congr fun p _ => ?_
  cases hpg : pages p with
  | none => simp
  | some pg => simp [claimed, slots, ← List.map_take, List.take_range, hnum, wordAt, hpg,
      Function.comp_def]

end

section
variable {ι : Type} [DecidableEq ι] {symbol : ι → UInt64} {c : Config ι}

/-- **Each call that has claimed a slot is found once**, with its symbol if it has stored it. -/
theorem recorded_calls (h : (machine symbol).Reachable c) {l : List PageAddr}
    (hl : Chain c.pages c.head l) : ∃ made : List ι, made.Nodup ∧
      (∀ i, i ∈ made ↔ ∃ s, (c.calls i).slot? = some s) ∧
      pagePointers c.pages l = made.map (c.recorded symbol) := by
  have hc := reachable_inv h
  have hclaimed : ∀ s ∈ visibleSlots c.pages l, ∃ i, (c.calls i).slot? = some s := by
    rintro ⟨p, idx⟩ hs
    obtain ⟨-, pg, hpg, hidx⟩ := mem_visibleSlots.mp hs
    exact reachable_counted h p pg idx hpg hidx
  have hvisible : ∀ i s, (c.calls i).slot? = some s → s ∈ visibleSlots c.pages l := by
    rintro i ⟨p, idx⟩ hs
    obtain ⟨hlt, pg, hpg, hcount⟩ := hc.slot_counted i p idx hs
    exact mem_visibleSlots.mpr
      ⟨hl.mem (hc.page_listed i p (Local.slot?_page? hs)), pg, hpg, lt_min hcount hlt⟩
  obtain ⟨made, hmade⟩ : ∃ made : List ι,
      made.map (fun i => (c.calls i).slot?) = (visibleSlots c.pages l).map some := by
    have hrange : (visibleSlots c.pages l).map some ∈
        Set.range (List.map fun i => (c.calls i).slot?) := by
      rw [Set.range_list_map]
      intro o ho
      obtain ⟨s, hs, rfl⟩ := List.mem_map.mp ho
      exact hclaimed s hs
    exact hrange
  have hword : ∀ i s, (c.calls i).slot? = some s → wordAt c.pages s = c.recorded symbol i := by
    rintro i ⟨p, idx⟩ hs
    obtain ⟨-, pg, hpg, -⟩ := hc.slot_counted i p idx hs
    rw [wordAt, hpg, Config.recorded]
    cases hi : c.calls i with
    | storing q k =>
      obtain ⟨rfl, rfl⟩ : q = p ∧ k = idx := by simpa [hi, Local.slot?] using hs
      refine hc.blank q pg k hpg fun j hj => ?_
      obtain rfl := hc.slot_inj i j _ hs (by simp [hj, Local.slot?])
      rw [hi] at hj
      cases hj
    | returned q k =>
      obtain ⟨rfl, rfl⟩ : q = p ∧ k = idx := by simpa [hi, Local.slot?] using hs
      exact hc.stored i q k pg hi hpg
    | _ => simp [hi, Local.slot?] at hs
  refine ⟨made, ?_, fun i => ⟨fun hi => ?_, ?_⟩, ?_⟩
  · refine List.Nodup.of_map (fun i => (c.calls i).slot?) ?_
    rw [hmade]
    exact (nodup_visibleSlots hl.nodup).map (Option.some_injective _)
  · obtain ⟨s, -, hs⟩ := List.mem_map.mp (hmade ▸ List.mem_map_of_mem hi)
    exact ⟨s, hs.symm⟩
  · rintro ⟨s, hs⟩
    have hmem : some s ∈ made.map fun i => (c.calls i).slot? :=
      hmade ▸ List.mem_map_of_mem (hvisible i s hs)
    obtain ⟨j, hj, hjs⟩ := List.mem_map.mp hmem
    exact hc.slot_inj j i s hjs hs ▸ hj
  · have hvalues := congrArg (List.map fun o => o.elim 0 (wordAt c.pages)) hmade
    rw [List.map_map, List.map_map] at hvalues
    rw [pagePointers_eq_map]
    refine hvalues.symm.trans (List.map_congr_left fun i hi => ?_)
    obtain ⟨s, -, hs⟩ := List.mem_map.mp (hmade ▸ List.mem_map_of_mem hi)
    rw [Function.comp_apply, ← hs]
    exact hword i s hs.symm

open CandidateFunctions (pointersOf) in
omit [DecidableEq ι] in
/-- The walk collects the pointers of the list. -/
theorem pointersOf_chain {obj : Object} {page_ptr : Address} (hs : Snapshot obj page_ptr c)
    (hptr : Packable page_ptr) {l : List PageAddr} (hl : Chain c.pages c.head l) {fuel : Nat}
    (hfuel : l.length < fuel) :
    pointersOf obj fuel (Edges.Node.ofSymbol page_ptr) = .ok (pagePointers c.pages l) := by
  rw [pointersOf, visitPagesOf_chain hs hptr _ hl hfuel, CandidateFunctions.foldlM_collect,
    List.nil_append]

open CandidateFunctions (pointersOf) in
/-- **A walk over a snapshot finds each call once** that has claimed a slot, and nothing else. -/
theorem walk_finds_calls (h : (machine symbol).Reachable c) {obj : Object} {page_ptr : Address}
    (hs : Snapshot obj page_ptr c) (hptr : Packable page_ptr) : ∃ made : List ι, made.Nodup ∧
      (∀ i, i ∈ made ↔ ∃ s, (c.calls i).slot? = some s) ∧
      ∃ n, ∀ fuel ≥ n, pointersOf obj fuel (Edges.Node.ofSymbol page_ptr) =
        .ok (made.map (c.recorded symbol)) := by
  obtain ⟨l, hl⟩ := Reachable.chain h
  obtain ⟨made, hnodup, hmade, hfound⟩ := recorded_calls h hl
  exact ⟨made, hnodup, hmade, l.length + 1, fun fuel hfuel =>
    hfound ▸ pointersOf_chain hs hptr hl hfuel⟩

/-- The call that is alone is found. -/
theorem walk_finds_firstCall : ∃ c, (machine firstSymbol).Reachable c ∧ ∃ n, ∀ fuel ≥ n,
    CandidateFunctions.pointersOf (snapshotOf c 0x4000) fuel (Edges.Node.ofSymbol 0x4000) =
      .ok [0x401000] := by
  obtain ⟨c, hreach, hhead, pg, hpg, hnext, hcount, hstored⟩ := run_firstCall (Or.inr rfl)
  have hptr : Packable 0x4000 := by simp [Packable]
  obtain ⟨made, hnodup, hmade, n, hfound⟩ :=
    walk_finds_calls hreach (snapshot_single hhead hpg hnext hcount) hptr
  have hcall : c.calls () = .returned 0x10000 0 := by
    by_contra hnot
    have hblank := (reachable_inv hreach).blank 0x10000 pg 0 hpg fun _ => hnot
    rw [hstored] at hblank
    exact absurd hblank (by decide)
  have hmem : () ∈ made := (hmade ()).mpr ⟨(0x10000, 0), by rw [hcall]; rfl⟩
  have hsingle : made = [()] := by
    refine List.perm_singleton.mp
      ((List.perm_ext_iff_of_nodup hnodup (List.nodup_singleton _)).mpr ?_)
    exact fun _ => iff_of_true hmem (List.mem_singleton_self _)
  refine ⟨c, hreach, n, fun fuel hfuel => ?_⟩
  rw [hfound fuel hfuel, hsingle, List.map_singleton, Config.recorded, hcall]
  rfl

end
end DlsymWalks
end Bracelet

namespace Bracelet.Reachability
open Edges (Bytes EdgeKind EdgeOutput EdgeSort End FunctionGraph Graph Packable Reads StreamVByte
  Zstd Dumped edges)
open Edges.LoadEdges (LoadedNode LoadedEdge directoryName factsName)
open CandidateFunctions (pointersOf)
open DlsymRuntime (Config PageAddr machine)
open DlsymWalks (Chain Snapshot)

section
variable {GV : Type} [DecidableEq GV] {asserts : Bool} {Z : Zstd} {V : StreamVByte}
  {sort : EdgeSort} {address : GV → Edges.Address} {env : EdgeOutput} {fuel : Nat}
  {graphs : List (Graph GV)}

namespace RecordedProgram
variable {R : RecordedProgram GV}

section
variable {ι : Type} [DecidableEq ι] {symbol : ι → UInt64} {c : Config ι} {l : List PageAddr}

/-- The symbol of a call that has returned is on the pages of the program. -/
theorem Embedded.mem_pages (h : R.Embedded asserts Z V sort address env fuel graphs) {page : GV}
    (hreach : (machine symbol).Reachable c) (hs : Snapshot env.obj (address page) c)
    (hl : Chain c.pages c.head l) (hfuel : l.length < fuel) {i : ι} {p k : Nat}
    (hi : c.calls i = .returned p k) (hfits : Packable (symbol i)) :
    (symbol i).toNat ∈ R.pages (R.address page) := by
  obtain ⟨made, -, hmade, hfound⟩ := DlsymWalks.recorded_calls hreach hl
  have hmem : i ∈ made := (hmade i).mpr ⟨(p, k), by rw [hi]; rfl⟩
  have hrecorded : c.recorded symbol i = symbol i := by rw [Config.recorded, hi]
  rw [h.pages page _ (DlsymWalks.pointersOf_chain hs (h.packable page) hl hfuel), hfound]
  refine List.mem_map.mpr ⟨symbol i, ?_, by rw [Edges.Node.symbol_ofSymbol hfits]⟩
  exact hrecorded ▸ List.mem_map_of_mem hmem

end

/-- **What a call of `dlsym` has found is delivered**, as soon as the runtime has returned from
recording it: it is assigned to the result of the call. -/
theorem found_delivered (h : R.Embedded asserts Z V sort address env fuel graphs)
    (hZ : Z.Lossless) (hV : V.Lossless) (hsort : ∀ n l, (sort n l).Perm l)
    (hcount : env.PrintCallArgumentCount = true) {dump : List Dumped}
    (hdump : Edges.dumpEdges asserts Z V env fuel = .ok dump) (gunzip : Bytes → Option Bytes)
    {r : RecordedFunction GV} (hr : r ∈ R.functions) {t : End GV} {page : GV} {idx : UInt32}
    (he : (t, .sym page, idx) ∈ edges r.visitor.FW.ops .DlsymPagePointer) {ι : Type}
    [DecidableEq ι] {symbol : ι → UInt64} {c : Config ι} (hreach : (machine symbol).Reachable c)
    (hs : Snapshot env.obj (address page) c) {l : List PageAddr} (hl : Chain c.pages c.head l)
    (hfuel : l.length < fuel) : ∃ d ∈ dump, ∃ file es,
      LoadedNode.parse (directoryName d.fi) = some (loadedNode (.sym (R.address r.F.symbol))) ∧
      Edges.LoadEdges.directory true d.tables (factsName .Assign) = some file ∧
      LoadedEdge.read gunzip 2 file = some es ∧ ∀ i p k, c.calls i = .returned p k →
        Packable (symbol i) → ⟨loadedNode (nodeAt R.address (R.address r.F.symbol) t),
          loadedNode (.sym (symbol i).toNat), none⟩ ∈ es := by
  obtain ⟨facts, hperm, hfrom⟩ := h.written_from hZ hV hsort hdump
  obtain ⟨d, hd, f, recorded, hmem, hw, hf, hreads, hdumped, hclosed⟩ :=
    Edges.exists_of_forall₂ hfrom (hperm.mem_iff.mpr (R.functionFacts_mem hr))
  have hdelivers := h.delivers gunzip hcount hmem hf hw hreads hdumped hclosed
  obtain ⟨file, es, hfile, hes, hedges⟩ := hdelivers.edges .Assign
  refine ⟨d, hd, file, es, hdelivers.function, hfile, hes, fun i p k hi hfits => ?_⟩
  have hpage := h.mem_pages hreach hs hl hfuel hi hfits
  have hfact : _ ∈ factsOf R.address (R.address r.F.symbol) _ _ := mem_factsOf_page he hpage
  exact hedges.mem_iff.mpr (List.mem_map.mpr ⟨_, List.mem_filter.mpr ⟨hfact, by simp⟩, rfl⟩)

end RecordedProgram
end

/-! ## A program that looks a function up -/

def dlsymDecl : FunctionDecl where
  name := "dlsym"
  type :=
    { ReturnType := .named "ptr"
      params := [.named "ptr", .named "ptr"]
      isVarArg := false
      bounded := by decide }
  IntrinsicID := .not_intrinsic
  has_operands := Nat.zero_le _

def dlsymModule : Module String :=
  { sampleModule with getFunction := fun G => if G = "dlsym" then some dlsymDecl else none }

/-- `call ptr @dlsym(ptr null, ptr null)`. -/
def callDlsym : CallBase String where
  CalledOperand := .Constant (.GlobalValue "dlsym")
  FTy := dlsymDecl.type
  args := [.Constant .ConstantData, .Constant .ConstantData]
  has_params := le_rfl
  fixed := fun _ => rfl

def looksUpBody : List (Instruction String) := [⟨0, [], [], [], .Call callDlsym⟩]

theorem looksUpBody_distinct : (looksUpBody.map Instruction.id).Nodup := List.nodup_singleton 0

def looksUp : Function String := procedure "main" looksUpBody looksUpBody_distinct

def looksUpVisitor : EdgeVisitor String :=
  ((EdgeVisitor.run dlsymModule looksUp).toOption).getD {}

/-- `main` looks up the function at `0x401000`. -/
def lookedUp : RecordedProgram String where
  address s := if s = "main" then 1 else if s = "page" then 0x4000 else 2
  name := id
  functions := [⟨⟨dlsymModule, looksUp⟩, looksUpVisitor, rfl⟩]
  initializers := []
  pages a := if a = 0x4000 then [0x401000] else []
  distinct := List.nodup_singleton 1
  ordinary := by simp [IsGlobals]; decide
  pseudo := storedCall.pseudo

namespace lookedUp

/-- The page when the call has returned. -/
def config : Config Unit :=
  ((machine DlsymWalks.firstSymbol).run DlsymRuntime.initial DlsymWalks.firstCall).getD
    DlsymRuntime.initial

def graph : Graph String where
  record_debug_data := true
  functions := [⟨"main", none, looksUpVisitor.FW.ops, UInt32.ofNat looksUpVisitor.NumAllocas⟩]

def writer : Edges.GraphWriter String where
  StringBlobIndices := [([], 0)]
  StringBlob := [0]
  Symbols := [("main", 0), ("page", 1)]
  symbols_in_order := ["main", "page"]
  local_names := [0]
  function_data := [0, 0, 0, 1, 0, 0, 0, 0, 0, 0, 0, 0, 1, 0, 6]
  record_debug_data := true
  num_functions := 1

def image : Edges.GraphImage String where
  header := {
    magic_number := Edges.GRAPH_MAGIC_NUMBER
    function_data_compressed_size := 28
    debug_data_compressed_size := 12
    num_symbols := 2
    string_blob_length := 1
    has_debug_locals := 1
    total_num_locals := 1
    num_functions := 1
    function_array_length := 15 }
  debug_data := [40, 181, 47, 253, 32, 3, 25, 0, 0, 0, 0, 0]
  symbols := ["main", "page"]
  function_data := [40, 181, 47, 253, 32, 19, 153, 0, 0, 0, 0, 0, 0, 0, 0, 0, 1, 0, 0, 0, 0, 0, 0,
    0, 0, 1, 0, 6]

def bytes : Bytes :=
  Edges.graph_bytes image (List.replicate 8 0xff) (List.replicate 16 0xff) ++ List.replicate 4 0

def place (s : String) : Edges.Address := if s = "main" then 1 else if s = "page" then 0x4000 else 2

/-- The graph lies at the start of its section, and the memory is that of the configuration. -/
def object : EdgeOutput where
  obj := {
    isApple := false
    sections := [⟨"GR_graph_edges", 0x1000, bytes.length⟩]
    copyData n a :=
      if a = 0x1000 then .ok bytes
      else if a = 0x2000 then .ok image.debug_data
      else (DlsymWalks.snapshotOf config 0x4000).copyData n a
    resolvePointers n a :=
      if a = 0x1028 then .ok [0x2000]
      else if a = 0x1030 then .ok [1, 0x4000]
      else (DlsymWalks.snapshotOf config 0x4000).resolvePointers n a }
  symbolName _ := .ok (Edges.ascii "main")
  slm := none
  PrintCallArgumentCount := true

theorem reached : (machine DlsymWalks.firstSymbol).Reachable config := by
  have hsome : ((machine DlsymWalks.firstSymbol).run DlsymRuntime.initial
      DlsymWalks.firstCall).isSome = true := by decide
  obtain ⟨c, hc⟩ := Option.isSome_iff_exists.mp hsome
  refine ⟨DlsymWalks.firstCall, ?_⟩
  rw [config, hc]
  exact hc

theorem returned : config.calls () = .returned 0x10000 0 := by decide

theorem on_page : ∃ pg, config.pages 0x10000 = some pg ∧ pg.next = none ∧ pg.count = 1 := by
  have hview : (config.pages 0x10000).map (fun pg => (pg.next, pg.count)) = some (none, 1) := by
    decide
  obtain ⟨pg, hpg, hview⟩ := Option.map_eq_some_iff.mp hview
  exact ⟨pg, hpg, (Prod.mk.inj hview).1, (Prod.mk.inj hview).2⟩

theorem head : config.head = some 0x10000 := by decide

theorem chain : Chain config.pages config.head [0x10000] := by
  obtain ⟨pg, hpg, hnext, -⟩ := on_page
  rw [head]
  refine ⟨rfl, by rw [hpg]; rfl, ?_⟩
  have hlast : DlsymRuntime.nextOf config.pages 0x10000 = none := by
    rw [DlsymRuntime.nextOf, hpg, Option.bind_some, hnext]
  rw [hlast]
  rfl

theorem snapshot : Snapshot object.obj 0x4000 config := by
  obtain ⟨pg, hpg, hnext, hcount⟩ := on_page
  have hs := DlsymWalks.snapshot_single head hpg hnext hcount
  have hlisted : ∀ p, config.Listed p → p = 0x10000 := fun p hp =>
    DlsymWalks.listed_single head hpg hnext hp
  refine ⟨hs.head, hs.mapped, fun p pg hp hpg => ?_, fun p pg hp hpg => ?_, fun p pg hp hpg => ?_⟩
  · obtain rfl := hlisted p hp
    exact hs.next _ pg hp hpg
  · obtain rfl := hlisted p hp
    exact hs.count _ pg hp hpg
  · obtain rfl := hlisted p hp
    exact hs.pointers _ pg hp hpg

theorem found : DlsymWalks.pagePointers config.pages [0x10000] = [0x401000] := by decide +kernel

theorem place_packable (s : String) : Packable (place s) := by
  unfold place Packable
  split_ifs <;> decide

theorem fits : ∀ f ∈ graph.functions, f.Valid := by
  intro f hf
  obtain rfl := List.mem_singleton.mp hf
  refine { component := List.not_mem_nil, version := List.not_mem_nil, ops := fun op hop => ?_,
           num_locals := (by decide : 1 < 2 ^ 32), num_allocas := (by decide : 0 ≤ 1) }
  have hops : looksUpVisitor.FW.ops = [.freshLocal [], .symbol "page",
      .addEdge .DlsymPagePointer (.loc 0) (.sym "page") 0] := rfl
  rw [hops] at hop
  simp only [List.mem_cons, List.not_mem_nil, or_false] at hop
  rcases hop with rfl | rfl | rfl
  · exact List.not_mem_nil
  · trivial
  · exact ⟨(by decide : 0 < 65535), trivial⟩

theorem serialised :
    Edges.Serialised true Edges.zstd Edges.streamvbyte Edges.sampleSort place graph image where
  valid := fits
  written := ⟨writer, rfl, {
    symbols := (by decide : writer.symbols_in_order.length ≤ 2 ^ 31)
    string_blob := by decide
    local_names := by decide
    function_array := by decide
    function_data := by decide
    debug_data := by decide }⟩
  packable gv _ := place_packable gv

theorem laidOut : Edges.LaidOut object.obj place object.obj.sections [image] := by
  have hcopy : object.obj.copyData bytes.length 0x1000 = .ok bytes := rfl
  have hplaced : Edges.Placed object.obj place 0x1000 (0 + 0) image (List.replicate 8 0xff)
      (List.replicate 16 0xff) :=
    ⟨rfl, rfl, ⟨0x2000, by decide, rfl, rfl⟩, rfl⟩
  exact .graphs rfl hcopy (.graph hplaced (.padding _ 4)) .nil

theorem embedded : lookedUp.Embedded true Edges.zstd Edges.streamvbyte Edges.sampleSort place
    object 2 [graph] where
  addressed s := by
    simp only [lookedUp, place]
    split_ifs <;> rfl
  packable := place_packable
  name f hf name hname := by
    obtain rfl := Except.ok.inj hname
    obtain rfl := List.mem_singleton.mp hf
    decide
  pages s pointers hpointers := by
    have hnone : ∀ a, a = 1 ∨ a = 2 →
        (pointersOf object.obj 2 (Edges.Node.ofSymbol a)).toOption = none := by
      rintro a (rfl | rfl) <;> rfl
    unfold place at hpointers
    split_ifs at hpointers with hmain hpage
    · simp [hpointers, Except.toOption] at hnone
    · subst hpage
      rw [DlsymWalks.pointersOf_chain snapshot (place_packable "page") chain (by decide), found]
        at hpointers
      obtain rfl := Except.ok.inj hpointers
      rfl
    · simp [hpointers, Except.toOption] at hnone
  written := ⟨[image], .cons serialised .nil, laidOut⟩
  functions := by
    refine ⟨lookedUp.program.functions, .cons ?_ .nil, .refl _⟩
    have hsmall : looksUpVisitor.NumAllocas < 2 ^ 32 := by decide
    exact .function (r := ⟨⟨dlsymModule, looksUp⟩, looksUpVisitor, rfl⟩) none hsmall

end lookedUp

/-- The function that the call has found is assigned to its result. -/
theorem lookedUp.delivered : ∃ dump, ∃ d ∈ dump, ∃ file es,
    Edges.dumpEdges true Edges.zstd Edges.streamvbyte object 2 = .ok dump ∧
      Edges.LoadEdges.directory true d.tables (factsName .Assign) = some file ∧
      LoadedEdge.read (fun _ => none) 2 file = some es ∧
      ⟨⟨1, some 0⟩, ⟨0x401000, none⟩, none⟩ ∈ es := by
  have hok : (Edges.dumpEdges true Edges.zstd Edges.streamvbyte object 2).toOption.isSome =
      true := by decide +kernel
  cases hdump : Edges.dumpEdges true Edges.zstd Edges.streamvbyte object 2 with
  | error e => simp [hdump, Except.toOption] at hok
  | ok dump =>
    have hedge : (.loc 0, .sym "page", 0) ∈ edges looksUpVisitor.FW.ops .DlsymPagePointer := by
      decide
    obtain ⟨d, hd, file, es, -, hfile, hes, hfound⟩ := RecordedProgram.found_delivered
      lookedUp.embedded Edges.zstd_lossless Edges.streamvbyte_lossless
      (fun _ l => List.perm_insertionSort _ l) rfl hdump (fun _ => none)
      (List.mem_singleton_self _) hedge lookedUp.reached snapshot chain (by decide)
    refine ⟨dump, d, hd, file, es, rfl, hfile, hes, hfound () _ _ returned ?_⟩
    simp [Packable, DlsymWalks.firstSymbol]

end Bracelet.Reachability
