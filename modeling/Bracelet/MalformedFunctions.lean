import Bracelet.GuardedReader

/-!
# Malformed functions

The functions of a graph whose words nobody has checked.  The reader ends with a value or
an `Error` when every function that it comes to fits (`answers_readFunctions`): its
address has 48 bits when one is added, and so have the addresses of the symbols of its
edges; its local indices are below 65535; no edge has a null node.  It comes to a part of
a function when nothing before it was an `Error`.
-/
namespace Bracelet.Edges

/-! ## What the reader comes to -/

/-- A symbol of the table, or a local; another number is an `Error`. -/
def InRange (symbols : List Address) (number : UInt32) : Prop :=
  number &&& 1 ≠ 0 → (number >>> 1).toNat < symbols.length

/-- The address of the symbol has 48 bits when one is added; a local index is below 65535. -/
def NumberFits (symbols : List Address) (number : UInt32) : Prop :=
  if number &&& 1 ≠ 0 then ∀ a, symbols[(number >>> 1).toNat]? = some a → (a + 1) >>> 48 = 0
  else (number >>> 1).toNat < 65535

/-- The address is not the one whose node is null. -/
def NotNull (symbols : List Address) (number : UInt32) : Prop :=
  number &&& 1 ≠ 0 → ∀ a, symbols[(number >>> 1).toNat]? = some a → a + 1 ≠ 0

/-- The numbers of an edge. -/
structure EdgeFits (symbols : List Address) (e : UInt32 × UInt32) : Prop where
  dest : NumberFits symbols e.1
  source : InRange symbols e.1 → NumberFits symbols e.2
  notNull : InRange symbols e.1 → InRange symbols e.2 → NotNull symbols e.1 ∧ NotNull symbols e.2

/-- Edges up to the first one that is an `Error`. -/
def EndsFit (symbols : List Address) : List (UInt32 × UInt32) → Prop
  | [] => True
  | e :: ends =>
    EdgeFits symbols e ∧ (InRange symbols e.1 → InRange symbols e.2 → EndsFit symbols ends)

/-- The numbers that the words of edges stand for. -/
def edgeEnds : Bool → UInt32 → List UInt32 → List (UInt32 × UInt32)
  | true, prev, to_delta :: from_delta :: _ :: edge_data =>
    let to_number := prev + zigzag_decode to_delta
    let from_number := to_number + zigzag_decode from_delta
    (to_number, from_number) :: edgeEnds true from_number edge_data
  | false, prev, to_delta :: from_delta :: edge_data =>
    let to_number := prev + zigzag_decode to_delta
    let from_number := to_number + zigzag_decode from_delta
    (to_number, from_number) :: edgeEnds false from_number edge_data
  | _, _, _ => []

def FunctionInfo.ends (info : FunctionInfo) : List (UInt32 × UInt32) :=
  EdgeKind.all.flatMap fun kind => edgeEnds kind.indexed 0 (info.edge_data kind)

/-- The edges of a function can be asked for. -/
structure FunctionInfo.Fits (info : FunctionInfo) : Prop where
  valid : info.ends ≠ [] → info.function.valid = true
  ends : EndsFit info.symbol_addresses info.ends

/-- The address of the next function, when it is asked for. -/
def Frame.functionAddress (frame : Frame) : Result Address := do
  let (function_symbol_index, frame) ← frame.next_word
  let (_, frame) ← frame.next_word
  let (_, frame) ← frame.next_word
  let function_address ← symbol_address frame.symbol_addresses function_symbol_index.toNat
  let (num_locals, frame) ← frame.next_word
  let (num_allocas, frame) ← frame.next_word
  ensure (num_allocas ≤ num_locals) ""
  let _ ← frame.next_locals num_locals
  return function_address

/-- The next function of a frame can be read. -/
structure Frame.Fits (frame : Frame) : Prop where
  address : ∀ address, frame.functionAddress = .ok address → (address + 1) >>> 48 = 0
  edges : ∀ info frame', next_function true frame = .ok (info, frame') → info.Fits

/-! ## Nodes -/

section
variable {symbols : List Address} {number : UInt32} {function : Address}

theorem answers_mkSymbol {addr : Address} :
    Answers (Node.mkSymbol true addr) ↔ (addr + 1) >>> 48 = 0 := by
  rw [Node.mkSymbol, answers_bind, answers_assert, beq_iff_eq]
  exact ⟨fun h => h.1, fun h => ⟨h, fun _ _ => trivial⟩⟩

theorem answers_mkLocal (hfunction : (function + 1) >>> 48 = 0) {i : UInt64} :
    Answers (Node.mkLocal true function i) ↔ i + 1 < 0x10000 := by
  rw [Node.mkLocal, hfunction]
  simp only [beq_self_eq_true, assert_true, ok_bind]
  rw [answers_bind, answers_assert, decide_eq_true_eq]
  exact ⟨fun h => h.1, fun h => ⟨h, fun _ _ => trivial⟩⟩

/-- The index of a local. -/
theorem local_index (number : UInt32) :
    (number >>> 1).toUInt64 + 1 < 0x10000 ↔ (number >>> 1).toNat < 65535 := by
  have hlt := (number >>> 1).toNat_lt
  rw [UInt64.lt_iff_toNat_lt, UInt64.toNat_add, UInt32.toNat_toUInt64, UInt64.toNat_one,
    show (0x10000 : UInt64).toNat = 65536 by decide]
  omega

theorem answers_decode_node (hfunction : (function + 1) >>> 48 = 0) :
    Answers (decode_node true symbols number function) ↔ NumberFits symbols number := by
  unfold decode_node NumberFits
  by_cases hodd : number &&& 1 = 0
  · simp only [hodd, bne_self_eq_false, Bool.false_eq_true, if_false, ne_eq, not_true_eq_false]
    rw [answers_mkLocal hfunction, local_index]
  · have hbne : (number &&& 1 != 0) = true := by simpa using hodd
    simp only [hbne, if_true, ne_eq, hodd, not_false_eq_true]
    unfold symbol_address
    cases hget : symbols[(number >>> 1).toNat]? with
    | none => exact ⟨fun _ a ha => (nomatch ha), fun _ => trivial⟩
    | some a =>
      simp only [ok_bind, answers_mkSymbol]
      exact ⟨fun h b hb => Option.some.inj hb ▸ h, fun h => h a rfl⟩

/-- A number that fits is a node, or an `Error`. -/
theorem decode_node_ok_iff (hfunction : (function + 1) >>> 48 = 0)
    (hfits : NumberFits symbols number) :
    (∃ n, decode_node true symbols number function = .ok n) ↔ InRange symbols number := by
  have hanswers := (answers_decode_node hfunction).mpr hfits
  unfold InRange
  by_cases hodd : number &&& 1 = 0
  · refine ⟨fun _ h => absurd hodd h, fun _ => ?_⟩
    have hlt : (number >>> 1).toNat < 65535 := by simpa [NumberFits, hodd] using hfits
    simp only [decode_node, hodd, bne_self_eq_false, Bool.false_eq_true, if_false, Node.mkLocal,
      hfunction, beq_self_eq_true, assert_true, ok_bind, (local_index number).mpr hlt, decide_true]
    exact ⟨_, rfl⟩
  · have hbne : (number &&& 1 != 0) = true := by simpa using hodd
    simp only [decode_node, hbne, if_true, symbol_address, ne_eq, hodd, not_false_eq_true,
      true_implies] at hanswers ⊢
    cases hget : symbols[(number >>> 1).toNat]? with
    | none =>
      have hle := List.getElem?_eq_none_iff.mp hget
      refine ⟨fun hdecoded => ?_, fun hlt => absurd hlt (by omega)⟩
      obtain ⟨n, hn⟩ := hdecoded
      cases hn
    | some a =>
      simp only [hget, ok_bind] at hanswers
      have hshift := answers_mkSymbol.mp hanswers
      refine ⟨fun _ => (List.getElem?_eq_some_iff.mp hget).1, fun _ => ?_⟩
      simp only [ok_bind, Node.mkSymbol, hshift, beq_self_eq_true, assert_true]
      exact ⟨_, rfl⟩

theorem packable_iff {addr : Address} : Packable addr ↔ (addr + 1) >>> 48 = 0 ∧ addr + 1 ≠ 0 := by
  have hlt := addr.toNat_lt
  have hadd : (addr + 1).toNat = (addr.toNat + 1) % 2 ^ 64 := by
    rw [UInt64.toNat_add, UInt64.toNat_one]
  have hshift : ((addr + 1) >>> 48).toNat = (addr.toNat + 1) % 2 ^ 64 / 2 ^ 48 := by
    rw [UInt64.toNat_shiftRight, hadd, show (48 : UInt64).toNat % 64 = 48 by decide,
      Nat.shiftRight_eq_div_pow]
  rw [← UInt64.toNat_inj, hshift, ne_eq, ← UInt64.toNat_inj, hadd, UInt64.toNat_zero]
  unfold Packable
  omega

theorem valid_ofSymbol_iff {addr : Address} (h : (addr + 1) >>> 48 = 0) :
    (Node.ofSymbol addr).valid = true ↔ addr + 1 ≠ 0 := by
  refine ⟨fun hvalid h0 => ?_, fun hne => Node.valid_ofSymbol (packable_iff.mpr ⟨h, hne⟩)⟩
  rw [Node.ofSymbol, h0] at hvalid
  cases hvalid

/-- The node is not null. -/
theorem decode_node_valid (hfunction : Packable function) {n : Node}
    (h : decode_node true symbols number function = .ok n) :
    n.valid = true ↔ NotNull symbols number := by
  unfold decode_node at h
  unfold NotNull
  split at h
  next hbne =>
    have hodd : number &&& 1 ≠ 0 := by simpa using hbne
    obtain ⟨a, ha, h⟩ := bind_ok h
    have hget : symbols[(number >>> 1).toNat]? = some a := by
      unfold symbol_address at ha
      split at ha
      next => cases ha
      next b hb => rw [hb, Except.ok.inj ha]
    have hshift := answers_mkSymbol.mp (by rw [h]; trivial)
    rw [Node.mkSymbol_ok h, valid_ofSymbol_iff hshift]
    refine ⟨fun hne _ b hb => ?_, fun hall => hall hodd a hget⟩
    rw [hget] at hb
    exact Option.some.inj hb ▸ hne
  next hbne =>
    have heven : number &&& 1 = 0 := by simpa using hbne
    refine ⟨fun _ hodd => absurd heven hodd, fun _ => ?_⟩
    have hindex := (answers_mkLocal (packable_iff.mp hfunction).1).mp (by rw [h]; trivial)
    rw [Node.mkLocal_ok h]
    refine Node.valid_ofLocal hfunction ?_
    rw [UInt32.toNat_toUInt64]
    exact (local_index number).mp hindex

end

/-! ## The edges of a function -/

section
variable {symbols : List Address} {α β : Type}

/-- The numbers are of symbols of the table and of locals. -/
def AllInRange (symbols : List Address) (ends : List (UInt32 × UInt32)) : Prop :=
  ∀ e ∈ ends, InRange symbols e.1 ∧ InRange symbols e.2

theorem endsFit_append {ends more : List (UInt32 × UInt32)} :
    EndsFit symbols (ends ++ more) ↔
      EndsFit symbols ends ∧ (AllInRange symbols ends → EndsFit symbols more) := by
  induction ends with
  | nil => exact ⟨fun h => ⟨trivial, fun _ => h⟩, fun h => h.2 fun _ he => nomatch he⟩
  | cons e ends ih =>
    rw [List.cons_append, EndsFit, EndsFit, ih]
    constructor
    · rintro ⟨he, hrest⟩
      refine ⟨⟨he, fun hto hfrom => (hrest hto hfrom).1⟩, fun hall => ?_⟩
      obtain ⟨⟨hto, hfrom⟩, hall⟩ := List.forall_mem_cons.mp hall
      exact (hrest hto hfrom).2 hall
    · rintro ⟨⟨he, hends⟩, hmore⟩
      refine ⟨he, fun hto hfrom => ⟨hends hto hfrom, fun hall => hmore ?_⟩⟩
      exact List.forall_mem_cons.mpr ⟨⟨hto, hfrom⟩, hall⟩

/-- What is read of edges: it answers when they fit, and with a value when all their
numbers are in range. -/
structure Follows (symbols : List Address) (ends : List (UInt32 × UInt32)) (r : Result α) :
    Prop where
  answers : Answers r ↔ EndsFit symbols ends
  ok : EndsFit symbols ends → ((∃ a, r = .ok a) ↔ AllInRange symbols ends)

theorem follows_ok (a : α) : Follows symbols [] (.ok a : Result α) :=
  ⟨⟨fun _ => trivial, fun _ => trivial⟩, fun _ => ⟨fun _ _ he => (nomatch he), fun _ => ⟨a, rfl⟩⟩⟩

theorem Follows.bind {ends more : List (UInt32 × UInt32)} {r : Result α} {k : α → Result β}
    (hr : Follows symbols ends r) (hk : ∀ a, Follows symbols more (k a)) :
    Follows symbols (ends ++ more) (r >>= k) := by
  have hsplit : ∀ {P : Prop}, EndsFit symbols ends →
      ((AllInRange symbols ends → P) ↔ ∀ a, r = .ok a → P) := by
    intro P hends
    rw [← hr.ok hends]
    exact ⟨fun h a ha => h ⟨a, ha⟩, fun h ⟨a, ha⟩ => h a ha⟩
  refine ⟨?_, fun hfits => ?_⟩
  · rw [answers_bind, endsFit_append, hr.answers]
    refine and_congr_right fun hends => ?_
    rw [hsplit hends]
    exact forall₂_congr fun a _ => (hk a).answers
  · obtain ⟨hends, hmore⟩ := endsFit_append.mp hfits
    have hboth : AllInRange symbols (ends ++ more) ↔
        AllInRange symbols ends ∧ AllInRange symbols more := List.forall_mem_append
    rw [hboth]
    constructor
    · rintro ⟨b, hb⟩
      obtain ⟨a, ha, hb⟩ := bind_ok hb
      have hall := (hr.ok hends).mp ⟨a, ha⟩
      exact ⟨hall, ((hk a).ok (hmore hall)).mp ⟨b, hb⟩⟩
    · rintro ⟨hall, hall'⟩
      obtain ⟨a, ha⟩ := (hr.ok hends).mpr hall
      obtain ⟨b, hb⟩ := ((hk a).ok (hmore hall)).mpr hall'
      exact ⟨b, by rw [ha]; exact hb⟩

end

section
variable {symbols : List Address} {function : Node} {τ : Type} {g : τ → Edge → τ}
  (hvalid : function.valid = true) (hfunction : Packable function.symbol)

include hfunction in
/-- One edge. -/
theorem follows_edge (e : UInt32 × UInt32) (idx : UInt32) :
    Follows symbols [e] (do
      let to_node ← decode_node true symbols e.1 function.symbol
      let from_node ← decode_node true symbols e.2 function.symbol
      mkEdge true to_node from_node idx) := by
  have hshift := (packable_iff.mp hfunction).1
  have hsingle : EndsFit symbols [e] ↔ EdgeFits symbols e :=
    ⟨fun h => h.1, fun h => ⟨h, fun _ _ => trivial⟩⟩
  have hrange : AllInRange symbols [e] ↔ InRange symbols e.1 ∧ InRange symbols e.2 :=
    List.forall_mem_singleton
  have hedge : ∀ to_node from_node : Node, Answers (mkEdge true to_node from_node idx) ↔
      to_node.valid = true ∧ from_node.valid = true := by
    intro to_node from_node
    simp only [mkEdge, answers_bind, answers_assert, assert_eq_ok]
    exact ⟨fun h => ⟨h.1, (h.2 () h.1).1⟩, fun h => ⟨h.1, fun _ _ => ⟨h.2, fun _ _ => trivial⟩⟩⟩
  refine ⟨?_, fun hfits => ?_⟩
  · rw [hsingle, answers_bind, answers_decode_node hshift]
    constructor
    · rintro ⟨hdest, hrest⟩
      -- What is asked of the second node, and of both, once the first one is read.
      have hsource : InRange symbols e.1 → ∃ n, decode_node true symbols e.1 function.symbol = .ok n ∧
          NumberFits symbols e.2 ∧ ∀ m, decode_node true symbols e.2 function.symbol = .ok m →
            Answers (mkEdge true n m idx) := by
        intro hto
        obtain ⟨n, hn⟩ := (decode_node_ok_iff hshift hdest).mpr hto
        obtain ⟨hsource, hmk⟩ := answers_bind.mp (hrest n hn)
        exact ⟨n, hn, (answers_decode_node hshift).mp hsource, hmk⟩
      refine ⟨hdest, fun hto => ?_, fun hto hfrom => ?_⟩
      · obtain ⟨n, -, hsource, -⟩ := hsource hto
        exact hsource
      · obtain ⟨n, hn, hsource, hmk⟩ := hsource hto
        obtain ⟨m, hm⟩ := (decode_node_ok_iff hshift hsource).mpr hfrom
        obtain ⟨hnvalid, hmvalid⟩ := (hedge n m).mp (hmk m hm)
        exact ⟨(decode_node_valid hfunction hn).mp hnvalid,
          (decode_node_valid hfunction hm).mp hmvalid⟩
    · rintro ⟨hdest, hsource, hnull⟩
      refine ⟨hdest, fun n hn => ?_⟩
      have hto := (decode_node_ok_iff hshift hdest).mp ⟨n, hn⟩
      rw [answers_bind, answers_decode_node hshift]
      refine ⟨hsource hto, fun m hm => ?_⟩
      have hfrom := (decode_node_ok_iff hshift (hsource hto)).mp ⟨m, hm⟩
      obtain ⟨hnull₁, hnull₂⟩ := hnull hto hfrom
      exact (hedge n m).mpr ⟨(decode_node_valid hfunction hn).mpr hnull₁,
        (decode_node_valid hfunction hm).mpr hnull₂⟩
  · obtain ⟨hdest, hsource, hnull⟩ := hsingle.mp hfits
    rw [hrange]
    constructor
    · rintro ⟨edge, h⟩
      obtain ⟨n, hn, h⟩ := bind_ok h
      obtain ⟨m, hm, -⟩ := bind_ok h
      have hto := (decode_node_ok_iff hshift hdest).mp ⟨n, hn⟩
      exact ⟨hto, (decode_node_ok_iff hshift (hsource hto)).mp ⟨m, hm⟩⟩
    · rintro ⟨hto, hfrom⟩
      obtain ⟨n, hn⟩ := (decode_node_ok_iff hshift hdest).mpr hto
      obtain ⟨m, hm⟩ := (decode_node_ok_iff hshift (hsource hto)).mpr hfrom
      obtain ⟨hnull₁, hnull₂⟩ := hnull hto hfrom
      have hnvalid := (decode_node_valid hfunction hn).mpr hnull₁
      have hmvalid := (decode_node_valid hfunction hm).mpr hnull₂
      refine ⟨⟨n, m, idx⟩, ?_⟩
      rw [hn, ok_bind, hm, ok_bind, mkEdge, hnvalid, hmvalid]
      rfl

include hvalid hfunction in
/-- The edges of a kind, whose words are so many for each. -/
theorem follows_visitEdgesInner : ∀ (indexed : Bool) (prev : UInt32) (words : List UInt32) (t : τ),
    words.length % (if indexed then 3 else 2) = 0 →
      Follows symbols (edgeEnds indexed prev words)
        (visitEdgesInner true symbols function indexed (fun t e => .ok (g t e)) prev words t)
  | true, prev, [], t, _ | false, prev, [], t, _ => by
    simp only [edgeEnds, visitEdgesInner]
    exact follows_ok t
  | true, _, [_], _, h | true, _, [_, _], _, h | false, _, [_], _, h => by simp at h
  | true, prev, to_delta :: from_delta :: idx :: words, t, h => by
    have hrest : words.length % 3 = 0 := by
      have h : (words.length + 3) % 3 = 0 := h
      omega
    simp only [edgeEnds, visitEdgesInner, hvalid, assert_true, ok_bind]
    generalize prev + zigzag_decode to_delta = to_number
    generalize to_number + zigzag_decode from_delta = from_number
    have hedge : Follows symbols [(to_number, from_number)] _ := follows_edge hfunction _ idx
    have hboth := hedge.bind fun e =>
      follows_visitEdgesInner true from_number words (g t e) hrest
    simpa only [bind_assoc, List.singleton_append] using hboth
  | false, prev, to_delta :: from_delta :: words, t, h => by
    have hrest : words.length % 2 = 0 := by
      have h : (words.length + 2) % 2 = 0 := h
      omega
    simp only [edgeEnds, visitEdgesInner, hvalid, assert_true, ok_bind]
    generalize prev + zigzag_decode to_delta = to_number
    generalize to_number + zigzag_decode from_delta = from_number
    have hedge : Follows symbols [(to_number, from_number)] _ := follows_edge hfunction _ 0
    have hboth := hedge.bind fun e =>
      follows_visitEdgesInner false from_number words (g t e) hrest
    simpa only [bind_assoc, List.singleton_append] using hboth

/-- The null node has no edges. -/
theorem visitEdgesInner_null (hnull : function.valid = false) {indexed : Bool} {prev : UInt32}
    {words : List UInt32} {t : τ} (hlength : words.length % (if indexed then 3 else 2) = 0)
    {cb : τ → Edge → Result τ} :
    visitEdgesInner true symbols function indexed cb prev words t =
      if edgeEnds indexed prev words = [] then .ok t else .error .abort := by
  match indexed, words, hlength with
  | true, [], _ | false, [], _ => simp only [visitEdgesInner, edgeEnds, if_true]
  | true, [_], h | true, [_, _], h | false, [_], h => simp at h
  | true, _ :: _ :: _ :: _, _ | false, _ :: _ :: _, _ =>
    simp only [visitEdgesInner, edgeEnds, hnull, reduceCtorEq, if_false]
    rfl

end

/-- What a function that is read is given as: the node of an address, and words of edges. -/
structure FunctionInfo.Read (info : FunctionInfo) : Prop where
  function : ∃ address : Address, (address + 1) >>> 48 = 0 ∧ info.function = Node.ofSymbol address
  words : ∀ kind, (info.edge_data kind).length % kind.NUM_COMPONENTS = 0

namespace FunctionInfo

variable {info : FunctionInfo} {σ : Type} {f : σ → FunctionInfo → Edge → σ}

theorem Read.visitEdges (h : info.Read) {τ : Type} {cb : τ → Edge → Result τ} (kind : EdgeKind)
    (t : τ) : Guarded.visitEdges info kind cb t = info.visitEdges true kind cb t := by
  rw [Guarded.visitEdges, h.words kind]
  rfl

/-- **All edges of a function can be asked for when they fit.** -/
theorem Read.answers_visitAll (h : info.Read) (s : σ) :
    Answers (Guarded.visitAll f s info) ↔ info.Fits := by
  have hlength : ∀ kind : EdgeKind,
      (info.edge_data kind).length % (if kind.indexed then 3 else 2) = 0 := fun kind => by
    have hwords := h.words kind
    unfold EdgeKind.NUM_COMPONENTS at hwords
    exact hwords
  obtain ⟨address, hshift, hfunction⟩ := h.function
  cases hvalid : info.function.valid with
  | true =>
    have hpack : Packable address := by
      refine packable_iff.mpr ⟨hshift, (valid_ofSymbol_iff hshift).mp ?_⟩
      rw [← hfunction, hvalid]
    have hsymbol : Packable info.function.symbol := by
      rw [hfunction, Node.symbol_ofSymbol hpack]
      exact hpack
    have hkinds : ∀ (kinds : List EdgeKind) (s : σ), Follows info.symbol_addresses
        (kinds.flatMap fun kind => edgeEnds kind.indexed 0 (info.edge_data kind))
        (kinds.foldlM (fun s kind => Guarded.visitEdges info kind (fun s e => .ok (f s info e)) s)
          s) := by
      intro kinds
      induction kinds with
      | nil => exact fun s => follows_ok s
      | cons kind kinds ih =>
        intro s
        rw [List.flatMap_cons, List.foldlM_cons, h.visitEdges]
        exact (follows_visitEdgesInner hvalid hsymbol kind.indexed 0 _ s (hlength kind)).bind ih
    refine (hkinds EdgeKind.all s).answers.trans ⟨fun hends => ⟨fun _ => hvalid, hends⟩, fun hfits => ?_⟩
    exact hfits.ends
  | false =>
    have hkinds : ∀ (kinds : List EdgeKind) (s : σ), Answers (kinds.foldlM
        (fun s kind => Guarded.visitEdges info kind (fun s e => .ok (f s info e)) s) s) ↔
        kinds.flatMap (fun kind => edgeEnds kind.indexed 0 (info.edge_data kind)) = [] := by
      intro kinds
      induction kinds with
      | nil => exact fun s => ⟨fun _ => rfl, fun _ => trivial⟩
      | cons kind kinds ih =>
        intro s
        rw [List.foldlM_cons, h.visitEdges, List.flatMap_cons, List.append_eq_nil_iff,
          FunctionInfo.visitEdges, visitEdgesInner_null hvalid (hlength kind)]
        split
        next hnil => exact (ih s).trans ⟨fun hrest => ⟨hnil, hrest⟩, fun hboth => hboth.2⟩
        next hne => exact ⟨fun hanswers => hanswers.elim, fun hboth => absurd hboth.1 hne⟩
    rw [Guarded.visitAll, hkinds]
    constructor
    · intro hnil
      refine ⟨fun hne => absurd hnil hne, ?_⟩
      rw [FunctionInfo.ends, hnil]
      trivial
    · intro hfits
      by_contra hne
      rw [hfits.valid hne] at hvalid
      cases hvalid

end FunctionInfo
/-! ## Functions -/

section
variable {frame : Frame}

theorem answers_symbol_address {symbols : List Address} {idx : Nat} :
    Answers (symbol_address symbols idx) := by
  unfold symbol_address
  split <;> trivial

theorem answers_next_words {count : Nat} : Answers (frame.next_words count) :=
  answers_bind.mpr ⟨answers_ensure, fun _ _ => trivial⟩

theorem answers_next_word : Answers frame.next_word :=
  answers_bind.mpr ⟨answers_next_words, fun _ _ => trivial⟩

theorem answers_next_locals {num_locals : UInt32} : Answers (frame.next_locals num_locals) := by
  unfold Frame.next_locals
  split
  · exact answers_bind.mpr
      ⟨answers_bind.mpr ⟨answers_ensure, fun _ _ => trivial⟩, fun _ _ => trivial⟩
  · trivial

theorem answers_string {gdd : GraphDebugData} {idx : Nat} : Answers (gdd.string idx) := by
  unfold GraphDebugData.string
  split <;> trivial

theorem answers_next_edges (state : (EdgeKind → List UInt32) × Frame) (kind : EdgeKind) :
    Answers (next_edges state kind) :=
  answers_bind.mpr ⟨answers_next_word, fun _ _ =>
    answers_bind.mpr ⟨answers_next_words, fun _ _ => trivial⟩⟩

/-- The next function of a frame, but for its edges. -/
theorem answers_next_function : Answers (next_function true frame) ↔
    ∀ address, frame.functionAddress = .ok address → (address + 1) >>> 48 = 0 := by
  constructor
  · intro h address haddress
    obtain ⟨⟨w₁, f₁⟩, h₁, haddress⟩ := bind_ok haddress
    obtain ⟨⟨w₂, f₂⟩, h₂, haddress⟩ := bind_ok haddress
    obtain ⟨⟨w₃, f₃⟩, h₃, haddress⟩ := bind_ok haddress
    obtain ⟨a, ha, haddress⟩ := bind_ok haddress
    obtain ⟨⟨num_locals, f₄⟩, h₄, haddress⟩ := bind_ok haddress
    obtain ⟨⟨num_allocas, f₅⟩, h₅, haddress⟩ := bind_ok haddress
    obtain ⟨_, hle, haddress⟩ := bind_ok haddress
    obtain ⟨⟨debug_data, f₆⟩, h₆, haddress⟩ := bind_ok haddress
    obtain rfl := Except.ok.inj haddress
    have hle := ensure_eq_ok.mp hle
    simp only [next_function, h₁, h₂, h₃, ha, h₄, h₅, hle, h₆, ensure_true, ok_bind] at h
    exact answers_mkSymbol.mp (answers_bind.mp h).1
  · intro h
    refine answers_bind.mpr ⟨answers_next_word, fun ⟨w₁, f₁⟩ h₁ => ?_⟩
    refine answers_bind.mpr ⟨answers_next_word, fun ⟨w₂, f₂⟩ h₂ => ?_⟩
    refine answers_bind.mpr ⟨answers_next_word, fun ⟨w₃, f₃⟩ h₃ => ?_⟩
    refine answers_bind.mpr ⟨answers_symbol_address, fun a ha => ?_⟩
    refine answers_bind.mpr ⟨answers_next_word, fun ⟨num_locals, f₄⟩ h₄ => ?_⟩
    refine answers_bind.mpr ⟨answers_next_word, fun ⟨num_allocas, f₅⟩ h₅ => ?_⟩
    refine answers_bind.mpr ⟨answers_ensure, fun _ hle => ?_⟩
    refine answers_bind.mpr ⟨answers_next_locals, fun ⟨debug_data, f₆⟩ h₆ => ?_⟩
    have hle := ensure_eq_ok.mp hle
    have haddress : frame.functionAddress = .ok a := by
      simp only [Frame.functionAddress, h₁, h₂, h₃, ha, h₄, h₅, hle, h₆, ensure_true, ok_bind]
      rfl
    refine answers_bind.mpr ⟨answers_mkSymbol.mpr (h a haddress), fun _ _ => ?_⟩
    refine answers_bind.mpr ⟨answers_string, fun _ _ => ?_⟩
    refine answers_bind.mpr ⟨answers_string, fun _ _ => ?_⟩
    exact answers_bind.mpr ⟨answers_foldlM_of_step answers_next_edges _ _, fun _ _ => trivial⟩

/-- The words of the edges that are read. -/
theorem next_edges_words {state state' : (EdgeKind → List UInt32) × Frame} {kind : EdgeKind}
    (hstate : ∀ k, (state.1 k).length % k.NUM_COMPONENTS = 0)
    (h : next_edges state kind = .ok state') (k : EdgeKind) :
    (state'.1 k).length % k.NUM_COMPONENTS = 0 := by
  obtain ⟨⟨edge_count, f₁⟩, -, h⟩ := bind_ok h
  obtain ⟨⟨data, f₂⟩, hdata, h⟩ := bind_ok h
  obtain rfl := Except.ok.inj h
  obtain ⟨_, hle, hdata⟩ := bind_ok hdata
  have hle := of_decide_eq_true (ensure_eq_ok.mp hle)
  obtain ⟨hdata, -⟩ := Prod.mk.inj (Except.ok.inj hdata)
  show (Function.update state.1 kind data k).length % _ = 0
  by_cases hk : k = kind
  · subst hk
    rw [Function.update_self, ← hdata, List.length_take, Nat.min_eq_left hle]
    exact Nat.mul_mod_right _ _
  · rw [Function.update_of_ne hk]
    exact hstate k

theorem next_function_read {info : FunctionInfo} {frame' : Frame}
    (h : next_function true frame = .ok (info, frame')) : info.Read := by
  obtain ⟨⟨w₁, f₁⟩, -, h⟩ := bind_ok h
  obtain ⟨⟨w₂, f₂⟩, -, h⟩ := bind_ok h
  obtain ⟨⟨w₃, f₃⟩, -, h⟩ := bind_ok h
  obtain ⟨a, -, h⟩ := bind_ok h
  obtain ⟨⟨num_locals, f₄⟩, -, h⟩ := bind_ok h
  obtain ⟨⟨num_allocas, f₅⟩, -, h⟩ := bind_ok h
  obtain ⟨-, -, h⟩ := bind_ok h
  obtain ⟨⟨debug_data, f₆⟩, -, h⟩ := bind_ok h
  obtain ⟨function, hfunction, h⟩ := bind_ok h
  obtain ⟨sComp, -, h⟩ := bind_ok h
  obtain ⟨vComp, -, h⟩ := bind_ok h
  obtain ⟨⟨edge_data, f₇⟩, hedges, h⟩ := bind_ok h
  obtain ⟨rfl, -⟩ := Prod.mk.inj (Except.ok.inj h)
  refine ⟨⟨a, answers_mkSymbol.mp (by rw [hfunction]; trivial), Node.mkSymbol_ok hfunction⟩, ?_⟩
  exact foldlM_keeps (P := fun state => ∀ k, (state.1 k).length % k.NUM_COMPONENTS = 0)
    (fun state hstate kind _ state' h => next_edges_words hstate h)
    (fun k => Nat.zero_mod _) hedges

end

/-! ## The functions of a graph -/

section
variable {σ : Type} (f : σ → FunctionInfo → Edge → σ)

/-- The places in a frame that the reader comes to with so many functions left: the
functions before are read and visited. -/
inductive ComesToFunction : Nat → Frame → σ → Frame → Prop
  | here {n frame s} : ComesToFunction (n + 1) frame s frame
  | later {n frame info frame₁ s s₁ frame'} : next_function true frame = .ok (info, frame₁) →
      Guarded.visitAll f s info = .ok s₁ → ComesToFunction n frame₁ s₁ frame' →
        ComesToFunction (n + 1) frame s frame'

variable {f}

/-- **The functions of a frame.** -/
theorem answers_readFunctions {n : Nat} {frame : Frame} {s : σ} :
    Answers (readFunctions true (Guarded.visitAll f) n frame s) ↔
      ∀ frame', ComesToFunction f n frame s frame' → frame'.Fits := by
  induction n generalizing frame s with
  | zero => exact ⟨fun _ _ h => (nomatch h), fun _ => trivial⟩
  | succ n ih =>
    rw [readFunctions, answers_bind, answers_next_function]
    constructor
    · rintro ⟨haddress, hrest⟩ frame' hcomes
      cases hcomes with
      | here =>
        refine ⟨haddress, fun info frame₁ hinfo => ?_⟩
        exact ((next_function_read hinfo).answers_visitAll s).mp (answers_bind.mp (hrest _ hinfo)).1
      | later hinfo hvisit hcomes =>
        exact ih.mp ((answers_bind.mp (hrest _ hinfo)).2 _ hvisit) frame' hcomes
    · intro h
      refine ⟨(h frame .here).address, fun ⟨info, frame₁⟩ hinfo => answers_bind.mpr ⟨?_, ?_⟩⟩
      · exact ((next_function_read hinfo).answers_visitAll s).mpr ((h frame .here).edges _ _ hinfo)
      · exact fun s₁ hvisit => ih.mpr fun frame' hcomes => h frame' (.later hinfo hvisit hcomes)

end

end Bracelet.Edges
