import Bracelet.EdgeReader

/-!
# The reader and its buffers

`readEdges` on bytes that nobody has checked.  Here everything that the program cannot
go on after ends a read in the same way as a failed assertion: a buffer there is no
memory for (`memory` bytes is the most there can be), a size computation that underflows,
and an access outside of the bytes that are held.  The two libraries respect the sizes
that they are given.

`Answers` says that a read comes to its end, with a value or with an `Error`.
-/
namespace Bracelet.Edges

/-! ## Answers -/

def Answers {α : Type} : Result α → Prop
  | .ok _ => True
  | .error (.error _) => True
  | .error _ => False

section
variable {α β σ : Type}

@[simp] theorem answers_ok (a : α) : Answers (.ok a : Result α) := trivial

@[simp] theorem answers_error (messages : List String) :
    Answers (.error (.error messages) : Result α) := trivial

@[simp] theorem not_answers_abort : ¬ Answers (.error .abort : Result α) := id

theorem answers_bind {x : Result α} {k : α → Result β} :
    Answers (x >>= k) ↔ Answers x ∧ ∀ a, x = .ok a → Answers (k a) := by
  rcases x with (messages | _ | _) | a
  · exact ⟨fun _ => ⟨trivial, nofun⟩, fun _ => trivial⟩
  · exact ⟨fun h => h.elim, fun h => h.1.elim⟩
  · exact ⟨fun h => h.elim, fun h => h.1.elim⟩
  · exact ⟨fun h => ⟨trivial, fun b hb => Except.ok.inj hb ▸ h⟩, fun h => h.2 a rfl⟩

theorem answers_ensure {cond : Bool} {message : String} : Answers (ensure cond message) := by
  unfold ensure
  split <;> trivial

theorem ensure_eq_ok {cond : Bool} {message : String} {u : Unit} :
    ensure cond message = .ok u ↔ cond = true := by
  cases cond <;> simp [ensure]

theorem answers_assert {cond : Bool} : Answers (assert true cond) ↔ cond = true := by
  cases cond <;> simp [assert]

theorem assert_eq_ok {cond : Bool} {u : Unit} : assert true cond = .ok u ↔ cond = true := by
  cases cond <;> simp [assert]

theorem answers_tryContext {r : Result α} {context : String} :
    Answers (tryContext r context) ↔ Answers r := by
  rcases r with (messages | _ | _) | a <;> rfl

theorem tryContext_eq_ok_iff {r : Result α} {context : String} {a : α} :
    tryContext r context = .ok a ↔ r = .ok a := by
  rcases r with (messages | _ | _) | b <;> simp [tryContext]

/-- A fold answers when every step that it comes to does. -/
theorem answers_foldlM {step : σ → α → Result σ} {l : List α} {s : σ} :
    Answers (l.foldlM step s) ↔ ∀ before a after s', l = before ++ a :: after →
      before.foldlM step s = .ok s' → Answers (step s' a) := by
  induction l generalizing s with
  | nil => exact ⟨fun _ before a after _ h => by simp at h, fun _ => trivial⟩
  | cons a l ih =>
    rw [List.foldlM_cons, answers_bind]
    constructor
    · rintro ⟨hone, hrest⟩ (_ | ⟨b, before⟩) a' after s' hl hbefore
      · obtain ⟨rfl, -⟩ := List.cons.inj hl
        exact Except.ok.inj hbefore ▸ hone
      · obtain ⟨rfl, rfl⟩ := List.cons.inj hl
        rw [List.foldlM_cons] at hbefore
        obtain ⟨s₁, hs₁, hbefore⟩ := bind_ok hbefore
        exact ih.mp (hrest s₁ hs₁) before a' after s' rfl hbefore
    · intro h
      refine ⟨h [] a l s rfl rfl, fun s₁ hs₁ => ih.mpr fun before a' after s' hl hbefore => ?_⟩
      refine h (a :: before) a' after s' (by rw [hl, List.cons_append]) ?_
      rw [List.foldlM_cons, hs₁]
      exact hbefore

/-- Steps that always answer. -/
theorem answers_foldlM_of_step {step : σ → α → Result σ} (h : ∀ s a, Answers (step s a))
    (l : List α) (s : σ) : Answers (l.foldlM step s) :=
  answers_foldlM.mpr fun _ a _ s' _ _ => h s' a

end

/-- An object that gives what it is asked for or an `Error`. -/
structure AnsweringObject extends Object where
  copyData_answers : ∀ n addr, Answers (copyData n addr)
  resolvePointers_answers : ∀ n addr, Answers (resolvePointers n addr)

/-! ## The reader -/

namespace Guarded

section
variable (memory : Nat) (Z : Zstd) (V : StreamVByte)

/-- `resize(n)`, whose argument has 64 bits. -/
def resize (buffer : Bytes) (n : Nat) : Result Bytes := do
  assert true (n % 2 ^ 64 ≤ memory)
  return Edges.resize buffer (n % 2 ^ 64)

def parse_debug_data (target : Object) (decompressed_debug_data : Bytes) (header : GraphHeader)
    (debug_data_address : Address) : Result (GraphDebugData × Bytes) := do
  assert true (debug_data_address != 0)
  let address := hex debug_data_address.toNat
  let size := header.debug_data_compressed_size.toNat
  let compressed_debug_data ← tryContext (target.copyData size debug_data_address)
    s!"Reading debug data at address {address}"
  match Z.getFrameContentSize compressed_debug_data with
  | .unknown | .error => .error (.error ["Unable to get zstd size for debug data"])
  | .size debug_data_size => do
    let buffer ← resize memory decompressed_debug_data (debug_data_size + STREAMVBYTE_PADDING)
    match Z.decompress buffer.length compressed_debug_data with
    | .error name => .error (.error [s!"ZSTD decompression failed, debug data {name}, {size}"])
    | .ok data => do
      assert true (data.length == debug_data_size)
      let full_decompressed_debug_data := overwrite buffer data
      let blob_length := header.string_blob_length.toNat
      ensure (blob_length ≤ full_decompressed_debug_data.length) "string blob length too large"
      let string_blob := full_decompressed_debug_data.take blob_length
      let total_num_locals := header.total_num_locals.toNat
      let string_indices_ref ←
        if header.has_debug_locals != 0 then do
          let encoded_local_indices := full_decompressed_debug_data.drop blob_length
          -- The padding is subtracted from the size.
          assert true (STREAMVBYTE_PADDING ≤ encoded_local_indices.length)
          let encoded_size := encoded_local_indices.length - STREAMVBYTE_PADDING
          ensure (V.validate_stream encoded_local_indices encoded_size total_num_locals)
            (s!"Failed to validate debug data local index stream ({total_num_locals} locals " ++
              s!"encoded into {encoded_size} bytes)")
          pure (some (V.delta_decode encoded_local_indices total_num_locals 0))
        else pure none
      let string_offsets ← string_offsets_from string_blob (string_blob.length + 1) 0
      if string_blob != [] then
        ensure (string_blob.getLast? == some 0) "string_blob doesn't end with '"
      -- A string is read up to its NUL.
      assert true (string_offsets.all fun offset => (string_blob.drop offset).contains 0)
      return (⟨string_blob, string_indices_ref, string_offsets⟩, full_decompressed_debug_data)

def consumeOneGraph (target : Object) (decoder : FrameDecoder) (c : Cursor) :
    Result (Frame × FrameDecoder × Cursor) := do
  let (bytes, c) ← c.consumeBytes GraphHeader.size "graph header"
  let header := GraphHeader.ofBytes bytes
  assert true (header.magic_number == GRAPH_MAGIC_NUMBER)
  let (addresses, c) ← c.consumeAddresses target 1 "debug data address"
  let debug_data_address := addresses.headD 0
  let (symbol_addresses, c) ← c.consumeAddresses target header.num_symbols.toNat "symbol addresses"
  let (compressed_function_data, c) ←
    c.consumeBytes header.function_data_compressed_size.toNat "compressed function data"
  match Z.getFrameContentSize compressed_function_data with
  | .error => .error (.error ["Unable to get zstd size for function data"])
  | .unknown => .error (.error ["Missing zstd size for function data"])
  | .size function_data_size => do
    let buffer ← resize memory decoder.function_data_decompressed
      (function_data_size + STREAMVBYTE_PADDING)
    -- `zstd` is told that the buffer has the size of the data.
    assert true (function_data_size ≤ buffer.length)
    match Z.decompress function_data_size compressed_function_data with
    | .error _ => .error (.error ["ZSTD decompression failed, function data"])
    | .ok data => do
      assert true (data.length == function_data_size)
      let function_data_decompressed := overwrite buffer data
      let length := header.function_array_length.toNat
      ensure (V.validate_stream function_data_decompressed function_data_size length)
        "Invalid streamvbyte function data"
      let function_data := V.decode function_data_decompressed length
      let (debug_data, decompressed_debug_data) ←
        parse_debug_data memory Z V target decoder.decompressed_debug_data header debug_data_address
      return ({ header, function_data, symbol_addresses, debug_data },
        { function_data_decompressed, decompressed_debug_data }, c)

end

section
variable {σ : Type}

/-- The edges of a kind; their words are read in steps of the number of components. -/
def visitEdges {τ : Type} (info : FunctionInfo) (kind : EdgeKind) (cb : τ → Edge → Result τ)
    (t : τ) : Result τ := do
  assert true ((info.edge_data kind).length % kind.NUM_COMPONENTS == 0)
  info.visitEdges true kind cb t

/-- A callback that asks for all edges. -/
def visitAll (f : σ → FunctionInfo → Edge → σ) (s : σ) (info : FunctionInfo) : Result σ :=
  EdgeKind.all.foldlM (fun s kind => visitEdges info kind (fun s e => .ok (f s info e)) s) s

variable (memory : Nat) (Z : Zstd) (V : StreamVByte) (target : Object)
  (callback : σ → FunctionInfo → Result σ)

/-- The loop of `runOnSection`; a graph takes a step. -/
def runOnSection_loop : Nat → FrameDecoder → Cursor → σ → Result (FrameDecoder × σ)
  | 0, _, _, _ => .error .diverges
  | fuel + 1, decoder, c, s =>
    if c.section_data_cursor < c.full_section_data.length then
      match find graph_magic_number_bytes (c.full_section_data.drop c.section_data_cursor) with
      | none => .ok (decoder, s)
      | some skipped => do
        let c := { c with section_data_cursor := c.section_data_cursor + skipped }
        let (frame, decoder, c) ← consumeOneGraph memory Z V target decoder c
        let s ← readFrame true callback s frame
        runOnSection_loop fuel decoder c s
    else .ok (decoder, s)

def runOnSection (decoder : FrameDecoder) (sec : Section) (s : σ) : Result (FrameDecoder × σ) := do
  let name := sec.name
  let full_section_data ← tryContext (target.copyData sec.size sec.start) s!"Reading section {name}"
  runOnSection_loop memory Z V target callback (full_section_data.length + 1) decoder
    ⟨full_section_data, sec.start, 0⟩ s

/-- The callback of `visitSections`. -/
def readSection (state : FrameDecoder × σ) (sec : Section) : Result (FrameDecoder × σ) :=
  if sec.name != graph_section_name target.isApple then .ok state
  else runOnSection memory Z V target callback state.1 sec state.2

def readEdges (s : σ) : Result σ := do
  let (_, s) ← target.sections.foldlM (readSection memory Z V target callback) ({}, s)
  return s

end
end Guarded

/-! ## The plain reader -/

/-- What is guarded ends early or does what it guards does. -/
def Guards {α : Type} (x y : Result α) : Prop := x = .error .abort ∨ x = y

section
variable {α β σ : Type}

theorem Guards.refl (x : Result α) : Guards x x := .inr rfl

theorem Guards.bind {x y : Result α} {k k' : α → Result β} (h : Guards x y)
    (hk : ∀ a, x = .ok a → Guards (k a) (k' a)) : Guards (x >>= k) (y >>= k') := by
  rcases h with rfl | rfl
  · exact .inl rfl
  · cases x with
    | ok a => exact hk a rfl
    | error e => exact .inr rfl

/-- A check that is only guarded. -/
theorem Guards.assert {cond : Bool} {k : Unit → Result β} {y : Result β}
    (h : cond = true → Guards (k ()) y) : Guards (Edges.assert true cond >>= k) y := by
  cases cond with
  | true => exact h rfl
  | false => exact .inl rfl

theorem Guards.foldlM {step step' : σ → α → Result σ} (h : ∀ s a, Guards (step s a) (step' s a))
    (l : List α) (s : σ) : Guards (l.foldlM step s) (l.foldlM step' s) := by
  induction l generalizing s with
  | nil => exact .refl _
  | cons a l ih =>
    rw [List.foldlM_cons, List.foldlM_cons]
    exact Guards.bind (h s a) fun s' _ => ih s'

end

section
variable {memory : Nat} {Z : Zstd} {V : StreamVByte} {target : Object}

theorem parse_debug_data_guards
    (hsize : ∀ bytes n, Z.getFrameContentSize bytes = .size n → n + STREAMVBYTE_PADDING < 2 ^ 64)
    (buffer : Bytes) (header : GraphHeader) (debug_data_address : Address) :
    Guards (Guarded.parse_debug_data memory Z V target buffer header debug_data_address)
      (parse_debug_data true Z V target buffer header debug_data_address) := by
  unfold Guarded.parse_debug_data parse_debug_data
  refine Guards.bind (.refl _) fun _ _ => Guards.bind (.refl _) fun compressed _ => ?_
  cases hn : Z.getFrameContentSize compressed with
  | unknown => exact .refl _
  | error => exact .refl _
  | size n =>
    have hlt := hsize compressed n hn
    dsimp only
    rw [Guarded.resize, bind_assoc]
    refine Guards.assert fun _ => ?_
    rw [Nat.mod_eq_of_lt hlt, pure_bind]
    generalize hbuffer : Edges.resize buffer (n + STREAMVBYTE_PADDING) = buffer'
    cases Z.decompress buffer'.length compressed with
    | error name => exact .refl _
    | ok data =>
      refine Guards.bind (.refl _) fun _ hdata => Guards.bind (.refl _) fun _ _ => ?_
      have hdata : data.length = n := by simpa using assert_eq_ok.mp hdata
      have hfull : (overwrite buffer' data).length = n + STREAMVBYTE_PADDING := by
        rw [overwrite, List.length_append, List.length_drop, ← hbuffer, Edges.resize,
          List.length_append, List.length_take, List.length_replicate, hdata]
        omega
      -- A size that does not underflow does not wrap either.
      have hencoded : ∀ m, STREAMVBYTE_PADDING ≤ ((overwrite buffer' data).drop m).length →
          (((overwrite buffer' data).drop m).length + 2 ^ 64 - STREAMVBYTE_PADDING) % 2 ^ 64 =
            ((overwrite buffer' data).drop m).length - STREAMVBYTE_PADDING := by
        intro m hle
        rw [List.length_drop, hfull] at hle ⊢
        unfold STREAMVBYTE_PADDING at hle hlt ⊢
        omega
      by_cases hlocals : (header.has_debug_locals != 0) = true
      · rw [if_pos hlocals, if_pos hlocals]
        refine Guards.assert fun hle => ?_
        rw [hencoded _ (of_decide_eq_true hle)]
        refine Guards.bind (.refl _) fun _ _ => Guards.bind (.refl _) fun indices _ => ?_
        refine Guards.bind (.refl _) fun offsets _ => ?_
        split
        · exact Guards.bind (.refl _) fun _ _ => Guards.assert fun _ => .refl _
        · exact Guards.assert fun _ => .refl _
      · rw [if_neg hlocals, if_neg hlocals]
        refine Guards.bind (.refl _) fun indices _ => Guards.bind (.refl _) fun offsets _ => ?_
        split
        · exact Guards.bind (.refl _) fun _ _ => Guards.assert fun _ => .refl _
        · exact Guards.assert fun _ => .refl _

theorem consumeOneGraph_guards
    (hsize : ∀ bytes n, Z.getFrameContentSize bytes = .size n → n + STREAMVBYTE_PADDING < 2 ^ 64)
    (decoder : FrameDecoder) (c : Cursor) :
    Guards (Guarded.consumeOneGraph memory Z V target decoder c)
      (consumeOneGraph true Z V target decoder c) := by
  unfold Guarded.consumeOneGraph consumeOneGraph
  refine Guards.bind (.refl _) fun ⟨bytes, c₁⟩ _ => Guards.bind (.refl _) fun _ _ => ?_
  refine Guards.bind (.refl _) fun ⟨addresses, c₂⟩ _ => ?_
  refine Guards.bind (.refl _) fun ⟨symbol_addresses, c₃⟩ _ => ?_
  refine Guards.bind (.refl _) fun ⟨compressed, c₄⟩ _ => ?_
  dsimp only
  cases hn : Z.getFrameContentSize compressed with
  | unknown => exact .refl _
  | error => exact .refl _
  | size n =>
    dsimp only
    rw [Guarded.resize, bind_assoc]
    refine Guards.assert fun _ => ?_
    rw [Nat.mod_eq_of_lt (hsize compressed n hn), pure_bind]
    refine Guards.assert fun _ => ?_
    cases Z.decompress n compressed with
    | error name => exact .refl _
    | ok data =>
      refine Guards.bind (.refl _) fun _ _ => Guards.bind (.refl _) fun _ _ => ?_
      exact Guards.bind (parse_debug_data_guards hsize _ _ _) fun _ _ => .refl _

/-- **The guarded reader ends early or reads what the plain one reads**, whatever the
callback, if no size of compressed data wraps. -/
theorem readEdges_guards {σ : Type} (callback : σ → FunctionInfo → Result σ)
    (hsize : ∀ bytes n, Z.getFrameContentSize bytes = .size n → n + STREAMVBYTE_PADDING < 2 ^ 64)
    (s : σ) :
    Guards (Guarded.readEdges memory Z V target callback s) (readEdges true Z V target callback s) := by
  have hloop : ∀ fuel decoder c s,
      Guards (Guarded.runOnSection_loop memory Z V target callback fuel decoder c s)
        (runOnSection_loop true Z V target (readFrame true callback) fuel decoder c s) := by
    intro fuel
    induction fuel with
    | zero => exact fun _ _ _ => .refl _
    | succ fuel ih =>
      intro decoder c s
      rw [Guarded.runOnSection_loop, runOnSection_loop]
      by_cases hlt : c.section_data_cursor < c.full_section_data.length
      · rw [if_pos hlt, if_pos hlt]
        cases find graph_magic_number_bytes (c.full_section_data.drop c.section_data_cursor) with
        | none => exact .refl _
        | some skipped =>
          refine Guards.bind (consumeOneGraph_guards hsize _ _) fun ⟨frame, decoder₁, c₁⟩ _ => ?_
          exact Guards.bind (.refl _) fun s₁ _ => ih decoder₁ c₁ s₁
      · rw [if_neg hlt, if_neg hlt]
        exact .refl _
  refine Guards.bind (Guards.foldlM (fun state sec => ?_) _ _) fun _ _ => .refl _
  rw [Guarded.readSection, readSection]
  split
  · exact .refl _
  · exact Guards.bind (.refl _) fun data _ => hloop _ _ _ _

end

end Bracelet.Edges
