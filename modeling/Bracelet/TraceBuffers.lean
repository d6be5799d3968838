import Bracelet.EdgeVisitor
import Bracelet.Records

/-!
# Traced buffers

Of a value that is larger than a pointer, the pass stores a copy in a new stack slot and calls
`braceletTraceBuffer` with it (`traceValue`).  The runtime then traces the words of the buffer
(`traceBuffer`).  The loop stops when a word would end where the buffer does.  So the words of a
buffer are all traced exactly when it ends within a word (`EndsWithinWord`): a buffer of whole words
loses the last one.
-/
namespace Bracelet.Tracing
open Reachability

abbrev Memory := UInt64 → UInt8

/-! ## The runtime -/

/-- `std::string_view` -/
structure StringView where
  data : UInt64
  size : UInt64

/-- What the loop over a buffer does, as far as it can be seen. -/
inductive Effect
  /-- `buffer[offset]` is read. -/
  | read (offset : UInt64)
  | traceWord (site value : UInt64)

/-- The word at an address, as `memcpy` copies it to an integer. -/
def wordAt (mem : Memory) (addr : UInt64) : UInt64 :=
  UInt64.ofNat (ofLE ((List.range 8).map fun i => mem (addr + UInt64.ofNat i)))

section
variable (mem : Memory) (site : UInt64) (buffer : StringView)

/-- The body of the loop. -/
def traceBufferBody (idx : UInt64) : List Effect :=
  (List.range 8).map (fun i => Effect.read (idx + UInt64.ofNat i)) ++
    [.traceWord site (wordAt mem (buffer.data + idx))]

/-- The loop from an offset on.  The offset is a `size_t`, so a loop that takes 2^64 steps never
ends. -/
def traceBufferFrom : Nat → UInt64 → Option (List Effect)
  | 0, _ => none
  | fuel + 1, idx =>
    if idx + 8 < buffer.size then do
      let rest ← traceBufferFrom fuel (idx + 8)
      return traceBufferBody mem site buffer idx ++ rest
    else return []

def traceBuffer : Option (List Effect) := traceBufferFrom mem site buffer (2 ^ 64) 0

/-- The wrapper that is exported. -/
def braceletTraceBuffer (ptr size : UInt64) : Option (List Effect) :=
  traceBuffer mem site ⟨ptr, size⟩

end

/-! ## The pass -/

inductive TraceMode
  | off | indirect_callees | full
  deriving DecidableEq, Repr

/-- What `traceValue` asks about the type of a value. -/
structure ValueType where
  isPointerTy : Bool
  /-- The width, if it is an integer. -/
  integerWidth : Option Nat
  /-- `getTypeStoreSize`: how many bytes a store of the value writes. -/
  size_bytes : UInt64

/-- What `traceValue` inserts.  There is one stack slot at most. -/
inductive Inserted (GV : Type)
  | PtrToInt (value : Reachability.Value GV) (width : Nat)
  | Alloca (type : ValueType)
  /-- A store to the slot. -/
  | Store (value : Reachability.Value GV)
  /-- The word is the value, or what the pointer has been converted to. -/
  | braceletTraceWord (local_idx : Nat) (value : Reachability.Value GV)
  /-- The buffer is the slot. -/
  | braceletTraceBuffer (local_idx : Nat) (size : UInt64)

section
variable {GV : Type} (M : Module GV) (F : Function GV)

/-- The instructions for a value that is a local. -/
def traceLocal (ptr_size : UInt64) (value : Reachability.Value GV) (ty : ValueType) (local_idx : Nat) :
    List (Inserted GV) :=
  -- It doesn't make sense to trace something that's less than a pointer's width.
  if ty.size_bytes < ptr_size then []
  else if ty.isPointerTy then
    [.PtrToInt value (ty.size_bytes.toNat * 8), .braceletTraceWord local_idx value]
  else if ty.integerWidth = some (ptr_size.toNat * 8) then [.braceletTraceWord local_idx value]
  else [.Alloca ty, .Store value, .braceletTraceBuffer local_idx ty.size_bytes]

/-- The instructions that trace a value. -/
def traceValue (BraceletTraceMode : TraceMode) (ptr_size : UInt64) (v : EdgeVisitor GV)
    (value : Reachability.Value GV) (ty : ValueType) : Visited (List (Inserted GV) × EdgeVisitor GV) :=
  if BraceletTraceMode = .off then .error .assertion else do
    let (n, v) ← v.node M F value
    match n with
    | some (.loc local_idx) => return (traceLocal ptr_size value ty local_idx, v)
    -- If the value isn't a local we don't even bother.
    | _ => return ([], v)

/-- What the inserted instructions run with. -/
structure Frame (GV : Type) where
  mem : Memory
  /-- What a store of the value writes. -/
  stored : Reachability.Value GV → List UInt8
  /-- The address of the slot. -/
  slot : UInt64
  siteAddress : Nat → UInt64

/-- A store to memory. -/
def storeBytes (mem : Memory) (addr : UInt64) (bytes : List UInt8) : Memory := fun a =>
  bytes.getD (a - addr).toNat (mem a)

namespace Frame

/-- Runs the inserted instructions. -/
def run : Frame GV → List (Inserted GV) → Option (List Effect)
  | _, [] => some []
  | frame, .PtrToInt _ _ :: rest | frame, .Alloca _ :: rest => frame.run rest
  | frame, .Store value :: rest =>
    { frame with mem := storeBytes frame.mem frame.slot (frame.stored value) }.run rest
  | frame, .braceletTraceWord local_idx value :: rest => do
    let effects ← frame.run rest
    return .traceWord (frame.siteAddress local_idx) (UInt64.ofNat (ofLE (frame.stored value))) ::
      effects
  | frame, .braceletTraceBuffer local_idx size :: rest => do
    let traced ← Tracing.braceletTraceBuffer frame.mem (frame.siteAddress local_idx) frame.slot size
    let effects ← frame.run rest
    return traced ++ effects

end Frame

end

/-! ## The loop -/

section
variable {mem : Memory} {site : UInt64} {buffer : StringView}

theorem toNat_ofNat_add_eight {i : Nat} (h : 8 * i + 8 < 2 ^ 64) :
    (UInt64.ofNat (8 * i) + 8).toNat = 8 * i + 8 := by
  have height : (8 : UInt64).toNat = 8 := rfl
  have hfits : 8 * i < UInt64.size := by
    unfold UInt64.size
    omega
  rw [UInt64.toNat_add, UInt64.toNat_ofNat_of_lt' hfits, height, Nat.mod_eq_of_lt h]

theorem ofNat_add_eight (i : Nat) : UInt64.ofNat (8 * i) + 8 = UInt64.ofNat (8 * (i + 1)) := by
  rw [Nat.mul_add, UInt64.ofNat_add]
  rfl

/-- The loop goes through the words up to the one that ends with the buffer. -/
theorem traceBufferFrom_eq (hsize : buffer.size.toNat ≤ 2 ^ 64 - 8) {fuel i : Nat}
    (hi : i ≤ (buffer.size.toNat - 1) / 8) (hfuel : (buffer.size.toNat - 1) / 8 - i < fuel) :
    traceBufferFrom mem site buffer fuel (UInt64.ofNat (8 * i)) =
      some ((List.range' i ((buffer.size.toNat - 1) / 8 - i)).flatMap fun k =>
        traceBufferBody mem site buffer (UInt64.ofNat (8 * k))) := by
  induction fuel generalizing i with
  | zero => exact absurd hfuel (Nat.not_lt_zero _)
  | succ fuel ih =>
    have hlt : UInt64.ofNat (8 * i) + 8 < buffer.size ↔ i < (buffer.size.toNat - 1) / 8 := by
      rw [UInt64.lt_iff_toNat_lt, toNat_ofNat_add_eight (by omega)]
      omega
    unfold traceBufferFrom
    by_cases hnext : i < (buffer.size.toNat - 1) / 8
    · have hcount : (buffer.size.toNat - 1) / 8 - i = (buffer.size.toNat - 1) / 8 - (i + 1) + 1 := by
        omega
      rw [if_pos (hlt.mpr hnext), ofNat_add_eight, ih hnext (by omega), hcount, List.range'_succ,
        List.flatMap_cons]
      rfl
    · have hcount : (buffer.size.toNat - 1) / 8 - i = 0 := by omega
      rw [if_neg (mt hlt.mp hnext), hcount]
      rfl

/-- The offset of a buffer that ends in the last word of all wraps around. -/
theorem traceBufferFrom_none (hsize : 2 ^ 64 - 8 < buffer.size.toNat) (fuel i : Nat) :
    traceBufferFrom mem site buffer fuel (UInt64.ofNat (8 * i)) = none := by
  induction fuel generalizing i with
  | zero => rfl
  | succ fuel ih =>
    have hlt : UInt64.ofNat (8 * i) + 8 < buffer.size := by
      rw [ofNat_add_eight, UInt64.lt_iff_toNat_lt, UInt64.toNat_ofNat']
      omega
    rw [traceBufferFrom, if_pos hlt, ofNat_add_eight, ih]
    rfl

/-- **What a buffer is traced as**: nothing is done from the last word on. -/
theorem traceBuffer_eq (hsize : buffer.size.toNat ≤ 2 ^ 64 - 8) :
    traceBuffer mem site buffer = some ((List.range ((buffer.size.toNat - 1) / 8)).flatMap fun k =>
      traceBufferBody mem site buffer (UInt64.ofNat (8 * k))) := by
  have hall := @traceBufferFrom_eq mem site buffer hsize (2 ^ 64) 0 (Nat.zero_le _) (by omega)
  rwa [Nat.sub_zero, ← List.range_eq_range'] at hall

theorem traceBuffer_none (hsize : 2 ^ 64 - 8 < buffer.size.toNat) :
    traceBuffer mem site buffer = none :=
  traceBufferFrom_none hsize _ 0

/-! ## The words of a buffer -/

/-- The bytes of a buffer. -/
def contents (mem : Memory) (buffer : StringView) : List UInt8 :=
  (List.range buffer.size.toNat).map fun i => mem (buffer.data + UInt64.ofNat i)

/-- The word at an offset, as it is traced. -/
def tracedWord (site : UInt64) (bytes : List UInt8) (k : Nat) : UInt64 × UInt64 :=
  (site, UInt64.ofNat (ofLE ((bytes.drop (8 * k)).take 8)))

/-- The calls of `traceWord`, in order. -/
def calls (effects : List Effect) : List (UInt64 × UInt64) :=
  effects.filterMap fun
    | .read _ => none
    | .traceWord site value => some (site, value)

/-- **Every word is traced**: the run ends, it calls `traceWord` once for each `k` with
`8 * (k + 1) ≤ n`, in order and with the word at `8 * k`, and reads no byte from `n` on. -/
def TracesEveryWord (site : UInt64) (bytes : List UInt8) (run : Option (List Effect)) : Prop :=
  ∃ effects, run = some effects ∧
    calls effects = (List.range (bytes.length / 8)).map (tracedWord site bytes) ∧
    ∀ offset, Effect.read offset ∈ effects → offset.toNat < bytes.length

/-- A buffer of this many bytes ends within a word, or has none. -/
def EndsWithinWord (n : Nat) : Prop := n = 0 ∨ n % 8 ≠ 0 ∧ n < 2 ^ 64 - 8

instance (n : Nat) : Decidable (EndsWithinWord n) := by
  unfold EndsWithinWord
  infer_instance

@[simp] theorem length_contents (mem : Memory) (buffer : StringView) :
    (contents mem buffer).length = buffer.size.toNat := by
  rw [contents, List.length_map, List.length_range]

/-- The word that the loop reads is that of the buffer. -/
theorem wordAt_contents {k : Nat} (h : 8 * k + 8 ≤ buffer.size.toNat) :
    (site, wordAt mem (buffer.data + UInt64.ofNat (8 * k))) =
      tracedWord site (contents mem buffer) k := by
  have hword : ((contents mem buffer).drop (8 * k)).take 8 =
      (List.range 8).map fun i => mem (buffer.data + UInt64.ofNat (8 * k) + UInt64.ofNat i) := by
    refine List.ext_getElem (by simp; omega) fun i _ _ => ?_
    simp [contents, UInt64.ofNat_add, UInt64.add_assoc]
  rw [tracedWord, hword, wordAt]

theorem calls_flatMap (ks : List Nat) (f : Nat → List Effect) :
    calls (ks.flatMap f) = ks.flatMap fun k => calls (f k) :=
  List.filterMap_flatMap

theorem calls_traceBufferBody (idx : UInt64) :
    calls (traceBufferBody mem site buffer idx) = [(site, wordAt mem (buffer.data + idx))] := by
  rfl

theorem read_traceBufferBody {idx offset : UInt64}
    (h : Effect.read offset ∈ traceBufferBody mem site buffer idx) :
    ∃ i < 8, offset = idx + UInt64.ofNat i := by
  simpa [traceBufferBody, eq_comm] using h

/-- **What a run calls**: `traceWord`, for the words up to the last but one byte. -/
theorem traceBuffer_calls (hsize : buffer.size.toNat ≤ 2 ^ 64 - 8) :
    ∃ effects, traceBuffer mem site buffer = some effects ∧
      calls effects = (List.range ((buffer.size.toNat - 1) / 8)).map
        (tracedWord site (contents mem buffer)) ∧
      ∀ offset, Effect.read offset ∈ effects → offset.toNat < buffer.size.toNat := by
  refine ⟨_, traceBuffer_eq hsize, ?_, ?_⟩
  · simp only [calls_flatMap, calls_traceBufferBody, ← List.map_eq_flatMap]
    refine List.map_congr_left fun k hk => wordAt_contents ?_
    rw [List.mem_range] at hk
    omega
  · intro offset hread
    obtain ⟨k, hk, hread⟩ := List.mem_flatMap.mp hread
    obtain ⟨i, hi, rfl⟩ := read_traceBufferBody hread
    rw [List.mem_range] at hk
    have hfits : 8 * k + i < UInt64.size := by
      unfold UInt64.size
      omega
    rw [← UInt64.ofNat_add, UInt64.toNat_ofNat_of_lt' hfits]
    omega

theorem traceBuffer_iff : TracesEveryWord site (contents mem buffer) (traceBuffer mem site buffer) ↔
    EndsWithinWord buffer.size.toNat := by
  unfold TracesEveryWord EndsWithinWord
  rw [length_contents]
  by_cases hsize : buffer.size.toNat ≤ 2 ^ 64 - 8
  · obtain ⟨effects, hrun, hcalls, hreads⟩ := @traceBuffer_calls mem site buffer hsize
    -- The calls are those of every word when there are as many.
    have hcount : (buffer.size.toNat - 1) / 8 = buffer.size.toNat / 8 ↔
        buffer.size.toNat = 0 ∨ buffer.size.toNat % 8 ≠ 0 ∧ buffer.size.toNat < 2 ^ 64 - 8 := by
      omega
    rw [← hcount, hrun]
    constructor
    · rintro ⟨effects', heq, hall, -⟩
      obtain rfl := Option.some.inj heq
      have hlen := congrArg List.length (hcalls.symm.trans hall)
      simpa using hlen
    · intro heq
      exact ⟨effects, rfl, by rw [hcalls, heq], hreads⟩
  · have hnone := @traceBuffer_none mem site buffer (by omega)
    rw [hnone]
    refine iff_of_false ?_ (by omega)
    rintro ⟨effects, heq, -⟩
    cases heq

end

/-! ## Spilled values -/

/-- The copy in the slot has the bytes of the value. -/
theorem contents_storeBytes {mem : Memory} {slot size : UInt64} {bytes : List UInt8}
    (h : bytes.length = size.toNat) : contents (storeBytes mem slot bytes) ⟨slot, size⟩ = bytes := by
  refine List.ext_getElem (by simp [h]) fun i hi _ => ?_
  have hlt := size.toNat_lt
  rw [length_contents] at hi
  have hback : (slot + UInt64.ofNat i - slot).toNat = i := by
    rw [UInt64.add_comm, UInt64.add_sub_cancel,
      UInt64.toNat_ofNat_of_lt' (show i < UInt64.size by unfold UInt64.size; omega)]
  simp only [contents, storeBytes, List.getElem_map, List.getElem_range, hback]
  rw [List.getD_eq_getElem?_getD, List.getElem?_eq_getElem (by omega), Option.getD_some]

section
variable {GV : Type} {M : Module GV} {F : Function GV}

theorem traceLocal_buffer {ptr_size size : UInt64} {value : Reachability.Value GV} {ty : ValueType}
    {i local_idx : Nat}
    (h : Inserted.braceletTraceBuffer local_idx size ∈ traceLocal ptr_size value ty i) :
    traceLocal ptr_size value ty i =
      [.Alloca ty, .Store value, .braceletTraceBuffer local_idx ty.size_bytes] := by
  unfold traceLocal at h ⊢
  split_ifs at h ⊢
  · cases h
  · simp at h
  · simp at h
  · have hcall : local_idx = i ∧ size = ty.size_bytes := by simpa using h
    rw [hcall.1]

/-- **What a spilled value is traced by**: a copy of it in a slot of its own size. -/
theorem traceValue_buffer {mode : TraceMode} {ptr_size size : UInt64} {v v' : EdgeVisitor GV}
    {value : Reachability.Value GV} {ty : ValueType} {inserted : List (Inserted GV)} {local_idx : Nat}
    (h : traceValue M F mode ptr_size v value ty = .ok (inserted, v'))
    (hbuffer : .braceletTraceBuffer local_idx size ∈ inserted) :
    inserted = [.Alloca ty, .Store value, .braceletTraceBuffer local_idx ty.size_bytes] := by
  unfold traceValue at h
  split_ifs at h
  obtain ⟨⟨n, w⟩, hnode, hinserted⟩ := Edges.bind_ok h
  match n, hinserted with
  | none, hinserted | some (.sym _), hinserted =>
    obtain ⟨rfl, -⟩ := Prod.mk.inj (Except.ok.inj hinserted)
    cases hbuffer
  | some (.loc i), hinserted =>
    obtain ⟨rfl, -⟩ := Prod.mk.inj (Except.ok.inj hinserted)
    exact traceLocal_buffer hbuffer

/-- The run of the copy is the run of the buffer that has its bytes. -/
theorem run_spilled (frame : Frame GV) (value : Reachability.Value GV) (ty : ValueType) (local_idx : Nat) :
    frame.run [.Alloca ty, .Store value, .braceletTraceBuffer local_idx ty.size_bytes] =
      traceBuffer (storeBytes frame.mem frame.slot (frame.stored value))
        (frame.siteAddress local_idx) ⟨frame.slot, ty.size_bytes⟩ := by
  unfold Frame.run Frame.run Frame.run Frame.run braceletTraceBuffer
  dsimp only
  cases traceBuffer (storeBytes frame.mem frame.slot (frame.stored value))
    (frame.siteAddress local_idx) ⟨frame.slot, ty.size_bytes⟩ with
  | none => rfl
  | some effects => simp

/-- **The words are all traced exactly when the buffer ends within one**, of any buffer and of any
value that is spilled. -/
theorem tracesEveryWord_iff :
    (∀ (mem : Memory) (site : UInt64) (buffer : StringView),
      TracesEveryWord site (contents mem buffer) (traceBuffer mem site buffer) ↔
        EndsWithinWord buffer.size.toNat) ∧
    ∀ (mode : TraceMode) (ptr_size size : UInt64) (v v' : EdgeVisitor GV) (value : Reachability.Value GV)
      (ty : ValueType) (inserted : List (Inserted GV)) (local_idx : Nat) (frame : Frame GV),
      traceValue M F mode ptr_size v value ty = .ok (inserted, v') →
      .braceletTraceBuffer local_idx size ∈ inserted →
      (frame.stored value).length = ty.size_bytes.toNat →
      (TracesEveryWord (frame.siteAddress local_idx) (frame.stored value) (frame.run inserted) ↔
        EndsWithinWord ty.size_bytes.toNat) := by
  refine ⟨fun _ _ _ => traceBuffer_iff, ?_⟩
  intro mode ptr_size size v v' value ty inserted local_idx frame h hbuffer hstored
  rw [traceValue_buffer h hbuffer, run_spilled]
  have hiff := @traceBuffer_iff (storeBytes frame.mem frame.slot (frame.stored value))
    (frame.siteAddress local_idx) ⟨frame.slot, ty.size_bytes⟩
  rwa [contents_storeBytes hstored] at hiff

end

/-! ## A pair of pointers -/

/-- A program of one function, `f`, of a structure. -/
def onePair : Module String where
  getAliaseeObject G := G
  getFunction _ := none
  PagePtr _ _ := "page"
  global_variables := []
  NoIncludeDebugData := true

def takesPair : Function String where
  symbol := "f"
  type := ⟨.void, [.named "{ptr, ptr}"], false, by decide⟩
  args := [⟨Edges.ascii "pair", Edges.ascii "%0"⟩]
  body := []
  arg_size := rfl
  distinct := List.nodup_nil

def pair : Reachability.Value String := .Local (.Argument 0)

/-- A structure of some bytes. -/
def structOf (size_bytes : UInt64) : ValueType := ⟨false, none, size_bytes⟩

/-- The bytes of the structure are 1, 2, and so on. -/
def pairFrame (size_bytes : Nat) : Frame String where
  mem _ := 0
  stored _ := (List.range size_bytes).map fun i => UInt8.ofNat (i + 1)
  slot := 0x7000
  siteAddress i := 0x4000 + 16 * UInt64.ofNat i

/-- The instructions that trace the structure of `f`. -/
theorem traceValue_pair (size_bytes : UInt64) (h : ¬ size_bytes < 8) :
    ∃ v, traceValue onePair takesPair .full 8 {} pair (structOf size_bytes) =
      .ok ([.Alloca (structOf size_bytes), .Store pair, .braceletTraceBuffer 0 size_bytes], v) := by
  have hlocal : traceLocal 8 pair (structOf size_bytes) 0 =
      [.Alloca (structOf size_bytes), .Store pair, .braceletTraceBuffer 0 size_bytes] := by
    exact if_neg h
  rw [← hlocal]
  exact ⟨_, rfl⟩

/-- All of a pointer and half a word: the one word is traced. -/
theorem tracesEveryWord_twelve : ∃ inserted v,
    traceValue onePair takesPair .full 8 {} pair (structOf 12) = .ok (inserted, v) ∧
      TracesEveryWord 0x4000 ((pairFrame 12).stored pair) ((pairFrame 12).run inserted) := by
  obtain ⟨v, hrun⟩ := traceValue_pair 12 (by decide)
  refine ⟨_, v, hrun, ?_⟩
  exact (tracesEveryWord_iff.2 _ _ 12 _ _ _ _ _ 0 (pairFrame 12) hrun (by simp) rfl).mpr (by decide)

/-- The second pointer of a pair is not traced. -/
theorem sixteen_not_tracesEveryWord : ∃ inserted v effects,
    traceValue onePair takesPair .full 8 {} pair (structOf 16) = .ok (inserted, v) ∧
      .braceletTraceBuffer 0 16 ∈ inserted ∧
      (pairFrame 16).run inserted = some effects ∧
      calls effects = [(0x4000, 0x0807060504030201)] ∧
      ¬ TracesEveryWord 0x4000 ((pairFrame 16).stored pair) ((pairFrame 16).run inserted) := by
  obtain ⟨v, hrun⟩ := traceValue_pair 16 (by decide)
  have hpair := run_spilled (pairFrame 16) pair (structOf 16) 0
  obtain ⟨effects, heffects, hcalls, -⟩ :=
    @traceBuffer_calls (storeBytes (fun _ => 0) 0x7000 ((pairFrame 16).stored pair)) 0x4000
      ⟨0x7000, 16⟩ (by decide)
  have hone : calls effects = [(0x4000, 0x0807060504030201)] := by
    rw [hcalls, contents_storeBytes rfl]
    rfl
  refine ⟨_, v, effects, hrun, by simp, hpair.trans heffects, hone, ?_⟩
  rintro ⟨effects', heq, hall, -⟩
  obtain rfl := Option.some.inj ((hpair.trans heffects).symm.trans heq)
  have hlen := congrArg List.length (hone.symm.trans hall)
  cases hlen

end Bracelet.Tracing
