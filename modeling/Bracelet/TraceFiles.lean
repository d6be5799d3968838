import Bracelet.EdgeHashSetRuns
import Bracelet.Records

/-!
# Trace files and their readers

Every traced thread persists its `EdgeHashSet` as one trace file.  Three programs
read the files: `tracing.read_traces` directly, the same through
`bracelet-trace-simplify`, and `checkPointsToAgainstTrace`.  Only the last one
clears the bit of `trace_site` in which the table keeps its epoch, so the Python
readers return an edge as it was traced only while the epoch is zero: after an even
number of doublings.

`iteration` is the order in which an `absl::flat_hash_set` hands out its elements.
-/
namespace Bracelet.TraceFiles

open EdgeHashSet

/-! ## The files -/

/-- `BraceletTraceEdge` as it lies in a file: two little-endian `U64`s. -/
def edgeFormat : RecordFormat BraceletTraceEdge where
  size := 16
  pack e := leBytes 8 e.trace_site.toNat ++ leBytes 8 e.value.toNat
  unpack blob := ⟨UInt64.ofNat (ofLE (blob.take 8)), UInt64.ofNat (ofLE (blob.drop 8))⟩
  size_pos := Nat.succ_pos _
  length_pack e := by simp
  unpack_pack e := by
    simp [List.take_left', List.drop_left']

/-- The file a table is mapped to. -/
def persisted (t : Table) : List UInt8 :=
  ((List.range t.edge_count).map t.edges).flatMap edgeFormat.pack

/-! ## The readers -/

def read_traces_inner (trace_data : List (List UInt8)) : List BraceletTraceEdge :=
  trace_data.flatMap fun trace_file => (edgeFormat.read trace_file).filter (·.trace_site != 0)

section
variable (iteration : List BraceletTraceEdge → List BraceletTraceEdge)

/-- The set `bracelet-trace-simplify` collects, in insertion order. -/
def trace_edges (inputs : List (List UInt8)) : List BraceletTraceEdge :=
  (inputs.flatMap edgeFormat.read).foldl
    (fun s e => if e.trace_site != 0 then s.insert e else s) []

/-- `bracelet-trace-simplify`.  It wants at least one input, and `mmap` refuses an
empty one. -/
def bracelet_trace_simplify (inputs : List (List UInt8)) : Option (List UInt8) :=
  if inputs.isEmpty || inputs.any List.isEmpty then none
  else some ((iteration (trace_edges inputs)).flatMap edgeFormat.pack)

def read_traces (trace_data : List (List UInt8)) (simplify_traces : Bool) :
    Option (List BraceletTraceEdge) :=
  if simplify_traces then
    (bracelet_trace_simplify iteration trace_data).map fun out => read_traces_inner [out]
  else
    some (read_traces_inner trace_data)

end

/-- The `(trace_site_addr, value)` pairs `checkPointsToAgainstTrace` looks up. -/
def checkPointsToAgainstTrace_edges (traces_dir : List (List UInt8)) : List BraceletTraceEdge :=
  (traces_dir.flatMap edgeFormat.read).filterMap fun (e : BraceletTraceEdge) =>
    let trace_site_addr : UInt64 := (e.trace_site >>> 1) <<< 1
    if trace_site_addr = 0 then none else some ⟨trace_site_addr, e.value⟩

/-! ## Traced runs -/

/-- A thread's calls of `add_edge`, none of which used up the attempts of a probe. -/
structure Traced (fnv1a_64 : BraceletTraceEdge → UInt64) where
  log2_initial_buffer_size : Nat
  calls : List BraceletTraceEdge
  traceable : ∀ e ∈ calls, Traceable e
  completes : (add_edges fnv1a_64 calls (create log2_initial_buffer_size)).isOk = true

/-- How often a table of `2 ^ log2_initial_buffer_size` slots doubles before it has
room for one edge more than `distinct`. -/
def doublings (log2_initial_buffer_size distinct : Nat) : Nat :=
  Nat.find (p := fun j => distinct < 2 ^ (log2_initial_buffer_size + j) * 3 / 4) <| by
    refine ⟨distinct + 2, ?_⟩
    have h₁ : distinct + 1 < 2 ^ (distinct + 1) := Nat.lt_two_pow_self
    have h₂ : 2 ^ (distinct + 1 + 1) ≤ 2 ^ (log2_initial_buffer_size + (distinct + 2)) :=
      Nat.pow_le_pow_right (by decide) (by omega)
    rw [pow_succ] at h₂
    omega

section
variable {fnv1a_64 : BraceletTraceEdge → UInt64}

namespace Traced

/-- The table the calls leave. -/
def table (r : Traced fnv1a_64) : Table :=
  match add_edges fnv1a_64 r.calls (create r.log2_initial_buffer_size) with
  | .ok (_, t) => t
  | .error _ => create r.log2_initial_buffer_size

/-- How often the table has doubled: the last call found the edges of the others. -/
def doublings (r : Traced fnv1a_64) : Nat :=
  TraceFiles.doublings r.log2_initial_buffer_size r.calls.dropLast.toFinset.card

end Traced

/-- The edge was passed to `add_edge` by one of the threads. -/
def Added (runs : List (Traced fnv1a_64)) (e : BraceletTraceEdge) : Prop :=
  ∃ r ∈ runs, e ∈ r.calls

/-- The trace files of the threads. -/
def trace_files (runs : List (Traced fnv1a_64)) : List (List UInt8) :=
  runs.map fun r => persisted r.table

/-- **The Python readers return what was traced**, as `checkPointsToAgainstTrace`
does, and simplified traces hold nothing twice. -/
structure ReadBack (iteration : List BraceletTraceEdge → List BraceletTraceEdge)
    (runs : List (Traced fnv1a_64)) : Prop where
  plain : ∃ out, read_traces iteration (trace_files runs) false = some out ∧
    (∀ e, e ∈ out ↔ Added runs e) ∧
    ∀ e, e ∈ out ↔ e ∈ checkPointsToAgainstTrace_edges (trace_files runs)
  simplified : ∃ out, read_traces iteration (trace_files runs) true = some out ∧
    (∀ e, e ∈ out ↔ Added runs e) ∧ ∀ e, Added runs e → out.count e = 1

/-! ## How often a table doubles -/

/-- The table has doubled `j` times, each time for want of room for one edge more
than some number up to `distinct`. -/
def Doubled (log2_initial_buffer_size distinct j : Nat) (t : Table) : Prop :=
  t.edge_count = 2 ^ (log2_initial_buffer_size + j) ∧ t.epoch = j.bodd ∧
    ∀ i < j, 2 ^ (log2_initial_buffer_size + i) * 3 / 4 ≤ distinct

variable {log2 d j : Nat} {t : Table} {S : Finset BraceletTraceEdge}

theorem Doubled.mono (h : Doubled log2 d j t) {d' : Nat} (hd : d ≤ d') : Doubled log2 d' j t :=
  ⟨h.1, h.2.1, fun i hi => (h.2.2 i hi).trans hd⟩

theorem Doubled.eq_doublings (h : Doubled log2 d j t) (hroom : d < t.edge_count * 3 / 4) :
    j = doublings log2 d := by
  rw [h.1] at hroom
  refine Eq.symm ?_
  rw [doublings, Nat.find_eq_iff]
  exact ⟨hroom, fun i hi => Nat.not_lt.mpr (h.2.2 i hi)⟩

/-- `add_edge` doubles the table only when it is full, and then once. -/
theorem add_edge_doubled (h : Inv fnv1a_64 t S) (hd : Doubled log2 S.card j t)
    {e : BraceletTraceEdge} {added : Bool} {t' : Table}
    (hr : add_edge fnv1a_64 t e = .ok (added, t')) :
    ∃ j', Doubled log2 S.card j' t' ∧ S.card < t'.edge_count * 3 / 4 := by
  have hroom : ∀ t₁, makeRoom fnv1a_64 t = .ok t₁ →
      ∃ j', Doubled log2 S.card j' t₁ ∧ S.card < t₁.edge_count * 3 / 4 := by
    intro t₁ ht₁
    by_cases hfull : t.inserted_edges ≥ t.resize_threshold
    · rcases increase_size_spec h with he | ⟨t₂, ht₂, h₂, hcount, hepoch, hlt⟩
      · simp [makeRoom, hfull, he, bind, Except.bind] at ht₁
      simp only [makeRoom, hfull, if_true, ht₂, bind, Except.bind, hlt, pure, Except.pure,
        Except.ok.injEq] at ht₁
      subst ht₁
      refine ⟨j + 1, ⟨?_, ?_, fun i hi => ?_⟩, ?_⟩
      · rw [hcount, hd.1, ← Nat.add_assoc, pow_succ]
        omega
      · rw [hepoch, hd.2.1, Nat.bodd_succ]
      · rcases Nat.lt_succ_iff_lt_or_eq.mp hi with hi | rfl
        · exact hd.2.2 i hi
        · rw [← hd.1, ← h.threshold, ← h.inserted]
          exact hfull
      · rw [← h₂.threshold, ← h₂.inserted]
        exact hlt
    · simp only [makeRoom, hfull, if_false, pure, Except.pure, Except.ok.injEq] at ht₁
      subst ht₁
      refine ⟨j, hd, ?_⟩
      rw [← h.threshold, ← h.inserted]
      omega
  cases hep : edge_epoch e with
  | true => simp [add_edge, hep, bind, Except.bind, throw, throwThe, MonadExceptOf.throw] at hr
  | false =>
    cases hm : makeRoom fnv1a_64 t with
    | error f => simp [add_edge, hep, hm, bind, Except.bind] at hr
    | ok t₁ =>
      obtain ⟨j', hj', hlt⟩ := hroom t₁ hm
      have hadd : addProbe (edge_set_epoch e t₁.epoch) (IndexSequence fnv1a_64 t₁.edge_count
          (edge_set_epoch e t₁.epoch)) t₁ = .ok (added, t') := by
        simpa [add_edge, hep, hm, bind, Except.bind] using hr
      have hshape : t'.edge_count = t₁.edge_count ∧ t'.epoch = t₁.epoch := by
        rcases addProbe_cases (edge_set_epoch e t₁.epoch) t₁ (IndexSequence fnv1a_64
            t₁.edge_count (edge_set_epoch e t₁.epoch)) with
          hp | ⟨_, _, _, _, _, ⟨_, hp⟩ | ⟨_, _, hp⟩⟩ <;> rw [hp] at hadd <;> cases hadd <;>
          exact ⟨rfl, rfl⟩
      refine ⟨j', ⟨hshape.1.trans hj'.1, hshape.2.trans hj'.2.1, hj'.2.2⟩, ?_⟩
      rw [hshape.1]
      exact hlt

theorem add_edges_doubled : ∀ (es : List BraceletTraceEdge) {j : Nat} {t : Table}
    {S : Finset BraceletTraceEdge}, Inv fnv1a_64 t S → (∀ e ∈ es, Traceable e) → es ≠ [] →
    Doubled log2 S.card j t → ∀ {answers t'}, add_edges fnv1a_64 es t = .ok (answers, t') →
    t'.epoch = (doublings log2 (S ∪ es.dropLast.toFinset).card).bodd := by
  intro es
  induction es with
  | nil => intro _ _ _ _ _ hne; exact absurd rfl hne
  | cons e es ih =>
    intro j t S h hes _ hd answers t' hr
    rcases add_edge_spec h (hes e (by simp)) with he | ⟨t₁, he, h₁⟩
    · simp [add_edges, he, bind, Except.bind] at hr
    obtain ⟨j₁, hd₁, hroom⟩ := add_edge_doubled h hd he
    cases es with
    | nil =>
      simp only [add_edges, he, bind, Except.bind, pure, Except.pure, Except.ok.injEq,
        Prod.mk.injEq] at hr
      rw [← hr.2, hd₁.2.1, hd₁.eq_doublings hroom]
      simp
    | cons e' es =>
      cases hrest : add_edges fnv1a_64 (e' :: es) t₁ with
      | error f =>
        rw [add_edges, he] at hr
        simp [hrest, bind, Except.bind] at hr
      | ok r =>
        rw [add_edges, he] at hr
        simp only [hrest, bind, Except.bind, pure, Except.pure, Except.ok.injEq,
          Prod.mk.injEq] at hr
        have hmono : S.card ≤ (insert e S).card := Finset.card_le_card (Finset.subset_insert e S)
        have := ih h₁ (fun x hx => hes x (List.mem_cons_of_mem _ hx)) (by simp)
          (hd₁.mono hmono) hrest
        have hlast : (e :: e' :: es).dropLast = e :: (e' :: es).dropLast := rfl
        rw [← hr.2, this, hlast, List.toFinset_cons, Finset.union_insert, ← Finset.insert_union]

theorem create_doubled (log2 : Nat) : Doubled log2 0 0 (create log2) :=
  ⟨rfl, rfl, by simp⟩

/-! ## What the files hold -/

namespace Traced
variable (r : Traced fnv1a_64)

theorem table_spec : EdgeHashSet.Inv fnv1a_64 r.table r.calls.toFinset ∧
    (r.calls ≠ [] → r.table.epoch = r.doublings.bodd) := by
  rcases add_edges_spec r.calls (Inv.create fnv1a_64 r.log2_initial_buffer_size)
      r.traceable with he | ⟨t, ht, h⟩
  · have := r.completes
    rw [he] at this
    cases this
  have htable : r.table = t := by rw [table, ht]
  rw [htable]
  refine ⟨by simpa using h, fun hne => ?_⟩
  have := add_edges_doubled r.calls (Inv.create fnv1a_64 r.log2_initial_buffer_size)
    r.traceable hne (create_doubled _) ht
  simpa [doublings] using this

/-- The records of a trace file that are not zero are the traced edges, with the
epoch of the table in their lowest bit. -/
theorem mem_records {e : BraceletTraceEdge} :
    (e ∈ edgeFormat.read (persisted r.table) ∧ (e.trace_site != 0) = true) ↔
      ∃ c ∈ r.calls, e = edge_set_epoch c r.table.epoch := by
  have hrep := r.table_spec.1.represents
  have hcalls : ∀ c, c ∈ r.calls ↔ ∃ i < r.table.edge_count,
      edge_present (r.table.edges i) = true ∧ canonical (r.table.edges i) = c := by
    intro c
    rw [← hrep.occupied, List.mem_toFinset]
  rw [persisted, edgeFormat.read_flatMap_pack]
  simp only [List.mem_map, List.mem_range]
  constructor
  · rintro ⟨⟨i, hi, rfl⟩, hp⟩
    refine ⟨canonical (r.table.edges i), (hcalls _).mpr ⟨i, hi, hp, rfl⟩, ?_⟩
    rw [canonical, set_epoch_set_epoch, ← hrep.current i hi hp, edge_set_epoch_self]
  · rintro ⟨c, hc, rfl⟩
    obtain ⟨i, hi, hp, rfl⟩ := (hcalls c).mp hc
    have hval : edge_set_epoch (canonical (r.table.edges i)) r.table.epoch = r.table.edges i := by
      rw [canonical, set_epoch_set_epoch, ← hrep.current i hi hp, edge_set_epoch_self]
    rw [hval]
    exact ⟨⟨i, hi, rfl⟩, hp⟩

end Traced

variable {iteration : List BraceletTraceEdge → List BraceletTraceEdge}
  {runs : List (Traced fnv1a_64)}

theorem mem_read_traces_inner {e : BraceletTraceEdge} :
    e ∈ read_traces_inner (trace_files runs) ↔
      ∃ r ∈ runs, ∃ c ∈ r.calls, e = edge_set_epoch c r.table.epoch := by
  simp only [read_traces_inner, trace_files, List.mem_flatMap, List.mem_map, List.mem_filter]
  constructor
  · rintro ⟨_, ⟨r, hr, rfl⟩, he⟩
    exact ⟨r, hr, r.mem_records.mp he⟩
  · rintro ⟨r, hr, he⟩
    exact ⟨_, ⟨r, hr, rfl⟩, r.mem_records.mpr he⟩

/-- **`checkPointsToAgainstTrace` sees what was traced**, however often the tables
have doubled. -/
theorem mem_checkPointsToAgainstTrace_edges {e : BraceletTraceEdge} :
    e ∈ checkPointsToAgainstTrace_edges (trace_files runs) ↔ Added runs e := by
  have hmask : ∀ x : BraceletTraceEdge,
      (⟨(x.trace_site >>> 1) <<< 1, x.value⟩ : BraceletTraceEdge) = canonical x := by
    intro x
    simp [canonical, edge_set_epoch]
  simp only [checkPointsToAgainstTrace_edges, trace_files, List.mem_filterMap, List.mem_flatMap,
    List.mem_map, Added]
  constructor
  · rintro ⟨x, ⟨_, ⟨r, hr, rfl⟩, hx⟩, hxe⟩
    split at hxe
    · cases hxe
    · rename_i hsite
      have hne : (x.trace_site != 0) = true := by
        rw [bne_iff_ne]
        rintro h0
        exact hsite (by simp [h0])
      obtain ⟨c, hc, rfl⟩ := r.mem_records.mp ⟨hx, hne⟩
      rw [hmask, canonical_set_epoch, canonical_of_traceable (r.traceable c hc)] at hxe
      exact ⟨r, hr, (Option.some.inj hxe) ▸ hc⟩
  · rintro ⟨r, hr, he⟩
    have hx := r.mem_records.mpr ⟨e, he, rfl⟩
    refine ⟨_, ⟨_, ⟨r, hr, rfl⟩, hx.1⟩, ?_⟩
    have hcan : canonical (edge_set_epoch e r.table.epoch) = e := by
      rw [canonical_set_epoch, canonical_of_traceable (r.traceable e he)]
    have hsite : ¬ ((edge_set_epoch e r.table.epoch).trace_site >>> 1) <<< 1 = 0 := by
      have hsite : _ = e.trace_site :=
        congrArg BraceletTraceEdge.trace_site ((hmask (edge_set_epoch e r.table.epoch)).trans hcan)
      exact hsite.trans_ne (r.traceable e he).2
    rw [if_neg hsite, hmask, hcan]

/-! ## Simplified traces -/

theorem foldl_insert (es s : List BraceletTraceEdge) (hs : s.Nodup) :
    (es.foldl (fun s e => if e.trace_site != 0 then s.insert e else s) s).Nodup ∧
    ∀ e, e ∈ es.foldl (fun s e => if e.trace_site != 0 then s.insert e else s) s ↔
      e ∈ s ∨ (e ∈ es ∧ (e.trace_site != 0) = true) := by
  induction es generalizing s with
  | nil => simp [hs]
  | cons x es ih =>
    simp only [List.foldl_cons]
    by_cases hx : (x.trace_site != 0) = true
    · obtain ⟨hnd, hmem⟩ := ih (s.insert x) (hs.insert)
      rw [if_pos hx]
      refine ⟨hnd, fun e => ?_⟩
      rw [hmem, List.mem_insert_iff, List.mem_cons]
      constructor
      · rintro ((rfl | he) | he)
        · exact Or.inr ⟨Or.inl rfl, hx⟩
        · exact Or.inl he
        · exact Or.inr ⟨Or.inr he.1, he.2⟩
      · rintro (he | ⟨rfl | he, hp⟩)
        · exact Or.inl (Or.inr he)
        · exact Or.inl (Or.inl rfl)
        · exact Or.inr ⟨he, hp⟩
    · obtain ⟨hnd, hmem⟩ := ih s hs
      rw [if_neg hx]
      refine ⟨hnd, fun e => ?_⟩
      rw [hmem, List.mem_cons]
      refine or_congr_right ⟨fun he => ⟨Or.inr he.1, he.2⟩, ?_⟩
      rintro ⟨rfl | he, hp⟩
      · exact absurd hp hx
      · exact ⟨he, hp⟩

/-- A simplified trace is the set of what the files hold. -/
theorem read_traces_simplified (hiter : ∀ l, (iteration l).Perm l) (hne : runs ≠ []) :
    ∃ out, read_traces iteration (trace_files runs) true = some out ∧ out.Nodup ∧
      ∀ e, e ∈ out ↔ e ∈ read_traces_inner (trace_files runs) := by
  have hfiles : ((trace_files runs).isEmpty || (trace_files runs).any List.isEmpty) = false := by
    have hpos : ∀ r : Traced fnv1a_64, persisted r.table ≠ [] := by
      intro r hr
      have := congrArg List.length (edgeFormat.read_flatMap_pack
        ((List.range r.table.edge_count).map r.table.edges))
      rw [← persisted, hr, edgeFormat.read_short (by exact edgeFormat.size_pos)] at this
      simp at this
      exact r.table_spec.1.nonempty.ne this
    simp [trace_files, hne, hpos]
  obtain ⟨hnd, hmem⟩ := foldl_insert ((trace_files runs).flatMap edgeFormat.read) [] List.nodup_nil
  have hinner : ∀ e, e ∈ trace_edges (trace_files runs) ↔
      e ∈ read_traces_inner (trace_files runs) := by
    intro e
    rw [trace_edges, hmem, read_traces_inner]
    simp only [List.not_mem_nil, false_or, List.mem_flatMap, List.mem_filter]
    exact ⟨fun ⟨⟨f, hf, he⟩, hp⟩ => ⟨f, hf, he, hp⟩, fun ⟨f, hf, he, hp⟩ => ⟨⟨f, hf, he⟩, hp⟩⟩
  refine ⟨iteration (trace_edges (trace_files runs)), ?_, (hiter _).nodup_iff.mpr hnd,
    fun e => by rw [(hiter _).mem_iff, hinner]⟩
  simp only [read_traces, if_true, bracelet_trace_simplify, hfiles, Bool.false_eq_true, if_false,
    Option.map_some, read_traces_inner, List.flatMap_cons, List.flatMap_nil, List.append_nil,
    RecordFormat.read_flatMap_pack, Option.some.injEq, List.filter_eq_self]
  intro e he
  rw [(hiter _).mem_iff, hinner, read_traces_inner] at he
  simp only [List.mem_flatMap, List.mem_filter] at he
  exact he.choose_spec.2.2

/-- **When the Python readers return what was traced:** exactly when the table of
every thread that traced an edge has doubled an even number of times. -/
theorem read_traces_iff (fnv1a_64 : BraceletTraceEdge → UInt64)
    (iteration : List BraceletTraceEdge → List BraceletTraceEdge)
    (hiter : ∀ l, (iteration l).Perm l) (runs : List (Traced fnv1a_64)) (hne : runs ≠ []) :
    ReadBack iteration runs ↔ ∀ r ∈ runs, r.calls ≠ [] → Even r.doublings := by
  constructor
  · rintro ⟨⟨out, hout, hmem, -⟩, -⟩ r hr hcalls
    rw [read_traces, if_neg Bool.false_ne_true, Option.some.injEq] at hout
    subst hout
    obtain ⟨c, hc⟩ := List.exists_mem_of_ne_nil _ hcalls
    obtain ⟨r', hr', hadd⟩ := (hmem _).mp (mem_read_traces_inner.mpr ⟨r, hr, c, hc, rfl⟩)
    have hep := edge_epoch_set_epoch c r.table.epoch
    rw [edge_epoch, (r'.traceable _ hadd).1, r.table_spec.2 hcalls] at hep
    rw [Nat.even_iff, Nat.mod_two_of_bodd, ← hep]
    rfl
  · intro heven
    have hmem : ∀ e, e ∈ read_traces_inner (trace_files runs) ↔ Added runs e := by
      intro e
      rw [mem_read_traces_inner, Added]
      refine exists_congr fun r => and_congr_right fun hr => ?_
      have hval : ∀ c ∈ r.calls, edge_set_epoch c r.table.epoch = c := by
        intro c hc
        have hne := List.ne_nil_of_mem hc
        have hb : r.doublings.bodd = false := by
          have := Nat.even_iff.mp (heven r hr hne)
          rw [Nat.mod_two_of_bodd] at this
          cases h : r.doublings.bodd with
          | false => rfl
          | true => rw [h] at this; cases this
        rw [r.table_spec.2 hne, hb]
        exact canonical_of_traceable (r.traceable c hc)
      constructor
      · rintro ⟨c, hc, rfl⟩
        rw [hval c hc]
        exact hc
      · intro hc
        exact ⟨e, hc, (hval e hc).symm⟩
    refine ⟨⟨_, rfl, hmem, fun e => ?_⟩, ?_⟩
    · rw [mem_checkPointsToAgainstTrace_edges, hmem]
    · obtain ⟨out, hout, hnd, hiff⟩ := read_traces_simplified hiter hne
      refine ⟨out, hout, fun e => (hiff e).trans (hmem e), fun e he => ?_⟩
      exact List.count_eq_one_of_mem hnd ((hiff e).mpr ((hmem e).mpr he))

end

/-- The thread of `test_edge_hash_set` after its second insertion. -/
def twoCalls : Traced fnv1a where
  log2_initial_buffer_size := 1
  calls := [⟨2, 0⟩, ⟨2, 1⟩]
  traceable := by decide
  completes := by decide +kernel

/-- The second of two edges doubles a table of two slots, and both are read back
with their lowest bit set. -/
theorem read_traces_odd_epoch : ¬ ReadBack id [twoCalls] := by
  rintro ⟨⟨out, hout, hmem, -⟩, -⟩
  cases hout
  have hodd : twoCalls.table.epoch = true := by decide +kernel
  have hread : ⟨3, 0⟩ ∈ read_traces_inner (trace_files [twoCalls]) :=
    mem_read_traces_inner.mpr ⟨twoCalls, by simp, ⟨2, 0⟩, by decide, by rw [hodd]; decide⟩
  obtain ⟨r, hr, hadd⟩ := (hmem _).mp hread
  rw [List.mem_singleton.mp hr] at hadd
  exact absurd hadd (by decide)

theorem read_traces_iff_twoCalls :
    ReadBack id [twoCalls] ↔ ∀ r ∈ [twoCalls], r.calls ≠ [] → Even r.doublings :=
  read_traces_iff fnv1a id (fun _ => .refl _) _ (by simp)

end Bracelet.TraceFiles
