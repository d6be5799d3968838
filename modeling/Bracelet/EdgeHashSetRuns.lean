import Bracelet.EdgeHashSetResize

/-!
# The table is a set

`Represents t S` is what a reader of the file may rely on between two calls: the
occupied slots are the edges of `S`, once each and of the current epoch, and a
probe for any of them meets no empty slot before it.  `Inv` adds what the next
call needs: the table is settled (no slot waits to be rehashed) and at most three
quarters full.

A probe of `add_edge` stops at the first empty slot or at the edge itself.  As
equal edges have equal probes, an edge that is stored is met before any empty
slot, so an empty slot is found only by an edge that is not stored.
-/
namespace Bracelet.EdgeHashSet

section
variable (fnv1a_64 : BraceletTraceEdge → UInt64)

/-- **The table is the set `S`.** -/
structure Represents (t : Table) (S : Finset BraceletTraceEdge) : Prop where
  /-- The occupied slots hold the edges of `S`, up to the bookkeeping bit. -/
  occupied : ∀ c, c ∈ S ↔
    ∃ i < t.edge_count, edge_present (t.edges i) = true ∧ canonical (t.edges i) = c
  /-- No edge is held twice. -/
  once : ∀ i < t.edge_count, ∀ j < t.edge_count, edge_present (t.edges i) = true →
    edge_present (t.edges j) = true → canonical (t.edges i) = canonical (t.edges j) → i = j
  current : ∀ i < t.edge_count, edge_present (t.edges i) = true →
    edge_epoch (t.edges i) = t.epoch
  /-- The positions its probe yields before an edge are occupied. -/
  probe : ∀ i < t.edge_count, edge_present (t.edges i) = true →
    ∃ before after, IndexSequence fnv1a_64 t.edge_count (t.edges i) = before ++ i :: after ∧
      ∀ k ∈ before, k < t.edge_count ∧ edge_present (t.edges k) = true

/-- The invariant between two calls. -/
structure Inv (t : Table) (S : Finset BraceletTraceEdge) : Prop where
  rehashing : Rehashing fnv1a_64 t S
  settled : ∀ i, ¬ Stale t i
  inserted : t.inserted_edges = S.card
  nonempty : 0 < t.edge_count
  threshold : t.resize_threshold = (t.edge_count * 3) / 4
  room : t.inserted_edges ≤ t.resize_threshold

variable {fnv1a_64} {t t' : Table} {S : Finset BraceletTraceEdge}

theorem Inv.fresh (h : Inv fnv1a_64 t S) {i : Nat} (hp : edge_present (t.edges i) = true) :
    Fresh t i := by
  by_contra hf
  exact h.settled i ⟨hp, fun he => hf ⟨hp, he⟩⟩

theorem Inv.represents (h : Inv fnv1a_64 t S) : Represents fnv1a_64 t S where
  occupied c := by
    rw [h.rehashing.holds.mem]
    constructor
    · rintro ⟨i, hi⟩
      exact ⟨i, h.rehashing.holds.within i c hi, content_eq_some.mp hi⟩
    · rintro ⟨i, -, hi⟩
      exact ⟨i, content_eq_some.mpr hi⟩
  once i _ j _ hi hj hij :=
    h.rehashing.holds.distinct i j _ (content_eq_some.mpr ⟨hi, hij⟩)
      (content_eq_some.mpr ⟨hj, rfl⟩)
  current i _ hp := (h.fresh hp).2
  probe i _ hp := by
    obtain ⟨before, after, hseq, hb⟩ := h.rehashing.placed i (h.fresh hp)
    refine ⟨before, after, hseq, fun k hk => ⟨?_, (hb k hk).1⟩⟩
    exact h.rehashing.holds.within k _ (content_eq_some.mpr ⟨(hb k hk).1, rfl⟩)

theorem Inv.inserted_lt (h : Inv fnv1a_64 t S) : t.inserted_edges < t.edge_count := by
  have := h.room
  have := h.threshold
  have := h.nonempty
  omega

theorem create_absent (log2_initial_buffer_size i : Nat) :
    edge_present ((create log2_initial_buffer_size).edges i) = false := rfl

theorem Inv.create (fnv1a_64 : BraceletTraceEdge → UInt64) (log2_initial_buffer_size : Nat) :
    Inv fnv1a_64 (create log2_initial_buffer_size) ∅ where
  rehashing :=
    { holds :=
        { within := fun i c h => by simp [EdgeHashSet.create, Table.update_resize_threshold] at h
          distinct := fun i j c h => by
            simp [EdgeHashSet.create, Table.update_resize_threshold] at h
          mem := fun c => by simp [EdgeHashSet.create, Table.update_resize_threshold]
          traceable := by simp }
      placed := fun j h => absurd h.1 (by simp [create_absent]) }
  settled i h := absurd h.1 (by simp [create_absent])
  inserted := rfl
  nonempty := Nat.two_pow_pos _
  threshold := rfl
  room := Nat.zero_le _

/-! ## Doubling -/

/-- Extending the file adds empty slots and makes every edge stale. -/
theorem Inv.extend (h : Inv fnv1a_64 t S) :
    Rehashing fnv1a_64 t.extend S ∧ ∀ i, Stale t.extend i → i < t.edge_count := by
  have hbeyond : ∀ i, content (t.extend.edges i) = content (t.edges i) := by
    intro i
    by_cases hi : i < t.edge_count
    · simp [Table.extend, hi]
    · have hnone : content (t.edges i) = none := by
        by_contra hc
        obtain ⟨c, hc⟩ := Option.ne_none_iff_exists'.mp hc
        exact hi (h.rehashing.holds.within i c hc)
      simp [Table.extend, hi, hnone]
  have hlt : ∀ i, edge_present (t.extend.edges i) = true → i < t.edge_count := by
    intro i hp
    refine h.rehashing.holds.within i (canonical (t.extend.edges i)) ?_
    rw [← hbeyond]
    exact content_eq_some.mpr ⟨hp, rfl⟩
  refine ⟨⟨⟨?_, ?_, ?_, h.rehashing.holds.traceable⟩, ?_⟩, fun i hi => hlt i hi.1⟩
  · intro i c hc
    rw [hbeyond] at hc
    have := h.rehashing.holds.within i c hc
    simp only [Table.extend]
    omega
  · intro i j c hi hj
    rw [hbeyond] at hi hj
    exact h.rehashing.holds.distinct i j c hi hj
  · intro c
    simp only [hbeyond]
    exact h.rehashing.holds.mem c
  · rintro j ⟨hp, he⟩
    have hj := hlt j hp
    simp only [Table.extend, hj, if_true] at hp he
    rw [(h.fresh hp).2] at he
    exact absurd he (by simp)

/-- **Doubling terminates, keeps the set and leaves room for more edges.** -/
theorem increase_size_spec (h : Inv fnv1a_64 t S) :
    increase_size fnv1a_64 t = .error .attemptsExhausted ∨
    ∃ t', increase_size fnv1a_64 t = .ok t' ∧ Inv fnv1a_64 t' S ∧
      t'.edge_count = 2 * t.edge_count ∧ t'.epoch = !t.epoch ∧
      t'.inserted_edges < t'.resize_threshold := by
  obtain ⟨hr, hlt⟩ := h.extend
  rcases rehash_spec (List.range t.edge_count) hr with he | ⟨t', ht', hr', hs, hst⟩
  · exact Or.inl (by simp [increase_size, he, bind, Except.bind])
  · refine Or.inr ⟨t'.update_resize_threshold, ?_, ?_⟩
    · simp [increase_size, ht', bind, Except.bind, pure, Except.pure]
    have hcount : t'.edge_count = t.edge_count * 2 := hs.edge_count
    have hins : t'.inserted_edges = t.inserted_edges := hs.inserted_edges
    have hroom : t'.inserted_edges < t'.edge_count * 3 / 4 := by
      have := h.room
      have := h.threshold
      have := h.nonempty
      omega
    refine ⟨⟨⟨hr'.holds, hr'.placed⟩, ?_, hins.trans h.inserted, ?_, rfl, hroom.le⟩, ?_, hs.epoch, hroom⟩
    · intro i hi
      obtain ⟨hi', hni⟩ := hst i hi
      exact hni (List.mem_range.mpr (hlt i hi'))
    · change 0 < t'.edge_count
      have := h.nonempty
      omega
    · change t'.edge_count = 2 * t.edge_count
      omega

theorem makeRoom_spec (h : Inv fnv1a_64 t S) :
    makeRoom fnv1a_64 t = .error .attemptsExhausted ∨
    ∃ t', makeRoom fnv1a_64 t = .ok t' ∧ Inv fnv1a_64 t' S ∧
      t'.inserted_edges < t'.resize_threshold := by
  unfold makeRoom
  by_cases hfull : t.inserted_edges ≥ t.resize_threshold
  · simp only [hfull, if_true]
    rcases increase_size_spec h with he | ⟨t', ht', h', -, -, hlt⟩
    · exact Or.inl (by simp [he, bind, Except.bind])
    · exact Or.inr ⟨t', by simp [ht', hlt, bind, Except.bind, pure, Except.pure], h', hlt⟩
  · exact Or.inr ⟨t, by simp [hfull, pure, Except.pure], h, by omega⟩

/-! ## Adding one edge -/

/-- What the probe loop of `add_edge` can do: it stops at the first position that
is empty or holds the edge. -/
theorem addProbe_cases (e : BraceletTraceEdge) (t : Table) (rest : List Nat) :
    addProbe e rest t = .error .attemptsExhausted ∨
    ∃ before k after, rest = before ++ k :: after ∧
      (∀ j ∈ before, edge_present (t.edges j) = true ∧ ¬ edge_equal (t.edges j) e = true) ∧
      ((¬ edge_present (t.edges k) = true ∧ addProbe e rest t =
          .ok (true, { t.set k e with inserted_edges := t.inserted_edges + 1 })) ∨
        (edge_present (t.edges k) = true ∧ edge_equal (t.edges k) e = true ∧
          addProbe e rest t = .ok (false, t))) := by
  induction rest with
  | nil => exact Or.inl rfl
  | cons k rest ih =>
    by_cases hp : edge_present (t.edges k) = true
    · by_cases hq : edge_equal (t.edges k) e = true
      · exact Or.inr ⟨[], k, rest, rfl, by simp, Or.inr ⟨hp, hq, by simp [addProbe, hp, hq]⟩⟩
      · have hstep : addProbe e (k :: rest) t = addProbe e rest t := by simp [addProbe, hp, hq]
        rw [hstep]
        rcases ih with ih | ⟨before, k', after, rfl, hb, hr⟩
        · exact Or.inl ih
        · refine Or.inr ⟨k :: before, k', after, rfl, ?_, hr⟩
          rintro j (- | ⟨-, hj⟩)
          · exact ⟨hp, hq⟩
          · exact hb j hj
    · exact Or.inr ⟨[], k, rest, rfl, by simp, Or.inl ⟨hp, by simp [addProbe, hp]⟩⟩

/-- A probe that stops at an empty slot `k`, having met neither `e` nor an empty
slot, shows that `e` is not stored: its own probe would have to pass `k`. -/
theorem Inv.not_mem_of_hole (h : Inv fnv1a_64 t S) {e : BraceletTraceEdge} {k : Nat}
    {before after : List Nat}
    (hseq : IndexSequence fnv1a_64 t.edge_count e = before ++ k :: after)
    (hk : ¬ edge_present (t.edges k) = true)
    (hb : ∀ j ∈ before, ¬ edge_equal (t.edges j) e = true) : canonical e ∉ S := by
  intro hmem
  obtain ⟨i, hi⟩ := (h.rehashing.holds.mem _).mp hmem
  obtain ⟨hip, hie⟩ := content_eq_some.mp hi
  obtain ⟨before', after', hseq', hb'⟩ := h.rehashing.placed i (h.fresh hip)
  rw [IndexSequence_congr fnv1a_64 hie, hseq] at hseq'
  rcases List.append_eq_append_iff.mp hseq' with ⟨l, hl, hl'⟩ | ⟨l, hl, hl'⟩
  · cases l with
    | nil =>
      simp only [List.nil_append, List.cons.injEq] at hl'
      exact hk (hl'.1 ▸ hip)
    | cons x l =>
      simp only [List.cons_append, List.cons.injEq] at hl'
      refine hk (hb' k ?_).1
      rw [hl, ← hl'.1]
      simp
  · cases l with
    | nil =>
      simp only [List.nil_append, List.cons.injEq] at hl'
      exact hk (hl'.1 ▸ hip)
    | cons x l =>
      simp only [List.cons_append, List.cons.injEq] at hl'
      refine hb i ?_ ((edge_equal_iff _ _).mpr hie)
      rw [hl, hl'.1]
      simp

/-- Storing a new edge where its probe ended. -/
theorem Inv.store (h : Inv fnv1a_64 t S) {e : BraceletTraceEdge} {k : Nat}
    {before after : List Nat} (htr : Traceable (canonical e)) (hep : edge_epoch e = t.epoch)
    (hnew : canonical e ∉ S) (hfull : t.inserted_edges < t.resize_threshold)
    (hseq : IndexSequence fnv1a_64 t.edge_count e = before ++ k :: after)
    (hk : ¬ edge_present (t.edges k) = true)
    (hb : ∀ j ∈ before, edge_present (t.edges j) = true) :
    Inv fnv1a_64 { t.set k e with inserted_edges := t.inserted_edges + 1 }
      (insert (canonical e) S) := by
  set t' : Table := { t.set k e with inserted_edges := t.inserted_edges + 1 } with ht'
  have hkv : t'.edges k = e := by simp [ht', Table.set]
  have hrest : ∀ j, j ≠ k → t'.edges j = t.edges j := by
    intro j hj; simp [ht', Table.set, hj]
  have hpres : edge_present e = true := by
    rw [← edge_epoch_set_epoch e (edge_epoch e), edge_set_epoch_self] at hep
    rw [← edge_set_epoch_self e]
    exact edge_present_set_epoch htr _
  have hkc : content (t'.edges k) = some (canonical e) := by
    rw [hkv]; exact content_eq_some.mpr ⟨hpres, rfl⟩
  have hklt : k < t.edge_count := indices_lt h.nonempty k (by
    change k ∈ IndexSequence fnv1a_64 t.edge_count e
    rw [hseq]; simp)
  have hkept : ∀ j, edge_present (t.edges j) = true → t'.edges j = t.edges j ∧ Fresh t' j := by
    intro j hj
    have hjk : j ≠ k := by rintro rfl; exact hk hj
    refine ⟨hrest j hjk, ?_⟩
    rw [Fresh, hrest j hjk]
    exact h.fresh hj
  -- a slot of the new table is the new edge, or an old slot
  have hcases : ∀ j c, content (t'.edges j) = some c →
      (j = k ∧ c = canonical e) ∨ (j ≠ k ∧ content (t.edges j) = some c) := by
    intro j c hj
    by_cases hjk : j = k
    · subst hjk
      rw [hkc] at hj
      exact Or.inl ⟨rfl, (Option.some.inj hj).symm⟩
    · rw [hrest j hjk] at hj
      exact Or.inr ⟨hjk, hj⟩
  have hold : ∀ j c, content (t.edges j) = some c → c ∈ S :=
    fun j c hj => (h.rehashing.holds.mem c).mpr ⟨j, hj⟩
  refine ⟨⟨⟨?_, ?_, ?_, ?_⟩, ?_⟩, ?_, ?_, h.nonempty, h.threshold, hfull⟩
  · intro j c hj
    rcases hcases j c hj with ⟨rfl, -⟩ | ⟨-, hj⟩
    · exact hklt
    · exact h.rehashing.holds.within j c hj
  · intro i j c hi hj
    rcases hcases i c hi with ⟨hik, hic⟩ | ⟨-, hi'⟩
    · rcases hcases j c hj with ⟨hjk, -⟩ | ⟨-, hj'⟩
      · exact hik.trans hjk.symm
      · exact absurd (hic ▸ hold j c hj') hnew
    · rcases hcases j c hj with ⟨-, hjc⟩ | ⟨-, hj'⟩
      · exact absurd (hjc ▸ hold i c hi') hnew
      · exact h.rehashing.holds.distinct i j c hi' hj'
  · intro c
    rw [Finset.mem_insert, h.rehashing.holds.mem]
    constructor
    · rintro (rfl | ⟨j, hj⟩)
      · exact ⟨k, hkc⟩
      · exact ⟨j, by rw [(hkept j (content_eq_some.mp hj).1).1]; exact hj⟩
    · rintro ⟨j, hj⟩
      rcases hcases j c hj with ⟨-, hc⟩ | ⟨-, hj⟩
      · exact Or.inl hc
      · exact Or.inr ⟨j, hj⟩
  · intro c hc
    rcases Finset.mem_insert.mp hc with rfl | hc
    · exact htr
    · exact h.rehashing.holds.traceable c hc
  · intro j hj
    by_cases hjk : j = k
    · subst hjk
      refine ⟨before, after, ?_, fun l hl => (hkept l (hb l hl)).2⟩
      rw [hkv]
      exact hseq
    · have hjp : edge_present (t.edges j) = true := by rw [← hrest j hjk]; exact hj.1
      obtain ⟨before, after, hseq, hb⟩ := h.rehashing.placed j (h.fresh hjp)
      refine ⟨before, after, ?_, fun l hl => (hkept l (hb l hl).1).2⟩
      rw [hrest j hjk]
      exact hseq
  · rintro j ⟨hp, he⟩
    by_cases hjk : j = k
    · subst hjk
      rw [hkv] at he
      exact he hep
    · rw [hrest j hjk] at hp he
      exact h.settled j ⟨hp, he⟩
  · change t.inserted_edges + 1 = _
    rw [Finset.card_insert_of_notMem hnew, h.inserted]

/-- **One call of `add_edge`** keeps the invariant, adds its edge, and answers
whether the edge is new. -/
theorem add_edge_spec (h : Inv fnv1a_64 t S) {e : BraceletTraceEdge} (he : Traceable e) :
    add_edge fnv1a_64 t e = .error .attemptsExhausted ∨
    ∃ t', add_edge fnv1a_64 t e = .ok (decide (e ∉ S), t') ∧ Inv fnv1a_64 t' (insert e S) := by
  have hep : edge_epoch e = false := by simp [edge_epoch, he.1]
  have hcan : canonical e = e := canonical_of_traceable he
  rcases makeRoom_spec h with hr | ⟨t₁, hr, h₁, hfull⟩
  · exact Or.inl (by simp [add_edge, hep, hr, bind, Except.bind])
  set e' := edge_set_epoch e t₁.epoch with he'
  have hcan' : canonical e' = e := by rw [he', canonical_set_epoch, hcan]
  have hrun : add_edge fnv1a_64 t e =
      addProbe e' (IndexSequence fnv1a_64 t₁.edge_count e') t₁ := by
    simp [add_edge, hep, hr, bind, Except.bind, he']
  rw [hrun]
  rcases addProbe_cases e' t₁ (IndexSequence fnv1a_64 t₁.edge_count e') with
    hp | ⟨before, k, after, hseq, hb, ⟨hk, hp⟩ | ⟨hk, hq, hp⟩⟩
  · exact Or.inl hp
  · have hnew : canonical e' ∉ S := h₁.not_mem_of_hole hseq hk fun j hj => (hb j hj).2
    have hst := h₁.store (by rw [hcan']; exact he) (edge_epoch_set_epoch _ _) hnew hfull hseq hk
      fun j hj => (hb j hj).1
    rw [hcan'] at hnew hst
    refine Or.inr ⟨_, ?_, hst⟩
    rw [hp, decide_eq_true hnew]
  · have hmem : e ∈ S := by
      rw [← hcan', ← (edge_equal_iff _ _).mp hq]
      exact (h₁.rehashing.holds.mem _).mpr ⟨k, content_eq_some.mpr ⟨hk, rfl⟩⟩
    refine Or.inr ⟨t₁, by rw [hp]; simp [hmem], ?_⟩
    rw [Finset.insert_eq_of_mem hmem]
    exact h₁

/-! ## Any number of calls -/

/-- The answers `add_edge` owes: whether the edge is neither in `S` nor among the
edges before it. -/
def firstTime (S : Finset BraceletTraceEdge) : List BraceletTraceEdge → List Bool
  | [] => []
  | e :: es => decide (e ∉ S) :: firstTime (insert e S) es

theorem firstTime_eq (es : List BraceletTraceEdge) (S : Finset BraceletTraceEdge) :
    (firstTime S es).length = es.length ∧
    ∀ k e, es[k]? = some e → (firstTime S es)[k]? = some (decide (e ∉ S ∧ e ∉ es.take k)) := by
  induction es generalizing S with
  | nil => simp [firstTime]
  | cons x es ih =>
    obtain ⟨hlen, hget⟩ := ih (insert x S)
    refine ⟨by simp [firstTime, hlen], ?_⟩
    rintro (- | k) e he
    · simp only [List.getElem?_cons_zero, Option.some.injEq] at he
      simp [firstTime, he]
    · simp only [List.getElem?_cons_succ] at he
      simp only [firstTime, List.getElem?_cons_succ, hget k e he, Finset.mem_insert,
        List.take_succ_cons, List.mem_cons]
      congr 2
      rw [eq_iff_iff]
      tauto

theorem add_edges_spec (es : List BraceletTraceEdge) :
    ∀ {t : Table} {S : Finset BraceletTraceEdge}, Inv fnv1a_64 t S → (∀ e ∈ es, Traceable e) →
    add_edges fnv1a_64 es t = .error .attemptsExhausted ∨
    ∃ t', add_edges fnv1a_64 es t = .ok (firstTime S es, t') ∧
      Inv fnv1a_64 t' (S ∪ es.toFinset) := by
  induction es with
  | nil => intro t S h _; exact Or.inr ⟨t, rfl, by simpa using h⟩
  | cons e es ih =>
    intro t S h hes
    rcases add_edge_spec h (hes e (by simp)) with hr | ⟨t₁, hr, h₁⟩
    · exact Or.inl (by simp [add_edges, hr, bind, Except.bind])
    · rcases ih h₁ (fun x hx => hes x (by simp [hx])) with hr' | ⟨t', hr', h'⟩
      · exact Or.inl (by simp [add_edges, hr, hr', bind, Except.bind])
      · refine Or.inr ⟨t', by simp [add_edges, firstTime, hr, hr', bind, Except.bind, pure,
          Except.pure], ?_⟩
        rw [List.toFinset_cons, Finset.union_insert, ← Finset.insert_union]
        exact h'

/-- **The set survives any number of in-place resizes.**  Adding any edges to a new
table of any size either uses up the attempts of a probe, or answers `true`
exactly for the edges not added before and leaves a table that is the set of the
edges added; doubling that table again keeps the set. -/
theorem add_edges_represents (fnv1a_64 : BraceletTraceEdge → UInt64)
    (log2_initial_buffer_size : Nat) (es : List BraceletTraceEdge) (hes : ∀ e ∈ es, Traceable e) :
    match add_edges fnv1a_64 es (create log2_initial_buffer_size) with
    | .error f => f = .attemptsExhausted
    | .ok (added, t) =>
        Represents fnv1a_64 t es.toFinset ∧
        t.inserted_edges = es.toFinset.card ∧ t.inserted_edges < t.edge_count ∧
        added.length = es.length ∧
        (∀ k e, es[k]? = some e → added[k]? = some (decide (e ∉ es.take k))) ∧
        match increase_size fnv1a_64 t with
        | .error f => f = .attemptsExhausted
        | .ok t' => Represents fnv1a_64 t' es.toFinset ∧ t'.edge_count = 2 * t.edge_count := by
  rcases add_edges_spec es (Inv.create fnv1a_64 log2_initial_buffer_size) hes with
    hr | ⟨t, hr, h⟩
  · simp [hr]
  · rw [Finset.empty_union] at h
    obtain ⟨hlen, hget⟩ := firstTime_eq es ∅
    simp only [hr]
    refine ⟨h.represents, h.inserted, h.inserted_lt, hlen, ?_, ?_⟩
    · intro k e he
      simpa using hget k e he
    · rcases increase_size_spec h with hr' | ⟨t', hr', h', hcount, -, -⟩
      · simp [hr']
      · simp only [hr']
        exact ⟨h'.represents, hcount⟩

end

/-- FNV-1a over the `n` bytes of a word, least significant first. -/
def fnv1a_bytes : Nat → UInt64 → UInt64 → UInt64
  | 0, _, hash => hash
  | n + 1, word, hash => fnv1a_bytes n (word >>> 8) ((hash ^^^ (word &&& 0xff)) * 0x100000001b3)

/-- The hash the runtime links in, for running the table on concrete edges. -/
def fnv1a (e : BraceletTraceEdge) : UInt64 :=
  fnv1a_bytes 8 e.value (fnv1a_bytes 8 e.trace_site 0xcbf29ce484222325)

/-- Three edges, one of them added twice, in a table that starts with one slot. -/
theorem add_edges_represents_grown :
    ∃ t, add_edges fnv1a [⟨2, 0⟩, ⟨4, 7⟩, ⟨2, 0⟩, ⟨6, 7⟩] (create 0) =
        .ok ([true, true, false, true], t) ∧
      Represents fnv1a t {⟨2, 0⟩, ⟨4, 7⟩, ⟨6, 7⟩} ∧ t.inserted_edges = 3 := by
  have h := add_edges_represents fnv1a 0 [⟨2, 0⟩, ⟨4, 7⟩, ⟨2, 0⟩, ⟨6, 7⟩] (by decide)
  have hrun : (add_edges fnv1a [⟨2, 0⟩, ⟨4, 7⟩, ⟨2, 0⟩, ⟨6, 7⟩] (create 0)).map Prod.fst =
      .ok [true, true, false, true] := by
    decide +kernel
  have hset : ([⟨2, 0⟩, ⟨4, 7⟩, ⟨2, 0⟩, ⟨6, 7⟩] : List BraceletTraceEdge).toFinset =
      {⟨2, 0⟩, ⟨4, 7⟩, ⟨6, 7⟩} := by
    decide
  rw [hset] at h
  cases hr : add_edges fnv1a [⟨2, 0⟩, ⟨4, 7⟩, ⟨2, 0⟩, ⟨6, 7⟩] (create 0) with
  | error f => simp [hr, Except.map] at hrun
  | ok r =>
    simp only [hr, Except.map, Except.ok.injEq] at hrun
    simp only [hr] at h
    exact ⟨r.2, by rw [← hrun], h.1, h.2.1⟩

end Bracelet.EdgeHashSet
