import Bracelet.EdgeHashSetRuns

/-!
# What a crash leaves in the file

The table is the file, so a process that stops in the middle of `add_edge` leaves whatever the
stores made so far have left.  `add_edgePoints` lists the tables between the stores, a swap
being the three assignments it is made of; the last of them is what the call answers
(`add_edgePoints_last`).

Only the swap loses anything: after its first assignment the edge that is being rehashed lives
in a local variable alone.  So a doubling is safe exactly when no probe comes to a slot that is
still to be rehashed (`add_edge_survives_iff`).
-/
namespace Bracelet.EdgeHashSet

/-- The edges a reader decodes, without the bookkeeping bit. -/
def decoded (t : Table) : Set BraceletTraceEdge :=
  { c | ∃ i < t.edge_count, content (t.edges i) = some c }

instance (t : Table) (c : BraceletTraceEdge) : Decidable (c ∈ decoded t) :=
  inferInstanceAs (Decidable (∃ i < t.edge_count, content (t.edges i) = some c))

instance (t : Table) (i : Nat) : Decidable (Fresh t i) := inferInstanceAs (Decidable (_ ∧ _))

/-! ## The tables between the stores -/

/-- The loop of `resize_insert`. -/
def resizeProbePoints (i : Nat) : List Nat → Table → List Table
  | [], _ => []
  | idx :: rest, t =>
      let edge := t.edges i
      let dst := t.edges idx
      if edge_present dst then
        if edge_epoch dst = t.epoch then
          if edge_equal edge dst then [] else resizeProbePoints i rest t
        else
          -- `tmp = edge; edge = dst; dst = tmp`
          [t.set i dst, (t.set i dst).set idx edge]
      else
        let t' := t.set idx (edge_set_epoch edge t.epoch)
        [t', t'.set i EDGE_ZERO]

section
variable (fnv1a_64 : BraceletTraceEdge → UInt64)

/-- `resize_insert` -/
def resize_insertPoints (t : Table) (i : Nat) : List Table :=
  let edge := t.edges i
  if !edge_present edge || edge_epoch edge == t.epoch then
    []
  else
    let edge := edge_set_epoch edge t.epoch
    let t' := t.set i edge
    t' :: resizeProbePoints i (IndexSequence fnv1a_64 t.edge_count edge) t'

def rehashSlotPoints (i : Nat) : Nat → Table → List Table
  | 0, _ => []
  | fuel + 1, t =>
      resize_insertPoints fnv1a_64 t i ++
        match resize_insert fnv1a_64 t i with
        | .ok (true, t) => rehashSlotPoints i fuel t
        | _ => []

def rehashPoints : List Nat → Table → List Table
  | [], _ => []
  | i :: is, t =>
      rehashSlotPoints fnv1a_64 i (t.edge_count + 1) t ++
        match rehashSlot fnv1a_64 i (t.edge_count + 1) t with
        | .ok t => rehashPoints is t
        | .error _ => []

/-- `increase_size`, from when the file has been extended and mapped again. -/
def increase_sizePoints (t : Table) : List Table :=
  t.extend :: rehashPoints fnv1a_64 (List.range t.edge_count) t.extend

/-- The loop of `add_edge`. -/
def addProbePoints (e : BraceletTraceEdge) : List Nat → Table → List Table
  | [], _ => []
  | idx :: rest, t =>
      let dst := t.edges idx
      if !edge_present dst then [t.set idx e]
      else if edge_equal dst e then [] else addProbePoints e rest t

/-- **The tables a process can leave** when it stops during `add_edge`. -/
def add_edgePoints (t : Table) (e : BraceletTraceEdge) : List Table :=
  t :: if edge_epoch e then [] else
    (if t.inserted_edges ≥ t.resize_threshold then increase_sizePoints fnv1a_64 t else []) ++
      match makeRoom fnv1a_64 t with
      | .error _ => []
      | .ok t =>
        let e := edge_set_epoch e t.epoch
        addProbePoints e (IndexSequence fnv1a_64 t.edge_count e) t

end

/-! ## The last of them -/

/-- The files are the same. -/
def SameFile (t t' : Table) : Prop := t.edge_count = t'.edge_count ∧ t.edges = t'.edges

theorem SameFile.trans {t t' t'' : Table} (h : SameFile t t') (h' : SameFile t' t'') :
    SameFile t t'' :=
  ⟨h.1.trans h'.1, h.2.trans h'.2⟩

theorem getLastD_append {α : Type} (l l' : List α) (a : α) :
    (l ++ l').getLastD a = l'.getLastD (l.getLastD a) := by
  induction l generalizing a with
  | nil => rfl
  | cons b l ih =>
    cases l' with
    | nil => simp
    | cons c l' => simp [List.getLastD]

section
variable {fnv1a_64 : BraceletTraceEdge → UInt64}

theorem resizeProbePoints_last {i : Nat} {rest : List Nat} {t t' : Table} {again : Bool}
    (h : resizeProbe i rest t = .ok (again, t')) : (resizeProbePoints i rest t).getLastD t = t' := by
  induction rest with
  | nil => cases h
  | cons idx rest ih =>
    unfold resizeProbe at h
    unfold resizeProbePoints
    dsimp only at h ⊢
    split_ifs at h ⊢
    · cases h
      rfl
    · exact ih h
    · cases h
      rfl
    · cases h
      rfl

theorem resize_insertPoints_last {i : Nat} {t t' : Table} {again : Bool}
    (h : resize_insert fnv1a_64 t i = .ok (again, t')) :
    (resize_insertPoints fnv1a_64 t i).getLastD t = t' := by
  unfold resize_insert at h
  unfold resize_insertPoints
  dsimp only at h ⊢
  split_ifs at h ⊢
  · cases h
    rfl
  · rw [List.getLastD_cons]
    exact resizeProbePoints_last h

theorem rehashSlotPoints_last {i fuel : Nat} {t t' : Table}
    (h : rehashSlot fnv1a_64 i fuel t = .ok t') :
    (rehashSlotPoints fnv1a_64 i fuel t).getLastD t = t' := by
  induction fuel generalizing t with
  | zero => cases h
  | succ fuel ih =>
    unfold rehashSlot at h
    unfold rehashSlotPoints
    rw [getLastD_append]
    cases hr : resize_insert fnv1a_64 t i with
    | error f => simp [hr, bind, Except.bind] at h
    | ok r =>
      obtain ⟨again, t₁⟩ := r
      rw [resize_insertPoints_last hr]
      simp only [hr, bind, Except.bind] at h
      cases again with
      | false =>
        cases h
        rfl
      | true => exact ih h

theorem rehashPoints_last {is : List Nat} {t t' : Table} (h : rehash fnv1a_64 is t = .ok t') :
    (rehashPoints fnv1a_64 is t).getLastD t = t' := by
  induction is generalizing t with
  | nil =>
    cases h
    rfl
  | cons i is ih =>
    unfold rehash at h
    unfold rehashPoints
    rw [getLastD_append]
    cases hr : rehashSlot fnv1a_64 i (t.edge_count + 1) t with
    | error f => simp [hr, bind, Except.bind] at h
    | ok t₁ =>
      rw [rehashSlotPoints_last hr]
      simp only [hr, bind, Except.bind] at h
      exact ih h

theorem makeRoom_last {t t' : Table} (h : makeRoom fnv1a_64 t = .ok t') :
    SameFile ((if t.inserted_edges ≥ t.resize_threshold then increase_sizePoints fnv1a_64 t
      else []).getLastD t) t' := by
  unfold makeRoom at h
  split_ifs at h ⊢ with hfull
  · cases hr : rehash fnv1a_64 (List.range t.edge_count) t.extend with
    | error f => simp [increase_size, hr, bind, Except.bind] at h
    | ok t₁ =>
      rw [increase_sizePoints, List.getLastD_cons, rehashPoints_last hr]
      simp only [increase_size, hr, bind, Except.bind, pure, Except.pure] at h
      split_ifs at h
      obtain rfl := Except.ok.inj h
      exact ⟨rfl, rfl⟩
  · obtain rfl := Except.ok.inj h
    exact ⟨rfl, rfl⟩

theorem addProbePoints_last {e : BraceletTraceEdge} {rest : List Nat} {t t' : Table} {added : Bool}
    (h : addProbe e rest t = .ok (added, t')) : SameFile ((addProbePoints e rest t).getLastD t) t' := by
  induction rest with
  | nil => cases h
  | cons idx rest ih =>
    unfold addProbe at h
    unfold addProbePoints
    dsimp only at h ⊢
    split_ifs at h ⊢
    · cases h
      exact ⟨rfl, rfl⟩
    · cases h
      exact ⟨rfl, rfl⟩
    · exact ih h

theorem SameFile.getLastD {t t' : Table} (h : SameFile t t') (ms : List Table) :
    SameFile (ms.getLastD t) (ms.getLastD t') := by
  cases ms with
  | nil => exact h
  | cons m ms => exact ⟨rfl, rfl⟩

/-- **The last point of a call is the table that it leaves.** -/
theorem add_edgePoints_last {t t' : Table} {e : BraceletTraceEdge} {added : Bool}
    (h : add_edge fnv1a_64 t e = .ok (added, t')) :
    SameFile ((add_edgePoints fnv1a_64 t e).getLastD t) t' := by
  unfold add_edge at h
  unfold add_edgePoints
  by_cases hepoch : edge_epoch e = true
  · simp [hepoch, throw, throwThe, MonadExceptOf.throw, bind, Except.bind] at h
  rw [List.getLastD_cons, if_neg hepoch, getLastD_append]
  rw [if_neg hepoch] at h
  cases hr : makeRoom fnv1a_64 t with
  | error f => simp [hr, bind, Except.bind] at h
  | ok t₁ =>
    simp only [hr, bind, Except.bind] at h
    exact ((makeRoom_last hr).getLastD _).trans (addProbePoints_last h)

end

/-! ## One call of `resize_insert` -/

section
variable (fnv1a_64 : BraceletTraceEdge → UInt64)

/-- The position at which the probe of the edge in slot `i` ends: the slot itself, or the
first that has not been rehashed or is empty. -/
def probeEnd (t : Table) (i : Nat) : Option Nat :=
  (IndexSequence fnv1a_64 t.edge_count (t.edges i)).find? fun j => j = i ∨ ¬ Fresh t j

/-- The edge in slot `i` takes the place of another one that is still to be rehashed. -/
def Evicts (t : Table) (i : Nat) : Prop :=
  Stale t i ∧ ∃ k, probeEnd fnv1a_64 t i = some k ∧ k ≠ i ∧ edge_present (t.edges k) = true

/-- **No doubling of the table evicts an edge**: each edge in turn comes to its own slot or
to an empty one. -/
def Clear (t : Table) : Prop :=
  ∀ is i rest t', List.range t.edge_count = is ++ i :: rest →
    rehash fnv1a_64 is t.extend = .ok t' → ¬ Evicts fnv1a_64 t' i

end

section
variable {fnv1a_64 : BraceletTraceEdge → UInt64} {t : Table} {S : Finset BraceletTraceEdge}

theorem Holds.decoded {t : Table} (h : Holds t.edges t.edge_count S) : decoded t = S := by
  ext c
  rw [Finset.mem_coe, h.mem]
  exact ⟨fun ⟨i, _, hi⟩ => ⟨i, hi⟩, fun ⟨i, hi⟩ => ⟨i, h.within i c hi, hi⟩⟩

/-- The edge of a slot that is still to be rehashed differs from those in the others. -/
theorem Rehashing.not_equal (h : Rehashing fnv1a_64 t S) {i j : Nat} (hi : Stale t i)
    (hj : edge_present (t.edges j) = true) (hne : j ≠ i) :
    ¬ edge_equal (edge_set_epoch (t.edges i) t.epoch) (t.edges j) = true := by
  rw [edge_equal_iff, canonical_set_epoch]
  intro heq
  exact hne (h.holds.distinct j i _ (content_eq_some.mpr ⟨hj, rfl⟩) (content_eq_some.mpr ⟨hi.1, heq⟩))

/-- What the probe does where it ends. -/
theorem Rehashing.resizeProbe_eq (h : Rehashing fnv1a_64 t S) {i : Nat} (hi : Stale t i)
    (rest : List Nat) :
    let e := edge_set_epoch (t.edges i) t.epoch
    let t₁ := t.set i e
    match rest.find? fun j => j = i ∨ ¬ Fresh t j with
    | none => resizeProbePoints i rest t₁ = [] ∧ resizeProbe i rest t₁ = .error .attemptsExhausted
    | some k =>
      if k = i then resizeProbePoints i rest t₁ = [] ∧ resizeProbe i rest t₁ = .ok (false, t₁)
      else if edge_present (t.edges k) then
        resizeProbePoints i rest t₁ = [t₁.set i (t.edges k), (t₁.set i (t.edges k)).set k e]
      else resizeProbePoints i rest t₁ = [t₁.set k e, (t₁.set k e).set i EDGE_ZERO] ∧
        resizeProbe i rest t₁ = .ok (false, (t₁.set k e).set i EDGE_ZERO) := by
  intro e t₁
  have htr := h.holds.traceable_slot hi.1
  have hself : t₁.edges i = e := by simp [t₁, Table.set]
  have hother : ∀ j, j ≠ i → t₁.edges j = t.edges j := fun j hj => by simp [t₁, Table.set, hj]
  have hpresent : edge_present e = true := edge_present_set_epoch htr _
  have hepoch : edge_epoch e = t₁.epoch := edge_epoch_set_epoch _ _
  have hset : edge_set_epoch e t₁.epoch = e := set_epoch_set_epoch _ _ _
  induction rest with
  | nil => exact ⟨rfl, rfl⟩
  | cons k rest ih =>
    by_cases hki : k = i
    · subst hki
      have hequal : edge_equal e e = true := (edge_equal_iff _ _).mpr rfl
      rw [List.find?_cons_of_pos (by simp)]
      simp [resizeProbePoints, resizeProbe, hself, hpresent, hepoch, hequal]
    · by_cases hfresh : Fresh t k
      · have hne := h.not_equal hi hfresh.1 hki
        have hepoch' : edge_epoch (t.edges k) = t₁.epoch := hfresh.2
        rw [List.find?_cons_of_neg (by simp [hki, hfresh])]
        have hpoints : resizeProbePoints i (k :: rest) t₁ = resizeProbePoints i rest t₁ := by
          simp [resizeProbePoints, hself, hother k hki, hfresh.1, hepoch', hne, e]
        have hprobe : resizeProbe i (k :: rest) t₁ = resizeProbe i rest t₁ := by
          simp [resizeProbe, hself, hother k hki, hfresh.1, hepoch', hne, e]
        rw [hpoints, hprobe]
        exact ih
      · rw [List.find?_cons_of_pos (by simp [hfresh])]
        dsimp only
        rw [if_neg hki]
        by_cases hp : edge_present (t.edges k) = true
        · have hepoch' : edge_epoch (t.edges k) ≠ t₁.epoch := fun he => hfresh ⟨hp, he⟩
          rw [if_pos hp]
          simp [resizeProbePoints, hself, hother k hki, hp, hepoch']
        · rw [if_neg hp]
          simp [resizeProbePoints, resizeProbe, hself, hother k hki, hp, hset]

theorem decoded_congr {t t' : Table} (hcount : t'.edge_count = t.edge_count)
    (h : ∀ j, content (t'.edges j) = content (t.edges j)) : decoded t' = decoded t := by
  unfold decoded
  simp only [hcount, h]

theorem resize_insertPoints_stale {i : Nat} (hi : Stale t i) :
    resize_insertPoints fnv1a_64 t i =
      t.set i (edge_set_epoch (t.edges i) t.epoch) ::
        resizeProbePoints i (IndexSequence fnv1a_64 t.edge_count (t.edges i))
          (t.set i (edge_set_epoch (t.edges i) t.epoch)) := by
  have hcond : (!edge_present (t.edges i) || edge_epoch (t.edges i) == t.epoch) = false := by
    simp [hi.1, hi.2]
  simp only [resize_insertPoints, hcond, Bool.false_eq_true, if_false]
  rw [IndexSequence_congr fnv1a_64 (canonical_set_epoch _ _)]

theorem resize_insertPoints_not_stale {i : Nat} (hi : ¬ Stale t i) :
    resize_insertPoints fnv1a_64 t i = [] := by
  have hcond : (!edge_present (t.edges i) || edge_epoch (t.edges i) == t.epoch) = true := by
    by_contra hcond
    simp only [Bool.or_eq_true, Bool.not_eq_true', beq_iff_eq, not_or] at hcond
    exact hi ⟨by simpa using hcond.1, hcond.2⟩
  simp only [resize_insertPoints, hcond, if_true]

/-- A probe ends within the table. -/
theorem probeEnd_lt (hcount : 0 < t.edge_count) {i k : Nat} (h : probeEnd fnv1a_64 t i = some k) :
    k < t.edge_count :=
  indices_lt hcount k (List.mem_of_find?_eq_some h)

/-- To mark an edge as rehashed loses nothing. -/
theorem Rehashing.decoded_retag (h : Rehashing fnv1a_64 t S) {i : Nat} (hi : Stale t i) :
    decoded (t.set i (edge_set_epoch (t.edges i) t.epoch)) = S := by
  rw [← h.holds.decoded]
  refine decoded_congr rfl fun j => ?_
  by_cases hj : j = i
  · subst hj
    simp [Table.set, content_set_epoch (h.holds.traceable_slot hi.1) hi.1]
  · simp [Table.set, hj]

/-- Nor does copying it to an empty slot, and then clearing its own. -/
theorem Rehashing.decoded_move (h : Rehashing fnv1a_64 t S) {i k : Nat} (hi : Stale t i)
    (hk : k < t.edge_count) (hki : k ≠ i) (hp : ¬ edge_present (t.edges k) = true) :
    let e := edge_set_epoch (t.edges i) t.epoch
    decoded ((t.set i e).set k e) = S ∧ decoded (((t.set i e).set k e).set i EDGE_ZERO) = S := by
  intro e
  have hcontent : content e = content (t.edges i) :=
    content_set_epoch (h.holds.traceable_slot hi.1) hi.1 _
  have hnone := content_of_absent hp
  constructor
  · rw [← h.holds.decoded]
    ext c
    constructor
    · rintro ⟨j, hj, hc⟩
      by_cases hjk : j = k
      · subst hjk
        exact ⟨i, h.stale_lt hi, by simpa [Table.set, hcontent] using hc⟩
      · refine ⟨j, hj, ?_⟩
        by_cases hji : j = i
        · subst hji
          simpa [Table.set, hki.symm, hcontent] using hc
        · simpa [Table.set, hjk, hji] using hc
    · rintro ⟨j, hj, hc⟩
      have hjk : j ≠ k := by
        rintro rfl
        rw [hnone] at hc
        cases hc
      refine ⟨j, hj, ?_⟩
      by_cases hji : j = i
      · subst hji
        simpa [Table.set, hjk, hcontent] using hc
      · simpa [Table.set, hjk, hji] using hc
  · refine Holds.decoded (h.holds.swap (h.stale_lt hi) hk fun j => ?_)
    by_cases hji : j = i
    · subst hji
      rw [Equiv.swap_apply_left, hnone]
      simp [Table.set]
    · by_cases hjk : j = k
      · subst hjk
        rw [Equiv.swap_apply_right, ← hcontent]
        simp [Table.set, hki]
      · rw [Equiv.swap_apply_of_ne_of_ne hji hjk]
        simp [Table.set, hji, hjk]

/-- A call that does not evict loses nothing and is the last for its slot. -/
theorem Rehashing.resize_insert_safe (h : Rehashing fnv1a_64 t S) {i : Nat}
    (hi : ¬ Evicts fnv1a_64 t i) :
    (∀ m ∈ resize_insertPoints fnv1a_64 t i, decoded m = S) ∧
      ∀ t', resize_insert fnv1a_64 t i ≠ .ok (true, t') := by
  by_cases hst : Stale t i
  · have hcount : 0 < t.edge_count := Nat.lt_of_le_of_lt (Nat.zero_le _) (h.stale_lt hst)
    have hend := h.resizeProbe_eq hst (IndexSequence fnv1a_64 t.edge_count (t.edges i))
    rw [resize_insertPoints_stale hst, resize_insert_stale hst]
    change match probeEnd fnv1a_64 t i with | none => _ | some k => _ at hend
    cases hk : probeEnd fnv1a_64 t i with
    | none =>
      rw [hk] at hend
      obtain ⟨hpoints, hprobe⟩ := hend
      rw [hpoints, hprobe]
      exact ⟨by simpa using h.decoded_retag hst, fun t' => by simp⟩
    | some k =>
      rw [hk] at hend
      dsimp only at hend
      by_cases hki : k = i
      · rw [if_pos hki] at hend
        rw [hend.1, hend.2]
        exact ⟨by simpa using h.decoded_retag hst, fun t' => by simp⟩
      · have hp : ¬ edge_present (t.edges k) = true := fun hp => hi ⟨hst, k, hk, hki, hp⟩
        rw [if_neg hki, if_neg hp] at hend
        rw [hend.1, hend.2]
        have hmove := h.decoded_move hst (probeEnd_lt hcount hk) hki hp
        refine ⟨?_, fun t' => by simp⟩
        simpa using ⟨h.decoded_retag hst, hmove⟩
  · rw [resize_insertPoints_not_stale hst, resize_insert_not_stale hst]
    exact ⟨by simp, fun t' => by simp⟩

/-- **One that evicts passes through a table without its edge.** -/
theorem Rehashing.evicts_loses (h : Rehashing fnv1a_64 t S) {i : Nat} (hi : Evicts fnv1a_64 t i) :
    ∃ m ∈ resize_insertPoints fnv1a_64 t i, ∃ c ∈ S, c ∉ decoded m := by
  obtain ⟨hst, k, hk, hki, hp⟩ := hi
  have hend := h.resizeProbe_eq hst (IndexSequence fnv1a_64 t.edge_count (t.edges i))
  change match probeEnd fnv1a_64 t i with | none => _ | some k => _ at hend
  rw [hk] at hend
  dsimp only at hend
  rw [if_neg hki, if_pos hp] at hend
  rw [resize_insertPoints_stale hst, hend]
  refine ⟨_, List.mem_cons_of_mem _ List.mem_cons_self, canonical (t.edges i), ?_, ?_⟩
  · exact (h.holds.mem _).mpr ⟨i, content_eq_some.mpr ⟨hst.1, rfl⟩⟩
  · rintro ⟨j, -, hc⟩
    have hown : content (t.edges i) = some (canonical (t.edges i)) :=
      content_eq_some.mpr ⟨hst.1, rfl⟩
    by_cases hji : j = i
    · subst hji
      have hc' : content (t.edges k) = some (canonical (t.edges j)) := by
        simpa [Table.set] using hc
      exact hki (h.holds.distinct k j _ hc' hown)
    · have hc' : content (t.edges j) = some (canonical (t.edges i)) := by
        simpa [Table.set, hji] using hc
      exact hji (h.holds.distinct j i _ hc' hown)

/-! ## Doubling -/

/-- Slots rehashed in turn without evicting an edge. -/
theorem Rehashing.rehash_safe {is : List Nat} (h : Rehashing fnv1a_64 t S)
    (hclear : ∀ is₁ i is₂ t', is = is₁ ++ i :: is₂ → rehash fnv1a_64 is₁ t = .ok t' →
      ¬ Evicts fnv1a_64 t' i) : ∀ m ∈ rehashPoints fnv1a_64 is t, decoded m = S := by
  induction is generalizing t with
  | nil => simp [rehashPoints]
  | cons i is ih =>
    obtain ⟨hpoints, hlast⟩ := h.resize_insert_safe (hclear [] i is t rfl rfl)
    have hslot : rehashSlotPoints fnv1a_64 i (t.edge_count + 1) t =
        resize_insertPoints fnv1a_64 t i := by
      unfold rehashSlotPoints
      split
      next t' hr => exact absurd hr (hlast t')
      next => rw [List.append_nil]
    intro m hm
    rw [rehashPoints, hslot] at hm
    rcases List.mem_append.mp hm with hm | hm
    · exact hpoints m hm
    · rcases rehashSlot_spec i (t.edge_count + 1) h (staleSlots_card_lt t) with hr | ⟨t', hr, h', -, -⟩
      · rw [hr] at hm
        cases hm
      · rw [hr] at hm
        refine ih h' (fun is₁ i' is₂ t'' hsplit hrun => ?_) m hm
        refine hclear (i :: is₁) i' is₂ t'' (by rw [hsplit]; rfl) ?_
        simp [rehash, hr, hrun, bind, Except.bind]

/-- A slot in turn that evicts one. -/
theorem Rehashing.rehash_loses {is₁ : List Nat} (is₂ : List Nat) {i : Nat} {t' : Table}
    (h : Rehashing fnv1a_64 t S) (hrun : rehash fnv1a_64 is₁ t = .ok t')
    (hi : Evicts fnv1a_64 t' i) :
    ∃ m ∈ rehashPoints fnv1a_64 (is₁ ++ i :: is₂) t, ∃ c ∈ S, c ∉ decoded m := by
  induction is₁ generalizing t with
  | nil =>
    obtain rfl := Except.ok.inj hrun
    obtain ⟨m, hm, hlost⟩ := h.evicts_loses hi
    exact ⟨m, List.mem_append_left _ (List.mem_append_left _ hm), hlost⟩
  | cons j is₁ ih =>
    rcases rehashSlot_spec j (t.edge_count + 1) h (staleSlots_card_lt t) with hr | ⟨t₁, hr, h₁, -, -⟩
    · simp [rehash, hr, bind, Except.bind] at hrun
    · simp only [rehash, hr, bind, Except.bind] at hrun
      obtain ⟨m, hm, hlost⟩ := ih h₁ hrun
      refine ⟨m, List.mem_append_right _ ?_, hlost⟩
      rw [hr]
      exact hm

/-! ## A call of `add_edge` -/

/-- The tables that a reader may find: all edges of `S`, and at most the one being added. -/
def Survives (S : Finset BraceletTraceEdge) (e : BraceletTraceEdge) (m : Table) : Prop :=
  (∀ c ∈ S, c ∈ decoded m) ∧ ∀ c ∈ decoded m, c ∈ S ∨ c = e

theorem survives_of_decoded {m : Table} {e : BraceletTraceEdge} (h : decoded m = S) :
    Survives S e m := by
  unfold Survives
  rw [h]
  exact ⟨fun c hc => hc, fun c hc => .inl hc⟩

/-- The single store of an edge adds it. -/
theorem Inv.addProbe_survives (h : Inv fnv1a_64 t S) {e : BraceletTraceEdge} (he : Traceable e)
    (rest : List Nat) (hrest : ∀ k ∈ rest, k < t.edge_count) :
    ∀ m ∈ addProbePoints (edge_set_epoch e t.epoch) rest t, Survives S e m := by
  induction rest with
  | nil => simp [addProbePoints]
  | cons k rest ih =>
    unfold addProbePoints
    dsimp only
    split_ifs with hp hq
    · intro m hm
      obtain rfl := List.mem_singleton.mp hm
      have hnone : content (t.edges k) = none := content_of_absent (by simpa using hp)
      have hnew : content (edge_set_epoch e t.epoch) = some e := by
        have hcan := canonical_of_traceable he
        refine content_eq_some.mpr ⟨edge_present_set_epoch (by rwa [hcan]) _, ?_⟩
        rw [canonical_set_epoch, hcan]
      constructor
      · intro c hc
        obtain ⟨j, hj⟩ := (h.rehashing.holds.mem c).mp hc
        have hjk : j ≠ k := by
          rintro rfl
          rw [hnone] at hj
          cases hj
        exact ⟨j, h.rehashing.holds.within j c hj, by simpa [Table.set, hjk] using hj⟩
      · rintro c ⟨j, -, hj⟩
        by_cases hjk : j = k
        · subst hjk
          refine .inr ?_
          have hj' : content (edge_set_epoch e t.epoch) = some c := by
            simpa [Table.set] using hj
          exact (Option.some.inj (hnew.symm.trans hj')).symm
        · exact .inl ((h.rehashing.holds.mem c).mpr ⟨j, by simpa [Table.set, hjk] using hj⟩)
    · simp
    · exact ih fun j hj => hrest j (List.mem_cons_of_mem k hj)

/-- **A crash during a call loses nothing, when and only when no doubling evicts an edge.** -/
theorem Inv.survives_iff (h : Inv fnv1a_64 t S) {e : BraceletTraceEdge} (he : Traceable e) :
    (∀ m ∈ add_edgePoints fnv1a_64 t e, Survives S e m) ↔
      t.inserted_edges < t.resize_threshold ∨ Clear fnv1a_64 t := by
  have hepoch : ¬ edge_epoch e = true := by simp [edge_epoch, he.1]
  have hbefore : ∀ m ∈ add_edgePoints fnv1a_64 t e, m = t ∨
      (t.resize_threshold ≤ t.inserted_edges ∧ m ∈ increase_sizePoints fnv1a_64 t) ∨
      Survives S e m := by
    intro m hm
    rw [add_edgePoints, if_neg hepoch] at hm
    rcases List.mem_cons.mp hm with rfl | hm
    · exact .inl rfl
    rcases List.mem_append.mp hm with hm | hm
    · split_ifs at hm with hfull
      · exact .inr (.inl ⟨hfull, hm⟩)
      · cases hm
    · rcases makeRoom_spec h with hr | ⟨t₁, hr, h₁, -⟩
      · rw [hr] at hm
        cases hm
      · rw [hr] at hm
        exact .inr (.inr (h₁.addProbe_survives he _ (indices_lt h₁.nonempty) m hm))
  constructor
  · intro hall
    by_contra hcond
    rw [not_or, not_lt] at hcond
    obtain ⟨hfull, hclear⟩ := hcond
    simp only [Clear, not_forall, not_not] at hclear
    obtain ⟨is, i, rest, t', hsplit, hrun, hi⟩ := hclear
    obtain ⟨m, hm, c, hc, hlost⟩ := h.extend.1.rehash_loses rest hrun hi
    refine hlost ((hall m ?_).1 c hc)
    rw [add_edgePoints, if_neg hepoch, if_pos hfull, increase_sizePoints, hsplit]
    exact List.mem_cons_of_mem _ (List.mem_append_left _ (List.mem_cons_of_mem _ hm))
  · intro hcond m hm
    rcases hbefore m hm with rfl | ⟨hfull, hm⟩ | hm
    · exact survives_of_decoded h.rehashing.holds.decoded
    · have hclear := hcond.resolve_left (not_lt.mpr hfull)
      rcases List.mem_cons.mp hm with rfl | hm
      · exact survives_of_decoded h.extend.1.holds.decoded
      · exact survives_of_decoded (h.extend.1.rehash_safe hclear m hm)
    · exact hm

/-- **When the trace survives a crash.**  A process stops between two stores of an `add_edge`
that follows any calls on a new table.  What is left is always every edge added before, and
nothing but the edge being added besides, if and only if the call does not double the table or
doubles it without evicting an edge. -/
theorem add_edge_survives_iff (fnv1a_64 : BraceletTraceEdge → UInt64)
    (log2_initial_buffer_size : Nat) (es : List BraceletTraceEdge) (hes : ∀ e ∈ es, Traceable e)
    (added : List Bool) (t : Table)
    (hrun : add_edges fnv1a_64 es (create log2_initial_buffer_size) = .ok (added, t))
    (e : BraceletTraceEdge) (he : Traceable e) :
    (∀ m ∈ add_edgePoints fnv1a_64 t e,
        (∀ c ∈ es, c ∈ decoded m) ∧ ∀ c ∈ decoded m, c ∈ es ∨ c = e) ↔
      t.inserted_edges < t.resize_threshold ∨ Clear fnv1a_64 t := by
  rcases add_edges_spec es (Inv.create fnv1a_64 log2_initial_buffer_size) hes with hr | ⟨t', hr, h⟩
  · rw [hr] at hrun
    cases hrun
  · obtain ⟨-, rfl⟩ := Prod.mk.inj (Except.ok.inj (hr.symm.trans hrun))
    rw [Finset.empty_union] at h
    rw [← h.survives_iff he]
    simp only [Survives, List.mem_toFinset]

end
/-- An edge is added to a table of four slots that holds another. -/
theorem second_edge_survives :
    ∃ t, add_edges fnv1a [⟨2, 1⟩] (create 2) = .ok ([true], t) ∧
      ∀ m ∈ add_edgePoints fnv1a t ⟨4, 1⟩,
        (∀ c ∈ ([⟨2, 1⟩] : List BraceletTraceEdge), c ∈ decoded m) ∧
          ∀ c ∈ decoded m, c ∈ ([⟨2, 1⟩] : List BraceletTraceEdge) ∨ c = ⟨4, 1⟩ := by
  have hroom : ((add_edges fnv1a [⟨2, 1⟩] (create 2)).map fun r =>
      (r.1, decide (r.2.inserted_edges < r.2.resize_threshold))) = .ok ([true], true) := by
    decide +kernel
  cases hr : add_edges fnv1a [⟨2, 1⟩] (create 2) with
  | error f => simp [hr, Except.map] at hroom
  | ok r =>
    obtain ⟨added, t⟩ := r
    simp only [hr, Except.map, Except.ok.injEq, Prod.mk.injEq, decide_eq_true_eq] at hroom
    obtain ⟨rfl, hlt⟩ := hroom
    exact ⟨t, rfl, (add_edge_survives_iff fnv1a 2 [⟨2, 1⟩] (by decide) [true] t hr ⟨4, 1⟩
      (by decide)).mpr (.inl hlt)⟩

/-- A fourth edge doubles the table: after one of the stores, the third is nowhere in it. -/
theorem third_edge_lost :
    ∃ t, add_edges fnv1a [⟨2, 1⟩, ⟨4, 1⟩, ⟨6, 1⟩] (create 2) = .ok ([true, true, true], t) ∧
      ∃ m ∈ add_edgePoints fnv1a t ⟨8, 1⟩, ⟨6, 1⟩ ∉ decoded m := by
  have hlost : ((add_edges fnv1a [⟨2, 1⟩, ⟨4, 1⟩, ⟨6, 1⟩] (create 2)).map fun r =>
      (r.1, (add_edgePoints fnv1a r.2 ⟨8, 1⟩).any fun m => decide (⟨6, 1⟩ ∉ decoded m))) =
        .ok ([true, true, true], true) := by
    decide +kernel
  cases hr : add_edges fnv1a [⟨2, 1⟩, ⟨4, 1⟩, ⟨6, 1⟩] (create 2) with
  | error f => simp [hr, Except.map] at hlost
  | ok r =>
    obtain ⟨added, t⟩ := r
    simp only [hr, Except.map, Except.ok.injEq, Prod.mk.injEq, List.any_eq_true,
      decide_eq_true_eq] at hlost
    obtain ⟨rfl, hlost⟩ := hlost
    exact ⟨t, rfl, hlost⟩

end Bracelet.EdgeHashSet
