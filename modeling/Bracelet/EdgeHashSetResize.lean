import Bracelet.EdgeHashSet

/-!
# Doubling in place

While `increase_size` runs, slots of two epochs coexist.  A `Fresh` slot has been
rehashed; a `Stale` one has not, and may be evicted by the probe of another edge
at any time.  `Rehashing` is what every call of `resize_insert` keeps: the slots
hold the same edges, each once, and every fresh slot is found again by a probe
that passes fresh slots only.  No probe passes a stale slot, so evicting one never
makes a hole in front of an edge that has been rehashed.

Each call makes one stale slot fresh or empty, which bounds the `while` loop.
-/
namespace Bracelet.EdgeHashSet

/-! ## The bookkeeping bit -/

@[simp] theorem toUInt64_false : false.toUInt64 = 0 := rfl

@[simp] theorem toUInt64_true : true.toUInt64 = 1 := rfl

/-- A word is its upper 63 bits and its lowest one. -/
theorem upper_or_lowest (x : UInt64) : ((x >>> 1) <<< 1) ||| (x &&& 1) = x := by
  apply UInt64.toBitVec_inj.mp
  ext i hi
  rcases i with - | i <;> simp [Nat.add_comm, BitVec.getLsbD_eq_getElem, hi]

theorem lowest_cases (x : UInt64) : x &&& 1 = 0 ∨ x &&& 1 = 1 := by
  have h : (x &&& 1).toNat = x.toNat % 2 := by simp [UInt64.toNat_and]
  rcases Nat.mod_two_eq_zero_or_one x.toNat with h' | h'
  · exact Or.inl (UInt64.toNat_inj.mp (h.trans h'))
  · exact Or.inr (UInt64.toNat_inj.mp (h.trans h'))

theorem lowest_set_epoch (x : UInt64) (epoch : Bool) :
    (((x >>> 1) <<< 1) ||| epoch.toUInt64) &&& 1 = epoch.toUInt64 := by
  apply UInt64.toBitVec_inj.mp
  ext i hi
  rcases i with - | i <;> cases epoch <;> simp

@[simp] theorem upper_set_epoch (e : BraceletTraceEdge) (epoch : Bool) :
    (edge_set_epoch e epoch).trace_site >>> 1 = e.trace_site >>> 1 := by
  apply UInt64.toBitVec_inj.mp
  ext i hi
  cases epoch <;> simp [edge_set_epoch] <;> grind

@[simp] theorem edge_epoch_set_epoch (e : BraceletTraceEdge) (epoch : Bool) :
    edge_epoch (edge_set_epoch e epoch) = epoch := by
  simp only [edge_epoch, edge_set_epoch, lowest_set_epoch]
  cases epoch <;> rfl

@[simp] theorem set_epoch_set_epoch (e : BraceletTraceEdge) (a b : Bool) :
    edge_set_epoch (edge_set_epoch e a) b = edge_set_epoch e b := by
  have h := upper_set_epoch e a
  simp only [edge_set_epoch] at h ⊢
  rw [h]

@[simp] theorem canonical_set_epoch (e : BraceletTraceEdge) (epoch : Bool) :
    canonical (edge_set_epoch e epoch) = canonical e := set_epoch_set_epoch e epoch false

theorem edge_set_epoch_self (e : BraceletTraceEdge) : edge_set_epoch e (edge_epoch e) = e := by
  have h : (edge_epoch e).toUInt64 = e.trace_site &&& 1 := by
    rcases lowest_cases e.trace_site with h | h <;> simp [edge_epoch, h]
  simp only [edge_set_epoch, h, upper_or_lowest]

theorem canonical_of_traceable {e : BraceletTraceEdge} (h : Traceable e) : canonical e = e := by
  have he : edge_epoch e = false := by simp [edge_epoch, h.1]
  rw [canonical, ← he, edge_set_epoch_self]

theorem edge_equal_iff (a b : BraceletTraceEdge) :
    edge_equal a b = true ↔ canonical a = canonical b := by
  constructor
  · intro h
    simp only [edge_equal, Bool.and_eq_true, beq_iff_eq] at h
    simp [canonical, edge_set_epoch, h.1, h.2]
  · intro h
    have hs : a.trace_site >>> 1 = b.trace_site >>> 1 := by
      rw [← upper_set_epoch a false, ← upper_set_epoch b false]
      exact congrArg (fun e : BraceletTraceEdge => e.trace_site >>> 1) h
    have hv : (canonical a).value = (canonical b).value := by rw [h]
    change a.value = b.value at hv
    simp [edge_equal, hs, hv]

theorem edge_present_of_upper {e : BraceletTraceEdge} (h : e.trace_site >>> 1 ≠ 0) :
    edge_present e = true := by
  simp only [edge_present, bne_iff_ne]
  rintro h0
  exact h (by simp [h0])

/-- A retagged edge is still present. -/
theorem edge_present_set_epoch {e : BraceletTraceEdge} (h : Traceable (canonical e))
    (epoch : Bool) : edge_present (edge_set_epoch e epoch) = true := by
  refine edge_present_of_upper ?_
  rw [upper_set_epoch]
  intro h0
  exact h.2 (by simp [canonical, edge_set_epoch, h0])

section
variable (fnv1a_64 : BraceletTraceEdge → UInt64)

/-- The probe of an edge does not depend on its bookkeeping bit. -/
theorem IndexSequence_congr {a b : BraceletTraceEdge} (h : canonical a = canonical b) (n : Nat) :
    IndexSequence fnv1a_64 n a = IndexSequence fnv1a_64 n b := by
  have hash : ∀ e : BraceletTraceEdge, edge_hash fnv1a_64 e = fnv1a_64 (canonical e) := by
    intro e
    simp [edge_hash, canonical, edge_set_epoch]
  rw [IndexSequence, IndexSequence, hash, hash, h]

end

theorem indices_lt {n : Nat} (hn : 0 < n) :
    ∀ {attempts : Nat} {hash : UInt64}, ∀ i ∈ indices n attempts hash, i < n := by
  intro attempts
  induction attempts with
  | zero => intro hash i hi; simp [indices] at hi
  | succ attempts ih =>
    intro hash i hi
    simp only [indices, List.mem_cons] at hi
    rcases hi with rfl | hi
    · have := Nat.and_le_right (n := (if (attempts + 1) % 4 = 3 then murmur64 hash
        else hash + 1).toNat) (m := n - 1)
      omega
    · exact ih i hi

/-! ## What the slots hold -/

/-- The edge a slot holds. -/
def content (e : BraceletTraceEdge) : Option BraceletTraceEdge :=
  if edge_present e then some (canonical e) else none

theorem content_eq_some {e c : BraceletTraceEdge} :
    content e = some c ↔ edge_present e = true ∧ canonical e = c := by
  unfold content
  split <;> simp_all

@[simp] theorem content_zero : content EDGE_ZERO = none := rfl

theorem content_of_absent {e : BraceletTraceEdge} (h : ¬ edge_present e = true) :
    content e = none := if_neg h

theorem content_set_epoch {e : BraceletTraceEdge} (h : Traceable (canonical e))
    (hp : edge_present e = true) (epoch : Bool) : content (edge_set_epoch e epoch) = content e := by
  rw [content_eq_some.mpr ⟨edge_present_set_epoch h epoch, canonical_set_epoch e epoch⟩,
    content_eq_some.mpr ⟨hp, rfl⟩]

/-- The first `n` slots hold the edges of `S`, each once, and nothing else does. -/
structure Holds (edges : Nat → BraceletTraceEdge) (n : Nat) (S : Finset BraceletTraceEdge) :
    Prop where
  within : ∀ i c, content (edges i) = some c → i < n
  distinct : ∀ i j c, content (edges i) = some c → content (edges j) = some c → i = j
  mem : ∀ c, c ∈ S ↔ ∃ i, content (edges i) = some c
  traceable : ∀ c ∈ S, Traceable c

namespace Holds
variable {edges edges' : Nat → BraceletTraceEdge} {n : Nat} {S : Finset BraceletTraceEdge}

theorem traceable_slot (h : Holds edges n S) {i : Nat} (hp : edge_present (edges i) = true) :
    Traceable (canonical (edges i)) :=
  h.traceable _ ((h.mem _).mpr ⟨i, content_eq_some.mpr ⟨hp, rfl⟩⟩)

/-- Exchanging what two slots hold keeps what the table holds. -/
theorem swap (h : Holds edges n S) {i k : Nat} (hi : i < n) (hk : k < n)
    (he : ∀ j, content (edges' j) = content (edges (Equiv.swap i k j))) : Holds edges' n S where
  within j c hj := by
    by_cases hji : j = i
    · omega
    · by_cases hjk : j = k
      · omega
      · rw [he, Equiv.swap_apply_of_ne_of_ne hji hjk] at hj
        exact h.within j c hj
  distinct j l c hj hl := by
    rw [he] at hj hl
    exact (Equiv.swap i k).injective (h.distinct _ _ c hj hl)
  mem c := by
    rw [h.mem]
    constructor
    · rintro ⟨j, hj⟩
      exact ⟨Equiv.swap i k j, by rw [he, Equiv.swap_apply_self]; exact hj⟩
    · rintro ⟨j, hj⟩
      exact ⟨Equiv.swap i k j, by rw [← he]; exact hj⟩
  traceable := h.traceable

end Holds

/-! ## Fresh and stale slots -/

/-- The slot holds an edge hashed under the current size. -/
def Fresh (t : Table) (i : Nat) : Prop :=
  edge_present (t.edges i) = true ∧ edge_epoch (t.edges i) = t.epoch

/-- The slot holds an edge hashed under the previous size. -/
def Stale (t : Table) (i : Nat) : Prop :=
  edge_present (t.edges i) = true ∧ edge_epoch (t.edges i) ≠ t.epoch

instance (t : Table) (i : Nat) : Decidable (Stale t i) := inferInstanceAs (Decidable (_ ∧ _))

theorem Stale.not_fresh {t : Table} {i : Nat} (h : Stale t i) : ¬ Fresh t i :=
  fun hf => h.2 hf.2

/-- Everything but the slots is the same. -/
structure SameShape (t t' : Table) : Prop where
  edge_count : t'.edge_count = t.edge_count
  inserted_edges : t'.inserted_edges = t.inserted_edges
  resize_threshold : t'.resize_threshold = t.resize_threshold
  epoch : t'.epoch = t.epoch

theorem SameShape.refl (t : Table) : SameShape t t := ⟨rfl, rfl, rfl, rfl⟩

theorem SameShape.trans {t t' t'' : Table} (h : SameShape t t') (h' : SameShape t' t'') :
    SameShape t t'' :=
  ⟨h'.1.trans h.1, h'.2.trans h.2, h'.3.trans h.3, h'.4.trans h.4⟩

section
variable (fnv1a_64 : BraceletTraceEdge → UInt64)

/-- The probe of the edge in slot `j` reaches `j` past fresh slots only. -/
def Placed (t : Table) (j : Nat) : Prop :=
  ∃ before after, IndexSequence fnv1a_64 t.edge_count (t.edges j) = before ++ j :: after ∧
    ∀ k ∈ before, Fresh t k

/-- **The invariant of the rehashing loop.** -/
structure Rehashing (t : Table) (S : Finset BraceletTraceEdge) : Prop where
  holds : Holds t.edges t.edge_count S
  placed : ∀ j, Fresh t j → Placed fnv1a_64 t j

variable {fnv1a_64} {t t' : Table} {S : Finset BraceletTraceEdge}

theorem Rehashing.stale_lt (h : Rehashing fnv1a_64 t S) {i : Nat} (hi : Stale t i) :
    i < t.edge_count :=
  h.holds.within i _ (content_eq_some.mpr ⟨hi.1, rfl⟩)

/-- The edge of a stale slot `i`, retagged, moves to slot `k`, which its probe
reaches past fresh slots and which is not fresh itself; slot `i` takes over what
slot `k` held, if that is another slot.  No fresh slot changes, so every probe
that passed fresh slots only still does. -/
theorem Rehashing.move (h : Rehashing fnv1a_64 t S) {i k : Nat} {before after : List Nat}
    (hi : Stale t i) (hk : k < t.edge_count) (hkf : ¬ Fresh t k) (hs : SameShape t t')
    (hseq : IndexSequence fnv1a_64 t.edge_count (t.edges i) = before ++ k :: after)
    (hbefore : ∀ j ∈ before, Fresh t j)
    (hkv : t'.edges k = edge_set_epoch (t.edges i) t.epoch)
    (hiv : k ≠ i → content (t'.edges i) = content (t.edges k) ∧ ¬ Fresh t' i)
    (hrest : ∀ j, j ≠ i → j ≠ k → t'.edges j = t.edges j) :
    Rehashing fnv1a_64 t' S := by
  have htr : Traceable (canonical (t.edges i)) := h.holds.traceable_slot hi.1
  have hkept : ∀ j, Fresh t j → t'.edges j = t.edges j := by
    rintro j hj
    refine hrest j ?_ ?_
    · rintro rfl; exact hi.not_fresh hj
    · rintro rfl; exact hkf hj
  have hfresh : ∀ j, Fresh t j → Fresh t' j := by
    intro j hj
    rw [Fresh, hkept j hj, hs.epoch]
    exact hj
  refine ⟨?_, ?_⟩
  · rw [hs.edge_count]
    refine h.holds.swap (h.stale_lt hi) hk fun j => ?_
    by_cases hjk : j = k
    · rw [hjk, Equiv.swap_apply_right, hkv, content_set_epoch htr hi.1]
    · by_cases hji : j = i
      · subst hji
        rw [Equiv.swap_apply_left, (hiv (Ne.symm hjk)).1]
      · rw [Equiv.swap_apply_of_ne_of_ne hji hjk, hrest j hji hjk]
  · intro j hj
    by_cases hjk : j = k
    · subst hjk
      refine ⟨before, after, ?_, fun l hl => hfresh l (hbefore l hl)⟩
      rw [hs.edge_count, hkv, IndexSequence_congr fnv1a_64 (canonical_set_epoch _ _), hseq]
    · have hji : j ≠ i := by
        rintro rfl
        exact (hiv (Ne.symm hjk)).2 hj
      have hold : Fresh t j := by
        rw [Fresh, hrest j hji hjk, hs.epoch] at hj
        exact hj
      obtain ⟨before, after, hseq, hb⟩ := h.placed j hold
      exact ⟨before, after, by rw [hs.edge_count, hkept j hold, hseq],
        fun l hl => hfresh l (hb l hl)⟩

end

/-! ## One call of `resize_insert` -/

/-- What the probe loop of `resize_insert` can do: it stops at the first position
that is not a fresh slot with another edge. -/
theorem resizeProbe_cases (i : Nat) (t : Table) (rest : List Nat) :
    resizeProbe i rest t = .error .attemptsExhausted ∨
    ∃ before k after, rest = before ++ k :: after ∧
      (∀ j ∈ before, Fresh t j ∧ ¬ edge_equal (t.edges i) (t.edges j) = true) ∧
      ((Fresh t k ∧ edge_equal (t.edges i) (t.edges k) = true ∧
          resizeProbe i rest t = .ok (false, t)) ∨
        (Stale t k ∧
          resizeProbe i rest t = .ok (true, (t.set i (t.edges k)).set k (t.edges i))) ∨
        (¬ edge_present (t.edges k) = true ∧
          resizeProbe i rest t =
            .ok (false, (t.set k (edge_set_epoch (t.edges i) t.epoch)).set i EDGE_ZERO))) := by
  induction rest with
  | nil => exact Or.inl rfl
  | cons k rest ih =>
    by_cases hp : edge_present (t.edges k) = true
    · by_cases he : edge_epoch (t.edges k) = t.epoch
      · by_cases hq : edge_equal (t.edges i) (t.edges k) = true
        · exact Or.inr ⟨[], k, rest, rfl, by simp, Or.inl ⟨⟨hp, he⟩, hq, by
            simp [resizeProbe, hp, he, hq]⟩⟩
        · have hstep : resizeProbe i (k :: rest) t = resizeProbe i rest t := by
            simp [resizeProbe, hp, he, hq]
          rw [hstep]
          rcases ih with ih | ⟨before, k', after, rfl, hb, hr⟩
          · exact Or.inl ih
          · refine Or.inr ⟨k :: before, k', after, rfl, ?_, hr⟩
            rintro j (- | ⟨-, hj⟩)
            · exact ⟨⟨hp, he⟩, hq⟩
            · exact hb j hj
      · exact Or.inr ⟨[], k, rest, rfl, by simp, Or.inr (Or.inl ⟨⟨hp, he⟩, by
          simp [resizeProbe, hp, he]⟩)⟩
    · exact Or.inr ⟨[], k, rest, rfl, by simp, Or.inr (Or.inr ⟨hp, by simp [resizeProbe, hp]⟩)⟩

section
variable {fnv1a_64 : BraceletTraceEdge → UInt64} {t : Table} {S : Finset BraceletTraceEdge}

theorem resize_insert_not_stale {i : Nat} (h : ¬ Stale t i) :
    resize_insert fnv1a_64 t i = .ok (false, t) := by
  have : (!edge_present (t.edges i) || edge_epoch (t.edges i) == t.epoch) = true := by
    by_cases hp : edge_present (t.edges i) = true
    · by_contra hc
      exact h ⟨hp, by simpa [hp] using hc⟩
    · simp [hp]
  simp [resize_insert, this]

theorem resize_insert_stale {i : Nat} (h : Stale t i) :
    resize_insert fnv1a_64 t i =
      resizeProbe i (IndexSequence fnv1a_64 t.edge_count (t.edges i))
        (t.set i (edge_set_epoch (t.edges i) t.epoch)) := by
  have : (!edge_present (t.edges i) || edge_epoch (t.edges i) == t.epoch) = false := by
    simp [h.1, h.2]
  simp only [resize_insert, this, Bool.false_eq_true, if_false]
  rw [IndexSequence_congr fnv1a_64 (canonical_set_epoch _ _)]

/-- **One call of `resize_insert`** on a stale slot keeps the invariant and leaves
one stale slot less: the slot itself when it answers false. -/
theorem resize_insert_spec (h : Rehashing fnv1a_64 t S) {i : Nat} (hi : Stale t i) :
    resize_insert fnv1a_64 t i = .error .attemptsExhausted ∨
    ∃ again t' k, resize_insert fnv1a_64 t i = .ok (again, t') ∧ Rehashing fnv1a_64 t' S ∧
      SameShape t t' ∧ (again = false → k = i) ∧ Stale t k ∧
      ∀ j, Stale t' j ↔ Stale t j ∧ j ≠ k := by
  have hcount : 0 < t.edge_count := Nat.lt_of_le_of_lt (Nat.zero_le _) (h.stale_lt hi)
  have htr : Traceable (canonical (t.edges i)) := h.holds.traceable_slot hi.1
  set e := edge_set_epoch (t.edges i) t.epoch with he
  have hep : edge_epoch e = t.epoch := edge_epoch_set_epoch _ _
  have hepres : edge_present e = true := edge_present_set_epoch htr _
  rw [resize_insert_stale hi]
  rcases resizeProbe_cases i (t.set i e)
      (IndexSequence fnv1a_64 t.edge_count (t.edges i)) with
    hr | ⟨before, k, after, hseq, hbefore, hr⟩
  · exact Or.inl hr
  have hk : k < t.edge_count :=
    indices_lt hcount k (by
      change k ∈ IndexSequence fnv1a_64 t.edge_count (t.edges i)
      rw [hseq]; simp)
  have hother : ∀ j, j ≠ i → (t.set i e).edges j = t.edges j := by
    intro j hj; simp [Table.set, hj]
  have hself : (t.set i e).edges i = e := by simp [Table.set]
  -- the probe passes slot `i` only when it finds its own edge there, and then stops
  have hb : ∀ j ∈ before, Fresh t j := by
    intro j hj
    obtain ⟨hf, hne⟩ := hbefore j hj
    have hji : j ≠ i := by
      rintro rfl
      exact hne ((edge_equal_iff _ _).mpr rfl)
    rw [Fresh, hother j hji] at hf
    exact hf
  refine Or.inr ?_
  rcases hr with ⟨hkf, hq, hr⟩ | ⟨hks, hr⟩ | ⟨hkp, hr⟩
  · -- its own slot: the edges of different slots are different
    have hki : k = i := by
      by_contra hne
      rw [hself, hother k hne, edge_equal_iff] at hq
      have hkp : edge_present (t.edges k) = true := by
        have := hkf.1
        rwa [hother k hne] at this
      refine hne (h.holds.distinct k i _ (content_eq_some.mpr ⟨hkp, rfl⟩)
        (content_eq_some.mpr ⟨hi.1, ?_⟩))
      rw [← hq, he, canonical_set_epoch]
    subst hki
    refine ⟨false, _, k, hr, ?_, ⟨rfl, rfl, rfl, rfl⟩, fun _ => rfl, hi, ?_⟩
    · exact h.move hi hk hi.not_fresh ⟨rfl, rfl, rfl, rfl⟩ hseq hb hself
        (fun hne => absurd rfl hne) (fun j hj _ => hother j hj)
    · intro j
      by_cases hj : j = k
      · subst hj; simp [Stale, hep, Table.set]
      · simp [Stale, hj, Table.set]
  · -- a stale slot: the two edges change places
    have hki : k ≠ i := by
      rintro rfl
      refine hks.2 ?_
      rw [hself, hep]
      rfl
    have hks' : Stale t k := by
      rw [Stale, hother k hki] at hks
      exact hks
    rw [hself, hother k hki] at hr
    refine ⟨true, _, k, hr, ?_, ⟨rfl, rfl, rfl, rfl⟩, by simp, hks', ?_⟩
    · refine h.move hi hk hks'.not_fresh ⟨rfl, rfl, rfl, rfl⟩ hseq hb (by simp [Table.set, he]) ?_ ?_
      · intro hne
        have hv : (((t.set i e).set i (t.edges k)).set k e).edges i = t.edges k := by
          simp [Table.set, hki.symm]
        exact ⟨by rw [hv], by rw [Fresh, hv]; exact hks'.not_fresh⟩
      · intro j hji hjk
        simp [Table.set, hji, hjk]
    · intro j
      by_cases hjk : j = k
      · subst hjk; simp [Stale, Table.set, hep]
      · by_cases hji : j = i
        · subst hji
          simp only [Stale, Table.set, Function.update_of_ne hjk, Function.update_self]
          exact ⟨fun _ => ⟨hi, hjk⟩, fun _ => hks'⟩
        · simp [Stale, Table.set, hjk, hji]
  · -- an empty slot: the edge moves there
    have hki : k ≠ i := by
      rintro rfl
      rw [hself] at hkp
      exact hkp hepres
    rw [hother k hki] at hkp
    have hset : edge_set_epoch ((t.set i e).edges i) (t.set i e).epoch = e := by
      rw [hself, he, set_epoch_set_epoch]
      rfl
    rw [hset] at hr
    refine ⟨false, _, i, hr, ?_, ⟨rfl, rfl, rfl, rfl⟩, fun _ => rfl, hi, ?_⟩
    · refine h.move hi hk (fun hf => hkp hf.1) ⟨rfl, rfl, rfl, rfl⟩ hseq hb
        (by simp [Table.set, hki, he]) ?_ ?_
      · intro _
        refine ⟨?_, ?_⟩
        · rw [content_of_absent hkp]
          simp [Table.set]
        · simp [Fresh, Table.set, EDGE_ZERO, edge_present]
      · intro j hji hjk
        simp [Table.set, hji, hjk]
    · intro j
      by_cases hji : j = i
      · subst hji; simp [Stale, Table.set, EDGE_ZERO, edge_present]
      · by_cases hjk : j = k
        · subst hjk; simp [Stale, Table.set, hji, hep, hkp]
        · simp [Stale, Table.set, hjk, hji]

/-! ## The loops -/

/-- The slots still to rehash. -/
def staleSlots (t : Table) : Finset Nat := (Finset.range t.edge_count).filter (Stale t)

theorem Rehashing.mem_staleSlots (h : Rehashing fnv1a_64 t S) {i : Nat} :
    i ∈ staleSlots t ↔ Stale t i := by
  simp only [staleSlots, Finset.mem_filter, Finset.mem_range]
  exact ⟨And.right, fun hi => ⟨h.stale_lt hi, hi⟩⟩

theorem staleSlots_card_lt (t : Table) :
    (staleSlots t).card < t.edge_count + 1 := by
  have := Finset.card_filter_le (Finset.range t.edge_count) (Stale t)
  rw [Finset.card_range] at this
  exact Nat.lt_succ_of_le this

/-- Calling `resize_insert` on one slot until it answers false empties the slot of
stale edges; the number of stale slots bounds the calls. -/
theorem rehashSlot_spec (i : Nat) : ∀ (fuel : Nat) {t : Table}, Rehashing fnv1a_64 t S →
    (staleSlots t).card < fuel →
    rehashSlot fnv1a_64 i fuel t = .error .attemptsExhausted ∨
    ∃ t', rehashSlot fnv1a_64 i fuel t = .ok t' ∧ Rehashing fnv1a_64 t' S ∧ SameShape t t' ∧
      ∀ j, Stale t' j → Stale t j ∧ j ≠ i := by
  intro fuel
  induction fuel with
  | zero => intro t _ hf; omega
  | succ fuel ih =>
    intro t h hf
    by_cases hi : Stale t i
    · rcases resize_insert_spec h hi with hr | ⟨again, t', k, hr, h', hs, hk, hkst, hst⟩
      · exact Or.inl (by simp [rehashSlot, hr, bind, Except.bind])
      · cases again with
        | false =>
          refine Or.inr ⟨t', by simp [rehashSlot, hr, bind, Except.bind, pure, Except.pure], h', hs,
            fun j hj => ?_⟩
          rw [← hk rfl]
          exact (hst j).mp hj
        | true =>
          have hcard : (staleSlots t').card < (staleSlots t).card := by
            refine Finset.card_lt_card ⟨fun j hj => ?_, fun hsub => ?_⟩
            · exact h.mem_staleSlots.mpr ((hst j).mp (h'.mem_staleSlots.mp hj)).1
            · exact ((hst k).mp (h'.mem_staleSlots.mp (hsub (h.mem_staleSlots.mpr hkst)))).2 rfl
          have hrun : rehashSlot fnv1a_64 i (fuel + 1) t = rehashSlot fnv1a_64 i fuel t' := by
            simp [rehashSlot, hr, bind, Except.bind]
          rw [hrun]
          rcases ih h' (by omega) with hr' | ⟨t'', hr', h'', hs', hst'⟩
          · exact Or.inl hr'
          · exact Or.inr ⟨t'', hr', h'', hs.trans hs',
              fun j hj => ⟨((hst j).mp (hst' j hj).1).1, (hst' j hj).2⟩⟩
    · refine Or.inr ⟨t, ?_, h, .refl t, fun j hj => ⟨hj, ?_⟩⟩
      · simp [rehashSlot, resize_insert_not_stale hi, bind, Except.bind, pure, Except.pure]
      · rintro rfl; exact hi hj

/-- The rehashing loop leaves no stale edge in the slots it visits. -/
theorem rehash_spec : ∀ (is : List Nat) {t : Table}, Rehashing fnv1a_64 t S →
    rehash fnv1a_64 is t = .error .attemptsExhausted ∨
    ∃ t', rehash fnv1a_64 is t = .ok t' ∧ Rehashing fnv1a_64 t' S ∧ SameShape t t' ∧
      ∀ j, Stale t' j → Stale t j ∧ j ∉ is := by
  intro is
  induction is with
  | nil => intro t h; exact Or.inr ⟨t, rfl, h, .refl t, fun j hj => ⟨hj, by simp⟩⟩
  | cons i is ih =>
    intro t h
    rcases rehashSlot_spec i (t.edge_count + 1) h (staleSlots_card_lt t) with hr | ⟨t', hr, h', hs, hst⟩
    · exact Or.inl (by simp [rehash, hr, bind, Except.bind])
    · have hrun : rehash fnv1a_64 (i :: is) t = rehash fnv1a_64 is t' := by
        simp [rehash, hr, bind, Except.bind]
      rw [hrun]
      rcases ih h' with hr' | ⟨t'', hr', h'', hs', hst'⟩
      · exact Or.inl hr'
      · refine Or.inr ⟨t'', hr', h'', hs.trans hs', fun j hj => ?_⟩
        obtain ⟨hj', hjis⟩ := hst' j hj
        obtain ⟨hj'', hji⟩ := hst j hj'
        exact ⟨hj'', by simp [hji, hjis]⟩

end

end Bracelet.EdgeHashSet
