import Mathlib.Tactic

/-!
# Ordered maps

An ordered map as the list of its entries, by ascending key.  `insert` keeps the entry
that is there, so the map of a list of entries holds the first entry with each key
(`mem_ofList`).  `floor` looks up the entry with the greatest key that is not above a
given one.
-/
namespace Bracelet.OrderedMap

variable {κ ν : Type*} [LinearOrder κ]

/-- Adds an entry unless there is one with the key. -/
def insert : List (κ × ν) → κ → ν → List (κ × ν)
  | [], k, v => [(k, v)]
  | (k', v') :: m, k, v =>
    if k < k' then (k, v) :: (k', v') :: m
    else if k' < k then (k', v') :: insert m k v
    else (k', v') :: m

/-- The entries, added in order. -/
def ofList (entries : List (κ × ν)) : List (κ × ν) :=
  entries.foldl (fun m p => insert m p.1 p.2) []

/-- The last entry whose key is not above the given one. -/
def floor (m : List (κ × ν)) (k : κ) : Option (κ × ν) :=
  (m.takeWhile fun p => decide (p.1 ≤ k)).getLast?

def Sorted (m : List (κ × ν)) : Prop := m.Pairwise fun p q => p.1 < q.1

/-! ## Insertion -/

theorem mem_insert {m : List (κ × ν)} (hm : Sorted m) {k : κ} {v : ν} {p : κ × ν} :
    p ∈ insert m k v ↔ p ∈ m ∨ p = (k, v) ∧ k ∉ m.map Prod.fst := by
  induction m with
  | nil => simp [insert]
  | cons q m ih =>
    obtain ⟨k', v'⟩ := q
    obtain ⟨hhead, htail⟩ := List.pairwise_cons.mp hm
    unfold insert
    split_ifs with hlt hgt
    · have hk : k ∉ ((k', v') :: m).map Prod.fst := by
        rw [List.map_cons, List.mem_cons, not_or]
        refine ⟨hlt.ne, fun hmem => ?_⟩
        obtain ⟨q, hq, rfl⟩ := List.mem_map.mp hmem
        exact absurd (hhead q hq) hlt.not_gt
      rw [List.mem_cons, or_comm, and_iff_left hk]
    · rw [List.mem_cons, ih htail, List.mem_cons, List.map_cons, List.mem_cons, or_assoc, not_or,
        and_iff_right hgt.ne']
    · obtain rfl : k = k' := le_antisymm (not_lt.mp hgt) (not_lt.mp hlt)
      simp

theorem sorted_insert {m : List (κ × ν)} (hm : Sorted m) (k : κ) (v : ν) :
    Sorted (insert m k v) := by
  induction m with
  | nil => exact List.pairwise_singleton _ _
  | cons q m ih =>
    obtain ⟨k', v'⟩ := q
    obtain ⟨hhead, htail⟩ := List.pairwise_cons.mp hm
    unfold insert
    split_ifs with hlt hgt
    · refine List.pairwise_cons.mpr ⟨fun p hp => ?_, hm⟩
      rcases List.mem_cons.mp hp with rfl | hp
      · exact hlt
      · exact hlt.trans (hhead p hp)
    · refine List.pairwise_cons.mpr ⟨fun p hp => ?_, ih htail⟩
      rcases (mem_insert htail).mp hp with hp | ⟨rfl, -⟩
      · exact hhead p hp
      · exact hgt
    · exact hm

/-! ## The map of a list -/

theorem ofList_append_singleton (entries : List (κ × ν)) (p : κ × ν) :
    ofList (entries ++ [p]) = insert (ofList entries) p.1 p.2 := by
  rw [ofList, List.foldl_append]
  rfl

theorem sorted_ofList (entries : List (κ × ν)) : Sorted (ofList entries) := by
  induction entries using List.reverseRecOn with
  | nil => exact List.Pairwise.nil
  | append_singleton entries p ih =>
    rw [ofList_append_singleton]
    exact sorted_insert ih _ _

theorem keys_ofList (entries : List (κ × ν)) (k : κ) :
    k ∈ (ofList entries).map Prod.fst ↔ k ∈ entries.map Prod.fst := by
  induction entries using List.reverseRecOn with
  | nil => rfl
  | append_singleton entries p ih =>
    rw [ofList_append_singleton, List.map_append, List.mem_append, ← ih]
    constructor
    · rintro hk
      obtain ⟨q, hq, rfl⟩ := List.mem_map.mp hk
      rcases (mem_insert (sorted_ofList entries)).mp hq with hq | ⟨rfl, -⟩
      · exact Or.inl (List.mem_map_of_mem hq)
      · exact Or.inr (List.mem_singleton_self _)
    · rintro (hk | hk)
      · obtain ⟨q, hq, rfl⟩ := List.mem_map.mp hk
        exact List.mem_map_of_mem ((mem_insert (sorted_ofList entries)).mpr (Or.inl hq))
      · obtain rfl : k = p.1 := by simpa using hk
        by_cases hmem : p.1 ∈ (ofList entries).map Prod.fst
        · obtain ⟨q, hq, hkey⟩ := List.mem_map.mp hmem
          exact hkey ▸ List.mem_map_of_mem
            ((mem_insert (sorted_ofList entries)).mpr (Or.inl hq))
        · exact List.mem_map.mpr
            ⟨p, (mem_insert (sorted_ofList entries)).mpr (Or.inr ⟨rfl, hmem⟩), rfl⟩

/-- **The first entry with a key is the one that is kept.** -/
theorem mem_ofList {entries : List (κ × ν)} {p : κ × ν} :
    p ∈ ofList entries ↔ entries.find? (fun q => decide (q.1 = p.1)) = some p := by
  induction entries using List.reverseRecOn with
  | nil => simp [ofList]
  | append_singleton entries q ih =>
    rw [ofList_append_singleton, mem_insert (sorted_ofList entries), ih, keys_ofList,
      List.find?_append]
    cases hfind : entries.find? fun q => decide (q.1 = p.1) with
    | some r =>
      refine ⟨fun h => h.elim id fun ⟨hp, hkey⟩ => ?_, Or.inl⟩
      obtain ⟨hr, hmem⟩ := And.intro (List.find?_some hfind) (List.mem_of_find?_eq_some hfind)
      refine absurd (List.mem_map.mpr ⟨r, hmem, ?_⟩) hkey
      rw [of_decide_eq_true hr, hp]
    | none =>
      have hnone := List.find?_eq_none.mp hfind
      rw [Option.none_or, List.find?_singleton]
      constructor
      · rintro (h | ⟨rfl, -⟩)
        · cases h
        · simp
      · intro h
        split_ifs at h with hkey
        obtain rfl := Option.some.inj h
        refine Or.inr ⟨rfl, fun hmem => ?_⟩
        obtain ⟨r, hr, hrk⟩ := List.mem_map.mp hmem
        exact hnone r hr (by simpa using hrk)

/-! ## Lookup -/

theorem takeWhile_le {m : List (κ × ν)} (hm : Sorted m) (k : κ) {p : κ × ν} :
    p ∈ m.takeWhile (fun q => decide (q.1 ≤ k)) ↔ p ∈ m ∧ p.1 ≤ k := by
  induction m with
  | nil => simp
  | cons q m ih =>
    obtain ⟨hhead, htail⟩ := List.pairwise_cons.mp hm
    by_cases hq : q.1 ≤ k
    · rw [List.takeWhile_cons_of_pos (by simpa using hq), List.mem_cons, ih htail, List.mem_cons]
      constructor
      · rintro (rfl | ⟨hp, hle⟩)
        · exact ⟨Or.inl rfl, hq⟩
        · exact ⟨Or.inr hp, hle⟩
      · rintro ⟨rfl | hp, hle⟩
        · exact Or.inl rfl
        · exact Or.inr ⟨hp, hle⟩
    · rw [List.takeWhile_cons_of_neg (by simpa using hq)]
      refine iff_of_false List.not_mem_nil ?_
      rintro ⟨hp, hle⟩
      rcases List.mem_cons.mp hp with rfl | hp
      · exact hq hle
      · exact hq ((hhead p hp).le.trans hle)

/-- There is nothing at or below the key. -/
theorem floor_eq_none {m : List (κ × ν)} (hm : Sorted m) {k : κ} :
    floor m k = none ↔ ∀ p ∈ m, k < p.1 := by
  rw [floor, List.getLast?_eq_none_iff, List.eq_nil_iff_forall_not_mem]
  constructor
  · intro h p hp
    exact not_le.mp fun hle => h p ((takeWhile_le hm k).mpr ⟨hp, hle⟩)
  · intro h p hp
    obtain ⟨hp, hle⟩ := (takeWhile_le hm k).mp hp
    exact absurd hle (h p hp).not_ge

/-- **The entry with the greatest key at or below the given one.** -/
theorem floor_eq_some {m : List (κ × ν)} (hm : Sorted m) {k : κ} {p : κ × ν} :
    floor m k = some p ↔ p ∈ m ∧ p.1 ≤ k ∧ ∀ q ∈ m, q.1 ≤ k → q.1 ≤ p.1 := by
  have hsub : Sorted (m.takeWhile fun q => decide (q.1 ≤ k)) :=
    List.Pairwise.sublist (List.takeWhile_sublist _) hm
  have hlast : ∀ {r}, floor m k = some r → r ∈ m ∧ r.1 ≤ k ∧ ∀ q ∈ m, q.1 ≤ k → q.1 ≤ r.1 := by
    intro r hr
    obtain ⟨front, hfront⟩ := List.getLast?_eq_some_iff.mp hr
    have hmem : r ∈ m.takeWhile fun q => decide (q.1 ≤ k) := by simp [hfront]
    obtain ⟨hr, hle⟩ := (takeWhile_le hm k).mp hmem
    refine ⟨hr, hle, fun q hq hqk => ?_⟩
    have hq := (takeWhile_le hm k).mpr ⟨hq, hqk⟩
    rw [Sorted, hfront, List.pairwise_append] at hsub
    rw [hfront, List.mem_append] at hq
    rcases hq with hq | hq
    · exact (hsub.2.2 q hq r (List.mem_singleton_self r)).le
    · rw [List.mem_singleton.mp hq]
  refine ⟨hlast, fun ⟨hp, hle, hmax⟩ => ?_⟩
  cases hfloor : floor m k with
  | none => exact absurd hle ((floor_eq_none hm).mp hfloor p hp).not_ge
  | some r =>
    obtain ⟨hr, hrk, hrmax⟩ := hlast hfloor
    have hkey : r.1 = p.1 := le_antisymm (hmax r hr hrk) (hrmax p hp hle)
    by_contra hne
    rcases List.Pairwise.forall_of_forall_of_flip (R := fun p q => p = q ∨ p.1 ≠ q.1)
      (fun _ _ => Or.inl rfl) (hm.imp fun h => Or.inr h.ne) (hm.imp fun h => Or.inr h.ne') hr hp
      with heq | hdiff
    · exact hne (by rw [heq])
    · exact hdiff hkey

end Bracelet.OrderedMap
