import Mathlib.Tactic

/-!
# Insertion-ordered dictionaries

The dictionaries of the scripts, as lists of pairs in the order in which their keys
were first set.  Setting a key again replaces its value and keeps its place, so what
`ofList` holds for a key is the last pair of the list with that key.
-/
namespace Bracelet.Dict

variable {κ ν : Type} [DecidableEq κ]

/-- `d[k] = v` -/
def set : List (κ × ν) → κ → ν → List (κ × ν)
  | [], k, v => [(k, v)]
  | (k', v') :: d, k, v => if k' = k then (k, v) :: d else (k', v') :: set d k v

/-- `d.get(k)` -/
def get? (d : List (κ × ν)) (k : κ) : Option ν :=
  (d.find? fun p => p.1 = k).map Prod.snd

/-- `dict(pairs)` -/
def ofList (pairs : List (κ × ν)) : List (κ × ν) :=
  pairs.foldl (fun d p => set d p.1 p.2) []

theorem get?_cons (d : List (κ × ν)) (k k' : κ) (v : ν) :
    get? ((k', v) :: d) k = if k' = k then some v else get? d k := by
  by_cases h : k' = k <;> simp [get?, h]

theorem get?_set (d : List (κ × ν)) (k k' : κ) (v : ν) :
    get? (set d k v) k' = if k = k' then some v else get? d k' := by
  induction d with
  | nil => simp [set, get?_cons]
  | cons p d ih =>
    obtain ⟨k₀, v₀⟩ := p
    by_cases h₀ : k₀ = k
    · subst h₀
      by_cases h : k₀ = k' <;> simp [set, get?_cons, h]
    · rw [set, if_neg h₀, get?_cons, get?_cons, ih]
      by_cases h : k₀ = k'
      · subst h
        simp [Ne.symm h₀]
      · simp [h]

theorem keys_set (d : List (κ × ν)) (k : κ) (v : ν) :
    (set d k v).map Prod.fst = if k ∈ d.map Prod.fst then d.map Prod.fst
      else d.map Prod.fst ++ [k] := by
  induction d with
  | nil => simp [set]
  | cons p d ih =>
    obtain ⟨k₀, v₀⟩ := p
    by_cases h₀ : k₀ = k
    · simp [set, h₀]
    · rw [set, if_neg h₀, List.map_cons, ih]
      by_cases h : k ∈ d.map Prod.fst
      · simp [h]
      · simp [h, Ne.symm h₀]

theorem nodup_keys_set {d : List (κ × ν)} (h : (d.map Prod.fst).Nodup) (k : κ) (v : ν) :
    ((set d k v).map Prod.fst).Nodup := by
  rw [keys_set]
  split
  · exact h
  · rename_i hk
    refine List.nodup_append.mpr ⟨h, List.nodup_singleton k, ?_⟩
    rintro a ha b hb rfl
    exact hk (List.mem_singleton.mp hb ▸ ha)

/-- The value of the last pair with key `k`. -/
def lastValue (pairs : List (κ × ν)) (k : κ) : Option ν :=
  (pairs.reverse.find? fun p => p.1 = k).map Prod.snd

theorem lastValue_append_singleton (pairs : List (κ × ν)) (p : κ × ν) (k : κ) :
    lastValue (pairs ++ [p]) k = if p.1 = k then some p.2 else lastValue pairs k := by
  by_cases h : p.1 = k <;> simp [lastValue, h]

theorem mem_of_lastValue {pairs : List (κ × ν)} {k : κ} {v : ν}
    (h : lastValue pairs k = some v) : (k, v) ∈ pairs := by
  obtain ⟨p, hp, rfl⟩ := Option.map_eq_some_iff.mp h
  have hk : p.1 = k := by simpa using List.find?_some hp
  subst hk
  exact List.mem_reverse.mp (List.mem_of_find?_eq_some hp)

theorem exists_lastValue_of_mem {pairs : List (κ × ν)} {k : κ} {v : ν} (h : (k, v) ∈ pairs) :
    ∃ v', lastValue pairs k = some v' := by
  cases hfind : pairs.reverse.find? fun p => p.1 = k with
  | none => simpa using List.find?_eq_none.mp hfind (k, v) (List.mem_reverse.mpr h)
  | some p => exact ⟨p.2, by simp [lastValue, hfind]⟩

/-- The pairs at the end of a list win. -/
theorem lastValue_append {pairs pairs' : List (κ × ν)} {k : κ} {v : ν}
    (h : lastValue pairs' k = some v) : lastValue (pairs ++ pairs') k = some v := by
  unfold lastValue at h ⊢
  obtain ⟨p, hp, rfl⟩ := Option.map_eq_some_iff.mp h
  rw [List.reverse_append, List.find?_append, hp]
  rfl

theorem ofList_append_singleton (pairs : List (κ × ν)) (p : κ × ν) :
    ofList (pairs ++ [p]) = set (ofList pairs) p.1 p.2 := by
  simp [ofList, List.foldl_append]

theorem nodup_keys_ofList (pairs : List (κ × ν)) : ((ofList pairs).map Prod.fst).Nodup := by
  induction pairs using List.reverseRecOn with
  | nil => exact List.nodup_nil
  | append_singleton pairs p ih =>
    rw [ofList_append_singleton]
    exact nodup_keys_set ih _ _

/-- **The last pair with a key wins.** -/
theorem get?_ofList (pairs : List (κ × ν)) (k : κ) : get? (ofList pairs) k = lastValue pairs k := by
  induction pairs using List.reverseRecOn with
  | nil => rfl
  | append_singleton pairs p ih =>
    rw [ofList_append_singleton, get?_set, lastValue_append_singleton, ih]

theorem mem_iff_get? {d : List (κ × ν)} (h : (d.map Prod.fst).Nodup) {k : κ} {v : ν} :
    (k, v) ∈ d ↔ get? d k = some v := by
  induction d with
  | nil => simp [get?]
  | cons p d ih =>
    obtain ⟨k₀, v₀⟩ := p
    rw [List.map_cons, List.nodup_cons] at h
    rw [get?_cons, List.mem_cons, ih h.2]
    by_cases hk : k₀ = k
    · subst hk
      have hnone : get? d k₀ ≠ some v := by
        intro hsome
        exact h.1 (List.mem_map.mpr ⟨_, (ih h.2).mpr hsome, rfl⟩)
      simp [hnone, eq_comm]
    · simp [hk, Ne.symm hk]

theorem mem_ofList {pairs : List (κ × ν)} {k : κ} {v : ν} :
    (k, v) ∈ ofList pairs ↔ lastValue pairs k = some v := by
  rw [mem_iff_get? (nodup_keys_ofList pairs), get?_ofList]

/-! ## Collecting -/

/-- `defaultdict`: the values of each key, added to one another in the order of the rows. -/
def collect (add : List ν → ν → List ν) (rows : List (κ × ν)) : List (κ × List ν) :=
  rows.foldl (fun d row => set d row.1 (add ((get? d row.1).getD []) row.2)) []

/-- The values of a key. -/
def valuesOf (rows : List (κ × ν)) (k : κ) : List ν := (rows.filter fun row => row.1 = k).map Prod.snd

theorem mem_valuesOf {rows : List (κ × ν)} {k : κ} {v : ν} :
    v ∈ valuesOf rows k ↔ (k, v) ∈ rows := by
  simp [valuesOf]

theorem valuesOf_append_singleton (rows : List (κ × ν)) (row : κ × ν) (k : κ) :
    valuesOf (rows ++ [row]) k =
      if row.1 = k then valuesOf rows k ++ [row.2] else valuesOf rows k := by
  by_cases h : row.1 = k <;> simp [valuesOf, h]

theorem collect_append_singleton (add : List ν → ν → List ν) (rows : List (κ × ν)) (row : κ × ν) :
    collect add (rows ++ [row]) = set (collect add rows) row.1
      (add ((get? (collect add rows) row.1).getD []) row.2) := by
  simp [collect, List.foldl_append]

theorem nodup_keys_collect (add : List ν → ν → List ν) (rows : List (κ × ν)) :
    ((collect add rows).map Prod.fst).Nodup := by
  induction rows using List.reverseRecOn with
  | nil => exact List.nodup_nil
  | append_singleton rows row ih =>
    rw [collect_append_singleton]
    exact nodup_keys_set ih _ _

theorem valuesOf_of_not_mem {rows : List (κ × ν)} {k : κ} (h : k ∉ rows.map Prod.fst) :
    valuesOf rows k = [] :=
  List.eq_nil_iff_forall_not_mem.mpr fun _ hv =>
    h (List.mem_map.mpr ⟨_, mem_valuesOf.mp hv, rfl⟩)

theorem getD_valuesOf (add : List ν → ν → List ν) (rows : List (κ × ν)) (k : κ) :
    (if k ∈ rows.map Prod.fst then some ((valuesOf rows k).foldl add []) else none).getD [] =
      (valuesOf rows k).foldl add [] := by
  split
  · rfl
  · rename_i hk
    rw [valuesOf_of_not_mem hk]
    rfl

/-- **A key has the values of its rows**, and a key of no row has none. -/
theorem get?_collect (add : List ν → ν → List ν) (rows : List (κ × ν)) (k : κ) :
    get? (collect add rows) k =
      if k ∈ rows.map Prod.fst then some ((valuesOf rows k).foldl add []) else none := by
  induction rows using List.reverseRecOn with
  | nil => rfl
  | append_singleton rows row ih =>
    rw [collect_append_singleton, get?_set, valuesOf_append_singleton, List.map_append,
      List.map_singleton]
    by_cases h : row.1 = k
    · subst h
      simp [ih, getD_valuesOf, List.foldl_append]
    · have hmem : k ∈ rows.map Prod.fst ++ [row.1] ↔ k ∈ rows.map Prod.fst := by
        simp [Ne.symm h]
      rw [if_neg h, if_neg h, ih]
      simp only [hmem]

theorem getD_get?_collect (add : List ν → ν → List ν) (rows : List (κ × ν)) (k : κ) :
    (get? (collect add rows) k).getD [] = (valuesOf rows k).foldl add [] := by
  rw [get?_collect, getD_valuesOf]

theorem mem_collect {add : List ν → ν → List ν} {rows : List (κ × ν)} {k : κ} {vs : List ν} :
    (k, vs) ∈ collect add rows ↔
      k ∈ rows.map Prod.fst ∧ vs = (valuesOf rows k).foldl add [] := by
  rw [mem_iff_get? (nodup_keys_collect add rows), get?_collect]
  split <;> simp [*, eq_comm]

/-- Appending keeps the values as they are. -/
theorem foldl_append_singleton (vs : List ν) : vs.foldl (fun l v => l ++ [v]) [] = vs := by
  induction vs using List.reverseRecOn with
  | nil => rfl
  | append_singleton vs v ih => rw [List.foldl_append, ih, List.foldl_cons, List.foldl_nil]

/-- Inserting keeps each value once. -/
theorem foldl_insert [DecidableEq ν] (vs : List ν) : (vs.foldl (fun l v => l.insert v) []).Nodup ∧
    ∀ v, v ∈ vs.foldl (fun l v => l.insert v) [] ↔ v ∈ vs := by
  induction vs using List.reverseRecOn with
  | nil => exact ⟨List.nodup_nil, fun _ => Iff.rfl⟩
  | append_singleton vs v ih =>
    rw [List.foldl_append, List.foldl_cons, List.foldl_nil]
    refine ⟨ih.1.insert, fun w => ?_⟩
    rw [List.mem_insert_iff, ih.2, List.mem_append, List.mem_singleton, or_comm]

/-! ## Interning -/

/-- The place of a key among the keys. -/
def place (keys : List κ) (k : κ) : Nat := keys.idxOf k

/-- The table gives each key its place among the keys, in the order in which they were
first looked up. -/
structure Interned (table : List (κ × UInt32)) (keys : List κ) : Prop where
  length : table.length = keys.length
  get? : ∀ k, Dict.get? table k = if k ∈ keys then some (UInt32.ofNat (place keys k)) else none

theorem set_of_get?_none {d : List (κ × ν)} {k : κ} (h : get? d k = none) (v : ν) :
    set d k v = d ++ [(k, v)] := by
  induction d with
  | nil => rfl
  | cons p d ih =>
    obtain ⟨k₀, v₀⟩ := p
    rw [get?_cons] at h
    split at h
    · cases h
    · rename_i hne
      simp [set, hne, ih h]

namespace Interned

theorem nil : Interned ([] : List (κ × UInt32)) [] := ⟨rfl, fun _ => rfl⟩

variable {table : List (κ × UInt32)} {keys : List κ} {k : κ}

theorem mem_of_get? (h : Interned table keys) {i : UInt32} (hi : Dict.get? table k = some i) :
    k ∈ keys ∧ i = UInt32.ofNat (place keys k) := by
  rw [h.get?] at hi
  split at hi
  · exact ⟨‹_›, (Option.some.inj hi).symm⟩
  · cases hi

theorem not_mem_of_get? (h : Interned table keys) (hk : Dict.get? table k = none) : k ∉ keys := by
  rw [h.get?] at hk
  split at hk
  · cases hk
  · assumption

/-- A key that is not in the table is added at its end. -/
theorem push (h : Interned table keys) (hk : Dict.get? table k = none) :
    Interned (set table k (UInt32.ofNat table.length)) (keys ++ [k]) := by
  have hmem := h.not_mem_of_get? hk
  refine ⟨by simp [set_of_get?_none hk, h.length], fun k' => ?_⟩
  rw [get?_set]
  by_cases hkk : k = k'
  · subst hkk
    simp [h.length, place, List.idxOf_append, hmem]
  · rw [if_neg hkk, h.get?]
    by_cases hk' : k' ∈ keys
    · simp [hk', place, List.idxOf_append]
    · simp [hk', Ne.symm hkk]

end Interned

/-- The place of a key does not change as keys are added. -/
theorem place_of_grown {keys keys' : List κ} (h : keys <+: keys') {k : κ} (hk : k ∈ keys) :
    place keys' k = place keys k := by
  obtain ⟨more, rfl⟩ := h
  simp [place, List.idxOf_append, hk]

theorem place_lt {keys : List κ} {k : κ} (hk : k ∈ keys) : place keys k < keys.length :=
  List.idxOf_lt_length_of_mem hk

theorem getElem_place {keys : List κ} {k : κ} (hk : k ∈ keys) :
    keys[place keys k]? = some k := by
  rw [List.getElem?_eq_getElem (place_lt hk)]
  simp [place]

end Bracelet.Dict
