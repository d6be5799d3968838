import Bracelet.Verdicts

/-!
# Ranges of versions

What a list of version constraints means, and when `parse_purl_cons` gives it that
meaning.  The `=` items of a list stand for single versions.  What is left of it, when
lower and upper bounds alternate, pairs up from the left: each lower bound with the
upper bound after it.  `parse_purl_cons` pairs while it scans, and an `=` item closes
the group of the lower bound before it; the upper bound it was to be paired with then
stands alone, and the two half-lines cover every version.
-/
namespace Bracelet.VersionRanges
variable {S : Semver}

/-! ## The meaning of a list of constraints -/

/-- The versions between two bounds; a side without a bound is unbounded. -/
structure Interval (S : Semver) where
  lower : Option (SingleConstraint S)
  upper : Option (SingleConstraint S)

def Interval.contains (i : Interval S) (v : S.VersionInfo) : Prop :=
  (∀ l ∈ i.lower, l.holds v) ∧ ∀ u ∈ i.upper, u.holds v

/-- The list without its `=` items. -/
def bounds (cs : VersionConstraint S) : VersionConstraint S := cs.filter fun c => c.op ≠ .EQ

/-- Each lower bound with the upper bound after it; `pending` is the lower bound that
still waits for its upper bound. -/
def pair_bounds : Option (SingleConstraint S) → VersionConstraint S → List (Interval S)
  | none, [] => []
  | some l, [] => [⟨some l, none⟩]
  | pending, c :: cs =>
    if c.op.is_upper_bound then ⟨pending, some c⟩ :: pair_bounds none cs
    else pair_bounds (some c) cs

/-- Equal to one of the `=` versions, or in one of the intervals. -/
def InRange (pending : Option (SingleConstraint S)) (cs : VersionConstraint S)
    (v : S.VersionInfo) : Prop :=
  (∃ c ∈ cs, c.op = .EQ ∧ S.compare v c.ver = .eq) ∨
    ∃ i ∈ pair_bounds pending (bounds cs), i.contains v

def Increasing (cs : VersionConstraint S) : Prop :=
  cs.Pairwise fun a b => S.compare a.ver b.ver = .lt

/-- After a lower bound comes an upper bound, and after an upper bound a lower one. -/
def Alternating (cs : VersionConstraint S) : Prop :=
  cs.IsChain fun a b => a.op.is_lower_bound ≠ b.op.is_lower_bound

/-- An `=` item stands between a lower bound and the upper bound it is paired with. -/
def Interrupted (cs : VersionConstraint S) : Prop :=
  ∃ before lo between up after, cs = before ++ lo :: (between ++ up :: after) ∧
    lo.op.is_lower_bound ∧ up.op.is_upper_bound ∧ between ≠ [] ∧ ∀ c ∈ between, c.op = .EQ

/-- The items of the list. -/
def parse_constraints (S : Semver) (constraint_non_stripped : String) :
    Option (VersionConstraint S) :=
  (((strip constraint_non_stripped.toList).filter (· ≠ ' ')).splitOn '|').mapM
    (parse_version_constraint S)

/-! ## The scan -/

/-- What the scan accepts from the open group `curr_group` on. -/
def scanned (v : S.VersionInfo) : VersionConstraint S → VersionConstraint S → Bool
  | curr_group, [] => !curr_group.isEmpty && curr_group.all (·.holds v)
  | curr_group, c :: cs =>
    if c.op.is_upper_bound then (curr_group ++ [c]).all (·.holds v) || scanned v [] cs
    else
      (!curr_group.isEmpty && curr_group.all (·.holds v)) ||
        if c.op.is_lower_bound then scanned v [c] cs else c.holds v || scanned v [] cs

/-- The groups once the scan is over. -/
def close (groups : VersionConstraint S × List (VersionConstraint S)) :
    List (VersionConstraint S) :=
  if 0 < groups.1.length then groups.2 ++ [groups.1] else groups.2

theorem parse_purl_cons_eq {s : String} {cs : VersionConstraint S}
    (h : parse_constraints S s = some cs) :
    parse_purl_cons S s = some (close (cs.foldl add_constraint ([], []))) := by
  unfold parse_constraints at h
  simp only [parse_purl_cons, h, Option.bind_eq_bind, Option.bind_some, Option.pure_def]
  rfl

theorem not_lower_of_upper {op : VSpecOp} (h : op.is_upper_bound) : op.is_lower_bound = false := by
  cases op <;> first | rfl | cases h

theorem eq_or_lower_of_not_upper {op : VSpecOp} (h : ¬ op.is_upper_bound) :
    op = .EQ ∨ op.is_lower_bound := by
  cases op <;> simp_all [VSpecOp.is_upper_bound, VSpecOp.is_lower_bound]

section
variable (v : S.VersionInfo) (curr_group : VersionConstraint S) {c : SingleConstraint S}
  (cs : VersionConstraint S)

theorem scanned_upper (h : c.op.is_upper_bound) : scanned v curr_group (c :: cs) =
    ((curr_group ++ [c]).all (·.holds v) || scanned v [] cs) := by
  rw [scanned, if_pos h]

theorem scanned_lower (h : c.op.is_lower_bound) : scanned v curr_group (c :: cs) =
    (!curr_group.isEmpty && curr_group.all (·.holds v) || scanned v [c] cs) := by
  have hup : ¬ c.op.is_upper_bound := fun hup => by simp [not_lower_of_upper hup] at h
  rw [scanned, if_neg hup, if_pos h]

theorem scanned_EQ (h : c.op = .EQ) : scanned v curr_group (c :: cs) =
    (!curr_group.isEmpty && curr_group.all (·.holds v) || (c.holds v || scanned v [] cs)) := by
  rw [scanned, h]
  rfl

end

theorem satisfies_close (v : S.VersionInfo) (cs : VersionConstraint S)
    (groups : VersionConstraint S × List (VersionConstraint S)) :
    version_satisfies_range v (close (cs.foldl add_constraint groups)) =
      (version_satisfies_range v groups.2 || scanned v groups.1 cs) := by
  induction cs generalizing groups with
  | nil =>
    obtain ⟨curr_group, total⟩ := groups
    cases curr_group <;> simp [close, version_satisfies_range, scanned]
  | cons c cs ih =>
    obtain ⟨curr_group, total⟩ := groups
    rw [List.foldl_cons, ih]
    by_cases hup : c.op.is_upper_bound
    · rw [scanned_upper v _ cs hup]
      simp [add_constraint, hup, version_satisfies_range, Bool.or_assoc]
    · obtain heq | hlo := eq_or_lower_of_not_upper hup
      · rw [scanned_EQ v _ cs heq]
        cases curr_group <;> simp [add_constraint, heq, VSpecOp.is_upper_bound,
          VSpecOp.is_lower_bound, version_satisfies_range, Bool.or_assoc]
      · rw [scanned_lower v _ cs hlo]
        cases curr_group <;> simp [add_constraint, hup, hlo, version_satisfies_range,
          Bool.or_assoc]

theorem satisfies_parse {s : String} {cs : VersionConstraint S}
    (h : parse_constraints S s = some cs) : ∃ ranges, parse_purl_cons S s = some ranges ∧
      ∀ v, version_satisfies_range v ranges = scanned v [] cs := by
  refine ⟨_, parse_purl_cons_eq h, fun v => ?_⟩
  rw [satisfies_close]
  simp [version_satisfies_range]

/-! ## Lists whose pairs are not interrupted -/

theorem holds_EQ {c : SingleConstraint S} (h : c.op = .EQ) (v : S.VersionInfo) :
    c.holds v ↔ S.compare v c.ver = .eq := by
  simp [SingleConstraint.holds, h, VSpecOp.operator]

theorem scanned_of_all_EQ {cs : VersionConstraint S} (h : ∀ c ∈ cs, c.op = .EQ)
    (v : S.VersionInfo) : scanned v [] cs ↔ ∃ c ∈ cs, c.op = .EQ ∧ S.compare v c.ver = .eq := by
  induction cs with
  | nil => simp [scanned]
  | cons c cs ih =>
    obtain ⟨hc, hcs⟩ := List.forall_mem_cons.mp h
    rw [scanned_EQ v [] cs hc]
    simp [holds_EQ hc, ih hcs, hc]

@[simp] theorem bounds_cons_EQ {c : SingleConstraint S} (h : c.op = .EQ)
    (cs : VersionConstraint S) : bounds (c :: cs) = bounds cs := by
  simp [bounds, h]

theorem bounds_cons_bound {c : SingleConstraint S} (h : c.op ≠ .EQ)
    (cs : VersionConstraint S) : bounds (c :: cs) = c :: bounds cs := by
  simp [bounds, h]

theorem Interrupted.append {cs : VersionConstraint S} (h : Interrupted cs)
    (before : VersionConstraint S) : Interrupted (before ++ cs) := by
  obtain ⟨before', lo, between, up, after, rfl, h⟩ := h
  exact ⟨before ++ before', lo, between, up, after, by simp, h⟩

section
variable (pending : Option (SingleConstraint S)) {c : SingleConstraint S}
  (cs : VersionConstraint S) (v : S.VersionInfo)

theorem inRange_EQ (h : c.op = .EQ) :
    InRange pending (c :: cs) v ↔ S.compare v c.ver = .eq ∨ InRange pending cs v := by
  simp [InRange, h, or_assoc]

theorem inRange_upper (h : c.op.is_upper_bound) :
    InRange pending (c :: cs) v ↔ (⟨pending, some c⟩ : Interval S).contains v ∨
      InRange none cs v := by
  have hne : c.op ≠ .EQ := fun heq => by simp [heq, VSpecOp.is_upper_bound] at h
  simp only [InRange, bounds_cons_bound hne, pair_bounds, h, if_true]
  rw [or_left_comm]
  simp [hne]

theorem inRange_lower (h : c.op.is_lower_bound) :
    InRange none (c :: cs) v ↔ InRange (some c) cs v := by
  have hne : c.op ≠ .EQ := fun heq => by simp [heq, VSpecOp.is_lower_bound] at h
  have hup : ¬ c.op.is_upper_bound := fun hup => by simp [not_lower_of_upper hup] at h
  simp [InRange, bounds_cons_bound hne, pair_bounds, hup, hne]

theorem inRange_of_all_EQ (l : SingleConstraint S) (h : ∀ c ∈ cs, c.op = .EQ) :
    InRange (some l) cs v ↔ l.holds v ∨ ∃ c ∈ cs, c.op = .EQ ∧ S.compare v c.ver = .eq := by
  have hb : bounds cs = [] := by simpa [bounds] using h
  simp [InRange, hb, pair_bounds, Interval.contains, or_comm]

end

/-- After `lo` and an `=` item, a list that alternates and is not interrupted has no
further bound. -/
theorem all_EQ_of_not_interrupted {lo c : SingleConstraint S} {cs : VersionConstraint S}
    (hlo : lo.op.is_lower_bound) (hc : c.op = .EQ) (halt : Alternating (lo :: bounds cs))
    (hint : ¬ Interrupted (lo :: c :: cs)) : ∀ d ∈ cs, d.op = .EQ := by
  cases hb : bounds cs with
  | nil =>
    intro d hd
    by_contra hne
    have hmem : d ∈ bounds cs := List.mem_filter.mpr ⟨hd, by simpa using hne⟩
    rw [hb] at hmem
    cases hmem
  | cons up bs =>
    exfalso
    obtain ⟨between, after, rfl, hbetween, hup, -⟩ := List.filter_eq_cons_iff.mp hb
    rw [hb] at halt
    have hne : up.op.is_lower_bound = false := by
      have := (List.isChain_cons_cons.mp halt).1
      simpa [hlo] using this
    have hupper : up.op.is_upper_bound := by
      by_contra hnot
      obtain heq | hlow := eq_or_lower_of_not_upper hnot
      · simp [heq] at hup
      · simp [hne] at hlow
    refine hint ⟨[], lo, c :: between, up, after, rfl, hlo, hupper, by simp, ?_⟩
    intro d hd
    obtain rfl | hd := List.mem_cons.mp hd
    · exact hc
    · simpa using hbetween d hd

/-- **The scan of a list that is not interrupted accepts its versions.**  `pending` is
the lower bound in the open group. -/
theorem scanned_iff (v : S.VersionInfo) (cs : VersionConstraint S)
    (pending : Option (SingleConstraint S)) (hlow : ∀ l ∈ pending, l.op.is_lower_bound)
    (halt : Alternating (pending.toList ++ bounds cs))
    (hint : ¬ Interrupted (pending.toList ++ cs)) :
    scanned v pending.toList cs ↔ InRange pending cs v := by
  induction cs generalizing pending with
  | nil => cases pending <;> simp [scanned, InRange, bounds, pair_bounds, Interval.contains]
  | cons c cs ih =>
    have hrest : ¬ Interrupted cs := fun h =>
      hint (by simpa using h.append (pending.toList ++ [c]))
    by_cases hup : c.op.is_upper_bound
    · have hne : c.op ≠ .EQ := fun h => by simp [h, VSpecOp.is_upper_bound] at hup
      have htail : Alternating (bounds cs) := by
        rw [bounds_cons_bound hne] at halt
        exact halt.right_of_append.tail
      have := ih none (by simp) htail hrest
      rw [scanned_upper v _ cs hup, inRange_upper pending cs v hup, Bool.or_eq_true]
      refine or_congr ?_ this
      cases pending <;> simp [Interval.contains]
    obtain heq | hlo := eq_or_lower_of_not_upper hup
    · rw [bounds_cons_EQ heq] at halt
      rw [scanned_EQ v _ cs heq, inRange_EQ pending cs v heq]
      cases pending with
      | none =>
        have := ih none (by simp) halt hrest
        simpa [holds_EQ heq] using or_congr_right this
      | some l =>
        -- the group of `l` is closed here, and nothing would have extended it
        have hall := all_EQ_of_not_interrupted (hlow l rfl) heq halt hint
        rw [inRange_of_all_EQ cs v l hall]
        simp [holds_EQ heq, scanned_of_all_EQ hall]
        tauto
    · have hne : c.op ≠ .EQ := fun h => by simp [h, VSpecOp.is_lower_bound] at hlo
      rw [bounds_cons_bound hne] at halt
      cases pending with
      | none =>
        rw [scanned_lower v _ cs hlo, inRange_lower cs v hlo]
        simpa using ih (some c) (by simpa using hlo) halt hint
      | some l =>
        exact absurd (hlow l rfl) (by simpa [hlo] using (List.isChain_cons_cons.mp halt).1)

/-! ## Interrupted pairs -/

theorem scanned_suffix (v : S.VersionInfo) (before cs curr_group : VersionConstraint S) :
    ∃ curr_group', scanned v curr_group' cs → scanned v curr_group (before ++ cs) := by
  induction before generalizing curr_group with
  | nil => exact ⟨curr_group, id⟩
  | cons c before ih =>
    by_cases hup : c.op.is_upper_bound
    · obtain ⟨curr_group', h⟩ := ih []
      exact ⟨curr_group', fun hs => by simp [scanned_upper v _ _ hup, h hs]⟩
    obtain heq | hlo := eq_or_lower_of_not_upper hup
    · obtain ⟨curr_group', h⟩ := ih []
      exact ⟨curr_group', fun hs => by simp [scanned_EQ v _ _ heq, h hs]⟩
    · obtain ⟨curr_group', h⟩ := ih [c]
      exact ⟨curr_group', fun hs => by simp [scanned_lower v _ _ hlo, h hs]⟩

theorem scanned_skip_EQ (v : S.VersionInfo) {between cs : VersionConstraint S}
    (h : ∀ c ∈ between, c.op = .EQ) (hs : scanned v [] cs) : scanned v [] (between ++ cs) := by
  induction between with
  | nil => exact hs
  | cons c between ih =>
    obtain ⟨hc, hrest⟩ := List.forall_mem_cons.mp h
    simp [scanned_EQ v _ _ hc, ih hrest]

theorem operator_gt {op : VSpecOp} (h : op.is_lower_bound) : op.operator .gt := by
  cases op <;> first | rfl | cases h

theorem operator_lt {op : VSpecOp} (h : op.is_upper_bound) : op.operator .lt := by
  cases op <;> first | rfl | cases h

/-- The half-lines above and below two bounds cover every version. -/
theorem holds_or_holds [Std.TransCmp S.compare] {lo up : SingleConstraint S}
    (hlo : lo.op.is_lower_bound) (hup : up.op.is_upper_bound)
    (h : S.compare lo.ver up.ver = .lt) (v : S.VersionInfo) : lo.holds v ∨ up.holds v := by
  cases hv : S.compare v lo.ver with
  | gt =>
    left
    rw [SingleConstraint.holds, hv]
    exact operator_gt hlo
  | lt | eq =>
    right
    have hlt : S.compare v up.ver = .lt :=
      Std.TransCmp.lt_of_isLE_of_lt (by simp [hv]) h
    rw [SingleConstraint.holds, hlt]
    exact operator_lt hup

/-- **An interrupted scan accepts every version.** -/
theorem scanned_of_interrupted [Std.TransCmp S.compare] {cs : VersionConstraint S}
    (hinc : Increasing cs) (hint : Interrupted cs) (v : S.VersionInfo) : scanned v [] cs := by
  obtain ⟨before, lo, between, up, after, rfl, hlo, hup, hne, hbetween⟩ := hint
  obtain ⟨c, between, rfl⟩ := List.exists_cons_of_ne_nil hne
  obtain ⟨hc, hrest⟩ := List.forall_mem_cons.mp hbetween
  have hlt : S.compare lo.ver up.ver = .lt := by
    have := (List.pairwise_append.mp hinc).2.1
    exact (List.pairwise_cons.mp this).1 up (by simp)
  obtain ⟨curr_group, hsuffix⟩ :=
    scanned_suffix v before (lo :: (c :: between ++ up :: after)) []
  apply hsuffix
  rw [scanned_lower v _ _ hlo, List.cons_append, scanned_EQ v _ _ hc]
  obtain h | h := holds_or_holds hlo hup hlt v
  · simp [h]
  · have hafter : scanned v [] (up :: after) := by simp [scanned_upper v _ _ hup, h]
    simp [scanned_skip_EQ v hrest hafter]

/-! ## The ranges of an entry -/

/-- **`parse_purl_cons` reads a list as the union of its intervals, unless an `=` item
stands inside one of them; then it accepts every version.** -/
theorem version_satisfies_range_iff [Std.TransCmp S.compare] {s : String}
    {cs : VersionConstraint S} (hparse : parse_constraints S s = some cs)
    (hinc : Increasing cs) (halt : Alternating (bounds cs)) :
    ∃ ranges, parse_purl_cons S s = some ranges ∧ ∀ v,
      ((version_satisfies_range v ranges ↔ InRange none cs v) ↔
        (¬ Interrupted cs ∨ InRange none cs v)) := by
  obtain ⟨ranges, hranges, hsat⟩ := satisfies_parse hparse
  refine ⟨ranges, hranges, fun v => ?_⟩
  rw [hsat]
  by_cases hint : Interrupted cs
  · simp [scanned_of_interrupted hinc hint v, hint]
  · simpa [hint] using scanned_iff v cs none (by simp) halt hint

theorem transCmp_components : Std.TransCmp fun a b : List Nat => compareOfLessAndEq a b :=
  Std.TransOrd.compareOfLessAndEq_of_lt_trans_of_lt_iff List.lt_trans fun _ _ =>
    ⟨fun h => ⟨lt_asymm h, ne_of_lt h⟩, fun ⟨hnot, hne⟩ => lt_of_le_of_ne (not_lt.mp hnot) hne⟩

instance : Std.TransCmp plainSemver.compare := transCmp_components

/-- `>=1.0.0|=2.0.0|<3.0.0` -/
def threeItems : VersionConstraint plainSemver :=
  [⟨.GEQ, [1, 0, 0]⟩, ⟨.EQ, [2, 0, 0]⟩, ⟨.LT, [3, 0, 0]⟩]

theorem parse_threeItems :
    parse_constraints plainSemver ">=1.0.0|=2.0.0|<3.0.0" = some threeItems := rfl

theorem increasing_threeItems : Increasing threeItems := by
  simp [Increasing, threeItems, plainSemver]
  decide

theorem alternating_threeItems : Alternating (bounds threeItems) := by
  simp [Alternating, bounds, threeItems, VSpecOp.is_lower_bound]

/-- On `>=1.0.0|=2.0.0|<3.0.0`, version 2.5.0 is judged as the list says. -/
theorem version_satisfies_range_iff_threeItems :
    ∃ ranges, parse_purl_cons plainSemver ">=1.0.0|=2.0.0|<3.0.0" = some ranges ∧ ∀ v,
      ((version_satisfies_range v ranges ↔ InRange none threeItems v) ↔
        (¬ Interrupted threeItems ∨ InRange none threeItems v)) :=
  version_satisfies_range_iff parse_threeItems increasing_threeItems alternating_threeItems

/-- On the same list version 4.0.0 is accepted, though it lies in no interval. -/
theorem interrupted_list_accepts_above :
    ¬ ∀ (s : String) (cs : VersionConstraint plainSemver),
      parse_constraints plainSemver s = some cs → Increasing cs → Alternating (bounds cs) →
        ∃ ranges, parse_purl_cons plainSemver s = some ranges ∧
          ∀ v, version_satisfies_range v ranges ↔ InRange none cs v := by
  intro hall
  obtain ⟨ranges, hranges, hiff⟩ :=
    hall _ _ parse_threeItems increasing_threeItems alternating_threeItems
  have hsat : (parse_purl_cons plainSemver ">=1.0.0|=2.0.0|<3.0.0").map
      (version_satisfies_range [4, 0, 0]) = some true := by decide
  rw [hranges] at hsat
  have hpairs : pair_bounds none (bounds threeItems) =
      [⟨some ⟨.GEQ, [1, 0, 0]⟩, some ⟨.LT, [3, 0, 0]⟩⟩] := rfl
  rcases (hiff [4, 0, 0]).mp (Option.some_inj.mp hsat) with ⟨c, hc, hop, heq⟩ | ⟨i, hi, -, hup⟩
  · simp only [threeItems, List.mem_cons, List.not_mem_nil, or_false] at hc
    rcases hc with rfl | rfl | rfl
    · cases hop
    · exact absurd heq (by decide)
    · cases hop
  · rw [hpairs] at hi
    obtain rfl := List.mem_singleton.mp hi
    exact absurd (hup _ rfl) (by decide)

end Bracelet.VersionRanges
