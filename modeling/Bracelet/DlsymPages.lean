import Bracelet.DlsymRuntime

/-!
# The page list loses nothing

`Inv` is what every interleaving of `DlsymRuntime.step` keeps.  Its core is an
ownership split of the mapped pages.  A page on the list (`OnList`, reachable
from the head through `next`) is only ever counted up or stored into; a page off
the list is held by exactly one call, the one that mapped it, and is still as
`mmap` and `memset` left it.  So publishing a page can only put it in front of the
head it is linked to, and unmapping can never hit the list.

On a listed page the slot counter hands out each index once: the calls that hold
a slot hold different ones, all below `count`.
-/
namespace Bracelet.DlsymRuntime

variable {ι : Type} [DecidableEq ι]

/-! ## The list -/

/-- The `next` pointer of a mapped page. -/
def nextOf (pages : PageAddr → Option DlsymPage) (p : PageAddr) : Option PageAddr :=
  (pages p).bind DlsymPage.next

/-- The page is reachable from the head through `next`. -/
inductive OnList (head : Option PageAddr) (pages : PageAddr → Option DlsymPage) : PageAddr → Prop
  | head {p} : head = some p → OnList head pages p
  | next {p q} : OnList head pages p → nextOf pages p = some q → OnList head pages q

/-- `p` is on the list of the configuration. -/
abbrev Config.Listed (c : Config ι) (p : PageAddr) : Prop := OnList c.head c.pages p

section List
variable {head : Option PageAddr} {pages pages' : PageAddr → Option DlsymPage}

/-- The list only depends on the `next` pointers of the pages on it. -/
theorem OnList.congr (h : ∀ p, OnList head pages p → nextOf pages' p = nextOf pages p)
    (p : PageAddr) : OnList head pages' p ↔ OnList head pages p := by
  constructor
  · intro hp
    induction hp with
    | head hp => exact .head hp
    | next _ hn ih => exact .next ih (by rw [← h _ ih]; exact hn)
  · intro hp
    induction hp with
    | head hp => exact .head hp
    | next hp hn ih => exact .next ih (by rw [h _ hp]; exact hn)

omit [DecidableEq ι] in
theorem nextOf_update_ne {a p : PageAddr} {pg : Option DlsymPage} (h : p ≠ a) :
    nextOf (Function.update pages a pg) p = nextOf pages p := by
  simp [nextOf, h]

/-- Writing a page off the list leaves the list alone. -/
theorem OnList.update_off {a : PageAddr} {pg : Option DlsymPage} (ha : ¬ OnList head pages a)
    (p : PageAddr) : OnList head (Function.update pages a pg) p ↔ OnList head pages p :=
  OnList.congr (fun q hq => nextOf_update_ne fun he : q = a => ha (he ▸ hq)) p

/-- Writing a page without moving its `next` leaves the list alone. -/
theorem OnList.update_next {a : PageAddr} {pg pg' : DlsymPage} (ha : pages a = some pg)
    (hn : pg'.next = pg.next) (p : PageAddr) :
    OnList head (Function.update pages a (some pg')) p ↔ OnList head pages p := by
  refine OnList.congr (fun q _ => ?_) p
  by_cases hq : q = a
  · subst hq; simp [nextOf, ha, hn]
  · exact nextOf_update_ne hq

/-- Publishing puts one page in front of the list. -/
theorem OnList.publish {a : PageAddr} (ha : nextOf pages a = head) (p : PageAddr) :
    OnList (some a) pages p ↔ p = a ∨ OnList head pages p := by
  constructor
  · intro hp
    induction hp with
    | head hp => exact Or.inl (Option.some.inj hp).symm
    | next _ hn ih =>
      rcases ih with rfl | hp
      · exact Or.inr (.head (ha ▸ hn))
      · exact Or.inr (.next hp hn)
  · rintro (rfl | hp)
    · exact .head rfl
    · induction hp with
      | head hp => exact .next (.head rfl) (ha.trans hp)
      | next _ hn ih => exact .next ih hn

end List

/-! ## What a call holds -/

/-- The listed page a call is working on, if it has one. -/
def Local.page? : Local → Option PageAddr
  | .loading => none
  | .claiming p | .storing p _ | .returned p _ => some p
  | .allocating page | .publishing page _ | .unmapping _ page => page

/-- The page a call has mapped and not given away. -/
def Local.owned? : Local → Option PageAddr
  | .publishing _ a | .unmapping a _ => some a
  | _ => none

/-- The slot a call has claimed. -/
def Local.slot? : Local → Option (PageAddr × Nat)
  | .storing p idx | .returned p idx => some (p, idx)
  | _ => none

@[simp] theorem Local.page?_enter (p : Option PageAddr) : (Local.enter p).page? = p := by
  cases p <;> rfl

@[simp] theorem Local.owned?_enter (p : Option PageAddr) : (Local.enter p).owned? = none := by
  cases p <;> rfl

@[simp] theorem Local.slot?_enter (p : Option PageAddr) : (Local.enter p).slot? = none := by
  cases p <;> rfl

theorem Local.enter_ne_returned (p : Option PageAddr) (q : PageAddr) (idx : Nat) :
    Local.enter p ≠ .returned q idx := by
  cases p <;> nofun

/-! ## What one step does -/

/-- The outcomes of `step`, one constructor for each atomic step. -/
inductive Stepped (symbol : ι → UInt64) (c : Config ι) (i : ι) : Config ι → Prop
  | load : c.calls i = .loading → Stepped symbol c i (c.goto i (.enter c.head))
  | claim {p pg} : c.calls i = .claiming p → c.pages p = some pg → pg.count < numPointers →
      Stepped symbol c i
        ((c.setPage p (some { pg with count := pg.count + 1 })).goto i (.storing p pg.count))
  | overshoot {p pg} : c.calls i = .claiming p → c.pages p = some pg → numPointers ≤ pg.count →
      Stepped symbol c i
        ((c.setPage p (some { pg with count := pg.count + 1 })).goto i (.allocating (some p)))
  | store {p idx pg} : c.calls i = .storing p idx → c.pages p = some pg →
      Stepped symbol c i
        { (c.setPage p (some { pg with pointers := Function.update pg.pointers idx (symbol i) })).goto
            i (.returned p idx) with writes := ⟨i, p, idx⟩ :: c.writes }
  | allocate {page a} : c.calls i = .allocating page → c.pages a = none →
      Stepped symbol c i ((c.setPage a (some (.fresh page))).goto i (.publishing page a))
  | publish {page a} : c.calls i = .publishing page a → c.head = page →
      Stepped symbol c i { c.goto i (.claiming a) with head := some a }
  | lose {page a} : c.calls i = .publishing page a → c.head ≠ page →
      Stepped symbol c i (c.goto i (.unmapping a c.head))
  | unmap {a page} : c.calls i = .unmapping a page →
      Stepped symbol c i ((c.setPage a none).goto i (.enter page))

theorem stepped_of_step {symbol : ι → UInt64} {c d : Config ι} {e : Event ι}
    (h : step symbol c e = some d) : Stepped symbol c e.call d := by
  unfold step at h
  cases hl : c.calls e.call with
  | loading =>
    simp only [hl, Option.some.injEq] at h
    exact h ▸ .load hl
  | claiming p =>
    cases hp : c.pages p with
    | none => simp [hl, hp] at h
    | some pg =>
      by_cases hlt : pg.count < numPointers
      · simp only [hl, hp, Option.bind_eq_bind, Option.bind_some, hlt, ↓reduceIte,
          Option.pure_def, Option.some.injEq] at h
        exact h ▸ .claim hl hp hlt
      · simp only [hl, hp, Option.bind_eq_bind, Option.bind_some, hlt, ↓reduceIte,
          Option.pure_def, Option.some.injEq] at h
        exact h ▸ .overshoot hl hp (Nat.le_of_not_lt hlt)
  | storing p idx =>
    cases hp : c.pages p with
    | none => simp [hl, hp] at h
    | some pg =>
      simp only [hl, hp, Option.bind_eq_bind, Option.bind_some, Option.pure_def,
        Option.some.injEq] at h
      exact h ▸ .store hl hp
  | allocating page =>
    by_cases hf : c.pages e.fresh = none
    · simp only [hl, hf, ↓reduceIte, Option.some.injEq] at h
      exact h ▸ .allocate hl hf
    · simp [hl, hf] at h
  | publishing page a =>
    by_cases hh : c.head = page
    · simp only [hl, hh, ↓reduceIte, Option.some.injEq] at h
      exact h ▸ .publish hl hh
    · simp only [hl, hh, ↓reduceIte, Option.some.injEq] at h
      exact h ▸ .lose hl hh
  | unmapping a page =>
    simp only [hl, Option.some.injEq] at h
    exact h ▸ .unmap hl
  | returned p idx => simp [hl] at h

/-! ## The invariant -/

/-- What every interleaving keeps. -/
structure Inv (symbol : ι → UInt64) (c : Config ι) : Prop where
  /-- Listed pages are mapped. -/
  listed_mapped : ∀ p, c.Listed p → ∃ pg, c.pages p = some pg
  /-- A call works on listed pages. -/
  page_listed : ∀ i p, (c.calls i).page? = some p → c.Listed p
  /-- A page a call owns is off the list. -/
  owned_off : ∀ i a, (c.calls i).owned? = some a → ¬ c.Listed a
  /-- No two calls own one page. -/
  owned_inj : ∀ i j a, (c.calls i).owned? = some a → (c.calls j).owned? = some a → i = j
  /-- A page about to be published is as its owner mapped it. -/
  publishing_fresh : ∀ i page a, c.calls i = .publishing page a →
    c.pages a = some (.fresh page)
  /-- A page a call owns is mapped. -/
  owned_mapped : ∀ i a, (c.calls i).owned? = some a → c.pages a ≠ none
  /-- Claimed slots exist and have been counted. -/
  slot_counted : ∀ i p idx, (c.calls i).slot? = some (p, idx) →
    idx < numPointers ∧ ∃ pg, c.pages p = some pg ∧ idx < pg.count
  /-- No two calls claim one slot. -/
  slot_inj : ∀ i j s, (c.calls i).slot? = some s → (c.calls j).slot? = some s → i = j
  /-- A finished call's slot holds its symbol. -/
  stored : ∀ i p idx pg, c.calls i = .returned p idx → c.pages p = some pg →
    pg.pointers idx = symbol i
  /-- Every slot no finished call has stored is null. -/
  blank : ∀ p pg idx, c.pages p = some pg → (∀ i, c.calls i ≠ .returned p idx) →
    pg.pointers idx = 0
  /-- The history holds the finished calls' stores, once each. -/
  mem_writes : ∀ i p idx, ⟨i, p, idx⟩ ∈ c.writes ↔ c.calls i = .returned p idx
  writes_nodup : c.writes.Nodup

theorem Local.slot?_page? {l : Local} {p : PageAddr} {idx : Nat} (h : l.slot? = some (p, idx)) :
    l.page? = some p := by
  cases l <;> simp_all [Local.slot?, Local.page?]

section Step
variable {symbol : ι → UInt64} {c d : Config ι} {i : ι}

omit [DecidableEq ι] in
/-- A page on the list is owned by nobody. -/
theorem Inv.ne_owned (hc : Inv symbol c) {p a : PageAddr} (hp : c.Listed p)
    {j : ι} (ha : (c.calls j).owned? = some a) : p ≠ a :=
  fun he => hc.owned_off j a ha (he ▸ hp)

omit [DecidableEq ι] in
/-- An unmapped page is off the list. -/
theorem Inv.unmapped_off (hc : Inv symbol c) {a : PageAddr} (ha : c.pages a = none) :
    ¬ c.Listed a := by
  intro h
  obtain ⟨pg, hpg⟩ := hc.listed_mapped a h
  rw [ha] at hpg
  cases hpg

/-- **How the list changes.**  A step leaves it alone, or puts in front of it the
page a call publishes. -/
theorem Stepped.listed (h : Stepped symbol c i d) (hc : Inv symbol c) (p : PageAddr) :
    d.Listed p ↔ c.Listed p ∨ c.calls i = .publishing c.head p := by
  cases h with
  | load hl => simp [Config.Listed, Config.goto, hl]
  | claim hl hp _ | overshoot hl hp _ | store hl hp =>
    simp only [hl, reduceCtorEq, or_false]
    exact OnList.update_next hp (by rfl) p
  | allocate hl ha =>
    simp only [hl, reduceCtorEq, or_false]
    exact OnList.update_off (hc.unmapped_off ha) p
  | @publish page a hl hh =>
    have hnext : nextOf c.pages a = c.head := by
      simp [nextOf, hc.publishing_fresh i page a hl, DlsymPage.fresh, hh]
    rw [show c.calls i = .publishing c.head p ↔ p = a by
      rw [hl, hh]; simp [eq_comm], or_comm]
    exact OnList.publish hnext p
  | lose hl hh =>
    simp only [hl, Local.publishing.injEq]
    simp [Config.Listed, Config.goto, Ne.symm hh]
  | unmap hl =>
    simp only [hl, reduceCtorEq, or_false]
    exact OnList.update_off (hc.owned_off i _ (by simp [hl, Local.owned?])) p

/-- Listed pages stay listed. -/
theorem Stepped.listed_mono (h : Stepped symbol c i d) (hc : Inv symbol c) {p : PageAddr}
    (hp : c.Listed p) : d.Listed p :=
  (h.listed hc p).mpr (Or.inl hp)

/-- Only the call that moves changes its control state. -/
theorem Stepped.other (h : Stepped symbol c i d) {j : ι} (hj : j ≠ i) :
    d.calls j = c.calls j := by
  cases h <;> simp [Config.goto, Config.setPage, hj]

theorem Stepped.listed_mapped (h : Stepped symbol c i d) (hc : Inv symbol c) (p : PageAddr)
    (hp : d.Listed p) : ∃ pg, d.pages p = some pg := by
  rw [h.listed hc] at hp
  have hmap : ∃ pg, c.pages p = some pg := by
    rcases hp with hp | hp
    · exact hc.listed_mapped p hp
    · exact ⟨_, hc.publishing_fresh i _ p hp⟩
  cases h with
  | load _ | publish _ _ | lose _ _ => exact hmap
  | claim _ _ _ | overshoot _ _ _ | store _ _ | allocate _ _ =>
    simp only [Config.goto, Config.setPage, Function.update_apply]
    split
    · exact ⟨_, rfl⟩
    · exact hmap
  | @unmap a page hl =>
    have hne : p ≠ a := by
      rcases hp with hp | hp
      · exact hc.ne_owned hp (j := i) (by simp [hl, Local.owned?])
      · rw [hl] at hp; cases hp
    simpa [Config.goto, Config.setPage, hne] using hmap

@[simp] theorem goto_self (c : Config ι) (l : Local) : (c.goto i l).calls i = l := by
  simp [Config.goto]

omit [DecidableEq ι] in
@[simp] theorem setPage_calls (c : Config ι) (p : PageAddr) (pg : Option DlsymPage) :
    (c.setPage p pg).calls = c.calls := rfl

@[simp] theorem goto_pages (c : Config ι) (l : Local) : (c.goto i l).pages = c.pages := rfl

omit [DecidableEq ι] in
@[simp] theorem setPage_pages (c : Config ι) (p q : PageAddr) (pg : Option DlsymPage) :
    (c.setPage p pg).pages q = if q = p then pg else c.pages q := by
  simp [Config.setPage, Function.update_apply]

@[simp] theorem goto_writes (c : Config ι) (l : Local) : (c.goto i l).writes = c.writes := rfl

omit [DecidableEq ι] in
@[simp] theorem setPage_writes (c : Config ι) (p : PageAddr) (pg : Option DlsymPage) :
    (c.setPage p pg).writes = c.writes := rfl

theorem Stepped.page_listed (h : Stepped symbol c i d) (hc : Inv symbol c) (j : ι) (p : PageAddr)
    (hp : (d.calls j).page? = some p) : d.Listed p := by
  rw [h.listed hc]
  by_cases hj : j = i
  · subst hj
    have hpage := hc.page_listed j p
    cases h with
    | load hl =>
      rw [goto_self, Local.page?_enter] at hp
      exact Or.inl (.head hp)
    | unmap hl =>
      rw [goto_self, Local.page?_enter] at hp
      exact Or.inl (hpage (by simpa [hl, Local.page?] using hp))
    | lose hl _ => exact Or.inl (.head (by simpa [Local.page?] using hp))
    | publish hl hh => exact Or.inr (by simp_all [Local.page?, Config.goto])
    | claim hl _ _ | overshoot hl _ _ | store hl _ | allocate hl _ =>
      exact Or.inl (hpage (by simpa [hl, Local.page?, Config.goto] using hp))
  · rw [h.other hj] at hp
    exact Or.inl (hc.page_listed j p hp)

/-- A call comes to own a page by mapping it, and stops owning it when it
publishes it. -/
theorem Stepped.owned (h : Stepped symbol c i d) (hc : Inv symbol c) {j : ι} {a : PageAddr}
    (ha : (d.calls j).owned? = some a) :
    (c.calls j).owned? = some a ∧ c.calls i ≠ .publishing c.head a ∨
      j = i ∧ c.pages a = none ∧ ∀ p, c.calls i ≠ .publishing p a := by
  by_cases hj : j = i
  · subst hj
    cases h with
    | load _ | unmap _ => simp at ha
    | claim _ _ _ | overshoot _ _ _ | store _ _ | publish _ _ =>
      simp [Local.owned?, Config.goto] at ha
    | allocate hl hp =>
      obtain rfl : _ = a := by simpa [Local.owned?] using ha
      exact Or.inr ⟨rfl, hp, fun p => by simp [hl]⟩
    | lose hl hh =>
      obtain rfl : _ = a := by simpa [Local.owned?] using ha
      exact Or.inl ⟨by simp [hl, Local.owned?], by simp [hl, Ne.symm hh]⟩
  · rw [h.other hj] at ha
    refine Or.inl ⟨ha, fun he => hj (hc.owned_inj j i a ha ?_)⟩
    simp [he, Local.owned?]

theorem Stepped.owned_off (h : Stepped symbol c i d) (hc : Inv symbol c) (j : ι) (a : PageAddr)
    (ha : (d.calls j).owned? = some a) : ¬ d.Listed a := by
  rw [h.listed hc]
  rcases h.owned hc ha with ⟨ha, hne⟩ | ⟨-, hp, hne⟩
  · exact not_or.mpr ⟨hc.owned_off j a ha, hne⟩
  · exact not_or.mpr ⟨hc.unmapped_off hp, hne _⟩

theorem Stepped.owned_inj (h : Stepped symbol c i d) (hc : Inv symbol c) (j k : ι) (a : PageAddr)
    (hj : (d.calls j).owned? = some a) (hk : (d.calls k).owned? = some a) : j = k := by
  rcases h.owned hc hj with ⟨hj, -⟩ | ⟨rfl, hp, -⟩ <;>
    rcases h.owned hc hk with ⟨hk, -⟩ | ⟨rfl, hp', -⟩
  · exact hc.owned_inj j k a hj hk
  · exact absurd hp' (hc.owned_mapped j a hj)
  · exact absurd hp (hc.owned_mapped k a hk)
  · rfl

/-- A page off the list stays as it is unless its owner unmaps it. -/
theorem Stepped.off_page (h : Stepped symbol c i d) (hc : Inv symbol c) {a : PageAddr}
    {pg : DlsymPage} (hp : c.pages a = some pg) (ha : ¬ c.Listed a)
    (hi : ∀ page, c.calls i ≠ .unmapping a page) : d.pages a = some pg := by
  have hne : ∀ p, (c.calls i).page? = some p → a ≠ p :=
    fun p hp he => ha (he ▸ hc.page_listed i p hp)
  cases h with
  | load _ | publish _ _ | lose _ _ => exact hp
  | @claim p _ hl _ _ | @overshoot p _ hl _ _ | @store p _ _ hl _ =>
    have : a ≠ p := hne p (by simp [hl, Local.page?])
    simpa [Config.goto, Config.setPage, this] using hp
  | @allocate page b _ hfree =>
    have : a ≠ b := fun he => by rw [he, hfree] at hp; cases hp
    simpa [this] using hp
  | @unmap b page hl =>
    have : a ≠ b := fun he => hi page (he ▸ hl)
    simpa [this] using hp

/-- **How a mapped page came about.**  It is fresh, or it was there before, with
no smaller a count and the same pointers but for the one the moving call stores. -/
theorem Stepped.page_from (h : Stepped symbol c i d) {p : PageAddr} {pg' : DlsymPage}
    (hp : d.pages p = some pg') :
    (c.pages p = none ∧ ∃ next, pg' = .fresh next) ∨
      ∃ pg, c.pages p = some pg ∧ pg.count ≤ pg'.count ∧
        ∀ idx, pg'.pointers idx =
          if c.calls i = .storing p idx then symbol i else pg.pointers idx := by
  have same (hl : ∀ idx, c.calls i ≠ .storing p idx) (hp : c.pages p = some pg') :
      ∃ pg, c.pages p = some pg ∧ pg.count ≤ pg'.count ∧
        ∀ idx, pg'.pointers idx =
          if c.calls i = .storing p idx then symbol i else pg.pointers idx :=
    ⟨pg', hp, Nat.le_refl _, fun idx => by simp [hl idx]⟩
  cases h with
  | load hl | publish hl _ | lose hl _ => exact Or.inr (same (by simp [hl]) hp)
  | @claim q pg hl hq _ | @overshoot q pg hl hq _ =>
    right
    by_cases hpq : p = q
    · subst hpq
      obtain rfl : _ = pg' := by simpa [Config.goto, Config.setPage] using hp
      exact ⟨pg, hq, Nat.le_succ _, fun idx => by simp [hl]⟩
    · exact same (by simp [hl]) (by simpa [Config.goto, Config.setPage, hpq] using hp)
  | @store q idx pg hl hq =>
    right
    by_cases hpq : p = q
    · subst hpq
      obtain rfl : _ = pg' := by simpa [Config.goto, Config.setPage] using hp
      refine ⟨pg, hq, Nat.le_refl _, fun k => ?_⟩
      by_cases hk : k = idx
      · subst hk; simp [hl]
      · simp [hl, hk, Ne.symm hk]
    · exact same (by simp [hl, Ne.symm hpq]) (by simpa [Config.goto, Config.setPage, hpq] using hp)
  | @allocate page b hl hfree =>
    by_cases hpb : p = b
    · subst hpb
      obtain rfl : _ = pg' := by simpa using hp
      exact Or.inl ⟨hfree, page, rfl⟩
    · exact Or.inr (same (by simp [hl]) (by simpa [hpb] using hp))
  | @unmap b page hl =>
    by_cases hpb : p = b
    · simp [hpb] at hp
    · exact Or.inr (same (by simp [hl]) (by simpa [hpb] using hp))

theorem Stepped.publishing_fresh (h : Stepped symbol c i d) (hc : Inv symbol c) (j : ι)
    (page : Option PageAddr) (a : PageAddr) (hj : d.calls j = .publishing page a) :
    d.pages a = some (.fresh page) := by
  by_cases hji : j = i
  · subst hji
    cases h with
    | load _ => cases hh : c.head <;> simp [hh, Local.enter] at hj
    | @unmap _ page _ => cases page <;> simp [Local.enter] at hj
    | claim _ _ _ | overshoot _ _ _ | store _ _ | publish _ _ | lose _ _ =>
      simp [Config.goto] at hj
    | allocate _ _ =>
      obtain ⟨rfl, rfl⟩ : _ = page ∧ _ = a := by simpa using hj
      simp
  · rw [h.other hji] at hj
    have ha : (c.calls j).owned? = some a := by simp [hj, Local.owned?]
    refine h.off_page hc (hc.publishing_fresh j page a hj) (hc.owned_off j a ha) fun q hq => ?_
    exact hji (hc.owned_inj j i a ha (by simp [hq, Local.owned?]))

theorem Stepped.owned_mapped (h : Stepped symbol c i d) (hc : Inv symbol c) (j : ι) (a : PageAddr)
    (ha : (d.calls j).owned? = some a) : d.pages a ≠ none := by
  by_cases hji : j = i
  · subst hji
    cases h with
    | load _ | unmap _ => simp at ha
    | claim _ _ _ | overshoot _ _ _ | store _ _ | publish _ _ =>
      simp [Local.owned?, Config.goto] at ha
    | allocate _ _ =>
      obtain rfl : _ = a := by simpa [Local.owned?] using ha
      simp
    | lose hl _ =>
      obtain rfl : _ = a := by simpa [Local.owned?] using ha
      exact hc.owned_mapped j _ (by simp [hl, Local.owned?])
  · rw [h.other hji] at ha
    obtain ⟨pg, hp⟩ := Option.ne_none_iff_exists'.mp (hc.owned_mapped j a ha)
    rw [h.off_page hc hp (hc.owned_off j a ha) fun q hq =>
      hji (hc.owned_inj j i a ha (by simp [hq, Local.owned?]))]
    simp

/-- The counter hands out one new slot at a time: the index it counts past. -/
theorem Stepped.slot (h : Stepped symbol c i d) {j : ι} {p : PageAddr} {idx : Nat}
    (hs : (d.calls j).slot? = some (p, idx)) :
    (c.calls j).slot? = some (p, idx) ∨
      j = i ∧ idx < numPointers ∧ ∃ pg pg', c.pages p = some pg ∧ d.pages p = some pg' ∧
        idx = pg.count ∧ pg'.count = pg.count + 1 := by
  by_cases hj : j = i
  · subst hj
    cases h with
    | load _ | unmap _ => simp at hs
    | overshoot _ _ _ | allocate _ _ | publish _ _ | lose _ _ =>
      simp [Local.slot?, Config.goto] at hs
    | @claim q pg hl hp hlt =>
      obtain ⟨rfl, rfl⟩ : q = p ∧ pg.count = idx := by simpa [Local.slot?] using hs
      exact Or.inr ⟨rfl, hlt, pg, { pg with count := pg.count + 1 }, hp, by simp, rfl, rfl⟩
    | store hl _ => exact Or.inl (by simpa [hl, Local.slot?, Config.goto] using hs)
  · rw [h.other hj] at hs
    exact Or.inl hs

theorem Stepped.slot_counted (h : Stepped symbol c i d) (hc : Inv symbol c) (j : ι) (p : PageAddr)
    (idx : Nat) (hs : (d.calls j).slot? = some (p, idx)) :
    idx < numPointers ∧ ∃ pg, d.pages p = some pg ∧ idx < pg.count := by
  rcases h.slot hs with hs | ⟨-, hlt, pg, pg', -, hp', rfl, hcount⟩
  · obtain ⟨hlt, pg, hp, hidx⟩ := hc.slot_counted j p idx hs
    have hlisted := h.listed_mono hc (hc.page_listed j p (Local.slot?_page? hs))
    obtain ⟨pg', hp'⟩ := h.listed_mapped hc p hlisted
    rcases h.page_from hp' with ⟨hnone, -⟩ | ⟨pg₀, hp₀, hle, -⟩
    · rw [hp] at hnone; cases hnone
    · rw [hp] at hp₀
      obtain rfl := Option.some.inj hp₀
      exact ⟨hlt, pg', hp', Nat.lt_of_lt_of_le hidx hle⟩
  · exact ⟨hlt, pg', hp', by omega⟩

theorem Stepped.slot_inj (h : Stepped symbol c i d) (hc : Inv symbol c) (j k : ι)
    (s : PageAddr × Nat) (hj : (d.calls j).slot? = some s) (hk : (d.calls k).slot? = some s) :
    j = k := by
  obtain ⟨p, idx⟩ := s
  -- a slot held before the step was counted then, so it is not the new one
  have old_new : ∀ {j : ι} {pg : DlsymPage}, (c.calls j).slot? = some (p, idx) →
      c.pages p = some pg → idx ≠ pg.count := by
    intro j pg hs hp
    obtain ⟨-, pg', hp', hlt⟩ := hc.slot_counted j p idx hs
    rw [hp] at hp'
    obtain rfl := Option.some.inj hp'
    omega
  rcases h.slot hj with hj | ⟨rfl, -, pg, -, hp, -, hidx, -⟩ <;>
    rcases h.slot hk with hk | ⟨rfl, -, pg', -, hp', -, hidx', -⟩
  · exact hc.slot_inj j k _ hj hk
  · exact absurd hidx' (old_new hj hp')
  · exact absurd hidx (old_new hk hp)
  · rfl

/-- A call that has just returned stored its symbol in this step. -/
theorem Stepped.returned (h : Stepped symbol c i d) {j : ι} {p : PageAddr} {idx : Nat} :
    d.calls j = .returned p idx ↔
      c.calls j = .returned p idx ∨ j = i ∧ c.calls j = .storing p idx := by
  by_cases hj : j = i
  · subst hj
    cases h with
    | load hl | unmap hl => simp [hl, Local.enter_ne_returned]
    | claim hl _ _ | overshoot hl _ _ | allocate hl _ | publish hl _ | lose hl _ | store hl _ =>
      simp [hl, Config.goto]
  · simp [h.other hj, hj]

theorem Stepped.stored (h : Stepped symbol c i d) (hc : Inv symbol c) (j : ι) (p : PageAddr)
    (idx : Nat) (pg : DlsymPage) (hj : d.calls j = .returned p idx) (hp : d.pages p = some pg) :
    pg.pointers idx = symbol j := by
  have hslot : (c.calls j).slot? = some (p, idx) := by
    rcases h.returned.mp hj with hj | ⟨-, hj⟩ <;> simp [hj, Local.slot?]
  rcases h.page_from hp with ⟨hnone, -⟩ | ⟨pg₀, hp₀, -, hptr⟩
  · obtain ⟨-, pg', hp', -⟩ := hc.slot_counted j p idx hslot
    rw [hnone] at hp'; cases hp'
  · rw [hptr idx]
    split
    · rename_i hi
      rw [hc.slot_inj j i (p, idx) hslot (by simp [hi, Local.slot?])]
    · rename_i hi
      rcases h.returned.mp hj with hj | ⟨rfl, hj⟩
      · exact hc.stored j p idx pg₀ hj hp₀
      · exact absurd hj hi

theorem Stepped.blank (h : Stepped symbol c i d) (hc : Inv symbol c) (p : PageAddr)
    (pg : DlsymPage) (idx : Nat) (hp : d.pages p = some pg)
    (hn : ∀ j, d.calls j ≠ .returned p idx) : pg.pointers idx = 0 := by
  rcases h.page_from hp with ⟨-, next, rfl⟩ | ⟨pg₀, hp₀, -, hptr⟩
  · rfl
  · rw [hptr idx, if_neg fun hi => hn i (h.returned.mpr (Or.inr ⟨rfl, hi⟩))]
    exact hc.blank p pg₀ idx hp₀ fun j hj => hn j (h.returned.mpr (Or.inl hj))

/-- A step adds to the history exactly the store it makes. -/
theorem Stepped.writes (h : Stepped symbol c i d) :
    (d.writes = c.writes ∧ ∀ p idx, c.calls i ≠ .storing p idx) ∨
      ∃ p idx, c.calls i = .storing p idx ∧ d.writes = ⟨i, p, idx⟩ :: c.writes := by
  cases h with
  | store hl _ => exact Or.inr ⟨_, _, hl, rfl⟩
  | load hl | unmap hl | claim hl _ _ | overshoot hl _ _ | allocate hl _ | publish hl _
  | lose hl _ => exact Or.inl ⟨rfl, by simp [hl]⟩

theorem Stepped.mem_writes (h : Stepped symbol c i d) (hc : Inv symbol c) (j : ι) (p : PageAddr)
    (idx : Nat) : ⟨j, p, idx⟩ ∈ d.writes ↔ d.calls j = .returned p idx := by
  rw [h.returned, ← hc.mem_writes]
  rcases h.writes with ⟨hw, hi⟩ | ⟨q, k, hi, hw⟩ <;> rw [hw]
  · have : ¬ (j = i ∧ c.calls j = .storing p idx) := fun ⟨hji, hs⟩ => hi p idx (hji ▸ hs)
    simp [this]
  · rw [List.mem_cons, or_comm]
    refine or_congr_right ⟨?_, ?_⟩
    · rintro ⟨⟩; exact ⟨rfl, hi⟩
    · rintro ⟨rfl, hs⟩
      obtain ⟨rfl, rfl⟩ := Local.storing.inj (hi.symm.trans hs)
      rfl

theorem Stepped.writes_nodup (h : Stepped symbol c i d) (hc : Inv symbol c) : d.writes.Nodup := by
  rcases h.writes with ⟨hw, -⟩ | ⟨p, idx, hi, hw⟩ <;> rw [hw]
  · exact hc.writes_nodup
  · refine List.nodup_cons.mpr ⟨fun hm => ?_, hc.writes_nodup⟩
    rw [hc.mem_writes, hi] at hm
    cases hm

/-- **Every step keeps the invariant.** -/
theorem Stepped.inv (h : Stepped symbol c i d) (hc : Inv symbol c) : Inv symbol d where
  listed_mapped := h.listed_mapped hc
  page_listed := h.page_listed hc
  owned_off := h.owned_off hc
  owned_inj := h.owned_inj hc
  publishing_fresh := h.publishing_fresh hc
  owned_mapped := h.owned_mapped hc
  slot_counted := h.slot_counted hc
  slot_inj := h.slot_inj hc
  stored := h.stored hc
  blank := h.blank hc
  mem_writes := h.mem_writes hc
  writes_nodup := h.writes_nodup hc

end Step

omit [DecidableEq ι] in
theorem inv_initial (symbol : ι → UInt64) : Inv symbol initial where
  listed_mapped := by
    intro p hp
    induction hp with
    | head hp => cases hp
    | next _ _ ih => obtain ⟨pg, hpg⟩ := ih; cases hpg
  page_listed := by simp [initial, Local.page?]
  owned_off := by simp [initial, Local.owned?]
  owned_inj := by simp [initial, Local.owned?]
  publishing_fresh := by simp [initial]
  owned_mapped := by simp [initial, Local.owned?]
  slot_counted := by simp [initial, Local.slot?]
  slot_inj := by simp [initial, Local.slot?]
  stored := by simp [initial]
  blank := by simp [initial]
  mem_writes := by simp [initial]
  writes_nodup := List.nodup_nil

theorem inv_step {symbol : ι → UInt64} (c : Config ι) (e : Event ι) (d : Config ι)
    (hc : Inv symbol c) (h : (machine symbol).step c e = some d) : Inv symbol d :=
  (stepped_of_step h).inv hc

theorem reachable_inv {symbol : ι → UInt64} {c : Config ι} (h : (machine symbol).Reachable c) :
    Inv symbol c :=
  h.invariant (inv_initial symbol) inv_step

/-! ## Nothing is lost -/

/-- Slot `idx` of page `p` is one the readers of the list look at. -/
def Config.Visible (c : Config ι) (p : PageAddr) (idx : Nat) : Prop :=
  c.Listed p ∧ ∃ pg, c.pages p = some pg ∧ idx < min pg.count numPointers

/-- A call that is about to count a page up or to store into it finds it mapped, so
the only step that can be refused is an allocation at an address in use. -/
theorem step_enabled {symbol : ι → UInt64} {c : Config ι} (h : (machine symbol).Reachable c)
    {i : ι} (hr : ∀ p idx, c.calls i ≠ .returned p idx) {a : PageAddr} (ha : c.pages a = none) :
    ∃ d, step symbol c ⟨i, a⟩ = some d := by
  have hc := reachable_inv h
  have mapped : ∀ p, (c.calls i).page? = some p → ∃ pg, c.pages p = some pg :=
    fun p hp => hc.listed_mapped p (hc.page_listed i p hp)
  cases hl : c.calls i with
  | loading | unmapping _ _ => simp [step, hl]
  | claiming p =>
    obtain ⟨pg, hp⟩ := mapped p (by simp [hl, Local.page?])
    by_cases hlt : pg.count < numPointers <;> simp [step, hl, hp, hlt]
  | storing p idx =>
    obtain ⟨pg, hp⟩ := mapped p (by simp [hl, Local.page?])
    simp [step, hl, hp]
  | allocating page => simp [step, hl, ha]
  | publishing page b => by_cases hh : c.head = page <;> simp [step, hl, hh]
  | returned p idx => exact absurd hl (hr p idx)

/-- **The lock-free page list loses nothing.**  In every state an interleaving of
any number of calls reaches: no two stores went to one slot; whatever a run does
next, the listed pages stay listed; every finished call made exactly one store, and
the slot it made it to is visible and holds its symbol; and every slot that is not
null was stored by a call, and holds that call's symbol. -/
theorem dlsymPageInsert_loses_nothing (symbol : ι → UInt64) (c : Config ι)
    (h : (machine symbol).Reachable c) :
    (c.writes.Nodup ∧ ∀ w ∈ c.writes, ∀ w' ∈ c.writes,
      w.page = w'.page → w.idx = w'.idx → w = w') ∧
    (∀ es d, (machine symbol).run c es = some d → ∀ p, c.Listed p → d.Listed p) ∧
    (∀ i p idx, c.calls i = .returned p idx →
      c.Visible p idx ∧ (∀ q k, ⟨i, q, k⟩ ∈ c.writes ↔ q = p ∧ k = idx) ∧
        ∀ pg, c.pages p = some pg → pg.pointers idx = symbol i) ∧
    (∀ w ∈ c.writes, c.calls w.call = .returned w.page w.idx) ∧
    (∀ p pg idx, c.pages p = some pg → pg.pointers idx ≠ 0 →
      ∃ i, ⟨i, p, idx⟩ ∈ c.writes ∧ pg.pointers idx = symbol i) := by
  have hc := reachable_inv h
  have hret : ∀ w ∈ c.writes, c.calls w.call = .returned w.page w.idx :=
    fun w hw => (hc.mem_writes _ _ _).mp hw
  refine ⟨⟨hc.writes_nodup, ?_⟩, ?_, ?_, hret, ?_⟩
  · rintro ⟨i, p, idx⟩ hw ⟨j, q, k⟩ hw' hpage hidx
    obtain rfl : p = q := hpage
    obtain rfl : idx = k := hidx
    obtain rfl : i = j := hc.slot_inj i j (p, idx) (by simp [hret _ hw, Local.slot?])
      (by simp [hret _ hw', Local.slot?])
    rfl
  · intro es d hrun p hp
    exact Machine.stable_run (M := machine symbol) (P := fun c => c.Listed p) inv_step
      (fun _ _ _ hs hp hst => (stepped_of_step hst).listed_mono hs hp) hc hp hrun
  · intro i p idx hi
    have hslot : (c.calls i).slot? = some (p, idx) := by simp [hi, Local.slot?]
    obtain ⟨hlt, pg, hp, hcount⟩ := hc.slot_counted i p idx hslot
    refine ⟨⟨hc.page_listed i p (Local.slot?_page? hslot), pg, hp, lt_min hcount hlt⟩, ?_,
      fun pg hpg => hc.stored i p idx pg hi hpg⟩
    intro q k
    rw [hc.mem_writes, hi, Local.returned.injEq, eq_comm, eq_comm (a := idx)]
  · intro p pg idx hp hne
    have : ∃ i, c.calls i = .returned p idx := by
      by_contra hn
      exact hne (hc.blank p pg idx hp (not_exists.mp hn))
    obtain ⟨i, hi⟩ := this
    exact ⟨i, (hc.mem_writes i p idx).mpr hi, hc.stored i p idx pg hi hp⟩

/-- Two calls find no page, both map one, and the second loses the race, unmaps its
page and stores into the first call's. -/
def raceEvents : List (Event Bool) :=
  [⟨false, 0⟩, ⟨true, 0⟩, ⟨false, 1⟩, ⟨true, 2⟩, ⟨false, 0⟩, ⟨true, 0⟩, ⟨false, 0⟩, ⟨true, 0⟩,
    ⟨true, 0⟩, ⟨true, 0⟩, ⟨false, 0⟩]

/-- The symbols of the two calls of `raceEvents`. -/
def raceSymbol (i : Bool) : UInt64 := if i then 11 else 22

/-- After the race both symbols are in visible slots of the page that won. -/
theorem dlsymPageInsert_race :
    ∃ c, (machine raceSymbol).Reachable c ∧ c.Visible 1 0 ∧ c.Visible 1 1 ∧
      ∀ pg, c.pages 1 = some pg → pg.pointers 0 = 22 ∧ pg.pointers 1 = 11 := by
  have hsome : ((machine raceSymbol).run initial raceEvents).isSome := by decide
  obtain ⟨c, hrun⟩ := Option.isSome_iff_exists.mp hsome
  have hcalls : ((machine raceSymbol).run initial raceEvents).map (fun c =>
      (c.calls false, c.calls true)) = some (.returned 1 0, .returned 1 1) := by decide
  rw [hrun, Option.map_some, Option.some.injEq, Prod.mk.injEq] at hcalls
  have hreach : (machine raceSymbol).Reachable c := ⟨raceEvents, hrun⟩
  obtain ⟨-, -, hret, -⟩ := dlsymPageInsert_loses_nothing raceSymbol c hreach
  obtain ⟨hv, -, hptr⟩ := hret false 1 0 hcalls.1
  obtain ⟨hv', -, hptr'⟩ := hret true 1 1 hcalls.2
  exact ⟨c, hreach, hv, hv', fun pg hp => ⟨hptr pg hp, hptr' pg hp⟩⟩

end Bracelet.DlsymRuntime
