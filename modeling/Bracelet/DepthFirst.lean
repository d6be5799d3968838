import Mathlib.Tactic
import Mathlib.Logic.Relation
import Mathlib.Data.Finset.Card

/-!
# Depth-first search

A search that marks a node when it enters it and calls back when it leaves it.  It calls back once
for every node that can be reached (`search_spec`), and the node is then behind those of its
neighbours that do not lie on the first path to it: the path that a search takes which turns back
only where the node cannot be reached any more (`FirstPath`).
-/
namespace Bracelet.DepthFirst

variable {τ : Type*}

/-! ## Paths -/

/-- An edge to a node that is not to be avoided. -/
def Step (next : τ → List τ) (avoid : List τ) (x y : τ) : Prop := y ∈ next x ∧ y ∉ avoid

/-- There is a path that avoids some nodes. -/
def Reaches (next : τ → List τ) (avoid : List τ) (x y : τ) : Prop :=
  x ∉ avoid ∧ Relation.ReflTransGen (Step next avoid) x y

/-- **The first path to a node** from one of some nodes: it takes the first of them from which the
node can be reached without coming back to the path behind. -/
inductive FirstPath (next : τ → List τ) : List τ → List τ → τ → List τ → Prop
  | here (behind : List τ) (x : τ) (others : List τ) (hx : x ∉ behind) :
    FirstPath next behind (x :: others) x [x]
  | deeper (behind : List τ) (c : τ) (others : List τ) (x : τ) (path : List τ) (hc : c ∉ behind)
    (h : FirstPath next (c :: behind) (next c) x path) :
    FirstPath next behind (c :: others) x (c :: path)
  | later (behind : List τ) (c : τ) (others : List τ) (x : τ) (path : List τ)
    (hc : ¬ Reaches next behind c x) (h : FirstPath next behind others x path) :
    FirstPath next behind (c :: others) x path

namespace FirstPath
variable {next : τ → List τ} {behind starts : List τ} {x : τ} {path path' : List τ}

theorem not_mem_behind (h : FirstPath next behind starts x path) : x ∉ behind := by
  induction h with
  | here behind x others hx => exact hx
  | deeper behind c others x path hc h ih => exact fun hx => ih (List.mem_cons_of_mem _ hx)
  | later behind c others x path hc h ih => exact ih

/-- The node can be reached from one of the starts. -/
theorem exists_reaches (h : FirstPath next behind starts x path) :
    ∃ c ∈ starts, Reaches next behind c x := by
  induction h with
  | here behind x others hx => exact ⟨x, List.mem_cons_self, hx, .refl⟩
  | deeper behind c others x path hc h ih =>
    obtain ⟨d, hd, hbehind, hreach⟩ := ih
    refine ⟨c, List.mem_cons_self, hc, ?_⟩
    have hmono : ∀ y z, Step next (c :: behind) y z → Step next behind y z :=
      fun y z hstep => ⟨hstep.1, fun hz => hstep.2 (List.mem_cons_of_mem _ hz)⟩
    refine .head ⟨hd, fun hmem => hbehind (List.mem_cons_of_mem _ hmem)⟩ ?_
    exact Relation.ReflTransGen.mono hmono _ _ hreach
  | later behind c others x path hc h ih =>
    obtain ⟨d, hd, hreach⟩ := ih
    exact ⟨d, List.mem_cons_of_mem _ hd, hreach⟩

theorem reaches_of_deeper {c : τ} (hc : c ∉ behind)
    (h : FirstPath next (c :: behind) (next c) x path) : Reaches next behind c x := by
  obtain ⟨d, hd, hreach⟩ := (deeper behind c [] x path hc h).exists_reaches
  rw [List.mem_singleton.mp hd] at hreach
  exact hreach

/-- There is only one first path. -/
theorem unique (h : FirstPath next behind starts x path)
    (h' : FirstPath next behind starts x path') : path = path' := by
  induction h generalizing path' with
  | here behind x others hx =>
    cases h' with
    | here => rfl
    | deeper _ _ _ _ path hc h => exact absurd List.mem_cons_self h.not_mem_behind
    | later _ _ _ _ _ hc h => exact absurd ⟨hx, .refl⟩ hc
  | deeper behind c others x path hc h ih =>
    cases h' with
    | here => exact absurd List.mem_cons_self h.not_mem_behind
    | deeper _ _ _ _ path' hc' h' => rw [ih h']
    | later _ _ _ _ _ hc' h' => exact absurd (reaches_of_deeper hc h) hc'
  | later behind c others x path hc h ih =>
    cases h' with
    | here _ _ _ hx => exact absurd ⟨hx, .refl⟩ hc
    | deeper _ _ _ _ path' hc' h' => exact absurd (reaches_of_deeper hc' h') hc
    | later _ _ _ _ _ hc' h' => exact ih h'

/-- More starts behind do not matter. -/
theorem append_starts (others : List τ) (h : FirstPath next behind starts x path) :
    FirstPath next behind (starts ++ others) x path := by
  induction h with
  | here behind x rest hx => exact here behind x _ hx
  | deeper behind c rest x path hc h ih => exact deeper behind c _ x path hc h
  | later behind c rest x path hc h ih => exact later behind c _ x path hc ih

end FirstPath

/-! ## The search -/

/-- The nodes that have been marked, and those that have been called back for, in order. -/
structure State (τ : Type*) where
  visited : List τ
  called : List τ

section
variable [DecidableEq τ] (next : τ → List τ)

def visit : Nat → State τ → τ → Option (State τ)
  | 0, _, _ => none
  | fuel + 1, s, x =>
    if x ∈ s.visited then some s
    else do
      let s ← (next x).foldlM (visit fuel) { s with visited := x :: s.visited }
      return { s with called := s.called ++ [x] }

/-- The order of the callbacks of a search from some nodes. -/
def search (fuel : Nat) (roots : List τ) : Option (List τ) :=
  (roots.foldlM (visit next fuel) ⟨[], []⟩).map State.called

end

/-! ## What a search keeps -/

/-- **The nodes that are marked** have been called back for or lie on the path behind, and no
neighbour of the former is missing. -/
structure Inv (next : τ → List τ) (behind : List τ) (s : State τ) : Prop where
  visited : ∀ x, x ∈ s.visited ↔ x ∈ s.called ∨ x ∈ behind
  disjoint : ∀ x ∈ s.called, x ∉ behind
  nodup : s.called.Nodup
  closed : ∀ x ∈ s.called, ∀ y ∈ next x, y ∈ s.visited

/-- A node that is entered goes on the path behind. -/
theorem Inv.enter {next : τ → List τ} {behind : List τ} {s : State τ} (hs : Inv next behind s)
    {x : τ}
    (hx : x ∉ s.visited) :
    Inv next (x :: behind) { s with visited := x :: s.visited } where
  visited y := by
    simp only [List.mem_cons, hs.visited]
    tauto
  disjoint y hy hmem := by
    rcases List.mem_cons.mp hmem with rfl | hmem
    · exact hx ((hs.visited _).mpr (Or.inl hy))
    · exact hs.disjoint y hy hmem
  nodup := hs.nodup
  closed y hy z hz := List.mem_cons_of_mem _ (hs.closed y hy z hz)

/-- A node that is left has been called back for. -/
theorem Inv.leave {next : τ → List τ} {behind : List τ} {s : State τ} {x : τ}
    (hs : Inv next (x :: behind) s)
    (hx : x ∉ behind) (hnext : ∀ y ∈ next x, y ∈ s.visited) :
    Inv next behind { s with called := s.called ++ [x] } where
  visited y := by
    simp only [hs.visited, List.mem_append, List.mem_cons, List.not_mem_nil, or_false]
    tauto
  disjoint y hy hmem := by
    rcases List.mem_append.mp hy with hy | hy
    · exact hs.disjoint y hy (List.mem_cons_of_mem _ hmem)
    · rw [List.mem_singleton.mp hy] at hmem
      exact hx hmem
  nodup := by
    refine List.nodup_append.mpr ⟨hs.nodup, List.nodup_singleton x, fun y hy z hz hyz => ?_⟩
    rw [List.mem_singleton.mp hz] at hyz
    exact hs.disjoint y hy (hyz ▸ List.mem_cons_self)
  closed y hy z hz := by
    rcases List.mem_append.mp hy with hy | hy
    · exact hs.closed y hy z hz
    · rw [List.mem_singleton.mp hy] at hz
      exact hnext z hz

/-- From a node that has been called back for, only such nodes are reached. -/
theorem Inv.called_of_reaches {next : τ → List τ} {behind : List τ} {s : State τ}
    (hs : Inv next behind s) {c x : τ} (hc : c ∈ s.called) (h : Reaches next behind c x) :
    x ∈ s.called := by
  obtain ⟨-, h⟩ := h
  induction h with
  | refl => exact hc
  | tail _ hstep ih =>
    exact ((hs.visited _).mp (hs.closed _ ih _ hstep.1)).resolve_right hstep.2

/-- When the search calls back for a node, with a path behind it: its neighbours have been called
back for, but for those on the path. -/
def CalledAt (next : τ → List τ) (behind called : List τ) (x : τ) (path : List τ) : Prop :=
  ∃ before after, called = before ++ x :: after ∧
    (∀ y ∈ next x, y ∈ before ∨ y ∈ behind ∨ y ∈ path) ∧
    ∀ y ∈ before, y ∉ behind ∧ y ∉ path

theorem CalledAt.append {next : τ → List τ} {behind called : List τ} {x : τ} {path : List τ}
    (h : CalledAt next behind called x path) (more : List τ) :
    CalledAt next behind (called ++ more) x path := by
  obtain ⟨before, after, rfl, hnext, hbefore⟩ := h
  exact ⟨before, after ++ more, by simp, hnext, hbefore⟩

/-- One node of the path is behind. -/
theorem CalledAt.deeper {next : τ → List τ} {behind called : List τ} {c x : τ} {path : List τ}
    (h : CalledAt next (c :: behind) called x path) :
    CalledAt next behind called x (c :: path) := by
  obtain ⟨before, after, heq, hnext, hbefore⟩ := h
  refine ⟨before, after, heq, fun y hy => ?_, fun y hy => ?_⟩
  · rcases hnext y hy with h | h | h
    · exact Or.inl h
    · exact (List.mem_cons.mp h).elim (fun h => Or.inr (Or.inr (h ▸ List.mem_cons_self)))
        fun h => Or.inr (Or.inl h)
    · exact Or.inr (Or.inr (List.mem_cons_of_mem _ h))
  · obtain ⟨hbehind, hpath⟩ := hbefore y hy
    rw [List.mem_cons, not_or] at hbehind
    exact ⟨hbehind.2, fun h => (List.mem_cons.mp h).elim hbehind.1 hpath⟩

/-- **What a part of the search does**: it marks its starts, and calls back for nodes each with
the first path behind it. -/
structure Searched (next : τ → List τ) (behind starts : List τ) (s s' : State τ) : Prop where
  inv : Inv next behind s'
  marked : ∀ c ∈ starts, c ∈ s'.visited
  grows : s.visited ⊆ s'.visited
  called : ∃ new, s'.called = s.called ++ new ∧
    ∀ x ∈ new, ∃ path, FirstPath next behind starts x path ∧ CalledAt next behind s'.called x path

/-- A search from one start and then from the others. -/
theorem Searched.cons {next : τ → List τ} {behind : List τ} {c : τ} {others : List τ}
    {s s₁ s' : State τ} (h : Searched next behind [c] s s₁)
    (h' : Searched next behind others s₁ s') : Searched next behind (c :: others) s s' where
  inv := h'.inv
  marked := by
    refine List.forall_mem_cons.mpr ⟨?_, h'.marked⟩
    exact h'.grows (h.marked c List.mem_cons_self)
  grows := List.Subset.trans h.grows h'.grows
  called := by
    obtain ⟨new, hnew, hfirst⟩ := h.called
    obtain ⟨new', hnew', hfirst'⟩ := h'.called
    refine ⟨new ++ new', by rw [hnew', hnew, List.append_assoc], fun x hx => ?_⟩
    rcases List.mem_append.mp hx with hx | hx
    · obtain ⟨path, hpath, hcalled⟩ := hfirst x hx
      refine ⟨path, hpath.append_starts others, ?_⟩
      rw [hnew']
      exact hcalled.append new'
    · obtain ⟨path, hpath, hcalled⟩ := hfirst' x hx
      refine ⟨path, .later behind c others x path (fun hreach => ?_) hpath, hcalled⟩
      -- What the start reaches has been called back for before.
      have hc : c ∈ s₁.called :=
        ((h.inv.visited c).mp (h.marked c List.mem_cons_self)).resolve_right hreach.1
      have hx' := h.inv.called_of_reaches hc hreach
      have hnodup := h'.inv.nodup
      rw [hnew'] at hnodup
      exact (List.nodup_append.mp hnodup).2.2 x hx' x hx rfl

theorem loop_grows {step : State τ → τ → Option (State τ)}
    (hstep : ∀ s x s', step s x = some s' → s.visited ⊆ s'.visited) {l : List τ} {s s' : State τ}
    (h : l.foldlM step s = some s') : s.visited ⊆ s'.visited := by
  induction l generalizing s with
  | nil =>
    obtain rfl := Option.some_inj.mp h
    exact List.Subset.refl _
  | cons c l ih =>
    rw [List.foldlM_cons] at h
    obtain ⟨s₁, h₁, h⟩ := Option.bind_eq_some_iff.mp h
    exact List.Subset.trans (hstep s c s₁ h₁) (ih h)

section
variable [DecidableEq τ] {next : τ → List τ}

theorem visit_loop {fuel : Nat}
    (hvisit : ∀ behind s x s', Inv next behind s → visit next fuel s x = some s' →
      Searched next behind [x] s s')
    {behind : List τ} {starts : List τ} {s s' : State τ} (hs : Inv next behind s)
    (h : starts.foldlM (visit next fuel) s = some s') : Searched next behind starts s s' := by
  induction starts generalizing s with
  | nil =>
    obtain rfl := Option.some_inj.mp h
    exact ⟨hs, by simp, List.Subset.refl _, [], by simp, by simp⟩
  | cons c others ih =>
    rw [List.foldlM_cons] at h
    obtain ⟨s₁, h₁, h⟩ := Option.bind_eq_some_iff.mp h
    have hc := hvisit behind s c s₁ hs h₁
    exact hc.cons (ih hc.inv h)

/-- **A visit** searches from the node. -/
theorem visit_searched (fuel : Nat) {behind : List τ} {s s' : State τ} {x : τ}
    (hs : Inv next behind s) (h : visit next fuel s x = some s') :
    Searched next behind [x] s s' := by
  induction fuel generalizing behind s x s' with
  | zero => cases h
  | succ fuel ih =>
    rw [visit] at h
    split_ifs at h with hx
    · obtain rfl := Option.some_inj.mp h
      exact ⟨hs, by simpa using hx, List.Subset.refl _, [], by simp, by simp⟩
    · obtain ⟨s₁, h₁, h⟩ := Option.bind_eq_some_iff.mp h
      obtain rfl := Option.some_inj.mp h
      have hbehind : x ∉ behind := fun hmem => hx ((hs.visited x).mpr (Or.inr hmem))
      have hloop := visit_loop (fun _ _ _ _ => ih) (hs.enter hx) h₁
      obtain ⟨new, hnew, hfirst⟩ := hloop.called
      refine ⟨hloop.inv.leave hbehind hloop.marked, ?_, ?_, new ++ [x], ?_, ?_⟩
      · rw [List.forall_mem_singleton]
        exact hloop.grows List.mem_cons_self
      · exact List.Subset.trans (List.subset_cons_self x s.visited) hloop.grows
      · rw [hnew, List.append_assoc]
      · intro y hy
        rcases List.mem_append.mp hy with hy | hy
        · obtain ⟨path, hpath, hcalled⟩ := hfirst y hy
          exact ⟨x :: path, .deeper behind x [] y path hbehind hpath,
            (hcalled.append [x]).deeper⟩
        · obtain rfl := List.mem_singleton.mp hy
          refine ⟨[y], .here behind y [] hbehind, s₁.called, [], rfl, fun z hz => ?_, fun z hz => ?_⟩
          · rcases (hloop.inv.visited z).mp (hloop.marked z hz) with h | h
            · exact Or.inl h
            · exact (List.mem_cons.mp h).elim (fun h => Or.inr (Or.inr (h ▸ List.mem_cons_self)))
                fun h => Or.inr (Or.inl h)
          · have hz' := hloop.inv.disjoint z hz
            rw [List.mem_cons, not_or] at hz'
            exact ⟨hz'.2, by simpa using hz'.1⟩

/-! ## The whole search -/

theorem visit_grows {fuel : Nat} {s s' : State τ} {x : τ} (h : visit next fuel s x = some s') :
    s.visited ⊆ s'.visited := by
  induction fuel generalizing s x s' with
  | zero => cases h
  | succ fuel ih =>
    rw [visit] at h
    split_ifs at h
    · obtain rfl := Option.some_inj.mp h
      exact List.Subset.refl _
    · obtain ⟨s₁, h₁, h⟩ := Option.bind_eq_some_iff.mp h
      obtain rfl := Option.some_inj.mp h
      have hloop := loop_grows (fun _ _ _ => ih) h₁
      exact List.Subset.trans (List.subset_cons_self x s.visited) hloop

/-- The nodes that are not marked. -/
def unmarked (nodes : Finset τ) (s : State τ) : Finset τ := nodes.filter fun x => x ∉ s.visited

theorem unmarked_subset {nodes : Finset τ} {s s' : State τ} (h : s.visited ⊆ s'.visited) :
    unmarked nodes s' ⊆ unmarked nodes s :=
  Finset.monotone_filter_right nodes fun _ _ hx hmem => hx (h hmem)

theorem loop_isSome {nodes : Finset τ} {fuel : Nat}
    (hvisit : ∀ s, ∀ x ∈ nodes, (unmarked nodes s).card < fuel → ∃ s', visit next fuel s x = some s')
    {l : List τ} (hl : ∀ x ∈ l, x ∈ nodes) {s : State τ} (hs : (unmarked nodes s).card < fuel) :
    ∃ s', l.foldlM (visit next fuel) s = some s' := by
  induction l generalizing s with
  | nil => exact ⟨s, rfl⟩
  | cons c l ih =>
    obtain ⟨hc, hl⟩ := List.forall_mem_cons.mp hl
    obtain ⟨s₁, h₁⟩ := hvisit s c hc hs
    have hfewer := Finset.card_le_card (@unmarked_subset _ _ nodes _ _ (visit_grows h₁))
    obtain ⟨s₂, h₂⟩ := @ih hl s₁ (by omega)
    exact ⟨s₂, by rw [List.foldlM_cons, h₁]; exact h₂⟩

/-- The search from nodes that have not been marked goes no deeper than there are such nodes. -/
theorem visit_isSome {nodes : Finset τ} (hclosed : ∀ x ∈ nodes, ∀ y ∈ next x, y ∈ nodes)
    {fuel : Nat} {s : State τ} {x : τ} (hx : x ∈ nodes) (hfuel : (unmarked nodes s).card < fuel) :
    ∃ s', visit next fuel s x = some s' := by
  induction fuel generalizing s x with
  | zero => exact absurd hfuel (Nat.not_lt_zero _)
  | succ fuel ih =>
    rw [visit]
    split_ifs with hmem
    · exact ⟨s, rfl⟩
    · have hfewer : (unmarked nodes { s with visited := x :: s.visited }).card < fuel := by
        have hlt : unmarked nodes { s with visited := x :: s.visited } ⊂ unmarked nodes s := by
          refine (Finset.ssubset_iff_of_subset
            (unmarked_subset (List.subset_cons_self x s.visited))).mpr ⟨x, ?_, ?_⟩
          · exact Finset.mem_filter.mpr ⟨hx, hmem⟩
          · exact fun h => (Finset.mem_filter.mp h).2 List.mem_cons_self
        have hcard := Finset.card_lt_card hlt
        omega
      obtain ⟨s₁, h₁⟩ := loop_isSome (fun s y => ih) (hclosed x hx) hfewer
      exact ⟨_, by rw [h₁]; rfl⟩

/-- One node is called back for before another one. -/
def Before (called : List τ) (y x : τ) : Prop :=
  ∃ before after, called = before ++ x :: after ∧ y ∈ before

theorem before_unique {before after before' after' : List τ} {x : τ}
    (hnodup : (before ++ x :: after).Nodup)
    (h : before ++ x :: after = before' ++ x :: after') : before = before' := by
  have hlength : ∀ {b a : List τ}, (b ++ x :: a).Nodup → (b ++ x :: a).idxOf x = b.length := by
    intro b a hnodup
    have hx : x ∉ b := fun hmem => (List.nodup_append.mp hnodup).2.2 x hmem x List.mem_cons_self rfl
    rw [List.idxOf_append_of_notMem hx, List.idxOf_cons_self, Nat.add_zero]
  have hb := hlength hnodup
  rw [h] at hb hnodup
  exact List.append_inj_left h (hb.symm.trans (hlength hnodup))

/-- The neighbours of a node are called back for before it, but for those on the path to it. -/
theorem CalledAt.before_iff {called path : List τ} {x : τ} (hnodup : called.Nodup)
    (h : CalledAt next [] called x path) {y : τ} (hy : y ∈ next x) :
    Before called y x ↔ y ∉ path := by
  obtain ⟨before, after, rfl, hnext, hbefore⟩ := h
  constructor
  · rintro ⟨before', after', heq, hmem⟩
    rw [← before_unique hnodup heq] at hmem
    exact (hbefore y hmem).2
  · intro hpath
    have hmem := (hnext y hy).resolve_right fun h => h.elim (List.not_mem_nil) hpath
    exact ⟨before, after, rfl, hmem⟩

/-- **What a search finds**: every node that can be reached, once, and each behind its neighbours
that do not lie on the first path to it. -/
theorem search_spec {nodes : Finset τ} (hclosed : ∀ x ∈ nodes, ∀ y ∈ next x, y ∈ nodes)
    {roots : List τ} (hroots : ∀ x ∈ roots, x ∈ nodes) :
    ∃ called, search next (nodes.card + 1) roots = some called ∧ called.Nodup ∧
      (∀ x, x ∈ called ↔ ∃ r ∈ roots, Relation.ReflTransGen (fun x y => y ∈ next x) r x) ∧
      ∀ x ∈ called, ∃ path, FirstPath next [] roots x path ∧
        ∀ y ∈ next x, Before called y x ↔ y ∉ path := by
  have hfuel : (unmarked nodes ⟨[], []⟩).card < nodes.card + 1 :=
    Nat.lt_succ_of_le (Finset.card_filter_le ..)
  obtain ⟨s, hs⟩ := loop_isSome (fun s x hx => visit_isSome hclosed hx) hroots hfuel
  have hstart : Inv next [] (⟨[], []⟩ : State τ) := ⟨by simp, by simp, List.nodup_nil, by simp⟩
  have hsearched := visit_loop (fun _ _ _ _ => visit_searched _) hstart hs
  obtain ⟨new, hnew, hfirst⟩ := hsearched.called
  rw [List.nil_append] at hnew
  have hvisited : ∀ x, x ∈ s.visited ↔ x ∈ s.called := by simp [hsearched.inv.visited]
  refine ⟨s.called, by rw [search, hs]; rfl, hsearched.inv.nodup, fun x => ?_, fun x hx => ?_⟩
  · constructor
    · intro hx
      obtain ⟨path, hpath, -⟩ := hfirst x (hnew ▸ hx)
      obtain ⟨r, hr, -, hreach⟩ := hpath.exists_reaches
      exact ⟨r, hr, Relation.ReflTransGen.mono (fun _ _ h => h.1) _ _ hreach⟩
    · rintro ⟨r, hr, hreach⟩
      have hcalled := (hvisited r).mp (hsearched.marked r hr)
      refine hsearched.inv.called_of_reaches hcalled ⟨List.not_mem_nil, ?_⟩
      exact Relation.ReflTransGen.mono (fun _ _ h => ⟨h, List.not_mem_nil⟩) _ _ hreach
  · obtain ⟨path, hpath, hcalled⟩ := hfirst x (hnew ▸ hx)
    exact ⟨path, hpath, fun y hy => hcalled.before_iff hsearched.inv.nodup hy⟩

end

end Bracelet.DepthFirst
