import Mathlib.Tactic

/-!
# Substitution of words

`substitute` goes through a text and puts words in the place of others.  For words that cannot
overlap it is a map of the pieces of the text (`substitute_render`): words of one length whose second
letter has no other place in them (`Marked`), in a text where it does not follow one (`Delimited`).
Single replacements one after the other then make of each word what they make of it alone, so they
are the substitution at once exactly when they are for the words that occur (`successive_iff`).
-/
namespace Bracelet.Substitution

variable {α κ : Type}

section
variable [DecidableEq α]

/-- The substitution, from left to right, with letters to be skipped first. -/
def substituteFrom (pairs : List (List α × List α)) : Nat → List α → List α
  | _, [] => []
  | skip + 1, _ :: text => substituteFrom pairs skip text
  | 0, c :: text =>
    match pairs.find? fun pair => pair.1.isPrefixOf (c :: text) with
    | some pair => pair.2 ++ substituteFrom pairs (pair.1.length - 1) text
    | none => c :: substituteFrom pairs 0 text

/-- The text with the second word of a pair wherever the first one was. -/
def substitute (pairs : List (List α × List α)) (text : List α) : List α :=
  substituteFrom pairs 0 text

/-- One word for another that is not empty. -/
def replace (old new text : List α) : List α := substitute [(old, new)] text

/-- Letters come from the text or from new words. -/
theorem mem_substituteFrom {pairs : List (List α × List α)} {skip : Nat} {text : List α} {c : α}
    (h : c ∈ substituteFrom pairs skip text) : c ∈ text ∨ ∃ pair ∈ pairs, c ∈ pair.2 := by
  induction skip, text using substituteFrom.induct pairs with
  | case1 => cases h
  | case2 _ skip text ih =>
    rw [substituteFrom] at h
    exact (ih h).imp_left (List.mem_cons_of_mem _)
  | case3 d text pair hfind ih =>
    rw [substituteFrom, hfind, List.mem_append] at h
    rcases h with h | h
    · exact .inr ⟨pair, List.mem_of_find?_eq_some hfind, h⟩
    · exact (ih h).imp_left (List.mem_cons_of_mem _)
  | case4 d text hfind ih =>
    rw [substituteFrom, hfind, List.mem_cons] at h
    rcases h with rfl | h
    · exact .inl List.mem_cons_self
    · exact (ih h).imp_left (List.mem_cons_of_mem _)

theorem substituteFrom_skip (pairs : List (List α × List α)) (u rest : List α) :
    substituteFrom pairs u.length (u ++ rest) = substituteFrom pairs 0 rest := by
  induction u with
  | nil => rfl
  | cons c u ih => exact ih

end

/-! ## Words that do not overlap -/

/-- **Words with a mark**: all are of one length, and the second letter is the mark, which is no
other letter of them. -/
structure Marked (word : κ → List α) (first mark : α) (n : Nat) : Prop where
  ne : first ≠ mark
  shape : ∀ k, ∃ rest, word k = first :: mark :: rest ∧ rest.length = n ∧ mark ∉ rest
  inj : Function.Injective word

/-- No word is followed by the mark. -/
def Delimited (word : κ → List α) (mark : α) (text : List α) : Prop :=
  ∀ before k after, text = before ++ (word k ++ after) → after.head? ≠ some mark

/-- A text in pieces: letters and words. -/
def render (word : κ → List α) (pieces : List (α ⊕ κ)) : List α :=
  pieces.flatMap (Sum.elim (fun c => [c]) word)

/-- **The words of a text are pieces**: none starts at a letter, and none is followed by the mark. -/
inductive Sparse (word : κ → List α) (mark : α) : List (α ⊕ κ) → Prop
  | nil : Sparse word mark []
  | letter {c : α} {pieces : List (α ⊕ κ)} : Sparse word mark pieces →
      (∀ k, ¬ word k <+: c :: render word pieces) → Sparse word mark (.inl c :: pieces)
  | word {k : κ} {pieces : List (α ⊕ κ)} : Sparse word mark pieces →
      (render word pieces).head? ≠ some mark → Sparse word mark (.inr k :: pieces)

@[simp] theorem render_nil (word : κ → List α) : render word [] = [] := rfl

@[simp] theorem render_inl (word : κ → List α) (c : α) (pieces : List (α ⊕ κ)) :
    render word (.inl c :: pieces) = c :: render word pieces := rfl

@[simp] theorem render_inr (word : κ → List α) (k : κ) (pieces : List (α ⊕ κ)) :
    render word (.inr k :: pieces) = word k ++ render word pieces := rfl

/-- The pieces with other words. -/
def mapWords (σ : κ → κ) (pieces : List (α ⊕ κ)) : List (α ⊕ κ) := pieces.map (Sum.map id σ)

@[simp] theorem mapWords_nil (σ : κ → κ) : mapWords σ ([] : List (α ⊕ κ)) = [] := rfl

@[simp] theorem mapWords_inl (σ : κ → κ) (c : α) (pieces : List (α ⊕ κ)) :
    mapWords σ (.inl c :: pieces) = .inl c :: mapWords σ pieces := rfl

@[simp] theorem mapWords_inr (σ : κ → κ) (k : κ) (pieces : List (α ⊕ κ)) :
    mapWords σ (.inr k :: pieces) = .inr (σ k) :: mapWords σ pieces := rfl

section
variable {word : κ → List α} {first mark : α} {n : Nat} (h : Marked word first mark n)
include h

theorem Marked.length_word (k : κ) : (word k).length = n + 2 := by
  obtain ⟨rest, hk, hlen, -⟩ := h.shape k
  rw [hk, List.length_cons, List.length_cons, hlen]

theorem Marked.prefix_word_iff {k k' : κ} {rest : List α} : word k' <+: word k ++ rest ↔ k' = k := by
  constructor
  · intro hstarts
    have hlen : (word k').length = (word k).length := by rw [h.length_word, h.length_word]
    exact h.inj ((List.prefix_of_prefix_length_le hstarts (List.prefix_append _ _) hlen.le).eq_of_length
      hlen)
  · rintro rfl
    exact List.prefix_append _ _

/-- No word starts at a mark. -/
theorem Marked.not_prefix_mark (k : κ) (rest : List α) : ¬ word k <+: mark :: rest := by
  obtain ⟨ds, hk, -, -⟩ := h.shape k
  rw [hk, List.cons_prefix_cons]
  exact fun hstarts => h.ne hstarts.1

/-- No word starts at the letters after the mark of another. -/
theorem Marked.not_prefix_of_not_mem {v rest : List α} (hv : v ≠ []) (hmem : mark ∉ v)
    (hrest : rest.head? ≠ some mark) (k : κ) : ¬ word k <+: v ++ rest := by
  obtain ⟨ds, hk, -, -⟩ := h.shape k
  rw [hk]
  intro hstarts
  match v with
  | [] => exact hv rfl
  | [d] =>
    obtain ⟨after, hafter⟩ := (List.cons_prefix_cons.mp hstarts).2
    have hmark : rest = mark :: (ds ++ after) := hafter.symm
    exact hrest (by rw [hmark]; rfl)
  | d :: e :: v =>
    obtain ⟨-, htail⟩ := List.cons_prefix_cons.mp hstarts
    obtain ⟨rfl, -⟩ := List.cons_prefix_cons.mp htail
    simp at hmem

omit h in
/-- A letter that is in no word keeps words apart. -/
theorem delimited_append_cons {c : α} (hc : ∀ k, c ∉ word k) (hne : c ≠ mark) {u v : List α}
    (hu : Delimited word mark u) (hv : Delimited word mark v) : Delimited word mark (u ++ c :: v) := by
  intro before k after heq
  rcases List.append_eq_append_iff.mp heq with ⟨w, rfl, hrest⟩ | ⟨w, rfl, hrest⟩
  · -- The word comes after the letter.
    cases w with
    | nil =>
      rw [List.nil_append] at hrest
      cases hk : word k with
      | nil =>
        rw [hk, List.nil_append] at hrest
        rw [← hrest]
        exact fun hhead => hne (Option.some.inj hhead)
      | cons d ds =>
        rw [hk, List.cons_append, List.cons_eq_cons] at hrest
        exact absurd (hrest.1 ▸ hk ▸ List.mem_cons_self) (hc k)
    | cons d w =>
      rw [List.cons_append, List.cons_eq_cons] at hrest
      exact hv w k after hrest.2
  · rcases List.append_eq_append_iff.mp hrest with ⟨x, rfl, hafter⟩ | ⟨x, hk, hafter⟩
    · -- The word ends before the letter.
      rw [hafter]
      cases x with
      | nil => exact fun hhead => hne (Option.some.inj hhead)
      | cons d x => exact hu before k (d :: x) rfl
    · cases x with
      | nil =>
        rw [List.nil_append] at hafter
        rw [← hafter]
        exact fun hhead => hne (Option.some.inj hhead)
      | cons d x =>
        rw [List.cons_append, List.cons_eq_cons] at hafter
        refine absurd ?_ (hc k)
        rw [hk, hafter.1]
        exact List.mem_append_right _ List.mem_cons_self

/-- A delimited text has pieces. -/
theorem Marked.exists_pieces {text : List α} (hdelimited : Delimited word mark text) :
    ∃ pieces, render word pieces = text ∧ Sparse word mark pieces := by
  induction hlen : text.length using Nat.strong_induction_on generalizing text with
  | h len ih =>
    have htail : ∀ before after, text = before ++ after → Delimited word mark after := by
      rintro before after rfl before' k after' rfl
      exact hdelimited (before ++ before') k after' (by rw [List.append_assoc])
    by_cases hword : ∃ k, word k <+: text
    · obtain ⟨k, after, rfl⟩ := hword
      have hshort : after.length < len := by
        rw [← hlen, List.length_append, h.length_word]
        omega
      obtain ⟨pieces, rfl, hsparse⟩ := ih _ hshort (htail _ _ rfl) rfl
      exact ⟨.inr k :: pieces, rfl, .word hsparse (hdelimited [] k _ rfl)⟩
    · rw [not_exists] at hword
      cases text with
      | nil => exact ⟨[], rfl, .nil⟩
      | cons c text =>
        obtain ⟨pieces, rfl, hsparse⟩ :=
          ih _ (by rw [← hlen]; exact Nat.lt_succ_self _) (htail [c] text rfl) rfl
        exact ⟨.inl c :: pieces, rfl, .letter hsparse hword⟩

theorem Marked.head?_render_mapWords (σ : κ → κ) (pieces : List (α ⊕ κ)) :
    (render word (mapWords σ pieces)).head? = (render word pieces).head? := by
  cases pieces with
  | nil => rfl
  | cons piece pieces =>
    cases piece with
    | inl c => rfl
    | inr k =>
      obtain ⟨ds, hk, -, -⟩ := h.shape k
      obtain ⟨ds', hσ, -, -⟩ := h.shape (σ k)
      rw [mapWords_inr, render_inr, render_inr, hk, hσ]
      rfl

/-- Letters without a mark are in front of the text with other words as before. -/
theorem Marked.prefix_render_mapWords {σ : κ → κ} {pieces : List (α ⊕ κ)} {ds : List α}
    (hds : mark ∉ ds) (hstarts : ds <+: render word (mapWords σ pieces)) :
    ds <+: render word pieces := by
  induction pieces generalizing ds with
  | nil => exact hstarts
  | cons piece pieces ih =>
    match ds, piece with
    | [], _ => exact List.nil_prefix
    | d :: ds, .inl c =>
      rw [mapWords_inl, render_inl, List.cons_prefix_cons] at hstarts
      rw [List.mem_cons, not_or] at hds
      rw [render_inl, List.cons_prefix_cons]
      exact ⟨hstarts.1, ih hds.2 hstarts.2⟩
    | d :: ds, .inr k =>
      obtain ⟨rest, hk, -, -⟩ := h.shape k
      obtain ⟨rest', hσ, -, -⟩ := h.shape (σ k)
      rw [mapWords_inr, render_inr, hσ, List.cons_append, List.cons_prefix_cons] at hstarts
      rw [render_inr, hk, List.cons_append, List.cons_prefix_cons]
      refine ⟨hstarts.1, ?_⟩
      cases ds with
      | nil => exact List.nil_prefix
      | cons e ds =>
        rw [List.cons_append, List.cons_prefix_cons] at hstarts
        simp [hstarts.2.1] at hds

/-- Other words are still all the words of the text. -/
theorem Marked.sparse_mapWords {σ : κ → κ} {pieces : List (α ⊕ κ)} (hsparse : Sparse word mark pieces) :
    Sparse word mark (mapWords σ pieces) := by
  induction hsparse with
  | nil => exact .nil
  | @word k pieces hsparse hhead ih =>
    rw [← h.head?_render_mapWords σ] at hhead
    exact .word ih hhead
  | @letter c pieces hsparse hnot ih =>
    refine .letter ih fun k hstart => hnot k ?_
    obtain ⟨ds, hk, -, hds⟩ := h.shape k
    change word k <+: c :: render word (mapWords σ pieces) at hstart
    rw [hk, List.cons_prefix_cons] at hstart ⊢
    refine ⟨hstart.1, ?_⟩
    -- The mark is a letter of its own, as words start with another.
    match pieces, hstart.2 with
    | [], hmark => exact hmark
    | .inr k' :: pieces, hmark =>
      obtain ⟨rest, hσ, -, -⟩ := h.shape (σ k')
      rw [mapWords_inr, render_inr, hσ, List.cons_append, List.cons_prefix_cons] at hmark
      exact absurd hmark.1.symm h.ne
    | .inl d :: pieces, hmark =>
      rw [mapWords_inl, render_inl, List.cons_prefix_cons] at hmark
      rw [render_inl, List.cons_prefix_cons]
      exact ⟨hmark.1, h.prefix_render_mapWords hds hmark.2⟩

/-- **Words occur where they are pieces.** -/
theorem Marked.occurs_iff {pieces : List (α ⊕ κ)} (hsparse : Sparse word mark pieces) {k : κ} :
    word k <:+: render word pieces ↔ .inr k ∈ pieces := by
  constructor
  · rintro ⟨before, after, heq⟩
    induction hsparse generalizing before with
    | nil =>
      have hlen := congrArg List.length heq
      simp only [List.length_append, h.length_word, render_nil, List.length_nil] at hlen
      omega
    | @letter c pieces hsparse hnot ih =>
      cases before with
      | nil => exact absurd ⟨after, heq⟩ (hnot k)
      | cons d before =>
        exact List.mem_cons_of_mem _ (ih before (List.cons_eq_cons.mp heq).2)
    | @word k' pieces hsparse hhead ih =>
      rw [render_inr, List.append_assoc] at heq
      rcases List.append_eq_append_iff.mp heq with ⟨v, hv, hrest⟩ | ⟨u, hu, hrest⟩
      · have hstart : word k <+: v ++ render word pieces := ⟨after, hrest⟩
        by_cases hnil : v = []
        · rw [hnil, List.nil_append] at hrest
          exact List.mem_cons_of_mem _ (ih [] hrest)
        -- The occurrence starts inside of the word.
        obtain ⟨ds, hk', -, hds⟩ := h.shape k'
        match before with
        | [] =>
          rw [List.nil_append] at hv
          rw [← hv, h.prefix_word_iff] at hstart
          exact hstart ▸ List.mem_cons_self
        | [d] =>
          rw [hk', List.singleton_append, List.cons_eq_cons] at hv
          rw [← hv.2, List.cons_append] at hstart
          exact absurd hstart (h.not_prefix_mark k _)
        | d :: e :: before =>
          rw [hk', List.cons_append, List.cons_append, List.cons_eq_cons, List.cons_eq_cons] at hv
          have hmem : mark ∉ v := fun hmem => hds (hv.2.2 ▸ List.mem_append_right _ hmem)
          exact absurd hstart (h.not_prefix_of_not_mem hnil hmem hhead k)
      · exact List.mem_cons_of_mem _ (ih u (by rw [List.append_assoc]; exact hrest.symm))
  · intro hmem
    obtain ⟨before, after, rfl⟩ := List.append_of_mem hmem
    refine ⟨render word before, render word after, ?_⟩
    simp [render]

/-- The text tells what the words have become. -/
theorem Marked.render_mapWords_inj {σ τ : κ → κ} {pieces : List (α ⊕ κ)} :
    render word (mapWords σ pieces) = render word (mapWords τ pieces) ↔
      ∀ k, .inr k ∈ pieces → σ k = τ k := by
  induction pieces with
  | nil => simp
  | cons piece pieces ih =>
    cases piece with
    | inl c => simp [ih]
    | inr k =>
      have hlen : (word (σ k)).length = (word (τ k)).length := by rw [h.length_word, h.length_word]
      rw [mapWords_inr, mapWords_inr, render_inr, render_inr]
      constructor
      · intro heq k' hk'
        obtain ⟨hword, hrest⟩ := List.append_inj heq hlen
        rcases List.mem_cons.mp hk' with hk' | hk'
        · rw [Sum.inr.inj hk']
          exact h.inj hword
        · exact ih.mp hrest k' hk'
      · intro hall
        rw [hall k List.mem_cons_self, ih.mpr fun k' hk' => hall k' (List.mem_cons_of_mem _ hk')]

end

/-! ## Substitutions of words -/

section
variable [DecidableEq κ]

/-- What a word becomes by the substitution. -/
def image (pairs : List (κ × κ)) (k : κ) : κ :=
  ((pairs.find? fun pair => pair.1 = k).map Prod.snd).getD k

/-- What a word becomes by one replacement after the other. -/
def successive (pairs : List (κ × κ)) (k : κ) : κ :=
  pairs.foldl (fun k pair => if pair.1 = k then pair.2 else k) k

def wordPairs (word : κ → List α) (pairs : List (κ × κ)) : List (List α × List α) :=
  pairs.map fun pair => (word pair.1, word pair.2)

theorem successive_of_not_mem {pairs : List (κ × κ)} {k : κ} (hk : k ∉ pairs.map Prod.fst) :
    successive pairs k = k := by
  unfold successive
  induction pairs with
  | nil => rfl
  | cons pair pairs ih =>
    rw [List.map_cons, List.mem_cons, not_or] at hk
    rw [List.foldl_cons, if_neg (Ne.symm hk.1)]
    exact ih hk.2

/-- What is not a new word does not come back. -/
theorem successive_ne {pairs : List (κ × κ)} {a k : κ} (ha : a ∉ pairs.map Prod.snd) (hne : k ≠ a) :
    successive pairs k ≠ a := by
  unfold successive
  induction pairs generalizing k with
  | nil => exact hne
  | cons pair pairs ih =>
    rw [List.map_cons, List.mem_cons, not_or] at ha
    rw [List.foldl_cons]
    refine ih ha.2 ?_
    split_ifs
    · exact Ne.symm ha.1
    · exact hne

theorem successive_eq_self_iff {pairs : List (κ × κ)} {a : κ} (ha : a ∉ pairs.map Prod.snd) :
    successive pairs a = a ↔ ∀ pair ∈ pairs, pair.1 ≠ a := by
  induction pairs with
  | nil => simp [successive]
  | cons pair pairs ih =>
    rw [List.map_cons, List.mem_cons, not_or] at ha
    rw [List.forall_mem_cons, successive, List.foldl_cons]
    by_cases hcaptured : pair.1 = a
    · rw [if_pos hcaptured]
      exact iff_of_false (successive_ne ha.2 (Ne.symm ha.1)) fun hall => hall.1 hcaptured
    · rw [if_neg hcaptured]
      exact (ih ha.2).trans ⟨fun hall => ⟨hcaptured, hall⟩, And.right⟩

/-- **A new word stays if no later replacement is of it.** -/
theorem successive_eq_iff {before after : List (κ × κ)} {k a : κ} (hk : k ∉ before.map Prod.fst)
    (ha : a ∉ after.map Prod.snd) :
    successive (before ++ (k, a) :: after) k = a ↔ ∀ pair ∈ after, pair.1 ≠ a := by
  have hbefore := successive_of_not_mem hk
  have hstep : successive (before ++ (k, a) :: after) k = successive after a := by
    unfold successive at hbefore ⊢
    rw [List.foldl_append, hbefore, List.foldl_cons, if_pos rfl]
  rw [hstep, successive_eq_self_iff ha]

variable [DecidableEq α] {word : κ → List α} {first mark : α} {n : Nat}
  (h : Marked word first mark n)

omit [DecidableEq κ] in
theorem find?_wordPairs_none {pairs : List (κ × κ)} {text : List α} (hnone : ∀ k, ¬ word k <+: text) :
    ((wordPairs word pairs).find? fun pair => pair.1.isPrefixOf text) = none := by
  rw [List.find?_eq_none]
  intro pair hpair
  obtain ⟨p, -, rfl⟩ := List.mem_map.mp hpair
  rw [List.isPrefixOf_iff_prefix]
  exact hnone p.1

include h

theorem Marked.find?_wordPairs {pairs : List (κ × κ)} {k : κ} {rest : List α} :
    ((wordPairs word pairs).find? fun pair => pair.1.isPrefixOf (word k ++ rest)) =
      (pairs.find? fun pair => pair.1 = k).map fun pair => (word pair.1, word pair.2) := by
  rw [wordPairs, List.find?_map]
  congr 2
  funext pair
  rw [Function.comp_apply, Bool.eq_iff_iff, List.isPrefixOf_iff_prefix, h.prefix_word_iff,
    decide_eq_true_eq]

omit [DecidableEq κ] in
/-- The letters of a word after the mark stay. -/
theorem Marked.substituteFrom_letters (pairs : List (κ × κ)) {v rest : List α} (hmem : mark ∉ v)
    (hrest : rest.head? ≠ some mark) : substituteFrom (wordPairs word pairs) 0 (v ++ rest) =
      v ++ substituteFrom (wordPairs word pairs) 0 rest := by
  induction v with
  | nil => rfl
  | cons d v ih =>
    have hnone := h.not_prefix_of_not_mem (List.cons_ne_nil d v) hmem hrest
    rw [List.cons_append] at hnone ⊢
    rw [substituteFrom, find?_wordPairs_none hnone, ih fun hv => hmem (List.mem_cons_of_mem _ hv)]
    rfl

/-- **A substitution maps the words of a text.** -/
theorem Marked.substitute_render (pairs : List (κ × κ)) {pieces : List (α ⊕ κ)}
    (hsparse : Sparse word mark pieces) : substitute (wordPairs word pairs) (render word pieces) =
      render word (mapWords (image pairs) pieces) := by
  unfold substitute
  induction hsparse with
  | nil => rfl
  | @letter c pieces hsparse hnot ih =>
    rw [render_inl, substituteFrom, find?_wordPairs_none hnot, ih]
    rfl
  | @word k pieces hsparse hhead ih =>
    have hfind := @Marked.find?_wordPairs _ _ _ _ _ _ _ _ h pairs k (render word pieces)
    obtain ⟨ds, hk, hlen, hds⟩ := h.shape k
    rw [mapWords_inr, render_inr, render_inr, ← ih, image]
    rw [hk, List.cons_append] at hfind ⊢
    rw [substituteFrom, hfind]
    cases hpair : pairs.find? fun pair => pair.1 = k with
    | none =>
      -- The word stays, letter by letter.
      have hmark := @find?_wordPairs_none _ _ _ word pairs _ fun k' =>
        h.not_prefix_mark k' (ds ++ render word pieces)
      rw [Option.map_none, Option.map_none, Option.getD_none, hk, List.cons_append, substituteFrom,
        hmark, h.substituteFrom_letters pairs hds hhead]
      rfl
    | some pair =>
      have hskip : (word pair.1).length - 1 = (mark :: ds).length := by
        rw [h.length_word, List.length_cons, hlen]
        rfl
      rw [Option.map_some, Option.map_some, Option.getD_some]
      dsimp only
      rw [hskip, substituteFrom_skip]

/-- Replacements one after the other map the words of a text. -/
theorem Marked.replacements_render (pairs : List (κ × κ)) {pieces : List (α ⊕ κ)}
    (hsparse : Sparse word mark pieces) :
    pairs.foldl (fun text pair => replace (word pair.1) (word pair.2) text) (render word pieces) =
      render word (mapWords (successive pairs) pieces) := by
  induction pairs generalizing pieces with
  | nil =>
    have hid : mapWords (successive ([] : List (κ × κ))) pieces = pieces := by
      rw [mapWords, show Sum.map id (successive ([] : List (κ × κ))) = @id (α ⊕ κ) by
        funext piece; cases piece <;> rfl, List.map_id]
    rw [hid]
    rfl
  | cons pair pairs ih =>
    have hone := h.substitute_render [pair] hsparse
    have hcomp : mapWords (successive pairs) (mapWords (image [pair]) pieces) =
        mapWords (successive (pair :: pairs)) pieces := by
      rw [mapWords, mapWords, mapWords, List.map_map, Sum.map_comp_map]
      congr 2
      funext k
      by_cases hk : pair.1 = k <;> simp [image, successive, hk]
    rw [List.foldl_cons, ← hcomp, ← ih (h.sparse_mapWords hsparse), ← hone]
    rfl

/-- A substitution keeps the letters that are in no word. -/
theorem Marked.mem_substitute_iff (pairs : List (κ × κ)) {text : List α}
    (hdelimited : Delimited word mark text) {c : α} (hc : ∀ k, c ∉ word k) :
    c ∈ substitute (wordPairs word pairs) text ↔ c ∈ text := by
  obtain ⟨pieces, rfl, hsparse⟩ := h.exists_pieces hdelimited
  rw [h.substitute_render pairs hsparse]
  clear hsparse hdelimited
  induction pieces with
  | nil => rfl
  | cons piece pieces ih =>
    cases piece with
    | inl d => rw [mapWords_inl, render_inl, render_inl, List.mem_cons, List.mem_cons, ih]
    | inr k => simp [ih, hc]

/-- **Replacements one after the other are a substitution at once** exactly when they are for each
word that occurs. -/
theorem Marked.successive_iff (pairs pairs' : List (κ × κ)) {text : List α}
    (hdelimited : Delimited word mark text) :
    pairs.foldl (fun text pair => replace (word pair.1) (word pair.2) text) text =
        substitute (wordPairs word pairs') text ↔
      ∀ k, word k <:+: text → successive pairs k = image pairs' k := by
  obtain ⟨pieces, rfl, hsparse⟩ := h.exists_pieces hdelimited
  rw [h.replacements_render pairs hsparse, h.substitute_render pairs' hsparse,
    h.render_mapWords_inj]
  simp only [h.occurs_iff hsparse]

end

end Bracelet.Substitution
