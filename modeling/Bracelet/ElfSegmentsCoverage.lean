import Bracelet.ElfSegments

/-!
# The set of ELF segments never goes backwards

`Inv` is what every interleaving of `Rescan.step` keeps.  An object is either owned by the
one rescan that made it or public (`Public`), and public objects stay as they are, so a
pointer that was loaded still leads to the set it led to.  The set a rescan makes covers
the set behind the pointer it expects, since the scan comes after the load of that pointer
on every path; so a compare-exchange that succeeds only adds addresses.
-/
namespace Bracelet.Rescan

/-! ## Sets and hashes -/

/-- The addresses of a list of intervals. -/
def points (segments : List AddrInterval) : Set Nat := {p | ∃ i ∈ segments, i.Contains p}

theorem points_append (xs ys : List AddrInterval) : points (xs ++ ys) = points xs ∪ points ys := by
  ext p
  simp [points, or_and_right, exists_or]

@[simp] theorem points_nil : points [] = ∅ := by
  ext p
  simp [points]

theorem points_congr {xs ys : List AddrInterval} (h : ∀ i, i ∈ xs ↔ i ∈ ys) :
    points xs = points ys := by
  ext p
  simp [points, h]

theorem lt_of_mem_points {xs : List AddrInterval} {p : Nat} (hp : p ∈ points xs) :
    p < 2 ^ 64 - 1 := by
  obtain ⟨i, -, -, hlt⟩ := hp
  exact hlt.trans i.bound

variable {η : Type}

theorem find_iff (s : ElfSegments η) (p : Nat) : s.find p = true ↔ p ∈ points s.segments := by
  simp [ElfSegments.find, points]

/-- The bytes of intervals, as records. -/
def intervalFormat : RecordFormat AddrInterval where
  size := 16
  pack := AddrInterval.bytes
  unpack bytes :=
    if h : ofLE (bytes.take 8) < ofLE (bytes.drop 8) ∧ ofLE (bytes.drop 8) < 2 ^ 64 - 1
    then ⟨_, _, h.1, h.2⟩ else default
  size_pos := by decide
  length_pack i := by simp [AddrInterval.bytes]
  unpack_pack i := by
    have hlower : ofLE ((leBytes 8 i.lower ++ leBytes 8 i.upper).take 8) = i.lower := by
      rw [List.take_left' (length_leBytes ..), ofLE_leBytes]
      have := i.nonempty
      have := i.bound
      omega
    have hupper : ofLE ((leBytes 8 i.lower ++ leBytes 8 i.upper).drop 8) = i.upper := by
      rw [List.drop_left' (length_leBytes ..), ofLE_leBytes]
      have := i.bound
      omega
    unfold AddrInterval.bytes
    simp only [hlower, hupper, i.nonempty, i.bound, and_self, dite_true]

/-- Without collisions, sets with one hash are one. -/
theorem points_of_hash {xxh3 : List UInt8 → η} (hxxh3 : Function.Injective xxh3)
    {xs ys : List AddrInterval}
    (hash : (ElfSegments.scan xxh3 xs).segments_hash = (ElfSegments.scan xxh3 ys).segments_hash) :
    points xs = points ys := by
  have hbytes := hxxh3 hash
  have hsorted : xs.mergeSort AddrInterval.le = ys.mergeSort AddrInterval.le := by
    have hread : ∀ zs, intervalFormat.read (zs.flatMap AddrInterval.bytes) = zs :=
      intervalFormat.read_flatMap_pack
    rw [← hread (xs.mergeSort AddrInterval.le), ← hread (ys.mergeSort AddrInterval.le)]
    exact congrArg _ hbytes
  refine points_congr fun i => ?_
  rw [← @List.mem_mergeSort _ AddrInterval.le, hsorted, List.mem_mergeSort]

/-! ## What holds of a thread -/

/-- The object that a rescan has made and not given away. -/
def Local.owned? : Local → Option Ptr
  | .comparing _ _ _ new | .exchanging _ _ _ new => some new
  | _ => none

variable {ι : Type} {xxh3 : List UInt8 → η} {c d : Config ι η} {i : ι}

namespace Config

/-- The addresses of the set that is published. -/
def published (c : Config ι η) : Set Nat :=
  {p | ∃ a o, c.elf_segments = some a ∧ c.objects a = some o ∧ p ∈ points o.segments}

/-- An object that is or was published. -/
structure Public (c : Config ι η) (a : Ptr) : Prop where
  mapped : ∃ o, c.objects a = some o ∧ points o.segments ⊆ c.published
  not_null : c.elf_segments ≠ none
  unowned : ∀ i, (c.threads i).owned? ≠ some a

theorem published_of {a : Ptr} {o : ElfSegments η} (ha : c.elf_segments = some a)
    (ho : c.objects a = some o) : c.published = points o.segments := by
  ext p
  simp [published, ha, ho]

end Config

def Caller.Ok (c : Config ι η) : Caller → Prop
  | .dlopen => True
  | .lookup _ known => points known ⊆ c.published

/-- A rescan that has made a set after it loaded `old`. -/
structure Scanned (c : Config ι η) (caller : Caller) (since : List AddrInterval)
    (old : Option Ptr) (new : Ptr) : Prop where
  caller : caller.Ok c
  old_public : ∀ a, old = some a → c.Public a
  mapped : ∃ n, c.objects new = some n ∧ points since ⊆ points n.segments ∧
    ∀ a o, old = some a → c.objects a = some o → points o.segments ⊆ points n.segments

/-- What holds of a thread. -/
def Local.Ok (c : Config ι η) : Local → Prop
  | .idle | .linking => True
  | .loading caller => caller.Ok c
  | .scanning caller since old =>
    caller.Ok c ∧ points since ⊆ points c.loaded ∧ ∀ a, old = some a → c.Public a
  | .comparing caller since old new | .exchanging caller since old new =>
    Scanned c caller since old new
  | .returned caller since =>
    caller.Ok c ∧ points since ⊆ c.published ∧ c.elf_segments ≠ none
  | .looking _ known => points known ⊆ c.published
  | .finding _ known a => ∃ o, c.objects a = some o ∧ c.Public a ∧ points known ⊆ points o.segments
  | .answered ptr known found => ptr ∈ points known → found = true

/-- **What every interleaving keeps.** -/
structure Inv (xxh3 : List UInt8 → η) (c : Config ι η) : Prop where
  current : ∀ a, c.elf_segments = some a → c.Public a
  /-- Every set is that of a scan. -/
  scanned : ∀ a o, c.objects a = some o →
    o = .scan xxh3 o.segments ∧ points o.segments ⊆ points c.loaded
  threads : ∀ i, (c.threads i).Ok c
  /-- No two rescans own one object. -/
  owned_inj : ∀ i j a, (c.threads i).owned? = some a → (c.threads j).owned? = some a → i = j
  completed : points c.completed ⊆ c.published

/-! ## What a step of another thread leaves -/

/-- What a thread relies on while others move. -/
structure Evolves (c d : Config ι η) : Prop where
  loaded : points c.loaded ⊆ points d.loaded
  published : c.published ⊆ d.published
  elf_segments : c.elf_segments ≠ none → d.elf_segments ≠ none
  objects : ∀ a, c.Public a → d.objects a = c.objects a ∧ d.Public a

theorem Evolves.caller (h : Evolves c d) {caller : Caller} (hc : caller.Ok c) : caller.Ok d := by
  cases caller with
  | dlopen => trivial
  | lookup ptr known => exact hc.trans h.published

theorem Evolves.trans {e : Config ι η} (h : Evolves c d) (h' : Evolves d e) : Evolves c e where
  loaded := h.loaded.trans h'.loaded
  published := h.published.trans h'.published
  elf_segments hc := h'.elf_segments (h.elf_segments hc)
  objects a ha :=
    ⟨(h'.objects a (h.objects a ha).2).1.trans (h.objects a ha).1, (h'.objects a (h.objects a ha).2).2⟩

/-- A thread whose own object is left alone. -/
theorem Evolves.ok (h : Evolves c d) {l : Local} (hl : l.Ok c)
    (howned : ∀ a, l.owned? = some a → d.objects a = c.objects a) : l.Ok d := by
  have hscanned : ∀ {caller since old new}, d.objects new = c.objects new →
      Scanned c caller since old new → Scanned d caller since old new := by
    rintro caller since old new hnew ⟨hcaller, hold, n, hn, hsince, hcovered⟩
    refine ⟨h.caller hcaller, fun a ha => (h.objects a (hold a ha)).2, n, hnew ▸ hn, hsince,
      fun a o ha ho => hcovered a o ha ?_⟩
    rwa [← (h.objects a (hold a ha)).1]
  cases l with
  | idle => trivial
  | linking => trivial
  | loading caller => exact h.caller hl
  | scanning caller since old =>
    obtain ⟨hcaller, hsince, hold⟩ := hl
    exact ⟨h.caller hcaller, hsince.trans h.loaded, fun a ha => (h.objects a (hold a ha)).2⟩
  | comparing caller since old new => exact hscanned (howned new rfl) hl
  | exchanging caller since old new => exact hscanned (howned new rfl) hl
  | returned caller since =>
    obtain ⟨hcaller, hsince, hsome⟩ := hl
    exact ⟨h.caller hcaller, hsince.trans h.published, h.elf_segments hsome⟩
  | looking ptr known => exact hl.trans h.published
  | finding ptr known a =>
    obtain ⟨o, ho, ha, hknown⟩ := hl
    exact ⟨o, (h.objects a ha).1 ▸ ho, (h.objects a ha).2, hknown⟩
  | answered ptr known found => exact hl

/-- An owned object exists, and it is not public. -/
theorem Inv.owned_mapped (hc : Inv xxh3 c) {a : Ptr} (ha : (c.threads i).owned? = some a) :
    ∃ n, c.objects a = some n := by
  have hok := hc.threads i
  cases hl : c.threads i with
  | comparing caller since old new =>
    rw [hl] at ha hok
    obtain rfl := Option.some_inj.mp ha
    exact hok.mapped.imp fun _ h => h.1
  | exchanging caller since old new =>
    rw [hl] at ha hok
    obtain rfl := Option.some_inj.mp ha
    exact hok.mapped.imp fun _ h => h.1
  | _ =>
    rw [hl] at ha
    cases ha

theorem Inv.published_loaded (hc : Inv xxh3 c) : c.published ⊆ points c.loaded := by
  rintro p ⟨a, o, -, ho, hp⟩
  exact (hc.scanned a o ho).2 hp

variable [DecidableEq ι]

/-- A step that leaves all but its own thread alone. -/
theorem Inv.of_evolves (hc : Inv xxh3 c) (h : Evolves c d)
    (hother : ∀ j, j ≠ i → d.threads j = c.threads j ∧
      ∀ a, (c.threads j).owned? = some a → d.objects a = c.objects a)
    (hself : (d.threads i).Ok d)
    (howned : ∀ j a, j ≠ i → (d.threads i).owned? = some a → (c.threads j).owned? ≠ some a)
    (hcurrent : ∀ a, d.elf_segments = some a → d.Public a)
    (hscanned : ∀ a o, d.objects a = some o →
      o = .scan xxh3 o.segments ∧ points o.segments ⊆ points d.loaded)
    (hcompleted : points d.completed ⊆ d.published) : Inv xxh3 d where
  current := hcurrent
  scanned := hscanned
  threads j := by
    by_cases hj : j = i
    · rw [hj]
      exact hself
    · rw [(hother j hj).1]
      exact h.ok (hc.threads j) (hother j hj).2
  owned_inj j k a hj hk := by
    by_cases hji : j = i
    · by_cases hki : k = i
      · rw [hji, hki]
      · rw [(hother k hki).1] at hk
        exact absurd hk (howned k a hki (hji ▸ hj))
    · rw [(hother j hji).1] at hj
      by_cases hki : k = i
      · exact absurd hj (howned j a hji (hki ▸ hk))
      · rw [(hother k hki).1] at hk
        exact hc.owned_inj j k a hj hk
  completed := hcompleted

/-! ## The steps -/

/-- A thread goes on, with the object it had or none. -/
theorem Inv.goto (hc : Inv xxh3 c) {l : Local} (hl : l.Ok c)
    (howned : ∀ a, l.owned? = some a → (c.threads i).owned? = some a) :
    Evolves c (c.goto i l) ∧ Inv xxh3 (c.goto i l) := by
  have hpublished : (c.goto i l).published = c.published := rfl
  have hthreads : ∀ j, j ≠ i → (c.goto i l).threads j = c.threads j := fun j hj =>
    Function.update_of_ne hj _ _
  have hself : (c.goto i l).threads i = l := Function.update_self ..
  have hpublic : ∀ a, c.Public a → (c.goto i l).Public a := fun a ha => by
    refine ⟨ha.mapped, ha.not_null, fun j hj => ?_⟩
    by_cases hji : j = i
    · rw [hji, hself] at hj
      exact ha.unowned i (howned a hj)
    · rw [hthreads j hji] at hj
      exact ha.unowned j hj
  have hevolves : Evolves c (c.goto i l) :=
    ⟨subset_rfl, subset_rfl, id, fun a ha => ⟨rfl, hpublic a ha⟩⟩
  refine ⟨hevolves, hc.of_evolves (i := i) hevolves (fun j hj => ⟨hthreads j hj, fun _ _ => rfl⟩) ?_
    (fun j a hj ha hja => ?_) (fun a ha => hpublic a (hc.current a ha)) hc.scanned hc.completed⟩
  · rw [hself]
    exact hevolves.ok hl fun _ _ => rfl
  · rw [hself] at ha
    exact hj (hc.owned_inj j i a hja (howned a ha))

omit [DecidableEq ι] in
/-- The dynamic linker loads a library. -/
theorem Inv.link (hc : Inv xxh3 c) (segments : List AddrInterval) :
    Evolves c { c with loaded := c.loaded ++ segments } ∧
      Inv xxh3 { c with loaded := c.loaded ++ segments } := by
  have hloaded : points c.loaded ⊆ points (c.loaded ++ segments) := by
    rw [points_append]
    exact Set.subset_union_left
  have hevolves : Evolves c { c with loaded := c.loaded ++ segments } :=
    ⟨hloaded, subset_rfl, id, fun a ha => ⟨rfl, ha.mapped, ha.not_null, ha.unowned⟩⟩
  exact ⟨hevolves, fun a ha => (hevolves.objects a (hc.current a ha)).2,
    fun a o ho => ⟨(hc.scanned a o ho).1,
    (hc.scanned a o ho).2.trans hloaded⟩, fun j => hevolves.ok (hc.threads j) fun _ _ => rfl,
    hc.owned_inj, hc.completed⟩

/-- An object that is not public is written, or freed. -/
theorem evolves_setObject (hc : Inv xxh3 c) {new : Ptr} {o : Option (ElfSegments η)} {l : Local}
    (hnew : ∀ a, c.Public a → a ≠ new)
    (howned : ∀ a, l.owned? = some a → a = new) :
    Evolves c ((c.setObject new o).goto i l) := by
  have hsame : ∀ a, a ≠ new → ((c.setObject new o).goto i l).objects a = c.objects a :=
    fun a ha => Function.update_of_ne ha _ _
  have hpublished : ((c.setObject new o).goto i l).published = c.published := by
    ext p
    refine exists_congr fun a => exists_congr fun x => and_congr_right fun ha => ?_
    rw [hsame a (hnew a (hc.current a ha))]
  refine ⟨subset_rfl, hpublished.ge, id, fun a ha => ⟨hsame a (hnew a ha), ?_, ha.not_null,
    fun j hj => ?_⟩⟩
  · rw [hsame a (hnew a ha), hpublished]
    exact ha.mapped
  · by_cases hji : j = i
    · rw [hji] at hj
      exact hnew a ha (howned a (by rwa [← show _ = l from Function.update_self i l c.threads]))
    · exact ha.unowned j (by rwa [← show _ = c.threads j from Function.update_of_ne hji l c.threads])

/-- A rescan frees the object it has made. -/
theorem Inv.discard (hc : Inv xxh3 c) {new : Ptr} (hi : (c.threads i).owned? = some new)
    {l : Local} (hl : l.Ok c) (hnone : l.owned? = none) :
    Evolves c ((c.setObject new none).goto i l) ∧ Inv xxh3 ((c.setObject new none).goto i l) := by
  have hnew : ∀ a, c.Public a → a ≠ new := by
    rintro a ha rfl
    exact ha.unowned i hi
  have hevolves : Evolves c ((c.setObject new none).goto i l) :=
    evolves_setObject hc hnew fun a ha => by rw [hnone] at ha; cases ha
  have hself : ((c.setObject new none).goto i l).threads i = l := Function.update_self ..
  refine ⟨hevolves, hc.of_evolves (i := i) hevolves (fun j hj => ⟨Function.update_of_ne hj _ _,
    fun a ha => Function.update_of_ne (fun heq => hj ?_) _ _⟩) ?_ (fun j a hj ha => ?_)
    (fun a ha => (hevolves.objects a (hc.current a ha)).2) (fun a o ho => ?_)
    (hc.completed.trans hevolves.published)⟩
  · exact hc.owned_inj j i new (heq ▸ ha) hi
  · rw [hself]
    exact hevolves.ok hl fun a ha => by rw [hnone] at ha; cases ha
  · rw [hself, hnone] at ha
    cases ha
  · by_cases han : a = new
    · rw [han] at ho
      have hnone' : ((c.setObject new none).goto i l).objects new = none := Function.update_self ..
      rw [hnone'] at ho
      cases ho
    · have hsame : ((c.setObject new none).goto i l).objects a = c.objects a :=
        Function.update_of_ne han _ _
      exact hc.scanned a o (hsame ▸ ho)

/-- **A rescan scans**: what it finds covers the set behind the pointer it has loaded. -/
theorem Inv.scan (hc : Inv xxh3 c) {caller : Caller} {since : List AddrInterval}
    {old : Option Ptr} (hi : c.threads i = .scanning caller since old) {fresh : Ptr}
    (hfresh : c.objects fresh = none) :
    Evolves c ((c.setObject fresh (some (.scan xxh3 c.loaded))).goto i
        (.comparing caller since old fresh)) ∧
      Inv xxh3 ((c.setObject fresh (some (.scan xxh3 c.loaded))).goto i
        (.comparing caller since old fresh)) := by
  have hmapped : ∀ a, (∃ o, c.objects a = some o) → a ≠ fresh := by
    rintro a ⟨o, ho⟩ rfl
    rw [hfresh] at ho
    cases ho
  have hnew : ∀ a, c.Public a → a ≠ fresh := fun a ha =>
    hmapped a (ha.mapped.imp fun _ h => h.1)
  have hevolves : Evolves c ((c.setObject fresh (some (.scan xxh3 c.loaded))).goto i
      (.comparing caller since old fresh)) :=
    evolves_setObject hc hnew fun a ha => (Option.some_inj.mp ha).symm
  have hself : ((c.setObject fresh (some (.scan xxh3 c.loaded))).goto i
      (.comparing caller since old fresh)).threads i = .comparing caller since old fresh :=
    Function.update_self ..
  have hfresh' : ((c.setObject fresh (some (.scan xxh3 c.loaded))).goto i
      (.comparing caller since old fresh)).objects fresh = some (.scan xxh3 c.loaded) :=
    Function.update_self ..
  have hsame : ∀ a, a ≠ fresh → ((c.setObject fresh (some (.scan xxh3 c.loaded))).goto i
      (.comparing caller since old fresh)).objects a = c.objects a :=
    fun a ha => Function.update_of_ne ha _ _
  refine ⟨hevolves, hc.of_evolves (i := i) hevolves (fun j hj => ⟨Function.update_of_ne hj _ _,
    fun a ha => hsame a (hmapped a (hc.owned_mapped ha))⟩) ?_ (fun j a hj ha hja => ?_)
    (fun a ha => (hevolves.objects a (hc.current a ha)).2) (fun a o ho => ?_)
    (hc.completed.trans hevolves.published)⟩
  · have hok := hc.threads i
    rw [hi] at hok
    obtain ⟨hcaller, hsince, hold⟩ := hok
    rw [hself]
    refine ⟨hevolves.caller hcaller, fun a ha => (hevolves.objects a (hold a ha)).2,
      .scan xxh3 c.loaded, hfresh', hsince, fun a o ha ho => ?_⟩
    rw [hsame a (hnew a (hold a ha))] at ho
    exact (hc.scanned a o ho).2
  · rw [hself] at ha
    exact hmapped a (hc.owned_mapped hja) (Option.some_inj.mp ha).symm
  · by_cases han : a = fresh
    · rw [han, hfresh'] at ho
      obtain rfl := Option.some_inj.mp ho
      exact ⟨rfl, subset_rfl⟩
    · exact hc.scanned a o (hsame a han ▸ ho)

omit [DecidableEq ι] in
/-- A rescan whose caller can rely on what is published has returned. -/
theorem Inv.return (hc : Inv xxh3 c) {caller : Caller} {since : List AddrInterval}
    (hi : c.threads i = .returned caller since) :
    Evolves c { c with completed := since ++ c.completed } ∧
      Inv xxh3 { c with completed := since ++ c.completed } := by
  have hevolves : Evolves c { c with completed := since ++ c.completed } :=
    ⟨subset_rfl, subset_rfl, id, fun _ ha => ⟨rfl, ha.mapped, ha.not_null, ha.unowned⟩⟩
  have hok := hc.threads i
  rw [hi] at hok
  refine ⟨hevolves, fun a ha => (hevolves.objects a (hc.current a ha)).2, hc.scanned,
    fun j => hevolves.ok (hc.threads j) fun _ _ => rfl,
    hc.owned_inj, ?_⟩
  dsimp only
  rw [points_append]
  exact Set.union_subset hok.2.1 hc.completed

/-- **A compare-exchange succeeds**: the set it publishes covers the one it replaces. -/
theorem Inv.exchange (hc : Inv xxh3 c) {caller : Caller} {since : List AddrInterval}
    {old : Option Ptr} {new : Ptr} (hi : c.threads i = .exchanging caller since old new)
    (hold : c.elf_segments = old) :
    Evolves c ({ c with elf_segments := some new }.goto i (.returned caller since)) ∧
      Inv xxh3 ({ c with elf_segments := some new }.goto i (.returned caller since)) := by
  have hok := hc.threads i
  rw [hi] at hok
  obtain ⟨hcaller, hpublic, n, hn, hsince, hcovered⟩ := hok
  have howned : (c.threads i).owned? = some new := by rw [hi]; rfl
  have hnew : ({ c with elf_segments := some new }.goto i (.returned caller since)).published =
      points n.segments := Config.published_of rfl hn
  have hgrows : c.published ⊆ points n.segments := by
    rintro p ⟨a, o, ha, ho, hp⟩
    exact hcovered a o (hold ▸ ha) ho hp
  have hself : ({ c with elf_segments := some new }.goto i (.returned caller since)).threads i =
      .returned caller since := Function.update_self ..
  have hfree : ∀ a, (∀ j, j ≠ i → (c.threads j).owned? ≠ some a) → ∀ j,
      (({ c with elf_segments := some new }.goto i (.returned caller since)).threads j).owned? ≠
        some a := fun a ha j hj => by
    by_cases hji : j = i
    · rw [hji, hself] at hj
      cases hj
    · have hsame : ({ c with elf_segments := some new }.goto i (.returned caller since)).threads j =
          c.threads j := Function.update_of_ne hji _ _
      exact ha j hji (hsame ▸ hj)
  have hevolves : Evolves c ({ c with elf_segments := some new }.goto i (.returned caller since)) :=
    ⟨subset_rfl, hnew ▸ hgrows, fun _ => Option.some_ne_none new, fun a ha => ⟨rfl,
      ha.mapped.imp fun o ho => ⟨ho.1, ho.2.trans (hnew ▸ hgrows)⟩, Option.some_ne_none new,
      hfree a fun j _ => ha.unowned j⟩⟩
  refine ⟨hevolves, hc.of_evolves (i := i) hevolves
    (fun j hj => ⟨Function.update_of_ne hj _ _, fun _ _ => rfl⟩) ?_ (fun j a hj ha => ?_)
    (fun a ha => ?_) hc.scanned (hc.completed.trans hevolves.published)⟩
  · rw [hself]
    exact ⟨hevolves.caller hcaller, hnew ▸ hsince, Option.some_ne_none new⟩
  · rw [hself] at ha
    cases ha
  · obtain rfl : new = a := Option.some_inj.mp ha
    have hothers := hfree new fun j hj hj' => hj (hc.owned_inj j i new hj' howned)
    exact ⟨⟨n, hn, hnew.ge⟩, Option.some_ne_none new, hothers⟩

omit [DecidableEq ι] in
/-- A rescan whose set has the hash of the set it has loaded returns. -/
theorem Inv.comparing (hxxh3 : Function.Injective xxh3) (hc : Inv xxh3 c) {caller : Caller}
    {since : List AddrInterval} {old new : Ptr}
    (hi : c.threads i = .comparing caller since (some old) new) {o n : ElfSegments η}
    (ho : c.objects old = some o) (hn : c.objects new = some n)
    (hash : n.segments_hash = o.segments_hash) : (Local.returned caller since).Ok c := by
  have hok := hc.threads i
  rw [hi] at hok
  obtain ⟨hcaller, hpublic, n', hn', hsince, -⟩ := hok
  obtain rfl : n = n' := Option.some_inj.mp (hn.symm.trans hn')
  obtain ⟨⟨o', ho', hpublished⟩, hnot_null, -⟩ := hpublic old rfl
  obtain rfl : o = o' := Option.some_inj.mp (ho.symm.trans ho')
  rw [(hc.scanned new n hn).1, (hc.scanned old o ho).1] at hash
  have hpoints := points_of_hash hxxh3 hash
  exact ⟨hcaller, hsince.trans (hpoints.le.trans hpublished), hnot_null⟩

omit [DecidableEq ι] in
/-- The set that is published can be searched. -/
theorem Inv.finding (hc : Inv xxh3 c) {a : Ptr} (ha : c.elf_segments = some a) (ptr : Nat)
    {known : List AddrInterval} (hknown : points known ⊆ c.published) :
    (Local.finding ptr known a).Ok c := by
  obtain ⟨o, ho, -⟩ := (hc.current a ha).mapped
  exact ⟨o, ho, hc.current a ha, hknown.trans (Config.published_of ha ho).le⟩

variable [DecidableEq η]

/-- One step of a thread, by where it is. -/
theorem Inv.next (hxxh3 : Function.Injective xxh3) (hc : Inv xxh3 c) {fresh : Ptr}
    (h : next xxh3 c i fresh = some d) : Evolves c d ∧ Inv xxh3 d := by
  have hok := hc.threads i
  unfold Rescan.next at h
  cases hi : c.threads i with
  | idle => simp [hi] at h
  | linking =>
    rw [hi] at h
    obtain rfl := Option.some_inj.mp h
    exact hc.goto (l := .loading .dlopen) trivial fun a ha => by cases ha
  | loading caller =>
    rw [hi] at h hok
    obtain rfl := Option.some_inj.mp h
    exact hc.goto (l := .scanning caller c.loaded c.elf_segments)
      ⟨hok, subset_rfl, fun a ha => hc.current a ha⟩ fun a ha => by cases ha
  | scanning caller since old =>
    simp only [hi] at h
    split_ifs at h with hfresh
    obtain rfl := Option.some_inj.mp h
    exact hc.scan hi hfresh
  | comparing caller since old new =>
    rw [hi] at hok
    cases old with
    | none =>
      simp only [hi] at h
      obtain rfl := Option.some_inj.mp h
      exact hc.goto (l := .exchanging caller since none new) hok fun a ha => by rwa [hi]
    | some old =>
      obtain ⟨n, hn, -⟩ := hok.mapped
      obtain ⟨o, ho, -⟩ := (hok.old_public old rfl).mapped
      simp only [hi, hn, ho, Option.bind_eq_bind, Option.bind_some] at h
      split_ifs at h with hash
      · obtain rfl := Option.some_inj.mp h
        have howned : (c.threads i).owned? = some new := by rw [hi]; rfl
        obtain ⟨hevolves, hinv⟩ := hc.discard howned
          (hc.comparing hxxh3 hi ho hn hash) rfl
        obtain ⟨hevolves', hinv'⟩ := hinv.return (Function.update_self ..)
        exact ⟨hevolves.trans hevolves', hinv'⟩
      · obtain rfl := Option.some_inj.mp h
        exact hc.goto (l := .exchanging caller since (some old) new) hok fun a ha => by rwa [hi]
  | exchanging caller since old new =>
    rw [hi] at hok
    simp only [hi] at h
    split_ifs at h with hold
    · obtain rfl := Option.some_inj.mp h
      obtain ⟨hevolves, hinv⟩ := hc.exchange hi hold
      obtain ⟨hevolves', hinv'⟩ := hinv.return (Function.update_self ..)
      exact ⟨hevolves.trans hevolves', hinv'⟩
    · obtain rfl := Option.some_inj.mp h
      obtain ⟨n, hn, hsince, -⟩ := hok.mapped
      exact hc.discard (by rw [hi]; rfl) (l := .scanning caller since c.elf_segments)
        ⟨hok.caller, hsince.trans (hc.scanned new n hn).2, hc.current⟩ rfl
  | returned caller since =>
    rw [hi] at hok
    cases caller with
    | dlopen =>
      simp only [hi] at h
      obtain rfl := Option.some_inj.mp h
      exact hc.goto (l := .idle) trivial fun a ha => by cases ha
    | lookup ptr known =>
      obtain ⟨a, ha⟩ := Option.ne_none_iff_exists'.mp hok.2.2
      simp only [hi, ha, Option.bind_eq_bind, Option.bind_some] at h
      obtain rfl := Option.some_inj.mp h
      exact hc.goto (hc.finding ha ptr hok.1) fun a ha => by cases ha
  | looking ptr known =>
    rw [hi] at hok
    cases ha : c.elf_segments with
    | none =>
      simp only [hi, ha] at h
      obtain rfl := Option.some_inj.mp h
      exact hc.goto (l := .loading (.lookup ptr known)) hok fun a ha => by cases ha
    | some a =>
      simp only [hi, ha] at h
      obtain rfl := Option.some_inj.mp h
      exact hc.goto (hc.finding ha ptr hok) fun a ha => by cases ha
  | finding ptr known a =>
    rw [hi] at hok
    obtain ⟨o, ho, -, hknown⟩ := hok
    simp only [hi, ho, Option.bind_eq_bind, Option.bind_some] at h
    obtain rfl := Option.some_inj.mp h
    exact hc.goto (l := .answered ptr known (o.find ptr))
      (fun hptr => (find_iff o ptr).mpr (hknown hptr)) fun a ha => by cases ha
  | answered ptr known found =>
    simp only [hi] at h
    obtain rfl := Option.some_inj.mp h
    exact hc.goto (l := .idle) trivial fun a ha => by cases ha

/-- **One step** keeps the invariant. -/
theorem inv_step (hxxh3 : Function.Injective xxh3) (hc : Inv xxh3 c) {e : Event ι}
    (h : step xxh3 c e = some d) : Evolves c d ∧ Inv xxh3 d := by
  unfold step at h
  split at h
  · obtain ⟨l, hl, rfl⟩ := Option.map_eq_some_iff.mp h
    have hok : l.Ok c ∧ l.owned? = none := by
      cases haction : e.action with
      | dlopen =>
        rw [haction] at hl
        obtain rfl := Option.some_inj.mp hl
        exact ⟨trivial, rfl⟩
      | lookup ptr =>
        rw [haction, Action.call] at hl
        split_ifs at hl with hmax <;> obtain rfl := Option.some_inj.mp hl
        · -- No interval holds the last address.
          exact ⟨fun hptr => absurd (lt_of_mem_points hptr) (by omega), rfl⟩
        · exact ⟨hc.completed, rfl⟩
      | _ =>
        rw [haction] at hl
        cases hl
    exact hc.goto hok.1 fun a ha => by rw [hok.2] at ha; cases ha
  · obtain rfl := Option.some_inj.mp h
    exact hc.link _
  · exact hc.next hxxh3 h
  · cases h

/-! ## Every run -/

omit [DecidableEq ι] [DecidableEq η] in
theorem inv_initial (xxh3 : List UInt8 → η) (loaded : List AddrInterval) :
    Inv xxh3 (initial loaded : Config ι η) where
  current a ha := by cases ha
  scanned a o ho := by cases ho
  threads _ := trivial
  owned_inj i j a hi := by cases hi
  completed := by simp [initial]

theorem reachable_inv (hxxh3 : Function.Injective xxh3) {loaded : List AddrInterval}
    (hc : (machine xxh3 loaded).Reachable c) : Inv xxh3 c := by
  refine hc.invariant (inv_initial xxh3 loaded) fun s e t hs hst => ?_
  exact (inv_step hxxh3 hs hst).2

/-- **No thread gets stuck**: `rescan` and `pointerIsInElfSegment` find every object they
follow a pointer to, and the assertion that a set was published holds. -/
theorem next_enabled (hxxh3 : Function.Injective xxh3) {loaded : List AddrInterval}
    (hc : (machine xxh3 loaded).Reachable c) (hi : c.threads i ≠ .idle) {fresh : Ptr}
    (hfresh : c.objects fresh = none) : ∃ d, next xxh3 c i fresh = some d := by
  have hok := (reachable_inv hxxh3 hc).threads i
  rw [← Option.isSome_iff_exists]
  unfold next
  cases hl : c.threads i with
  | idle => exact absurd hl hi
  | linking => rfl
  | loading caller => rfl
  | scanning caller since old => simp [hfresh]
  | comparing caller since old new =>
    rw [hl] at hok
    cases old with
    | none => rfl
    | some old =>
      obtain ⟨n, hn, -⟩ := hok.mapped
      obtain ⟨o, ho, -⟩ := (hok.old_public old rfl).mapped
      simp only [hn, ho, Option.bind_eq_bind, Option.bind_some]
      split_ifs <;> rfl
  | exchanging caller since old new =>
    dsimp only
    split_ifs <;> rfl
  | returned caller since =>
    rw [hl] at hok
    cases caller with
    | dlopen => rfl
    | lookup ptr known =>
      obtain ⟨a, ha⟩ := Option.ne_none_iff_exists'.mp hok.2.2
      simp [ha]
  | looking ptr known =>
    dsimp only
    cases c.elf_segments <;> rfl
  | finding ptr known a =>
    rw [hl] at hok
    obtain ⟨o, ho, -⟩ := hok
    simp [ho]
  | answered ptr known found => rfl

/-- **The published set never goes backwards**: it only grows; when a rescan returns it
covers what was loaded when the rescan started; and a lookup finds every address of a
segment that was loaded when a rescan started that had returned before the lookup. -/
theorem published_never_goes_backwards (hxxh3 : Function.Injective xxh3)
    {loaded : List AddrInterval} (hc : (machine xxh3 loaded).Reachable c) :
    (∀ es d, (machine xxh3 loaded).run c es = some d → c.published ⊆ d.published) ∧
    (∀ i caller since, c.threads i = .returned caller since → points since ⊆ c.published) ∧
    ∀ i ptr known found, c.threads i = .answered ptr known found → ptr ∈ points known →
      found = true := by
  have hinv := reachable_inv hxxh3 hc
  refine ⟨fun es d hrun => ?_, fun i caller since hi => ?_, fun i ptr known found hi => ?_⟩
  · refine @Machine.stable_run _ _ (machine xxh3 loaded) (Inv xxh3) (c.published ⊆ ·.published)
      (fun s e t hs hst => ?_) (fun s e t hs hp hst => ?_) es c d hinv subset_rfl hrun
    · exact (inv_step hxxh3 hs hst).2
    · exact hp.trans (inv_step hxxh3 hs hst).1.published
  · have hok := hinv.threads i
    rw [hi] at hok
    exact hok.2.1
  · have hok := hinv.threads i
    rw [hi] at hok
    exact hok

/-- A thread loads a library, and looks an address of it up. -/
theorem published_never_goes_backwards_dlopen : ∃ (c : Config Unit (List UInt8)) (found : Bool),
    c.threads () = .answered 5 [⟨4, 8, by decide, by decide⟩] found ∧ found = true := by
  have hrun : ∃ c found, (machine id [] : Machine _ (Event Unit)).run (initial []) (List.map (Event.mk ())
      [.dlopen, .link [⟨4, 8, by decide, by decide⟩], .next 0, .next 0, .next 0, .next 0, .next 0,
        .next 0, .lookup 5, .next 0, .next 0]) = some c ∧
      c.threads () = .answered 5 [⟨4, 8, by decide, by decide⟩] found := ⟨_, _, rfl, rfl⟩
  obtain ⟨c, found, hrun, hc⟩ := hrun
  have hin : 5 ∈ points [⟨4, 8, by decide, by decide⟩] :=
    ⟨_, List.mem_singleton_self _, by decide, by decide⟩
  exact ⟨c, found, hc, (published_never_goes_backwards Function.injective_id ⟨_, hrun⟩).2.2
    () 5 _ found hc hin⟩

end Bracelet.Rescan
