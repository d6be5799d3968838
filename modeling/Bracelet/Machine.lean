import Mathlib.Tactic

/-!
# Machines and their runs

A `Machine` is a partial step function over labelled events: `step s e` is `none`
when the event is not enabled in `s`, or when the program being modelled would
fault there.  A run is a list of events, an interleaving of several parties is a
run whose events name the party that moves, and a state is reachable when some
run from `init` ends in it.

The two rules the developments use are `Reachable.invariant` — what holds
initially and is kept by every step holds of every reachable state — and
`stable_run` — what every step out of a state satisfying an invariant keeps is
never lost afterwards.
-/
namespace Bracelet

/-- A partial labelled transition function with an initial state. -/
structure Machine (σ ε : Type*) where
  init : σ
  step : σ → ε → Option σ

namespace Machine
variable {σ ε : Type*} (M : Machine σ ε)

/-- Taking the events of a run one after the other. -/
def run : σ → List ε → Option σ
  | s, [] => some s
  | s, e :: es => (M.step s e).bind (run · es)

/-- The states some run from `init` ends in. -/
def Reachable (s : σ) : Prop := ∃ es, M.run M.init es = some s

@[simp] theorem run_nil (s : σ) : M.run s [] = some s := rfl

theorem run_cons_eq_some {s t : σ} {e : ε} {es : List ε} :
    M.run s (e :: es) = some t ↔ ∃ s', M.step s e = some s' ∧ M.run s' es = some t := by
  simp [run, Option.bind_eq_some_iff]

theorem run_append (s : σ) (es fs : List ε) :
    M.run s (es ++ fs) = (M.run s es).bind (M.run · fs) := by
  induction es generalizing s with
  | nil => rfl
  | cons e es ih =>
    cases h : M.step s e with
    | none => simp [run, h]
    | some s' => simp [run, h, ih]

variable {M}

theorem reachable_init : M.Reachable M.init := ⟨[], rfl⟩

theorem Reachable.run {s t : σ} (h : M.Reachable s) {es : List ε} (hr : M.run s es = some t) :
    M.Reachable t := by
  obtain ⟨fs, hs⟩ := h
  exact ⟨fs ++ es, by rw [run_append, hs]; exact hr⟩

theorem Reachable.step {s t : σ} (h : M.Reachable s) {e : ε} (hs : M.step s e = some t) :
    M.Reachable t :=
  h.run (show M.run s [e] = some t by simp [Machine.run, hs])

/-- **What every step keeps, every run keeps.** -/
theorem run_invariant {Inv : σ → Prop}
    (hstep : ∀ s e t, Inv s → M.step s e = some t → Inv t) :
    ∀ {es : List ε} {s t : σ}, Inv s → M.run s es = some t → Inv t := by
  intro es
  induction es with
  | nil => intro s t hs hr; cases hr; exact hs
  | cons e es ih =>
    intro s t hs hr
    obtain ⟨s', hs', hr'⟩ := (M.run_cons_eq_some).mp hr
    exact ih (hstep s e s' hs hs') hr'

/-- **The invariant rule.** -/
theorem Reachable.invariant {Inv : σ → Prop} (hinit : Inv M.init)
    (hstep : ∀ s e t, Inv s → M.step s e = some t → Inv t) {s : σ} (h : M.Reachable s) :
    Inv s := by
  obtain ⟨es, hr⟩ := h
  exact run_invariant hstep hinit hr

/-- **The stability rule.**  A property no step out of an `Inv` state loses is
never lost by a run that starts in an `Inv` state. -/
theorem stable_run {Inv P : σ → Prop}
    (hstep : ∀ s e t, Inv s → M.step s e = some t → Inv t)
    (hP : ∀ s e t, Inv s → P s → M.step s e = some t → P t)
    {es : List ε} {s t : σ} (hs : Inv s) (hp : P s) (hr : M.run s es = some t) : P t := by
  have hboth : ∀ s e t, (Inv s ∧ P s) → M.step s e = some t → Inv t ∧ P t :=
    fun s e t hs hst => ⟨hstep s e t hs.1 hst, hP s e t hs.1 hs.2 hst⟩
  exact (run_invariant hboth ⟨hs, hp⟩ hr).2

end Machine
end Bracelet
