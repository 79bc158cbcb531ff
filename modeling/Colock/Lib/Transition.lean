import Mathlib.Logic.Function.Basic
import Mathlib.Data.List.Basic

/-! Labelled transition systems given by a partial step function, the states they
reach by steps that meet a guard, and what holds along a run. -/
namespace Transition
variable {σ ι τ κ η : Type*}

/-- The state after a list of labels, when every one of them is enabled in turn. -/
def run (step : σ → ι → Option σ) : σ → List ι → Option σ
  | s, [] => some s
  | s, l :: ls => (step s l).bind fun t => run step t ls

theorem run_append (step : σ → ι → Option σ) (s : σ) (ls ms : List ι) :
    run step s (ls ++ ms) = (run step s ls).bind fun t => run step t ms := by
  induction ls generalizing s with
  | nil => rfl
  | cons l ls ih =>
    cases h : step s l with
    | none => simp [run, h]
    | some t => simp [run, h, ih]

/-- The states reached from `s₀` by steps that all meet the guard `ok`. -/
inductive Reach (step : σ → ι → Option σ) (ok : σ → ι → Prop) (s₀ : σ) : σ → Prop
  | refl : Reach step ok s₀ s₀
  | tail {s t : σ} {l : ι} : Reach step ok s₀ s → ok s l → step s l = some t →
      Reach step ok s₀ t

def anyStep : σ → ι → Prop := fun _ _ => True

variable {step : σ → ι → Option σ} {ok : σ → ι → Prop} {s₀ : σ}

theorem Reach.single {s t : σ} {l : ι} (hok : ok s l) (h : step s l = some t) :
    Reach step ok s t :=
  .tail .refl hok h

theorem Reach.trans {s t : σ} (hs : Reach step ok s₀ s) (ht : Reach step ok s t) :
    Reach step ok s₀ t := by
  induction ht with
  | refl => exact hs
  | tail _ hok h ih => exact .tail ih hok h

/-- The invariant rule: what holds at the start and survives every guarded step holds
in every state reached. -/
theorem Reach.invariant {I : σ → Prop} (h0 : I s₀)
    (hstep : ∀ s l t, I s → ok s l → step s l = some t → I t) {s : σ}
    (h : Reach step ok s₀ s) : I s := by
  induction h with
  | refl => exact h0
  | tail _ hok h ih => exact hstep _ _ _ ih hok h

theorem Reach.mono {ok' : σ → ι → Prop} (hmono : ∀ s l, ok s l → ok' s l) {s : σ}
    (h : Reach step ok s₀ s) : Reach step ok' s₀ s := by
  induction h with
  | refl => exact .refl
  | tail _ hok h ih => exact .tail ih (hmono _ _ hok) h

/-- The simulation rule: when every guarded step of the concrete system is answered by
guarded steps of the abstract one, reached states are mapped to reached states. -/
theorem Reach.simulate {astep : τ → κ → Option τ} {aok : τ → κ → Prop} (f : σ → τ)
    {I : σ → Prop} (h0 : I s₀)
    (hstep : ∀ s l t, I s → ok s l → step s l = some t → I t)
    (hsim : ∀ s l t, I s → ok s l → step s l = some t → Reach astep aok (f s) (f t)) {s : σ}
    (h : Reach step ok s₀ s) : Reach astep aok (f s₀) (f s) := by
  have both : I s ∧ Reach astep aok (f s₀) (f s) := by
    induction h with
    | refl => exact ⟨h0, .refl⟩
    | tail _ hok h ih =>
      exact ⟨hstep _ _ _ ih.1 hok h, ih.2.trans (hsim _ _ _ ih.1 hok h)⟩
  exact both.2

/-- Every step of the run from `s` along `ls` meets `ok`. -/
def Meets (step : σ → ι → Option σ) (ok : σ → ι → Prop) : σ → List ι → Prop
  | _, [] => True
  | s, l :: ls => ok s l ∧ ∀ t, step s l = some t → Meets step ok t ls

/-- Every state the run from `s` along `ls` passes through satisfies `P`. -/
def Visits (step : σ → ι → Option σ) (P : σ → Prop) : σ → List ι → Prop
  | s, [] => P s
  | s, l :: ls => P s ∧ ∀ t, step s l = some t → Visits step P t ls

theorem run_reach {s t : σ} {ls : List ι} (hm : Meets step ok s ls)
    (h : run step s ls = some t) : Reach step ok s t := by
  induction ls generalizing s with
  | nil => cases h; exact .refl
  | cons l ls ih =>
    obtain ⟨u, hu, h⟩ := Option.bind_eq_some_iff.mp h
    exact (Reach.single hm.1 hu).trans (ih (hm.2 u hu) h)

/-- The system in which only the steps that meet `ok` are enabled. -/
def restrict (step : σ → ι → Option σ) (ok : σ → ι → Prop) [∀ s l, Decidable (ok s l)]
    (s : σ) (l : ι) : Option σ :=
  if ok s l then step s l else none

theorem restrict_run_meets [∀ s l, Decidable (ok s l)] {s t : σ} {ls : List ι}
    (h : run (restrict step ok) s ls = some t) : Meets step ok s ls ∧ run step s ls = some t := by
  induction ls generalizing s with
  | nil => exact ⟨trivial, h⟩
  | cons l ls ih =>
    obtain ⟨u, hu, h⟩ := Option.bind_eq_some_iff.mp h
    simp only [restrict, Option.ite_none_right_eq_some] at hu
    obtain ⟨hm, hr⟩ := ih h
    refine ⟨⟨hu.1, fun v hv => ?_⟩, by simp [run, hu.2, hr]⟩
    obtain rfl : u = v := Option.some.inj (hu.2.symm.trans hv)
    exact hm

theorem restrict_run_reach [∀ s l, Decidable (ok s l)] {s t : σ} {ls : List ι}
    (h : run (restrict step ok) s ls = some t) : Reach step ok s t :=
  run_reach (restrict_run_meets h).1 (restrict_run_meets h).2

theorem Meets.mono {ok' : σ → ι → Prop} (hmono : ∀ s l, ok s l → ok' s l) {s : σ} {ls : List ι}
    (h : Meets step ok s ls) : Meets step ok' s ls := by
  induction ls generalizing s with
  | nil => trivial
  | cons l ls ih => exact ⟨hmono _ _ h.1, fun t ht => ih (h.2 t ht)⟩

/-- What the guard implies in the states of an invariant that it preserves, holds along the run. -/
theorem Meets.along {ok' : σ → ι → Prop} {I : σ → Prop} {s : σ} {ls : List ι}
    (h : Meets step ok s ls) (hI : I s)
    (hstep : ∀ s l t, I s → ok s l → step s l = some t → I t)
    (himp : ∀ s l, I s → ok s l → ok' s l) : Meets step ok' s ls := by
  induction ls generalizing s with
  | nil => trivial
  | cons l ls ih =>
    exact ⟨himp s l hI h.1, fun t ht => ih (h.2 t ht) (hstep s l t hI h.1 ht)⟩

theorem meets_any (s : σ) (ls : List ι) : Meets step anyStep s ls := by
  induction ls generalizing s with
  | nil => trivial
  | cons l ls ih => exact ⟨trivial, fun t _ => ih t⟩

theorem Visits.start {P : σ → Prop} {s : σ} {ls : List ι} (h : Visits step P s ls) : P s := by
  cases ls with
  | nil => exact h
  | cons l ls => exact h.1

/-- A guard is exact for `P` when meeting it keeps an invariant that implies `P`, and one
step that breaks it lands outside `P`: then a run stays inside `P` if and only if all its
steps meet the guard. `base` holds the restrictions that both sides of the equivalence take
for granted. -/
theorem visits_iff_meets {I P : σ → Prop} {base : σ → ι → Prop}
    (hP : ∀ s, I s → P s)
    (good : ∀ s l t, I s → base s l → ok s l → step s l = some t → I t)
    (bad : ∀ s l t, I s → base s l → ¬ ok s l → step s l = some t → ¬ P t)
    {s t : σ} {ls : List ι} (hI : I s) (hb : Meets step base s ls)
    (h : run step s ls = some t) :
    Visits step P s ls ↔ Meets step ok s ls := by
  induction ls generalizing s with
  | nil => exact ⟨fun _ => trivial, fun _ => hP s hI⟩
  | cons l ls ih =>
    obtain ⟨u, hu, h⟩ := Option.bind_eq_some_iff.mp h
    constructor
    · intro hv
      have hok : ok s l := by
        by_contra hno
        exact bad s l u hI hb.1 hno hu (hv.2 u hu).start
      refine ⟨hok, fun v hv' => ?_⟩
      obtain rfl : u = v := Option.some.inj (hu.symm.trans hv')
      exact (ih (good s l u hI hb.1 hok hu) (hb.2 u hu) h).mp (hv.2 u hu)
    · intro hm
      refine ⟨hP s hI, fun v hv' => ?_⟩
      obtain rfl : u = v := Option.some.inj (hu.symm.trans hv')
      exact (ih (good s l u hI hb.1 hm.1 hu) (hb.2 u hu) h).mpr (hm.2 u hu)

/-! ### History variables -/

/-- The system together with a record of its steps, which never influences them. -/
def recorded (step : σ → ι → Option σ) (note : σ → ι → η → η) (s : σ × η) (l : ι) :
    Option (σ × η) :=
  (step s.1 l).map fun t => (t, note s.1 l s.2)

theorem recorded_eq {note : σ → ι → η → η} {s t : σ × η} {l : ι}
    (h : recorded step note s l = some t) : step s.1 l = some t.1 ∧ t.2 = note s.1 l s.2 := by
  obtain ⟨u, hu, rfl⟩ := Option.map_eq_some_iff.mp h
  exact ⟨hu, rfl⟩

theorem recorded_run {note : σ → ι → η → η} {s t : σ × η} {ls : List ι}
    (h : run (recorded step note) s ls = some t) : run step s.1 ls = some t.1 := by
  induction ls generalizing s with
  | nil => cases h; rfl
  | cons l ls ih =>
    obtain ⟨u, hu, h⟩ := Option.bind_eq_some_iff.mp h
    simp [run, (recorded_eq hu).1, ih h]

section lockstep
variable {step : σ → ι → Option σ} {step' : τ → ι → Option τ} {R : σ → τ → Prop}

/-- Systems that go on from related states in the same way run in the same way. -/
theorem run_rel (hstep : ∀ s t l, R s t → Option.Rel R (step s l) (step' t l)) {s : σ} {t : τ}
    (h : R s t) (ls : List ι) : Option.Rel R (run step s ls) (run step' t ls) := by
  induction ls generalizing s t with
  | nil => exact .some h
  | cons l ls ih =>
    have hnext := hstep s t l h
    simp only [run]
    generalize step s l = a at hnext ⊢
    generalize step' t l = b at hnext ⊢
    cases hnext with
    | none => exact .none
    | some hrel => exact ih hrel

theorem rel_imp {Q : σ → τ → Prop} (h : ∀ s t, R s t → Q s t) {a : Option σ} {b : Option τ}
    (hr : Option.Rel R a b) : Option.Rel Q a b := by
  cases hr with
  | none => exact .none
  | some hrel => exact .some (h _ _ hrel)

theorem Reach.related (hstep : ∀ s t l, R s t → Option.Rel R (step s l) (step' t l)) {s s' : σ}
    {t : τ} (h : R s t) (hs : Reach step anyStep s s') : ∃ t', Reach step' anyStep t t' ∧ R s' t' := by
  induction hs with
  | refl => exact ⟨t, .refl, h⟩
  | @tail u v l _ _ hl ih =>
    obtain ⟨w, hw, hrel⟩ := ih
    have hnext := hstep u w l hrel
    rw [hl] at hnext
    generalize hw' : step' w l = z at hnext
    cases hnext with
    | some hz => exact ⟨_, hw.tail trivial hw', hz⟩

end lockstep

end Transition
