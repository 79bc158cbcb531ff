import Colock.Lib.Transition
import Mathlib.Algebra.BigOperators.Group.Finset.Basic
import Mathlib.Algebra.Order.BigOperators.Group.Finset
import Mathlib.Data.Fintype.BigOperators
import Mathlib.Tactic.Ring

/-! Systems of which every run ends. Parties that share a state retry when others interfere,
so no party is near its end by its own steps alone; but what interferes is paid from a budget
that all of them share, and between two such steps a retry leads on. -/
namespace Transition
variable {σ ι : Type*} {step : σ → ι → Option σ}

/-- The step changes something; a party that waits and looks again does not. -/
def Changes (step : σ → ι → Option σ) (s : σ) (l : ι) : Prop := step s l ≠ some s

def Stuck (step : σ → ι → Option σ) (s : σ) : Prop := ∀ l t, step s l = some t → t = s

/-- Every run from `s`, in whatever order the parties go, has at most `n` steps that change
something, and when it cannot go on `final` holds. -/
structure Ends (step : σ → ι → Option σ) (s : σ) (n : Nat) (final : σ → Prop) : Prop where
  bound : ∀ ls t, Meets step (Changes step) s ls → run step s ls = some t → ls.length ≤ n
  final : ∀ t, Reach step anyStep s t → Stuck step t → final t

structure Descends (step : σ → ι → Option σ) (I : σ → Prop) (potential : σ → Nat) : Prop where
  keeps : ∀ s l t, I s → step s l = some t → I t
  lowers : ∀ s l t, I s → step s l = some t → t ≠ s → potential t < potential s

variable {I : σ → Prop} {potential : σ → Nat}

theorem Descends.length_le (h : Descends step I potential) {s t : σ} {ls : List ι} (hs : I s)
    (hm : Meets step (Changes step) s ls) (hr : run step s ls = some t) :
    ls.length + potential t ≤ potential s := by
  induction ls generalizing s with
  | nil =>
    obtain rfl := Option.some.inj hr
    simp
  | cons l ls ih =>
    obtain ⟨u, hu, hr⟩ := Option.bind_eq_some_iff.mp hr
    have hne : u ≠ s := by
      rintro rfl
      exact hm.1 hu
    have hrest := ih (h.keeps s l u hs hu) (hm.2 u hu) hr
    have hone := h.lowers s l u hs hu hne
    rw [List.length_cons]
    omega

theorem Descends.ends (h : Descends step I potential) {s : σ} {final : σ → Prop} (hs : I s)
    (hfinal : ∀ t, I t → Stuck step t → final t) : Ends step s (potential s) final where
  bound ls t hm hr := by
    have hle := h.length_le hs hm hr
    omega
  final t hr hstuck := hfinal t (hr.invariant hs fun s l t hs _ hst => h.keeps s l t hs hst) hstuck

theorem meets_append {ok : σ → ι → Prop} {s t : σ} {ls ms : List ι} (h : Meets step ok s ls)
    (hr : run step s ls = some t) (ht : Meets step ok t ms) : Meets step ok s (ls ++ ms) := by
  induction ls generalizing s with
  | nil =>
    obtain rfl := Option.some.inj hr
    exact ht
  | cons l ls ih =>
    obtain ⟨u, hu, hr⟩ := Option.bind_eq_some_iff.mp hr
    refine ⟨h.1, fun v hv => ?_⟩
    obtain rfl : u = v := Option.some.inj (hu.symm.trans hv)
    exact ih (h.2 u hu) hr

/-- From every state that a run reaches it can be brought to its end. -/
theorem Ends.reaches {s : σ} {n : Nat} {final : σ → Prop} (h : Ends step s n final) :
    ∀ ls t, Meets step (Changes step) s ls → run step s ls = some t →
      ∃ ms u, run step t ms = some u ∧ final u := by
  intro ls t hm hr
  induction hk : n - ls.length using Nat.strong_induction_on generalizing ls t with
  | _ k ih =>
    by_cases hstuck : Stuck step t
    · exact ⟨[], t, rfl, h.final t (run_reach (meets_any _ _) hr) hstuck⟩
    · simp only [Stuck, not_forall] at hstuck
      obtain ⟨l, u, hu, hne⟩ := hstuck
      have hlast : Meets step (Changes step) t [l] :=
        ⟨fun hsame => hne (Option.some.inj (hu.symm.trans hsame)), fun _ _ => trivial⟩
      have hmore := meets_append hm hr hlast
      have hrun : run step s (ls ++ [l]) = some u := by simp [run_append, hr, run, hu]
      have hlt := h.bound _ u hmore hrun
      simp only [List.length_append, List.length_singleton] at hlt
      obtain ⟨ms, v, hms, hv⟩ := ih (n - (ls ++ [l]).length)
        (by simp only [List.length_append, List.length_singleton]; omega) _ u hmore hrun rfl
      exact ⟨l :: ms, v, by simp [run, hu, hms], hv⟩

def Leads (step : σ → ι → Option σ) (s : σ) (t : σ) : Prop :=
  ∃ ls, Meets step (Changes step) s ls ∧ run step s ls = some t

/-- The most steps that change something, `n` or fewer, that a run from `t` can have. -/
noncomputable def longest (step : σ → ι → Option σ) (n : Nat) (t : σ) : Nat :=
  open Classical in
  Nat.findGreatest (fun m => ∃ ls u, Meets step (Changes step) t ls ∧ run step t ls = some u ∧
    ls.length = m) n

theorem longest_spec (step : σ → ι → Option σ) (n : Nat) (t : σ) :
    ∃ ls u, Meets step (Changes step) t ls ∧ run step t ls = some u ∧
      ls.length = longest step n t := by
  classical
  have h0 : ∃ ls u, Meets step (Changes step) t ls ∧ run step t ls = some u ∧ ls.length = 0 :=
    ⟨[], t, trivial, rfl, rfl⟩
  exact Nat.findGreatest_spec (P := fun m => ∃ ls u, Meets step (Changes step) t ls ∧
    run step t ls = some u ∧ ls.length = m) (Nat.zero_le n) h0

/-- What ends does so by a potential: the longest way to go on. -/
theorem Ends.descends {s : σ} {n : Nat} {final : σ → Prop} (h : Ends step s n final) :
    Descends step (Leads step s) (longest step n) where
  keeps t l u := by
    rintro ⟨ls, hm, hr⟩ hu
    by_cases hsame : u = t
    · exact hsame ▸ ⟨ls, hm, hr⟩
    · have hlast : Meets step (Changes step) t [l] :=
        ⟨fun heq => hsame (Option.some.inj (hu.symm.trans heq)), fun _ _ => trivial⟩
      exact ⟨ls ++ [l], meets_append hm hr hlast, by simp [run_append, hr, run, hu]⟩
  lowers t l u := by
    rintro ⟨ls, hm, hr⟩ hu hne
    obtain ⟨ms, v, hms, hv, hlength⟩ := longest_spec step n u
    have hmore : Meets step (Changes step) t (l :: ms) := by
      refine ⟨fun heq => hne (Option.some.inj (hu.symm.trans heq)), fun w hw => ?_⟩
      obtain rfl := Option.some.inj (hu.symm.trans hw)
      exact hms
    have hrun : run step t (l :: ms) = some v := by simp [run, hu, hv]
    have hbound := h.bound (ls ++ l :: ms) v (meets_append hm hr hmore)
      (by simp [run_append, hr, hrun])
    simp only [List.length_append, List.length_cons] at hbound
    have hle : ms.length + 1 ≤ longest step n t := by
      classical
      exact Nat.le_findGreatest (by omega) ⟨l :: ms, v, hmore, hrun, rfl⟩
    omega

section amortised
variable {P : Type*} [Fintype P]

/-- A unit of budget outweighs the ranks of all parties, each of which is `bound` at most. -/
def amortised (budget : Nat) (rank : P → Nat) (bound : Nat) : Nat :=
  budget * (bound * Fintype.card P + 1) + ∑ p, rank p

theorem sum_rank_le {rank : P → Nat} {bound : Nat} (h : ∀ p, rank p ≤ bound) :
    ∑ p, rank p ≤ bound * Fintype.card P := by
  calc
    ∑ p, rank p ≤ ∑ _p : P, bound := Finset.sum_le_sum fun p _ => h p
    _ = bound * Fintype.card P := by simp [Nat.mul_comm]

/-- A step that pays may send every other party back to the start of its retries. -/
theorem amortised_paid {budget budget' bound : Nat} {rank rank' : P → Nat} (h : budget' < budget)
    (hbound : ∀ p, rank' p ≤ bound) :
    amortised budget' rank' bound < amortised budget rank bound := by
  have hsum := sum_rank_le hbound
  have hweight : budget' * (bound * Fintype.card P + 1) + (bound * Fintype.card P + 1) ≤
      budget * (bound * Fintype.card P + 1) := by
    rw [← Nat.succ_mul]
    exact Nat.mul_le_mul_right _ h
  unfold amortised
  omega

theorem amortised_le {budget budget' price bound : Nat} {rank rank' : P → Nat}
    (h : budget' ≤ budget + price) (hbound : ∀ p, rank' p ≤ bound) :
    amortised budget' rank' bound ≤
      amortised budget rank bound + (price + 1) * (bound * Fintype.card P + 1) := by
  have hsum := sum_rank_le hbound
  have hweight := Nat.mul_le_mul_right (bound * Fintype.card P + 1) h
  rw [Nat.add_mul] at hweight
  rw [Nat.add_mul, Nat.one_mul]
  unfold amortised
  omega

theorem amortised_leads {budget budget' bound : Nat} {rank rank' : P → Nat} {p : P}
    (h : budget' ≤ budget) (hp : rank' p < rank p) (hothers : ∀ q, q ≠ p → rank' q = rank q) :
    amortised budget' rank' bound < amortised budget rank bound := by
  have hsum : ∑ q, rank' q < ∑ q, rank q := by
    refine Finset.sum_lt_sum (fun q _ => ?_) ⟨p, Finset.mem_univ p, hp⟩
    by_cases hq : q = p
    · exact hq ▸ hp.le
    · exact (hothers q hq).le
  have hweight := Nat.mul_le_mul_right (bound * Fintype.card P + 1) h
  unfold amortised
  omega

theorem sum_update [DecidableEq P] {f g : P → Nat} {p : P} (h : ∀ q, q ≠ p → g q = f q) :
    ∑ q, g q + f p = ∑ q, f q + g p := by
  rw [← Finset.add_sum_erase _ f (Finset.mem_univ p), ← Finset.add_sum_erase _ g (Finset.mem_univ p),
    Finset.sum_congr rfl fun q hq => h q (Finset.ne_of_mem_erase hq)]
  ring

theorem sum_update_two [DecidableEq P] {f g : P → Nat} {p q : P} (hqp : q ≠ p)
    (h : ∀ r, r ≠ p → r ≠ q → g r = f r) :
    ∑ r, g r + f p + f q = ∑ r, f r + g p + g q := by
  have hfirst := sum_update (f := f) (g := Function.update f p (g p)) (p := p)
    fun r hr => by simp [hr]
  have hthen := sum_update (f := Function.update f p (g p)) (g := g) (p := q) fun r hr => by
    by_cases hrp : r = p
    · simp [hrp]
    · simp [hrp, h r hrp hr]
  simp only [Function.update_self, Function.update_of_ne hqp] at hfirst hthen
  omega

end amortised

end Transition
