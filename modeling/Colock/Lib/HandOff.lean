import Colock.Lib.Transition

/-! A lock with an anonymous hand-off bit. An owner gives the lock up either by clearing
`locked` or by raising `fair` while `locked` stays set; a party that sees `fair` raised
becomes the owner by clearing it, in two separate steps. -/
namespace HandOff
open Transition
variable {P : Type*} [DecidableEq P]

/-- `heir` is a party that will still look at `fair`; `accepting` has seen it raised and
not yet cleared it. -/
inductive Role
  | out | heir | accepting | owner
  deriving DecidableEq

@[ext] structure Lock (P : Type*) where
  locked : Bool
  fair : Bool
  role : P → Role

inductive Event (P : Type*)
  | acquire (p : P)
  | release (p : P)
  | handOff (p : P) (toggle : Bool)
  | see (p : P)
  | take (p : P)
  | designate (p : P)
  | dismiss (p : P)

def Lock.assign (v : Lock P) (p : P) (r : Role) : Lock P :=
  { v with role := Function.update v.role p r }

def next (v : Lock P) : Event P → Option (Lock P)
  | .acquire p =>
    if v.locked = false ∧ v.role p = .out then
      some { v.assign p .owner with locked := true } else none
  | .release p =>
    if v.role p = .owner then some { v.assign p .out with locked := false } else none
  | .handOff p toggle =>
    if v.role p = .owner then
      some { v.assign p .out with fair := if toggle then !v.fair else true } else none
  | .see p =>
    if v.fair = true ∧ (v.role p = .out ∨ v.role p = .heir) then
      some (v.assign p .accepting) else none
  | .take p =>
    if v.role p = .accepting then some { v.assign p .owner with fair := false } else none
  | .designate p => if v.role p = .out then some (v.assign p .heir) else none
  | .dismiss p => if v.role p = .heir then some (v.assign p .out) else none

@[simp] theorem assign_locked (v : Lock P) (p : P) (r : Role) :
    (v.assign p r).locked = v.locked := rfl

@[simp] theorem assign_fair (v : Lock P) (p : P) (r : Role) : (v.assign p r).fair = v.fair := rfl

@[simp] theorem assign_role (v : Lock P) (p q : P) (r : Role) :
    (v.assign p r).role q = if q = p then r else v.role q := by
  simp [Lock.assign, Function.update_apply]

def Alone (v : Lock P) : Event P → Prop
  | .see _ => ∀ q, v.role q ≠ .accepting
  | _ => True

/-- At most one party owns the lock or is about to, and the two bits tell which. -/
structure Exclusive (v : Lock P) : Prop where
  one_owner : ∀ p q, v.role p = .owner → v.role q = .owner → p = q
  one_accepting : ∀ p q, v.role p = .accepting → v.role q = .accepting → p = q
  owner_alone : ∀ p q, v.role p = .owner → v.role q ≠ .accepting
  owner_bits : ∀ p, v.role p = .owner → v.locked = true ∧ v.fair = false
  accepting_bits : ∀ p, v.role p = .accepting → v.fair = true
  fair_locked : v.fair = true → v.locked = true

omit [DecidableEq P] in
theorem Exclusive.unlocked {v : Lock P} (h : Exclusive v) (hl : v.locked = false) (p : P) :
    v.fair = false ∧ v.role p ≠ .owner ∧ v.role p ≠ .accepting := by
  have hf : v.fair = false := by
    cases hf : v.fair
    · rfl
    · simp [h.fair_locked hf] at hl
  refine ⟨hf, fun ho => ?_, fun ha => ?_⟩
  · simp [(h.owner_bits p ho).1] at hl
  · simp [h.accepting_bits p ha] at hf

theorem exclusive_next {v w : Lock P} {e : Event P} (h : Exclusive v) (ha : Alone v e)
    (hn : next v e = some w) : Exclusive w := by
  cases e with
  | acquire p =>
    simp only [next, Option.ite_none_right_eq_some, Option.some.injEq] at hn
    obtain ⟨⟨hl, -⟩, rfl⟩ := hn
    have hu := h.unlocked hl
    have hf := (hu p).1
    constructor <;> simp only [assign_role, assign_fair] <;> grind
  | release p =>
    simp only [next, Option.ite_none_right_eq_some, Option.some.injEq] at hn
    obtain ⟨ho, rfl⟩ := hn
    have hb := h.owner_bits p ho
    have h1 := h.one_owner p
    have h2 := h.owner_alone p
    constructor <;> simp only [assign_role, assign_fair] <;> grind
  | handOff p toggle =>
    simp only [next, Option.ite_none_right_eq_some, Option.some.injEq] at hn
    obtain ⟨ho, rfl⟩ := hn
    have hb := h.owner_bits p ho
    have h1 := h.one_owner p
    have h2 := h.owner_alone p
    constructor <;> simp only [assign_role, assign_locked] <;> grind
  | see p =>
    simp only [next, Option.ite_none_right_eq_some, Option.some.injEq] at hn
    obtain ⟨⟨hf, -⟩, rfl⟩ := hn
    have hb := h.owner_bits
    have hl := h.fair_locked hf
    simp only [Alone] at ha
    constructor <;> simp only [assign_role, assign_locked, assign_fair] <;> grind
  | take p =>
    simp only [next, Option.ite_none_right_eq_some, Option.some.injEq] at hn
    obtain ⟨hp, rfl⟩ := hn
    have h1 := h.one_accepting p
    have h2 := h.owner_alone
    have hl := h.fair_locked (h.accepting_bits p hp)
    constructor <;> simp only [assign_role, assign_locked] <;> grind
  | designate p | dismiss p =>
    simp only [next, Option.ite_none_right_eq_some, Option.some.injEq] at hn
    obtain ⟨hp, rfl⟩ := hn
    obtain ⟨h1, h2, h3, h4, h5, h6⟩ := h
    constructor <;> simp only [assign_role, assign_locked, assign_fair] <;> grind

def Lock.Attends (v : Lock P) (p : P) : Prop := v.role p = .heir ∨ v.role p = .accepting

/-- A raised bit has somebody attending to it, also after a party leaves; a hand-off that
lowers the bit leaves another owner behind. -/
def Heeded (v : Lock P) : Event P → Prop
  | .handOff p toggle =>
    if toggle = true ∧ v.fair = true then v.locked = true → ∃ q, q ≠ p ∧ v.role q = .owner
    else ∃ q, v.Attends q
  | .dismiss p => v.fair = true → ∃ q, q ≠ p ∧ v.Attends q
  | _ => True

structure Answered (v : Lock P) : Prop where
  locked : v.locked = true → (∃ p, v.role p = .owner) ∨ v.fair = true
  fair : v.fair = true → ∃ p, v.Attends p

theorem attends_assign {v : Lock P} {p q : P} {r : Role} :
    (v.assign p r).Attends q ↔ if q = p then r = .heir ∨ r = .accepting else v.Attends q := by
  unfold Lock.Attends
  split <;> simp_all

theorem answered_next {v w : Lock P} {e : Event P} (h : Answered v) (ha : Heeded v e)
    (hn : next v e = some w) : Answered w := by
  obtain ⟨h1, h2⟩ := h
  cases e with
  | acquire p =>
    simp only [next, Option.ite_none_right_eq_some, Option.some.injEq] at hn
    obtain ⟨⟨hl, hp⟩, rfl⟩ := hn
    refine ⟨fun _ => .inl ⟨p, by simp⟩, fun hf => ?_⟩
    obtain ⟨q, hq⟩ := h2 hf
    exact ⟨q, attends_assign.mpr (by grind [Lock.Attends])⟩
  | release p =>
    simp only [next, Option.ite_none_right_eq_some, Option.some.injEq] at hn
    obtain ⟨ho, rfl⟩ := hn
    refine ⟨fun hl => by simp at hl, fun hf => ?_⟩
    obtain ⟨q, hq⟩ := h2 hf
    exact ⟨q, attends_assign.mpr (by grind [Lock.Attends])⟩
  | handOff p toggle =>
    simp only [next, Option.ite_none_right_eq_some, Option.some.injEq] at hn
    obtain ⟨ho, rfl⟩ := hn
    by_cases ht : toggle = true ∧ v.fair = true
    · -- the bit is lowered: nobody needs to attend, but `locked` must have an owner
      simp only [Heeded, ht, and_self, if_true] at ha
      refine ⟨fun hl => ?_, fun hf => by simp [ht] at hf⟩
      obtain ⟨q, hne, hq⟩ := ha hl
      exact .inl ⟨q, by simp [hne, hq]⟩
    · simp only [Heeded, ht, if_false] at ha
      have hf : (if toggle then !v.fair else true) = true := by
        cases toggle <;> simp_all
      obtain ⟨q, hq⟩ := ha
      exact ⟨fun _ => .inr hf, fun _ => ⟨q, attends_assign.mpr (by grind [Lock.Attends])⟩⟩
  | see p =>
    simp only [next, Option.ite_none_right_eq_some, Option.some.injEq] at hn
    obtain ⟨⟨hf, -⟩, rfl⟩ := hn
    exact ⟨fun _ => .inr hf, fun _ => ⟨p, attends_assign.mpr (by simp)⟩⟩
  | take p =>
    simp only [next, Option.ite_none_right_eq_some, Option.some.injEq] at hn
    obtain ⟨hp, rfl⟩ := hn
    exact ⟨fun _ => .inl ⟨p, by simp⟩, fun hf => by simp at hf⟩
  | designate p =>
    simp only [next, Option.ite_none_right_eq_some, Option.some.injEq] at hn
    obtain ⟨hp, rfl⟩ := hn
    refine ⟨fun hl => ?_, fun _ => ⟨p, attends_assign.mpr (by simp)⟩⟩
    refine (h1 hl).imp_left fun ⟨q, hq⟩ => ⟨q, ?_⟩
    simp only [assign_role]; grind
  | dismiss p =>
    simp only [next, Option.ite_none_right_eq_some, Option.some.injEq] at hn
    obtain ⟨hp, rfl⟩ := hn
    constructor
    · intro hl
      refine (h1 hl).imp_left fun ⟨q, hq⟩ => ⟨q, ?_⟩
      simp only [assign_role]; grind
    · intro hf
      obtain ⟨q, hne, hq⟩ := ha hf
      exact ⟨q, attends_assign.mpr (by simpa [hne] using hq)⟩

/-- `Heeded` leaves out only the events after which a bit is set on nobody's behalf. -/
theorem unheeded_next {v w : Lock P} {e : Event P} (ha : ¬ Heeded v e)
    (hn : next v e = some w) : ¬ Answered w := by
  intro ⟨h1, h2⟩
  cases e with
  | handOff p toggle =>
    simp only [next, Option.ite_none_right_eq_some, Option.some.injEq] at hn
    obtain ⟨ho, rfl⟩ := hn
    by_cases ht : toggle = true ∧ v.fair = true
    · simp only [Heeded, ht, and_self, if_true, Classical.not_imp, not_exists, not_and] at ha
      rcases h1 ha.1 with ⟨q, hq⟩ | hf
      · by_cases hne : q = p
        · simp [hne] at hq
        · exact ha.2 q hne (by simpa [hne] using hq)
      · simp [ht] at hf
    · simp only [Heeded, ht, if_false, not_exists] at ha
      have hf : (if toggle then !v.fair else true) = true := by
        cases toggle <;> simp_all
      obtain ⟨q, hq⟩ := h2 hf
      have hq := attends_assign.mp hq
      by_cases hne : q = p
      · simp [hne] at hq
      · exact ha q (by simpa [hne] using hq)
  | dismiss p =>
    simp only [next, Option.ite_none_right_eq_some, Option.some.injEq] at hn
    obtain ⟨hp, rfl⟩ := hn
    simp only [Heeded, Classical.not_imp, not_exists, not_and] at ha
    obtain ⟨q, hq⟩ := h2 ha.1
    have hq := attends_assign.mp hq
    by_cases hne : q = p
    · simp [hne] at hq
    · exact ha.2 q hne (by simpa [hne] using hq)
  | _ => exact ha trivial

def free : Lock P := ⟨false, false, fun _ => .out⟩

/-- Mutual exclusion, over any number of parties and any order of events, as long as no
two parties see one raised bit. -/
theorem reach_exclusive {v : Lock P} (h : Reach next Alone free v) : Exclusive v :=
  h.invariant (by constructor <;> simp [free]) fun _ _ _ hi ha hn => exclusive_next hi ha hn

theorem reach_answered {v : Lock P} (h : Reach next Heeded free v) : Answered v :=
  h.invariant (by constructor <;> simp [free]) fun _ _ _ hi ha hn => answered_next hi ha hn

end HandOff
