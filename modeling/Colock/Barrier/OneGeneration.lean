import Colock.Barrier.HeldWaker

/-! A future whose entry was popped has been counted for a generation and has to answer
`Ready`. A poll looks at the flag of its parker once, outside the list lock; a leader that comes
after that look, or has popped and not yet stored, lets the poll go on to arrive again. -/
namespace Colock.Barrier
open Transition
variable {P : Type*} [DecidableEq P]

/-- Whose entry a release has popped since its last wait ended: a poll answered `false`, a
`wait` returned, or the future was dropped. -/
def noteDue (s : State P) : P × Act → (P → Bool) → P → Bool
  | (p, .next), due =>
    match s.pc p with
    | .popHead _ => s.queue.head?.elim due fun e => Function.update due e.owner true
    | .check _ => if (s.parker p).map s.flag = some true then Function.update due p false else due
    | .dropNode k =>
      if s.isOnList p = false ∧ k.endsWait = true then Function.update due p false else due
    | .unlockDrop k => if k.endsWait = true then Function.update due p false else due
    | _ => due
  | _, due => due

def Pc.renews : Pc P → Bool
  | .dropNode k | .lockDrop k | .removeNode k | .unlockDrop k => !k.endsWait
  | .newParker _ | .lockList _ | .count _ => true
  | _ => false

def Pc.enters : Pc P → Bool
  | .pushHead _ | .popHead _ | .wake _ _ | .unlockList _ _ => true
  | _ => false

def Pc.polls : Pc P → Bool
  | .check _ => true
  | .dropNode k | .lockDrop k | .removeNode k | .unlockDrop k => !k.endsWait
  | .newParker c | .lockList c | .count c | .pushHead c | .popHead c | .wake c _
  | .unlockList c _ => c != .wait
  | _ => false

/-- Whoever was counted is not on its way to be counted again. -/
def OneGeneration (s : State P × (P → Bool)) : Prop :=
  ∀ p, s.2 p = true → (s.1.pc p).renews = false ∧ (s.1.pc p).enters = false

def Pc.checks : Pc P → Bool
  | .check _ => true
  | _ => false

def Pc.pops : Pc P → Bool
  | .popHead _ => true
  | _ => false

/-- No poll looks at its flag between the pop of its entry and the store, and no release pops
the entry of a poll that has looked. -/
def ChecksInTime (s : State P × (P → Bool)) : P × Act → Prop
  | (p, .next) =>
    ((s.1.pc p).checks = true → s.2 p = true → (s.1.parker p).map s.1.flag = some true) ∧
    ((s.1.pc p).pops = true → ∀ e ∈ s.1.queue.head?, (s.1.pc e.owner).renews = false)
  | _ => True

/-- A poll of a party that is due ends in this step, and answers `Ready` without the lead. -/
def AnswersDue (target : Nat) (s : State P × (P → Bool)) (l : P × Act) : Prop :=
  s.2 l.1 = true → (s.1.pc l.1).polls = true →
    ∀ t, step target s.1 l = some t → Answers s.1 t l.1 false

structure Counted (s : State P × (P → Bool)) : Prop extends WellFormed s.1 where
  answers : OneGeneration s
  future : ∀ p, s.2 p = true → s.1.pc p = .out → s.1.parker p ≠ none

theorem noteDue_cases {s : State P} {p q : P} {a : Act} {due : P → Bool}
    (h : noteDue s (p, a) due q = true) :
    due q = true ∨ a = .next ∧ (s.pc p).pops = true ∧ ∃ e ∈ s.queue.head?, e.owner = q := by
  have kept : ∀ c : Prop, ∀ [Decidable c],
      (if c then Function.update due p false else due) q = true → due q = true := by
    intro c _ hc
    split at hc
    · by_cases hq : q = p <;> simp_all
    · exact hc
  cases a with
  | next =>
    cases hpc : s.pc p with
    | popHead c =>
      simp only [noteDue, hpc] at h
      cases he : s.queue.head? with
      | none => exact .inl (by simpa [he] using h)
      | some e =>
        by_cases hq : q = e.owner
        · exact .inr ⟨rfl, rfl, e, rfl, hq.symm⟩
        · exact .inl (by simpa [he, hq] using h)
    | check cx | dropNode k | unlockDrop k =>
      simp only [noteDue, hpc] at h
      exact .inl (kept _ h)
    | _ => exact .inl (by simpa only [noteDue, hpc] using h)
  | _ => exact .inl h

omit [DecidableEq P] in
theorem WellFormed.head_outside {s : State P} {p : P} {e : Entry P} (hs : WellFormed s)
    (hp : (s.pc p).pops = true) (he : e ∈ s.queue.head?) :
    e.owner ≠ p ∧ (s.pc e.owner).enters = false := by
  have hmem : e ∈ s.queue := List.mem_of_mem_head? he
  have hdetached : (s.pc p).detached = true := by
    cases hpc : s.pc p <;> simp_all [Pc.pops, Pc.detached]
  have hin : (s.pc p).inSection = true := by
    cases hpc : s.pc p <;> simp_all [Pc.pops, Pc.inSection]
  have hne : e.owner ≠ p := hs.off p hdetached e hmem
  refine ⟨hne, ?_⟩
  by_contra hc
  have hin' : (s.pc e.owner).inSection = true := by
    cases hpc : s.pc e.owner <;> simp_all [Pc.enters, Pc.inSection]
  exact hne (hs.alone hin' hin)

theorem step_answers {target : Nat} {s t : State P} {due : P → Bool} {p : P} {a : Act}
    (hs : Counted (s, due)) (hok : ChecksInTime (s, due) (p, a))
    (h : step target s (p, a) = some t) (hdue : due p = true)
    (hdue' : noteDue s (p, a) due p = true) :
    ((t.pc p).renews = false ∧ (t.pc p).enters = false) ∧ (t.pc p = .out → t.parker p ≠ none) := by
  obtain ⟨hrenews, henters⟩ := hs.answers p hdue
  have hfuture := hs.future p hdue
  simp only at hrenews henters hfuture
  cases a with
  | wait =>
    simp only [step, Option.ite_none_right_eq_some, Option.some.injEq] at h
    obtain ⟨⟨hpc, -, hparker⟩, -⟩ := h
    exact absurd hparker (hfuture hpc)
  | poll cx =>
    simp only [step, Option.ite_none_right_eq_some, Option.some.injEq] at h
    obtain ⟨hpc, rfl⟩ := h
    split
    · simpa [Pc.renews, Pc.enters] using hfuture hpc
    · simp [Pc.renews, Pc.enters]
  | dropFuture =>
    simp only [step, Option.ite_none_right_eq_some, Option.some.injEq] at h
    obtain ⟨-, rfl⟩ := h
    simp [Pc.renews, Pc.enters, Leave.endsWait]
  | next =>
    simp only [step] at h
    cases hpc : s.pc p with
    | out => simp [next, hpc] at h
    | newParker c | lockList c | count c => simp [hpc, Pc.renews] at hrenews
    | pushHead c | popHead c | wake c e | unlockList c b => simp [hpc, Pc.enters] at henters
    | check cx =>
      have hf := hok.1 (by simp [hpc, Pc.checks]) hdue
      simp [noteDue, hpc, show (s.parker p).map s.flag = some true from hf] at hdue'
    | park =>
      simp only [next, hpc, Option.bind_eq_some_iff, Option.ite_none_right_eq_some,
        Option.some.injEq] at h
      obtain ⟨i, -, -, rfl⟩ := h
      simp [Pc.renews, Pc.enters, Leave.endsWait]
    | dropNode k =>
      have hk : k.endsWait = true := by simpa [hpc, Pc.renews] using hrenews
      simp only [next, hpc, Option.some.injEq] at h
      subst t
      cases hon : s.isOnList p with
      | true => simp [Pc.renews, Pc.enters, hk]
      | false => simp [noteDue, hpc, hon, hk] at hdue'
    | lockDrop k =>
      have hk : k.endsWait = true := by simpa [hpc, Pc.renews] using hrenews
      simp only [next, hpc] at h
      obtain ⟨-, rfl⟩ := acquire_eq h
      simp [Pc.renews, Pc.enters, hk]
    | removeNode k =>
      have hk : k.endsWait = true := by simpa [hpc, Pc.renews] using hrenews
      simp only [next, hpc, Option.some.injEq] at h
      subst t
      simp [Pc.renews, Pc.enters, hk]
    | unlockDrop k =>
      have hk : k.endsWait = true := by simpa [hpc, Pc.renews] using hrenews
      simp [noteDue, hpc, hk] at hdue'

theorem step_counted {target : Nat} {s t : State P} {due : P → Bool} {p : P} {a : Act}
    (hs : Counted (s, due)) (hok : ChecksInTime (s, due) (p, a))
    (h : step target s (p, a) = some t) : Counted (t, noteDue s (p, a) due) := by
  have hall : ∀ q, noteDue s (p, a) due q = true →
      ((t.pc q).renews = false ∧ (t.pc q).enters = false) ∧ (t.pc q = .out → t.parker q ≠ none) := by
    intro q hq
    rcases noteDue_cases hq with hdue | ⟨rfl, hpops, e, he, rfl⟩
    · by_cases hqp : q = p
      · subst q
        exact step_answers hs hok h hdue hq
      · obtain ⟨hpc, hparker⟩ := step_others h hqp
        rw [hpc, hparker]
        exact ⟨hs.answers q hdue, hs.future q hdue⟩
    · obtain ⟨hne, henters⟩ := hs.head_outside hpops he
      obtain ⟨hpc, hsame⟩ := step_others h hne
      rw [hpc, hsame]
      have hparker : s.parker e.owner = some e.id :=
        hs.node_parker _ _ (hs.linked e (List.mem_of_mem_head? he))
      exact ⟨⟨hok.2 hpops e he, henters⟩, fun _ => by rw [hparker]; rintro ⟨⟩⟩
  exact ⟨step_wellFormed hs.toWellFormed h, fun q hq => (hall q hq).1, fun q hq => (hall q hq).2⟩

theorem step_late {target : Nat} {s t : State P} {due : P → Bool} {p : P} {a : Act}
    (hno : ¬ ChecksInTime (s, due) (p, a)) (h : step target s (p, a) = some t) :
    ¬ OneGeneration (t, noteDue s (p, a) due) := by
  cases a with
  | next =>
    simp only [ChecksInTime, not_and_or, Classical.not_imp, not_forall] at hno
    rcases hno with ⟨hchecks, hdue, hf⟩ | ⟨hpops, e, he, hrenews⟩
    · cases hpc : s.pc p with
      | check cx =>
        simp only [step, next, hpc, if_neg hf, Option.some.injEq] at h
        subst t
        intro hone
        have hp := hone p (by simp only [noteDue, hpc]; rwa [if_neg hf])
        simp [Pc.renews, Leave.endsWait] at hp
      | _ => simp [hpc, Pc.checks] at hchecks
    · cases hpc : s.pc p with
      | popHead c =>
        intro hone
        have hp := hone e.owner (by simp [noteDue, hpc, Option.mem_def.mp he])
        have hne : e.owner ≠ p := by
          intro heq
          simp [heq, hpc, Pc.renews] at hrenews
        simp only [(step_others h hne).1] at hp
        exact hrenews hp.1
      | _ => simp [hpc, Pc.pops] at hpops
  | _ => exact absurd trivial hno

theorem Counted.answersDue {target : Nat} {s : State P × (P → Bool)} {l : P × Act}
    (hs : Counted s) (hok : ChecksInTime s l) : AnswersDue target s l := by
  obtain ⟨s, due⟩ := s
  obtain ⟨p, a⟩ := l
  intro hdue hpolls t h
  replace h : step target s (p, a) = some t := h
  replace hpolls : (s.pc p).polls = true := hpolls
  obtain ⟨hrenews, henters⟩ := hs.answers p hdue
  simp only at hrenews henters
  -- of all the operations of a poll the first alone neither renews nor enters
  obtain ⟨cx, hpc⟩ : ∃ cx, s.pc p = .check cx := by
    cases hpc : s.pc p <;> simp_all [Pc.polls, Pc.renews, Pc.enters]
  cases step_cases h with
  | ready cx' hpc' => exact ⟨by simp [hpc], by simp, by simp⟩
  | renew cx' hpc' hflag => exact absurd (hok.1 (by simp [hpc, Pc.checks]) hdue) hflag
  | _ => simp_all

/-- A poll that is past its look goes on until it enters the queue or leads. -/
theorem step_renews {target : Nat} {s t : State P} {p : P} {l : P × Act}
    (hp : (s.pc p).renews = true) (h : step target s l = some t) :
    (t.pc p).renews = true ∨ (t.pc p).enters = true := by
  obtain ⟨q, a⟩ := l
  by_cases hq : p = q
  · subst q
    cases a with
    | wait | poll cx | dropFuture => cases hpc : s.pc p <;> simp_all [step, Pc.renews]
    | next =>
      simp only [step] at h
      have finish : ∀ (u : State P) (k : Leave), k.endsWait = false →
          ((u.finish p k).pc p).renews = true := by
        intro u k hk
        cases k <;> simp_all [Leave.endsWait, State.finish, Pc.renews]
      cases hpc : s.pc p with
      | newParker c =>
        simp only [next, hpc, Option.some.injEq] at h
        subst t
        simp [Pc.renews]
      | lockList c =>
        simp only [next, hpc] at h
        obtain ⟨-, rfl⟩ := acquire_eq h
        simp [Pc.renews]
      | count c =>
        simp only [next, hpc, Option.some.injEq] at h
        subst t
        split <;> simp [Pc.enters]
      | dropNode k =>
        rw [hpc] at hp
        simp only [next, hpc, Option.some.injEq] at h
        subst t
        split
        · exact .inl (by simpa [Pc.renews] using hp)
        · exact .inl (finish s k (by simpa [Pc.renews] using hp))
      | lockDrop k =>
        rw [hpc] at hp
        simp only [next, hpc] at h
        obtain ⟨-, rfl⟩ := acquire_eq h
        exact .inl (by simpa [Pc.renews] using hp)
      | removeNode k =>
        rw [hpc] at hp
        simp only [next, hpc, Option.some.injEq] at h
        subst t
        exact .inl (by simpa [Pc.renews] using hp)
      | unlockDrop k =>
        rw [hpc] at hp
        simp only [next, hpc, Option.some.injEq] at h
        subst t
        exact .inl (finish _ k (by simpa [Pc.renews] using hp))
      | _ => simp [hpc, Pc.renews] at hp
  · exact .inl ((step_others h hq).1 ▸ hp)

theorem run_renews {target : Nat} {s t : State P} {p : P} {ls : List (P × Act)}
    (h : run (step target) s ls = some t) (hp : (s.pc p).renews = true)
    (hout : (t.pc p).renews = false) :
    ¬ Visits (step target) (fun u => (u.pc p).enters = false) s ls := by
  induction ls generalizing s with
  | nil =>
    cases h
    simp [hp] at hout
  | cons l ls ih =>
    obtain ⟨u, hu, hr⟩ := Option.bind_eq_some_iff.mp h
    intro hv
    rcases step_renews hp hu with hrenews | henters
    · exact ih hr hrenews (hv.2 u hu)
    · simp [(hv.2 u hu).start] at henters

/-- In a run nobody whose entry was popped is on the way to be counted again if and only if all
polls look in time; then the poll in progress, or else the next one, answers `Ready` without the
lead. A poll that is on that way does not return without entering the queue or leading a
release. -/
theorem one_generation (target : Nat) {s : State P × (P → Bool)} {ls : List (P × Act)}
    (h : run (recorded (step target) noteDue) (init, fun _ => false) ls = some s) :
    (Visits (recorded (step target) noteDue) OneGeneration (init, fun _ => false) ls ↔
      Meets (recorded (step target) noteDue) ChecksInTime (init, fun _ => false) ls) ∧
    (Meets (recorded (step target) noteDue) ChecksInTime (init, fun _ => false) ls →
      Meets (recorded (step target) noteDue) (AnswersDue target) (init, fun _ => false) ls) ∧
    ∀ p ms t, run (step target) s.1 ms = some t → (s.1.pc p).renews = true →
      (t.pc p).renews = false →
      ¬ Visits (step target) (fun u => (u.pc p).enters = false) s.1 ms := by
  have hinit : Counted ((init : State P), fun _ => false) :=
    ⟨wellFormed_init, by rintro _ ⟨⟩, by rintro _ ⟨⟩⟩
  have hkeeps : ∀ (s : State P × (P → Bool)) l t, Counted s → ChecksInTime s l →
      recorded (step target) noteDue s l = some t → Counted t := by
    rintro ⟨s, due⟩ ⟨p, a⟩ ⟨t, due'⟩ hs hok h
    obtain ⟨h, hd⟩ := recorded_eq h
    cases hd
    exact step_counted hs hok h
  refine ⟨visits_iff_meets (I := Counted) (fun _ hs => hs.answers)
    (fun s l t hs _ hok h => hkeeps s l t hs hok h) ?_ hinit (meets_any _ _) h,
    fun hm => hm.along (I := Counted) hinit hkeeps fun _ _ hs hok => hs.answersDue hok,
    fun p ms t hr hp hout => run_renews hr hp hout⟩
  rintro ⟨s, due⟩ ⟨p, a⟩ ⟨t, due'⟩ - - hno h
  obtain ⟨h, hd⟩ := recorded_eq h
  cases hd
  exact step_late hno h

instance (s : State P × (P → Bool)) (l : P × Act) : Decidable (ChecksInTime s l) :=
  match l with
  | (p, .next) =>
    inferInstanceAs (Decidable (
      ((s.1.pc p).checks = true → s.2 p = true → (s.1.parker p).map s.1.flag = some true) ∧
      ((s.1.pc p).pops = true → ∀ e ∈ s.1.queue.head?, (s.1.pc e.owner).renews = false)))
  | (_, .wait) | (_, .poll _) | (_, .dropFuture) => isTrue trivial

theorem one_generation_late_poll : ∃ s : State (Fin 2) × (Fin 2 → Bool),
    s.1.result 0 = some false ∧ s.1.pc 0 = .out ∧
    Visits (recorded (step 2) noteDue) OneGeneration ((init : State (Fin 2)), fun _ => false)
      (wakePending 0 1 ++ nexts 1 1 ++ (0, .poll 1) :: nexts 0 1) ∧
    Meets (recorded (step 2) noteDue) (AnswersDue 2) ((init : State (Fin 2)), fun _ => false)
      (wakePending 0 1 ++ nexts 1 1 ++ (0, .poll 1) :: nexts 0 1) := by
  have hr : ((run (restrict (recorded (step 2) noteDue) ChecksInTime)
      ((init : State (Fin 2)), fun _ => false)
      (wakePending 0 1 ++ nexts 1 1 ++ (0, .poll 1) :: nexts 0 1)).map
        fun s => (s.1.result 0, s.1.pc 0)) = some (some false, .out) := by decide
  obtain ⟨s, hs, ho⟩ := Option.map_eq_some_iff.mp hr
  simp only [Prod.mk.injEq] at ho
  obtain ⟨hm, hrun⟩ := restrict_run_meets hs
  obtain ⟨honce, hanswers, -⟩ := one_generation 2 hrun
  exact ⟨s, ho.1, ho.2, honce.mpr hm, hanswers hm⟩

/-- The leader 1 has popped the entry of the future 0 and not yet stored to its parker: a poll
in between goes on, and enters the queue of the next generation. -/
theorem counted_twice : ¬ ∀ s : State (Fin 2) × (Fin 2 → Bool),
    Reach (recorded (step 2) noteDue) anyStep (init, fun _ => false) s →
    ∀ p, s.2 p = true → (s.1.pc p).enters = false := by
  have hr : ((run (recorded (step 2) noteDue) ((init : State (Fin 2)), fun _ => false)
      (wakePending 0 1 ++ (0, .poll 1) :: nexts 0 2 ++ nexts 1 3 ++ nexts 0 3)).map
        fun s => (s.2 0, s.1.pc 0)) = some (true, .pushHead (.poll 1)) := by decide
  obtain ⟨s, hs, ho⟩ := Option.map_eq_some_iff.mp hr
  simp only [Prod.mk.injEq] at ho
  intro h
  have hout := h s (run_reach (meets_any _ _) hs) 0 ho.1
  simp [ho.2, Pc.enters] at hout

end Colock.Barrier
