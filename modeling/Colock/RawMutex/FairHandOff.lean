import Colock.RawMutex.Exclusion

/-! When `unlock_fair` leaves `LOCKED_BIT` set, some waiter has to end up owning the lock:
what a timeout, and what a pending future, do to that. -/
namespace Colock.RawMutex
open Transition HandOff
variable {P : Type*} [DecidableEq P]

/-- The party was popped and will read `FAIR_BIT`, or has read it set and will clear it. -/
def State.attends (s : State P) (p : P) : Prop :=
  (s.pc p).looks ∧ s.woken p ∨ s.pc p = .fairClear

/-- The next operation is the one by which `unlock_fair` passes the lock on: it raises
`FAIR_BIT`, or toggles it when no waiter is left. -/
def Pc.handsOff : Pc P → Option Bool
  | .mark _ n => some (n == 0)
  | _ => none

/-- `unlock_fair` raises `FAIR_BIT` while some popped waiter still attends to it, and a
popped waiter whose wait times out leaves a raised bit to another one. When `fetch_xor`
finds the bit raised, which it then lowers, `LOCKED_BIT` is clear or has another owner. -/
def Heeds (s : State P) : P × Act → Prop
  | (p, .next) => ∀ toggle ∈ (s.pc p).handsOff,
      if toggle = true ∧ fair s.word = true then
        locked s.word = true → ∃ q, q ≠ p ∧ (s.pc q).owns = true
      else ∃ q, s.attends q
  | (p, .timeout) => s.woken p = true → fair s.word = true → ∃ q, q ≠ p ∧ s.attends q
  | _ => True

omit [DecidableEq P] in
theorem role_heir {c : Pc P} {b : Bool} : c.role b = .heir ↔ c.looks = true ∧ b = true := by
  cases hl : c.looks with
  | true => cases b <;> simp [role_of_looks hl]
  | false => cases c <;> simp_all [Pc.role, Pc.looks] <;> grind

omit [DecidableEq P] in
theorem view_attends {s : State P} {p : P} : (view s).Attends p ↔ s.attends p := by
  simp only [Lock.Attends, State.attends, (view_fields s).2.2, role_heir, role_accepting]

omit [DecidableEq P] in
theorem eventOf_fair {s : State P} {p : P} {a : Act} {e : Event P}
    (h : eventOf s (p, a) = some e) :
    match e with
    | .handOff q toggle => q = p ∧ a = .next ∧ ∃ x n, s.pc p = .mark x n ∧ toggle = (n == 0)
    | .dismiss q => q = p ∧ s.woken p = true ∧ (a = .timeout ∨ fair s.word = false)
    | _ => True := by
  cases a with
  | next =>
    simp only [eventOf] at h
    split at h
    · cases hpc : s.pc p <;> simp only [hpc, atomicEvent] at h <;> grind
    · cases hpc : s.pc p <;> simp only [hpc, queueEvent] at h <;> grind
  | timeout =>
    simp only [eventOf, Option.ite_none_right_eq_some, Option.some.injEq] at h
    obtain ⟨hw, rfl⟩ := h
    exact ⟨rfl, hw, .inl rfl⟩
  | _ => simp [eventOf] at h

omit [DecidableEq P] in
theorem heeded_of_heeds {s : State P} {l : P × Act} {e : Event P} (hok : Heeds s l)
    (he : eventOf s l = some e) : Heeded (view s) e := by
  obtain ⟨p, a⟩ := l
  have hfair := eventOf_fair he
  cases e with
  | handOff q toggle =>
    obtain ⟨rfl, rfl, x, n, hpc, rfl⟩ := hfair
    have hm := hok (n == 0) (by simp [hpc, Pc.handsOff])
    simpa only [Heeded, (view_fields s).1, (view_fields s).2.1, (view_fields s).2.2,
      view_attends, role_owner] using hm
  | dismiss q =>
    obtain ⟨rfl, hw, hc⟩ := hfair
    simp only [Heeded, (view_fields s).2.1, view_attends]
    intro hf
    rcases hc with rfl | hc
    · exact hok hw hf
    · simp [hc] at hf
  | _ => trivial

theorem step_answered {s t : State P} {l : P × Act} (hs : ∀ q, (s.pc q).sane)
    (hv : Answered (view s)) (hok : Heeds s l) (h : step s l = some t) : Answered (view t) := by
  have ha := step_answers hs h
  cases he : eventOf s l with
  | none =>
    rw [he] at ha
    exact ha ▸ hv
  | some e =>
    rw [he] at ha
    exact answered_next hv (heeded_of_heeds hok he) ha

omit [DecidableEq P] in
/-- A step that breaks `Heeds` is a hand-off or a dismissal that nobody heeds. -/
theorem unheeded_of_not_heeds {s : State P} {l : P × Act} (hno : ¬ Heeds s l) :
    ∃ e, eventOf s l = some e ∧ ¬ Heeded (view s) e := by
  obtain ⟨p, a⟩ := l
  cases a with
  | next =>
    simp only [Heeds, not_forall] at hno
    obtain ⟨toggle, htoggle, hno⟩ := hno
    have he : eventOf s (p, .next) = some (.handOff p toggle) := by
      cases hpc : s.pc p with
      | mark x n =>
        simp only [hpc, Pc.handsOff, Option.mem_def, Option.some.injEq] at htoggle
        simp [eventOf, atomicEvent, atomic, hpc, htoggle]
      | _ => simp [hpc, Pc.handsOff] at htoggle
    refine ⟨_, he, ?_⟩
    simpa only [Heeded, (view_fields s).1, (view_fields s).2.1, (view_fields s).2.2,
      view_attends, role_owner] using hno
  | timeout =>
    simp only [Heeds, Classical.not_imp] at hno
    obtain ⟨hw, hf, hno⟩ := hno
    refine ⟨.dismiss p, by simp [eventOf, hw], ?_⟩
    simp only [Heeded, (view_fields s).2.1, view_attends]
    exact fun h => hno (h hf)
  | _ => exact absurd trivial hno

/-- A fair hand-off is never orphaned in a run in which every step meets `Heeds`: once
every party is outside and holds nothing, both bits are clear. After a step that breaks
it, either `LOCKED_BIT` is set without `FAIR_BIT` and nobody owns the lock, or `FAIR_BIT` is set and
nobody attends to it. -/
theorem fair_handOff :
    (∀ s : State P, Reach step Heeds init s → (∀ p, s.pc p = .idle) →
      locked s.word = false ∧ fair s.word = false) ∧
    (∀ (s t : State P) (l : P × Act), Reach step anyStep init s → ¬ Heeds s l →
      step s l = some t →
      (locked t.word = true ∧ fair t.word = false ∧ ∀ p, (t.pc p).owns = false) ∨
      (fair t.word = true ∧ ∀ p, ¬ t.attends p)) := by
  constructor
  · intro s h hidle
    have ha := reach_answered (reach_view (fun _ _ _ => heeded_of_heeds) h)
    have hf : fair s.word = false := by
      by_contra hf
      obtain ⟨p, hp⟩ := ha.fair (by simpa using hf)
      simp [view_attends, State.attends, hidle, Pc.looks] at hp
    refine ⟨?_, hf⟩
    by_contra hl
    rcases ha.locked (by simpa using hl) with ⟨p, hp⟩ | hp
    · simp [role_owner, hidle, Pc.owns] at hp
    · simp [hf] at hp
  · intro s t l hs hno h
    obtain ⟨e, he, hno⟩ := unheeded_of_not_heeds hno
    have hstep := step_answers (reach_sane hs) h
    rw [he] at hstep
    have ha := unheeded_next hno hstep
    by_contra hc
    simp only [not_or, not_and, not_forall, not_not] at hc
    refine ha ⟨fun hl => ?_, fun hf => ?_⟩
    · cases hf : fair t.word with
      | true => exact .inr hf
      | false =>
        obtain ⟨p, hp⟩ := hc.1 hl hf
        exact .inl ⟨p, role_owner.mpr (by simpa using hp)⟩
    · obtain ⟨p, hp⟩ := hc.2 hf
      exact ⟨p, view_attends.mpr hp⟩

instance [Fintype P] (s : State P) (l : P × Act) : Decidable (Heeds s l) :=
  have (q : P) : Decidable (s.attends q) := inferInstanceAs (Decidable (_ ∨ _))
  match l with
  | (p, .next) =>
    inferInstanceAs (Decidable (∀ toggle ∈ (s.pc p).handsOff,
      if toggle = true ∧ fair s.word = true then
        locked s.word = true → ∃ q, q ≠ p ∧ (s.pc q).owns = true
      else ∃ q, s.attends q))
  | (p, .timeout) =>
    inferInstanceAs (Decidable (s.woken p = true → fair s.word = true →
      ∃ q, q ≠ p ∧ s.attends q))
  | (_, .start _) | (_, .release _) | (_, .dropFuture) => isTrue trivial

/-- Party 0 owns the lock, 1 waits with a timeout, and 0 begins to hand the lock over: it
has popped 1 and is about to mark the word. -/
def handOverToTimed : List (Fin 2 × Act) :=
  timedSleeps 0 1 ++ (0, .release .unlockFair) :: nexts 0 2

/-- A hand-over that is accepted, and one whose heir times out before the mark. -/
theorem fair_handOff_accepted :
    (∃ s : State (Fin 2), Reach step Heeds init s ∧ locked s.word = false ∧ fair s.word = false) ∧
    ∃ s t : State (Fin 2), Reach step anyStep init s ∧ step s (0, .next) = some t ∧
      ((locked t.word = true ∧ fair t.word = false ∧ ∀ p, (t.pc p).owns = false) ∨
        (fair t.word = true ∧ ∀ p, ¬ t.attends p)) := by
  constructor
  · have hr : ((run (restrict step Heeds) init (handOverToTimed ++ nexts 0 3 ++ nexts 1 4 ++
        (1, .release .unlock) :: nexts 1 1)).map fun s => decide (∀ p, s.pc p = .idle)) =
          some true := by decide
    obtain ⟨s, hs, hidle⟩ := Option.map_eq_some_iff.mp hr
    have hreach := restrict_run_reach hs
    exact ⟨s, hreach, fair_handOff.1 s hreach (by simpa using hidle)⟩
  · have hr : ((run step init (handOverToTimed ++ (1, .timeout) :: nexts 1 1)).map
        fun s => (decide (Heeds s (0, .next)), (step s (0, .next)).isSome)) =
          some (false, true) := by decide
    obtain ⟨s, hs, ho⟩ := Option.map_eq_some_iff.mp hr
    simp only [Prod.mk.injEq, decide_eq_false_iff_not, Option.isSome_iff_exists] at ho
    obtain ⟨hno, t, ht⟩ := ho
    have hreach := run_reach (meets_any _ _) hs
    exact ⟨s, t, hreach, ht, fair_handOff.2 s t _ hreach hno ht⟩

/-- The heir returns `false` from its timeout before `FAIR_BIT` is raised for it. -/
theorem orphaned_handOff : ¬ ∀ s : State (Fin 2),
    Reach step (fun _ l => l.2.blocking = true ∧ l.2 ≠ .release .bump) init s →
    (∀ p, s.pc p = .idle) → locked s.word = false ∧ fair s.word = false := by
  have hr : ((run (restrict step fun _ l => l.2.blocking = true ∧ l.2 ≠ .release .bump) init
      (handOverToTimed ++ (1, .timeout) :: nexts 1 1 ++ nexts 0 3)).map
      fun s => (decide (∀ p, s.pc p = .idle), locked s.word)) = some (true, true) := by decide
  obtain ⟨s, hs, ho⟩ := Option.map_eq_some_iff.mp hr
  simp only [Prod.mk.injEq, decide_eq_true_eq] at ho
  intro h
  have hfree := h s (restrict_run_reach hs) ho.1
  simp [ho.2] at hfree

/-! ### A hand-off to a pending future -/

/-- The word `unlock_fair` leaves for a popped waiter, after `n` other entries. -/
def handedOver (n : Nat) (w : Word) : Word :=
  if n = 0 then w ^^^ (waitBit ||| fairBit) else w ||| fairBit

/-- `unlock_fair` of `p`, about to pop, runs to its end; then `q` polls with `cx` and
returns `Ready` with `FAIR_BIT` clear. -/
def AcceptsByPoll (s : State P) (p q : P) (cx : Nat) : Prop :=
  ∃ n t, run step s (nexts p 4 ++ (q, .start (.poll cx)) :: nexts q n) = some t ∧
    t.pc q = .holding ∧ fair t.word = false

omit [DecidableEq P] in
theorem bits_handedOver (n : Nat) (w : Word) : locked (handedOver n w) = locked w ∧
    fair (handedOver n w) = if n = 0 then !fair w else true := by
  unfold handedOver
  split <;> simp

theorem unlockFair_run {s : State P} {p : P} {e : Entry P} (hp : s.pc p = .popTail .unlockFair)
    (he : s.queue.getLast? = some e) :
    ∃ t, run step s (nexts p 4) = some t ∧ t.word = handedOver (s.queue.length - 1) s.word ∧
      t.pc = Function.update s.pc p .idle := by
  refine ⟨_, by simp [nexts, run, step, atomic, queueStep, hp, he]; rfl, ?_, ?_⟩
  · simp [State.release, handedOver]
  · simp [State.release, afterRelease]

def Leave.renews : Leave → Bool
  | .renew _ => true
  | _ => false

def Pc.polling : Pc P → Bool
  | .idle => true
  | .cas c _ | .lockPush c | .loadState c | .sleepCas c _ | .pushHead c
  | .unlockQueue (.pushed c) => c.isPoll
  | .dropNode k | .lockDrop k | .removeNode k | .unlockQueue (.dropped k) => k.renews
  | _ => false

omit [DecidableEq P] in
theorem Flow.polling {w : Word} {c d : Pc P} (h : Flow w .next c d) (hl : locked w = true)
    (hs : c.sane) (hc : c.polling = true) : d.polling = true := by
  cases h with
  | casTaken call => simp [Pc.sane, hl] at hs
  | casRetry call expected hfree | sleepTaken call hfree => simp [hl] at hfree
  | dropOff k | dropped k => cases k <;> simp_all [Leave.renews, Leave.next, Pc.polling, Call.isPoll]
  | _ => simp_all [Pc.polling, Leave.renews, Call.isPoll]

theorem polling_step {s t : State P} {q : P} (hl : locked s.word = true) (hs : (s.pc q).sane)
    (hq : (s.pc q).polling = true) (h : step s (q, .next) = some t) :
    locked t.word = true ∧ (t.pc q).polling = true := by
  refine ⟨?_, (step_flow h).polling hl hs hq⟩
  cases step_cases h with
  | fetchUnlock r hpc | fairClear hpc | mark e n hpc | onEmpty hpc | clearWait r hpc =>
    simp [hpc, Pc.polling] at hq
  | _ => simp_all

theorem polling_run {s t : State P} {q : P} {n : Nat} (hl : locked s.word = true)
    (hs : ∀ p, (s.pc p).sane) (hq : (s.pc q).polling = true)
    (h : run step s (nexts q n) = some t) : (t.pc q).polling = true := by
  induction n generalizing s with
  | zero => cases h; exact hq
  | succ n ih =>
    obtain ⟨u, hu, h⟩ := Option.bind_eq_some_iff.mp h
    have hstep := polling_step hl (hs q) hq hu
    exact ih hstep.1 (step_sane hs hu) hstep.2 h

theorem poll_unlocked {s : State P} {q : P} {cx : Nat} (hl : locked s.word = false)
    (hq : s.pc q = .cas (.poll cx) unlocked) :
    ∃ n t, run step s (nexts q n) = some t ∧ t.pc q = .holding ∧ fair t.word = fair s.word := by
  by_cases hw : s.word = unlocked
  · exact ⟨1, _, by simp [nexts, run, step, hq, atomic, hw]; rfl, by simp, by simp [hw]⟩
  · exact ⟨2, _, by simp [nexts, run, step, hq, atomic, hw, hl]; rfl, by simp, by simp⟩

theorem poll_keeps_fair {s t : State P} {q : P} {cx : Nat} {expected : Word} {n : Nat}
    (hl : locked s.word = false) (hq : s.pc q = .cas (.poll cx) expected)
    (h : run step s (nexts q n) = some t) : fair t.word = fair s.word := by
  induction n generalizing s expected with
  | zero => cases h; rfl
  | succ n ih =>
    obtain ⟨u, hu, h⟩ := Option.bind_eq_some_iff.mp h
    simp only [step, hq, atomic] at hu
    by_cases hw : s.word = expected
    · simp only [hw, if_true, Option.some.injEq] at hu
      subst u
      cases n with
      | zero => cases h; simp [hw]
      | succ n => simp [run, step, atomic, queueStep, List.replicate] at h
    · simp only [hw, hl, if_false, Bool.false_eq_true, Option.some.injEq] at hu
      subst u
      have hcas : (s.commit q (.cas (.poll cx) s.word) s.word).pc q =
          .cas (.poll cx) s.word := by simp
      exact ih (s := s.commit q (.cas (.poll cx) s.word) s.word) hl hcas h

theorem acceptsByPoll_iff {s : State P} {p : P} {e : Entry P} (cx : Nat)
    (hp : s.pc p = .popTail .unlockFair) (he : s.queue.getLast? = some e)
    (hq : s.pc e.owner = .idle) :
    ∃ u : State P, u.word = handedOver (s.queue.length - 1) s.word ∧
      u.pc = Function.update (Function.update s.pc p .idle) e.owner (.cas (.poll cx) unlocked) ∧
      (AcceptsByPoll s p e.owner cx ↔ ∃ n t, run step u (nexts e.owner n) = some t ∧
        t.pc e.owner = .holding ∧ fair t.word = false) := by
  obtain ⟨u, hu, hw, hpc⟩ := unlockFair_run hp he
  have hidle : u.pc e.owner = .idle := by
    have hne : e.owner ≠ p := by
      intro h
      simp [h, hp] at hq
    simp [hpc, hne, hq]
  have hstart : step u (e.owner, .start (.poll cx)) =
      some (u.goto e.owner (.cas (.poll cx) unlocked)) := by
    simp [step, hidle, Call.isPoll]
  refine ⟨u.goto e.owner (.cas (.poll cx) unlocked), hw, by simp [hpc], ?_⟩
  unfold AcceptsByPoll
  simp only [run_append, hu, Option.bind_some, run, hstart]

/-- With `LOCKED_BIT` set the poll never returns: `should_sleep` cannot leave its loop while
`FAIR_BIT` is set as well. -/
theorem acceptsByPoll_unlocked {s : State P} {p : P} {e : Entry P} {cx : Nat}
    (hs : ∀ q, (s.pc q).sane) (hp : s.pc p = .popTail .unlockFair)
    (he : s.queue.getLast? = some e) (hq : s.pc e.owner = .idle)
    (h : AcceptsByPoll s p e.owner cx) : locked s.word = false := by
  obtain ⟨u, hw, hpc, hiff⟩ := acceptsByPoll_iff cx hp he hq
  obtain ⟨n, t, ht, hready, -⟩ := hiff.mp h
  by_contra hl
  have hlu : locked u.word = true := by
    rw [hw, (bits_handedOver _ _).1]
    simpa using hl
  have hsane : ∀ q, (u.pc q).sane := by
    intro q
    have hsq := hs q
    rw [hpc]
    by_cases h1 : q = e.owner <;> by_cases h2 : q = p <;> simp_all [Pc.sane]
  have hpoll := polling_run hlu hsane (by simp [hpc, Pc.polling, Call.isPoll]) ht
  simp [hready, Pc.polling] at hpoll

/-- A hand-off to a pending future is accepted by its next poll just when the popped entry
was the last one, `LOCKED_BIT` was clear and `FAIR_BIT` still raised: never while the
releaser's `LOCKED_BIT` stands, so in no run with one owner at a time. -/
theorem poll_accepts_handOff :
    (∀ (s : State P) (p : P) (e : Entry P) (cx : Nat), Reach step anyStep init s →
      s.pc p = .popTail .unlockFair → s.queue.getLast? = some e → s.pc e.owner = .idle →
      (AcceptsByPoll s p e.owner cx ↔
        s.queue.length = 1 ∧ locked s.word = false ∧ fair s.word = true)) ∧
    (∀ (s : State P) (p : P) (e : Entry P) (cx : Nat), Reach step ReadsAlone init s →
      s.pc p = .popTail .unlockFair → s.queue.getLast? = some e → s.pc e.owner = .idle →
      ¬ AcceptsByPoll s p e.owner cx) := by
  have exact_condition : ∀ (s : State P) (p : P) (e : Entry P) (cx : Nat),
      Reach step anyStep init s → s.pc p = .popTail .unlockFair → s.queue.getLast? = some e →
      s.pc e.owner = .idle → (AcceptsByPoll s p e.owner cx ↔
        s.queue.length = 1 ∧ locked s.word = false ∧ fair s.word = true) := by
    intro s p e cx hs hp he hq
    cases hl : locked s.word with
    | true =>
      simp only [Bool.true_eq_false, false_and, and_false, iff_false]
      intro hacc
      simp [acceptsByPoll_unlocked (reach_sane hs) hp he hq hacc] at hl
    | false =>
      obtain ⟨u, hw, hpc, hiff⟩ := acceptsByPoll_iff cx hp he hq
      have hbits := bits_handedOver (s.queue.length - 1) s.word
      rw [← hw] at hbits
      have hu : locked u.word = false := hbits.1.trans hl
      have hcas : u.pc e.owner = .cas (.poll cx) unlocked := by simp [hpc]
      have hfair : AcceptsByPoll s p e.owner cx ↔ fair u.word = false := by
        rw [hiff]
        constructor
        · rintro ⟨n, t, h, -, hf⟩
          exact (poll_keeps_fair hu hcas h).symm.trans hf
        · intro hf
          obtain ⟨n, t, h, ht, hft⟩ := poll_unlocked hu hcas
          exact ⟨n, t, h, ht, hft.trans hf⟩
      have hlen : 0 < s.queue.length := by
        rw [List.length_pos_iff]
        rintro hnil
        simp [hnil] at he
      have hone : s.queue.length - 1 = 0 ↔ s.queue.length = 1 := by omega
      rw [hfair, hbits.2]
      by_cases h1 : s.queue.length = 1 <;> simp [h1, hone]
  refine ⟨exact_condition, fun s p e cx hs hp he hq hacc => ?_⟩
  have hany : Reach step anyStep init s := hs.mono fun _ _ _ => trivial
  have hl := ((exact_condition s p e cx hany hp he hq).mp hacc).2.1
  have hx := reach_exclusive (reach_view (fun _ _ _ => alone_of_readsAlone) hs)
  have hb := hx.owner_bits p (role_owner.mpr (by simp [hp, Pc.owns]))
  simp [hl] at hb

def handOverToFuture : List (Fin 2 × Act) :=
  (0, .start (.lockInner false)) :: nexts 0 1 ++
  (1, .start (.poll 0)) :: nexts 1 8 ++
  (0, .release .unlockFair) :: nexts 0 1

/-- Parties 1, 2 and 3 accept one hand-off and own the lock together. Then 1 hands over to 4,
2 clears `LOCKED_BIT`, and 3 is about to pop the future 5, the last entry. -/
def handOverAmongOwners : List (Fin 6 × Act) :=
  (0, .start (.lockInner false)) :: nexts 0 1 ++
  (1, .start (.lockInner false)) :: nexts 1 8 ++
  (2, .start (.lockInner false)) :: nexts 2 6 ++
  (3, .start (.lockInner false)) :: nexts 3 6 ++
  (4, .start (.lockInner false)) :: nexts 4 6 ++
  (5, .start (.poll 0)) :: nexts 5 6 ++
  (0, .release .unlock) :: nexts 0 5 ++ (0, .start .tryLock) :: nexts 0 2 ++
  (0, .release .unlock) :: nexts 0 5 ++ (0, .start .tryLock) :: nexts 0 2 ++
  (0, .release .unlockFair) :: nexts 0 5 ++
  nexts 1 2 ++ nexts 2 2 ++ nexts 3 2 ++ nexts 1 2 ++ nexts 2 2 ++ nexts 3 2 ++
  (1, .release .unlockFair) :: nexts 1 5 ++
  (2, .release .unlock) :: nexts 2 1 ++
  (3, .release .unlockFair) :: nexts 3 1

theorem poll_accepts_handOff_pending :
    (∃ s : State (Fin 2), ∃ e, s.queue.getLast? = some e ∧ e.owner = 1 ∧
      ¬ AcceptsByPoll s 0 e.owner 0) ∧
    ∃ s : State (Fin 6), ∃ e, s.queue.getLast? = some e ∧ e.owner = 5 ∧
      AcceptsByPoll s 3 e.owner 0 := by
  constructor
  · have hr : ((run (restrict step ReadsAlone) init handOverToFuture).map fun s =>
        (s.pc 0, s.pc 1, s.queue.getLast?.map Entry.owner)) =
        some (.popTail .unlockFair, .idle, some 1) := by decide
    obtain ⟨s, hs, ho⟩ := Option.map_eq_some_iff.mp hr
    simp only [Prod.mk.injEq, Option.map_eq_some_iff] at ho
    obtain ⟨hp, hq, e, he, howner⟩ := ho
    exact ⟨s, e, he, howner, poll_accepts_handOff.2 s 0 e 0 (restrict_run_reach hs) hp he
      (howner ▸ hq)⟩
  · have hr : ((run step init handOverAmongOwners).map fun s =>
        (s.pc 3, s.pc 5, s.queue.getLast?.map Entry.owner, s.queue.length, locked s.word,
          fair s.word)) = some (.popTail .unlockFair, .idle, some 5, 1, false, true) := by decide
    obtain ⟨s, hs, ho⟩ := Option.map_eq_some_iff.mp hr
    simp only [Prod.mk.injEq, Option.map_eq_some_iff] at ho
    obtain ⟨hp, hq, ⟨e, he, howner⟩, hlen, hl, hf⟩ := ho
    exact ⟨s, e, he, howner, (poll_accepts_handOff.1 s 3 e 0 (run_reach (meets_any _ _) hs) hp he
      (howner ▸ hq)).mpr ⟨hlen, hl, hf⟩⟩

/-- The next poll of the future spins in `should_sleep`. -/
theorem poll_refuses_handOff : ¬ ∀ (s : State (Fin 2)) (p : Fin 2) (e : Entry (Fin 2)) (cx : Nat),
    Reach step anyStep init s → s.pc p = .popTail .unlockFair → s.queue.getLast? = some e →
    e.data = ⟨none, .task cx⟩ → s.pc e.owner = .idle → AcceptsByPoll s p e.owner cx := by
  have hr : ((run step init handOverToFuture).map fun s =>
      (s.pc 0, s.pc 1, locked s.word, s.queue)) =
      some (.popTail .unlockFair, .idle, true, [⟨0, 1, none, .task 0⟩]) := by decide
  obtain ⟨s, hs, ho⟩ := Option.map_eq_some_iff.mp hr
  simp only [Prod.mk.injEq] at ho
  obtain ⟨hp, hq, hl, hqueue⟩ := ho
  have he : s.queue.getLast? = some ⟨0, 1, none, .task 0⟩ := by simp [hqueue]
  have hreach := run_reach (meets_any _ _) hs
  intro h
  have hfree := acceptsByPoll_unlocked (reach_sane hreach) hp he hq (h s 0 _ 0 hreach hp he rfl hq)
  simp [hl] at hfree

end Colock.RawMutex
