import Colock.Barrier.OverMiniLock
import Colock.Barrier.Rounds
import Mathlib.Data.Fintype.Card

/-! Parties that come to a barrier again and again stay in step: nobody begins a round before
everybody has begun the one before it. -/
namespace Colock.Barrier
open Transition LockImpl
variable {P : Type*} [DecidableEq P]

/-- The party is left alone until it is woken, and so is every other. -/
abbrev Undisturbed (target : Nat) (x : Rounds P) : Prop :=
  Kept target (fun _ => true) x.barrier x.ledger

def Pc.comes : Pc P → Bool
  | .newParker _ | .lockList _ | .count _ | .pushHead _ => true
  | c => c.clears

def State.Comes (s : State P) (p : P) : Prop :=
  (s.pc p).comes = true ∨ (s.pc p).checks = true ∧ s.parker p = none

def State.releasing (s : State P) : Bool := s.lock.any fun p => (s.pc p).stage = .releases

/-- The party has begun a wait of a generation that is not complete. -/
def State.Ahead (s : State P) (p : P) : Prop := s.Comes p ∨ ¬ s.Off p ∧ s.releasing = false

/-- The generations that are complete, with the one that is being woken. -/
def Rounds.complete (x : Rounds P) : Nat :=
  x.ledger.released.length + if x.barrier.releasing then 1 else 0

structure Level (x : Rounds P) : Prop where
  ahead : ∀ p, x.barrier.Ahead p → x.begun p = x.complete + 1
  level : ∀ p, ¬ x.barrier.Ahead p → x.begun p = x.complete

omit [DecidableEq P] in
theorem WellFormed.releasing_iff {s : State P} (hs : WellFormed s) :
    s.releasing = true ↔ ∃ p, (s.pc p).stage = .releases := by
  constructor
  · intro h
    cases hlock : s.lock with
    | none => simp [State.releasing, hlock] at h
    | some p => exact ⟨p, by simpa [State.releasing, hlock] using h⟩
  · rintro ⟨p, hp⟩
    have hlock := hs.locked (p := p) (Pc.inSection_of_stage (by simp [hp]))
    simp [State.releasing, hlock, hp]

omit [DecidableEq P] in
theorem releasing_step {s t : State P} {p : P} (hs : WellFormed s) (ht : WellFormed t)
    (hpc : ∀ q, q ≠ p → t.pc q = s.pc q)
    (hp : (t.pc p).stage = .releases ↔ (s.pc p).stage = .releases) : t.releasing = s.releasing := by
  have hall : ∀ q, (t.pc q).stage = .releases ↔ (s.pc q).stage = .releases := by
    intro q
    by_cases hq : q = p
    · exact hq ▸ hp
    · rw [hpc q hq]
  exact Bool.eq_iff_iff.mpr (by simp [hs.releasing_iff, ht.releasing_iff, hall])

omit [DecidableEq P] in
theorem WellFormed.not_releasing {s : State P} {p : P} (hs : WellFormed s)
    (hin : (s.pc p).inSection = true) (hp : (s.pc p).stage ≠ .releases) : s.releasing = false := by
  simp [State.releasing, hs.locked hin, hp]

theorem Level.frame {x y : Rounds P} {p : P} (hx : Level x) (hcomplete : y.complete = x.complete)
    (hothers : ∀ q, q ≠ p → (y.barrier.Ahead q ↔ x.barrier.Ahead q) ∧ y.begun q = x.begun q)
    (hown : y.begun p = x.begun p ∧ (y.barrier.Ahead p ↔ x.barrier.Ahead p) ∨
      ¬ x.barrier.Ahead p ∧ y.barrier.Ahead p ∧ y.begun p = x.begun p + 1) : Level y := by
  constructor
  · intro q hq
    by_cases hqp : q = p
    · subst q
      rcases hown with ⟨hbegun, hahead⟩ | ⟨hbefore, -, hbegun⟩
      · rw [hbegun, hcomplete, hx.ahead p (hahead.mp hq)]
      · rw [hbegun, hcomplete, hx.level p hbefore]
    · obtain ⟨hahead, hbegun⟩ := hothers q hqp
      rw [hbegun, hcomplete, hx.ahead q (hahead.mp hq)]
  · intro q hq
    by_cases hqp : q = p
    · subst q
      rcases hown with ⟨hbegun, hahead⟩ | ⟨-, hafter, -⟩
      · rw [hbegun, hcomplete, hx.level p fun h => hq (hahead.mpr h)]
      · exact absurd hafter hq
    · obtain ⟨hahead, hbegun⟩ := hothers q hqp
      rw [hbegun, hcomplete, hx.level q fun h => hq (hahead.mpr h)]

theorem Level.quiet {x y : Rounds P} {p : P} (hx : Level x) (hs : WellFormed x.barrier)
    (ht : WellFormed y.barrier)
    (hothers : ∀ q, q ≠ p → y.barrier.pc q = x.barrier.pc q ∧
      y.barrier.parker q = x.barrier.parker q ∧ y.begun q = x.begun q)
    (hqueue : y.barrier.queue = x.barrier.queue)
    (hreleased : y.ledger.released = x.ledger.released)
    (hstage : (y.barrier.pc p).stage = .releases ↔ (x.barrier.pc p).stage = .releases)
    (hown : y.begun p = x.begun p ∧ (y.barrier.Comes p ↔ x.barrier.Comes p) ∨
      ¬ x.barrier.Ahead p ∧ y.barrier.Comes p ∧ y.begun p = x.begun p + 1) : Level y := by
  have hreleasing := releasing_step hs ht (fun q hq => (hothers q hq).1) hstage
  have hoff : ∀ q, y.barrier.Off q ↔ x.barrier.Off q := fun q => by simp [State.Off, hqueue]
  refine hx.frame (p := p) (by simp [Rounds.complete, hreleased, hreleasing]) (fun q hq => ?_) ?_
  · obtain ⟨hpc, hparker, hbegun⟩ := hothers q hq
    exact ⟨by simp [State.Ahead, State.Comes, hpc, hparker, hoff, hreleasing], hbegun⟩
  · rcases hown with ⟨hbegun, hcomes⟩ | ⟨hbefore, hcomes, hbegun⟩
    · exact .inl ⟨hbegun, by simp [State.Ahead, hcomes, hoff, hreleasing]⟩
    · exact .inr ⟨hbefore, .inl hcomes, hbegun⟩

theorem Undisturbed.queued {target : Nat} {x : Rounds P} {p : P} (hk : Undisturbed target x)
    (hq : ¬ x.barrier.Off p) : ¬ x.barrier.Comes p ∧ (x.barrier.parker p).map x.barrier.flag = some false := by
  simp only [State.Off, not_forall, not_not] at hq
  obtain ⟨e, he, rfl⟩ := hq
  have hwaits := hk.calm.queued e he rfl
  refine ⟨?_, by simp [hwaits.parker, hwaits.flag]⟩
  rintro (hcomes | ⟨-, hparker⟩)
  · have hwaiting := hwaits.waiting
    cases hpc : x.barrier.pc e.owner <;> simp_all [Pc.waiting, Pc.comes, Pc.clears]
  · simp [hwaits.parker] at hparker

theorem Undisturbed.off_of_flag {target : Nat} {x : Rounds P} {p : P} (hk : Undisturbed target x)
    (hflag : (x.barrier.parker p).map x.barrier.flag ≠ some false) : x.barrier.Off p := by
  by_contra hq
  exact hflag (hk.queued hq).2

omit [DecidableEq P] in
theorem WellFormed.remove_eq {s : State P} {p : P} (hs : WellFormed s) (hoff : s.Off p) :
    (s.remove p).queue = s.queue := by
  refine List.filter_eq_self.mpr fun e he => ?_
  by_contra hid
  refine hoff e he (hs.parker_inj _ _ e.id (hs.node_parker _ _ (hs.linked e he)) ?_)
  exact hs.node_parker p e.id (by simpa using hid)

theorem WellFormed.all_queued [Fintype P] {s : State P} {p q : P} (hs : WellFormed s)
    (hoff : s.Off p) (hlen : s.queue.length = Fintype.card P - 1) (hq : q ≠ p) : ¬ s.Off q := by
  have hnodup : (p :: s.queue.map Entry.owner).Nodup := by
    refine List.nodup_cons.mpr ⟨fun hmem => ?_, hs.owners⟩
    obtain ⟨e, he, howner⟩ := List.mem_map.mp hmem
    exact hoff e he howner
  have hcard : (p :: s.queue.map Entry.owner).toFinset.card = Fintype.card P := by
    have hpos : 0 < Fintype.card P := Fintype.card_pos_iff.mpr ⟨p⟩
    rw [List.toFinset_card_of_nodup hnodup, List.length_cons, List.length_map, hlen]
    omega
  have hmem : q ∈ (p :: s.queue.map Entry.owner).toFinset := by
    rw [Finset.eq_univ_of_card _ hcard]
    exact Finset.mem_univ q
  rw [List.mem_toFinset, List.mem_cons] at hmem
  obtain ⟨e, he, howner⟩ := List.mem_map.mp (hmem.resolve_left hq)
  exact fun h => h e he howner

section level
variable [Fintype P] {rounds : Nat} {how : Call} {x y : Rounds P} {p : P} {a : Act}

/-- The last party arrives and the generation is complete: everybody else waits for it. -/
theorem Level.full {c : Call} (hx : Level x) (hk : Undisturbed (Fintype.card P) x)
    (hpc : x.barrier.pc p = .count c)
    (hlen : x.barrier.queue.length = Fintype.card P - 1)
    (ht : y.barrier = x.barrier.goto p (.popHead c))
    (hledger : y.ledger.released = x.ledger.released) (hbegun : y.begun = x.begun) : Level y := by
  have hin : (x.barrier.pc p).inSection = true := by rw [hpc]; rfl
  have hoff : x.barrier.Off p := hk.off p (by rw [hpc]; rfl)
  have hbefore : x.barrier.releasing = false :=
    hk.not_releasing hin (by simp [hpc, Pc.stage])
  have hafter : y.barrier.releasing = true := by
    simp [State.releasing, ht, hk.locked hin, Pc.stage]
  have hcomplete : y.complete = x.complete + 1 := by
    simp [Rounds.complete, hledger, hbefore, hafter]
  have hall : ∀ q, x.barrier.Ahead q := by
    intro q
    by_cases hq : q = p
    · subst q
      exact .inl (.inl (by rw [hpc]; rfl))
    · exact .inr ⟨hk.all_queued hoff hlen hq, hbefore⟩
  have hnone : ∀ q, ¬ y.barrier.Ahead q := by
    rintro q (hcomes | ⟨-, hfree⟩)
    · by_cases hq : q = p
      · subst q
        rcases hcomes with hc | ⟨hc, -⟩ <;> simp [ht, Pc.comes, Pc.clears, Pc.checks] at hc
      · refine (hk.queued (hk.all_queued hoff hlen hq)).1 ?_
        simpa [State.Comes, ht, hq] using hcomes
    · simp [hafter] at hfree
  refine ⟨fun q hq => absurd hq (hnone q), fun q _ => ?_⟩
  rw [hcomplete, hbegun, hx.ahead q (hall q)]

theorem Level.pushed {c : Call} {i : Nat} (hx : Level x) (hk : Undisturbed (Fintype.card P) x)
    (hpc : x.barrier.pc p = .pushHead c)
    (ht : y.barrier = (x.barrier.push p i c).goto p (.unlockList c true))
    (hwf : WellFormed y.barrier) (hledger : y.ledger.released = x.ledger.released)
    (hbegun : y.begun = x.begun) : Level y := by
  have hin : (x.barrier.pc p).inSection = true := by rw [hpc]; rfl
  have hbefore : x.barrier.releasing = false :=
    hk.not_releasing hin (by simp [hpc, Pc.stage])
  have hafter : y.barrier.releasing = false :=
    hwf.not_releasing (p := p) (by simp [ht, Pc.inSection]) (by simp [ht, Pc.stage])
  refine hx.frame (p := p) (by simp [Rounds.complete, hledger, hbefore, hafter])
    (fun q hq => ⟨?_, by rw [hbegun]⟩) (.inl ⟨by rw [hbegun], iff_of_true ?_ ?_⟩)
  · simp only [State.Ahead, hbefore, hafter]
    simp [State.Comes, State.Off, ht, State.push, hq, Ne.symm hq]
  · refine .inr ⟨fun hoff => ?_, hafter⟩
    exact hoff ⟨i, p, c.waker p i⟩ (by simp [ht, State.push]) rfl
  · exact .inl (.inl (by rw [hpc]; rfl))

omit [Fintype P] in
theorem Level.popped {c : Call} {e : Entry P} {queue : List (Entry P)} {target : Nat}
    (hx : Level x) (hk : Undisturbed target x) (hpc : x.barrier.pc p = .popHead c)
    (ht : y.barrier = { x.barrier with queue := queue }.goto p (.wake c e))
    (hledger : y.ledger.released = x.ledger.released) (hbegun : y.begun = x.begun) : Level y := by
  have hlock : x.barrier.lock = some p := hk.locked (by rw [hpc]; rfl)
  have hbefore : x.barrier.releasing = true := by simp [State.releasing, hlock, hpc, Pc.stage]
  have hafter : y.barrier.releasing = true := by simp [State.releasing, ht, hlock, Pc.stage]
  refine hx.frame (p := p) (by simp [Rounds.complete, hledger, hbefore, hafter])
    (fun q hq => ⟨?_, by rw [hbegun]⟩) (.inl ⟨by rw [hbegun], ?_⟩)
  · simp only [State.Ahead, hbefore, hafter]
    simp [State.Comes, ht, hq]
  · simp only [State.Ahead, hbefore, hafter]
    simp [State.Comes, ht, hpc, Pc.comes, Pc.clears, Pc.checks]

omit [Fintype P] in
theorem Level.emptied {c : Call} {target : Nat} (hx : Level x) (hk : Undisturbed target x)
    (hpc : x.barrier.pc p = .popHead c) (hq : x.barrier.queue = [])
    (ht : y.barrier = x.barrier.goto p (.unlockList c false))
    (hledger : y.ledger.released.length = x.ledger.released.length + 1)
    (hbegun : y.begun = x.begun) : Level y := by
  have hlock : x.barrier.lock = some p := hk.locked (by rw [hpc]; rfl)
  have hbefore : x.barrier.releasing = true := by simp [State.releasing, hlock, hpc, Pc.stage]
  have hafter : y.barrier.releasing = false := by simp [State.releasing, ht, hlock, Pc.stage]
  refine hx.frame (p := p) (by simp [Rounds.complete, hledger, hbefore, hafter])
    (fun q hqp => ⟨?_, by rw [hbegun]⟩) (.inl ⟨by rw [hbegun], ?_⟩)
  · simp only [State.Ahead, hbefore, hafter]
    simp [State.Comes, State.Off, ht, hqp, hq]
  · simp only [State.Ahead, hbefore, hafter]
    simp [State.Comes, State.Off, ht, hpc, hq, Pc.comes, Pc.clears, Pc.checks]

omit [Fintype P] in
theorem Level.silent {target : Nat} {t : State P} {begun : P → Nat} (hx : Level x)
    (hk : Undisturbed target x) (h : Barrier.step target x.barrier (p, a) = some t)
    (hqueue : t.queue = x.barrier.queue) (hevent : ∀ q, eventOf x.barrier (p, a) ≠ .leads q)
    (hstage : (t.pc p).stage = .releases ↔ (x.barrier.pc p).stage = .releases)
    (hbegun : ∀ q, q ≠ p → begun q = x.begun q)
    (hown : begun p = x.begun p ∧ (t.Comes p ↔ x.barrier.Comes p) ∨
      ¬ x.barrier.Ahead p ∧ t.Comes p ∧ begun p = x.begun p + 1) :
    Level ⟨t, keep target x.barrier (p, a) x.ledger, begun⟩ := by
  refine hx.quiet hk.toWellFormed (step_wellFormed hk.toWellFormed h) (fun q hq => ?_) hqueue ?_
    hstage hown
  · exact ⟨(step_others h hq).1, (step_others h hq).2, hbegun q hq⟩
  · cases hx : eventOf x.barrier (p, a) with
    | leads q => exact absurd hx (hevent q)
    | _ => simp [keep, hx, Ledger.note]

omit [Fintype P] [DecidableEq P] in
theorem comes_stays {s t : State P} {k l : Pc P} (hk : s.pc p = k) (hl : t.pc p = l)
    (hparker : t.parker p = s.parker p) (hcomes : l.comes = k.comes)
    (hchecks : l.checks = k.checks) : t.Comes p ↔ s.Comes p := by
  simp [State.Comes, hk, hl, hparker, hcomes, hchecks]

theorem Level.next {t : State P} (hx : Level x) (h0 : Fintype.card P ≠ 0)
    (hk : Undisturbed (Fintype.card P) x) (hf : Fits how x.barrier p)
    (h : Barrier.step (Fintype.card P) x.barrier (p, .next) = some t) :
    Level ⟨t, keep (Fintype.card P) x.barrier (p, .next) x.ledger, x.begun⟩ := by
  cases step_cases h with
  | free => exact absurd ‹_› h0
  | ready cx hpc hflag =>
    refine hx.silent hk h rfl (by simp [eventOf, hpc]) (by simp [hpc, Pc.stage]) (fun _ _ => rfl)
      (.inl ⟨rfl, ?_⟩)
    have hparker : x.barrier.parker p ≠ none := fun hnone => by simp [hnone] at hflag
    simp [State.Comes, hpc, hparker, Pc.comes, Pc.clears, Pc.checks]
  | renew cx hpc hflag =>
    have hparker := (hf.checks (by rw [hpc]; rfl)).resolve_right hflag
    refine hx.silent hk h rfl (by simp [eventOf, hpc]) (by simp [hpc, Pc.stage]) (fun _ _ => rfl)
      (.inl ⟨rfl, ?_⟩)
    simp [State.Comes, hpc, hparker, Pc.comes, Pc.clears, Pc.checks, Leave.endsWait]
  | newParker c hpc =>
    refine hx.silent hk h rfl (by simp [eventOf, hpc]) (by simp [hpc, Pc.stage]) (fun _ _ => rfl)
      (.inl ⟨rfl, ?_⟩)
    simp [State.Comes, hpc, Pc.comes]
  | lockList c hpc | room c hpc =>
    refine hx.silent hk h rfl (by simp [eventOf, hpc]) (by simp [hpc, Pc.stage]) (fun _ _ => rfl)
      (.inl ⟨rfl, ?_⟩)
    simp [State.Comes, hpc, Pc.comes]
  | full c hpc hlen =>
    exact hx.full hk hpc hlen rfl (by simp [keep, eventOf, hpc, Ledger.note]) rfl
  | pushHead c i hpc hnode =>
    exact hx.pushed hk hpc rfl (step_wellFormed hk.toWellFormed h)
      (by simp [keep, eventOf, hpc, hnode, Ledger.note]) rfl
  | popHead c e queue hpc hq =>
    exact hx.popped hk hpc rfl (by simp [keep, eventOf, hpc, hq, Ledger.note]) rfl
  | emptied c hpc hq =>
    exact hx.emptied hk hpc hq rfl (by simp [keep, eventOf, hpc, hq, Ledger.note]) rfl
  | wake c e hpc =>
    exact hx.silent hk h (by simp) (by simp [eventOf, hpc]) (by simp [hpc, Pc.stage]) (fun _ _ => rfl)
      (.inl ⟨rfl, comes_stays hpc (l := .popHead c) (by simp) (by simp) rfl rfl⟩)
  | park i hpc hparker hflag =>
    exact hx.silent hk h rfl (by simp [eventOf, hpc]) (by simp [hpc, Pc.stage]) (fun _ _ => rfl)
      (.inl ⟨rfl, comes_stays hpc (l := .dropNode (.returns false)) (by simp) (by simp) rfl rfl⟩)
  | dropLinked k hpc =>
    exact hx.silent hk h rfl (by simp [eventOf, hpc]) (by simp [hpc, Pc.stage]) (fun _ _ => rfl)
      (.inl ⟨rfl, comes_stays hpc (l := .lockDrop k) (by simp) (by simp) rfl rfl⟩)
  | lockDrop k hpc =>
    exact hx.silent hk h rfl (by simp [eventOf, hpc]) (by simp [hpc, Pc.stage]) (fun _ _ => rfl)
      (.inl ⟨rfl, comes_stays hpc (l := .removeNode k) (by simp) (by simp) rfl rfl⟩)
  | removeNode k hpc =>
    have hoff := hk.calm.off p rfl (by rw [hpc]; rfl)
    exact hx.silent hk h (hk.remove_eq hoff) (by simp [eventOf, hpc]) (by simp [hpc, Pc.stage])
      (fun _ _ => rfl)
      (.inl ⟨rfl, comes_stays hpc (l := .unlockDrop k) (by simp) (by simp) rfl rfl⟩)
  | unlockList c b hpc =>
    refine hx.silent hk h (by cases c <;> rfl) (by simp [eventOf, hpc]) ?_ (fun _ _ => rfl)
      (.inl ⟨rfl, ?_⟩)
    · cases c <;> cases b <;> simp [hpc, State.release, Pc.stage]
    · cases c <;> cases b <;> simp [State.Comes, State.release, hpc, Pc.comes, Pc.clears,
        Pc.checks, Leave.endsWait]
  | dropOff k hpc =>
    refine hx.silent hk h (by simp) (by simp [eventOf, hpc]) ?_ (fun _ _ => rfl) (.inl ⟨rfl, ?_⟩)
    · cases k <;> simp [hpc, State.finish, Pc.stage]
    · cases k <;> simp [State.Comes, State.finish, hpc, Pc.comes, Pc.clears, Pc.checks,
        Leave.endsWait]
  | unlockDrop k hpc =>
    refine hx.silent hk h (by simp) (by simp [eventOf, hpc]) ?_ (fun _ _ => rfl) (.inl ⟨rfl, ?_⟩)
    · cases k <;> simp [hpc, State.finish, Pc.stage]
    · cases k <;> simp [State.Comes, State.finish, hpc, Pc.comes, Pc.clears, Pc.checks,
        Leave.endsWait]

theorem Level.step {t : State P} {begun : P → Nat} (hx : Level x) (h0 : Fintype.card P ≠ 0)
    (hk : Undisturbed (Fintype.card P) x) (hf : Fits how x.barrier p)
    (hdoes : Does rounds how x p a begun)
    (h : Barrier.step (Fintype.card P) x.barrier (p, a) = some t) :
    Level ⟨t, keep (Fintype.card P) x.barrier (p, a) x.ledger, begun⟩ := by
  cases hdoes with
  | begins hpc hparker hlt =>
    obtain ⟨-, rfl⟩ := call_eq h0 h
    have hoff : x.barrier.Off p := hk.off_of_flag (by simp [hparker])
    refine hx.silent hk h rfl ?_ ?_ (fun q hq => by simp [hq]) (.inr ⟨?_, ?_, by simp⟩)
    · cases how <;> simp [Call.act, eventOf]
    · cases how <;> simp [hpc, Call.entry, Pc.stage]
    · rintro (hcomes | ⟨hqueued, -⟩)
      · simp [State.Comes, hpc, Pc.comes, Pc.clears, Pc.checks] at hcomes
      · exact hqueued hoff
    · cases how <;> simp [State.Comes, Call.entry, Pc.comes, Pc.checks, hparker]
  | polls hpc hparker hresult hflag =>
    obtain ⟨-, rfl⟩ := call_eq h0 h
    cases how with
    | wait => exact absurd (hf.thread hpc rfl) hparker
    | poll cx =>
      refine hx.silent hk h rfl (by simp [Call.act, eventOf]) (by simp [hpc, Call.entry, Pc.stage])
        (fun _ _ => rfl) (.inl ⟨rfl, ?_⟩)
      simp [State.Comes, hpc, hparker, Call.entry, Pc.comes, Pc.clears, Pc.checks]
  | drops hpc hparker hresult =>
    cases step_cases h with
    | free => exact absurd ‹_› h0
    | dropFuture =>
      refine hx.silent hk h rfl (by simp [eventOf]) (by simp [hpc, Pc.stage]) (fun _ _ => rfl)
        (.inl ⟨rfl, comes_stays hpc (l := .dropNode .future) (by simp) (by simp) rfl rfl⟩)
  | next hout => exact hx.next h0 hk hf h

end level

structure InRound [Fintype P] (rounds : Nat) (task : P → Option Nat) (x : Rounds P) : Prop where
  kept : Undisturbed (Fintype.card P) x
  fits : ∀ p, Fits (callOf (task p)) x.barrier p
  level : Level x
  within : ∀ p, x.begun p ≤ rounds

section rounds
variable [Fintype P] {rounds : Nat} {task : P → Option Nat}

theorem inRound_start (rounds : Nat) (task : P → Option Nat) :
    InRound rounds task (Rounds.start : Rounds P) where
  kept := kept_init _ _
  fits p := .outside rfl (fun _ => rfl) fun _ h => absurd rfl h
  level := by
    constructor
    · rintro p (hcomes | ⟨hqueued, -⟩)
      · simp [State.Comes, Rounds.start, init, Pc.comes, Pc.clears, Pc.checks] at hcomes
      · simp [State.Off, Rounds.start, init] at hqueued
    · intro p _
      simp [Rounds.complete, State.releasing, Rounds.start, init, blank]
  within _ := Nat.zero_le _

theorem InRound.step {x y : Rounds P} {p : P} {u : Unit} (hx : InRound rounds task x)
    (h : x.step (Fintype.card P) rounds task (p, u) = some y) : InRound rounds task y := by
  have h0 : Fintype.card P ≠ 0 := (Fintype.card_pos_iff.mpr ⟨p⟩).ne'
  obtain ⟨a, hdoes, hstep, hledger⟩ := rounds_step_eq h
  obtain ⟨t, ledger, begun⟩ := y
  subst hledger
  have hf := hx.fits p
  have hpatient : Patient (fun _ => true) (x.barrier, x.ledger) (p, a) := by
    cases hdoes with
    | begins | polls =>
      generalize callOf (task p) = how
      cases how with
      | wait => exact rfl
      | poll cx => trivial
    | drops hpc hparker hresult => exact fun _ => hresult
    | next hpc =>
      intro _ hchecks
      rcases hf.checks hchecks with hnone | hflag
      · simp [hnone]
      · simp [hflag]
  refine ⟨hx.kept.step h0 hpatient hstep, fun q => ?_, hx.level.step h0 hx.kept hf hdoes hstep,
    fun q => ?_⟩
  · by_cases hq : q = p
    · subst q
      exact hf.own h0 hx.kept.toWellFormed hdoes hstep
    · exact (hx.fits q).others hx.kept.toWellFormed hstep hq
  · have hwithin := hx.within q
    cases hdoes with
    | begins hpc hparker hlt =>
      by_cases hq : q = p
      · subst q
        simpa using Nat.succ_le_of_lt hlt
      · simpa [hq] using hwithin
    | _ => exact hwithin

end rounds

omit [DecidableEq P] in
theorem nextAct_next (rounds : Nat) (how : Call) {x : Rounds P} {p : P}
    (h : x.barrier.pc p ≠ .out) : nextAct rounds how x p = some .next := by
  unfold nextAct
  split
  · next hpc => exact absurd hpc h
  · rfl

def roundsClient (target rounds : Nat) (task : P → Option Nat) : Client P (Rounds P) Unit where
  step := Rounds.step target rounds task
  lock x := x.barrier.lock
  wish x p := (x.barrier.pc p).wish
  sync := ()
  nothing := by
    intro x p u y hw h
    obtain ⟨a, -, hs, -⟩ := rounds_step_eq h
    exact (barrier target).nothing hw hs
  acquire := by
    intro x p hw hlock
    obtain ⟨t, ht, hown⟩ := (barrier target).acquire hw hlock
    replace ht : Barrier.step target x.barrier (p, .next) = some t := ht
    have hnext := nextAct_next rounds (callOf (task p)) (x := x) (p := p)
      fun hout => by simp [hout, Pc.wish] at hw
    exact ⟨_, by simp only [Rounds.step, hnext, Option.bind_some, ht, Option.map_some]; rfl, hown⟩
  release := by
    intro x p hw hlock
    obtain ⟨t, ht, hnone⟩ := (barrier target).release hw hlock
    replace ht : Barrier.step target x.barrier (p, .next) = some t := ht
    have hnext := nextAct_next rounds (callOf (task p)) (x := x) (p := p)
      fun hout => by simp [hout, Pc.wish] at hw
    exact ⟨_, by simp only [Rounds.step, hnext, Option.bind_some, ht, Option.map_some]; rfl, hnone⟩
  others := by
    intro x p q u y h hpq
    obtain ⟨a, -, hs, -⟩ := rounds_step_eq h
    exact (barrier target).others hs hpq

/-- The party is between two rounds: its call has returned, or its future was answered. -/
def State.Between (s : State P) (p : P) : Prop :=
  s.pc p = .out ∧ (s.parker p = none ∨ s.result p ≠ none)

theorem Undisturbed.between {target : Nat} {x : Rounds P} {p : P} (hk : Undisturbed target x)
    (hp : x.barrier.Between p) : ¬ x.barrier.Ahead p := by
  obtain ⟨hpc, hanswered⟩ := hp
  rintro (hcomes | ⟨hqueued, -⟩)
  · simp [State.Comes, hpc, Pc.comes, Pc.clears, Pc.checks] at hcomes
  · simp only [State.Off, not_forall, not_not] at hqueued
    obtain ⟨e, he, rfl⟩ := hqueued
    have hwaits := hk.calm.queued e he rfl
    rcases hanswered with hnone | hresult
    · simp [hwaits.parker] at hnone
    · exact hresult (hwaits.pending hpc)

theorem Undisturbed.leaders {target : Nat} {x : Rounds P} (hk : Undisturbed target x)
    (hall : ∀ p, x.barrier.pc p = .out) :
    x.ledger.leaders.length = x.complete := by
  have hfree : x.barrier.releasing = false := by
    by_contra hrel
    obtain ⟨p, hp⟩ := hk.releasing_iff.mp (by simpa using hrel)
    simp [hall p, Pc.stage] at hp
  have hperm : (x.ledger.released.map Prod.fst).Perm x.ledger.leaders := by
    refine List.perm_iff_count.mpr fun p => ?_
    simpa [hall p, Pc.led] using hk.told p
  simp [Rounds.complete, hfree, ← hperm.length_eq]

/-- What the parties of a barrier know of each other. -/
structure InStep (x : Rounds P) : Prop where
  together : ∀ p q, x.begun p ≤ x.begun q + 1
  between : ∀ p q, x.barrier.Between p → x.begun p ≤ x.begun q
  leaders : ∀ p, (∀ q, x.barrier.Between q) → x.ledger.leaders.length = x.begun p

theorem InRound.inStep [Fintype P] {rounds : Nat} {task : P → Option Nat} {x : Rounds P}
    (hx : InRound rounds task x) : InStep x := by
  have hcases : ∀ p, x.begun p = x.complete ∨ x.begun p = x.complete + 1 := by
    intro p
    by_cases hp : x.barrier.Ahead p
    · exact .inr (hx.level.ahead p hp)
    · exact .inl (hx.level.level p hp)
  constructor
  · intro p q
    have hp := hcases p
    have hq := hcases q
    omega
  · intro p q hp
    have hlevel := hx.level.level p (hx.kept.between hp)
    have hq := hcases q
    omega
  · intro p hall
    rw [hx.level.level p (hx.kept.between (hall p))]
    exact hx.kept.leaders fun q => (hall q).1

/-- Threads and tasks in any mixture, as many as the barrier's target, each of which comes to it
`rounds` times, the tasks polled again only once their `should_wakeup` is stored: whatever the order
of the single steps of all of them, those of the list lock included, no party that is between two
rounds has begun more of them than another, so that whoever returns from its `n`th wait knows that
everybody has come to it; and with everybody between two rounds there have been as many leaders as
rounds. -/
theorem rounds_in_step [Fintype P] (rounds : Nat) (task : P → Option Nat)
    (x : Rounds P × MiniLock.State P)
    (h : Reach ((roundsClient (Fintype.card P) rounds task).over MiniLock.miniLock) anyStep
      (Rounds.start, MiniLock.init) x) : InStep x.1 := by
  have hreach : Reach (roundsClient (Fintype.card P) rounds task).step anyStep Rounds.start x.1 :=
    (over_simulates (L := MiniLock.miniLock) rfl (h.mono fun _ _ _ => trivial)).2
  have hx : InRound rounds task x.1 := by
    refine hreach.invariant (inRound_start rounds task) ?_
    rintro s ⟨p, u⟩ t hs - hst
    exact hs.step (u := u) hst
  exact hx.inStep

def parksFirst (p : P) : List (P × Label Unit MiniLock.Inner) :=
  [(p, .client ()), (p, .client ()), (p, .lock .call), (p, .lock (.inner .step)), (p, .client ()),
    (p, .client ()), (p, .lock .release), (p, .lock (.inner .step)), (p, .lock (.inner .step))]

theorem rounds_in_step_parked : ∃ x : Rounds Bool × MiniLock.State Bool,
    x.1.barrier.pc false = .park ∧ x.1.begun false = 1 ∧ InStep x.1 := by
  have hr : ((run ((roundsClient (Fintype.card Bool) 3 both).over MiniLock.miniLock)
      (Rounds.start, MiniLock.init) (parksFirst false)).map fun x =>
        (x.1.barrier.pc false, x.1.begun false)) = some (.park, 1) := by decide
  obtain ⟨x, hx, ho⟩ := Option.map_eq_some_iff.mp hr
  simp only [Prod.mk.injEq] at ho
  exact ⟨x, ho.1, ho.2, rounds_in_step 3 both x (run_reach (meets_any _ _) hx)⟩

end Colock.Barrier
