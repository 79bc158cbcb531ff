import Colock.Barrier.InStep
import Colock.MiniLock.LotsAndLots

/-! The rounds of a barrier come to an end under every scheduler. This is `stress_test_barrier`,
for threads and tasks at once. -/
namespace Colock.Barrier
open Transition LockImpl
variable {P : Type*} [DecidableEq P]

theorem step_changes {target : Nat} {s t : State P} {p : P}
    (h : step target s (p, .next) = some t) (hout : s.pc p ≠ .out) : t.pc p ≠ s.pc p := by
  cases step_cases h with
  | free _ _ hpc => exact absurd hpc hout
  | unlockList c b hpc => cases c <;> cases b <;> simp [State.release, hpc]
  | dropOff k hpc | unlockDrop k hpc => cases k <;> simp [State.finish, hpc]
  | _ => simp [*]

theorem rounds_changes {target rounds : Nat} (h0 : target ≠ 0) {task : P → Option Nat}
    {x y : Rounds P} {p : P} {u : Unit} (h : x.step target rounds task (p, u) = some y) :
    y ≠ x := by
  obtain ⟨a, hdoes, hs, -⟩ := rounds_step_eq h
  obtain ⟨t, ledger, begun⟩ := y
  have hmoves : t.pc p ≠ x.barrier.pc p := by
    cases hdoes with
    | begins hpc | polls hpc =>
      obtain ⟨-, rfl⟩ := call_eq h0 hs
      generalize callOf (task p) = how
      cases how <;> simp [Call.entry, hpc]
    | drops hpc =>
      cases step_cases hs with
      | free => exact absurd ‹_› h0
      | dropFuture => simp [hpc]
    | next hpc => exact step_changes hs hpc
  rintro rfl
  exact hmoves rfl

theorem next_enabled {how : Call} {s : State P} {p : P} (hf : Fits how s p) (target : Nat)
    (hout : s.pc p ≠ .out) (hpark : s.pc p ≠ .park) (hlock : (s.pc p).wish = .acquire → s.lock = none) :
    ∃ t, step target s (p, .next) = some t := by
  have harmed := hf.armed
  cases hpc : s.pc p with
  | out => exact absurd hpc hout
  | park => exact absurd hpc hpark
  | lockList c | lockDrop k =>
    have hfree := hlock (by rw [hpc]; rfl)
    exact ⟨_, by simp only [step, next, hpc, State.acquire, hfree]; rfl⟩
  | pushHead c =>
    obtain ⟨i, hi⟩ := harmed (by rw [hpc]; rfl)
    exact ⟨_, by simp only [step, next, hpc, hi]; rfl⟩
  | popHead c =>
    cases hq : s.queue with
    | nil => exact ⟨_, by simp only [step, next, hpc, hq]; rfl⟩
    | cons e queue => exact ⟨_, by simp only [step, next, hpc, hq]; rfl⟩
  | _ => exact ⟨_, by simp only [step, next, hpc]; rfl⟩

theorem call_enabled {how : Call} {s : State P} {p : P} (target : Nat) (hout : s.pc p = .out)
    (hthread : how = .wait → s.node p = none ∧ s.parker p = none) :
    ∃ t, step target s (p, how.act) = some t := by
  cases how with
  | wait => simp [step, Call.act, hout, hthread rfl]
  | poll cx => simp [step, Call.act, hout]

theorem does_enabled {target rounds : Nat} {task : P → Option Nat} {x : Rounds P} {p : P} {a : Act}
    {t : State P} (ha : nextAct rounds (callOf (task p)) x p = some a)
    (ht : step target x.barrier (p, a) = some t) :
    ∃ y, x.step target rounds task (p, ()) = some y := by
  exact ⟨_, by simp only [Rounds.step, ha, Option.bind_some, ht, Option.map_some]; rfl⟩

section rounds
variable [Fintype P] {rounds : Nat} {task : P → Option Nat} {x : Rounds P}

def Rounds.Finished (rounds : Nat) (x : Rounds P) (p : P) : Prop :=
  x.barrier.pc p = .out ∧ x.barrier.parker p = none ∧ x.begun p = rounds

theorem InRound.lock_free (hx : InRound rounds task x)
    (hstuck : ∀ p, x.step (Fintype.card P) rounds task (p, ()) = none) : x.barrier.lock = none := by
  by_contra hne
  obtain ⟨p, hp⟩ := Option.ne_none_iff_exists'.mp hne
  have hin := (hx.kept.inside p).mpr hp
  have hout : x.barrier.pc p ≠ .out := fun hpc => by simp [hpc, Pc.inSection] at hin
  obtain ⟨t, ht⟩ := next_enabled (hx.fits p) (Fintype.card P) hout
    (fun hpc => by simp [hpc, Pc.inSection] at hin)
    fun hw => by cases hpc : x.barrier.pc p <;> simp_all [Pc.wish, Pc.inSection]
  obtain ⟨y, hy⟩ := does_enabled (nextAct_next rounds (callOf (task p)) hout) ht
  simp [hstuck p] at hy

theorem InRound.queued_or_finished (hx : InRound rounds task x)
    (hstuck : ∀ p, x.step (Fintype.card P) rounds task (p, ()) = none) (p : P) :
    ¬ x.barrier.Off p ∨ x.Finished rounds p := by
  have h0 : Fintype.card P ≠ 0 := (Fintype.card_pos_iff.mpr ⟨p⟩).ne'
  have hf := hx.fits p
  have hfree := hx.lock_free hstuck
  have hno : ∀ {a t}, nextAct rounds (callOf (task p)) x p = some a →
      Barrier.step (Fintype.card P) x.barrier (p, a) = some t → False := by
    intro a t ha ht
    obtain ⟨y, hy⟩ := does_enabled ha ht
    simp [hstuck p] at hy
  -- a party that is accounted for, and not woken, is in the queue
  have hqueued : x.barrier.Accounted p →
      (x.barrier.parker p).map x.barrier.flag ≠ some true → ¬ x.barrier.Off p := by
    rintro ⟨i, hi, hflag | hq | hheld⟩ hasleep
    · simp [hi, hflag] at hasleep
    · exact hq
    · simp only [State.Unheld, not_forall, not_not] at hheld
      obtain ⟨r, e, he, -⟩ := hheld
      have hlock := hx.kept.locked (inSection_of_carries he)
      simp [hfree] at hlock
  by_cases hout : x.barrier.pc p = .out
  · by_cases hparker : x.barrier.parker p = none
    · right
      refine ⟨hout, hparker, ?_⟩
      by_contra hne
      have hlt : x.begun p < rounds := lt_of_le_of_ne (hx.within p) hne
      have hnode : x.barrier.node p = none := by
        by_contra hsome
        obtain ⟨i, hi⟩ := Option.ne_none_iff_exists'.mp hsome
        simp [hx.kept.node_parker p i hi] at hparker
      have hnext : nextAct rounds (callOf (task p)) x p = some (callOf (task p)).act := by
        simp [nextAct, hout, hparker, hlt]
      obtain ⟨t, ht⟩ := call_enabled (Fintype.card P) hout fun _ => ⟨hnode, hparker⟩
      exact hno hnext ht
    · left
      have hresult : x.barrier.result p = none := by
        by_contra hsome
        have hnext : nextAct rounds (callOf (task p)) x p = some .dropFuture := by
          simp [nextAct, hout, hparker, hsome]
        exact hno (t := x.barrier.goto p (.dropNode .future)) hnext (by simp [Barrier.step, hout, hparker])
      refine hqueued (hf.pending hout hresult hparker) fun hflag => ?_
      have hnext : nextAct rounds (callOf (task p)) x p = some (callOf (task p)).act := by
        simp [nextAct, hout, hparker, hresult, hflag]
      obtain ⟨t, ht⟩ := call_enabled (Fintype.card P) hout
        fun hhow => absurd (hf.thread hout hhow) hparker
      exact hno hnext ht
  · left
    by_cases hpark : x.barrier.pc p = .park
    · refine hqueued (hf.asleep (by rw [hpark]; rfl)) fun hflag => ?_
      obtain ⟨i, hi, hf⟩ := Option.map_eq_some_iff.mp hflag
      exact hno (t := x.barrier.goto p (.dropNode (.returns false))) (nextAct_next _ _ hout)
        (by simp [Barrier.step, next, hpark, hi, hf])
    · obtain ⟨t, ht⟩ := next_enabled hf (Fintype.card P) hout hpark fun _ => hfree
      exact (hno (nextAct_next _ _ hout) ht).elim

/-- When nobody can go on everybody has finished: not all of them can be queued, and whoever is
queued is a round ahead of one that is not. -/
theorem InRound.all_finished (hx : InRound rounds task x)
    (hstuck : ∀ p, x.step (Fintype.card P) rounds task (p, ()) = none) (p : P) :
    x.Finished rounds p := by
  have hfree : x.barrier.releasing = false := by simp [State.releasing, hx.lock_free hstuck]
  refine (hx.queued_or_finished hstuck p).resolve_left fun hqueued => ?_
  have hall : ∀ q, ¬ x.barrier.Off q := by
    intro q
    refine (hx.queued_or_finished hstuck q).resolve_right ?_
    rintro ⟨hout, hparker, hbegun⟩
    have hahead := hx.level.ahead p (.inr ⟨hqueued, hfree⟩)
    have hlevel := hx.level.level q (hx.kept.between ⟨hout, .inl hparker⟩)
    have hwithin := hx.within p
    omega
  have hsub : (Finset.univ : Finset P) ⊆ (x.barrier.queue.map Entry.owner).toFinset := by
    intro q _
    have hq := hall q
    simp only [State.Off, not_forall, not_not] at hq
    obtain ⟨e, he, howner⟩ := hq
    exact List.mem_toFinset.mpr (List.mem_map.mpr ⟨e, he, howner⟩)
  have hcard := (Finset.card_le_card hsub).trans (List.toFinset_card_le _)
  rw [Finset.card_univ, List.length_map] at hcard
  have hbound := hx.kept.sized.bound
  have hpos : 0 < Fintype.card P := Fintype.card_pos_iff.mpr ⟨p⟩
  omega

theorem InRound.queue_nil (hx : InRound rounds task x)
    (hfinished : ∀ p, x.Finished rounds p) : x.barrier.queue = [] := by
  refine List.eq_nil_iff_forall_not_mem.mpr fun e he => ?_
  have hparker := (hx.kept.calm.queued e he rfl).parker
  simp [(hfinished e.owner).2.1] at hparker

end rounds

/-! ### Every step is paid for -/

def Leave.rank (later : Nat) (k : Leave) : Nat := if k.endsWait then later else later + 15

/-- How far the party is from the end of its round. -/
def State.rank (s : State P) (p : P) : Nat :=
  match s.pc p with
  | .out => if s.parker p = none then 0 else if s.result p = none then 9 else 6
  | .check _ => if s.parker p = none then 21 else 8
  | .newParker _ => 16
  | .lockList _ => 15
  | .count _ => 14
  | .pushHead _ | .wake _ _ => 13
  | .popHead _ => 12
  | .unlockList _ shouldSleep => if shouldSleep then 10 else 11
  | .park => 9
  | .dropNode k => k.rank 5
  | .lockDrop k => k.rank 4
  | .removeNode k => k.rank 3
  | .unlockDrop k => k.rank 2

/-- An entry is worth the two steps that wake its owner. -/
def Rounds.toDo [Fintype P] (rounds : Nat) (x : Rounds P) : Nat :=
  ∑ p, (22 * (rounds - x.begun p) + x.barrier.rank p) + 2 * x.barrier.queue.length

theorem rank_others {target : Nat} {s t : State P} {p q : P} {a : Act}
    (h : step target s (p, a) = some t) (hq : q ≠ p) : t.rank q = s.rank q := by
  obtain ⟨hpc, hparker⟩ := step_others h hq
  simp [State.rank, hpc, hparker, step_result h hq]

theorem next_pays {target : Nat} {how : Call} {s t : State P} {p : P} (hf : Fits how s p)
    (h : step target s (p, .next) = some t) (hout : s.pc p ≠ .out) :
    t.rank p + 2 * t.queue.length < s.rank p + 2 * s.queue.length := by
  cases step_cases h with
  | free _ _ hpc => exact absurd hpc hout
  | ready cx hpc hflag =>
    have hparker : s.parker p ≠ none := fun hnone => by simp [hnone] at hflag
    simp [State.rank, hpc, hparker]
  | renew cx hpc hflag =>
    have hparker := (hf.checks (by rw [hpc]; rfl)).resolve_right hflag
    simp [State.rank, hpc, hparker, Leave.rank, Leave.endsWait]
  | pushHead c i hpc =>
    simp only [State.rank, goto_fields, Function.update_self, hpc, State.push, List.length_cons,
      if_true]
    omega
  | popHead c e queue hpc hq =>
    simp only [State.rank, goto_fields, Function.update_self, hpc, hq, List.length_cons]
    omega
  | removeNode k hpc =>
    have hle : (s.remove p).queue.length ≤ s.queue.length := List.length_filter_le _ _
    have hlt : k.rank 2 < k.rank 3 := by unfold Leave.rank; split <;> omega
    simp only [State.rank, goto_fields, Function.update_self, hpc]
    omega
  | unlockList c b hpc =>
    have hqueue : (s.release p c b).queue = s.queue := by cases c <;> rfl
    rw [hqueue]
    cases c <;> cases b <;> simp [State.rank, State.release, hpc, Leave.rank, Leave.endsWait]
    all_goals split <;> omega
  | dropOff k hpc | unlockDrop k hpc =>
    cases k <;> simp [State.rank, State.finish, hpc, Leave.rank, Leave.endsWait]
  | dropLinked k hpc | lockDrop k hpc =>
    simp only [State.rank, goto_fields, Function.update_self, hpc, Leave.rank]
    split <;> omega
  | park i hpc => simp [State.rank, hpc, Leave.rank, Leave.endsWait]
  | _ => simp [State.rank, *]

theorem Does.pays {target rounds : Nat} (h0 : target ≠ 0) {how : Call} {x : Rounds P} {p : P}
    {a : Act} {begun : P → Nat} {t : State P} (hf : Fits how x.barrier p)
    (hdoes : Does rounds how x p a begun) (h : step target x.barrier (p, a) = some t) :
    22 * (rounds - begun p) + t.rank p + 2 * t.queue.length <
      22 * (rounds - x.begun p) + x.barrier.rank p + 2 * x.barrier.queue.length := by
  cases hdoes with
  | begins hpc hparker hlt =>
    obtain ⟨-, rfl⟩ := call_eq h0 h
    have hrank : (x.barrier.goto p how.entry).rank p < 22 := by
      cases how <;> simp [State.rank, Call.entry, hparker]
    simp only [Function.update_self, goto_fields]
    omega
  | polls hpc hparker hresult hflag =>
    obtain ⟨-, rfl⟩ := call_eq h0 h
    have hbefore : x.barrier.rank p = 9 := by simp [State.rank, hpc, hparker, hresult]
    have hafter : (x.barrier.goto p how.entry).rank p = 8 := by
      cases how with
      | wait => exact absurd (hf.thread hpc rfl) hparker
      | poll cx => simp [State.rank, Call.entry, hparker]
    simp only [goto_fields]
    omega
  | drops hpc hparker hresult =>
    cases step_cases h with
    | free => exact absurd ‹_› h0
    | dropFuture =>
      simp [State.rank, hpc, hparker, hresult, Leave.rank, Leave.endsWait]
  | next hpc =>
    have hpays := next_pays hf h hpc
    omega

theorem rounds_descend [Fintype P] (rounds : Nat) (task : P → Option Nat) :
    Descends (Rounds.step (Fintype.card P) rounds task) (InRound rounds task)
      (Rounds.toDo rounds) where
  keeps := by
    rintro x ⟨p, u⟩ y hx hs
    exact hx.step (u := u) hs
  lowers := by
    rintro x ⟨p, u⟩ y hx h -
    have h0 : Fintype.card P ≠ 0 := (Fintype.card_pos_iff.mpr ⟨p⟩).ne'
    obtain ⟨a, hdoes, hs, -⟩ := rounds_step_eq h
    have hpays := hdoes.pays h0 (hx.fits p) hs
    have hsum := sum_update (f := fun q => 22 * (rounds - x.begun q) + x.barrier.rank q)
      (g := fun q => 22 * (rounds - y.begun q) + y.barrier.rank q) (p := p) fun q hq => by
        have hbegun : y.begun q = x.begun q := by
          generalize y.begun = begun at hdoes
          cases hdoes <;> simp [hq]
        rw [hbegun, rank_others hs hq]
    unfold Rounds.toDo
    omega

theorem rounds_disciplined [Fintype P] {rounds : Nat} {task : P → Option Nat} {x : Rounds P}
    (hx : InRound rounds task x) :
    (roundsClient (Fintype.card P) rounds task).Disciplined x where
  release p hw := by
    rcases wish_release hw with ⟨c, b, hpc⟩ | ⟨k, hpc⟩
    all_goals exact hx.kept.locked (by rw [hpc]; rfl)
  goes_on p hlock := by
    have hin := (hx.kept.inside p).mpr hlock
    by_cases hw : (x.barrier.pc p).wish = .release
    · exact .inl hw
    · have hout : x.barrier.pc p ≠ .out := fun hpc => by simp [hpc, Pc.inSection] at hin
      have hnothing : (x.barrier.pc p).wish = .nothing := by
        cases hpc : x.barrier.pc p <;> simp_all [Pc.wish, Pc.inSection]
      obtain ⟨t, ht⟩ := next_enabled (hx.fits p) (Fintype.card P) hout
        (fun hpc => by simp [hpc, Pc.inSection] at hin) fun hacq => by simp [hnothing] at hacq
      obtain ⟨y, hy⟩ := does_enabled (nextAct_next rounds (callOf (task p)) hout) ht
      exact .inr ⟨hnothing, (), y, hy, rounds_changes (Fintype.card_pos_iff.mpr ⟨p⟩).ne' hy⟩

/-- All parties have been through all rounds, there were as many leaders as rounds, and nobody is
left in the queue or on the stack of its lock. -/
structure AllPassed (rounds : Nat) (x : Rounds P × MiniLock.State P) : Prop where
  finished : ∀ p, x.1.Finished rounds p
  queue : x.1.barrier.queue = []
  leaders : Nonempty P → x.1.ledger.leaders.length = rounds
  head : x.2.head = 0

theorem InRound.all_passed [Fintype P] {rounds : Nat} {task : P → Option Nat}
    {x : Rounds P × MiniLock.State P} (hx : InRound rounds task x.1)
    (hfinished : ∀ p, x.1.Finished rounds p) (hgood : (MiniLock.miniLock : Impl P _ _).Good x.2)
    (hidle : ∀ p, (MiniLock.miniLock : Impl P _ _).phase x.2 p = .idle) :
    AllPassed rounds x ∧ ∑ p, x.1.begun p = Fintype.card P * rounds := by
  obtain ⟨⟨q, hq⟩, halert⟩ := hgood
  refine ⟨⟨hfinished, hx.queue_nil hfinished, fun ⟨p⟩ => ?_, hq.head_zero halert hidle⟩, ?_⟩
  · obtain ⟨hout, hparker, hbegun⟩ := hfinished p
    rw [hx.kept.leaders fun r => (hfinished r).1, ← hbegun]
    exact (hx.level.level p (hx.kept.between ⟨hout, .inl hparker⟩)).symm
  · rw [Finset.sum_congr rfl fun p _ => (hfinished p).2.2]
    simp

theorem rounds_end [Fintype P] (rounds : Nat) (task : P → Option Nat)
    (frames : Option P ↪ MiniLock.Addr) :
    ∃ n, Ends ((roundsClient (Fintype.card P) rounds task).over MiniLock.miniLock)
      (Rounds.start, MiniLock.init) n
      fun x => (InRound rounds task x.1 ∧ ∀ p, x.1.Finished rounds p) ∧
        (MiniLock.miniLock : Impl P _ _).Good x.2 ∧
        ∀ p, (MiniLock.miniLock : Impl P _ _).phase x.2 p = .idle := by
  have hfinal : ∀ x : Rounds P, InRound rounds task x →
      Stuck (Rounds.step (Fintype.card P) rounds task) x →
      InRound rounds task x ∧ ∀ p, x.Finished rounds p := by
    refine fun x hx hstuck => ⟨hx, hx.all_finished fun p => ?_⟩
    by_contra hne
    obtain ⟨y, hy⟩ := Option.ne_none_iff_exists'.mp hne
    exact rounds_changes (Fintype.card_pos_iff.mpr ⟨p⟩).ne' hy (hstuck _ _ hy)
  exact ⟨_, over_ends (C := roundsClient (Fintype.card P) rounds task)
    (MiniLock.miniLock_live frames) MiniLock.miniLockCosts.spends (rounds_descend rounds task)
    (fun _ h => rounds_disciplined h) hfinal (inRound_start rounds task) rfl⟩

/-- Threads and tasks in any mixture, as many as the barrier's target, each of which comes to it
`rounds` times, the tasks polled again only once their `should_wakeup` is stored: in whatever order
the single steps of the barrier and of its list lock come, there are boundedly many that change
anything, and when none is left everybody has been through all rounds. So `thread_count` threads come
to `thread_count * wait_count` waits. -/
theorem stress_barrier [Fintype P] (rounds : Nat) (task : P → Option Nat)
    (frames : Option P ↪ MiniLock.Addr) :
    ∃ n, Ends ((roundsClient (Fintype.card P) rounds task).over MiniLock.miniLock)
      (Rounds.start, MiniLock.init) n
      fun x => AllPassed rounds x ∧ ∑ p, x.1.begun p = Fintype.card P * rounds := by
  obtain ⟨n, hends⟩ := rounds_end rounds task frames
  refine ⟨n, hends.bound, fun x hr hstuck => ?_⟩
  obtain ⟨⟨hx, hfinished⟩, hgood, hidle⟩ := hends.final x hr hstuck
  exact hx.all_passed hfinished hgood hidle

theorem stress_barrier_both : ∃ ls x,
    run ((roundsClient (Fintype.card Bool) 3 both).over MiniLock.miniLock)
      (Rounds.start, MiniLock.init) ls = some x ∧
      x.1.ledger.leaders.length = 3 ∧ x.2.head = 0 := by
  obtain ⟨n, hends⟩ := stress_barrier 3 both MiniLock.twoFrames
  obtain ⟨ls, x, hr, hpassed, -⟩ := hends.reaches [] _ trivial rfl
  exact ⟨ls, x, hr, hpassed.leaders ⟨true⟩, hpassed.head⟩

end Colock.Barrier
