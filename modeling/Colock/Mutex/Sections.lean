import Colock.RawMutex.FairHandOff
import Colock.RawMutex.Party
import Colock.Lib.Serial

/-! `Mutex<T>` with the value it protects. Parties enter a critical section by any of the
calls that acquire, read and write the value through the guard, one access at a time, and
leave by dropping the guard. -/
namespace Colock.Sections
open Transition HandOff RawMutex Serial
variable {P V : Type*} [DecidableEq P]

/-- `todo p` is the section that `p` runs when it gets the lock next. -/
structure State (P V : Type*) where
  raw : RawMutex.State P
  shared : Shared P V
  todo : P → Section V

def init (v : V) : State P V := ⟨RawMutex.init, ⟨v, fun _ => .leave, []⟩, fun _ => .leave⟩

/-- Whoever calls for the lock says what it will do with it. A `bump` ends one section and
begins the next, also when it keeps the lock; a section that bumps on its way is two. -/
inductive Act (V : Type*)
  | next
  | start (c : Call) (body : Section V)
  | release (r : Release) (body : Section V)
  | timeout
  | dropFuture
  | access

/-- A step from the first operation to the second one acquires the lock, or keeps it over a
`bump`. -/
def enters (before after : Pc P) : Bool :=
  !before.owns && after.owns || before = .bumpLoad && after = .holding

def State.via (s : State P V) (p : P) (a : RawMutex.Act) : Option (State P V) :=
  (RawMutex.step s.raw (p, a)).map fun raw =>
    { s with
      raw
      shared := if enters (s.raw.pc p) (raw.pc p) then s.shared.enter p (s.todo p)
        else s.shared }

def State.plan (s : State P V) (p : P) (body : Section V) : State P V :=
  { s with todo := Function.update s.todo p body }

def step (s : State P V) : P × Act V → Option (State P V)
  | (p, .next) => s.via p .next
  | (p, .timeout) => s.via p .timeout
  | (p, .dropFuture) => s.via p .dropFuture
  | (p, .start c body) => (s.plan p body).via p (.start c)
  | (p, .release r body) =>
    if (s.shared.rest p).isLeave then (s.plan p body).via p (.release r) else none
  | (p, .access) =>
    if s.raw.pc p = .holding ∧ ¬ (s.shared.rest p).isLeave then
      some { s with shared := s.shared.access p } else none

/-- Guards are dropped, or bumped, but no lock is handed over. -/
def PlainDrop (_ : State P V) : P × Act V → Prop
  | (_, .release r _) => r ≠ .unlockFair
  | _ => True

def State.inside (s : State P V) (p : P) : Prop := (s.raw.pc p).owns = true

def leaving : Pc P → Bool
  | .bumpLoad | .fetchUnlock _ => true
  | _ => false

omit [DecidableEq P] in
theorem leaving_of_flow {w : Word} {a : RawMutex.Act} {c d : Pc P} (h : Flow w a c d)
    (hd : leaving d = true) : c = .bumpLoad ∨ c = .holding ∧ ∃ r, a = .release r := by
  cases h with
  | bumpGives => exact .inl rfl
  | unlock | bump => exact .inr ⟨rfl, _, rfl⟩
  | dropOff k | dropped k =>
    cases k with
    | future held => cases held <;> simp [Leave.next, leaving] at hd
    | _ => simp [Leave.next, leaving] at hd
  | fetchAlone r | released r => cases r <;> simp [afterRelease, leaving] at hd
  | _ => simp [leaving] at hd

omit [DecidableEq P] in
theorem heeds_of_plain {s : RawMutex.State P} (hp : ∀ q, (s.pc q).plain = true)
    (hf : fair s.word = false) (l : P × RawMutex.Act) : Heeds s l := by
  obtain ⟨p, a⟩ := l
  cases a with
  | next =>
    intro toggle htoggle
    have hplain := hp p
    cases hpc : s.pc p <;> simp_all [Pc.handsOff, Pc.plain]
  | timeout => exact fun _ h => by simp [hf] at h
  | _ => trivial

structure Kept (v : V) (s : State P V) : Prop where
  sane : ∀ p, (s.raw.pc p).sane
  plain : ∀ p, (s.raw.pc p).plain = true
  fair : fair s.raw.word = false
  exclusive : Exclusive (view s.raw)
  answered : Answered (view s.raw)
  through : ∀ p, leaving (s.raw.pc p) = true → s.shared.rest p = .leave
  serial : Serialised v s.inside s.shared

omit [DecidableEq P] in
theorem alone_of_exclusive {s : RawMutex.State P} (h : Exclusive (view s)) {p q : P}
    (hp : (s.pc p).owns = true) (hq : (s.pc q).owns = true) : p = q :=
  h.one_owner p q (role_owner.mpr hp) (role_owner.mpr hq)

omit [DecidableEq P] in
theorem Kept.locked_iff {v : V} {s : State P V} (hs : Kept v s) :
    locked s.raw.word = true ↔ ∃ p, s.inside p := by
  constructor
  · intro hl
    rcases hs.answered.locked hl with ⟨p, hp⟩ | hf
    · exact ⟨p, role_owner.mp hp⟩
    · exact absurd (hf : RawMutex.fair s.raw.word = true) (by simp [hs.fair])
  · intro ⟨p, hp⟩
    exact (hs.exclusive.owner_bits p (role_owner.mpr hp)).1

theorem Kept.through_via {v : V} {s : State P V} {u : RawMutex.State P} {p : P}
    {a : RawMutex.Act} (hs : Kept v s) (hr : ∀ r, a = .release r → s.shared.rest p = .leave)
    (hu : RawMutex.step s.raw (p, a) = some u) (hl : leaving (u.pc p) = true) :
    s.shared.rest p = .leave ∧ enters (s.raw.pc p) (u.pc p) = false := by
  have hnot : u.pc p ≠ .holding := by
    intro hpc
    simp [hpc, leaving] at hl
  rcases leaving_of_flow (step_flow hu) hl with hpc | ⟨hpc, r, ha⟩
  · exact ⟨hs.through p (by rw [hpc]; rfl), by simp [enters, hpc, Pc.owns, hnot]⟩
  · exact ⟨hr r ha, by simp [enters, hpc, Pc.owns]⟩

theorem Kept.serial_via {v : V} {s : State P V} {u : RawMutex.State P} {p : P}
    {a : RawMutex.Act} (hs : Kept v s) (hx : Exclusive (view u))
    (hu : RawMutex.step s.raw (p, a) = some u) :
    Serialised v (fun q => (u.pc q).owns = true)
      (if enters (s.raw.pc p) (u.pc p) then s.shared.enter p (s.todo p) else s.shared) := by
  have hothers : ∀ q, q ≠ p → ((u.pc q).owns = true ↔ s.inside q) := by
    intro q hq
    rw [State.inside, step_others hu hq]
  split
  · next henters =>
    simp only [enters, Bool.or_eq_true, Bool.and_eq_true, Bool.not_eq_true', decide_eq_true_eq]
      at henters
    have hp : (u.pc p).owns = true := by
      rcases henters with ⟨-, hp⟩ | ⟨-, hpc⟩
      · exact hp
      · rw [hpc]
        rfl
    have hvalue : s.shared.value = replay v s.shared.log := by
      rcases henters with ⟨hout, -⟩ | ⟨hpc, -⟩
      · refine hs.serial.quiet fun q hq => ?_
        have hne : q ≠ p := by
          rintro rfl
          simp [State.inside, hout] at hq
        exact hne (alone_of_exclusive hx ((hothers q hne).mpr hq) hp)
      · exact hs.serial.through (p := p) (by rw [State.inside, hpc]; rfl)
          (hs.through p (by rw [hpc]; rfl))
    refine serialised_enter hvalue ?_ ?_ _
    · exact hp
    · exact fun q hq => alone_of_exclusive hx hq hp
  · next henters =>
    by_cases hgives : s.inside p ∧ (u.pc p).owns = false
    · obtain ⟨r, hpc⟩ := (step_flow hu).gives (hs.plain p) hgives.1 hgives.2
      refine serialised_quiet
        (hs.serial.through hgives.1 (hs.through p (by rw [hpc]; rfl))) fun q hq => ?_
      have hne : q ≠ p := by
        rintro rfl
        simp [hgives.2] at hq
      exact hne (alone_of_exclusive hs.exclusive ((hothers q hne).mp hq) hgives.1)
    · refine hs.serial.congr fun q => ?_
      by_cases hq : q = p
      · subst q
        cases hbefore : (s.raw.pc p).owns <;> cases hafter : (u.pc p).owns <;>
          simp_all [State.inside, enters]
      · exact hothers q hq

theorem Kept.via {v : V} {s t : State P V} {p : P} {a : RawMutex.Act} (hs : Kept v s)
    (ha : a ≠ .release .unlockFair) (hr : ∀ r, a = .release r → s.shared.rest p = .leave)
    (h : s.via p a = some t) : Kept v t := by
  obtain ⟨u, hu, rfl⟩ := Option.map_eq_some_iff.mp h
  obtain ⟨hplain, hf⟩ := step_plain (hs.plain p) (hs.sane p) hs.fair ha hu
  have hx := step_exclusive hs.sane hs.exclusive (readsAlone_of_fair hs.fair _) hu
  refine ⟨step_sane hs.sane hu, fun q => ?_, hf, hx,
    step_answered hs.sane hs.answered (heeds_of_plain hs.plain hs.fair _) hu, fun q hq => ?_,
    hs.serial_via hx hu⟩
  · by_cases hq : q = p
    · exact hq ▸ hplain
    · simpa [step_others hu hq] using hs.plain q
  · by_cases hqp : q = p
    · subst q
      obtain ⟨hrest, hout⟩ := hs.through_via hr hu hq
      simpa [hout] using hrest
    · have hrest := hs.through q (by simpa [step_others hu hqp] using hq)
      split
      · simpa [Shared.enter, hqp] using hrest
      · exact hrest

theorem Kept.plan {v : V} {s : State P V} (hs : Kept v s) (p : P) (body : Section V) :
    Kept v (s.plan p body) :=
  ⟨hs.sane, hs.plain, hs.fair, hs.exclusive, hs.answered, hs.through, hs.serial⟩

theorem Kept.access {v : V} {s : State P V} {p : P} (hs : Kept v s) (hpc : s.raw.pc p = .holding) :
    Kept v { s with shared := s.shared.access p } := by
  have hp : s.inside p := by rw [State.inside, hpc]; rfl
  refine ⟨hs.sane, hs.plain, hs.fair, hs.exclusive, hs.answered, fun q hq => ?_,
    hs.serial.access hp fun q hq => alone_of_exclusive hs.exclusive hq hp⟩
  have hne : q ≠ p := by
    rintro rfl
    simp [hpc, leaving] at hq
  simpa [Shared.access_others _ _ hne] using hs.through q hq

theorem step_kept {v : V} {s t : State P V} {l : P × Act V} (hs : Kept v s)
    (hok : PlainDrop s l) (h : step s l = some t) : Kept v t := by
  obtain ⟨p, a⟩ := l
  cases a with
  | next | timeout | dropFuture => exact hs.via (by rintro ⟨⟩) (by rintro r ⟨⟩) h
  | start c body => exact (hs.plan p body).via (by rintro ⟨⟩) (by rintro r ⟨⟩) h
  | release r body =>
    simp only [step, Option.ite_none_right_eq_some] at h
    refine (hs.plan p body).via (fun hr => hok (RawMutex.Act.release.inj hr)) (fun _ _ => ?_) h.2
    exact eq_leave h.1
  | access =>
    simp only [step, Option.ite_none_right_eq_some, Option.some.injEq] at h
    obtain ⟨⟨hpc, -⟩, rfl⟩ := h
    exact hs.access hpc

omit [DecidableEq P] in
theorem kept_init (v : V) : Kept v (init v : State P V) where
  sane := fun _ => trivial
  plain := fun _ => rfl
  fair := by simp [init, RawMutex.init]
  exclusive := by
    rw [init, view_init]
    constructor <;> simp [free]
  answered := by
    rw [init, view_init]
    constructor <;> simp [free]
  through := fun _ _ => rfl
  serial := serialised_start v _ (by simp [init, State.inside, RawMutex.init, Pc.owns])

theorem reach_kept {v : V} {s : State P V} (h : Reach step PlainDrop (init v) s) : Kept v s :=
  h.invariant (kept_init v) fun _ _ _ => step_kept

/-- Critical sections under plain release are serialised. In every state of a run `LOCKED_BIT`
is set exactly while one party is inside; when nobody is, the value is the one that the sections
give one after the other in the order of acquisition, and the section of a party that is inside
is on its way from that value. So `k` parties that did `j` increments each leave `j * k`. -/
theorem sections_serialised :
    (∀ (v : V) (s : State P V), Reach step PlainDrop (init v) s →
      (locked s.raw.word = true ↔ ∃! p, s.inside p) ∧
      ((∀ p, ¬ s.inside p) → s.shared.value = replay v s.shared.log) ∧
      ∀ p, s.inside p → ∃ done body, s.shared.log = done ++ [(p, body)] ∧
        (s.shared.rest p).run s.shared.value = body.run (replay v done)) ∧
    ∀ (s : State P Nat) (parties : Finset P) (j : Nat), Reach step PlainDrop (init 0) s →
      (∀ e ∈ s.shared.log, e.1 ∈ parties ∧ e.2 = increment) →
      (∀ p ∈ parties, (s.shared.log.map Prod.fst).count p = j) → (∀ p, ¬ s.inside p) →
      s.shared.value = j * parties.card := by
  constructor
  · intro v s h
    have hs := reach_kept h
    refine ⟨?_, hs.serial.quiet, hs.serial.running⟩
    rw [hs.locked_iff]
    constructor
    · intro ⟨p, hp⟩
      exact ⟨p, hp, fun q hq => alone_of_exclusive hs.exclusive hq hp⟩
    · intro ⟨p, hp, _⟩
      exact ⟨p, hp⟩
  · intro s parties j h hlog hcount hout
    rw [(reach_kept h).serial.quiet hout, replay_increment fun e he => (hlog e he).2, Nat.zero_add,
      length_of_count (fun e he => (hlog e he).1) hcount]

instance (s : State P V) (l : P × Act V) : Decidable (PlainDrop s l) :=
  match l with
  | (_, .release r _) => inferInstanceAs (Decidable (r ≠ .unlockFair))
  | (_, .next) | (_, .start _ _) | (_, .timeout) | (_, .dropFuture) | (_, .access) =>
    isTrue trivial

def nexts (p : P) (n : Nat) : List (P × Act V) := List.replicate n (p, .next)

def twoIncrements (p q : P) : List (P × Act Nat) :=
  (p, .start .tryLock increment) :: nexts p 1 ++ [(p, .access)] ++
    (q, .start (.lockInner false) increment) :: nexts q 8 ++ [(p, .access)] ++
    (p, .release .unlock .leave) :: nexts p 6 ++ nexts q 4 ++ [(q, .access), (q, .access)] ++
    (q, .release .unlock .leave) :: nexts q 1

theorem sections_serialised_twice : ∃ s : State (Fin 2) Nat,
    run step (init 0) (twoIncrements 0 1) = some s ∧
    s.shared.log = [(0, increment), (1, increment)] ∧
    (locked s.raw.word = true ↔ ∃! p, s.inside p) ∧
    s.shared.value = 1 * (Finset.univ : Finset (Fin 2)).card := by
  have hr : ((run (restrict step PlainDrop) (init 0) (twoIncrements (0 : Fin 2) 1)).map
      fun s => (s.shared.log, s.raw.pc 0, s.raw.pc 1)) =
        some ([(0, increment), (1, increment)], .idle, .idle) := rfl
  obtain ⟨s, hs, ho⟩ := Option.map_eq_some_iff.mp hr
  simp only [Prod.mk.injEq] at ho
  obtain ⟨hlog, hzero, hone⟩ := ho
  have hreach := restrict_run_reach hs
  obtain ⟨hserial, hcount⟩ := sections_serialised (P := Fin 2) (V := Nat)
  refine ⟨s, (restrict_run_meets hs).2, hlog, (hserial 0 s hreach).1,
    hcount s Finset.univ 1 hreach (by simp [hlog]) ?_ ?_⟩
  · simp [hlog]
  · simp [Fin.forall_fin_two, State.inside, hzero, hone, Pc.owns]

end Colock.Sections
