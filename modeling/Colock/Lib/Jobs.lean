import Colock.Lib.LockImpl
import Colock.Lib.Serial
import Mathlib.Order.Lattice.Nat

/-! Parties that each run a list of critical sections under one lock. With whatever lock they do
so, if it lets everybody in at last and its calls come to an end, the sections are run one after
the other, each party's in its own order, and all of them are run. -/
namespace Serial
open Transition LockImpl
variable {P V : Type*}

def Section.size : Section V → V → Nat
  | .leave, _ => 0
  | .read k, v => (k v).size v + 1
  | .write f next, v => next.size (f v) + 1

/-- `left p` are the sections that `p` has yet to enter. -/
structure Jobs (P V : Type*) where
  lock : Option P
  shared : Shared P V
  left : P → List (Section V)

def Jobs.start (v : V) (jobs : P → List (Section V)) : Jobs P V :=
  ⟨none, ⟨v, fun _ => .leave, []⟩, jobs⟩

variable [DecidableEq P]

def Jobs.step (s : Jobs P V) : P × Unit → Option (Jobs P V)
  | (p, ()) =>
    if s.lock = some p then
      if (s.shared.rest p).isLeave then some { s with lock := none }
      else some { s with shared := s.shared.access p }
    else
      match s.left p with
      | [] => none
      | body :: bodies =>
        if s.lock = none then
          some ⟨some p, s.shared.enter p body, Function.update s.left p bodies⟩
        else none

def Jobs.wish (s : Jobs P V) (p : P) : Wish :=
  if s.lock = some p then if (s.shared.rest p).isLeave then .release else .nothing
  else if (s.left p).isEmpty then .nothing else .acquire

inductive Jobs.StepOf (s : Jobs P V) (p : P) : Jobs P V → Prop
  | leave (hlock : s.lock = some p) (hrest : s.shared.rest p = .leave) :
      StepOf s p { s with lock := none }
  | access (hlock : s.lock = some p) (hrest : s.shared.rest p ≠ .leave) :
      StepOf s p { s with shared := s.shared.access p }
  | enter (body : Section V) (bodies : List (Section V)) (hlock : s.lock = none)
      (hleft : s.left p = body :: bodies) :
      StepOf s p ⟨some p, s.shared.enter p body, Function.update s.left p bodies⟩

theorem Jobs.step_cases {s t : Jobs P V} {p : P} {u : Unit} (h : s.step (p, u) = some t) :
    s.StepOf p t := by
  simp only [Jobs.step] at h
  split at h
  · next hlock =>
    split at h
    · next hleave =>
      obtain rfl := Option.some.inj h
      exact .leave hlock (eq_leave hleave)
    · next hleave =>
      obtain rfl := Option.some.inj h
      refine .access hlock fun hrest => ?_
      simp [hrest, Section.isLeave] at hleave
  · split at h
    · cases h
    · next body bodies hleft =>
      simp only [Option.ite_none_right_eq_some, Option.some.injEq] at h
      obtain ⟨hnone, rfl⟩ := h
      exact .enter body bodies hnone hleft

def Jobs.client : Client P (Jobs P V) Unit where
  step := Jobs.step
  lock := Jobs.lock
  wish := Jobs.wish
  sync := ()
  nothing := by
    intro s p u t hw hs
    cases Jobs.step_cases hs with
    | leave hlock hrest => simp [Jobs.wish, hlock, hrest, Section.isLeave] at hw
    | access => rfl
    | enter body bodies hlock hleft => simp [Jobs.wish, hlock, hleft] at hw
  acquire := by
    intro s p hw hlock
    cases hleft : s.left p with
    | nil => simp [Jobs.wish, hlock, hleft] at hw
    | cons body bodies => exact ⟨_, by simp only [Jobs.step, hlock, hleft]; rfl, rfl⟩
  release := by
    intro s p hw hlock
    have hleave : (s.shared.rest p).isLeave = true := by
      by_contra hno
      simp [Jobs.wish, hlock, hno] at hw
    exact ⟨{ s with lock := none }, by simp [Jobs.step, hlock, hleave], rfl⟩
  others := by
    intro s p q u t hs hpq
    cases Jobs.step_cases hs with
    | leave hlock => simp [Jobs.wish, hlock, Ne.symm hpq]
    | access hlock => simp [Jobs.wish, hlock, Ne.symm hpq]
    | enter body bodies hlock => simp [Jobs.wish, hlock, Ne.symm hpq, Function.update_of_ne hpq]

structure Jobs.Kept (v : V) (jobs : P → List (Section V)) (s : Jobs P V) : Prop where
  serial : Serialised v (fun p => s.lock = some p) s.shared
  out : ∀ p, s.lock ≠ some p → s.shared.rest p = .leave
  order : ∀ p, (s.shared.log.filter (·.1 = p)).map Prod.snd ++ s.left p = jobs p

theorem Jobs.kept_start (v : V) (jobs : P → List (Section V)) :
    Jobs.Kept v jobs (Jobs.start v jobs) where
  serial := serialised_start v _ (by simp [Jobs.start])
  out _ _ := rfl
  order _ := by simp [Jobs.start]

theorem access_size {s : Shared P V} {p : P} (hne : s.rest p ≠ .leave) :
    ((s.access p).rest p).size (s.access p).value + 1 = (s.rest p).size s.value ∧
      ((s.access p).rest p).run (s.access p).value = (s.rest p).run s.value := by
  cases hrest : s.rest p with
  | leave => exact absurd hrest hne
  | read k => simp [Shared.access, hrest, Section.size, Section.run]
  | write f next => simp [Shared.access, hrest, Section.size, Section.run]

theorem access_log (s : Shared P V) (p : P) : (s.access p).log = s.log := by
  unfold Shared.access
  split <;> rfl

theorem Jobs.Kept.step {v : V} {jobs : P → List (Section V)} {s t : Jobs P V} {p : P} {u : Unit}
    (h : Jobs.Kept v jobs s) (hs : s.step (p, u) = some t) : Jobs.Kept v jobs t := by
  cases Jobs.step_cases hs with
  | leave hlock hrest =>
    refine ⟨serialised_quiet (h.serial.through hlock hrest) (by simp), fun q _ => ?_, h.order⟩
    by_cases hq : q = p
    · exact hq ▸ hrest
    · exact h.out q (by simp [hlock, Ne.symm hq])
  | access hlock hrest =>
    refine ⟨h.serial.access hlock fun q hq => ?_, fun q hq => ?_, fun q => ?_⟩
    · exact Option.some.inj (hq.symm.trans hlock)
    · have hqp : q ≠ p := fun heq => hq (heq ▸ hlock)
      rw [Shared.access_others _ _ hqp]
      exact h.out q hq
    · rw [access_log]
      exact h.order q
  | enter body bodies hlock hleft =>
    have hvalue : s.shared.value = replay v s.shared.log := h.serial.quiet (by simp [hlock])
    have hserial : Serialised v (fun q => some p = some q) (s.shared.enter p body) := by
      refine serialised_enter hvalue ?_ (fun q hq => ?_) body
      · rfl
      · exact (Option.some.inj hq).symm
    refine ⟨hserial, fun q hq => ?_, fun q => ?_⟩
    · have hqp : q ≠ p := fun heq => hq (by rw [heq])
      simpa [Shared.enter, hqp] using h.out q (by simp [hlock])
    · have horder := h.order q
      by_cases hq : q = p
      · subst q
        simpa [Shared.enter, hleft] using horder
      · simpa [Shared.enter, hq, Ne.symm hq] using horder

theorem Jobs.disciplined (s : Jobs P V) : Jobs.client.Disciplined s where
  release p hw := by
    by_contra hlock
    change s.lock ≠ some p at hlock
    simp only [Jobs.client, Jobs.wish, hlock, if_false] at hw
    split at hw <;> cases hw
  goes_on p hlock := by
    change s.lock = some p at hlock
    by_cases hrest : s.shared.rest p = .leave
    · exact .inl (by simp [Jobs.client, Jobs.wish, hlock, hrest, Section.isLeave])
    · have hleave : (s.shared.rest p).isLeave = false := by
        by_contra hno
        exact hrest (eq_leave (by simpa using hno))
      refine .inr ⟨by simp [Jobs.client, Jobs.wish, hlock, hleave], (),
        { s with shared := s.shared.access p }, by simp [Jobs.client, Jobs.step, hlock, hleave], ?_⟩
      intro hsame
      have heq : s.shared.access p = s.shared := congrArg Jobs.shared hsame
      have hsize := (access_size hrest).1
      rw [heq] at hsize
      omega

theorem Jobs.Kept.done {v : V} {jobs : P → List (Section V)} {s : Jobs P V}
    (h : Jobs.Kept v jobs s) (hstuck : Stuck Jobs.step s) :
    s.shared.value = replay v s.shared.log ∧
      ∀ p, (s.shared.log.filter (·.1 = p)).map Prod.snd = jobs p := by
  have hlock : s.lock = none := by
    by_contra hne
    obtain ⟨p, hp⟩ := Option.ne_none_iff_exists'.mp hne
    rcases (Jobs.disciplined s).goes_on p hp with hw | ⟨-, i, t, ht, hmove⟩
    · obtain ⟨t, ht, hnone⟩ := Jobs.client.release hw hp
      have hsame : t = s := hstuck (p, ()) _ ht
      rw [hsame] at hnone
      exact hne hnone
    · exact hmove (hstuck (p, i) _ ht)
  have hleft : ∀ p, s.left p = [] := by
    intro p
    cases hp : s.left p with
    | nil => rfl
    | cons body bodies =>
      have hsame := hstuck (p, ()) _ (by simp only [Jobs.step, hlock, hp]; rfl)
      have hnone : some p = s.lock := congrArg Jobs.lock hsame
      rw [hlock] at hnone
      cases hnone
  exact ⟨h.serial.quiet (by simp [hlock]), fun p => by simpa [hleft p] using h.order p⟩

section ends
variable [Fintype P]

/-- The most accesses, with an entry and a leave for each section, that `n` of the sections `left`
can come to from the value `v`, in whatever order they are run. -/
def worst : Nat → (P → List (Section V)) → V → Nat
  | 0, _, _ => 0
  | n + 1, left, v => Finset.univ.sup fun p =>
    (left p).head?.elim 0 fun body =>
      body.size v + 2 + worst n (Function.update left p (left p).tail) (body.run v)

theorem worst_enter {n : Nat} {left : P → List (Section V)} {v : V} {p : P} {body : Section V}
    {bodies : List (Section V)} (h : left p = body :: bodies) :
    body.size v + 2 + worst n (Function.update left p bodies) (body.run v) ≤
      worst (n + 1) left v := by
  have hle := Finset.le_sup (f := fun q => (left q).head?.elim 0 fun body =>
    body.size v + 2 + worst n (Function.update left q (left q).tail) (body.run v))
    (Finset.mem_univ p)
  simpa [worst, h] using hle

def Jobs.toDo (s : Jobs P V) : Nat :=
  let n := ∑ p, (s.left p).length
  match s.lock with
  | none => worst n s.left s.shared.value
  | some p =>
    (s.shared.rest p).size s.shared.value + 1 + worst n s.left ((s.shared.rest p).run s.shared.value)

theorem Jobs.descends (v : V) (jobs : P → List (Section V)) :
    Descends Jobs.step (Jobs.Kept v jobs) Jobs.toDo where
  keeps := by
    rintro s ⟨p, u⟩ t h hs
    exact h.step hs
  lowers := by
    rintro s ⟨p, u⟩ t - hs -
    cases Jobs.step_cases hs with
    | leave hlock hrest => simp [Jobs.toDo, hlock, hrest, Section.size, Section.run]
    | access hlock hrest =>
      obtain ⟨hsize, hrun⟩ := access_size hrest
      simp only [Jobs.toDo, hlock, hrun]
      omega
    | enter body bodies hlock hleft =>
      have hlength := sum_update (f := fun q => (s.left q).length)
        (g := fun q => (Function.update s.left p bodies q).length) (p := p) fun q hq => by simp [hq]
      simp only [Function.update_self, hleft, List.length_cons] at hlength
      obtain hn : ∑ q, (s.left q).length =
          (∑ q, (Function.update s.left p bodies q).length) + 1 := by omega
      have henter := worst_enter (n := ∑ q, (Function.update s.left p bodies q).length)
        (v := s.shared.value) hleft
      simp only [Jobs.toDo, hlock, hn, Shared.enter, Function.update_self]
      omega

variable {τ κ : Type*} {L : Impl P τ κ}

/-- Over a lock that is live and whose calls end, in every run all sections are run, one after the
other, and then no party is in a call. -/
theorem jobs_end (hlive : L.Live) (K : L.Spends) (v : V) (jobs : P → List (Section V)) :
    Ends (Jobs.client.over L) (Jobs.start v jobs, L.start)
      (overPotential K Jobs.toDo (Jobs.start v jobs, L.start))
      fun x => (x.1.shared.value = replay v x.1.shared.log ∧
        ∀ p, (x.1.shared.log.filter (·.1 = p)).map Prod.snd = jobs p) ∧
        L.Good x.2 ∧ ∀ p, L.phase x.2 p = .idle :=
  over_ends hlive K (Jobs.descends v jobs) (fun s _ => Jobs.disciplined s)
    (fun _ h hstuck => h.done hstuck) (Jobs.kept_start v jobs) rfl

theorem replay_all {j : Nat} {log : List (P × Section Nat)}
    (h : ∀ p, (log.filter (·.1 = p)).map Prod.snd = List.replicate j increment) :
    replay 0 log = j * Fintype.card P := by
  have hbody : ∀ e ∈ log, e.2 = increment := by
    intro e he
    have hmem : e.2 ∈ (log.filter (·.1 = e.1)).map Prod.snd :=
      List.mem_map_of_mem (List.mem_filter.mpr ⟨he, by simp⟩)
    rw [h e.1] at hmem
    exact List.eq_of_mem_replicate hmem
  have hcount : ∀ p ∈ Finset.univ, (log.map Prod.fst).count p = j := by
    intro p _
    have hlength := congrArg List.length (h p)
    rw [List.length_map, List.length_replicate] at hlength
    rw [← hlength, List.count_eq_countP, List.countP_map, List.countP_eq_length_filter]
    rfl
  rw [replay_increment hbody, Nat.zero_add, length_of_count (fun _ _ => Finset.mem_univ _) hcount,
    Finset.card_univ]

end ends

end Serial
