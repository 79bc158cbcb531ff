import Colock.Parking.Model

/-! `Parker::park` with the one token that all parkers of a thread share: no wake is slept
through, and none is taken for that of another parker. -/
namespace Colock.Parking
open Transition
variable {P : Type*} [DecidableEq P]

def State.Fit (s : State P) (w : Waker P) : Prop :=
  ∀ i, w.parker = some i → match s.use i with
    | some (.thread p) => w.inner = .thread p
    | some .task => ∃ cx, w.inner = .task cx
    | none => False

/-- A waker of the parker has stored the flag and is about to call `unpark` on the thread. -/
def State.Unparking (s : State P) (i : Nat) (t : P) : Prop :=
  ∃ q w, s.pc q = .unpark w ∧ w.parker = some i ∧ w.inner = .thread t

structure Sound (s : State P) : Prop where
  wakers : ∀ w ∈ s.wakers, s.Fit w
  called : ∀ q w, (s.pc q).waker? = some w → s.Fit w
  parks : ∀ p i, (s.pc p).parker? = some i → s.use i = some (.thread p)
  awake : ∀ t i, s.pc t = .park i → s.flag i = true → s.token t = true ∨ s.Unparking i t

theorem step_pc {s t : State P} {p q : P} {a : Act P} (h : step s (p, a) = some t) (hq : q ≠ p) :
    t.pc q = s.pc q := by
  cases step_cases h <;> simp [hq]

theorem step_use {s t : State P} {l : P × Act P} (h : step s l = some t) {i : Nat} {u : Use P}
    (hi : s.use i = some u) : t.use i = some u := by
  cases step_cases h with
  | newParker p j hpc hj | newTaskParker p j hpc hj =>
    have hij : i ≠ j := by
      rintro rfl
      simp [hj] at hi
    simp [hij, hi]
  | _ => exact hi

theorem step_fit {s t : State P} {l : P × Act P} (h : step s l = some t) {w : Waker P}
    (hw : s.Fit w) : t.Fit w := by
  intro i hi
  have hfit := hw i hi
  cases hu : s.use i with
  | none => simp [hu] at hfit
  | some u => simpa [step_use h hu, hu] using hfit

theorem step_wakers {s t : State P} {l : P × Act P} (h : step s l = some t) {w : Waker P}
    (hw : w ∈ t.wakers) : w ∈ s.wakers ∨ s.Fit w := by
  cases step_cases h with
  | waker p i hpc hi | asyncWaker p i cx hpc hi =>
    rcases List.mem_cons.mp hw with rfl | hw
    · exact .inr fun j hj => by simp_all
    · exact .inl hw
  | newTaskUnattached p cx =>
    rcases List.mem_cons.mp hw with rfl | hw
    · exact .inr fun j hj => by simp at hj
    · exact .inl hw
  | wake p v hpc hv => exact .inl (List.mem_of_mem_erase hw)
  | _ => exact .inl hw

theorem step_waker? {s t : State P} {p : P} {a : Act P} (h : step s (p, a) = some t) {w : Waker P}
    (hw : (t.pc p).waker? = some w) : (s.pc p).waker? = some w ∨ w ∈ s.wakers := by
  cases step_cases h <;> simp_all [Pc.waker?]

theorem step_parker? {s t : State P} {p : P} {a : Act P} (h : step s (p, a) = some t) {i : Nat}
    (hi : (t.pc p).parker? = some i) :
    (s.pc p).parker? = some i ∨ s.use i = some (.thread p) := by
  cases step_cases h <;> simp_all [Pc.parker?]

theorem step_unparking {s t : State P} {l : P × Act P} (h : step s l = some t) {i : Nat} {u : P}
    (hu : s.Unparking i u) : t.Unparking i u ∨ t.token u = true := by
  obtain ⟨q, w, hq, hi, hw⟩ := hu
  obtain ⟨p, a⟩ := l
  by_cases hqp : q = p
  · subst hqp
    cases step_cases h with
    | unpark p t v hpc hv =>
      obtain rfl : w = v := by simpa [hq] using hpc
      obtain rfl : u = t := by simpa [hw] using hv
      exact .inr (by simp)
    | wakeTask p v cx hpc hv =>
      obtain rfl : w = v := by simpa [hq] using hpc
      simp [hw] at hv
    | unparkThread p t | tick p k => exact .inl ⟨q, w, hq, hi, hw⟩
    | _ => simp_all
  · exact .inl ⟨q, w, (step_pc h hqp).trans hq, hi, hw⟩

theorem step_token {s t : State P} {p u : P} {a : Act P} (h : step s (p, a) = some t)
    (hu : s.token u = true) (hup : u ≠ p) : t.token u = true := by
  cases step_cases h with
  | unpark p t w | unparkThread p t =>
    by_cases hut : u = t <;> simp [hut, hu]
  | unparked p i | timedUnparked p i deadline => simpa [hup] using hu
  | _ => exact hu

theorem step_flag {s t : State P} {p : P} {a : Act P} (h : step s (p, a) = some t) {i : Nat}
    (hi : t.flag i = true) : s.flag i = true ∨
      ∃ w, s.pc p = .store w ∧ w.parker = some i ∧ t.pc p = .unpark w := by
  cases step_cases h with
  | newParker p j | newTaskParker p j | preparePark p j =>
    by_cases hij : i = j
    · simp [hij] at hi
    · exact .inl (by simpa [hij] using hi)
  | store p w j hpc hw =>
    by_cases hij : i = j
    · exact .inr ⟨w, hpc, hij ▸ hw, by simp⟩
    · exact .inl (by simpa [hij] using hi)
  | _ => exact .inl hi

theorem step_park {s t : State P} {p u : P} {a : Act P} (h : step s (p, a) = some t) {i : Nat}
    (hu : t.pc u = .park i) :
    t.flag i = false ∨ s.pc u = .park i ∧ (s.token u = true → t.token u = true) := by
  by_cases hup : u = p
  · subst hup
    cases step_cases h with
    | sleeps p j hpc hflag =>
      obtain rfl : j = i := by simpa using hu
      exact .inl hflag
    | unparkThread p v =>
      refine .inr ⟨hu, fun htoken => ?_⟩
      by_cases huv : u = v <;> simp [huv, htoken]
    | tick p k => exact .inr ⟨hu, id⟩
    | _ => simp_all
  · exact .inr ⟨(step_pc h hup).symm.trans hu, fun htoken => step_token h htoken hup⟩

theorem Sound.step {s t : State P} {l : P × Act P} (hs : Sound s) (h : step s l = some t) :
    Sound t := by
  obtain ⟨p, a⟩ := l
  constructor
  · intro w hw
    rcases step_wakers h hw with hw | hw
    · exact step_fit h (hs.wakers w hw)
    · exact step_fit h hw
  · intro q w hw
    by_cases hq : q = p
    · subst hq
      rcases step_waker? h hw with hw | hw
      · exact step_fit h (hs.called q w hw)
      · exact step_fit h (hs.wakers w hw)
    · rw [step_pc h hq] at hw
      exact step_fit h (hs.called q w hw)
  · intro q i hi
    by_cases hq : q = p
    · subst hq
      rcases step_parker? h hi with hi | hi
      · exact step_use h (hs.parks q i hi)
      · exact step_use h hi
    · rw [step_pc h hq] at hi
      exact step_use h (hs.parks q i hi)
  · intro u i hu hflag
    rcases step_park h hu with hdown | ⟨hpark, htoken⟩
    · simp [hdown] at hflag
    · rcases step_flag h hflag with hold | ⟨w, hpc, hi, hnew⟩
      · rcases hs.awake u i hpark hold with hon | hunpark
        · exact .inl (htoken hon)
        · exact (step_unparking h hunpark).symm
      · have huse := hs.parks u i (by rw [hpark]; rfl)
        have hfit := hs.called p w (by rw [hpc]; rfl) i hi
        rw [huse] at hfit
        exact .inr ⟨p, w, hnew, hi, hfit⟩

theorem park_returns {s : State P} {t : P} {i : Nat} (hpc : s.pc t = .park i)
    (hflag : s.flag i = true) (htoken : s.token t = true) :
    ∃ u, run step s [(t, .next), (t, .next)] = some u ∧ u.pc t = .out := by
  refine ⟨((s.setToken t false).goto t (.load i)).goto t .out, ?_, by simp⟩
  simp [run, step, next, hpc, htoken, hflag]

/-- A thread that sleeps on a raised flag leaves `park` within three steps: the `unpark` that
is on its way, its own return and its look at the flag. -/
theorem park_ends {s : State P} (hs : Sound s) {t : P} {i : Nat} (hpc : s.pc t = .park i)
    (hflag : s.flag i = true) : ∃ ls u, ls.length ≤ 3 ∧ (∀ l ∈ ls, l.2 = .next) ∧
      run step s ls = some u ∧ u.pc t = .out := by
  rcases hs.awake t i hpc hflag with htoken | ⟨q, w, hq, -, hw⟩
  · obtain ⟨u, hu, hout⟩ := park_returns hpc hflag htoken
    exact ⟨_, u, by simp, by simp, hu, hout⟩
  · have hqt : t ≠ q := by
      rintro rfl
      simp [hpc] at hq
    have hunpark : step s (q, .next) = some ((s.setToken t true).goto q .out) := by
      simp [step, next, hq, hw]
    obtain ⟨u, hu, hout⟩ := park_returns (s := (s.setToken t true).goto q .out) (t := t) (i := i)
      (by simp [hqt, hpc]) hflag (by simp)
    refine ⟨[(q, .next), (t, .next), (t, .next)], u, by simp, by simp, ?_, hout⟩
    rw [run, hunpark]
    exact hu

omit [DecidableEq P] in
theorem sound_init : Sound (init : State P) := by
  constructor <;> simp [init, Pc.waker?, Pc.parker?]

omit [DecidableEq P] in
theorem woken_stored (log : List (Event P)) (i : Nat) : Woken (.stored i :: log) i :=
  ⟨[], log, rfl, by simp⟩

omit [DecidableEq P] in
theorem Woken.cons {log : List (Event P)} {i : Nat} {e : Event P} (h : Woken log i)
    (he : e ≠ .prepared i) : Woken (e :: log) i := by
  obtain ⟨mid, old, rfl, hmid⟩ := h
  exact ⟨e :: mid, old, rfl, by simp [hmid, Ne.symm he]⟩

theorem event_flag {s t : State P} {l : P × Act P} (h : step s l = some t) (wait : P → Wait)
    {i : Nat} (hi : t.flag i = true) : eventOf s wait l = some (.stored i) ∨
      s.flag i = true ∧ eventOf s wait l ≠ some (.prepared i) := by
  cases step_cases h with
  | newParker p j | newTaskParker p j =>
    by_cases hij : i = j
    · simp [hij] at hi
    · exact .inr ⟨by simpa [hij] using hi, by simp [eventOf]⟩
  | preparePark p j =>
    by_cases hij : i = j
    · simp [hij] at hi
    · exact .inr ⟨by simpa [hij] using hi, by simp [eventOf, Ne.symm hij]⟩
  | store p w j hpc hw =>
    by_cases hij : i = j
    · exact .inl (by simp [eventOf, hpc, hw, hij])
    · exact .inr ⟨by simpa [hij] using hi, by simp [eventOf, hpc, hw]⟩
  | _ => exact .inr ⟨hi, by simp [eventOf, *]⟩

theorem note_woken {s t : State P} {l : P × Act P} {h : History P} (hs : step s l = some t) {i : Nat}
    (hlog : s.flag i = true → Woken h.log i) (hi : t.flag i = true) :
    Woken (note s l h).log i := by
  rcases event_flag hs (noteWait s l h.wait) hi with hnew | ⟨hold, hkeep⟩
  · simp only [note, hnew, Option.toList_some, List.singleton_append]
    exact woken_stored h.log i
  · simp only [note]
    cases he : eventOf s (noteWait s l h.wait) l with
    | none => exact hlog hold
    | some e => exact (hlog hold).cons fun hprep => hkeep (he.trans (congrArg some hprep))

def Pc.parks : Pc P → Option Nat
  | .load i | .park i => some i
  | _ => none

/-- Whoever leaves `park` has seen the flag up, and its return is logged. -/
theorem park_exit {s t : State P} {p : P} {a : Act P} {i : Nat} (h : step s (p, a) = some t)
    (hp : (s.pc p).parks = some i) (ht : (t.pc p).parks ≠ some i) :
    t.pc p = .out ∧ s.flag i = true ∧
      ∀ wait, eventOf s wait (p, a) = some (.returned p i) := by
  cases step_cases h with
  | parkEnds p j hpc hflag =>
    obtain rfl : j = i := by simpa [hpc, Pc.parks] using hp
    exact ⟨by simp, hflag, fun wait => by simp [eventOf, hpc, hflag]⟩
  | _ => simp_all [Pc.parks]

omit [DecidableEq P] in
theorem event_returned {s : State P} {l : P × Act P} {wait : P → Wait} {u : P} {i : Nat}
    (h : eventOf s wait l = some (.returned u i)) : s.flag i = true := by
  obtain ⟨p, a⟩ := l
  cases a with
  | next =>
    cases hpc : s.pc p with
    | load j =>
      simp only [eventOf, hpc, Option.ite_none_right_eq_some, Option.some.injEq,
        Event.returned.injEq] at h
      exact h.2.2 ▸ h.1
    | _ => simp [eventOf, hpc] at h
  | _ => simp [eventOf] at h

theorem note_split {s : State P} {l : P × Act P} {h : History P} {post pre : List (Event P)}
    {e : Event P} (hlog : (note s l h).log = post ++ e :: pre) :
    pre = h.log ∧ eventOf s (noteWait s l h.wait) l = some e ∨ ∃ post', h.log = post' ++ e :: pre := by
  cases he : eventOf s (noteWait s l h.wait) l with
  | none => exact .inr ⟨post, by simpa [note, he] using hlog⟩
  | some d =>
    simp only [note, he, Option.toList_some, List.singleton_append] at hlog
    cases post with
    | nil =>
      obtain ⟨rfl, rfl⟩ := List.cons.inj hlog
      exact .inl ⟨rfl, rfl⟩
    | cons b post =>
      exact .inr ⟨post, (List.cons.inj hlog).2⟩

structure Logged (s : State P × History P) : Prop where
  sound : Sound s.1
  flag : ∀ i, s.1.flag i = true → Woken s.2.log i
  returned : ∀ post pre u i, s.2.log = post ++ .returned u i :: pre → Woken pre i

theorem Logged.step {s t : State P × History P} {l : P × Act P} (hs : Logged s)
    (h : recorded step note s l = some t) : Logged t := by
  obtain ⟨hstep, hnote⟩ := recorded_eq h
  refine ⟨hs.sound.step hstep, fun i hi => ?_, fun post pre u i hlog => ?_⟩
  · rw [hnote]
    exact note_woken hstep (hs.flag i) hi
  · rw [hnote] at hlog
    rcases note_split hlog with ⟨rfl, he⟩ | ⟨post', hold⟩
    · exact hs.flag i (event_returned he)
    · exact hs.returned post' pre u i hold

def start : State P × History P := (init, .empty)

omit [DecidableEq P] in
theorem logged_start : Logged (start : State P × History P) where
  sound := sound_init
  flag := by simp [start, init]
  returned := by simp [start, History.empty]

theorem reach_logged {s : State P × History P}
    (h : Reach (recorded step note) anyStep start s) : Logged s :=
  h.invariant logged_start fun _ _ _ hs _ ht => hs.step ht

theorem logged_exit {s : State P × History P} (hs : Logged s) {t : P} {i : Nat}
    (ht : (s.1.pc t).parks = some i) {l : P × Act P} {u : State P} (h : step s.1 l = some u)
    (hu : (u.pc t).parks ≠ some i) : u.pc t = .out ∧ Woken s.2.log i := by
  obtain ⟨p, a⟩ := l
  by_cases htp : t = p
  · subst t
    obtain ⟨hout, hflag, -⟩ := park_exit h ht hu
    exact ⟨hout, hs.flag i hflag⟩
  · rw [step_pc h htp] at hu
    exact absurd ht hu

/-- `Parker::park` never sleeps through a wake, and whatever step takes a thread out of it comes
after a wake on that parker; so does every return in the log. -/
theorem park_keeps_wakes {s : State P × History P}
    (h : Reach (recorded step note) anyStep start s) :
    (∀ t i, s.1.pc t = .park i → s.1.flag i = true →
      s.1.token t = true ∨ s.1.Unparking i t) ∧
    (∀ t i, (s.1.pc t).parks = some i → ∀ l u, step s.1 l = some u → (u.pc t).parks ≠ some i →
      u.pc t = .out ∧ Woken s.2.log i) ∧
    ∀ post pre t i, s.2.log = post ++ .returned t i :: pre → Woken pre i :=
  ⟨(reach_logged h).sound.awake, fun _ _ ht _ _ hu => logged_exit (reach_logged h) ht hu,
    (reach_logged h).returned⟩

/-- The thread `false` parks on the parker `1` of a `MiniLock` while the waker of its queue
parker `0` is out. The wake of `0` takes it out of the park on `1`, where it parks again; then
`1` is woken, it parks on `0`, and in the end it sleeps on `2`, whose waker is being called. -/
def threeParkers : List (Bool × Act Bool) :=
  [(false, .newParker 0), (false, .preparePark 0), (false, .waker 0),
    (false, .newParker 1), (false, .preparePark 1), (false, .waker 1),
    (false, .park 1), (false, .next),
    (true, .wake ⟨some 0, .thread false⟩), (true, .next), (true, .next),
    (false, .next), (false, .next),
    (true, .wake ⟨some 1, .thread false⟩), (true, .next), (true, .next),
    (false, .next), (false, .next), (false, .park 0), (false, .next),
    (false, .newParker 2), (false, .waker 2), (false, .park 2), (false, .next),
    (true, .wake ⟨some 2, .thread false⟩), (true, .next)]

theorem park_keeps_wakes_threeParkers : ∃ s : State Bool × History Bool,
    Reach (recorded step note) anyStep start s ∧
      (s.1.pc false = .park 2 ∧ s.1.flag 2 = true ∧ s.1.token false = false ∧
        s.2.log = [.stored 2, .returned false 0, .returned false 1, .stored 1, .stored 0,
          .prepared 1, .prepared 0]) ∧
      (∀ t i, s.1.pc t = .park i → s.1.flag i = true →
        s.1.token t = true ∨ s.1.Unparking i t) ∧
      (∀ t i, (s.1.pc t).parks = some i → ∀ l u, step s.1 l = some u →
        (u.pc t).parks ≠ some i → u.pc t = .out ∧ Woken s.2.log i) ∧
      ∀ post pre t i, s.2.log = post ++ .returned t i :: pre → Woken pre i := by
  have hrun : Reach (recorded step note) anyStep start _ :=
    run_reach (meets_any _ threeParkers) rfl
  exact ⟨_, hrun, ⟨rfl, rfl, rfl, rfl⟩, park_keeps_wakes hrun⟩

end Colock.Parking
