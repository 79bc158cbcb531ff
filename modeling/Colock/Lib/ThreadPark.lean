import Colock.Lib.Amortised

/-! Threads that sleep with `park`. In a system whose parties wait on flags a party may look at
its flag again and again; a thread sleeps in between. It has one token for all the flags it ever
waits on: `unpark` sets the token, and `park` takes it. Whoever raises a flag calls `unpark` after
it, so what comes to an end with parties that keep looking does so with threads that sleep. -/
namespace ThreadPark
open Transition
variable {P σ ι : Type*}

/-- A party with `waits s p = some b` looks at its flag next, which is `b`. A step with
`rings s l = some q` raises the flag of `q`, and its party goes on to `unpark` the thread of `q`. -/
structure Flags (go : σ → P × ι → Option σ) where
  Good : σ → Prop
  waits : σ → P → Option Bool
  rings : σ → P × ι → Option P
  keeps : ∀ {s l t}, Good s → go s l = some t → Good t
  down : ∀ {s p i t}, Good s → waits s p = some false → go s (p, i) = some t → t = s
  others : ∀ {s p q i t}, Good s → go s (p, i) = some t → q ≠ p →
    waits t q = waits s q ∨
      rings s (p, i) = some q ∧ waits s q = some false ∧ waits t q = some true
  moves : ∀ {s l t}, Good s → go s l = some t → rings s l ≠ none → t ≠ s

def Flags.relabel {κ : Type*} {go : σ → P × ι → Option σ} (F : Flags go) (f : κ → ι) :
    Flags fun s (p, k) => go s (p, f k) where
  Good := F.Good
  waits := F.waits
  rings := fun s (p, k) => F.rings s (p, f k)
  keeps := F.keeps
  down := F.down
  others := F.others
  moves := F.moves

inductive Mode (P : Type*)
  | awake
  | asleep
  | unparks (q : P)
  deriving DecidableEq

/-- `stray` is how often `park` may still return for no reason, or other code call `unpark`. -/
structure State (P σ : Type*) where
  base : σ
  token : P → Bool
  mode : P → Mode P
  stray : Nat

def start (s : σ) (token : P → Bool) (stray : Nat) : State P σ := ⟨s, token, fun _ => .awake, stray⟩

inductive Act (ι : Type*)
  | act (i : ι)
  | thread
  | stray

def after : Option P → Mode P
  | none => .awake
  | some q => .unparks q

variable [DecidableEq P]

def State.goto (x : State P σ) (p : P) (m : Mode P) : State P σ :=
  { x with mode := Function.update x.mode p m }

def State.setToken (x : State P σ) (p : P) (b : Bool) : State P σ :=
  { x with token := Function.update x.token p b }

@[simp] theorem goto_fields (x : State P σ) (p : P) (m : Mode P) :
    (x.goto p m).base = x.base ∧ (x.goto p m).token = x.token ∧
      (x.goto p m).mode = Function.update x.mode p m ∧ (x.goto p m).stray = x.stray :=
  ⟨rfl, rfl, rfl, rfl⟩

@[simp] theorem setToken_fields (x : State P σ) (p : P) (b : Bool) :
    (x.setToken p b).base = x.base ∧ (x.setToken p b).token = Function.update x.token p b ∧
      (x.setToken p b).mode = x.mode ∧ (x.setToken p b).stray = x.stray :=
  ⟨rfl, rfl, rfl, rfl⟩

variable {go : σ → P × ι → Option σ}

/-- A thread that finds its flag down goes to sleep, and looks again when it has taken its token. -/
def Flags.step (F : Flags go) (x : State P σ) : P × Act ι → Option (State P σ)
  | (p, .act i) =>
    if x.mode p = .awake ∧ F.waits x.base p ≠ some false then
      (go x.base (p, i)).map fun s =>
        { x with base := s }.goto p (after (F.rings x.base (p, i))) else none
  | (p, .thread) =>
    match x.mode p with
    | .awake => if F.waits x.base p = some false then some (x.goto p .asleep) else none
    | .asleep => if x.token p then some ((x.setToken p false).goto p .awake) else none
    | .unparks q => some ((x.setToken q true).goto p .awake)
  | (p, .stray) =>
    match x.stray with
    | 0 => none
    | n + 1 => some ({ x with stray := n }.setToken p true)

inductive StepOf (F : Flags go) (x : State P σ) (p : P) : Act ι → State P σ → Prop
  | act (i : ι) (s : σ) (hmode : x.mode p = .awake) (hs : go x.base (p, i) = some s) :
      StepOf F x p (.act i) ({ x with base := s }.goto p (after (F.rings x.base (p, i))))
  | sleeps (hmode : x.mode p = .awake) (hflag : F.waits x.base p = some false) :
      StepOf F x p .thread (x.goto p .asleep)
  | wakes (hmode : x.mode p = .asleep) (htoken : x.token p = true) :
      StepOf F x p .thread ((x.setToken p false).goto p .awake)
  | unparks (q : P) (hmode : x.mode p = .unparks q) :
      StepOf F x p .thread ((x.setToken q true).goto p .awake)
  | stray (n : Nat) (hn : x.stray = n + 1) :
      StepOf F x p .stray ({ x with stray := n }.setToken p true)

variable {F : Flags go}

theorem step_cases {x y : State P σ} {p : P} {a : Act ι} (h : F.step x (p, a) = some y) :
    StepOf F x p a y := by
  cases a with
  | act i =>
    simp only [Flags.step, Option.ite_none_right_eq_some, Option.map_eq_some_iff] at h
    obtain ⟨⟨hmode, -⟩, s, hs, rfl⟩ := h
    exact .act i s hmode hs
  | thread =>
    simp only [Flags.step] at h
    split at h
    · next hmode =>
      simp only [Option.ite_none_right_eq_some, Option.some.injEq] at h
      exact h.2 ▸ .sleeps hmode h.1
    · next hmode =>
      simp only [Option.ite_none_right_eq_some, Option.some.injEq] at h
      exact h.2 ▸ .wakes hmode h.1
    · next q hmode => exact Option.some.inj h ▸ .unparks q hmode
  | stray =>
    simp only [Flags.step] at h
    split at h
    · cases h
    · next n hn => exact Option.some.inj h ▸ .stray n hn

/-- A thread sleeps while its flag is down. When the flag is up its token is set, or about to be. -/
structure Notified (F : Flags go) (x : State P σ) : Prop where
  good : F.Good x.base
  asleep : ∀ p, x.mode p = .asleep → F.waits x.base p = some false ∨
    F.waits x.base p = some true ∧ (x.token p = true ∨ ∃ q, x.mode q = .unparks p)

omit [DecidableEq P] in
theorem notified_start {s : σ} (hs : F.Good s) (token : P → Bool) (stray : Nat) :
    Notified F (start s token stray) :=
  ⟨hs, fun p hp => by cases hp⟩

omit [DecidableEq P] in
theorem Notified.move {x y : State P σ} {p : P} (hx : Notified F x) (hgood : F.Good y.base)
    (hmode : ∀ u, u ≠ p → y.mode u = x.mode u)
    (hself : y.mode p = .asleep → F.waits y.base p = some false)
    (hwaits : ∀ u, u ≠ p → F.waits y.base u = F.waits x.base u ∨
      F.waits y.base u = some true ∧ y.mode p = .unparks u)
    (htoken : ∀ u, u ≠ p → x.token u = true → y.token u = true)
    (hcalls : ∀ u, u ≠ p → x.mode p = .unparks u → y.token u = true) : Notified F y where
  good := hgood
  asleep u hu := by
    by_cases hup : u = p
    · subst u
      exact .inl (hself hu)
    · rw [hmode u hup] at hu
      rcases hwaits u hup with hsame | ⟨hflag, hunparks⟩
      · rw [hsame]
        refine (hx.asleep u hu).imp_right fun ⟨hflag, hwill⟩ => ⟨hflag, ?_⟩
        rcases hwill with ht | ⟨q, hq⟩
        · exact .inl (htoken u hup ht)
        · by_cases hqp : q = p
          · exact .inl (hcalls u hup (hqp ▸ hq))
          · exact .inr ⟨q, (hmode q hqp).trans hq⟩
      · exact .inr ⟨hflag, .inr ⟨p, hunparks⟩⟩

theorem Notified.step {x y : State P σ} {l : P × Act ι} (hx : Notified F x)
    (h : F.step x l = some y) : Notified F y := by
  obtain ⟨p, a⟩ := l
  cases step_cases h with
  | act i s hmode hs =>
    refine hx.move (p := p) (F.keeps hx.good hs) (fun u hu => by simp [hu]) ?_ (fun u hu => ?_)
      (fun u _ ht => ht) (by simp [hmode])
    · cases F.rings x.base (p, i) <;> simp [after]
    · refine (F.others hx.good hs hu).imp_right ?_
      rintro ⟨hrings, -, hup⟩
      exact ⟨hup, by simp [hrings, after]⟩
  | sleeps hmode hflag =>
    exact hx.move (p := p) hx.good (fun u hu => by simp [hu]) (fun _ => hflag) (fun u _ => .inl rfl)
      (fun u _ ht => ht) (by simp [hmode])
  | wakes hmode htoken =>
    exact hx.move (p := p) hx.good (fun u hu => by simp [hu]) (by simp) (fun u _ => .inl rfl)
      (fun u hu ht => by simpa [hu] using ht) (by simp [hmode])
  | unparks v hmode =>
    refine hx.move (p := p) hx.good (fun u hu => by simp [hu]) (by simp) (fun u _ => .inl rfl)
      (fun u _ ht => ?_) fun u _ hu => ?_
    · by_cases huv : u = v <;> simp [huv, ht]
    · obtain rfl : v = u := by simpa [hmode] using hu
      simp
  | stray n hn =>
    refine ⟨hx.good, fun u hu => (hx.asleep u hu).imp_right fun ⟨hflag, hwill⟩ =>
      ⟨hflag, hwill.imp_left fun htoken => ?_⟩⟩
    by_cases hup : u = p <;> simp [hup, htoken]

theorem reach_base {s : σ} {token : P → Bool} {stray : Nat} {x : State P σ}
    (h : Reach F.step anyStep (start s token stray) x) : Reach go anyStep s x.base := by
  refine h.simulate (I := fun _ => True) State.base trivial (fun _ _ _ _ _ _ => trivial) ?_
  rintro x ⟨p, a⟩ y - - h
  cases step_cases h with
  | act i s hmode hs => exact Reach.single trivial hs
  | _ => exact .refl

/-- When no thread can go on, none could that keeps looking, and those that sleep have their flags
down. -/
theorem Notified.stuck {x : State P σ} (hx : Notified F x) (hstuck : Stuck F.step x) :
    Stuck go x.base ∧
      ∀ p, x.mode p = .awake ∨ x.mode p = .asleep ∧ F.waits x.base p = some false := by
  have hunparks : ∀ p q, x.mode p ≠ .unparks q := by
    intro p q hmode
    have hsame := hstuck (p, .thread) _ (by simp only [Flags.step, hmode]; rfl)
    have hawake := congrFun (congrArg State.mode hsame) p
    simp [hmode] at hawake
  have hrest : ∀ p, x.mode p = .awake ∨ x.mode p = .asleep ∧ F.waits x.base p = some false := by
    intro p
    cases hmode : x.mode p with
    | awake => exact .inl rfl
    | unparks q => exact absurd hmode (hunparks p q)
    | asleep =>
      refine .inr ⟨rfl, (hx.asleep p hmode).resolve_right ?_⟩
      rintro ⟨-, htoken | ⟨q, hq⟩⟩
      · have hsame := hstuck (p, .thread) _ (by simp only [Flags.step, hmode, htoken, if_true]; rfl)
        have hawake := congrFun (congrArg State.mode hsame) p
        simp [hmode] at hawake
      · exact hunparks q p hq
  refine ⟨?_, hrest⟩
  rintro ⟨p, i⟩ t ht
  rcases hrest p with hmode | ⟨-, hflag⟩
  · by_cases hflag : F.waits x.base p = some false
    · exact F.down hx.good hflag ht
    · have hsame := hstuck (p, .act i) _ (by
        simp only [Flags.step, hmode, ht, Option.map_some, ne_eq, hflag, not_false_eq_true,
          and_self, if_true]
        rfl)
      exact congrArg State.base hsame
  · exact F.down hx.good hflag ht

/-! ### Sleeping costs little -/

section ends
variable [Fintype P]

def Mode.cost : Mode P → Nat
  | .awake => 1
  | .asleep => 0
  | .unparks _ => 4

def State.slack (x : State P σ) : Nat :=
  3 * x.stray + ∑ p, (x.mode p).cost + ∑ p, if x.token p then 2 else 0

theorem cost_goto (x : State P σ) (p : P) (m : Mode P) :
    ∑ q, ((x.goto p m).mode q).cost + (x.mode p).cost = ∑ q, (x.mode q).cost + m.cost := by
  have hsum := sum_update (f := fun q => (x.mode q).cost) (g := fun q => ((x.goto p m).mode q).cost)
    (p := p) fun q hq => by simp [hq]
  simpa using hsum

theorem token_set (x : State P σ) (p : P) (b : Bool) :
    (∑ q, if (x.setToken p b).token q then 2 else 0) + (if x.token p then 2 else 0) =
      (∑ q, if x.token q then 2 else 0) + if b then 2 else 0 := by
  have hsum := sum_update (f := fun q => if x.token q then 2 else 0)
    (g := fun q => if (x.setToken p b).token q then 2 else 0) (p := p) fun q hq => by simp [hq]
  simpa using hsum

omit [DecidableEq P] in
theorem slack_start (s : σ) (token : P → Bool) (stray : Nat) :
    (start s token stray).slack ≤ 3 * stray + 3 * Fintype.card P := by
  have hmode : ∑ p, ((start s token stray).mode p).cost = Fintype.card P := by
    simp [start, Mode.cost]
  have htoken : (∑ p, if (start s token stray).token p then 2 else 0) ≤ Fintype.card P * 2 :=
    Finset.sum_le_card_nsmul _ _ _ fun p _ => by split <;> omega
  simp only [State.slack, hmode]
  simp only [start] at htoken ⊢
  omega

/-- A step is one of the system and brings little, or it is paid for by what earlier ones brought. -/
theorem Notified.pays {x y : State P σ} {l : P × Act ι} (hx : Notified F x)
    (h : F.step x l = some y) (hne : y ≠ x) :
    (y.base = x.base ∧ y.slack < x.slack) ∨
      y.base ≠ x.base ∧ y.slack < x.slack + 4 ∧ ∃ k, go x.base k = some y.base := by
  obtain ⟨p, a⟩ := l
  cases step_cases h with
  | act i s hmode hs =>
    have hmoves : s ≠ x.base := by
      rintro rfl
      by_cases hrings : F.rings x.base (p, i) = none
      · refine hne ?_
        simp only [hrings, after, State.goto]
        rw [← hmode, Function.update_eq_self]
      · exact F.moves hx.good hs hrings rfl
    refine .inr ⟨hmoves, ?_, _, hs⟩
    have hcost := cost_goto { x with base := s } p (after (F.rings x.base (p, i)))
    have hbefore : (x.mode p).cost = 1 := by rw [hmode]; rfl
    have hafter : (after (F.rings x.base (p, i))).cost ≤ 4 := by
      cases F.rings x.base (p, i) <;> simp [after, Mode.cost]
    simp only [State.slack, goto_fields] at hcost ⊢
    omega
  | sleeps hmode hflag =>
    refine .inl ⟨rfl, ?_⟩
    have hcost := cost_goto x p .asleep
    have hbefore : (x.mode p).cost = 1 := by rw [hmode]; rfl
    have hafter : (Mode.asleep : Mode P).cost = 0 := rfl
    simp only [State.slack, goto_fields] at hcost ⊢
    omega
  | wakes hmode htoken =>
    refine .inl ⟨rfl, ?_⟩
    have hcost := cost_goto (x.setToken p false) p .awake
    have hset := token_set x p false
    have hbefore : (x.mode p).cost = 0 := by rw [hmode]; rfl
    have hafter : (Mode.awake : Mode P).cost = 1 := rfl
    simp only [htoken, if_true, Bool.false_eq_true, if_false] at hset
    simp only [State.slack, goto_fields, setToken_fields] at hcost hset ⊢
    omega
  | unparks q hmode =>
    refine .inl ⟨rfl, ?_⟩
    have hcost := cost_goto (x.setToken q true) p .awake
    have hset := token_set x q true
    have hbefore : (x.mode p).cost = 4 := by rw [hmode]; rfl
    have hafter : (Mode.awake : Mode P).cost = 1 := rfl
    simp only [if_true] at hset
    simp only [State.slack, goto_fields, setToken_fields] at hcost hset ⊢
    omega
  | stray n hn =>
    refine .inl ⟨rfl, ?_⟩
    have hset := token_set x p true
    simp only [if_true] at hset
    simp only [State.slack, setToken_fields, hn] at hset ⊢
    omega

theorem Notified.run_pays {x y : State P σ} {ls : List (P × Act ι)} (hx : Notified F x)
    (hm : Meets F.step (Changes F.step) x ls) (hr : run F.step x ls = some y) :
    ∃ ks, Meets go (Changes go) x.base ks ∧ run go x.base ks = some y.base ∧
      ls.length + y.slack ≤ 4 * ks.length + x.slack := by
  induction ls generalizing x with
  | nil =>
    obtain rfl := Option.some.inj hr
    exact ⟨[], trivial, rfl, by simp⟩
  | cons l ls ih =>
    obtain ⟨u, hu, hr⟩ := Option.bind_eq_some_iff.mp hr
    have hne : u ≠ x := by
      rintro rfl
      exact hm.1 hu
    obtain ⟨ks, hks, hrun, hle⟩ := ih (hx.step hu) (hm.2 u hu) hr
    rw [List.length_cons]
    rcases hx.pays hu hne with ⟨hbase, hlower⟩ | ⟨hmoves, hbring, k, hk⟩
    · rw [hbase] at hks hrun
      exact ⟨ks, hks, hrun, by omega⟩
    · refine ⟨k :: ks, ⟨?_, ?_⟩, by simp [run, hk, hrun], by rw [List.length_cons]; omega⟩
      · intro hsame
        exact hmoves (Option.some.inj (hk.symm.trans hsame))
      · intro v hv
        obtain rfl := Option.some.inj (hk.symm.trans hv)
        exact hks

/-- What ends with parties that keep looking ends with threads that sleep, whatever tokens they
have at the start, and no thread sleeps on then whose flag is up. -/
theorem ends_asleep {s : σ} {n : Nat} {final : σ → Prop} (hends : Ends go s n final)
    (hgood : F.Good s) :
    ∃ m, ∀ token stray, Ends F.step (start s token stray) (m + 3 * stray) fun x =>
      final x.base ∧
        ∀ p, x.mode p = .awake ∨ x.mode p = .asleep ∧ F.waits x.base p = some false := by
  refine ⟨4 * n + 3 * Fintype.card P, fun token stray => ⟨fun ls x hm hr => ?_, ?_⟩⟩
  · obtain ⟨ks, hks, hrun, hle⟩ := (notified_start hgood token stray).run_pays hm hr
    have hbound := hends.bound ks _ hks hrun
    have hslack := slack_start s token stray
    omega
  · intro x hr hstuck
    have hx : Notified F x :=
      hr.invariant (notified_start hgood token stray) fun _ _ _ hx _ hs => hx.step hs
    obtain ⟨hbase, hrest⟩ := hx.stuck hstuck
    exact ⟨hends.final _ (reach_base hr) hbase, hrest⟩

theorem ends_awake {s : σ} {n : Nat} {final : σ → Prop} (hends : Ends go s n final)
    (hgood : F.Good s) (hup : ∀ t, final t → ∀ p, F.waits t p = none) :
    ∃ m, ∀ token stray, Ends F.step (start s token stray) (m + 3 * stray) fun x =>
      final x.base ∧ ∀ p, x.mode p = .awake := by
  obtain ⟨m, hasleep⟩ := ends_asleep hends hgood
  refine ⟨m, fun token stray => ⟨(hasleep token stray).bound, fun x hr hstuck => ?_⟩⟩
  obtain ⟨hfinal, hrest⟩ := (hasleep token stray).final x hr hstuck
  refine ⟨hfinal, fun p => (hrest p).resolve_right ?_⟩
  rintro ⟨-, hflag⟩
  simp [hup _ hfinal p] at hflag

end ends

end ThreadPark
