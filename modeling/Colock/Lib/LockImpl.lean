import Colock.Lib.Amortised

/-! A lock as its users see it, and a lock as it is built. A client is a system with a variable
that tells who has the lock; it takes and gives the lock in one step. An implementation needs many
steps for each. Put together, with the steps of the client that take or give the lock replaced by
calls, they do nothing that the client alone does not do, and they go on and end as it does. -/
namespace LockImpl
open Transition

/-- How far a party is with its call. In `taking` it has got the lock and `lock` has not yet
returned, and in `leaving` it has given it up and `unlock` has not yet returned. -/
inductive Phase
  | idle | trying | taking | working | giving | leaving
  deriving DecidableEq

def Phase.owns : Phase → Bool
  | .taking | .working | .giving => true
  | _ => false

def Phase.has : Phase → Bool
  | .working | .giving => true
  | _ => false

inductive Cmd (κ : Type*)
  | call
  | release
  | inner (k : κ)
  deriving DecidableEq

inductive Phase.Moves {κ : Type*} : Cmd κ → Phase → Phase → Prop
  | call : Moves .call .idle .trying
  | release : Moves .release .working .giving
  | stay (k : κ) (a : Phase) : Moves (.inner k) a a
  | take (k : κ) : Moves (.inner k) .trying .taking
  | enter (k : κ) (a : Phase) (h : a = .trying ∨ a = .taking) : Moves (.inner k) a .working
  | give (k : κ) (b : Phase) (h : b = .leaving ∨ b = .idle) : Moves (.inner k) .giving b
  | leave (k : κ) : Moves (.inner k) .leaving .idle

/-- An implementation, with an invariant under which one party at most owns the lock. -/
structure Impl (P τ κ : Type*) where
  step : τ → P × Cmd κ → Option τ
  start : τ
  phase : τ → P → Phase
  Good : τ → Prop
  good_start : Good start
  idle_start : ∀ p, phase start p = .idle
  good_step : ∀ {m l m'}, Good m → step m l = some m' → Good m'
  moves : ∀ {m p c m'}, Good m → step m (p, c) = some m' → Phase.Moves c (phase m p) (phase m' p)
  others : ∀ {m p c m' q}, Good m → step m (p, c) = some m' → q ≠ p → phase m' q = phase m q
  alone : ∀ {m p q}, Good m → (phase m p).owns = true → (phase m q).owns = true → p = q

inductive Wish
  | nothing | acquire | release
  deriving DecidableEq

/-- A client; its steps on the lock bear the label `sync`. -/
structure Client (P σ ι : Type*) where
  step : σ → P × ι → Option σ
  lock : σ → Option P
  wish : σ → P → Wish
  sync : ι
  nothing : ∀ {s p i t}, wish s p = .nothing → step s (p, i) = some t → lock t = lock s
  acquire : ∀ {s p}, wish s p = .acquire → lock s = none →
    ∃ t, step s (p, sync) = some t ∧ lock t = some p
  release : ∀ {s p}, wish s p = .release → lock s = some p →
    ∃ t, step s (p, sync) = some t ∧ lock t = none
  others : ∀ {s p q i t}, step s (q, i) = some t → p ≠ q → wish t p = wish s p

inductive Label (ι κ : Type*)
  | client (i : ι)
  | lock (c : Cmd κ)
  deriving DecidableEq

variable {P σ ι τ κ : Type*}

/-- The client over the implementation. Its own steps are those that leave the lock alone; it
takes the lock when `lock` returns, and gives it up when `unlock` lets the next party in. -/
def Client.over (C : Client P σ ι) (L : Impl P τ κ) (x : σ × τ) : P × Label ι κ → Option (σ × τ)
  | (p, .client i) =>
    if C.wish x.1 p = .nothing ∧ (L.phase x.2 p = .idle ∨ L.phase x.2 p = .working) then
      (C.step x.1 (p, i)).map fun s => (s, x.2) else none
  | (p, .lock .call) =>
    if C.wish x.1 p = .acquire then (L.step x.2 (p, .call)).map fun m => (x.1, m) else none
  | (p, .lock .release) =>
    if C.wish x.1 p = .release then (L.step x.2 (p, .release)).map fun m => (x.1, m) else none
  | (p, .lock (.inner k)) =>
    (L.step x.2 (p, .inner k)).bind fun m =>
      if (L.phase x.2 p).has = (L.phase m p).has then some (x.1, m)
      else (C.step x.1 (p, C.sync)).map fun s => (s, m)

section simulation
variable {C : Client P σ ι} {L : Impl P τ κ}

structure Agrees (C : Client P σ ι) (L : Impl P τ κ) (x : σ × τ) : Prop where
  good : L.Good x.2
  lock : ∀ p, C.lock x.1 = some p ↔ (L.phase x.2 p).has = true
  asks : ∀ p, L.phase x.2 p = .trying ∨ L.phase x.2 p = .taking → C.wish x.1 p = .acquire
  gives : ∀ p, L.phase x.2 p = .giving → C.wish x.1 p = .release

theorem agrees_start {s : σ} (h : C.lock s = none) : Agrees C L (s, L.start) where
  good := L.good_start
  lock p := by simp [h, L.idle_start, Phase.has]
  asks p := by simp [L.idle_start]
  gives p := by simp [L.idle_start]

inductive Does (C : Client P σ ι) (L : Impl P τ κ) (x y : σ × τ) (p : P) : Label ι κ → Prop
  | client (i : ι) (hw : C.wish x.1 p = .nothing)
      (hphase : L.phase x.2 p = .idle ∨ L.phase x.2 p = .working)
      (hs : C.step x.1 (p, i) = some y.1) (hm : y.2 = x.2) : Does C L x y p (.client i)
  | call (hw : C.wish x.1 p = .acquire) (hm : L.step x.2 (p, .call) = some y.2) (hs : y.1 = x.1) :
      Does C L x y p (.lock .call)
  | release (hw : C.wish x.1 p = .release) (hm : L.step x.2 (p, .release) = some y.2)
      (hs : y.1 = x.1) : Does C L x y p (.lock .release)
  | inner (k : κ) (hm : L.step x.2 (p, .inner k) = some y.2) (hs : y.1 = x.1)
      (hhas : (L.phase x.2 p).has = (L.phase y.2 p).has) : Does C L x y p (.lock (.inner k))
  | sync (k : κ) (hm : L.step x.2 (p, .inner k) = some y.2)
      (hs : C.step x.1 (p, C.sync) = some y.1)
      (hhas : (L.phase x.2 p).has ≠ (L.phase y.2 p).has) : Does C L x y p (.lock (.inner k))

theorem over_cases {x y : σ × τ} {p : P} {l : Label ι κ} (h : C.over L x (p, l) = some y) :
    Does C L x y p l := by
  cases l with
  | client i =>
    simp only [Client.over, Option.ite_none_right_eq_some, Option.map_eq_some_iff] at h
    obtain ⟨⟨hw, hphase⟩, s, hs, rfl⟩ := h
    exact .client i hw hphase hs rfl
  | lock c =>
    cases c with
    | call =>
      simp only [Client.over, Option.ite_none_right_eq_some, Option.map_eq_some_iff] at h
      obtain ⟨hw, m, hm, rfl⟩ := h
      exact .call hw hm rfl
    | release =>
      simp only [Client.over, Option.ite_none_right_eq_some, Option.map_eq_some_iff] at h
      obtain ⟨hw, m, hm, rfl⟩ := h
      exact .release hw hm rfl
    | inner k =>
      obtain ⟨m, hm, h⟩ := Option.bind_eq_some_iff.mp h
      split at h
      · next hhas =>
        obtain rfl := Option.some.inj h
        exact .inner k hm rfl hhas
      · next hhas =>
        obtain ⟨s, hs, rfl⟩ := Option.map_eq_some_iff.mp h
        exact .sync k hm hs hhas

theorem has_owns {a : Phase} (h : a.has = true) : a.owns = true := by
  cases a <;> simp_all [Phase.has, Phase.owns]

theorem Phase.Moves.has_changes {k : κ} {a b : Phase} (h : Phase.Moves (.inner k) a b)
    (hhas : a.has ≠ b.has) :
    (a = .trying ∨ a = .taking) ∧ b = .working ∨ a = .giving ∧ (b = .leaving ∨ b = .idle) := by
  cases h with
  | enter k a ha => exact .inl ⟨ha, rfl⟩
  | give k b hb => exact .inr ⟨rfl, hb⟩
  | stay | take | leave => simp [Phase.has] at hhas

theorem Phase.Moves.asked {k : κ} {a b : Phase} (h : Phase.Moves (.inner k) a b)
    (hb : b = .trying ∨ b = .taking) : a = .trying ∨ a = .taking := by
  cases h with
  | stay => exact hb
  | take => exact .inl rfl
  | enter | leave => simp at hb
  | give k b h => rcases h with rfl | rfl <;> simp at hb

theorem Phase.Moves.given {k : κ} {a b : Phase} (h : Phase.Moves (.inner k) a b)
    (hb : b = .giving) : a = .giving := by
  cases h with
  | stay => exact hb
  | give => rfl
  | take | enter | leave => simp at hb

theorem Agrees.free {x : σ × τ} {p : P} {c : Cmd κ} {m : τ} (h : Agrees C L x)
    (hm : L.step x.2 (p, c) = some m) (hbefore : (L.phase x.2 p).has = false)
    (hafter : L.phase m p = .working) : C.lock x.1 = none := by
  by_contra hne
  obtain ⟨q, hq⟩ := Option.ne_none_iff_exists'.mp hne
  have hhas := (h.lock q).mp hq
  have hqp : q ≠ p := by
    rintro rfl
    simp [hbefore] at hhas
  have hsame := L.others h.good hm hqp
  have hboth := L.alone (L.good_step h.good hm) (p := q) (q := p)
    (by rw [hsame]; exact has_owns hhas) (by rw [hafter]; rfl)
  exact hqp hboth

theorem Agrees.keep {x y : σ × τ} {p : P} (h : Agrees C L x) (hgood : L.Good y.2)
    (hphase : ∀ q, q ≠ p → L.phase y.2 q = L.phase x.2 q)
    (hwish : ∀ q, q ≠ p → C.wish y.1 q = C.wish x.1 q)
    (hlock : ∀ q, q ≠ p → (C.lock y.1 = some q ↔ C.lock x.1 = some q))
    (hown : C.lock y.1 = some p ↔ (L.phase y.2 p).has = true)
    (hasks : L.phase y.2 p = .trying ∨ L.phase y.2 p = .taking → C.wish y.1 p = .acquire)
    (hgives : L.phase y.2 p = .giving → C.wish y.1 p = .release) : Agrees C L y where
  good := hgood
  lock q := by
    by_cases hq : q = p
    · exact hq ▸ hown
    · rw [hlock q hq, hphase q hq]
      exact h.lock q
  asks q := by
    by_cases hq : q = p
    · exact hq ▸ hasks
    · rw [hphase q hq, hwish q hq]
      exact h.asks q
  gives q := by
    by_cases hq : q = p
    · exact hq ▸ hgives
    · rw [hphase q hq, hwish q hq]
      exact h.gives q

theorem Agrees.step {x y : σ × τ} {p : P} {l : Label ι κ} (h : Agrees C L x)
    (hover : C.over L x (p, l) = some y) : Agrees C L y := by
  cases over_cases hover with
  | client i hw hphase hs hm =>
    have hlock := C.nothing hw hs
    refine h.keep (p := p) (hm ▸ h.good) (fun q _ => by rw [hm])
      (fun q hq => C.others hs hq) (fun q _ => by rw [hlock]) ?_ ?_ ?_
    · rw [hlock, hm]
      exact h.lock p
    · rw [hm]
      rintro (ht | ht) <;> rcases hphase with hp | hp <;> simp [hp] at ht
    · rw [hm]
      intro ht
      rcases hphase with hp | hp <;> simp [hp] at ht
  | call hw hm hs =>
    have hmoves := L.moves h.good hm
    generalize ha : L.phase x.2 p = a at hmoves
    generalize hb : L.phase y.2 p = b at hmoves
    cases hmoves
    refine h.keep (p := p) (L.good_step h.good hm) (fun q hq => L.others h.good hm hq)
      (fun q _ => by rw [hs]) (fun q _ => by rw [hs]) ?_ (fun _ => by rw [hs, hw]) (by simp [hb])
    rw [hs, h.lock p, ha, hb]
    rfl
  | release hw hm hs =>
    have hmoves := L.moves h.good hm
    generalize ha : L.phase x.2 p = a at hmoves
    generalize hb : L.phase y.2 p = b at hmoves
    cases hmoves
    refine h.keep (p := p) (L.good_step h.good hm) (fun q hq => L.others h.good hm hq)
      (fun q _ => by rw [hs]) (fun q _ => by rw [hs]) ?_ (by simp [hb]) (fun _ => by rw [hs, hw])
    rw [hs, h.lock p, ha, hb]
    rfl
  | inner k hm hs hhas =>
    have hmoves := L.moves h.good hm
    refine h.keep (p := p) (L.good_step h.good hm) (fun q hq => L.others h.good hm hq)
      (fun q _ => by rw [hs]) (fun q _ => by rw [hs]) (by rw [hs, h.lock p, hhas]) ?_ ?_
    · intro ht
      rw [hs]
      exact h.asks p (hmoves.asked ht)
    · intro ht
      rw [hs]
      exact h.gives p (hmoves.given ht)
  | sync k hm hs hhas =>
    rcases (L.moves h.good hm).has_changes hhas with ⟨hbefore, hafter⟩ | ⟨hbefore, hafter⟩
    · have hfree := h.free hm (by rcases hbefore with hp | hp <;> simp [hp, Phase.has]) hafter
      obtain ⟨t, ht, hlock⟩ := C.acquire (h.asks p hbefore) hfree
      obtain rfl : y.1 = t := Option.some.inj (hs.symm.trans ht)
      refine h.keep (p := p) (L.good_step h.good hm) (fun q hq => L.others h.good hm hq)
        (fun q hq => C.others hs hq) (fun q hq => by simp [hlock, hfree, Ne.symm hq])
        (by simp [hlock, hafter, Phase.has]) (by simp [hafter]) (by simp [hafter])
    · have hhad : C.lock x.1 = some p := (h.lock p).mpr (by simp [hbefore, Phase.has])
      obtain ⟨t, ht, hlock⟩ := C.release (h.gives p hbefore) hhad
      obtain rfl : y.1 = t := Option.some.inj (hs.symm.trans ht)
      refine h.keep (p := p) (L.good_step h.good hm) (fun q hq => L.others h.good hm hq)
        (fun q hq => C.others hs hq) (fun q hq => by simp [hlock, hhad, Ne.symm hq]) ?_ ?_ ?_
      · rcases hafter with hp | hp <;> simp [hlock, hp, Phase.has]
      · rcases hafter with hp | hp <;> simp [hp]
      · rcases hafter with hp | hp <;> simp [hp]

theorem Agrees.unblocked {x : σ × τ} {p : P} {k : κ} {m : τ} (h : Agrees C L x)
    (hm : L.step x.2 (p, .inner k) = some m) :
    ∃ s, C.over L x (p, .lock (.inner k)) = some (s, m) := by
  by_cases hhas : (L.phase x.2 p).has = (L.phase m p).has
  · exact ⟨x.1, by simp [Client.over, hm, hhas]⟩
  · have hsync : ∃ s, C.step x.1 (p, C.sync) = some s := by
      rcases (L.moves h.good hm).has_changes hhas with ⟨hbefore, hafter⟩ | ⟨hbefore, -⟩
      · have hfree := h.free hm (by rcases hbefore with hp | hp <;> simp [hp, Phase.has]) hafter
        exact (C.acquire (h.asks p hbefore) hfree).imp fun _ ht => ht.1
      · have hhad : C.lock x.1 = some p := (h.lock p).mpr (by simp [hbefore, Phase.has])
        exact (C.release (h.gives p hbefore) hhad).imp fun _ ht => ht.1
    obtain ⟨s, hs⟩ := hsync
    exact ⟨s, by simp [Client.over, hm, hhas, hs]⟩

/-- The step of the client that the composed system takes if the client takes any. -/
def Client.does (C : Client P σ ι) : Label ι κ → ι
  | .client i => i
  | .lock _ => C.sync

/-- The restriction that a step of the composed system puts on the client. -/
def lift (C : Client P σ ι) (ok : σ → P × ι → Prop) (x : σ × τ) (l : P × Label ι κ) : Prop :=
  ok x.1 (l.1, C.does l.2)

/-- The client over the implementation does what the client alone may do, its own steps in the
same order. -/
theorem over_simulates {ok : σ → P × ι → Prop} {s : σ} (hfree : C.lock s = none) {x : σ × τ}
    (h : Reach (C.over L) (lift C ok) (s, L.start) x) :
    Agrees C L x ∧ Reach C.step ok s x.1 := by
  have hagrees : ∀ {x : σ × τ}, Reach (C.over L) (lift C ok) (s, L.start) x → Agrees C L x :=
    fun h => h.invariant (agrees_start hfree) fun _ _ _ hx _ hs => hx.step hs
  refine ⟨hagrees h, h.simulate (I := fun _ => True) (f := Prod.fst) trivial
    (fun _ _ _ _ _ _ => trivial) fun x l y _ hok hover => ?_⟩
  obtain ⟨p, l⟩ := l
  cases over_cases hover with
  | client i hw hphase hs hm => exact Reach.single hok hs
  | call hw hm hs | release hw hm hs | inner k hm hs =>
    rw [hs]
    exact .refl
  | sync k hm hs => exact Reach.single hok hs

/-- A client in step with a system that it refines: over the implementation it does what that
system does. -/
theorem over_related {τ' : Type*} {step' : τ' → P × ι → Option τ'} {R : σ → τ' → Prop}
    (hstep : ∀ s t l, R s t → Option.Rel R (C.step s l) (step' t l)) {s : σ} {t : τ'} (hst : R s t)
    (hfree : C.lock s = none) {x : σ × τ} (h : Reach (C.over L) anyStep (s, L.start) x) :
    ∃ u, Reach step' anyStep t u ∧ R x.1 u ∧
      ∀ p, C.lock x.1 = some p ↔ (L.phase x.2 p).has = true := by
  have hover : Agrees C L x ∧ Reach C.step anyStep s x.1 :=
    over_simulates hfree (h.mono fun _ _ _ => trivial)
  obtain ⟨u, hu, hrel⟩ := hover.2.related hstep hst
  exact ⟨u, hu, hrel, hover.1.lock⟩

/-- No call is refused, and when all that is left inside the implementation is waiting, either
nobody is in a call or somebody has the lock and may release it. -/
structure Impl.Live (L : Impl P τ κ) : Prop where
  calls : ∀ {m p}, L.Good m → L.phase m p = .idle → ∃ m', L.step m (p, .call) = some m'
  releases : ∀ {m p}, L.Good m → L.phase m p = .working → ∃ m', L.step m (p, .release) = some m'
  awake : ∀ {m}, L.Good m → (∀ p k m', L.step m (p, .inner k) = some m' → m' = m) →
    (∀ p, L.phase m p = .idle) ∨ ∃ p, L.phase m p = .working

/-- Only the party that has the lock gives it up, and with the lock it goes on without waiting. -/
structure Client.Disciplined (C : Client P σ ι) (s : σ) : Prop where
  release : ∀ p, C.wish s p = .release → C.lock s = some p
  goes_on : ∀ p, C.lock s = some p →
    C.wish s p = .release ∨ C.wish s p = .nothing ∧ ∃ i t, C.step s (p, i) = some t ∧ t ≠ s

/-- When the composed system cannot go on, the client alone could not either, and nobody is in a
call. -/
theorem Agrees.stuck {x : σ × τ} (h : Agrees C L x) (hlive : L.Live) (hd : C.Disciplined x.1)
    (hstuck : Stuck (C.over L) x) : (∀ p, L.phase x.2 p = .idle) ∧ Stuck C.step x.1 := by
  have hinner : ∀ p k m, L.step x.2 (p, .inner k) = some m → m = x.2 := by
    intro p k m hm
    obtain ⟨s, hs⟩ := h.unblocked hm
    exact congrArg Prod.snd (hstuck _ _ hs)
  have hnobody : ¬ ∃ p, L.phase x.2 p = .working := by
    rintro ⟨p, hp⟩
    have hhas : C.lock x.1 = some p := (h.lock p).mpr (by rw [hp]; rfl)
    rcases hd.goes_on p hhas with hw | ⟨hw, i, t, ht, hne⟩
    · obtain ⟨m, hm⟩ := hlive.releases h.good hp
      have hs : C.over L x (p, .lock .release) = some (x.1, m) := by simp [Client.over, hw, hm]
      have hsame : m = x.2 := congrArg Prod.snd (hstuck _ _ hs)
      have hmoves := L.moves h.good hm
      rw [hsame, hp] at hmoves
      cases hmoves
    · have hs : C.over L x (p, .client i) = some (t, x.2) := by simp [Client.over, hw, hp, ht]
      exact hne (congrArg Prod.fst (hstuck _ _ hs))
  have hidle := (hlive.awake h.good hinner).resolve_right hnobody
  refine ⟨hidle, ?_⟩
  rintro ⟨p, i⟩ t ht
  cases hw : C.wish x.1 p with
  | nothing =>
    have hs : C.over L x (p, .client i) = some (t, x.2) := by simp [Client.over, hw, hidle p, ht]
    exact congrArg Prod.fst (hstuck _ _ hs)
  | acquire =>
    obtain ⟨m, hm⟩ := hlive.calls h.good (hidle p)
    have hs : C.over L x (p, .lock .call) = some (x.1, m) := by simp [Client.over, hw, hm]
    have hsame : m = x.2 := congrArg Prod.snd (hstuck _ _ hs)
    have hmoves := L.moves h.good hm
    rw [hsame, hidle p] at hmoves
    cases hmoves
  | release =>
    have hhas := (h.lock p).mp (hd.release p hw)
    simp [hidle p, Phase.has] at hhas

end simulation

/-! ### Coming to an end -/

/-- What the implementation has to spend, of which a call brings `price`, and how far each party
is from its next expense. -/
structure Impl.Costs (L : Impl P τ κ) where
  budget : τ → Nat
  rank : τ → P → Nat
  price : Nat
  bound : Nat
  rank_le : ∀ m p, rank m p ≤ bound
  call : ∀ {m p m'}, L.Good m → L.step m (p, .call) = some m' → budget m' ≤ budget m + price
  release : ∀ {m p m'}, L.Good m → L.step m (p, .release) = some m' → budget m' ≤ budget m
  inner : ∀ {m p k m'}, L.Good m → L.step m (p, .inner k) = some m' → m' ≠ m →
    budget m' < budget m ∨
      budget m' ≤ budget m ∧ rank m' p < rank m p ∧ ∀ q, q ≠ p → rank m' q = rank m q

/-- The steps inside the implementation use up what calls and releases bring in. -/
structure Impl.Spends (L : Impl P τ κ) where
  potential : τ → Nat
  price : Nat
  call : ∀ {m p m'}, L.Good m → L.step m (p, .call) = some m' → potential m' ≤ potential m + price
  release : ∀ {m p m'}, L.Good m → L.step m (p, .release) = some m' →
    potential m' ≤ potential m + price
  inner : ∀ {m p k m'}, L.Good m → L.step m (p, .inner k) = some m' → m' ≠ m →
    potential m' < potential m

def Impl.Costs.spends [Fintype P] {L : Impl P τ κ} (K : L.Costs) : L.Spends where
  potential m := amortised (K.budget m) (K.rank m) K.bound
  price := (K.price + 1) * (K.bound * Fintype.card P + 1)
  call hgood hs := amortised_le (K.call hgood hs) (K.rank_le _)
  release hgood hs := amortised_le ((K.release hgood hs).trans (Nat.le_add_right _ _)) (K.rank_le _)
  inner hgood hs hne := by
    rcases K.inner hgood hs hne with hlower | ⟨hle, hrank, hothers⟩
    · exact amortised_paid hlower (K.rank_le _)
    · exact amortised_leads hle hrank hothers

/-- What is kept back for the call or the release that a party may still make. -/
def credit (price : Nat) : Phase → Nat
  | .idle | .working | .leaving => price + 1
  | .trying | .taking | .giving => 0

section termination
variable [Fintype P] {C : Client P σ ι} {L : Impl P τ κ}

def Impl.Spends.reserve (K : L.Spends) (m : τ) : Nat :=
  ∑ p, credit K.price (L.phase m p) + K.potential m

theorem credit_same {k : κ} {a b : Phase} (h : Phase.Moves (.inner k) a b) (hhas : a.has = b.has)
    (price : Nat) : credit price b = credit price a := by
  cases h with
  | stay | take | leave => rfl
  | enter k a h => rcases h with rfl | rfl <;> simp [Phase.has] at hhas
  | give k b h => rcases h with rfl | rfl <;> simp [Phase.has] at hhas

theorem credit_le (price : Nat) (a : Phase) : credit price a ≤ price + 1 := by
  cases a <;> simp [credit]

theorem Agrees.spends [DecidableEq P] {x y : σ × τ} {p : P} {l : Label ι κ} (K : L.Spends)
    (h : Agrees C L x) (hover : C.over L x (p, l) = some y) (hne : y ≠ x) :
    y.1 = x.1 ∧ K.reserve y.2 < K.reserve x.2 ∨
      y.1 ≠ x.1 ∧ C.step x.1 (p, C.does l) = some y.1 ∧
        K.reserve y.2 ≤ K.reserve x.2 + K.price := by
  have hcredit : ∀ c, L.step x.2 (p, c) = some y.2 →
      ∑ q, credit K.price (L.phase y.2 q) + credit K.price (L.phase x.2 p) =
        ∑ q, credit K.price (L.phase x.2 q) + credit K.price (L.phase y.2 p) := by
    intro c hm
    refine sum_update (f := fun q => credit K.price (L.phase x.2 q)) fun q hq => ?_
    rw [L.others h.good hm hq]
  unfold Impl.Spends.reserve
  cases over_cases hover with
  | client i hw hphase hs hm =>
    refine .inr ⟨fun heq => hne (Prod.ext heq hm), hs, ?_⟩
    rw [hm]
    exact Nat.le_add_right _ _
  | call hw hm hs =>
    have hsum := hcredit _ hm
    have hprice := K.call h.good hm
    have hmoves := L.moves h.good hm
    generalize L.phase x.2 p = a at hmoves hsum
    generalize L.phase y.2 p = b at hmoves hsum
    cases hmoves
    have hidle : credit K.price .idle = K.price + 1 := rfl
    have htrying : credit K.price .trying = 0 := rfl
    exact .inl ⟨hs, by omega⟩
  | release hw hm hs =>
    have hsum := hcredit _ hm
    have hprice := K.release h.good hm
    have hmoves := L.moves h.good hm
    generalize L.phase x.2 p = a at hmoves hsum
    generalize L.phase y.2 p = b at hmoves hsum
    cases hmoves
    have hworking : credit K.price .working = K.price + 1 := rfl
    have hgiving : credit K.price .giving = 0 := rfl
    exact .inl ⟨hs, by omega⟩
  | inner k hm hs hhas =>
    have hsum := hcredit _ hm
    rw [credit_same (L.moves h.good hm) hhas] at hsum
    have hlower := K.inner h.good hm fun heq => hne (Prod.ext hs heq)
    exact .inl ⟨hs, by omega⟩
  | sync k hm hs hhas =>
    have hsum := hcredit _ hm
    have hlend := credit_le K.price (L.phase y.2 p)
    have hlower := K.inner h.good hm fun heq => hhas (by rw [heq])
    refine .inr ⟨fun heq => hhas ?_, hs, by omega⟩
    have hbefore := h.lock p
    have hafter := (h.step hover).lock p
    rw [heq, hbefore] at hafter
    exact Bool.eq_iff_iff.mpr hafter

/-- A unit of the client's potential outweighs what it may lend. -/
def overPotential (K : L.Spends) (potential : σ → Nat) (x : σ × τ) : Nat :=
  (K.price + 1) * potential x.1 + K.reserve x.2

theorem over_unit {price n m a b : Nat} (h : n < m) (hab : a ≤ b + price) :
    (price + 1) * n + a < (price + 1) * m + b := by
  have hunit := Nat.mul_le_mul_left (price + 1) h
  rw [Nat.mul_succ] at hunit
  omega

/-- What the implementation spends for the client lowers the potential of both. -/
theorem over_descends [DecidableEq P] (K : L.Spends) {I : σ → Prop} {potential : σ → Nat}
    (hC : Descends C.step I potential) :
    Descends (C.over L) (fun x => Agrees C L x ∧ I x.1) (overPotential K potential) := by
  constructor
  · rintro x ⟨p, l⟩ y ⟨hx, hI⟩ hover
    refine ⟨hx.step hover, ?_⟩
    cases over_cases hover with
    | client i hw hphase hs hm => exact hC.keeps _ _ _ hI hs
    | call hw hm hs | release hw hm hs | inner k hm hs => exact hs ▸ hI
    | sync k hm hs => exact hC.keeps _ _ _ hI hs
  · rintro x ⟨p, l⟩ y ⟨hx, hI⟩ hover hne
    unfold overPotential
    rcases hx.spends K hover hne with ⟨hs, hlower⟩ | ⟨hmove, hs, hlend⟩
    · rw [hs]
      omega
    · exact over_unit (hC.lowers _ _ _ hI hs hmove) hlend

/-- A client that comes to an end with a lock that takes one step does so over the implementation,
and then no party is in a call. -/
theorem over_ends [DecidableEq P] (hlive : L.Live) (K : L.Spends) {I : σ → Prop}
    {potential : σ → Nat} (hC : Descends C.step I potential) (hd : ∀ s, I s → C.Disciplined s)
    {final : σ → Prop} (hfinal : ∀ s, I s → Stuck C.step s → final s) {s : σ} (hs : I s)
    (hfree : C.lock s = none) :
    Ends (C.over L) (s, L.start) (overPotential K potential (s, L.start))
      fun x => final x.1 ∧ L.Good x.2 ∧ ∀ p, L.phase x.2 p = .idle := by
  refine (over_descends K hC).ends ⟨agrees_start hfree, hs⟩ fun x hx hstuck => ?_
  obtain ⟨hidle, hstuck⟩ := hx.1.stuck hlive (hd _ hx.2) hstuck
  exact ⟨hfinal _ hx.2 hstuck, hx.1.good, hidle⟩

end termination

def both (p : Bool) : Option Nat := if p then some 7 else none

end LockImpl
