import Colock.Lib.LockImpl

/-! Locks built on locks. An implementation may guard a part of its own state by another lock,
which it takes and gives in one step; it is a client of that lock. With an implementation of the
other lock in the place of these steps it still is an implementation of its own, and it goes on
and comes to an end as before. -/
namespace LockImpl
open Transition
variable {P τ κ τ' κ' : Type*}

/-- `U` as the client of the lock inside it, which it needs within its calls only. -/
structure Impl.Uses (U : Impl P τ κ) (C : Client P τ (Cmd κ)) : Prop where
  step : C.step = U.step
  start : C.lock U.start = none
  sync : ∃ k, C.sync = .inner k
  within : ∀ {m p}, U.Good m → U.phase m p = .idle ∨ U.phase m p = .working → C.wish m p = .nothing

/-- A call has not returned while its party is on the way out of the lock inside. -/
def Phase.behind : Phase → Phase → Phase
  | .idle, .leaving => .leaving
  | .working, .leaving => .taking
  | a, _ => a

def Cmd.label : Cmd (κ ⊕ Cmd κ') → Label (Cmd κ) κ'
  | .call => .client .call
  | .release => .client .release
  | .inner (.inl k) => .client (.inner k)
  | .inner (.inr c) => .lock c

theorem Phase.behind_eq {a b : Phase} (h : b ≠ .leaving) : a.behind b = a := by
  cases a <;> cases b <;> first | rfl | exact absurd rfl h

theorem Phase.owns_behind (a b : Phase) : (a.behind b).owns = a.owns := by
  cases a <;> cases b <;> rfl

theorem Phase.Moves.relabel {k : κ} {k' : κ'} {a b : Phase} (h : Phase.Moves (.inner k) a b) :
    Phase.Moves (.inner k') a b := by
  cases h with
  | stay => exact .stay _ _
  | take => exact .take _
  | enter _ a h => exact .enter _ a h
  | give _ b h => exact .give _ b h
  | leave => exact .leave _

theorem Phase.Moves.behind {c : Cmd κ'} {k : κ} {a b : Phase} (h : Phase.Moves c a b)
    (hhas : ∀ k, c = .inner k → a.has = b.has) (u : Phase) :
    Phase.Moves (.inner k) (u.behind a) (u.behind b) := by
  cases h with
  | call | release | take => cases u <;> exact .stay _ _
  | stay => exact .stay _ _
  | leave => cases u <;> first | exact .stay _ _ | exact .leave _ | exact .enter _ _ (.inr rfl)
  | enter k a h => rcases h with rfl | rfl <;> simpa [Phase.has] using hhas k rfl
  | give k b h => rcases h with rfl | rfl <;> simpa [Phase.has] using hhas k rfl

theorem Phase.Moves.falls_behind {k : κ} {k' : κ'} {a b : Phase} (h : Phase.Moves (.inner k) a b)
    (hidle : a ≠ .idle) (hworking : a ≠ .working) :
    Phase.Moves (.inner k') a (b.behind .leaving) := by
  cases h with
  | stay =>
    cases a with
    | idle => exact absurd rfl hidle
    | working => exact absurd rfl hworking
    | _ => exact .stay _ _
  | take => exact .take _
  | enter k a h => rcases h with rfl | rfl <;> first | exact .take _ | exact .stay _ _
  | give k b h => rcases h with rfl | rfl <;> exact .give _ _ (.inl rfl)
  | leave => exact .stay _ _

section stack
variable {U : Impl P τ κ} {C : Client P τ (Cmd κ)} {L : Impl P τ' κ'}

structure Stacked (U : Impl P τ κ) (C : Client P τ (Cmd κ)) (L : Impl P τ' κ') (x : τ × τ') :
    Prop where
  good : U.Good x.1
  agrees : Agrees C L x

theorem Impl.Uses.step_eq (h : U.Uses C) {m t : τ} {l : P × Cmd κ} (hs : C.step m l = some t) :
    U.step m l = some t := by
  rwa [h.step] at hs

theorem Stacked.out {x : τ × τ'} (hx : Stacked U C L x) (h : U.Uses C) {p : P}
    (hout : U.phase x.1 p = .idle ∨ U.phase x.1 p = .working)
    (hleft : L.phase x.2 p ≠ .leaving) : L.phase x.2 p = .idle ∨ L.phase x.2 p = .working := by
  have hw := h.within hx.good hout
  cases hphase : L.phase x.2 p with
  | idle => exact .inl rfl
  | working => exact .inr rfl
  | trying => simp [hx.agrees.asks p (.inl hphase)] at hw
  | taking => simp [hx.agrees.asks p (.inr hphase)] at hw
  | giving => simp [hx.agrees.gives p hphase] at hw
  | leaving => exact absurd hphase hleft

theorem Stacked.step (h : U.Uses C) {x y : τ × τ'} {p : P} {l : Label (Cmd κ) κ'}
    (hx : Stacked U C L x) (hover : C.over L x (p, l) = some y) : Stacked U C L y := by
  refine ⟨?_, hx.agrees.step hover⟩
  cases over_cases hover with
  | client i hw hphase hs hm => exact U.good_step hx.good (h.step_eq hs)
  | call hw hm hs | release hw hm hs | inner k hm hs => exact hs ▸ hx.good
  | sync k hm hs => exact U.good_step hx.good (h.step_eq hs)

theorem Stacked.moves (h : U.Uses C) {x y : τ × τ'} {p : P} {c : Cmd (κ ⊕ Cmd κ')}
    (hx : Stacked U C L x) (hover : C.over L x (p, c.label) = some y) :
    Phase.Moves c ((U.phase x.1 p).behind (L.phase x.2 p))
      ((U.phase y.1 p).behind (L.phase y.2 p)) := by
  have client : ∀ i, C.step x.1 (p, i) = some y.1 → y.2 = x.2 →
      (L.phase x.2 p = .idle ∨ L.phase x.2 p = .working) →
      Phase.Moves i ((U.phase x.1 p).behind (L.phase x.2 p))
        ((U.phase y.1 p).behind (L.phase y.2 p)) := by
    intro i hs hm hphase
    have hne : L.phase x.2 p ≠ .leaving := by rcases hphase with hp | hp <;> simp [hp]
    rw [hm, Phase.behind_eq hne, Phase.behind_eq hne]
    exact U.moves hx.good (h.step_eq hs)
  cases c with
  | call =>
    cases over_cases hover with
    | client i hw hphase hs hm =>
      have hmoves := client _ hs hm hphase
      generalize (U.phase x.1 p).behind (L.phase x.2 p) = a at hmoves
      generalize (U.phase y.1 p).behind (L.phase y.2 p) = b at hmoves
      cases hmoves
      exact .call
  | release =>
    cases over_cases hover with
    | client i hw hphase hs hm =>
      have hmoves := client _ hs hm hphase
      generalize (U.phase x.1 p).behind (L.phase x.2 p) = a at hmoves
      generalize (U.phase y.1 p).behind (L.phase y.2 p) = b at hmoves
      cases hmoves
      exact .release
  | inner k =>
    cases k with
    | inl k =>
      cases over_cases hover with
      | client i hw hphase hs hm => exact (client _ hs hm hphase).relabel
    | inr c =>
      cases over_cases hover with
      | call hw hm hs | release hw hm hs =>
        rw [hs]
        exact (L.moves hx.agrees.good hm).behind (by simp) _
      | inner k hm hs hhas =>
        rw [hs]
        exact (L.moves hx.agrees.good hm).behind (fun _ _ => hhas) _
      | sync k hm hs hhas =>
        obtain ⟨j, hj⟩ := h.sync
        rw [hj] at hs
        have hmoves := U.moves hx.good (h.step_eq hs)
        rcases (L.moves hx.agrees.good hm).has_changes hhas with ⟨ha, hb⟩ | ⟨ha, hb | hb⟩
        · rw [Phase.behind_eq (by rcases ha with ha | ha <;> simp [ha]),
            Phase.behind_eq (by simp [hb])]
          exact hmoves.relabel
        · have hwish := hx.agrees.gives p ha
          rw [hb, Phase.behind_eq (by simp [ha])]
          refine hmoves.falls_behind (fun hout => ?_) fun hout => ?_
          · simp [h.within hx.good (.inl hout)] at hwish
          · simp [h.within hx.good (.inr hout)] at hwish
        · rw [Phase.behind_eq (by simp [ha]), Phase.behind_eq (by simp [hb])]
          exact hmoves.relabel

theorem Stacked.others (h : U.Uses C) {x y : τ × τ'} {p q : P} {l : Label (Cmd κ) κ'}
    (hx : Stacked U C L x) (hover : C.over L x (p, l) = some y) (hq : q ≠ p) :
    U.phase y.1 q = U.phase x.1 q ∧ L.phase y.2 q = L.phase x.2 q := by
  cases over_cases hover with
  | client i hw hphase hs hm => exact ⟨U.others hx.good (h.step_eq hs) hq, by rw [hm]⟩
  | call hw hm hs | release hw hm hs | inner k hm hs =>
    exact ⟨by rw [hs], L.others hx.agrees.good hm hq⟩
  | sync k hm hs =>
    exact ⟨U.others hx.good (h.step_eq hs) hq, L.others hx.agrees.good hm hq⟩

/-- `U` with `L` in the place of the lock inside. -/
def Impl.over (U : Impl P τ κ) (C : Client P τ (Cmd κ)) (h : U.Uses C) (L : Impl P τ' κ') :
    Impl P (τ × τ') (κ ⊕ Cmd κ') where
  step x := fun (p, c) => C.over L x (p, c.label)
  start := (U.start, L.start)
  phase x p := (U.phase x.1 p).behind (L.phase x.2 p)
  Good := Stacked U C L
  good_start := ⟨U.good_start, agrees_start h.start⟩
  idle_start p := by rw [U.idle_start, L.idle_start]; rfl
  good_step hx hs := hx.step h hs
  moves hx hs := hx.moves h hs
  others hx hs hq := by
    obtain ⟨hU, hL⟩ := hx.others h hs hq
    rw [hU, hL]
  alone hx hp hq := by
    rw [Phase.owns_behind] at hp hq
    exact U.alone hx.good hp hq

theorem Stacked.awake (h : U.Uses C) (hU : U.Live) (hL : L.Live) {x : τ × τ'}
    (hx : Stacked U C L x) (hrelease : ∀ p, C.wish x.1 p = .release → C.lock x.1 = some p)
    (hgoes : ∀ p, C.lock x.1 = some p → C.wish x.1 p = .release ∨
      C.wish x.1 p = .nothing ∧ ∃ k t, U.step x.1 (p, .inner k) = some t ∧ t ≠ x.1)
    (hstuck : ∀ p k y, C.over L x (p, (Cmd.inner k : Cmd (κ ⊕ Cmd κ')).label) = some y → y = x) :
    (∀ p, L.phase x.2 p = .idle) ∧
      ((∀ p, U.phase x.1 p = .idle) ∨ ∃ p, U.phase x.1 p = .working) := by
  have hinner : ∀ p k m, L.step x.2 (p, .inner k) = some m → m = x.2 := by
    intro p k m hm
    obtain ⟨s, hs⟩ := hx.agrees.unblocked hm
    exact congrArg Prod.snd (hstuck p (.inr (.inner k)) _ hs)
  have hnobody : ¬ ∃ p, L.phase x.2 p = .working := by
    rintro ⟨p, hp⟩
    have hhas : C.lock x.1 = some p := (hx.agrees.lock p).mpr (by rw [hp]; rfl)
    rcases hgoes p hhas with hw | ⟨hw, k, t, ht, hne⟩
    · obtain ⟨m, hm⟩ := hL.releases hx.agrees.good hp
      have hs : C.over L x (p, .lock .release) = some (x.1, m) := by simp [Client.over, hw, hm]
      have hsame : m = x.2 := congrArg Prod.snd (hstuck p (.inr .release) _ hs)
      have hmoves := L.moves hx.agrees.good hm
      rw [hsame, hp] at hmoves
      cases hmoves
    · have hs : C.over L x (p, .client (.inner k)) = some (t, x.2) := by
        simp [Client.over, hw, hp, h.step, ht]
      exact hne (congrArg Prod.fst (hstuck p (.inl k) _ hs))
  have hidle := (hL.awake hx.agrees.good hinner).resolve_right hnobody
  refine ⟨hidle, hU.awake hx.good fun p k t ht => ?_⟩
  cases hw : C.wish x.1 p with
  | nothing =>
    have hs : C.over L x (p, .client (.inner k)) = some (t, x.2) := by
      simp [Client.over, hw, hidle p, h.step, ht]
    exact congrArg Prod.fst (hstuck p (.inl k) _ hs)
  | acquire =>
    obtain ⟨m, hm⟩ := hL.calls hx.agrees.good (hidle p)
    have hs : C.over L x (p, .lock .call) = some (x.1, m) := by simp [Client.over, hw, hm]
    have hsame : m = x.2 := congrArg Prod.snd (hstuck p (.inr .call) _ hs)
    have hmoves := L.moves hx.agrees.good hm
    rw [hsame, hidle p] at hmoves
    cases hmoves
  | release =>
    have hhas := (hx.agrees.lock p).mp (hrelease p hw)
    simp [hidle p, Phase.has] at hhas

theorem behind_idle {a b : Phase} (h : a.behind b = .idle) : a = .idle ∧ b ≠ .leaving := by
  cases a <;> cases b <;> simp [Phase.behind] at h ⊢

theorem behind_working {a b : Phase} (h : a.behind b = .working) : a = .working ∧ b ≠ .leaving := by
  cases a <;> cases b <;> simp [Phase.behind] at h ⊢

/-- The stack is live when both locks are and a party goes on while it is inside the lower one. -/
theorem over_live (h : U.Uses C) (hU : U.Live) (hL : L.Live)
    (hrelease : ∀ {m p}, U.Good m → C.wish m p = .release → C.lock m = some p)
    (hgoes : ∀ {m p}, U.Good m → C.lock m = some p → C.wish m p = .release ∨
      C.wish m p = .nothing ∧ ∃ k t, U.step m (p, .inner k) = some t ∧ t ≠ m) :
    (U.over C h L).Live where
  calls := by
    intro x p hx hidle
    obtain ⟨hp, hleft⟩ := behind_idle hidle
    obtain ⟨t, ht⟩ := hU.calls hx.good hp
    have hphase := hx.out h (.inl hp) hleft
    exact ⟨(t, x.2), by
      simp [Impl.over, Cmd.label, Client.over, h.within hx.good (.inl hp), hphase, h.step, ht]⟩
  releases := by
    intro x p hx hworking
    obtain ⟨hp, hleft⟩ := behind_working hworking
    obtain ⟨t, ht⟩ := hU.releases hx.good hp
    have hphase := hx.out h (.inr hp) hleft
    exact ⟨(t, x.2), by
      simp [Impl.over, Cmd.label, Client.over, h.within hx.good (.inr hp), hphase, h.step, ht]⟩
  awake := by
    intro x hx hstuck
    obtain ⟨hidle, hup⟩ := hx.awake h hU hL (fun p => hrelease hx.good) (fun p => hgoes hx.good)
      fun p k y hs => hstuck p k y hs
    have hbehind : ∀ p, (U.over C h L).phase x p = U.phase x.1 p := fun p =>
      Phase.behind_eq (by simp [hidle p])
    simpa only [hbehind] using hup

/-- A step of the upper lock pays for what the lower one may do before the next. -/
def overSpends [Fintype P] [DecidableEq P] (h : U.Uses C) (K : U.Spends) (K' : L.Spends) :
    (U.over C h L).Spends where
  potential := overPotential K' K.potential
  price := (K'.price + 1) * K.price
  call := by
    intro x p y hx hs
    replace hs : C.over L x (p, .client .call) = some y := hs
    cases over_cases hs with
    | client i hw hphase hs hm =>
      have hprice := Nat.mul_le_mul_left (K'.price + 1) (K.call hx.good (h.step_eq hs))
      rw [Nat.mul_add] at hprice
      simp only [overPotential, hm]
      omega
  release := by
    intro x p y hx hs
    replace hs : C.over L x (p, .client .release) = some y := hs
    cases over_cases hs with
    | client i hw hphase hs hm =>
      have hprice := Nat.mul_le_mul_left (K'.price + 1) (K.release hx.good (h.step_eq hs))
      rw [Nat.mul_add] at hprice
      simp only [overPotential, hm]
      omega
  inner := by
    intro x p k y hx hs hne
    unfold overPotential
    rcases hx.agrees.spends K' hs hne with ⟨hsame, hlower⟩ | ⟨hmove, hstep, hlend⟩
    · rw [hsame]
      omega
    · obtain ⟨j, hj⟩ := h.sync
      have hinner : ∃ j, C.does (Cmd.inner k : Cmd (κ ⊕ Cmd κ')).label = .inner j := by
        cases k with
        | inl i => exact ⟨i, rfl⟩
        | inr c => exact ⟨j, hj⟩
      obtain ⟨i, hi⟩ := hinner
      rw [hi] at hstep
      exact over_unit (K.inner hx.good (h.step_eq hstep) hmove) hlend

end stack

end LockImpl
