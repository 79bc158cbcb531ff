import Colock.Lib.LockStack
import Colock.Lib.ThreadPark

/-! Clients and locks whose parties wait on flags. A party waits in the lock while it is in a call
to it, and in the client otherwise, so the two together wait on flags again. -/
namespace LockImpl
open Transition ThreadPark
variable {P σ ι τ κ τ' κ' : Type*}

structure Client.Waits (C : Client P σ ι) extends Flags C.step where
  apart : ∀ {s p}, waits s p ≠ none → C.wish s p = .nothing
  silent : ∀ {s p}, C.wish s p ≠ .nothing → rings s (p, C.sync) = none

def Client.wakeful (C : Client P σ ι) : C.Waits where
  Good _ := True
  waits _ _ := none
  rings _ _ := none
  keeps _ _ := trivial
  down _ h := by cases h
  others _ _ _ := .inl rfl
  moves _ _ h := absurd rfl h
  apart h := absurd rfl h
  silent _ := rfl

def Impl.Rests (L : Impl P τ κ) : Prop :=
  ∀ {m p k m'}, L.Good m → L.phase m p = .idle ∨ L.phase m p = .working →
    L.step m (p, .inner k) = some m' → m' = m

structure Impl.Waits (L : Impl P τ κ) extends Flags L.step where
  rests : L.Rests

section composed
variable {C : Client P σ ι} {L : Impl P τ κ} (FC : C.Waits) (FL : L.Waits)

def overWaits (x : σ × τ) (p : P) : Option Bool :=
  if L.phase x.2 p = .idle ∨ L.phase x.2 p = .working then FC.waits x.1 p else FL.waits x.2 p

def overRings (x : σ × τ) : P × Label ι κ → Option P
  | (p, .client i) => FC.rings x.1 (p, i)
  | (p, .lock c) => FL.rings x.2 (p, c)

variable {FC FL}

theorem Agrees.down {x y : σ × τ} {p : P} {l : Label ι κ} (h : Agrees C L x) (hC : FC.Good x.1)
    (hL : FL.Good x.2) (hwaits : overWaits FC FL x p = some false)
    (hover : C.over L x (p, l) = some y) : y = x := by
  unfold overWaits at hwaits
  split at hwaits
  · next hphase =>
    have hwish := FC.apart (s := x.1) (p := p) (by simp [hwaits])
    cases over_cases hover with
    | client i hw hphase hs hm => exact Prod.ext (FC.down hC hwaits hs) hm
    | call hw | release hw => simp [hwish] at hw
    | inner k hm hs => exact Prod.ext hs (FL.rests h.good hphase hm)
    | sync k hm hs hhas => exact absurd (by rw [FL.rests h.good hphase hm]) hhas
  · next hphase =>
    cases over_cases hover with
    | client i hw hout => exact absurd hout hphase
    | call hw hm hs | release hw hm hs | inner k hm hs => exact Prod.ext hs (FL.down hL hwaits hm)
    | sync k hm hs hhas => exact absurd (by rw [FL.down hL hwaits hm]) hhas

theorem Agrees.others {x y : σ × τ} {p q : P} {l : Label ι κ} (h : Agrees C L x)
    (hC : FC.Good x.1) (hL : FL.Good x.2) (hover : C.over L x (p, l) = some y) (hq : q ≠ p) :
    overWaits FC FL y q = overWaits FC FL x q ∨
      overRings FC FL x (p, l) = some q ∧ overWaits FC FL x q = some false ∧
        overWaits FC FL y q = some true := by
  have hphase : L.phase y.2 q = L.phase x.2 q := by
    cases over_cases hover with
    | client i hw hphase hs hm => rw [hm]
    | call hw hm | release hw hm | inner k hm | sync k hm => exact L.others h.good hm hq
  simp only [overWaits, hphase]
  split
  · cases over_cases hover with
    | client i hw hphase hs hm => exact FC.others hC hs hq
    | call hw hm hs | release hw hm hs | inner k hm hs => exact .inl (by rw [hs])
    | sync k hm hs hhas =>
      -- the step takes or gives the lock, and rings nobody
      have hwish : C.wish x.1 p ≠ .nothing := by
        rcases (L.moves h.good hm).has_changes hhas with ⟨ha, -⟩ | ⟨ha, -⟩
        · simp [h.asks p ha]
        · simp [h.gives p ha]
      refine .inl ((FC.others hC hs hq).resolve_right ?_)
      rintro ⟨hrings, -⟩
      simp [FC.silent hwish] at hrings
  · cases over_cases hover with
    | client i hw hphase hs hm => exact .inl (by rw [hm])
    | call hw hm | release hw hm | inner k hm | sync k hm => exact FL.others hL hm hq

variable (FC FL)

def overFlags : Flags (C.over L) where
  Good x := Agrees C L x ∧ FC.Good x.1 ∧ FL.Good x.2
  waits := overWaits FC FL
  rings := overRings FC FL
  keeps := by
    rintro x ⟨p, l⟩ y ⟨h, hC, hL⟩ hover
    refine ⟨h.step hover, ?_⟩
    cases over_cases hover with
    | client i hw hphase hs hm => exact ⟨FC.keeps hC hs, hm ▸ hL⟩
    | call hw hm hs | release hw hm hs | inner k hm hs => exact ⟨hs ▸ hC, FL.keeps hL hm⟩
    | sync k hm hs => exact ⟨FC.keeps hC hs, FL.keeps hL hm⟩
  down := by
    rintro x p l y ⟨h, hC, hL⟩ hwaits hover
    exact h.down hC hL hwaits hover
  others := by
    rintro x p q l y ⟨h, hC, hL⟩ hover hq
    exact h.others hC hL hover hq
  moves := by
    rintro x ⟨p, l⟩ y ⟨h, hC, hL⟩ hover hrings hsame
    cases over_cases hover with
    | client i hw hphase hs hm => exact FC.moves hC hs hrings (congrArg Prod.fst hsame)
    | call hw hm | release hw hm | inner k hm | sync k hm =>
      exact FL.moves hL hm hrings (congrArg Prod.snd hsame)

theorem overWaits_idle {x : σ × τ} {p : P} (h : L.phase x.2 p = .idle) :
    overWaits FC FL x p = FC.waits x.1 p := if_pos (.inl h)

/-- A client that comes to an end with a lock that takes one step does so over an implementation in
which threads sleep, and then they sleep for reasons of the client's only. -/
theorem over_ends_asleep [Fintype P] [DecidableEq P] (hlive : L.Live) (K : L.Spends) {s : σ}
    (hfree : C.lock s = none) (hC : FC.Good s) (hL : FL.Good L.start)
    (hd : ∀ t, Reach C.step anyStep s t → C.Disciplined t) {n : Nat} {final : σ → Prop}
    (hends : Ends C.step s n final) :
    ∃ m, ∀ token stray, Ends (overFlags FC FL).step (ThreadPark.start (s, L.start) token stray)
      (m + 3 * stray) fun x =>
        (final x.base.1 ∧ L.Good x.base.2 ∧ ∀ p, L.phase x.base.2 p = .idle) ∧
          ∀ p, x.mode p = .awake ∨ x.mode p = .asleep ∧ FC.waits x.base.1 p = some false := by
  have hreach : ∀ t, Leads C.step s t → Reach C.step anyStep s t := by
    rintro t ⟨ls, -, hr⟩
    exact run_reach (meets_any _ _) hr
  have hover := over_ends hlive K hends.descends (fun t ht => hd t (hreach t ht))
    (fun t ht hstuck => hends.final t (hreach t ht) hstuck) ⟨[], trivial, rfl⟩ hfree
  have hgood : (overFlags FC FL).Good (s, L.start) := ⟨agrees_start hfree, hC, hL⟩
  obtain ⟨m, hasleep⟩ := ends_asleep hover hgood
  refine ⟨m, fun token stray => ⟨(hasleep token stray).bound, fun x hr hstuck => ?_⟩⟩
  obtain ⟨hfinal, hrest⟩ := (hasleep token stray).final x hr hstuck
  refine ⟨hfinal, fun p => (hrest p).imp_right fun ⟨hmode, hflag⟩ => ⟨hmode, ?_⟩⟩
  rwa [← overWaits_idle FC FL (hfinal.2.2 p)]

end composed

section stack
variable {U : Impl P τ κ} {C : Client P τ (Cmd κ)} {L : Impl P τ' κ'}

theorem Stacked.rests (h : U.Uses C) (hU : U.Rests) (hL : L.Rests) {x y : τ × τ'} {p : P}
    {k : κ ⊕ Cmd κ'} (hx : Stacked U C L x)
    (hphase : (U.phase x.1 p).behind (L.phase x.2 p) = .idle ∨
      (U.phase x.1 p).behind (L.phase x.2 p) = .working)
    (hover : C.over L x (p, (Cmd.inner k : Cmd (κ ⊕ Cmd κ')).label) = some y) : y = x := by
  obtain ⟨hout, hleft⟩ : (U.phase x.1 p = .idle ∨ U.phase x.1 p = .working) ∧
      L.phase x.2 p ≠ .leaving := by
    rcases hphase with hp | hp
    · exact ⟨.inl (behind_idle hp).1, (behind_idle hp).2⟩
    · exact ⟨.inr (behind_working hp).1, (behind_working hp).2⟩
  have hwish := h.within hx.good hout
  have hrests := hx.out h hout hleft
  cases k with
  | inl k =>
    cases over_cases hover with
    | client i hw hphase hs hm => exact Prod.ext (hU hx.good hout (h.step_eq hs)) hm
  | inr c =>
    cases over_cases hover with
    | call hw | release hw => simp [hwish] at hw
    | inner k hm hs => exact Prod.ext hs (hL hx.agrees.good hrests hm)
    | sync k hm hs hhas => exact absurd (by rw [hL hx.agrees.good hrests hm]) hhas

/-- A lock over the lock that guards a part of its state. -/
def stackWaits (h : U.Uses C) (hU : U.Rests) (FC : C.Waits) (FL : L.Waits) :
    (U.over C h L).Waits where
  toFlags := (overFlags FC FL).relabel Cmd.label
  rests := by
    intro x p k y hx hphase hs
    exact hx.rests h hU FL.rests hphase hs

end stack

end LockImpl
