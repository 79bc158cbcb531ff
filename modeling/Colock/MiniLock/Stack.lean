import Colock.MiniLock.Invariant

/-! The four steps of `MiniLock` that concern two threads: a node is pushed, popped, gives its
waker and is woken. -/
namespace Colock.MiniLock
variable {T : Type*}

theorem Inv.owner {s : State T} {q : Waiters} (h : Inv s q) {u : T} {a : Addr}
    (ha : a ∈ q.stack ++ q.popped) (hu : (s.pc u).node? = some a) : ∃ p, s.pc u = .park a p := by
  obtain ⟨v, p, hv⟩ := h.waiting a ha
  obtain rfl := h.nodes v u a (by rw [hv]; rfl) hu
  exact ⟨p, hv⟩

theorem Inv.sleeps {s : State T} {q : Waiters} (h : Inv s q) {a : Addr} (ha : a ∈ q.stack) :
    ∃ u p x, s.pc u = .park a p ∧ s.parker p = some false ∧
      s.node a = some ⟨x, some (wakerOf p u)⟩ := by
  obtain ⟨u, p, hu⟩ := h.waiting a (by simp [ha])
  have hplace := h.place u
  rw [hu] at hplace
  rcases hplace.2 with ⟨-, hp, x, hx⟩ | ⟨hpop, -⟩ | ⟨hout, -⟩
  · exact ⟨u, p, x, hu, hp, hx⟩
  · exact absurd hpop (List.disjoint_of_nodup_append h.distinct ha)
  · exact absurd (by simp [ha]) hout

theorem Inv.top {s : State T} {q : Waiters} (h : Inv s q) (hq : q.stack ≠ []) :
    ∃ a ∈ q.stack, getPtr s.head = a.asUsizePtr := by
  obtain ⟨a, rest, hstack⟩ := List.exists_cons_of_ne_nil hq
  have hchain := h.chain
  rw [hstack] at hchain
  exact ⟨a, by simp [hstack], hchain.1⟩

theorem Pc.holds_of_popping {c : Pc T} (h : c.popping) : c.holds := by
  cases c <;> simp_all [Pc.popping, Pc.holds]

variable [DecidableEq T]

theorem Inv.push {s : State T} {q : Waiters} (h : Inv s q) {t : T} {a : Addr} {p : Nat}
    (hpc : s.pc t = .push a p s.head) :
    Inv ({ s with
        head := a.asUsizePtr ||| lockedBit
        log := (t, .push a) :: s.log
        woken := Function.update s.woken t false }.goto t (.park a p)) ⟨a :: q.stack, q.popped⟩ := by
  obtain ⟨hout, hother⟩ := h.own_node (t := t) (a := a) (by simp [hpc]) (by simp [hpc, Pc.node?])
  have hplace := h.place t
  rw [hpc] at hplace
  obtain ⟨hp, hf, hn⟩ := hplace
  have hout' : a ∉ q.stack ∧ a ∉ q.popped := by simpa using hout
  have hnt : ∀ u b p', s.pc u = .park b p' → u ≠ t := by
    rintro u b p' hu rfl
    simp [hpc] at hu
  refine h.of_step rfl ?_ ?_ ?_ (fun b hb => ?_) ?_ (by simp [Pc.holds]) (by simp [Pc.node?, hpc])
    (by simp [Pc.parker?, hpc]) (by simp [Pc.carries?]) (fun u hut => ?_) ?_
  · simp [State.goto, Waiters.replay, h.replay, Waiters.after, hout']
  · exact ⟨by simp [State.goto], _, hn, h.chain⟩
  · simpa [hout'] using h.distinct
  · rcases List.mem_cons.mp hb with rfl | hb
    · exact ⟨t, p, by simp [State.goto]⟩
    · obtain ⟨u, p', hu⟩ := h.waiting b hb
      exact ⟨u, p', by simp [State.goto, hnt u b p' hu, hu]⟩
  · simp [State.goto, Pc.holds, hpc, hf]
  · refine (h.place u).frame h.distinct ⟨fun _ _ hlive => hlive, fun _ _ _ => rfl, fun b hb => ?_,
      fun _ _ => Iff.rfl, fun _ _ => rfl, fun _ b hb => ⟨by simp [hb], rfl⟩,
      fun b hb => ⟨(h.place u).carried hb, rfl⟩, fun v b p' _ hv => ?_⟩
    · have hba : b ≠ a := fun hba => hother u hut (hba ▸ hb)
      simp [hba]
    · simp [State.goto, hnt v b p' hv, hv]
  · exact ⟨by simp [State.goto, hn], .inl ⟨by simp, hp, _, hn⟩⟩

theorem Inv.pop {s : State T} {q : Waiters} (h : Inv s q) {t : T} {a : Addr} {next : Word}
    (hpc : s.pc t = .popHead s.head a next) :
    ∃ rest, q.stack = a :: rest ∧
      Inv ({ s with head := next ||| lockedBit, log := (t, .pop a) :: s.log }.goto t
        (.takeWaker a)) ⟨rest, a :: q.popped⟩ := by
  have hplace := h.place t
  rw [hpc] at hplace
  obtain ⟨hf, -, hptr, w, hw⟩ := hplace
  obtain ⟨n, rest, hstack, hn, hrest⟩ := (hptr ▸ h.chain).top
  obtain rfl : n = ⟨next, w⟩ := Option.some.inj (hn.symm.trans hw)
  have hmem : a ∈ q.stack := by simp [hstack]
  obtain ⟨u₀, p₀, x, hu₀, hp₀, hx⟩ := h.sleeps hmem
  have hd := h.distinct
  rw [hstack, List.cons_append, List.nodup_cons] at hd
  have hnt : ∀ u b p', s.pc u = .park b p' → u ≠ t := by
    rintro u b p' hu rfl
    simp [hpc] at hu
  refine ⟨rest, hstack, h.of_step rfl ?_ ?_ ?_ (fun b hb => ?_) ?_ (by simp [Pc.holds, hpc])
    (by simp [Pc.node?]) (by simp [Pc.parker?]) (fun b hb => ?_) (fun u hut => ?_) ?_⟩
  · simp [State.goto, Waiters.replay, h.replay, Waiters.after, hstack]
  · simpa [State.goto, hrest.untagged] using hrest
  · simpa [List.nodup_middle] using hd
  · have hb' : b ∈ q.stack ++ q.popped := by
      simp [hstack] at hb ⊢
      tauto
    obtain ⟨u, p', hu⟩ := h.waiting b hb'
    exact ⟨u, p', by simp [State.goto, hnt u b p' hu, hu]⟩
  · simp [State.goto, Pc.holds]
  · simp only [Pc.carries?, Option.some.injEq] at hb
    subst hb
    exact .inr fun hpop => hd.1 (by simp [hpop])
  · by_cases hua : (s.pc u).node? = some a
    · obtain ⟨p, hu⟩ := h.owner (by simp [hmem]) hua
      obtain rfl := h.nodes u u₀ a hua (by rw [hu₀]; rfl)
      obtain ⟨-, rfl⟩ : a = a ∧ p₀ = p := by simpa using hu₀.symm.trans hu
      rw [hu]
      exact ⟨by simp [State.goto, hx], .inr (.inl ⟨by simp, hp₀⟩)⟩
    · have hne : ∀ b, (s.pc u).node? = some b → b ≠ a := fun b hb hba => hua (hba ▸ hb)
      refine (h.place u).frame h.distinct ⟨fun _ _ hlive => hlive, fun _ _ _ => rfl, fun b hb => ?_,
        fun b hb => ?_, fun _ _ => rfl, fun hpop => ?_,
        fun b hb => ⟨by simp [(h.place u).carried hb], rfl⟩, fun v b p' _ hv => ?_⟩
      · simp [hstack, hne b hb]
      · simp [hne b hb]
      · exact absurd (h.alone u t (Pc.holds_of_popping hpop) (by rw [hpc]; rfl)) hut
      · simp [State.goto, hnt v b p' hv, hv]
  · exact ⟨by simp, u₀, p₀, x, by simp [State.goto, hnt u₀ a p₀ hu₀, hu₀], hx⟩

theorem Inv.takeWaker {s : State T} {q : Waiters} (h : Inv s q) {t : T} {a : Addr}
    (hpc : s.pc t = .takeWaker a) :
    ∃ n w, s.node a = some n ∧ n.waker = some w ∧
      Inv ({ s with node := Function.update s.node a (some { n with waker := none }) }.goto t
        (.clear a w)) q := by
  have hplace := h.place t
  rw [hpc] at hplace
  obtain ⟨hpop, u₀, p₀, x, hu₀, hx⟩ := hplace
  refine ⟨_, _, hx, rfl, ?_⟩
  have hout : ∀ b ∈ q.stack, b ≠ a := fun b hb hba =>
    List.disjoint_of_nodup_append h.distinct hb (hba ▸ hpop)
  have hnt : ∀ u b p', s.pc u = .park b p' → u ≠ t := by
    rintro u b p' hu rfl
    simp [hpc] at hu
  refine h.of_step rfl h.replay ?_ h.distinct (fun b hb => ?_) ?_ (by simp [Pc.holds, hpc])
    (by simp [Pc.node?]) (by simp [Pc.parker?]) (by simp [Pc.carries?, hpc]) (fun u hut => ?_) ?_
  · refine h.chain.congr fun b hb => ?_
    simp [State.goto, hout b hb]
  · obtain ⟨u, p', hu⟩ := h.waiting b hb
    exact ⟨u, p', by simp [State.goto, hnt u b p' hu, hu]⟩
  · have hf : getFlag s.head := h.flag.mpr ⟨t, by rw [hpc]; rfl⟩
    simp [State.goto, Pc.holds, hf]
  · refine (h.place u).frame h.distinct ⟨fun b hb hlive => ?_, fun b hb hnot => ?_, fun _ _ => Iff.rfl,
      fun _ _ => Iff.rfl, fun _ _ => rfl, fun hpopping => ?_, fun b hb => ?_, fun v b p' _ hv => ?_⟩
    · by_cases hba : b = a
      · simp [State.goto, hba]
      · simpa [State.goto, hba] using hlive
    · have hba : b ≠ a := by
        rintro rfl
        obtain ⟨p, hu⟩ := h.owner (by simp [hpop]) hb
        exact hnot p hu hpop
      simp [State.goto, hba]
    · exact absurd (h.alone u t (Pc.holds_of_popping hpopping) (by rw [hpc]; rfl)) hut
    · have hba : b ≠ a := by
        rintro rfl
        exact hut (h.carriers u t b hb (by rw [hpc]; rfl))
      exact ⟨(h.place u).carried hb, by simp [State.goto, hba]⟩
    · simp [State.goto, hnt v b p' hv, hv]
  · exact ⟨hpop, u₀, p₀, by simp [State.goto, hnt u₀ a p₀ hu₀, hu₀], rfl⟩

theorem Inv.wake {s : State T} {q : Waiters} (h : Inv s q) {t : T} {a : Addr} {w : Waker T}
    (hpc : s.pc t = .wake a w) :
    ∃ u p, s.pc u = .park a p ∧ w = wakerOf p u ∧ (s.parker p).isSome ∧
      Inv ({ s with
          parker := Function.update s.parker p (some true)
          log := (t, .wake a) :: s.log }.goto t .unpark) ⟨q.stack, q.popped.erase a⟩ := by
  have hplace := h.place t
  rw [hpc] at hplace
  obtain ⟨hpop, u₀, p₀, hu₀, hw⟩ := hplace
  have hlive := (h.place u₀).parker_live (p := p₀) (by rw [hu₀]; rfl)
  refine ⟨u₀, p₀, hu₀, hw, hlive, ?_⟩
  have hnt : ∀ u b p', s.pc u = .park b p' → u ≠ t := by
    rintro u b p' hu rfl
    simp [hpc] at hu
  have hd := List.nodup_append'.mp h.distinct
  refine h.of_step rfl ?_ h.chain ?_ (fun b hb => ?_) ?_ (by simp [Pc.holds]) (by simp [Pc.node?])
    (by simp [Pc.parker?]) (by simp [Pc.carries?]) (fun u hut => ?_) trivial
  · simp [State.goto, Waiters.replay, h.replay, Waiters.after, hpop]
  · refine List.nodup_append'.mpr ⟨hd.1, hd.2.1.erase a, fun b hs hp => ?_⟩
    exact hd.2.2 hs (List.mem_of_mem_erase hp)
  · have hb' : b ∈ q.stack ++ q.popped := by
      rcases List.mem_append.mp hb with hb | hb
      · simp [hb]
      · simp [List.mem_of_mem_erase hb]
    obtain ⟨u, p', hu⟩ := h.waiting b hb'
    exact ⟨u, p', by simp [State.goto, hnt u b p' hu, hu]⟩
  · simp [State.goto, Pc.holds, hpc]
  · by_cases hua : (s.pc u).node? = some a
    · obtain ⟨p, hu⟩ := h.owner (by simp [hpop]) hua
      obtain rfl := h.nodes u u₀ a hua (by rw [hu₀]; rfl)
      obtain ⟨-, rfl⟩ : a = a ∧ p₀ = p := by simpa using hu₀.symm.trans hu
      have hnode := (h.place u).node_live hua
      have hs : a ∉ q.stack := fun hs => hd.2.2 hs hpop
      rw [hu]
      refine ⟨hnode, .inr (.inr ⟨?_, by simp [State.goto]⟩)⟩
      simp [hs, hd.2.1.not_mem_erase]
    · have hne : ∀ b, (s.pc u).node? = some b → b ≠ a := fun b hb hba => hua (hba ▸ hb)
      refine (h.place u).frame h.distinct ⟨fun _ _ hlive => hlive, fun _ _ _ => rfl,
        fun _ _ => Iff.rfl, fun b hb => List.mem_erase_of_ne (hne b hb), fun p hp => ?_,
        fun _ b hb => ⟨hb, rfl⟩, fun b hb => ⟨?_, rfl⟩, fun v b p' _ hv => ?_⟩
      · have hpp : p ≠ p₀ := by
          rintro rfl
          obtain rfl := h.parkers u u₀ p hp (by rw [hu₀]; rfl)
          exact hua (by rw [hu₀]; rfl)
        simp [State.goto, hpp]
      · have hba : b ≠ a := by
          rintro rfl
          exact hut (h.carriers u t b hb (by rw [hpc]; rfl))
        exact (List.mem_erase_of_ne hba).mpr ((h.place u).carried hb)
      · simp [State.goto, hnt v b p' hv, hv]

end Colock.MiniLock
