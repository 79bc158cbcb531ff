import Colock.IntrusiveList.Scan
import Colock.Lib.Monitor
import Colock.MiniLock.LotsAndLots

/-! `ConcurrentIntrusiveList`: threads that call its methods at the same time, each access to a node
and each step of the `MiniLock` on its own. Every method takes effect at once, as on a deque. -/
namespace Colock.IntrusiveList
open Program Prog Transition LockImpl Serial Monitor
variable {A L D S R : Type} [DecidableEq A] [DecidableEq L]

/-- The methods of the list, and `remove_node` inside `with_lock`, with the closures they are
passed; the closures share the state `S`. -/
inductive Method (A D S R : Type)
  | pushHead (a : A) (criticalCondition : D → Nat → S → (Bool × R) × D × S)
  | pushTail (a : A) (criticalCondition : D → Nat → S → (Bool × R) × D × S)
  | popHead (criticalCondition : D → Nat → S → R × S) (criticalOnEmpty : S → S)
  | popTail (criticalCondition : D → Nat → S → R × S) (criticalOnEmpty : S → S)
  | popAll (criticalCondition : D → Nat → S → S) (criticalOnEmpty : S → S)
  | scan (f : Visitor D S) (onEmpty : S → S)
  | removeNode (a : A)
  | count

namespace Method

def code (dbg : Bool) (l : L) : Method A D S R → S → Code A L D (Out R × S)
  | .pushHead a f, s => do
    let ((r, x), s') ← Concurrent.pushHead dbg l a f s
    return (.pushed r x, s')
  | .pushTail a f, s => do
    let ((r, x), s') ← Concurrent.pushTail dbg l a f s
    return (.pushed r x, s')
  | .popHead f onEmpty, s => do
    let (r, s') ← Concurrent.popHead dbg l f onEmpty s
    return (.popped r, s')
  | .popTail f onEmpty, s => do
    let (r, s') ← Concurrent.popTail dbg l f onEmpty s
    return (.popped r, s')
  | .popAll f onEmpty, s => do
    let (n, s') ← Concurrent.popAll dbg l f onEmpty s
    return (.count n, s')
  | .scan f onEmpty, s => do
    let (n, s') ← Concurrent.scan dbg l f onEmpty s
    return (.count n, s')
  | .removeNode a, s => do
    IntrusiveList.removeNode dbg l a
    return (.unit, s)
  | .count, s => do
    let n ← Concurrent.count l
    return (.count n, s)

def pushes : Method A D S R → Option A
  | .pushHead a _ | .pushTail a _ => some a
  | _ => none

def removes : Method A D S R → Option A
  | .removeNode a => some a
  | _ => none

end Method

namespace Deques

def contents (d : Deques A L D) (l : L) : List (A × D) :=
  (d.seq l).filterMap fun a => (d.data a).map fun v => (a, v)

def scan (d : Deques A L D) (l : L) (f : Visitor D S) (onEmpty : S → S) (s : S) :
    Out R × Deques A L D × S :=
  let visits := scanVisits f (d.contents l) 0 s
  let d' := visits.1.foldl (Deques.visit · l) d
  (.count (d'.seq l).length, d', if (d.seq l).isEmpty then onEmpty s else visits.2)

/-- The method on the deque `l`: `none` when its contract does not allow it. -/
def call (l : L) (d : Deques A L D) (s : S) : Method A D S R → Option (Out R × Deques A L D × S)
  | .pushHead a f => d.perform s (.pushHead l a f)
  | .pushTail a f => d.perform s (.pushTail l a f)
  | .popHead f onEmpty => d.perform s (.popHead l f onEmpty)
  | .popTail f onEmpty => d.perform s (.popTail l f onEmpty)
  | .popAll f onEmpty => d.perform s (.popAll l f onEmpty)
  | .scan f onEmpty => some (d.scan l f onEmpty s)
  | .removeNode a => d.perform s (.removeNode l a)
  | .count => d.perform s (.count l)

end Deques

omit [DecidableEq A] [DecidableEq L] in
theorem Abstracts.contents {m : Mem A L D} {d : Deques A L D} (h : Abstracts m d) (l : L) :
    m.contents (d.seq l) = d.contents l := by
  refine List.filterMap_congr fun a ha => ?_
  rw [(h.data ha).1]

theorem Abstracts.call {m : Mem A L D} {d d' : Deques A L D} (h : Abstracts m d) {l : L} {s s' : S}
    {f : Method A D S R} {out : Out R} (dbg : Bool) (hd : d.call l s f = some (out, d', s')) :
    ∃ m', exec IntrusiveList.perform (f.code dbg l s) m = some ((out, s'), m') ∧ Abstracts m' d' := by
  cases f with
  | scan f onEmpty =>
    have hwf := h.wellFormed l
    obtain ⟨rest, hscanned⟩ := hwf.scanned f s
    obtain ⟨habs, -⟩ := h.visits [] hscanned.order
    have hexec : exec IntrusiveList.perform (Concurrent.scan dbg l f onEmpty s) m = _ :=
      exec_scan dbg hwf
    rw [h.contents l] at habs hexec
    simp only [Deques.call, Deques.scan, Option.some.injEq, Prod.mk.injEq] at hd
    obtain ⟨rfl, rfl, rfl⟩ := hd
    refine ⟨_, ?_, habs⟩
    simp [Method.code, hexec, (habs.rep l).count]
  | _ =>
    simp only [Deques.call] at hd
    obtain ⟨m', hperform, habs⟩ := h.perform dbg hd
    refine ⟨m', ?_, habs⟩
    simp only [Op.perform, Option.bind_eq_bind, Option.bind_eq_some_iff] at hperform
    obtain ⟨x, hexec, heq⟩ := hperform
    simp only [Option.pure_def, Option.some.injEq, Prod.mk.injEq] at heq
    simp [Method.code, hexec, heq]

/-- A node is left alone, or it was pushed or on the list and then is on it, or off, or where it
was. -/
def Changed (l : L) (pushed : Option A) (d d' : Deques A L D) : Prop :=
  ∀ b, d'.cell b = d.cell b ∨ (pushed = some b ∨ ∃ v, d.cell b = some ⟨v, .on l⟩) ∧
    ∃ c', d'.cell b = some c' ∧
      (c'.place = .on l ∨ c'.place = .off ∨ ∃ c, d.cell b = some c ∧ c'.place = c.place)

omit [DecidableEq L] in
theorem Changed.setCell {l : L} {pushed : Option A} {d d' : Deques A L D} {a : A} {c' : Cell L D}
    (hcell : d'.cell = (d.setCell a (some c')).cell)
    (ha : pushed = some a ∨ ∃ v, d.cell a = some ⟨v, .on l⟩)
    (hc : c'.place = .on l ∨ c'.place = .off ∨ ∃ c, d.cell a = some c ∧ c'.place = c.place) :
    Changed l pushed d d' := by
  intro b
  rw [hcell]
  by_cases hb : b = a
  · subst b
    exact .inr ⟨ha, c', by simp, hc⟩
  · exact .inl (by simp [Deques.setCell, hb])

theorem push_changed {l : L} {d d' : Deques A L D} {e : End} {a : A} {s s' : S} {out : Out R}
    {f : D → Nat → S → (Bool × R) × D × S} (hd : d.push e l a f s = some (out, d', s')) :
    Changed l (some a) d d' := by
  simp only [Deques.push, Option.bind_eq_bind, Option.bind_eq_some_iff] at hd
  obtain ⟨c, hc, v, -, hd⟩ := hd
  split at hd
  · cases hd
  · next hplace _ =>
    simp only [Option.some.injEq, Prod.mk.injEq] at hd
    obtain ⟨-, rfl, -⟩ := hd
    exact .setCell rfl (.inl rfl) (.inr (.inr ⟨c, hc, rfl⟩))
  · next k hplace _ =>
    simp only [Option.some.injEq, Prod.mk.injEq] at hd
    obtain ⟨-, rfl, -⟩ := hd
    exact .setCell rfl (.inl rfl) (.inr (.inr ⟨c, hc, hplace.symm⟩))
  · simp only [Option.some.injEq, Prod.mk.injEq] at hd
    obtain ⟨-, rfl, -⟩ := hd
    exact .setCell rfl (.inl rfl) (.inl rfl)

theorem pop_changed {l : L} {m : Mem A L D} {d d' : Deques A L D} (h : Abstracts m d) {e : End}
    {s s' : S} {out : Out R} {f : D → Nat → S → R × S} {onEmpty : S → S}
    (hd : d.pop e l f onEmpty s = some (out, d', s')) : Changed l none d d' := by
  unfold Deques.pop at hd
  split at hd
  · simp only [Option.some.injEq, Prod.mk.injEq] at hd
    obtain ⟨-, rfl, -⟩ := hd
    exact fun b => .inl rfl
  · next x xs htake =>
    simp only [Option.bind_eq_bind, Option.bind_eq_some_iff, Option.pure_def, Option.some.injEq,
      Prod.mk.injEq] at hd
    obtain ⟨v, -, -, rfl, -⟩ := hd
    have hx : x ∈ d.seq l := by rw [takeAt_eq_some htake]; simp
    exact .setCell rfl (.inr (h.cell_on hx)) (.inr (.inl rfl))

theorem visit_cell (d : Deques A L D) (l : L) (v : Visit A D) (b : A) :
    (d.visit l v).cell b =
      if b = v.node then some (if v.nodeAction = .retain then ⟨some v.after, .on l⟩ else ⟨none, .off⟩)
      else d.cell b := by
  cases hact : v.nodeAction <;> by_cases hb : b = v.node <;>
    simp [Deques.visit, hact, hb, Deques.setCell, Deques.setSeq]

theorem visits_cell (l : L) (visits : List (Visit A D)) (d : Deques A L D) (b : A) :
    (visits.foldl (Deques.visit · l) d).cell b = d.cell b ∨ b ∈ visits.map (·.node) ∧
      ∃ c', (visits.foldl (Deques.visit · l) d).cell b = some c' ∧
        (c'.place = .on l ∨ c'.place = .off) := by
  induction visits generalizing d with
  | nil => exact .inl rfl
  | cons v visits ih =>
    rcases ih (d.visit l v) with hsame | ⟨hmem, hc⟩
    · rw [List.foldl_cons, hsame, visit_cell]
      by_cases hb : b = v.node
      · refine .inr ⟨by simp [hb], _, if_pos hb, ?_⟩
        split
        · exact .inl rfl
        · exact .inr rfl
      · exact .inl (if_neg hb)
    · exact .inr ⟨List.mem_cons_of_mem _ hmem, hc⟩

theorem call_changed {l : L} {m : Mem A L D} {d d' : Deques A L D} (h : Abstracts m d) {s s' : S}
    {f : Method A D S R} {out : Out R} (hd : d.call l s f = some (out, d', s')) :
    Changed l f.pushes d d' := by
  cases f with
  | pushHead a f | pushTail a f => exact push_changed hd
  | popHead f onEmpty | popTail f onEmpty => exact pop_changed h hd
  | popAll f onEmpty =>
    simp only [Deques.call, Deques.perform, Deques.popAll, Option.some.injEq, Prod.mk.injEq] at hd
    obtain ⟨-, rfl, -⟩ := hd
    intro b
    by_cases hb : b ∈ d.seq l
    · exact .inr ⟨.inr (h.cell_on hb), _, if_pos hb, .inr (.inl rfl)⟩
    · exact .inl (if_neg hb)
  | scan f onEmpty =>
    simp only [Deques.call, Deques.scan, Option.some.injEq, Prod.mk.injEq] at hd
    obtain ⟨-, rfl, -⟩ := hd
    intro b
    rcases visits_cell l (scanVisits f (d.contents l) 0 s).1 d b with hsame | ⟨hmem, c', hc, hplace⟩
    · exact .inl hsame
    · obtain ⟨rest, hscanned⟩ := (h.wellFormed l).scanned f s
      have horder := hscanned.order
      rw [h.contents l] at horder
      have hb : b ∈ d.seq l := by
        rw [horder]
        exact List.mem_append_left _ hmem
      exact .inr ⟨.inr (h.cell_on hb), c', hc, hplace.imp_right .inl⟩
  | removeNode a =>
    simp only [Deques.call, Deques.perform, Option.bind_eq_bind, Option.bind_eq_some_iff] at hd
    obtain ⟨c, hc, hd⟩ := hd
    split at hd
    · next k hplace =>
      simp only [Option.ite_none_right_eq_some, Option.some.injEq, Prod.mk.injEq] at hd
      obtain ⟨rfl, -, rfl, -⟩ := hd
      have hon : d.cell a = some ⟨c.data, .on k⟩ := by rw [hc, ← hplace]
      exact .setCell rfl (.inr ⟨_, hon⟩) (.inr (.inl rfl))
    · simp only [Option.some.injEq, Prod.mk.injEq] at hd
      obtain ⟨-, rfl, -⟩ := hd
      exact fun b => .inl rfl
  | count =>
    simp only [Deques.call, Deques.perform, Option.some.injEq, Prod.mk.injEq] at hd
    obtain ⟨-, rfl, -⟩ := hd
    exact fun b => .inl rfl

variable {P : Type}

def Deques.calls (l : L) : List (P × Method A D S R) → Deques A L D → S →
    Option (List (P × Out R) × Deques A L D × S)
  | [], d, s => some ([], d, s)
  | (p, f) :: order, d, s => do
    let (out, d', s') ← d.call l s f
    let (outs, r) ← Deques.calls l order d' s'
    return ((p, out) :: outs, r)

abbrev heapCalls (dbg : Bool) (l : L) (order : List (P × Method A D S R))
    (w : Store P (Mem A L D) S (Out R)) : Option (Store P (Mem A L D) S (Out R)) :=
  Monitor.calls IntrusiveList.perform (Method.code dbg l) order w

theorem Abstracts.calls {m : Mem A L D} {d d' : Deques A L D} (h : Abstracts m d)
    {l : L} {s s' : S} {order : List (P × Method A D S R)} {outs : List (P × Out R)} (dbg : Bool)
    (answers : List (P × Out R)) (hd : d.calls l order s = some (outs, d', s')) :
    ∃ m', heapCalls dbg l order ⟨m, s, answers⟩ = some ⟨m', s', answers ++ outs⟩ ∧
      Abstracts m' d' := by
  induction order generalizing m d s outs answers with
  | nil =>
    simp only [Deques.calls, Option.some.injEq, Prod.mk.injEq] at hd
    obtain ⟨rfl, rfl, rfl⟩ := hd
    exact ⟨m, by simp [heapCalls, Monitor.calls], h⟩
  | cons e order ih =>
    obtain ⟨p, f⟩ := e
    simp only [Deques.calls, Option.bind_eq_bind, Option.bind_eq_some_iff] at hd
    obtain ⟨⟨out, d₁, s₁⟩, hcall, ⟨outs', r⟩, hrest, hd⟩ := hd
    simp only [Option.pure_def, Option.some.injEq, Prod.mk.injEq] at hd
    obtain ⟨rfl, rfl⟩ := hd
    obtain ⟨m₁, hexec, hnew⟩ := h.call dbg hcall
    obtain ⟨m', hcalls, hend⟩ := ih hnew (answers ++ [(p, out)]) hrest
    refine ⟨m', ?_, hend⟩
    simpa [heapCalls, Monitor.calls, hexec, Store.answer] using hcalls

/-- The nodes that the calls of `order` push are unused, each is pushed by one call only, and what
is removed is a node and not on another list. -/
structure Lent (l : L) (d : Deques A L D) (order : List (P × Method A D S R)) : Prop where
  unused : ∀ e ∈ order, ∀ a, e.2.pushes = some a → ∃ v, d.cell a = some ⟨some v, .unused⟩
  once : (order.filterMap (·.2.pushes)).Nodup
  known : ∀ e ∈ order, ∀ a, e.2.removes = some a → ∃ c, d.cell a = some c ∧
    ∀ k, c.place = .on k → k = l

theorem push_allowed {d : Deques A L D} {a : A} {v : D} {l : L}
    (hc : d.cell a = some ⟨some v, .unused⟩) (e : End) (f : D → Nat → S → (Bool × R) × D × S) (s : S) :
    (d.push e l a f s).isSome := by
  rcases hf : f v (d.seq l).length s with ⟨⟨b, r⟩, v', s'⟩
  cases b <;> simp [Deques.push, hc, hf]

theorem pop_allowed {m : Mem A L D} {d : Deques A L D} (h : Abstracts m d) (e : End) (l : L)
    (f : D → Nat → S → R × S) (onEmpty : S → S) (s : S) : (d.pop e l f onEmpty s).isSome := by
  unfold Deques.pop
  split
  · rfl
  · next x xs htake =>
    have hx : x ∈ d.seq l := by rw [takeAt_eq_some htake]; simp
    obtain ⟨hdata, hsome⟩ := h.data hx
    obtain ⟨v, hv⟩ := Option.isSome_iff_exists.mp hsome
    simp [hdata, hv]

theorem Lent.allowed {m : Mem A L D} {d : Deques A L D} (hm : Abstracts m d) {l : L} {p : P}
    {f : Method A D S R} {order : List (P × Method A D S R)} (h : Lent l d ((p, f) :: order)) (s : S) :
    (d.call l s f).isSome := by
  cases f with
  | pushHead a f | pushTail a f =>
    obtain ⟨v, hc⟩ := h.unused _ List.mem_cons_self a rfl
    exact push_allowed hc _ f s
  | popHead f onEmpty | popTail f onEmpty => exact pop_allowed hm _ l f onEmpty s
  | removeNode a =>
    obtain ⟨c, hc, hplace⟩ := h.known _ List.mem_cons_self a rfl
    simp only [Deques.call, Deques.perform, hc, Option.bind_eq_bind, Option.bind_some]
    split
    · next k hk => simp [hplace k hk]
    · rfl
  | popAll f onEmpty | scan f onEmpty | count => rfl

theorem Lent.later {m : Mem A L D} {d d' : Deques A L D} (hm : Abstracts m d) {l : L} {p : P}
    {s s' : S} {f : Method A D S R} {out : Out R} {order : List (P × Method A D S R)}
    (h : Lent l d ((p, f) :: order)) (hd : d.call l s f = some (out, d', s')) : Lent l d' order := by
  have hchanged := call_changed hm hd
  have honce := h.once
  refine ⟨fun e he a ha => ?_, ?_, fun e he a ha => ?_⟩
  · obtain ⟨v, hc⟩ := h.unused e (List.mem_cons_of_mem _ he) a ha
    rcases hchanged a with hsame | ⟨hpushed | ⟨w, hon⟩, -⟩
    · exact ⟨v, hsame.trans hc⟩
    · have hmem : a ∈ order.filterMap (·.2.pushes) := List.mem_filterMap.mpr ⟨e, he, ha⟩
      simp [hpushed, hmem] at honce
    · simp [hc] at hon
  · cases hp : f.pushes <;> simp_all
  · obtain ⟨c, hc, hplace⟩ := h.known e (List.mem_cons_of_mem _ he) a ha
    rcases hchanged a with hsame | ⟨-, c', hc', hnew⟩
    · exact ⟨c, hsame.trans hc, hplace⟩
    · refine ⟨c', hc', fun k hk => ?_⟩
      rcases hnew with hon | hoff | ⟨c₀, hc₀, hsame⟩
      · simpa [hk] using hon
      · simp [hk] at hoff
      · obtain rfl : c = c₀ := by simpa [hc] using hc₀
        exact hplace k (hsame ▸ hk)

theorem Lent.calls {m : Mem A L D} {d : Deques A L D} (hm : Abstracts m d) {l : L}
    {order : List (P × Method A D S R)} (h : Lent l d order) (s : S) :
    ∃ outs d' s', d.calls l order s = some (outs, d', s') := by
  induction order generalizing m d s with
  | nil => exact ⟨[], d, s, rfl⟩
  | cons e order ih =>
    obtain ⟨p, f⟩ := e
    obtain ⟨⟨out, d₁, s₁⟩, hcall⟩ := Option.isSome_iff_exists.mp (h.allowed hm s)
    obtain ⟨m₁, -, hnew⟩ := hm.call true hcall
    obtain ⟨outs, d', s', hcalls⟩ := ih hnew (h.later hm hcall) s₁
    exact ⟨(p, out) :: outs, d', s', by simp [Deques.calls, hcall, hcalls]⟩

/-! ### Parties at the same time -/

/-- The parties' programs: each node is unused, pushed by one party and once; what they remove is a
node and not on another list. -/
structure Promised (l : L) (d : Deques A L D) (ops : P → List (Method A D S R)) : Prop where
  unused : ∀ p, ∀ f ∈ ops p, ∀ a, f.pushes = some a → ∃ v, d.cell a = some ⟨some v, .unused⟩
  once : ∀ p, ((ops p).filterMap Method.pushes).Nodup
  own : ∀ p q, ∀ f ∈ ops p, ∀ g ∈ ops q, ∀ a, f.pushes = some a → g.pushes = some a → p = q
  known : ∀ p, ∀ f ∈ ops p, ∀ a, f.removes = some a → ∃ c, d.cell a = some c ∧
    ∀ k, c.place = .on k → k = l

variable [DecidableEq P]

/-- The calls of `order` are the first ones of each party, in the order of its program. -/
def KeepsTo {M : Type} (order : List (P × M)) (ops : P → List M) : Prop :=
  ∀ p, (order.filter (·.1 = p)).map Prod.snd <+: ops p

theorem KeepsTo.mem {M : Type} {order : List (P × M)} {ops : P → List M} (h : KeepsTo order ops)
    {e : P × M} (he : e ∈ order) : e.2 ∈ ops e.1 :=
  (h e.1).subset (List.mem_map.mpr ⟨e, List.mem_filter.mpr ⟨he, by simp⟩, rfl⟩)

omit [DecidableEq A] [DecidableEq L] in
theorem Promised.lent {l : L} {d : Deques A L D} {ops : P → List (Method A D S R)}
    (h : Promised l d ops) {order : List (P × Method A D S R)} (horder : KeepsTo order ops) :
    Lent l d order := by
  refine ⟨fun e he => h.unused e.1 e.2 (horder.mem he), ?_, fun e he => h.known e.1 e.2 (horder.mem he)⟩
  rw [List.Nodup, List.pairwise_filterMap, List.pairwise_iff_forall_sublist]
  rintro ⟨p, f⟩ ⟨q, g⟩ hsub a ha b hb rfl
  have hf := horder.mem (hsub.subset (List.mem_cons_self (l := [(q, g)])))
  have hg := horder.mem (hsub.subset (List.mem_cons_of_mem (p, f) List.mem_cons_self))
  obtain rfl : p = q := h.own p q f hf g hg a ha hb
  have hprogram : List.Sublist [f, g] (ops p) := by
    refine .trans ?_ (horder p).sublist
    simpa using (hsub.filter (fun e : P × Method A D S R => decide (e.1 = p))).map Prod.snd
  have htwice : List.Sublist [a, a] ((ops p).filterMap Method.pushes) := by
    simpa [ha, hb] using hprogram.filterMap Method.pushes
  exact List.nodup_iff_sublist.mp (h.once p) a htwice

/-- With nobody inside: the calls of `order` have been answered as on the deques, and the heap
represents what they leave. -/
def TookEffect (l : L) (d : Deques A L D) (s : S) (order : List (P × Method A D S R))
    (x : Jobs P (Option (Store P (Mem A L D) S (Out R))) × MiniLock.State P) : Prop :=
  ∃ m outs d' s', x.1.shared.value = some ⟨m, s', outs⟩ ∧
    d.calls l order s = some (outs, d', s') ∧ Represents m d'

omit [DecidableEq P] in
theorem took_effect {m : Mem A L D} {d : Deques A L D} (hm : Abstracts m d) (dbg : Bool) {l : L}
    {s : S} {order : List (P × Method A D S R)} (h : Lent l d order)
    {x : Jobs P (Option (Store P (Mem A L D) S (Out R))) × MiniLock.State P}
    (hx : x.1.shared.value = heapCalls dbg l order ⟨m, s, []⟩) : TookEffect l d s order x := by
  obtain ⟨outs, d', s', hd⟩ := h.calls hm s
  obtain ⟨m', hcalls, habs⟩ := hm.calls dbg [] hd
  exact ⟨m', outs, d', s', by rw [hx, hcalls]; rfl, hd, habs.represents⟩

/-- Parties that call the methods of one list in any interleaving of the accesses to its nodes and
of the steps of its `MiniLock`. No access fails; with nobody inside, the calls so far have taken
effect one by one as on a deque, and later calls come after them; and there are boundedly many steps
that change anything, after which all calls have been answered and the lock is free. -/
theorem methods_linearize [Fintype P] (dbg : Bool) (frames : Option P ↪ MiniLock.Addr)
    {m : Mem A L D} {d : Deques A L D} (hm : Abstracts m d) (l : L) (s : S)
    (ops : P → List (Method A D S R)) (hops : Promised l d ops) :
    let system := Jobs.client.over MiniLock.miniLock
    let start := (Jobs.start (some ⟨m, s, []⟩)
      (jobs IntrusiveList.perform (Method.code dbg l) ops), MiniLock.init)
    (∀ x, Reach system anyStep start x → x.1.shared.value.isSome ∧
      (x.1.lock = none → ∃ order, KeepsTo order ops ∧ TookEffect l d s order x ∧
        ∀ y, Reach system anyStep x y → y.1.lock = none →
          ∃ more, KeepsTo (order ++ more) ops ∧ TookEffect l d s (order ++ more) y)) ∧
    ∃ n, Ends system start n fun x => x.2.head = 0 ∧
      ∃ order, (∀ p, (order.filter (·.1 = p)).map Prod.snd = ops p) ∧ TookEffect l d s order x := by
  refine ⟨fun x hx => ⟨?_, fun hfree => ?_⟩, ?_⟩
  · refine never_stops _ _ (fun order horder => ?_) hx
    obtain ⟨outs, d', s', hd⟩ := (hops.lent horder).calls hm s
    obtain ⟨m', hcalls, -⟩ := hm.calls dbg [] hd
    exact Option.isSome_iff_exists.mpr ⟨_, hcalls⟩
  · obtain ⟨order, hseq, hlater⟩ := linearizes _ _ _ ops x hx hfree
    refine ⟨order, hseq.order, took_effect hm dbg (hops.lent hseq.order) hseq.value,
      fun y hy hfree' => ?_⟩
    obtain ⟨more, hmore⟩ := hlater y hy hfree'
    exact ⟨more, hmore.order, took_effect hm dbg (hops.lent hmore.order) hmore.value⟩
  · obtain ⟨n, hends⟩ := calls_end IntrusiveList.perform (Method.code dbg l)
      (MiniLock.miniLock_live frames) MiniLock.miniLockCosts.spends ⟨m, s, []⟩ ops
    refine ⟨n, hends.bound, fun x hr hstuck => ?_⟩
    obtain ⟨⟨order, hvalue, horder⟩, ⟨⟨q, hq⟩, halert⟩, hidle⟩ := hends.final x hr hstuck
    have hkeeps : KeepsTo order ops := fun p => by rw [horder p]
    exact ⟨hq.head_zero halert hidle, order, horder, took_effect hm dbg (hops.lent hkeeps) hvalue⟩

def pushThenPop (a : Nat) : List (Method Nat Nat Nat (Nat × Nat)) :=
  [.pushTail a fun v n s => ((true, (v, n)), v, s + 1),
    .popHead (fun v n s => ((v, n), s + v)) id, .removeNode a, .count]

theorem pushThenPop_own {a b : Nat} {f : Method Nat Nat Nat (Nat × Nat)} (hf : f ∈ pushThenPop a)
    (hb : f.pushes = some b ∨ f.removes = some b) : b = a := by
  simp only [pushThenPop, List.mem_cons, List.not_mem_nil, or_false] at hf
  rcases hf with rfl | rfl | rfl | rfl
  · simpa [Method.pushes, Method.removes, eq_comm] using hb
  · simp [Method.pushes, Method.removes] at hb
  · simpa [Method.pushes, Method.removes, eq_comm] using hb
  · simp [Method.pushes, Method.removes] at hb

theorem methods_linearize_two : ∃ (m : Mem Nat Nat Nat) (d : Deques Nat Nat Nat)
    (ops : Bool → List (Method Nat Nat Nat (Nat × Nat))), Abstracts m d ∧ Promised 0 d ops ∧
    ∃ ls x, Transition.run (Jobs.client.over MiniLock.miniLock)
      (Jobs.start (some ⟨m, 0, []⟩) (jobs perform (Method.code true 0) ops), MiniLock.init)
      ls = some x ∧ x.2.head = 0 ∧
      ∃ order, (∀ p, (order.filter (·.1 = p)).map Prod.snd = ops p) ∧ TookEffect 0 d 0 order x := by
  let nodes : List (Op Nat Nat Nat Nat (Nat × Nat)) := [.newNode 1 10, .newNode 2 20]
  let d : Deques Nat Nat Nat :=
    (Deques.empty.setCell 1 (some ⟨some 10, .unused⟩)).setCell 2 (some ⟨some 20, .unused⟩)
  let ops : Bool → List (Method Nat Nat Nat (Nat × Nat)) := fun p => pushThenPop (if p then 1 else 2)
  have hnodes : Deques.empty.run nodes 0 = some ([.unit, .unit], d, 0) := rfl
  obtain ⟨m, -, hm⟩ := abstracts_empty.run true hnodes
  have hcell : ∀ p : Bool, ∃ v, d.cell (if p then 1 else 2) = some ⟨some v, .unused⟩ := by
    intro p
    cases p <;> exact ⟨_, rfl⟩
  have hops : Promised 0 d ops := by
    refine ⟨fun p f hf a ha => ?_, fun p => ?_, fun p q f hf g hg a ha hb => ?_, fun p f hf a ha => ?_⟩
    · obtain rfl := pushThenPop_own hf (.inl ha)
      exact hcell p
    · cases p <;> decide
    · have heq := (pushThenPop_own hf (.inl ha)).symm.trans (pushThenPop_own hg (.inl hb))
      cases p <;> cases q <;> simp at heq <;> rfl
    · obtain rfl := pushThenPop_own hf (.inr ha)
      obtain ⟨v, hv⟩ := hcell p
      exact ⟨_, hv, by simp⟩
  obtain ⟨n, hends⟩ := (methods_linearize true MiniLock.twoFrames hm 0 0 ops hops).2
  obtain ⟨ls, x, hr, hfinal⟩ := hends.reaches [] _ trivial rfl
  exact ⟨m, d, ops, hm, hops, ls, x, hr, hfinal⟩

end Colock.IntrusiveList
