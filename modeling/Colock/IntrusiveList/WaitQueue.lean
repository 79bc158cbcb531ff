import Colock.IntrusiveList.Scan
import Colock.Parking.Waker

/-! The list as a wait queue: each party keeps one node, with its waker in it, on its frame or in
its poller, and the queue is the entries on the one list. -/
namespace Colock.IntrusiveList
open Program Linked
variable {P : Type}

/-- The nodes of `node`; what was made with a waker by `made` was not pushed yet. Nothing lives at an
address from `fresh` on. -/
structure Keeps (d : Deques Nat Unit (Entry P)) (queue : List (Entry P)) (node : P → Option Nat)
    (made : P → Option (Waker P)) (fresh : Nat) : Prop where
  seq : d.seq () = queue.map Entry.id
  data : ∀ e ∈ queue, d.data e.id = some e
  live : ∀ p i, node p = some i → (d.cell i).isSome
  unused : ∀ p i w, node p = some i → made p = some w → d.cell i = some ⟨some ⟨i, p, w⟩, .unused⟩
  dead : ∀ i, fresh ≤ i → d.cell i = none

def Stores (m : Mem Nat Unit (Entry P)) (queue : List (Entry P)) (node : P → Option Nat)
    (made : P → Option (Waker P)) (fresh : Nat) : Prop :=
  ∃ d, Abstracts m d ∧ Keeps d queue node made fresh

variable {m : Mem Nat Unit (Entry P)} {queue : List (Entry P)} {node : P → Option Nat}
  {made : P → Option (Waker P)} {fresh : Nat} {d : Deques Nat Unit (Entry P)}

theorem stores_empty : Stores (Mem.empty : Mem Nat Unit (Entry P)) [] (fun _ => none)
    (fun _ => none) 0 :=
  ⟨Deques.empty, abstracts_empty, by constructor <;> simp [Deques.empty]⟩

theorem Stores.mono {made' : P → Option (Waker P)} (h : Stores m queue node made fresh)
    (hmade : ∀ p w, made' p = some w → made p = some w) : Stores m queue node made' fresh := by
  obtain ⟨d, habs, hkeeps⟩ := h
  exact ⟨d, habs, { hkeeps with unused := fun p i w hi hw => hkeeps.unused p i w hi (hmade p w hw) }⟩

theorem Keeps.nodup (h : Keeps d queue node made fresh) (habs : Abstracts m d) :
    (queue.map Entry.id).Nodup :=
  h.seq ▸ (habs.rep ()).nodup

theorem Keeps.flag (h : Keeps d queue node made fresh) (habs : Abstracts m d) {p : P} {i : Nat}
    (hi : node p = some i) :
    m.live i ∧ ((m.node i).isOnList = true ↔ i ∈ queue.map Entry.id) := by
  obtain ⟨c, hc⟩ := Option.isSome_iff_exists.mp (h.live p i hi)
  have hlive := (habs.cell i c hc).live
  refine ⟨hlive, ?_⟩
  rw [habs.represents.flag i hlive, ← h.seq]
  exact ⟨fun ⟨_, hmem⟩ => hmem, fun hmem => ⟨(), hmem⟩⟩

theorem Keeps.cell_queued (h : Keeps d queue node made fresh) {e : Entry P} (he : e ∈ queue) :
    ∃ c, d.cell e.id = some c := by
  have hdata := h.data e he
  cases hc : d.cell e.id with
  | none => simp [Deques.data, hc] at hdata
  | some c => exact ⟨c, rfl⟩

/-- The queue as the heap shows it: along the links from either end, with the number of nodes in
the header and the entries in the nodes. -/
structure Shows (m : Mem Nat Unit (Entry P)) (queue : List (Entry P)) : Prop where
  forward : ∀ n, queue.length ≤ n →
    follow (fun a => (m.node a).next) n (m.list ()).head = queue.map Entry.id
  backward : ∀ n, queue.length ≤ n →
    follow (fun a => (m.node a).prev) n (m.list ()).tail = (queue.map Entry.id).reverse
  count : (m.list ()).count = queue.length
  data : ∀ e ∈ queue, m.live e.id ∧ (m.node e.id).isOnList ∧ (m.node e.id).data = some e

theorem Stores.shows (h : Stores m queue node made fresh) : Shows m queue := by
  obtain ⟨d, habs, hkeeps⟩ := h
  have hreps := habs.represents
  have hlength : (d.seq ()).length = queue.length := by rw [hkeeps.seq, List.length_map]
  refine ⟨fun n hn => ?_, fun n hn => ?_, ?_, fun e he => ?_⟩
  · rw [hreps.forward () n (by omega), hkeeps.seq]
  · rw [hreps.backward () n (by omega), hkeeps.seq]
  · rw [hreps.count, hlength]
  · have hmem : e.id ∈ d.seq () := hkeeps.seq ▸ List.mem_map_of_mem he
    exact ⟨(habs.on hmem).live, (habs.on hmem).on, by rw [← (habs.data hmem).1, hkeeps.data e he]⟩

variable [DecidableEq P]

theorem Stores.make (h : Stores m queue node made fresh) (p : P) (w : Waker P) :
    Stores (m.alloc fresh (Node.new ⟨fresh, p, w⟩)) queue (Function.update node p (some fresh))
      (Function.update made p (some w)) (fresh + 1) := by
  obtain ⟨d, habs, hkeeps⟩ := h
  have hnone := hkeeps.dead fresh (Nat.le_refl _)
  refine ⟨_, habs.alloc (habs.dead fresh hnone) _, ?_⟩
  have hne : ∀ i, (d.cell i).isSome → i ≠ fresh := by
    rintro i hi rfl
    simp [hnone] at hi
  constructor
  · exact hkeeps.seq
  · intro e he
    obtain ⟨c, hc⟩ := hkeeps.cell_queued he
    simpa [Deques.data, Deques.setCell, hne e.id (by simp [hc])] using hkeeps.data e he
  · intro q i hi
    by_cases hq : q = p
    · obtain rfl : fresh = i := by simpa [hq] using hi
      simp
    · have hlive := hkeeps.live q i (by simpa [hq] using hi)
      simpa [Deques.setCell, hne i hlive] using hlive
  · intro q i v hi hv
    by_cases hq : q = p
    · subst q
      obtain rfl : fresh = i := by simpa using hi
      obtain rfl : w = v := by simpa using hv
      simp
    · have hi' : node q = some i := by simpa [hq] using hi
      simpa [Deques.setCell, hne i (hkeeps.live q i hi')] using
        hkeeps.unused q i v hi' (by simpa [hq] using hv)
  · intro i hi
    simpa [Deques.setCell, show i ≠ fresh by omega] using hkeeps.dead i (by omega)

theorem Stores.free (h : Stores m queue node made fresh) {p : P} {i : Nat} (hi : node p = some i)
    (hoff : i ∉ queue.map Entry.id) (hmine : ∀ q, node q = some i → q = p) :
    Stores (m.free i) queue (Function.update node p none) (Function.update made p none) fresh := by
  obtain ⟨d, habs, hkeeps⟩ := h
  refine ⟨_, habs.free fun l hl => hoff (hkeeps.seq ▸ hl), ?_⟩
  constructor
  · exact hkeeps.seq
  · intro e he
    have hne : e.id ≠ i := fun heq => hoff (heq ▸ List.mem_map_of_mem he)
    simpa [Deques.data, Deques.setCell, hne] using hkeeps.data e he
  · intro q j hj
    by_cases hq : q = p
    · simp [hq] at hj
    · have hj' : node q = some j := by simpa [hq] using hj
      have hne : j ≠ i := by
        rintro rfl
        exact hq (hmine q hj')
      simpa [Deques.setCell, hne] using hkeeps.live q j hj'
  · intro q j v hj hv
    by_cases hq : q = p
    · simp [hq] at hj
    · have hj' : node q = some j := by simpa [hq] using hj
      have hne : j ≠ i := by
        rintro rfl
        exact hq (hmine q hj')
      simpa [Deques.setCell, hne] using hkeeps.unused q j v hj' (by simpa [hq] using hv)
  · intro j hj
    by_cases hne : j = i
    · simp [hne]
    · simpa [Deques.setCell, hne] using hkeeps.dead j hj

omit [DecidableEq P] in
theorem Stores.count (h : Stores m queue node made fresh) : (m.list ()).count = queue.length := by
  obtain ⟨d, habs, hkeeps⟩ := h
  rw [(habs.rep ()).count, hkeeps.seq, List.length_map]

omit [DecidableEq P] in
theorem Stores.isOnList (h : Stores m queue node made fresh) {p : P} {i : Nat} (hi : node p = some i) :
    exec perform (load i (·.isOnList)) m = some (queue.any fun e => i == e.id, m) := by
  obtain ⟨d, habs, hkeeps⟩ := h
  obtain ⟨hlive, hflag⟩ := hkeeps.flag habs hi
  have heq : (m.node i).isOnList = queue.any fun e => i == e.id := by
    rw [Bool.eq_iff_iff, hflag, List.any_eq_true, List.mem_map]
    exact ⟨fun ⟨e, he, hid⟩ => ⟨e, he, by simp [hid]⟩,
      fun ⟨e, he, hid⟩ => ⟨e, he, (beq_iff_eq.mp hid).symm⟩⟩
  simp [hlive, heq]

theorem Stores.pushHead (h : Stores m queue node made fresh) (dbg : Bool) {p : P} {i : Nat}
    {w : Waker P} (hi : node p = some i) (hw : made p = some w) :
    ∃ m', exec perform (pushHead dbg () i) m = some (.ok (queue.length + 1), m') ∧
      Stores m' (⟨i, p, w⟩ :: queue) node (Function.update made p none) fresh := by
  obtain ⟨d, habs, hkeeps⟩ := h
  have hc := hkeeps.unused p i w hi hw
  obtain ⟨hexec, habs'⟩ := habs.pushAt hc dbg .head ()
  rw [hkeeps.seq, List.length_map] at hexec
  refine ⟨_, hexec, _, habs', ?_⟩
  have hfresh : Fresh m i := (habs.cell _ _ hc).place
  have hout : ∀ e ∈ queue, e.id ≠ i := by
    rintro e he rfl
    exact habs.off hfresh.off () (hkeeps.seq ▸ List.mem_map_of_mem he)
  constructor
  · simp [Deques.setSeq, insertAt, hkeeps.seq]
  · intro e he
    rcases List.mem_cons.mp he with rfl | he
    · simp [Deques.data, Deques.setSeq]
    · simpa [Deques.data, Deques.setSeq, Deques.setCell, hout e he] using hkeeps.data e he
  · intro q j hj
    by_cases hji : j = i
    · simp [Deques.setSeq, hji]
    · simpa [Deques.setSeq, Deques.setCell, hji] using hkeeps.live q j hj
  · intro q j v hj hv
    by_cases hq : q = p
    · simp [hq] at hv
    · have hcell := hkeeps.unused q j v hj (by simpa [hq] using hv)
      have hji : j ≠ i := by
        rintro rfl
        rw [hc] at hcell
        simp only [Option.some.injEq, Cell.mk.injEq, Entry.mk.injEq, and_true, true_and] at hcell
        exact hq hcell.1.symm
      simpa [Deques.setSeq, Deques.setCell, hji] using hcell
  · intro j hj
    have hji : j ≠ i := by
      rintro rfl
      simp [hkeeps.dead j hj] at hc
    simpa [Deques.setSeq, Deques.setCell, hji] using hkeeps.dead j hj

theorem not_mem_of_insertAt {α : Type} {e : End} {a : α} {xs : List α}
    (h : (insertAt e a xs).Nodup) : a ∉ xs := by
  cases e with
  | head => exact (List.nodup_cons.mp h).1
  | tail => exact fun ha => List.disjoint_of_nodup_append h ha List.mem_cons_self

omit [DecidableEq P] in
theorem Keeps.taken {d' : Deques Nat Unit (Entry P)} (h : Keeps d queue node made fresh)
    (habs : Abstracts m d) {x : Entry P} {rest : List (Entry P)} {v : Option (Entry P)}
    (hx : x ∈ queue) (hrest : ∀ e ∈ rest, e ∈ queue ∧ e.id ≠ x.id)
    (hseq : d'.seq () = rest.map Entry.id)
    (hcell : d'.cell = (d.setCell x.id (some ⟨v, .off⟩)).cell) :
    Keeps d' rest node made fresh := by
  obtain ⟨w, hc⟩ := habs.cell_on (l := ()) (h.seq ▸ List.mem_map_of_mem hx)
  constructor
  · exact hseq
  · intro e he
    obtain ⟨hmem, hne⟩ := hrest e he
    rw [Deques.data, hcell]
    simpa [Deques.data, Deques.setCell, hne] using h.data e hmem
  · intro q j hj
    rw [hcell]
    by_cases hji : j = x.id
    · simp [hji]
    · simpa [Deques.setCell, hji] using h.live q j hj
  · intro q j u hj hu
    have hunused := h.unused q j u hj hu
    have hji : j ≠ x.id := by
      rintro rfl
      simp [hc] at hunused
    rw [hcell]
    simpa [Deques.setCell, hji] using hunused
  · intro j hj
    have hji : j ≠ x.id := by
      rintro rfl
      simp [h.dead _ hj] at hc
    rw [hcell]
    simpa [Deques.setCell, hji] using h.dead j hj

omit [DecidableEq P] in
theorem Stores.popAt (h : Stores m queue node made fresh) (dbg : Bool) (e : End) {x : Entry P}
    {rest : List (Entry P)} (htake : queue = insertAt e x rest) :
    ∃ m', exec perform (popAt dbg e ()) m = some (some x, m') ∧ Stores m' rest node made fresh := by
  obtain ⟨d, habs, hkeeps⟩ := h
  have hx : x ∈ queue := by simp [htake]
  have hseq : d.seq () = insertAt e x.id (rest.map Entry.id) := by
    rw [hkeeps.seq, htake]
    cases e <;> simp [insertAt]
  obtain ⟨hexec, habs'⟩ := habs.popAt hseq dbg
  rw [hkeeps.data x hx] at hexec
  refine ⟨_, hexec, _, habs', hkeeps.taken habs hx (fun y hy => ?_) ?_ rfl⟩
  · have hnodup := hkeeps.nodup habs
    rw [← hkeeps.seq, hseq] at hnodup
    refine ⟨by simp [htake, hy], fun heq => not_mem_of_insertAt hnodup ?_⟩
    exact heq ▸ List.mem_map_of_mem hy
  · simp [Deques.setSeq]

omit [DecidableEq P] in
theorem Stores.popAt_nil (h : Stores m [] node made fresh) (dbg : Bool) (e : End) :
    exec perform (IntrusiveList.popAt dbg e ()) m = some (none, m) := by
  obtain ⟨d, habs, hkeeps⟩ := h
  have hrep : Rep e m () (oriented e []) := rep_oriented.mpr (by simpa [hkeeps.seq] using habs.rep ())
  have hnil : oriented e ([] : List Nat) = [] := List.eq_nil_of_length_eq_zero (by simp)
  rw [hnil] at hrep
  exact exec_popAt_nil dbg hrep

omit [DecidableEq P] in
theorem Stores.removeNode (h : Stores m queue node made fresh) (dbg : Bool) {p : P} {i : Nat}
    (hi : node p = some i) : ∃ m', exec perform (removeNode dbg () i) m = some ((), m') ∧
      Stores m' (queue.filter fun e => some i != some e.id) node made fresh := by
  obtain ⟨d, habs, hkeeps⟩ := h
  obtain ⟨hlive, hflag⟩ := hkeeps.flag habs hi
  by_cases hmem : i ∈ queue.map Entry.id
  · obtain ⟨x, hx, rfl⟩ := List.mem_map.mp hmem
    have hon : x.id ∈ d.seq () := hkeeps.seq ▸ hmem
    obtain ⟨v, hc⟩ := habs.cell_on hon
    obtain ⟨pre, post, hsplit, -⟩ := habs.split hon
    refine ⟨_, exec_removeNode dbg hsplit, _, habs.unlink hc hon,
      hkeeps.taken habs hx (fun e he => ?_) ?_ rfl⟩
    · simp only [List.mem_filter, bne_iff_ne, ne_eq, Option.some.injEq] at he
      exact ⟨he.1, Ne.symm he.2⟩
    · have hnodup := hkeeps.nodup habs
      simp only [Deques.remove, Deques.setSeq, if_true, hkeeps.seq, hnodup.erase_eq_filter,
        List.filter_map]
      congr 1
      refine List.filter_congr fun e _ => ?_
      simp [bne, eq_comm]
  · have hoff : (m.node i).isOnList = false := by simpa [hmem] using hflag
    refine ⟨m, exec_removeNode_off dbg hlive hoff, d, habs, ?_⟩
    have hall : (queue.filter fun e => some i != some e.id) = queue := by
      refine List.filter_eq_self.mpr fun e he => ?_
      have hne : e.id ≠ i := fun heq => hmem (heq ▸ List.mem_map_of_mem he)
      simp [Ne.symm hne]
    rwa [hall]

end Colock.IntrusiveList
