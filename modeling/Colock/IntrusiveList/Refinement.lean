import Colock.IntrusiveList.Deque

/-! The heap refines the deques: every operation that its contract allows runs without a
panic, returns what the deque operation returns and leaves a heap that represents the new
deques. -/
namespace Colock.IntrusiveList
open Program Linked
variable {A L D S R : Type}

structure Fits (m : Mem A L D) (d : Deques A L D) (a : A) (c : Cell L D) : Prop where
  live : m.live a
  data : (m.node a).data = c.data
  place : match c.place with
    | .unused => Fresh m a
    | .on l => a ∈ d.seq l ∧ c.data.isSome
    | .off => (m.node a).isOnList = false

/-- The heap represents the deques. -/
structure Abstracts (m : Mem A L D) (d : Deques A L D) : Prop where
  rep : ∀ l, Rep .head m l (d.seq l)
  dead : ∀ a, d.cell a = none → m.live a = false
  cell : ∀ a c, d.cell a = some c → Fits m d a c

structure Untouched (m m' : Mem A L D) (a : A) : Prop where
  live : m'.live a = m.live a
  data : (m'.node a).data = (m.node a).data
  on : (m'.node a).isOnList = (m.node a).isOnList
  off : (m.node a).isOnList = false → m'.node a = m.node a

theorem Untouched.of_eq {m m' : Mem A L D} {a : A} (hl : m'.live a = m.live a)
    (h : m'.node a = m.node a) : Untouched m m' a :=
  ⟨hl, by rw [h], by rw [h], fun _ => h⟩

theorem Untouched.trans {m m' m'' : Mem A L D} {a : A} (h : Untouched m m' a)
    (h' : Untouched m' m'' a) : Untouched m m'' a where
  live := h'.live.trans h.live
  data := h'.data.trans h.data
  on := h'.on.trans h.on
  off ha := (h'.off (h.on.trans ha)).trans (h.off ha)

theorem Fits.frame {m m' : Mem A L D} {d d' : Deques A L D} {a : A} {c : Cell L D}
    (h : Fits m d a c) (hm : Untouched m m' a) (hd : ∀ l, a ∈ d.seq l → a ∈ d'.seq l) :
    Fits m' d' a c where
  live := by rw [hm.live]; exact h.live
  data := by rw [hm.data]; exact h.data
  place := by
    have hplace := h.place
    cases hc : c.place with
    | unused =>
      simp only [hc] at hplace
      obtain ⟨hlive, hnext, hprev, hlist, hoff, hdata⟩ := hplace
      have hnode := hm.off hoff
      constructor <;> simpa [hnode, hm.live]
    | on l =>
      simp only [hc] at hplace
      exact ⟨hd l hplace.1, hplace.2⟩
    | off =>
      simp only [hc] at hplace
      exact hm.on.trans hplace

theorem Fits.on_or_off {m : Mem A L D} {d : Deques A L D} {a : A} {c : Cell L D} (h : Fits m d a c) :
    (∃ l, c.place = .on l ∧ a ∈ d.seq l ∧ c.data.isSome) ∨
      (c.place = .unused ∨ c.place = .off) ∧ (m.node a).isOnList = false := by
  have hplace := h.place
  cases hc : c.place with
  | unused =>
    simp only [hc] at hplace
    exact .inr ⟨.inl rfl, hplace.off⟩
  | on l =>
    simp only [hc] at hplace
    exact .inl ⟨l, rfl, hplace⟩
  | off =>
    simp only [hc] at hplace
    exact .inr ⟨.inr rfl, hplace⟩

theorem Abstracts.on {m : Mem A L D} {d : Deques A L D} (h : Abstracts m d) {a : A} {l : L}
    (ha : a ∈ d.seq l) : Member m l a := (h.rep l).member a ha

theorem Abstracts.off {m : Mem A L D} {d : Deques A L D} (h : Abstracts m d) {a : A}
    (ha : (m.node a).isOnList = false) (l : L) : a ∉ d.seq l := by
  intro hmem
  have hon := (h.on hmem).on
  simp [ha] at hon

theorem Abstracts.alone {m : Mem A L D} {d : Deques A L D} (h : Abstracts m d) {a : A} {l k : L}
    (hl : a ∈ d.seq l) (hk : a ∈ d.seq k) : k = l :=
  Option.some.inj ((h.on hk).list.symm.trans (h.on hl).list)

theorem Abstracts.data {m : Mem A L D} {d : Deques A L D} (h : Abstracts m d) {a : A} {l : L}
    (ha : a ∈ d.seq l) : d.data a = (m.node a).data ∧ (m.node a).data.isSome := by
  have hmember := h.on ha
  cases hc : d.cell a with
  | none =>
    have hlive := hmember.live
    simp [h.dead a hc] at hlive
  | some c =>
    have hfit := h.cell a c hc
    rcases hfit.on_or_off with ⟨k, -, -, hdata⟩ | ⟨-, hoff⟩
    · simp [Deques.data, hc, hfit.data, hdata]
    · have hon := hmember.on
      simp [hoff] at hon

theorem abstracts_empty : Abstracts (Mem.empty : Mem A L D) Deques.empty where
  rep l := by
    constructor <;> simp [Deques.empty, Mem.empty, ListHeader.new, ListHeader.at, End.other, Seg]
  dead a _ := rfl
  cell a c hc := by simp [Deques.empty] at hc

/-- The sequences read off the heap: by following `next` from the head, by following `prev`
from the tail, and by the flags. -/
structure Represents (m : Mem A L D) (d : Deques A L D) : Prop where
  distinct : ∀ l, (d.seq l).Nodup
  forward : ∀ l n, (d.seq l).length ≤ n →
    follow (fun a => (m.node a).next) n (m.list l).head = d.seq l
  backward : ∀ l n, (d.seq l).length ≤ n →
    follow (fun a => (m.node a).prev) n (m.list l).tail = (d.seq l).reverse
  count : ∀ l, (m.list l).count = (d.seq l).length
  flag : ∀ a, m.live a → ((m.node a).isOnList ↔ ∃ l, a ∈ d.seq l)
  member : ∀ l, ∀ a ∈ d.seq l, m.live a ∧ (m.node a).list = some l ∧ (m.node a).data.isSome

theorem Abstracts.represents {m : Mem A L D} {d : Deques A L D} (h : Abstracts m d) :
    Represents m d where
  distinct l := (h.rep l).nodup
  forward l n hn := by
    have hhead : (m.list l).head = (d.seq l).head? := (h.rep l).near
    rw [hhead]
    exact follow_seg (h.rep l).links hn
  backward l n hn := by
    have htail : (m.list l).tail = (d.seq l).reverse.head? := (h.rep l).flip.near
    rw [htail]
    exact follow_seg (h.rep l).flip.links (by simpa using hn)
  count l := (h.rep l).count
  flag a ha := by
    constructor
    · intro hon
      cases hc : d.cell a with
      | none => simp [h.dead a hc] at ha
      | some c =>
        rcases (h.cell a c hc).on_or_off with ⟨l, -, hmem, -⟩ | ⟨-, hoff⟩
        · exact ⟨l, hmem⟩
        · simp [hoff] at hon
    · rintro ⟨l, hmem⟩
      exact (h.on hmem).on
  member l a ha := ⟨(h.on ha).live, (h.on ha).list, (h.data ha).2⟩

/-- The rule for an operation on one node `a`: what it does to `a` and to the lists, and
that it leaves the other nodes alone. -/
theorem Abstracts.change {m m' : Mem A L D} {d d' : Deques A L D} (h : Abstracts m d) (a : A)
    (hrep : ∀ l, Rep .head m' l (d'.seq l)) (hm : ∀ b, b ≠ a → Untouched m m' b)
    (hcell : ∀ b, b ≠ a → d'.cell b = d.cell b)
    (hseq : ∀ b, b ≠ a → ∀ l, b ∈ d.seq l → b ∈ d'.seq l)
    (hdead : d'.cell a = none → m'.live a = false)
    (hfits : ∀ c, d'.cell a = some c → Fits m' d' a c) : Abstracts m' d' where
  rep := hrep
  dead b hb := by
    by_cases hba : b = a
    · exact hba ▸ hdead (hba ▸ hb)
    · exact (hm b hba).live.trans (h.dead b ((hcell b hba).symm.trans hb))
  cell b c hb := by
    by_cases hba : b = a
    · exact hba ▸ hfits c (hba ▸ hb)
    · exact (h.cell b c ((hcell b hba).symm.trans hb)).frame (hm b hba) (hseq b hba)

def oriented : End → List A → List A
  | .head, xs => xs
  | .tail, xs => xs.reverse

@[simp] theorem oriented_length (e : End) (xs : List A) : (oriented e xs).length = xs.length := by
  cases e <;> simp [oriented]

@[simp] theorem mem_oriented {e : End} {xs : List A} {a : A} : a ∈ oriented e xs ↔ a ∈ xs := by
  cases e <;> simp [oriented]

@[simp] theorem oriented_insertAt (e : End) (a : A) (xs : List A) :
    oriented e (insertAt e a xs) = a :: oriented e xs := by
  cases e <;> simp [oriented, insertAt]

theorem rep_oriented {e : End} {m : Mem A L D} {l : L} {xs : List A} :
    Rep e m l (oriented e xs) ↔ Rep .head m l xs := by
  cases e with
  | head => exact Iff.rfl
  | tail =>
    constructor <;> intro h
    · simpa [oriented, End.other] using h.flip
    · exact h.flip

@[simp] theorem mem_insertAt {e : End} {xs : List A} {a b : A} :
    b ∈ insertAt e a xs ↔ b = a ∨ b ∈ xs := by
  cases e <;> simp [insertAt, or_comm]

theorem takeAt_eq_some {e : End} {xs ys : List A} {x : A} (h : takeAt e xs = some (x, ys)) :
    xs = insertAt e x ys := by
  cases e with
  | head =>
    cases xs with
    | nil => simp [takeAt] at h
    | cons a as =>
      simp only [takeAt, Option.some.injEq, Prod.mk.injEq] at h
      obtain ⟨rfl, rfl⟩ := h
      rfl
  | tail =>
    simp only [takeAt, Option.map_eq_some_iff, Prod.mk.injEq] at h
    obtain ⟨a, ha, rfl, rfl⟩ := h
    exact (List.dropLast_append_getLast? a ha).symm

theorem takeAt_eq_none {e : End} {xs : List A} (h : takeAt e xs = none) : xs = [] := by
  cases e with
  | head =>
    cases xs with
    | nil => rfl
    | cons a as => simp [takeAt] at h
  | tail => simpa [takeAt] using h

variable [DecidableEq A]

theorem Abstracts.split {m : Mem A L D} {d : Deques A L D} (h : Abstracts m d) {a : A} {l : L}
    (ha : a ∈ d.seq l) : ∃ pre post, Rep .head m l (pre ++ a :: post) ∧
      (d.seq l).erase a = pre ++ post := by
  obtain ⟨pre, post, hsplit⟩ := List.append_of_mem ha
  have hrep := hsplit ▸ h.rep l
  exact ⟨pre, post, hrep, by simp [hsplit, List.erase_append_right _ hrep.apart.1]⟩

theorem untouched_setNode (m : Mem A L D) {a b : A} (f : Node A L D → Node A L D) (hb : b ≠ a) :
    Untouched m (m.setNode a f) b :=
  .of_eq rfl (by simp [Mem.setNode_node, hb])

theorem Abstracts.setData {m : Mem A L D} {d : Deques A L D} (h : Abstracts m d) {a : A}
    {c : Cell L D} (hc : d.cell a = some c) (v : D) :
    Abstracts (m.setNode a ({ · with data := some v })) (d.setCell a (some ⟨some v, c.place⟩)) := by
  have hfit := h.cell a c hc
  refine h.change a (fun l => (h.rep l).setData _) (fun b hb => untouched_setNode m _ hb)
    (fun b hb => by simp [Deques.setCell, hb]) (fun b _ l hbl => hbl)
    (fun hn => by simp [Deques.setCell] at hn) fun c' hc' => ?_
  simp only [Deques.setCell, ↓reduceIte, Option.some.injEq] at hc'
  subst hc'
  refine ⟨hfit.live, by simp [Mem.setNode_node], ?_⟩
  have hplace := hfit.place
  cases hp : c.place with
  | unused =>
    simp only [hp] at hplace
    obtain ⟨hlive, hnext, hprev, hlist, hoff, -⟩ := hplace
    exact ⟨hlive, by simpa [Mem.setNode_node], by simpa [Mem.setNode_node],
      by simpa [Mem.setNode_node], by simpa [Mem.setNode_node], by simp [Mem.setNode_node]⟩
  | on l =>
    simp only [hp] at hplace
    exact ⟨hplace.1, rfl⟩
  | off =>
    simp only [hp] at hplace
    simpa [Mem.setNode_node] using hplace

theorem Abstracts.free {m : Mem A L D} {d : Deques A L D} (h : Abstracts m d) {a : A}
    (ha : ∀ l, a ∉ d.seq l) : Abstracts (m.free a) (d.setCell a none) := by
  have hother : ∀ b, b ≠ a → Untouched m (m.free a) b :=
    fun b hb => .of_eq (by simp [Mem.free, hb]) rfl
  refine h.change a (fun l => ?_) hother (fun b hb => by simp [Deques.setCell, hb])
    (fun b _ l hbl => hbl) (fun _ => by simp [Mem.free]) fun c hc => by simp [Deques.setCell] at hc
  refine (h.rep l).frame rfl fun b hb => ?_
  have hba : b ≠ a := fun hba => ha l (hba ▸ hb)
  exact ⟨(hother b hba).live, fun _ => rfl, rfl, rfl⟩

theorem Abstracts.alloc {m : Mem A L D} {d : Deques A L D} (h : Abstracts m d) {a : A}
    (ha : m.live a = false) (v : D) :
    Abstracts (m.alloc a (Node.new v)) (d.setCell a (some ⟨some v, .unused⟩)) := by
  have hother : ∀ b, b ≠ a → Untouched m (m.alloc a (Node.new v)) b :=
    fun b hb => .of_eq (by simp [Mem.alloc, hb]) (by simp [Mem.alloc, hb])
  refine h.change a (fun l => ?_) hother (fun b hb => by simp [Deques.setCell, hb])
    (fun b _ l hbl => hbl) (fun hn => by simp [Deques.setCell] at hn) fun c hc => ?_
  · refine (h.rep l).frame rfl fun b hb => ?_
    have hba : b ≠ a := by
      rintro rfl
      simpa [ha] using (h.on hb).live
    have hnode : (m.alloc a (Node.new v)).node b = m.node b := by simp [Mem.alloc, hba]
    exact ⟨(hother b hba).live, by simp [hnode], by rw [hnode], by rw [hnode]⟩
  · simp only [Deques.setCell, ↓reduceIte, Option.some.injEq] at hc
    subst hc
    refine ⟨by simp [Mem.alloc], by simp [Mem.alloc, Node.new], ?_⟩
    constructor <;> simp [Mem.alloc, Node.new]

variable [DecidableEq L]

theorem untouched_link {m : Mem A L D} {e : End} {l : L} {a b : A} {xs : List A}
    (h : Rep e m l xs) (hb : b ≠ a) : Untouched m (m.link e l a) b := by
  have hoff : (m.node b).isOnList = false → (m.list l).at e ≠ some b := by
    intro hoff hat
    have hmem : b ∈ xs := List.mem_of_mem_head? (h.near.symm.trans hat)
    simp [(h.member b hmem).on] at hoff
  refine ⟨rfl, ?_, ?_, fun hb' => ?_⟩
  · rw [link_node hb]
    split <;> simp
  · rw [link_node hb]
    split <;> simp
  · rw [link_node hb, if_neg (hoff hb')]

theorem untouched_unlink {m : Mem A L D} {l : L} {pre post : List A} {x b : A}
    (h : Rep .head m l (pre ++ x :: post)) (hb : b ≠ x) : Untouched m (m.unlink l x) b := by
  obtain ⟨hp, hn⟩ := h.links_at
  refine ⟨rfl, rfl, by simp [Mem.unlink, hb], fun hoff => ?_⟩
  have hout : b ∉ pre ++ x :: post := by
    intro hmem
    simp [(h.member b hmem).on] at hoff
  have hbp : (m.node x).prev ≠ some b := by
    intro hbp
    exact hout (by simp [List.mem_of_mem_getLast? (hp.symm.trans hbp)])
  have hbn : (m.node x).next ≠ some b := by
    intro hbn
    exact hout (by simp [List.mem_of_mem_head? (hn.symm.trans hbn)])
  simp [Mem.unlink, hb, hbp, hbn]

theorem untouched_popped {m : Mem A L D} {e : End} {l : L} {x b : A} {xs : List A}
    (h : Rep e m l (x :: xs)) (hb : b ≠ x) : Untouched m (m.popped l x) b := by
  obtain ⟨pre, post, hsplit, -⟩ := h.split
  exact (untouched_unlink hsplit hb).trans (untouched_setNode _ _ hb)

theorem Abstracts.pushAt {m : Mem A L D} {d : Deques A L D} (h : Abstracts m d) {a : A} {v : D}
    (hc : d.cell a = some ⟨some v, .unused⟩) (dbg : Bool) (e : End) (l : L) :
    exec perform (pushAt dbg e l a) m =
        some (.ok ((d.seq l).length + 1), m.link e l a) ∧
      Abstracts (m.link e l a)
        ((d.setCell a (some ⟨some v, .on l⟩)).setSeq l (insertAt e a (d.seq l))) := by
  have hfit := h.cell a _ hc
  have hfresh : Fresh m a := hfit.place
  have hrep : Rep e m l (oriented e (d.seq l)) := rep_oriented.mpr (h.rep l)
  have hout : ∀ k, a ∉ d.seq k := h.off hfresh.off
  have hout' : a ∉ oriented e (d.seq l) := by simpa using hout l
  refine ⟨by simpa using exec_pushAt dbg hrep hfresh hout', ?_⟩
  refine h.change a (fun k => ?_) (fun b hb => untouched_link hrep hb)
    (fun b hb => by simp [Deques.setSeq, Deques.setCell, hb]) (fun b hb k hbk => ?_)
    (fun hn => by simp [Deques.setSeq, Deques.setCell] at hn) fun c' hc' => ?_
  · by_cases hk : k = l
    · subst hk
      have hlink := hrep.link hfresh hout'
      rw [← oriented_insertAt, rep_oriented] at hlink
      simpa [Deques.setSeq] using hlink
    · simpa [Deques.setSeq, Deques.setCell, hk] using hrep.link_frame (h.rep k) hk (hout k)
  · by_cases hk : k = l
    · simp [Deques.setSeq, hk, hk ▸ hbk]
    · simpa [Deques.setSeq, Deques.setCell, hk] using hbk
  · simp only [Deques.setSeq, Deques.setCell, ↓reduceIte, Option.some.injEq] at hc'
    subst hc'
    exact ⟨hfresh.live, by simpa [Mem.link] using hfit.data, by simp [Deques.setSeq]⟩

theorem Abstracts.takeOut {m m' : Mem A L D} {d : Deques A L D} (h : Abstracts m d) {a : A} {l : L}
    {xs : List A} {v : Option D} (hmem : a ∈ d.seq l) (hrep : Rep .head m' l xs)
    (hothers : ∀ k, k ≠ l → Rep .head m' k (d.seq k)) (hxs : ∀ b, b ≠ a → b ∈ d.seq l → b ∈ xs)
    (hm : ∀ b, b ≠ a → Untouched m m' b) (hlive : m'.live a = m.live a)
    (hv : (m'.node a).data = v) (hoff : (m'.node a).isOnList = false) :
    Abstracts m' ((d.setCell a (some ⟨v, .off⟩)).setSeq l xs) := by
  refine h.change a (fun k => ?_) hm (fun b hb => by simp [Deques.setSeq, Deques.setCell, hb])
    (fun b hb k hbk => ?_) (fun hn => by simp [Deques.setSeq, Deques.setCell] at hn) fun c' hc' => ?_
  · by_cases hk : k = l
    · subst hk
      simpa [Deques.setSeq] using hrep
    · simpa [Deques.setSeq, Deques.setCell, hk] using hothers k hk
  · by_cases hk : k = l
    · subst hk
      simpa [Deques.setSeq] using hxs b hb hbk
    · simpa [Deques.setSeq, Deques.setCell, hk] using hbk
  · simp only [Deques.setSeq, Deques.setCell, ↓reduceIte, Option.some.injEq] at hc'
    subst hc'
    exact ⟨hlive.trans (h.on hmem).live, hv, hoff⟩

theorem Abstracts.popAt {m : Mem A L D} {d : Deques A L D} (h : Abstracts m d) {e : End} {l : L}
    {x : A} {xs : List A} (hseq : d.seq l = insertAt e x xs) (dbg : Bool) :
    exec perform (popAt dbg e l) m = some (d.data x, m.popped l x) ∧
      Abstracts (m.popped l x) ((d.setCell x (some ⟨none, .off⟩)).setSeq l xs) := by
  have hrep : Rep e m l (x :: oriented e xs) := by
    rw [← oriented_insertAt, ← hseq]
    exact rep_oriented.mpr (h.rep l)
  have hmem : x ∈ d.seq l := by simp [hseq]
  obtain ⟨hdata, hsome⟩ := h.data hmem
  refine ⟨by rw [exec_popAt dbg hrep hsome, hdata], ?_⟩
  obtain ⟨pre, post, hsplit, -⟩ := hrep.split
  refine h.takeOut hmem (rep_oriented.mp hrep.popped) (fun k hk => ?_) (fun b hb hbl => ?_)
    (fun b hb => untouched_popped hrep hb) rfl (by simp [Mem.popped, Mem.setNode_node])
    (by simp [Mem.popped, Mem.setNode_node])
  · have hx : x ∉ d.seq k := fun hx => hk (h.alone hmem hx)
    exact (hsplit.unlink_frame (h.rep k) hk).setNode hx
  · simpa [hseq, hb] using hbl

theorem Abstracts.unlink {m : Mem A L D} {d : Deques A L D} (h : Abstracts m d) {a : A} {l : L}
    {c : Cell L D} (hc : d.cell a = some c) (ha : a ∈ d.seq l) :
    Abstracts (m.unlink l a) (d.remove l a c) := by
  obtain ⟨pre, post, hsplit, herase⟩ := h.split ha
  refine h.takeOut ha (herase ▸ hsplit.unlink) (fun k hk => hsplit.unlink_frame (h.rep k) hk)
    (fun b hb hbl => (List.mem_erase_of_ne hb).mpr hbl) (fun b hb => untouched_unlink hsplit hb)
    rfl (h.cell a c hc).data (by simp [Mem.unlink])

theorem exec_push {m : Mem A L D} {a : A} {l : L} {v v' : D} {s s' : S} {shouldPush : Bool} {r : R}
    {f : D → Nat → S → (Bool × R) × D × S} (listPush : L → A → Code A L D (Except Error Nat))
    (ha : m.live a) (hv : (m.node a).data = some v)
    (hf : f v (m.list l).count s = ((shouldPush, r), v', s')) :
    exec perform (Concurrent.push listPush l a f s) m =
      if shouldPush then
        (exec perform (listPush l a) (m.setNode a ({ · with data := some v' }))).bind
          fun q => some (((q.1, r), s'), q.2)
      else some (((.error .abortedPush, r), s'), m.setNode a ({ · with data := some v' })) := by
  have hget : exec perform (get (m.node a).data : Code A L D D) m = some (v, m) := by rw [hv]; rfl
  cases shouldPush with
  | true => simp [Concurrent.push, ha, hget, hf]
  | false => simp [Concurrent.push, ha, hget, hf]

theorem Abstracts.push {m : Mem A L D} {d d' : Deques A L D} (h : Abstracts m d) {e : End} {l : L}
    {a : A} {f : D → Nat → S → (Bool × R) × D × S} {s s' : S} {out : Out R} (dbg : Bool)
    (hd : d.push e l a f s = some (out, d', s')) :
    ∃ m' r x, exec perform (Concurrent.push (IntrusiveList.pushAt dbg e) l a f s) m =
        some (((r, x), s'), m') ∧ out = .pushed r x ∧ Abstracts m' d' := by
  simp only [Deques.push, Option.bind_eq_bind, Option.bind_eq_some_iff] at hd
  obtain ⟨c, hc, v, hv, hd⟩ := hd
  have hfit := h.cell a c hc
  rcases hf : f v (d.seq l).length s with ⟨⟨shouldPush, r⟩, v', s''⟩
  have hcount : (m.list l).count = (d.seq l).length := (h.rep l).count
  have hexec := exec_push (IntrusiveList.pushAt dbg e) hfit.live (hfit.data.trans hv) (hcount ▸ hf)
  have hset := h.setData hc v'
  rw [hf] at hd
  cases shouldPush with
  | false =>
    cases hp : c.place <;> simp only [hp, Option.some.injEq, Prod.mk.injEq, reduceCtorEq] at hd
    all_goals
      obtain ⟨rfl, rfl, rfl⟩ := hd
      exact ⟨_, _, _, hexec, rfl, hp ▸ hset⟩
  | true =>
    cases hp : c.place with
    | off => simp [hp] at hd
    | on k =>
      simp only [hp, Option.some.injEq, Prod.mk.injEq] at hd
      obtain ⟨rfl, rfl, rfl⟩ := hd
      have hplace := hfit.place
      simp only [hp] at hplace
      have hmember := hset.on (show a ∈ (d.setCell a _).seq k from hplace.1)
      rw [if_pos rfl, exec_pushAt_on dbg hmember.live hmember.on] at hexec
      exact ⟨_, _, _, hexec, rfl, hp ▸ hset⟩
    | unused =>
      simp only [hp, Option.some.injEq, Prod.mk.injEq] at hd
      obtain ⟨rfl, rfl, rfl⟩ := hd
      obtain ⟨hpush, hnew⟩ := hset.pushAt (by rw [Deques.setCell_self, hp]) dbg e l
      rw [if_pos rfl, hpush] at hexec
      rw [Deques.setCell_setCell] at hnew
      exact ⟨_, _, _, hexec, rfl, hnew⟩

theorem Abstracts.pop {m : Mem A L D} {d d' : Deques A L D} (h : Abstracts m d) {e : End} {l : L}
    {f : D → Nat → S → R × S} {onEmpty : S → S} {s s' : S} {out : Out R} (dbg : Bool)
    (hd : d.pop e l f onEmpty s = some (out, d', s')) :
    ∃ m' r, exec perform (Concurrent.pop (IntrusiveList.popAt dbg e) l f onEmpty s) m =
        some ((r, s'), m') ∧ out = .popped r ∧ Abstracts m' d' := by
  cases ht : takeAt e (d.seq l) with
  | none =>
    simp only [Deques.pop, ht, Option.some.injEq, Prod.mk.injEq] at hd
    obtain ⟨rfl, rfl, rfl⟩ := hd
    have hrep : Rep e m l [] := by
      have hseq := takeAt_eq_none ht
      cases e <;> exact rep_oriented.mpr (hseq ▸ h.rep l)
    exact ⟨m, none, by simp [Concurrent.pop, exec_popAt_nil dbg hrep], rfl, h⟩
  | some q =>
    obtain ⟨x, xs⟩ := q
    have hseq := takeAt_eq_some ht
    simp only [Deques.pop, ht, Option.bind_eq_bind, Option.bind_eq_some_iff] at hd
    obtain ⟨v, hv, hd⟩ := hd
    obtain ⟨hpop, hnew⟩ := h.popAt hseq dbg
    have hcount : ((m.popped l x).list l).count = xs.length := by
      simpa [Deques.setSeq] using (hnew.rep l).count
    rcases hf : f v xs.length s with ⟨r, s''⟩
    simp only [hf, Option.pure_def, Option.some.injEq, Prod.mk.injEq] at hd
    obtain ⟨rfl, rfl, rfl⟩ := hd
    refine ⟨m.popped l x, some (r, xs.length), ?_, rfl, hnew⟩
    simp [Concurrent.pop, hpop, hv, hcount, hf]

theorem clear_nil {d : Deques A L D} {l : L} (h : d.seq l = []) : d.clear l = d := by
  obtain ⟨seq, cell⟩ := d
  simp only at h
  simp only [Deques.clear, Deques.setSeq, h, List.not_mem_nil, ↓reduceIte, Deques.mk.injEq, and_true]
  funext k
  by_cases hk : k = l <;> simp [hk, h]

theorem clear_pop {d : Deques A L D} {l : L} {x : A} {xs : List A} (h : d.seq l = xs ++ [x]) :
    ((d.setCell x (some ⟨none, .off⟩)).setSeq l xs).clear l = d.clear l := by
  simp only [Deques.clear, Deques.setSeq, Deques.setCell, ↓reduceIte, h, List.mem_append,
    List.mem_singleton, Deques.mk.injEq]
  constructor
  · funext k
    by_cases hk : k = l <;> simp [hk]
  · funext a
    by_cases ha : a ∈ xs <;> by_cases hx : a = x <;> simp [ha, hx]

theorem Abstracts.popWhile {m : Mem A L D} {d : Deques A L D} (h : Abstracts m d) {l : L}
    {fuel : Nat} (hfuel : (d.seq l).length < fuel) (f : D → Nat → S → S) (s : S) (dbg : Bool) :
    ∃ m', exec perform (Concurrent.popWhile dbg l f fuel s) m =
        some (drain f ((d.seq l).reverse.filterMap d.data) s, m') ∧ Abstracts m' (d.clear l) := by
  induction fuel generalizing m d s with
  | zero => omega
  | succ fuel ih =>
    rcases (d.seq l).eq_nil_or_concat with hnil | ⟨xs, x, hcons⟩
    · have hrep : Rep .tail m l [] := rep_oriented.mpr (hnil ▸ h.rep l)
      refine ⟨m, ?_, by rwa [clear_nil hnil]⟩
      simp [Concurrent.popWhile, IntrusiveList.popTail, exec_popAt_nil dbg hrep, hnil, drain]
    · rw [List.concat_eq_append] at hcons
      obtain ⟨hpop, hnew⟩ := h.popAt (e := .tail) hcons dbg
      obtain ⟨v, hv⟩ : ∃ v, d.data x = some v := by
        obtain ⟨hdata, hsome⟩ := h.data (show x ∈ d.seq l by simp [hcons])
        exact Option.isSome_iff_exists.mp (hdata ▸ hsome)
      have hseq : ((d.setCell x (some ⟨none, .off⟩)).setSeq l xs).seq l = xs := by
        simp [Deques.setSeq]
      have hcount : ((m.popped l x).list l).count = xs.length := by
        simpa [hseq] using (hnew.rep l).count
      have hx : x ∉ xs := by
        have hd := (h.rep l).nodup
        simp only [hcons, List.nodup_append', List.disjoint_singleton] at hd
        exact hd.2.2
      have hdata : xs.reverse.filterMap ((d.setCell x (some ⟨none, .off⟩)).setSeq l xs).data =
          xs.reverse.filterMap d.data := by
        refine List.filterMap_congr fun a ha => ?_
        have hax : a ≠ x := fun hax => hx (by simpa [hax] using ha)
        simp [Deques.data, Deques.setSeq, Deques.setCell, hax]
      have hlen : (xs.filterMap d.data).length = xs.length := by
        refine List.filterMap_length_eq_length.mpr fun a ha => ?_
        have hmem : a ∈ d.seq l := by simp [hcons, ha]
        rw [(h.data hmem).1]
        exact (h.data hmem).2
      obtain ⟨m', hexec, hclear⟩ := ih hnew (by rw [hseq]; simp [hcons] at hfuel; omega)
        (f v xs.length s)
      rw [hseq, hdata] at hexec
      rw [clear_pop hcons] at hclear
      refine ⟨m', ?_, hclear⟩
      simp [Concurrent.popWhile, IntrusiveList.popTail, hpop, hv, hcount, hexec, hcons, drain, hlen]

theorem Abstracts.perform {m : Mem A L D} {d d' : Deques A L D} (h : Abstracts m d) {s s' : S}
    {op : Op A L D S R} {out : Out R} (dbg : Bool) (hd : d.perform s op = some (out, d', s')) :
    ∃ m', op.perform dbg m s = some (out, m', s') ∧ Abstracts m' d' := by
  cases op with
  | newNode a v =>
    simp only [Deques.perform] at hd
    cases hc : d.cell a with
    | some c => simp [hc] at hd
    | none =>
      simp only [hc, Option.some.injEq, Prod.mk.injEq] at hd
      obtain ⟨rfl, rfl, rfl⟩ := hd
      have hdead := h.dead a hc
      exact ⟨_, by simp [Op.perform, hdead], h.alloc hdead v⟩
  | pushHead l a f =>
    obtain ⟨m', r, x, hpush, rfl, hnew⟩ := h.push dbg hd
    have hexec : exec IntrusiveList.perform (Concurrent.pushHead dbg l a f s) m = some (((r, x), s'), m') := hpush
    exact ⟨m', by simp [Op.perform, hexec], hnew⟩
  | pushTail l a f =>
    obtain ⟨m', r, x, hpush, rfl, hnew⟩ := h.push dbg hd
    have hexec : exec IntrusiveList.perform (Concurrent.pushTail dbg l a f s) m = some (((r, x), s'), m') := hpush
    exact ⟨m', by simp [Op.perform, hexec], hnew⟩
  | popHead l f onEmpty =>
    obtain ⟨m', r, hpop, rfl, hnew⟩ := h.pop dbg hd
    have hexec : exec IntrusiveList.perform (Concurrent.popHead dbg l f onEmpty s) m = some ((r, s'), m') :=
      hpop
    exact ⟨m', by simp [Op.perform, hexec], hnew⟩
  | popTail l f onEmpty =>
    obtain ⟨m', r, hpop, rfl, hnew⟩ := h.pop dbg hd
    have hexec : exec IntrusiveList.perform (Concurrent.popTail dbg l f onEmpty s) m = some ((r, s'), m') :=
      hpop
    exact ⟨m', by simp [Op.perform, hexec], hnew⟩
  | popAll l f onEmpty =>
    simp only [Deques.perform, Deques.popAll, Option.some.injEq, Prod.mk.injEq] at hd
    obtain ⟨rfl, rfl, rfl⟩ := hd
    have hcount : (m.list l).count = (d.seq l).length := (h.rep l).count
    obtain ⟨m', hexec, hnew⟩ := h.popWhile (Nat.lt_succ_self (d.seq l).length) f s dbg
    exact ⟨m', by simp [Op.perform, Concurrent.popAll, hcount, hexec], hnew⟩
  | removeNode l a =>
    simp only [Deques.perform, Option.bind_eq_bind, Option.bind_eq_some_iff] at hd
    obtain ⟨c, hc, hd⟩ := hd
    have hfit := h.cell a c hc
    rcases hfit.on_or_off with ⟨k, hk, hmem, -⟩ | ⟨hk, hoff⟩
    · simp only [hk, Option.ite_none_right_eq_some, Option.some.injEq, Prod.mk.injEq] at hd
      obtain ⟨rfl, rfl, rfl, rfl⟩ := hd
      obtain ⟨pre, post, hsplit, -⟩ := h.split hmem
      exact ⟨_, by simp [Op.perform, exec_removeNode dbg hsplit], h.unlink hc hmem⟩
    · obtain ⟨rfl, rfl, rfl⟩ : Out.unit = out ∧ d = d' ∧ s = s' := by
        rcases hk with hk | hk <;> simpa [hk] using hd
      exact ⟨m, by simp [Op.perform, exec_removeNode_off dbg hfit.live hoff], h⟩
  | count l =>
    simp only [Deques.perform, Option.some.injEq, Prod.mk.injEq] at hd
    obtain ⟨rfl, rfl, rfl⟩ := hd
    have hcount : (m.list l).count = (d.seq l).length := (h.rep l).count
    exact ⟨m, by simp [Op.perform, Concurrent.count, hcount], h⟩
  | dropNode a =>
    simp only [Deques.perform, Option.bind_eq_bind, Option.bind_eq_some_iff] at hd
    obtain ⟨c, hc, hd⟩ := hd
    have hfit := h.cell a c hc
    rcases hfit.on_or_off with ⟨k, hk, hmem, -⟩ | ⟨hk, hoff⟩
    · simp only [hk, Option.some.injEq, Prod.mk.injEq] at hd
      obtain ⟨rfl, rfl, rfl⟩ := hd
      obtain ⟨pre, post, hsplit, -⟩ := h.split hmem
      have hnew := h.unlink hc hmem
      exact ⟨_, by simp [Op.perform, exec_dropNode dbg hsplit],
        hnew.free (hnew.off (by simp [Mem.unlink]))⟩
    · obtain ⟨rfl, rfl, rfl⟩ : Out.unit = out ∧ d.setCell a none = d' ∧ s = s' := by
        rcases hk with hk | hk <;> simpa [hk] using hd
      exact ⟨_, by simp [Op.perform, exec_dropNode_off dbg hfit.live hoff], h.free (h.off hoff)⟩

theorem Abstracts.run {m : Mem A L D} {d d' : Deques A L D} (h : Abstracts m d) {s s' : S}
    {ops : List (Op A L D S R)} {outs : List (Out R)} (dbg : Bool)
    (hd : d.run ops s = some (outs, d', s')) :
    ∃ m', IntrusiveList.run dbg ops m s = some (outs, m', s') ∧ Abstracts m' d' := by
  induction ops generalizing m d s outs with
  | nil =>
    simp only [Deques.run, Option.some.injEq, Prod.mk.injEq] at hd
    obtain ⟨rfl, rfl, rfl⟩ := hd
    exact ⟨m, rfl, h⟩
  | cons op ops ih =>
    simp only [Deques.run, Option.bind_eq_bind, Option.bind_eq_some_iff] at hd
    obtain ⟨⟨out, d₁, s₁⟩, hop, ⟨outs', r⟩, hrest, hd⟩ := hd
    simp only [Option.pure_def, Option.some.injEq, Prod.mk.injEq] at hd
    obtain ⟨rfl, rfl⟩ := hd
    obtain ⟨m₁, hexec, hnew⟩ := h.perform dbg hop
    obtain ⟨m', hrun, hend⟩ := ih hnew hrest
    exact ⟨m', by simp [IntrusiveList.run, hexec, hrun], hend⟩

/-- The intrusive list refines a double-ended queue: whatever the deques do along a run
that keeps to the contract, the heap does the same, with the same answers, without a
panic and without touching an address that holds no node. A linked node is refused. -/
theorem refines_deque (dbg : Bool) (ops : List (Op A L D S R)) (s s' : S) (outs : List (Out R))
    (d : Deques A L D) (h : Deques.empty.run ops s = some (outs, d, s')) :
    ∃ m, run dbg ops Mem.empty s = some (outs, m, s') ∧ Represents m d ∧
      ∀ l k a, a ∈ d.seq k → exec perform (pushHead dbg l a) m = some (.error .dirtyNode, m) ∧
        exec perform (pushTail dbg l a) m = some (.error .dirtyNode, m) := by
  obtain ⟨m, hrun, habs⟩ := abstracts_empty.run dbg h
  refine ⟨m, hrun, habs.represents, fun l k a ha => ?_⟩
  have hmember := habs.on ha
  exact ⟨exec_pushAt_on dbg hmember.live hmember.on, exec_pushAt_on dbg hmember.live hmember.on⟩

def sampleOps : List (Op Nat Nat Nat Nat Nat) :=
  let push : Nat → Nat → Nat → (Bool × Nat) × Nat × Nat := fun v n s => ((true, n), v, s)
  let pop : Nat → Nat → Nat → Nat × Nat := fun v _ s => (v, s + v)
  [.newNode 1 10, .newNode 2 20, .newNode 3 30, .pushHead 0 1 push, .pushTail 0 2 push,
    .pushTail 0 2 push, .pushHead 0 3 push, .removeNode 0 1, .dropNode 3, .popTail 0 pop id,
    .dropNode 1, .newNode 1 11, .pushHead 0 1 push, .popAll 0 (fun v n s => s + v + n) id]

theorem refines_deque_sample : ∃ outs d s', Deques.empty.run sampleOps 0 = some (outs, d, s') ∧
    ∃ m, run true sampleOps Mem.empty 0 = some (outs, m, s') ∧ Represents m d ∧
      ∀ l k a, a ∈ d.seq k → exec perform (pushHead true l a) m = some (.error .dirtyNode, m) ∧
        exec perform (pushTail true l a) m = some (.error .dirtyNode, m) :=
  ⟨_, _, _, rfl, refines_deque true sampleOps 0 _ _ _ rfl⟩

end Colock.IntrusiveList
