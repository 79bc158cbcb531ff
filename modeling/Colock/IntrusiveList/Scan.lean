import Colock.IntrusiveList.Refinement

/-! `scan` as a filter in place: the calls of its callback in order, the list it leaves and
what becomes of the nodes. -/
namespace Colock.IntrusiveList
open Program Prog Linked
variable {A L D S : Type}

/-- The list `l` is well formed and holds the nodes `xs` from head to tail, each with its
data. -/
structure WellFormed (m : Mem A L D) (l : L) (xs : List A) : Prop where
  rep : Rep .head m l xs
  data : ∀ a ∈ xs, (m.node a).data.isSome

theorem Abstracts.wellFormed {m : Mem A L D} {d : Deques A L D} (h : Abstracts m d) (l : L) :
    WellFormed m l (d.seq l) :=
  ⟨h.rep l, fun _ ha => (h.data ha).2⟩

/-- A call of the callback: the node, its data before and after, the count that is passed
and the answer. -/
structure Visit (A D : Type) where
  node : A
  data : D
  count : Nat
  after : D
  nodeAction : NodeAction
  scanAction : ScanAction

def retained (visits : List (Visit A D)) : List A :=
  (visits.filter (·.nodeAction = .retain)).map (·.node)

def removals (visits : List (Visit A D)) : Nat :=
  visits.countP (·.nodeAction = .remove)

section Lists
variable (v : Visit A D) (visits : List (Visit A D))

theorem retained_cons : retained (v :: visits) = retained [v] ++ retained visits := by
  cases h : v.nodeAction <;> simp [retained, h]

theorem removals_cons : removals (v :: visits) = removals [v] + removals visits := by
  cases h : v.nodeAction <;> simp [removals, h, Nat.add_comm]

theorem retained_removals : (retained [v]).length + removals [v] = 1 := by
  cases h : v.nodeAction <;> simp [retained, removals, h]

end Lists

/-- The visits of a scan over the nodes with their data; `kept` nodes have been retained
before. -/
def scanVisits (f : Visitor D S) : List (A × D) → Nat → S → List (Visit A D) × S
  | [], _, s => ([], s)
  | (a, v) :: as, kept, s =>
    let ((v', nodeAction, scanAction), s') := f v (kept + (as.length + 1)) s
    let visit := ⟨a, v, kept + (as.length + 1), v', nodeAction, scanAction⟩
    match scanAction with
    | .stop => ([visit], s')
    | .proceed =>
      let (visits, t) := scanVisits f as (kept + (retained [visit]).length) s'
      (visit :: visits, t)

/-- The callback, in the state `s`, gives the answers of the visits one after the other. -/
def Answers (f : Visitor D S) : S → List (Visit A D) → S → Prop
  | s, [], t => t = s
  | s, v :: visits, t => ∃ s', f v.data v.count s = ((v.after, v.nodeAction, v.scanAction), s') ∧
      Answers f s' visits t

/-- The visits go over the nodes `xs` in order, with the number of nodes that are linked at
that moment, up to the first answer `stop`; `rest` are the nodes not visited. -/
structure Scanned (f : Visitor D S) (data : A → Option D) (n : Nat) (xs : List A) (s : S)
    (visits : List (Visit A D)) (rest : List A) (t : S) : Prop where
  order : xs = visits.map (·.node) ++ rest
  data : ∀ v ∈ visits, data v.node = some v.data
  count : ∀ pre v post, visits = pre ++ v :: post → v.count + removals pre = n
  answers : Answers f s visits t
  proceeds : ∀ v ∈ visits.dropLast, v.scanAction = .proceed
  stops : rest ≠ [] → ∃ v, visits.getLast? = some v ∧ v.scanAction = .stop

namespace Scanned
variable {f : Visitor D S} {data : A → Option D} {n : Nat} {as rest : List A} {s s' t : S}
  {v : Visit A D} {visits : List (Visit A D)}

theorem nil : Scanned f data n [] s [] [] s :=
  ⟨rfl, by simp, by simp, rfl, by simp, fun h => absurd rfl h⟩

theorem stop (hv : data v.node = some v.data)
    (hf : f v.data v.count s = ((v.after, v.nodeAction, v.scanAction), s'))
    (hs : v.scanAction = .stop) : Scanned f data v.count (v.node :: as) s [v] as s' where
  order := rfl
  data := by simpa using hv
  count pre w post hw := by
    cases pre with
    | nil =>
      obtain ⟨rfl, -⟩ := List.cons.inj hw
      rfl
    | cons u pre => simp at hw
  answers := ⟨s', hf, rfl⟩
  proceeds := by simp
  stops _ := ⟨v, rfl, hs⟩

theorem cons (h : Scanned f data n as s' visits rest t) (hv : data v.node = some v.data)
    (hf : f v.data v.count s = ((v.after, v.nodeAction, v.scanAction), s'))
    (hs : v.scanAction = .proceed) (hn : v.count = n + removals [v]) :
    Scanned f data v.count (v.node :: as) s (v :: visits) rest t where
  order := by rw [h.order]; rfl
  data w hw := by
    rcases List.mem_cons.mp hw with rfl | hw
    · exact hv
    · exact h.data w hw
  count pre w post hw := by
    cases pre with
    | nil =>
      obtain ⟨rfl, -⟩ := List.cons.inj hw
      rfl
    | cons u pre =>
      obtain ⟨rfl, hrest⟩ := List.cons.inj hw
      have hcount := h.count pre w post hrest
      rw [removals_cons]
      omega
  answers := ⟨s', hf, h.answers⟩
  proceeds w hw := by
    cases visits with
    | nil => simp at hw
    | cons u visits =>
      rcases List.mem_cons.mp hw with rfl | hw
      · exact hs
      · exact h.proceeds w hw
  stops hrest := by
    obtain ⟨w, hw, hstop⟩ := h.stops hrest
    refine ⟨w, ?_, hstop⟩
    rw [List.getLast?_cons, hw]
    rfl

end Scanned

def Mem.contents (m : Mem A L D) (xs : List A) : List (A × D) :=
  xs.filterMap fun a => (m.node a).data.map (a, ·)

theorem contents_data {m : Mem A L D} {xs : List A} {p : A × D} (hp : p ∈ m.contents xs) :
    (m.node p.1).data = some p.2 := by
  obtain ⟨a, -, ha⟩ := List.mem_filterMap.mp hp
  obtain ⟨v, hv, rfl⟩ := Option.map_eq_some_iff.mp ha
  exact hv

theorem WellFormed.contents_nodes {m : Mem A L D} {l : L} {xs : List A} (h : WellFormed m l xs) :
    (m.contents xs).map Prod.fst = xs := by
  have hdata := h.data
  clear h
  induction xs with
  | nil => rfl
  | cons a as ih =>
    obtain ⟨v, hv⟩ := Option.isSome_iff_exists.mp (hdata a (by simp))
    have has := ih fun b hb => hdata b (by simp [hb])
    simpa [Mem.contents, hv] using has

theorem WellFormed.contents_length {m : Mem A L D} {l : L} {xs : List A} (h : WellFormed m l xs) :
    (m.contents xs).length = xs.length := by
  rw [← List.length_map (f := Prod.fst), h.contents_nodes]

theorem scanned_visits (f : Visitor D S) (data : A → Option D) {xs : List (A × D)}
    (hdata : ∀ p ∈ xs, data p.1 = some p.2) (kept : Nat) (s : S) :
    ∃ rest, Scanned f data (kept + xs.length) (xs.map Prod.fst) s (scanVisits f xs kept s).1 rest
      (scanVisits f xs kept s).2 := by
  induction xs generalizing kept s with
  | nil => exact ⟨[], .nil⟩
  | cons p as ih =>
    obtain ⟨a, v⟩ := p
    have ha : data a = some v := hdata (a, v) (by simp)
    rcases hf : f v (kept + (as.length + 1)) s with ⟨⟨v', nodeAction, scanAction⟩, s'⟩
    let visit : Visit A D := ⟨a, v, kept + (as.length + 1), v', nodeAction, scanAction⟩
    cases scanAction with
    | stop =>
      simp only [scanVisits, hf]
      exact ⟨as.map Prod.fst, .stop (v := visit) ha hf rfl⟩
    | proceed =>
      have hone := retained_removals visit
      obtain ⟨rest, hrest⟩ :=
        ih (fun p hp => hdata p (by simp [hp])) (kept + (retained [visit]).length) s'
      simp only [scanVisits, hf]
      exact ⟨rest, hrest.cons (v := visit) ha hf rfl (by simp only [visit] at hone ⊢; omega)⟩

theorem WellFormed.scanned {m : Mem A L D} {l : L} {xs : List A} (h : WellFormed m l xs)
    (f : Visitor D S) (s : S) : ∃ rest, Scanned f (fun a => (m.node a).data) xs.length xs s
      (scanVisits f (m.contents xs) 0 s).1 rest (scanVisits f (m.contents xs) 0 s).2 := by
  obtain ⟨rest, hscanned⟩ := scanned_visits f (fun a => (m.node a).data)
    (fun p (hp : p ∈ m.contents xs) => contents_data hp) 0 s
  rw [h.contents_nodes, Nat.zero_add, h.contents_length] at hscanned
  exact ⟨rest, hscanned⟩

variable [DecidableEq A] [DecidableEq L]

def Mem.visited (m : Mem A L D) (l : L) (v : Visit A D) : Mem A L D :=
  match v.nodeAction with
  | .retain => m.setNode v.node ({ · with data := some v.after })
  | .remove => (m.setNode v.node ({ · with data := none })).unlink l v.node

/-- What a scan leaves of the nodes it visited, of the other nodes and of the other lists. -/
structure Filtered (m m' : Mem A L D) (l : L) (visits : List (Visit A D)) : Prop where
  retained : ∀ v ∈ visits, v.nodeAction = .retain → (m'.node v.node).data = some v.after
  removed : ∀ v ∈ visits, v.nodeAction = .remove →
    (m'.node v.node).isOnList = false ∧ (m'.node v.node).data = none
  others : ∀ a, a ∉ visits.map (·.node) → Untouched m m' a
  lists : ∀ k ys, k ≠ l → Rep .head m k ys → Rep .head m' k ys

section Visited
variable {m : Mem A L D} {l : L} {pre post : List A} {v : Visit A D}

theorem Rep.visited (h : Rep .head m l (pre ++ v.node :: post)) :
    Rep .head (m.visited l v) l (pre ++ (IntrusiveList.retained [v] ++ post)) := by
  cases hv : v.nodeAction with
  | retain => simpa [Mem.visited, IntrusiveList.retained, hv] using h.setData (some v.after)
  | remove => simpa [Mem.visited, IntrusiveList.retained, hv] using (h.setData none).unlink

theorem visited_retain (hv : v.nodeAction = .retain) :
    ((m.visited l v).node v.node).data = some v.after := by
  simp [Mem.visited, hv, Mem.setNode_node]

theorem visited_remove (hv : v.nodeAction = .remove) :
    ((m.visited l v).node v.node).isOnList = false ∧ ((m.visited l v).node v.node).data = none := by
  simp [Mem.visited, hv, Mem.unlink, Mem.setNode_node]

theorem untouched_visited (h : Rep .head m l (pre ++ v.node :: post)) {a : A} (ha : a ≠ v.node) :
    Untouched m (m.visited l v) a := by
  have hset : ∀ w : Option D, Untouched m (m.setNode v.node ({ · with data := w })) a :=
    fun w => untouched_setNode m _ ha
  cases hv : v.nodeAction with
  | retain => simpa [Mem.visited, hv] using hset (some v.after)
  | remove => simpa [Mem.visited, hv] using (hset none).trans (untouched_unlink (h.setData none) ha)

theorem Rep.visited_frame (h : Rep .head m l (pre ++ v.node :: post)) {k : L} {ys : List A}
    (hk : k ≠ l) (h' : Rep .head m k ys) : Rep .head (m.visited l v) k ys := by
  cases hv : v.nodeAction with
  | retain => simpa [Mem.visited, hv] using h'.setData (some v.after)
  | remove => simpa [Mem.visited, hv] using (h.setData none).unlink_frame (h'.setData none) hk

end Visited

theorem filtered_visits {m : Mem A L D} {l : L} (kept : List A) {visits : List (Visit A D)}
    {rest : List A} (h : Rep .head m l (kept ++ (visits.map (·.node) ++ rest))) :
    Rep .head (visits.foldl (Mem.visited · l) m) l (kept ++ (retained visits ++ rest)) ∧
      Filtered m (visits.foldl (Mem.visited · l) m) l visits := by
  induction visits generalizing m kept with
  | nil =>
    refine ⟨h, by simp, by simp, fun a _ => .of_eq rfl rfl, fun k ys _ h' => h'⟩
  | cons v visits ih =>
    have hstep := h.visited
    rw [← List.append_assoc] at hstep
    obtain ⟨hrep, hfiltered⟩ := ih (kept ++ retained [v]) hstep
    have hv : v.node ∉ visits.map (·.node) := by
      have hpost : v.node ∉ visits.map (·.node) ++ rest := h.apart.2.1
      exact fun hmem => hpost (List.mem_append_left rest hmem)
    have hsame := hfiltered.others v.node hv
    rw [List.append_assoc, ← List.append_assoc (retained [v]), ← retained_cons] at hrep
    refine ⟨hrep, fun w hw hkeep => ?_, fun w hw hgone => ?_, fun a ha => ?_, fun k ys hk h' => ?_⟩
    · rcases List.mem_cons.mp hw with rfl | hw
      · exact hsame.data.trans (visited_retain hkeep)
      · exact hfiltered.retained w hw hkeep
    · rcases List.mem_cons.mp hw with rfl | hw
      · obtain ⟨hoff, hdata⟩ := visited_remove (m := m) (l := l) hgone
        exact ⟨hsame.on.trans hoff, hsame.data.trans hdata⟩
      · exact hfiltered.removed w hw hgone
    · simp only [List.map_cons, List.mem_cons, not_or] at ha
      exact (untouched_visited h ha.1).trans (hfiltered.others a ha.2)
    · exact hfiltered.lists k ys hk (h.visited_frame hk h')

theorem exec_carryOut (dbg : Bool) {m : Mem A L D} {l : L} {kept as : List A} {v : Visit A D}
    (h : Rep .head m l (kept ++ v.node :: as)) :
    exec perform (carryOut dbg l v.node v.nodeAction)
      (m.setNode v.node ({ · with data := some v.after })) = some ((), m.visited l v) := by
  have ha := h.member v.node (by simp)
  cases hact : v.nodeAction with
  | retain => simp [carryOut, Mem.visited, hact]
  | remove =>
    have hremove := exec_removeNode dbg (h.setData (a := v.node) none)
    simpa [carryOut, Mem.visited, hact, ha.live, Function.comp_def] using hremove

theorem exec_scanNode (dbg : Bool) (fuel : Nat) {m : Mem A L D} {l : L} {f : Visitor D S}
    {kept as : List A} {s s' : S} {v : Visit A D} (h : Rep .head m l (kept ++ v.node :: as))
    (hv : (m.node v.node).data = some v.data) (hn : v.count = (kept ++ v.node :: as).length)
    (hf : f v.data v.count s = ((v.after, v.nodeAction, v.scanAction), s')) :
    exec perform (scanFrom dbg l f (fuel + 1) (some v.node) s) m =
      match v.scanAction with
      | .stop => some (s', m.visited l v)
      | .proceed => exec perform (scanFrom dbg l f fuel as.head? s') (m.visited l v) := by
  have ha := h.member v.node (by simp)
  have hcount : (m.list l).count = v.count := h.count.trans hn.symm
  obtain ⟨-, hnext⟩ := h.links_at
  cases hscan : v.scanAction <;>
    simp [scanFrom, ha.live, hnext, hv, hcount, hf, exec_carryOut dbg h, hscan]

/-- The loop, by induction on the nodes that are left; `kept` are those retained before. -/
theorem exec_scanFrom (dbg : Bool) {l : L} {f : Visitor D S} (kept : List A) {xs : List (A × D)}
    {m : Mem A L D} {fuel : Nat} {s : S} (h : Rep .head m l (kept ++ xs.map Prod.fst))
    (hdata : ∀ p ∈ xs, (m.node p.1).data = some p.2) (hfuel : xs.length ≤ fuel) :
    exec perform (scanFrom dbg l f fuel (xs.map Prod.fst).head? s) m =
      some ((scanVisits f xs kept.length s).2,
        (scanVisits f xs kept.length s).1.foldl (Mem.visited · l) m) := by
  induction xs generalizing kept m fuel s with
  | nil => cases fuel <;> rfl
  | cons p as ih =>
    obtain ⟨a, v⟩ := p
    cases fuel with
    | zero => simp at hfuel
    | succ fuel =>
      rcases hf : f v (kept.length + (as.length + 1)) s with ⟨⟨v', nodeAction, scanAction⟩, s'⟩
      let visit : Visit A D := ⟨a, v, kept.length + (as.length + 1), v', nodeAction, scanAction⟩
      have hnode := exec_scanNode (v := visit) dbg fuel h (hdata (a, v) (by simp)) (by simp [visit]) hf
      have hvisited : Rep .head (m.visited l visit) l
          ((kept ++ retained [visit]) ++ as.map Prod.fst) := by
        rw [List.append_assoc]
        exact h.visited (v := visit)
      rw [List.map_cons, List.head?_cons, hnode]
      cases scanAction with
      | stop => simp [scanVisits, hf, visit]
      | proceed =>
        have hrest : ∀ p ∈ as, ((m.visited l visit).node p.1).data = some p.2 := by
          intro p hp
          have hpa : p.1 ≠ a := by
            have hout : a ∉ as.map Prod.fst := h.apart.2.1
            exact fun hpa => hout (hpa ▸ List.mem_map_of_mem hp)
          rw [(untouched_visited (v := visit) h hpa).data]
          exact hdata p (by simp [hp])
        have hloop := ih (kept ++ retained [visit]) (s := s') hvisited hrest (by simpa using hfuel)
        simpa [scanVisits, hf, visit] using hloop

inductive Call (D : Type) where
  | visit (data : D) (count : Nat)
  | empty

def Visit.call (v : Visit A D) : Call D := .visit v.data v.count

def logged (f : Visitor D S) : Visitor D (S × List (Call D)) := fun data count s =>
  ((f data count s.1).1, (f data count s.1).2, s.2 ++ [.visit data count])

def loggedEmpty (onEmpty : S → S) (s : S × List (Call D)) : S × List (Call D) :=
  (onEmpty s.1, s.2 ++ [.empty])

omit [DecidableEq A] [DecidableEq L] in
theorem scanVisits_logged (f : Visitor D S) (xs : List (A × D)) (kept : Nat) (s : S)
    (log : List (Call D)) :
    scanVisits (logged f) xs kept (s, log) =
      ((scanVisits f xs kept s).1, (scanVisits f xs kept s).2,
        log ++ (scanVisits f xs kept s).1.map Visit.call) := by
  induction xs generalizing kept s log with
  | nil => simp [scanVisits]
  | cons p as ih =>
    obtain ⟨a, v⟩ := p
    rcases hf : f v (kept + (as.length + 1)) s with ⟨⟨v', nodeAction, scanAction⟩, s'⟩
    cases scanAction with
    | stop => simp [scanVisits, logged, hf, Visit.call]
    | proceed => simp [scanVisits, logged, hf, Visit.call, ih]

theorem exec_scan (dbg : Bool) {l : L} {f : Visitor D S} {onEmpty : S → S} {xs : List A}
    {m : Mem A L D} {s : S} (h : WellFormed m l xs) :
    exec perform (Concurrent.scan dbg l f onEmpty s) m =
      let visits := scanVisits f (m.contents xs) 0 s
      let m' := visits.1.foldl (Mem.visited · l) m
      some (((m'.list l).count, if xs = [] then onEmpty s else visits.2), m') := by
  have hcount : (m.list l).count = xs.length := h.rep.count
  have hhead : (m.list l).head = xs.head? := h.rep.near
  cases xs with
  | nil => simp [Concurrent.scan, hcount, Mem.contents, scanVisits]
  | cons a as =>
    have hnodes := h.contents_nodes
    have hloop := exec_scanFrom (f := f) (s := s) (l := l) dbg []
      (hnodes.symm ▸ h.rep) (fun p hp => contents_data hp) (Nat.le_of_eq h.contents_length)
    simp only [hnodes, List.length_cons, List.head?_cons, List.length_nil] at hloop
    simp [Concurrent.scan, IntrusiveList.scan, hcount, hhead, hloop]

/-- `scan` filters the list in place and stops where it is told to. -/
theorem scan_filters (dbg : Bool) (f : Visitor D S) (onEmpty : S → S) (s : S) {m : Mem A L D}
    {l : L} {xs : List A} (h : WellFormed m l xs) :
    ∃ visits rest t m',
      exec perform (Concurrent.scan dbg l f onEmpty s) m =
        some (((retained visits ++ rest).length, if xs = [] then onEmpty s else t), m') ∧
      exec perform (Concurrent.scan dbg l (logged f) (loggedEmpty onEmpty) (s, [])) m =
        some (((retained visits ++ rest).length,
          if xs = [] then (onEmpty s, [.empty]) else (t, visits.map Visit.call)), m') ∧
      Scanned f (fun a => (m.node a).data) xs.length xs s visits rest t ∧
      WellFormed m' l (retained visits ++ rest) ∧ Filtered m m' l visits := by
  obtain ⟨rest, hscanned⟩ := h.scanned f s
  have hrep : Rep .head m l ([] ++ ((scanVisits f (m.contents xs) 0 s).1.map (·.node) ++ rest)) := by
    rw [← hscanned.order]
    exact h.rep
  obtain ⟨hrep', hfiltered⟩ := filtered_visits [] hrep
  refine ⟨(scanVisits f (m.contents xs) 0 s).1, rest, (scanVisits f (m.contents xs) 0 s).2, _, ?_, ?_,
    hscanned, ⟨hrep', fun a ha => ?_⟩, hfiltered⟩
  · simp only [exec_scan dbg h, hrep'.count]
    rfl
  · simp only [exec_scan dbg h, scanVisits_logged, hrep'.count]
    rfl
  · rcases List.mem_append.mp ha with ha | ha
    · obtain ⟨v, hv, rfl⟩ := List.mem_map.mp ha
      simp only [List.mem_filter, decide_eq_true_eq] at hv
      simp [hfiltered.retained v hv.1 hv.2]
    · have hxs : a ∈ xs := by
        rw [hscanned.order]
        exact List.mem_append_right _ ha
      have hout : a ∉ (scanVisits f (m.contents xs) 0 s).1.map (·.node) := by
        have hd := h.rep.nodup
        rw [hscanned.order] at hd
        exact fun hmem => List.disjoint_of_nodup_append hd hmem ha
      rw [(hfiltered.others a hout).data]
      exact h.data a hxs

def threeNodes : Mem Nat Nat Nat where
  node
    | 1 => ⟨some 2, none, some 0, some 10, true⟩
    | 2 => ⟨some 3, some 1, some 0, some 20, true⟩
    | _ => ⟨none, some 2, some 0, some 30, true⟩
  live a := a ∈ [1, 2, 3]
  list _ := ⟨some 1, some 3, 3⟩

theorem wellFormed_threeNodes : WellFormed threeNodes 0 [1, 2, 3] where
  rep := by
    refine ⟨by decide, rfl, rfl, rfl, by simp [Seg, threeNodes, Node.toward, End.other], ?_⟩
    simp only [List.mem_cons, List.not_mem_nil, or_false, forall_eq_or_imp, forall_eq]
    exact ⟨⟨rfl, rfl, rfl⟩, ⟨rfl, rfl, rfl⟩, ⟨rfl, rfl, rfl⟩⟩
  data := by simp [threeNodes]

def takeFrom20 : Visitor Nat Nat := fun data count s =>
  if data < 20 then ((data + 1, .retain, .proceed), s + count)
  else ((data + 1, .remove, .stop), s + count)

theorem scan_filters_threeNodes : WellFormed threeNodes 0 [1, 2, 3] ∧
    ∃ visits rest t m',
      exec perform (Concurrent.scan true 0 takeFrom20 id 0) threeNodes =
        some (((retained visits ++ rest).length, t), m') ∧
      exec perform (Concurrent.scan true 0 (logged takeFrom20) (loggedEmpty id) (0, [])) threeNodes =
        some (((retained visits ++ rest).length, (t, visits.map Visit.call)), m') ∧
      Scanned takeFrom20 (fun a => (threeNodes.node a).data) 3 [1, 2, 3] 0 visits rest t ∧
      WellFormed m' 0 (retained visits ++ rest) ∧ Filtered threeNodes m' 0 visits :=
  ⟨wellFormed_threeNodes, scan_filters true takeFrom20 id 0 wellFormed_threeNodes⟩

example : (exec perform (Concurrent.scan true 0 takeFrom20 id 0) threeNodes).map
    (fun r => (r.1, (r.2.list 0).head, (r.2.node 1).next, (r.2.node 3).prev)) =
      some ((2, 6), some 1, some 3, some 1) := by decide

/-! ### The deques after a scan -/

def Deques.visit (d : Deques A L D) (l : L) (v : Visit A D) : Deques A L D :=
  match v.nodeAction with
  | .retain => d.setCell v.node (some ⟨some v.after, .on l⟩)
  | .remove => (d.setCell v.node (some ⟨none, .off⟩)).setSeq l ((d.seq l).erase v.node)

theorem visit_seq {d : Deques A L D} {l : L} {kept post : List A} {v : Visit A D}
    (hseq : d.seq l = kept ++ v.node :: post) (hkept : v.node ∉ kept) :
    (d.visit l v).seq l = kept ++ (retained [v] ++ post) := by
  cases hact : v.nodeAction with
  | retain => simp [Deques.visit, hact, Deques.setCell, retained, hseq]
  | remove =>
    simp [Deques.visit, hact, Deques.setSeq, retained, hseq, List.erase_append_right _ hkept]

omit [DecidableEq A] [DecidableEq L] in
theorem Abstracts.cell_on {m : Mem A L D} {d : Deques A L D} (h : Abstracts m d) {a : A} {l : L}
    (ha : a ∈ d.seq l) : ∃ v, d.cell a = some ⟨v, .on l⟩ := by
  have hmember := h.on ha
  cases hc : d.cell a with
  | none => simpa [h.dead a hc] using hmember.live
  | some c =>
    rcases (h.cell a c hc).on_or_off with ⟨k, hplace, hk, -⟩ | ⟨-, hoff⟩
    · exact ⟨c.data, by rw [← h.alone ha hk, ← hplace]⟩
    · simpa [hoff] using hmember.on

theorem Abstracts.visited {m : Mem A L D} {d : Deques A L D} (h : Abstracts m d) {l : L}
    {v : Visit A D} (hv : v.node ∈ d.seq l) : Abstracts (m.visited l v) (d.visit l v) := by
  cases hact : v.nodeAction with
  | retain =>
    obtain ⟨w, hc⟩ := h.cell_on hv
    simpa [Mem.visited, Deques.visit, hact] using h.setData hc v.after
  | remove =>
    obtain ⟨pre, post, hsplit, herase⟩ := h.split hv
    have hrep : Rep .head (m.visited l v) l ((d.seq l).erase v.node) := by
      rw [herase]
      simpa [retained, hact] using hsplit.visited
    obtain ⟨hoff, hdata⟩ := visited_remove (m := m) (l := l) hact
    simp only [Deques.visit, hact]
    exact h.takeOut hv hrep (fun k hk => hsplit.visited_frame hk (h.rep k))
      (fun b hb hbl => (List.mem_erase_of_ne hb).mpr hbl) (fun b hb => untouched_visited hsplit hb)
      (by simp [Mem.visited, hact, Mem.unlink]) hdata hoff

theorem Abstracts.visits {m : Mem A L D} {d : Deques A L D} (h : Abstracts m d) {l : L}
    (kept : List A) {visits : List (Visit A D)} {rest : List A}
    (hseq : d.seq l = kept ++ (visits.map (·.node) ++ rest)) :
    Abstracts (visits.foldl (Mem.visited · l) m) (visits.foldl (Deques.visit · l) d) ∧
      (visits.foldl (Deques.visit · l) d).seq l = kept ++ (retained visits ++ rest) := by
  induction visits generalizing m d kept with
  | nil => exact ⟨h, hseq⟩
  | cons v visits ih =>
    have hrep : Rep .head m l (kept ++ v.node :: (visits.map (·.node) ++ rest)) := hseq ▸ h.rep l
    have hvisit := visit_seq hseq hrep.apart.1
    rw [← List.append_assoc] at hvisit
    obtain ⟨habs, hrest⟩ := ih (h.visited (by simp [hseq])) (kept ++ retained [v]) hvisit
    rw [List.append_assoc, ← List.append_assoc (retained [v]), ← retained_cons] at hrest
    exact ⟨habs, hrest⟩

theorem Abstracts.scan {m : Mem A L D} {d : Deques A L D} (h : Abstracts m d) (dbg : Bool) (l : L)
    (f : Visitor D S) (onEmpty : S → S) (s : S) : ∃ visits rest t m',
      exec IntrusiveList.perform (Concurrent.scan dbg l f onEmpty s) m =
        some (((retained visits ++ rest).length, if d.seq l = [] then onEmpty s else t), m') ∧
      Scanned f d.data (d.seq l).length (d.seq l) s visits rest t ∧
      Abstracts m' (visits.foldl (Deques.visit · l) d) ∧
      (visits.foldl (Deques.visit · l) d).seq l = retained visits ++ rest := by
  obtain ⟨rest, hscanned⟩ := (h.wellFormed l).scanned f s
  obtain ⟨habs, hseq⟩ := h.visits [] hscanned.order
  have hcount := (habs.rep l).count
  rw [hseq] at hcount
  refine ⟨(scanVisits f (m.contents (d.seq l)) 0 s).1, rest,
    (scanVisits f (m.contents (d.seq l)) 0 s).2, _, ?_, ?_, habs, hseq⟩
  · simp only [exec_scan dbg (h.wellFormed l), hcount]
    rfl
  · refine { hscanned with data := fun v hv => ?_ }
    have hmem : v.node ∈ d.seq l := by
      rw [hscanned.order]
      exact List.mem_append_left rest (List.mem_map_of_mem hv)
    exact (h.data hmem).1.trans (hscanned.data v hv)

end Colock.IntrusiveList
