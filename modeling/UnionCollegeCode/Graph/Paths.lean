import UnionCollegeCode.Graph.Objects
import UnionCollegeCode.Lib.BreadthFirst

/-!
# `pathLength` of `ZachGraph.java`

A breadth-first search that goes by the keys of the vertices, except that it stops early at `adj == to`,
which goes by the object. It then takes the distance of the vertex whose list has the object, though a
nearer one may have an equal object, and though `to` may equal the start. `hasPath` only asks whether
there is a length, and is right all the same.
-/

set_option autoImplicit false

namespace UnionCollegeCode.Graph

open Lib.JavaCollections
open Lib.BreadthFirst

/-- Why a search does not return. -/
inductive SearchStop
  | nullPointer
  | loops
  deriving DecidableEq, Repr

namespace ObjGraph

variable {O K : Type} [DecidableEq O] [DecidableEq K] (key : O → K)

/-- `dist_map.get(temp)`. -/
def distanceOf (dist : HashMap K ℕ) (temp : O) : Except SearchStop ℕ :=
  match dist.get (key temp) with
  | some d => .ok d
  | none => .error .nullPointer

/-- The loop of `pathLength` over the neighbours of `temp` still to come: the length returned, or the
distances and the queue after it. -/
def scanLength (stop temp : O) :
    List O → HashMap K ℕ → List O → Except SearchStop (ℕ ⊕ HashMap K ℕ × List O)
  | [], dist, queue => .ok (.inr (dist, queue))
  | adj :: l, dist, queue => do
    if adj = stop then
      let d ← distanceOf key dist temp
      return .inl (d + 1)
    else if key adj ∈ dist then
      scanLength stop temp l dist queue
    else
      let d ← distanceOf key dist temp
      scanLength stop temp l (dist.put (key adj) (d + 1)) (queue ++ [adj])

/-- The loop of `pathLength` over the queue, for at most so many rounds. -/
def searchLength (g : ObjGraph O K) (stop : O) :
    ℕ → HashMap K ℕ → List O → Except SearchStop (ℕ ⊕ HashMap K ℕ)
  | _, dist, [] => .ok (.inr dist)
  | 0, _, _ :: _ => .error .loops
  | fuel + 1, dist, temp :: queue =>
    match g.map.get (key temp) with
    | none => .error .nullPointer
    | some l => do
      match ← scanLength key stop temp l dist queue with
      | .inl n => return .inl n
      | .inr (dist, queue) => searchLength g stop fuel dist queue

/-- `start` and `stop` are `from` and `to`, and `none` is `Integer.MAX_VALUE`. No vertex is in the queue
twice. -/
def pathLength (g : ObjGraph O K) (start stop : O) : Except SearchStop (Option ℕ) :=
  if key start ∈ g.map then do
    match ← searchLength key g stop g.map.size ((HashMap.empty ..).put (key start) 0) [start] with
    | .inl n => return some n
    | .inr dist => return dist.get (key stop)
  else
    .ok none

def hasPath (g : ObjGraph O K) (start stop : O) : Except SearchStop Bool := do
  let n ← pathLength key g start stop
  return n ≠ none

/-! ## What there is to find -/

/-- An edge, up to `equals`. -/
def Edge (g : ObjGraph O K) (u v : K) : Prop := ∃ l, g.map.get u = some l ∧ ∃ w ∈ l, key w = v

/-- The object itself is in the list of `u`. -/
def Offers (g : ObjGraph O K) (stop : O) (u : K) : Prop := ∃ l, g.map.get u = some l ∧ stop ∈ l

def HasPath (g : ObjGraph O K) (u v : K) : Prop :=
  u ∈ g.map ∧ v ∈ g.map ∧ ∃ n, Walk (Edge key g) u n v

/-- What the lists hold is in the graph. -/
def Closed (g : ObjGraph O K) : Prop := ∀ u l, g.map.get u = some l → ∀ w ∈ l, key w ∈ g.map

variable {key} {g : ObjGraph O K} {start stop temp : O} {u v : K} {n d : ℕ}

omit [DecidableEq O] in
theorem after_closed (ord : HashOrder K) (ops : List (ZachGraph.Op O)) :
    Closed key (after key ord ops) := by
  intro u l hl w hw
  have h := ZachGraph.after_refines ord (ops.map (forgetOp key))
  rw [← forget_after] at h
  have hl' : ((after key ord ops).forget key).map.get u = some (l.map key) := by simp [hl]
  have hedge := (h.edge u _ hl' (key w)).mp (List.mem_map_of_mem hw)
  exact mem_forget.mp ((h.keys (key w)).mpr (Lib.FinDigraph.closed _ _ hedge).2)

omit [DecidableEq O] [DecidableEq K] in
theorem Offers.edge (h : Offers g stop u) : Edge key g u (key stop) := by
  obtain ⟨l, hl, hto⟩ := h
  exact ⟨l, hl, stop, hto, rfl⟩

omit [DecidableEq O] [DecidableEq K] in
theorem Closed.walk (hg : Closed key g) (hu : u ∈ g.map) (h : Walk (Edge key g) u n v) : v ∈ g.map := by
  cases h with
  | nil => exact hu
  | snoc _ hedge =>
    obtain ⟨l, hl, w, hw, rfl⟩ := hedge
    exact hg _ l hl w hw

omit [DecidableEq O] [DecidableEq K] in
theorem hasPath_iff_walk (hg : Closed key g) (hu : u ∈ g.map) :
    HasPath key g u v ↔ ∃ n, Walk (Edge key g) u n v :=
  ⟨fun h => h.2.2, fun ⟨n, h⟩ => ⟨hu, hg.walk hu h, n, h⟩⟩

/-! ## Where a search stands -/

/-- The distances found so far, the queue, and that no vertex that has had its turn offers `to`. -/
structure Searching (key : O → K) (g : ObjGraph O K) (start stop : O) (dist : K → Option ℕ)
    (queue : List O) : Prop where
  explored : Explored (Edge key g) (key start) dist (queue.map key)
  known : ∀ v n, dist v = some n → v ∈ g.map
  missed : ∀ u n, dist u = some n → u ∉ queue.map key → ¬ Offers g stop u

namespace Searching

variable {dist : K → Option ℕ} {queue : List O}

omit [DecidableEq O] in
theorem init (hstart : key start ∈ g.map) :
    Searching key g start stop (Function.update (fun _ => none) (key start) (some 0)) [start] := by
  have honly : ∀ v n, Function.update (fun _ => none) (key start) (some 0) v = some n →
      v = key start := by
    intro v n hv
    by_contra hne
    rw [Function.update_of_ne hne] at hv
    cases hv
  refine ⟨.init, fun v n hv => ?_, fun u n hu hturn => ?_⟩
  · rw [honly v n hv]
    exact hstart
  · exact absurd (List.mem_singleton.mpr (honly u n hu)) hturn

omit [DecidableEq O] in
theorem push {w : O} (h : Searching key g start stop dist (temp :: queue)) (hg : Closed key g)
    {l : List O} (hl : g.map.get (key temp) = some l) (hw : w ∈ l) (hd : dist (key temp) = some d)
    (hnew : dist (key w) = none) :
    Searching key g start stop (Function.update dist (key w) (some (d + 1))) (temp :: (queue ++ [w])) := by
  have hexplored := h.explored.push ⟨l, hl, w, hw, rfl⟩ hd hnew
  rw [← List.map_singleton, ← List.map_append, ← List.map_cons] at hexplored
  have hold : ∀ v n, Function.update dist (key w) (some (d + 1)) v = some n → v ≠ key w →
      dist v = some n := fun v n hv hne => Function.update_of_ne hne _ dist ▸ hv
  refine ⟨hexplored, fun v n hv => ?_, fun u n hu hturn => ?_⟩
  · by_cases hvw : v = key w
    · rw [hvw]
      exact hg _ l hl w hw
    · exact h.known v n (hold v n hv hvw)
  · have hne : u ≠ key w := fun heq => hturn (by simp [heq])
    exact h.missed u n (hold u n hu hne) fun hin => hturn (by
      rw [List.map_cons, List.map_append, List.mem_cons, List.mem_append, ← or_assoc, ← List.mem_cons]
      exact .inl hin)

omit [DecidableEq O] in
theorem pop (h : Searching key g start stop dist (temp :: queue)) {l : List O}
    (hl : g.map.get (key temp) = some l) (hall : ∀ w ∈ l, ∃ m, dist (key w) = some m)
    (hto : stop ∉ l) : Searching key g start stop dist queue := by
  refine ⟨h.explored.pop fun v hv => ?_, h.known, fun u n hu hturn hoffers => ?_⟩
  · obtain ⟨l', hl', w, hw, rfl⟩ := hv
    cases hl.symm.trans hl'
    exact hall w hw
  · obtain ⟨l', hl', hto'⟩ := hoffers
    by_cases hut : u = key temp
    · subst hut
      cases hl.symm.trans hl'
      exact hto hto'
    · exact h.missed u n hu (by simpa [hut] using hturn) ⟨l', hl', hto'⟩

omit [DecidableEq O] [DecidableEq K] in
/-- The first vertex that offers `to` is as near as any that does. -/
theorem nearest (h : Searching key g start stop dist (temp :: queue)) (hd : dist (key temp) = some d) :
    Distance (Edge key g) (key start) (key temp) d ∧
      ∀ u n, Offers g stop u → Distance (Edge key g) (key start) u n → d ≤ n := by
  refine ⟨h.explored.isLeast hd, fun u n hoffers hu => Nat.not_lt.mp fun hless => ?_⟩
  have hhead := h.explored.head_le hd
  obtain ⟨k, hk, hkn⟩ := h.explored.le_of_walk hu.1 fun w hw m hm =>
    Nat.le_of_lt (Nat.lt_of_lt_of_le hless (hhead w hw m hm))
  refine h.missed u k hk (fun hin => ?_) hoffers
  have hle := hhead u hin k hk
  omega

omit [DecidableEq O] [DecidableEq K] in
theorem exhausted (h : Searching key g start stop dist []) :
    ∀ u n, Distance (Edge key g) (key start) u n → ¬ Offers g stop u :=
  fun u n hu => h.missed u n (h.explored.iff_distance.mpr hu) List.not_mem_nil

end Searching

/-! ## `pathLength` -/

section Length

variable {dist : HashMap K ℕ} {queue l : List O}

omit [DecidableEq O] [DecidableEq K] in
theorem distanceOf_ok (h : dist.get (key temp) = some d) : distanceOf key dist temp = .ok d := by
  simp only [distanceOf, h]

/-- The object is found as soon as it is there. -/
theorem scanLength_found : ∀ {l : List O} {dist : HashMap K ℕ} {queue : List O}, stop ∈ l →
    dist.get (key temp) = some d → scanLength key stop temp l dist queue = .ok (.inl (d + 1)) := by
  intro l
  induction l with
  | nil => exact fun h => absurd h List.not_mem_nil
  | cons w l ih =>
    intro dist queue hstop hd
    rw [scanLength]
    by_cases hw : w = stop
    · rw [if_pos hw, distanceOf_ok hd]
      rfl
    · have hrest : stop ∈ l := (List.mem_cons.mp hstop).resolve_left fun heq => hw heq.symm
      rw [if_neg hw]
      split
      case isTrue => exact ih hrest hd
      case isFalse hnew =>
        rw [distanceOf_ok hd]
        refine ih hrest ?_
        rw [HashMap.get_put_of_ne, hd]
        rintro heq
        exact hnew (heq ▸ HashMap.mem_of_get hd)

/-- Where the object is not, all neighbours get their distances. -/
theorem scanLength_missed (hg : Closed key g) {k : List O} (hk : g.map.get (key temp) = some k) :
    ∀ {l : List O} {dist : HashMap K ℕ} {queue : List O}, l ⊆ k → stop ∉ l →
      dist.get (key temp) = some d → Searching key g start stop dist.get (temp :: queue) →
      ∃ dist' queue', scanLength key stop temp l dist queue = .ok (.inr (dist', queue')) ∧
        Searching key g start stop dist'.get (temp :: queue') ∧
        (∀ v ∈ dist, v ∈ dist') ∧ (∀ w ∈ l, key w ∈ dist') ∧
        dist'.size + queue.length = dist.size + queue'.length := by
  intro l
  induction l with
  | nil => exact fun _ _ _ h => ⟨_, _, rfl, h, fun _ hv => hv, fun _ hw => (nomatch hw), rfl⟩
  | cons w l ih =>
    intro dist queue hlk hstop hd h
    obtain ⟨hw, hlk⟩ := List.cons_subset.mp hlk
    obtain ⟨hne, hstop⟩ := not_or.mp (mt List.mem_cons.mpr hstop)
    rw [scanLength, if_neg (Ne.symm hne)]
    split
    case isTrue hold =>
      obtain ⟨dist', queue', hrun, h', hkept, hall, hsize⟩ := ih hlk hstop hd h
      exact ⟨dist', queue', hrun, h', hkept, List.forall_mem_cons.mpr ⟨hkept _ hold, hall⟩, hsize⟩
    case isFalse hnew =>
      have hd' : (dist.put (key w) (d + 1)).get (key temp) = some d := by
        rw [HashMap.get_put_of_ne, hd]
        rintro heq
        exact hnew (heq ▸ HashMap.mem_of_get hd)
      obtain ⟨dist', queue', hrun, h', hkept, hall, hsize⟩ := ih hlk hstop hd'
        (h.push hg hk hw hd (HashMap.get_eq_none.mpr hnew))
      refine ⟨dist', queue', ?_, h', fun v hv => hkept v (HashMap.mem_put.mpr (.inr hv)),
        List.forall_mem_cons.mpr ⟨hkept _ (HashMap.mem_put.mpr (.inl rfl)), hall⟩, ?_⟩
      · rw [distanceOf_ok hd]
        exact hrun
      · rw [HashMap.size_put_of_not_mem hnew, List.length_append, List.length_singleton] at hsize
        omega

/-- As near as any vertex that offers the object. -/
def Nearest (key : O → K) (g : ObjGraph O K) (start stop : O) (d : ℕ) : Prop :=
  (∃ u, Offers g stop u ∧ Distance (Edge key g) (key start) u d) ∧
    ∀ u n, Offers g stop u → Distance (Edge key g) (key start) u n → d ≤ n

omit [DecidableEq O] [DecidableEq K] in
/-- There are rounds left as long as there is a vertex in the queue. -/
theorem Searching.round (h : Searching key g start stop dist.get (temp :: queue)) {fuel : ℕ}
    (hfuel : dist.size + fuel = (temp :: queue).length + g.map.size) : fuel ≠ 0 := by
  have hle : dist.size ≤ g.map.size := HashMap.size_le_of_subset fun v hv => by
    obtain ⟨n, hn⟩ := HashMap.mem_iff.mp hv
    exact h.known v n hn
  rw [List.length_cons] at hfuel
  omega

theorem searchLength_spec (hg : Closed key g) {fuel : ℕ} : ∀ {dist : HashMap K ℕ} {queue : List O},
    Searching key g start stop dist.get queue →
    dist.size + fuel = queue.length + g.map.size →
    (∃ d, searchLength key g stop fuel dist queue = .ok (.inl (d + 1)) ∧ Nearest key g start stop d) ∨
      ∃ dist', searchLength key g stop fuel dist queue = .ok (.inr dist') ∧
        Searching key g start stop dist'.get [] := by
  induction fuel with
  | zero =>
    intro dist queue h hfuel
    cases queue with
    | nil => exact .inr ⟨dist, rfl, h⟩
    | cons temp queue => exact absurd rfl (h.round hfuel)
  | succ fuel ih =>
    intro dist queue h hfuel
    cases queue with
    | nil => exact .inr ⟨dist, rfl, h⟩
    | cons temp queue =>
      obtain ⟨d, hd⟩ := h.explored.queued (key temp) List.mem_cons_self
      obtain ⟨l, hl⟩ := HashMap.mem_iff.mp (h.known _ d hd)
      simp only [searchLength, hl]
      by_cases hstop : stop ∈ l
      · obtain ⟨hdist, hleast⟩ := h.nearest hd
        rw [scanLength_found hstop hd]
        exact .inl ⟨d, rfl, ⟨key temp, ⟨l, hl, hstop⟩, hdist⟩, hleast⟩
      · obtain ⟨dist', queue', hrun, h', -, hall, hsize⟩ :=
          scanLength_missed hg hl (List.Subset.refl l) hstop hd h
        rw [hrun]
        refine ih (h'.pop hl (fun w hw => HashMap.mem_iff.mp (hall w hw)) hstop) ?_
        rw [List.length_cons] at hfuel
        omega

/-- What `pathLength` returns: one more than the distance of the nearest vertex that offers the object,
and the distance of `to` if there is none. -/
theorem pathLength_spec (stop : O) (hg : Closed key g) (hstart : key start ∈ g.map) :
    (∃ d, pathLength key g start stop = .ok (some (d + 1)) ∧ Nearest key g start stop d) ∨
      ((∀ u n, Distance (Edge key g) (key start) u n → ¬ Offers g stop u) ∧
        ∃ r, pathLength key g start stop = .ok r ∧
          ∀ n, r = some n ↔ Distance (Edge key g) (key start) (key stop) n) := by
  have hinit : Searching key g start stop ((HashMap.empty K ℕ).put (key start) 0).get [start] :=
    .init hstart
  have hsize : ((HashMap.empty K ℕ).put (key start) 0).size + g.map.size = 1 + g.map.size := rfl
  unfold pathLength
  rw [if_pos hstart]
  obtain ⟨d, hrun, hnear⟩ | ⟨dist', hrun, h⟩ := searchLength_spec hg hinit hsize
  · rw [hrun]
    exact .inl ⟨d, rfl, hnear⟩
  · rw [hrun]
    exact .inr ⟨h.exhausted, _, rfl, fun n => h.explored.iff_distance⟩

theorem pathLength_absent (hstart : key start ∉ g.map) :
    pathLength key g start stop = .ok none := if_neg hstart

/-- `pathLength` returns the length of a shortest path, or `Integer.MAX_VALUE` if there is no path. -/
def PathLengthRight (key : O → K) (g : ObjGraph O K) (start stop : O) : Prop :=
  ∃ r, pathLength key g start stop = .ok r ∧ (r = none ↔ ¬ HasPath key g (key start) (key stop)) ∧
    ∀ n, r = some n → Distance (Edge key g) (key start) (key stop) n

omit [DecidableEq O] [DecidableEq K] in
/-- A neighbour is at most one step further. -/
theorem Nearest.walk (h : Nearest key g start stop d) :
    Walk (Edge key g) (key start) (d + 1) (key stop) := by
  obtain ⟨⟨u, hoffers, hu⟩, -⟩ := h
  exact .snoc hu.1 hoffers.edge

/-- **`pathLength` is right if the object `to` is offered on a shortest path, or nowhere within reach.** -/
theorem pathLengthRight_of_closed (hg : Closed key g) : PathLengthRight key g start stop ↔
    key start ∉ g.map ∨ (∀ u n, Distance (Edge key g) (key start) u n → ¬ Offers g stop u) ∨
      ∃ u n, Offers g stop u ∧ Distance (Edge key g) (key start) u n ∧
        Distance (Edge key g) (key start) (key stop) (n + 1) := by
  by_cases hstart : key start ∈ g.map
  · rw [PathLengthRight, hasPath_iff_walk hg hstart]
    obtain ⟨d, hrun, hnear⟩ | ⟨hnone, r, hrun, hr⟩ := pathLength_spec stop hg hstart
    · obtain ⟨⟨u, hoffers, hu⟩, hleast⟩ := hnear
      constructor
      · rintro ⟨r, hr, -, hdist⟩
        cases hrun.symm.trans hr
        exact .inr (.inr ⟨u, d, hoffers, hu, hdist _ rfl⟩)
      · rintro (habsent | hnone | ⟨u', n, hoffers', hu', hdist⟩)
        · exact absurd hstart habsent
        · exact absurd hoffers (hnone u d hu)
        · -- No vertex that offers the object is nearer than `u`, and `u` is no nearer than one can be.
          have hle := hleast u' n hoffers' hu'
          have hge := hdist.2 (Walk.snoc hu.1 hoffers.edge)
          obtain rfl : d = n := by omega
          exact ⟨_, hrun, iff_of_false (nomatch ·) (not_not_intro ⟨_, hdist.1⟩), fun m hm => by
            cases hm
            exact hdist⟩
    · refine iff_of_true ⟨r, hrun, ?_, fun n hn => (hr n).mp hn⟩ (.inr (.inl hnone))
      constructor
      · rintro rfl ⟨n, hwalk⟩
        obtain ⟨m, hm⟩ := hwalk.exists_distance
        cases (hr m).mpr hm
      · intro hno
        refine Option.eq_none_iff_forall_ne_some.mpr fun n hn => hno ⟨n, ((hr n).mp hn).1⟩
  · refine iff_of_true ⟨none, pathLength_absent hstart, ?_, fun n hn => nomatch hn⟩ (.inl hstart)
    exact iff_of_true rfl fun h => hstart h.1

/-- `hasPath` is right however the objects are shared. -/
theorem hasPath_spec (hg : Closed key g) : ∃ b, hasPath key g start stop = .ok b ∧
    (b = true ↔ HasPath key g (key start) (key stop)) := by
  by_cases hstart : key start ∈ g.map
  · rw [hasPath_iff_walk hg hstart]
    obtain ⟨d, hrun, hnear⟩ | ⟨-, r, hrun, hr⟩ := pathLength_spec stop hg hstart
    · exact ⟨true, by rw [hasPath, hrun]; rfl, iff_of_true rfl ⟨d + 1, hnear.walk⟩⟩
    · refine ⟨decide (r ≠ none), by rw [hasPath, hrun]; rfl, ?_⟩
      rw [decide_eq_true_iff, Option.ne_none_iff_exists']
      constructor
      · rintro ⟨n, hn⟩
        exact ⟨n, ((hr n).mp hn).1⟩
      · rintro ⟨n, hwalk⟩
        obtain ⟨m, hm⟩ := hwalk.exists_distance
        exact ⟨m, (hr m).mpr hm⟩
  · exact ⟨false, by rw [hasPath, pathLength_absent hstart]; rfl,
      iff_of_false Bool.false_ne_true fun h => hstart h.1⟩

/-- **Where `pathLength` is right.** -/
theorem pathLengthRight_iff (key : O → K) (ord : HashOrder K) (ops : List (ZachGraph.Op O))
    (start stop : O) :
    let g := after key ord ops
    PathLengthRight key g start stop ↔
      key start ∉ g.map ∨ (∀ u n, Distance (Edge key g) (key start) u n → ¬ Offers g stop u) ∨
        ∃ u n, Offers g stop u ∧ Distance (Edge key g) (key start) u n ∧
          Distance (Edge key g) (key start) (key stop) (n + 1) :=
  pathLengthRight_of_closed (after_closed ord ops)

/-- A vertex with an edge to itself: its distance from itself is 1, says the early exit. -/
theorem selfLoop_length :
    let g := after id (.insertion ℕ) [.addEdge 0 0]
    ¬ PathLengthRight id g 0 0 := by
  rintro g ⟨r, hrun, -, hdist⟩
  have hone : pathLength id g 0 0 = .ok (some 1) := rfl
  cases hrun.symm.trans hone
  cases (hdist 1 rfl).unique distance_self

end Length

end ObjGraph

end UnionCollegeCode.Graph
