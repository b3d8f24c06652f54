import UnionCollegeCode.Graph.Paths

/-!
# `getPath` of `ZachGraph.java`

The search is that of `pathLength` with parents for distances. The walk back goes along the parents of
the keys, which is always a shortest way; but there is an answer only where the object `to` itself is met,
and the walk ends only at the object `from` itself.
-/

set_option autoImplicit false

namespace UnionCollegeCode.Graph.ObjGraph

open Lib.JavaCollections
open Lib.BreadthFirst

variable {O K : Type} [DecidableEq O] [DecidableEq K] (key : O → K)

/-- The loop of `getPath` over the neighbours of `temp` still to come: whether `to` is among them, and
the parents and the queue after it. -/
def scanPath (stop temp : O) : List O → HashMap K O → List O → Bool × HashMap K O × List O
  | [], parent, queue => (false, parent, queue)
  | adj :: l, parent, queue =>
    let (parent, queue) :=
      if key adj ∈ parent then (parent, queue)
      else (parent.put (key adj) temp, queue ++ [adj])
    if adj = stop then (true, parent, queue) else scanPath stop temp l parent queue

/-- `while (to != from)`, for at most so many rounds. Without a parent `to` would be `null` for good. -/
def walkBack (start : O) (parent : HashMap K O) : ℕ → O → List O → Except SearchStop (List O)
  | 0, stop, path => if stop = start then .ok path else .error .loops
  | fuel + 1, stop, path =>
    if stop = start then .ok path
    else
      match parent.get (key stop) with
      | none => .error .loops
      | some p => walkBack start parent fuel p (p :: path)

/-- The loop of `getPath` over the queue, for at most so many rounds. -/
def searchPath (g : ObjGraph O K) (start stop : O) :
    ℕ → HashMap K O → List O → Except SearchStop (List O)
  | _, _, [] => .ok []
  | 0, _, _ :: _ => .error .loops
  | fuel + 1, parent, temp :: queue =>
    match g.map.get (key temp) with
    | none => .error .nullPointer
    | some l =>
      match scanPath key stop temp l parent queue with
      | (true, parent, _) => walkBack key start parent parent.size stop [stop]
      | (false, parent, queue) => searchPath g start stop fuel parent queue

def getPath (g : ObjGraph O K) (start stop : O) : Except SearchStop (List O) :=
  if key start ∈ g.map then
    searchPath key g start stop g.map.size ((HashMap.empty ..).put (key start) start) [start]
  else
    .ok []

/-! ## Where a search stands -/

variable {key} {g : ObjGraph O K} {start stop temp : O} {u v : K} {n d : ℕ} {dist : K → Option ℕ}
  {parent : HashMap K O} {queue l : List O}

/-- The parents are one step nearer to the start, and where the key is that of the start the object is
the start itself. -/
structure Parents (key : O → K) (g : ObjGraph O K) (start : O) (dist : K → Option ℕ)
    (parent : HashMap K O) (queue : List O) : Prop where
  same : ∀ v, v ∈ parent ↔ ∃ n, dist v = some n
  root : parent.get (key start) = some start
  step : ∀ v p n, parent.get v = some p → dist v = some (n + 1) →
    dist (key p) = some n ∧ Edge key g (key p) v ∧ (key p = key start → p = start)
  short : ∀ v n, dist v = some n → n < parent.size
  queued : ∀ w ∈ queue, key w = key start → w = start

omit [DecidableEq O] in
theorem Parents.init : Parents key g start (Function.update (fun _ => none) (key start) (some 0))
    ((HashMap.empty K O).put (key start) start) [start] := by
  have honly : ∀ {v n}, Function.update (fun _ => none) (key start) (some 0) v = some n →
      v = key start ∧ n = 0 := by
    intro v n hv
    rw [Function.update_apply] at hv
    split at hv
    case isTrue hs => exact ⟨hs, (Option.some.inj hv).symm⟩
    case isFalse => cases hv
  refine ⟨fun v => ?_, HashMap.get_put_self .., fun v p n _ hv => ?_, fun v n hv => ?_,
    fun w hw _ => List.mem_singleton.mp hw⟩
  · rw [HashMap.mem_put, or_iff_left HashMap.not_mem_empty]
    constructor
    · rintro rfl
      exact ⟨0, Function.update_self ..⟩
    · rintro ⟨n, hn⟩
      exact (honly hn).1
  · exact absurd (honly hv).2 (Nat.succ_ne_zero n)
  · rw [(honly hv).2]
    exact Nat.one_pos

omit [DecidableEq O] in
/-- A new vertex gets the vertex whose turn it is for a parent. -/
theorem Parents.push {w : O} (h : Parents key g start dist parent (temp :: queue))
    (hzero : dist (key start) = some 0) (hedge : Edge key g (key temp) (key w))
    (hd : dist (key temp) = some d) (hnew : dist (key w) = none) :
    Parents key g start (Function.update dist (key w) (some (d + 1))) (parent.put (key w) temp)
      (temp :: (queue ++ [w])) := by
  have hkept : ∀ {v n}, dist v = some n → v ≠ key w := by
    rintro v n hv rfl
    cases hnew.symm.trans hv
  have hold : ∀ {v n}, dist v = some n →
      Function.update dist (key w) (some (d + 1)) v = some n := fun hv => by
    rw [Function.update_of_ne (hkept hv), hv]
  -- The new key had no parent, or it would have had a distance.
  have hsize : (parent.put (key w) temp).size = parent.size + 1 :=
    HashMap.size_put_of_not_mem fun hin => by
      obtain ⟨n, hn⟩ := (h.same _).mp hin
      exact hkept hn rfl
  refine ⟨fun v => ?_, ?_, fun v p n hp hv => ?_, fun v n hv => ?_, fun x hx hkey => ?_⟩
  · by_cases hvw : v = key w
    · subst hvw
      exact iff_of_true (HashMap.mem_put.mpr (.inl rfl)) ⟨d + 1, Function.update_self ..⟩
    · rw [HashMap.mem_put, or_iff_right hvw, h.same, Function.update_of_ne hvw]
  · rw [HashMap.get_put_of_ne _ _ (hkept hzero), h.root]
  · by_cases hvw : v = key w
    · subst hvw
      rw [HashMap.get_put_self] at hp
      rw [Function.update_self] at hv
      cases hp
      cases hv
      exact ⟨hold hd, hedge, h.queued _ List.mem_cons_self⟩
    · rw [HashMap.get_put_of_ne _ _ hvw] at hp
      rw [Function.update_of_ne hvw] at hv
      obtain ⟨hstep, hpv, hroot⟩ := h.step v p n hp hv
      exact ⟨hold hstep, hpv, hroot⟩
  · rw [hsize]
    by_cases hvw : v = key w
    · subst hvw
      rw [Function.update_self] at hv
      cases hv
      exact Nat.succ_lt_succ (h.short _ d hd)
    · rw [Function.update_of_ne hvw] at hv
      exact Nat.lt_succ_of_lt (h.short v n hv)
  · rw [← List.cons_append, List.mem_append, List.mem_singleton] at hx
    obtain hx | rfl := hx
    · exact h.queued x hx hkey
    · exact absurd hkey.symm (hkept hzero)

omit [DecidableEq O] [DecidableEq K] in
theorem Parents.pop (h : Parents key g start dist parent (temp :: queue)) :
    Parents key g start dist parent queue :=
  ⟨h.same, h.root, h.step, h.short, fun w hw => h.queued w (List.mem_cons_of_mem temp hw)⟩

omit [DecidableEq K] in
/-- The walk back from an object goes along a shortest path to it. -/
theorem Parents.walkBack (h : Parents key g start dist parent queue)
    (hwalk : ∀ v n, dist v = some n → Walk (Edge key g) (key start) n v)
    (hzero : dist (key start) = some 0) : ∀ {n fuel : ℕ} {w : O} (path : List O),
    dist (key w) = some n → n ≤ fuel → (key w = key start → w = start) →
      ∃ p, ObjGraph.walkBack key start parent fuel w path = .ok (p ++ path) ∧ p.length = n ∧
        (p ++ [w]).head? = some start ∧ ((p ++ [w]).map key).IsChain (Edge key g) := by
  intro n
  induction n with
  | zero =>
    intro fuel w path hw _ hroot
    obtain rfl := hroot (hwalk _ 0 hw).eq_of_zero
    refine ⟨[], ?_, rfl, rfl, List.isChain_singleton _⟩
    cases fuel <;> exact if_pos rfl
  | succ n ih =>
    intro fuel w path hw hfuel hroot
    cases fuel with
    | zero => cases hfuel
    | succ fuel =>
      have hne : w ≠ start := by
        rintro rfl
        cases hzero.symm.trans hw
      obtain ⟨p, hp⟩ := HashMap.mem_iff.mp ((h.same (key w)).mpr ⟨n + 1, hw⟩)
      obtain ⟨hpn, hedge, hproot⟩ := h.step _ p n hp hw
      obtain ⟨q, hrun, hlength, hhead, hchain⟩ := ih (p :: path) hpn
        (Nat.le_of_succ_le_succ hfuel) hproot
      refine ⟨q ++ [p], ?_, ?_, ?_, ?_⟩
      · simp only [ObjGraph.walkBack, if_neg hne, hp, hrun, List.append_assoc, List.singleton_append]
      · rw [List.length_append, hlength, List.length_singleton]
      · rw [List.head?_append_of_ne_nil _ (by simp), hhead]
      · rw [List.map_append, List.map_singleton]
        refine List.isChain_append.mpr ⟨hchain, List.isChain_singleton _, fun a ha b hb => ?_⟩
        rw [List.map_append, List.map_singleton, List.getLast?_concat] at ha
        cases ha
        cases hb
        exact hedge

/-- The distances are not kept, but there are some that fit the parents. -/
def PathSearch (key : O → K) (g : ObjGraph O K) (start stop : O) (parent : HashMap K O)
    (queue : List O) : Prop :=
  ∃ dist, Searching key g start stop dist queue ∧ Parents key g start dist parent queue

omit [DecidableEq O] in
theorem PathSearch.push {w : O} (h : PathSearch key g start stop parent (temp :: queue))
    (hg : Closed key g) {k : List O} (hk : g.map.get (key temp) = some k) (hw : w ∈ k)
    (hnew : key w ∉ parent) :
    PathSearch key g start stop (parent.put (key w) temp) (temp :: (queue ++ [w])) := by
  obtain ⟨dist, hsearch, hparents⟩ := h
  obtain ⟨d, hd⟩ := hsearch.explored.queued (key temp) List.mem_cons_self
  have hnone : dist (key w) = none := by
    refine Option.eq_none_iff_forall_ne_some.mpr fun n hn => hnew ?_
    exact (hparents.same _).mpr ⟨n, hn⟩
  exact ⟨_, hsearch.push hg hk hw hd hnone,
    hparents.push hsearch.explored.start ⟨k, hk, w, hw, rfl⟩ hd hnone⟩

/-- The neighbours up to the object get their parents, and all of them if it is not there. -/
theorem scanPath_spec (hg : Closed key g) {k : List O} (hk : g.map.get (key temp) = some k) :
    ∀ {l : List O} {parent : HashMap K O} {queue : List O}, l ⊆ k →
      PathSearch key g start stop parent (temp :: queue) →
      ∃ parent' queue', scanPath key stop temp l parent queue = (decide (stop ∈ l), parent', queue') ∧
        PathSearch key g start stop parent' (temp :: queue') ∧ (∀ v ∈ parent, v ∈ parent') ∧
        (if stop ∈ l then key stop ∈ parent' else ∀ w ∈ l, key w ∈ parent') ∧
        parent'.size + queue.length = parent.size + queue'.length := by
  intro l
  induction l with
  | nil => exact fun _ h => ⟨_, _, rfl, h, fun _ hv => hv, fun _ hw => (nomatch hw), rfl⟩
  | cons w l ih =>
    intro parent queue hlk h
    obtain ⟨hw, hlk⟩ := List.cons_subset.mp hlk
    -- The neighbour gets a parent unless it has one.
    obtain ⟨parent₁, queue₁, hstep, h₁, hkept₁, hw₁, hsize₁⟩ : ∃ parent₁ queue₁,
        (if key w ∈ parent then (parent, queue) else (parent.put (key w) temp, queue ++ [w])) =
          (parent₁, queue₁) ∧ PathSearch key g start stop parent₁ (temp :: queue₁) ∧
        (∀ v ∈ parent, v ∈ parent₁) ∧ key w ∈ parent₁ ∧
        parent₁.size + queue.length = parent.size + queue₁.length := by
      by_cases hold : key w ∈ parent
      · exact ⟨_, _, if_pos hold, h, fun _ hv => hv, hold, rfl⟩
      · refine ⟨_, _, if_neg hold, h.push hg hk hw hold, fun v hv => HashMap.mem_put.mpr (.inr hv),
          HashMap.mem_put.mpr (.inl rfl), ?_⟩
        rw [HashMap.size_put_of_not_mem hold, List.length_append, List.length_singleton]
        omega
    simp only [scanPath, hstep]
    by_cases hstop : w = stop
    · subst hstop
      exact ⟨parent₁, queue₁, by simp, h₁, hkept₁, by simpa using hw₁, hsize₁⟩
    · obtain ⟨parent', queue', hrun, h', hkept, hall, hsize⟩ := ih hlk h₁
      refine ⟨parent', queue', ?_, h', fun v hv => hkept v (hkept₁ v hv), ?_, by omega⟩
      · rw [if_neg hstop, hrun]
        simp [Ne.symm hstop]
      · by_cases hin : stop ∈ l
        · rw [if_pos (List.mem_cons_of_mem w hin)]
          rwa [if_pos hin] at hall
        · rw [if_neg fun h => (List.mem_cons.mp h).elim (fun heq => hstop heq.symm) hin]
          rw [if_neg hin] at hall
          exact List.forall_mem_cons.mpr ⟨hkept _ hw₁, hall⟩

/-- A path that is as short as any. -/
def ShortestPath (key : O → K) (g : ObjGraph O K) (u v : K) (path : List K) : Prop :=
  path.head? = some u ∧ path.getLast? = some v ∧ path.IsChain (Edge key g) ∧
    ∃ n, Distance (Edge key g) u v n ∧ path.length = n + 1

omit [DecidableEq K] in
/-- From an object with the key of the start that is not the start, one step leads there. -/
theorem walkBack_equal {fuel : ℕ} (hroot : parent.get (key start) = some start)
    (hkey : key stop = key start) (hne : stop ≠ start) (hfuel : fuel ≠ 0) :
    walkBack key start parent fuel stop [stop] = .ok [start, stop] := by
  cases fuel with
  | zero => exact absurd rfl hfuel
  | succ fuel =>
    simp only [walkBack, if_neg hne, hkey, hroot]
    cases fuel <;> exact if_pos rfl

omit [DecidableEq K] in
theorem PathSearch.walkBack (h : PathSearch key g start stop parent queue)
    (hstop : key stop ∈ parent) (hobject : key stop = key start → stop = start) :
    ∃ path, ObjGraph.walkBack key start parent parent.size stop [stop] = .ok path ∧
      ShortestPath key g (key start) (key stop) (path.map key) := by
  obtain ⟨dist, hsearch, hparents⟩ := h
  obtain ⟨n, hn⟩ := (hparents.same _).mp hstop
  obtain ⟨p, hrun, hlength, hhead, hchain⟩ := hparents.walkBack hsearch.explored.walk
    hsearch.explored.start [stop] hn (Nat.le_of_lt (hparents.short _ n hn)) hobject
  refine ⟨p ++ [stop], hrun, ?_, ?_, hchain, n, hsearch.explored.isLeast hn, ?_⟩
  · rw [List.head?_map, hhead]
    rfl
  · rw [List.getLast?_map, List.getLast?_concat]
    rfl
  · rw [List.length_map, List.length_append, hlength, List.length_singleton]

omit [DecidableEq O] [DecidableEq K] in
/-- There are rounds left as long as there is a vertex in the queue. -/
theorem PathSearch.round (h : PathSearch key g start stop parent (temp :: queue)) {fuel : ℕ}
    (hfuel : parent.size + fuel = (temp :: queue).length + g.map.size) : fuel ≠ 0 := by
  obtain ⟨dist, hsearch, hparents⟩ := h
  have hle : parent.size ≤ g.map.size := HashMap.size_le_of_subset fun v hv => by
    obtain ⟨n, hn⟩ := (hparents.same v).mp hv
    exact hsearch.known v n hn
  rw [List.length_cons] at hfuel
  omega

/-- What `getPath` returns once the object is met. -/
def Answer (key : O → K) (g : ObjGraph O K) (start stop : O) (path : List O) : Prop :=
  (∃ u n, Offers g stop u ∧ Distance (Edge key g) (key start) u n) ∧
    if key stop = key start ∧ stop ≠ start then path = [start, stop]
    else ShortestPath key g (key start) (key stop) (path.map key)

theorem searchPath_spec (hg : Closed key g) {fuel : ℕ} : ∀ {parent : HashMap K O} {queue : List O},
    PathSearch key g start stop parent queue → parent.size + fuel = queue.length + g.map.size →
    ∃ path, searchPath key g start stop fuel parent queue = .ok path ∧
      (Answer key g start stop path ∨
        path = [] ∧ ∀ u n, Distance (Edge key g) (key start) u n → ¬ Offers g stop u) := by
  -- Every vertex is in the queue once, so that a round for each is enough.
  induction fuel with
  | zero =>
    intro parent queue h hfuel
    cases queue with
    | nil =>
      obtain ⟨dist, hsearch, -⟩ := h
      exact ⟨[], rfl, .inr ⟨rfl, hsearch.exhausted⟩⟩
    | cons temp queue => exact absurd rfl (h.round hfuel)
  | succ fuel ih =>
    intro parent queue h hfuel
    cases queue with
    | nil =>
      obtain ⟨dist, hsearch, -⟩ := h
      exact ⟨[], rfl, .inr ⟨rfl, hsearch.exhausted⟩⟩
    | cons temp queue =>
      obtain ⟨dist, hsearch, hparents⟩ := h
      obtain ⟨d, hd⟩ := hsearch.explored.queued (key temp) List.mem_cons_self
      obtain ⟨l, hl⟩ := HashMap.mem_iff.mp (hsearch.known _ d hd)
      obtain ⟨parent', queue', hrun, h', -, hmet, hsize⟩ :=
        scanPath_spec hg hl (List.Subset.refl l) ⟨dist, hsearch, hparents⟩
      simp only [searchPath, hl, hrun]
      by_cases hstop : stop ∈ l
      · rw [if_pos hstop] at hmet
        have hmeets : ∃ u n, Offers g stop u ∧ Distance (Edge key g) (key start) u n :=
          ⟨key temp, d, ⟨l, hl, hstop⟩, hsearch.explored.isLeast hd⟩
        simp only [decide_eq_true hstop]
        -- An end with the key of the start has no parent of its own: the way back is one step.
        by_cases hequal : key stop = key start ∧ stop ≠ start
        · obtain ⟨dist', hsearch', hparents'⟩ := h'
          have hsome := hparents'.short _ 0 hsearch'.explored.start
          refine ⟨_, walkBack_equal hparents'.root hequal.1 hequal.2 (Nat.ne_of_gt hsome),
            .inl ⟨hmeets, ?_⟩⟩
          rw [if_pos hequal]
        · obtain ⟨path, hback, hpath⟩ := h'.walkBack hmet fun hkey =>
            Classical.not_not.mp fun hne => hequal ⟨hkey, hne⟩
          refine ⟨path, hback, .inl ⟨hmeets, ?_⟩⟩
          rwa [if_neg hequal]
      · rw [if_neg hstop] at hmet
        simp only [decide_eq_false hstop]
        obtain ⟨dist', hsearch', hparents'⟩ := h'
        refine ih ⟨dist', hsearch'.pop hl (fun w hw => ?_) hstop, hparents'.pop⟩ ?_
        · exact (hparents'.same _).mp (hmet w hw)
        · rw [List.length_cons] at hfuel
          omega

/-- `getPath` returns the vertices of a shortest path, and none if there is no path. -/
def GetPathRight (key : O → K) (g : ObjGraph O K) (start stop : O) : Prop :=
  ∃ path, getPath key g start stop = .ok path ∧
    (HasPath key g (key start) (key stop) →
      ShortestPath key g (key start) (key stop) (path.map key)) ∧
    (¬ HasPath key g (key start) (key stop) → path = [])

theorem getPathRight_of_closed (hg : Closed key g) : GetPathRight key g start stop ↔
    (HasPath key g (key start) (key stop) →
      (∃ u n, Offers g stop u ∧ Distance (Edge key g) (key start) u n) ∧
        (key stop = key start → stop = start)) := by
  by_cases hstart : key start ∈ g.map
  · have hinit : PathSearch key g start stop ((HashMap.empty K O).put (key start) start) [start] :=
      ⟨_, .init hstart, .init⟩
    have hsize : ((HashMap.empty K O).put (key start) start).size + g.map.size = 1 + g.map.size := rfl
    obtain ⟨path, hsearch, hpath⟩ := searchPath_spec hg hinit hsize
    have hrun : getPath key g start stop = .ok path := (if_pos hstart).trans hsearch
    obtain ⟨⟨⟨u, n, hoffers, hu⟩, hanswer⟩⟩ | ⟨rfl, hnone⟩ := hpath
    · have hwalk : HasPath key g (key start) (key stop) :=
        (hasPath_iff_walk hg hstart).mpr ⟨n + 1, .snoc hu.1 hoffers.edge⟩
      constructor
      · rintro ⟨path', hrun', hright, -⟩
        cases hrun.symm.trans hrun'
        refine fun _ => ⟨⟨u, n, hoffers, hu⟩, fun hkey => Classical.byContradiction fun hne => ?_⟩
        rw [if_pos ⟨hkey, hne⟩] at hanswer
        subst hanswer
        obtain ⟨-, -, -, m, hm, hlength⟩ := hright hwalk
        rw [hkey] at hm
        cases hm.unique distance_self
        cases hlength
      · intro h
        obtain ⟨-, hobject⟩ := h hwalk
        rw [if_neg fun hequal => hequal.2 (hobject hequal.1)] at hanswer
        exact ⟨path, hrun, fun _ => hanswer, fun hno => absurd hwalk hno⟩
    · constructor
      · rintro ⟨path', hrun', hright, -⟩ hwalk
        cases hrun.symm.trans hrun'
        cases (hright hwalk).1
      · intro h
        have hno : ¬ HasPath key g (key start) (key stop) := fun hwalk => by
          obtain ⟨⟨u, n, hoffers, hu⟩, -⟩ := h hwalk
          exact hnone u n hu hoffers
        exact ⟨[], hrun, fun hwalk => absurd hwalk hno, fun _ => rfl⟩
  · refine iff_of_true ⟨[], if_neg hstart, fun h => absurd h.1 hstart, fun _ => rfl⟩
      fun h => absurd h.1 hstart

/-- **Where `getPath` is right**: if there is a path, the object `to` is offered somewhere within reach,
and it is the start itself if it equals it. -/
theorem getPathRight_iff (key : O → K) (ord : HashOrder K) (ops : List (ZachGraph.Op O))
    (start stop : O) :
    let g := after key ord ops
    GetPathRight key g start stop ↔
      (HasPath key g (key start) (key stop) →
        (∃ u n, Offers g stop u ∧ Distance (Edge key g) (key start) u n) ∧
          (key stop = key start → stop = start)) :=
  getPathRight_of_closed (after_closed ord ops)

/-- A vertex without edges: there is a path from it to itself, of one vertex, but none is returned. -/
theorem single_path :
    let g := after id (.insertion ℕ) [.addVertex 0]
    ¬ GetPathRight id g 0 0 := by
  rintro g ⟨path, hrun, hright, -⟩
  have hnone : getPath id g 0 0 = .ok [] := rfl
  cases hrun.symm.trans hnone
  have hmem : (0 : ℕ) ∈ g.map := by decide
  cases (hright ⟨hmem, hmem, 0, .nil⟩).1

end UnionCollegeCode.Graph.ObjGraph
