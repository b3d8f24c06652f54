import UnionCollegeCode.OS161.Emufs.Namefile

/-!
# How `emufs_namefile` ends

Until a step fails, everything it does is known from the tree: which entries are read, which name is
found, how far the climb gets. What a search takes it gives back; the climb gives back what it holds
unless the path is too long.
-/

set_option autoImplicit false

namespace UnionCollegeCode.OS161.Emufs

open Function (update)
open Lib.EState
open Lib.PathNames

variable {V : Type}

/-! ## Steps that fail -/

/-- One of the next `n` steps fails. -/
def Emu.Fails (e : Emu V) (tick n : ℕ) : Prop := ∃ i < n, e.errno (tick + i) ≠ 0

section

variable {e : Emu V} {tick n m : ℕ}

theorem Emu.not_fails_zero : ¬ e.Fails tick 0 := by
  rintro ⟨i, hi, -⟩
  exact Nat.not_lt_zero i hi

theorem Emu.fails_one : e.Fails tick 1 ↔ e.errno tick ≠ 0 := by
  constructor
  · rintro ⟨i, hi, h⟩
    obtain rfl := Nat.lt_one_iff.mp hi
    exact h
  · intro h
    exact ⟨0, Nat.zero_lt_one, h⟩

theorem Emu.fails_add : e.Fails tick (n + m) ↔ e.Fails tick n ∨ e.Fails (tick + n) m := by
  constructor
  · rintro ⟨i, hi, h⟩
    by_cases hn : i < n
    · exact .inl ⟨i, hn, h⟩
    · obtain ⟨j, rfl⟩ := Nat.exists_eq_add_of_le (Nat.not_lt.mp hn)
      rw [← Nat.add_assoc] at h
      exact .inr ⟨j, Nat.lt_of_add_lt_add_left hi, h⟩
  · rintro (⟨i, hi, h⟩ | ⟨i, hi, h⟩)
    · exact ⟨i, Nat.lt_add_right m hi, h⟩
    · rw [Nat.add_assoc] at h
      exact ⟨n + i, Nat.add_lt_add_left hi n, h⟩

end

/-! ## What is taken and given back -/

namespace EmuState

variable {s : EmuState V}

/-- `n` steps later. -/
def after (s : EmuState V) (n : ℕ) : EmuState V := { s with tick := s.tick + n }

@[simp] theorem after_tick (n : ℕ) : (s.after n).tick = s.tick + n := rfl

@[simp] theorem after_refs (n : ℕ) : (s.after n).refs = s.refs := rfl

@[simp] theorem after_uioResid (n : ℕ) : (s.after n).uioResid = s.uioResid := rfl

@[simp] theorem after_moved (n : ℕ) : (s.after n).moved = s.moved := rfl

@[simp] theorem after_after (n m : ℕ) : (s.after n).after m = s.after (n + m) := by
  simp [after, Nat.add_assoc]

variable [DecidableEq V]

/-- One more reference to `v`. -/
def hold (s : EmuState V) (v : V) : EmuState V :=
  { s with refs := update s.refs v (s.refs v + 1) }

@[simp] theorem hold_tick (v : V) : (s.hold v).tick = s.tick := rfl

@[simp] theorem hold_refs (v : V) : (s.hold v).refs = update s.refs v (s.refs v + 1) := rfl

@[simp] theorem hold_uioResid (v : V) : (s.hold v).uioResid = s.uioResid := rfl

@[simp] theorem hold_moved (v : V) : (s.hold v).moved = s.moved := rfl

theorem hold_after (v : V) (n : ℕ) : (s.hold v).after n = (s.after n).hold v := rfl

theorem hold_comm (u v : V) : (s.hold u).hold v = (s.hold v).hold u := by
  by_cases h : u = v
  · rw [h]
  · have hrefs : ((s.hold u).hold v).refs = ((s.hold v).hold u).refs := by
      simp only [hold_refs, Function.update_of_ne h, Function.update_of_ne (Ne.symm h)]
      exact Function.update_comm h _ _ s.refs
    exact EmuState.ext hrefs rfl rfl rfl

/-- With a reference to `u`, unless it is `v`, which the caller holds. -/
def holdUnless (s : EmuState V) (v u : V) : EmuState V := if u = v then s else s.hold u

theorem holdUnless_tick (v u : V) : (s.holdUnless v u).tick = s.tick := by
  unfold holdUnless
  split <;> rfl

theorem holdUnless_after (v u : V) (n : ℕ) :
    (s.holdUnless v u).after n = (s.after n).holdUnless v u := by
  unfold holdUnless
  split <;> rfl

theorem holdUnless_hold (v u w : V) : (s.holdUnless v u).hold w = (s.hold w).holdUnless v u := by
  unfold holdUnless
  split
  · rfl
  · exact hold_comm u w

/-- What is held is missing until it is given back. -/
theorem hold_holdUnless_ne (v u w : V) : ((s.hold w).holdUnless v u).refs ≠ s.refs := by
  intro heq
  have hw := congrFun heq w
  unfold holdUnless at hw
  split at hw
  · rw [hold_refs, Function.update_self] at hw
    exact absurd hw (Nat.succ_ne_self _)
  · by_cases huw : u = w
    · subst huw
      rw [hold_refs, Function.update_self, hold_refs, Function.update_self] at hw
      omega
    · rw [hold_refs, Function.update_of_ne (Ne.symm huw), hold_refs, Function.update_self] at hw
      exact absurd hw (Nat.succ_ne_self _)

end EmuState

section

variable {e : Emu V} {s s' : EmuState V} {u v d c : V} {n : List UInt8} {offset : ℕ}

theorem takeStep_run : takeStep e s = .ok (e.errno s.tick) (s.after 1) := rfl

theorem emufsGetdirentry_fails (h : e.errno s.tick ≠ 0) :
    emufsGetdirentry e d offset s = .ok (e.errno s.tick, [], offset) (s.after 1) := by
  rw [emufsGetdirentry, bind_ok takeStep_run, if_pos h]
  rfl

theorem emufsGetdirentry_end (h : e.errno s.tick = 0)
    (hend : (e.tree.listing d)[offset]? = none) :
    emufsGetdirentry e d offset s = .ok (0, [], offset) (s.after 1) := by
  rw [emufsGetdirentry, bind_ok takeStep_run, if_neg (not_not.mpr h), hend]
  rfl

theorem emufsGetdirentry_reads (h : e.errno s.tick = 0)
    (hn : (e.tree.listing d)[offset]? = some n) :
    emufsGetdirentry e d offset s = .ok (0, n, offset + 1) (s.after 1) := by
  rw [emufsGetdirentry, bind_ok takeStep_run, if_neg (not_not.mpr h), hn]
  rfl

theorem uiomove_fails {bytes : List UInt8} (hroom : s.uioResid ≠ 0) (h : e.errno s.tick ≠ 0) :
    uiomove e bytes s = .ok (e.errno s.tick) (s.after 1) := by
  rw [uiomove, bind_ok get_ok, if_neg hroom, bind_ok takeStep_run, if_pos h]
  rfl

theorem uiomove_moves {bytes : List UInt8} (h : s.uioResid = 0 ∨ e.errno s.tick = 0) :
    uiomove e bytes s = .ok 0 { s.after (if s.uioResid = 0 then 0 else 1) with
      uioResid := s.uioResid - bytes.length
      moved := s.moved ++ bytes.take s.uioResid } := by
  by_cases hroom : s.uioResid = 0
  · rw [uiomove, bind_ok get_ok, if_pos hroom]
    have hsame : s = { s.after (if s.uioResid = 0 then 0 else 1) with
        uioResid := s.uioResid - bytes.length
        moved := s.moved ++ bytes.take s.uioResid } := by
      apply EmuState.ext <;> simp [hroom]
    exact congrArg (EStateM.Result.ok 0) hsame
  · rw [uiomove, bind_ok get_ok, if_neg hroom, bind_ok takeStep_run,
      if_neg (not_not.mpr (h.resolve_left hroom)), if_neg hroom]
    rfl

variable [DecidableEq V]

theorem vopDecref_hold : vopDecref v (s.hold v) = .ok () s := by
  have hrefs : update (s.hold v).refs v ((s.hold v).refs v - 1) = s.refs := by
    simp
  rw [vopDecref, bind_ok get_ok, if_neg (by simp)]
  exact congrArg (EStateM.Result.ok ()) (EmuState.ext hrefs rfl rfl rfl)

theorem decrefUnless_holdUnless : decrefUnless v (some u) (s.holdUnless v u) = .ok () s := by
  unfold decrefUnless EmuState.holdUnless
  by_cases h : u = v
  · simp [h]
  · simp only [h, ne_eq, not_false_eq_true, if_true, if_false]
    exact vopDecref_hold

theorem namefileOut_cur : namefileOut v (some u) none none (s.holdUnless v u) = .ok () s := by
  rw [namefileOut, bind_ok decrefUnless_holdUnless]
  rfl

theorem namefileOut_parent (hc : c ≠ v) :
    namefileOut v (some u) (some c) none ((s.hold c).holdUnless v u) = .ok () s := by
  have hparent : decrefUnless v (some c) (s.hold c) = .ok () s := by
    have hrun := decrefUnless_holdUnless (s := s) (v := v) (u := c)
    rwa [EmuState.holdUnless, if_neg hc] at hrun
  rw [namefileOut, bind_ok decrefUnless_holdUnless, bind_ok hparent]
  rfl

theorem emufsLookup_fails (h : e.errno s.tick ≠ 0) :
    emufsLookup e d n s = .ok (.error (e.errno s.tick)) (s.after 1) := by
  rw [emufsLookup, bind_ok takeStep_run, if_pos h]
  rfl

theorem emufsLookup_finds (h : e.errno s.tick = 0) (hc : e.tree.lookup d n = some c) :
    emufsLookup e d n s = .ok (.ok c) ((s.after 1).hold c) := by
  rw [emufsLookup, bind_ok takeStep_run, if_neg (not_not.mpr h), hc]
  rfl

theorem emufsLookparent_eq :
    emufsLookparent e d (dotdot ++ [slash]) 4 s =
      (do return (← emufsLookup e d dotdot, ([] : List UInt8))) s := rfl

/-! ## One round of the search -/

section

variable {fullPath : List UInt8} {rounds : ℕ}

theorem scan_read_fails (h : e.errno s.tick ≠ 0) :
    scan e d u fullPath (rounds + 1) offset s = .ok (.out (e.errno s.tick) none) (s.after 1) := by
  rw [scan, bind_ok (emufsGetdirentry_fails h)]
  dsimp only
  rw [if_pos h]
  rfl

theorem scan_end (h : e.errno s.tick = 0) (hend : (e.tree.listing d)[offset]? = none) :
    scan e d u fullPath (rounds + 1) offset s = .ok (.done fullPath) (s.after 1) := by
  rw [scan, bind_ok (emufsGetdirentry_end h hend)]
  dsimp only
  rw [if_neg (not_not.mpr rfl), if_pos rfl]
  rfl

variable (h : e.errno s.tick = 0) (hn : (e.tree.listing d)[offset]? = some n)

include h hn

theorem scan_lookup_fails (h' : e.errno (s.tick + 1) ≠ 0) :
    scan e d u fullPath (rounds + 1) offset s =
      .ok (.out (e.errno (s.tick + 1)) none) (s.after 2) := by
  have hlookup : emufsLookup e d n (s.after 1) = .ok (.error (e.errno (s.tick + 1))) (s.after 2) :=
    emufsLookup_fails h'
  rw [scan, bind_ok (emufsGetdirentry_reads h hn)]
  dsimp only
  rw [if_neg (not_not.mpr rfl), if_neg (Nat.succ_ne_self offset), bind_ok hlookup]
  rfl

/-- An entry that is read and looked up is given back. -/
theorem scan_reads (h' : e.errno (s.tick + 1) = 0) (hc : e.tree.lookup d n = some c) :
    scan e d u fullPath (rounds + 1) offset s =
      (if e.tree.isDir c = true ∧ c = u then
        if fullPath.length + n.length + 1 + 1 > pathMax then return .tooLong
        else return .done (n ++ slash :: fullPath)
      else scan e d u fullPath rounds (offset + 1)) (s.after 2) := by
  have hlookup : emufsLookup e d n (s.after 1) = .ok (.ok c) ((s.after 2).hold c) :=
    emufsLookup_finds h' hc
  rw [scan, bind_ok (emufsGetdirentry_reads h hn)]
  dsimp only
  rw [if_neg (not_not.mpr rfl), if_neg (Nat.succ_ne_self offset), bind_ok hlookup]
  have htype : ¬ (vopGettype e c).1 ≠ 0 := not_not.mpr rfl
  dsimp only
  rw [if_neg htype, bind_ok vopDecref_hold]
  rfl

end

/-! ## One directory -/

/-- The steps of the search for `u` in these entries of `d`. -/
def EmuTree.scanSteps (t : EmuTree V) (d u : V) : List (List UInt8) → ℕ
  | [] => 1
  | n :: ns => if t.lookup d n = some u then 2 else 2 + t.scanSteps d u ns

/-- What it ends in, unless a step fails. -/
def EmuTree.scanEnd (t : EmuTree V) (d u : V) (fullPath : List UInt8) (ns : List (List UInt8)) :
    Scan V :=
  match ns.find? fun n => t.lookup d n = some u with
  | none => .done fullPath
  | some n =>
    if pathMax < fullPath.length + n.length + 2 then .tooLong else .done (n ++ slash :: fullPath)

/-- The first entry takes two steps. -/
theorem fails_scanSteps {ns : List (List UInt8)} {i : ℕ} (hi : i < 2)
    (hfail : e.errno (s.tick + i) ≠ 0) : e.Fails s.tick (e.tree.scanSteps d u (n :: ns)) := by
  refine ⟨i, Nat.lt_of_lt_of_le hi ?_, hfail⟩
  unfold EmuTree.scanSteps
  split
  · exact Nat.le_refl 2
  · exact Nat.le_add_right 2 _

/-- A search ends early with an error, or as the tree has it; either way it holds nothing. -/
theorem scan_run (fullPath : List UInt8) {rest : List (List UInt8)} {rounds : ℕ}
    (hdir : e.tree.isDir u = true) (hrest : (e.tree.listing d).drop offset = rest)
    (hrounds : rest.length < rounds) :
    (e.Fails s.tick (e.tree.scanSteps d u rest) ∧ ∃ result n, result ≠ 0 ∧
      scan e d u fullPath rounds offset s = .ok (.out result none) (s.after n)) ∨
    (¬ e.Fails s.tick (e.tree.scanSteps d u rest) ∧
      scan e d u fullPath rounds offset s =
        .ok (e.tree.scanEnd d u fullPath rest) (s.after (e.tree.scanSteps d u rest))) := by
  -- A round reads an entry and looks it up, and either may fail; the search goes on if the entry is
  -- not `u`.
  induction rest generalizing offset rounds s with
  | nil =>
    obtain ⟨rounds, rfl⟩ := Nat.exists_eq_succ_of_ne_zero (Nat.ne_of_gt hrounds)
    have hend : (e.tree.listing d)[offset]? = none :=
      List.getElem?_eq_none (List.drop_eq_nil_iff.mp hrest)
    by_cases hread : e.errno s.tick = 0
    · exact .inr ⟨fun h => Emu.fails_one.mp h hread, scan_end hread hend⟩
    · exact .inl ⟨Emu.fails_one.mpr hread, _, 1, hread, scan_read_fails hread⟩
  | cons n ns ih =>
    obtain ⟨rounds, rfl⟩ := Nat.exists_eq_succ_of_ne_zero (Nat.ne_of_gt (Nat.zero_lt_of_lt hrounds))
    have hn : (e.tree.listing d)[offset]? = some n := by
      rw [← List.head?_drop, hrest]
      rfl
    have hns : (e.tree.listing d).drop (offset + 1) = ns := by
      rw [← List.tail_drop, hrest]
      rfl
    obtain ⟨c, hc⟩ := Option.isSome_iff_exists.mp
      (e.tree.lookup_listing d n (List.mem_of_getElem? hn))
    by_cases hread : e.errno s.tick = 0
    · by_cases hlookup : e.errno (s.tick + 1) = 0
      · have hfine : ¬ e.Fails s.tick 2 := by
          rw [Emu.fails_add (n := 1) (m := 1), Emu.fails_one, Emu.fails_one]
          simp [hread, hlookup]
        rw [scan_reads hread hn hlookup hc]
        by_cases hcu : c = u
        · subst hcu
          rw [EmuTree.scanSteps, if_pos hc, EmuTree.scanEnd, List.find?_cons_of_pos (by simpa using hc),
            if_pos ⟨hdir, rfl⟩]
          refine .inr ⟨hfine, ?_⟩
          dsimp only
          split <;> rfl
        · have hother : e.tree.lookup d n ≠ some u := by
            rw [hc]
            exact fun heq => hcu (Option.some.inj heq)
          have hend : e.tree.scanEnd d u fullPath (n :: ns) = e.tree.scanEnd d u fullPath ns := by
            rw [EmuTree.scanEnd, List.find?_cons_of_neg (by simpa using hother)]
            rfl
          rw [if_neg (fun h => hcu h.2), hend, EmuTree.scanSteps, if_neg hother, Emu.fails_add]
          rcases ih hns (Nat.lt_of_succ_lt_succ hrounds) (s := s.after 2) with
            ⟨hfails, result, k, hresult, hrun⟩ | ⟨hfails, hrun⟩
          · rw [EmuState.after_after] at hrun
            exact .inl ⟨.inr hfails, result, 2 + k, hresult, hrun⟩
          · rw [EmuState.after_after] at hrun
            exact .inr ⟨fun h => h.elim hfine hfails, hrun⟩
      · exact .inl ⟨fails_scanSteps (Nat.lt_succ_self 1) hlookup, _, 2, hlookup,
          scan_lookup_fails hread hn hlookup⟩
    · exact .inl ⟨fails_scanSteps Nat.zero_lt_two hread, _, 1, hread, scan_read_fails hread⟩

/-! ## The climb -/

/-- The steps that it takes to find `u` in its parent. -/
def EmuTree.findSteps (t : EmuTree V) (u : V) : ℕ :=
  1 + t.scanSteps (t.parent u) u (t.listing (t.parent u))

/-- The steps of a climb through these directories with a path of this length: up to the name that is
too long, or to the `uiomove` of the path. -/
def EmuTree.climbSteps (t : EmuTree V) (uioResid : ℕ) : List V → ℕ → ℕ
  | [], _ => if uioResid = 0 then 0 else 1
  | u :: us, len =>
    t.findSteps u + match t.entryName u with
      | none => t.climbSteps uioResid us len
      | some n => if pathMax < len + n.length + 2 then 0 else t.climbSteps uioResid us (len + n.length + 1)

/-- How a climb with `fullPath` ends. -/
inductive ClimbEnds (e : Emu V) (s : EmuState V) (us : List V) (fullPath : List UInt8) :
    ℕ → EmuState V → Prop
  | failed {result n : ℕ} (h : e.Fails s.tick (e.tree.climbSteps s.uioResid us fullPath.length))
      (hresult : result ≠ 0) : ClimbEnds e s us fullPath result (s.after n)
  | tooLong {s' : EmuState V}
      (h : ¬ e.Fails s.tick (e.tree.climbSteps s.uioResid us fullPath.length))
      (hlong : pathMax < (join slash (e.tree.namesTo us) ++ fullPath).length + 1)
      (hrefs : s'.refs ≠ s.refs) : ClimbEnds e s us fullPath ENAMETOOLONG s'
  | moved (h : ¬ e.Fails s.tick (e.tree.climbSteps s.uioResid us fullPath.length))
      (hfits : (join slash (e.tree.namesTo us) ++ fullPath).length + 1 ≤ pathMax) :
      ClimbEnds e s us fullPath 0
        { s.after (e.tree.climbSteps s.uioResid us fullPath.length) with
          uioResid := s.uioResid - ((join slash (e.tree.namesTo us) ++ fullPath).length + 1)
          moved := s.moved ++ (join slash (e.tree.namesTo us) ++ fullPath ++ [0]).take s.uioResid }

theorem emufsLookparent_fails (h : e.errno s.tick ≠ 0) :
    emufsLookparent e d (dotdot ++ [slash]) 4 s = .ok (.error (e.errno s.tick), []) (s.after 1) := by
  rw [emufsLookparent_eq, bind_ok (emufsLookup_fails h)]
  rfl

theorem emufsLookparent_finds (hdir : e.tree.isDir d = true) (h : e.errno s.tick = 0) :
    emufsLookparent e d (dotdot ++ [slash]) 4 s =
      .ok (.ok (e.tree.parent d), []) ((s.after 1).hold (e.tree.parent d)) := by
  rw [emufsLookparent_eq, bind_ok (emufsLookup_finds h (e.tree.lookup_dotdot d hdir))]
  rfl

section

variable {fullPath : List UInt8} {rounds : ℕ}

theorem climb_lookparent_fails (h : e.errno s.tick ≠ 0) :
    climbLoop e v (rounds + 1) u fullPath (s.holdUnless v u) =
      .ok (e.errno s.tick) (s.after 1) := by
  have hlookup := emufsLookparent_fails (e := e) (d := u) (s := s.holdUnless v u)
    (by rwa [EmuState.holdUnless_tick])
  rw [EmuState.holdUnless_tick, EmuState.holdUnless_after] at hlookup
  rw [climbLoop, bind_ok hlookup]
  dsimp only
  rw [bind_ok namefileOut_cur]
  rfl

variable {r : Scan V} {k : ℕ} (hdir : e.tree.isDir u = true) (h : e.errno s.tick = 0)
  (hscan : scan e (e.tree.parent u) u fullPath ((e.tree.listing (e.tree.parent u)).length + 1) 0
    (((s.after 1).hold (e.tree.parent u)).holdUnless v u) =
      .ok r (((s.after k).hold (e.tree.parent u)).holdUnless v u))

include hdir h hscan

/-- A round, once it is known how its search ends. -/
theorem climb_round :
    climbLoop e v (rounds + 1) u fullPath (s.holdUnless v u) =
      (match r with
      | .out result entryVn => do
        namefileOut v (some u) (some (e.tree.parent u)) entryVn
        return result
      | .tooLong => return ENAMETOOLONG
      | .done fullPath => do
        decrefUnless v (some u)
        if e.tree.parent u ≠ e.tree.efRoot then
          climbLoop e v rounds (e.tree.parent u) fullPath
        else
          let result ← uiomove e (fullPath ++ [0])
          namefileOut v (some (e.tree.parent u)) none none
          return result) (((s.after k).hold (e.tree.parent u)).holdUnless v u) := by
  have hlookup := emufsLookparent_finds (e := e) (d := u) (s := s.holdUnless v u) hdir
    (by rwa [EmuState.holdUnless_tick])
  rw [EmuState.holdUnless_after, EmuState.holdUnless_hold] at hlookup
  rw [climbLoop, bind_ok hlookup]
  dsimp only
  exact bind_ok hscan

end

/-! ## The whole climb -/

/-- At the root the path is moved. -/
theorem climb_end {fullPath : List UInt8} (hc : c ≠ v) (hroom : fullPath.length + 1 ≤ pathMax) :
    ∃ result s', (do
        let result ← uiomove e (fullPath ++ [0])
        namefileOut v (some c) none none
        return result) (s.hold c) = .ok result s' ∧ ClimbEnds e s [] fullPath result s' := by
  have hout (s : EmuState V) : namefileOut v (some c) none none (s.hold c) = .ok () s := by
    have hrun := namefileOut_cur (s := s) (v := v) (u := c)
    rwa [EmuState.holdUnless, if_neg hc] at hrun
  by_cases hmoves : s.uioResid = 0 ∨ e.errno s.tick = 0
  · have hmove : uiomove e (fullPath ++ [0]) (s.hold c) = .ok 0
        (({ s.after (if s.uioResid = 0 then 0 else 1) with
            uioResid := s.uioResid - (fullPath ++ [0]).length
            moved := s.moved ++ (fullPath ++ [0]).take s.uioResid } : EmuState V).hold c) :=
      uiomove_moves hmoves
    have hfine : ¬ e.Fails s.tick (e.tree.climbSteps s.uioResid [] fullPath.length) := by
      rw [EmuTree.climbSteps]
      split
      · exact Emu.not_fails_zero
      · case isFalse hne =>
        rw [Emu.fails_one, not_not]
        exact hmoves.resolve_left hne
    refine ⟨0, _, ?_, .moved hfine (by simpa using hroom)⟩
    rw [bind_ok hmove, bind_ok (hout _)]
    simp [EmuTree.climbSteps]
  · rw [not_or] at hmoves
    have hmove : uiomove e (fullPath ++ [0]) (s.hold c) = .ok (e.errno s.tick) ((s.after 1).hold c) :=
      uiomove_fails hmoves.1 hmoves.2
    refine ⟨e.errno s.tick, s.after 1, ?_, .failed ?_ hmoves.2⟩
    · rw [bind_ok hmove, bind_ok (hout _)]
      rfl
    · rw [EmuTree.climbSteps, if_neg hmoves.1, Emu.fails_one]
      exact hmoves.2

/-- The way up, from one directory below. -/
theorem ClimbEnds.cons {us : List V} {fullPath path' : List UInt8} {result : ℕ}
    (hfine : ¬ e.Fails s.tick (e.tree.findSteps u))
    (hpath : match e.tree.entryName u with
      | none => path' = fullPath
      | some n => fullPath.length + n.length + 2 ≤ pathMax ∧ path' = n ++ slash :: fullPath)
    (h : ClimbEnds e (s.after (e.tree.findSteps u)) us path' result s') :
    ClimbEnds e s (u :: us) fullPath result s' := by
  -- What is written in front of the path for `u` is in `path'` already.
  have hjoin : join slash (e.tree.namesTo (u :: us)) ++ fullPath =
      join slash (e.tree.namesTo us) ++ path' := by
    rw [EmuTree.namesTo_cons, join_append]
    cases hname : e.tree.entryName u with
    | none =>
      simp only [hname] at hpath
      simp [hpath]
    | some n =>
      simp only [hname] at hpath
      simp [hpath.2]
  have hsteps : e.tree.climbSteps s.uioResid (u :: us) fullPath.length =
      e.tree.findSteps u + e.tree.climbSteps s.uioResid us path'.length := by
    rw [EmuTree.climbSteps]
    cases hname : e.tree.entryName u with
    | none =>
      simp only [hname] at hpath
      rw [hpath]
    | some n =>
      simp only [hname] at hpath
      have hlen : path'.length = fullPath.length + n.length + 1 := by
        rw [hpath.2, List.length_append, List.length_cons]
        omega
      simp only [Nat.not_lt.mpr hpath.1, if_false, hlen]
  have hfails : e.Fails s.tick (e.tree.climbSteps s.uioResid (u :: us) fullPath.length) ↔
      e.Fails (s.tick + e.tree.findSteps u) (e.tree.climbSteps s.uioResid us path'.length) := by
    rw [hsteps, Emu.fails_add]
    exact or_iff_right hfine
  cases h with
  | failed h hresult =>
    rw [EmuState.after_after]
    exact .failed (hfails.mpr h) hresult
  | tooLong h hlong hrefs => exact .tooLong (fun hf => h (hfails.mp hf)) (hjoin ▸ hlong) hrefs
  | moved h hfits =>
    have hmoved := ClimbEnds.moved (s := s) (fun hf => h (hfails.mp hf)) (hjoin ▸ hfits)
    rw [hjoin, hsteps, ← EmuState.after_after] at hmoved
    exact hmoved

/-- How the search for `u` in its parent ends, without a failure. -/
theorem scanEnd_eq (fullPath : List UInt8) :
    e.tree.scanEnd (e.tree.parent u) u fullPath (e.tree.listing (e.tree.parent u)) =
      match e.tree.entryName u with
      | none => .done fullPath
      | some n =>
        if pathMax < fullPath.length + n.length + 2 then .tooLong
        else .done (n ++ slash :: fullPath) := rfl

/-- The search for `u` in its parent, which is held meanwhile. -/
theorem search_run (v : V) (fullPath : List UInt8) (hdir : e.tree.isDir u = true)
    (h : e.errno s.tick = 0) :
    (e.Fails s.tick (e.tree.findSteps u) ∧ ∃ result k, result ≠ 0 ∧
      scan e (e.tree.parent u) u fullPath ((e.tree.listing (e.tree.parent u)).length + 1) 0
        (((s.after 1).hold (e.tree.parent u)).holdUnless v u) =
          .ok (.out result none) (((s.after k).hold (e.tree.parent u)).holdUnless v u)) ∨
    (¬ e.Fails s.tick (e.tree.findSteps u) ∧
      scan e (e.tree.parent u) u fullPath ((e.tree.listing (e.tree.parent u)).length + 1) 0
        (((s.after 1).hold (e.tree.parent u)).holdUnless v u) =
          .ok (e.tree.scanEnd (e.tree.parent u) u fullPath (e.tree.listing (e.tree.parent u)))
            (((s.after (e.tree.findSteps u)).hold (e.tree.parent u)).holdUnless v u)) := by
  have hsteps : e.Fails s.tick (e.tree.findSteps u) ↔ e.Fails (s.tick + 1)
      (e.tree.scanSteps (e.tree.parent u) u (e.tree.listing (e.tree.parent u))) := by
    rw [EmuTree.findSteps, Emu.fails_add, Emu.fails_one]
    exact or_iff_right (not_not.mpr h)
  have hscan := scan_run (e := e) (d := e.tree.parent u) (u := u)
    (s := ((s.after 1).hold (e.tree.parent u)).holdUnless v u) fullPath hdir List.drop_zero
    (Nat.lt_succ_self _)
  -- What is held during the search is pulled out of its last state.
  simp only [EmuState.holdUnless_tick, EmuState.hold_tick, EmuState.after_tick, ← hsteps,
    EmuState.holdUnless_after, EmuState.hold_after, EmuState.after_after] at hscan
  rcases hscan with ⟨hfails, result, k, hresult, hrun⟩ | ⟨hfine, hrun⟩
  · exact .inl ⟨hfails, result, 1 + k, hresult, hrun⟩
  · exact .inr ⟨hfine, hrun⟩

/-- From the parent the climb ends as it should, whatever path it has come to. -/
def ClimbsOn (e : Emu V) (s : EmuState V) (v u : V) (rounds : ℕ) (us : List V) : Prop :=
  ∀ path', path'.length + 1 ≤ pathMax → ∃ result s', (do
    if e.tree.parent u ≠ e.tree.efRoot then
      climbLoop e v rounds (e.tree.parent u) path'
    else
      let result ← uiomove e (path' ++ [0])
      namefileOut v (some (e.tree.parent u)) none none
      return result) ((s.after (e.tree.findSteps u)).hold (e.tree.parent u)) = .ok result s' ∧
    ClimbEnds e (s.after (e.tree.findSteps u)) us path' result s'

section

variable {rounds : ℕ} {fullPath : List UInt8} {us : List V} (hdir : e.tree.isDir u = true)
  (hfirst : e.errno s.tick = 0) (hfine : ¬ e.Fails s.tick (e.tree.findSteps u))
  (hscan : scan e (e.tree.parent u) u fullPath ((e.tree.listing (e.tree.parent u)).length + 1) 0
    (((s.after 1).hold (e.tree.parent u)).holdUnless v u) =
      .ok (e.tree.scanEnd (e.tree.parent u) u fullPath (e.tree.listing (e.tree.parent u)))
        (((s.after (e.tree.findSteps u)).hold (e.tree.parent u)).holdUnless v u))

include hdir hfirst hfine hscan

/-- The child is let go, and the parent is the one to look for. -/
theorem climb_goes_on {path' : List UInt8} (hrest : ClimbsOn e s v u rounds us)
    (hroom : path'.length + 1 ≤ pathMax)
    (hend : e.tree.scanEnd (e.tree.parent u) u fullPath (e.tree.listing (e.tree.parent u)) =
      .done path')
    (hpath : match e.tree.entryName u with
      | none => path' = fullPath
      | some n => fullPath.length + n.length + 2 ≤ pathMax ∧ path' = n ++ slash :: fullPath) :
    ∃ result s', climbLoop e v (rounds + 1) u fullPath (s.holdUnless v u) = .ok result s' ∧
      ClimbEnds e s (u :: us) fullPath result s' := by
  obtain ⟨result, s', hrun, hends⟩ := hrest path' hroom
  refine ⟨result, s', ?_, hends.cons hfine hpath⟩
  rw [climb_round hdir hfirst hscan, hend]
  dsimp only
  rw [bind_ok decrefUnless_holdUnless]
  exact hrun

/-- `ENAMETOOLONG` is returned on the spot, with the parent and the child still held. -/
theorem climb_tooLong (hname : e.tree.entryName u = some n)
    (hlong : pathMax < fullPath.length + n.length + 2) :
    ∃ result s', climbLoop e v (rounds + 1) u fullPath (s.holdUnless v u) = .ok result s' ∧
      ClimbEnds e s (u :: us) fullPath result s' := by
  have hend := scanEnd_eq (e := e) (u := u) fullPath
  rw [hname] at hend
  have hlost : (((s.after (e.tree.findSteps u)).hold (e.tree.parent u)).holdUnless v u).refs ≠
      s.refs := EmuState.hold_holdUnless_ne (s := s.after (e.tree.findSteps u)) v u _
  refine ⟨ENAMETOOLONG, _, ?_, .tooLong ?_ ?_ hlost⟩
  · rw [climb_round hdir hfirst hscan, hend]
    simp only [hlong, if_true]
    rfl
  · rw [EmuTree.climbSteps, hname]
    simp only [hlong, if_true]
    exact hfine
  · rw [EmuTree.namesTo_cons, hname, join_append]
    simp
    omega

end

/-- One directory of the climb, when it is known how the climb goes on from its parent. -/
theorem climb_level {rounds : ℕ} {fullPath : List UInt8} {us : List V}
    (hdir : e.tree.isDir u = true) (hne : e.tree.parent u ≠ v) (hroom : fullPath.length + 1 ≤ pathMax)
    (hrest : ClimbsOn e s v u rounds us) :
    ∃ result s', climbLoop e v (rounds + 1) u fullPath (s.holdUnless v u) = .ok result s' ∧
      ClimbEnds e s (u :: us) fullPath result s' := by
  have hfind {m : ℕ} : e.Fails s.tick (e.tree.findSteps u) →
      e.Fails s.tick (e.tree.findSteps u + m) := fun h => Emu.fails_add.mpr (.inl h)
  by_cases hfirst : e.errno s.tick = 0
  swap
  · refine ⟨e.errno s.tick, s.after 1, climb_lookparent_fails hfirst, .failed (hfind ?_) hfirst⟩
    rw [EmuTree.findSteps, Emu.fails_add, Emu.fails_one]
    exact .inl hfirst
  rcases search_run v fullPath hdir hfirst with ⟨hfails, result, k, hresult, hscan⟩ | ⟨hfine, hscan⟩
  · refine ⟨result, s.after k, ?_, .failed (hfind hfails) hresult⟩
    rw [climb_round hdir hfirst hscan]
    dsimp only
    rw [bind_ok (namefileOut_parent hne)]
    rfl
  · have hend := scanEnd_eq (e := e) (u := u) fullPath
    cases hname : e.tree.entryName u with
    | none =>
      rw [hname] at hend
      exact climb_goes_on hdir hfirst hfine hscan hrest hroom hend (by rw [hname])
    | some n =>
      rw [hname] at hend
      by_cases hlong : pathMax < fullPath.length + n.length + 2
      · exact climb_tooLong hdir hfirst hfine hscan hname hlong
      · have hlen : (n ++ slash :: fullPath).length + 1 ≤ pathMax := by
          rw [List.length_append, List.length_cons]
          omega
        refine climb_goes_on hdir hfirst hfine hscan hrest hlen ?_ ?_
        · rw [hend]
          simp [hlong]
        · rw [hname]
          exact ⟨Nat.not_lt.mp hlong, rfl⟩

theorem climb_run {rounds : ℕ} {fullPath : List UInt8} (hdepth : e.tree.depth u = rounds + 1)
    (hdir : e.tree.isDir u = true) (hle : e.tree.depth u ≤ e.tree.depth v)
    (hroom : fullPath.length + 1 ≤ pathMax) :
    ∃ result s', climbLoop e v (rounds + 1) u fullPath (s.holdUnless v u) = .ok result s' ∧
      ClimbEnds e s (e.tree.above (rounds + 1) u) fullPath result s' := by
  induction rounds generalizing u fullPath s with
  | zero =>
    have hparent := EmuTree.depth_of_succ hdepth
    have hne : e.tree.parent u ≠ v := by
      rintro rfl
      omega
    apply climb_level hdir hne hroom
    intro path' hpath
    rw [if_neg (not_not.mpr (EmuTree.eq_root hparent))]
    exact climb_end hne hpath
  | succ rounds ih =>
    have hparent := EmuTree.depth_of_succ hdepth
    have hne : e.tree.parent u ≠ v := by
      rintro rfl
      omega
    apply climb_level hdir hne hroom
    intro path' hpath
    have hrest := ih (s := s.after (e.tree.findSteps u)) hparent (e.tree.isDir_parent u hdir) (by omega)
      hpath
    rw [EmuState.holdUnless, if_neg hne] at hrest
    rw [if_pos (EmuTree.ne_root hparent)]
    exact hrest

end

end UnionCollegeCode.OS161.Emufs
