import UnionCollegeCode.OS161.Emufs.NamefileRun

/-!
# When `emufs_namefile` is right

Its errors are those of the device. Everything else it takes for a success: that there was no memory,
that a directory was not found, that the path was longer than the caller's buffer. And when the path
becomes too long for its own, it returns with what it holds.
-/

set_option autoImplicit false

namespace UnionCollegeCode.OS161.Emufs

open Lib.EState
open Lib.PathNames

variable {V : Type} [DecidableEq V] {e : Emu V} {k : Kmallocs} {v : V} {s s' : EmuState V}

def Kmallocs.Succeed (k : Kmallocs) : Prop :=
  k.fullPath = true ∧ k.tmpBuf = true ∧ k.entryName = true

/-- Nothing that the call does fails, and no name is missing. -/
structure NoFailure (e : Emu V) (k : Kmallocs) (v : V) (s s' : EmuState V) : Prop where
  memory : v ≠ e.tree.efRoot → k.Succeed
  steps : ∀ i, s.tick ≤ i → i < s'.tick → e.errno i = 0
  listed : e.tree.Listed (e.tree.climb v)

/-- On success a path that leads to `v` has been written and nothing has failed, and no reference has
been kept or lost in any case. -/
structure Right (e : Emu V) (k : Kmallocs) (v : V) (s : EmuState V) (result : ℕ)
    (s' : EmuState V) : Prop where
  path : result = 0 → ∃ bytes, s'.moved = s.moved ++ bytes ∧ e.tree.LeadsTo bytes v
  noFailure : result = 0 → NoFailure e k v s s'
  refs : s'.refs = s.refs

/-- The call returns, and is right. -/
def NamefileRight (e : Emu V) (k : Kmallocs) (v : V) (s : EmuState V) : Prop :=
  ∃ result s', emufsNamefile e k v s = .ok result s' ∧ Right e k v s result s'

/-- There is memory, and either a step fails in time, or the path can be found and fits. -/
def GoesWell (e : Emu V) (k : Kmallocs) (v : V) (s : EmuState V) : Prop :=
  k.Succeed ∧
    (e.Fails s.tick (e.tree.climbSteps s.uioResid (e.tree.climb v) 0) ∨
      e.tree.Listed (e.tree.climb v) ∧ (e.tree.path v).length + 1 ≤ pathMax ∧
        (e.tree.path v).length ≤ s.uioResid + 1)

/-! ## The ends of the call -/

theorem namefile_root : emufsNamefile e k e.tree.efRoot s = .ok 0 s := by
  rw [emufsNamefile, if_pos rfl]
  rfl

/-- Without memory it is a success. -/
theorem namefile_noMemory (hv : v ≠ e.tree.efRoot) (hk : ¬ k.Succeed) :
    emufsNamefile e k v s = .ok 0 s := by
  have hnone : k.fullPath = false ∨ k.tmpBuf = false ∨ k.entryName = false := by
    simpa [Kmallocs.Succeed, Decidable.or_iff_not_imp_left] using hk
  have hout : namefileOut v (some v) none none s = .ok () s := by
    have hrun := namefileOut_cur (s := s) (v := v) (u := v)
    rwa [EmuState.holdUnless, if_pos rfl] at hrun
  rw [emufsNamefile, if_neg hv, if_pos hnone, bind_ok hout]
  rfl

/-- With memory it climbs. -/
theorem namefile_climbs (hv : v ≠ e.tree.efRoot) (hdir : e.tree.isDir v = true) (hk : k.Succeed) :
    ∃ result s', emufsNamefile e k v s = .ok result s' ∧
      ClimbEnds e s (e.tree.climb v) [] result s' := by
  obtain ⟨rounds, hdepth⟩ : ∃ rounds, e.tree.depth v = rounds + 1 := ⟨_, e.tree.depth_parent v hv⟩
  have hroom : ([] : List UInt8).length + 1 ≤ pathMax := by decide
  obtain ⟨result, s', hrun, hends⟩ := climb_run (s := s) hdepth hdir (Nat.le_refl _) hroom
  refine ⟨result, s', ?_, ?_⟩
  · rw [EmuState.holdUnless, if_pos rfl] at hrun
    rw [emufsNamefile, if_neg hv, if_neg (by simp [hk.1, hk.2.1, hk.2.2]), hdepth]
    exact hrun
  · rw [EmuTree.climb, hdepth]
    exact hends

/-! ## Right and wrong ends -/

omit [DecidableEq V] in
theorem steps_fine {tick n : ℕ} (h : ¬ e.Fails tick n) (i : ℕ) (hle : tick ≤ i) (hlt : i < tick + n) :
    e.errno i = 0 := by
  obtain ⟨j, rfl⟩ := Nat.exists_eq_add_of_le hle
  by_contra hfail
  exact h ⟨j, Nat.lt_of_add_lt_add_left hlt, hfail⟩

/-- A climb is right if it fails, or moves the whole path but for its last slash. -/
theorem right_iff (hv : v ≠ e.tree.efRoot) (hk : k.Succeed) {result : ℕ}
    (h : ClimbEnds e s (e.tree.climb v) [] result s') :
    Right e k v s result s' ↔ GoesWell e k v s := by
  have hpath : join slash (e.tree.namesTo (e.tree.climb v)) ++ [] = e.tree.path v :=
    List.append_nil _
  cases h with
  | failed hfails hresult =>
    constructor
    · intro _
      exact ⟨hk, .inl hfails⟩
    · intro _
      exact ⟨fun h => absurd h hresult, fun h => absurd h hresult, rfl⟩
  | tooLong hfine hlong hrefs =>
    rw [hpath] at hlong
    constructor
    · intro hright
      exact absurd hright.refs hrefs
    · rintro ⟨-, hfails | ⟨-, hfits, -⟩⟩
      · exact absurd hfails hfine
      · exact absurd hfits (Nat.not_le.mpr hlong)
  | moved hfine hfits =>
    rw [hpath] at hfits ⊢
    have hlead := EmuTree.leadsTo_take_iff (t := e.tree) (r := s.uioResid) hv
    constructor
    · intro hright
      obtain ⟨bytes, hbytes, hleads⟩ := hright.path rfl
      rw [← List.append_cancel_left hbytes] at hleads
      obtain ⟨hlisted, hlen⟩ := hlead.mp hleads
      exact ⟨hk, .inr ⟨hlisted, hfits, hlen⟩⟩
    · rintro ⟨-, hfails | ⟨hlisted, -, hlen⟩⟩
      · exact absurd hfails hfine
      · exact ⟨fun _ => ⟨_, rfl, hlead.mpr ⟨hlisted, hlen⟩⟩,
          fun _ => ⟨fun _ => hk, steps_fine hfine, hlisted⟩, rfl⟩

/-- A directory other than the root needs memory. -/
theorem not_right_noMemory (hv : v ≠ e.tree.efRoot) (hk : ¬ k.Succeed) :
    ¬ NamefileRight e k v s := by
  rintro ⟨result, s', hrun, hright⟩
  rw [namefile_noMemory hv hk] at hrun
  cases hrun
  exact hk ((hright.noFailure rfl).memory hv)

theorem right_root : NamefileRight e k e.tree.efRoot s := by
  have hclimb : e.tree.climb e.tree.efRoot = [] := by
    rw [EmuTree.climb, e.tree.depth_root]
    rfl
  refine ⟨0, s, namefile_root, fun _ => ⟨[], (List.append_nil _).symm, rfl⟩, fun _ => ⟨?_, ?_, ?_⟩, rfl⟩
  · intro hne
    exact absurd rfl hne
  · intro i hle hlt
    exact absurd hlt (Nat.not_lt.mpr hle)
  · rw [hclimb]
    exact fun u hu => absurd hu List.not_mem_nil

theorem namefileRight_iff (hdir : e.tree.isDir v = true) :
    NamefileRight e k v s ↔ v = e.tree.efRoot ∨ GoesWell e k v s := by
  by_cases hv : v = e.tree.efRoot
  · subst hv
    exact iff_of_true right_root (Or.inl rfl)
  · rw [or_iff_right hv]
    by_cases hk : k.Succeed
    · obtain ⟨result, s', hrun, hends⟩ := namefile_climbs (s := s) hv hdir hk
      rw [← right_iff hv hk hends]
      constructor
      · rintro ⟨result', s'', hrun', hright⟩
        cases hrun.symm.trans hrun'
        exact hright
      · intro hright
        exact ⟨result, s', hrun, hright⟩
    · exact iff_of_false (not_right_noMemory hv hk) fun h => hk h.1

/-! ## A directory in the root -/

def oneDirLookup (d : Bool) (n : List UInt8) : Option Bool :=
  if n = dotdot then some false else if d = false ∧ n = [100] then some true else none

theorem oneDirLookup_child {d : Bool} {n : List UInt8} (h : oneDirLookup d n = some true) :
    n = [100] := by
  unfold oneDirLookup at h
  split at h
  · cases h
  · split at h
    · case isTrue hname => exact hname.2
    · cases h

/-- A root (`false`) and a directory `d` (`true`), which may have been removed from the listing. -/
def oneDir (present : Bool) : EmuTree Bool where
  efRoot := false
  isDir _ := true
  parent _ := false
  depth v := if v then 1 else 0
  listing v := if v then [] else if present then [[100]] else []
  lookup := oneDirLookup
  depth_root := rfl
  depth_parent v hv := by
    cases v with
    | false => exact absurd rfl hv
    | true => rfl
  isDir_parent _ _ := rfl
  lookup_dotdot _ _ := rfl
  lookup_listing d n hn := by
    cases d <;> cases present <;> simp_all
    rfl
  isName d n hn := by
    cases d <;> cases present <;> simp_all
    exact ⟨⟨by decide, by decide, by decide⟩, by decide⟩
  depth_lookup d n c h := by
    cases c <;> simp
  lookup_unique d n m c hn hm hc hd := by
    cases c with
    | false => exact absurd rfl hc
    | true => exact (oneDirLookup_child hn).trans (oneDirLookup_child hm).symm
  listing_int d := by
    cases d <;> cases present <;> decide

def start : EmuState Bool := ⟨fun _ => 1, 0, 10, []⟩

def allSucceed : Kmallocs := ⟨true, true, true⟩

theorem namefileRight_iff_oneDir :
    NamefileRight ⟨oneDir true, fun _ => 0⟩ allSucceed true start := by
  have hlisted : (oneDir true).Listed ((oneDir true).climb true) := by
    unfold EmuTree.Listed
    decide
  have hgood : GoesWell ⟨oneDir true, fun _ => 0⟩ allSucceed true start :=
    ⟨⟨rfl, rfl, rfl⟩, .inr ⟨hlisted, by decide, by decide⟩⟩
  exact (namefileRight_iff rfl).mpr (.inr hgood)

/-- Where `d` is not found, the call succeeds with the path of the root; without memory it succeeds
with nothing. -/
theorem oneDir_lost :
    (∃ s', emufsNamefile ⟨oneDir false, fun _ => 0⟩ allSucceed true start = .ok 0 s' ∧
      s'.moved = [0]) ∧
    ¬ NamefileRight ⟨oneDir false, fun _ => 0⟩ allSucceed true start ∧
    emufsNamefile ⟨oneDir true, fun _ => 0⟩ ⟨false, true, true⟩ true start = .ok 0 start ∧
    ¬ NamefileRight ⟨oneDir true, fun _ => 0⟩ ⟨false, true, true⟩ true start := by
  have hne : true ≠ (oneDir true).efRoot := Bool.noConfusion
  have hmemory : ¬ (⟨false, true, true⟩ : Kmallocs).Succeed := fun h => Bool.noConfusion h.1
  have hrun : ∃ s', emufsNamefile ⟨oneDir false, fun _ => 0⟩ allSucceed true start = .ok 0 s' ∧
      s'.moved = [0] := ⟨_, rfl, rfl⟩
  refine ⟨hrun, ?_, namefile_noMemory hne hmemory, not_right_noMemory hne hmemory⟩
  rintro ⟨result, s', hright, hr⟩
  obtain ⟨s'', hok, -⟩ := hrun
  cases hok.symm.trans hright
  have hlisted := (hr.noFailure rfl).listed true (by decide)
  exact absurd hlisted (by decide)

end UnionCollegeCode.OS161.Emufs
