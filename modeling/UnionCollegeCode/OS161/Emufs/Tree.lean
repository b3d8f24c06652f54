import Mathlib.Algebra.Order.Ring.Nat
import Mathlib.Data.List.Monad
import UnionCollegeCode.Lib.PathNames

/-!
# The tree behind the emulated file system

What `emu.c` relies on of the device: a directory's listing and its lookups agree, `..` reaches the
parent, and a directory has one name in its parent. Whether it is listed there is left open, since it
may have been removed.
-/

set_option autoImplicit false

namespace UnionCollegeCode.OS161.Emufs

open Lib.PathNames

def slash : UInt8 := 47
def dotdot : List UInt8 := [46, 46]

/-- `__NAME_MAX` and `__PATH_MAX`. -/
def nameMax : ℕ := 255
def pathMax : ℕ := 1024

structure EmuTree (V : Type) where
  efRoot : V
  isDir : V → Bool
  parent : V → V
  depth : V → ℕ
  listing : V → List (List UInt8)
  lookup : V → List UInt8 → Option V
  depth_root : depth efRoot = 0
  depth_parent : ∀ v, v ≠ efRoot → depth v = depth (parent v) + 1
  isDir_parent : ∀ v, isDir v = true → isDir (parent v) = true
  lookup_dotdot : ∀ v, isDir v = true → lookup v dotdot = some (parent v)
  lookup_listing : ∀ d, ∀ n ∈ listing d, (lookup d n).isSome
  isName : ∀ d, ∀ n ∈ listing d, IsName slash 0 n ∧ n.length ≤ nameMax
  depth_lookup : ∀ d n c, lookup d n = some c → depth c ≤ depth d + 1
  lookup_unique : ∀ d n m c, lookup d n = some c → lookup d m = some c → c ≠ efRoot →
    parent c = d → n = m
  /-- The number of an entry is an `int`. -/
  listing_int : ∀ d, (listing d).length < 2 ^ 31

namespace EmuTree

variable {V : Type} {t : EmuTree V} {u v d : V}

/-- Where a path leads, component by component from the root. -/
def resolve (t : EmuTree V) (ns : List (List UInt8)) : Option V := ns.foldlM t.lookup t.efRoot

def LeadsTo (t : EmuTree V) (bytes : List UInt8) (v : V) : Prop :=
  t.resolve (names slash 0 bytes) = some v

/-- `v` and what is above it, `n` of them. -/
def above (t : EmuTree V) : ℕ → V → List V
  | 0, _ => []
  | n + 1, v => v :: t.above n (t.parent v)

/-- The directories from `v` up, without the root. -/
def climb (t : EmuTree V) (v : V) : List V := t.above (t.depth v) v

section

variable [DecidableEq V]

/-- The first name in its parent that leads to `u`. -/
def entryName (t : EmuTree V) (u : V) : Option (List UInt8) :=
  (t.listing (t.parent u)).find? fun n => t.lookup (t.parent u) n = some u

/-- The names on the way from the root, as far as there are any. -/
def namesTo (t : EmuTree V) (us : List V) : List (List UInt8) := (us.filterMap t.entryName).reverse

def path (t : EmuTree V) (v : V) : List UInt8 := join slash (t.namesTo (t.climb v))

/-- Every directory on the way is found in its parent. -/
def Listed (t : EmuTree V) (us : List V) : Prop := ∀ u ∈ us, (t.entryName u).isSome

end

/-! ## Depth -/

theorem eq_root (h : t.depth v = 0) : v = t.efRoot := by
  by_cases hroot : v = t.efRoot
  · exact hroot
  · rw [t.depth_parent v hroot] at h
    exact absurd h (Nat.succ_ne_zero _)

theorem ne_root {n : ℕ} (h : t.depth v = n + 1) : v ≠ t.efRoot := by
  rintro rfl
  rw [t.depth_root] at h
  exact absurd h.symm (Nat.succ_ne_zero n)

theorem depth_of_succ {n : ℕ} (h : t.depth v = n + 1) : t.depth (t.parent v) = n := by
  have hparent := t.depth_parent v (ne_root h)
  omega

theorem length_above (n : ℕ) (v : V) : (t.above n v).length = n := by
  induction n generalizing v with
  | zero => rfl
  | succ n ih => rw [above, List.length_cons, ih]

/-- A lookup goes down by one at most. -/
theorem depth_foldlM {ns : List (List UInt8)} (h : ns.foldlM t.lookup d = some v) :
    t.depth v ≤ t.depth d + ns.length := by
  induction ns generalizing d with
  | nil =>
    obtain rfl := Option.some.inj h
    exact Nat.le_refl _
  | cons n ns ih =>
    rw [List.foldlM_cons] at h
    obtain ⟨c, hc, hrest⟩ := Option.bind_eq_some_iff.mp h
    have hstep := t.depth_lookup d n c hc
    have hle := ih hrest
    rw [List.length_cons]
    omega

theorem depth_resolve {ns : List (List UInt8)} (h : t.resolve ns = some v) :
    t.depth v ≤ ns.length := by
  have hle := depth_foldlM h
  rwa [t.depth_root, Nat.zero_add] at hle

theorem resolve_append (ns : List (List UInt8)) (n : List UInt8) :
    t.resolve (ns ++ [n]) = (t.resolve ns).bind fun d => t.lookup d n := by
  simp [resolve, List.foldlM_append]

/-! ## The path -/

variable [DecidableEq V]

theorem entryName_eq_some {n : List UInt8} (h : t.entryName u = some n) :
    n ∈ t.listing (t.parent u) ∧ t.lookup (t.parent u) n = some u :=
  ⟨List.mem_of_find?_eq_some h, by simpa using List.find?_some h⟩

@[simp] theorem namesTo_nil : t.namesTo [] = [] := rfl

theorem namesTo_cons (u : V) (us : List V) :
    t.namesTo (u :: us) = t.namesTo us ++ (t.entryName u).toList := by
  unfold namesTo
  cases h : t.entryName u with
  | none => simp [h]
  | some n => simp [h]

theorem isName_of_mem_namesTo {us : List V} {n : List UInt8} (h : n ∈ t.namesTo us) :
    IsName slash 0 n := by
  obtain ⟨u, -, hu⟩ := List.mem_filterMap.mp (List.mem_reverse.mp h)
  exact (t.isName _ n (entryName_eq_some hu).1).1

theorem length_namesTo_le (us : List V) : (t.namesTo us).length ≤ us.length := by
  rw [namesTo, List.length_reverse]
  exact List.length_filterMap_le _ _

theorem length_namesTo_lt {us : List V} (h : ¬ t.Listed us) : (t.namesTo us).length < us.length := by
  induction us with
  | nil => exact absurd (fun u hu => absurd hu (List.not_mem_nil)) h
  | cons u us ih =>
    rw [namesTo_cons, List.length_append, List.length_cons]
    cases hu : t.entryName u with
    | none => exact Nat.lt_succ_of_le (length_namesTo_le us)
    | some n =>
      apply Nat.succ_lt_succ
      apply ih
      intro hall
      apply h
      intro w hw
      rcases List.mem_cons.mp hw with rfl | hw
      · rw [hu]
        rfl
      · exact hall w hw

/-- With every directory listed, the names lead to the last. -/
theorem resolve_namesTo {n : ℕ} (hn : t.depth v = n) (h : t.Listed (t.above n v)) :
    t.resolve (t.namesTo (t.above n v)) = some v := by
  induction n generalizing v with
  | zero =>
    rw [eq_root hn]
    rfl
  | succ n ih =>
    obtain ⟨name, hname⟩ := Option.isSome_iff_exists.mp (h v List.mem_cons_self)
    have hparent : t.resolve (t.namesTo (t.above n (t.parent v))) = some (t.parent v) :=
      ih (depth_of_succ hn) fun u hu => h u (List.mem_cons_of_mem v hu)
    rw [above, namesTo_cons, hname, Option.toList_some, resolve_append, hparent, Option.bind_some]
    exact (entryName_eq_some hname).2

/-- No other last name leads to `v`. -/
theorem last_name {init : List (List UInt8)} {m last : List UInt8} (hv : v ≠ t.efRoot)
    (h : t.Listed (t.climb v)) (hns : t.namesTo (t.climb v) = init ++ [last])
    (hm : t.resolve (init ++ [m]) = some v) : m = last := by
  obtain ⟨n, hn⟩ : ∃ n, t.depth v = n + 1 := ⟨_, t.depth_parent v hv⟩
  have hclimb : t.climb v = v :: t.above n (t.parent v) := by
    rw [climb, hn]
    rfl
  obtain ⟨name, hname⟩ := Option.isSome_iff_exists.mp (h v (hclimb ▸ List.mem_cons_self))
  rw [hclimb, namesTo_cons, hname, Option.toList_some] at hns
  obtain ⟨rfl, hlast⟩ := List.append_inj' hns rfl
  obtain rfl : name = last := by simpa using hlast
  have hparent : t.resolve (t.namesTo (t.above n (t.parent v))) = some (t.parent v) :=
    resolve_namesTo (depth_of_succ hn) fun u hu => h u (hclimb ▸ List.mem_cons_of_mem v hu)
  rw [resolve_append, hparent, Option.bind_some] at hm
  exact t.lookup_unique _ _ _ _ hm (entryName_eq_some hname).2 hv rfl

/-- What fits of the path leads to `v` only if every directory is listed, and then if no more than
the last slash is missing. -/
theorem leadsTo_take_iff {r : ℕ} (hv : v ≠ t.efRoot) :
    t.LeadsTo ((t.path v ++ [0]).take r) v ↔ t.Listed (t.climb v) ∧ (t.path v).length ≤ r + 1 := by
  have hne : slash ≠ 0 := by decide
  have hnames : ∀ n ∈ t.namesTo (t.climb v), IsName slash 0 n := fun n => isName_of_mem_namesTo
  have hlen : (t.climb v).length = t.depth v := length_above _ _
  constructor
  · intro hlead
    have hdepth := depth_resolve hlead
    have hfew := length_names_take hnames hne r
    have hlisted : t.Listed (t.climb v) := by
      by_contra hmissing
      have hlt := length_namesTo_lt hmissing
      rw [path] at hdepth
      omega
    refine ⟨hlisted, ?_⟩
    by_contra hcut
    rcases names_take_cut hnames hne (Nat.not_le.mp hcut) with hlt | ⟨init, m, last, hns, hm, hread⟩
    · have hle := length_namesTo_le (t := t) (t.climb v)
      rw [path] at hdepth
      omega
    · rw [LeadsTo, path, hread] at hlead
      exact hm (last_name hv hlisted hns hlead)
  · rintro ⟨hlisted, hfits⟩
    rw [LeadsTo, path, names_take_all hnames hne hfits]
    exact resolve_namesTo rfl hlisted

end EmuTree

end UnionCollegeCode.OS161.Emufs
