import Mathlib.Data.List.Nodup
import Mathlib.Data.List.Perm.Subperm
import Mathlib.Logic.Function.Basic

/-!
# Hash sets and hash maps

`HashSet` and `HashMap` with the order of insertion kept and nothing else about the table. In which
order an iteration meets the elements is left open: it is some rearrangement of them, the same one
whenever the same elements went in in the same order. A `HashOrder` is one such choice, and what is
proved about code that iterates is proved for all of them.
-/

set_option autoImplicit false

namespace Lib.JavaCollections

variable {α κ υ : Type*}

/-! ## Iteration -/

/-- An iteration order: `iterate` takes the elements, newest first, to the order they are met in. -/
structure HashOrder (α : Type*) where
  iterate : List α → List α
  perm : ∀ l, (iterate l).Perm l

@[simp] theorem HashOrder.mem_iterate (ord : HashOrder α) {l : List α} {a : α} :
    a ∈ ord.iterate l ↔ a ∈ l := (ord.perm l).mem_iff

@[simp] theorem HashOrder.length_iterate (ord : HashOrder α) (l : List α) :
    (ord.iterate l).length = l.length := (ord.perm l).length_eq

theorem HashOrder.nodup_iterate (ord : HashOrder α) {l : List α} (h : l.Nodup) :
    (ord.iterate l).Nodup := (ord.perm l).nodup_iff.mpr h

/-- Oldest first, as a linked hash set has it. -/
def HashOrder.insertion (α : Type*) : HashOrder α := ⟨List.reverse, List.reverse_perm⟩

/-! ## Sets -/

structure HashSet (α : Type*) where
  /-- The elements, newest first. -/
  elems : List α
  nodup : elems.Nodup

namespace HashSet

instance : Membership α (HashSet α) := ⟨fun s a => a ∈ s.elems⟩

instance [DecidableEq α] (s : HashSet α) (a : α) : Decidable (a ∈ s) :=
  inferInstanceAs (Decidable (a ∈ s.elems))

@[simp] theorem mem_elems {s : HashSet α} {a : α} : a ∈ s.elems ↔ a ∈ s := Iff.rfl

def empty (α : Type*) : HashSet α := ⟨[], List.nodup_nil⟩

@[simp] theorem not_mem_empty {a : α} : a ∉ empty α := List.not_mem_nil

variable [DecidableEq α]

def add (s : HashSet α) (a : α) : HashSet α := ⟨s.elems.insert a, s.nodup.insert⟩

def remove (s : HashSet α) (a : α) : HashSet α := ⟨s.elems.erase a, s.nodup.erase a⟩

@[simp] theorem mem_add {s : HashSet α} {a b : α} : a ∈ s.add b ↔ a = b ∨ a ∈ s :=
  List.mem_insert_iff

@[simp] theorem mem_remove {s : HashSet α} {a b : α} : a ∈ s.remove b ↔ a ≠ b ∧ a ∈ s :=
  s.nodup.mem_erase_iff

theorem remove_of_not_mem {s : HashSet α} {a : α} (h : a ∉ s) : s.remove a = s := by
  cases s
  simp only [remove, mk.injEq]
  exact List.erase_of_not_mem h

/-- `Collectors.toSet()`. -/
def ofList (l : List α) : HashSet α := l.foldl add (empty α)

theorem mem_foldl_add {l : List α} {a : α} :
    ∀ {s : HashSet α}, a ∈ l.foldl add s ↔ a ∈ s ∨ a ∈ l := by
  induction l with
  | nil => simp
  | cons b l ih =>
    intro s
    rw [List.foldl_cons, ih, mem_add, List.mem_cons, or_comm (a := a = b), or_assoc]

@[simp] theorem mem_ofList {l : List α} {a : α} : a ∈ ofList l ↔ a ∈ l := by
  simp [ofList, mem_foldl_add]

end HashSet

/-! ## Maps -/

structure HashMap (κ υ : Type*) where
  /-- The keys, newest first. -/
  keySet : List κ
  get : κ → Option υ
  nodup : keySet.Nodup
  mem_keySet : ∀ k, k ∈ keySet ↔ (get k).isSome

namespace HashMap

/-- `containsKey`. -/
instance : Membership κ (HashMap κ υ) := ⟨fun m k => k ∈ m.keySet⟩

instance [DecidableEq κ] (m : HashMap κ υ) (k : κ) : Decidable (k ∈ m) :=
  inferInstanceAs (Decidable (k ∈ m.keySet))

theorem mem_def {m : HashMap κ υ} {k : κ} : k ∈ m ↔ k ∈ m.keySet := Iff.rfl

theorem mem_iff {m : HashMap κ υ} {k : κ} : k ∈ m ↔ ∃ v, m.get k = some v := by
  rw [mem_def, m.mem_keySet, Option.isSome_iff_exists]

theorem get_eq_none {m : HashMap κ υ} {k : κ} : m.get k = none ↔ k ∉ m := by
  rw [mem_def, m.mem_keySet, Option.not_isSome_iff_eq_none]

theorem mem_of_get {m : HashMap κ υ} {k : κ} {v : υ} (h : m.get k = some v) : k ∈ m :=
  mem_iff.mpr ⟨v, h⟩

def empty (κ υ : Type*) : HashMap κ υ := ⟨[], fun _ => none, List.nodup_nil, by simp⟩

@[simp] theorem keySet_empty : (empty κ υ).keySet = [] := rfl

@[simp] theorem get_empty (k : κ) : (empty κ υ).get k = none := rfl

@[simp] theorem not_mem_empty {k : κ} : k ∉ empty κ υ := List.not_mem_nil

def size (m : HashMap κ υ) : ℕ := m.keySet.length

/-- `values()`. -/
def values (m : HashMap κ υ) : List υ := m.keySet.filterMap m.get

/-- Maps with the same keys in the same order and the same values are the same. -/
theorem ext {m m' : HashMap κ υ} (hk : m.keySet = m'.keySet) (hg : m.get = m'.get) : m = m' := by
  cases m
  cases m'
  simp_all

/-- The same keys with other values. -/
def mapValues {ω : Type*} (f : υ → ω) (m : HashMap κ υ) : HashMap κ ω where
  keySet := m.keySet
  get := fun k => (m.get k).map f
  nodup := m.nodup
  mem_keySet k := by rw [m.mem_keySet, Option.isSome_map]

@[simp] theorem get_mapValues {ω : Type*} (f : υ → ω) (m : HashMap κ υ) (k : κ) :
    (m.mapValues f).get k = (m.get k).map f := rfl

@[simp] theorem mem_mapValues {ω : Type*} {f : υ → ω} {m : HashMap κ υ} {k : κ} :
    k ∈ m.mapValues f ↔ k ∈ m := Iff.rfl

/-- A map has no more keys than one that has all of them. -/
theorem size_le_of_subset {m : HashMap κ υ} {ω : Type*} {m' : HashMap κ ω} (h : ∀ k ∈ m, k ∈ m') :
    m.size ≤ m'.size := (List.subperm_of_subset m.nodup h).length_le

variable [DecidableEq κ]

/-- A key that is there keeps its place. -/
def put (m : HashMap κ υ) (k : κ) (v : υ) : HashMap κ υ where
  keySet := m.keySet.insert k
  get := Function.update m.get k (some v)
  nodup := m.nodup.insert
  mem_keySet k' := by
    rw [List.mem_insert_iff, m.mem_keySet]
    by_cases h : k' = k
    · subst h; simp
    · simp [h]

@[simp] theorem get_put_self (m : HashMap κ υ) (k : κ) (v : υ) : (m.put k v).get k = some v :=
  Function.update_self ..

theorem get_put_of_ne (m : HashMap κ υ) {k k' : κ} (v : υ) (h : k' ≠ k) :
    (m.put k v).get k' = m.get k' := Function.update_of_ne h ..

theorem get_put (m : HashMap κ υ) (k k' : κ) (v : υ) :
    (m.put k v).get k' = if k' = k then some v else m.get k' := Function.update_apply ..

@[simp] theorem mem_put {m : HashMap κ υ} {k k' : κ} {v : υ} :
    k' ∈ m.put k v ↔ k' = k ∨ k' ∈ m := List.mem_insert_iff

def remove (m : HashMap κ υ) (k : κ) : HashMap κ υ where
  keySet := m.keySet.erase k
  get := Function.update m.get k none
  nodup := m.nodup.erase k
  mem_keySet k' := by
    rw [m.nodup.mem_erase_iff, m.mem_keySet]
    by_cases h : k' = k
    · subst h; simp
    · simp [h]

theorem get_remove (m : HashMap κ υ) (k k' : κ) :
    (m.remove k).get k' = if k' = k then none else m.get k' := Function.update_apply ..

@[simp] theorem mem_remove {m : HashMap κ υ} {k k' : κ} : k' ∈ m.remove k ↔ k' ≠ k ∧ k' ∈ m :=
  m.nodup.mem_erase_iff

theorem keySet_put_of_mem {m : HashMap κ υ} {k : κ} {v : υ} (h : k ∈ m) :
    (m.put k v).keySet = m.keySet := List.insert_of_mem h

theorem put_put {m : HashMap κ υ} {k : κ} {v w : υ} : (m.put k v).put k w = m.put k w := by
  refine ext (List.insert_of_mem (List.mem_insert_self ..)) (funext fun k' => ?_)
  rw [get_put, get_put, get_put]
  split <;> rfl

theorem size_put_of_not_mem {m : HashMap κ υ} {k : κ} {v : υ} (h : k ∉ m) :
    (m.put k v).size = m.size + 1 := List.length_insert_of_not_mem h

theorem mapValues_put {ω : Type*} (f : υ → ω) (m : HashMap κ υ) (k : κ) (v : υ) :
    (m.put k v).mapValues f = (m.mapValues f).put k (f v) := by
  refine ext rfl (funext fun k' => ?_)
  rw [get_mapValues, get_put, get_put, get_mapValues]
  split <;> rfl

theorem mapValues_remove {ω : Type*} (f : υ → ω) (m : HashMap κ υ) (k : κ) :
    (m.remove k).mapValues f = (m.mapValues f).remove k := by
  refine ext rfl (funext fun k' => ?_)
  rw [get_mapValues, get_remove, get_remove, get_mapValues]
  split <;> rfl

theorem put_self {m : HashMap κ υ} {k : κ} {v : υ} (h : m.get k = some v) : m.put k v = m := by
  refine ext (keySet_put_of_mem (mem_of_get h)) (funext fun k' => ?_)
  rw [get_put]
  split
  case isTrue hk => rw [hk, h]
  case isFalse => rfl

end HashMap

end Lib.JavaCollections
