import Mathlib.Algebra.BigOperators.Group.Finset.Piecewise
import Mathlib.Algebra.Order.BigOperators.Group.Finset
import Mathlib.Data.Finset.Card

/-!
# Reference counts

Slots hold objects, and every object has a home, on whose account it lives. `owed` is what a home's
count comes to: one for each of its objects, and one for each slot that holds such an object. A count
that is right stays right as long as a slot that is filled adds one, a slot that is emptied takes one
away, and a new object adds one.
-/

set_option autoImplicit false
set_option linter.unusedSectionVars false

namespace Lib

open Function (update)

@[ext] structure RefLedger (σ O V : Type*) where
  slots : Finset σ
  held : σ → Option O
  objects : Finset O
  home : O → Option V

namespace RefLedger

variable {σ O V : Type*} [DecidableEq σ] [DecidableEq O] [DecidableEq V] {L : RefLedger σ O V}
  {x : σ} {o : O} {v : V} {count outside : V → ℕ}

/-- How many slots hold an object. -/
def refs (L : RefLedger σ O V) (o : O) : ℕ := (L.slots.filter fun x => L.held x = some o).card

def owed (L : RefLedger σ O V) (v : V) : ℕ :=
  ∑ o ∈ L.objects.filter fun o => L.home o = some v, (1 + L.refs o)

/-- No slot holds anything but an object. -/
def Sound (L : RefLedger σ O V) : Prop := ∀ x ∈ L.slots, ∀ o, L.held x = some o → o ∈ L.objects

/-- `count` is what is owed, beside the references from `outside`. -/
def Balanced (L : RefLedger σ O V) (count outside : V → ℕ) : Prop :=
  ∀ v, count v = outside v + L.owed v

/-- Every object is in some slot. -/
def Used (L : RefLedger σ O V) : Prop := ∀ o ∈ L.objects, L.refs o ≠ 0

/-! ## What is owed, object by object and slot by slot -/

/-- The slot holds an object that lives on `v`. -/
def Lodges (L : RefLedger σ O V) (v : V) (h : Option O) : Prop := h.bind L.home = some v

instance (v : V) : DecidablePred (L.Lodges v) := fun h =>
  inferInstanceAs (Decidable (h.bind L.home = some v))

@[simp] theorem not_lodges_none : ¬ L.Lodges v none := by simp [Lodges]

@[simp] theorem lodges_some : L.Lodges v (some o) ↔ L.home o = some v := Iff.rfl

theorem owed_eq (h : L.Sound) (v : V) : L.owed v =
    (L.objects.filter fun o => L.home o = some v).card +
      (L.slots.filter fun x => L.Lodges v (L.held x)).card := by
  have hslot : ∀ x ∈ L.slots, (∑ o ∈ L.objects.filter fun o => L.home o = some v,
      if L.held x = some o then 1 else 0) = if L.Lodges v (L.held x) then 1 else 0 := by
    intro x hx
    cases hheld : L.held x with
    | none => simp
    | some o =>
      have ho := h x hx o hheld
      simp only [Option.some.injEq, Finset.sum_ite_eq, Finset.mem_filter, ho, true_and, lodges_some]
  rw [owed, Finset.sum_add_distrib, Finset.card_eq_sum_ones]
  congr 1
  simp only [refs, Finset.card_filter]
  rw [Finset.sum_comm]
  exact Finset.sum_congr rfl hslot

theorem le_owed (ho : o ∈ L.objects) (hv : L.home o = some v) : 1 + L.refs o ≤ L.owed v :=
  Finset.single_le_sum (f := fun o => 1 + L.refs o) (fun _ _ => Nat.zero_le _)
    (Finset.mem_filter.mpr ⟨ho, hv⟩)

/-- Where every object is in some slot, nothing is owed for an object alone. -/
theorem owed_ne_one (h : L.Used) : L.owed v ≠ 1 := by
  intro hone
  rcases (L.objects.filter fun o => L.home o = some v).eq_empty_or_nonempty with hempty | ⟨o, ho⟩
  · rw [owed, hempty, Finset.sum_empty] at hone
    exact absurd hone (by decide)
  · obtain ⟨hmem, hv⟩ := Finset.mem_filter.mp ho
    have hrefs := h o hmem
    have hle := le_owed hmem hv
    omega

/-- A slot with an object in it is a reference. -/
theorem refs_pos (hx : x ∈ L.slots) (h : L.held x = some o) : L.refs o ≠ 0 := by
  have hmem : x ∈ L.slots.filter fun x => L.held x = some o := Finset.mem_filter.mpr ⟨hx, h⟩
  exact Finset.card_ne_zero_of_mem hmem

/-! ## Slots -/

def store (L : RefLedger σ O V) (x : σ) (h : Option O) : RefLedger σ O V :=
  { L with held := update L.held x h }

@[simp] theorem held_store_self {h : Option O} : (L.store x h).held x = h := by simp [store]

@[simp] theorem held_store_of_ne {h : Option O} {y : σ} (hy : y ≠ x) :
    (L.store x h).held y = L.held y := by
  simp [store, hy]

theorem Sound.store {h : Option O} (hs : L.Sound) (hh : ∀ o, h = some o → o ∈ L.objects) :
    (L.store x h).Sound := by
  intro y hy o ho
  by_cases hyx : y = x
  · subst hyx
    exact hh o (held_store_self.symm.trans ho)
  · exact hs y hy o ((held_store_of_ne hyx).symm.trans ho)

/-- One slot more or less among those with a property. -/
theorem card_filter_store (p : Option O → Prop) [DecidablePred p] {h : Option O} (hx : x ∈ L.slots) :
    (L.slots.filter fun y => p ((L.store x h).held y)).card + (if p (L.held x) then 1 else 0) =
      (L.slots.filter fun y => p (L.held y)).card + if p h then 1 else 0 := by
  simp only [Finset.card_filter]
  rw [← Finset.add_sum_erase _ _ hx,
    ← Finset.add_sum_erase L.slots (fun y => if p (L.held y) then 1 else 0) hx]
  have hrest : ∑ y ∈ L.slots.erase x, (if p ((L.store x h).held y) then 1 else 0) =
      ∑ y ∈ L.slots.erase x, if p (L.held y) then 1 else 0 := by
    refine Finset.sum_congr rfl fun y hy => ?_
    rw [held_store_of_ne (Finset.ne_of_mem_erase hy)]
  rw [held_store_self, hrest]
  omega

theorem refs_store {h : Option O} (hx : x ∈ L.slots) :
    (L.store x h).refs o + (if L.held x = some o then 1 else 0) =
      L.refs o + if h = some o then 1 else 0 :=
  card_filter_store (fun h => h = some o) hx

theorem owed_store {h : Option O} (hs : L.Sound) (hx : x ∈ L.slots)
    (hh : ∀ o, h = some o → o ∈ L.objects) (v : V) :
    (L.store x h).owed v + (if L.Lodges v (L.held x) then 1 else 0) =
      L.owed v + if L.Lodges v h then 1 else 0 := by
  rw [owed_eq (hs.store hh), owed_eq hs]
  have hcard := card_filter_store (L := L) (h := h) (L.Lodges v) hx
  show (L.objects.filter fun o => L.home o = some v).card +
    (L.slots.filter fun y => L.Lodges v ((L.store x h).held y)).card + _ = _
  omega

/-- An empty slot is filled. -/
theorem Balanced.fill (hb : L.Balanced count outside) (hs : L.Sound) (hx : x ∈ L.slots)
    (hempty : L.held x = none) (ho : o ∈ L.objects) (hv : L.home o = some v) :
    (L.store x (some o)).Balanced (update count v (count v + 1)) outside := by
  intro w
  have howed := owed_store (h := some o) hs hx (fun o' ho' => by cases ho'; exact ho) w
  have hcount := hb w
  simp only [hempty, not_lodges_none, if_false, lodges_some, hv, Option.some.injEq] at howed
  by_cases hw : v = w
  · subst hw
    rw [if_pos rfl] at howed
    rw [Function.update_self]
    omega
  · rw [if_neg hw] at howed
    rw [Function.update_of_ne (Ne.symm hw)]
    omega

/-- A slot is emptied. -/
theorem Balanced.clear (hb : L.Balanced count outside) (hs : L.Sound) (hx : x ∈ L.slots)
    (hheld : L.held x = some o) (hv : L.home o = some v) :
    (L.store x none).Balanced (update count v (count v - 1)) outside := by
  intro w
  have howed := owed_store (h := none) hs hx (fun o' ho' => by cases ho') w
  have hcount := hb w
  simp only [hheld, not_lodges_none, if_false, lodges_some, hv, Option.some.injEq] at howed
  by_cases hw : v = w
  · subst hw
    rw [if_pos rfl] at howed
    rw [Function.update_self]
    omega
  · rw [if_neg hw] at howed
    rw [Function.update_of_ne (Ne.symm hw)]
    omega

/-- Slots come and go, empty ones. -/
structure Resizes (L : RefLedger σ O V) (S : Finset σ) : Prop where
  new : ∀ y ∈ S, y ∉ L.slots → L.held y = none
  old : ∀ y ∈ L.slots, y ∉ S → L.held y = none

section Resize

variable {S : Finset σ}

theorem refs_resize (h : L.Resizes S) (o : O) :
    ({ L with slots := S } : RefLedger σ O V).refs o = L.refs o := by
  refine congrArg Finset.card (Finset.ext fun y => ?_)
  simp only [Finset.mem_filter]
  constructor
  · intro ⟨hy, ho⟩
    refine ⟨?_, ho⟩
    by_contra hno
    rw [h.new y hy hno] at ho
    cases ho
  · intro ⟨hy, ho⟩
    refine ⟨?_, ho⟩
    by_contra hno
    rw [h.old y hy hno] at ho
    cases ho

theorem Balanced.resize (hb : L.Balanced count outside) (h : L.Resizes S) :
    ({ L with slots := S } : RefLedger σ O V).Balanced count outside := by
  intro w
  rw [hb w, owed, owed]
  simp only [refs_resize h]

theorem Sound.resize (hs : L.Sound) (h : L.Resizes S) :
    ({ L with slots := S } : RefLedger σ O V).Sound := by
  intro y hy o ho
  have hold : y ∈ L.slots := by
    by_contra hno
    have ho : L.held y = some o := ho
    rw [h.new y hy hno] at ho
    cases ho
  exact hs y hold o ho

theorem Used.resize (hu : L.Used) (h : L.Resizes S) :
    ({ L with slots := S } : RefLedger σ O V).Used := by
  intro o ho
  rw [refs_resize h]
  exact hu o ho

end Resize

/-- Less is owed once a slot with an object in it is gone. -/
theorem owed_lt_of_lost (hs : L.Sound) {S : Finset σ} (hsub : S ⊆ L.slots) (hx : x ∈ L.slots)
    (hlost : x ∉ S) (hheld : L.held x = some o) (hv : L.home o = some v) :
    ({ L with slots := S } : RefLedger σ O V).owed v < L.owed v := by
  have hs' : ({ L with slots := S } : RefLedger σ O V).Sound := fun y hy => hs y (hsub hy)
  rw [owed_eq hs', owed_eq hs]
  apply Nat.add_lt_add_left
  apply Finset.card_lt_card
  refine Finset.ssubset_iff_of_subset (Finset.filter_subset_filter _ hsub) |>.mpr ⟨x, ?_, ?_⟩
  · rw [Finset.mem_filter, hheld]
    exact ⟨hx, hv⟩
  · intro hmem
    exact hlost (Finset.mem_filter.mp hmem).1

theorem Used.fill (h : L.Used) (hx : x ∈ L.slots) (hempty : L.held x = none) :
    (L.store x (some o)).Used := by
  intro o' ho'
  have hrefs := refs_store (o := o') (h := some o) hx
  rw [hempty, if_neg (by simp)] at hrefs
  have hold := h o' ho'
  omega

/-- An object that was in two slots is still in one. -/
theorem Used.clear (h : L.Used) (hx : x ∈ L.slots) (hheld : L.held x = some o) (htwo : 2 ≤ L.refs o) :
    (L.store x none).Used := by
  intro o' ho'
  have hrefs := refs_store (o := o') (h := none) hx
  rw [hheld, if_neg (by simp : ¬ (none : Option O) = some o')] at hrefs
  have hold := h o' ho'
  by_cases hne : o = o'
  · subst hne
    rw [if_pos rfl] at hrefs
    omega
  · rw [if_neg (by simpa using hne)] at hrefs
    omega

theorem not_used_clear (ho : o ∈ L.objects) (hx : x ∈ L.slots) (hheld : L.held x = some o)
    (hone : L.refs o < 2) : ¬ (L.store x none).Used := by
  intro habs
  have hrefs := refs_store (o := o) (h := none) hx
  rw [hheld, if_pos rfl, if_neg (by simp)] at hrefs
  exact habs o ho (by omega)

/-! ## Objects -/

/-- A new object at `v`. -/
def enrol (L : RefLedger σ O V) (o : O) (v : V) : RefLedger σ O V :=
  { L with objects := insert o L.objects, home := update L.home o (some v) }

theorem Sound.enrol (hs : L.Sound) : (L.enrol o v).Sound :=
  fun x hx o' ho' => Finset.mem_insert_of_mem (hs x hx o' ho')

/-- What is no object yet is in no slot. -/
theorem refs_eq_zero (hs : L.Sound) (ho : o ∉ L.objects) : L.refs o = 0 := by
  rw [refs, Finset.card_eq_zero, Finset.filter_eq_empty_iff]
  exact fun x hx habs => ho (hs x hx o habs)

theorem Balanced.enrol (hb : L.Balanced count outside) (hs : L.Sound) (ho : o ∉ L.objects) :
    (L.enrol o v).Balanced (update count v (count v + 1)) outside := by
  intro w
  have hne : ∀ o' ∈ L.objects, o' ≠ o := fun o' ho' habs => ho (habs ▸ ho')
  have hrefs := refs_eq_zero hs ho
  have hrest : (L.objects.filter fun o' => (L.enrol o v).home o' = some w) =
      L.objects.filter fun o' => L.home o' = some w := by
    refine Finset.filter_congr fun o' ho' => ?_
    rw [show (L.enrol o v).home o' = L.home o' from Function.update_of_ne (hne o' ho') _ _]
  have hself : (L.enrol o v).home o = some v := Function.update_self o _ _
  have hsum : (L.enrol o v).owed w = L.owed w + if v = w then 1 else 0 := by
    show ∑ o' ∈ (insert o L.objects).filter (fun o' => (L.enrol o v).home o' = some w),
      (1 + L.refs o') = _
    rw [Finset.filter_insert, hself, hrest]
    by_cases hw : v = w
    · rw [if_pos (by rw [hw]), if_pos hw, Finset.sum_insert (by simp [ho]), hrefs]
      exact Nat.add_comm _ _
    · rw [if_neg (by simpa using hw), if_neg hw]
      rfl
  have hcount := hb w
  rw [hsum]
  by_cases hw : v = w
  · subst hw
    rw [Function.update_self, if_pos rfl]
    omega
  · rw [Function.update_of_ne (Ne.symm hw), if_neg hw]
    omega

theorem Used.enrol_fill (h : L.Used) (hx : x ∈ L.slots) (hempty : L.held x = none) :
    ((L.enrol o v).store x (some o)).Used := by
  intro o' ho'
  rcases Finset.mem_insert.mp ho' with rfl | hold
  · exact refs_pos hx held_store_self
  · exact h.fill hx hempty o' hold

theorem not_used_enrol (hs : L.Sound) (ho : o ∉ L.objects) : ¬ (L.enrol o v).Used := by
  intro habs
  have hrefs : L.refs o = 0 := refs_eq_zero hs ho
  exact habs o (Finset.mem_insert_self o L.objects) hrefs

end RefLedger

end Lib
