import Mathlib.Tactic.Common

/-!
# Storage that nobody shares

Slots hold pieces of storage, and a piece may be marked as used. The storage is accounted for when a
piece is in one slot at most and exactly what is held is used. It stays so when a piece that was not
used is put in a slot and marked, and when pieces are unmarked and leave their slots.
-/

set_option autoImplicit false

namespace Lib

variable {Slot Piece : Type} {holds holds' : Slot → Piece → Prop} {used used' : Piece → Prop}

structure Accounted (holds : Slot → Piece → Prop) (used : Piece → Prop) : Prop where
  alone : ∀ x y u, holds x u → holds y u → x = y
  exact : ∀ u, used u ↔ ∃ x, holds x u

namespace Accounted

theorem congr (h : Accounted holds used) (hholds : ∀ x u, holds' x u ↔ holds x u)
    (hused : ∀ u, used' u ↔ used u) : Accounted holds' used' := by
  constructor
  · intro x y u hx hy
    exact h.alone x y u ((hholds x u).mp hx) ((hholds y u).mp hy)
  · intro u
    rw [hused, h.exact]
    exact exists_congr fun x => (hholds x u).symm

theorem used_of_holds (h : Accounted holds used) {x : Slot} {u : Piece} (hx : holds x u) : used u :=
  (h.exact u).mpr ⟨x, hx⟩

/-- A piece that is not used is in no slot. -/
theorem not_holds (h : Accounted holds used) {u : Piece} (hu : ¬ used u) (x : Slot) : ¬ holds x u :=
  fun hx => hu (h.used_of_holds hx)

theorem take (h : Accounted holds used) {u : Piece} (hu : ¬ used u) (x : Slot) :
    Accounted (fun y v => y = x ∧ v = u ∨ holds y v) (fun v => v = u ∨ used v) := by
  constructor
  · rintro y z v (⟨rfl, rfl⟩ | hy) (⟨rfl, hv⟩ | hz)
    · rfl
    · exact absurd hz (h.not_holds hu z)
    · exact absurd (hv ▸ hy) (h.not_holds hu y)
    · exact h.alone y z v hy hz
  · intro v
    rw [h.exact]
    constructor
    · rintro (rfl | ⟨y, hy⟩)
      · exact ⟨x, .inl ⟨rfl, rfl⟩⟩
      · exact ⟨y, .inr hy⟩
    · rintro ⟨y, ⟨-, rfl⟩ | hy⟩
      · exact .inl rfl
      · exact .inr ⟨y, hy⟩

theorem give (h : Accounted holds used) (gone : Piece → Prop) :
    Accounted (fun y v => ¬ gone v ∧ holds y v) (fun v => ¬ gone v ∧ used v) := by
  constructor
  · rintro y z v ⟨-, hy⟩ ⟨-, hz⟩
    exact h.alone y z v hy hz
  · intro v
    rw [h.exact, exists_and_left]

end Accounted

end Lib
