import Mathlib.Algebra.Group.Nat.Defs
import Mathlib.Tactic.Common
import Mathlib.Data.Nat.Notation

/-!
# Words of four bytes, most significant byte first

`be32` and its four bytes are inverse to each other, as are `be16` and its two. A sequence of
`4 * n` bytes is a sequence of `n` words.
-/

set_option autoImplicit false

namespace Lib

def be32 (b₀ b₁ b₂ b₃ : UInt8) : UInt32 :=
  .ofNat (b₀.toNat * 2 ^ 24 + b₁.toNat * 2 ^ 16 + b₂.toNat * 2 ^ 8 + b₃.toNat)

/-- Byte `k` of a word, from the most significant one on. -/
def byte32 (w : UInt32) (k : ℕ) : UInt8 := .ofNat (w.toNat / 2 ^ (8 * (3 - k)))

def be16 (b₀ b₁ : UInt8) : UInt16 := .ofNat (b₀.toNat * 2 ^ 8 + b₁.toNat)

def high16 (w : UInt16) : UInt8 := .ofNat (w.toNat / 2 ^ 8)

def low16 (w : UInt16) : UInt8 := .ofNat w.toNat

theorem be32_toNat (b₀ b₁ b₂ b₃ : UInt8) :
    (be32 b₀ b₁ b₂ b₃).toNat = b₀.toNat * 2 ^ 24 + b₁.toNat * 2 ^ 16 + b₂.toNat * 2 ^ 8 + b₃.toNat := by
  have h₀ := b₀.toNat_lt
  have h₁ := b₁.toNat_lt
  have h₂ := b₂.toNat_lt
  have h₃ := b₃.toNat_lt
  rw [be32, UInt32.toNat_ofNat']
  omega

@[simp] theorem be32_byte32 (w : UInt32) :
    be32 (byte32 w 0) (byte32 w 1) (byte32 w 2) (byte32 w 3) = w := by
  have h := w.toNat_lt
  apply UInt32.toNat.inj
  simp only [be32_toNat, byte32, UInt8.toNat_ofNat']
  omega

theorem byte32_be32 (b₀ b₁ b₂ b₃ : UInt8) :
    byte32 (be32 b₀ b₁ b₂ b₃) 0 = b₀ ∧ byte32 (be32 b₀ b₁ b₂ b₃) 1 = b₁ ∧
      byte32 (be32 b₀ b₁ b₂ b₃) 2 = b₂ ∧ byte32 (be32 b₀ b₁ b₂ b₃) 3 = b₃ := by
  have h₀ := b₀.toNat_lt
  have h₁ := b₁.toNat_lt
  have h₂ := b₂.toNat_lt
  have h₃ := b₃.toNat_lt
  refine ⟨?_, ?_, ?_, ?_⟩ <;>
  · apply UInt8.toNat.inj
    simp only [byte32, be32_toNat, UInt8.toNat_ofNat']
    omega

@[simp] theorem be16_bytes (w : UInt16) : be16 (high16 w) (low16 w) = w := by
  have h := w.toNat_lt
  apply UInt16.toNat.inj
  simp only [be16, high16, low16, UInt8.toNat_ofNat', UInt16.toNat_ofNat']
  omega

/-! ## Sequences -/

variable {n : ℕ}

/-- The words that the bytes make up. -/
def wordsOf (b : Fin (4 * n) → UInt8) : Fin n → UInt32 := fun i =>
  be32 (b ⟨4 * i, by omega⟩) (b ⟨4 * i + 1, by omega⟩) (b ⟨4 * i + 2, by omega⟩)
    (b ⟨4 * i + 3, by omega⟩)

/-- The bytes of the words. -/
def bytesOf (w : Fin n → UInt32) : Fin (4 * n) → UInt8 := fun i =>
  byte32 (w ⟨i / 4, by omega⟩) (i % 4)

@[simp] theorem wordsOf_bytesOf (w : Fin n → UInt32) : wordsOf (bytesOf w) = w := by
  funext i
  have hdiv : ∀ k < 4, (4 * i.1 + k) / 4 = i.1 := fun k hk => by omega
  have hmod : ∀ k < 4, (4 * i.1 + k) % 4 = k := fun k hk => by omega
  have hzero : 4 * i.1 / 4 = i.1 ∧ 4 * i.1 % 4 = 0 := by omega
  simp only [wordsOf, bytesOf, hzero, hdiv 1 (by decide), hdiv 2 (by decide), hdiv 3 (by decide),
    hmod 1 (by decide), hmod 2 (by decide), hmod 3 (by decide), be32_byte32]

@[simp] theorem bytesOf_wordsOf (b : Fin (4 * n) → UInt8) : bytesOf (wordsOf b) = b := by
  funext i
  obtain ⟨i, hi⟩ := i
  obtain ⟨q, k, hk, rfl⟩ : ∃ q k, k < 4 ∧ i = 4 * q + k := ⟨i / 4, i % 4, by omega, by omega⟩
  have hdiv : (4 * q + k) / 4 = q := by omega
  have hmod : (4 * q + k) % 4 = k := by omega
  simp only [bytesOf, wordsOf, hdiv, hmod]
  obtain ⟨h₀, h₁, h₂, h₃⟩ := byte32_be32 (b ⟨4 * q, by omega⟩) (b ⟨4 * q + 1, by omega⟩)
    (b ⟨4 * q + 2, by omega⟩) (b ⟨4 * q + 3, by omega⟩)
  obtain rfl | rfl | rfl | rfl : k = 0 ∨ k = 1 ∨ k = 2 ∨ k = 3 := by omega
  · exact h₀
  · exact h₁
  · exact h₂
  · exact h₃

/-- Bytes that are all zero make up words that are all zero. -/
@[simp] theorem wordsOf_zero : wordsOf (fun _ : Fin (4 * n) => (0 : UInt8)) = fun _ => 0 := by
  funext i
  apply UInt32.toNat.inj
  simp [wordsOf, be32_toNat]

end Lib
