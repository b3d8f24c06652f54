import UnionCollegeCode.Lib.EState
import UnionCollegeCode.OS161.Kernel

/-!
# `uio.c`: moving bytes to a buffer of the kernel's choice

A `UIO_READ` of the kernel into one buffer. `memmove` has no protection against faults: an address
that cannot be touched stops the kernel.
-/

set_option autoImplicit false

namespace UnionCollegeCode.OS161

open Lib.EState

/-- What stands at the addresses, and which of them have been stored to. An address without a byte
cannot be touched. -/
@[ext]
structure Memory where
  bytes : ℕ → Option UInt8
  stored : List ℕ

abbrev MemoryM (α : Type) := EStateM Stop Memory α

namespace Memory

/-- All the addresses of a block can be touched. -/
def HasBlock (m : Memory) (addr n : ℕ) : Prop := ∀ i < n, (m.bytes (addr + i)).isSome

instance (m : Memory) (addr n : ℕ) : Decidable (m.HasBlock addr n) :=
  inferInstanceAs (Decidable (∀ i < n, (m.bytes (addr + i)).isSome))

def put (m : Memory) (addr : ℕ) (bs : List UInt8) : Memory where
  bytes x := if addr ≤ x then bs[x - addr]?.or (m.bytes x) else m.bytes x
  stored := m.stored ++ List.range' addr bs.length

def store (m : Memory) (addr : ℕ) (bs : List UInt8) : Option Memory :=
  if m.HasBlock addr bs.length then some (m.put addr bs) else none

variable {m m' : Memory} {addr : ℕ} {bs : List UInt8}

theorem put_bytes (i : ℕ) (h : i < bs.length) : (m.put addr bs).bytes (addr + i) = some bs[i] := by
  simp [put, h]

theorem put_bytes_of_outside {x : ℕ} (h : x < addr ∨ addr + bs.length ≤ x) :
    (m.put addr bs).bytes x = m.bytes x := by
  simp only [put]
  split
  case isTrue hle =>
    have hlen : bs.length ≤ x - addr := by omega
    rw [List.getElem?_eq_none hlen, Option.none_or]
  case isFalse => rfl

@[simp] theorem put_stored : (m.put addr bs).stored = m.stored ++ List.range' addr bs.length := rfl

theorem put_nil : m.put addr [] = m := by
  simp [put]

/-- Two blocks put down side by side are one. -/
theorem put_put {cs : List UInt8} :
    (m.put addr bs).put (addr + bs.length) cs = m.put addr (bs ++ cs) := by
  have hstored : m.stored ++ List.range' addr bs.length ++ List.range' (addr + bs.length) cs.length =
      m.stored ++ List.range' addr (bs ++ cs).length := by
    rw [List.append_assoc, List.range'_append_1, List.length_append]
  have hbytes : ∀ x, ((m.put addr bs).put (addr + bs.length) cs).bytes x =
      (m.put addr (bs ++ cs)).bytes x := by
    intro x
    simp only [put]
    grind
  exact Memory.ext (funext hbytes) hstored

theorem store_eq_some : m.store addr bs = some m' ↔ m.HasBlock addr bs.length ∧ m' = m.put addr bs := by
  unfold store
  split
  case isTrue h => simp [h, eq_comm]
  case isFalse h => simp [h]

/-- No store takes an address away or adds one. -/
theorem isSome_put (h : m.HasBlock addr bs.length) (x : ℕ) :
    ((m.put addr bs).bytes x).isSome = (m.bytes x).isSome := by
  by_cases hin : addr ≤ x ∧ x < addr + bs.length
  · obtain ⟨i, rfl⟩ := Nat.exists_eq_add_of_le hin.1
    have hi : i < bs.length := Nat.lt_of_add_lt_add_left hin.2
    rw [put_bytes i hi, h i hi]
    rfl
  · rw [put_bytes_of_outside (by omega)]

theorem hasBlock_put (h : m.HasBlock addr bs.length) {x n : ℕ} :
    (m.put addr bs).HasBlock x n ↔ m.HasBlock x n := by
  simp only [HasBlock, isSome_put h]

theorem hasBlock_add {n k : ℕ} :
    m.HasBlock addr (n + k) ↔ m.HasBlock addr n ∧ m.HasBlock (addr + n) k := by
  constructor
  · intro h
    refine ⟨fun i hi => h i (by omega), fun i hi => ?_⟩
    rw [Nat.add_assoc]
    exact h (n + i) (by omega)
  · rintro ⟨hleft, hright⟩ i hi
    by_cases hn : i < n
    · exact hleft i hn
    · obtain ⟨j, rfl⟩ := Nat.exists_eq_add_of_le (Nat.not_lt.mp hn)
      rw [← Nat.add_assoc]
      exact hright j (by omega)

theorem HasBlock.mono {n n' : ℕ} (h : m.HasBlock addr n) (hle : n' ≤ n) : m.HasBlock addr n' :=
  fun i hi => h i (Nat.lt_of_lt_of_le hi hle)

end Memory

/-- A transfer into the kernel buffer of its one `iovec`. -/
structure Uio where
  iovKbase : ℕ
  iovLen : ℕ
  uioOffset : ℤ
  uioResid : ℕ
  deriving DecidableEq, Repr

def uioKinit (kbuf len : ℕ) (pos : ℤ) : Uio := ⟨kbuf, len, pos, len⟩

def memmove (dst : ℕ) (bs : List UInt8) : MemoryM Unit := do
  match (← get).store dst bs with
  | none => throw .fault
  | some m => set m

/-- The rest of `ptr` is dropped where the buffer is full. -/
def uiomove (ptr : List UInt8) (u : Uio) : MemoryM Uio :=
  if 0 < ptr.length ∧ 0 < u.uioResid then
    if min u.iovLen ptr.length = 0 then
      throw (.panic "uiomove: ran out of buffers\n")
    else do
      let size := min u.iovLen ptr.length
      memmove u.iovKbase (ptr.take size)
      uiomove (ptr.drop size) ⟨u.iovKbase + size, u.iovLen - size, u.uioOffset + size, u.uioResid - size⟩
  else
    return u
termination_by ptr.length
decreasing_by
  rw [List.length_drop]
  omega

/-! ## What is moved -/

/-- The transfer has room for as many bytes as its buffer. -/
def Uio.IsSized (u : Uio) : Prop := u.iovLen = u.uioResid

/-- The transfer behind its next `n` bytes. -/
def Uio.advance (u : Uio) (n : ℕ) : Uio :=
  ⟨u.iovKbase + n, u.iovLen - n, u.uioOffset + n, u.uioResid - n⟩

theorem uioKinit_isSized (kbuf len : ℕ) (pos : ℤ) : (uioKinit kbuf len pos).IsSized := rfl

theorem Uio.IsSized.advance {u : Uio} (h : u.IsSized) (n : ℕ) : (u.advance n).IsSized := by
  simp only [IsSized, Uio.advance, show u.iovLen = u.uioResid from h]

theorem Uio.advance_advance (u : Uio) (n k : ℕ) : (u.advance n).advance k = u.advance (n + k) := by
  simp only [advance, Int.natCast_add, Nat.add_assoc, Nat.sub_sub, Int.add_assoc]

theorem Uio.advance_zero (u : Uio) : u.advance 0 = u := by
  simp [advance]

variable {m m' : Memory} {u u' : Uio} {ptr : List UInt8}

theorem memmove_eq_ok {dst : ℕ} {bs : List UInt8} {r : Unit} :
    memmove dst bs m = .ok r m' ↔ m.HasBlock dst bs.length ∧ m' = m.put dst bs := by
  have hrun : memmove dst bs m = match m.store dst bs with
      | none => .error .fault m
      | some m₁ => .ok () m₁ := by
    rw [memmove, bind_ok get_ok]
    cases m.store dst bs <;> rfl
  rw [hrun]
  cases h : m.store dst bs with
  | none =>
    simp only [reduceCtorEq, false_iff]
    rintro ⟨hblock, rfl⟩
    exact absurd (h.symm.trans (Memory.store_eq_some.mpr ⟨hblock, rfl⟩)) (by simp)
  | some m₁ =>
    obtain ⟨hblock, rfl⟩ := Memory.store_eq_some.mp h
    simp [hblock, eq_comm]

/-- The loop ends when there is nothing left to move, or no room for it. -/
theorem uiomove_end (h : ¬ (0 < ptr.length ∧ 0 < u.uioResid)) : uiomove ptr u = pure u := by
  rw [uiomove, if_neg h]

/-- A move puts down what fits, and nothing else changes. -/
theorem uiomove_eq_ok (hu : u.IsSized) :
    uiomove ptr u m = .ok u' m' ↔
      m.HasBlock u.iovKbase (min ptr.length u.uioResid) ∧
        u' = u.advance (min ptr.length u.uioResid) ∧
        m' = m.put u.iovKbase (ptr.take u.uioResid) := by
  have hlen : u.iovLen = u.uioResid := hu
  by_cases h : 0 < ptr.length ∧ 0 < u.uioResid
  · have hsize : min u.iovLen ptr.length = min ptr.length u.uioResid := by
      rw [hlen, Nat.min_comm]
    have htake : ptr.take (min ptr.length u.uioResid) = ptr.take u.uioResid := by
      rw [List.take_eq_take_iff]
      omega
    have hdone : ¬ (0 < (ptr.drop (min ptr.length u.uioResid)).length ∧
        0 < u.uioResid - min ptr.length u.uioResid) := by
      rw [List.length_drop]
      omega
    rw [uiomove, if_pos h, if_neg (by omega)]
    simp only [hsize, bind_eq_ok, memmove_eq_ok, htake, List.length_take]
    constructor
    · rintro ⟨_, m₁, ⟨hblock, rfl⟩, hrest⟩
      rw [uiomove_end hdone] at hrest
      obtain ⟨rfl, rfl⟩ := pure_eq_ok.mp hrest
      refine ⟨?_, rfl, rfl⟩
      rwa [Nat.min_comm]
    · rintro ⟨hblock, rfl, rfl⟩
      refine ⟨(), _, ⟨?_, rfl⟩, ?_⟩
      · rwa [Nat.min_comm]
      · rw [uiomove_end hdone]
        rfl
  · have hzero : min ptr.length u.uioResid = 0 := by omega
    have htake : ptr.take u.uioResid = [] := by
      apply List.eq_nil_of_length_eq_zero
      rw [List.length_take]
      omega
    rw [uiomove_end h, pure_eq_ok, hzero, htake, Uio.advance_zero, Memory.put_nil, eq_comm,
      @eq_comm _ m]
    simp [Memory.HasBlock]

/-- What a transfer with these bytes leaves: the ones that fit are in the buffer. -/
structure Moved (u : Uio) (bs : List UInt8) (m : Memory) (u' : Uio) (m' : Memory) : Prop where
  block : m.HasBlock u.iovKbase (min bs.length u.uioResid)
  uio : u' = u.advance (min bs.length u.uioResid)
  memory : m' = m.put u.iovKbase (bs.take u.uioResid)

theorem moved_iff_uiomove (hu : u.IsSized) : uiomove ptr u m = .ok u' m' ↔ Moved u ptr m u' m' := by
  rw [uiomove_eq_ok hu]
  exact ⟨fun ⟨hblock, huio, hmem⟩ => ⟨hblock, huio, hmem⟩,
    fun ⟨hblock, huio, hmem⟩ => ⟨hblock, huio, hmem⟩⟩

theorem Moved.isSized {bs : List UInt8} (h : Moved u bs m u' m') (hu : u.IsSized) : u'.IsSized := by
  rw [h.uio]
  exact hu.advance _

/-- Two transfers after each other are one. -/
theorem moved_append {as bs : List UInt8} :
    (∃ u₁ m₁, Moved u as m u₁ m₁ ∧ Moved u₁ bs m₁ u' m') ↔ Moved u (as ++ bs) m u' m' := by
  obtain ⟨k, hk⟩ : ∃ k, k = min as.length u.uioResid := ⟨_, rfl⟩
  have htake : (as.take u.uioResid).length = k := by
    rw [List.length_take, Nat.min_comm, hk]
  have hcount : k + min bs.length (u.uioResid - k) = min (as ++ bs).length u.uioResid := by
    rw [List.length_append]
    omega
  have hbytes : as.take u.uioResid ++ bs.take (u.uioResid - k) = (as ++ bs).take u.uioResid := by
    have hrest : u.uioResid - k = u.uioResid - as.length := by omega
    rw [List.take_append, hrest]
  have hput : (m.put u.iovKbase (as.take u.uioResid)).put (u.iovKbase + k)
      (bs.take (u.uioResid - k)) = m.put u.iovKbase ((as ++ bs).take u.uioResid) := by
    rw [← htake, Memory.put_put, htake, hbytes]
  have hfits : m.HasBlock u.iovKbase k → ((m.put u.iovKbase (as.take u.uioResid)).HasBlock
      (u.iovKbase + k) (min bs.length (u.uioResid - k)) ↔
      m.HasBlock (u.iovKbase + k) (min bs.length (u.uioResid - k))) := by
    intro hblock
    apply Memory.hasBlock_put
    rwa [htake]
  constructor
  · rintro ⟨_, _, ⟨hblock, rfl, rfl⟩, hblock', rfl, rfl⟩
    rw [← hk] at hblock hblock' ⊢
    refine ⟨?_, ?_, hput⟩
    · rw [← hcount, Memory.hasBlock_add]
      exact ⟨hblock, (hfits hblock).mp hblock'⟩
    · rw [← hcount, ← Uio.advance_advance]
      rfl
  · rintro ⟨hblock, rfl, rfl⟩
    rw [← hcount, Memory.hasBlock_add] at hblock
    refine ⟨u.advance k, m.put u.iovKbase (as.take u.uioResid), ⟨?_, ?_, rfl⟩, ?_, ?_, ?_⟩
    · rw [← hk]
      exact hblock.1
    · rw [← hk]
    · exact (hfits hblock.1).mpr hblock.2
    · rw [← hcount, ← Uio.advance_advance]
      rfl
    · exact hput.symm

end UnionCollegeCode.OS161
