import UnionCollegeCode.OS161.Files.FileIo

/-!
# `sys_lseek` against the position it should store

`join32to64` puts the descriptor where the high half of the offset belongs, what is checked for its
sign is the offset plus `whence`, and `seek_pos` is an `int`. The junk in the high half never shows,
because the `int` cuts it off again; so the call is right where the sum fits in an `int` and the two
signs agree.
-/

set_option autoImplicit false

namespace UnionCollegeCode.OS161.Files

open Lib.EState

def FileKernel.position (s : FileKernel) (p : Ptr) : Option ℤ := (s.files p).map File.seekPos

variable {procFt : Option Ptr} {fd offset whence pos r pos' : ℤ} {p v : Ptr} {bytes : List UInt8}
  {s t : FileKernel} {a : SeekAnswers}

/-- The call answers `r` and leaves the file at `pos'`. -/
def Lands (procFt : Option Ptr) (fd offset whence : ℤ) (a : SeekAnswers) (s : FileKernel) (p : Ptr)
    (r pos' : ℤ) : Prop :=
  ∃ t, sysLseek procFt fd offset whence a s = .ok r t ∧ t.position p = some pos'

/-- A sum that is not negative is answered and stored; the rest is `EINVAL` and moves nothing. -/
structure LseekRight (procFt : Option Ptr) (fd offset whence : ℤ) (a : SeekAnswers) (s : FileKernel)
    (p : Ptr) (pos : ℤ) (bytes : List UInt8) : Prop where
  seeks : ∀ base, IoCall.base pos bytes whence = some base → 0 ≤ base + offset →
    Lands procFt fd offset whence a s p (base + offset) (base + offset)
  refuses : (∀ base, IoCall.base pos bytes whence = some base → base + offset < 0) →
    Lands procFt fd offset whence a s p (-EINVAL) pos

/-- Where the code's two checks and its `int` agree with the sum they are for. -/
structure LseekFits (offset whence : ℤ) (a : SeekAnswers) (pos : ℤ) (bytes : List UInt8) : Prop where
  seekable : a.isSeekable = true
  stat : a.stat = 0
  low : ∀ base, IoCall.base pos bytes whence = some base → offset + whence < 0 → base + offset < 0
  high : ∀ base, IoCall.base pos bytes whence = some base → 0 ≤ offset + whence →
    (0 ≤ base + offset ∧ base + offset < 2 ^ 31 ∧ (whence = seekEnd → a.statAgain = 0)) ∨
    -- Two ways to come by the right error code without looking for it.
    base + offset < 0 ∧ (whence = seekCur ∧ pos = -EINVAL ∧ offset = 0 ∨
      whence = seekEnd ∧ (a.statAgain : ℤ) = EINVAL)

/-! ## Where the code lands -/

/-- What the code answers and where it leaves the file, if it comes to its end. -/
def lseekOutcome (offset whence : ℤ) (a : SeekAnswers) (pos : ℤ) (bytes : List UInt8) :
    Option (ℤ × ℤ) :=
  if a.isSeekable = false then some (-ESPIPE, pos)
  else if a.stat ≠ 0 then none
  else if whence < 0 then some (-EINVAL, pos)
  else if offset + whence < 0 then some (-EINVAL, pos)
  else match IoCall.base pos bytes whence with
    | none => some (-EINVAL, pos)
    | some base =>
      if whence = seekEnd ∧ a.statAgain ≠ 0 then some (-(a.statAgain : ℤ), pos)
      else some (toInt (base + offset), toInt (base + offset))

theorem OpenAt.position (h : OpenAt procFt fd p v pos bytes s) : s.position p = some pos := by
  obtain ⟨f, hf, rfl⟩ := h.isOpen
  rw [FileKernel.position, hf.file]
  rfl

theorem position_moveTo {f : File} (s : FileKernel) (p : Ptr) (held : List LockId) :
    ((s.setFile p (some f)).setHeld held).position p = some f.seekPos := by
  simp [FileKernel.position, FileKernel.setFile, FileKernel.setHeld]

theorem lands_iff_wp : Lands procFt fd offset whence a s p r pos' ↔
    wp (sysLseek procFt fd offset whence a)
      (fun r' t => r' = r ∧ t.position p = some pos') (fun _ _ => False) s :=
  exists_ok_iff_wp

/-- **Where `sys_lseek` lands**, on a descriptor that is open. -/
theorem lands_iff (h : OpenAt procFt fd p v pos bytes s) :
    Lands procFt fd offset whence a s p r pos' ↔
      lseekOutcome offset whence a pos bytes = some (r, pos') := by
  obtain ⟨f, hf, hpos⟩ := h.isOpen
  obtain ⟨hmin, hmax⟩ := hf.range
  rw [minFd] at hmin
  have hrange : ¬ (fd < 0 ∨ fd ≥ openMax) := by omega
  have h0 : fd ≠ 0 := by omega
  have h1 : fd ≠ 1 := by omega
  have h2 : fd ≠ 2 := by omega
  have hfile : ∀ Q, wp (derefFile p) Q (fun _ _ => False) s ↔ Q f s := by
    intro Q
    rw [wp_derefFile]
    simp [hf.file]
  have hvnode : ∀ Q, wp (derefVnode f.fileVnode) Q (fun _ _ => False) s ↔
      Q (v, s.vnRefcount v) s := by
    intro Q
    rw [wp_derefVnode]
    simp [hf.vnode, hf.inMemory]
  have hrelease : ∀ Q, ¬ wp (fileLockRelease p) Q (fun _ _ => False) s := by
    intro Q
    simp only [fileLockRelease, wp_bind, hfile, wp_lockRelease]
    simp [h.held]
  have hstay : (s.setHeld []).position p = some pos := h.position
  have hset : toInt (join32to64 fd offset) = toInt (0 + offset) := by
    rw [← toInt_join 0 fd, Int.zero_add]
  have hend : toInt (join32to64 fd offset + bytes.length) = toInt (bytes.length + offset) := by
    rw [Int.add_comm, toInt_join]
  rw [lands_iff_wp]
  simp only [sysLseek, wp_bind, wp_ite, wp_pure, wp_withFile_open h, hfile, hvnode,
    wp_seekFile h hf, hrelease, hrange, h0, h1, h2, position_moveTo, hstay, h.position, hpos, hset,
    toInt_join, hend, false_implies, not_false_eq_true, true_implies, true_and, Option.some.injEq]
  unfold lseekOutcome IoCall.base
  -- One case for each answer that the code may give.
  by_cases hseekable : a.isSeekable = false
  · simp [hseekable]
  by_cases hstat : a.stat = 0
  swap
  · simp [hseekable, hstat]
  by_cases hwhence : whence < 0
  · simp [hseekable, hstat, hwhence]
  by_cases hsum : offset + whence < 0
  · simp [hseekable, hstat, hwhence, hsum]
  have hsetEnd : ¬ seekSet = seekEnd := by decide
  have hcurEnd : ¬ seekCur = seekEnd := by decide
  by_cases hset : whence = seekSet
  · subst hset
    simp [hseekable, hstat, hwhence, hsum, hsetEnd]
  by_cases hcur : whence = seekCur
  · subst hcur
    simp [hseekable, hstat, hwhence, hsum, hset, hcurEnd]
  by_cases hend : whence = seekEnd
  · subst hend
    by_cases hagain : a.statAgain = 0
    · simp [hseekable, hstat, hwhence, hsum, hset, hcur, hagain]
    · simp [hseekable, hstat, hwhence, hsum, hset, hcur, hagain]
  · simp [hseekable, hstat, hwhence, hsum, hset, hcur, hend]

/-! ## Where that is right -/

/-- An `int` that comes out as it went in. -/
theorem toInt_eq_self_iff {k : ℤ} : toInt k = k ↔ -2 ^ 31 ≤ k ∧ k < 2 ^ 31 := by
  constructor
  · intro h
    simp only [toInt, Int.bmod] at h
    split at h <;> omega
  · intro h
    exact toInt_eq_self h.1 h.2

theorem base_eq_some {base : ℤ} (h : IoCall.base pos bytes whence = some base) :
    (whence = seekSet ∧ base = 0) ∨ (whence = seekCur ∧ base = pos) ∨
      (whence = seekEnd ∧ base = bytes.length) := by
  unfold IoCall.base at h
  split at h
  · exact Or.inl ⟨‹_›, (Option.some.inj h).symm⟩
  split at h
  · exact Or.inr (Or.inl ⟨‹_›, (Option.some.inj h).symm⟩)
  split at h
  · exact Or.inr (Or.inr ⟨‹_›, (Option.some.inj h).symm⟩)
  · cases h

/-- Past the two checks on the file, only the sign and the second `stat` are left. -/
theorem lseekOutcome_of_base {base : ℤ} (hseekable : a.isSeekable = true) (hstat : a.stat = 0)
    (hbase : IoCall.base pos bytes whence = some base) :
    lseekOutcome offset whence a pos bytes =
      if offset + whence < 0 then some (-EINVAL, pos)
      else if whence = seekEnd ∧ a.statAgain ≠ 0 then some (-(a.statAgain : ℤ), pos)
      else some (toInt (base + offset), toInt (base + offset)) := by
  have hseekable' : ¬ a.isSeekable = false := by simp [hseekable]
  have hwhence : ¬ whence < 0 := by
    rcases base_eq_some hbase with ⟨rfl, -⟩ | ⟨rfl, -⟩ | ⟨rfl, -⟩ <;> decide
  rw [lseekOutcome, if_neg hseekable', if_neg (not_not_intro hstat), if_neg hwhence, hbase]

theorem LseekFits.seeks {base : ℤ} (hfits : LseekFits offset whence a pos bytes)
    (h : OpenAt procFt fd p v pos bytes s) (hbase : IoCall.base pos bytes whence = some base)
    (hsum : 0 ≤ base + offset) :
    Lands procFt fd offset whence a s p (base + offset) (base + offset) := by
  have hcheck : ¬ offset + whence < 0 := by
    intro hlow
    exact absurd (hfits.low base hbase hlow) (Int.not_lt.mpr hsum)
  obtain ⟨-, hhigh, hagain⟩ : 0 ≤ base + offset ∧ base + offset < 2 ^ 31 ∧
      (whence = seekEnd → a.statAgain = 0) := by
    rcases hfits.high base hbase (Int.not_lt.mp hcheck) with hin | ⟨habs, -⟩
    · exact hin
    · exact absurd hsum (Int.not_le.mpr habs)
  have hint : toInt (base + offset) = base + offset := toInt_eq_self (by omega) hhigh
  have hagain : ¬ (whence = seekEnd ∧ a.statAgain ≠ 0) := fun hne => hne.2 (hagain hne.1)
  rw [lands_iff h, lseekOutcome_of_base hfits.seekable hfits.stat hbase, if_neg hcheck,
    if_neg hagain, hint]

/-- A negative sum that the check lets through is refused by luck alone. -/
theorem LseekFits.refuses (hfits : LseekFits offset whence a pos bytes)
    (h : OpenAt procFt fd p v pos bytes s)
    (hneg : ∀ base, IoCall.base pos bytes whence = some base → base + offset < 0) :
    Lands procFt fd offset whence a s p (-EINVAL) pos := by
  rw [lands_iff h]
  cases hbase : IoCall.base pos bytes whence with
  | none =>
    have hseekable : ¬ a.isSeekable = false := by simp [hfits.seekable]
    rw [lseekOutcome, if_neg hseekable, if_neg (not_not_intro hfits.stat), hbase]
    split
    · rfl
    split <;> rfl
  | some base =>
    rw [lseekOutcome_of_base hfits.seekable hfits.stat hbase]
    split
    · rfl
    rename_i hcheck
    have hlow := hneg base hbase
    rcases hfits.high base hbase (Int.not_lt.mp hcheck) with ⟨habs, -⟩ | ⟨-, hluck⟩
    · exact absurd habs (Int.not_le.mpr hlow)
    · rcases base_eq_some hbase with ⟨rfl, rfl⟩ | ⟨rfl, rfl⟩ | ⟨rfl, rfl⟩
      · simp [seekSet, seekCur, seekEnd] at hluck
      · obtain ⟨rfl, rfl⟩ : base = -EINVAL ∧ offset = 0 := by simpa [seekCur, seekEnd] using hluck
        simp [seekCur, seekEnd]
        decide
      · have hagain : (a.statAgain : ℤ) = EINVAL := by simpa [seekCur, seekEnd] using hluck
        have hne : a.statAgain ≠ 0 := by
          intro habs
          rw [habs] at hagain
          exact absurd hagain (by decide)
        simp [hagain, hne]

theorem lseekRight_of_fits (h : OpenAt procFt fd p v pos bytes s)
    (hfits : LseekFits offset whence a pos bytes) :
    LseekRight procFt fd offset whence a s p pos bytes :=
  ⟨fun _ hbase hsum => hfits.seeks h hbase hsum, fun hneg => hfits.refuses h hneg⟩

/-! ## And nowhere else -/

/-- Where the code seeks to a negative sum, the `int` it stores is no error code, but for one. -/
theorem lucky_of_stored {base : ℤ} (hbase : IoCall.base pos bytes whence = some base)
    (hcheck : 0 ≤ offset + whence) (hneg : base + offset < 0)
    (hr : toInt (base + offset) = -EINVAL) (hstored : toInt (base + offset) = pos) :
    whence = seekCur ∧ pos = -EINVAL ∧ offset = 0 := by
  have hpos : pos = -EINVAL := hstored.symm.trans hr
  rw [EINVAL] at hr hpos
  rcases base_eq_some hbase with ⟨rfl, rfl⟩ | ⟨rfl, rfl⟩ | ⟨rfl, rfl⟩
  · rw [seekSet] at hcheck
    omega
  · rw [seekCur] at hcheck
    rw [toInt_eq_self (by omega) (by omega)] at hr
    exact ⟨rfl, hpos, by omega⟩
  · rw [seekEnd] at hcheck
    rw [toInt_eq_self (by omega) (by omega)] at hr
    omega

section

variable (h : OpenAt procFt fd p v pos bytes s)
  (hright : LseekRight procFt fd offset whence a s p pos bytes)

include h hright

/-- A right answer is a position or `EINVAL`. -/
theorem LseekRight.answer :
    ∃ r pos', lseekOutcome offset whence a pos bytes = some (r, pos') ∧ (0 ≤ r ∨ r = -EINVAL) := by
  by_cases hsum : ∃ base, IoCall.base pos bytes whence = some base ∧ 0 ≤ base + offset
  · obtain ⟨base, hbase, hpos⟩ := hsum
    exact ⟨_, _, (lands_iff h).mp (hright.seeks base hbase hpos), Or.inl hpos⟩
  · refine ⟨_, _, (lands_iff h).mp (hright.refuses fun base hbase => ?_), Or.inr rfl⟩
    exact Int.not_le.mp fun hpos => hsum ⟨base, hbase, hpos⟩

/-- `ESPIPE` is never right, and an `fstat` that fails never gives the lock back. -/
theorem LseekRight.checks : a.isSeekable = true ∧ a.stat = 0 := by
  obtain ⟨r, pos', houtcome, hr⟩ := hright.answer h
  have hseekable : a.isSeekable = true := by
    by_contra hnot
    rw [lseekOutcome, if_pos (Bool.eq_false_iff.mpr hnot)] at houtcome
    obtain ⟨rfl, -⟩ : -ESPIPE = r ∧ pos = pos' := by simpa using houtcome
    rcases hr with hr | hr <;> exact absurd hr (by decide)
  refine ⟨hseekable, ?_⟩
  by_contra hnot
  have hseekable' : ¬ a.isSeekable = false := by simp [hseekable]
  rw [lseekOutcome, if_neg hseekable', if_pos hnot] at houtcome
  cases houtcome

variable {base : ℤ} (hbase : IoCall.base pos bytes whence = some base)

include hbase

theorem LseekRight.low (hcheck : offset + whence < 0) : base + offset < 0 := by
  obtain ⟨hseekable, hstat⟩ := hright.checks h
  by_contra hnot
  have hanswer := (lands_iff h).mp (hright.seeks base hbase (Int.not_lt.mp hnot))
  rw [lseekOutcome_of_base hseekable hstat hbase, if_pos hcheck] at hanswer
  obtain ⟨hr, -⟩ : -EINVAL = base + offset ∧ pos = base + offset := by simpa using hanswer
  rw [EINVAL] at hr
  omega

theorem LseekRight.high (hcheck : 0 ≤ offset + whence) (hsum : 0 ≤ base + offset) :
    base + offset < 2 ^ 31 ∧ (whence = seekEnd → a.statAgain = 0) := by
  obtain ⟨hseekable, hstat⟩ := hright.checks h
  have hanswer := (lands_iff h).mp (hright.seeks base hbase hsum)
  rw [lseekOutcome_of_base hseekable hstat hbase, if_neg (Int.not_lt.mpr hcheck)] at hanswer
  split at hanswer
  case isTrue hagain =>
    obtain ⟨hr, -⟩ : -(a.statAgain : ℤ) = base + offset ∧ pos = base + offset := by
      simpa using hanswer
    have hpos : a.statAgain ≠ 0 := hagain.2
    omega
  case isFalse hagain =>
    have hint : toInt (base + offset) = base + offset := by simpa using hanswer
    refine ⟨(toInt_eq_self_iff.mp hint).2, fun hend => ?_⟩
    by_contra hne
    exact hagain ⟨hend, hne⟩

theorem LseekRight.lucky (hcheck : 0 ≤ offset + whence) (hneg : base + offset < 0) :
    whence = seekCur ∧ pos = -EINVAL ∧ offset = 0 ∨
      whence = seekEnd ∧ (a.statAgain : ℤ) = EINVAL := by
  obtain ⟨hseekable, hstat⟩ := hright.checks h
  have hrefused := hright.refuses fun b hb => by
    rw [← Option.some.inj (hbase.symm.trans hb)]
    exact hneg
  have hanswer := (lands_iff h).mp hrefused
  rw [lseekOutcome_of_base hseekable hstat hbase, if_neg (Int.not_lt.mpr hcheck)] at hanswer
  split at hanswer
  case isTrue hagain =>
    obtain hr : (a.statAgain : ℤ) = EINVAL := by simpa using hanswer
    exact Or.inr ⟨hagain.1, hr⟩
  case isFalse =>
    obtain ⟨hr, hstored⟩ : toInt (base + offset) = -EINVAL ∧ toInt (base + offset) = pos := by
      simpa using hanswer
    exact Or.inl (lucky_of_stored hbase hcheck hneg hr hstored)

end

/-- **`sys_lseek` is right exactly where its checks and its `int` agree with the sum.** -/
theorem lseekRight_iff (h : OpenAt procFt fd p v pos bytes s) :
    LseekRight procFt fd offset whence a s p pos bytes ↔ LseekFits offset whence a pos bytes := by
  refine ⟨fun hright => ?_, lseekRight_of_fits h⟩
  obtain ⟨hseekable, hstat⟩ := hright.checks h
  refine ⟨hseekable, hstat, fun base hbase hcheck => hright.low h hbase hcheck, ?_⟩
  intro base hbase hcheck
  by_cases hsum : 0 ≤ base + offset
  · exact Or.inl ⟨hsum, hright.high h hbase hcheck hsum⟩
  · have hneg := Int.not_le.mp hsum
    exact Or.inr ⟨hneg, hright.lucky h hbase hcheck hneg⟩

/-! ## A file just opened -/

/-- The file system goes along. -/
def seekOk : SeekAnswers := ⟨true, 0, 0⟩

theorem emptyFile_openAt : OpenAt (some 1) 3 2 0 0 [] IoPair.emptyFile :=
  ⟨⟨⟨some 0, 0, 3⟩, IoPair.emptyFile_open, rfl⟩, rfl, rfl⟩

/-- A seek to 5 is right. -/
theorem lseekRight_iff_five : LseekRight (some 1) 3 5 seekSet seekOk IoPair.emptyFile 2 0 [] := by
  refine (lseekRight_iff emptyFile_openAt).mpr ⟨rfl, rfl, fun base hbase hcheck => ?_, ?_⟩
  · exact absurd hcheck (by decide)
  · intro base hbase _
    obtain rfl : 0 = base := Option.some.inj hbase
    exact Or.inl ⟨by decide, by decide, fun hend => absurd hend (by decide)⟩

/-- A seek to `2 ^ 31` ends at `- 2 ^ 31`, and that is what it answers. -/
theorem seek_wraps_around :
    Lands (some 1) 3 (2 ^ 31) seekSet seekOk IoPair.emptyFile 2 (-2 ^ 31) (-2 ^ 31) ∧
      ¬ LseekRight (some 1) 3 (2 ^ 31) seekSet seekOk IoPair.emptyFile 2 0 [] := by
  have hanswer : lseekOutcome (2 ^ 31) seekSet seekOk 0 [] = some (-2 ^ 31, -2 ^ 31) := by decide
  refine ⟨(lands_iff emptyFile_openAt).mpr hanswer, fun hright => ?_⟩
  have hlands := hright.seeks 0 rfl (by decide)
  exact absurd ((lands_iff emptyFile_openAt).mp hlands) (by decide)

end UnionCollegeCode.OS161.Files
