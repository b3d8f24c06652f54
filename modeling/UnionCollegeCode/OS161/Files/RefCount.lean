import UnionCollegeCode.Lib.Run
import UnionCollegeCode.OS161.Files.Desk

/-!
# Reference counts of open files

The last descriptor is where the code goes wrong: `file_destroy` gives up one reference and frees the
file at a count of two, so the reference of `vfs_open` is never given back. Nor does a `dup2` count
its new descriptor, an exiting process close its own, or an `open` that finds no slot free its file,
unless there was exactly one reference before.
-/

set_option autoImplicit false

namespace UnionCollegeCode.OS161.Files

open Function (update)
open Lib (RefLedger)
open Lib.EState
open Lib.Run (Along Meets exec along_iff_meets_of_break)

namespace Desk

/-! ## Call by call -/

section Calls

variable {w : Desk} {s' : FileKernel} {procFt : Option Ptr} {r fd : ℤ}

theorem ledger_advance (h : w.Core) :
    (w.setCode { w.code with next := w.code.next + 1 }).ledger = w.ledger := by
  refine RefLedger.ext rfl rfl (Finset.ext fun p => ?_) rfl
  rw [mem_objects_iff, mem_objects_iff]
  constructor
  · intro ⟨_, hp⟩
    exact mem_objects_iff.mp ((mem_objects h).mpr hp)
  · intro ⟨hlt, hp⟩
    exact ⟨Nat.lt_succ_of_lt hlt, hp⟩

/-- An address is passed over. -/
theorem Sane.advance (h : w.Sane) : (w.setCode { w.code with next := w.code.next + 1 }).Sane := by
  have hledger := ledger_advance h.core
  refine ⟨⟨?_, ?_, h.core.master, fun p hp => h.core.allocated p (Nat.le_of_succ_le hp),
    h.core.tables, h.core.vnodes⟩, ?_⟩
  · rw [hledger]
    exact h.core.balanced
  · rw [hledger]
    exact h.core.slots
  · rw [hledger]
    exact h.closed

theorem Sane.setHeld {held : List LockId} (h : w.Sane) : (w.setCode (w.code.setHeld held)).Sane :=
  ⟨h.core.setHeld, h.closed⟩

/-- A file that was opened and finds its slots. -/
theorem Sane.given {q v : Ptr} {t : FileTable} {m : ℤ} (h : w.Sane) (hq : q ∈ w.live)
    (ht : w.code.tables q = some t) (hfd : minFd ≤ fd ∧ fd < openMax) (hempty : t.fileArr fd = none) :
    (w.setCode ((w.code.opened v).given q w.code.next t ⟨some v, 0, floatingFile⟩ v (some m)
      (some fd))).Sane := by
  have hx : (q, fd) ∈ w.ledger.slots := mem_slots.mpr ⟨hq, hfd⟩
  have hheld : w.ledger.held (q, fd) = none := by rw [held_slot ht, hempty]
  have hfile : (w.code.opened v).files w.code.next = some ⟨some v, 0, floatingFile⟩ :=
    Function.update_self w.code.next _ w.code.files
  have hmaster := (h.core.opened (v := v)).setMaster (m := m) hfile
  have hfile' : (((w.code.opened v).setMaster m (some w.code.next)).setFile w.code.next
      (some ⟨some v, 0, m⟩)).files w.code.next = some ⟨some v, 0, m⟩ :=
    Function.update_self w.code.next _ _
  refine ⟨hmaster.fill hq (by exact ht) hfd hempty hfile' rfl, ?_⟩
  have hledger := ledger_setMaster (w := w.setCode (w.code.opened v)) (m := m) hfile
  have hstore := ledger_setTable (i := fd) (o := some w.code.next) (q := q) (t := t)
    (w := (w.setCode (w.code.opened v)).setCode
      (((w.code.opened v).setMaster m (some w.code.next)).setFile w.code.next
        (some ⟨some v, 0, m⟩))) ht
  have henrol : (w.setCode ((w.code.opened v).given q w.code.next t ⟨some v, 0, floatingFile⟩ v
      (some m) (some fd))).ledger =
        (w.ledger.enrol w.code.next v).store (q, fd) (some w.code.next) := by
    rw [← ledger_opened, ← hledger]
    exact hstore
  rw [henrol]
  exact h.closed.enrol_fill hx hheld

/-- A file that finds no slots, where its vnode had one reference before. -/
theorem Sane.dropNew {v : Ptr} (h : w.Sane) (hone : w.code.vnRefcount v = 1) :
    (w.setCode ((w.code.opened v).dropFile w.code.next ⟨some v, 0, floatingFile⟩ v)).Sane := by
  have hcount : (w.code.opened v).vnRefcount v = oneFileOwner := by
    show update w.code.vnRefcount v _ v = _
    rw [Function.update_self, hone]
    rfl
  have hcounts : update w.code.vnRefcount v 1 = w.code.vnRefcount := by
    rw [← hone]
    exact Function.update_eq_self v w.code.vnRefcount
  have hfiles : update w.code.files w.code.next none = w.code.files := by
    rw [← (h.core.allocated _ (Nat.le_refl _)).1]
    exact Function.update_eq_self w.code.next w.code.files
  have hsame : (w.code.opened v).dropFile w.code.next ⟨some v, 0, floatingFile⟩ v =
      { w.code with next := w.code.next + 1 } := by
    rw [FileKernel.dropFile, if_pos hcount, if_pos rfl, hcount]
    simp [FileKernel.opened, FileKernel.setFile, FileKernel.setCount, hfiles, oneFileOwner, hcounts]
  rw [hsame]
  exact h.advance

/-- Where it had another number of them, the file is left behind. -/
theorem not_intact_dropNew {v : Ptr} (h : w.Sane) (hone : w.code.vnRefcount v ≠ 1) :
    ¬ (w.setCode ((w.code.opened v).dropFile w.code.next ⟨some v, 0, floatingFile⟩ v)).Intact := by
  intro habs
  have hcount : (w.code.opened v).vnRefcount v ≠ oneFileOwner := by
    show update w.code.vnRefcount v _ v ≠ _
    rw [Function.update_self]
    exact fun htwo => hone (Nat.succ_injective htwo)
  have hledger : (w.setCode ((w.code.opened v).dropFile w.code.next
      ⟨some v, 0, floatingFile⟩ v)).ledger = w.ledger.enrol w.code.next v := by
    rw [dropFile_of_ne hcount, ← ledger_opened]
    rfl
  have hnew : w.code.next ∉ w.ledger.objects := fun hin =>
    (mem_objects h.core).mp hin (h.core.allocated _ (Nat.le_refl _)).1
  have hclosed := habs.closed
  rw [hledger] at hclosed
  exact RefLedger.not_used_enrol h.core.slots hnew hclosed

theorem open_keeps {filename : Option Ptr} {flags : ℤ} {a : OpenAnswers} (h : w.Sane)
    (hs : w.code.held = []) (howns : w.Owns procFt)
    (hrun : sysOpen procFt filename flags a w.code = .ok r s')
    (hkeeps : w.Keeps (.open procFt filename flags a)) : (w.setCode s').Sane := by
  rcases sysOpen_ok hs hrun with ⟨rfl, -⟩ |
    ⟨v, hopens, ⟨q, t, m, fd, rfl, ht, -, hfd, -, hempty, -, rfl⟩ | ⟨hfull, rfl⟩⟩
  · exact h
  · exact h.given (howns q rfl) ht hfd hempty
  · exact h.dropNew (hkeeps v hopens hfull)

theorem open_breaks {filename : Option Ptr} {flags : ℤ} {a : OpenAnswers} (h : w.Sane)
    (hs : w.code.held = []) (hrun : sysOpen procFt filename flags a w.code = .ok r s')
    (hkeeps : ¬ w.Keeps (.open procFt filename flags a)) : ¬ (w.setCode s').Intact := by
  simp only [Keeps, not_forall] at hkeeps
  obtain ⟨v, hopens, hfull, hone⟩ := hkeeps
  rcases sysOpen_ok hs hrun with ⟨-, hno⟩ | ⟨v', hopens', hrest⟩
  · exact absurd hopens (hno v)
  · obtain rfl : v = v' := by
      have heq := hopens.vfsOpen.symm.trans hopens'.vfsOpen
      cases heq
      rfl
    rcases hrest with ⟨q, t, m, fd, -, -, -, -, -, -, hroom, -⟩ | ⟨-, rfl⟩
    · exact absurd hfull hroom
    · exact not_intact_dropNew h hone

/-- A file counts for itself and for its descriptors. -/
theorem Core.le_count {p v : Ptr} {f : File} (h : w.Core) (hf : w.code.files p = some f)
    (hv : f.fileVnode = some v) : 1 + w.ledger.refs p + w.outside v ≤ w.code.vnRefcount v := by
  have hp : p ∈ w.ledger.objects := (mem_objects h).mpr (by simp [hf])
  have hhome : w.ledger.home p = some v := by rw [home_file hf, hv]
  have howed := RefLedger.le_owed hp hhome
  have hcount := h.balanced v
  omega

/-- An intact vnode that nobody else refers to never has a count of one. -/
theorem Intact.count_ne_one {v : Ptr} (h : w.Intact) (hout : w.outside v = 0) :
    w.code.vnRefcount v ≠ 1 := by
  have hcount := h.balanced v
  have howed := RefLedger.owed_ne_one (v := v) h.closed
  omega

theorem close_keeps (h : w.Sane) (hs : w.code.held = []) (howns : w.Owns procFt)
    (hrun : sysClose procFt fd w.code = .ok r s') (hkeeps : w.Keeps (.close procFt fd)) :
    (w.setCode s').Sane := by
  rcases sysClose_ok hs hrun with ⟨rfl, -⟩ | ⟨q, t, p, f, v, rfl, ht, hfd, hslot, hf, hv, -, rfl⟩
  · exact h
  · have hq : q ∈ w.live := howns q rfl
    have hx : (q, fd) ∈ w.ledger.slots := mem_slots.mpr ⟨hq, hfd⟩
    have hheld : w.ledger.held (q, fd) = some p := by rw [held_slot ht, hslot]
    have htwo := hkeeps p hfd.1 hfd.2 hheld
    have hle := h.core.le_count hf hv
    have hcount : w.code.vnRefcount v ≠ oneFileOwner := by
      have : oneFileOwner = 2 := rfl
      omega
    have hclear := h.core.clear hq ht hfd hslot hf hv
    have hstore := ledger_setTable (i := fd) (o := none) ht
    rw [dropFile_of_ne (by exact hcount)]
    refine ⟨hclear, ?_⟩
    show (w.setCode (w.code.setTable q _)).ledger.Used
    rw [hstore]
    exact h.closed.clear hx hheld htwo

theorem close_breaks (h : w.Sane) (hs : w.code.held = []) (howns : w.Owns procFt)
    (hrun : sysClose procFt fd w.code = .ok r s') (hkeeps : ¬ w.Keeps (.close procFt fd)) :
    ¬ (w.setCode s').Intact := by
  simp only [Keeps, not_forall] at hkeeps
  obtain ⟨p, hlow, hhigh, hdesc, hone⟩ := hkeeps
  rcases sysClose_ok hs hrun with ⟨-, hno⟩ | ⟨q, t, p', f, v, rfl, ht, hfd, hslot, hf, hv, -, rfl⟩
  · exact absurd ⟨hlow, hhigh, by simp [hdesc]⟩ hno
  · have hheld : w.ledger.held (q, fd) = some p := hdesc
    have hx : (q, fd) ∈ w.ledger.slots := mem_slots.mpr ⟨howns q rfl, hfd⟩
    obtain rfl : p = p' := by
      rw [held_slot ht, hslot] at hheld
      exact (Option.some.inj hheld).symm
    have hp : p ∈ w.ledger.objects := (mem_objects h.core).mpr (by simp [hf])
    have hpos := RefLedger.refs_pos hx hheld
    have hle := h.core.le_count hf hv
    intro habs
    by_cases hcount : w.code.vnRefcount v = oneFileOwner
    · -- The file goes, and the reference of its `vfs_open` stays.
      have htwo : w.code.vnRefcount v = 2 := hcount
      have hout : w.outside v = 0 := by omega
      refine habs.count_ne_one (v := v) hout ?_
      show ((w.code.setTable q _).dropFile p f v).vnRefcount v = 1
      rw [dropFile_count, Function.update_self]
      show w.code.vnRefcount v - 1 = 1
      omega
    · have hstore := ledger_setTable (i := fd) (o := none) ht
      have hclosed := habs.closed
      rw [dropFile_of_ne (by exact hcount)] at hclosed
      have hclosed : (w.setCode (w.code.setTable q _)).ledger.Used := hclosed
      rw [hstore] at hclosed
      exact RefLedger.not_used_clear hp hx hheld (by omega) hclosed

theorem dup2_keeps {oldfd newfd : ℤ} (h : w.Sane) (hs : w.code.held = [])
    (hrun : sysDup2 procFt oldfd newfd w.code = .ok r s')
    (hkeeps : w.Keeps (.dup2 procFt oldfd newfd)) : (w.setCode s').Sane := by
  rcases sysDup2_ok hs hrun with ⟨rfl, -⟩ | ⟨hcopies, -⟩
  · exact h
  · exact absurd hcopies hkeeps

/-- A descriptor more, and no reference for it. -/
theorem dup2_breaks {oldfd newfd : ℤ} (h : w.Sane) (hs : w.code.held = []) (howns : w.Owns procFt)
    (hrun : sysDup2 procFt oldfd newfd w.code = .ok r s')
    (hkeeps : ¬ w.Keeps (.dup2 procFt oldfd newfd)) : ¬ (w.setCode s').Intact := by
  have hkeeps : w.code.Copies procFt oldfd newfd := Classical.not_not.mp hkeeps
  intro habs
  obtain ⟨p, hp⟩ := Option.ne_none_iff_exists'.mp hkeeps.master
  have hlive := h.core.master oldfd p hp
  obtain ⟨vp, hvp⟩ := exists_home h.core hlive
  have hlodges : w.ledger.Lodges vp (some p) := hvp
  have hmem : ∀ o, some p = some o → o ∈ w.ledger.objects := fun o ho => by
    cases ho
    exact (mem_objects h.core).mpr hlive
  rcases sysDup2_ok hs hrun with ⟨-, hno⟩ | ⟨-, q, t, held, rfl, ht, hcases⟩
  · exact hno hkeeps
  have hx : (q, newfd) ∈ w.ledger.slots := mem_slots.mpr ⟨howns q rfl, hkeeps.new⟩
  have hstore := ledger_setTable (i := newfd) (o := some p) ht
  -- The new slot owes a reference to the vnode `vp` of the copied file.
  have howed := RefLedger.owed_store (h := some p) h.core.slots hx hmem
  rw [held_slot ht] at howed
  have hcount := h.core.balanced
  -- In an empty slot nothing is given back for it; in a full one, what is given back was owed by
  -- the file that was there.
  rcases hcases with ⟨hempty, rfl⟩ | ⟨g, f, v, hg, hf, hv, hn, rfl⟩
  · have hledger : (w.setCode ((w.code.install q t oldfd newfd).setHeld held)).ledger =
        w.ledger.store (q, newfd) (some p) := by
      rw [← hstore, FileKernel.install, hp]
      rfl
    have hcount' : w.code.vnRefcount vp = w.outside vp + _ := habs.balanced vp
    have howed := howed vp
    rw [hempty, if_neg RefLedger.not_lodges_none, if_pos hlodges, ← hledger] at howed
    have := hcount vp
    omega
  · have hgslot : w.ledger.held (q, newfd) = some g := by rw [held_slot ht, hg]
    have hpos := RefLedger.refs_pos hx hgslot
    have hle := h.core.le_count hf hv
    have hgv : w.ledger.home g = some v := by rw [home_file hf, hv]
    by_cases hlast : w.code.vnRefcount v = oneFileOwner
    · -- The last reference of the file that was in the slot is never given back.
      have htwo : w.code.vnRefcount v = 2 := hlast
      refine habs.count_ne_one (v := v) (by omega : w.outside v = 0) ?_
      show (w.code.dropFile g f v).vnRefcount v = 1
      rw [dropFile_count, Function.update_self, htwo]
    · rw [dropFile_of_ne hlast] at habs
      have hledger : (w.setCode (((w.code.setCount v (w.code.vnRefcount v - 1)).install q t oldfd
          newfd).setHeld held)).ledger = w.ledger.store (q, newfd) (some p) := by
        have hp' : (w.code.setCount v (w.code.vnRefcount v - 1)).master.fileArr oldfd = some p := hp
        rw [← hstore, FileKernel.install, hp']
        rfl
      have hcount' : ∀ u, update w.code.vnRefcount v (w.code.vnRefcount v - 1) u = w.outside u + _ :=
        habs.balanced
      rw [hledger] at hcount'
      have howed := howed vp
      have hold := hcount vp
      have hnew := hcount' vp
      rw [hg, if_pos hlodges] at howed
      -- If both files are of one vnode, as much is owed as before and one reference is gone.
      by_cases hsame : vp = v
      · subst hsame
        have hlodges' : w.ledger.Lodges vp (some g) := hgv
        rw [if_pos hlodges'] at howed
        rw [Function.update_self] at hnew
        omega
      · have hother : ¬ w.ledger.Lodges vp (some g) := by
          rw [RefLedger.lodges_some, hgv]
          simpa using Ne.symm hsame
        rw [if_neg hother] at howed
        rw [Function.update_of_ne hsame] at hnew
        omega

/-- A process with an empty table. -/
theorem Sane.newTable {n : ℤ} (h : w.Sane) :
    Sane { w with code := w.code.withTable n, live := insert w.code.next w.live } := by
  have hnone := (h.core.allocated _ (Nat.le_refl _)).2
  have hheld : ∀ fd, w.ledger.held (w.code.next, fd) = none := fun fd => by
    simp [ledger, FileKernel.descriptor, hnone]
  -- The slots of the new table are empty, so that they owe nothing.
  have hresizes : w.ledger.Resizes (insert w.code.next w.live ×ˢ descriptors) := by
    constructor
    · rintro ⟨q, fd⟩ hin hout
      obtain ⟨hq, hfd⟩ := Finset.mem_product.mp hin
      rcases Finset.mem_insert.mp hq with rfl | hq
      · exact hheld fd
      · exact absurd (Finset.mem_product.mpr ⟨hq, hfd⟩) hout
    · rintro ⟨q, fd⟩ hin hout
      obtain ⟨hq, hfd⟩ := Finset.mem_product.mp hin
      exact absurd (Finset.mem_product.mpr ⟨Finset.mem_insert_of_mem hq, hfd⟩) hout
  have hledger : (Desk.mk (w.code.withTable n) (insert w.code.next w.live) w.outside).ledger =
      { w.ledger with slots := insert w.code.next w.live ×ˢ descriptors } := by
    refine RefLedger.ext rfl (funext ?_) ?_ rfl
    · rintro ⟨q, fd⟩
      by_cases hq : q = w.code.next
      · subst hq
        rw [hheld fd]
        simp [ledger, FileKernel.withTable, FileKernel.setTable, FileKernel.descriptor]
      · simp [ledger, FileKernel.withTable, FileKernel.setTable, FileKernel.descriptor, hq]
    · have hadvance := congrArg RefLedger.objects (ledger_advance h.core)
      exact hadvance
  refine ⟨⟨?_, ?_, h.core.master, fun p hp => ⟨(h.core.allocated p (Nat.le_of_succ_le hp)).1, ?_⟩,
    fun q hq => ?_, h.core.vnodes⟩, ?_⟩
  · rw [hledger]
    exact h.core.balanced.resize hresizes
  · rw [hledger]
    exact h.core.slots.resize hresizes
  · show update w.code.tables _ _ p = none
    rw [Function.update_of_ne (Nat.ne_of_gt hp)]
    exact (h.core.allocated p (Nat.le_of_succ_le hp)).2
  · show update w.code.tables _ _ q ≠ none
    by_cases hne : q = w.code.next
    · simp [hne]
    · rw [Function.update_of_ne hne]
      exact h.core.tables q ((Finset.mem_insert.mp hq).resolve_left hne)
  · rw [hledger]
    exact h.closed.resize hresizes

/-- A copy that has come to slot `i` of its new table. -/
structure Filling (w : Desk) (new : Ptr) (i : ℤ) : Prop where
  sane : w.Sane
  live : new ∈ w.live
  rest : ∃ tmp, w.code.tables new = some tmp ∧ ∀ j, i ≤ j → tmp.fileArr j = none

theorem Filling.copySlot {q new : Ptr} {i : ℤ} {u : Unit} (h : w.Filling new i)
    (hi : minFd ≤ i ∧ i < openMax) (hrun : copySlot q new i w.code = .ok u s') :
    (w.setCode s').Filling new (i + 1) := by
  obtain ⟨tmp, htmp, hrest⟩ := h.rest
  obtain ⟨t, -, ⟨-, rfl⟩ | ⟨p, f, v, tmp', held, -, hf, hv, htmp', rfl⟩⟩ := copySlot_ok hrun
  · exact ⟨h.sane, h.live, tmp, htmp, fun j hj => hrest j (Int.le_of_lt hj)⟩
  · obtain rfl := Option.some.inj (htmp.symm.trans htmp')
    have hx : (new, i) ∈ w.ledger.slots := mem_slots.mpr ⟨h.live, hi⟩
    have hempty := hrest i (Int.le_refl i)
    have hheld : w.ledger.held (new, i) = none := by rw [held_slot htmp, hempty]
    have hcore := h.sane.core.fill h.live htmp hi hempty hf hv
    have hstore := ledger_setTable (i := i) (o := some p) htmp
    have hused : (w.setCode (w.code.setTable new
        (some { tmp with fileArr := update tmp.fileArr i (some p) }))).ledger.Used := by
      rw [hstore]
      exact h.sane.closed.fill hx hheld
    refine ⟨⟨hcore.setHeld, hused⟩, h.live, _, Function.update_self new _ _, fun j hj => ?_⟩
    have hne : j ≠ i := Int.ne_of_gt hj
    show update tmp.fileArr i _ j = none
    rw [Function.update_of_ne hne]
    exact hrest j (Int.le_of_lt hj)

theorem Filling.copyFrom {q new : Ptr} {u : Unit} {n : ℕ} : ∀ {w : Desk} {i : ℤ}, w.Filling new i →
    minFd ≤ i → i + n = openMax → copyFrom q new n i w.code = .ok u s' →
    (w.setCode s').Filling new openMax := by
  induction n with
  | zero =>
    intro w i h _ hi hrun
    obtain ⟨-, rfl⟩ := pure_eq_ok.mp hrun
    obtain rfl : i = openMax := by omega
    exact h
  | succ n ih =>
    intro w i h hlow hi hrun
    simp only [Files.copyFrom, bind_eq_ok] at hrun
    obtain ⟨_, s₁, hslot, hrest⟩ := hrun
    have hnext := h.copySlot ⟨hlow, by omega⟩ hslot
    exact ih (w := w.setCode s₁) hnext (by omega) (by omega) hrest

theorem exit_keeps {q : Ptr} (h : w.Sane) (hkeeps : w.Keeps (.exit q)) :
    Sane { w with live := w.live.erase q } := by
  have hsub : ∀ x ∈ w.live.erase q ×ˢ descriptors, x ∈ w.ledger.slots := fun x hx => by
    obtain ⟨hq, hfd⟩ := Finset.mem_product.mp hx
    exact Finset.mem_product.mpr ⟨Finset.mem_of_mem_erase hq, hfd⟩
  have hresizes : w.ledger.Resizes (w.live.erase q ×ˢ descriptors) := by
    refine ⟨fun x hin hout => absurd (hsub x hin) hout, fun ⟨q', fd⟩ hin hout => ?_⟩
    obtain ⟨hq', hlow, hhigh⟩ := mem_slots.mp hin
    have hq : q' = q := by
      by_contra hne
      exact hout (Finset.mem_product.mpr ⟨Finset.mem_erase.mpr ⟨hne, hq'⟩,
        mem_descriptors.mpr ⟨hlow, hhigh⟩⟩)
    subst hq
    exact hkeeps fd hlow hhigh
  exact ⟨⟨h.core.balanced.resize hresizes, h.core.slots.resize hresizes, h.core.master,
    h.core.allocated, fun q' hq' => h.core.tables q' (Finset.mem_of_mem_erase hq'), h.core.vnodes⟩,
    h.closed.resize hresizes⟩

theorem exit_breaks {q : Ptr} (h : w.Sane) (hq : q ∈ w.live) (hkeeps : ¬ w.Keeps (.exit q)) :
    ¬ Intact { w with live := w.live.erase q } := by
  simp only [Keeps, not_forall] at hkeeps
  obtain ⟨fd, hlow, hhigh, hdesc⟩ := hkeeps
  obtain ⟨p, hp⟩ := Option.ne_none_iff_exists'.mp hdesc
  have hx : (q, fd) ∈ w.ledger.slots := mem_slots.mpr ⟨hq, hlow, hhigh⟩
  have hlive := (mem_objects h.core).mp (h.core.slots _ hx p hp)
  obtain ⟨v, hv⟩ := exists_home h.core hlive
  intro habs
  have hsub : w.live.erase q ×ˢ descriptors ⊆ w.ledger.slots := fun x hx => by
    obtain ⟨hq, hfd⟩ := Finset.mem_product.mp hx
    exact Finset.mem_product.mpr ⟨Finset.mem_of_mem_erase hq, hfd⟩
  have hlost : (q, fd) ∉ w.live.erase q ×ˢ descriptors := by simp
  have hless := RefLedger.owed_lt_of_lost h.core.slots hsub hx hlost hp hv
  have hcount := h.core.balanced v
  have hcount' : w.code.vnRefcount v = w.outside v + _ := habs.balanced v
  have hless : (Desk.ledger { w with live := w.live.erase q }).owed v < w.ledger.owed v := hless
  omega

/-- References from outside come and go. -/
theorem Sane.recount {v : Ptr} {n m : ℕ} (h : w.Sane)
    (hn : n + w.outside v = w.code.vnRefcount v + m) : Sane { w with
      code := w.code.setCount v n
      outside := update w.outside v m } := by
  refine ⟨⟨fun u => ?_, h.core.slots, h.core.master, h.core.allocated, h.core.tables,
    h.core.vnodes⟩, h.closed⟩
  have hcount := h.core.balanced u
  show update w.code.vnRefcount v n u = update w.outside v m u + w.ledger.owed u
  by_cases hu : u = v
  · subst hu
    rw [Function.update_self, Function.update_self]
    omega
  · rw [Function.update_of_ne hu, Function.update_of_ne hu]
    exact hcount

end Calls

/-! ## Runs -/

section Runs

variable {w w' : Desk} {procFt : Option Ptr}

theorem call_eq_some {α : Type} {m : FileM α} (h : w.call procFt m = some w') :
    w.Owns procFt ∧ ∃ r s, m (w.code.setHeld []) = .ok r s ∧ w' = w.setCode s := by
  unfold call at h
  split at h
  case isFalse => cases h
  case isTrue howns =>
    refine ⟨howns, ?_⟩
    cases hrun : m (w.code.setHeld []) with
    | ok r s =>
      rw [hrun] at h
      exact ⟨r, s, rfl, (Option.some.inj h).symm⟩
    | error e s =>
      rw [hrun] at h
      cases h

theorem equip_eq_some {live : Finset Ptr} {m : FileM (Option Ptr)}
    (h : w.equip procFt live m = some w') :
    w.Owns procFt ∧ ∃ made s, m (w.code.setHeld []) = .ok made s ∧
      w' = { w with code := s, live := made.elim live fun q => insert q live } := by
  unfold equip at h
  split at h
  case isFalse => cases h
  case isTrue howns =>
    refine ⟨howns, ?_⟩
    cases hrun : m (w.code.setHeld []) with
    | ok made s =>
      rw [hrun] at h
      refine ⟨made, s, rfl, ?_⟩
      cases made <;> exact (Option.some.inj h).symm
    | error e s =>
      rw [hrun] at h
      cases h

theorem step_keeps {c : RefCall} (h : w.Sane) (hstep : w.step c = some w') (hkeeps : w.Keeps c) :
    w'.Sane := by
  have h₀ : (w.setCode (w.code.setHeld [])).Sane := h.setHeld
  cases c with
  | «open» procFt filename flags a =>
    obtain ⟨howns, r, s, hrun, rfl⟩ := call_eq_some hstep
    have hsane := open_keeps h₀ rfl howns hrun hkeeps
    exact hsane
  | close procFt fd =>
    obtain ⟨howns, r, s, hrun, rfl⟩ := call_eq_some hstep
    have hsane := close_keeps h₀ rfl howns hrun hkeeps
    exact hsane
  | dup2 procFt oldfd newfd =>
    obtain ⟨-, r, s, hrun, rfl⟩ := call_eq_some hstep
    have hsane := dup2_keeps h₀ rfl hrun fun hcopies =>
      hkeeps ⟨hcopies.old, hcopies.new, hcopies.table, hcopies.master⟩
    exact hsane
  | create a =>
    obtain ⟨-, made, s, hrun, rfl⟩ := equip_eq_some hstep
    rcases fileTableCreate_ok hrun with ⟨rfl, rfl⟩ | ⟨rfl, rfl⟩
    · exact h₀
    · exact h₀.newTable
  -- `fork` copies the table, slot by slot, into one that is new.
  | fork procFt a =>
    obtain ⟨howns, made, s, hrun, rfl⟩ := equip_eq_some hstep
    have hq : ∀ q, procFt = some q → q ≠ (w.code.setHeld []).next := fun q hq habs => by
      refine h.core.tables q (howns q hq) ?_
      rw [habs]
      exact (h.core.allocated _ (Nat.le_refl _)).2
    rcases fileTableCopy_ok hq hrun with ⟨rfl, held, rfl⟩ |
      ⟨q, t, held, s₁, u, held', rfl, -, -, hcopy, rfl⟩
    · exact h.setHeld
    · have hnew : Sane { w with
          code := ((w.code.setHeld []).setHeld held).withTable t.numFiles
          live := insert w.code.next w.live } := h₀.setHeld.newTable
      have hbegin : Filling { w with
          code := ((w.code.setHeld []).setHeld held).withTable t.numFiles
          live := insert w.code.next w.live } w.code.next minFd :=
        ⟨hnew, Finset.mem_insert_self _ _, _, Function.update_self w.code.next _ _, fun _ _ => rfl⟩
      exact (hbegin.copyFrom (Int.le_refl _) (by decide) hcopy).sane.setHeld
  -- `exec` destroys its process's table, and that call does not come back.
  | exec q a =>
    obtain ⟨-, made, s, hrun, rfl⟩ := equip_eq_some hstep
    obtain ⟨_, _, hdestroy, -⟩ := bind_eq_ok.mp hrun
    exact absurd hdestroy fileTableDestroy_stops
  | exit q =>
    simp only [step] at hstep
    split at hstep
    · cases hstep
      exact exit_keeps h hkeeps
    · cases hstep
  | take v =>
    cases hstep
    exact h.recount (by omega)
  | give v =>
    simp only [step] at hstep
    split at hstep
    · cases hstep
    · cases hstep
      have hcount := h.core.balanced v
      exact h.recount (by omega)

theorem step_breaks {c : RefCall} (h : w.Sane) (hstep : w.step c = some w') (hkeeps : ¬ w.Keeps c) :
    ¬ w'.Intact := by
  have h₀ : (w.setCode (w.code.setHeld [])).Sane := h.setHeld
  cases c with
  | «open» procFt filename flags a =>
    obtain ⟨-, r, s, hrun, rfl⟩ := call_eq_some hstep
    have hbroken := open_breaks h₀ rfl hrun hkeeps
    exact hbroken
  | close procFt fd =>
    obtain ⟨howns, r, s, hrun, rfl⟩ := call_eq_some hstep
    have hbroken := close_breaks h₀ rfl howns hrun hkeeps
    exact hbroken
  | dup2 procFt oldfd newfd =>
    obtain ⟨howns, r, s, hrun, rfl⟩ := call_eq_some hstep
    have hbroken := dup2_breaks h₀ rfl howns hrun fun hno =>
      hkeeps fun hcopies => hno ⟨hcopies.old, hcopies.new, hcopies.table, hcopies.master⟩
    exact hbroken
  | exit q =>
    simp only [step] at hstep
    split at hstep
    case isTrue hq =>
      cases hstep
      exact exit_breaks h hq hkeeps
    case isFalse => cases hstep
  | create | fork | exec | take | give => exact absurd trivial hkeeps

theorem Fresh.sane (h : w.Fresh) : w.Sane := by
  have hobjects : w.ledger.objects = ∅ := by
    refine Finset.eq_empty_of_forall_notMem fun p hp => ?_
    exact (mem_objects_iff.mp hp).2 (h.files p)
  have hheld : ∀ x ∈ w.ledger.slots, w.ledger.held x = none := fun ⟨q, fd⟩ hx => by
    obtain ⟨t, ht, hempty⟩ := h.tables q (mem_slots.mp hx).1
    rw [held_slot ht, hempty]
  refine ⟨⟨fun v => ?_, fun x hx o ho => ?_, fun fd p hp => ?_,
    fun p hp => ⟨h.files p, h.allocated p hp⟩, fun q hq => ?_, fun p f hf => ?_⟩, fun p hp => ?_⟩
  · rw [h.counts v, RefLedger.owed, hobjects]
    rfl
  · rw [hheld x hx] at ho
    cases ho
  · rw [h.master fd] at hp
    cases hp
  · obtain ⟨t, ht, -⟩ := h.tables q hq
    simp [ht]
  · rw [h.files p] at hf
    cases hf
  · rw [hobjects] at hp
    exact absurd hp (Finset.notMem_empty p)

/-- **The reference counts of open files.** They are right throughout a run exactly if no call of it
closes the last descriptor of a file, gets a `dup2` past its check, leaves descriptors open at the exit
of their process, or drops a new file on a vnode that did not have one reference. -/
theorem refCount_iff (h : w.Fresh) (calls : List RefCall) :
    Along step Intact w calls ↔ Meets step Keeps w calls :=
  along_iff_meets_of_break (fun _ => Sane.intact)
    (fun _ _ _ hsane hstep hkeeps => step_keeps hsane hstep hkeeps)
    (fun _ _ _ hsane hstep hkeeps => step_breaks hsane hstep hkeeps) h.sane

end Runs

/-- One process, no file open, no vnode in memory. -/
def firstDesk : Desk where
  code := ⟨fun _ => 0, fun _ => none, fun q => if q = 0 then some ⟨fun _ => none, 0⟩ else none,
    ⟨fun _ => none, 0⟩, fun _ => [], [], [], 1⟩
  live := {0}
  outside _ := 0

theorem firstDesk_fresh : firstDesk.Fresh where
  files _ := rfl
  master _ := rfl
  tables q hq := by
    obtain rfl := Finset.mem_singleton.mp hq
    exact ⟨_, rfl, fun _ => rfl⟩
  allocated q hq := if_neg (Nat.ne_of_gt hq)
  counts _ := rfl

/-- The file on vnode 5 is opened and closed. -/
def openClose : List RefCall :=
  [.open (some 0) (some 0) 0 ⟨true, 0, (0, some 5), true⟩, .close (some 0) 3]

theorem refCount_iff_firstDesk : firstDesk.Fresh ∧
    (Along step Intact firstDesk openClose ↔ Meets step Keeps firstDesk openClose) :=
  ⟨firstDesk_fresh, refCount_iff firstDesk_fresh openClose⟩

/-- The vnode is left with a reference that nobody has. -/
theorem openClose_leaks :
    ((exec step firstDesk openClose).map fun w => (w.code.vnRefcount 5, w.outside 5)) = some (1, 0) ∧
      ¬ Along step Intact firstDesk openClose := by
  have hrun : ((exec step firstDesk openClose).map fun w => (w.code.vnRefcount 5, w.outside 5)) =
      some (1, 0) := by decide +kernel
  refine ⟨hrun, fun h => ?_⟩
  obtain ⟨w, hw, hcounts⟩ := Option.map_eq_some_iff.mp hrun
  obtain ⟨hone, hout⟩ := Prod.mk.inj hcounts
  exact (h.last hw).count_ne_one hout hone

end Desk

end UnionCollegeCode.OS161.Files
