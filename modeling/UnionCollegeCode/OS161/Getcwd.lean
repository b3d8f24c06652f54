import UnionCollegeCode.OS161.Files.FileIo
import UnionCollegeCode.OS161.Uio
import UnionCollegeCode.OS161.UserProcess.Exec

/-!
# `getcwd.c`: the current directory for a user

The transfer goes to the user's buffer itself, as if it were the kernel's, and the temporary buffer
that is copied out behind it was never filled. The room that is left is taken for the address where
the copied length belongs.

Memory that the kernel allocates is at none of the addresses here.
-/

set_option autoImplicit false

namespace UnionCollegeCode.OS161.Getcwd

open Lib.EState
open Files (EFAULT toInt)
open UserProcess (copycheck copyin intBytes userspacetop ENAMETOOLONG)

def ENOENT : ℤ := 19

/-! ## The path -/

/-- The characters of a string in kernel memory. -/
abbrev Name := {cs : List UInt8 // 0 ∉ cs}

structure Fs where
  /-- What `FSOP_GETVOLNAME` returns. -/
  volname : Option Name
  /-- The device that the file system is mounted on. -/
  devname : Option Name

/-- A directory as `vfs_getcwd` sees it. -/
structure Dir where
  vnFs : Option Fs
  /-- The blocks that `VOP_NAMEFILE` moves, and what it returns then. -/
  namefile : List (List UInt8) × ℕ

def colon : UInt8 := 58

/-- Block after block is moved. -/
def uiomoves : List (List UInt8) → Uio → MemoryM Uio
  | [], u => return u
  | block :: blocks, u => do
    let u ← uiomove block u
    uiomoves blocks u

def vfsGetcwd (cwd : Option Dir) (u : Uio) : MemoryM (ℤ × Uio) := do
  match cwd with
  | none => return (ENOENT, u)
  | some cwd =>
    match cwd.vnFs with
    | none => throw (.kassert "cwd->vn_fs != NULL")
    | some fs =>
      match fs.volname.or fs.devname with
      | none => throw (.kassert "name != NULL")
      | some name =>
        let u ← uiomove name.val u
        let u ← uiomove [colon] u
        let u ← uiomoves cwd.namefile.1 u
        return (cwd.namefile.2, u)

/-! ## Copying out -/

/-- A store under `copyfail`: where it faults, nothing is stored. -/
def tryStore (addr : ℕ) (bs : List UInt8) : MemoryM Bool := do
  match (← get).store addr bs with
  | none => return false
  | some m =>
    set m
    return true

/-- `*gotlen = i`, for a pointer that need not be one. An odd address is a fault as well. -/
def storeGotlen (gotlen i : ℕ) : MemoryM ℤ := do
  if gotlen = 0 then
    return 0
  else if gotlen % 4 ≠ 0 then
    return EFAULT
  else if ← tryStore gotlen (intBytes i) then
    return 0
  else
    return EFAULT

/-- The loop of `copystr` from its `i`-th character on, to user memory. -/
def copystr (dest maxlen stoplen gotlen : ℕ) : List UInt8 → ℕ → MemoryM ℤ
  | [], _ => return if stoplen < maxlen then EFAULT else ENAMETOOLONG
  | c :: src, i => do
    if i < maxlen ∧ i < stoplen then
      if ← tryStore (dest + i) [c] then
        if c = 0 then storeGotlen gotlen (i + 1) else copystr dest maxlen stoplen gotlen src (i + 1)
      else
        return EFAULT
    else
      return if stoplen < maxlen then EFAULT else ENAMETOOLONG

def copyoutstr (src : List UInt8) (userdest len actual : ℕ) : MemoryM ℤ := do
  let (result, stoplen) := copycheck userdest len
  if result ≠ 0 then return result else copystr userdest len stoplen actual src 0

/-! ## `sys_getcwd` -/

/-- What the kernel has for the call: the current directory, and whether there is memory. -/
structure Kept where
  pCwd : Option Dir
  kmalloc : Bool

/-- `tmpBuf` is what stands in the memory that `kmalloc` returns. -/
def sysGetcwd (k : Kept) (tmpBuf : List UInt8) (buf buflen : UInt32) : MemoryM ℤ := do
  if buf = 0 then
    return -EFAULT
  else if copyin buf.toNat 1 ≠ 0 ∨ ((← get).bytes buf.toNat).isNone then
    return -EFAULT
  else if buflen < 1 then
    return -EINVAL
  else if k.pCwd.isNone then
    return -ENOENT
  else if k.kmalloc = false then
    return -EFAULT
  else
    let (result, ku) ← vfsGetcwd k.pCwd (uioKinit buf.toNat buflen.toNat 0)
    if result ≠ 0 then
      return -result
    else if (← copyoutstr tmpBuf buf.toNat buflen.toNat ku.uioResid) ≠ 0 then
      return -EFAULT
    else
      return toInt (buflen.toNat - ku.uioResid)

/-! ## What it must answer -/

/-- The bytes that `vfs_getcwd` produces. -/
def Dir.path (d : Dir) : Option (List UInt8) :=
  match d.vnFs with
  | none => none
  | some fs => (fs.volname.or fs.devname).map fun name =>
      name.val ++ [colon] ++ d.namefile.1.flatten

/-- `n` bytes of the path are at the front of the buffer, and no other user memory has been stored
to. -/
structure Answer (buf buflen : ℕ) (path : List UInt8) (n : ℤ) (m : Memory) : Prop where
  count : n = min path.length buflen
  bytes : ∀ i, (h : i < path.length) → (i : ℤ) < n → m.bytes (buf + i) = some path[i]
  inside : ∀ x ∈ m.stored, x < userspacetop → buf ≤ x ∧ x < buf + buflen

/-- Every success is an answer, whatever the temporary buffer holds. -/
def AnswersRight (k : Kept) (buf buflen : UInt32) (bytes : ℕ → Option UInt8) : Prop :=
  ∀ tmpBuf n m, tmpBuf.length = buflen.toNat →
    sysGetcwd k tmpBuf buf buflen ⟨bytes, []⟩ = .ok n m → 0 ≤ n →
    ∃ d path, k.pCwd = some d ∧ d.path = some path ∧ Answer buf.toNat buflen.toNat path n m

/-- `*gotlen` can be stored, or need not be. -/
def GotlenFits (m : Memory) (gotlen : ℕ) : Prop :=
  gotlen = 0 ∨ gotlen % 4 = 0 ∧ m.HasBlock gotlen 4

/-- `vfs_getcwd` brings the path of the current directory to the buffer, and what room is left can
serve as an address. -/
structure Delivers (k : Kept) (buf buflen : ℕ) (m : Memory) (path : List UInt8) : Prop where
  dir : ∃ d, k.pCwd = some d ∧ d.path = some path ∧ d.namefile.2 = 0
  block : m.HasBlock buf (min path.length buflen)
  isInt : min path.length buflen < 2 ^ 31
  gotlen : GotlenFits m (buflen - path.length)

/-- The call returns a length for some content of the temporary buffer. -/
structure CanSucceed (k : Kept) (buf buflen : UInt32) (m : Memory) : Prop where
  user : buf ≠ 0 ∧ buf.toNat < userspacetop
  length : 0 < buflen.toNat ∧ buf.toNat + buflen.toNat ≤ 2 ^ 32
  kmalloc : k.kmalloc = true
  delivers : ∃ path, Delivers k buf.toNat buflen.toNat m path

section

variable {m m' : Memory} {u u' : Uio}

/-! ## The transfer -/

theorem moved_nil : Moved u [] m u' m' ↔ u' = u ∧ m' = m := by
  constructor
  · rintro ⟨-, rfl, rfl⟩
    simp [Uio.advance_zero, Memory.put_nil]
  · rintro ⟨rfl, rfl⟩
    exact ⟨by simp [Memory.HasBlock], by simp [Uio.advance_zero], by simp [Memory.put_nil]⟩

/-- Moves after each other are one of all the blocks. -/
theorem uiomoves_eq_ok {blocks : List (List UInt8)} (hu : u.IsSized) :
    uiomoves blocks u m = .ok u' m' ↔ Moved u blocks.flatten m u' m' := by
  induction blocks generalizing u m with
  | nil => simp only [uiomoves, pure_eq_ok, List.flatten_nil, moved_nil, eq_comm]
  | cons block blocks ih =>
    rw [List.flatten_cons, ← moved_append]
    simp only [uiomoves, bind_eq_ok]
    constructor
    · rintro ⟨u₁, m₁, hmove, hrest⟩
      have hmoved := (moved_iff_uiomove hu).mp hmove
      exact ⟨u₁, m₁, hmoved, (ih (hmoved.isSized hu)).mp hrest⟩
    · rintro ⟨u₁, m₁, hmoved, hrest⟩
      exact ⟨u₁, m₁, (moved_iff_uiomove hu).mpr hmoved, (ih (hmoved.isSized hu)).mpr hrest⟩

theorem vfsGetcwd_eq_ok {d : Dir} {result : ℤ} (hu : u.IsSized) :
    vfsGetcwd (some d) u m = .ok (result, u') m' ↔
      result = d.namefile.2 ∧ ∃ path, d.path = some path ∧ Moved u path m u' m' := by
  obtain ⟨vnFs, blocks, errno⟩ := d
  unfold vfsGetcwd Dir.path
  cases vnFs with
  | none => simp
  | some fs =>
    dsimp only
    cases fs.volname.or fs.devname with
    | none => simp
    | some name =>
      have hmoves : uiomoves (name.val :: [colon] :: blocks) u m = .ok u' m' ↔
          Moved u (name.val ++ [colon] ++ blocks.flatten) m u' m' := by
        rw [uiomoves_eq_ok hu, List.flatten_cons, List.flatten_cons, List.append_assoc]
      simp only [Option.map_some, Option.some.injEq, exists_eq_left', ← hmoves, uiomoves, bind_eq_ok, pure_eq_ok, Prod.mk.injEq]
      constructor
      · rintro ⟨u₁, m₁, hname, u₂, m₂, hcolon, u₃, m₃, hrest, ⟨rfl, rfl⟩, rfl⟩
        exact ⟨rfl, u₁, m₁, hname, u₂, m₂, hcolon, hrest⟩
      · rintro ⟨rfl, u₁, m₁, hname, u₂, m₂, hcolon, hrest⟩
        exact ⟨u₁, m₁, hname, u₂, m₂, hcolon, u', m', hrest, ⟨rfl, rfl⟩, rfl⟩

/-! ## The copy -/

theorem tryStore_eq {addr : ℕ} {bs : List UInt8} :
    tryStore addr bs m =
      if m.HasBlock addr bs.length then .ok true (m.put addr bs) else .ok false m := by
  rw [tryStore, bind_ok get_ok, Memory.store]
  split <;> rfl

theorem intBytes_length (x : ℤ) : (intBytes x).length = 4 := rfl

/-- What `storeGotlen` leaves. -/
def putGotlen (m : Memory) (gotlen i : ℕ) : Memory :=
  if gotlen = 0 then m else m.put gotlen (intBytes i)

theorem mem_putGotlen {gotlen i : ℕ} (h : gotlen ≠ 0) : gotlen ∈ (putGotlen m gotlen i).stored := by
  rw [putGotlen, if_neg h, Memory.put_stored, intBytes_length, List.mem_append, List.mem_range'_1]
  omega

theorem storeGotlen_eq {gotlen i : ℕ} (h : GotlenFits m gotlen) :
    storeGotlen gotlen i m = .ok 0 (putGotlen m gotlen i) := by
  unfold storeGotlen putGotlen
  by_cases hzero : gotlen = 0
  · simp only [hzero, if_true]
    rfl
  · obtain ⟨heven, hblock⟩ := h.resolve_left hzero
    have hstore : tryStore gotlen (intBytes i) m = .ok true (m.put gotlen (intBytes i)) := by
      rw [tryStore_eq, intBytes_length, if_pos hblock]
    simp only [hzero, if_false, heven, ne_eq, not_true]
    rw [bind_ok hstore]
    rfl

theorem storeGotlen_ok {gotlen i : ℕ} (h : storeGotlen gotlen i m = .ok 0 m') :
    GotlenFits m gotlen := by
  have hefault : EFAULT ≠ 0 := by decide
  unfold storeGotlen at h
  split at h
  · exact .inl ‹_›
  · split at h
    · exact absurd (pure_eq_ok.mp h).1 hefault
    · case isFalse heven =>
      simp only [bind_eq_ok, tryStore_eq] at h
      obtain ⟨stored, _, hstore, h⟩ := h
      split at hstore
      · exact .inr ⟨Classical.not_not.mp heven, ‹_›⟩
      · cases hstore
        exact absurd (pure_eq_ok.mp h).1 hefault

theorem gotlenFits_put {addr gotlen : ℕ} {bs : List UInt8} (h : m.HasBlock addr bs.length) :
    GotlenFits (m.put addr bs) gotlen ↔ GotlenFits m gotlen := by
  unfold GotlenFits
  rw [Memory.hasBlock_put h]

/-- A copy that ends well has stored its length. -/
theorem copystr_ok {dest maxlen stoplen gotlen i : ℕ} {src : List UInt8}
    (h : copystr dest maxlen stoplen gotlen src i m = .ok 0 m') : GotlenFits m gotlen := by
  have hefault : EFAULT ≠ 0 := by decide
  have hend : ∀ p : Prop, [Decidable p] → (if p then EFAULT else ENAMETOOLONG) ≠ 0 := by
    intro p _
    split <;> decide
  induction src generalizing i m with
  | nil => exact absurd (pure_eq_ok.mp h).1 (hend _)
  | cons c src ih =>
    unfold copystr at h
    split at h
    · simp only [bind_eq_ok, tryStore_eq] at h
      obtain ⟨stored, m₁, hstore, h⟩ := h
      split at hstore
      · case isTrue hblock =>
        cases hstore
        rw [← gotlenFits_put hblock]
        simp only [if_true] at h
        split at h
        · exact storeGotlen_ok h
        · exact ih h
      · cases hstore
        exact absurd (pure_eq_ok.mp h).1 hefault
    · exact absurd (pure_eq_ok.mp h).1 (hend _)

/-- An empty string is its null byte. -/
theorem copystr_null {dest maxlen stoplen gotlen : ℕ} {src : List UInt8}
    (hroom : 0 < maxlen ∧ 0 < stoplen) (hdest : m.HasBlock dest 1) (hgotlen : GotlenFits m gotlen) :
    copystr dest maxlen stoplen gotlen (0 :: src) 0 m =
      .ok 0 (putGotlen (m.put dest [0]) gotlen 1) := by
  have hbyte : m.HasBlock dest [(0 : UInt8)].length := hdest
  have hstore : tryStore (dest + 0) [0] m = .ok true (m.put dest [0]) := by
    rw [Nat.add_zero, tryStore_eq, if_pos hbyte]
  unfold copystr
  rw [if_pos hroom, bind_ok hstore]
  exact storeGotlen_eq ((gotlenFits_put hbyte).mpr hgotlen)

theorem copyin_byte {addr : ℕ} (h : addr < 2 ^ 32) : copyin addr 1 = 0 ↔ addr < userspacetop := by
  have htop : (addr + 1 - 1) % 2 ^ 32 = addr := Nat.mod_eq_of_lt h
  have hefault : EFAULT ≠ 0 := by decide
  simp only [copyin, copycheck, htop, Nat.lt_irrefl, if_false]
  by_cases hle : userspacetop ≤ addr
  · simp only [hle, if_true, ne_eq, hefault, not_false_eq_true, false_iff, Nat.not_lt]
  · simp [hle, Nat.not_le.mp hle]

/-- A block of user memory may run into the kernel. -/
theorem copycheck_in {bot len : ℕ} (hlen : 0 < len) (hin : bot + len ≤ 2 ^ 32)
    (huser : bot < userspacetop) : copycheck bot len = (0, min len (userspacetop - bot)) := by
  have htop : (bot + len - 1) % 2 ^ 32 = bot + len - 1 := Nat.mod_eq_of_lt (by omega)
  have hwrap : ¬ bot + len - 1 < bot := by omega
  simp only [copycheck, htop, hwrap, if_false, Nat.not_le.mpr huser]
  split
  · rw [Nat.min_eq_right (by omega)]
  · rw [Nat.min_eq_left (by omega)]

/-- It may not wrap around. -/
theorem copycheck_out {bot len : ℕ} (hlen : 0 < len) (hlt : len < 2 ^ 32) (hbot : bot < 2 ^ 32)
    (hout : ¬ bot + len ≤ 2 ^ 32) : copycheck bot len = (EFAULT, len) := by
  have htop : (bot + len - 1) % 2 ^ 32 < bot := by omega
  simp only [copycheck, htop, if_true]

theorem copyoutstr_ok {src : List UInt8} {userdest len actual : ℕ} (hlen : 0 < len)
    (hlt : len < 2 ^ 32) (huser : userdest < userspacetop)
    (h : copyoutstr src userdest len actual m = .ok 0 m') :
    userdest + len ≤ 2 ^ 32 ∧ GotlenFits m actual := by
  have hbot : userdest < 2 ^ 32 := Nat.lt_trans huser (by decide)
  by_cases hin : userdest + len ≤ 2 ^ 32
  · rw [copyoutstr, copycheck_in hlen hin huser] at h
    exact ⟨hin, copystr_ok h⟩
  · rw [copyoutstr, copycheck_out hlen hlt hbot hin] at h
    exact absurd (pure_eq_ok.mp h).1 (by decide)

theorem copyoutstr_null {src : List UInt8} {userdest len actual : ℕ} (hlen : 0 < len)
    (hin : userdest + len ≤ 2 ^ 32) (huser : userdest < userspacetop) (hdest : m.HasBlock userdest 1)
    (hgotlen : GotlenFits m actual) :
    copyoutstr (0 :: src) userdest len actual m =
      .ok 0 (putGotlen (m.put userdest [0]) actual 1) := by
  rw [copyoutstr, copycheck_in hlen hin huser]
  exact copystr_null (by omega) hdest hgotlen

/-! ## The call -/

section

variable {k : Kept} {tmpBuf : List UInt8} {buf buflen : UInt32} {n : ℤ}

/-- A call that returns a length has passed a check that returns an error. -/
theorem passed_eq_ok {c : Prop} [Decidable c] {e : ℤ} {rest : MemoryM ℤ} (hn : 0 ≤ n) (he : e < 0) :
    (if c then pure e else rest) m = .ok n m' ↔ ¬ c ∧ rest m = .ok n m' := by
  by_cases h : c
  · simp only [h, if_true, pure_eq_ok, not_true, false_and, iff_false, not_and]
    intro hne
    omega
  · simp only [h, if_false, not_false_eq_true, true_and]

/-- The end of a call that returns a length. -/
theorem copyEnd_eq_ok {u : Uio} (hn : 0 ≤ n) :
    (do if (← copyoutstr tmpBuf buf.toNat buflen.toNat u.uioResid) ≠ 0 then
          return -EFAULT
        else
          return toInt (buflen.toNat - u.uioResid) : MemoryM ℤ) m = .ok n m' ↔
      copyoutstr tmpBuf buf.toNat buflen.toNat u.uioResid m = .ok 0 m' ∧
        n = toInt (buflen.toNat - u.uioResid) := by
  have hefault : -EFAULT < 0 := by decide
  simp only [bind_eq_ok, passed_eq_ok hn hefault, pure_eq_ok, not_not]
  constructor
  · rintro ⟨_, _, hcopy, rfl, rfl, rfl⟩
    exact ⟨hcopy, rfl⟩
  · rintro ⟨hcopy, rfl⟩
    exact ⟨0, m', hcopy, rfl, rfl, rfl⟩

/-- The way of a call that returns a length. -/
theorem sysGetcwd_eq_ok (hn : 0 ≤ n) :
    sysGetcwd k tmpBuf buf buflen m = .ok n m' ↔
      buf ≠ 0 ∧ (buf.toNat < userspacetop ∧ (m.bytes buf.toNat).isSome) ∧ 0 < buflen.toNat ∧
        k.kmalloc = true ∧ ∃ d path u m₁, k.pCwd = some d ∧ d.path = some path ∧
          d.namefile.2 = 0 ∧ Moved (uioKinit buf.toNat buflen.toNat 0) path m u m₁ ∧
          copyoutstr tmpBuf buf.toNat buflen.toNat u.uioResid m₁ = .ok 0 m' ∧
          n = toInt (buflen.toNat - u.uioResid) := by
  have hefault : -EFAULT < 0 := by decide
  have heinval : -EINVAL < 0 := by decide
  have henoent : -ENOENT < 0 := by decide
  have hlen : ¬ buflen < 1 ↔ 0 < buflen.toNat := by
    rw [UInt32.lt_iff_toNat_lt]
    exact Nat.not_lt
  have hbyte : ¬ (copyin buf.toNat 1 ≠ 0 ∨ (m.bytes buf.toNat).isNone = true) ↔
      buf.toNat < userspacetop ∧ (m.bytes buf.toNat).isSome = true := by
    rw [← copyin_byte buf.toNat_lt, not_or, Classical.not_not, Bool.not_eq_true,
      Option.isNone_eq_false_iff]
  simp only [sysGetcwd, passed_eq_ok hn hefault, passed_eq_ok hn heinval, passed_eq_ok hn henoent,
    bind_eq_ok, get_eq_ok]
  constructor
  · rintro ⟨hbuf, _, _, ⟨rfl, rfl⟩, hread, hbuflen, hcwd, hkmalloc, ⟨result, u⟩, m₁, hget, hend⟩
    obtain ⟨d, hd⟩ := Option.ne_none_iff_exists'.mp (mt Option.isNone_iff_eq_none.mpr hcwd)
    rw [hd, vfsGetcwd_eq_ok (uioKinit_isSized _ _ _)] at hget
    obtain ⟨rfl, path, hpath, hmoved⟩ := hget
    by_cases hnamefile : d.namefile.2 = 0
    · rw [if_neg (by simp [hnamefile])] at hend
      exact ⟨hbuf, hbyte.mp hread, hlen.mp hbuflen, Bool.not_eq_false _ ▸ hkmalloc, d, path, u, m₁, hd,
        hpath, hnamefile, hmoved, (copyEnd_eq_ok hn).mp hend⟩
    · rw [if_pos (by simpa using hnamefile), pure_eq_ok] at hend
      omega
  · rintro ⟨hbuf, hread, hbuflen, hkmalloc, d, path, u, m₁, hd, hpath, hnamefile, hmoved, hend⟩
    have hget : vfsGetcwd k.pCwd (uioKinit buf.toNat buflen.toNat 0) m = .ok (0, u) m₁ := by
      rw [hd, vfsGetcwd_eq_ok (uioKinit_isSized _ _ _), hnamefile]
      exact ⟨rfl, path, hpath, hmoved⟩
    refine ⟨hbuf, m, m, ⟨rfl, rfl⟩, hbyte.mpr hread, hlen.mpr hbuflen, by simp [hd], by simp [hkmalloc],
      (0, u), m₁, hget, ?_⟩
    rw [if_neg (by simp)]
    exact (copyEnd_eq_ok hn).mpr hend

/-- The room that is left behind a path. -/
theorem resid_eq {u : Uio} {path : List UInt8} {m₁ : Memory}
    (h : Moved (uioKinit buf.toNat buflen.toNat 0) path m u m₁) :
    u.uioResid = buflen.toNat - path.length := by
  rw [h.uio]
  show buflen.toNat - min path.length buflen.toNat = buflen.toNat - path.length
  omega

theorem count_eq {u : Uio} {path : List UInt8} {m₁ : Memory}
    (h : Moved (uioKinit buf.toNat buflen.toNat 0) path m u m₁) :
    (buflen.toNat - u.uioResid : ℤ) = (min path.length buflen.toNat : ℕ) := by
  rw [resid_eq h]
  omega

theorem gotlenFits_moved {u : Uio} {path : List UInt8} {m₁ : Memory} {gotlen : ℕ}
    (h : Moved (uioKinit buf.toNat buflen.toNat 0) path m u m₁) :
    GotlenFits m₁ gotlen ↔ GotlenFits m gotlen := by
  rw [h.memory]
  apply gotlenFits_put
  rw [List.length_take, Nat.min_comm]
  exact h.block

theorem canSucceed_of_ok (hn : 0 ≤ n) (h : sysGetcwd k tmpBuf buf buflen m = .ok n m') :
    CanSucceed k buf buflen m := by
  obtain ⟨hbuf, hread, hbuflen, hkmalloc, d, path, u, m₁, hd, hpath, hnamefile, hmoved, hcopy, rfl⟩ :=
    (sysGetcwd_eq_ok hn).mp h
  obtain ⟨hin, hgotlen⟩ := copyoutstr_ok hbuflen buflen.toNat_lt hread.1 hcopy
  rw [gotlenFits_moved hmoved, resid_eq hmoved] at hgotlen
  have hcount := count_eq hmoved
  have hlt : (min path.length buflen.toNat : ℕ) < 2 ^ 31 := by
    rw [hcount] at hn
    have hfits : min path.length buflen.toNat < 2 ^ 32 :=
      Nat.lt_of_le_of_lt (Nat.min_le_right _ _) buflen.toNat_lt
    have hself := Files.toInt_count hfits hn
    have htop := @Int.bmod_lt (min path.length buflen.toNat : ℕ) (2 ^ 32) (by decide)
    rw [toInt] at hself
    omega
  exact ⟨⟨hbuf, hread.1⟩, ⟨hbuflen, hin⟩, hkmalloc, path, ⟨d, hd, hpath, hnamefile⟩, hmoved.block, hlt,
    hgotlen⟩

/-- A path begins with a character. -/
theorem path_head {d : Dir} {path : List UInt8} (h : d.path = some path) :
    ∃ c rest, path = c :: rest ∧ c ≠ 0 := by
  obtain ⟨vnFs, blocks, errno⟩ := d
  cases vnFs with
  | none => cases h
  | some fs =>
    obtain ⟨⟨name, hname⟩, -, rfl⟩ := Option.map_eq_some_iff.mp h
    cases name with
    | nil => exact ⟨colon, blocks.flatten, rfl, by decide⟩
    | cons c cs =>
      refine ⟨c, cs ++ [colon] ++ blocks.flatten, by simp, ?_⟩
      rintro rfl
      exact hname List.mem_cons_self

/-- With an empty string in the temporary buffer, a call that can succeed does. -/
theorem sysGetcwd_null {path src : List UInt8} (h : CanSucceed k buf buflen m)
    (hpath : Delivers k buf.toNat buflen.toNat m path) :
    sysGetcwd k (0 :: src) buf buflen m =
      .ok (min path.length buflen.toNat : ℕ)
        (putGotlen ((m.put buf.toNat (path.take buflen.toNat)).put buf.toNat [0])
          (buflen.toNat - path.length) 1) := by
  obtain ⟨d, hd, hpathd, hnamefile⟩ := hpath.dir
  obtain ⟨c, rest, hcons, -⟩ := path_head hpathd
  have hpos : 0 < min path.length buflen.toNat := by
    rw [hcons, List.length_cons]
    exact Nat.lt_min.mpr ⟨Nat.zero_lt_succ _, h.length.1⟩
  have hread : (m.bytes buf.toNat).isSome := hpath.block 0 hpos
  have hmoved : Moved (uioKinit buf.toNat buflen.toNat 0) path m
      ((uioKinit buf.toNat buflen.toNat 0).advance (min path.length buflen.toNat))
      (m.put buf.toNat (path.take buflen.toNat)) := ⟨hpath.block, rfl, rfl⟩
  have hblock : (m.put buf.toNat (path.take buflen.toNat)).HasBlock buf.toNat 1 := by
    rw [Memory.hasBlock_put (by rw [List.length_take, Nat.min_comm]; exact hpath.block)]
    exact hpath.block.mono hpos
  have hself : toInt (min path.length buflen.toNat : ℕ) = (min path.length buflen.toNat : ℕ) :=
    Files.toInt_eq_self (by omega) (by exact_mod_cast hpath.isInt)
  rw [sysGetcwd_eq_ok (Int.natCast_nonneg _)]
  refine ⟨h.user.1, ⟨h.user.2, hread⟩, h.length.1, h.kmalloc, d, path, _, _, hd, hpathd, hnamefile,
    hmoved, ?_, ?_⟩
  · rw [resid_eq hmoved]
    exact copyoutstr_null h.length.1 h.length.2 h.user.2 hblock
      ((gotlenFits_moved hmoved).mpr hpath.gotlen)
  · rw [count_eq hmoved, hself]

/-- What an empty string leaves at the front of the buffer, unless the length is stored before it. -/
theorem null_stays {gotlen : ℕ} {buf : ℕ} (hle : gotlen = 0 ∨ buf ≤ gotlen) :
    (putGotlen (m.put buf [0]) gotlen 1).bytes buf = some 0 := by
  have hnull : (m.put buf [0]).bytes buf = some 0 :=
    Memory.put_bytes 0 (show 0 < [(0 : UInt8)].length from Nat.zero_lt_one)
  unfold putGotlen
  split
  · exact hnull
  · case isFalse hne =>
    rcases Nat.eq_or_lt_of_le (hle.resolve_left hne) with rfl | hlt
    -- most significant byte first
    · exact Memory.put_bytes 0 (show 0 < (intBytes 1).length from Nat.zero_lt_succ 3)
    · rw [Memory.put_bytes_of_outside (Or.inl hlt)]
      exact hnull

/-- A call that can succeed puts the null byte of an empty string over the path, or a length outside
the buffer. -/
theorem not_answersRight {bytes : ℕ → Option UInt8} (h : CanSucceed k buf buflen ⟨bytes, []⟩) :
    ¬ AnswersRight k buf buflen bytes := by
  intro hright
  obtain ⟨path, hpath⟩ := h.delivers
  obtain ⟨n, hlen⟩ := Nat.exists_eq_succ_of_ne_zero (Nat.ne_of_gt h.length.1)
  obtain ⟨d, path', hd, hpathd, hanswer⟩ := hright (0 :: List.replicate n 0) _ _
    (by simp [hlen]) (sysGetcwd_null h hpath) (Int.natCast_nonneg _)
  obtain ⟨d', hd', hpathd', -⟩ := hpath.dir
  obtain rfl : d = d' := Option.some.inj (hd.symm.trans hd')
  obtain rfl : path' = path := Option.some.inj (hpathd.symm.trans hpathd')
  obtain ⟨c, rest, rfl, hc⟩ := path_head hpathd
  have hle : buflen.toNat - (c :: rest).length = 0 ∨
      buf.toNat ≤ buflen.toNat - (c :: rest).length := by
    by_cases hzero : buflen.toNat - (c :: rest).length = 0
    · exact .inl hzero
    · by_cases huser : buflen.toNat - (c :: rest).length < userspacetop
      · have hin := hanswer.inside _ (mem_putGotlen hzero) huser
        exact .inr hin.1
      · have hbuf := h.user.2
        omega
  have hfirst := hanswer.bytes 0 (Nat.zero_lt_succ _) (by simp; exact h.length.1)
  rw [Nat.add_zero] at hfirst
  exact hc (Option.some.inj (hfirst.symm.trans (null_stays hle)))

/-- Right are the calls that cannot succeed. -/
theorem answersRight_iff {bytes : ℕ → Option UInt8} :
    AnswersRight k buf buflen bytes ↔ ¬ CanSucceed k buf buflen ⟨bytes, []⟩ := by
  constructor
  · intro h hcan
    exact not_answersRight hcan h
  · intro h tmpBuf n m hlen hrun hn
    exact absurd (canSucceed_of_ok hn hrun) h

end

end

/-- The root of `emu0`. -/
def emuRoot : Kept where
  pCwd := some ⟨some ⟨some ⟨[101, 109, 117, 48], by decide⟩, none⟩, ([], 0)⟩
  kmalloc := true

/-- One page at `0x400000`, of bytes `0x2a`. -/
def onePage (addr : ℕ) : Option UInt8 :=
  if 0x400000 ≤ addr ∧ addr < 0x401000 then some 0x2a else none

theorem emuRoot_delivers :
    Delivers emuRoot 0x400000 5 ⟨onePage, []⟩ [101, 109, 117, 48, 58] where
  dir := ⟨_, rfl, rfl, rfl⟩
  block := by decide
  isInt := by decide
  gotlen := .inl rfl

theorem emuRoot_canSucceed : CanSucceed emuRoot 0x400000 5 ⟨onePage, []⟩ where
  user := by decide
  length := by decide
  kmalloc := rfl
  delivers := ⟨_, emuRoot_delivers⟩

/-- Asked for `emu0:`, the call returns its length and the buffer begins with a null byte. -/
theorem emuRoot_lost :
    (∃ m, sysGetcwd emuRoot (List.replicate 5 0) 0x400000 5 ⟨onePage, []⟩ = .ok 5 m ∧
      m.bytes 0x400000 = some 0) ∧
    ¬ AnswersRight emuRoot 0x400000 5 onePage := by
  refine ⟨⟨_, sysGetcwd_null emuRoot_canSucceed emuRoot_delivers, ?_⟩,
    not_answersRight emuRoot_canSucceed⟩
  exact null_stays (Or.inl rfl)

end UnionCollegeCode.OS161.Getcwd
