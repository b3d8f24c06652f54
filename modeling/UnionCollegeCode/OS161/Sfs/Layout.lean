import Mathlib.Data.Fin.Basic
import Mathlib.Data.List.GetD
import Mathlib.Data.List.TakeWhile
import Mathlib.Order.Fin.Basic
import UnionCollegeCode.Lib.BigEndian

/-!
# `kern/sfs.h`: what a block of the volume holds

A block is 512 bytes. The same bytes are an inode, a block of block numbers, eight directory entries
or a file's data. `encode` is what the kernel puts on disk for a structure it has in memory, `decode`
is how it reads it back.
-/

set_option autoImplicit false

namespace UnionCollegeCode.OS161.Sfs

open Lib

def sfsBlocksize : ℕ := 512
def sfsNdirect : ℕ := 15
def sfsNindirect : ℕ := 1
def sfsDbperidb : ℕ := 128
def sfsNamelen : ℕ := 60
def sfsSuperBlock : ℕ := 0
def sfsFreemapStart : ℕ := 2
def sfsNoino : UInt32 := 0
def sfsRootdirIno : UInt32 := 1
def sfsBitsperblock : ℕ := sfsBlocksize * 8
def sfsMagic : UInt32 := 0xabadf001

def sfsTypeInval : UInt16 := 0
def sfsTypeFile : UInt16 := 1
def sfsTypeDir : UInt16 := 2

abbrev Block := Fin 512 → UInt8

/-- `bzero` of a whole block. -/
def Block.zero : Block := fun _ => 0

/-- A block as `uint32_t idbuf[SFS_DBPERIDB]`. -/
def Block.words (b : Block) : Fin 128 → UInt32 := wordsOf b

def Block.ofWords (w : Fin 128 → UInt32) : Block := bytesOf w

@[simp] theorem words_ofWords (w : Fin 128 → UInt32) : (Block.ofWords w).words = w := @wordsOf_bytesOf 128 w

@[simp] theorem ofWords_words (b : Block) : Block.ofWords b.words = b := @bytesOf_wordsOf 128 b

@[simp] theorem words_zero (j : Fin 128) : Block.zero.words j = 0 := congrFun (@wordsOf_zero 128) j

/-! ## The superblock -/

@[ext] structure SfsSuperblock where
  sbMagic : UInt32
  sbNblocks : UInt32
  sbVolname : Fin 32 → UInt8
  reserved : Fin 118 → UInt32

namespace SfsSuperblock

def encode (sb : SfsSuperblock) : Block := fun i =>
  if i.1 < 4 then byte32 sb.sbMagic i.1
  else if i.1 < 8 then byte32 sb.sbNblocks (i.1 - 4)
  else if h : i.1 < 40 then sb.sbVolname ⟨i.1 - 8, by omega⟩
  else byte32 (sb.reserved ⟨(i.1 - 40) / 4, by omega⟩) ((i.1 - 40) % 4)

def decode (b : Block) : SfsSuperblock where
  sbMagic := be32 (b 0) (b 1) (b 2) (b 3)
  sbNblocks := be32 (b 4) (b 5) (b 6) (b 7)
  sbVolname i := b ⟨i.1 + 8, by omega⟩
  reserved j := be32 (b ⟨4 * j.1 + 40, by omega⟩) (b ⟨4 * j.1 + 41, by omega⟩)
    (b ⟨4 * j.1 + 42, by omega⟩) (b ⟨4 * j.1 + 43, by omega⟩)

@[simp] theorem decode_encode (sb : SfsSuperblock) : decode sb.encode = sb := by
  refine SfsSuperblock.ext ?_ ?_ (funext fun i => ?_) (funext fun j => ?_)
  · show be32 (byte32 sb.sbMagic 0) (byte32 sb.sbMagic 1) (byte32 sb.sbMagic 2) (byte32 sb.sbMagic 3) = _
    rw [be32_byte32]
  · show be32 (byte32 sb.sbNblocks 0) (byte32 sb.sbNblocks 1) (byte32 sb.sbNblocks 2)
      (byte32 sb.sbNblocks 3) = _
    rw [be32_byte32]
  · have hi := i.2
    show sb.encode ⟨i.1 + 8, _⟩ = sb.sbVolname i
    rw [encode, if_neg (by simp), if_neg (by simp), dif_pos (by dsimp only; omega)]
    rfl
  · have hbyte : ∀ k (hk : k < 4), sb.encode ⟨4 * j.1 + (40 + k), by omega⟩ = byte32 (sb.reserved j) k := by
      intro k hk
      have hdiv : (4 * j.1 + (40 + k) - 40) / 4 = j.1 := by omega
      have hmod : (4 * j.1 + (40 + k) - 40) % 4 = k := by omega
      rw [encode, if_neg (by dsimp only; omega), if_neg (by dsimp only; omega),
        dif_neg (by dsimp only; omega)]
      simp only [hdiv, hmod]
    show be32 (sb.encode ⟨4 * j.1 + (40 + 0), _⟩) (sb.encode ⟨4 * j.1 + (40 + 1), _⟩)
      (sb.encode ⟨4 * j.1 + (40 + 2), _⟩) (sb.encode ⟨4 * j.1 + (40 + 3), _⟩) = _
    rw [hbyte 0 (by decide), hbyte 1 (by decide), hbyte 2 (by decide), hbyte 3 (by decide), be32_byte32]

end SfsSuperblock

/-! ## Inodes -/

@[ext] structure SfsDinode where
  sfiSize : UInt32
  sfiType : UInt16
  sfiLinkcount : UInt16
  sfiDirect : Fin 15 → UInt32
  sfiIndirect : UInt32
  sfiWaste : Fin 110 → UInt32

namespace SfsDinode

/-- The words of the structure, in order; the second one holds the type and the link count. -/
def toWords (d : SfsDinode) : Fin 128 → UInt32 := fun i =>
  if i.1 = 0 then d.sfiSize
  else if i.1 = 1 then
    be32 (high16 d.sfiType) (low16 d.sfiType) (high16 d.sfiLinkcount) (low16 d.sfiLinkcount)
  else if h : i.1 < 17 then d.sfiDirect ⟨i.1 - 2, by omega⟩
  else if i.1 = 17 then d.sfiIndirect
  else d.sfiWaste ⟨i.1 - 18, by omega⟩

def encode (d : SfsDinode) : Block := .ofWords d.toWords

def decode (b : Block) : SfsDinode where
  sfiSize := b.words 0
  sfiType := be16 (byte32 (b.words 1) 0) (byte32 (b.words 1) 1)
  sfiLinkcount := be16 (byte32 (b.words 1) 2) (byte32 (b.words 1) 3)
  sfiDirect i := b.words ⟨i.1 + 2, by omega⟩
  sfiIndirect := b.words 17
  sfiWaste i := b.words ⟨i.1 + 18, by omega⟩

@[simp] theorem decode_encode (d : SfsDinode) : decode d.encode = d := by
  obtain ⟨h₀, h₁, h₂, h₃⟩ := byte32_be32 (high16 d.sfiType) (low16 d.sfiType)
    (high16 d.sfiLinkcount) (low16 d.sfiLinkcount)
  have hone : d.encode.words 1 = be32 (high16 d.sfiType) (low16 d.sfiType)
      (high16 d.sfiLinkcount) (low16 d.sfiLinkcount) := by
    rw [encode, words_ofWords]
    rfl
  refine SfsDinode.ext ?_ ?_ ?_ (funext fun i => ?_) ?_ (funext fun i => ?_)
  · rw [decode, encode, words_ofWords]
    rfl
  · show be16 (byte32 (d.encode.words 1) 0) (byte32 (d.encode.words 1) 1) = d.sfiType
    rw [hone, h₀, h₁, be16_bytes]
  · show be16 (byte32 (d.encode.words 1) 2) (byte32 (d.encode.words 1) 3) = d.sfiLinkcount
    rw [hone, h₂, h₃, be16_bytes]
  · have hi := i.2
    have hlt : i.1 + 2 < 17 := by omega
    show d.encode.words ⟨i.1 + 2, _⟩ = d.sfiDirect i
    rw [encode, words_ofWords, toWords, if_neg (Nat.succ_ne_zero _), if_neg (by simp), dif_pos hlt]
    rfl
  · rw [decode, encode, words_ofWords]
    rfl
  · show d.encode.words ⟨i.1 + 18, _⟩ = d.sfiWaste i
    rw [encode, words_ofWords, toWords, if_neg (Nat.succ_ne_zero _), if_neg (by simp),
      dif_neg (by simp), if_neg (by simp)]
    rfl

/-- The inode in a block that was cleared. -/
theorem decode_zero : decode Block.zero = ⟨0, sfsTypeInval, 0, fun _ => 0, 0, fun _ => 0⟩ := by
  have hzero : be16 (byte32 0 0) (byte32 0 1) = 0 ∧ be16 (byte32 0 2) (byte32 0 3) = 0 := by
    decide
  refine SfsDinode.ext ?_ ?_ ?_ (funext fun i => ?_) ?_ (funext fun i => ?_)
  · rw [decode, words_zero]
  · show be16 (byte32 (Block.zero.words 1) 0) (byte32 (Block.zero.words 1) 1) = 0
    rw [words_zero, hzero.1]
  · show be16 (byte32 (Block.zero.words 1) 2) (byte32 (Block.zero.words 1) 3) = 0
    rw [words_zero, hzero.2]
  · exact words_zero _
  · exact words_zero _
  · exact words_zero _

end SfsDinode

/-! ## Directory entries -/

/-- `NUL`-terminated text, without its `NUL`. -/
abbrev CString := { s : List UInt8 // 0 ∉ s }

@[ext] structure SfsDirentry where
  sfdIno : UInt32
  sfdName : Fin 60 → UInt8

namespace SfsDirentry

/-- The 64 bytes of the structure. -/
def encode (d : SfsDirentry) : Fin 64 → UInt8 := fun i =>
  if h : i.1 < 4 then byte32 d.sfdIno i.1 else d.sfdName ⟨i.1 - 4, by omega⟩

def decode (b : Fin 64 → UInt8) : SfsDirentry where
  sfdIno := be32 (b 0) (b 1) (b 2) (b 3)
  sfdName i := b ⟨i.1 + 4, by omega⟩

@[simp] theorem decode_encode (d : SfsDirentry) : decode d.encode = d := by
  refine SfsDirentry.ext ?_ (funext fun i => ?_)
  · show be32 (byte32 d.sfdIno 0) (byte32 d.sfdIno 1) (byte32 d.sfdIno 2) (byte32 d.sfdIno 3) = _
    rw [be32_byte32]
  · show d.encode ⟨i.1 + 4, _⟩ = d.sfdName i
    rw [encode, dif_neg (by simp)]
    rfl

/-- An entry that was cleared is free. -/
theorem decode_zero : (decode fun _ => 0).sfdIno = sfsNoino := by
  decide

/-- `bzero(&sd, sizeof(sd))` and then `strcpy(sd.sfd_name, name)`. -/
def ofName (ino : UInt32) (name : List UInt8) : SfsDirentry := ⟨ino, fun i => name.getD i.1 0⟩

/-- The name up to its first `NUL`, once the last byte is made one. -/
def name (d : SfsDirentry) : List UInt8 :=
  ((List.ofFn fun i : Fin 59 => d.sfdName ⟨i.1, by omega⟩).takeWhile (· ≠ 0))

/-- A name that fits is read back. -/
theorem name_ofName {ino : UInt32} {s : List UInt8} (hzero : 0 ∉ s) (hlen : s.length < 60) :
    (ofName ino s).name = s := by
  have hcut : (List.ofFn fun i : Fin 59 => s.getD i.1 0) = s ++ List.replicate (59 - s.length) 0 := by
    apply List.ext_getElem
    · rw [List.length_ofFn, List.length_append, List.length_replicate]
      omega
    · intro i hi hi'
      rw [List.getElem_ofFn, List.getElem_append]
      split
      case isTrue h => rw [List.getD_eq_getElem _ _ h]
      case isFalse h => rw [List.getD_eq_default _ _ (Nat.not_lt.mp h), List.getElem_replicate]
  show (List.ofFn fun i : Fin 59 => s.getD i.1 0).takeWhile (· ≠ 0) = s
  have hall : ∀ a ∈ s, decide (a ≠ 0) = true := by
    intro a ha
    rw [decide_eq_true_iff]
    rintro rfl
    exact hzero ha
  rw [hcut, List.takeWhile_append_of_pos hall]
  cases 59 - s.length with
  | zero => simp
  | succ n => simp [List.replicate_succ]

end SfsDirentry

end UnionCollegeCode.OS161.Sfs
