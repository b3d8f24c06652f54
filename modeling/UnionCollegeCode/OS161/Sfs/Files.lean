import UnionCollegeCode.OS161.Sfs.ReadWrite
import UnionCollegeCode.OS161.Sfs.Truncate

/-!
# What a volume is to its callers

A directory of names and, for each file, a size and bytes. A call names vnodes that its caller has
references to. This is what may come of it, whatever the disk and the memory do: the call is answered,
and the directory and the file it is about are as it says; or it is refused, and only what a write or
a truncation had got to is different.
-/

set_option autoImplicit false

namespace UnionCollegeCode.OS161.Sfs

open Function (update)
open Lib (overlay slice)

/-- What VFS asks of a volume. -/
inductive Call
  | getroot
  | incref (v : UInt32)
  | decref (v : UInt32)
  | lookup (v : UInt32) (path : CString)
  | lookparent (v : UInt32) (path : CString) (buflen : ℕ)
  | creat (v : UInt32) (name : CString) (excl : Bool)
  | link (v : UInt32) (name : CString) (file : UInt32)
  | remove (v : UInt32) (name : CString)
  | rename (v : UInt32) (n₁ : CString) (v' : UInt32) (n₂ : CString)
  | read (v : UInt32) (u : SfsUio)
  | write (v : UInt32) (u : SfsUio)
  | truncate (v : UInt32) (len : ℤ)
  | fsync (v : UInt32)
  | sync
  deriving DecidableEq

inductive Reply
  | done
  /-- With a reference. -/
  | vnode (v : UInt32)
  | moved (u : SfsUio)
  deriving DecidableEq

/-- The references that the callers have. -/
abbrev Held := UInt32 → ℕ

/-! ## One file -/

/-- What is past the size is there too, and is in the file again when it grows. -/
@[ext] structure Contents where
  size : ℕ
  byte : ℕ → UInt8

instance (blocklen : ℕ) : DecidablePred (DirectPast blocklen) := fun _ =>
  inferInstanceAs (Decidable (_ ∧ _))

instance (blocklen : ℕ) : DecidablePred (CutBlock blocklen) := fun _ =>
  inferInstanceAs (Decidable (_ ∨ _))

namespace Contents

def empty : Contents := ⟨0, fun _ => 0⟩

def read (f : Contents) (offset n : ℕ) : List UInt8 :=
  slice f.byte (posOf offset) (min n (f.size - offset))

def write (f : Contents) (offset : ℕ) (data : List UInt8) : Contents where
  size :=
    if data ≠ [] ∧ f.size < offset + data.length then (offset + data.length) % 2 ^ 32 else f.size
  byte := overlay f.byte (posOf offset) data

/-- Blocks are zero. -/
def clear (f : Contents) (cut : ℕ → Prop) [DecidablePred cut] : Contents where
  size := f.size
  byte p := if cut (p / 512) then 0 else f.byte p

def truncate (f : Contents) (len : ℤ) : Contents :=
  { f.clear (CutBlock (blocklenOf len)) with size := (UInt32.ofInt len).toNat }

end Contents

/-! ## All of them -/

structure Files where
  dir : List UInt8 → UInt32 → Prop
  file : UInt32 → Contents

/-- Somebody can get at the file. -/
def Files.Reached (F : Files) (held : Held) (a : UInt32) : Prop := 0 < held a ∨ ∃ n, F.dir n a

namespace Call

/-- The vnodes are there, and the `uio` is as `uio_uinit` makes it. The second directory of a rename is
one, since it comes from `lookparent`. -/
def Permitted (held : Held) : Call → Prop
  | getroot | sync => True
  | incref v | decref v | lookup v _ | lookparent v _ _ | creat v _ _ | remove v _ | truncate v _
  | fsync v => 0 < held v
  | link v _ file => 0 < held v ∧ 0 < held file
  | rename v _ v' _ => 0 < held v ∧ v' = sfsRootdirIno ∧ 0 < held v'
  | read v u => 0 < held v ∧ u.uioRw = .read ∧ u.iovLen = u.uioResid
  | write v u => 0 < held v ∧ u.uioRw = .write ∧ u.iovLen = u.uioResid ∧ u.bytes.length = u.iovLen

instance (held : Held) (c : Call) : Decidable (c.Permitted held) := by
  cases c <;> unfold Permitted <;> infer_instance

/-- What an answer says of the volume as it was. -/
def Answers (c : Call) (r : Reply) (F : Files) (fresh : UInt32 → Prop) : Prop :=
  match c, r with
  | getroot, .vnode v => v = sfsRootdirIno
  | lookup _ path, .vnode v => F.dir path.1 v
  | lookparent _ path buflen, .vnode v => v = sfsRootdirIno ∧ path.1.length < buflen
  | creat _ name excl, .vnode v => excl = false ∧ F.dir name.1 v ∨
      fresh v ∧ name.1.length < sfsNamelen ∧ ∀ a, ¬ F.dir name.1 a
  | link _ name file, .done =>
      file ≠ sfsRootdirIno ∧ name.1.length < sfsNamelen ∧ ∀ a, ¬ F.dir name.1 a
  | remove _ name, .done => ∃ a, F.dir name.1 a
  | rename _ n₁ _ n₂, .done => (∃ a, F.dir n₁.1 a) ∧ n₂.1.length < sfsNamelen ∧ ∀ a, ¬ F.dir n₂.1 a
  | read v u, .moved u' =>
      v ≠ sfsRootdirIno ∧ u' = u.gave ((F.file v).read u.uioOffset u.uioResid)
  | write v u, .moved u' => v ≠ sfsRootdirIno ∧ u' = u.took u.uioResid ∧
      (u.uioResid ≠ 0 → posOf u.uioOffset + u.uioResid ≤ sfsMaxsize)
  | truncate v _, .done => v ≠ sfsRootdirIno
  | incref _, .done | decref _, .done | fsync _, .done | sync, .done => True
  | _, _ => False

/-- The references after an answer. -/
def after (c : Call) (r : Reply) (held : Held) : Held :=
  match c, r with
  | incref v, _ => update held v (held v + 1)
  | decref v, _ => update held v (held v - 1)
  | _, .vnode v => update held v (held v + 1)
  | _, _ => held

/-- The directory after an answer. -/
def names (c : Call) (r : Reply) (dir : List UInt8 → UInt32 → Prop) (n : List UInt8) (a : UInt32) : Prop :=
  match c, r with
  | creat _ name _, .vnode v => n = name.1 ∧ a = v ∨ dir n a
  | link _ name file, _ => n = name.1 ∧ a = file ∨ dir n a
  | remove _ name, _ => n ≠ name.1 ∧ dir n a
  | rename _ n₁ _ n₂, _ => n ≠ n₁.1 ∧ (n = n₂.1 ∧ dir n₁.1 a ∨ dir n a)
  | _, _ => dir n a

/-- A file after an answer. -/
def Leaves (c : Call) (a : UInt32) (f f' : Contents) : Prop :=
  match c with
  | write v u => f' = if a = v then f.write u.uioOffset u.bytes else f
  | truncate v len => f' = if a = v then f.truncate len else f
  | _ => f' = f

/-- A file after a refusal. -/
def LeavesPart (c : Call) (a : UInt32) (f f' : Contents) : Prop :=
  match c with
  | write v u => f' = f ∨ a = v ∧ ∃ m ≤ u.uioResid, f' = f.write u.uioOffset (u.bytes.take m)
  | truncate v len => f' = f ∨ a = v ∧ f' = f.clear (DirectPast (blocklenOf len))
  | _ => f' = f

/-- Whether a call changes the contents of `a`. -/
def Touches (a : UInt32) : Call → Prop
  | write v _ | truncate v _ => a = v
  | _ => False

variable {c : Call} {r : Reply} {a : UInt32} {f f' : Contents} {F : Files} {fresh fresh' : UInt32 → Prop}

theorem Answers.mono (h : c.Answers r F fresh) (hfresh : ∀ v, fresh v → fresh' v) : c.Answers r F fresh' := by
  cases c with
  | creat v name excl =>
    cases r with
    | vnode v => exact Or.imp_right (And.imp_left (hfresh v)) h
    | _ => exact h
  | _ => cases r <;> exact h

/-- A vnode that is handed out is the root, or has a name, or is new. -/
theorem Answers.handed (h : c.Answers r F fresh) {v : UInt32} (hr : r = .vnode v) :
    v = sfsRootdirIno ∨ (∃ n, F.dir n v) ∨ fresh v := by
  subst hr
  cases c with
  | getroot => exact .inl h
  | lookup v path => exact .inr (.inl ⟨_, h⟩)
  | lookparent v path buflen => exact .inl h.1
  | creat v name excl => exact .inr (Or.imp (fun h => ⟨_, h.2⟩) And.left h)
  | _ => exact h.elim

theorem Leaves.same (h : c.Leaves a f f') (hnot : ¬ c.Touches a) : f' = f := by
  cases c with
  | write v u => exact h.trans (if_neg hnot)
  | truncate v len => exact h.trans (if_neg hnot)
  | _ => exact h

theorem LeavesPart.same (h : c.LeavesPart a f f') (hnot : ¬ c.Touches a) : f' = f := by
  cases c with
  | write v u => exact h.resolve_right fun h => hnot h.1
  | truncate v len => exact h.resolve_right fun h => hnot h.1
  | _ => exact h

end Call

/-! ## What may come of a call -/

/-- The call is answered. -/
structure Files.Answered (F : Files) (held : Held) (c : Call) (r : Reply) (F' : Files) : Prop where
  reply : c.Answers r F fun v => ¬ F.Reached held v
  dir : ∀ n a, F'.dir n a ↔ c.names r F.dir n a
  file : ∀ a, a ≠ sfsRootdirIno → F.Reached held a → F'.Reached (c.after r held) a →
    c.Leaves a (F.file a) (F'.file a)
  fresh : ∀ v, r = .vnode v → v ≠ sfsRootdirIno → ¬ F.Reached held v → F'.file v = .empty

/-- The call is refused. -/
structure Files.Refused (F : Files) (held : Held) (c : Call) (F' : Files) : Prop where
  dir : ∀ n a, F'.dir n a ↔ F.dir n a
  file : ∀ a, a ≠ sfsRootdirIno → F.Reached held a → c.LeavesPart a (F.file a) (F'.file a)

/-- The second part of a state are the references of the callers. -/
inductive Files.Step (t : Files × Held) (c : Call) : Except ℕ Reply → Files × Held → Prop
  | answered {r : Reply} {F' : Files} (permitted : c.Permitted t.2) (answered : t.1.Answered t.2 c r F') :
      Files.Step t c (.ok r) (F', c.after r t.2)
  | refused {n : ℕ} {F' : Files} (permitted : c.Permitted t.2) (refused : t.1.Refused t.2 c F') :
      Files.Step t c (.error n) (F', t.2)

/-- A file that can be got at before and after, and is not written to, is as it was. -/
theorem Files.Step.same {t t' : Files × Held} {c : Call} {out : Except ℕ Reply} {a : UInt32}
    (h : Files.Step t c out t') (hne : a ≠ sfsRootdirIno) (hquiet : ¬ c.Touches a)
    (hreached : t.1.Reached t.2 a) (hreached' : t'.1.Reached t'.2 a) : t'.1.file a = t.1.file a := by
  cases h with
  | answered hp hans => exact (hans.file a hne hreached hreached').same hquiet
  | refused hp href => exact (href.file a hne hreached).same hquiet

/-- Calls one after the other, each with what it came to. -/
inductive Files.Runs : Files × Held → List (Call × Except ℕ Reply) → Files × Held → Prop
  | nil (t : Files × Held) : Files.Runs t [] t
  | cons {t t₁ t' : Files × Held} {c : Call} {out : Except ℕ Reply} {outs : List (Call × Except ℕ Reply)}
      (step : Files.Step t c out t₁) (rest : Files.Runs t₁ outs t') : Files.Runs t ((c, out) :: outs) t'

theorem Files.Runs.append {t t₁ t' : Files × Held} {outs outs' : List (Call × Except ℕ Reply)}
    (h : Files.Runs t outs t₁) (h' : Files.Runs t₁ outs' t') : Files.Runs t (outs ++ outs') t' := by
  induction h with
  | nil => exact h'
  | cons hstep _ ih => exact .cons hstep (ih h')

/-! ## What nobody can get at does not matter -/

/-- The same to the callers. -/
structure Files.Alike (t u : Files × Held) : Prop where
  held : u.2 = t.2
  dir : u.1.dir = t.1.dir
  file : ∀ a, a ≠ sfsRootdirIno → t.1.Reached t.2 a → u.1.file a = t.1.file a

namespace Files.Alike

variable {t u t' : Files × Held} {c : Call} {out : Except ℕ Reply} {outs : List (Call × Except ℕ Reply)}

theorem refl (t : Files × Held) : Files.Alike t t := ⟨rfl, rfl, fun _ _ _ => rfl⟩

theorem reached (h : Files.Alike t u) : u.1.Reached u.2 = t.1.Reached t.2 := by
  funext a
  unfold Files.Reached
  rw [h.held, h.dir]

/-- The only call that is answered from a file is a read, and its caller has a reference. -/
theorem answers (h : Files.Alike t u) {r : Reply} {fresh : UInt32 → Prop} (hp : c.Permitted t.2)
    (hreply : c.Answers r t.1 fresh) : c.Answers r u.1 fresh := by
  have hfile := h.file
  obtain ⟨⟨dir, file⟩, held⟩ := u
  obtain rfl : dir = t.1.dir := h.dir
  cases c with
  | read v w =>
    cases r with
    | moved w' =>
      obtain ⟨hne, hw'⟩ := hreply
      refine ⟨hne, ?_⟩
      rw [hfile v hne (.inl hp.1)]
      exact hw'
    | _ => exact hreply
  | _ => cases r <;> exact hreply

theorem step (h : Files.Alike t u) (hstep : Files.Step t c out t') : Files.Step u c out t' := by
  have hreached := h.reached
  cases hstep with
  | answered hp hans =>
    rw [← h.held] at hp ⊢
    refine .answered hp ⟨?_, ?_, fun a hne ha ha' => ?_, fun v hr hne hnot => ?_⟩
    · rw [hreached]
      exact h.answers (h.held ▸ hp) hans.reply
    · rw [h.dir]
      exact hans.dir
    · rw [hreached] at ha
      rw [h.held] at ha'
      rw [h.file a hne ha]
      exact hans.file a hne ha ha'
    · rw [hreached] at hnot
      exact hans.fresh v hr hne hnot
  | refused hp href =>
    rw [← h.held] at hp ⊢
    refine .refused hp ⟨?_, fun a hne ha => ?_⟩
    · rw [h.dir]
      exact href.dir
    · rw [hreached] at ha
      rw [h.file a hne ha]
      exact href.file a hne ha

/-- The same calls come to the same. -/
theorem runs (h : Files.Alike t u) (hruns : Files.Runs t outs t') :
    ∃ u', Files.Runs u outs u' ∧ Files.Alike t' u' := by
  cases hruns with
  | nil => exact ⟨u, .nil u, h⟩
  | cons hstep hrest => exact ⟨t', .cons (h.step hstep) hrest, .refl t'⟩

end Files.Alike

end UnionCollegeCode.OS161.Sfs
