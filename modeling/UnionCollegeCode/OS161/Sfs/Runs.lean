import UnionCollegeCode.Lib.Run
import UnionCollegeCode.OS161.Sfs.Calls
import UnionCollegeCode.OS161.Sfs.Mksfs

/-!
# Runs of a mounted volume

A run is a list of calls, each with references that its caller has. The callers' references are kept
beside the volume; those of the volume are the same, but for files that nobody can get at any more.
-/

set_option autoImplicit false

namespace UnionCollegeCode.OS161.Sfs

open Function (update)
open Lib.EState
open Lib.Run
open SfsFs

/-- One call, and what it comes to. An error leaves the references of the callers as they were, a panic
is the end. -/
def sfsCall (w : World) (t : SfsFs × Held) (c : Call) : Option (Except ℕ Reply × SfsFs × Held) :=
  if c.Permitted t.2 then
    match c.exec w t.1 with
    | .ok r s' => some (.ok r, s', c.after r t.2)
    | .error (.errno n) s' => some (.error n, s', t.2)
    | .error (.stop _) _ => none
  else
    none

def sfsStep (w : World) (t : SfsFs × Held) (c : Call) : Option (SfsFs × Held) :=
  (sfsCall w t c).map Prod.snd

/-- Calls one after the other, each with what it comes to. -/
def sfsRun (w : World) : SfsFs × Held → List Call →
    Option (List (Call × Except ℕ Reply) × SfsFs × Held)
  | t, [] => some ([], t)
  | t, c :: calls => do
    let (out, t₁) ← sfsCall w t c
    let (outs, t') ← sfsRun w t₁ calls
    return ((c, out) :: outs, t')

/-- What the callers see. -/
def seen (t : SfsFs × Held) : Files × Held := (t.1.files, t.2)

variable {w : World} {s s' : SfsFs} {a v : UInt32} {c : Call} {r : Reply} {held held' : Held}
  {calls : List Call} {t t' : SfsFs × Held} {out : Except ℕ Reply}
  {leaves : UInt32 → Contents → Contents → Prop} {fresh : UInt32 → Prop}

/-- The volume is in good order, and its references are those of the callers. -/
structure Account (w : World) (t : SfsFs × Held) : Prop where
  wf : Wf w t.1
  image : Image t.1
  refs : ∀ a, t.1.refs a = t.2 a ∨ t.2 a = 0 ∧ t.1.refs a = 1 ∧ Lost t.1.Named a

theorem Account.le (h : Account w (s, held)) (a : UInt32) : held a ≤ s.refs a := by
  rcases h.refs a with heq | ⟨hzero, -⟩
  · exact Nat.le_of_eq heq.symm
  · exact (Nat.le_of_eq hzero).trans (Nat.zero_le _)

/-- What a call may do it may do with more references. -/
theorem Call.Permitted.mono (h : c.Permitted held) (hle : ∀ a, held a ≤ held' a) : c.Permitted held' := by
  have hpos : ∀ {a}, 0 < held a → 0 < held' a := fun hlt => Nat.lt_of_lt_of_le hlt (hle _)
  cases c with
  | getroot | sync => trivial
  | incref v | decref v | lookup v path | lookparent v path buflen | creat v name excl | remove v name
  | truncate v len | fsync v => exact hpos h
  | link v name file => exact ⟨hpos h.1, hpos h.2⟩
  | rename v n₁ v' n₂ => exact ⟨hpos h.1, h.2.1, hpos h.2.2⟩
  | read v u => exact ⟨hpos h.1, h.2⟩
  | write v u => exact ⟨hpos h.1, h.2⟩

/-- Whether a call changes the references to an inode does not depend on those to others. -/
theorem Call.after_congr {f g : Held} (h : f a = g a) : c.after r f a = c.after r g a := by
  have hupdate : ∀ (v : UInt32) (k : ℕ → ℕ), update f v (k (f v)) a = update g v (k (g v)) a := by
    intro v k
    by_cases heq : a = v
    · subst heq
      rw [Function.update_self, Function.update_self, h]
    · rw [Function.update_of_ne heq, Function.update_of_ne heq, h]
  cases c <;> cases r <;> first | exact h | exact hupdate _ (· + 1) | exact hupdate _ (· - 1)

/-- A vnode that is handed out is none that is lost. -/
theorem ne_of_lost (hlost : Lost s.Named a) (hlive : s.Live a)
    (hreply : c.Answers r s.files fun v => ¬ s.Live v) (hr : r = .vnode v) : a ≠ v := by
  rintro rfl
  rcases hreply.handed hr with hroot | ⟨n, hn⟩ | hdead
  · exact hlost.1 hroot
  · exact hlost.2 n hn
  · exact hdead hlive

/-- A call does not get at a file that is lost. -/
theorem Call.after_lost (hp : c.Permitted held) (hzero : held a = 0) (hlost : Lost s.Named a)
    (hlive : s.Live a) (hreply : c.Answers r s.files fun v => ¬ s.Live v) (f : Held) :
    c.after r f a = f a := by
  have hne : ∀ {v}, 0 < held v → a ≠ v := by
    rintro v hpos rfl
    omega
  cases c with
  | incref v => exact Function.update_of_ne (hne hp) _ _
  | decref v => exact Function.update_of_ne (hne hp) _ _
  | _ =>
    cases r with
    | vnode v => exact Function.update_of_ne (ne_of_lost hlost hlive hreply rfl) _ _
    | _ => rfl

theorem Call.names_lost (hp : c.Permitted held) (hzero : held a = 0) (hlost : Lost s.Named a)
    (hlive : s.Live a) (hreply : c.Answers r s.files fun v => ¬ s.Live v) : Lost (c.names r s.Named) a := by
  refine ⟨hlost.1, fun n hn => ?_⟩
  cases c with
  | creat v name excl =>
    cases r with
    | vnode v =>
      rcases hn with ⟨-, rfl⟩ | hn
      · exact ne_of_lost hlost hlive hreply rfl rfl
      · exact hlost.2 n hn
    | _ => exact hlost.2 n hn
  | link v name file =>
    rcases hn with ⟨-, rfl⟩ | hn
    · have hpos : 0 < held a := hp.2
      omega
    · exact hlost.2 n hn
  | remove v name => exact hlost.2 n hn.2
  | rename v n₁ v' n₂ =>
    rcases hn.2 with ⟨-, hn⟩ | hn
    · exact hlost.2 _ hn
    · exact hlost.2 n hn
  | _ => exact hlost.2 n hn

theorem Account.live_of_lost (h : s.refs a = 1) : s.Live a := by
  obtain ⟨sv, hsv⟩ := loaded_of_refs (h ▸ Nat.one_pos)
  exact live_of_vnodeOf hsv

/-- The references that are expected when `held` becomes `held'` and the directory `names`. -/
theorem Answered.account {names : List UInt8 → UInt32 → Prop} {want : UInt32 → ℕ}
    (h : Answered w s leaves names want s') (himage : Image s)
    (hwant : ∀ a, want a = held' a ∨ held' a = 0 ∧ want a = 1 ∧ Lost names a) : Account w (s', held') := by
  have hnames : s'.Named = names := funext fun n => funext fun a => propext (h.named n a)
  refine ⟨h.wf, h.image himage, fun a => ?_⟩
  rw [hnames]
  rcases h.refs a with hrefs | ⟨hzero, hone, hlost⟩
  · rw [hrefs]
    exact hwant a
  · rcases hwant a with heq | ⟨-, hone', -⟩
    · exact .inr ⟨heq.symm.trans hzero, hone, hlost⟩
    · rw [hzero] at hone'
      cases hone'

theorem Done.account (h : Account w (s, held)) (hp : c.Permitted held) (hdone : Done w s c r s') :
    Account w (s', c.after r held) := by
  have hreply := hdone.reply
  refine hdone.answered.account h.image fun a => ?_
  rcases h.refs a with heq | ⟨hzero, hone, hlost⟩
  · exact .inl (Call.after_congr heq)
  · have hlive := Account.live_of_lost hone
    have hzero' : c.after r held a = 0 := (Call.after_lost hp hzero hlost hlive hreply held).trans hzero
    have hone' : c.after r s.refs a = 1 := (Call.after_lost hp hzero hlost hlive hreply s.refs).trans hone
    exact .inr ⟨hzero', hone', Call.names_lost hp hzero hlost hlive hreply⟩

/-- Somebody can get at the file. -/
abbrev Reached (t : SfsFs × Held) (a : UInt32) : Prop := t.1.files.Reached t.2 a

theorem Account.live (h : Account w t) (hreached : Reached t a) : t.1.Live a := by
  rcases hreached with hheld | ⟨n, hn⟩
  · obtain ⟨sv, hsv⟩ := loaded_of_refs (Nat.lt_of_lt_of_le hheld (h.le a))
    exact live_of_vnodeOf hsv
  · exact live_of_named hn

/-- The references to a file that can be got at are those of the callers. -/
theorem Account.refs_of_reached (h : Account w (s, held)) (hreached : Reached (s, held) a) :
    s.refs a = held a := by
  refine (h.refs a).resolve_right ?_
  rintro ⟨hzero, -, hlost⟩
  rcases hreached with hpos | ⟨n, hn⟩
  · exact absurd hzero hpos.ne'
  · exact hlost.2 n hn

/-- What a call does to the volume is something that may come of it. -/
theorem Done.step (h : Account w (s, held)) (hp : c.Permitted held) (hdone : Done w s c r s') :
    Files.Step (seen (s, held)) c (.ok r) (seen (s', c.after r held)) := by
  have hfresh : ∀ v, ¬ s.Live v → ¬ Reached (s, held) v := fun v hnot hreached => hnot (h.live hreached)
  refine .answered hp ⟨hdone.reply.mono hfresh, hdone.answered.named, fun a hne hreached hreached' => ?_,
    fun v hr hne hnot => ?_⟩
  · refine hdone.answered.file a (h.live hreached) hne (hreached'.imp (fun hheld => ?_) fun ⟨n, hn⟩ => ?_)
    · rw [Call.after_congr (h.refs_of_reached hreached)]
      exact hheld
    · exact ⟨n, (hdone.answered.named n a).mp hn⟩
  · refine hdone.fresh v hr hne fun hlive => ?_
    rcases hdone.reply.handed hr with hroot | ⟨n, hn⟩ | hdead
    · exact hne hroot
    · exact hnot (.inr ⟨n, hn⟩)
    · exact hdead hlive

theorem Answered.step (h : Account w (s, held)) (hp : c.Permitted held)
    (hans : Answered w s c.LeavesPart s.Named s.refs s') (n : ℕ) :
    Files.Step (seen (s, held)) c (.error n) (seen (s', held)) := by
  refine .refused hp ⟨hans.named, fun a hne hreached => ?_⟩
  refine hans.file a (h.live hreached) hne (hreached.imp_left fun hheld => ?_)
  exact Nat.lt_of_lt_of_le hheld (h.le a)

/-- One call of a run. -/
theorem sfsCall_spec (hw : w.Writes) (h : Account w t) (hcall : sfsCall w t c = some (out, t')) :
    Account w t' ∧ Files.Step (seen t) c out (seen t') := by
  obtain ⟨s, held⟩ := t
  unfold sfsCall at hcall
  split at hcall
  · rename_i hp
    have hspec := Call.exec_spec hw h.wf h.image (hp.mono h.le)
    dsimp only at hcall
    split at hcall
    · rename_i r s' hrun
      cases hcall
      have hdone := (wp_of_ok hrun).mp hspec
      exact ⟨hdone.account h hp, hdone.step h hp⟩
    · rename_i n s' hrun
      cases hcall
      rcases (wp_of_error hrun).mp hspec with ⟨hstop, -⟩ | ⟨-, hans⟩
      · cases hstop
      · exact ⟨hans.account h.image h.refs, hans.step h hp n⟩
    · cases hcall
  · cases hcall

theorem sfsStep_spec (hw : w.Writes) (h : Account w t) (hstep : sfsStep w t c = some t') :
    Account w t' ∧ ∃ out, Files.Step (seen t) c out (seen t') := by
  obtain ⟨⟨out, t₁⟩, hcall, rfl⟩ := Option.map_eq_some_iff.mp hstep
  obtain ⟨haccount, hfiles⟩ := sfsCall_spec hw h hcall
  exact ⟨haccount, out, hfiles⟩

/-- A volume that has just been made and mounted. -/
theorem Account.of_mounted {disk : ℕ → Block} (h : Formatted w.dBlocks disk) (hmounted : Mounted disk s) :
    Account w (s, fun _ => 0) := by
  refine ⟨h.wf hmounted (UInt32.le_refl _), hmounted.image ?_, fun a => .inl (hmounted.refs a)⟩
  rw [sbNblocks_of_formatted h hmounted]
  exact (h.suitable (UInt32.le_refl w.dBlocks)).room

theorem newMount_account : Account quiet (newMount, fun _ => 0) :=
  .of_mounted newDisk_formatted newMount_mounted

/-- `a`. -/
def nameA : CString := ⟨[97], by decide⟩

/-- `b`. -/
def nameB : CString := ⟨[98], by decide⟩

/-- Three bytes to be written at the start of a file. -/
def threeBytes : SfsUio := ⟨3, 0, 3, .write, false, [104, 105, 10]⟩

/-! ## Whole runs -/

/-- Whatever the callers do with what they have, the volume stays in good order, its references are
theirs, and the only call that can stop the kernel is a rename that the disk does not let be undone. -/
theorem sfs_run_in_order (hw : w.Writes) (h : Account w t) (calls : List Call) :
    Along (sfsStep w) (fun t => Account w t ∧ ∀ c : Call, c.Permitted t.2 → ∀ x s',
      c.exec w t.1 = .error (.stop x) s' →
        x = .panic "sfs: rename: Cannot recover\n" ∧ ∃ v n₁ v' n₂, c = .rename v n₁ v' n₂) t calls := by
  refine Along.mono (fun t ht => ⟨ht, fun c hp x s' hrun => ?_⟩)
    (along_of_step (fun t c t' ht hstep => (sfsStep_spec hw ht hstep).1) h)
  have hspec := (wp_of_error hrun).mp (Call.exec_spec hw ht.wf ht.image (hp.mono ht.le))
  rcases hspec with ⟨hstop, hrename⟩ | ⟨⟨n, hn⟩, -⟩
  · cases hstop
    exact ⟨rfl, hrename⟩
  · cases hn

theorem sfs_run_in_order_newMount :
    Along (sfsStep quiet) (fun t => Account quiet t ∧ ∀ c : Call, c.Permitted t.2 → ∀ x s',
      c.exec quiet t.1 = .error (.stop x) s' →
        x = .panic "sfs: rename: Cannot recover\n" ∧ ∃ v n₁ v' n₂, c = .rename v n₁ v' n₂)
      (newMount, fun _ => 0)
      [.getroot, .creat 1 nameA true, .write 3 threeBytes, .rename 1 nameA 1 nameB, .sync, .decref 3] :=
  sfs_run_in_order (fun _ => rfl) newMount_account _

/-- A file that can be got at all the time, and is not written to, keeps its contents. -/
theorem sfs_run_persists (hw : w.Writes) (h : Account w t) (hne : a ≠ sfsRootdirIno) :
    ∀ {calls : List Call}, (∀ c ∈ calls, ¬ c.Touches a) →
      Along (sfsStep w) (fun t => Reached t a) t calls → exec (sfsStep w) t calls = some t' →
      t'.1.contents a = t.1.contents a := by
  intro calls
  induction calls generalizing t with
  | nil =>
    intro _ _ hrun
    cases hrun
    rfl
  | cons c calls ih =>
    intro hquiet hreached hrun
    obtain ⟨t₁, hstep, hrest⟩ := Option.bind_eq_some_iff.mp hrun
    obtain ⟨haccount, out, hfiles⟩ := sfsStep_spec hw h hstep
    have hreached₁ := hreached.2 t₁ hstep
    have hsame := hfiles.same hne (hquiet c List.mem_cons_self) hreached.head hreached₁.head
    exact (ih haccount (fun c hc => hquiet c (List.mem_cons_of_mem _ hc)) hreached₁ hrest).trans hsame

/-- `a` has been written to, and is open. -/
def openA : SfsFs × Held :=
  (exec (sfsStep quiet) (newMount, fun _ => 0)
    [.getroot, .creat 1 nameA true, .write 3 threeBytes]).get (by decide +kernel)

theorem openA_account : Account quiet openA :=
  (along_of_step (fun _ _ _ ht hstep => (sfsStep_spec (fun _ => rfl) ht hstep).1) newMount_account).last
    (Option.some_get _).symm

/-- `b` is written to, and `a` loses its name. -/
def callsOnB : List Call := [.creat 1 nameB true, .write 6 threeBytes, .remove 1 nameA]

theorem sfs_run_persists_openA :
    ((exec (sfsStep quiet) openA callsOnB).get (by decide +kernel)).1.contents 3 = openA.1.contents 3 := by
  have hheld : Along (sfsStep quiet) (fun t => 0 < t.2 3) openA callsOnB := by decide +kernel
  refine sfs_run_persists (w := quiet) (fun _ => rfl) openA_account (by decide) ?_
    (hheld.mono fun _ => .inl) (Option.some_get _).symm
  unfold callsOnB
  simp [Call.Touches]

theorem sfsRun_cons {calls : List Call} {outs : List (Call × Except ℕ Reply)}
    (h : sfsRun w t (c :: calls) = some (outs, t')) : ∃ out t₁ rest,
      sfsCall w t c = some (out, t₁) ∧ sfsRun w t₁ calls = some (rest, t') ∧ outs = (c, out) :: rest := by
  obtain ⟨⟨out, t₁⟩, hcall, h⟩ := Option.bind_eq_some_iff.mp h
  obtain ⟨⟨rest, t₂⟩, hrest, h⟩ := Option.bind_eq_some_iff.mp h
  cases h
  exact ⟨out, t₁, rest, hcall, hrest, rfl⟩

/-- What the callers see of a run is a run of a directory and files. -/
theorem sfs_run_refines (hw : w.Writes) (h : Account w t) :
    ∀ {calls : List Call} {outs : List (Call × Except ℕ Reply)}, sfsRun w t calls = some (outs, t') →
      Files.Runs (seen t) outs (seen t') ∧ Account w t' := by
  intro calls
  induction calls generalizing t with
  | nil =>
    intro outs hrun
    cases hrun
    exact ⟨.nil _, h⟩
  | cons c calls ih =>
    intro outs hrun
    obtain ⟨out, t₁, rest, hcall, hrest, rfl⟩ := sfsRun_cons hrun
    obtain ⟨haccount, hstep⟩ := sfsCall_spec hw h hcall
    obtain ⟨hruns, hlast⟩ := ih haccount hrest
    exact ⟨.cons hstep hruns, hlast⟩

end UnionCollegeCode.OS161.Sfs
