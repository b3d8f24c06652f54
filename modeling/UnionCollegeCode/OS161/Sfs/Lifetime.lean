import UnionCollegeCode.OS161.Sfs.Mksfs
import UnionCollegeCode.OS161.Sfs.Runs

/-!
# From `mksfs` on

A volume is made once, and then mounted, used and unmounted any number of times. To its callers this is
one directory with files all the time.
-/

set_option autoImplicit false

namespace UnionCollegeCode.OS161.Sfs

open Function (update)
open Lib.EState
open SfsFs

variable {w : World} {s s' s₁ k : SfsFs} {disk disk' : ℕ → Block} {held : Held} {t t' : SfsFs × Held}
  {F F' : Files} {calls : List Call} {sessions : List (List Call)} {volname : CString}
  {outs : List (Call × Except ℕ Reply)}

/-! ## `vfs_unmount` -/

/-- An unmount is refused when there are vnodes in memory, and never finds anything dirty. -/
theorem vfsUnmount_spec (hw : w.Writes) (h : Ordered w s) (himage : Image s) :
    wp (vfsUnmount w)
      (fun _ s' => s.vnodes = [] ∧ Intact w s (fun _ => True) s' ∧ s'.vnodes = [] ∧ Clean s')
      (fun e s' => e = .errno EBUSY ∧ s.vnodes ≠ [] ∧ Intact w s (fun _ => True) s' ∧ Clean s') s := by
  rw [vfsUnmount, wp_bind]
  refine wp_mono ?_ (fun _ _ h => h.elim) (sfsSync_spec hw h himage)
  rintro _ s' ⟨hintact, htable, hclean⟩
  have hlen : s'.vnodes.length = s.vnodes.length := by
    rw [← List.length_map SfsVnode.face, htable, List.length_map]
  have hsuper : ¬ s'.superdirty = true := by
    rw [hclean.image.superdirty]
    nofun
  have hmap : ¬ s'.freemapdirty = true := by
    rw [hclean.map]
    nofun
  rw [sfsUnmount, wp_bind, wp_get, wp_ite]
  constructor
  · intro hpos
    refine ⟨rfl, ?_, hintact, hclean⟩
    rintro hnil
    rw [hlen, hnil] at hpos
    cases hpos
  · intro hnot
    have hnil : s'.vnodes = [] := List.length_eq_zero_iff.mp (Nat.eq_zero_of_not_pos hnot)
    rw [if_neg hsuper, if_neg hmap, wp_pure]
    refine ⟨List.length_eq_zero_iff.mp ?_, hintact, hnil, hclean⟩
    rw [← hlen, hnil]
    rfl

/-! ## What a disk stores -/

/-- Whoever mounts the disk finds the directory and the files. -/
structure Stored (w : World) (disk : ℕ → Block) (F : Files) : Prop where
  suitable : Suitable w (SfsSuperblock.decode (disk sfsSuperBlock)).sbNblocks
  wf : ∀ s, Mounted disk s → Wf w s ∧ Image s
  dir : ∀ s, Mounted disk s → s.Named = F.dir
  file : ∀ s, Mounted disk s → ∀ a n, F.dir n a → s.contents a = F.file a

/-- A volume with nothing in it. -/
def Files.none : Files := ⟨fun _ _ => False, fun _ => .empty⟩

theorem Formatted.stored (h : Formatted w.dBlocks disk) : Stored w disk .none := by
  refine ⟨h.nblocks.symm ▸ h.suitable (UInt32.le_refl _), fun s hs => ?_, fun s hs => ?_, nofun⟩
  · have hwf := h.wf hs (UInt32.le_refl w.dBlocks)
    refine ⟨hwf, hs.image ?_⟩
    rw [sbNblocks_of_formatted h hs]
    exact (h.suitable (UInt32.le_refl w.dBlocks)).room
  · funext n a
    refine propext ⟨?_, nofun⟩
    rintro ⟨i, hi, -⟩
    exact not_names_of_formatted h hs i a hi

theorem Clean.stored (h : Wf w s) (hclean : Clean s) (hrooted : Rooted s) : Stored w s.disk s.files := by
  have hblocks : s.sbNblocks = (SfsSuperblock.decode (s.disk sfsSuperBlock)).sbNblocks := by
    rw [SfsFs.sbNblocks, hclean.image.sb _ rfl]
  refine ⟨⟨?_, ?_, ?_⟩, fun s' hs' => ?_, fun s' hs' => ?_, fun s' hs' a n ha => ?_⟩
  · exact hblocks ▸ h.sound.device
  · exact hblocks ▸ h.small
  · exact hblocks ▸ hclean.image.room
  all_goals obtain ⟨hintact, himage⟩ := hclean.remount h.toOrdered hrooted hs'
  · exact ⟨⟨hintact.ordered, hintact.linked h.linked⟩, himage⟩
  · exact funext fun n => funext fun a => propext (hintact.root.named n a)
  · exact (hintact.same a (live_of_named ha) trivial).1.contents

theorem Stored.of_alike (h : Stored w disk F) (halike : Files.Alike (F, held) (F', held)) (hroot : ∀ n, ¬ F.dir n sfsRootdirIno) :
    Stored w disk F' := by
  obtain ⟨-, hdir, hfile⟩ := halike
  dsimp only at hdir hfile
  refine ⟨h.suitable, h.wf, fun s hs => (h.dir s hs).trans hdir.symm, fun s hs a n ha => ?_⟩
  rw [hdir] at ha
  have hne : a ≠ sfsRootdirIno := by
    rintro rfl
    exact hroot n ha
  rw [hfile a hne (.inr ⟨n, ha⟩)]
  exact h.file s hs a n ha

/-! ## Sessions -/

/-- The volume is mounted, used and unmounted. -/
def session (w : World) (k : SfsFs) (calls : List Call) :
    Option (List (Call × Except ℕ Reply) × SfsFs) :=
  match sfsDomount w sfsBlocksize k with
  | .error _ _ => .none
  | .ok _ s => do
    let (outs, t) ← sfsRun w (s, fun _ => 0) calls
    match vfsUnmount w t.1 with
    | .error _ _ => .none
    | .ok _ s' => return (outs, s')

def lifetime (w : World) : SfsFs → List (List Call) → Option (List (Call × Except ℕ Reply) × SfsFs)
  | k, [] => some ([], k)
  | k, calls :: sessions => do
    let (outs, s) ← session w k calls
    let (outs', s') ← lifetime w s sessions
    return (outs ++ outs', s')

theorem rooted_nil (h : s.vnodes = []) : Rooted s := by
  intro a ha
  rw [vnodeOf, h] at ha
  cases ha

theorem session_eq_some (h : session w k calls = some (outs, s')) : ∃ s t,
    sfsDomount w sfsBlocksize k = .ok ⟨⟩ s ∧ sfsRun w (s, fun _ => 0) calls = some (outs, t) ∧
      vfsUnmount w t.1 = .ok ⟨⟩ s' := by
  unfold session at h
  split at h
  · cases h
  · rename_i s hmount
    obtain ⟨⟨outs', t⟩, hcalls, h⟩ := Option.bind_eq_some_iff.mp h
    dsimp only at h
    split at h
    · cases h
    · rename_i s₂ hunmount
      cases h
      exact ⟨s, t, hmount, hcalls, hunmount⟩

theorem Ordered.not_named_root (h : Ordered w s) (n : List UInt8) : ¬ s.Named n sfsRootdirIno :=
  fun ⟨i, hi, _⟩ => h.rootUnnamed i hi

theorem Intact.alike (h : Intact w s (fun _ => True) s') (hlive : ∀ a, s.files.Reached held a → s.Live a) :
    Files.Alike (s'.files, held) (s.files, held) := by
  have hnamed : s'.Named = s.Named := funext fun n => funext fun a => propext (h.root.named n a)
  refine ⟨rfl, hnamed.symm, fun a _ ha => ?_⟩
  have hreached : s.files.Reached held a := by
    unfold Files.Reached SfsFs.files at ha ⊢
    rwa [hnamed] at ha
  exact (h.same a (hlive a hreached) trivial).1.contents.symm

/-- What is unmounted is stored. -/
theorem stored_of_unmount (hw : w.Writes) (h : Account w t) (hunmount : vfsUnmount w t.1 = .ok ⟨⟩ s')
    (halike : Files.Alike (seen t) (F, held)) : Stored w s'.disk F ∧ held = fun _ => 0 := by
  obtain ⟨s, held₁⟩ := t
  obtain ⟨hnil, hintact, hnil', hclean⟩ := (wp_of_ok hunmount).mp (vfsUnmount_spec hw h.wf.toOrdered h.image)
  have hzero : held₁ = fun _ => 0 := by
    funext a
    have hrefs : s.refs a = 0 := by
      rw [refs, vnodeOf, hnil]
      rfl
    exact Nat.eq_zero_of_le_zero (hrefs ▸ h.le a)
  subst hzero
  obtain rfl : held = fun _ => 0 := halike.held
  have hwf : Wf w s' := ⟨hintact.ordered, hintact.linked h.wf.linked⟩
  have hstored := hclean.stored hwf (rooted_nil hnil')
  refine ⟨(hstored.of_alike (hintact.alike fun a ha => h.live ha) hwf.not_named_root).of_alike halike ?_, rfl⟩
  exact h.wf.not_named_root

theorem Stored.alike (h : Stored w disk F) (hmounted : Mounted disk s) :
    Files.Alike (seen (s, fun _ => 0)) (F, fun _ => 0) := by
  have hdir := h.dir s hmounted
  refine ⟨rfl, hdir.symm, fun a _ ha => ?_⟩
  rcases ha with hpos | ⟨n, hn⟩
  · cases hpos
  · have hn' : F.dir n a := hdir ▸ hn
    exact (h.file s hmounted a n hn').symm

/-- One session. -/
theorem session_spec (hw : w.Writes) (h : Stored w k.disk F) (hrun : session w k calls = some (outs, s')) :
    ∃ F', Files.Runs (F, fun _ => 0) outs (F', fun _ => 0) ∧ Stored w s'.disk F' := by
  obtain ⟨s, t, hmount, hcalls, hunmount⟩ := session_eq_some hrun
  have hmounted := (wp_of_ok hmount).mp (sfsDomount_spec h.suitable)
  obtain ⟨hwf, himage⟩ := h.wf s hmounted
  have haccount : Account w (s, fun _ => 0) := ⟨hwf, himage, fun a => .inl (hmounted.refs a)⟩
  obtain ⟨hruns, hlast⟩ := sfs_run_refines hw haccount hcalls
  obtain ⟨⟨F', held⟩, hruns', halike⟩ := (h.alike hmounted).runs hruns
  obtain ⟨hstored, rfl⟩ := stored_of_unmount hw hlast hunmount halike
  exact ⟨F', hruns', hstored⟩

theorem lifetime_spec (hw : w.Writes) : ∀ {sessions k F outs s'}, Stored w k.disk F →
    lifetime w k sessions = some (outs, s') →
    ∃ F', Files.Runs (F, fun _ => 0) outs (F', fun _ => 0) ∧ Stored w s'.disk F' := by
  intro sessions
  induction sessions with
  | nil =>
    intro k F outs s' h hrun
    cases hrun
    exact ⟨F, .nil _, h⟩
  | cons calls sessions ih =>
    intro k F outs s' h hrun
    obtain ⟨⟨outs₁, s₁⟩, hfirst, hrun⟩ := Option.bind_eq_some_iff.mp hrun
    obtain ⟨⟨outs₂, s₂⟩, hrest, hrun⟩ := Option.bind_eq_some_iff.mp hrun
    cases hrun
    obtain ⟨F₁, hruns₁, hstored₁⟩ := session_spec hw h hfirst
    obtain ⟨F₂, hruns₂, hstored₂⟩ := ih hstored₁ hrest
    exact ⟨F₂, hruns₁.append hruns₂, hstored₂⟩

/-- All that is ever done with a volume, from `mksfs` on, is one run of a directory that was empty at
first, and what has come of it is what the disk stores. -/
theorem sfs_lifetime (hw : w.Writes) (hpos : 0 < w.dBlocks) (hsize : w.dBlocks.toNat + 4096 < 2 ^ 32)
    (hmksfs : mksfs volname w.dBlocks disk = .ok k.disk) (hrun : lifetime w k sessions = some (outs, s')) :
    ∃ F, Files.Runs (.none, fun _ => 0) outs (F, fun _ => 0) ∧ Stored w s'.disk F :=
  lifetime_spec hw (mksfs_formatted hpos hsize hmksfs).stored hrun

/-- `a` is written in one session and read in the next. -/
def twoSessions : List (List Call) :=
  [[.getroot, .creat 1 nameA true, .write 3 threeBytes, .decref 3, .decref 1],
    [.getroot, .lookup 1 nameA, .read 3 ⟨3, 0, 3, .read, false, []⟩, .decref 3, .decref 1]]

def livedTwice : List (Call × Except ℕ Reply) × SfsFs :=
  (lifetime quiet newVolume twoSessions).get (by decide +kernel)

theorem sfs_lifetime_twoSessions :
    ∃ F, Files.Runs (.none, fun _ => 0) livedTwice.1 (F, fun _ => 0) ∧ Stored quiet livedTwice.2.disk F :=
  sfs_lifetime (fun _ => rfl) (by decide) (by decide) mksfs_newDisk (Option.some_get _).symm

end UnionCollegeCode.OS161.Sfs
