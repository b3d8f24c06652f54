import UnionCollegeCode.OS161.Sfs.Volume

/-!
# Looking for a name, putting one in, taking one out

No search of a volume in good order finds a name twice. A slot is written as a whole, and no other
slot changes.
-/

set_option autoImplicit false

namespace UnionCollegeCode.OS161.Sfs

open Lib (overlay slice)
open Lib.EState
open SfsFs

variable {w : World} {s s' s₀ s₁ : SfsFs} {ino : UInt32} {sv : SfsVnode} {i j : ℕ} {name : CString}

theorem Later.sameRoot (h : Later s s') : SameRoot s s' := by
  obtain ⟨tick, rfl⟩ := h
  exact ⟨rfl, rfl⟩

theorem Later.vnodeOf (h : Later s s') (ino : UInt32) : s'.vnodeOf ino = s.vnodeOf ino := by
  obtain ⟨tick, rfl⟩ := h
  rfl

theorem Later.live_eq (h : Later s s') : s'.Live = s.Live :=
  h.sameRoot.live_eq (by
    obtain ⟨tick, rfl⟩ := h
    rfl)

theorem Ordered.later (h : Ordered w s) (hlater : Later s s') : Ordered w s' :=
  h.kept (h.sound.kept_later hlater)

/-- An error, and the files are as they were. -/
def Denied (w : World) (s : SfsFs) (e : Fail) (s' : SfsFs) : Prop := Refused w s.Live s e s'

theorem Denied.of_later {e : Fail} (h : Ordered w s₀) (hlater : Later s₀ s) (hdenied : Denied w s e s') :
    Denied w s₀ e s' := by
  obtain ⟨he, hkept⟩ := hdenied
  rw [hlater.live_eq] at hkept
  exact ⟨he, (h.sound.kept_later hlater).trans hkept⟩

/-! ## Slots -/

theorem sfsDirNentries_ok (h : Ordered w s) (hsv : s.vnodeOf sfsRootdirIno = some sv) :
    sfsDirNentries sfsRootdirIno s = .ok s.nentries s := by
  have htype : sv.svI.sfiType = sfsTypeDir := by
    rw [← inodeOf_loaded hsv]
    exact h.rootType
  have hsize : sv.svI.sfiSize.toNat = s.fileSize sfsRootdirIno := by rw [fileSize, inodeOf_loaded hsv]
  rw [sfsDirNentries, bind_ok (vnode_ok hsv), if_neg (not_not.mpr htype), hsize,
    if_neg (not_not.mpr h.rootSize)]
  rfl

theorem nentries_le (h : Ordered w s) : s.nentries * sfsDirentrySize ≤ sfsMaxsize :=
  (Nat.div_mul_le_self _ _).trans h.rootMax

/-- The place of a slot that is there, or next. -/
theorem slot_place (h : Ordered w s) (hi : i ≤ s.nentries) :
    i * sfsDirentrySize < 2 ^ 41 ∧ i * sfsDirentrySize % 512 + 64 ≤ 512 := by
  have hle := nentries_le h
  have hmax : sfsMaxsize < 2 ^ 40 := by decide
  unfold sfsDirentrySize at *
  omega

theorem sfsReaddir_spec (hw : w.Writes) (h : Ordered w s) (hsv : s.vnodeOf sfsRootdirIno = some sv)
    (hi : i < s.nentries) :
    wp (sfsReaddir w sfsRootdirIno i) (fun d s' => Later s s' ∧ d = s.entry i) (Denied w s) s := by
  obtain ⟨hpos, hlen⟩ := slot_place h (Nat.le_of_lt hi)
  have hzeros : (List.replicate sfsDirentrySize (0 : UInt8)).length = 64 := List.length_replicate
  rw [sfsReaddir, wp_bind]
  refine wp_mono ?_ (fun _ _ h => h) (sfsMetaio_read hw h.sound hsv hpos (hzeros.symm ▸ hlen))
  rintro l s' ⟨hlater, rfl⟩
  rw [wp_pure, hzeros]
  exact ⟨hlater, rfl⟩

/-- A slot that is written. -/
structure SlotSet (w : World) (s : SfsFs) (i : ℕ) (d : SfsDirentry) (s' : SfsFs) : Prop where
  sound : Sound w s.Live s'
  entry : ∀ j, s'.entry j = if j = i then d else s.entry j
  nentries : s'.nentries = max s.nentries (i + 1)
  rootSize : s'.fileSize sfsRootdirIno % sfsDirentrySize = 0
  rootMax : s'.fileSize sfsRootdirIno ≤ sfsMaxsize
  bytes : ∀ ino, s.Live ino → ino ≠ sfsRootdirIno → s'.byteAt ino = s.byteAt ino
  others : ∀ ino, s.Live ino → ino ≠ sfsRootdirIno → (s'.inodeOf ino).attrs = (s.inodeOf ino).attrs
  type : (s'.inodeOf sfsRootdirIno).sfiType = (s.inodeOf sfsRootdirIno).sfiType
  linkcount : (s'.inodeOf sfsRootdirIno).sfiLinkcount = (s.inodeOf sfsRootdirIno).sfiLinkcount
  table : s'.vnodes.map SfsVnode.face = s.vnodes.map SfsVnode.face
  fixed : SameMeta s s'
  dirty : ∀ ino, s.Dirty ino → s'.Dirty ino

theorem SfsDirentry.ofList_toList (d : SfsDirentry) : SfsDirentry.ofList d.toList = d := by
  have hsame : (fun i : Fin 64 => d.toList.getD i.1 0) = d.encode := by
    funext i
    have hlen : i.1 < d.toList.length := by
      rw [toList, List.length_ofFn]
      exact i.2
    rw [List.getD_eq_getElem _ _ hlen]
    exact List.getElem_ofFn hlen
  rw [ofList, hsame, decode_encode]

theorem Wrote.slotSet {d : SfsDirentry} (h : Ordered w s)
    (hwrote : Wrote w s.Live sfsRootdirIno (i * sfsDirentrySize) d.toList s s') :
    SlotSet w s i d s' := by
  have hlen : d.toList.length = sfsDirentrySize := List.length_ofFn
  have hroot := hwrote.bytes sfsRootdirIno live_root
  rw [if_pos rfl] at hroot
  have hsize := hwrote.size
  rw [hlen] at hsize
  refine ⟨hwrote.sound, fun j => ?_, ?_, ?_, ?_, fun ino hino hne => ?_, hwrote.others, hwrote.type,
    hwrote.linkcount, hwrote.table, hwrote.fixed, hwrote.dirty⟩
  · rw [SfsFs.entry, hroot]
    split
    · rename_i heq
      have hself := @Lib.slice_overlay _ (s.byteAt sfsRootdirIno) (i * sfsDirentrySize) d.toList
      rw [hlen] at hself
      rw [heq, hself, SfsDirentry.ofList_toList]
    · rename_i hne
      have hfar : slice (overlay (s.byteAt sfsRootdirIno) (i * sfsDirentrySize) d.toList)
          (j * sfsDirentrySize) sfsDirentrySize =
          slice (s.byteAt sfsRootdirIno) (j * sfsDirentrySize) sfsDirentrySize := by
        apply Lib.slice_congr
        intro p hp hlt
        rcases Nat.lt_or_gt_of_ne hne with hlow | hhigh
        · refine Lib.overlay_of_lt ?_
          unfold sfsDirentrySize at *
          omega
        · refine Lib.overlay_of_le ?_
          rw [hlen]
          unfold sfsDirentrySize at *
          omega
      rw [hfar, SfsFs.entry]
  · rw [SfsFs.nentries, hsize, SfsFs.nentries]
    unfold sfsDirentrySize
    omega
  · have hmod := h.rootSize
    rw [hsize]
    unfold sfsDirentrySize at *
    omega
  · have hin := hwrote.inside
    rw [hlen] at hin
    rw [hsize]
    exact max_le h.rootMax hin
  · rw [hwrote.bytes ino hino, if_neg hne]

theorem sfsWritedir_spec (hw : w.Writes) (h : Ordered w s) (hsv : s.vnodeOf sfsRootdirIno = some sv)
    (hi : i ≤ s.nentries) (d : SfsDirentry) :
    wp (sfsWritedir w sfsRootdirIno i d) (fun _ s' => SlotSet w s i d s') (Denied w s) s := by
  obtain ⟨hpos, hlen⟩ := slot_place h hi
  have hlist : d.toList.length = 64 := List.length_ofFn
  rw [sfsWritedir, wp_bind]
  refine wp_mono ?_ (fun _ _ h => h) (sfsMetaio_write hw h.sound hsv hpos (hlist.symm ▸ hlen))
  exact fun _ s' hwrote => hwrote.slotSet h

/-! ## The search -/

/-- What is known when the slots `seen` have been searched. -/
structure Searched (s : SfsFs) (name : CString) (seen : List ℕ) (r : Search) : Prop where
  found : ∀ a i, r.found = some (a, i) → i ∈ seen ∧ s.Names i a ∧ (s.entry i).name = name.1
  missing : r.found = none → ∀ i ∈ seen, ∀ a, s.Names i a → (s.entry i).name ≠ name.1
  empty : ∀ i, r.emptyslot = some i → i ∈ seen ∧ (s.entry i).sfdIno = sfsNoino

theorem findLoop_spec (hw : w.Writes) (h : Ordered w s₀) (hsv : s₀.vnodeOf sfsRootdirIno = some sv)
    (is : List ℕ) : ∀ {seen r s}, seen ++ is = List.range s₀.nentries → Later s₀ s →
    Searched s₀ name seen r →
    wp (findLoop w sfsRootdirIno name is r)
      (fun r' s' => Later s₀ s' ∧ Searched s₀ name (List.range s₀.nentries) r') (Denied w s₀) s := by
  induction is with
  | nil =>
    intro seen r s hall hlater hr
    rw [List.append_nil] at hall
    rw [findLoop, wp_pure]
    exact ⟨hlater, hall ▸ hr⟩
  | cons i is ih =>
    intro seen r s hall hlater hr
    have hnext : (seen ++ [i]) ++ is = List.range s₀.nentries := by simpa using hall
    have hi : i < s₀.nentries := by
      rw [← List.mem_range, ← hall]
      simp
    have hnotin : i ∉ seen := by
      have hnodup : (seen ++ i :: is).Nodup := hall ▸ List.nodup_range
      intro hmem
      exact (List.nodup_append.mp hnodup).2.2 i hmem i List.mem_cons_self rfl
    have hi' : i < s.nentries := hlater.sameRoot.nentries.symm ▸ hi
    rw [findLoop, wp_bind]
    refine wp_mono ?_ ?_ (sfsReaddir_spec hw (h.later hlater) ((hlater.vnodeOf _).trans hsv) hi')
    · rintro d s₁ ⟨hlater₁, rfl⟩
      have hlater' := hlater.trans hlater₁
      rw [hlater.sameRoot.entry, wp_ite]
      constructor
      · intro hfree
        refine ih hnext hlater' ⟨?_, ?_, ?_⟩
        · intro a k hk
          obtain ⟨hmem, hrest⟩ := hr.found a k hk
          exact ⟨List.mem_append_left _ hmem, hrest⟩
        · intro hnone k hk a hnames
          rcases List.mem_append.mp hk with hk | hk
          · exact hr.missing hnone k hk a hnames
          · obtain rfl := List.mem_singleton.mp hk
            exact absurd (hnames.holds.symm.trans hfree) hnames.used
        · intro k hk
          cases hk
          exact ⟨by simp, hfree⟩
      · intro hused
        have hnames : s₀.Names i (s₀.entry i).sfdIno := ⟨hi, rfl, hused⟩
        have hempty : ∀ k, r.emptyslot = some k → k ∈ seen ++ [i] ∧ (s₀.entry k).sfdIno = sfsNoino := by
          intro k hk
          obtain ⟨hmem, hfree⟩ := hr.empty k hk
          exact ⟨List.mem_append_left _ hmem, hfree⟩
        rw [wp_ite]
        constructor
        · intro hname
          rw [wp_ite]
          constructor
          · intro htwice
            obtain ⟨⟨a, k⟩, hk⟩ := Option.isSome_iff_exists.mp htwice
            obtain ⟨hmem, hnames', hname'⟩ := hr.found a k hk
            obtain rfl := h.distinct i k _ _ hnames hnames' (hname.trans hname'.symm)
            exact absurd hmem hnotin
          · intro _
            refine ih hnext hlater' ⟨?_, nofun, hempty⟩
            intro a k hk
            cases hk
            exact ⟨by simp, hnames, hname⟩
        · intro hother
          refine ih hnext hlater' ⟨?_, ?_, hempty⟩
          · intro a k hk
            obtain ⟨hmem, hrest⟩ := hr.found a k hk
            exact ⟨List.mem_append_left _ hmem, hrest⟩
          · intro hnone k hk a hnames'
            rcases List.mem_append.mp hk with hk | hk
            · exact hr.missing hnone k hk a hnames'
            · obtain rfl := List.mem_singleton.mp hk
              exact hother
    · exact fun e s₁ hdenied => hdenied.of_later h hlater

/-- What a search of the whole directory says. -/
structure Answer (s : SfsFs) (name : CString) (r : Search) : Prop where
  found : ∀ a i, r.found = some (a, i) → s.Names i a ∧ (s.entry i).name = name.1
  missing : r.found = none → ∀ a, ¬ s.Named name.1 a
  empty : ∀ i, r.emptyslot = some i → i < s.nentries ∧ (s.entry i).sfdIno = sfsNoino

theorem sfsDirFindname_spec (hw : w.Writes) (h : Ordered w s) (hsv : s.vnodeOf sfsRootdirIno = some sv)
    (name : CString) :
    wp (sfsDirFindname w sfsRootdirIno name) (fun r s' => Later s s' ∧ Answer s name r) (Denied w s) s := by
  rw [sfsDirFindname, wp_bind, wp_of_ok (sfsDirNentries_ok h hsv)]
  have hstart : Searched s name [] ⟨none, none⟩ := ⟨nofun, nofun, nofun⟩
  refine wp_mono ?_ (fun _ _ h => h) (findLoop_spec hw h hsv _ (List.nil_append _) (.refl s) hstart)
  rintro r s' ⟨hlater, hr⟩
  refine ⟨hlater, fun a i hi => (hr.found a i hi).2, ?_, ?_⟩
  · rintro hnone a ⟨i, hnames, hname⟩
    exact hr.missing hnone i (List.mem_range.mpr hnames.inside) a hnames hname
  · intro i hi
    obtain ⟨hmem, hfree⟩ := hr.empty i hi
    exact ⟨List.mem_range.mp hmem, hfree⟩

/-- A name that was not there has been put in a slot that was free. -/
structure Entered (w : World) (s : SfsFs) (name : CString) (ino : UInt32) (i : ℕ) (s' : SfsFs) :
    Prop where
  set : SlotSet w s i (.ofName ino name.1) s'
  short : name.1.length < sfsNamelen
  absent : ∀ a, ¬ s.Named name.1 a
  free : ∀ a, ¬ s.Names i a
  next : i ≤ s.nentries

theorem SlotSet.of_later {d : SfsDirentry} (hlater : Later s₀ s) (h : SlotSet w s i d s') :
    SlotSet w s₀ i d s' := by
  have hlive := hlater.live_eq
  have hentry := hlater.sameRoot.entry
  have hnentries := hlater.sameRoot.nentries
  have hfixed := SameMeta.of_later hlater
  obtain ⟨tick, rfl⟩ := hlater
  refine ⟨hlive ▸ h.sound, fun j => (h.entry j).trans ?_, hnentries ▸ h.nentries, h.rootSize, h.rootMax,
    fun ino hino => h.bytes ino (hlive.symm ▸ hino), fun ino hino => h.others ino (hlive.symm ▸ hino),
    h.type, h.linkcount, h.table, hfixed.trans h.fixed, h.dirty⟩
  rw [hentry]

theorem sfsDirLink_spec (hw : w.Writes) (h : Ordered w s) (hsv : s.vnodeOf sfsRootdirIno = some sv)
    (name : CString) (ino : UInt32) :
    wp (sfsDirLink w sfsRootdirIno name ino) (fun i s' => Entered w s name ino i s') (Denied w s) s := by
  rw [sfsDirLink, wp_bind]
  refine wp_mono ?_ (fun _ _ h => h) (sfsDirFindname_spec hw h hsv name)
  rintro r s₁ ⟨hlater, hr⟩
  have h₁ := h.later hlater
  have hsv₁ := (hlater.vnodeOf _).trans hsv
  have hdenied : ∀ n, Denied w s (.errno n) s₁ := fun n => ⟨⟨n, rfl⟩, h.sound.kept_later hlater⟩
  rw [wp_ite]
  constructor
  · intro _
    exact hdenied EEXIST
  · intro hnone
    have hmissing := hr.missing (Option.not_isSome_iff_eq_none.mp hnone)
    rw [wp_ite]
    constructor
    · intro _
      exact hdenied ENAMETOOLONG
    · intro hlong
      have hwrite : ∀ {i}, i ≤ s.nentries → (∀ a, ¬ s.Names i a) →
          wp (do sfsWritedir w sfsRootdirIno i (.ofName ino name.1); return i)
            (fun i s' => Entered w s name ino i s') (Denied w s) s₁ := by
        intro i hi hfree
        have hi₁ : i ≤ s₁.nentries := hlater.sameRoot.nentries.symm ▸ hi
        rw [wp_bind]
        refine wp_mono ?_ (fun e s' h' => h'.of_later h hlater) (sfsWritedir_spec hw h₁ hsv₁ hi₁ _)
        intro _ s' hset
        rw [wp_pure]
        exact ⟨hset.of_later hlater, Nat.not_lt.mp hlong, hmissing, hfree, hi⟩
      cases hempty : r.emptyslot with
      | some i =>
        obtain ⟨hi, hzero⟩ := hr.empty i hempty
        dsimp only
        rw [wp_bind, wp_pure]
        exact hwrite (Nat.le_of_lt hi) fun a hnames => hnames.used (hnames.holds.symm.trans hzero)
      | none =>
        dsimp only
        rw [wp_bind, wp_of_ok (sfsDirNentries_ok h₁ hsv₁), hlater.sameRoot.nentries]
        exact hwrite (Nat.le_refl _) fun a hnames => Nat.lt_irrefl _ hnames.inside

end UnionCollegeCode.OS161.Sfs
