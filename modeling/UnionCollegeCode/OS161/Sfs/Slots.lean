import UnionCollegeCode.OS161.Sfs.Search

/-!
# What a change of one slot does to the volume

A name that is put in owes its inode a link, a name that is taken out leaves one over. The inode is in
memory both times, so that it stays alive.
-/

set_option autoImplicit false

namespace UnionCollegeCode.OS161.Sfs

open Function (update)
open Lib (overlay slice)
open Lib.EState
open SfsFs

variable {w : World} {s s' s₀ s₁ : SfsFs} {ino a : UInt32} {sv : SfsVnode} {i j : ℕ} {name : CString}
  {owed : UInt32 → ℤ} {d : SfsDirentry}

namespace SlotSet

theorem names (h : SlotSet w s i d s') (hi : i ≤ s.nentries) (j : ℕ) (a : UInt32) :
    s'.Names j a ↔ if j = i then d.sfdIno = a ∧ a ≠ sfsNoino else s.Names j a := by
  have hn := h.nentries
  constructor
  · rintro ⟨hj, hino, hused⟩
    rw [h.entry] at hino
    split at hino
    · rename_i heq
      rw [if_pos heq]
      exact ⟨hino, hused⟩
    · rename_i hne
      rw [if_neg hne]
      exact ⟨by omega, hino, hused⟩
  · intro hj
    split at hj
    · rename_i heq
      refine ⟨by omega, ?_, hj.2⟩
      rw [h.entry, if_pos heq]
      exact hj.1
    · rename_i hne
      refine ⟨?_, ?_, hj.used⟩
      · have hlt := hj.inside
        omega
      · rw [h.entry, if_neg hne]
        exact hj.holds

/-- Of the inodes that are alive, none is born and none dies. -/
theorem live_eq (h : SlotSet w s i d s') (hi : i ≤ s.nentries)
    (hold : ∀ a, s.Names i a → (s.vnodeOf a).isSome)
    (hnew : d.sfdIno ≠ sfsNoino → (s.vnodeOf d.sfdIno).isSome) : s'.Live = s.Live := by
  funext a
  unfold Live
  rw [isSome_of_faces h.table]
  refine propext (or_congr_right ?_)
  by_cases hloaded : (s.vnodeOf a).isSome
  · exact iff_of_true (.inl hloaded) (.inl hloaded)
  · refine or_congr_right ?_
    constructor
    · rintro ⟨j, hj⟩
      have hj' := (h.names hi j a).mp hj
      split at hj'
      · obtain ⟨rfl, hused⟩ := hj'
        exact absurd (hnew hused) hloaded
      · exact ⟨j, hj'⟩
    · rintro ⟨j, hj⟩
      refine ⟨j, (h.names hi j a).mpr ?_⟩
      rw [if_neg]
      · exact hj
      · rintro rfl
        exact hloaded (hold a hj)

/-- Good order, if the new name can be told from the others. -/
theorem ordered (hset : SlotSet w s i d s') (h : Ordered w s) (hi : i ≤ s.nentries)
    (hold : ∀ a, s.Names i a → (s.vnodeOf a).isSome)
    (hnew : d.sfdIno ≠ sfsNoino → (s.vnodeOf d.sfdIno).isSome)
    (hroot : d.sfdIno ≠ sfsRootdirIno)
    (hname : d.sfdIno ≠ sfsNoino → ∀ j a, s.Names j a → (s.entry j).name ≠ d.name) :
    Ordered w s' := by
  have hlive := hset.live_eq hi hold hnew
  refine ⟨hlive ▸ hset.sound, ?_, counted_of_faces hset.table h.counted, hset.fixed.blocks ▸ h.small, ?_, ?_,
    hset.rootSize, hset.rootMax, ?_, ?_, ?_⟩
  · rw [inos_of_faces hset.table]
    exact h.nodup
  · rw [hset.type]
    exact h.rootType
  · rw [hset.linkcount]
    exact h.rootLinks
  · intro j hj
    have hj' := (hset.names hi j _).mp hj
    split at hj'
    · exact hroot hj'.1
    · exact h.rootUnnamed j hj'
  · intro j k a c hj hk heq
    have hj' := (hset.names hi j a).mp hj
    have hk' := (hset.names hi k c).mp hk
    rw [hset.entry, hset.entry] at heq
    by_cases hji : j = i
    · rw [if_pos hji] at hj' heq
      by_cases hki : k = i
      · rw [hji, hki]
      · rw [if_neg hki] at hk' heq
        exact absurd heq.symm (hname (hj'.1.symm ▸ hj'.2) k c hk')
    · rw [if_neg hji] at hj' heq
      by_cases hki : k = i
      · rw [if_pos hki] at hk' heq
        exact absurd heq (hname (hk'.1.symm ▸ hk'.2) j a hj')
      · rw [if_neg hki] at hk' heq
        exact h.distinct j k a c hj' hk' heq
  · intro ino hino hne
    rw [hlive] at hino
    have htype : (s'.inodeOf ino).sfiType = (s.inodeOf ino).sfiType :=
      congrArg (fun a => a.2.1) (hset.others ino hino hne)
    rw [htype]
    exact h.file ino hino hne

end SlotSet

/-! ## Counting -/

theorem links_filter (ha : a ≠ sfsNoino) (j : ℕ) :
    j ∈ (Finset.range s.nentries).filter (fun i => (s.entry i).sfdIno = a) ↔ s.Names j a := by
  rw [Finset.mem_filter, Finset.mem_range]
  exact ⟨fun h => ⟨h.1, h.2, ha⟩, fun h => ⟨h.inside, h.holds⟩⟩

theorem links_eq_zero (ha : a ≠ sfsNoino) : s.links a = 0 ↔ ∀ i, ¬ s.Names i a := by
  rw [links, Finset.card_eq_zero, Finset.eq_empty_iff_forall_notMem]
  simp only [links_filter ha]

theorem links_congr (ha : a ≠ sfsNoino) (h : ∀ j, s'.Names j a ↔ s.Names j a) : s'.links a = s.links a := by
  have hset : (Finset.range s'.nentries).filter (fun i => (s'.entry i).sfdIno = a) =
      (Finset.range s.nentries).filter fun i => (s.entry i).sfdIno = a := by
    ext j
    rw [links_filter ha, links_filter ha, h]
  exact congrArg Finset.card hset

theorem links_succ (ha : a ≠ sfsNoino) (hi : ¬ s.Names i a) (h : ∀ j, s'.Names j a ↔ j = i ∨ s.Names j a) :
    s'.links a = s.links a + 1 := by
  have hset : (Finset.range s'.nentries).filter (fun i => (s'.entry i).sfdIno = a) =
      insert i ((Finset.range s.nentries).filter fun i => (s.entry i).sfdIno = a) := by
    ext j
    rw [links_filter ha, h, Finset.mem_insert, links_filter ha]
  unfold links
  rw [hset, Finset.card_insert_of_notMem]
  rwa [links_filter ha]

/-- There are fewer names than an inode can count. -/
theorem links_lt (h : Ordered w s) (a : UInt32) : s.links a < 32768 := by
  have hcard : s.links a ≤ s.nentries := (Finset.card_filter_le _ _).trans_eq (Finset.card_range _)
  have hle : s.nentries * 64 ≤ 73216 := nentries_le h
  omega

theorem Sound.ne_noino {live : UInt32 → Prop} (h : Sound w live s) (hlive : live ino) : ino ≠ sfsNoino := by
  rintro rfl
  exact h.zero hlive

/-- The link count falls behind by one. -/
theorem Entered.linked (hin : Entered w s name ino i s') (h : Ordered w s) (hlink : Linked s owed)
    (hloaded : (s.vnodeOf ino).isSome) : Linked s' (update owed ino (owed ino - 1)) := by
  have hfree : ∀ a, ¬ s.Names i a := hin.free
  have hlive : s'.Live = s.Live := hin.set.live_eq hin.next (fun a ha => absurd ha (hfree a)) fun _ => hloaded
  intro a ha hne
  rw [hlive] at ha
  have hcount : (s'.inodeOf a).sfiLinkcount = (s.inodeOf a).sfiLinkcount :=
    congrArg (fun a => a.2.2) (hin.set.others a ha hne)
  have hold := hlink a ha hne
  have hnoino := h.sound.ne_noino ha
  rw [hcount]
  by_cases hself : a = ino
  · subst hself
    have hlinks : s'.links a = s.links a + 1 := by
      refine links_succ hnoino (hfree a) fun j => ?_
      rw [hin.set.names hin.next]
      split
      · rename_i heq
        exact iff_of_true ⟨rfl, hnoino⟩ (.inl heq)
      · rename_i hji
        exact (or_iff_right hji).symm
    rw [Function.update_self, hlinks]
    push_cast
    omega
  · have hlinks : s'.links a = s.links a := by
      refine links_congr hnoino fun j => ?_
      rw [hin.set.names hin.next]
      split
      · rename_i heq
        subst heq
        exact iff_of_false (fun hj => hself hj.1.symm) (hfree a)
      · exact .rfl
    rw [Function.update_of_ne hself, hlinks]
    exact hold

theorem Entered.ordered (hin : Entered w s name ino i s') (h : Ordered w s)
    (hloaded : (s.vnodeOf ino).isSome) (hroot : ino ≠ sfsRootdirIno) : Ordered w s' := by
  have hname : (SfsDirentry.ofName ino name.1).name = name.1 := SfsDirentry.name_ofName name.2 hin.short
  refine hin.set.ordered h hin.next (fun a ha => absurd ha (hin.free a)) (fun _ => hloaded) hroot ?_
  intro _ j a hj heq
  exact hin.absent a ⟨j, hj, heq.trans hname⟩

theorem Entered.named (hin : Entered w s name ino i s') (hno : ino ≠ sfsNoino) (n : List UInt8) (a : UInt32) :
    s'.Named n a ↔ n = name.1 ∧ a = ino ∨ s.Named n a := by
  have hname : (SfsDirentry.ofName ino name.1).name = name.1 := SfsDirentry.name_ofName name.2 hin.short
  constructor
  · rintro ⟨j, hj, hn⟩
    have hj' := (hin.set.names hin.next j a).mp hj
    rw [hin.set.entry] at hn
    split at hj'
    · rename_i heq
      rw [if_pos heq, hname] at hn
      exact .inl ⟨hn.symm, hj'.1.symm⟩
    · rename_i hne
      rw [if_neg hne] at hn
      exact .inr ⟨j, hj', hn⟩
  · rintro (⟨rfl, rfl⟩ | ⟨j, hj, hn⟩)
    · refine ⟨i, (hin.set.names hin.next i a).mpr ?_, ?_⟩
      · rw [if_pos rfl]
        exact ⟨rfl, hno⟩
      · rw [hin.set.entry, if_pos rfl, hname]
    · have hne : j ≠ i := by
        rintro rfl
        exact hin.free a hj
      refine ⟨j, (hin.set.names hin.next j a).mpr ?_, ?_⟩
      · rwa [if_neg hne]
      · rwa [hin.set.entry, if_neg hne]

/-! ## Taking a name out -/

/-- The slot of a name has been cleared. -/
structure Removed (w : World) (s : SfsFs) (i : ℕ) (s' : SfsFs) : Prop where
  set : SlotSet w s i (.ofName sfsNoino []) s'

theorem sfsDirUnlink_spec (hw : w.Writes) (h : Ordered w s) (hsv : s.vnodeOf sfsRootdirIno = some sv)
    (hi : i < s.nentries) :
    wp (sfsDirUnlink w sfsRootdirIno i) (fun _ s' => Removed w s i s') (Denied w s) s :=
  wp_mono (fun _ _ h => ⟨h⟩) (fun _ _ h => h) (sfsWritedir_spec hw h hsv (Nat.le_of_lt hi) _)

theorem Removed.names (hout : Removed w s i s') (hi : i < s.nentries) (j : ℕ) (a : UInt32) :
    s'.Names j a ↔ j ≠ i ∧ s.Names j a := by
  rw [hout.set.names (Nat.le_of_lt hi)]
  split
  · rename_i heq
    exact iff_of_false (fun h => h.2 h.1.symm) (fun h => h.1 heq)
  · rename_i hne
    exact (and_iff_right hne).symm

theorem Removed.live_eq (hout : Removed w s i s') (hnames : s.Names i ino)
    (hloaded : (s.vnodeOf ino).isSome) : s'.Live = s.Live := by
  refine hout.set.live_eq (Nat.le_of_lt hnames.inside) (fun a ha => ?_) (fun hne => absurd rfl hne)
  obtain rfl : a = ino := ha.holds.symm.trans hnames.holds
  exact hloaded

theorem Removed.ordered (hout : Removed w s i s') (h : Ordered w s) (hnames : s.Names i ino)
    (hloaded : (s.vnodeOf ino).isSome) : Ordered w s' := by
  refine hout.set.ordered h (Nat.le_of_lt hnames.inside) (fun a ha => ?_) (fun hne => absurd rfl hne)
    (by decide) (fun hne => absurd rfl hne)
  obtain rfl : a = ino := ha.holds.symm.trans hnames.holds
  exact hloaded

/-- The link count is ahead by one. -/
theorem Removed.linked (hout : Removed w s i s') (h : Ordered w s) (hlink : Linked s owed)
    (hnames : s.Names i ino) (hloaded : (s.vnodeOf ino).isSome) :
    Linked s' (update owed ino (owed ino + 1)) := by
  intro a ha hne
  rw [hout.live_eq hnames hloaded] at ha
  have hcount : (s'.inodeOf a).sfiLinkcount = (s.inodeOf a).sfiLinkcount :=
    congrArg (fun a => a.2.2) (hout.set.others a ha hne)
  have hold := hlink a ha hne
  have hnoino := h.sound.ne_noino ha
  rw [hcount]
  by_cases hself : a = ino
  · subst hself
    have hlinks : s.links a = s'.links a + 1 := by
      refine links_succ (i := i) hnoino ?_ fun j => ?_
      · rw [hout.names hnames.inside]
        exact fun hj => hj.1 rfl
      · rw [hout.names hnames.inside]
        by_cases hji : j = i
        · exact iff_of_true (hji ▸ hnames) (.inl hji)
        · simp [hji]
    rw [Function.update_self]
    omega
  · have hlinks : s'.links a = s.links a := by
      refine links_congr hnoino fun j => ?_
      rw [hout.names hnames.inside]
      refine and_iff_right_of_imp fun hj => ?_
      rintro rfl
      exact hself (hj.holds.symm.trans hnames.holds)
    rw [Function.update_of_ne hself, hlinks]
    exact hold

theorem Removed.named (hout : Removed w s i s') (h : Ordered w s) (hnames : s.Names i ino)
    (hname : (s.entry i).name = name.1) (n : List UInt8) (a : UInt32) :
    s'.Named n a ↔ n ≠ name.1 ∧ s.Named n a := by
  constructor
  · rintro ⟨j, hj, hn⟩
    obtain ⟨hne, hj'⟩ := (hout.names hnames.inside j a).mp hj
    rw [hout.set.entry, if_neg hne] at hn
    refine ⟨fun heq => hne ?_, j, hj', hn⟩
    exact h.distinct j i a ino hj' hnames (hn.trans (heq.trans hname.symm))
  · rintro ⟨hother, j, hj, hn⟩
    have hne : j ≠ i := by
      rintro rfl
      exact hother (hn.symm.trans hname)
    refine ⟨j, (hout.names hnames.inside j a).mpr ⟨hne, hj⟩, ?_⟩
    rwa [hout.set.entry, if_neg hne]

end UnionCollegeCode.OS161.Sfs
