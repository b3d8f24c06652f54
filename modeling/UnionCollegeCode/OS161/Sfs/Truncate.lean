import UnionCollegeCode.OS161.Sfs.Mapping

/-!
# What `sfs_itrunc` throws away

The loop over the direct blocks discards those from `blocklen` on, the loop over the indirect block
those past `blocklen`: the block numbered `blocklen` stays where it is when it is an indirect one.
-/

set_option autoImplicit false

namespace UnionCollegeCode.OS161.Sfs

open Function (update)
open Lib (Accounted)
open Lib.EState
open SfsFs

variable {w : World} {live : UInt32 → Prop} {s s' s₁ s₂ : SfsFs} {ino b : UInt32} {sv : SfsVnode}
  {gone gone' : Part → Prop}

/-- Some slots of an inode have been emptied. -/
structure Cut (live : UInt32 → Prop) (ino : UInt32) (gone : Part → Prop) (s s' : SfsFs) : Prop where
  zero : ∀ p, gone p → s'.part ino p = 0
  kept : ∀ ino', live ino' → ∀ p, ino' ≠ ino ∨ ¬ gone p → s'.part ino' p = s.part ino' p
  data : ∀ ino', live ino' → ∀ p : Part, p.IsData → ino' ≠ ino ∨ ¬ gone p → s.part ino' p ≠ 0 →
    s'.disk (s.part ino' p).toNat = s.disk (s.part ino' p).toNat
  attrs : ∀ ino', live ino' → (s'.inodeOf ino').attrs = (s.inodeOf ino').attrs
  table : s'.vnodes.map SfsVnode.face = s.vnodes.map SfsVnode.face
  fixed : SameMeta s s'

theorem Cut.of_later (hlater : Later s s') (hgone : ∀ p, gone p → s.part ino p = 0) :
    Cut live ino gone s s' := by
  have hfixed := SameMeta.of_later hlater
  obtain ⟨tick, rfl⟩ := hlater
  exact ⟨hgone, fun _ _ _ _ => rfl, fun _ _ _ _ _ _ => rfl, fun _ _ => rfl, rfl, hfixed⟩

theorem Cut.trans (h : Cut live ino gone s s₁) (h' : Cut live ino gone' s₁ s₂) (hlive : live ino) :
    Cut live ino (fun p => gone p ∨ gone' p) s s₂ := by
  refine ⟨?_, ?_, ?_, ?_, h'.table.trans h.table, h.fixed.trans h'.fixed⟩
  · intro p hp
    by_cases hp' : gone' p
    · exact h'.zero p hp'
    · rw [h'.kept ino hlive p (.inr hp')]
      exact h.zero p (hp.resolve_right hp')
  · intro ino' hlive' p hp
    rw [h'.kept ino' hlive' p (hp.imp_right fun hnot hg => hnot (.inr hg)),
      h.kept ino' hlive' p (hp.imp_right fun hnot hg => hnot (.inl hg))]
  · intro ino' hlive' p hdata hp hne
    have hfirst : ino' ≠ ino ∨ ¬ gone p := hp.imp_right fun hnot hg => hnot (.inl hg)
    have hpart := h.kept ino' hlive' p hfirst
    rw [← h.data ino' hlive' p hdata hfirst hne, ← hpart]
    exact h'.data ino' hlive' p hdata (hp.imp_right fun hnot hg => hnot (.inr hg)) (hpart ▸ hne)
  · exact fun ino' hlive' => (h'.attrs ino' hlive').trans (h.attrs ino' hlive')

theorem Cut.congr (h : Cut live ino gone s s') (heq : ∀ p, gone' p ↔ gone p) :
    Cut live ino gone' s s' := by
  have hsame : gone' = gone := funext fun p => propext (heq p)
  exact hsame ▸ h

/-- A cut is sound when the free map has lost exactly the blocks of the slots. -/
theorem Sound.of_cut (h : Sound w live s) (hcut : Cut live ino gone s s') (hlive : live ino)
    (hset : ∀ i, s'.freemap.isSet i ↔
      (∀ p, gone p → s.part ino p ≠ 0 → (s.part ino p).toNat ≠ i) ∧ s.freemap.isSet i)
    (hnbits : s'.freemap.nbits = s.freemap.nbits) (hsynced : Synced s') : Sound w live s' := by
  have hused : ∀ v, (∃ p, gone p ∧ s.part ino p = v ∧ v ≠ 0) → s.Used v := by
    rintro v ⟨p, -, hp, hne⟩
    exact h.accounted.used_of_holds (x := (ino, p)) ⟨hlive, hp, hne⟩
  refine h.give_slots hused ?_ ?_ hnbits hcut.fixed.blocks (inos_of_faces hcut.table) hsynced
  · intro ino' hlive' p v hne
    by_cases hgone : ino' = ino ∧ gone p
    · obtain ⟨rfl, hgone⟩ := hgone
      rw [hcut.zero p hgone]
      constructor
      · intro hv
        exact absurd hv.symm hne
      · rintro ⟨hkeep, hp⟩
        exact absurd ⟨p, hgone, hp, hne⟩ hkeep
    · rw [hcut.kept ino' hlive' p (not_and_or.mp hgone)]
      constructor
      · intro hp
        refine ⟨?_, hp⟩
        rintro ⟨q, hq, hqv, -⟩
        have hslot := h.accounted.alone (ino', p) (ino, q) v ⟨hlive', hp, hne⟩ ⟨hlive, hqv, hne⟩
        cases hslot
        exact hgone ⟨rfl, hq⟩
      · exact And.right
  · intro i
    rw [hset]
    refine and_congr_left fun _ => ?_
    constructor
    · rintro hfree v ⟨p, hp, rfl, hne⟩
      exact hfree p hp hne
    · intro hfree p hp hne
      exact hfree _ ⟨p, hp, rfl, hne⟩

/-! ## The direct blocks -/

theorem sfsBfree_ok (hset : s.freemap.isSet b.toNat) (hlt : b.toNat < s.freemap.nbits) :
    sfsBfree b s = .ok ⟨⟩ { s with freemap := s.freemap.unmark b.toNat, freemapdirty := true } := by
  have hrun : onFreemap (Bitmap.bitmapUnmark b.toNat) s =
      .ok ⟨⟩ { s with freemap := s.freemap.unmark b.toNat } := by
    rw [onFreemap, zoom, Bitmap.bitmapUnmark_spec hlt hset]
  rw [sfsBfree, bind_ok hrun, modify_ok]

/-- A block leaves its direct slot. -/
theorem Sound.cut_direct (h : Sound w live s) (hsv : s.vnodeOf ino = some sv) (i : Fin 15)
    (hb : s.part ino (.direct i) = b) (hne : b ≠ 0)
    (hs₁ : s₁ = { s with freemap := s.freemap.unmark b.toNat, freemapdirty := true })
    (hs₂ : s₂ = s₁.setInode ino fun d => { d with sfiDirect := update d.sfiDirect i 0 }) :
    Sound w live s₂ ∧ Cut live ino (· = .direct i) s s₂ := by
  have hlive := h.live_of_vnodeOf hsv
  have hsv₁ : s₁.vnodeOf ino = some sv := hs₁ ▸ hsv
  have hpart₁ : ∀ ino' p, s₁.part ino' p = s.part ino' p := fun _ _ => hs₁ ▸ rfl
  have hcut : Cut live ino (· = .direct i) s s₂ := by
    refine ⟨?_, ?_, ?_, ?_, ?_, ?_⟩
    · rintro p rfl
      rw [hs₂, part_setDirect hsv₁, if_pos rfl]
    · intro ino' _ p hp
      rw [← hpart₁, hs₂]
      by_cases heq : ino' = ino
      · subst heq
        rw [part_setDirect hsv₁, if_neg (hp.resolve_left (not_not.mpr rfl))]
      · exact part_setInode_of_ne hsv₁ heq _ p
    · intro _ _ _ _ _ _
      rw [hs₂, hs₁]
      rfl
    · intro ino' _
      have hinode : s₁.inodeOf ino' = s.inodeOf ino' := hs₁ ▸ rfl
      rw [hs₂, inodeOf_setInode hsv₁, ← hinode]
      split
      · rename_i heq
        rw [heq]
        rfl
      · rfl
    · rw [hs₂, faces_setInode, hs₁]
    · rw [hs₂]
      exact (SameMeta.of_map hs₁).trans (.setInode s₁ ino _)
  have hsynced₁ : Synced s₁ := hs₁ ▸ h.synced
  refine ⟨h.of_cut hcut hlive ?_ ?_ (hs₂ ▸ hsynced₁.setInode _), hcut⟩
  · intro k
    rw [hs₂, hs₁]
    show (s.freemap.unmark b.toNat).isSet k ↔ _
    rw [Bitmap.isSet_unmark]
    refine and_congr_left fun _ => ?_
    constructor
    · rintro hk p rfl _
      rw [hb]
      exact hk.symm
    · intro hk
      exact (hb ▸ hk _ rfl (hb ▸ hne)).symm
  · rw [hs₂, hs₁]
    rfl

theorem truncDirect_spec (blocklen : ℕ) (is : List (Fin 15)) :
    ∀ {s sv}, Sound w live s → s.vnodeOf ino = some sv →
      wp (truncDirect ino blocklen is)
        (fun _ s' => Sound w live s' ∧
          Cut live ino (fun p => ∃ i ∈ is, p = .direct i ∧ blocklen ≤ i.1) s s')
        (fun _ _ => False) s := by
  induction is with
  | nil =>
    intro s sv h _
    refine ⟨h, .of_later (.refl s) ?_⟩
    rintro p ⟨i, hi, -⟩
    cases hi
  | cons i is ih =>
    intro s sv h hsv
    have hlive := h.live_of_vnodeOf hsv
    have hpart : s.part ino (.direct i) = sv.svI.sfiDirect i := by rw [part, inodeOf_loaded hsv]
    have hrest : ∀ {s₁ sv₁ gone}, Sound w live s₁ → s₁.vnodeOf ino = some sv₁ →
        Cut live ino gone s s₁ → (∀ p, gone p ↔ p = .direct i ∧ blocklen ≤ i.1) →
        wp (truncDirect ino blocklen is)
          (fun _ s' => Sound w live s' ∧
            Cut live ino (fun p => ∃ k ∈ i :: is, p = .direct k ∧ blocklen ≤ k.1) s s')
          (fun _ _ => False) s₁ := by
      intro s₁ sv₁ gone h₁ hsv₁ hcut hgone
      refine wp_mono ?_ (fun _ _ h => h) (ih h₁ hsv₁)
      rintro _ s' ⟨hsound, hcut'⟩
      refine ⟨hsound, (hcut.trans hcut' hlive).congr fun p => ?_⟩
      rw [hgone]
      simp
    rw [truncDirect, wp_bind, wp_of_ok (vnode_ok hsv), wp_ite]
    constructor
    · rintro ⟨hlen, hne⟩
      have hused : s.Used (sv.svI.sfiDirect i) :=
        h.accounted.used_of_holds (x := (ino, .direct i)) ⟨hlive, hpart, hne⟩
      have hcut := h.cut_direct hsv i hpart hne rfl rfl
      rw [wp_bind, wp_of_ok (sfsBfree_ok hused.2 (h.lt_nbits hused)), wp_bind,
        wp_of_ok (changeInode_ok _)]
      refine hrest hcut.1 (vnodeOf_modifyVnode_self (SfsVnode.changed_ino _) hsv) hcut.2 fun p => ?_
      simp [hlen]
    · intro hnot
      refine hrest h hsv (.of_later (.refl s) ?_) fun _ => .rfl
      rintro p ⟨rfl, hlen⟩
      rw [hpart]
      exact by_contra fun hne => hnot ⟨hlen, hne⟩

/-! ## The entries of the indirect block -/

/-- The entry `j` is discarded. -/
def Discards (blocklen : ℕ) (t : TruncState) (j : Fin 128) : Prop :=
  blocklen < sfsNdirect + j.1 ∧ t.idbuf j ≠ 0

/-- The entries `js` have been looked at. -/
structure Looked (blocklen : ℕ) (js : List (Fin 128)) (t : TruncState) (s : SfsFs) (t' : TruncState)
    (s' : SfsFs) : Prop where
  idbuf : ∀ j, t'.idbuf j = if j ∈ js ∧ blocklen < sfsNdirect + j.1 then 0 else t.idbuf j
  hasnonzero : t'.hasnonzero = true ↔ t.hasnonzero = true ∨ ∃ j ∈ js, t'.idbuf j ≠ 0
  iddirty : t'.iddirty = true ↔
    t.iddirty = true ∨ ∃ j ∈ js, Discards blocklen t j
  map : ∃ freemap dirty, s' = { s with freemap := freemap, freemapdirty := dirty } ∧
    freemap.nbits = s.freemap.nbits ∧
    ∀ i, freemap.isSet i ↔
      (∀ j ∈ js, Discards blocklen t j → (t.idbuf j).toNat ≠ i) ∧ s.freemap.isSet i
  fixed : SameMeta s s'

section Entries

variable {blocklen : ℕ} {j : Fin 128} {js : List (Fin 128)} {t t₁ t' : TruncState}

/-- The buffer when the entry `j` has been looked at. -/
structure Stepped (blocklen : ℕ) (j : Fin 128) (t t₁ : TruncState) : Prop where
  idbuf : ∀ k, t₁.idbuf k = if k = j ∧ blocklen < sfsNdirect + k.1 then 0 else t.idbuf k
  hasnonzero : t₁.hasnonzero = true ↔ t.hasnonzero = true ∨ t₁.idbuf j ≠ 0
  iddirty : t₁.iddirty = true ↔ t.iddirty = true ∨ Discards blocklen t j

/-- The end of the body of the loop. -/
theorem stepped_end (hidbuf : ∀ k, t₁.idbuf k = if k = j ∧ blocklen < sfsNdirect + k.1 then 0 else t.idbuf k)
    (hnonzero : t₁.hasnonzero = t.hasnonzero)
    (hdirty : t₁.iddirty = true ↔ t.iddirty = true ∨ Discards blocklen t j) :
    Stepped blocklen j t (if t₁.idbuf j ≠ 0 then { t₁ with hasnonzero := true } else t₁) := by
  split
  · rename_i hne
    exact ⟨hidbuf, by simp [hne], hdirty⟩
  · rename_i hzero
    exact ⟨hidbuf, by simp [hnonzero, not_not.mp hzero], hdirty⟩

theorem stepped_discard (hcut : Discards blocklen t j)
    (ht₁ : t₁ = { t with idbuf := update t.idbuf j 0, iddirty := true }) :
    Stepped blocklen j t (if t₁.idbuf j ≠ 0 then { t₁ with hasnonzero := true } else t₁) := by
  refine stepped_end (fun k => ?_) (ht₁ ▸ rfl) ?_
  · rw [ht₁]
    by_cases hk : k = j
    · subst hk
      simp [hcut.1]
    · simp [hk]
  · rw [ht₁]
    simp [hcut]

theorem stepped_keep (hkeep : ¬ Discards blocklen t j) :
    Stepped blocklen j t (if t.idbuf j ≠ 0 then { t with hasnonzero := true } else t) := by
  refine stepped_end (fun k => ?_) rfl (by simp [hkeep])
  split
  · rename_i hk
    obtain ⟨rfl, hlen⟩ := hk
    exact by_contra fun hne => hkeep ⟨hlen, hne⟩
  · rfl

theorem Stepped.discards (h : Stepped blocklen j t t₁) (k : Fin 128) :
    Discards blocklen t₁ k ↔ k ≠ j ∧ Discards blocklen t k := by
  unfold Discards
  rw [h.idbuf]
  by_cases hk : k = j
  · simp +contextual [hk]
  · simp [hk]

theorem Looked.cons (h : Looked blocklen js t₁ s₁ t' s') (hstep : Stepped blocklen j t t₁)
    (hmap : ∃ freemap dirty, s₁ = { s with freemap := freemap, freemapdirty := dirty } ∧
      freemap.nbits = s.freemap.nbits ∧
      ∀ i, freemap.isSet i ↔
        (Discards blocklen t j → (t.idbuf j).toNat ≠ i) ∧ s.freemap.isSet i)
    (hfixed : SameMeta s s₁) : Looked blocklen (j :: js) t s t' s' := by
  have hother : ∀ {k}, k ≠ j → t₁.idbuf k = t.idbuf k := by
    intro k hk
    rw [hstep.idbuf, if_neg (fun h => hk h.1)]
  have hself : t'.idbuf j = t₁.idbuf j := by
    rw [h.idbuf]
    split
    · rename_i hj
      rw [hstep.idbuf, if_pos ⟨rfl, hj.2⟩]
    · rfl
  refine ⟨fun k => ?_, ?_, ?_, ?_, hfixed.trans h.fixed⟩
  · rw [h.idbuf, hstep.idbuf]
    by_cases hk : k = j
    · subst hk
      by_cases hlen : blocklen < sfsNdirect + k.1 <;> simp [hlen]
    · simp [hk]
  · simp only [h.hasnonzero, hstep.hasnonzero, List.mem_cons, exists_eq_or_imp, hself, or_assoc]
  · have hdiscards : (∃ k ∈ js, Discards blocklen t₁ k) ∨ Discards blocklen t j ↔
        ∃ k ∈ j :: js, Discards blocklen t k := by
      simp only [hstep.discards, List.mem_cons, exists_eq_or_imp]
      constructor
      · rintro (⟨k, hk, -, hcut⟩ | hj)
        · exact .inr ⟨k, hk, hcut⟩
        · exact .inl hj
      · rintro (hj | ⟨k, hk, hcut⟩)
        · exact .inr hj
        · by_cases heq : k = j
          · exact .inr (heq ▸ hcut)
          · exact .inl ⟨k, hk, heq, hcut⟩
    rw [h.iddirty, hstep.iddirty, or_assoc, ← hdiscards]
    exact or_congr_right or_comm
  · obtain ⟨freemap₁, dirty₁, rfl, hnbits₁, hset₁⟩ := hmap
    obtain ⟨freemap, dirty, rfl, hnbits, hset⟩ := h.map
    refine ⟨freemap, dirty, rfl, hnbits.trans hnbits₁, fun i => ?_⟩
    rw [hset i, hset₁ i, List.forall_mem_cons]
    constructor
    · rintro ⟨hjs, hj, hs⟩
      refine ⟨⟨hj, fun k hk hcut => ?_⟩, hs⟩
      by_cases heq : k = j
      · exact heq ▸ hj (heq ▸ hcut)
      · exact hother heq ▸ hjs k hk ((hstep.discards k).mpr ⟨heq, hcut⟩)
    · rintro ⟨⟨hj, hjs⟩, hs⟩
      refine ⟨fun k hk hcut => ?_, hj, hs⟩
      obtain ⟨hne, hcut⟩ := (hstep.discards k).mp hcut
      exact (hother hne).symm ▸ hjs k hk hcut

/-- The blocks to discard are marked, each of them once. -/
structure Discardable (blocklen : ℕ) (js : List (Fin 128)) (t : TruncState) (s : SfsFs) : Prop where
  marked : ∀ k ∈ js, Discards blocklen t k →
    s.freemap.isSet (t.idbuf k).toNat ∧ (t.idbuf k).toNat < s.freemap.nbits
  distinct : ∀ k l, t.idbuf k = t.idbuf l → t.idbuf k ≠ 0 → k = l

theorem Discardable.step (h : Discardable blocklen (j :: js) t s) (hstep : Stepped blocklen j t t₁)
    (hnbits : s₁.freemap.nbits = s.freemap.nbits)
    (hset : ∀ i, s.freemap.isSet i → (Discards blocklen t j → (t.idbuf j).toNat ≠ i) →
      s₁.freemap.isSet i) : Discardable blocklen js t₁ s₁ := by
  have hsame : ∀ {k}, t₁.idbuf k ≠ 0 → t₁.idbuf k = t.idbuf k := by
    intro k hk
    rw [hstep.idbuf] at hk ⊢
    split at hk
    · exact absurd rfl hk
    · rw [if_neg ‹_›]
  constructor
  · intro k hk hcut
    obtain ⟨hne, hcut'⟩ := (hstep.discards k).mp hcut
    obtain ⟨hmarked, hlt⟩ := h.marked k (List.mem_cons_of_mem _ hk) hcut'
    rw [hsame hcut.2, hnbits]
    refine ⟨hset _ hmarked fun _ heq => hne ?_, hlt⟩
    exact (h.distinct k j (UInt32.toNat_inj.mp heq.symm) hcut'.2)
  · intro k l heq hne
    refine h.distinct k l ?_ (hsame hne ▸ hne)
    rw [← hsame hne, heq, hsame (heq ▸ hne)]

theorem truncEntries_spec (js : List (Fin 128)) :
    ∀ {t s}, Discardable blocklen js t s →
      wp (truncEntries blocklen js t) (fun t' s' => Looked blocklen js t s t' s')
        (fun _ _ => False) s := by
  induction js with
  | nil =>
    intro t s _
    exact ⟨by simp, by simp, by simp, ⟨s.freemap, s.freemapdirty, rfl, rfl, by simp⟩, .refl s⟩
  | cons j js ih =>
    intro t s h
    rw [truncEntries, wp_ite]
    constructor
    · intro hcut
      obtain ⟨hmarked, hlt⟩ := h.marked j List.mem_cons_self hcut
      rw [wp_bind, wp_of_ok (sfsBfree_ok hmarked hlt), wp_bind, wp_pure]
      have hstep := stepped_discard hcut rfl
      refine wp_mono ?_ (fun _ _ h => h) (ih (h.step hstep rfl ?_))
      · intro t' s' hlooked
        refine hlooked.cons hstep ⟨_, _, rfl, rfl, fun i => ?_⟩ (.of_map rfl)
        rw [Bitmap.isSet_unmark]
        exact and_congr_left fun _ => ⟨fun hne _ => Ne.symm hne, fun hne => Ne.symm (hne hcut)⟩
      · intro i hi hne
        exact Bitmap.isSet_unmark.mpr ⟨Ne.symm (hne hcut), hi⟩
    · intro hkeep
      rw [wp_bind, wp_pure]
      have hstep := stepped_keep hkeep
      refine wp_mono ?_ (fun _ _ h => h) (ih (h.step hstep rfl fun i hi _ => hi))
      intro t' s' hlooked
      refine hlooked.cons hstep ⟨_, _, rfl, rfl, fun i => ?_⟩ (.refl s)
      exact ⟨fun hi => ⟨fun hcut => absurd hcut hkeep, hi⟩, And.right⟩

end Entries

/-! ## The indirect block -/

section Indirect

variable {blocklen : ℕ} {t' : TruncState} {idblock : UInt32}

/-- An entry that is discarded if it holds a block. -/
def PastEnd (blocklen : ℕ) (p : Part) : Prop :=
  ∃ j : Fin 128, p = .entry j ∧ blocklen < sfsNdirect + j.1

theorem Sound.discardable (h : Sound w live s) (hlive : live ino)
    (hid : s.part ino .indirect = idblock) (hne : idblock ≠ 0) :
    Discardable blocklen (List.finRange 128) ⟨(s.disk idblock.toNat).words, false, false⟩ s := by
  have hid' : (s.inodeOf ino).sfiIndirect = idblock := hid
  have hpart : ∀ j, s.part ino (.entry j) = (s.disk idblock.toNat).words j := by
    intro j
    rw [part, hid', if_neg hne]
  constructor
  · intro k _ hcut
    have hused : s.Used ((s.disk idblock.toNat).words k) :=
      h.accounted.used_of_holds (x := (ino, .entry k)) ⟨hlive, hpart k, hcut.2⟩
    exact ⟨hused.2, h.lt_nbits hused⟩
  · intro k l heq hk
    have hslot := h.accounted.alone (ino, .entry k) (ino, .entry l) _ ⟨hlive, hpart k, hk⟩
      ⟨hlive, (hpart l).trans heq.symm, hk⟩
    cases hslot
    rfl

/-- The indirect block, and what the loop has made of the volume. -/
structure LoopDone (live : UInt32 → Prop) (s : SfsFs) (ino : UInt32) (idblock : UInt32)
    (blocklen : ℕ) (t' : TruncState) (s' : SfsFs) : Prop where
  indirect : s.part ino .indirect = idblock
  present : idblock ≠ 0
  looked : Looked blocklen (List.finRange 128) ⟨(s.disk idblock.toNat).words, false, false⟩ s t' s'

theorem LoopDone.entry (hdone : LoopDone live s ino idblock blocklen t' s') (j : Fin 128) :
    s.part ino (.entry j) = (s.disk idblock.toNat).words j := by
  have hid' : (s.inodeOf ino).sfiIndirect = idblock := hdone.indirect
  rw [part, hid', if_neg hdone.present]

theorem LoopDone.idbuf (hdone : LoopDone live s ino idblock blocklen t' s') (j : Fin 128) :
    t'.idbuf j = if blocklen < sfsNdirect + j.1 then 0 else s.part ino (.entry j) := by
  rw [hdone.looked.idbuf, hdone.entry]
  simp

/-- The blocks that the loop has unmarked. -/
theorem LoopDone.isSet (hdone : LoopDone live s ino idblock blocklen t' s') (i : ℕ) :
    s'.freemap.isSet i ↔
      (∀ p, PastEnd blocklen p → s.part ino p ≠ 0 → (s.part ino p).toNat ≠ i) ∧
        s.freemap.isSet i := by
  obtain ⟨freemap, dirty, rfl, -, hset⟩ := hdone.looked.map
  refine (hset i).trans (and_congr_left fun _ => ?_)
  constructor
  · rintro h p ⟨j, rfl, hlen⟩ hne
    rw [hdone.entry] at hne ⊢
    exact h j (List.mem_finRange j) ⟨hlen, hne⟩
  · rintro h j - ⟨hlen, hne⟩
    have hpart := h (.entry j) ⟨j, rfl, hlen⟩
    rw [hdone.entry] at hpart
    exact hpart hne

theorem LoopDone.rest (hdone : LoopDone live s ino idblock blocklen t' s') :
    s'.vnodes = s.vnodes ∧ s'.disk = s.disk ∧ s'.sbNblocks = s.sbNblocks ∧
      s'.freemap.nbits = s.freemap.nbits := by
  obtain ⟨freemap, dirty, rfl, hnbits, -⟩ := hdone.looked.map
  exact ⟨rfl, rfl, rfl, hnbits⟩

/-- The buffer goes back to the disk. -/
theorem Sound.cut_entries (h : Sound w live s) (hlive : live ino)
    (hdone : LoopDone live s ino idblock blocklen t' s') {tick : ℕ}
    (hs₂ : s₂ = { s' with disk := update s'.disk idblock.toNat (.ofWords t'.idbuf), tick := tick }) :
    Sound w live s₂ ∧ Cut live ino (PastEnd blocklen) s s₂ := by
  obtain ⟨hvnodes, hdisk, hblocks, hnbits⟩ := hdone.rest
  have hvnodes₂ : s₂.vnodes = s.vnodes := by rw [hs₂, ← hvnodes]
  have hdisk₂ : s₂.disk = update s.disk idblock.toNat (.ofWords t'.idbuf) := by rw [hs₂, ← hdisk]
  have hother := h.holder_alone hlive hdone.indirect hdone.present
  have hinode : ∀ ino', live ino' → s₂.inodeOf ino' = s.inodeOf ino' := fun ino' hlive' =>
    inodeOf_of_write hvnodes₂ hdisk₂ (.inr (hother ino' hlive' .self (by simp)))
  have hsame : ∀ ino', live ino' → ∀ p, (ino', p) ≠ (ino, .indirect) →
      s₂.disk (s.part ino' p).toNat = s.disk (s.part ino' p).toNat := by
    intro ino' hlive' p hslot
    rw [hdisk₂, Function.update_of_ne]
    exact fun heq => hother ino' hlive' p hslot (UInt32.toNat_inj.mp heq)
  have hentry : ∀ j, s₂.part ino (.entry j) = t'.idbuf j := by
    intro j
    have hid' : (s.inodeOf ino).sfiIndirect = idblock := hdone.indirect
    rw [part, hinode ino hlive, hid', if_neg hdone.present, hdisk₂, Function.update_self, words_ofWords]
  have hcut : Cut live ino (PastEnd blocklen) s s₂ := by
    refine ⟨?_, ?_, ?_, ?_, ?_, ?_⟩
    · rintro p ⟨j, rfl, hlen⟩
      rw [hentry, hdone.idbuf, if_pos hlen]
    · intro ino' hlive' p hp
      by_cases heq : ino' = ino
      · subst heq
        cases p with
        | self => rw [part, part]
        | direct i => rw [part, hinode _ hlive', part]
        | indirect => rw [part, hinode _ hlive', part]
        | entry j =>
          rw [hentry, hdone.idbuf, if_neg]
          exact fun hlen => hp.resolve_left (not_not.mpr rfl) ⟨j, rfl, hlen⟩
      · exact part_congr (hinode ino' hlive') (fun _ => hsame ino' hlive' .indirect (by simp [heq])) p
    · intro ino' hlive' p hdata _ _
      refine hsame ino' hlive' p ?_
      intro heq
      cases heq
      exact hdata
    · intro ino' hlive'
      rw [hinode ino' hlive']
    · rw [hvnodes₂]
    · have hused : s.Used idblock :=
        (hdone.indirect ▸ h.zero_or_used hlive .indirect).resolve_left hdone.present
      have hdisk' : s₂.disk = update s'.disk idblock.toNat (.ofWords t'.idbuf) := by rw [hs₂]
      exact hdone.looked.fixed.trans (.of_write (hblocks.symm ▸ hused.1) (hs₂ ▸ rfl) (hs₂ ▸ rfl) hdisk'
        (hs₂ ▸ fun h => ⟨h, rfl⟩))
  have hsynced : Synced s₂ := h.synced.of_write hvnodes₂ hdisk₂ fun sv hsv =>
    hother sv.svIno (h.loaded sv hsv) .self (by simp)
  refine ⟨h.of_cut hcut hlive (fun i => ?_) ?_ hsynced, hcut⟩
  · rw [hs₂]
    exact hdone.isSet i
  · rw [hs₂]
    exact hnbits

/-- Nothing is left in the indirect block, and it goes as well. -/
theorem Sound.cut_indirect (h : Sound w live s) (hsv : s.vnodeOf ino = some sv)
    (hdone : LoopDone live s ino idblock blocklen t' s') (hnone : ∀ j, t'.idbuf j = 0)
    (hs₁ : s₁ = { s' with freemap := s'.freemap.unmark idblock.toNat, freemapdirty := true })
    (hs₂ : s₂ = s₁.setInode ino fun d => { d with sfiIndirect := 0 }) :
    Sound w live s₂ ∧ Cut live ino (fun p => PastEnd blocklen p ∨ p = .indirect) s s₂ := by
  have hlive := h.live_of_vnodeOf hsv
  obtain ⟨hvnodes, hdisk, hblocks, hnbits⟩ := hdone.rest
  have hvnodes₁ : s₁.vnodes = s.vnodes := by rw [hs₁, ← hvnodes]
  have hdisk₁ : s₁.disk = s.disk := by rw [hs₁, ← hdisk]
  have hvnodeOf₁ : ∀ ino', s₁.vnodeOf ino' = s.vnodeOf ino' := by
    intro ino'
    rw [vnodeOf, hvnodes₁, vnodeOf]
  have hinode₁ : ∀ ino', s₁.inodeOf ino' = s.inodeOf ino' := by
    intro ino'
    rw [inodeOf, hvnodeOf₁, hdisk₁, inodeOf]
  have hsv₁ : s₁.vnodeOf ino = some sv := (hvnodeOf₁ ino).trans hsv
  have hdisk₂ : s₂.disk = s.disk := by
    rw [hs₂, ← hdisk₁]
    rfl
  have hinode₂ := inodeOf_setInode hsv₁ (fun d => { d with sfiIndirect := 0 })
  rw [← hs₂] at hinode₂
  have hself := hinode₂ ino
  rw [if_pos rfl, hinode₁] at hself
  have hcut : Cut live ino (fun p => PastEnd blocklen p ∨ p = .indirect) s s₂ := by
    refine ⟨?_, ?_, ?_, ?_, ?_, ?_⟩
    · rintro p (⟨j, rfl, hlen⟩ | rfl)
      · rw [part, hself, if_pos rfl]
      · rw [part, hself]
    · intro ino' hlive' p hp
      by_cases heq : ino' = ino
      · subst heq
        have hnot := hp.resolve_left (not_not.mpr rfl)
        cases p with
        | self => rw [part, part]
        | direct i => rw [part, hself, part]
        | indirect => exact absurd (.inr rfl) hnot
        | entry j =>
          have hentry := hdone.idbuf j
          rw [hnone, if_neg fun hlen => hnot (.inl ⟨j, rfl, hlen⟩)] at hentry
          rw [part, hself, if_pos rfl, hentry]
      · have hino : s₂.inodeOf ino' = s.inodeOf ino' := by rw [hinode₂, if_neg heq, hinode₁]
        exact part_congr hino (fun _ => congrFun hdisk₂ _) p
    · intro _ _ _ _ _ _
      rw [hdisk₂]
    · intro ino' _
      rw [hinode₂]
      split
      · rename_i heq
        rw [heq, hinode₁]
        rfl
      · rw [hinode₁]
    · rw [hs₂, faces_setInode, hvnodes₁]
    · rw [hs₂]
      exact (hdone.looked.fixed.trans (.of_map hs₁)).trans (.setInode s₁ ino _)
  have hsynced₁ : Synced s₁ := by
    intro sv' hsv' hclean
    rw [hvnodes₁] at hsv'
    rw [hdisk₁]
    exact h.synced sv' hsv' hclean
  refine ⟨h.of_cut hcut hlive (fun i => ?_) ?_ (hs₂ ▸ hsynced₁.setInode _), hcut⟩
  · rw [hs₂, hs₁]
    show (s'.freemap.unmark idblock.toNat).isSet i ↔ _
    rw [Bitmap.isSet_unmark, hdone.isSet, ← and_assoc]
    refine and_congr_left fun _ => ?_
    constructor
    · rintro ⟨hne, hfree⟩ p (hp | rfl) hpart
      · exact hfree p hp hpart
      · rw [hdone.indirect]
        exact Ne.symm hne
    · intro hfree
      refine ⟨?_, fun p hp => hfree p (.inl hp)⟩
      have hid := hfree .indirect (.inr rfl)
      rw [hdone.indirect] at hid
      exact (hid hdone.present).symm
  · rw [hs₂, hs₁]
    exact hnbits

theorem truncIndirect_spec (hw : w.Writes) (h : Sound w live s) (hsv : s.vnodeOf ino = some sv)
    (blocklen : ℕ) :
    wp (truncIndirect w ino blocklen)
      (fun _ s' => Sound w live s' ∧ (∃ gone, Cut live ino gone s s' ∧
        ∀ p : Part, p.IsData → (gone p ↔ PastEnd blocklen p)) ∧
        (blocklen < sfsNdirect → s'.part ino .indirect = 0))
      (fun e s' => (∃ n, e = .errno n) ∧ Later s s') s := by
  have hlive := h.live_of_vnodeOf hsv
  have hid : s.part ino .indirect = sv.svI.sfiIndirect := by rw [part, inodeOf_loaded hsv]
  rw [truncIndirect, wp_bind, wp_of_ok (vnode_ok hsv)]
  dsimp only
  rw [wp_ite]
  constructor
  · rintro ⟨hlow, hne⟩
    have hused : s.Used sv.svI.sfiIndirect := (hid ▸ h.zero_or_used hlive .indirect).resolve_left hne
    have hdevice := h.lt_device hused
    rw [wp_bind]
    refine wp_mono ?_ (fun _ _ h => h) (sfsReadblock_spec hdevice)
    rintro data s₁ ⟨rfl, hlater⟩
    have h₁ := h.later hlater
    obtain ⟨tick, rfl⟩ := hlater
    rw [wp_bind]
    refine wp_mono ?_ (fun _ _ h => h.elim) (truncEntries_spec _ (h₁.discardable hlive hid hne))
    intro t' s' hlooked
    have hdone : LoopDone live { s with tick := tick } ino sv.svI.sfiIndirect blocklen t' s' :=
      ⟨hid, hne, hlooked⟩
    have hstart : Cut live ino (fun _ => False) s { s with tick := tick } :=
      .of_later ⟨tick, rfl⟩ fun _ hgone => hgone.elim
    rw [wp_ite]
    constructor
    · intro hempty
      have hnone : ∀ j, t'.idbuf j = 0 := by
        intro j
        by_contra hj
        rw [hlooked.hasnonzero.mpr (.inr ⟨j, List.mem_finRange j, hj⟩)] at hempty
        cases hempty
      have hset : s'.freemap.isSet sv.svI.sfiIndirect.toNat := by
        refine (hdone.isSet _).mpr ⟨?_, hused.2⟩
        rintro p ⟨j, rfl, -⟩ - heq
        exact h.holder_alone hlive hid hne ino hlive (.entry j) (by simp) (UInt32.toNat_inj.mp heq)
      have hlt : sv.svI.sfiIndirect.toNat < s'.freemap.nbits := by
        rw [hdone.rest.2.2.2]
        exact h₁.lt_nbits hused
      rw [wp_bind, wp_of_ok (sfsBfree_ok hset hlt), wp_of_ok (changeInode_ok _)]
      obtain ⟨hsound, hcut⟩ := h₁.cut_indirect hsv hdone hnone rfl rfl
      refine ⟨hsound, ⟨_, hstart.trans hcut hlive, fun p hp => ?_⟩, fun _ => hcut.zero _ (.inr rfl)⟩
      constructor
      · rintro (hfalse | hpast | rfl)
        · exact hfalse.elim
        · exact hpast
        · exact hp.elim
      · exact fun hpast => .inr (.inl hpast)
    · intro hsome
      have hlong : ¬ blocklen < sfsNdirect := by
        intro hshort
        have hsome' := hlooked.hasnonzero.mp (Bool.eq_true_of_not_eq_false hsome)
        obtain ⟨j, hj, hne'⟩ := hsome'.resolve_left (by simp)
        refine hne' ((hlooked.idbuf j).trans (if_pos ⟨hj, ?_⟩))
        omega
      have hwrite : ∀ {tick'}, Sound w live { s' with
            disk := update s'.disk sv.svI.sfiIndirect.toNat (.ofWords t'.idbuf), tick := tick' } ∧
          ∃ gone, Cut live ino gone s { s' with
            disk := update s'.disk sv.svI.sfiIndirect.toNat (.ofWords t'.idbuf), tick := tick' } ∧
          ∀ p : Part, p.IsData → (gone p ↔ PastEnd blocklen p) := by
        intro tick'
        obtain ⟨hsound, hcut⟩ := h₁.cut_entries hlive hdone rfl
        refine ⟨hsound, _, hstart.trans hcut hlive, fun p _ => ?_⟩
        exact or_iff_right not_false
      rw [wp_ite]
      constructor
      · intro _
        obtain ⟨tick', hrun⟩ := sfsWriteblock_spec hw hdevice (.ofWords t'.idbuf) (s := s')
        rw [wp_of_ok hrun]
        exact ⟨hwrite.1, hwrite.2, fun hshort => absurd hshort hlong⟩
      · intro hclean
        -- what would have been written is what is there
        have hsame : .ofWords t'.idbuf = s'.disk sv.svI.sfiIndirect.toNat := by
          have hidbuf : t'.idbuf = (s.disk sv.svI.sfiIndirect.toNat).words := by
            funext j
            rw [hlooked.idbuf]
            split
            · rename_i hj
              by_contra hj'
              exact hclean (hlooked.iddirty.mpr (.inr ⟨j, hj.1, hj.2, Ne.symm hj'⟩))
            · rfl
          rw [hidbuf, ofWords_words, hdone.rest.2.1]
        have hkeep := @hwrite s'.tick
        rw [hsame, Function.update_eq_self] at hkeep
        exact ⟨hkeep.1, hkeep.2, fun hshort => absurd hshort hlong⟩
  · intro hnot
    have hnone : blocklen < sfsNdirect + sfsDbperidb - 1 → s.part ino .indirect = 0 :=
      fun hlow => hid.trans (by_contra fun hne => hnot ⟨hlow, hne⟩)
    refine ⟨h, ⟨PastEnd blocklen, .of_later (.refl s) ?_, fun _ _ => .rfl⟩, fun hshort => ?_⟩
    · rintro p ⟨j, rfl, hlen⟩
      have hj := j.2
      have hind : (s.inodeOf ino).sfiIndirect = 0 := hnone (by unfold sfsDbperidb; omega)
      rw [part, if_pos hind]
    · exact hnone (by unfold sfsDbperidb; omega)

end Indirect

/-! ## The whole of it -/

theorem Cut.byteAt_zero (h : Cut live ino gone s s') {pos : ℕ} {p : Part}
    (hp : partOf (pos / 512) = some p) (hgone : gone p) : s'.byteAt ino pos = 0 := by
  rw [byteAt, blockOf_of_part hp, h.zero p hgone, byteIn, if_pos rfl]

theorem Cut.byteAt_kept (h : Cut live ino gone s s') {ino' : UInt32} (hlive : live ino') {pos : ℕ}
    (hkeep : ino' ≠ ino ∨ ∀ p, partOf (pos / 512) = some p → ¬ gone p) :
    s'.byteAt ino' pos = s.byteAt ino' pos := by
  cases hp : partOf (pos / 512) with
  | none => simp only [byteAt, blockOf, hp, byteIn, if_true]
  | some p =>
    have hslot := hkeep.imp_right fun hnot => hnot p hp
    rw [byteAt, byteAt, blockOf_of_part hp, blockOf_of_part hp, h.kept ino' hlive p hslot, byteIn,
      byteIn]
    split
    · rfl
    · rename_i hne
      rw [h.data ino' hlive p (isData_partOf hp) hslot hne]

/-- The blocks of a file that the loop over the direct blocks discards. -/
def DirectPast (blocklen fileblock : ℕ) : Prop := fileblock < sfsNdirect ∧ blocklen ≤ fileblock

/-- The blocks of a file that `sfs_itrunc` discards. -/
def CutBlock (blocklen fileblock : ℕ) : Prop :=
  DirectPast blocklen fileblock ∨ sfsNdirect ≤ fileblock ∧ blocklen < fileblock

/-- Some blocks of a file are gone, and nothing else of any file has changed. -/
structure Shortened (live : UInt32 → Prop) (ino : UInt32) (cut : ℕ → Prop) (s s' : SfsFs) : Prop where
  zero : ∀ pos, cut (pos / 512) → s'.byteAt ino pos = 0
  kept : ∀ ino', live ino' → ∀ pos, ino' ≠ ino ∨ ¬ cut (pos / 512) →
    s'.byteAt ino' pos = s.byteAt ino' pos
  others : ∀ ino', live ino' → ino' ≠ ino → (s'.inodeOf ino').attrs = (s.inodeOf ino').attrs
  type : (s'.inodeOf ino).sfiType = (s.inodeOf ino).sfiType
  linkcount : (s'.inodeOf ino).sfiLinkcount = (s.inodeOf ino).sfiLinkcount
  table : s'.vnodes.map SfsVnode.face = s.vnodes.map SfsVnode.face
  fixed : SameMeta s s'

theorem Cut.shortened (h : Cut live ino gone s s') (hlive : live ino) {cut : ℕ → Prop}
    (hcut : ∀ fileblock p, partOf fileblock = some p → (cut fileblock ↔ gone p)) :
    Shortened live ino cut s s' := by
  refine ⟨fun pos hpos => ?_, fun ino' hlive' pos hpos => ?_, fun ino' hlive' _ => h.attrs ino' hlive',
    ?_, ?_, h.table, h.fixed⟩
  · cases hp : partOf (pos / 512) with
    | none => simp only [byteAt, blockOf, hp, byteIn, if_true]
    | some p => exact h.byteAt_zero hp ((hcut _ p hp).mp hpos)
  · exact h.byteAt_kept hlive' (hpos.imp_right fun hnot p hp hgone => hnot ((hcut _ p hp).mpr hgone))
  · exact congrArg (fun a => a.2.1) (h.attrs ino hlive)
  · exact congrArg (fun a => a.2.2) (h.attrs ino hlive)

theorem directPast_iff {blocklen fileblock : ℕ} {p : Part} (hp : partOf fileblock = some p) :
    DirectPast blocklen fileblock ↔ ∃ i ∈ List.finRange 15, p = .direct i ∧ blocklen ≤ i.1 := by
  unfold DirectPast
  cases p with
  | self => exact (isData_partOf hp).elim
  | indirect => exact (isData_partOf hp).elim
  | direct i =>
    rw [partOf_eq_direct hp]
    have hi : i.1 < sfsNdirect := i.2
    simp [hi]
  | entry j =>
    rw [partOf_eq_entry hp]
    simp

theorem cutBlock_iff {blocklen fileblock : ℕ} {p : Part} (hp : partOf fileblock = some p) :
    CutBlock blocklen fileblock ↔
      (∃ i ∈ List.finRange 15, p = .direct i ∧ blocklen ≤ i.1) ∨ PastEnd blocklen p := by
  rw [CutBlock, directPast_iff hp]
  refine or_congr_right ?_
  unfold PastEnd
  cases p with
  | self => exact (isData_partOf hp).elim
  | indirect => exact (isData_partOf hp).elim
  | direct i =>
    rw [partOf_eq_direct hp]
    have hi : ¬ sfsNdirect ≤ i.1 := Nat.not_le.mpr i.2
    simp [hi]
  | entry j =>
    rw [partOf_eq_entry hp]
    simp

/-- The end of `sfs_itrunc`: the size is set. -/
theorem Shortened.setSize {cut : ℕ → Prop} (h : Shortened live ino cut s s₁) (hsv : s₁.vnodeOf ino = some sv)
    (size : UInt32) :
    Shortened live ino cut s (s₁.setInode ino fun d => { d with sfiSize := size }) ∧
      ((s₁.setInode ino fun d => { d with sfiSize := size }).inodeOf ino).sfiSize = size := by
  have hinode := inodeOf_setInode hsv fun d => { d with sfiSize := size }
  have hself := hinode ino
  rw [if_pos rfl] at hself
  have hbyte := @byteAt_setAttrs s₁ ino sv hsv (fun d => { d with sfiSize := size }) fun _ => ⟨rfl, rfl⟩
  refine ⟨⟨?_, ?_, ?_, ?_, ?_, ?_, ?_⟩, ?_⟩
  · intro pos hpos
    rw [hbyte, h.zero pos hpos]
  · intro ino' hlive' pos hpos
    rw [hbyte, h.kept ino' hlive' pos hpos]
  · intro ino' hlive' hne
    rw [hinode, if_neg hne, h.others ino' hlive' hne]
  · rw [hself, ← h.type]
  · rw [hself, ← h.linkcount]
  · rw [faces_setInode, h.table]
  · exact h.fixed.trans (.setInode s₁ ino _)
  · rw [hself]

theorem sfsItrunc_spec (hw : w.Writes) (h : Sound w live s) (hsv : s.vnodeOf ino = some sv) (len : ℤ) :
    wp (sfsItrunc w ino len)
      (fun _ s' => Sound w live s' ∧ Shortened live ino (CutBlock (blocklenOf len)) s s' ∧
        (s'.inodeOf ino).sfiSize = .ofInt len ∧
        (blocklenOf len = 0 → ∀ p : Part, p ≠ .self → s'.part ino p = 0))
      (fun e s' => (∃ n, e = .errno n) ∧ Sound w live s' ∧
        Shortened live ino (DirectPast (blocklenOf len)) s s' ∧
        (s'.inodeOf ino).sfiSize = (s.inodeOf ino).sfiSize) s := by
  have hlive := h.live_of_vnodeOf hsv
  rw [sfsItrunc, wp_bind]
  refine wp_mono ?_ (fun _ _ h => h.elim) (truncDirect_spec _ _ h hsv)
  rintro _ s₁ ⟨h₁, hcut₁⟩
  obtain ⟨sv₁, hsv₁, -⟩ := vnodeOf_of_faces hcut₁.table hsv
  rw [wp_bind]
  refine wp_mono ?_ ?_ (truncIndirect_spec hw h₁ hsv₁ _)
  · rintro _ s₂ ⟨h₂, ⟨gone, hcut₂, hgone⟩, hindirect⟩
    obtain ⟨sv₂, hsv₂, -⟩ := vnodeOf_of_faces hcut₂.table hsv₁
    have hshort : Shortened live ino (CutBlock (blocklenOf len)) s s₂ :=
      (hcut₁.trans hcut₂ hlive).shortened hlive fun fileblock p hp => by
        rw [cutBlock_iff hp, hgone p (isData_partOf hp)]
    obtain ⟨hshort', hsize⟩ := hshort.setSize hsv₂ (.ofInt len)
    rw [wp_of_ok (changeInode_ok _)]
    refine ⟨h₂.setAttrs hsv₂ fun _ => ⟨rfl, rfl⟩, hshort', hsize, fun hnone p hp => ?_⟩
    have hpart := @part_setAttrs s₂ ino sv₂ hsv₂ (fun d => { d with sfiSize := .ofInt len })
      (fun _ => ⟨rfl, rfl⟩) ino p
    rw [hpart]
    have hall := (hcut₁.trans hcut₂ hlive).zero p
    cases p with
    | self => exact absurd rfl hp
    | direct i => exact hall (.inl ⟨i, List.mem_finRange i, rfl, by omega⟩)
    | indirect => exact hindirect (by rw [hnone]; decide)
    | entry j =>
      refine hall (.inr ((hgone (.entry j) trivial).mpr ⟨j, rfl, ?_⟩))
      unfold sfsNdirect
      omega
  · rintro e s₂ ⟨he, hlater⟩
    have hstill : Cut live ino (fun _ => False) s₁ s₂ := .of_later hlater nofun
    have hcut := hcut₁.trans hstill hlive
    refine ⟨he, h₁.later hlater, hcut.shortened hlive fun fileblock p hp => ?_, ?_⟩
    · rw [directPast_iff hp, or_false]
    · exact congrArg Prod.fst (hcut.attrs ino hlive)

end UnionCollegeCode.OS161.Sfs
