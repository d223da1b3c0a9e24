import Mtfss.System.DiskRules
import Mathlib.Data.Option.Basic

/-! Disks that are alike in some directories and on the way to them. -/

namespace Mtfss

open Paths

namespace Disk

/-- What is in the directories `Q` is the same, and so are the files on the way to them. -/
structure SameIn (Q : Set Loc) (d e : Disk) : Prop where
  below : ∀ q ∈ Q, ∀ m, q <+: m → d.node m = e.node m
  above : ∀ q ∈ Q, ∀ m, m <+: q → d.content m = e.content m
  root : ∀ q ∈ Q, d.node (q.take 1) = e.node (q.take 1)
  denied : d.denied = e.denied

def EntryIn (Q : Set Loc) (l : Loc) : Prop := ∃ D ∈ Q, ∃ name, l = D ++ [name]

/-- No directory of the one is in a directory of the other. -/
def Separate (P Q : Set Loc) : Prop := ∀ p ∈ P, ∀ q ∈ Q, ¬ p <+: q ∧ ¬ q <+: p

variable {P Q : Set Loc} {d d' d'' e e' : Disk} {l m p q D : Loc} {x : Option Node}

lemma SameIn.refl (d : Disk) : d.SameIn Q d :=
  ⟨fun _ _ _ _ => rfl, fun _ _ _ _ => rfl, fun _ _ => rfl, rfl⟩

lemma SameIn.symm (h : d.SameIn Q e) : e.SameIn Q d where
  below q hq m hm := (h.below q hq m hm).symm
  above q hq m hm := (h.above q hq m hm).symm
  root q hq := (h.root q hq).symm
  denied := h.denied.symm

lemma SameIn.trans (h : d.SameIn Q d') (h' : d'.SameIn Q d'') : d.SameIn Q d'' where
  below q hq m hm := (h.below q hq m hm).trans (h'.below q hq m hm)
  above q hq m hm := (h.above q hq m hm).trans (h'.above q hq m hm)
  root q hq := (h.root q hq).trans (h'.root q hq)
  denied := h.denied.trans h'.denied

lemma content_congr (h : d.node m = e.node m) : d.content m = e.content m := by
  rw [Disk.content, Disk.content, h]

lemma rename_self (h : d.node p ≠ none) : d.rename p p = some d := if_pos ⟨rfl, h⟩

lemma rename_self_none (h : d.node p = none) : d.rename p p = none := by
  unfold rename
  rw [if_neg (fun hp => hp.2 h), dif_neg (fun hm => hm.source h)]

section Aside

lemma Separate.below (hPQ : Separate P Q) (hp : p ∈ P) (hq : q ∈ Q)
    (hpm : p <+: m) : ¬ q <+: m := by
  intro hqm
  rcases List.prefix_or_prefix_of_prefix hpm hqm with h | h
  · exact (hPQ p hp q hq).1 h
  · exact (hPQ p hp q hq).2 h

lemma Separate.not_entryIn (hPQ : Separate P Q) (hl : EntryIn P l) : ¬ EntryIn Q l := by
  obtain ⟨D, hD, name, rfl⟩ := hl
  rintro ⟨q, hq, name', heq⟩
  have hDq : D = q := (List.append_inj' heq rfl).1
  exact (hPQ D hD q hq).1 (hDq ▸ List.prefix_rfl)

lemma EntryIn.below (h : EntryIn P l) : ∃ p ∈ P, p <+: l := by
  obtain ⟨D, hD, name, rfl⟩ := h
  exact ⟨D, hD, List.prefix_append _ _⟩

lemma sameIn_of_off (hPQ : Separate P Q) (hnode : ∀ m, (∀ p ∈ P, ¬ p <+: m) → d'.node m = d.node m)
    (hdenied : d'.denied = d.denied) : d'.SameIn Q d where
  below _ hq m hm := hnode m (fun _ hp hpm => hPQ.below hp hq hpm hm)
  above q hq m hm := content_congr (hnode m (fun p hp hpm => (hPQ p hp q hq).1 (hpm.trans hm)))
  root q hq := hnode _ (fun p hp hpm => (hPQ p hp q hq).1 (hpm.trans (List.take_prefix 1 q)))
  denied := hdenied

lemma Sets.sameIn (h : d.Sets d' l x) (hl : EntryIn P l) (hPQ : Separate P Q) : d'.SameIn Q d := by
  obtain ⟨p, hp, hpl⟩ := hl.below
  refine sameIn_of_off hPQ (fun m hm => h.off ?_) h.denied
  rintro rfl
  exact hm p hp hpl

lemma modify_sameIn (f : Bytes → Bytes) (hl : EntryIn P l) (hPQ : Separate P Q) :
    (d.modify l f).SameIn Q d := by
  obtain ⟨p, hp, hpl⟩ := hl.below
  refine sameIn_of_off hPQ (fun m hm => if_neg ?_) rfl
  rintro rfl
  exact hm p hp hpl

lemma rename_sameIn (h : d.rename l m = some d') (hl : EntryIn P l) (hm : EntryIn P m)
    (hPQ : Separate P Q) : d'.SameIn Q d := by
  obtain ⟨p, hp, hpl⟩ := hl.below
  obtain ⟨q, hq, hqm⟩ := hm.below
  by_cases hlm : l = m
  · subst hlm
    by_cases hn : d.node l = none
    · cases h.symm.trans (rename_self_none hn)
    · cases h.symm.trans (rename_self hn)
      exact .refl _
  · obtain ⟨-, hmoves⟩ := rename_moves hlm h
    refine sameIn_of_off hPQ (fun k hk => ?_) hmoves.denied
    have hkl : ¬ l <+: k := fun h => hk p hp (hpl.trans h)
    have hkm : ¬ m <+: k := fun h => hk q hq (hqm.trans h)
    rw [hmoves.node, movedNode, if_neg hkm, if_neg hkl]

lemma createDirectories_sameIn (h : d.createDirectories p = some d') (hp : p ∈ P)
    (hPQ : Separate P Q) : d'.SameIn Q d := by
  have hadds := createDirectories_adds h
  have hroot : d.node (p.take 1) = some .dir := by
    by_contra hno
    cases h.symm.trans (createDirectories_none_iff.mpr (Or.inl hno))
  refine ⟨fun q hq m hm => hadds.off (fun hmp => (hPQ p hp q hq).2 (hm.trans hmp)),
    fun q _ m _ => hadds.content m, fun q _ => ?_, hadds.denied⟩
  rcases hadds.node (q.take 1) with h | ⟨hne, hpre, hnone, -⟩
  · exact h
  -- what is not empty and leads to `p` is its root, which exists
  have hlen : (q.take 1).length = 1 := by
    have := List.length_pos_of_ne_nil hne
    have := List.length_take_le 1 q
    omega
  have heq : q.take 1 = p.take 1 := by
    have := List.prefix_iff_eq_take.mp hpre
    rwa [hlen] at this
  rw [heq, hroot] at hnone
  cases hnone

end Aside

section Alike

lemma SameIn.node (h : d.SameIn Q e) (hl : EntryIn Q l) : d.node l = e.node l := by
  obtain ⟨D, hD, name, rfl⟩ := hl
  exact h.below D hD _ (List.prefix_append _ _)

lemma SameIn.node_append (h : d.SameIn Q e) (hl : EntryIn Q l) (m : Loc) :
    d.node (l ++ m) = e.node (l ++ m) := by
  obtain ⟨D, hD, name, rfl⟩ := hl
  exact h.below D hD _ (List.append_assoc .. ▸ List.prefix_append _ _)

lemma SameIn.parentIsDir (h : d.SameIn Q e) (hl : EntryIn Q l) :
    d.parentIsDir l = e.parentIsDir l := by
  obtain ⟨D, hD, name, rfl⟩ := hl
  simp [Disk.parentIsDir, isDir, h.below D hD D List.prefix_rfl]

lemma SameIn.content (h : d.SameIn Q e) (hl : EntryIn Q l) : d.content l = e.content l :=
  content_congr (h.node hl)

lemma SameIn.isRegularFile (h : d.SameIn Q e) (hl : EntryIn Q l) :
    d.isRegularFile l = e.isRegularFile l := by
  rw [Disk.isRegularFile, Disk.isRegularFile, h.content hl]

lemma SameIn.canRead (h : d.SameIn Q e) (hl : EntryIn Q l) : d.canRead l = e.canRead l := by
  rw [Disk.canRead, Disk.canRead, h.isRegularFile hl, h.denied]

lemma SameIn.of_nodes (h : d.SameIn Q e)
    (hnode : ∀ m, d.node m = e.node m → d'.node m = e'.node m)
    (hcontent : ∀ m, d.content m = e.content m → d'.content m = e'.content m)
    (hd : d'.denied = d.denied) (he : e'.denied = e.denied) : d'.SameIn Q e' where
  below q hq m hm := hnode m (h.below q hq m hm)
  above q hq m hm := hcontent m (h.above q hq m hm)
  root q hq := hnode _ (h.root q hq)
  denied := by rw [hd, he, h.denied]

lemma SameIn.sets (h : d.SameIn Q e) (hd : d.Sets d' l x) (he : e.Sets e' l x) :
    d'.SameIn Q e' := by
  refine h.of_nodes (fun m hm => ?_) (fun m hm => ?_) hd.denied he.denied
  · rw [hd.node, he.node, hm]
  · by_cases hml : m = l
    · subst hml
      exact content_congr (hd.at.trans he.at.symm)
    · rw [hd.content hml, he.content hml, hm]

lemma SameIn.modify (h : d.SameIn Q e) (hl : EntryIn Q l) (f : Bytes → Bytes) :
    (d.modify l f).SameIn Q (e.modify l f) := by
  refine h.of_nodes (fun m hm => ?_) (fun m hm => ?_) rfl rfl
  · simp only [Disk.modify, hm]
  · by_cases hml : m = l
    · subst hml
      refine content_congr ?_
      simp only [Disk.modify, h.node hl]
    · have hoff : ∀ x : Disk, (x.modify l f).content m = x.content m := fun x =>
        content_congr (if_neg hml)
      rw [hoff, hoff, hm]

lemma SameIn.openOut (h : d.SameIn Q e) (hl : EntryIn Q l) :
    Option.Rel (SameIn Q) (d.openOut l) (e.openOut l) := by
  have hsome : (d.openOut l).isSome ↔ (e.openOut l).isSome := by
    rw [openOut_isSome_iff, openOut_isSome_iff, h.parentIsDir hl, h.node hl, h.denied]
  cases hd : d.openOut l with
  | none =>
    cases he : e.openOut l with
    | none => exact .none
    | some e' => simp [hd, he] at hsome
  | some d' =>
    cases he : e.openOut l with
    | none => simp [hd, he] at hsome
    | some e' => exact .some (h.sets (openOut_sets hd) (openOut_sets he))

lemma remove_dir (h : d.node l = some .dir) (hl : l ≠ []) :
    ((∀ name, d.node (l ++ [name]) = none) ∧ ∃ d', d.remove l = some (true, d') ∧
      d.Sets d' l none) ∨ (¬ (∀ name, d.node (l ++ [name]) = none) ∧ d.remove l = none) := by
  by_cases hempty : d.isEmptyDir l = true
  · have hnames := (d.isEmptyDir_iff hl).mp hempty
    refine Or.inl ⟨hnames, d.erase l hnames, ?_, erase_sets hnames⟩
    unfold remove
    split <;> simp_all
  · refine Or.inr ⟨fun hnames => hempty ((d.isEmptyDir_iff hl).mpr hnames), ?_⟩
    unfold remove
    split <;> simp_all

lemma SameIn.remove (h : d.SameIn Q e) (hl : EntryIn Q l) :
    Option.Rel (fun x y => x.1 = y.1 ∧ x.2.SameIn Q y.2) (d.remove l) (e.remove l) := by
  have hne : l ≠ [] := by
    obtain ⟨D, -, name, rfl⟩ := hl
    simp
  have hnode := h.node hl
  cases hn : d.node l with
  | none =>
    rw [remove_none hn, remove_none (hnode.symm.trans hn)]
    exact .some ⟨rfl, h⟩
  | some n =>
    cases n with
    | file c =>
      obtain ⟨d', hd, hds⟩ := remove_file hn
      obtain ⟨e', he, hes⟩ := remove_file (hnode.symm.trans hn)
      rw [hd, he]
      exact .some ⟨rfl, h.sets hds hes⟩
    | dir =>
      have hempty : (∀ name, d.node (l ++ [name]) = none) ↔
          ∀ name, e.node (l ++ [name]) = none := by
        simp only [h.node_append hl]
      rcases remove_dir hn hne with ⟨hd, d', hrd, hds⟩ | ⟨hd, hrd⟩ <;>
        rcases remove_dir (hnode.symm.trans hn) hne with ⟨he, e', hre, hes⟩ | ⟨he, hre⟩
      · rw [hrd, hre]
        exact .some ⟨rfl, h.sets hds hes⟩
      · exact (he (hempty.mp hd)).elim
      · exact (hd (hempty.mpr he)).elim
      · rw [hrd, hre]
        exact .none

lemma SameIn.canMove (h : d.SameIn Q e) (hp : EntryIn Q p) (hq : EntryIn Q q) (hm : d.CanMove p q) :
    e.CanMove p q where
  source := h.node hp ▸ hm.source
  parent := h.parentIsDir hq ▸ hm.parent
  apart := hm.apart
  target := by
    rw [← h.node hq, ← h.isRegularFile hq, ← h.isRegularFile hp]
    exact hm.target

lemma SameIn.moves (h : d.SameIn Q e) (hp : EntryIn Q p) (hd : d.Moves d' p q)
    (he : e.Moves e' p q) : d'.SameIn Q e' := by
  have hmoved : ∀ m, q <+: m ∨ p <+: m → d'.node m = e'.node m := by
    intro m hm
    rw [hd.node, he.node, movedNode, movedNode]
    split
    · exact h.node_append hp _
    · rename_i hqm
      have hpm := hm.resolve_left hqm
      rw [if_pos hpm, if_pos hpm]
  have hstays : ∀ m, ¬ (q <+: m ∨ p <+: m) → d'.node m = d.node m ∧ e'.node m = e.node m := by
    intro m hm
    obtain ⟨hqm, hpm⟩ := not_or.mp hm
    rw [hd.node, he.node, movedNode, movedNode, if_neg hqm, if_neg hpm, if_neg hqm, if_neg hpm]
    exact ⟨rfl, rfl⟩
  refine h.of_nodes (fun m hm => ?_) (fun m hm => ?_) hd.denied he.denied
  · by_cases hin : q <+: m ∨ p <+: m
    · exact hmoved m hin
    · rw [(hstays m hin).1, (hstays m hin).2, hm]
  · by_cases hin : q <+: m ∨ p <+: m
    · exact content_congr (hmoved m hin)
    · rw [content_congr (hstays m hin).1, content_congr (hstays m hin).2, hm]

lemma rename_isSome_iff (hpq : p ≠ q) : (d.rename p q).isSome ↔ d.CanMove p q := by
  unfold rename
  rw [if_neg (fun hp => hpq hp.1)]
  split <;> simp_all

lemma SameIn.rename (h : d.SameIn Q e) (hp : EntryIn Q p) (hq : EntryIn Q q) :
    Option.Rel (SameIn Q) (d.rename p q) (e.rename p q) := by
  by_cases hpq : p = q
  · subst hpq
    by_cases hn : d.node p = none
    · rw [rename_self_none hn, rename_self_none ((h.node hp).symm.trans hn)]
      exact .none
    · rw [rename_self hn, rename_self (h.node hp ▸ hn)]
      exact .some h
  · have hsome : (d.rename p q).isSome ↔ (e.rename p q).isSome := by
      rw [rename_isSome_iff hpq, rename_isSome_iff hpq]
      exact ⟨h.canMove hp hq, h.symm.canMove hp hq⟩
    cases hd : d.rename p q with
    | none =>
      cases he : e.rename p q with
      | none => exact .none
      | some e' => simp [hd, he] at hsome
    | some d' =>
      cases he : e.rename p q with
      | none => simp [hd, he] at hsome
      | some e' => exact .some (h.moves hp (rename_moves hpq hd).2 (rename_moves hpq he).2)

lemma createDirectories_node (h : d.createDirectories l = some d') (m : Loc) :
    d'.node m = if m ≠ [] ∧ m <+: l then some .dir else d.node m := by
  unfold createDirectories at h
  split at h
  · cases h
    rfl
  · cases h

lemma SameIn.createDirectories (h : d.SameIn Q e) (hD : D ∈ Q) :
    Option.Rel (SameIn Q) (d.createDirectories D) (e.createDirectories D) := by
  have hnone : d.createDirectories D = none ↔ e.createDirectories D = none := by
    have hregular : ∀ n, d.isRegularFile (D.take n) = e.isRegularFile (D.take n) := fun n => by
      rw [Disk.isRegularFile, Disk.isRegularFile, h.above D hD _ (List.take_prefix n D)]
    simp only [createDirectories_none_iff, h.root D hD, hregular]
  cases hd : d.createDirectories D with
  | none =>
    rw [hnone.mp hd]
    exact .none
  | some d' =>
    cases he : e.createDirectories D with
    | none => cases hd.symm.trans (hnone.mpr he)
    | some e' =>
      refine .some (h.of_nodes (fun m hm => ?_) (fun m hm => ?_) (createDirectories_adds hd).denied
        (createDirectories_adds he).denied)
      · rw [createDirectories_node hd, createDirectories_node he, hm]
      · rw [(createDirectories_adds hd).content, (createDirectories_adds he).content, hm]

end Alike

end Disk

end Mtfss
