import Bbfs.NameTree

/-!
# What the edits do to the tree of names

A new file is a new leaf, and so is another name of an old file. A name taken
away takes what is below it along, whether the file goes or not, and a rename
moves all that is below the old name.
-/

set_option autoImplicit false

namespace Bbfs.NameViews
open Bbfs.Strings Bbfs.Files Bbfs.Resolve Bbfs.Calls Bbfs.Session Bbfs.Walks Bbfs.Effects
open Bbfs.Outcomes Bbfs.Numbers Bbfs.Directories Bbfs.DotEntries Bbfs.Tally Bbfs.Tree Bbfs.Names
open Bbfs.Placement Bbfs.Dangling Bbfs.Normal Bbfs.Listing Bbfs.PathTree Bbfs.NameTree Bbfs.Runs

variable {T : PlaceTree} {v w : View} {n k P Q i : ℕ} {ws us : List Str} {path name newname : Str}

theorem label_nlink (v : View) (i : ℕ) {g : Stat → Stat} (hg : ∀ m, (g m).stMode = m.stMode)
    (ws : List Str) : labelAt (put v i (File.setStat g)) ws = labelAt v ws := by
  apply label_frame
  intro k _
  by_cases hk : k = i
  · rw [hk, put_self, File.setStat_metadata, hg]
    exact ⟨funext fun u => child_congr (by rw [put_self, File.isDir, File.setStat_metadata, hg]; rfl)
      (by rw [put_self]; rfl),rfl⟩
  · rw [put_of_ne _ _ hk]
    exact ⟨funext fun u => child_congr (by rw [put_of_ne _ _ hk]) (by rw [put_of_ne _ _ hk]),rfl⟩

theorem label_misplaced (hd : (v P).isDir = false) (d : Dirent) (ws : List Str) :
    labelAt (put v P (File.push d)) ws = labelAt v ws := by
  apply label_frame
  intro k _
  have hdir := (Edit.push d).isDir v P
  refine ⟨funext fun u => ?_,by rw [(Edit.push d).put_metadata]⟩
  by_cases hk : k = P
  · rw [child_not_dir (by rw [hdir, hk, hd]), child_not_dir (by rw [hk, hd])]
  · exact child_congr (hdir k) (by rw [put_of_ne _ _ hk])

theorem label_leaked (hv : Orderly v n) (f : File) (ws : List Str) :
    labelAt (Function.update v n f) ws = labelAt v ws := by
  apply label_frame
  intro k hk
  have hkn : k ≠ n := fun he => hv.next_unreached (he ▸ hk)
  rw [Function.update_of_ne hkn]
  exact ⟨funext fun u => child_congr (by rw [Function.update_of_ne hkn])
    (by rw [Function.update_of_ne hkn]),rfl⟩

theorem entered_meta (hk : k ≠ n) (name : Str) (f : File) :
    (enterView v n P name f k).metadata = (v k).metadata := by
  rw [enterView, (Edit.push _).put_metadata, Function.update_of_ne hk]

theorem label_entered (hv : Orderly v n) (hP : PathTree.find 2 (child v) us = some P)
    (hd : (v P).isDir = true) (h0 : name ≠ []) (hn : ¬ IsDots name) (hfree : child v P name = none)
    {f : File} {kind : Mode} (new : NewFile n kind f) (dots : ∀ d ∈ f.dentries, IsDots d.dName)
    (ws : List Str) : labelAt (enterView v n P name f) ws =
      if ws = us++[name] then some (n,kind) else labelAt v ws := by
  have hPn : P ≠ n := fun he => hv.next_unreached (he ▸ reached_of_find hP)
  have hunder := hv.free (reached_of_find hP) hd h0 hn hfree
  have hadd : child (enterView v n P name f) P name = some n := by
    rw [child_some, nameIn_under, entered_isDir hPn, entered_under hPn, if_pos hd, hunder,
      if_pos ⟨rfl,rfl⟩]
    exact ⟨h0,hn,rfl,hv.fresh.ne_zero⟩
  have hkeep : ∀ k u, ¬ (k = P ∧ u = name) →
      child (enterView v n P name f) k u = child v k u := by
    intro k u hku
    by_cases hkn : k = n
    · subst hkn
      rw [hv.next_childless u]
      refine if_neg ?_
      rintro ⟨-,hu,hsome⟩
      rcases nameIn_origin (v := enterView v k P name f) u k with hz | ⟨-,d,hm,hname,-⟩
      · exact hsome hz
      · rw [entered_new hPn] at hm
        exact hu (hname ▸ dots d hm)
    · apply child_congr (entered_isDir hkn name f)
      rw [entered_under hkn, if_neg (fun hc => hku ⟨hc.1,hc.2.symm⟩), List.append_nil]
  have hlink := find_link (hv.find_iff hP hd) hfree hPn.symm hv.next_childless hadd hkeep ws
  by_cases hws : ws = us++[name]
  · rw [if_pos hws] at hlink ⊢
    rw [label_find hlink, entered_new hPn, new.type]
  · rw [if_neg hws] at hlink ⊢
    refine label_congr hlink (fun k hk => ?_)
    have hkn : k ≠ n := fun he => hv.next_unreached (he ▸ reached_of_find hk)
    rw [entered_meta hkn]

theorem linkView_meta (v : View) (P i k : ℕ) (name : Str) :
    (linkView v P name i k).metadata.stMode = (v k).metadata.stMode := by
  rw [linkView, (Edit.push _).put_metadata]
  by_cases hk : k = i
  · rw [hk, put_self]
    rfl
  · rw [put_of_ne _ _ hk]

theorem linkView_under (v : View) (P i k : ℕ) (name u : Str) :
    under u (linkView v P name i k) =
      under u (v k)++if k = P ∧ name = u then [i] else [] := by
  rw [linkView, under_pushed]
  congr 1
  by_cases hk : k = i
  · rw [hk, put_self]
    rfl
  · rw [put_of_ne _ _ hk]

theorem label_linked (hv : Orderly v n) (hP : PathTree.find 2 (child v) us = some P)
    (hd : (v P).isDir = true) (h0 : name ≠ []) (hn : ¬ IsDots name) (hfree : child v P name = none)
    (hi : i ≠ 0) (hfile : (v i).isDir = false) (ws : List Str) :
    labelAt (linkView v P name i) ws =
      if ws = us++[name] then some (i,typeBits (v i).metadata.stMode) else labelAt v ws := by
  have hiP : i ≠ P := by
    rintro rfl
    rw [hfile] at hd
    exact Bool.false_ne_true hd
  have hunder := hv.free (reached_of_find hP) hd h0 hn hfree
  have hadd : child (linkView v P name i) P name = some i := by
    rw [child_some, nameIn_under, linkView_isDir, linkView_under, if_pos hd, hunder,
      if_pos ⟨rfl,rfl⟩]
    exact ⟨h0,hn,rfl,hi⟩
  have hkeep : ∀ k u, ¬ (k = P ∧ u = name) → child (linkView v P name i) k u = child v k u := by
    intro k u hku
    apply child_congr (linkView_isDir v P i k name)
    rw [linkView_under, if_neg (fun hc => hku ⟨hc.1,hc.2.symm⟩), List.append_nil]
  have hlink := find_link (hv.find_iff hP hd) hfree hiP (child_not_dir hfile) hadd hkeep ws
  by_cases hws : ws = us++[name]
  · rw [if_pos hws] at hlink ⊢
    rw [label_find hlink, linkView_meta]
  · rw [if_neg hws] at hlink ⊢
    exact label_congr hlink (fun k _ => by rw [linkView_meta])

theorem under_named (hv : Orderly v n) (hd : (v k).isDir = true) (hi : nameIn v name k = i)
    (h0 : i ≠ 0) : under name (v k) = [i] := by
  obtain ⟨d,hfirst,rfl⟩ := firstNamed_of_nameIn hi h0
  obtain ⟨hm,hn⟩ := firstNamed_mem hfirst
  have hnames := hv.distinct k hd
  have hcount : ((v k).dentries.filter (fun d => d.dName == name)).length ≤ 1 := by
    rw [← List.countP_eq_length_filter]
    have hcountP : (v k).dentries.countP (fun d => d.dName == name) =
        (names (v k)).count name := by
      rw [Names.names, List.count, List.countP_map]
      rfl
    rw [hcountP]
    exact List.nodup_iff_count_le_one.mp hnames name
  have hmem : d ∈ (v k).dentries.filter (fun d => d.dName == name) :=
    List.mem_filter.mpr ⟨hm,by simpa using hn⟩
  rw [under]
  cases hl : (v k).dentries.filter (fun d => d.dName == name) with
  | nil => rw [hl] at hmem; exact absurd hmem List.not_mem_nil
  | cons e l =>
    rw [hl] at hmem hcount
    have hnil : l = [] := List.eq_nil_of_length_eq_zero (by simpa using hcount)
    rw [hnil] at hmem ⊢
    rw [List.mem_singleton.mp hmem]
    rfl

theorem label_dropped (hv : Orderly v n) (hP : PathTree.find 2 (child v) us = some P)
    (hi : child v P name = some i) (ws : List Str) :
    labelAt (put v P (File.dropNamed name)) ws =
      if us++[name] <+: ws then none else labelAt v ws := by
  have hd := isDir_of_child hi
  obtain ⟨-,-,hname,hi0⟩ := child_some.mp hi
  have hgone : child (put v P (File.dropNamed name)) P name = none := by
    refine if_neg (fun hc => hc.2.2 ?_)
    rw [nameIn_under, put_self, under_dropped, under_named hv hd hname hi0]
    exact ite_self 0
  have hkeep : ∀ k u, ¬ (k = P ∧ u = name) →
      child (put v P (File.dropNamed name)) k u = child v k u := by
    intro k u hku
    apply child_congr ((Edit.dropNamed name).isDir v P k)
    by_cases hkP : k = P
    · have hu : u ≠ name := fun hu => hku ⟨hkP,hu⟩
      exact under_put_dropNamed hu P k
    · rw [put_of_ne _ _ hkP]
  obtain ⟨hold,hother⟩ := find_relink (hv.find_iff hP hd) hgone hkeep (fun _ ho => nomatch ho)
  by_cases hws : us++[name] <+: ws
  · obtain ⟨vs,rfl⟩ := hws
    rw [if_pos (List.prefix_append _ vs), labelAt, ← List.append_cons, hold]
    rfl
  · rw [if_neg hws]
    refine label_congr (hother ws hws) (fun k _ => ?_)
    rw [(Edit.dropNamed name).put_metadata]

theorem label_unlinked (hv : Orderly v n) {n' : ℕ} (hw : Orderly (unlinkView v P name i) n')
    (h2 : (v 2).isDir = true) (hP : PathTree.find 2 (child v) us = some P)
    (hi : child v P name = some i) (ws : List Str) :
    labelAt (unlinkView v P name i) ws =
      if us++[name] <+: ws then none else labelAt v ws := by
  rw [← label_dropped hv hP hi]
  have hd := isDir_of_child hi
  obtain ⟨-,hn,hname,hi0⟩ := child_some.mp hi
  have hi2 : i ≠ 2 := by
    rintro rfl
    obtain ⟨d,hm,hdn,hdi,-⟩ := holds_of_nameIn hn (hname ▸ hi0)
    rw [hname] at hdi
    exact (hv.younger P hd d hm (hdn ▸ hn) (hdi ▸ h2)).1 hdi
  rw [unlinkView, dropLink] at hw ⊢
  split_ifs at hw ⊢ with hl
  · refine (label_frame (fun k hk => ?_) ws).symm
    have hki : k ≠ i := by
      rintro rfl
      cases hk with
      | root => exact hi2 rfl
      | child before holds =>
        obtain ⟨hx,d,hm,-,rfl⟩ := holds
        have hmade := (hw.made _ before hx d hm).2
        rw [Function.update_self] at hmade
        exact hi0 hmade.symm
    rw [Function.update_of_ne hki]
    exact ⟨funext fun u => child_congr (by rw [Function.update_of_ne hki])
      (by rw [Function.update_of_ne hki]),rfl⟩
  · exact label_nlink (put v P (File.dropNamed name)) i (g := decNlink) (fun _ => rfl) ws

theorem eraseP_congr {α : Type} {p q : α → Bool} {l : List α} (h : ∀ d ∈ l, p d = q d) :
    l.eraseP p = l.eraseP q := by
  induction l with
  | nil => rfl
  | cons d l ih =>
    obtain ⟨hd,hl⟩ := List.forall_mem_cons.mp h
    rw [List.eraseP_cons, List.eraseP_cons, hd, ih hl]

theorem rmdirView_eq (hv : Orderly v n) (hP : Reached v P) (hi : child v P name = some i)
    (hdir : (v i).isDir = true) : rmdirView v P i = unlinkView v P name i := by
  have hd := isDir_of_child hi
  obtain ⟨-,hn,hname,hi0⟩ := child_some.mp hi
  obtain ⟨e,he,hen,hei,-⟩ := holds_of_nameIn hn (hname ▸ hi0)
  rw [hname] at hei
  obtain ⟨hi2,hlt⟩ := hv.younger P hd e he (hen ▸ hn) (hei ▸ hdir)
  rw [hei] at hi2 hlt
  have hplain : ∀ d ∈ (v P).dentries, d.dIno = i → ¬ IsDots d.dName := by
    intro d hm hdi hdots
    have hfound := nameIn_of_unique hv.distinct hd hm
    rw [hdi] at hfound
    by_cases hP2 : P = 2
    · subst hP2
      rw [hv.dots.nameIn_root hd hdots] at hfound
      exact hi2 hfound.symm
    · cases hP with
      | root => exact hP2 rfl
      | @child x _ before holds =>
        obtain ⟨h1,h2⟩ := hv.dots.held x P holds hd hP2
        rcases hdots with hdot | hdotdot
        · rw [hdot, nameIn_of_under hd h1] at hfound
          omega
        · rw [hdotdot, nameIn_of_under hd h2] at hfound
          obtain ⟨hx,a,ha,han,rfl⟩ := holds
          have := (hv.younger x hx a ha han hd).2
          omega
  have hsame : ∀ d ∈ (v P).dentries, (d.dIno == i) = (d.dName == name) := by
    intro d hm
    rw [Bool.eq_iff_iff, beq_iff_eq, beq_iff_eq]
    constructor
    · intro hdi
      rw [← hen, hv.single P i hd hdir d hm e he (hplain d hm hdi) (hen ▸ hn) hdi hei]
    · intro hdn
      rw [← nameIn_of_unique hv.distinct hd hm, hdn, hname]
  have hdrop : put v P (File.dropIno i) = put v P (File.dropNamed name) := by
    rw [put, put, File.dropIno, File.dropNamed, eraseP_congr hsame]
  rw [rmdirView, unlinkView_eq, if_pos (hv.dots.dirs.lastLink hdir),
    if_pos (hv.dots.dirs.lastLink hdir), hdrop]

theorem under_clearTarget (hv : Orderly v n) (hd : (v Q).isDir = true) (hQ : Reached v Q)
    (h0 : newname ≠ []) (hn : ¬ IsDots newname) (k : ℕ) (u : Str) :
    under u (clearTarget v Q newname k) =
      if k = Q ∧ u = newname then [] else under u (v k) := by
  by_cases hsome : nameIn v newname Q ≠ 0
  · rw [clearTarget, if_pos hsome]
    by_cases hk : k = Q ∧ u = newname
    · obtain ⟨rfl,rfl⟩ := hk
      rw [if_pos ⟨rfl,rfl⟩, put_self, under_dropped, under_named hv hd rfl hsome]
      rfl
    · rw [if_neg hk]
      by_cases hkQ : k = Q
      · exact under_put_dropNamed (fun hu => hk ⟨hkQ,hu⟩) Q k
      · rw [put_of_ne _ _ hkQ]
  · rw [clearTarget, if_neg hsome]
    split_ifs with hk
    · obtain ⟨rfl,rfl⟩ := hk
      exact hv.free hQ hd h0 hn (if_neg (fun hc => hsome hc.2.2))
    · rfl

theorem under_renameView (hv : Orderly v n) (hd : (v Q).isDir = true) (hQ : Reached v Q)
    (h0 : newname ≠ []) (hn : ¬ IsDots newname) (hi : child v P name = some i) (k : ℕ) (u : Str) :
    under u (renameView v P Q name newname i k) =
      (if k = Q ∧ u = newname ∨ k = P ∧ u = name then [] else under u (v k))++
        if k = Q ∧ newname = u then [i] else [] := by
  obtain ⟨-,-,hname,hi0⟩ := child_some.mp hi
  rw [renameView, under_pushed, clearView_eq]
  congr 1
  by_cases hk : k = P ∧ u = name
  · obtain ⟨rfl,rfl⟩ := hk
    rw [if_pos (Or.inr ⟨rfl,rfl⟩), put_self, under_dropped, under_clearTarget hv hd hQ h0 hn,
      under_named hv (isDir_of_child hi) hname hi0]
    split_ifs <;> rfl
  · have hput : under u (put (clearTarget v Q newname) P (File.dropNamed name) k) =
        under u (clearTarget v Q newname k) := by
      by_cases hkP : k = P
      · exact under_put_dropNamed (fun hu => hk ⟨hkP,hu⟩) P k
      · rw [put_of_ne _ _ hkP]
    rw [hput, under_clearTarget hv hd hQ h0 hn]
    exact if_congr (or_iff_left hk).symm rfl rfl

theorem renameView_isDir (v : View) (P Q i k : ℕ) (name newname : Str) :
    (renameView v P Q name newname i k).isDir = (v k).isDir := by
  rw [File.isDir, renameView_metadata, File.isDir]

theorem label_renamed (hv : Orderly v n) {ps qs : List Str}
    (hP : PathTree.find 2 (child v) ps = some P) (hQ : PathTree.find 2 (child v) qs = some Q)
    (hi : child v P name = some i) (hd : (v Q).isDir = true) (h0 : newname ≠ [])
    (hn : ¬ IsDots newname) (hout : ¬ ps++[name] <+: qs) :
    (∀ us, labelAt (renameView v P Q name newname i) (qs++newname::us) =
      labelAt v (ps++name::us)) ∧
    ∀ ws, ¬ qs++[newname] <+: ws →
      (ps++[name] <+: ws → labelAt (renameView v P Q name newname i) ws = none) ∧
      (¬ ps++[name] <+: ws →
        labelAt (renameView v P Q name newname i) ws = labelAt v ws) := by
  have hunder := under_renameView hv hd (reached_of_find hQ) h0 hn hi
  have hdir := fun k => renameView_isDir v P Q i k name newname
  obtain ⟨-,-,-,hi0⟩ := child_some.mp hi
  have hadd : child (renameView v P Q name newname i) Q newname = some i := by
    rw [child_some, nameIn_under, hdir, hunder, if_pos (Or.inl ⟨rfl,rfl⟩), if_pos hd,
      if_pos ⟨rfl,rfl⟩]
    exact ⟨h0,hn,rfl,hi0⟩
  have hgone : ¬ (P = Q ∧ name = newname) →
      child (renameView v P Q name newname i) P name = none := by
    intro hne
    have hempty : under name (renameView v P Q name newname i P) = [] := by
      rw [hunder, if_pos (Or.inr ⟨rfl,rfl⟩), if_neg (fun hs => hne ⟨hs.1,hs.2.symm⟩)]
      rfl
    refine if_neg (fun hc => hc.2.2 ?_)
    rw [nameIn_under, hempty]
    exact ite_self 0
  have hkeep : ∀ k u, ¬ (k = Q ∧ u = newname) → ¬ (k = P ∧ u = name) →
      child (renameView v P Q name newname i) k u = child v k u := by
    intro k u hnew hold
    apply child_congr (hdir k)
    rw [hunder, if_neg (not_or_intro hnew hold), if_neg (fun hs => hnew ⟨hs.1,hs.2.symm⟩),
      List.append_nil]
  obtain ⟨hto,hother⟩ := find_move (hv.find_iff hP (isDir_of_child hi)) (hv.find_iff hQ hd) hi hout
    hadd hgone hkeep
  constructor
  · exact fun us => label_congr (hto us) (fun k _ => by rw [renameView_metadata])
  · intro ws hws
    refine ⟨fun hp => ?_,fun hp => label_congr ((hother ws hws).2 hp)
      (fun k _ => by rw [renameView_metadata])⟩
    rw [labelAt, (hother ws hws).1 hp]
    rfl

end Bbfs.NameViews
