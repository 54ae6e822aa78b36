import Bbfs.Placement

/-!
# No entry dangles

A link count protects a file as long as every link that a call drops goes
together with an entry for the file, and every entry that `my_rename` writes
replaces one. The two dot entries of a directory are not counted: they are
right to lead up as long as directories stay in the directory they were made
in.
-/

set_option autoImplicit false

namespace Bbfs.Dangling
open Bbfs.Strings Bbfs.Files Bbfs.Resolve Bbfs.Calls Bbfs.Session Bbfs.Walks Bbfs.Effects
open Bbfs.Numbers Bbfs.Directories Bbfs.Tally Bbfs.Placement

variable {B : Finset ℕ} {v w : View} {n : ℕ}

/-- A rename finds the old file, and removes an entry for it: the one in the
way, or the old one; a directory stays in its directory. -/
def Replaces (v : View) (P Q : ℕ) (name newname : Str) (i : ℕ) : Prop :=
  i ≠ 0 ∧ i ≠ errIno ∧ (i = 2 ∨ nameIn v newname Q = i ∨ (v P).isDir = true ∧
    (firstNamed name (clearTarget v Q newname P)).map Dirent.dIno = some i ∧
      ((v i).isDir = true → Q = P))

instance (v : View) (P Q : ℕ) (name newname : Str) (i : ℕ) :
    Decidable (Replaces v P Q name newname i) := by
  unfold Replaces
  infer_instance

/-- The entry that `my_unlink` erases names the file it unlinks; `my_rmdir`
erases an entry of an older directory; a rename into a directory replaces an
entry. The root may go, and the error handle is no file. -/
def KeepsTargets (v : View) (c : Call) : Prop :=
  Proceeds v c → match c with
  | .unlink path => resolve v path = 2 ∨ resolve v path = errIno ∨
    (v (resolve v (parentPath path))).isDir = true ∧
      (firstNamed (tail path) (v (resolve v (parentPath path)))).map Dirent.dIno =
        some (resolve v path)
  | .rmdir path => resolve v path = 2 ∨ (v (resolve v (parentPath path))).isDir = true ∧
    resolve v (parentPath path) < resolve v path ∧
      (v (resolve v (parentPath path))).dentries.any (fun d => d.dIno == resolve v path) = true
  | .rename path newpath => (v (resolve v (parentPath newpath))).isDir = true →
    Replaces v (resolve v (parentPath path)) (resolve v (parentPath newpath)) (tail path)
      (tail newpath) (resolve v path)
  | _ => True

instance (v : View) (c : Call) : Decidable (KeepsTargets v c) := by
  induction c using Call.casesOn <;> unfold KeepsTargets <;> infer_instance

theorem spare_link (h : Sound B v) (hB : ∀ k, (v k).isDir = true → k ∈ B) {P fh : ℕ}
    {g : File → File} {q : Dirent → Bool} (hg : Edit g)
    (hs : (g (v P)).dentries ⊆ (v P).dentries)
    (ht : ∀ p, tally p (g (v P))+(found q (v P)).countP p = tally p (v P)) (h2 : fh ≠ 2)
    (hm : Made v fh) {d : Dirent} (hf : found q (v P) = [d]) (hd : refers v fh P d = true) :
    total B (refers (put v P g) fh) (put v P g)+1 ≤ (put v P g fh).metadata.stNlink := by
  have hsub : ∀ x, (put v P g x).dentries ⊆ (v x).dentries := by
    intro x
    by_cases hx : x = P
    · subst hx
      rw [put_self]
      exact hs
    · rw [put_of_ne _ _ hx]
      exact List.Subset.refl _
  have hle : total B (refers (put v P g) fh) (put v P g) ≤ total B (refers v fh) (put v P g) :=
    total_le (fun k => tally_mono (fun d _ hr =>
      refers_mono (fun a => placed_shrink (hg.isDir v P) hsub) (hg.isDir v P fh) hr))
  have hsum := total_put (p := refers v fh) (hB P) (g := g)
    (by rw [File.isDir, hg.metadata]; exact id)
  have hcount := ht (refers v fh P)
  rw [hf, List.countP_singleton, if_pos hd] at hcount
  have hlink := h.links fh h2 hm
  rw [hg.put_metadata]
  omega

theorem sound_unlinkView (h : Sound B v) (hB : ∀ k, (v k).isDir = true → k ∈ B) {P fh : ℕ}
    {name : Str} (hP : (v P).isDir = true → Placed v P) (hn : ¬ IsDots name)
    (hm : fh ≠ 2 → fh ≠ errIno → Made v fh) (herr : ¬ Made v errIno)
    (hk : fh = 2 ∨ fh = errIno ∨ (v P).isDir = true ∧
      (firstNamed name (v P)).map Dirent.dIno = some fh) : Sound B (unlinkView v P name fh) := by
  have hB1 : ∀ k, (put v P (File.dropNamed name) k).isDir = true → k ∈ B := by
    intro k hd
    rw [(Edit.dropNamed name).isDir] at hd
    exact hB k hd
  apply sound_dropLink (h.dropNamed hB P name) hB1
  by_cases h2 : fh = 2
  · exact Or.inl h2
  by_cases he : fh = errIno
  · right
    left
    rw [Made, (Edit.dropNamed name).put_metadata, he]
    exact herr
  obtain ⟨hPd,hfirst⟩ := (hk.resolve_left h2).resolve_left he
  obtain ⟨d,hd,hi⟩ := Option.map_eq_some_iff.mp hfirst
  obtain ⟨hmem,hname⟩ := firstNamed_mem hd
  refine Or.inr (Or.inr (spare_link h hB (.dropNamed name) List.eraseP_subset
    (fun p => tally_dropNamed p name (v P)) h2 (hm h2 he) (found_of_first hPd hd) ?_))
  refine refers_iff.mpr ⟨hP hPd,hi,fun hfd => ?_⟩
  by_contra hlt
  have hdots := h.back P hPd d hmem (by rw [hi]; exact hfd) (by rw [hi]; exact h2) (by omega)
  rw [hname] at hdots
  exact hn hdots

theorem sound_rmdirView (h : Sound B v) (hB : ∀ k, (v k).isDir = true → k ∈ B) {P fh : ℕ}
    (hP : (v P).isDir = true → Placed v P) (hd : (v fh).isDir = true)
    (hk : fh = 2 ∨ (v P).isDir = true ∧ P < fh ∧
      (v P).dentries.any (fun d => d.dIno == fh) = true) : Sound B (rmdirView v P fh) := by
  have hB1 : ∀ k, (put v P (File.dropIno fh) k).isDir = true → k ∈ B := by
    intro k hd
    rw [(Edit.dropIno fh).isDir] at hd
    exact hB k hd
  rw [rmdirView, if_pos (h.dirs.lastLink hd)]
  apply (h.dropIno hB P fh).erase hB1
  by_cases h2 : fh = 2
  · exact Or.inl h2
  obtain ⟨hPd,hlt,hany⟩ := hk.resolve_left h2
  have hm : Made v fh := ⟨by omega,(h.dirs fh hd).2⟩
  obtain ⟨d,hf⟩ : ∃ d, (v P).dentries.find? (fun d => d.dIno == fh) = some d := by
    rw [← Option.isSome_iff_exists, List.find?_isSome]
    exact List.any_eq_true.mp hany
  have hi : d.dIno = fh := by simpa using List.find?_some hf
  have hfound : found (fun d => d.dIno == fh) (v P) = [d] := by
    rw [found, held_of_dir hPd, hf, Option.toList_some]
  have hspare := spare_link h hB (.dropIno fh) List.eraseP_subset
    (fun p => tally_dropIno p fh (v P)) h2 hm hfound
    (refers_iff.mpr ⟨hP hPd,hi,fun _ => hlt⟩)
  have hone := (h.dirs fh hd).1
  rw [(Edit.dropIno fh).put_metadata] at hspare
  exact Or.inr (Or.inr (by omega))

theorem sound_linkView (h : Sound B v) (hB : ∀ k, (v k).isDir = true → k ∈ B) {P fh : ℕ}
    {name : Str} (hd : (v fh).isDir = false) (hm : Made v fh) : Sound B (linkView v P name fh) := by
  have hset : ∀ i, (put v fh (File.setStat incNlink) i).dentries = (v i).dentries ∧
      (put v fh (File.setStat incNlink) i).metadata.stIno = (v i).metadata.stIno := by
    intro i
    by_cases hi : i = fh
    · subst hi
      rw [put_self]
      exact ⟨rfl,rfl⟩
    · rw [put_of_ne _ _ hi]
      exact ⟨rfl,rfl⟩
  have hmeta := fun i => (Edit.push ⟨name,fh⟩).put_metadata (put v fh (File.setStat incNlink)) P i
  have hdir : ∀ i, (linkView v P name fh i).isDir = (v i).isDir := by
    intro i
    rw [linkView_isDir]
  have hent : ∀ x, ∀ d ∈ (linkView v P name fh x).dentries,
      d ∈ (v x).dentries ∨ d.dIno = fh := by
    intro x d hmem
    rw [linkView] at hmem
    by_cases hx : x = P
    · subst hx
      rw [put_self, File.push_dentries, (hset x).1, List.mem_append, List.mem_singleton] at hmem
      rcases hmem with hmem | rfl
      · exact Or.inl hmem
      · exact Or.inr rfl
    · rw [put_of_ne _ _ hx, (hset x).1] at hmem
      exact Or.inl hmem
  have hdirs : Dirs (linkView v P name fh) := by
    refine dirs_edit (dirs_put h.dirs (fun hd' => ?_)) (.push _) P
    have hfalse : (v fh).isDir = true := hd'
    rw [hd] at hfalse
    exact absurd hfalse Bool.false_ne_true
  refine h.narrow hdir (fun i => ?_) hdirs ?_ ?_ ?_
  · rw [linkView, hmeta]
    exact (hset i).2
  · intro x _ d hmem
    rcases hent x d hmem with hold | hi
    · exact Or.inl ⟨d,hold,rfl⟩
    · rw [hi, hd]
      exact Or.inr ⟨hm,fun hc => absurd hc Bool.false_ne_true⟩
  · intro x hx d hmem hdd
    rcases hent x d hmem with hold | hi
    · exact h.back x hx d hold hdd
    · rw [hi, hd] at hdd
      exact absurd hdd Bool.false_ne_true
  · intro i h2 hi
    have hP : (put v fh (File.setStat incNlink) P).isDir = true → P ∈ B := by
      rw [setStat_isDir (g := incNlink) (fun _ => rfl)]
      exact hB P
    have hlink := h.links i h2 hi
    rw [linkView, total_push hP, total_setStat (hB fh) rfl, hmeta]
    by_cases hif : i = fh
    · subst hif
      have hinc : ((v i).setStat incNlink).metadata.stNlink = (v i).metadata.stNlink+1 := rfl
      rw [put_self, hinc]
      split_ifs
      · omega
      · omega
    · have hnew : refers v i P ⟨name,fh⟩ = false := by
        rw [Bool.eq_false_iff, ne_eq, refers_iff]
        exact fun hc => hif hc.2.1.symm
      rw [hnew, if_neg (by simp), put_of_ne _ _ hif, Nat.add_zero]
      exact hlink

theorem mem_clearTarget {Q x : ℕ} {newname : Str} {d : Dirent}
    (h : d ∈ (clearTarget v Q newname x).dentries) : d ∈ (v x).dentries := by
  unfold clearTarget at h
  split_ifs at h
  · exact mem_shrunk List.eraseP_subset h
  · exact h

theorem mem_clearView {P Q x : ℕ} {name newname : Str} {d : Dirent}
    (h : d ∈ (clearView v P Q name newname x).dentries) : d ∈ (v x).dentries := by
  rw [clearView_eq] at h
  exact mem_clearTarget (mem_shrunk List.eraseP_subset h)

/-- What `my_rename` writes into a directory: the moved file, or an entry that
was there. -/
theorem replaces_entry {P Q i : ℕ} {name newname : Str} (hr : Replaces v P Q name newname i)
    (hd : (v i).isDir = true) (h2 : i ≠ 2) :
    ∃ e ∈ (v Q).dentries, e.dIno = i ∧ (e.dName = newname ∨ e.dName = name) := by
  obtain ⟨h0,-,hr⟩ := hr
  rcases hr.resolve_left h2 with hfound | ⟨-,hfirst,hsame⟩
  · rcases nameIn_origin (v := v) newname Q with hz | ⟨-,e,he,hn,hi⟩
    · exact absurd (hfound.symm.trans hz) h0
    · exact ⟨e,he,hi.trans hfound,Or.inl hn⟩
  · obtain ⟨e,he,hi⟩ := Option.map_eq_some_iff.mp hfirst
    obtain ⟨hmem,hn⟩ := firstNamed_mem he
    rw [← hsame hd] at hmem
    exact ⟨e,mem_clearTarget hmem,hi,Or.inr hn⟩

theorem total_renameView (hB : ∀ k, (v k).isDir = true → k ∈ B) {P Q i : ℕ}
    {name newname : Str} (hP : (v P).isDir = true → Placed v P)
    (hr : (v Q).isDir = true → Replaces v P Q name newname i) {j : ℕ} (h0 : j ≠ 0) (h2 : j ≠ 2) :
    total B (refers v j) (renameView v P Q name newname i) ≤ total B (refers v j) v := by
  have hcd := clearTarget_isDir (v := v) Q newname
  have h1 := total_clearTarget (p := refers v j) hB Q newname
    (fun d hd => by rw [(refers_iff.mp hd).2.1]; exact h0)
  have h3 := total_dropNamed (p := refers v j) (v := clearTarget v Q newname) (k := P)
    (by rw [hcd]; exact hB P) name
  rw [renameView, total_push (by rw [clearView_isDir]; exact hB Q), clearView_isDir, clearView_eq]
  split_ifs with hnew
  · obtain ⟨hQd,href⟩ := hnew
    obtain ⟨hQp,hij,hup⟩ := refers_iff.mp href
    simp only at hij
    subst hij
    obtain ⟨-,-,hr⟩ := hr hQd
    rcases hr.resolve_left h2 with hfound | ⟨hPd,hfirst,hsame⟩
    · rw [nameIn_eq, if_pos hQd] at hfound
      cases hd : firstNamed newname (v Q) with
      | none =>
        rw [hd] at hfound
        exact absurd hfound.symm h0
      | some d =>
        rw [hd] at hfound
        have hone : refers v i Q d = true := refers_iff.mpr ⟨hQp,hfound,hup⟩
        rw [found_of_first hQd hd, List.countP_singleton, if_pos hone] at h1
        omega
    · obtain ⟨d,hd,hi⟩ := Option.map_eq_some_iff.mp hfirst
      have hone : refers v i P d = true := by
        refine refers_iff.mpr ⟨hP hPd,hi,fun hid => ?_⟩
        rw [← hsame hid]
        exact hup hid
      rw [found_of_first (by rw [hcd]; exact hPd) hd, List.countP_singleton, if_pos hone] at h3
      omega
  · omega

theorem sound_renameView (h : Sound B v) (hB : ∀ k, (v k).isDir = true → k ∈ B) {P Q i : ℕ}
    {name newname : Str} (hP : (v P).isDir = true → Placed v P)
    (hQ : (v Q).isDir = true → Placed v Q) (hn : ¬ IsDots name)
    (hm : i ≠ 0 → i ≠ errIno → i ≠ 2 → Made v i)
    (hr : (v Q).isDir = true → Replaces v P Q name newname i) :
    Sound B (renameView v P Q name newname i) := by
  have hmeta := renameView_metadata (v := v) P Q name newname i
  have hdir : ∀ k, (renameView v P Q name newname i k).isDir = (v k).isDir := by
    intro k
    rw [File.isDir, hmeta, File.isDir]
  have hent : ∀ x, ∀ d ∈ (renameView v P Q name newname i x).dentries,
      d ∈ (v x).dentries ∨ x = Q ∧ d = ⟨newname,i⟩ :=
    fun x d hmem => (mem_pushed hmem).imp_left mem_clearView
  have hdirs : Dirs (renameView v P Q name newname i) := by
    intro k hk
    rw [hdir] at hk
    rw [hmeta]
    exact h.dirs k hk
  refine h.narrow hdir (fun k => by rw [hmeta]) hdirs ?_ ?_ ?_
  · intro x hx d hmem
    rcases hent x d hmem with hold | ⟨rfl,rfl⟩
    · exact Or.inl ⟨d,hold,rfl⟩
    · have hrep := hr hx
      by_cases h2 : i = 2
      · subst h2
        exact Or.inr ⟨⟨two_ne_zero,(h.dirs 2 (hQ hx).1).2⟩,fun _ => rfl⟩
      by_cases hd : (v i).isDir = true
      · obtain ⟨e,he,hi,-⟩ := replaces_entry hrep hd h2
        exact Or.inl ⟨e,he,hi⟩
      · exact Or.inr ⟨hm hrep.1 hrep.2.1 h2,fun hc => absurd hc hd⟩
  · intro x hx d hmem hd h2 hle
    rcases hent x d hmem with hold | ⟨rfl,rfl⟩
    · exact h.back x hx d hold hd h2 hle
    · obtain ⟨e,he,hi,hname⟩ := replaces_entry (hr hx) hd h2
      have hdots := h.back x hx e he (by rw [hi]; exact hd) (by rw [hi]; exact h2)
        (by rw [hi]; exact hle)
      rcases hname with hnew | hold
      · rw [hnew] at hdots
        exact hdots
      · rw [hold] at hdots
        exact absurd hdots hn
  · intro j h2 hj
    rw [hmeta]
    exact (total_renameView hB hP hr hj.1 h2).trans (h.links j h2 hj)

theorem chmodStat_isReg {mode : Mode} (hm : typeBits mode = 0) (f : File) :
    (chmodStat mode f).isReg = false := by
  by_cases hd : f.isDir = true
  · have hdir : (chmodStat mode f).isDir = true := by rw [chmodStat_isDir hm, hd]
    exact ((type_exclusive _).1 hdir).1
  · rw [chmodStat, File.isReg, File.setStat_metadata, if_neg hd, S_ISREG_eq, hm]
    decide

theorem isReg_effect {K K' : Set ℕ} {c : Call} {r : ℤ} {n' k : ℕ} (h : (v k).isReg = false)
    (hk : k ≠ n) (hc : treeCall c = true) (hm : chmodPerm c = true)
    (he : Effect v K n c r w K' n') : (w k).isReg = false := by
  have hnew : ∀ f, (Function.update v n f k).isReg = false := by
    intro f
    rw [Function.update_of_ne hk]
    exact h
  have hput : ∀ u : View, ∀ j g, (∀ f : File, f.isReg = false → (g f).isReg = false) →
      (u k).isReg = false → (put u j g k).isReg = false := by
    intro u j g hg hu
    by_cases hkj : k = j
    · subst hkj
      rw [put_self]
      exact hg _ hu
    · rw [put_of_ne _ _ hkj]
      exact hu
  have hold : ∀ f : File, f.isReg = false → f.isReg = false := fun _ hf => hf
  have hgone : ∀ u : View, ∀ j, (u k).isReg = false →
      (Function.update u j default k).isReg = false :=
    fun u j => hput u j (fun _ => default) (fun _ _ => File.default_isReg)
  cases he with
  | idle => exact h
  | leaked f => exact hnew f
  | entered path f => exact hput _ _ (File.push _) hold (hnew f)
  | linked path newpath =>
    exact hput _ _ (File.push _) hold (hput v _ (File.setStat incNlink) hold h)
  | unlinked path =>
    unfold unlinkView dropLink
    have hdrop := hput v (resolve v (parentPath path)) (File.dropNamed (tail path)) hold h
    split_ifs
    · exact hgone _ _ hdrop
    · exact hput _ _ (File.setStat decNlink) hold hdrop
  | removed path =>
    unfold rmdirView
    have hdrop := hput v (resolve v (parentPath path)) (File.dropIno (resolve v path)) hold h
    split_ifs
    · exact hgone _ _ hdrop
    · exact hdrop
  | renamed path newpath =>
    unfold renameView clearView
    refine hput _ _ (File.push _) hold (hput _ _ (File.dropNamed _) hold ?_)
    split_ifs
    · exact hput v _ (File.dropNamed _) hold h
    · exact h
  | retyped path mode =>
    have hmode : typeBits mode = 0 := by simpa [chmodPerm] using hm
    exact hput v _ (chmodStat mode) (fun f _ => chmodStat_isReg hmode f) h
  | opened => simp [treeCall] at hc
  | closed => simp [treeCall] at hc
  | written fh buf size offset data => exact hput v fh (stored data (cstr buf)) hold h
  | patched j g keeps =>
    refine hput v j g (fun f hf => ?_) h
    rw [File.isReg, keeps.stMode]
    exact hf

theorem sound_keeps (h : Sound B v) (hB : ∀ k, (v k).isDir = true → k ∈ B) {k : ℕ}
    {g : File → File} (hd : ∀ f, (g f).dentries = f.dentries)
    (hi : ∀ f, (g f).metadata.stIno = f.metadata.stIno)
    (hl : ∀ f, (g f).metadata.stNlink = f.metadata.stNlink)
    (hdir : ∀ f, (g f).isDir = f.isDir) : Sound B (put v k g) := by
  have hput : ∀ i, (put v k g i).dentries = (v i).dentries ∧
      (put v k g i).metadata.stIno = (v i).metadata.stIno ∧
      (put v k g i).metadata.stNlink = (v i).metadata.stNlink ∧
      (put v k g i).isDir = (v i).isDir := by
    intro i
    by_cases hik : i = k
    · subst hik
      rw [put_self]
      exact ⟨hd _,hi _,hl _,hdir _⟩
    · rw [put_of_ne _ _ hik]
      exact ⟨rfl,rfl,rfl,rfl⟩
  have hdirs : Dirs (put v k g) := by
    intro i hi'
    rw [(hput i).2.2.2] at hi'
    rw [(hput i).2.1, (hput i).2.2.1]
    exact h.dirs i hi'
  refine h.narrow (fun i => (hput i).2.2.2) (fun i => (hput i).2.1) hdirs ?_ ?_ ?_
  · intro x _ d hm
    rw [(hput x).1] at hm
    exact Or.inl ⟨d,hm,rfl⟩
  · intro x hx d hm
    rw [(hput x).1] at hm
    exact h.back x hx d hm
  · intro i h2 hm
    have hsum := total_put (p := refers v i) (hB k) (g := g) (by rw [hdir]; exact id)
    have ht : tally (refers v i k) (g (v k)) = tally (refers v i k) (v k) := by
      rw [tally, tally, held, held, hdir, hd]
    have hlink := h.links i h2 hm
    rw [(hput i).2.2.1]
    omega

theorem sound_push_file (h : Sound B v) (hB : ∀ k, (v k).isDir = true → k ∈ B) {P : ℕ}
    (hP : (v P).isDir = false) (d : Dirent) : Sound B (put v P (File.push d)) := by
  have hent : ∀ x, (v x).isDir = true → put v P (File.push d) x = v x := by
    rintro x hx
    apply put_of_ne _ _
    rintro rfl
    rw [hP] at hx
    exact Bool.false_ne_true hx
  refine h.narrow ((Edit.push d).isDir v P) (fun i => by rw [(Edit.push d).put_metadata])
    (dirs_edit h.dirs (.push d) P) ?_ ?_ ?_
  · intro x hx e hm
    rw [hent x hx] at hm
    exact Or.inl ⟨e,hm,rfl⟩
  · intro x hx e hm
    rw [hent x hx] at hm
    exact h.back x hx e hm
  · intro i h2 hi
    rw [total_push (hB P), hP, (Edit.push d).put_metadata]
    simpa using h.links i h2 hi

theorem sound_effect {K K' : Set ℕ} {c : Call} {r : ℤ} {n' : ℕ} (h : Sound B v)
    (herr : (v errIno).isReg = false) (hroot : (v 2).isReg = false) (hs : Numbers v n)
    (hf : Fresh v n) (hl : 3 ≤ n)
    (hb : n' ≤ 2^31) (hB : ∀ k, k < n' → k ∈ B) (hc : treeCall c = true)
    (hm : chmodPerm c = true) (hk : KeepsTargets v c) (hn : n ≤ n')
    (he : Effect v K n c r w K' n') : Sound B w := by
  have h0 := (untyped hs.sentinel).1
  have hin : ∀ k, (v k).isDir = true → k ∈ B :=
    fun k hd => hB k (Nat.lt_of_lt_of_le (h.dirs.lt hs hd).2 hn)
  have hplaced : ∀ path, (v (resolve v path)).isDir = true → Placed v (resolve v path) :=
    fun path hd => h.placed_resolve hs (hn.trans hb) hd
  have hmade : ∀ path, resolve v path ≠ 0 → resolve v path ≠ errIno → resolve v path ≠ 2 →
      Made v (resolve v path) :=
    fun path hz he h2 => h.made_visible (visible_resolve h0 hz he) h2
  have herrMade : ¬ Made v errIno := by
    rintro ⟨hz,hi⟩
    rcases hs.numbered errIno with h0' | ⟨-,hlt⟩
    · exact hz (hi.symm.trans h0')
    · rw [errIno] at hlt
      omega
  cases he with
  | idle => exact h
  | leaked f create spent stopped new empty =>
    exact (h.fresh hs hf hl new (by simp [empty])).1
  | entered path f create spent go new dots =>
    obtain ⟨hfresh,hsame⟩ := h.fresh hs hf hl new (by rw [dots]; exact dotEntries_dots n _ f)
    have hP := hf.resolve_ne (parentPath path)
    have hPn : Function.update v n f (resolve v (parentPath path)) =
        v (resolve v (parentPath path)) := Function.update_of_ne hP f v
    have hB1 : ∀ k, (Function.update v n f k).isDir = true → k ∈ B := by
      intro k hd
      by_cases hkn : k = n
      · rw [hkn]
        exact hB n (Nat.lt_succ_self n)
      · rw [Function.update_of_ne hkn] at hd
        exact hin k hd
    by_cases hPd : (v (resolve v (parentPath path))).isDir = true
    · apply hfresh.enter hB1 ((hsame _).mpr (hplaced _ hPd)) (h.dirs.lt hs hPd).2
      · rw [Made, Function.update_self]
        exact ⟨hf.ne_zero,new.ino⟩
      · rw [Function.update_self]
        exact new.nlink
      · intro k hkn d hmem
        rw [Function.update_of_ne hkn] at hmem
        exact hf.unnamed k d hmem
      · intro _ d hmem
        rw [Function.update_self, dots, dotEntries] at hmem
        split_ifs at hmem
        · rcases List.mem_cons.mp hmem with rfl | hmem
          · exact Or.inl rfl
          · rw [List.mem_singleton] at hmem
            subst hmem
            exact Or.inr rfl
        · simp at hmem
    · refine sound_push_file hfresh hB1 ?_ _
      rw [hPn]
      simpa using hPd
  | linked path newpath go =>
    have hreg := go.2.1
    have hne : ∀ k, (v k).isReg = false → resolve v path ≠ k := by
      rintro k hk rfl
      rw [hk] at hreg
      exact Bool.false_ne_true hreg
    have hdir : (v (resolve v path)).isDir = false := isDir_of_isReg hreg
    exact sound_linkView h hin hdir (hmade path go.1 (hne _ herr) (hne _ hroot))
  | unlinked path go =>
    exact sound_unlinkView h hin (hplaced _) go.2 (fun h2 he => hmade path go.1 he h2) herrMade
      (hk go)
  | removed path go => exact sound_rmdirView h hin (hplaced _) go.1 (hk go)
  | renamed path newpath go =>
    exact sound_renameView h hin (hplaced _) (hplaced _) go (hmade path) (hk go)
  | retyped path mode =>
    have hmode : typeBits mode = 0 := by simpa [chmodPerm] using hm
    exact sound_keeps h hin (fun _ => rfl) (fun _ => rfl) (fun _ => rfl) (chmodStat_isDir hmode)
  | opened => simp [treeCall] at hc
  | closed => simp [treeCall] at hc
  | written fh buf size offset data =>
    exact sound_keeps h hin (fun _ => rfl) (fun _ => rfl) (fun _ => rfl) (fun _ => rfl)
  | patched k g keeps =>
    refine sound_keeps h hin keeps.dentries keeps.stIno keeps.stNlink (fun f => ?_)
    rw [File.isDir, keeps.stMode, File.isDir]

theorem rootView_sound (env : Env) : Sound B (rootView env) := by
  have hdir : ∀ k, (rootView env k).isDir = true → k = 2 := by
    intro k hk
    by_contra h2
    rw [rootView_other env h2] at hk
    simp at hk
  have hent : ∀ k, ∀ d ∈ (rootView env k).dentries, d.dIno = 2 := by
    intro k d hd
    by_cases h2 : k = 2
    · subst h2
      rw [rootView_root] at hd
      rcases List.mem_cons.mp hd with rfl | hd
      · rfl
      · rw [List.mem_singleton] at hd
        rw [hd]
    · rw [rootView_other env h2] at hd
      simp at hd
  refine ⟨rootView_dirs env,fun k hk => (hdir k hk).ge,?_,?_,?_,?_⟩
  · intro x _ d hd
    rw [hent x d hd, Made, rootView_root]
    exact ⟨two_ne_zero,rfl⟩
  · intro i h2 hi
    have hz := hi.2
    rw [rootView_other env h2] at hz
    exact absurd hz.symm hi.1
  · exact fun x _ d hd _ h2 => absurd (hent x d hd) h2
  · exact fun x _ d hd _ h2 => absurd (hent x d hd) h2

def treeSession (l : Label) (_ : Fs) : Prop := treeCall l.2 = true ∧ chmodPerm l.2 = true

instance (l : Label) (s : Fs) : Decidable (treeSession l s) := inferInstanceAs (Decidable (_ ∧ _))

def keepsTargets (l : Label) (s : Fs) : Prop := treeSession l s ∧ KeepsTargets s.file l.2

instance (l : Label) (s : Fs) : Decidable (keepsTargets l s) :=
  inferInstanceAs (Decidable (_ ∧ _))

theorem sessions_sound {env : Env} {s : Fs} (h : Sessions env keepsTargets s)
    (hB : ∀ k, k < 2^31 → k ∈ B) :
    Sound B s.file ∧ (s.file errIno).isReg = false ∧ (s.file 2).isReg = false := by
  have h0 : Sound B (initialized env).file ∧ ((initialized env).file errIno).isReg = false ∧
      ((initialized env).file 2).isReg = false := by
    rw [(initialized_eq env).2.2.2]
    refine ⟨rootView_sound env,?_,?_⟩
    · rw [rootView_other env (by decide)]
      exact File.default_isReg
    · rw [rootView_root]
      exact ((type_exclusive _).1 (rootFile_isDir env)).1
  have hstep : ∀ l t t' r, Settled t → Settled t' →
      Sound B t.file ∧ (t.file errIno).isReg = false ∧ (t.file 2).isReg = false →
      keepsTargets l t → answer l.1 l.2 t = some (r,t') →
      Effect t.file t.keys t.count l.2 r t'.file t'.keys t'.count →
      Sound B t'.file ∧ (t'.file errIno).isReg = false ∧ (t'.file 2).isReg = false := by
    intro l t t' r hs hs' ⟨hv,herr,hroot⟩ ⟨⟨hc,hm⟩,hk⟩ _ he
    have hn := (numbers_effect hs.toNumbers hs.low he).2.1
    have hB' : ∀ k, k < t'.count → k ∈ B :=
      fun k hk => hB k (Nat.lt_of_lt_of_le hk hs'.high)
    exact ⟨sound_effect hv herr hroot hs.toNumbers hs.fresh hs.low hs'.high hB' hc hm hk hn he,
      isReg_effect herr hs.fresh.ne_err.symm hc hm he,
      isReg_effect hroot hs.fresh.ne_root.symm hc hm he⟩
  exact sessions_invariant h h0 hstep

theorem mem_of_made {s : Fs} {i : ℕ} (h : Made s.file i) : i ∈ s.entry := by
  by_contra hi
  have hz := h.2
  rw [Fs.file, InsertingMap.read_of_notMem hi] at hz
  exact h.1 hz.symm

/-- Along a run that keeps its targets, what any entry of a directory reached
from the root names is in the table and was made under that number. -/
theorem no_entry_dangles {env : Env} {s : Fs} (h : Sessions env keepsTargets s) {x : ℕ}
    (hx : Visible s.file x) (hd : (s.file x).isDir = true) :
    ∀ d ∈ (s.file x).dentries,
      d.dIno ≠ 0 ∧ d.dIno ∈ s.entry ∧ (s.file d.dIno).metadata.stIno = d.dIno := by
  obtain ⟨B,hB⟩ : ∃ B : Finset ℕ, ∀ k, k < 2^31 → k ∈ B :=
    ⟨(Set.finite_Iio (2^31)).toFinset,fun k hk => (Set.Finite.mem_toFinset _).mpr hk⟩
  have hs := (sessions_sound h hB).1
  intro d hm
  have hmade := hs.made x (hs.placed hx hd) d hm
  exact ⟨hmade.1,mem_of_made hmade,hmade.2⟩

theorem no_entry_dangles_run :
    4 ∈ (after [.mkdir ['/','d'] 0o755#32,.creat ['/','d','/','f'] 0o644#32,
        .link ['/','d','/','f'] ['/','g'],.unlink ['/','d','/','f'],
        .rename ['/','g'] ['/','h'],.rmdir ['/','d']]).entry ∧
      ((after [.mkdir ['/','d'] 0o755#32,.creat ['/','d','/','f'] 0o644#32,
        .link ['/','d','/','f'] ['/','g'],.unlink ['/','d','/','f'],
        .rename ['/','g'] ['/','h'],.rmdir ['/','d']]).file 4).metadata.stIno = 4 :=
  (no_entry_dangles (after_session (by decide +kernel) (by decide +kernel)) Visible.root
    (by decide +kernel) ⟨['h'],4⟩ (by decide +kernel)).2

/-- Renaming a missing file stores the handle 0. -/
theorem missing_rename_dangles :
    Sessions plainEnv treeSession (after [.rename ['/','x'] ['/','y']]) ∧
    Visible (after [.rename ['/','x'] ['/','y']]).file 2 ∧
    ((after [.rename ['/','x'] ['/','y']]).file 2).isDir = true ∧
    (⟨['y'],0⟩ : Dirent) ∈ ((after [.rename ['/','x'] ['/','y']]).file 2).dentries :=
  ⟨after_session (by decide) (by decide),Visible.root,by decide,by decide⟩

end Bbfs.Dangling
