import Bbfs.Directories

/-!
# The entries `.` and `..`

They are written when a directory is made. A run keeps them right as long as
no other entry of these names is added to a directory and no directory is
moved out of the one its `..` names: `my_rename` does not rewrite it.
-/

set_option autoImplicit false

namespace Bbfs.DotEntries
open Bbfs.Strings Bbfs.Files Bbfs.Resolve Bbfs.Calls Bbfs.Session Bbfs.Walks Bbfs.Effects
open Bbfs.Outcomes Bbfs.Numbers Bbfs.Directories

variable {v w : View} {n : ℕ}

/-- The dots of a held directory name it and its holder. The root may be held
by itself only, and its own dots lead to it. -/
structure DotsRight (v : View) : Prop where
  dirs : Dirs v
  held : ∀ x y, Holds v x y → (v y).isDir = true → y ≠ 2 →
    under dot (v y) = [y] ∧ under dotdot (v y) = [x]
  heldRoot : ∀ x, Holds v x 2 → (v 2).isDir = true → x = 2
  root : (v 2).isDir = true → (firstNamed dot (v 2)).map Dirent.dIno = some 2 ∧
    (firstNamed dotdot (v 2)).map Dirent.dIno = some 2

/-- An entry added under a dot name goes to the root or to no directory; a
rename puts a directory only into the directory its `..` names. -/
def KeepsDots (v : View) (c : Call) : Prop :=
  Proceeds v c → match c with
  | .mknod path _ _ | .mkdir path _ | .creat path _ | .symlink _ path | .link _ path =>
    IsDots (tail path) → (v (resolve v (parentPath path))).isDir = true →
      resolve v (parentPath path) = 2
  | .rename path newpath => (v (resolve v (parentPath newpath))).isDir = true →
    ¬ IsDots (tail newpath) ∧ ((v (resolve v path)).isDir = true →
      nameIn v dotdot (resolve v path) = resolve v (parentPath newpath))
  | _ => True

instance (v : View) (c : Call) : Decidable (KeepsDots v c) := by
  induction c using Call.casesOn <;> unfold KeepsDots <;> infer_instance

theorem DotsRight.nameIn_root (h : DotsRight v) (hd : (v 2).isDir = true) {name : Str}
    (hn : IsDots name) : nameIn v name 2 = 2 := by
  obtain ⟨h1,h2⟩ := h.root hd
  rw [nameIn_eq, if_pos hd]
  rcases hn with rfl | rfl
  · obtain ⟨d,hf,hi⟩ := Option.map_eq_some_iff.mp h1
    rw [hf]
    exact hi
  · obtain ⟨d,hf,hi⟩ := Option.map_eq_some_iff.mp h2
    rw [hf]
    exact hi

theorem nameIn_of_under {name : Str} {k i : ℕ} (hd : (v k).isDir = true)
    (hu : under name (v k) = [i]) : nameIn v name k = i := by
  rw [nameIn_under, if_pos hd, hu]
  rfl

theorem DotsRight.reached_nameIn (h : DotsRight v) {k : ℕ} (hk : Reached v k)
    (hd : (v k).isDir = true) (name : Str) (h0 : nameIn v name k ≠ 0) :
    Reached v (nameIn v name k) := by
  rcases nameIn_origin (v := v) name k with hz | ⟨-,d,hm,hn,hi⟩
  · exact absurd hz h0
  by_cases hdots : IsDots name
  · cases hk with
    | root =>
      rw [h.nameIn_root hd hdots]
      exact Reached.root
    | @child x _ before holds =>
      by_cases h2 : k = 2
      · subst h2
        rw [h.nameIn_root hd hdots]
        exact Reached.root
      obtain ⟨h1,h2⟩ := h.held x k holds hd h2
      rcases hdots with rfl | rfl
      · rw [nameIn_of_under hd h1]
        exact Reached.child before holds
      · rw [nameIn_of_under hd h2]
        exact before
  · exact Reached.child hk ⟨hd,d,hm,hn ▸ hdots,hi⟩

theorem DotsRight.reached_walk (h : DotsRight v) (h0 : (v 0).isDir = false) (segs : List Str)
    {k : ℕ} (hk : Reached v k) (hd : (v (walk v k segs)).isDir = true) :
    Reached v (walk v k segs) := by
  induction segs generalizing k with
  | nil => exact hk
  | cons it segs ih =>
    rw [walk] at hd ⊢
    split_ifs at hd ⊢ with he hdir
    · exact ih hk hd
    · by_cases hz : nameIn v it k = 0
      · rw [hz, walk_zero h0, h0] at hd
        exact absurd hd Bool.false_ne_true
      · exact ih (h.reached_nameIn hk hdir it hz) hd
    · rw [h0] at hd
      exact absurd hd Bool.false_ne_true

theorem DotsRight.reached_resolve (h : DotsRight v) (hn : Numbers v n) (hb : n ≤ 2^31)
    (path : Str) (hd : (v (resolve v path)).isDir = true) : Reached v (resolve v path) := by
  have h0 := (untyped hn.sentinel).1
  rcases resolve_real (v := v) path with he | ⟨q,hq⟩
  · have hlt := (h.dirs.lt hn hd).2
    rw [he, errIno] at hlt
    omega
  · rw [hq] at hd ⊢
    exact h.reached_walk h0 (segments q) Reached.root hd

theorem dotsRight_drop (h : DotsRight v) {k : ℕ} {g : File → File} (hg : Edit g)
    (hs : (g (v k)).dentries ⊆ (v k).dentries)
    (hu : (v k).isDir = true → k ≠ 2 →
      under dot (g (v k)) = under dot (v k) ∧ under dotdot (g (v k)) = under dotdot (v k))
    (hf : (v 2).isDir = true → k = 2 →
      firstNamed dot (g (v 2)) = firstNamed dot (v 2) ∧
        firstNamed dotdot (g (v 2)) = firstNamed dotdot (v 2)) :
    DotsRight (put v k g) := by
  have hdir := hg.isDir v k
  have hheld : ∀ x y, Holds (put v k g) x y → Holds v x y := by
    intro x y h
    refine holds_shrink ?_ hs h
    rw [File.isDir, hg.metadata]
    exact id
  refine ⟨dirs_edit h.dirs hg k,?_,?_,?_⟩
  · intro x y hxy hy h2
    rw [hdir] at hy
    have hold := h.held x y (hheld x y hxy) hy h2
    by_cases hyk : y = k
    · subst hyk
      rw [put_self, (hu hy h2).1, (hu hy h2).2]
      exact hold
    · rw [put_of_ne _ _ hyk]
      exact hold
  · intro x hx h2
    rw [hdir] at h2
    exact h.heldRoot x (hheld x 2 hx) h2
  · intro h2
    rw [hdir] at h2
    have hold := h.root h2
    by_cases hk : 2 = k
    · subst hk
      rw [put_self, (hf h2 rfl).1, (hf h2 rfl).2]
      exact hold
    · rw [put_of_ne _ _ hk]
      exact hold

theorem dotsRight_dropNamed (h : DotsRight v) (k : ℕ) {name : Str} (hn : ¬ IsDots name) :
    DotsRight (put v k (File.dropNamed name)) := by
  have hdot : dot ≠ name := fun he => hn (Or.inl he.symm)
  have hdotdot : dotdot ≠ name := fun he => hn (Or.inr he.symm)
  apply dotsRight_drop h (.dropNamed name) List.eraseP_subset
  · exact fun _ _ => ⟨under_dropNamed hdot,under_dropNamed hdotdot⟩
  · intro h2 _
    obtain ⟨h1,h2'⟩ := h.root h2
    obtain ⟨d,hd,-⟩ := Option.map_eq_some_iff.mp h1
    obtain ⟨e,he,-⟩ := Option.map_eq_some_iff.mp h2'
    rw [firstNamed_dropNamed hdot hd, firstNamed_dropNamed hdotdot he, hd, he]
    exact ⟨rfl,rfl⟩

theorem dotsRight_erase (h : DotsRight v) (k : ℕ) : DotsRight (Function.update v k default) := by
  have hne : ∀ i, (Function.update v k default i).isDir = true → i ≠ k := by
    rintro i hi rfl
    simp at hi
  refine ⟨dirs_update h.dirs (by simp),?_,?_,?_⟩
  · intro x y hxy hy h2
    have hyk := hne y hy
    rw [Function.update_of_ne hyk] at hy ⊢
    exact h.held x y (holds_erase hxy) hy h2
  · intro x hx h2
    have hk := hne 2 h2
    rw [Function.update_of_ne hk] at h2
    exact h.heldRoot x (holds_erase hx) h2
  · intro h2
    have hk := hne 2 h2
    rw [Function.update_of_ne hk] at h2 ⊢
    exact h.root h2

theorem dotsRight_nlink (h : DotsRight v) {k : ℕ} (hk : (v k).isDir = false) (g : Stat → Stat)
    (hm : ∀ m, (g m).stMode = m.stMode) : DotsRight (put v k (File.setStat g)) := by
  have hdir : ∀ i, (put v k (File.setStat g) i).isDir = (v i).isDir ∧
      (put v k (File.setStat g) i).dentries = (v i).dentries := by
    intro i
    by_cases hi : i = k
    · subst hi
      rw [put_self, File.isDir, File.setStat_metadata, hm, File.isDir]
      exact ⟨rfl,rfl⟩
    · rw [put_of_ne _ _ hi]
      exact ⟨rfl,rfl⟩
  have hheld : ∀ x y, Holds (put v k (File.setStat g)) x y → Holds v x y := by
    intro x y h
    refine holds_shrink ?_ (List.Subset.refl _) h
    rw [File.isDir, File.setStat_metadata, hm]
    exact id
  refine ⟨dirs_put h.dirs ?_,?_,?_,?_⟩
  · intro hd
    rw [File.isDir, File.setStat_metadata, hm] at hd
    have hd' : (v k).isDir = true := hd
    simp [hk] at hd'
  · intro x y hxy hy h2
    rw [(hdir y).1] at hy
    rw [under, under, (hdir y).2]
    exact h.held x y (hheld x y hxy) hy h2
  · intro x hx h2
    rw [(hdir 2).1] at h2
    exact h.heldRoot x (hheld x 2 hx) h2
  · intro h2
    rw [(hdir 2).1] at h2
    rw [firstNamed, firstNamed, (hdir 2).2]
    exact h.root h2

theorem dotsRight_dropLink (h : DotsRight v) (fh : ℕ) : DotsRight (dropLink v fh) := by
  unfold dropLink
  split_ifs with hl
  · exact dotsRight_erase h fh
  · refine dotsRight_nlink h ?_ _ (fun _ => rfl)
    by_contra hd
    exact hl (h.dirs.lastLink (by simpa using hd))

theorem dotsRight_push (h : DotsRight v) {P i : ℕ} {name : Str}
    (hdots : IsDots name → (v P).isDir = true → P = 2)
    (hi : (v P).isDir = true → ¬ IsDots name → (v i).isDir = true →
      (i = 2 → P = 2) ∧ (i ≠ 2 → under dot (v i) = [i] ∧ under dotdot (v i) = [P])) :
    DotsRight (put v P (File.push ⟨name,i⟩)) := by
  have hdir := (Edit.push ⟨name,i⟩).isDir v P
  have hunder : ∀ y, (v y).isDir = true → y ≠ 2 →
      under dot (put v P (File.push ⟨name,i⟩) y) = under dot (v y) ∧
        under dotdot (put v P (File.push ⟨name,i⟩) y) = under dotdot (v y) := by
    intro y hy h2
    by_cases hyP : y = P
    · subst hyP
      have hn : ¬ IsDots name := fun hd => h2 (hdots hd hy)
      rw [put_self, under_push, under_push, if_neg (fun he => hn (Or.inl he)),
        if_neg (fun he => hn (Or.inr he)), List.append_nil, List.append_nil]
      exact ⟨rfl,rfl⟩
    · rw [put_of_ne _ _ hyP]
      exact ⟨rfl,rfl⟩
  refine ⟨dirs_edit h.dirs (.push _) P,?_,?_,?_⟩
  · intro x y hxy hy h2
    rw [hdir] at hy
    rw [(hunder y hy h2).1, (hunder y hy h2).2]
    rcases holds_push hxy with hold | ⟨rfl,rfl,hP,hn⟩
    · exact h.held x y hold hy h2
    · exact (hi hP hn hy).2 h2
  · intro x hx h2
    rw [hdir] at h2
    rcases holds_push hx with hold | ⟨rfl,h2i,hP,hn⟩
    · exact h.heldRoot x hold h2
    · rw [h2i] at h2
      exact (hi hP hn h2).1 h2i.symm
  · intro h2
    rw [hdir] at h2
    obtain ⟨h1,h1'⟩ := h.root h2
    by_cases h2P : 2 = P
    · subst h2P
      obtain ⟨d,hd,hdi⟩ := Option.map_eq_some_iff.mp h1
      obtain ⟨e,he,hei⟩ := Option.map_eq_some_iff.mp h1'
      rw [put_self, firstNamed_push hd, firstNamed_push he]
      exact ⟨congrArg some hdi,congrArg some hei⟩
    · rw [put_of_ne _ _ h2P]
      exact ⟨h1,h1'⟩

theorem dotsRight_fresh (h : DotsRight v) (hf : Fresh v n) {f : File} {kind : Mode}
    (new : NewFile n kind f) (hd : ∀ d ∈ f.dentries, IsDots d.dName) :
    DotsRight (Function.update v n f) := by
  refine ⟨dirs_update h.dirs (fun _ => ⟨new.nlink,new.ino⟩),?_,?_,?_⟩
  · intro x y hxy hy h2
    obtain ⟨hold,-,hyn⟩ := holds_fresh hf hd hxy
    rw [Function.update_of_ne hyn] at hy ⊢
    exact h.held x y hold hy h2
  · intro x hx h2
    rw [Function.update_of_ne hf.ne_root.symm] at h2
    exact h.heldRoot x (holds_fresh hf hd hx).1 h2
  · intro h2
    rw [Function.update_of_ne hf.ne_root.symm] at h2 ⊢
    exact h.root h2

theorem DotsRight.has_dots (h : DotsRight v) {k : ℕ} (hk : Reached v k) (hd : (v k).isDir = true) :
    ∃ d e, firstNamed dot (v k) = some d ∧ firstNamed dotdot (v k) = some e := by
  by_cases h2 : k = 2
  · subst h2
    obtain ⟨h1,h1'⟩ := h.root hd
    obtain ⟨d,hd,-⟩ := Option.map_eq_some_iff.mp h1
    obtain ⟨e,he,-⟩ := Option.map_eq_some_iff.mp h1'
    exact ⟨d,e,hd,he⟩
  · cases hk with
    | root => exact absurd rfl h2
    | @child x _ before holds =>
      obtain ⟨h1,h1'⟩ := h.held x k holds hd h2
      obtain ⟨d,hd,-⟩ := firstNamed_of_under h1
      obtain ⟨e,he,-⟩ := firstNamed_of_under h1'
      exact ⟨d,e,hd,he⟩

theorem DotsRight.small (h : DotsRight v) {k : ℕ} (hk : Reached v k) (hd : (v k).isDir = true)
    (hl : (v k).dentries.length ≤ 2) (y : ℕ) : ¬ Holds v k y := by
  rintro ⟨-,d₃,h₃,n₃,-⟩
  obtain ⟨d,e,h1,h2⟩ := h.has_dots hk hd
  have := three_le_length (firstNamed_mem h1).1 (firstNamed_mem h2).1 h₃ (firstNamed_mem h1).2
    (firstNamed_mem h2).2 n₃
  omega

/-- In another reached directory the first entry for a small one is no dot that
matters: a dot there would lead to its holder, which is not small. -/
theorem DotsRight.first_for_small (h : DotsRight v) {P fh : ℕ} (hP : Reached v P)
    (hPd : (v P).isDir = true) (hne : P ≠ fh) (hP2 : P ≠ 2) (hf : Reached v fh)
    (hd : (v fh).isDir = true) (hl : (v fh).dentries.length ≤ 2) {d : Dirent}
    (hm : d ∈ (v P).dentries) (hi : d.dIno = fh) : ¬ IsDots d.dName := by
  cases hP with
  | root => exact absurd rfl hP2
  | @child x _ before holds =>
    obtain ⟨h1,h2⟩ := h.held x P holds hPd hP2
    rintro (hn | hn)
    · have hmem := mem_under hm hn
      rw [h1, List.mem_singleton, hi] at hmem
      exact hne hmem.symm
    · have hmem := mem_under hm hn
      rw [h2, List.mem_singleton, hi] at hmem
      subst hmem
      exact h.small hf hd hl P holds

theorem dotsRight_rmdirView (h : DotsRight v) {P fh : ℕ} (hP : (v P).isDir = true → Reached v P)
    (hf : Reached v fh) (hd : (v fh).isDir = true) (hl : (v fh).dentries.length ≤ 2) :
    DotsRight (rmdirView v P fh) := by
  rw [rmdirView, if_pos (h.dirs.lastLink hd)]
  by_cases hne : P = fh
  · subst hne
    have hw : Function.update (put v P (File.dropIno P)) P default =
        Function.update v P default := by
      simp [put]
    rw [hw]
    exact dotsRight_erase h P
  refine dotsRight_erase (dotsRight_drop h (.dropIno fh) List.eraseP_subset ?_ ?_) fh
  · intro hPd h2
    have hfirst : ∀ d, (v P).dentries.find? (fun d => d.dIno == fh) = some d →
        ¬ IsDots d.dName := by
      intro d hfind
      have hi : d.dIno = fh := by simpa using List.find?_some hfind
      exact h.first_for_small (hP hPd) hPd hne h2 hf hd hl (List.mem_of_find?_eq_some hfind) hi
    have hkeep : ∀ m, IsDots m → under m ((v P).dropIno fh) = under m (v P) := by
      intro m hm
      refine congrArg (List.map Dirent.dIno) (filter_eraseP ?_)
      intro d hfind
      have hn := hfirst d hfind
      simp only [beq_eq_false_iff_ne]
      rintro rfl
      exact hn hm
    exact ⟨hkeep dot (Or.inl rfl),hkeep dotdot (Or.inr rfl)⟩
  · intro h2 hP2
    subst hP2
    have hroot : ∀ m d, firstNamed m (v 2) = some d → d.dIno = 2 →
        firstNamed m ((v 2).dropIno fh) = some d := by
      intro m d hfirst hi
      refine find?_eraseP hfirst ?_
      simp only [hi, beq_eq_false_iff_ne]
      exact hne
    obtain ⟨h1,h1'⟩ := h.root h2
    obtain ⟨d,hd,hdi⟩ := Option.map_eq_some_iff.mp h1
    obtain ⟨e,he,hei⟩ := Option.map_eq_some_iff.mp h1'
    rw [hroot dot d hd hdi, hroot dotdot e he hei, hd, he]
    exact ⟨rfl,rfl⟩

theorem under_put_dropNamed {m name : Str} (hm : m ≠ name) (i k : ℕ) :
    under m (put v i (File.dropNamed name) k) = under m (v k) := by
  by_cases hk : k = i
  · subst hk
    rw [put_self, under_dropNamed hm]
  · rw [put_of_ne _ _ hk]

theorem dotsRight_renameView (h : DotsRight v) {P Q i : ℕ} {name newname : Str}
    (hn : ¬ IsDots name) (hi : (v i).isDir = true → Reached v i)
    (hc : (v Q).isDir = true → ¬ IsDots newname ∧
      ((v i).isDir = true → nameIn v dotdot i = Q)) :
    DotsRight (renameView v P Q name newname i) := by
  have hQ : nameIn v newname Q ≠ 0 → ¬ IsDots newname := by
    intro hfound
    by_cases hd : (v Q).isDir = true
    · exact (hc hd).1
    · exact absurd (by rw [nameIn_eq, if_neg hd]) hfound
  have hclear : DotsRight (clearView v P Q name newname) := by
    unfold clearView
    split_ifs with hfound
    · exact dotsRight_dropNamed (dotsRight_dropNamed h Q (hQ hfound)) P hn
    · exact dotsRight_dropNamed h P hn
  have hunder : ∀ m, IsDots m → under m (clearView v P Q name newname i) = under m (v i) := by
    intro m hm
    have h1 : m ≠ name := fun he => hn (he ▸ hm)
    unfold clearView
    rw [under_put_dropNamed h1]
    split_ifs with hfound
    · have h2 : m ≠ newname := fun he => hQ hfound (he ▸ hm)
      exact under_put_dropNamed h2 Q i
    · rfl
  apply dotsRight_push hclear
  · intro hdots hd
    rw [clearView_isDir] at hd
    exact absurd hdots (hc hd).1
  · intro hQd _ hid
    rw [clearView_isDir] at hQd hid
    have hup := (hc hQd).2 hid
    constructor
    · rintro rfl
      rw [← hup, h.nameIn_root hid (Or.inr rfl)]
    · intro h2
      cases hi hid with
      | root => exact absurd rfl h2
      | @child x _ before holds =>
        obtain ⟨hu,hu'⟩ := h.held x i holds hid h2
        rw [nameIn_of_under hid hu'] at hup
        rw [hunder dot (Or.inl rfl), hunder dotdot (Or.inr rfl), hu, hu', hup]
        exact ⟨rfl,rfl⟩

theorem dotsRight_effect {K K' : Set ℕ} {c : Call} {r : ℤ} {n' : ℕ} (h : DotsRight v)
    (hs : Numbers v n) (hf : Fresh v n) (hb : n ≤ 2^31) (hc : c.isNamespace = true)
    (hk : KeepsDots v c) (he : Effect v K n c r w K' n') : DotsRight w := by
  have hreach := h.reached_resolve hs hb
  cases he with
  | idle => exact h
  | leaked f create spent stopped new empty =>
    exact dotsRight_fresh h hf new (by simp [empty])
  | entered path f create spent go new dots =>
    have hP := hf.resolve_ne (parentPath path)
    have hn : n ≠ 2 := hf.ne_root
    have hdots : IsDots (tail path) → (v (resolve v (parentPath path))).isDir = true →
        resolve v (parentPath path) = 2 := by
      rcases created_cases create with ⟨_,_,rfl⟩ | ⟨_,rfl⟩ | ⟨_,rfl⟩ | ⟨_,rfl⟩ <;> exact hk go
    have hnew := dotsRight_fresh h hf new (by rw [dots]; exact dotEntries_dots n _ f)
    apply dotsRight_push hnew
    · rw [Function.update_of_ne hP]
      exact hdots
    · intro _ _ hd
      rw [Function.update_self] at hd ⊢
      refine ⟨fun h2 => absurd h2 hn,fun _ => ?_⟩
      rw [under, under, dots, dotEntries, if_pos hd]
      simp [dot, dotdot]
  | linked path newpath go =>
    have hreg : (v (resolve v path)).isDir = false := isDir_of_isReg go.2.1
    have hlink := dotsRight_nlink h hreg incNlink (fun _ => rfl)
    have hdir : ∀ k, (put v (resolve v path) (File.setStat incNlink) k).isDir = (v k).isDir :=
      setStat_isDir (g := incNlink) (fun _ => rfl) (resolve v path)
    apply dotsRight_push hlink
    · rw [hdir]
      exact hk go
    · intro _ _ hd
      rw [hdir, hreg] at hd
      exact absurd hd Bool.false_ne_true
  | unlinked path go => exact dotsRight_dropLink (dotsRight_dropNamed h _ go.2) _
  | removed path go =>
    exact dotsRight_rmdirView h (hreach (parentPath path)) (hreach path go.1) go.1 go.2
  | renamed path newpath go => exact dotsRight_renameView h go (hreach path) (hk go)
  | retyped => simp [Call.isNamespace] at hc
  | opened => simp [Call.isNamespace] at hc
  | closed => simp [Call.isNamespace] at hc
  | written => simp [Call.isNamespace] at hc
  | patched k g keeps other =>
    exact absurd (other.symm.trans (edits_of_isNamespace hc)) Bool.false_ne_true

theorem rootView_dotsRight (env : Env) : DotsRight (rootView env) := by
  have hroot : ∀ x y, ¬ Holds (rootView env) x y :=
    fun x _ => not_holds_of_dots (rootView_dots env x)
  refine ⟨rootView_dirs env,fun x y h => absurd h (hroot x y),fun x h => absurd h (hroot x 2),?_⟩
  intro _
  rw [rootView_root]
  exact ⟨rfl,rfl⟩

def keepsDots (l : Label) (s : Fs) : Prop := l.2.isNamespace = true ∧ KeepsDots s.file l.2

instance (l : Label) (s : Fs) : Decidable (keepsDots l s) := inferInstanceAs (Decidable (_ ∧ _))

theorem sessions_dotsRight {env : Env} {s : Fs} (h : Sessions env keepsDots s) :
    DotsRight s.file := by
  have h0 : DotsRight (initialized env).file := by
    rw [(initialized_eq env).2.2.2]
    exact rootView_dotsRight env
  have hstep : ∀ l t t' r, Settled t → Settled t' → DotsRight t.file → keepsDots l t →
      answer l.1 l.2 t = some (r,t') →
      Effect t.file t.keys t.count l.2 r t'.file t'.keys t'.count → DotsRight t'.file :=
    fun l t t' r hs _ hd hc _ he =>
      dotsRight_effect hd hs.toNumbers hs.fresh hs.high hc.1 hc.2 he
  exact sessions_invariant h h0 hstep

theorem DotsRight.real_dotdot (h : DotsRight v) (h0 : (v 0).isDir = false) (p m : Str)
    (hm : m ≠ []) (hs : '/' ∉ m) (hd : ¬ IsDots m) (hdir : (v (real v (p++ '/'::m))).isDir = true) :
    real v (p++ '/'::m++ '/'::dotdot) = real v p := by
  have hone : ∀ k name, name ≠ [] → '/' ∉ name →
      walk v k (segments name) = if (v k).isDir then nameIn v name k else 0 := by
    intro k name hne hsl
    rw [segments_of_slash_free name hsl, walk, if_neg hne]
    rfl
  have hpm : real v (p++ '/'::m) =
      if (v (real v p)).isDir then nameIn v m (real v p) else 0 := by
    rw [real_append h0, hone _ m hm hs]
  rw [real_append h0, hone _ dotdot (by decide) (by decide), if_pos hdir]
  have hp : (v (real v p)).isDir = true := by
    by_contra hp
    rw [hpm, if_neg hp, h0] at hdir
    exact Bool.false_ne_true hdir
  rw [if_pos hp] at hpm
  have hholds : Holds v (real v p) (real v (p++ '/'::m)) := by
    rcases nameIn_origin (v := v) m (real v p) with hz | ⟨-,d,hmem,hn,hi⟩
    · rw [hpm, hz, h0] at hdir
      exact absurd hdir Bool.false_ne_true
    · exact ⟨hp,d,hmem,hn ▸ hd,hi.trans hpm.symm⟩
  by_cases h2 : real v (p++ '/'::m) = 2
  · rw [h2] at hholds hdir ⊢
    rw [h.nameIn_root hdir (Or.inr rfl), h.heldRoot _ hholds hdir]
  · exact nameIn_of_under hdir (h.held _ _ hholds hdir h2).2

/-- Along a run that keeps the dots, every directory but the root that is
reached by plain names has one `.` for itself and one `..` for the one
directory that holds it; and going down and up again changes no walk. -/
theorem dots_right {env : Env} {s : Fs} (h : Sessions env keepsDots s) :
    (∀ y, Reached s.file y → (s.file y).isDir = true → y ≠ 2 →
      under dot (s.file y) = [y] ∧ ∃ x, under dotdot (s.file y) = [x] ∧ Reached s.file x ∧
        ∀ z, Holds s.file z y ↔ z = x) ∧
    ∀ p m, m ≠ [] → '/' ∉ m → ¬ IsDots m →
      (s.file (findRealIno (p++ '/'::m) s).1).isDir = true →
      (findRealIno (p++ '/'::m++ '/'::dotdot) s).1 = (findRealIno p s).1 := by
  have hd := sessions_dotsRight h
  have h0 := (untyped (sessions_settled h).sentinel).1
  constructor
  · intro y hy hdir h2
    cases hy with
    | root => exact absurd rfl h2
    | @child x _ before holds =>
      obtain ⟨h1,h1'⟩ := hd.held x y holds hdir h2
      refine ⟨h1,x,h1',before,fun z => ⟨?_,?_⟩⟩
      · intro hz
        have hz' := (hd.held z y hz hdir h2).2
        rw [h1', List.singleton_inj] at hz'
        exact hz'.symm
      · rintro rfl
        exact holds
  · intro p m hm hs hn hdir
    simp only [findRealIno_eq] at hdir ⊢
    exact hd.real_dotdot h0 p m hm hs hn hdir

theorem dots_right_run :
    (findRealIno ['/','d','/','e','/','.','.'] (after [.mkdir ['/','d'] 0o755#32,
      .mkdir ['/','d','/','f'] 0o755#32,.rename ['/','d','/','f'] ['/','d','/','e']])).1 = 3 := by
  set s := after [.mkdir ['/','d'] 0o755#32,.mkdir ['/','d','/','f'] 0o755#32,
    .rename ['/','d','/','f'] ['/','d','/','e']] with hs
  have hses : Sessions plainEnv keepsDots s :=
    after_session (by decide +kernel) (by decide +kernel)
  have h3 : (findRealIno ['/','d'] s).1 = 3 := by decide +kernel
  have hdir : (s.file (findRealIno (['/','d']++ '/'::['e']) s).1).isDir = true := by
    decide +kernel
  rw [← h3]
  exact (dots_right hses).2 ['/','d'] ['e'] (by decide) (by decide) (by decide) hdir

/-- A directory moved to another one keeps the `..` of its old place. -/
theorem moved_directory_dotdot :
    Sessions plainEnv namespaceCall (after [.mkdir ['/','d'] 0o755#32,
      .mkdir ['/','d','/','e'] 0o755#32,.rename ['/','d','/','e'] ['/','e']]) ∧
    under dotdot ((after [.mkdir ['/','d'] 0o755#32,.mkdir ['/','d','/','e'] 0o755#32,
      .rename ['/','d','/','e'] ['/','e']]).file 4) = [3] ∧
    (findRealIno ['/','e'] (after [.mkdir ['/','d'] 0o755#32,.mkdir ['/','d','/','e'] 0o755#32,
      .rename ['/','d','/','e'] ['/','e']])).1 = 4 ∧
    (findRealIno ['/','e','/','.','.'] (after [.mkdir ['/','d'] 0o755#32,
      .mkdir ['/','d','/','e'] 0o755#32,.rename ['/','d','/','e'] ['/','e']])).1 ≠
      (findRealIno [] (after [.mkdir ['/','d'] 0o755#32,.mkdir ['/','d','/','e'] 0o755#32,
        .rename ['/','d','/','e'] ['/','e']])).1 :=
  ⟨after_session (by decide +kernel) (by decide +kernel),by decide +kernel,by decide +kernel,
    by decide +kernel⟩

end Bbfs.DotEntries
