import Bbfs.Directories

/-!
# The root directory

Whether the root survives a call is decided by its own file: a call must not
erase it, nor take one of its dots away, nor add a dot that names another
file. `my_rmdir` and `my_unlink` have no guard against the root.
-/

set_option autoImplicit false

namespace Bbfs.Root
open Bbfs.Strings Bbfs.Files Bbfs.Resolve Bbfs.Calls Bbfs.Session Bbfs.Walks Bbfs.Effects
open Bbfs.Numbers Bbfs.Directories Bbfs.Runs

structure RootFile (f : File) : Prop where
  isDir : f.isDir = true
  dots : ∀ d ∈ f.dentries, IsDots d.dName → d.dIno = 2
  hasDot : ∃ d ∈ f.dentries, d.dName = dot
  hasDotdot : ∃ d ∈ f.dentries, d.dName = dotdot

/-- The root is in the table, and `find_real_ino` finds it. -/
def RootStands (s : Fs) : Prop :=
  2 ∈ s.entry ∧ RootFile (s.file 2) ∧ (findRealIno slash s).1 = 2

def takesPath : Call → Bool
  | .fstat .. | .close .. | .pread .. | .pwrite .. | .fdatasync .. | .fsync ..
  | .ftruncate .. => false
  | _ => true

/-- A call that passes its guards does not remove the root or its last link,
and enters nothing else under a dot of the root. -/
def SparesRoot (v : View) (c : Call) : Prop :=
  Proceeds v c → match c with
  | .mknod path _ _ | .mkdir path _ | .link _ path =>
    resolve v (parentPath path) = 2 → ¬ IsDots (tail path)
  | .unlink path => ¬ (resolve v path = 2 ∧ LastLink v 2)
  | .rmdir path => resolve v path ≠ 2
  | .rename path newpath => resolve v (parentPath newpath) = 2 → IsDots (tail newpath) →
    resolve v path = 2
  | _ => True

instance (v : View) (c : Call) : Decidable (SparesRoot v c) := by
  induction c using Call.casesOn <;> unfold SparesRoot <;> infer_instance

variable {v w : View} {n : ℕ} {f : File} {name : Str}

theorem RootFile.of_same {f' : File} (h : RootFile f) (hd : f'.isDir = f.isDir)
    (he : f'.dentries = f.dentries) : RootFile f' where
  isDir := hd.trans h.isDir
  dots := by
    rw [he]
    exact h.dots
  hasDot := by
    rw [he]
    exact h.hasDot
  hasDotdot := by
    rw [he]
    exact h.hasDotdot

theorem RootFile.eraseP (h : RootFile f) {q : Dirent → Bool}
    (hq : ∀ d ∈ f.dentries, IsDots d.dName → q d = false) :
    RootFile { f with dentries := f.dentries.eraseP q } where
  isDir := h.isDir
  dots := fun d hd => h.dots d (List.eraseP_subset hd)
  hasDot := by
    obtain ⟨d,hd,hn⟩ := h.hasDot
    exact ⟨d,(List.mem_eraseP_of_neg (by simp [hq d hd (Or.inl hn)])).mpr hd,hn⟩
  hasDotdot := by
    obtain ⟨d,hd,hn⟩ := h.hasDotdot
    exact ⟨d,(List.mem_eraseP_of_neg (by simp [hq d hd (Or.inr hn)])).mpr hd,hn⟩

theorem RootFile.dropNamed (h : RootFile f) (hn : ¬ IsDots name) : RootFile (f.dropNamed name) := by
  apply h.eraseP
  intro d hd hdots
  rw [beq_eq_false_iff_ne]
  exact fun he => hn (he ▸ hdots)

theorem RootFile.dropIno (h : RootFile f) {i : ℕ} (hi : i ≠ 2) : RootFile (f.dropIno i) := by
  apply h.eraseP
  intro d hd hdots
  rw [h.dots d hd hdots, beq_eq_false_iff_ne]
  exact hi.symm

theorem rootFile_push_iff (h : RootFile f) (i : ℕ) :
    RootFile (f.push ⟨name,i⟩) ↔ (IsDots name → i = 2) := by
  constructor
  · exact fun hp hn => hp.dots ⟨name,i⟩ (by simp) hn
  · intro hi
    refine ⟨h.isDir,?_,?_,?_⟩
    · intro d hd hn
      rw [File.push_dentries, List.mem_append, List.mem_singleton] at hd
      rcases hd with hd | rfl
      · exact h.dots d hd hn
      · exact hi hn
    · obtain ⟨d,hd,hn⟩ := h.hasDot
      exact ⟨d,by simp [hd],hn⟩
    · obtain ⟨d,hd,hn⟩ := h.hasDotdot
      exact ⟨d,by simp [hd],hn⟩

theorem name_replaced {m : Str} {i : ℕ} (h : ∃ d ∈ f.dentries, d.dName = m) :
    ∃ d ∈ ((f.dropNamed name).push ⟨name,i⟩).dentries, d.dName = m := by
  obtain ⟨d,hd,hn⟩ := h
  by_cases hm : m = name
  · exact ⟨⟨name,i⟩,by simp,hm.symm⟩
  · have hne : d.dName ≠ name := fun he => hm (hn ▸ he)
    have hkept : d ∈ (f.dropNamed name).dentries :=
      (List.mem_eraseP_of_neg (by simpa using hne)).mpr hd
    exact ⟨d,by simp [hkept],hn⟩

theorem RootFile.replace (h : RootFile f) :
    RootFile ((f.dropNamed name).push ⟨name,2⟩) where
  isDir := h.isDir
  dots := by
    intro d hd hn
    rw [File.push_dentries, List.mem_append, List.mem_singleton] at hd
    rcases hd with hd | rfl
    · exact h.dots d (List.eraseP_subset hd) hn
    · rfl
  hasDot := name_replaced h.hasDot
  hasDotdot := name_replaced h.hasDotdot

theorem not_rootFile_default : ¬ RootFile default := by
  intro h
  have hd := h.isDir
  rw [File.default_isDir] at hd
  exact Bool.false_ne_true hd

theorem RootFile.two_le (h : RootFile f) : 2 ≤ f.dentries.length := by
  obtain ⟨d,hd,hn⟩ := h.hasDot
  obtain ⟨e,he,hm⟩ := h.hasDotdot
  have hne : d ≠ e := by
    intro hde
    rw [← hde, hn] at hm
    exact absurd hm (by decide)
  have hsub : [d,e] ⊆ f.dentries := by
    intro x hx
    rcases List.mem_cons.mp hx with rfl | hx
    · exact hd
    · rw [List.mem_singleton] at hx
      subst hx
      exact he
  exact (List.subperm_of_subset (by simp [hne]) hsub).length_le

theorem real_alone (h : RootFile (v 2)) (hl : (v 2).dentries.length ≤ 2)
    (h0 : (v 0).isDir = false) (path : Str) : real v path = 2 ∨ real v path = 0 := by
  have hdots : ∀ d ∈ (v 2).dentries, IsDots d.dName := by
    intro d hd
    by_contra hn
    obtain ⟨d₁,h₁,n₁⟩ := h.hasDot
    obtain ⟨d₂,h₂,n₂⟩ := h.hasDotdot
    have := three_le_length h₁ h₂ hd n₁ n₂ hn
    omega
  have hname : ∀ m, nameIn v m 2 = 2 ∨ nameIn v m 2 = 0 := by
    intro m
    rcases nameIn_origin (v := v) m 2 with hz | ⟨-,d,hd,-,hi⟩
    · exact Or.inr hz
    · rw [← hi]
      exact Or.inl (h.dots d hd (hdots d hd))
  unfold real
  induction segments path with
  | nil => exact Or.inl rfl
  | cons it segs ih =>
    rw [walk, h.isDir]
    by_cases he : it = []
    · rw [if_pos he]
      exact ih
    · rw [if_neg he, if_pos rfl]
      rcases hname it with hm | hm
      · rw [hm]
        exact ih
      · rw [hm]
        exact Or.inr (walk_zero h0 segs)

theorem parent_alone (h : RootFile (v 2)) (hl : (v 2).dentries.length ≤ 2)
    (h0 : (v 0).isDir = false) (h0l : (v 0).isLnk = false) {path : Str}
    (hr : resolve v path = 2) : resolve v (parentPath path) = 2 := by
  have hreal : real v path = 2 := by
    rcases real_alone h hl h0 path with hp | hp
    · exact hp
    · rw [resolve, hp, follow_not_lnk h0l] at hr
      omega
  have hparent : real v (parentPath path) = 2 := by
    rcases real_alone h hl h0 (parentPath path) with hp | hp
    · exact hp
    · rw [real_parentPath h0, hp, h0] at hreal
      by_cases ht : tail path = []
      · rw [if_pos ht] at hreal
        omega
      · rw [if_neg ht, if_neg Bool.false_ne_true] at hreal
        omega
  rw [resolve, hparent, follow_dir h.isDir]

theorem rootFile_dropLink_iff (h : RootFile (v 2)) (fh : ℕ) :
    RootFile (dropLink v fh 2) ↔ ¬ (fh = 2 ∧ LastLink v 2) := by
  unfold dropLink
  by_cases hf : fh = 2
  · subst hf
    split_ifs with hl
    · rw [Function.update_self]
      exact iff_of_false not_rootFile_default (fun hn => hn ⟨rfl,hl⟩)
    · rw [put_self]
      exact iff_of_true (h.of_same rfl rfl) (fun hn => hl hn.2)
  · have hsame : RootFile (v 2) ↔ ¬ (fh = 2 ∧ LastLink v 2) :=
      iff_of_true h (fun hn => hf hn.1)
    split_ifs
    · rw [Function.update_of_ne (Ne.symm hf)]
      exact hsame
    · rw [put_of_ne _ _ (Ne.symm hf)]
      exact hsame

theorem RootFile.put (h : RootFile (v 2)) {k : ℕ} {g : File → File}
    (hg : k = 2 → RootFile (g (v 2))) : RootFile (put v k g 2) := by
  by_cases hk : k = 2
  · subst hk
    rw [put_self]
    exact hg rfl
  · rw [put_of_ne _ _ (Ne.symm hk)]
    exact h

theorem rootFile_enter_iff (h : RootFile (v 2)) (P i : ℕ) :
    RootFile (Files.put v P (File.push ⟨name,i⟩) 2) ↔ (P = 2 → IsDots name → i = 2) := by
  by_cases hP : P = 2
  · subst hP
    rw [put_self, rootFile_push_iff h]
    exact ⟨fun hi _ => hi,fun hi => hi rfl⟩
  · rw [put_of_ne _ _ (Ne.symm hP)]
    exact iff_of_true h (fun hc => absurd hc hP)

theorem not_rootFile_rmdir (h : RootFile (v 2)) (hl : (v 2).dentries.length ≤ 2) :
    ¬ RootFile (rmdirView v 2 2 2) := by
  unfold rmdirView
  split_ifs
  · rw [Function.update_self]
    exact not_rootFile_default
  · rw [put_self]
    intro hc
    obtain ⟨d,hd,hn⟩ := h.hasDot
    have hi := h.dots d hd (Or.inl hn)
    have hlen := List.length_eraseP_of_mem (p := fun d => d.dIno == 2) hd (by simp [hi])
    have htwo := hc.two_le
    change 2 ≤ ((v 2).dentries.eraseP (fun d => d.dIno == 2)).length at htwo
    omega

theorem RootFile.clearTarget (h : RootFile (v 2)) (Q : ℕ) {newname : Str}
    (hn : Q = 2 → ¬ IsDots newname) : RootFile (clearTarget v Q newname 2) := by
  unfold Directories.clearTarget
  split_ifs
  · exact h.put (fun hQ => h.dropNamed (hn hQ))
  · exact h

theorem RootFile.nameIn_dots (h : RootFile (v 2)) (hn : IsDots name) : nameIn v name 2 ≠ 0 := by
  have hmem : ∃ d ∈ (v 2).dentries, d.dName = name := by
    rcases hn with rfl | rfl
    · exact h.hasDot
    · exact h.hasDotdot
  obtain ⟨d,hd,hname⟩ := hmem
  rw [nameIn, if_pos h.isDir]
  cases hfind : (v 2).dentries.find? (fun d => d.dName == name) with
  | none =>
    have hno := List.find?_eq_none.mp hfind d hd
    simp [hname] at hno
  | some e =>
    obtain ⟨he,hename⟩ := firstNamed_mem hfind
    have hi := h.dots e he (hename ▸ hn)
    change e.dIno ≠ 0
    omega

theorem rootFile_rename_iff (h : RootFile (v 2)) (P Q fh : ℕ) {newname : Str}
    (hn : ¬ IsDots name) :
    RootFile (renameView v P Q name newname fh 2) ↔ (Q = 2 → IsDots newname → fh = 2) := by
  rw [renameView, clearView_eq]
  by_cases hdots : Q = 2 ∧ IsDots newname
  · obtain ⟨rfl,hdots⟩ := hdots
    have hdrop : clearTarget v 2 newname = Files.put v 2 (File.dropNamed newname) :=
      if_pos (h.nameIn_dots hdots)
    rw [hdrop, put_self]
    constructor
    · exact fun hc _ _ => hc.dots ⟨newname,fh⟩ (by simp) hdots
    · intro hfh
      obtain rfl := hfh rfl hdots
      by_cases hP : P = 2
      · subst hP
        have hcomm : ((v 2).dropNamed newname).dropNamed name =
            ((v 2).dropNamed name).dropNamed newname := by
          unfold File.dropNamed
          congr 1
          apply List.eraseP_comm
          intro d _
          by_cases hd : d.dName = newname
          · right
            rw [hd, beq_iff_eq]
            exact fun he => hn (he ▸ hdots)
          · left
            simpa using hd
        rw [put_self, put_self, hcomm]
        exact (h.dropNamed hn).replace
      · rw [put_of_ne _ _ (Ne.symm hP), put_self]
        exact h.replace
  · have hclear : RootFile (Files.put (clearTarget v Q newname) P (File.dropNamed name) 2) := by
      have ht := h.clearTarget Q (fun hQ hd => hdots ⟨hQ,hd⟩)
      exact ht.put (fun _ => ht.dropNamed hn)
    rw [rootFile_enter_iff hclear]

/-- One step: the root stands after the call exactly if the call spares it. -/
theorem root_effect_iff {K K' : Set ℕ} {c : Call} {r : ℤ} {n' : ℕ} (h : RootFile (v 2))
    (hn : Numbers v n) (hf : Fresh v n) (hc : takesPath c = true) (hm : chmodPerm c = true)
    (he : Effect v K n c r w K' n') : RootFile (w 2) ↔ SparesRoot v c := by
  have hu := untyped hn.sentinel
  have hn2 := hf.ne_root
  cases he with
  | idle stopped => exact iff_of_true h (fun hgo => absurd hgo stopped)
  | leaked f create spent stopped =>
    rw [Function.update_of_ne hn2.symm]
    exact iff_of_true h (fun hgo => absurd hgo stopped)
  | entered path f create spent go =>
    have hold : RootFile (Function.update v n f 2) := by
      rw [Function.update_of_ne hn2.symm]
      exact h
    rw [enterView, rootFile_enter_iff hold]
    have hspares : SparesRoot v c ↔
        (resolve v (parentPath path) = 2 → ¬ IsDots (tail path)) := by
      rcases created_cases create with ⟨_,_,rfl⟩ | ⟨_,rfl⟩ | ⟨_,rfl⟩ | ⟨_,rfl⟩
      · exact ⟨fun ha => ha go,fun ha _ => ha⟩
      · exact ⟨fun ha => ha go,fun ha _ => ha⟩
      · exact iff_of_true (fun _ => trivial) (fun _ => go.1)
      · exact iff_of_true (fun _ => trivial) (fun _ => go.1)
    rw [hspares]
    exact ⟨fun hd hP hdots => hn2 (hd hP hdots),fun hd hP hdots => absurd hdots (hd hP)⟩
  | linked path newpath go =>
    have hne : resolve v path ≠ 2 := by
      intro h2
      have hdir := isDir_of_isReg go.2.1
      rw [h2, h.isDir] at hdir
      exact Bool.false_ne_true hdir.symm
    have hold : RootFile (put v (resolve v path) (File.setStat incNlink) 2) :=
      h.put (fun h2 => absurd h2 hne)
    rw [linkView, rootFile_enter_iff hold]
    constructor
    · exact fun hd _ hP hdots => hne (hd hP hdots)
    · exact fun hd hP hdots => absurd hdots (hd go hP)
  | unlinked path go =>
    have hold : RootFile (put v (resolve v (parentPath path)) (File.dropNamed (tail path)) 2) :=
      h.put (fun _ => h.dropNamed go.2)
    rw [unlinkView, rootFile_dropLink_iff hold, lastLink_dropNamed]
    exact ⟨fun hd _ => hd,fun hd => hd go⟩
  | removed path go =>
    by_cases h2 : resolve v path = 2
    · have hl := go.2
      rw [h2] at hl ⊢
      rw [parent_alone h hl hu.1 hu.2.2 h2]
      exact iff_of_false (not_rootFile_rmdir h hl) (fun hd => hd go h2)
    · have hold :
          RootFile (put v (resolve v (parentPath path)) (File.dropIno (resolve v path)) 2) :=
        h.put (fun _ => h.dropIno h2)
      apply iff_of_true _ (fun _ => h2)
      unfold rmdirView
      split_ifs
      · rw [Function.update_of_ne (Ne.symm h2)]
        exact hold
      · exact hold
  | renamed path newpath go =>
    rw [rootFile_rename_iff h _ _ _ go]
    exact ⟨fun hd _ => hd,fun hd => hd go⟩
  | retyped path mode =>
    have hmode : typeBits mode = 0 := by simpa [chmodPerm] using hm
    exact iff_of_true (h.put (fun _ => h.of_same (chmodStat_isDir hmode _) rfl))
      (fun _ => trivial)
  | opened path flags =>
    exact iff_of_true (h.put (fun _ => h.of_same rfl rfl)) (fun _ => trivial)
  | closed => simp [takesPath] at hc
  | written => simp [takesPath] at hc
  | patched k g keeps other =>
    have hkeep := keeps.put v k 2
    exact iff_of_true (h.of_same hkeep.isDir hkeep.dentries)
      (fun hgo => absurd hgo (not_proceeds other v))

theorem rootView_rootFile (env : Env) : RootFile (rootView env 2) := by
  rw [rootView_root]
  refine ⟨rootFile_isDir env,?_,⟨⟨dot,2⟩,by simp [rootFile],rfl⟩,
    ⟨⟨dotdot,2⟩,by simp [rootFile],rfl⟩⟩
  intro d hd _
  rcases List.mem_cons.mp hd with rfl | hd
  · rfl
  · rw [List.mem_singleton] at hd
    subst hd
    rfl

theorem rootStands_iff {s : Fs} : RootStands s ↔ RootFile (s.file 2) := by
  constructor
  · exact fun h => h.2.1
  · intro h
    refine ⟨?_,h,?_⟩
    · by_contra hno
      apply not_rootFile_default
      rw [← InsertingMap.read_of_notMem hno]
      exact h
    · rw [findRealIno_eq]
      rfl

def sparesRoot (l : Label) (s : Fs) : Prop := SparesRoot s.file l.2

instance (l : Label) (s : Fs) : Decidable (sparesRoot l s) :=
  inferInstanceAs (Decidable (SparesRoot _ _))

/-- Along a run of calls that take paths, with permission bits as modes, the
root stands in every state exactly when every call spares it. -/
theorem root_permanent_iff (env : Env) (ls : List Label)
    (hls : ∀ l ∈ ls, takesPath l.2 = true ∧ l.2.permModes = true) :
    Holds advance RootStands ls (initialized env) ↔
      Meets advance sparesRoot ls (initialized env) := by
  apply sessions_holds_iff ls hls
  · rw [rootStands_iff, (initialized_eq env).2.2.2]
    exact rootView_rootFile env
  · intro l s s' r ⟨hc,hm⟩ hs _ hroot _ he
    rw [rootStands_iff] at hroot ⊢
    have hperm : chmodPerm l.2 = true := chmodPerm_of_permModes hm
    exact root_effect_iff hroot hs.toNumbers hs.fresh hc hperm he

theorem root_permanent_run : Holds advance RootStands
    (plain [.mkdir ['/','d'] 0o755#32,.creat ['/','d','/','f'] 0o644#32,
      .openFile ['/'] 0,.unlink ['/'],.rename ['/'] ['/','.'],.rmdir ['/','d']])
    (initialized plainEnv) := by
  have hls : ∀ l ∈ plain [.mkdir ['/','d'] 0o755#32,.creat ['/','d','/','f'] 0o644#32,
      .openFile ['/'] 0,.unlink ['/'],.rename ['/'] ['/','.'],.rmdir ['/','d']],
      takesPath l.2 = true ∧ l.2.permModes = true := by
    decide
  exact (root_permanent_iff plainEnv _ hls).mpr (by decide +kernel)

/-- `my_rmdir` accepts the root while it is empty. -/
theorem root_removed :
    Sessions plainEnv anyCall (after [.rmdir ['/']]) ∧ ¬ RootStands (after [.rmdir ['/']]) := by
  refine ⟨after_session (by decide) (by decide),?_⟩
  intro h
  exact absurd h.1 (by decide)

end Bbfs.Root
