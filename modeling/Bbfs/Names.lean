import Bbfs.Numbers

/-!
# Names in a directory

A call keeps the names of every directory distinct exactly when the entry it
adds, if it adds one to a directory, has a name that is not there. The guards
of the calls test the whole path instead, and so can miss such an entry.
-/

set_option autoImplicit false

namespace Bbfs.Names
open Bbfs.Strings Bbfs.Files Bbfs.Resolve Bbfs.Calls Bbfs.Session Bbfs.Walks Bbfs.Effects
open Bbfs.Outcomes Bbfs.Numbers Bbfs.Runs

def names (f : File) : List Str := f.dentries.map Dirent.dName

def UniqueNames (v : View) : Prop := ∀ k, (v k).isDir = true → (names (v k)).Nodup

def FreeName (f : File) (name : Str) : Prop := f.isDir = true → name ∉ names f

/-- A call that adds a name finds it free in the directory it adds it to. A
rename first removes an entry of the new name unless that entry names 0, and
it removes its own old entry. -/
def AddsFree (v : View) (c : Call) : Prop :=
  Proceeds v c → match c with
  | .mknod path _ _ | .mkdir path _ | .creat path _ | .symlink _ path | .link _ path =>
    FreeName (v (resolve v (parentPath path))) (tail path)
  | .rename path newpath =>
    nameIn v (tail newpath) (resolve v (parentPath newpath)) = 0 →
      FreeName (v (resolve v (parentPath newpath))) (tail newpath) ∨
        resolve v (parentPath path) = resolve v (parentPath newpath) ∧ tail path = tail newpath
  | _ => True

instance (f : File) (name : Str) : Decidable (FreeName f name) :=
  inferInstanceAs (Decidable (_ → _))

instance (v : View) (c : Call) : Decidable (AddsFree v c) := by
  induction c using Call.casesOn <;> unfold AddsFree <;> infer_instance

variable {v w : View} {n : ℕ}

theorem names_push (d : Dirent) (f : File) : names (f.push d) = names f++[d.dName] := by
  simp [names]

theorem names_dropNamed_sublist (name : Str) (f : File) :
    (names (f.dropNamed name)).Sublist (names f) :=
  (List.eraseP_sublist).map _

theorem names_dropIno_sublist (i : ℕ) (f : File) : (names (f.dropIno i)).Sublist (names f) :=
  (List.eraseP_sublist).map _

theorem notMem_names_dropNamed {name : Str} {f : File} (h : (names f).Nodup) :
    name ∉ names (f.dropNamed name) := by
  unfold names at h
  change name ∉ (f.dentries.eraseP (fun d => d.dName == name)).map Dirent.dName
  generalize f.dentries = l at h
  induction l with
  | nil => simp
  | cons d ds ih =>
    rw [List.map_cons, List.nodup_cons] at h
    by_cases hd : d.dName = name
    · rw [List.eraseP_cons_of_pos (by simp [hd]), ← hd]
      exact h.1
    · rw [List.eraseP_cons_of_neg (by simp [hd]), List.map_cons, List.mem_cons]
      rintro (he | hm)
      · exact hd he.symm
      · exact ih h.2 hm

theorem mem_names_dropNamed_of_ne {name m : Str} {f : File} (hne : m ≠ name) :
    m ∈ names (f.dropNamed name) ↔ m ∈ names f := by
  constructor
  · intro h
    exact (names_dropNamed_sublist name f).subset h
  · intro h
    obtain ⟨d,hd,rfl⟩ := List.mem_map.mp h
    refine List.mem_map.mpr ⟨d,?_,rfl⟩
    exact (List.mem_eraseP_of_neg (by simpa using hne)).mpr hd

theorem unique_put (h : UniqueNames v) {k : ℕ} {g : File → File}
    (hd : (g (v k)).isDir = true → (v k).isDir = true)
    (hs : (names (g (v k))).Sublist (names (v k))) : UniqueNames (put v k g) := by
  intro i hi
  by_cases hik : i = k
  · subst hik
    rw [put_self] at hi ⊢
    exact (h i (hd hi)).sublist hs
  · rw [put_of_ne _ _ hik] at hi ⊢
    exact h i hi

theorem unique_update (h : UniqueNames v) {k : ℕ} {f : File}
    (hf : f.isDir = true → (names f).Nodup) : UniqueNames (Function.update v k f) := by
  intro i hi
  by_cases hik : i = k
  · subst hik
    rw [Function.update_self] at hi ⊢
    exact hf hi
  · rw [Function.update_of_ne hik] at hi ⊢
    exact h i hi

theorem unique_push_iff (h : UniqueNames v) (P i : ℕ) (name : Str) :
    UniqueNames (put v P (File.push ⟨name,i⟩)) ↔ FreeName (v P) name := by
  constructor
  · intro hu hd
    have hP := hu P (by rw [put_self]; exact hd)
    rw [put_self, names_push, List.nodup_append] at hP
    exact fun hm => hP.2.2 name hm name (by simp) rfl
  · intro hfree k hk
    by_cases hkP : k = P
    · subst hkP
      rw [put_self] at hk ⊢
      rw [names_push]
      have hnd := h k hk
      exact List.nodup_append.mpr ⟨hnd,by simp,by
        intro a ha b hb
        rw [List.mem_singleton.mp hb]
        rintro rfl
        exact hfree hk ha⟩
    · rw [put_of_ne _ _ hkP] at hk ⊢
      exact h k hk

theorem unique_dropLink (h : UniqueNames v) (fh : ℕ) : UniqueNames (dropLink v fh) := by
  unfold dropLink
  split_ifs
  · exact unique_update h (by simp)
  · exact unique_put h id (List.Sublist.refl _)

theorem unique_clearView (h : UniqueNames v) (P Q : ℕ) (name newname : Str) :
    UniqueNames (clearView v P Q name newname) := by
  have hdrop : ∀ u k m, UniqueNames u → UniqueNames (put u k (File.dropNamed m)) :=
    fun u k m hu => unique_put hu id (names_dropNamed_sublist m (u k))
  unfold clearView
  split_ifs
  · exact hdrop _ _ _ (hdrop _ _ _ h)
  · exact hdrop _ _ _ h

theorem freeName_clearView (h : UniqueNames v) (P Q : ℕ) (name newname : Str) :
    FreeName (clearView v P Q name newname Q) newname ↔
      (nameIn v newname Q = 0 → FreeName (v Q) newname ∨ P = Q ∧ name = newname) := by
  unfold clearView
  by_cases hfound : nameIn v newname Q = 0
  · rw [if_neg (not_not.mpr hfound)]
    by_cases hPQ : P = Q
    · subst hPQ
      rw [put_self]
      by_cases hname : name = newname
      · subst hname
        exact iff_of_true (fun hd => notMem_names_dropNamed (h P hd)) (fun _ => Or.inr ⟨rfl,rfl⟩)
      · constructor
        · exact fun hfree _ => Or.inl (fun hd hm =>
            hfree hd ((mem_names_dropNamed_of_ne (Ne.symm hname)).mpr hm))
        · intro hr hd hm
          rcases hr hfound with hfree | ⟨-,he⟩
          · exact hfree hd ((mem_names_dropNamed_of_ne (Ne.symm hname)).mp hm)
          · exact hname he
    · rw [put_of_ne _ _ (Ne.symm hPQ)]
      constructor
      · exact fun hfree _ => Or.inl hfree
      · exact fun hr => (hr hfound).resolve_right (fun he => hPQ he.1)
  · rw [if_pos hfound]
    refine iff_of_true ?_ (fun h0 => absurd h0 hfound)
    have hfree : FreeName (put v Q (File.dropNamed newname) Q) newname := by
      intro hd
      rw [put_self] at hd ⊢
      exact notMem_names_dropNamed (h Q hd)
    by_cases hPQ : Q = P
    · subst hPQ
      rw [put_self]
      exact fun hd hm => hfree hd ((names_dropNamed_sublist _ _).subset hm)
    · rw [put_of_ne _ _ hPQ]
      exact hfree

/-- One step: the new names are distinct exactly when the added one was free. -/
theorem unique_effect_iff {K K' : Set ℕ} {c : Call} {r : ℤ} {n' : ℕ} (hf : Fresh v n)
    (h : UniqueNames v) (hc : c.isNamespace = true) (he : Effect v K n c r w K' n') :
    UniqueNames w ↔ AddsFree v c := by
  cases he with
  | idle stopped => exact iff_of_true h (fun hgo => absurd hgo stopped)
  | leaked f create spent stopped new empty =>
    exact iff_of_true (unique_update h (by simp [names, empty])) (fun hgo => absurd hgo stopped)
  | entered path f create spent go new dots =>
    have hP := hf.resolve_ne (parentPath path)
    have hnew : UniqueNames (Function.update v n f) := by
      refine unique_update h (fun _ => ?_)
      rw [names, dots, dotEntries]
      split_ifs
      simp [dot, dotdot]
    rw [enterView, unique_push_iff hnew, Function.update_of_ne hP]
    have hadds : AddsFree v c ↔ FreeName (v (resolve v (parentPath path))) (tail path) := by
      rcases created_cases create with ⟨_,_,rfl⟩ | ⟨_,rfl⟩ | ⟨_,rfl⟩ | ⟨_,rfl⟩
      · exact absurd hc Bool.false_ne_true
      all_goals exact ⟨fun ha => ha go,fun ha _ => ha⟩
    exact hadds.symm
  | linked path newpath go =>
    have hnlink : UniqueNames (put v (resolve v path) (File.setStat incNlink)) :=
      unique_put h id (List.Sublist.refl _)
    have hsame : FreeName (put v (resolve v path) (File.setStat incNlink)
        (resolve v (parentPath newpath))) (tail newpath) ↔
          FreeName (v (resolve v (parentPath newpath))) (tail newpath) := by
      by_cases hk : resolve v (parentPath newpath) = resolve v path
      · rw [hk, put_self]
        exact Iff.rfl
      · rw [put_of_ne _ _ hk]
    rw [linkView, unique_push_iff hnlink, hsame]
    exact ⟨fun hfree _ => hfree,fun hadd => hadd go⟩
  | unlinked path go =>
    refine iff_of_true (unique_dropLink ?_ _) (fun _ => trivial)
    exact unique_put h id (names_dropNamed_sublist _ _)
  | removed path go =>
    have hd : UniqueNames (put v (resolve v (parentPath path))
        (File.dropIno (resolve v path))) := unique_put h id (names_dropIno_sublist _ _)
    refine iff_of_true ?_ (fun _ => trivial)
    unfold rmdirView
    split_ifs
    · exact unique_update hd (by simp)
    · exact hd
  | renamed path newpath go =>
    rw [renameView, unique_push_iff (unique_clearView h _ _ _ _), freeName_clearView h]
    exact ⟨fun hfree _ => hfree,fun hadd => hadd go⟩
  | retyped => simp [Call.isNamespace] at hc
  | opened => simp [Call.isNamespace] at hc
  | closed => simp [Call.isNamespace] at hc
  | written => simp [Call.isNamespace] at hc
  | patched k g keeps other =>
    exact absurd (other.symm.trans (edits_of_isNamespace hc)) Bool.false_ne_true

theorem lookup_of_unique {s : Fs} (h : UniqueNames s.file) {k : ℕ}
    (hk : (s.file k).isDir = true) :
    ∀ d ∈ (s.file k).dentries, (lookup d.dName k s).1 = d.dIno := by
  intro d hd
  have hnd := h k hk
  rw [lookup_eq]
  simp only [nameIn, hk, if_true]
  unfold names at hnd
  generalize (s.file k).dentries = l at hd hnd
  induction l with
  | nil => simp at hd
  | cons e l ih =>
    rw [List.map_cons, List.nodup_cons] at hnd
    rcases List.mem_cons.mp hd with rfl | hd
    · simp
    · have hne : e.dName ≠ d.dName := fun he => hnd.1 (he ▸ List.mem_map_of_mem hd)
      rw [List.find?_cons_of_neg (by simpa using hne)]
      exact ih hd hnd.2

theorem initialized_unique (env : Env) : UniqueNames (initialized env).file := by
  rw [(initialized_eq env).2.2.2]
  apply unique_update
  · intro k hk
    simp at hk
  · intro _
    simp [names, rootFile, dot, dotdot]

def addsFree (l : Label) (s : Fs) : Prop := AddsFree s.file l.2

instance (l : Label) (s : Fs) : Decidable (addsFree l s) :=
  inferInstanceAs (Decidable (AddsFree _ _))

/-- Along a run of namespace calls all directories have distinct names exactly
when every entry added to a directory had a free name; and with distinct names
no entry is hidden from lookup. -/
theorem names_unique_iff (env : Env) (ls : List Label)
    (hls : ∀ l ∈ ls, l.2.isNamespace = true) :
    (Holds advance (fun s => UniqueNames s.file) ls (initialized env) ↔
      Meets advance addsFree ls (initialized env)) ∧
    ∀ s : Fs, UniqueNames s.file → ∀ k, (s.file k).isDir = true →
      ∀ d ∈ (s.file k).dentries, (lookup d.dName k s).1 = d.dIno := by
  refine ⟨?_,fun s hu k hk => lookup_of_unique hu hk⟩
  apply sessions_holds_iff ls hls (initialized_unique env)
  exact fun l s s' r hc hs _ hu _ he => unique_effect_iff hs.fresh hu hc he

theorem names_unique_run : Holds advance (fun s => UniqueNames s.file)
    (plain [.mkdir ['/','d'] 0o755#32,.creat ['/','d','/','a'] 0o644#32,
      .rename ['/','d','/','a'] ['/','d','/','a'],.symlink ['/','d'] ['/','s']])
    (initialized plainEnv) := by
  have hls : ∀ l ∈ plain [.mkdir ['/','d'] 0o755#32,.creat ['/','d','/','a'] 0o644#32,
      .rename ['/','d','/','a'] ['/','d','/','a'],.symlink ['/','d'] ['/','s']],
      l.2.isNamespace = true := by
    simp [plain, Call.isNamespace]
  exact (names_unique_iff plainEnv _ hls).1.mpr (by decide +kernel)

/-- Through a link to a directory the second creation is not refused. -/
theorem linked_parent_shadows :
    Sessions plainEnv namespaceCall (after [.mkdir ['/','d'] 0o755#32,.symlink ['/','d'] ['/','s'],
      .creat ['/','s','/','a'] 0o644#32,.creat ['/','s','/','a'] 0o644#32]) ∧
    ¬ UniqueNames (after [.mkdir ['/','d'] 0o755#32,.symlink ['/','d'] ['/','s'],
      .creat ['/','s','/','a'] 0o644#32,.creat ['/','s','/','a'] 0o644#32]).file := by
  refine ⟨after_session (by decide +kernel) (by decide +kernel),?_⟩
  intro h
  exact absurd (h 3 (by decide +kernel)) (by decide +kernel)

end Bbfs.Names
