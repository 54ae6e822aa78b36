import Bbfs.Numbers

/-!
# Directories and their entries

Entries are looked at through three projections: the numbers stored under a
name, the first of them, and the number of entries that name a file. In runs
without `my_open` and `my_close` a directory has link count 1, so that the
calls that drop a link of a directory erase it.
-/

set_option autoImplicit false

namespace Bbfs.Directories
open Bbfs.Strings Bbfs.Files Bbfs.Resolve Bbfs.Calls Bbfs.Session Bbfs.Walks Bbfs.Effects
open Bbfs.Outcomes Bbfs.Numbers

def under (name : Str) (f : File) : List ℕ :=
  (f.dentries.filter (fun d => d.dName == name)).map Dirent.dIno

def firstNamed (name : Str) (f : File) : Option Dirent :=
  f.dentries.find? (fun d => d.dName == name)

variable {v w : View} {n : ℕ} {f : File} {name m : Str}

theorem nameIn_eq (v : View) (name : Str) (k : ℕ) :
    nameIn v name k = if (v k).isDir then (firstNamed name (v k)).elim 0 Dirent.dIno else 0 := rfl

theorem firstNamed_mem {d : Dirent} (h : firstNamed name f = some d) :
    d ∈ f.dentries ∧ d.dName = name :=
  ⟨List.mem_of_find?_eq_some h,by simpa using List.find?_some h⟩

theorem firstNamed_of_under {i : ℕ} (h : under name f = [i]) :
    ∃ d, firstNamed name f = some d ∧ d.dIno = i := by
  unfold under at h
  obtain ⟨d,hd,hi⟩ := List.map_eq_singleton_iff.mp h
  have hh : (f.dentries.filter (fun d => d.dName == name)).head? = some d := by rw [hd]; rfl
  rw [List.head?_filter] at hh
  exact ⟨d,hh,hi⟩

theorem mem_under {d : Dirent} (hd : d ∈ f.dentries) (hn : d.dName = name) :
    d.dIno ∈ under name f :=
  List.mem_map_of_mem (List.mem_filter.mpr ⟨hd,by simpa using hn⟩)

theorem firstNamed_of_nameIn {k i : ℕ} (h : nameIn v name k = i) (hi : i ≠ 0) :
    ∃ d, firstNamed name (v k) = some d ∧ d.dIno = i := by
  rw [nameIn_eq] at h
  split_ifs at h
  · cases hf : firstNamed name (v k) with
    | none =>
      rw [hf] at h
      exact absurd h.symm hi
    | some d =>
      rw [hf] at h
      exact ⟨d,rfl,h⟩
  · exact absurd h.symm hi

theorem filter_eraseP {α : Type} {p q : α → Bool} {l : List α}
    (h : ∀ d, l.find? q = some d → p d = false) : (l.eraseP q).filter p = l.filter p := by
  induction l with
  | nil => rfl
  | cons d l ih =>
    by_cases hq : q d = true
    · have hp := h d (List.find?_cons_of_pos hq)
      rw [List.eraseP_cons_of_pos hq, List.filter_cons_of_neg (by simp [hp])]
    · rw [List.find?_cons_of_neg hq] at h
      rw [List.eraseP_cons_of_neg hq, List.filter_cons, List.filter_cons, ih h]

theorem find?_eraseP {α : Type} {p q : α → Bool} {l : List α} {d : α} (h : l.find? p = some d)
    (hd : q d = false) : (l.eraseP q).find? p = some d := by
  induction l with
  | nil => simp at h
  | cons e l ih =>
    by_cases hq : q e = true
    · rw [List.eraseP_cons_of_pos hq]
      by_cases hp : p e = true
      · rw [List.find?_cons_of_pos hp] at h
        cases h
        simp [hq] at hd
      · rwa [List.find?_cons_of_neg hp] at h
    · rw [List.eraseP_cons_of_neg hq]
      by_cases hp : p e = true
      · rw [List.find?_cons_of_pos hp] at h ⊢
        exact h
      · rw [List.find?_cons_of_neg hp] at h ⊢
        exact ih h

theorem under_dropNamed (hne : m ≠ name) : under m (f.dropNamed name) = under m f := by
  unfold under
  refine congrArg (List.map Dirent.dIno) (filter_eraseP ?_)
  intro d hd
  have hn := (firstNamed_mem hd).2
  simpa [hn] using hne.symm

theorem firstNamed_dropNamed {d : Dirent} (hne : m ≠ name) (h : firstNamed m f = some d) :
    firstNamed m (f.dropNamed name) = some d := by
  refine find?_eraseP h ?_
  have hn := (firstNamed_mem h).2
  simpa [hn] using hne

theorem nameIn_under (v : View) (name : Str) (k : ℕ) :
    nameIn v name k = if (v k).isDir then (under name (v k)).headD 0 else 0 := by
  have hhead : (firstNamed name (v k)).elim 0 Dirent.dIno = (under name (v k)).headD 0 := by
    rw [under, List.headD_eq_head?_getD, List.head?_map, List.head?_filter, firstNamed]
    cases (v k).dentries.find? (fun d => d.dName == name) <;> rfl
  rw [nameIn_eq, hhead]

theorem under_dropped (name : Str) (f : File) :
    under name (f.dropNamed name) = (under name f).tail := by
  simp only [under, File.dropNamed]
  induction f.dentries with
  | nil => rfl
  | cons d l ih =>
    by_cases hd : d.dName = name
    · rw [List.eraseP_cons_of_pos (by simpa using hd), List.filter_cons_of_pos (by simpa using hd),
        List.map_cons, List.tail_cons]
    · rw [List.eraseP_cons_of_neg (by simpa using hd), List.filter_cons_of_neg (by simpa using hd),
        List.filter_cons_of_neg (by simpa using hd), ih]

theorem not_named_of_under (h : under name f = []) :
    ∀ d ∈ f.dentries, ¬ (d.dName == name) = true := by
  intro d hd hn
  have hmem := mem_under hd (by simpa using hn)
  rw [h] at hmem
  exact absurd hmem List.not_mem_nil

theorem dropNamed_absent (h : under name f = []) : f.dropNamed name = f := by
  rw [File.dropNamed, List.eraseP_of_forall_not (not_named_of_under h)]

theorem put_dropNamed_absent {k : ℕ} (h : under name (v k) = []) :
    put v k (File.dropNamed name) = v := by
  rw [put, dropNamed_absent h]
  exact Function.update_eq_self k v

theorem firstNamed_push {d e : Dirent} (h : firstNamed m f = some d) :
    firstNamed m (f.push e) = some d := by
  unfold firstNamed at *
  rw [File.push_dentries, List.find?_append, h, Option.some_or]

theorem under_push (e : Dirent) (f : File) :
    under m (f.push e) = under m f++if e.dName = m then [e.dIno] else [] := by
  unfold under
  rw [File.push_dentries, List.filter_append, List.map_append]
  split_ifs with he <;> simp [he]

/-- A directory `x` has an entry for `y` under a name other than the dots. -/
def Holds (v : View) (x y : ℕ) : Prop :=
  (v x).isDir = true ∧ ∃ d ∈ (v x).dentries, ¬ IsDots d.dName ∧ d.dIno = y

/-- Reached from the root by names other than the dots. -/
inductive Reached (v : View) : ℕ → Prop
  | root : Reached v 2
  | child {x y : ℕ} (before : Reached v x) (holds : Holds v x y) : Reached v y

theorem holds_shrink {k x y : ℕ} {g : File → File}
    (hd : (g (v k)).isDir = true → (v k).isDir = true)
    (hs : (g (v k)).dentries ⊆ (v k).dentries) (h : Holds (put v k g) x y) : Holds v x y := by
  obtain ⟨hx,d,hm,hn,hy⟩ := h
  by_cases hxk : x = k
  · subst hxk
    rw [put_self] at hx hm
    exact ⟨hd hx,d,hs hm,hn,hy⟩
  · rw [put_of_ne _ _ hxk] at hx hm
    exact ⟨hx,d,hm,hn,hy⟩

theorem holds_erase {k x y : ℕ} (h : Holds (Function.update v k default) x y) : Holds v x y :=
  holds_shrink (g := fun _ => default) (by simp) (by simp) h

theorem mem_shrunk {g : File → File} {P x : ℕ} {d : Dirent}
    (hs : (g (v P)).dentries ⊆ (v P).dentries) (h : d ∈ (put v P g x).dentries) :
    d ∈ (v x).dentries := by
  by_cases hx : x = P
  · subst hx
    rw [put_self] at h
    exact hs h
  · rwa [put_of_ne _ _ hx] at h

theorem mem_pushed {P x : ℕ} {e d : Dirent} (h : d ∈ (put v P (File.push e) x).dentries) :
    d ∈ (v x).dentries ∨ x = P ∧ d = e := by
  by_cases hx : x = P
  · subst hx
    rw [put_self, File.push_dentries, List.mem_append, List.mem_singleton] at h
    exact h.imp_right (fun he => ⟨rfl,he⟩)
  · rw [put_of_ne _ _ hx] at h
    exact Or.inl h

theorem holds_push {P i x y : ℕ} (h : Holds (put v P (File.push ⟨name,i⟩)) x y) :
    Holds v x y ∨ x = P ∧ y = i ∧ (v P).isDir = true ∧ ¬ IsDots name := by
  obtain ⟨hx,d,hm,hn,hy⟩ := h
  by_cases hxP : x = P
  · subst hxP
    rw [put_self] at hx hm
    rw [File.push_dentries, List.mem_append, List.mem_singleton] at hm
    rcases hm with hm | rfl
    · exact Or.inl ⟨hx,d,hm,hn,hy⟩
    · exact Or.inr ⟨rfl,hy.symm,hx,hn⟩
  · rw [put_of_ne _ _ hxP] at hx hm
    exact Or.inl ⟨hx,d,hm,hn,hy⟩

theorem holds_fresh (hf : Fresh v n) (hd : ∀ d ∈ f.dentries, IsDots d.dName) {x y : ℕ}
    (h : Holds (Function.update v n f) x y) : Holds v x y ∧ x ≠ n ∧ y ≠ n := by
  obtain ⟨hx,d,hm,hn,hy⟩ := h
  by_cases hxn : x = n
  · subst hxn
    rw [Function.update_self] at hm
    exact absurd (hd d hm) hn
  · rw [Function.update_of_ne hxn] at hx hm
    exact ⟨⟨hx,d,hm,hn,hy⟩,hxn,hy ▸ hf.unnamed x d hm⟩

theorem dotEntries_dots (n P : ℕ) (f : File) : ∀ d ∈ dotEntries n P f, IsDots d.dName := by
  intro d hd
  unfold dotEntries at hd
  split_ifs at hd
  · rcases List.mem_cons.mp hd with rfl | hd
    · exact Or.inl rfl
    · rw [List.mem_singleton] at hd
      subst hd
      exact Or.inr rfl
  · simp at hd

theorem three_le_length {l : List Dirent} {d₁ d₂ d₃ : Dirent} (h₁ : d₁ ∈ l) (h₂ : d₂ ∈ l)
    (h₃ : d₃ ∈ l) (n₁ : d₁.dName = dot) (n₂ : d₂.dName = dotdot) (n₃ : ¬ IsDots d₃.dName) :
    3 ≤ l.length := by
  have hne : ∀ d : Dirent, IsDots d.dName → d ≠ d₃ := by
    rintro d hd rfl
    exact n₃ hd
  have hnd : [d₁,d₂,d₃].Nodup := by
    have h12 : d₁ ≠ d₂ := by
      rintro rfl
      rw [n₁] at n₂
      exact absurd n₂ (by decide)
    simp [h12, hne d₁ (Or.inl n₁), hne d₂ (Or.inr n₂)]
  have hsub : [d₁,d₂,d₃] ⊆ l := by
    intro d hd
    simp only [List.mem_cons, List.not_mem_nil, or_false] at hd
    rcases hd with rfl | rfl | rfl
    · exact h₁
    · exact h₂
    · exact h₃
  exact (List.subperm_of_subset hnd hsub).length_le

def treeCall : Call → Bool
  | .mkdir .. | .creat .. | .link .. | .unlink .. | .rmdir .. | .symlink .. | .rename ..
  | .chmod .. | .pwrite .. | .truncate .. => true
  | _ => false

theorem treeCall_of_namespace {c : Call} (h : c.isNamespace = true) : treeCall c = true := by
  cases c <;> first | rfl | simp [Call.isNamespace] at h

/-- A directory is a made file with one link. -/
def Dirs (v : View) : Prop :=
  ∀ k, (v k).isDir = true → (v k).metadata.stNlink = 1 ∧ (v k).metadata.stIno = k

theorem dirs_put (h : Dirs v) {k : ℕ} {g : File → File}
    (hg : (g (v k)).isDir = true → (v k).isDir = true ∧
      (g (v k)).metadata.stNlink = (v k).metadata.stNlink ∧
      (g (v k)).metadata.stIno = (v k).metadata.stIno) : Dirs (put v k g) := by
  intro i hi
  by_cases hik : i = k
  · subst hik
    rw [put_self] at hi ⊢
    obtain ⟨hd,hl,hn⟩ := hg hi
    rw [hl, hn]
    exact h i hd
  · rw [put_of_ne _ _ hik] at hi ⊢
    exact h i hi

theorem dirs_update (h : Dirs v) {k : ℕ}
    (hf : f.isDir = true → f.metadata.stNlink = 1 ∧ f.metadata.stIno = k) :
    Dirs (Function.update v k f) := by
  intro i hi
  by_cases hik : i = k
  · subst hik
    rw [Function.update_self] at hi ⊢
    exact hf hi
  · rw [Function.update_of_ne hik] at hi ⊢
    exact h i hi

inductive Edit : (File → File) → Prop
  | push (d : Dirent) : Edit (File.push d)
  | dropNamed (name : Str) : Edit (File.dropNamed name)
  | dropIno (i : ℕ) : Edit (File.dropIno i)

theorem Edit.metadata {g : File → File} (h : Edit g) (f : File) : (g f).metadata = f.metadata := by
  cases h <;> rfl

theorem Edit.isDir {g : File → File} (h : Edit g) (v : View) (k i : ℕ) :
    (put v k g i).isDir = (v i).isDir := by
  by_cases hi : i = k
  · subst hi
    rw [put_self, File.isDir, h.metadata, File.isDir]
  · rw [put_of_ne _ _ hi]

theorem Edit.put_metadata {g : File → File} (h : Edit g) (v : View) (k i : ℕ) :
    (put v k g i).metadata = (v i).metadata := by
  by_cases hi : i = k
  · subst hi
    rw [put_self, h.metadata]
  · rw [put_of_ne _ _ hi]

theorem setStat_isDir {g : Stat → Stat} (hm : ∀ m, (g m).stMode = m.stMode) (k i : ℕ) :
    (put v k (File.setStat g) i).isDir = (v i).isDir := by
  by_cases hi : i = k
  · subst hi
    rw [put_self, File.isDir, File.setStat_metadata, hm, File.isDir]
  · rw [put_of_ne _ _ hi]

def clearTarget (v : View) (Q : ℕ) (newname : Str) : View :=
  if nameIn v newname Q ≠ 0 then put v Q (File.dropNamed newname) else v

theorem clearView_eq (P Q : ℕ) (name newname : Str) :
    clearView v P Q name newname = put (clearTarget v Q newname) P (File.dropNamed name) := rfl

theorem clearTarget_metadata (Q : ℕ) (newname : Str) (k : ℕ) :
    (clearTarget v Q newname k).metadata = (v k).metadata := by
  unfold clearTarget
  split_ifs
  · exact (Edit.dropNamed newname).put_metadata v Q k
  · rfl

theorem clearTarget_isDir (Q : ℕ) (newname : Str) (k : ℕ) :
    (clearTarget v Q newname k).isDir = (v k).isDir := by
  rw [File.isDir, clearTarget_metadata, File.isDir]

theorem clearView_isDir (P Q : ℕ) (name newname : Str) (k : ℕ) :
    (clearView v P Q name newname k).isDir = (v k).isDir := by
  rw [clearView_eq, (Edit.dropNamed name).isDir, clearTarget_isDir]

theorem renameView_metadata (P Q : ℕ) (name newname : Str) (i k : ℕ) :
    (renameView v P Q name newname i k).metadata = (v k).metadata := by
  rw [renameView, (Edit.push _).put_metadata, clearView_eq, (Edit.dropNamed _).put_metadata,
    clearTarget_metadata]

section
variable {P k i : ℕ}

theorem under_pushed (v : View) (P i k : ℕ) (name m : Str) :
    under m (put v P (File.push ⟨name,i⟩) k) =
      under m (v k)++if k = P ∧ name = m then [i] else [] := by
  by_cases hk : k = P
  · subst hk
    rw [put_self, under_push]
    simp only [true_and]
  · rw [put_of_ne _ _ hk, if_neg (fun h => hk h.1), List.append_nil]

theorem nameIn_extended {l : List ℕ} (hd : (w k).isDir = (v k).isDir)
    (hu : under m (w k) = under m (v k)++l) (h : nameIn v m k ≠ 0) :
    nameIn w m k = nameIn v m k := by
  rw [nameIn_under] at h
  rw [nameIn_under, nameIn_under, hd, hu]
  cases hl : under m (v k) with
  | nil =>
    rw [hl] at h
    simp at h
  | cons j js => rfl

theorem entered_new (hP : P ≠ n) (name : Str) (f : File) : enterView v n P name f n = f := by
  rw [enterView, put_of_ne _ _ hP.symm, Function.update_self]

theorem entered_isDir (hk : k ≠ n) (name : Str) (f : File) :
    (enterView v n P name f k).isDir = (v k).isDir := by
  rw [enterView, (Edit.push _).isDir, Function.update_of_ne hk]

theorem entered_under (hk : k ≠ n) (name : Str) (f : File) (m : Str) :
    under m (enterView v n P name f k) =
      under m (v k)++if k = P ∧ name = m then [n] else [] := by
  rw [enterView, under_pushed, Function.update_of_ne hk]

theorem linkView_isDir (v : View) (P i k : ℕ) (name : Str) :
    (linkView v P name i k).isDir = (v k).isDir := by
  rw [linkView, (Edit.push _).isDir, setStat_isDir (g := incNlink) (fun _ => rfl)]

end

theorem dirs_edit (h : Dirs v) {g : File → File} (hg : Edit g) (k : ℕ) : Dirs (put v k g) := by
  apply dirs_put h
  rw [File.isDir, hg.metadata]
  exact fun hd => ⟨hd,rfl,rfl⟩

theorem dirs_keeps (h : Dirs v) {k : ℕ} {g : File → File} (keeps : Keeps g) :
    Dirs (put v k g) := by
  refine dirs_put h (fun hd => ?_)
  rw [File.isDir, keeps.stMode] at hd
  exact ⟨hd,keeps.stNlink _,keeps.stIno _⟩

theorem Dirs.lastLink (h : Dirs v) {k : ℕ} (hd : (v k).isDir = true) : LastLink v k := by
  rw [LastLink, (h k hd).1]
  rfl

theorem Dirs.lt (h : Dirs v) (hn : Numbers v n) {k : ℕ} (hd : (v k).isDir = true) :
    k ≠ 0 ∧ k < n := by
  have h0 : k ≠ 0 := by
    rintro rfl
    simp [(untyped hn.sentinel).1] at hd
  have hi := (h k hd).2
  rcases hn.numbered k with hz | ⟨-,hlt⟩
  · omega
  · exact ⟨h0,hlt⟩

theorem dirs_dropLink (h : Dirs v) (fh : ℕ) : Dirs (dropLink v fh) := by
  unfold dropLink
  split_ifs with hl
  · exact dirs_update h (by simp)
  · refine dirs_put h (fun hd => ?_)
    exact absurd (h.lastLink hd) hl

def chmodPerm : Call → Bool
  | .chmod _ mode => typeBits mode == 0
  | _ => true

theorem chmodPerm_of_permModes {c : Call} (h : c.permModes = true) : chmodPerm c = true := by
  cases c <;> first | rfl | exact h

theorem chmodPerm_of_namespace {c : Call} (h : c.isNamespace = true) : chmodPerm c = true := by
  cases c <;> first | rfl | simp [Call.isNamespace] at h

theorem dirs_effect {K K' : Set ℕ} {c : Call} {r : ℤ} {n' : ℕ} (h : Dirs v)
    (hc : treeCall c = true) (hm : chmodPerm c = true) (he : Effect v K n c r w K' n') :
    Dirs w := by
  have hnew : ∀ f kind, NewFile n kind f → Dirs (Function.update v n f) :=
    fun f kind new => dirs_update h (fun _ => ⟨new.nlink,new.ino⟩)
  cases he with
  | idle => exact h
  | leaked f create spent stopped new => exact hnew f _ new
  | entered path f create spent go new => exact dirs_edit (hnew f _ new) (.push _) _
  | linked path newpath go =>
    refine dirs_edit (dirs_put h ?_) (.push _) _
    intro hd
    have hdir : (v (resolve v path)).isDir = true := hd
    exact absurd (hdir.symm.trans (isDir_of_isReg go.2.1)) (by decide)
  | unlinked path => exact dirs_dropLink (dirs_edit h (.dropNamed _) _) _
  | removed path =>
    unfold rmdirView
    split_ifs
    · exact dirs_update (dirs_edit h (.dropIno _) _) (by simp)
    · exact dirs_edit h (.dropIno _) _
  | renamed path newpath =>
    unfold renameView clearView
    refine dirs_edit (dirs_edit ?_ (.dropNamed _) _) (.push _) _
    split_ifs
    · exact dirs_edit h (.dropNamed _) _
    · exact h
  | retyped path mode =>
    have hmode : typeBits mode = 0 := by simpa [chmodPerm] using hm
    apply dirs_put h
    rw [chmodStat_isDir hmode]
    exact fun hd => ⟨hd,rfl,rfl⟩
  | opened => simp [treeCall] at hc
  | closed => simp [treeCall] at hc
  | written fh buf size offset data => exact dirs_keeps h (keeps_stored data (cstr buf))
  | patched k g keeps => exact dirs_keeps h keeps

theorem rootView_dirs (env : Env) : Dirs (rootView env) := by
  refine dirs_update ?_ (fun _ => ⟨rfl,rfl⟩)
  intro k hk
  simp at hk

theorem rootView_dots (env : Env) (k : ℕ) : ∀ d ∈ (rootView env k).dentries, IsDots d.dName := by
  intro d hd
  by_cases h2 : k = 2
  · subst h2
    rw [rootView_root] at hd
    rcases List.mem_cons.mp hd with rfl | hd
    · exact Or.inl rfl
    · rw [List.mem_singleton] at hd
      subst hd
      exact Or.inr rfl
  · rw [rootView_other env h2] at hd
    simp at hd

theorem not_holds_of_dots {x y : ℕ} (h : ∀ d ∈ (v x).dentries, IsDots d.dName) :
    ¬ Holds v x y :=
  fun ⟨_,d,hd,hn,_⟩ => hn (h d hd)

end Bbfs.Directories
