import Bbfs.Forest
import Bbfs.Tally
import Bbfs.Visit

/-!
# The directories form a tree

A directory gets its one plain name when it is made; only `my_rename` gives it
another. As long as each rename of a directory takes away the name it had, no
directory has two names, none reached from the root lies below itself, and
`visit` ends. A rename that also stays out of the directory it moves makes no
cycle anywhere.
-/

set_option autoImplicit false

namespace Bbfs.Tree
open Bbfs.Strings Bbfs.Files Bbfs.Resolve Bbfs.Calls Bbfs.Session Bbfs.Walks Bbfs.Effects
open Bbfs.Outcomes Bbfs.Numbers Bbfs.Directories Bbfs.Forest Bbfs.Tally Bbfs.Visit
open Relation

variable {B : Finset ℕ} {v w : View} {n : ℕ}

def Named (v : View) : Prop := ∀ k, (v k).isDir = true → ∀ d ∈ (v k).dentries, d.dName ≠ []

structure OneName (B : Finset ℕ) (v : View) : Prop where
  dirs : Dirs v
  once : ∀ y, (v y).isDir = true → total B (fun _ => names y) v ≤ 1
  root : (v 2).isDir = true → total B (fun _ => names 2) v = 0
  named : Named v

def RemovesOld (v : View) (P Q : ℕ) (name newname : Str) (i : ℕ) : Prop :=
  nameIn v newname Q = i ∨ (v P).isDir = true ∧
    (firstNamed name (clearTarget v Q newname P)).map Dirent.dIno = some i

instance (v : View) (P Q : ℕ) (name newname : Str) (i : ℕ) :
    Decidable (RemovesOld v P Q name newname i) := by
  unfold RemovesOld
  infer_instance

/-- A rename into a directory has a new name, and a directory other than the
root moves from its old name to the new one. -/
def KeepsTree (v : View) (c : Call) : Prop :=
  Proceeds v c → match c with
  | .rename path newpath => (v (resolve v (parentPath newpath))).isDir = true →
    tail newpath ≠ [] ∧ ((v (resolve v path)).isDir = true → ¬ IsDots (tail newpath) →
      resolve v path ≠ 2 ∧ RemovesOld v (resolve v (parentPath path))
        (resolve v (parentPath newpath)) (tail path) (tail newpath) (resolve v path))
  | _ => True

instance (v : View) (c : Call) : Decidable (KeepsTree v c) := by
  induction c using Call.casesOn <;> unfold KeepsTree <;> infer_instance

/-- A directory is not moved into itself or below itself. -/
def StaysOut (v : View) (c : Call) : Prop :=
  Proceeds v c → match c with
  | .rename path newpath => (v (resolve v path)).isDir = true → ¬ IsDots (tail newpath) →
    ¬ ReflTransGen (Holds v) (resolve v path) (resolve v (parentPath newpath))
  | _ => True

theorem named_put (h : Named v) {k : ℕ} {g : File → File}
    (hg : (g (v k)).isDir = true → (v k).isDir = true ∧
      ∀ d ∈ (g (v k)).dentries, d ∈ (v k).dentries ∨ d.dName ≠ []) : Named (put v k g) := by
  intro i hi d hd
  by_cases hik : i = k
  · subst hik
    rw [put_self] at hi hd
    obtain ⟨hdir,hent⟩ := hg hi
    rcases hent d hd with hold | hnew
    · exact h i hdir d hold
    · exact hnew
  · rw [put_of_ne _ _ hik] at hi hd
    exact h i hi d hd

theorem OneName.put_le (h : OneName B v) (hB : ∀ k, (v k).isDir = true → k ∈ B) {k : ℕ}
    {g : File → File} (hd : (g (v k)).isDir = true → (v k).isDir = true)
    (hs : (g (v k)).dentries ⊆ (v k).dentries)
    (ht : ∀ i, tally (names i) (g (v k)) ≤ tally (names i) (v k))
    (hw : Dirs (put v k g)) : OneName B (put v k g) := by
  have hdir : ∀ y, (put v k g y).isDir = true → (v y).isDir = true := by
    intro y hy
    by_cases hyk : y = k
    · subst hyk
      rw [put_self] at hy
      exact hd hy
    · rwa [put_of_ne _ _ hyk] at hy
  have hle : ∀ i, total B (fun _ => names i) (put v k g) ≤ total B (fun _ => names i) v := by
    intro i
    have hsum := total_put (p := fun _ => names i) (hB k) hd
    have hi := ht i
    omega
  refine ⟨hw,?_,?_,?_⟩
  · intro y hy
    exact (hle y).trans (h.once y (hdir y hy))
  · intro h2
    have h0 := h.root (hdir 2 h2)
    have := hle 2
    omega
  · exact named_put h.named (fun hk => ⟨hd hk,fun d hd => Or.inl (hs hd)⟩)

theorem tree_dropNamed (h : OneName B v) (hB : ∀ k, (v k).isDir = true → k ∈ B) (k : ℕ) (m : Str) :
    OneName B (put v k (File.dropNamed m)) := by
  refine h.put_le hB id List.eraseP_subset ?_ (dirs_edit h.dirs (.dropNamed m) k)
  intro i
  have ht := tally_dropNamed (names i) m (v k)
  omega

theorem tree_dropIno (h : OneName B v) (hB : ∀ k, (v k).isDir = true → k ∈ B) (k j : ℕ) :
    OneName B (put v k (File.dropIno j)) := by
  refine h.put_le hB id List.eraseP_subset ?_ (dirs_edit h.dirs (.dropIno j) k)
  intro i
  have ht := tally_dropIno (names i) j (v k)
  omega

theorem tree_erase (h : OneName B v) (hB : ∀ k, (v k).isDir = true → k ∈ B) (k : ℕ) :
    OneName B (Function.update v k default) := by
  have hw : Dirs (put v k (fun _ => default)) := dirs_update h.dirs (by simp)
  refine h.put_le hB (g := fun _ => default) (by simp) (by simp) ?_ hw
  intro i
  rw [tally_of_not_dir File.default_isDir]
  exact Nat.zero_le _

theorem tree_nlink (h : OneName B v) (hB : ∀ k, (v k).isDir = true → k ∈ B) {k : ℕ}
    (hk : (v k).isDir = false) (g : Stat → Stat) (hm : ∀ m, (g m).stMode = m.stMode) :
    OneName B (put v k (File.setStat g)) := by
  have hd : ((v k).setStat g).isDir = false := by
    rw [File.isDir, File.setStat_metadata, hm]
    exact hk
  refine h.put_le hB (by simp [hd]) (List.Subset.refl _) ?_ (dirs_put h.dirs (by simp [hd]))
  intro i
  rw [tally_of_not_dir hd]
  exact Nat.zero_le _

theorem tree_dropLink (h : OneName B v) (hB : ∀ k, (v k).isDir = true → k ∈ B) (fh : ℕ) :
    OneName B (dropLink v fh) := by
  unfold dropLink
  split_ifs with hl
  · exact tree_erase h hB fh
  · refine tree_nlink h hB ?_ _ (fun _ => rfl)
    by_contra hd
    exact hl (h.dirs.lastLink (by simpa using hd))

theorem tree_fresh (h : OneName B v) (hs : Numbers v n) (hf : Fresh v n) (hn : n ∈ B) {f : File}
    {kind : Mode} (new : NewFile n kind f) (hd : ∀ d ∈ f.dentries, IsDots d.dName) :
    OneName B (Function.update v n f) ∧
      total B (fun _ => names n) (Function.update v n f) = 0 := by
  have htotal : ∀ i, total B (fun _ => names i) (Function.update v n f) =
      total B (fun _ => names i) v := by
    intro i
    rw [total_fresh hn (hs.spare n le_rfl hf.ne_err).1, tally_of_dots hd, Nat.add_zero]
  have hzero : total B (fun _ => names n) (Function.update v n f) = 0 := by
    rw [htotal]
    exact total_unnamed (fun k d hm => hf.unnamed k d hm)
  refine ⟨⟨dirs_update h.dirs (fun _ => ⟨new.nlink,new.ino⟩),?_,?_,?_⟩,hzero⟩
  · intro y hy
    by_cases hyn : y = n
    · subst hyn
      omega
    · rw [Function.update_of_ne hyn] at hy
      rw [htotal]
      exact h.once y hy
  · intro h2
    rw [Function.update_of_ne hf.ne_root.symm] at h2
    rw [htotal]
    exact h.root h2
  · intro k hk d hm
    by_cases hkn : k = n
    · subst hkn
      rw [Function.update_self] at hm
      rcases hd d hm with hn | hn <;> rw [hn] <;> decide
    · rw [Function.update_of_ne hkn] at hk hm
      exact h.named k hk d hm

theorem tree_push (h : OneName B v) (hB : ∀ k, (v k).isDir = true → k ∈ B) {P i : ℕ} {name : Str}
    (hn : (v P).isDir = true → name ≠ [])
    (hi : (v P).isDir = true → ¬ IsDots name → (v i).isDir = true →
      i ≠ 2 ∧ total B (fun _ => names i) v = 0) :
    OneName B (put v P (File.push ⟨name,i⟩)) := by
  have hdir := (Edit.push ⟨name,i⟩).isDir v P
  have htotal := fun j => total_push (p := fun _ => names j) (hB P) ⟨name,i⟩
  refine ⟨dirs_edit h.dirs (.push _) P,?_,?_,?_⟩
  · intro y hy
    rw [hdir] at hy
    rw [htotal]
    split_ifs with hc
    · obtain ⟨hnd,hiy⟩ := names_iff.mp hc.2
      simp only at hnd hiy
      subst hiy
      have h0 := (hi hc.1 hnd hy).2
      omega
    · exact h.once y hy
  · intro h2
    rw [hdir] at h2
    rw [htotal, h.root h2]
    split_ifs with hc
    · obtain ⟨hnd,he⟩ := names_iff.mp hc.2
      simp only at he
      subst he
      exact absurd rfl (hi hc.1 hnd h2).1
    · rfl
  · refine named_put h.named (fun hP => ⟨hP,?_⟩)
    intro d hm
    rw [File.push_dentries, List.mem_append, List.mem_singleton] at hm
    rcases hm with hm | rfl
    · exact Or.inl hm
    · exact Or.inr (hn hP)

theorem total_clearView_zero (hB : ∀ k, (v k).isDir = true → k ∈ B) {P Q i : ℕ}
    {name newname : Str} (h0 : i ≠ 0) (hone : total B (fun _ => names i) v ≤ 1)
    (hn : ¬ IsDots name) (hnew : ¬ IsDots newname) (hr : RemovesOld v P Q name newname i) :
    total B (fun _ => names i) (clearView v P Q name newname) = 0 := by
  have hdir := clearTarget_isDir (v := v) Q newname
  have hB1 : (clearTarget v Q newname P).isDir = true → P ∈ B := by
    rw [hdir]
    exact hB P
  have h1 := total_clearTarget (p := fun _ => names i) hB Q newname
    (fun d hd => by rw [(names_iff.mp hd).2]; exact h0)
  have h2 := total_dropNamed (p := fun _ => names i) hB1 name
  rw [clearView_eq]
  rcases hr with hfound | ⟨hP,hfirst⟩
  · rw [nameIn_eq] at hfound
    split_ifs at hfound with hQ
    · cases hd : firstNamed newname (v Q) with
      | none =>
        rw [hd] at hfound
        exact absurd hfound.symm h0
      | some d =>
        rw [hd] at hfound
        have hhit := count_first hQ hd hnew hfound
        omega
    · exact absurd hfound.symm h0
  · obtain ⟨d,hd,hi⟩ := Option.map_eq_some_iff.mp hfirst
    have hhit := count_first (by rw [hdir]; exact hP) hd hn hi
    omega

theorem tree_clearView (h : OneName B v) (hB : ∀ k, (v k).isDir = true → k ∈ B) (P Q : ℕ)
    (name newname : Str) : OneName B (clearView v P Q name newname) := by
  unfold clearView
  split_ifs
  · refine tree_dropNamed (tree_dropNamed h hB Q newname) ?_ P name
    intro k hk
    rw [(Edit.dropNamed newname).isDir] at hk
    exact hB k hk
  · exact tree_dropNamed h hB P name

theorem tail_ne_nil (h0 : (v 0).isDir = false) {path : Str}
    (hp : resolve v (parentPath path) ≠ 0) (hr : resolve v path = 0) : tail path ≠ [] := by
  intro ht
  have he : real v path = real v (parentPath path) := by
    rw [real_parentPath h0, if_pos ht]
  rw [resolve, he] at hr
  exact hp hr

theorem created_tail (h0 : (v 0).isDir = false) {c : Call} {path : Str}
    (create : c.created = some path) (go : Proceeds v c) : tail path ≠ [] := by
  rcases created_cases create with ⟨_,_,rfl⟩ | ⟨_,rfl⟩ | ⟨_,rfl⟩ | ⟨_,rfl⟩
  · exact tail_ne_nil h0 go.1 go.2
  · exact tail_ne_nil h0 go.1 go.2
  · exact tail_ne_nil h0 go.2.1 go.2.2
  · exact tail_ne_nil h0 go.2.1 go.2.2

theorem tree_effect {K K' : Set ℕ} {c : Call} {r : ℤ} {n' : ℕ} (h : OneName B v) (hs : Numbers v n)
    (hf : Fresh v n) (hB : ∀ k, k < n' → k ∈ B) (hc : c.isNamespace = true) (hk : KeepsTree v c)
    (he : Effect v K n c r w K' n') : OneName B w := by
  have h0 := (untyped hs.sentinel).1
  have hin : n ≤ n' → ∀ k, (v k).isDir = true → k ∈ B :=
    fun hle k hd => hB k (Nat.lt_of_lt_of_le (h.dirs.lt hs hd).2 hle)
  cases he with
  | idle => exact h
  | leaked f create spent stopped new empty =>
    exact (tree_fresh h hs hf (hB n (Nat.lt_succ_self n)) new (by simp [empty])).1
  | entered path f create spent go new dots =>
    have hP := hf.resolve_ne (parentPath path)
    have hname := created_tail h0 create go
    obtain ⟨hnew,hzero⟩ := tree_fresh h hs hf (hB n (Nat.lt_succ_self n)) new
      (by rw [dots]; exact dotEntries_dots n _ f)
    refine tree_push hnew ?_ (fun _ => hname) (fun _ _ _ => ⟨hf.ne_root,hzero⟩)
    intro k hd
    by_cases hkn : k = n
    · rw [hkn]
      exact hB n (Nat.lt_succ_self n)
    · rw [Function.update_of_ne hkn] at hd
      exact hin (Nat.le_succ n) k hd
  | linked path newpath go =>
    have hreg : (v (resolve v path)).isDir = false := isDir_of_isReg go.2.1
    have hlink := tree_nlink h (hin le_rfl) hreg incNlink (fun _ => rfl)
    have hdir : ∀ k, (put v (resolve v path) (File.setStat incNlink) k).isDir = (v k).isDir :=
      setStat_isDir (g := incNlink) (fun _ => rfl) (resolve v path)
    refine tree_push hlink ?_ (fun _ => tail_ne_nil h0 go.2.2.1 go.2.2.2) ?_
    · intro k hd
      rw [hdir] at hd
      exact hin le_rfl k hd
    · intro _ _ hd
      rw [hdir, hreg] at hd
      exact absurd hd Bool.false_ne_true
  | unlinked path go =>
    refine tree_dropLink (tree_dropNamed h (hin le_rfl) _ _) ?_ _
    intro k hd
    rw [(Edit.dropNamed _).isDir] at hd
    exact hin le_rfl k hd
  | removed path go =>
    have hdrop := tree_dropIno h (hin le_rfl) (resolve v (parentPath path)) (resolve v path)
    unfold rmdirView
    split_ifs
    · refine tree_erase hdrop ?_ _
      intro k hd
      rw [(Edit.dropIno _).isDir] at hd
      exact hin le_rfl k hd
    · exact hdrop
  | renamed path newpath go =>
    apply tree_push (tree_clearView h (hin le_rfl) _ _ _ _)
    · intro k hd
      rw [clearView_isDir] at hd
      exact hin le_rfl k hd
    · intro hd
      rw [clearView_isDir] at hd
      exact (hk go hd).1
    · intro hd hn hid
      rw [clearView_isDir] at hd hid
      obtain ⟨h2,hr⟩ := (hk go hd).2 hid hn
      exact ⟨h2,total_clearView_zero (hin le_rfl) (h.dirs.lt hs hid).1 (h.once _ hid) go hn hr⟩
  | retyped => simp [Call.isNamespace] at hc
  | opened => simp [Call.isNamespace] at hc
  | closed => simp [Call.isNamespace] at hc
  | written => simp [Call.isNamespace] at hc
  | patched k g keeps other =>
    exact absurd (other.symm.trans (edits_of_isNamespace hc)) Bool.false_ne_true

theorem acyclic_dropLink (h : Acyclic (Holds v)) (fh : ℕ) : Acyclic (Holds (dropLink v fh)) := by
  refine h.mono (fun x y hxy => ?_)
  unfold dropLink at hxy
  split_ifs at hxy
  · exact holds_erase hxy
  · exact holds_shrink (g := File.setStat decNlink) id (List.Subset.refl _) hxy

theorem holds_clearView {P Q x y : ℕ} {name newname : Str}
    (h : Holds (clearView v P Q name newname) x y) : Holds v x y := by
  unfold clearView at h
  have hdrop := holds_shrink (g := File.dropNamed name) id List.eraseP_subset h
  split_ifs at hdrop
  · exact holds_shrink (g := File.dropNamed newname) id List.eraseP_subset hdrop
  · exact hdrop

theorem eq_of_walk {x y : ℕ} (hx : (v x).isDir = false) (h : ReflTransGen (Holds v) x y) :
    x = y := by
  rcases ReflTransGen.cases_head h with he | ⟨z,hz,-⟩
  · exact he
  · have hd := hz.1
    rw [hx] at hd
    exact absurd hd Bool.false_ne_true

theorem acyclic_push (h : Acyclic (Holds v)) {P i : ℕ} {name : Str}
    (hi : (v i).isDir = true → ¬ IsDots name → ¬ ReflTransGen (Holds v) i P) :
    Acyclic (Holds (put v P (File.push ⟨name,i⟩))) := by
  by_cases hadd : (v P).isDir = true ∧ ¬ IsDots name
  · apply h.add (a := P) (b := i)
    · intro x y hxy
      exact (holds_push hxy).imp_right (fun hnew => ⟨hnew.1,hnew.2.1⟩)
    · intro hwalk
      by_cases hd : (v i).isDir = true
      · exact hi hd hadd.2 hwalk
      · have he := eq_of_walk (by simpa using hd) hwalk
        subst he
        exact hd hadd.1
  · refine h.mono (fun x y hxy => ?_)
    rcases holds_push hxy with hold | ⟨-,-,hP,hn⟩
    · exact hold
    · exact absurd ⟨hP,hn⟩ hadd

theorem acyclic_effect {K K' : Set ℕ} {c : Call} {r : ℤ} {n' : ℕ} (h : Acyclic (Holds v))
    (hf : Fresh v n) (hc : c.isNamespace = true) (hk : StaysOut v c)
    (he : Effect v K n c r w K' n') : Acyclic (Holds w) := by
  have hfresh : ∀ f : File, (∀ d ∈ f.dentries, IsDots d.dName) →
      Acyclic (Holds (Function.update v n f)) :=
    fun f hd => h.mono (fun x y hxy => (holds_fresh hf hd hxy).1)
  cases he with
  | idle => exact h
  | leaked f create spent stopped new empty => exact hfresh f (by simp [empty])
  | entered path f create spent go new dots =>
    have hdots : ∀ d ∈ f.dentries, IsDots d.dName := by
      rw [dots]
      exact dotEntries_dots n _ f
    have hP := hf.resolve_ne (parentPath path)
    refine acyclic_push (hfresh f hdots) (fun _ _ hwalk => ?_)
    rcases ReflTransGen.cases_head hwalk with he | ⟨z,hz,-⟩
    · exact hP he.symm
    · refine not_holds_of_dots ?_ hz
      rw [Function.update_self]
      exact hdots
  | linked path newpath go =>
    have hreg : (v (resolve v path)).isDir = false := isDir_of_isReg go.2.1
    have hlink : Acyclic (Holds (put v (resolve v path) (File.setStat incNlink))) :=
      h.mono (fun x y hxy => holds_shrink (g := File.setStat incNlink) id (List.Subset.refl _) hxy)
    refine acyclic_push hlink (fun hd => ?_)
    rw [put_self] at hd
    have hd' : (v (resolve v path)).isDir = true := hd
    rw [hreg] at hd'
    exact absurd hd' Bool.false_ne_true
  | unlinked path go =>
    have hdrop : Acyclic (Holds (put v (resolve v (parentPath path))
        (File.dropNamed (tail path)))) :=
      h.mono (fun x y hxy => holds_shrink id List.eraseP_subset hxy)
    exact acyclic_dropLink hdrop _
  | removed path go =>
    refine h.mono (fun x y hxy => ?_)
    unfold rmdirView at hxy
    split_ifs at hxy
    · exact holds_shrink id List.eraseP_subset (holds_erase hxy)
    · exact holds_shrink id List.eraseP_subset hxy
  | renamed path newpath go =>
    refine acyclic_push (h.mono (fun x y hxy => holds_clearView hxy)) (fun hd hn hwalk => ?_)
    rw [clearView_isDir] at hd
    exact hk go hd hn (ReflTransGen.mono (fun x y hxy => holds_clearView hxy) _ _ hwalk)
  | retyped => simp [Call.isNamespace] at hc
  | opened => simp [Call.isNamespace] at hc
  | closed => simp [Call.isNamespace] at hc
  | written => simp [Call.isNamespace] at hc
  | patched k g keeps other =>
    exact absurd (other.symm.trans (edits_of_isNamespace hc)) Bool.false_ne_true

theorem transGen_edge {x y : ℕ} (h : TransGen (Holds v) x y) (hy : (v y).isDir = true) :
    TransGen (Edge v) x y := by
  induction h with
  | single hxy => exact TransGen.single ⟨hxy,hy⟩
  | tail _ hyz ih => exact (ih hyz.1).tail ⟨hyz,hy⟩

theorem reached_edge {y : ℕ} (h : Reached v y) (hy : (v y).isDir = true) :
    ReflTransGen (Edge v) 2 y := by
  induction h with
  | root => exact ReflTransGen.refl
  | child _ holds ih => exact (ih holds.1).tail ⟨holds,hy⟩

theorem OneName.edge_acyclic (h : OneName B v) (hB : ∀ k, (v k).isDir = true → k ∈ B) {y : ℕ}
    (hy : ReflTransGen (Edge v) 2 y) : ¬ TransGen (Edge v) y y := by
  refine acyclic_of_one_holder ?_ ?_ hy
  · intro x hx
    have hpos := (total_pos hB).mpr ⟨x,hx.1⟩
    have := h.root hx.2
    omega
  · intro z _ x x' hx hx'
    exact holds_unique (h.once z hx.2) hB hx.1 hx'.1

theorem OneName.visit_ends (h : OneName B v) (hs : Numbers v n)
    (hB : ∀ k, (v k).isDir = true → k ∈ B) (stale : Str → ℕ → Mode) : Ends stale v slash := by
  have hacc : Acc (flip (Edge v)) 2 :=
    acc_root (fun y hy => h.edge_acyclic hB hy) B.finite_toSet (fun x y hxy => hB x hxy.1.1)
  have hr : real v slash = 2 := by
    rw [real, show segments slash = [[],[]] by decide, walk, if_pos rfl, walk, if_pos rfl, walk]
  exact ends_of_acc hs h.named hacc hr

theorem rootView_oneName (env : Env) : OneName B (rootView env) := by
  have hzero : ∀ i, total B (fun _ => names i) (rootView env) = 0 :=
    fun i => Finset.sum_eq_zero (fun k _ => tally_of_dots (rootView_dots env k))
  refine ⟨rootView_dirs env,fun y _ => by rw [hzero]; exact Nat.zero_le 1,fun _ => hzero 2,?_⟩
  intro k _ d hd
  rcases rootView_dots env k d hd with hn | hn <;> rw [hn] <;> decide

theorem rootView_acyclic (env : Env) : Acyclic (Holds (rootView env)) := by
  intro x hx
  obtain ⟨z,hz,-⟩ := TransGen.head'_iff.mp hx
  exact not_holds_of_dots (rootView_dots env x) hz

def keepsTree (l : Label) (s : Fs) : Prop := l.2.isNamespace = true ∧ KeepsTree s.file l.2

instance (l : Label) (s : Fs) : Decidable (keepsTree l s) := inferInstanceAs (Decidable (_ ∧ _))

def staysOut (l : Label) (s : Fs) : Prop := l.2.isNamespace = true ∧ StaysOut s.file l.2

theorem sessions_oneName {env : Env} {s : Fs} (h : Sessions env keepsTree s)
    (hB : ∀ k, k < 2^31 → k ∈ B) : OneName B s.file := by
  have h0 : OneName B (initialized env).file := by
    rw [(initialized_eq env).2.2.2]
    exact rootView_oneName env
  have hstep : ∀ l t t' r, Settled t → Settled t' → OneName B t.file → keepsTree l t →
      answer l.1 l.2 t = some (r,t') →
      Effect t.file t.keys t.count l.2 r t'.file t'.keys t'.count → OneName B t'.file :=
    fun l t t' r hs hs' ht hc _ he => tree_effect ht hs.toNumbers hs.fresh
      (fun k hk => hB k (Nat.lt_of_lt_of_le hk hs'.high)) hc.1 hc.2 he
  exact sessions_invariant h h0 hstep

theorem sessions_acyclic {env : Env} {s : Fs} (h : Sessions env staysOut s) :
    Acyclic (Holds s.file) := by
  have h0 : Acyclic (Holds (initialized env).file) := by
    rw [(initialized_eq env).2.2.2]
    exact rootView_acyclic env
  have hstep : ∀ l t t' r, Settled t → Settled t' → Acyclic (Holds t.file) → staysOut l t →
      answer l.1 l.2 t = some (r,t') →
      Effect t.file t.keys t.count l.2 r t'.file t'.keys t'.count → Acyclic (Holds t'.file) :=
    fun l t t' r hs _ ht hc _ he => acyclic_effect ht hs.fresh hc.1 hc.2 he
  exact sessions_invariant h h0 hstep

/-- Along a run whose renames move a directory from its one name to the new
one, every directory has at most one plain name, none reached from the root
by such names is below itself, and the listing of the root ends whatever
`my_fstat` leaves in its buffer. When no directory is moved below itself
either, no directory at all is below itself. -/
theorem directories_form_tree {env : Env} {s : Fs} (h : Sessions env keepsTree s) :
    (∀ y, (s.file y).isDir = true → ∑ k ∈ s.entry.keys, tally (names y) (s.file k) ≤ 1) ∧
    (∀ y, Reached s.file y → ¬ TransGen (Holds s.file) y y) ∧
    (∀ stale, ∃ N, ∀ fuel, N ≤ fuel → (visit stale fuel slash s).isSome = true) ∧
    (Sessions env staysOut s → ∀ y, ¬ TransGen (Holds s.file) y y) := by
  obtain ⟨B,hB⟩ : ∃ B : Finset ℕ, ∀ k, k < 2^31 → k ∈ B :=
    ⟨(Set.finite_Iio (2^31)).toFinset,fun k hk => (Set.Finite.mem_toFinset _).mpr hk⟩
  have hs := sessions_settled h
  have hone := sessions_oneName h hB
  have hdir : ∀ k, (s.file k).isDir = true → k ∈ B :=
    fun k hk => hB k (Nat.lt_of_lt_of_le (hone.dirs.lt hs.toNumbers hk).2 hs.high)
  refine ⟨?_,?_,?_,fun hout => sessions_acyclic hout⟩
  · intro y hy
    rw [← total_keys hdir]
    exact hone.once y hy
  · intro y hy hcycle
    obtain ⟨z,hz,-⟩ := TransGen.head'_iff.mp hcycle
    exact hone.edge_acyclic hdir (reached_edge hy hz.1) (transGen_edge hcycle hz.1)
  · intro stale
    obtain ⟨N,hN⟩ := hone.visit_ends hs.toNumbers hdir stale
    refine ⟨N,fun fuel hf => ?_⟩
    obtain ⟨r,s',hv,-⟩ := hN fuel hf s rfl
    rw [hv]
    rfl

theorem directories_form_tree_run :
    (∑ k ∈ (after [.mkdir ['/','d'] 0o755#32,.mkdir ['/','e'] 0o755#32,
        .rename ['/','d'] ['/','e','/','f']]).entry.keys,
      tally (names 3) ((after [.mkdir ['/','d'] 0o755#32,.mkdir ['/','e'] 0o755#32,
        .rename ['/','d'] ['/','e','/','f']]).file k) ≤ 1) ∧
    (∃ N, ∀ fuel, N ≤ fuel → (visit (fun _ _ => S_IFDIR) fuel slash
      (after [.mkdir ['/','d'] 0o755#32,.mkdir ['/','e'] 0o755#32,
        .rename ['/','d'] ['/','e','/','f']])).isSome = true) ∧
    ¬ TransGen (Holds (after [.mkdir ['/','d'] 0o755#32,.mkdir ['/','e'] 0o755#32,
      .rename ['/','d'] ['/','e','/','f']]).file) 4 4 := by
  have hd : advance (plainEnv,.mkdir ['/','d'] 0o755#32) (after []) =
      some (after [.mkdir ['/','d'] 0o755#32]) := advance_after (by decide)
  have he : advance (plainEnv,.mkdir ['/','e'] 0o755#32) (after [.mkdir ['/','d'] 0o755#32]) =
      some (after [.mkdir ['/','d'] 0o755#32,.mkdir ['/','e'] 0o755#32]) :=
    advance_after (by decide)
  have hr : advance (plainEnv,.rename ['/','d'] ['/','e','/','f'])
      (after [.mkdir ['/','d'] 0o755#32,.mkdir ['/','e'] 0o755#32]) =
      some (after [.mkdir ['/','d'] 0o755#32,.mkdir ['/','e'] 0o755#32,
        .rename ['/','d'] ['/','e','/','f']]) := advance_after (by decide +kernel)
  have hempty : ∀ d ∈ ((after [.mkdir ['/','d'] 0o755#32,.mkdir ['/','e'] 0o755#32]).file
      (resolve (after [.mkdir ['/','d'] 0o755#32,.mkdir ['/','e'] 0o755#32]).file
        ['/','d'])).dentries, IsDots d.dName := by decide
  have hne : resolve (after [.mkdir ['/','d'] 0o755#32,.mkdir ['/','e'] 0o755#32]).file ['/','d'] ≠
      resolve (after [.mkdir ['/','d'] 0o755#32,.mkdir ['/','e'] 0o755#32]).file
        (parentPath ['/','e','/','f']) := by decide
  have hout : StaysOut (after [.mkdir ['/','d'] 0o755#32,.mkdir ['/','e'] 0o755#32]).file
      (.rename ['/','d'] ['/','e','/','f']) := by
    intro _ _ _ hwalk
    rcases ReflTransGen.cases_head hwalk with hsame | ⟨z,hz,-⟩
    · exact hne hsame
    · exact not_holds_of_dots hempty hz
  have hstart : Sessions plainEnv staysOut (after []) := Runs.Reaches.start
  have hkeeps : Sessions plainEnv keepsTree (after [.mkdir ['/','d'] 0o755#32,
      .mkdir ['/','e'] 0o755#32,.rename ['/','d'] ['/','e','/','f']]) :=
    after_session (by decide +kernel) (by decide +kernel)
  have hsession := Runs.Reaches.step _ (Runs.Reaches.step _ (Runs.Reaches.step _ hstart
    ⟨rfl,fun _ => trivial⟩ hd) ⟨rfl,fun _ => trivial⟩ he) ⟨rfl,hout⟩ hr
  have htree := directories_form_tree hkeeps
  exact ⟨htree.1 3 (by decide +kernel),htree.2.2.1 _,htree.2.2.2 hsession 4⟩

/-- In this table every path of the form `/e/e/..` leads to the root. -/
theorem visit_loops {stale : Str → ℕ → Mode} (h0 : (v 0).isDir = false)
    (hroot : (v 2).isDir = true) (hent : (v 2).dentries = [⟨dot,2⟩,⟨dotdot,2⟩,⟨['e'],2⟩])
    (fuel : ℕ) {root : Str} {s : Fs} (hs : s.file = v) (hr : real v root = 2) :
    visit stale fuel root s = none := by
  induction fuel generalizing root s with
  | zero => rfl
  | succ fuel ih =>
    have hc : real v (child root ['e']) = 2 := by
      rw [real_child root h0 (by decide), if_neg (by decide), hr, if_pos hroot, nameIn,
        if_pos hroot, hent]
      rfl
    have hres : resolve v root = 2 := by rw [resolve, hr, follow_dir hroot]
    have hmem : 2 ∈ ((s.touch 2).touch 2).entry := InsertingMap.mem_touch.mpr (Or.inl rfl)
    have ht : ((s.touch 2).touch 2).file = v := by simp [hs]
    have htt : ((s.touch 2).touch 2).touch 2 = (s.touch 2).touch 2 := Fs.touch_of_mem hmem
    have hmode : S_ISDIR (v 2).metadata.stMode = true := hroot
    have hread : readLoop (stale root) root 4 ⟨2,0⟩ ((s.touch 2).touch 2) =
        (([child root ['e']], [child root ['e']]), (s.touch 2).touch 2) := by
      simp [readLoop, myReaddir, htt, ht, hent, fstatMode, myFstat, hmem, hmode, IsDots, dot,
        dotdot]
    have hstat : statLoop [child root ['e']] ((s.touch 2).touch 2) =
        (ok,(s.touch 2).touch 2) := by
      simp [statLoop, myLstat, findRealIno_eq, ht, hc, myFstat, hmem, ok]
    rw [visit]
    simp only [myOpendir, findIno_eq, hs, hr, hres, fopendir, Fs.touch_file, hroot,
      Bool.true_eq_false, if_false, hent, List.length_cons, List.length_nil, Nat.zero_add,
      Nat.reduceAdd, hread, List.mergeSort_singleton, hstat, ne_eq, ok, not_true_eq_false,
      List.foldlM_cons, ih ht hc]
    rfl

/-- Renaming the root puts it under itself, and a listing that reads intact copies
does not end. -/
theorem root_under_itself :
    Sessions plainEnv namespaceCall (after [.rename ['/'] ['/','e']]) ∧
    Reached (after [.rename ['/'] ['/','e']]).file 2 ∧
    TransGen (Holds (after [.rename ['/'] ['/','e']]).file) 2 2 ∧
    ∀ stale fuel, visit stale fuel slash (after [.rename ['/'] ['/','e']]) = none := by
  have hdir : ((after [.rename ['/'] ['/','e']]).file 2).isDir = true := by decide
  have hent : ((after [.rename ['/'] ['/','e']]).file 2).dentries =
      [⟨dot,2⟩,⟨dotdot,2⟩,⟨['e'],2⟩] := by decide
  have hholds : Holds (after [.rename ['/'] ['/','e']]).file 2 2 :=
    ⟨hdir,⟨['e'],2⟩,by rw [hent]; decide,by decide,rfl⟩
  have h0 : ((after [.rename ['/'] ['/','e']]).file 0).isDir = false := by decide
  have hr : real (after [.rename ['/'] ['/','e']]).file slash = 2 := by decide
  exact ⟨after_session (by decide) (by decide),Reached.root,TransGen.single hholds,
    fun stale fuel => visit_loops h0 hdir hent fuel rfl hr⟩

end Bbfs.Tree
