import Bbfs.Tally

/-!
# Link counts

The count in a file is kept by the calls, the names are entries of
directories. A call keeps the two equal when it looks at existing files only,
enters a new name into a directory, and when the entries it removes are one
name of the file whose link it drops.
-/

set_option autoImplicit false

namespace Bbfs.LinkCount
open Bbfs.Strings Bbfs.Files Bbfs.Resolve Bbfs.Calls Bbfs.Session Bbfs.Walks Bbfs.Effects
open Bbfs.Outcomes Bbfs.Numbers Bbfs.Directories Bbfs.Tally

variable {B : Finset ℕ} {v w : View} {K K' : Set ℕ} {n i fh : ℕ}

/-- The counts agree with the names, and the keys are the named numbers; 0 and
the root are left out. -/
structure Counts (B : Finset ℕ) (v : View) (K : Set ℕ) : Prop where
  nlink : ∀ i, i ≠ 0 → i ≠ 2 → (v i).metadata.stNlink = total B (fun _ => names i) v
  present : ∀ i, i ≠ 0 → i ≠ 2 → (i ∈ K ↔ 0 < total B (fun _ => names i) v)

def counted (ds : List Dirent) : List ℕ :=
  (ds.filter (fun d => ¬ IsDots d.dName ∧ d.dIno ≠ 0 ∧ d.dIno ≠ 2)).map Dirent.dIno

def one (i : ℕ) : List ℕ := if i = 0 ∨ i = 2 then [] else [i]

/-- A number is taken only for a new name in a directory, and the names removed
are the ones unlinked or given again. -/
def Balanced (v : View) (c : Call) : Prop :=
  (Takes v c → Proceeds v c) ∧ (Proceeds v c → match c with
  | .mknod path _ _ | .mkdir path _ | .creat path _ | .symlink _ path | .link _ path =>
    (v (resolve v (parentPath path))).isDir = true ∧ ¬ IsDots (tail path)
  | .unlink path =>
    counted (found (fun d => d.dName == tail path) (v (resolve v (parentPath path)))++
      if LastLink v (resolve v path) then
        held (put v (resolve v (parentPath path)) (File.dropNamed (tail path)) (resolve v path))
      else []) = one (resolve v path)
  | .rmdir path =>
    counted (found (fun d => d.dIno == resolve v path) (v (resolve v (parentPath path)))++
      held (put v (resolve v (parentPath path)) (File.dropIno (resolve v path)) (resolve v path))) =
        one (resolve v path)
  | .rename path newpath =>
    counted (found (fun d => d.dName == tail newpath) (v (resolve v (parentPath newpath)))++
      found (fun d => d.dName == tail path) (clearTarget v (resolve v (parentPath newpath))
        (tail newpath) (resolve v (parentPath path)))) =
      if (v (resolve v (parentPath newpath))).isDir = true ∧ ¬ IsDots (tail newpath) then
        one (resolve v path) else []
  | _ => True)

instance (v : View) (c : Call) : Decidable (Takes v c) := by
  induction c using Call.casesOn <;> unfold Takes <;> infer_instance

instance (v : View) (c : Call) : Decidable (Balanced v c) := by
  induction c using Call.casesOn <;> unfold Balanced <;> infer_instance

theorem count_counted (h0 : i ≠ 0) (h2 : i ≠ 2) (ds : List Dirent) :
    (counted ds).count i = ds.countP (names i) := by
  rw [counted, List.count, List.countP_map, List.countP_filter]
  refine List.countP_congr (fun d _ => ?_)
  simp only [Function.comp_apply, beq_iff_eq, Bool.and_eq_true, decide_eq_true_eq, names_iff]
  constructor
  · rintro ⟨hi,hn,-⟩
    exact ⟨hn,hi⟩
  · rintro ⟨hn,rfl⟩
    exact ⟨rfl,hn,h0,h2⟩

theorem count_one (h0 : i ≠ 0) (h2 : i ≠ 2) (j : ℕ) :
    (one j).count i = if j = i then 1 else 0 := by
  unfold one
  split_ifs with hj he he
  · omega
  · rfl
  · rw [he, List.count_singleton_self]
  · rw [List.count_singleton, if_neg (by simpa using he)]

theorem countP_removed (h0 : i ≠ 0) (h2 : i ≠ 2) {ds es : List Dirent}
    (h : counted (ds++es) = one fh) :
    ds.countP (names i) + es.countP (names i) = if fh = i then 1 else 0 := by
  rw [← List.countP_append, ← count_counted h0 h2, h, count_one h0 h2]

theorem counts_erase (h : Counts B v K) (hB : ∀ k, (w k).isDir = true → k ∈ B) {ds : List Dirent}
    (hm : ∀ i, (w i).metadata = (v i).metadata)
    (ht : ∀ i, total B (fun _ => names i) w + ds.countP (names i) = total B (fun _ => names i) v)
    (hbal : counted (ds++held (w fh)) = one fh) (hl : LastLink v fh)
    (hk : ∀ i, i ≠ 0 → i ≠ 2 → (i ∈ K' ↔ i ∈ K ∧ i ≠ fh)) :
    Counts B (Function.update w fh default) K' := by
  have htotal : ∀ i, i ≠ 0 → i ≠ 2 →
      total B (fun _ => names i) (Function.update w fh default) + (if fh = i then 1 else 0) =
        total B (fun _ => names i) v := by
    intro i h0 h2
    have he := total_erase (p := fun _ => names i) (hB fh)
    have hrem := countP_removed h0 h2 hbal
    have hi := ht i
    rw [tally] at he
    omega
  have hlink : (v fh).metadata.stNlink = 1 := by
    unfold LastLink decrement at hl
    split_ifs at hl
    omega
  constructor
  · intro i h0 h2
    have hi := htotal i h0 h2
    have hv := h.nlink i h0 h2
    by_cases hif : i = fh
    · subst hif
      rw [if_pos rfl] at hi
      rw [Function.update_self]
      have hz : (default : File).metadata.stNlink = 0 := rfl
      omega
    · rw [if_neg (Ne.symm hif)] at hi
      rw [Function.update_of_ne hif, hm]
      omega
  · intro i h0 h2
    have hi := htotal i h0 h2
    rw [hk i h0 h2, h.present i h0 h2]
    by_cases hif : i = fh
    · subst hif
      have hv := h.nlink i h0 h2
      rw [if_pos rfl] at hi
      omega
    · rw [if_neg (Ne.symm hif)] at hi
      simp only [hif, ne_eq, not_false_eq_true, and_true]
      omega

theorem counts_unlink (h : Counts B v K) (hB : ∀ k, (w k).isDir = true → k ∈ B) {ds : List Dirent}
    (hm : ∀ i, (w i).metadata = (v i).metadata)
    (ht : ∀ i, total B (fun _ => names i) w + ds.countP (names i) = total B (fun _ => names i) v)
    (hbal : counted ds = one fh) (h0fh : fh ≠ 0) (hkey : fh ≠ 2 → fh ∈ K) (hl : ¬ LastLink v fh)
    (hk : ∀ i, i ≠ 0 → i ≠ 2 → (i ∈ K' ↔ i ∈ K)) :
    Counts B (put w fh (File.setStat decNlink)) K' := by
  have htotal : ∀ i, i ≠ 0 → i ≠ 2 →
      total B (fun _ => names i) (put w fh (File.setStat decNlink)) + (if fh = i then 1 else 0) =
        total B (fun _ => names i) v := by
    intro i h0 h2
    have hi := ht i
    rw [← count_counted h0 h2, hbal, count_one h0 h2] at hi
    rw [total_setStat (hB fh) rfl]
    exact hi
  have hmany : fh ≠ 2 → 2 ≤ (v fh).metadata.stNlink := by
    intro h2
    have hpos := (h.present fh h0fh h2).mp (hkey h2)
    have hlink := h.nlink fh h0fh h2
    unfold LastLink decrement at hl
    split_ifs at hl
    · omega
    · omega
  constructor
  · intro i h0 h2
    have hi := htotal i h0 h2
    have hv := h.nlink i h0 h2
    by_cases hif : i = fh
    · subst hif
      have htwo := hmany h2
      have hdec : ((w i).setStat decNlink).metadata.stNlink =
        decrement (w i).metadata.stNlink := rfl
      rw [if_pos rfl] at hi
      rw [put_self, hdec, hm, decrement, if_neg (by omega)]
      omega
    · rw [if_neg (Ne.symm hif)] at hi
      rw [put_of_ne _ _ hif, hm]
      omega
  · intro i h0 h2
    have hi := htotal i h0 h2
    rw [hk i h0 h2, h.present i h0 h2]
    by_cases hif : i = fh
    · subst hif
      have htwo := hmany h2
      have hv := h.nlink i h0 h2
      rw [if_pos rfl] at hi
      omega
    · rw [if_neg (Ne.symm hif)] at hi
      omega

theorem counts_fresh (h : Counts B v K) (hs : Numbers v n) (hf : Fresh v n) (hn : n ∈ B)
    (hB : ∀ k, (v k).isDir = true → k ∈ B) {f : File} {kind : Mode} (new : NewFile n kind f)
    (hd : ∀ d ∈ f.dentries, IsDots d.dName) {P : ℕ} {name : Str} (hP : P ≠ n)
    (hPd : (v P).isDir = true) (hname : ¬ IsDots name)
    (hk : ∀ i, i ≠ 0 → i ≠ 2 → (i ∈ K' ↔ i ∈ K ∨ i = n)) :
    Counts B (enterView v n P name f) K' := by
  have hPn : Function.update v n f P = v P := Function.update_of_ne hP f v
  have htotal : ∀ i, total B (fun _ => names i) (enterView v n P name f) =
      total B (fun _ => names i) v + if n = i then 1 else 0 := by
    intro i
    have hfresh := total_fresh (p := fun _ => names i) hn (hs.spare n le_rfl hf.ne_err).1 f
    rw [tally_of_dots hd] at hfresh
    rw [enterView, total_enter (hB P hPd) (by rw [hPn]; exact hPd) hname, hfresh, Nat.add_zero]
  have hzero : total B (fun _ => names n) v = 0 :=
    total_unnamed (fun k d hm => hf.unnamed k d hm)
  have hmeta : ∀ i, (enterView v n P name f i).metadata =
      (Function.update v n f i).metadata :=
    fun i => (Edit.push _).put_metadata _ P i
  constructor
  · intro i h0 h2
    rw [htotal, hmeta]
    by_cases hin : i = n
    · subst hin
      rw [Function.update_self, new.nlink, hzero, if_pos rfl]
    · rw [Function.update_of_ne hin, if_neg (Ne.symm hin), Nat.add_zero]
      exact h.nlink i h0 h2
  · intro i h0 h2
    rw [htotal, hk i h0 h2, h.present i h0 h2]
    by_cases hin : i = n
    · subst hin
      simp
    · simp [hin, Ne.symm hin]

theorem counts_linked (h : Counts B v K) (hB : ∀ k, (v k).isDir = true → k ∈ B) {P : ℕ}
    {name : Str} (hP : (v P).isDir = true) (hname : ¬ IsDots name) (hkey : fh ≠ 2 → fh ∈ K)
    (h0fh : fh ≠ 0) (hk : ∀ i, i ≠ 0 → i ≠ 2 → (i ∈ K' ↔ i ∈ K)) :
    Counts B (linkView v P name fh) K' := by
  have hdir : (put v fh (File.setStat incNlink) P).isDir = true := by
    rw [setStat_isDir (g := incNlink) (fun _ => rfl)]
    exact hP
  have htotal : ∀ i, total B (fun _ => names i) (linkView v P name fh) =
      total B (fun _ => names i) v + if fh = i then 1 else 0 := by
    intro i
    have hset := total_setStat (p := fun _ => names i) (hB fh) (g := incNlink) rfl
    rw [linkView, total_enter (hB P hP) hdir hname, hset]
  have hmeta : ∀ i, (linkView v P name fh i).metadata =
      (put v fh (File.setStat incNlink) i).metadata :=
    fun i => (Edit.push _).put_metadata _ _ i
  constructor
  · intro i h0 h2
    rw [htotal, hmeta]
    have hi := h.nlink i h0 h2
    by_cases hif : i = fh
    · subst hif
      rw [if_pos rfl, put_self, ← hi]
      rfl
    · rw [if_neg (Ne.symm hif), put_of_ne _ _ hif]
      exact hi
  · intro i h0 h2
    rw [hk i h0 h2, htotal, h.present i h0 h2]
    by_cases hif : i = fh
    · subst hif
      have hpos := (h.present i h0 h2).mp (hkey h2)
      omega
    · rw [if_neg (Ne.symm hif), Nat.add_zero]

theorem counts_unlinked (h : Counts B v K) (hB : ∀ k, (v k).isDir = true → k ∈ B) {P : ℕ}
    {name : Str} (h0fh : fh ≠ 0)
    (hk : ∀ i, i ≠ 0 → i ≠ 2 → (i ∈ K' ↔ i ∈ K ∧ ¬ (i = fh ∧ LastLink v fh)))
    (hdrop : counted (found (fun d => d.dName == name) (v P)++
      if LastLink v fh then held (put v P (File.dropNamed name) fh) else []) = one fh)
    (hkey : fh ≠ 2 → fh ∈ K) : Counts B (unlinkView v P name fh) K' := by
  have hw : ∀ k, (put v P (File.dropNamed name) k).isDir = true → k ∈ B := by
    intro k hd
    rw [(Edit.dropNamed _).isDir] at hd
    exact hB k hd
  have hmeta : ∀ i, (put v P (File.dropNamed name) i).metadata = (v i).metadata :=
    fun i => (Edit.dropNamed _).put_metadata _ _ i
  have hsum := fun i => total_dropNamed (p := fun _ => names i) (hB P) name
  by_cases hlast : LastLink v fh
  · rw [if_pos hlast] at hdrop
    rw [unlinkView_eq, if_pos hlast]
    apply counts_erase h hw hmeta hsum hdrop hlast
    intro i h0 h2
    rw [hk i h0 h2]
    simp only [hlast, and_true, ne_eq]
  · rw [if_neg hlast, List.append_nil] at hdrop
    rw [unlinkView_eq, if_neg hlast]
    apply counts_unlink h hw hmeta hsum hdrop h0fh hkey hlast
    intro i h0 h2
    rw [hk i h0 h2]
    simp only [hlast, and_false, not_false_eq_true, and_true]

/-- A rename gives back one name for the names it drops. -/
theorem counts_renamed (h : Counts B v K) (hB : ∀ k, (v k).isDir = true → k ∈ B) {P Q : ℕ}
    {name newname : Str}
    (hdrop : counted (found (fun d => d.dName == newname) (v Q)++
      found (fun d => d.dName == name) (clearTarget v Q newname P)) =
        if (v Q).isDir = true ∧ ¬ IsDots newname then one fh else [])
    (hk : ∀ i, i ≠ 0 → i ≠ 2 → (i ∈ K' ↔ i ∈ K)) :
    Counts B (renameView v P Q name newname fh) K' := by
  have htotal : ∀ i, i ≠ 0 → i ≠ 2 →
      total B (fun _ => names i) (renameView v P Q name newname fh) =
        total B (fun _ => names i) v := by
    intro i h0 h2
    have hfirst := total_clearTarget (p := fun _ => names i) hB Q newname
      (fun d hd => by rw [(names_iff.mp hd).2]; exact h0)
    have hdir : (clearTarget v Q newname P).isDir = true → P ∈ B := by
      rw [clearTarget_isDir]
      exact hB P
    have hsecond := total_dropNamed (p := fun _ => names i) hdir name
    have hrem := congrArg (List.count i) hdrop
    rw [count_counted h0 h2, List.countP_append] at hrem
    rw [renameView, total_push (by rw [clearView_isDir]; exact hB Q), clearView_isDir, clearView_eq]
    by_cases hd : (v Q).isDir = true ∧ ¬ IsDots newname
    · rw [if_pos hd, count_one h0 h2] at hrem
      simp only [names_iff, hd.1, hd.2, not_false_eq_true, true_and]
      omega
    · rw [if_neg hd, List.count_nil] at hrem
      rw [if_neg (fun hc => hd ⟨hc.1,(names_iff.mp hc.2).1⟩)]
      omega
  constructor
  · intro i h0 h2
    rw [htotal i h0 h2, renameView_metadata]
    exact h.nlink i h0 h2
  · intro i h0 h2
    rw [hk i h0 h2, htotal i h0 h2]
    exact h.present i h0 h2

theorem counts_effect {c : Call} {r : ℤ} {n' : ℕ} (h : Counts B v K) (hdirs : Dirs v)
    (hs : Numbers v n) (hf : Fresh v n) (hB : ∀ k, k < n' → k ∈ B) (hc : c.isNamespace = true)
    (hknown : ∀ k ∈ touches v c, k = 0 ∨ k = 2 ∨ k ∈ K) (hbal : Balanced v c)
    (he : Effect v K n c r w K' n') : Counts B w K' := by
  have hin : n ≤ n' → ∀ k, (v k).isDir = true → k ∈ B :=
    fun hle k hd => hB k (Nat.lt_of_lt_of_le (hdirs.lt hs hd).2 hle)
  have htouched : ∀ i, i ≠ 0 → i ≠ 2 → (i ∈ touched v K c ↔ i ∈ K) := by
    intro i h0 h2
    constructor
    · rintro (hi | hi)
      · exact hi
      · rcases hknown i hi with hz | hr | hi
        · exact absurd hz h0
        · exact absurd hr h2
        · exact hi
    · exact Or.inl
  cases he with
  | idle stopped unspent keys =>
    refine ⟨h.nlink,fun i h0 h2 => ?_⟩
    rw [← keys i h0, htouched i h0 h2]
    exact h.present i h0 h2
  | leaked f create spent stopped => exact absurd (hbal.1 spent) stopped
  | entered path f create spent go new dots keys =>
    have hnew : (v (resolve v (parentPath path))).isDir = true ∧ ¬ IsDots (tail path) := by
      rcases created_cases create with ⟨_,_,rfl⟩ | ⟨_,rfl⟩ | ⟨_,rfl⟩ | ⟨_,rfl⟩ <;> exact hbal.2 go
    refine counts_fresh h hs hf (hB n (Nat.lt_succ_self n)) (hin (Nat.le_succ n)) new
      (by rw [dots]; exact dotEntries_dots n _ f) (hf.resolve_ne (parentPath path)) hnew.1 hnew.2 ?_
    intro i h0 h2
    rw [← keys i h0, Set.mem_insert_iff, htouched i h0 h2, or_comm]
  | linked path newpath go keys =>
    obtain ⟨hP,hname⟩ := hbal.2 go
    apply counts_linked h (hin le_rfl) hP hname
    · intro h2
      rw [← htouched _ go.1 h2]
      exact Or.inr (by simp [touches, go.1])
    · exact go.1
    · intro i h0 h2
      rw [← keys i h0, htouched i h0 h2]
  | unlinked path go keys =>
    apply counts_unlinked h (hin le_rfl) go.1 _ (hbal.2 go)
    · intro h2
      rw [← htouched _ go.1 h2]
      exact Or.inr (by simp [touches])
    · intro i h0 h2
      rw [← keys i h0, mem_dropKey, htouched i h0 h2]
  | removed path go keys =>
    have hlast := hdirs.lastLink go.1
    rw [rmdirView, if_pos hlast]
    refine counts_erase h ?_ (fun i => (Edit.dropIno _).put_metadata _ _ i)
      (fun i => total_dropIno (p := fun _ => names i) (hin le_rfl _) _) (hbal.2 go) hlast ?_
    · intro k hd
      rw [(Edit.dropIno _).isDir] at hd
      exact hin le_rfl k hd
    · intro i h0 h2
      rw [← keys i h0, mem_dropKey, htouched i h0 h2]
      simp only [hlast, and_true, ne_eq]
  | renamed path newpath go keys =>
    apply counts_renamed h (hin le_rfl) (hbal.2 go)
    intro i h0 h2
    rw [← keys i h0, htouched i h0 h2]
  | retyped => simp [Call.isNamespace] at hc
  | opened => simp [Call.isNamespace] at hc
  | closed => simp [Call.isNamespace] at hc
  | written => simp [Call.isNamespace] at hc
  | patched k g keeps other =>
    exact absurd (other.symm.trans (edits_of_isNamespace hc)) Bool.false_ne_true

theorem rootView_counts (env : Env) : Counts B (rootView env) {2} := by
  have hzero : ∀ i, total B (fun _ => names i) (rootView env) = 0 :=
    fun i => Finset.sum_eq_zero (fun k _ => tally_of_dots (rootView_dots env k))
  constructor
  · intro i _ h2
    rw [hzero, rootView_other env h2]
    rfl
  · intro i _ h2
    rw [hzero, Set.mem_singleton_iff]
    exact iff_of_false h2 (Nat.lt_irrefl 0)

/-- Every handle that a call looks at is 0, the root or a key. -/
def LooksAtKeys (s : Fs) (c : Call) : Prop :=
  ∀ k ∈ touches s.file c, k = 0 ∨ k = 2 ∨ k ∈ s.entry

instance (s : Fs) (c : Call) : Decidable (LooksAtKeys s c) := by
  unfold LooksAtKeys
  infer_instance

def keepsCounts (l : Label) (s : Fs) : Prop :=
  l.2.isNamespace = true ∧ LooksAtKeys s l.2 ∧ Balanced s.file l.2

instance (l : Label) (s : Fs) : Decidable (keepsCounts l s) :=
  inferInstanceAs (Decidable (_ ∧ _ ∧ _))

theorem sessions_counts {env : Env} {s : Fs} (h : Sessions env keepsCounts s)
    (hB : ∀ k, k < 2^31 → k ∈ B) : Counts B s.file s.keys ∧ Dirs s.file := by
  have h0 : Counts B (initialized env).file (initialized env).keys ∧
      Dirs (initialized env).file := by
    obtain ⟨-,-,hk,hv⟩ := initialized_eq env
    rw [hk, hv]
    exact ⟨rootView_counts env,rootView_dirs env⟩
  have hstep : ∀ l t t' r, Settled t → Settled t' → Counts B t.file t.keys ∧ Dirs t.file →
      keepsCounts l t → answer l.1 l.2 t = some (r,t') →
      Effect t.file t.keys t.count l.2 r t'.file t'.keys t'.count →
      Counts B t'.file t'.keys ∧ Dirs t'.file := by
    intro l t t' r hs hs' ⟨hc,hd⟩ ⟨hn,hknown,hbal⟩ _ he
    have hB' : ∀ k, k < t'.count → k ∈ B :=
      fun k hk => hB k (Nat.lt_of_lt_of_le hk hs'.high)
    exact ⟨counts_effect hc hd hs.toNumbers hs.fresh hB' hn hknown hbal he,
      dirs_effect hd (treeCall_of_namespace hn) (chmodPerm_of_namespace hn) he⟩
  exact sessions_invariant h h0 hstep

/-- Along a run whose calls are balanced, every file but the root has as many
links as names, and is in the table exactly when it has a name. -/
theorem link_counts {env : Env} {s : Fs} (h : Sessions env keepsCounts s) (i : ℕ) (h0 : i ≠ 0)
    (h2 : i ≠ 2) :
    (s.file i).metadata.stNlink = ∑ k ∈ s.entry.keys, tally (names i) (s.file k) ∧
      (i ∈ s.entry ↔ 0 < ∑ k ∈ s.entry.keys, tally (names i) (s.file k)) := by
  obtain ⟨B,hB⟩ : ∃ B : Finset ℕ, ∀ k, k < 2^31 → k ∈ B :=
    ⟨(Set.finite_Iio (2^31)).toFinset,fun k hk => (Set.Finite.mem_toFinset _).mpr hk⟩
  have hs := sessions_settled h
  obtain ⟨hc,hd⟩ := sessions_counts h hB
  have hdir : ∀ k, (s.file k).isDir = true → k ∈ B :=
    fun k hk => hB k (Nat.lt_of_lt_of_le (hd.lt hs.toNumbers hk).2 hs.high)
  rw [← total_keys hdir]
  exact ⟨hc.nlink i h0 h2,hc.present i h0 h2⟩

theorem link_counts_run :
    ((after [.creat ['/','f'] 0o644#32,.mkdir ['/','d'] 0o755#32,.link ['/','f'] ['/','d','/','g'],
      .unlink ['/','f']]).file 3).metadata.stNlink =
      ∑ k ∈ (after [.creat ['/','f'] 0o644#32,.mkdir ['/','d'] 0o755#32,
        .link ['/','f'] ['/','d','/','g'],.unlink ['/','f']]).entry.keys,
        tally (names 3) ((after [.creat ['/','f'] 0o644#32,.mkdir ['/','d'] 0o755#32,
          .link ['/','f'] ['/','d','/','g'],.unlink ['/','f']]).file k) :=
  (link_counts (after_session (by decide +kernel) (by decide +kernel)) 3 (by decide)
    (by decide)).1

/-- A second `my_mkdir` of a name fails and leaves a file without a name. -/
theorem second_mkdir_leaks :
    Sessions plainEnv namespaceCall
      (after [.mkdir ['/','d'] 0o755#32,.mkdir ['/','d'] 0o755#32]) ∧
    4 ∈ (after [.mkdir ['/','d'] 0o755#32,.mkdir ['/','d'] 0o755#32]).entry ∧
    ((after [.mkdir ['/','d'] 0o755#32,.mkdir ['/','d'] 0o755#32]).file 4).metadata.stNlink = 1 ∧
    ∑ k ∈ (after [.mkdir ['/','d'] 0o755#32,.mkdir ['/','d'] 0o755#32]).entry.keys,
      tally (names 4) ((after [.mkdir ['/','d'] 0o755#32,.mkdir ['/','d'] 0o755#32]).file k) = 0 :=
  ⟨after_session (by decide) (by decide),by decide,by decide,by decide +kernel⟩

end Bbfs.LinkCount
