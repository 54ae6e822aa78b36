import Bbfs.Outcomes

/-!
# The numbers of a session

The state after start-up is settled and every call keeps a state settled, so
a session may be read as a sequence of effects.
-/

set_option autoImplicit false

namespace Bbfs.Numbers
open Bbfs.Strings Bbfs.Files Bbfs.Resolve Bbfs.Calls Bbfs.Session Bbfs.Walks Bbfs.Effects
open Bbfs.Outcomes Bbfs.Runs

variable {v : View} {n : ℕ}

theorem numbers_put (h : Numbers v n) {k : ℕ} {g : File → File}
    (hd : ∀ d ∈ (g (v k)).dentries,
      d ∈ (v k).dentries ∨ (d.dIno < n ∨ d.dIno = errIno) ∧ '/' ∉ d.dName)
    (hi : (g (v k)).metadata.stIno = (v k).metadata.stIno)
    (hm : typeBits (g (v k)).metadata.stMode = typeBits (v k).metadata.stMode ∨ k ≠ 0)
    (hs : (g (v k)).dentries ⊆ (v k).dentries ∧
        typeBits (g (v k)).metadata.stMode = typeBits (v k).metadata.stMode ∨
      k < n ∨ k = errIno) : Numbers (put v k g) n where
  bounded := by
    intro i d hmem
    by_cases hik : i = k
    · subst hik
      rw [put_self] at hmem
      rcases hd d hmem with hold | hnew
      · exact h.bounded i d hold
      · exact hnew.1
    · rw [put_of_ne _ _ hik] at hmem
      exact h.bounded i d hmem
  spare := by
    intro i hn he
    by_cases hik : i = k
    · subst hik
      rw [put_self]
      obtain ⟨hdent,hmode⟩ := h.spare i hn he
      rcases hs with ⟨hsub,hsame⟩ | hlt | herr
      · rw [hdent] at hsub
        exact ⟨List.subset_nil.mp hsub,hsame.trans hmode⟩
      · omega
      · exact absurd herr he
    · rw [put_of_ne _ _ hik]
      exact h.spare i hn he
  numbered := by
    intro i
    by_cases hik : i = k
    · subst hik
      rw [put_self, hi]
      exact h.numbered i
    · rw [put_of_ne _ _ hik]
      exact h.numbered i
  sentinel := by
    by_cases h0 : 0 = k
    · subst h0
      rw [put_self]
      exact (hm.resolve_right (fun hne => hne rfl)).trans h.sentinel
    · rw [put_of_ne _ _ h0]
      exact h.sentinel
  slashFree := by
    intro i d hmem
    by_cases hik : i = k
    · subst hik
      rw [put_self] at hmem
      rcases hd d hmem with hold | hnew
      · exact h.slashFree i d hold
      · exact hnew.2
    · rw [put_of_ne _ _ hik] at hmem
      exact h.slashFree i d hmem

theorem numbers_shrink (h : Numbers v n) {k : ℕ} {g : File → File}
    (hd : (g (v k)).dentries ⊆ (v k).dentries)
    (hi : (g (v k)).metadata.stIno = (v k).metadata.stIno)
    (hm : typeBits (g (v k)).metadata.stMode = typeBits (v k).metadata.stMode) :
    Numbers (put v k g) n :=
  numbers_put h (fun _ hmem => Or.inl (hd hmem)) hi (Or.inl hm) (Or.inl ⟨hd,hm⟩)

theorem numbers_push (h : Numbers v n) {k i : ℕ} {name : Str} (hk : k < n ∨ k = errIno)
    (hi : i < n ∨ i = errIno) (hname : '/' ∉ name) :
    Numbers (put v k (File.push ⟨name,i⟩)) n := by
  refine numbers_put h ?_ rfl (Or.inl rfl) (Or.inr hk)
  intro d hmem
  rw [File.push_dentries, List.mem_append, List.mem_singleton] at hmem
  rcases hmem with hmem | rfl
  · exact Or.inl hmem
  · exact Or.inr ⟨hi,hname⟩

theorem numbers_clear (h : Numbers v n) (k : ℕ) : Numbers (Function.update v k default) n where
  bounded := by
    intro i d hmem
    by_cases hik : i = k
    · subst hik
      simp at hmem
    · rw [Function.update_of_ne hik] at hmem
      exact h.bounded i d hmem
  spare := by
    intro i hn he
    by_cases hik : i = k
    · subst hik
      rw [Function.update_self]
      exact ⟨rfl,by decide⟩
    · rw [Function.update_of_ne hik]
      exact h.spare i hn he
  numbered := by
    intro i
    by_cases hik : i = k
    · subst hik
      simp
    · rw [Function.update_of_ne hik]
      exact h.numbered i
  sentinel := by
    by_cases h0 : 0 = k
    · subst h0
      rw [Function.update_self]
      decide
    · rw [Function.update_of_ne h0]
      exact h.sentinel
  slashFree := by
    intro i d hmem
    by_cases hik : i = k
    · subst hik
      simp at hmem
    · rw [Function.update_of_ne hik] at hmem
      exact h.slashFree i d hmem

theorem numbers_fresh (h : Numbers v n) (hn : n ≠ 0) {f : File} (hi : f.metadata.stIno = n)
    (hd : ∀ d ∈ f.dentries, (d.dIno < n+1 ∨ d.dIno = errIno) ∧ '/' ∉ d.dName) :
    Numbers (Function.update v n f) (n+1) where
  bounded := by
    intro i d hmem
    by_cases hin : i = n
    · subst hin
      rw [Function.update_self] at hmem
      exact (hd d hmem).1
    · rw [Function.update_of_ne hin] at hmem
      exact (h.bounded i d hmem).imp_left Nat.lt_succ_of_lt
  spare := by
    intro i hle he
    rw [Function.update_of_ne (by omega)]
    exact h.spare i (by omega) he
  numbered := by
    intro i
    by_cases hin : i = n
    · subst hin
      rw [Function.update_self]
      exact Or.inr ⟨hi,Nat.lt_succ_self i⟩
    · rw [Function.update_of_ne hin]
      exact (h.numbered i).imp_right (fun hk => ⟨hk.1,Nat.lt_succ_of_lt hk.2⟩)
  sentinel := by
    rw [Function.update_of_ne hn.symm]
    exact h.sentinel
  slashFree := by
    intro i d hmem
    by_cases hin : i = n
    · subst hin
      rw [Function.update_self] at hmem
      exact (hd d hmem).2
    · rw [Function.update_of_ne hin] at hmem
      exact h.slashFree i d hmem

theorem numbers_dropLink (h : Numbers v n) (fh : ℕ) : Numbers (dropLink v fh) n := by
  unfold dropLink
  split_ifs
  · exact numbers_clear h fh
  · exact numbers_shrink h (List.Subset.refl _) rfl rfl

theorem numbers_clearView (h : Numbers v n) (P Q : ℕ) (name newname : Str) :
    Numbers (clearView v P Q name newname) n := by
  have hdrop : ∀ w k m, Numbers w n → Numbers (put w k (File.dropNamed m)) n :=
    fun w k m hw => numbers_shrink hw List.eraseP_subset rfl rfl
  unfold clearView
  split_ifs
  · exact hdrop _ _ _ (hdrop _ _ _ h)
  · exact hdrop _ _ _ h

theorem dotEntries_number {P : ℕ} (f : File) (hP : P < n ∨ P = errIno) :
    ∀ d ∈ dotEntries n P f, (d.dIno < n+1 ∨ d.dIno = errIno) ∧ '/' ∉ d.dName := by
  intro d hd
  unfold dotEntries at hd
  split_ifs at hd
  · rcases List.mem_cons.mp hd with rfl | hd
    · exact ⟨Or.inl (Nat.lt_succ_self n),by simp [dot]⟩
    · rw [List.mem_singleton] at hd
      subst hd
      exact ⟨hP.imp_left Nat.lt_succ_of_lt,by simp [dotdot]⟩
  · simp at hd

theorem numbers_effect {K K' : Set ℕ} {c : Call} {r : ℤ} {v' : View} {n' : ℕ} (h : Numbers v n)
    (hl : 3 ≤ n) (he : Effect v K n c r v' K' n') : Numbers v' n' ∧ n ≤ n' ∧ n' ≤ n+1 := by
  have hlt := h.resolve_lt hl
  have hn : n ≠ 0 := by omega
  cases he with
  | idle => exact ⟨h,le_rfl,Nat.le_succ n⟩
  | leaked f create spent stopped new empty keys =>
    refine ⟨numbers_fresh h hn new.ino ?_,Nat.le_succ n,le_rfl⟩
    simp [empty]
  | entered path f create spent go new dots keys =>
    have hf : Numbers (Function.update v n f) (n+1) := by
      apply numbers_fresh h hn new.ino
      rw [dots]
      exact dotEntries_number f (hlt _)
    refine ⟨numbers_push hf ?_ (Or.inl (Nat.lt_succ_self n)) (tail_slash_free path),
      Nat.le_succ n,le_rfl⟩
    exact (hlt _).imp_left Nat.lt_succ_of_lt
  | linked path newpath go keys =>
    refine ⟨numbers_push ?_ (hlt _) (hlt _) (tail_slash_free newpath),le_rfl,Nat.le_succ n⟩
    exact numbers_shrink h (List.Subset.refl _) rfl rfl
  | unlinked path go keys =>
    refine ⟨numbers_dropLink ?_ _,le_rfl,Nat.le_succ n⟩
    exact numbers_shrink h List.eraseP_subset rfl rfl
  | removed path go keys =>
    have hd : Numbers (put v (resolve v (parentPath path)) (File.dropIno (resolve v path))) n :=
      numbers_shrink h List.eraseP_subset rfl rfl
    refine ⟨?_,le_rfl,Nat.le_succ n⟩
    unfold rmdirView
    split_ifs
    · exact numbers_clear hd _
    · exact hd
  | renamed path newpath go keys =>
    exact ⟨numbers_push (numbers_clearView h _ _ _ _) (hlt _) (hlt _) (tail_slash_free newpath),
      le_rfl,Nat.le_succ n⟩
  | retyped path mode source keys =>
    exact ⟨numbers_put h (fun _ hmem => Or.inl hmem) rfl (Or.inr source) (Or.inr (hlt _)),
      le_rfl,Nat.le_succ n⟩
  | opened path flags keys =>
    exact ⟨numbers_shrink h (List.Subset.refl _) rfl rfl,le_rfl,Nat.le_succ n⟩
  | closed fh source keys => exact ⟨numbers_dropLink h fh,le_rfl,Nat.le_succ n⟩
  | written fh buf size offset data source reg keys =>
    exact ⟨numbers_shrink h (List.Subset.refl _) rfl rfl,le_rfl,Nat.le_succ n⟩
  | patched k g keeps other source keys =>
    refine ⟨numbers_shrink h ?_ (keeps.stIno _) ?_,le_rfl,Nat.le_succ n⟩
    · rw [keeps.dentries]
      exact List.Subset.refl _
    · rw [keeps.stMode]

variable {env : Env} {s s' : Fs} {l : Label} {cond : Label → Fs → Prop}

def rootFile (env : Env) : File where
  metadata := newStat env 2 (S_IFDIR ||| 0o700#32)
  dentries := [⟨dot,2⟩,⟨dotdot,2⟩]

theorem rootFile_type (env : Env) : typeBits (rootFile env).metadata.stMode = S_IFDIR := by
  rw [show (rootFile env).metadata.stMode = (S_IFDIR ||| 0o700#32) &&& ~~~env.oldUmask from rfl,
    typeBits_umask]
  decide

theorem rootFile_isDir (env : Env) : (rootFile env).isDir = true := by
  rw [File.isDir, S_ISDIR_eq, rootFile_type]
  rfl

def rootView (env : Env) : View := Function.update (fun _ => default) 2 (rootFile env)

theorem blank_file : blank.file = fun _ => default :=
  funext (fun _ => InsertingMap.read_of_notMem (Finmap.notMem_empty))

theorem initialized_eq (env : Env) :
    (initialized env).count = 3 ∧ (initialized env).firstTime = false ∧
      (initialized env).keys = {2} ∧ (initialized env).file = rootView env := by
  have hpar : segments (parentPath slash) = [[]] := by decide
  have hmode : typeBits (newStat env 2 (S_IFDIR ||| 0o700#32)).stMode = S_IFDIR := rootFile_type env
  have hl : (put (fun _ => (default : File)) 2
      (File.setStat fun _ => newStat env 2 (S_IFDIR ||| 0o700#32)) 2).isLnk = false := by
    rw [put_self, File.isLnk, File.setStat_metadata, S_ISLNK_eq, hmode]
    decide
  have hreal : ∀ v : View, real v (parentPath slash) = 2 := by
    intro v
    rw [real, hpar, walk, if_pos rfl, walk]
  have hkeys : blank.keys = ∅ := Set.eq_empty_iff_forall_notMem.mpr (fun _ => Finmap.notMem_empty)
  have hdir : S_ISDIR (S_IFDIR ||| 0o700#32) = true := by decide
  have hcount : blank.count = 2 := rfl
  have hfirst : blank.firstTime = true := rfl
  simp only [initialized, myMkdir, myMknod, next, hcount, findIno_eq, Fs.modify_file, Fs.mk_file,
    blank_file, resolve, hreal, follow_not_lnk hl, hfirst, Fs.touch_firstTime,
    Fs.modify_firstTime, OfNat.ofNat_ne_zero, if_false, if_true, installDots, hdir]
  refine ⟨rfl,trivial,?_,?_⟩
  · simp [hkeys]
  · simp [blank_file, put, rootView, rootFile, File.push, File.setStat]
    rfl

theorem rootView_other (env : Env) {k : ℕ} (hk : k ≠ 2) : rootView env k = default :=
  Function.update_of_ne hk _ _

theorem rootView_root (env : Env) : rootView env 2 = rootFile env :=
  Function.update_self 2 _ _

theorem rootView_numbers (env : Env) : Numbers (rootView env) 3 := by
  have hroot : ∀ k, rootView env k = default ∨ k = 2 ∧ rootView env k = rootFile env := by
    intro k
    by_cases hk : k = 2
    · subst hk
      exact Or.inr ⟨rfl,rootView_root env⟩
    · exact Or.inl (rootView_other env hk)
  have hent : ∀ k, ∀ d ∈ (rootView env k).dentries, d.dIno = 2 ∧ '/' ∉ d.dName := by
    intro k d hd
    rcases hroot k with hk | ⟨-,hk⟩
    · simp [hk] at hd
    · rw [hk] at hd
      rcases List.mem_cons.mp hd with rfl | hd
      · exact ⟨rfl,by decide⟩
      · rw [List.mem_singleton] at hd
        subst hd
        exact ⟨rfl,by decide⟩
  refine ⟨?_,?_,?_,?_,fun k d hd => (hent k d hd).2⟩
  · intro k d hd
    have := (hent k d hd).1
    exact Or.inl (by omega)
  · intro k hk he
    rw [rootView_other env (by omega)]
    exact ⟨rfl,by decide⟩
  · intro k
    rcases hroot k with hk | ⟨rfl,hk⟩
    · simp [hk]
    · rw [hk]
      exact Or.inr ⟨rfl,by decide⟩
  · rw [rootView_other env (by decide)]
    decide

theorem initialized_settled (env : Env) : Settled (initialized env) := by
  obtain ⟨hc,hf,-,hv⟩ := initialized_eq env
  refine ⟨?_,hf,by omega,by omega⟩
  rw [hc, hv]
  exact rootView_numbers env

theorem advance_effect (hs : Settled s) (h : advance l s = some s') :
    Settled s' ∧ ∃ r, answer l.1 l.2 s = some (r,s') ∧
      Effect s.file s.keys s.count l.2 r s'.file s'.keys s'.count := by
  obtain ⟨hlt,r,ha⟩ := advance_some h
  obtain ⟨he,hf⟩ := did_of_answer hs ha
  obtain ⟨hn,hle,hle'⟩ := numbers_effect hs.toNumbers hs.low he
  have hlow := hs.low
  exact ⟨⟨hn,hf.trans hs.started,by omega,by omega⟩,r,ha,he⟩

theorem sessions_settled (h : Sessions env cond s) : Settled s :=
  h.invariant (initialized_settled env) (fun _ _ _ hs _ hm => (advance_effect hs hm).1)

theorem sessions_invariant {inv : Fs → Prop} (h : Sessions env cond s) (h0 : inv (initialized env))
    (hstep : ∀ l t t' r, Settled t → Settled t' → inv t → cond l t →
      answer l.1 l.2 t = some (r,t') →
      Effect t.file t.keys t.count l.2 r t'.file t'.keys t'.count → inv t') : inv s := by
  have hmove : ∀ l t t', Settled t ∧ inv t → cond l t → advance l t = some t' →
      Settled t' ∧ inv t' := by
    intro l t t' ⟨hs,hi⟩ hc hm
    obtain ⟨hs',r,ha,he⟩ := advance_effect hs hm
    exact ⟨hs',hstep l t t' r hs hs' hi hc ha he⟩
  have hinv : Settled s ∧ inv s := h.invariant ⟨initialized_settled env,h0⟩ hmove
  exact hinv.2

/-- A run of admitted calls visits good states only exactly if every call meets
the condition, when each single effect says so. -/
theorem sessions_holds_iff {good : Fs → Prop} {dom : Label → Prop} (ls : List Label)
    (hls : ∀ l ∈ ls, dom l) (h0 : good (initialized env))
    (hstep : ∀ l t t' r, dom l → Settled t → Settled t' → good t →
      answer l.1 l.2 t = some (r,t') →
      Effect t.file t.keys t.count l.2 r t'.file t'.keys t'.count → (good t' ↔ cond l t)) :
    Holds advance good ls (initialized env) ↔ Meets advance cond ls (initialized env) := by
  have hsettled : ∀ l t t', dom l → Settled t → advance l t = some t' → Settled t' :=
    fun l t t' _ hs hm => (advance_effect hs hm).1
  have hgood : ∀ l t t', dom l → Settled t → good t → advance l t = some t' →
      (good t' ↔ cond l t) := by
    intro l t t' hd hs hg hm
    obtain ⟨hs',r,ha,he⟩ := advance_effect hs hm
    exact hstep l t t' r hd hs hs' hg ha he
  exact holds_iff_meets hsettled hgood ls hls (initialized_settled env) h0

end Bbfs.Numbers
