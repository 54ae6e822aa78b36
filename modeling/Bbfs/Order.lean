import Bbfs.Directories

/-!
# The order of directory numbers

Without `my_rename`, a plain entry for a directory was made together with it,
and so names a higher number than the one that holds it. The one exception is
an entry parked under the error value of `find_ino`. Lookups of plain names
climb, and do not come back.
-/

set_option autoImplicit false

namespace Bbfs.Order
open Bbfs.Strings Bbfs.Files Bbfs.Resolve Bbfs.Calls Bbfs.Session Bbfs.Walks Bbfs.Effects
open Bbfs.Outcomes Bbfs.Numbers Bbfs.Directories Bbfs.Runs

/-- The plain entries for directories in files that meet `p` name higher
numbers than their holders. -/
def Ascends (p : File → Prop) (v : View) : Prop :=
  ∀ k, p (v k) → ∀ d ∈ (v k).dentries, ¬ IsDots d.dName → (v d.dIno).isDir = true → k < d.dIno

def orderCall : Call → Bool
  | .mkdir .. | .creat .. | .link .. | .symlink .. | .unlink .. | .rmdir .. | .chmod .. | .chown ..
  | .utime .. | .pwrite .. | .truncate .. | .lsetxattr .. | .lgetxattr .. | .llistxattr ..
  | .lremovexattr .. => true
  | _ => false

/-- A `my_mkdir` that passes its guards has not resolved the parent to the
error value. -/
def FindsParent (v : View) (c : Call) : Prop :=
  Proceeds v c → match c with
  | .mkdir path _ => resolve v (parentPath path) = errIno → IsDots (tail path)
  | _ => True

instance (v : View) (c : Call) : Decidable (FindsParent v c) := by
  induction c using Call.casesOn <;> unfold FindsParent <;> infer_instance

variable {p : File → Prop} {v w : View} {n : ℕ}

theorem Ascends.mono (h : Ascends p v) (hp : ∀ k, (w k).dentries ≠ [] → p (w k) → p (v k))
    (hs : ∀ k, (w k).dentries ⊆ (v k).dentries)
    (hd : ∀ k, (w k).isDir = true → (v k).isDir = true) : Ascends p w := by
  intro k hk d hm hn hdir
  have hne : (w k).dentries ≠ [] := List.ne_nil_of_mem hm
  exact h k (hp k hne hk) d (hs k hm) hn (hd _ hdir)

theorem Ascends.put (h : Ascends p v) {k : ℕ} {g : File → File} (hp : p (g (v k)) → p (v k))
    (hs : (g (v k)).dentries ⊆ (v k).dentries)
    (hd : (g (v k)).isDir = true → (v k).isDir = true) : Ascends p (Files.put v k g) := by
  have hput : ∀ i, i = k ∨ Files.put v k g i = v i := by
    intro i
    by_cases hi : i = k
    · exact Or.inl hi
    · exact Or.inr (put_of_ne _ _ hi)
  apply h.mono
  · intro i _ hi
    rcases hput i with rfl | he
    · rw [put_self] at hi
      exact hp hi
    · exact he ▸ hi
  · intro i
    rcases hput i with rfl | he
    · rw [put_self]
      exact hs
    · rw [he]
      exact List.Subset.refl _
  · intro i hi
    rcases hput i with rfl | he
    · rw [put_self] at hi
      exact hd hi
    · exact he ▸ hi

theorem Ascends.erase (h : Ascends p v) (k : ℕ) : Ascends p (Function.update v k default) := by
  have hup : ∀ i, Function.update v k default i = default ∨
      Function.update v k default i = v i := by
    intro i
    by_cases hi : i = k
    · subst hi
      exact Or.inl (Function.update_self i _ v)
    · exact Or.inr (Function.update_of_ne hi _ v)
  apply h.mono
  · intro i hne hi
    rcases hup i with he | he
    · exact absurd (by rw [he]; rfl) hne
    · exact he ▸ hi
  · intro i
    rcases hup i with he | he
    · simp [he]
    · rw [he]
      exact List.Subset.refl _
  · intro i hi
    rcases hup i with he | he
    · simp [he] at hi
    · exact he ▸ hi

theorem Ascends.dropLink (h : Ascends p v) (hp : ∀ f g : File, g.isDir = f.isDir → p g → p f)
    (fh : ℕ) : Ascends p (dropLink v fh) := by
  unfold Effects.dropLink
  split_ifs
  · exact h.erase fh
  · exact h.put (hp _ _ rfl) (List.Subset.refl _) id

theorem Ascends.push_file (h : Ascends p v) (hp : ∀ f g : File, g.isDir = f.isDir → p g → p f)
    {P i : ℕ} (hi : (v i).isDir = false) (name : Str) :
    Ascends p (Files.put v P (File.push ⟨name,i⟩)) := by
  have hdir := (Edit.push ⟨name,i⟩).isDir v P
  intro k hk d hm hn hd
  rw [hdir] at hd
  have hpk : p (v k) := hp _ _ (hdir k) hk
  rcases mem_pushed hm with hold | ⟨-,rfl⟩
  · exact h k hpk d hold hn hd
  · simp [hi] at hd

theorem Ascends.fresh (h : Ascends p v) (hf : Fresh v n) {f : File}
    (hdots : ∀ d ∈ f.dentries, IsDots d.dName) : Ascends p (Function.update v n f) := by
  intro k hk d hm hn hd
  by_cases hkn : k = n
  · subst hkn
    rw [Function.update_self] at hm
    exact absurd (hdots d hm) hn
  · rw [Function.update_of_ne hkn] at hk hm
    rw [Function.update_of_ne (hf.unnamed k d hm)] at hd
    exact h k hk d hm hn hd

theorem ascends_enter_iff (h : Ascends p v) (hf : Fresh v n)
    (hp : ∀ f g : File, g.isDir = f.isDir → p g → p f) {f : File} (hdir : f.isDir = true)
    (hdots : ∀ d ∈ f.dentries, IsDots d.dName) {P : ℕ} (hP : P < n ∨ P = errIno)
    (hhigh : n ≤ errIno) (name : Str) :
    Ascends p (enterView v n P name f) ↔ (p (v errIno) → P = errIno → IsDots name) := by
  have hPn : P ≠ n := by
    have := hf.ne_err
    omega
  have hold : Function.update v n f P = v P := Function.update_of_ne hPn _ _
  have hsame := (Edit.push ⟨name,n⟩).isDir (Function.update v n f) P
  have hnew : (enterView v n P name f n).isDir = true := by
    rw [enterView, hsame, Function.update_self]
    exact hdir
  have hpP : p (enterView v n P name f P) ↔ p (v P) := by
    have hd : (enterView v n P name f P).isDir = (v P).isDir := by
      rw [enterView, hsame, hold]
    exact ⟨hp _ _ hd,hp _ _ hd.symm⟩
  constructor
  · intro ha hk he
    by_contra hn
    have hmem : (⟨name,n⟩ : Dirent) ∈ (enterView v n P name f P).dentries := by
      simp [enterView]
    have := ha P (hpP.mpr (he ▸ hk)) ⟨name,n⟩ hmem hn hnew
    simp only at this
    omega
  · intro hc k hk d hm hn hd
    have hfresh := h.fresh hf hdots
    by_cases hkP : k = P
    · subst hkP
      rw [enterView, put_self, File.push_dentries, List.mem_append, List.mem_singleton] at hm
      have hpk := hpP.mp hk
      rcases hm with hm | rfl
      · rw [enterView, hsame] at hd
        exact hfresh k (hold.symm ▸ hpk) d hm hn hd
      · exact hP.resolve_right (fun he => hn (hc (he ▸ hpk) he))
    · rw [enterView, put_of_ne _ _ hkP] at hk hm
      rw [enterView, hsame] at hd
      exact hfresh k hk d hm hn hd

/-- One step: the order is kept exactly when the parent was found. -/
theorem ascends_effect_iff {K K' : Set ℕ} {c : Call} {r : ℤ} {n' : ℕ} (h : Ascends p v)
    (hp : ∀ f g : File, g.isDir = f.isDir → p g → p f) (hn : Numbers v n) (hl : 3 ≤ n)
    (hf : Fresh v n) (hhigh : n ≤ errIno) (hc : orderCall c = true) (hm : c.permModes = true)
    (he : Effect v K n c r w K' n') : Ascends p w ↔ (p (v errIno) → FindsParent v c) := by
  have hshrink : ∀ u k (g : File → File), Edit g → (g (u k)).dentries ⊆ (u k).dentries →
      Ascends p u → Ascends p (put u k g) := by
    intro u k g hg hs hu
    have hd : (g (u k)).isDir = (u k).isDir := by
      rw [File.isDir, hg.metadata, File.isDir]
    exact hu.put (hp _ _ hd) hs (fun hx => hd ▸ hx)
  cases he with
  | idle stopped => exact iff_of_true h (fun _ hgo => absurd hgo stopped)
  | leaked f create spent stopped new empty =>
    exact iff_of_true (h.fresh hf (by simp [empty])) (fun _ hgo => absurd hgo stopped)
  | entered path f create spent go new dots =>
    have hdots : ∀ d ∈ f.dentries, IsDots d.dName := by
      rw [dots]
      exact dotEntries_dots n _ f
    have hlt := hn.resolve_lt hl (parentPath path)
    have hfile : f.isDir = false → Ascends p (enterView v n (resolve v (parentPath path))
        (tail path) f) := by
      intro hd
      apply (h.fresh hf hdots).push_file hp
      rw [Function.update_self]
      exact hd
    have htype : f.isDir = (c.makes r == S_IFDIR) := by
      rw [File.isDir, S_ISDIR_eq, new.type]
    cases c with
    | mkdir q mode =>
      cases create
      have hmode : typeBits mode = 0 := by simpa [Call.permModes] using hm
      have hdir : f.isDir = true := by
        rw [htype, Call.makes, typeBits_or, hmode]
        decide
      rw [ascends_enter_iff h hf hp hdir hdots hlt hhigh]
      exact ⟨fun hd he _ => hd he,fun hd he => hd he go⟩
    | creat q mode =>
      have hmode : typeBits mode = 0 := by simpa [Call.permModes] using hm
      refine iff_of_true (hfile ?_) (fun _ _ => trivial)
      rw [htype, Call.makes, typeBits_or, hmode]
      decide
    | symlink q newpath =>
      refine iff_of_true (hfile ?_) (fun _ _ => trivial)
      rw [htype, Call.makes]
      split_ifs <;> decide
    | _ => simp [orderCall, Call.created] at hc create
  | linked path newpath go =>
    refine iff_of_true (Ascends.push_file ?_ hp ?_ _) (fun _ _ => trivial)
    · exact h.put (hp _ _ rfl) (List.Subset.refl _) id
    · rw [setStat_isDir (g := incNlink) (fun _ => rfl)]
      exact isDir_of_isReg go.2.1
  | unlinked path =>
    have hdrop := hshrink v (resolve v (parentPath path)) _ (.dropNamed (tail path))
      List.eraseP_subset h
    exact iff_of_true (hdrop.dropLink hp _) (fun _ _ => trivial)
  | removed path =>
    have hdrop := hshrink v (resolve v (parentPath path)) _ (.dropIno (resolve v path))
      List.eraseP_subset h
    refine iff_of_true ?_ (fun _ _ => trivial)
    unfold rmdirView
    split_ifs
    · exact hdrop.erase _
    · exact hdrop
  | renamed => simp [orderCall] at hc
  | retyped path mode =>
    have hd := chmodStat_isDir (show typeBits mode = 0 by simpa [Call.permModes] using hm)
      (v (resolve v path))
    exact iff_of_true (h.put (hp _ _ hd) (List.Subset.refl _) (fun hx => hd ▸ hx))
      (fun _ _ => trivial)
  | opened => simp [orderCall] at hc
  | closed => simp [orderCall] at hc
  | written fh buf size offset data =>
    exact iff_of_true (h.put (hp _ _ rfl) (List.Subset.refl _) id) (fun _ _ => trivial)
  | patched k g keeps other =>
    have hd : (g (v k)).isDir = (v k).isDir := by
      rw [File.isDir, keeps.stMode, File.isDir]
    refine iff_of_true (h.put (hp _ _ hd) ?_ (fun hx => hd ▸ hx))
      (fun _ hgo => absurd hgo (not_proceeds other v))
    rw [keeps.dentries]
    exact List.Subset.refl _

def lookups (s : Fs) (fh : ℕ) (names : List Str) : ℕ :=
  names.foldl (fun fh name => (lookup name fh s).1) fh

/-- No chain of plain names leads from a directory back to it. -/
def NoReturn (s : Fs) : Prop :=
  ∀ x, (s.file x).isDir = true → ∀ names, names ≠ [] → (∀ name ∈ names, ¬ IsDots name) →
    lookups s x names ≠ x

theorem lookups_cons (s : Fs) (fh : ℕ) (name : Str) (names : List Str) :
    lookups s fh (name::names) = lookups s (nameIn s.file name fh) names := by
  rw [lookups, List.foldl_cons, lookup_eq, lookups]

theorem dir_of_lookups {s : Fs} (h0 : (s.file 0).isDir = false) {names : List Str} {x : ℕ}
    (h : (s.file (lookups s x names)).isDir = true) : (s.file x).isDir = true := by
  induction names generalizing x with
  | nil => exact h
  | cons name names ih =>
    rw [lookups_cons] at h
    have hnext := ih h
    by_contra hx
    rw [nameIn, if_neg hx, h0] at hnext
    exact Bool.false_ne_true hnext

theorem lookups_le {s : Fs} (h : Ascends (fun f => f.isDir = true) s.file)
    (h0 : (s.file 0).isDir = false) {names : List Str} (hn : ∀ name ∈ names, ¬ IsDots name) {x : ℕ}
    (hd : (s.file (lookups s x names)).isDir = true) : x + names.length ≤ lookups s x names := by
  induction names generalizing x with
  | nil => exact le_rfl
  | cons name names ih =>
    have hx := dir_of_lookups h0 hd
    rw [lookups_cons] at hd ⊢
    have hnext := dir_of_lookups h0 hd
    have hrest := ih (fun m hm => hn m (List.mem_cons_of_mem _ hm)) hd
    have hlt : x < nameIn s.file name x := by
      rcases nameIn_origin (v := s.file) name x with hz | ⟨-,d,hm,hname,hi⟩
      · rw [hz, h0] at hnext
        exact absurd hnext Bool.false_ne_true
      · rw [← hi] at hnext ⊢
        exact h x hx d hm (hname ▸ hn name List.mem_cons_self) hnext
    rw [List.length_cons]
    omega

theorem noReturn {s : Fs} (h : Ascends (fun f => f.isDir = true) s.file)
    (h0 : (s.file 0).isDir = false) : NoReturn s := by
  intro x hx names hne hn he
  have hle := lookups_le h h0 hn (he ▸ hx)
  have hpos := List.length_pos_of_ne_nil hne
  omega

theorem notDir_effect {K K' : Set ℕ} {c : Call} {r : ℤ} {n' k : ℕ} (h : (v k).isDir = false)
    (hk : k ≠ n) (hm : c.permModes = true) (he : Effect v K n c r w K' n') :
    (w k).isDir = false := by
  have hdrop : ∀ u fh, (u k).isDir = false → (Effects.dropLink u fh k).isDir = false := by
    intro u fh hu
    unfold Effects.dropLink
    split_ifs
    · by_cases hf : k = fh
      · rw [hf, Function.update_self, File.default_isDir]
      · rwa [Function.update_of_ne hf]
    · rwa [setStat_isDir (g := decNlink) (fun _ => rfl)]
  cases he with
  | idle => exact h
  | leaked f => rwa [Function.update_of_ne hk]
  | entered path f => rwa [enterView, (Edit.push _).isDir, Function.update_of_ne hk]
  | linked path newpath =>
    rwa [linkView_isDir]
  | unlinked path =>
    apply hdrop
    rwa [(Edit.dropNamed _).isDir]
  | removed path =>
    unfold rmdirView
    split_ifs
    · by_cases hf : k = resolve v path
      · rw [hf, Function.update_self, File.default_isDir]
      · rwa [Function.update_of_ne hf, (Edit.dropIno _).isDir]
    · rwa [(Edit.dropIno _).isDir]
  | renamed path newpath => rwa [renameView, (Edit.push _).isDir, clearView_isDir]
  | retyped path mode =>
    have hmode : typeBits mode = 0 := by simpa [Call.permModes] using hm
    by_cases hf : k = resolve v path
    · subst hf
      rwa [put_self, chmodStat_isDir hmode]
    · rwa [put_of_ne _ _ hf]
  | opened path flags => rwa [setStat_isDir (g := incNlink) (fun _ => rfl)]
  | closed fh => exact hdrop v fh h
  | written fh buf size offset data => rwa [((keeps_stored data _).put v fh k).isDir]
  | patched i g keeps => rwa [(keeps.put v i k).isDir]

def findsParent (l : Label) (s : Fs) : Prop := FindsParent s.file l.2

instance (l : Label) (s : Fs) : Decidable (findsParent l s) :=
  inferInstanceAs (Decidable (FindsParent _ _))

/-- Along a run of calls of the list, with permission bits as modes, every
plain entry for a directory names a higher number than its holder exactly when
every directory is made under a parent that was found; and in no run does a
chain of plain names return to the directory it left. -/
theorem order_rules_out_cycles (env : Env) (ls : List Label)
    (hls : ∀ l ∈ ls, orderCall l.2 = true ∧ l.2.permModes = true) :
    (Holds advance (fun s => Ascends (fun _ => True) s.file) ls (initialized env) ↔
      Meets advance findsParent ls (initialized env)) ∧
    Holds advance NoReturn ls (initialized env) := by
  have hroot : ∀ p, Ascends p (rootView env) :=
    fun p k _ d hd hn _ => absurd (rootView_dots env k d hd) hn
  have hinit := (initialized_eq env).2.2.2
  have herr : ∀ {s : Fs}, Settled s → s.count ≤ errIno := by
    intro s hs
    have hhigh := hs.high
    rw [errIno]
    omega
  constructor
  · apply sessions_holds_iff ls hls
    · rw [hinit]
      exact hroot _
    · rintro l s s' r ⟨hc,hm⟩ hs - hgood - he
      rw [ascends_effect_iff hgood (fun _ _ _ => id) hs.toNumbers hs.low hs.fresh (herr hs) hc hm
        he]
      exact ⟨fun h => h trivial,fun h _ => h⟩
  · have hgood : Holds advance (fun s => (Ascends (fun f => f.isDir = true) s.file ∧
        (s.file errIno).isDir = false) ∧ (s.file 0).isDir = false) ls (initialized env) := by
      have hany : Meets advance anyCall ls (initialized env) :=
        meets_of_forall (fun _ _ => trivial) ls _
      apply (sessions_holds_iff ls hls _ _).mpr hany
      · rw [hinit, rootView_other env (by decide), rootView_other env (by decide)]
        exact ⟨⟨hroot _,File.default_isDir⟩,File.default_isDir⟩
      · rintro l s s' r ⟨hc,hm⟩ hs hs' ⟨⟨hasc,hnd⟩,-⟩ - he
        apply iff_of_true _ trivial
        apply And.intro _ (untyped hs'.sentinel).1
        apply And.intro _ (notDir_effect hnd hs.fresh.ne_err.symm hm he)
        apply (ascends_effect_iff hasc (fun _ _ hd h => hd ▸ h) hs.toNumbers hs.low hs.fresh
          (herr hs) hc hm he).mpr
        intro hd
        simp [hnd] at hd
    exact hgood.mono (fun s h => noReturn h.1.1 h.2)

theorem order_rules_out_cycles_run :
    Holds advance (fun s => Ascends (fun _ => True) s.file)
        (plain [.mkdir ['/','d'] 0o755#32,.mkdir ['/','d','/','e'] 0o755#32,
          .symlink ['/','d'] ['/','l'],.mkdir ['/','l','/','x'] 0o755#32,.rmdir ['/','d','/','e']])
        (initialized plainEnv) ∧
      Holds advance NoReturn
        (plain [.mkdir ['/','d'] 0o755#32,.mkdir ['/','d','/','e'] 0o755#32,
          .symlink ['/','d'] ['/','l'],.mkdir ['/','l','/','x'] 0o755#32,.rmdir ['/','d','/','e']])
        (initialized plainEnv) := by
  have hls : ∀ l ∈ plain [.mkdir ['/','d'] 0o755#32,.mkdir ['/','d','/','e'] 0o755#32,
      .symlink ['/','d'] ['/','l'],.mkdir ['/','l','/','x'] 0o755#32,.rmdir ['/','d','/','e']],
      orderCall l.2 = true ∧ l.2.permModes = true := by
    decide
  obtain ⟨hasc,hret⟩ := order_rules_out_cycles plainEnv _ hls
  exact ⟨hasc.mpr (by decide +kernel),hret⟩

/-- A link text of 2^31 bytes has a negative length. The error value of
`find_ino` is then taken for the parent, and the directory 5 is entered there. -/
theorem directory_entered_under_error :
    ∃ s, Sessions plainEnv (fun l _ => orderCall l.2 = true ∧ l.2.permModes = true) s ∧
      ¬ Ascends (fun _ => True) s.file := by
  set s := after [.symlink ['/','q'] ['/','t'],.symlink ['/','t'] ['/','s']] with hs
  have hsession : Sessions plainEnv (fun l _ => orderCall l.2 = true ∧ l.2.permModes = true) s :=
    after_session (by decide) (by decide)
  obtain ⟨hcount,hres,hreal,hchild,hlnk,h0⟩ : s.count = 5 ∧ resolve s.file ['/','s'] = 3 ∧
      real s.file ['/','t'] = 3 ∧ real s.file ['/','t','/','x'] = 0 ∧
      (s.file 3).isLnk = true ∧ (s.file 0).isLnk = false := by
    decide
  clear_value s
  obtain ⟨size,hsize⟩ : ∃ size : ℤ, size = 2^31 := ⟨_,rfl⟩
  rcases ht : myTruncate ['/','s'] size s with ⟨r,t⟩
  have htrunc : advance (plainEnv,.truncate ['/','s'] size) s = some t := by
    simp only [advance, answer, hcount, ht, Nat.reducePow, Nat.reduceLT, if_true, Option.map_some]
  have htsession := hsession.step _ ⟨rfl,rfl⟩ htrunc
  have hfile : t.file = put s.file 3 (cutTo size.toNat) := by
    rcases myTruncate_some ht with ⟨hbad,-,-⟩ | ⟨-,-,-,-,hput⟩
    · have hdir : (s.file 3).isDir = false := isDir_of_isLnk hlnk
      simp [hres, hdir, hsize] at hbad
    · rw [hput, hres]
  have hkeep := fun k => (keeps_cutTo size.toNat).put s.file 3 k
  rw [← hfile] at hkeep
  have hwalk : ∀ p, real t.file p = real s.file p :=
    real_congr (fun k => ⟨(hkeep k).isDir,(hkeep k).dentries⟩)
  have htext : linkText (t.file 3) = none := by
    have hlen : (t.file 3).data.length = size.toNat := by
      rw [hfile, put_self]
      simp [cutTo, resize]
      omega
    rw [linkText, hlen, if_pos]
    rw [hsize]
    decide
  have herr : resolve t.file ['/','t'] = errIno := by
    rw [resolve, hwalk, hreal, follow, (hkeep 3).isLnk, if_pos hlnk, htext]
    rfl
  have hgo : Proceeds t.file (.mkdir ['/','t','/','x'] 0o755#32) := by
    have hparent : parentPath ['/','t','/','x'] = ['/','t'] := by decide
    constructor
    · rw [hparent, herr]
      decide
    · rw [resolve, hwalk, hchild, follow_not_lnk]
      rw [(hkeep 0).isLnk]
      exact h0
  have hlt : t.count < 2^31 := by
    have hs := sessions_settled hsession
    obtain ⟨-,_,-,he⟩ := advance_effect hs htrunc
    have hle := (numbers_effect hs.toNumbers hs.low he).2.2
    omega
  -- the directory made under it
  rcases hm : myMkdir plainEnv ['/','t','/','x'] 0o755#32 t with ⟨r',u⟩
  have hmkdir : advance (plainEnv,.mkdir ['/','t','/','x'] 0o755#32) t = some u := by
    simp only [advance, answer, hlt, hm, if_true, Option.map_some]
  apply Exists.intro u
  apply And.intro (htsession.step _ ⟨rfl,by decide⟩ hmkdir)
  intro hasc
  have hts := sessions_settled htsession
  obtain ⟨-,r'',-,he⟩ := advance_effect hts hmkdir
  obtain ⟨f,new,hw⟩ := he.enters rfl hgo
  have hparent : parentPath ['/','t','/','x'] = ['/','t'] := by decide
  rw [hw, hparent, herr] at hasc
  have hdir : f.isDir = true := by
    rw [File.isDir, S_ISDIR_eq, new.type]
    exact (by decide : (typeBits (S_IFDIR ||| 0o755#32) == S_IFDIR) = true)
  have hPn := hts.fresh.ne_err
  have hmem : (⟨tail ['/','t','/','x'],t.count⟩ : Dirent) ∈
      (enterView t.file t.count errIno (tail ['/','t','/','x']) f errIno).dentries := by
    simp [enterView]
  have hnew :
      (enterView t.file t.count errIno (tail ['/','t','/','x']) f t.count).isDir = true := by
    rw [enterView, put_of_ne _ _ hPn, Function.update_self]
    exact hdir
  have hname : ¬ IsDots (tail ['/','t','/','x']) := by decide
  have hup : errIno < t.count := hasc errIno trivial _ hmem hname hnew
  rw [errIno] at hup
  omega

end Bbfs.Order
