import Bbfs.Effects

/-!
# The effect of each call

Every answer a settled state gives is one of the listed effects. Each call is
opened once here; its guards and its resolved handles are carried over into
the effect.
-/

set_option autoImplicit false

namespace Bbfs.Outcomes
open Bbfs.Strings Bbfs.Files Bbfs.Resolve Bbfs.Calls Bbfs.Session Bbfs.Walks Bbfs.Effects

/-- A call did one of the listed things, and left the flag of `my_mknod`
alone. -/
def Did (s : Fs) (c : Call) (r : ℤ) (s' : Fs) : Prop :=
  Effect s.file s.keys s.count c r s'.file s'.keys s'.count ∧ s'.firstTime = s.firstTime

variable {s s' : Fs} {env : Env} {r : ℤ} {ks : List ℕ} {c : Call}

structure Grown (s : Fs) (ks : List ℕ) (s' : Fs) : Prop where
  keys : ∀ k, k ≠ 0 → (k ∈ s'.keys ↔ k ∈ s.keys ∨ k ∈ ks)
  count : s'.count = s.count
  firstTime : s'.firstTime = s.firstTime

theorem grown_touches (ks : List ℕ) (s : Fs) : Grown s ks (ks.foldl Fs.touch s) := by
  induction ks generalizing s with
  | nil => exact ⟨fun k _ => by simp,rfl,rfl⟩
  | cons i ks ih =>
    have h := ih (s.touch i)
    refine ⟨?_,h.count,h.firstTime⟩
    intro k hk
    rw [List.foldl_cons, h.keys k hk, Fs.touch_keys, Set.mem_insert_iff, List.mem_cons,
      or_comm (a := k = i), or_assoc]

theorem Grown.modify (h : Grown s ks s') (i : ℕ) (g : File → File) :
    Grown s (ks++[i]) (s'.modify i g) := by
  refine ⟨?_,h.count,h.firstTime⟩
  intro k hk
  rw [Fs.modify_keys, Set.mem_insert_iff, h.keys k hk, List.mem_append, List.mem_singleton,
    or_comm, or_assoc]

theorem Grown.modify_mem (h : Grown s ks s') {i : ℕ} (hi : i ∈ ks) (g : File → File) :
    Grown s ks (s'.modify i g) := by
  refine ⟨?_,h.count,h.firstTime⟩
  intro k hk
  rw [(h.modify i g).keys k hk, List.mem_append, List.mem_singleton]
  constructor
  · intro hm
    rcases hm with hm | hm | rfl
    · exact Or.inl hm
    · exact Or.inr hm
    · exact Or.inr hi
  · exact Or.imp_right Or.inl

@[simp] theorem touches_file (ks : List ℕ) (s : Fs) : (ks.foldl Fs.touch s).file = s.file := by
  induction ks generalizing s with
  | nil => rfl
  | cons i ks ih => rw [List.foldl_cons, ih, Fs.touch_file]

structure Looked (s : Fs) (ks : List ℕ) (s' : Fs) : Prop extends Grown s ks s' where
  file : s'.file = s.file

theorem looked_touches (ks : List ℕ) (s : Fs) : Looked s ks (ks.foldl Fs.touch s) where
  toGrown := grown_touches ks s
  file := touches_file ks s

theorem Looked.did (h : Looked s ks s') (stopped : ¬ Proceeds s.file c)
    (unspent : ¬ Takes s.file c) (ht : ∀ k, k ≠ 0 → (k ∈ touches s.file c ↔ k ∈ ks)) :
    Did s c r s' := by
  refine ⟨?_,h.firstTime⟩
  rw [h.file, h.count]
  apply Effect.idle stopped unspent
  intro k hk
  rw [h.keys k hk, ← ht k hk]
  rfl

theorem Grown.did {w : View} (h : Grown s ks s')
    (ht : ∀ k, k ≠ 0 → (k ∈ touches s.file c ↔ k ∈ ks)) (hv : s'.file = w)
    (he : ∀ K', SameKeys (touched s.file s.keys c) K' →
      Effect s.file s.keys s.count c r w K' s.count) : Did s c r s' := by
  refine ⟨?_,h.firstTime⟩
  rw [hv, h.count]
  apply he
  intro k hk
  rw [h.keys k hk, ← ht k hk]
  rfl

theorem Grown.did_drop {u : Fs} {fh : ℕ} {w : View} (h : Grown s ks u)
    (ht : ∀ k, k ≠ 0 → (k ∈ touches s.file c ↔ k ∈ ks))
    (hs' : s' = if LastLink s.file fh then u.erase fh else u) (hv : s'.file = w)
    (he : ∀ K', SameKeys (dropKey s.file fh (touched s.file s.keys c)) K' →
      Effect s.file s.keys s.count c r w K' s.count) : Did s c r s' := by
  have hrest : s'.count = s.count ∧ s'.firstTime = s.firstTime := by
    rw [hs']
    split_ifs
    · exact ⟨h.count,h.firstTime⟩
    · exact ⟨h.count,h.firstTime⟩
  refine ⟨?_,hrest.2⟩
  rw [hv, hrest.1]
  apply he
  intro k hk
  have htouched : k ∈ touched s.file s.keys c ↔ k ∈ u.keys := by
    rw [h.keys k hk, ← ht k hk]
    rfl
  rw [mem_dropKey, htouched, hs']
  split_ifs with hl
  · simp [hl]
  · simp [hl]

theorem erased {p q : Prop} [Decidable p] [Decidable q] {t u : Fs} (hpq : p ↔ q)
    (h : (if p then (ok,t) else (ok,u)) = (r,s')) : r = ok ∧ s' = if q then t else u := by
  by_cases hp : p
  · rw [if_pos hp] at h
    cases h
    exact ⟨rfl,(if_pos (hpq.mp hp)).symm⟩
  · rw [if_neg hp] at h
    cases h
    exact ⟨rfl,(if_neg (fun hq => hp (hpq.mpr hq))).symm⟩

theorem installDots_file (mode : Mode) (n P : ℕ) (s : Fs) :
    (installDots mode n P s).file = put s.file n
      (fun f => { f with dentries := f.dentries++
        (if S_ISDIR mode then [⟨dot,n⟩,⟨dotdot,P⟩] else []) }) := by
  unfold installDots
  split_ifs with h
  · funext k
    by_cases hk : k = n
    · subst hk
      simp [File.push]
    · simp [put_of_ne, hk]
  · funext k
    by_cases hk : k = n
    · subst hk
      simp
    · simp [put_of_ne, hk]

theorem installDots_rest (mode : Mode) (n P : ℕ) (s : Fs) :
    (installDots mode n P s).count = s.count ∧
      (installDots mode n P s).firstTime = s.firstTime ∧
      (n ∈ s.keys → (installDots mode n P s).keys = s.keys) := by
  unfold installDots
  split_ifs
  · exact ⟨rfl,rfl,fun hn => by simp [hn]⟩
  · exact ⟨rfl,rfl,fun _ => rfl⟩

/-- The outcomes of `my_mknod`: the number is spent either way. -/
theorem myMknod_effect (hs : Settled s) {path : Str} {mode : Mode} {dev : ℕ}
    (h : myMknod env path mode dev s = (r,s')) :
    s'.count = s.count+1 ∧ s'.firstTime = false ∧
      SameKeys (insert s.count {k | k ∈ s.keys ∨ k ∈ mknodTouches s.file path}) s'.keys ∧
      ∃ f, NewFile s.count (typeBits mode) f ∧
      (f.metadata = newStat env s.count mode ∧ f.data = (s.file s.count).data) ∧
      (r = anErr ∧ ¬ (resolve s.file (parentPath path) ≠ 0 ∧ resolve s.file path = 0) ∧
          f.dentries = [] ∧ s'.file = Function.update s.file s.count f ∨
        r = ok ∧ (resolve s.file (parentPath path) ≠ 0 ∧ resolve s.file path = 0) ∧
          f.dentries = dotEntries s.count (resolve s.file (parentPath path)) f ∧
          s'.file = enterView s.file s.count (resolve s.file (parentPath path)) (tail path) f) := by
  have hfr := hs.fresh
  have hst : typeBits (newStat env s.count mode).stMode = typeBits mode := typeBits_umask mode env
  have hempty := (hs.spare s.count le_rfl hfr.ne_err).1
  have hres : ∀ p, resolve (put s.file s.count (File.setStat fun _ => newStat env s.count mode)) p =
      resolve s.file p := fun p => hfr.resolve_update _ p
  have hreal : ∀ p, real (put s.file s.count (File.setStat fun _ => newStat env s.count mode)) p =
      real s.file p := fun p => hfr.walk_update _ (segments p) 2 hfr.ne_root.symm
  simp only [myMknod, next, findIno_eq, Fs.touch_file, Fs.modify_file, Fs.mk_file, hres, hreal,
    Fs.touch_firstTime, Fs.modify_firstTime, hs.started, Bool.false_eq_true, if_false] at h
  split_ifs at h with hp hf
  · cases h
    refine ⟨rfl,rfl,?_,(s.file s.count).setStat fun _ => newStat env s.count mode,
      ⟨rfl,rfl,hst⟩,⟨rfl,rfl⟩,Or.inl ⟨rfl,fun hgo => hgo.1 hp,hempty,?_⟩⟩
    · intro k hk
      simp [mknodTouches, hp]
      tauto
    · simp [put]
  · cases h
    refine ⟨rfl,rfl,?_,(s.file s.count).setStat fun _ => newStat env s.count mode,
      ⟨rfl,rfl,hst⟩,⟨rfl,rfl⟩,Or.inl ⟨rfl,fun hgo => hf hgo.2,hempty,?_⟩⟩
    · intro k hk
      simp [mknodTouches, hp, hf]
      tauto
    · simp [put]
  · cases h
    have hP := hfr.resolve_ne (parentPath path)
    have hrest := installDots_rest mode s.count (resolve s.file (parentPath path))
    refine ⟨(hrest _).1,(hrest _).2.1,?_,
      { (s.file s.count).setStat (fun _ => newStat env s.count mode) with
        dentries := if S_ISDIR mode then [⟨dot,s.count⟩,⟨dotdot,resolve s.file (parentPath path)⟩]
          else [] },⟨rfl,rfl,hst⟩,⟨rfl,rfl⟩,Or.inr ⟨rfl,⟨hp,by simpa using hf⟩,?_,?_⟩⟩
    · rw [(hrest _).2.2 (by simp)]
      intro k hk
      simp [mknodTouches, hp, hf]
      tauto
    · have hd : S_ISDIR (newStat env s.count mode).stMode = S_ISDIR mode := by
        rw [S_ISDIR_eq, S_ISDIR_eq, hst]
      simp only [dotEntries, File.isDir, File.setStat_metadata, hd]
    · rw [installDots_file]
      funext k
      by_cases hk : k = s.count
      · subst hk
        simp [enterView, put_of_ne _ _ hP.symm, hempty, File.setStat]
      · rw [put_of_ne _ _ hk]
        by_cases hkP : k = resolve s.file (parentPath path)
        · subst hkP
          simp [enterView, put_of_ne _ _ hk, hk]
        · simp [enterView, put_of_ne _ _ hk, put_of_ne _ _ hkP, hk]

theorem myMknod_did (hs : Settled s) {c : Call} {path : Str} {mode : Mode} {dev : ℕ}
    (hc : c.created = some path) (htakes : Takes s.file c) (hm : ∀ r, c.makes r = typeBits mode)
    (hg : Proceeds s.file c ↔ resolve s.file (parentPath path) ≠ 0 ∧ resolve s.file path = 0)
    (ht : touches s.file c = mknodTouches s.file path)
    (h : myMknod env path mode dev s = (r,s')) : Did s c r s' := by
  obtain ⟨hn,hf,hk,f,hnew,-,⟨rfl,hno,he,hv⟩ | ⟨rfl,hgo,hd,hv⟩⟩ := myMknod_effect hs h
  · refine ⟨?_,hf.trans hs.started.symm⟩
    rw [hv, hn]
    exact Effect.leaked f (by simp [hc]) htakes (fun hp => hno (hg.mp hp)) (hm anErr ▸ hnew) he
      (by rw [touched, ht]; exact hk)
  · refine ⟨?_,hf.trans hs.started.symm⟩
    rw [hv, hn]
    exact Effect.entered path f hc htakes (hg.mpr hgo) (hm ok ▸ hnew) hd
      (by rw [touched, ht]; exact hk)

theorem myCreat_did (hs : Settled s) {path : Str} {mode : Mode}
    (h : myCreat env path mode s = (r,s')) : Did s (.creat path mode) r s' := by
  unfold myCreat at h
  split_ifs at h with hd
  · cases h
    exact (looked_touches [] s).did (fun hp => hp.1 hd) (fun ht => ht hd) (by simp [touches, hd])
  · exact myMknod_did hs rfl hd (fun _ => rfl) (by simp [Proceeds, hd]) (by simp [touches, hd]) h

theorem myLink_did {path newpath : Str} (h : myLink path newpath s = (r,s')) :
    Did s (.link path newpath) r s' := by
  simp only [myLink, findIno_eq, Fs.touch_file] at h
  split_ifs at h with h0 hr hP hq
  · cases h
    exact (looked_touches [real s.file path] s).did (fun hgo => hgo.1 h0) id
      (by simp [touches, h0])
  · cases h
    exact (looked_touches [real s.file path,resolve s.file path] s).did
      (fun hgo => by simp [hgo.2.1] at hr) id (by simp [touches, h0, hr])
  · cases h
    exact (looked_touches [real s.file path,resolve s.file path,
      real s.file (parentPath newpath)] s).did (fun hgo => hgo.2.2.1 hP) id
      (by simp [touches, h0, hr, hP])
  · cases h
    exact (looked_touches [real s.file path,resolve s.file path,
      real s.file (parentPath newpath),real s.file newpath] s).did (fun hgo => hq hgo.2.2.2) id
      (by simp [touches, h0, hr, hP, hq])
  · cases h
    have hgrown := ((grown_touches [real s.file path,resolve s.file path,
      real s.file (parentPath newpath),real s.file newpath] s).modify_mem (i := resolve s.file path)
      (by simp) (File.setStat incNlink)).modify (resolve s.file (parentPath newpath))
      (File.push ⟨tail newpath,resolve s.file path⟩)
    have hgo : Proceeds s.file (.link path newpath) :=
      ⟨h0,by simpa using hr,hP,by simpa using hq⟩
    apply hgrown.did (by simp [touches, h0, hr, hP, hq]) ?_
      (fun K' => Effect.linked path newpath hgo)
    simp [linkView]

theorem myUnlink_did {path : Str} (h : myUnlink path s = (r,s')) :
    Did s (.unlink path) r s' := by
  simp only [myUnlink, findIno_eq, Fs.touch_file] at h
  by_cases h0 : resolve s.file path = 0
  · rw [if_pos h0] at h
    cases h
    exact (looked_touches [real s.file path,resolve s.file path] s).did (fun hgo => hgo.1 h0) id
      (by simp [touches, h0])
  by_cases hd : IsDots (tail path)
  · rw [if_neg h0, if_pos hd] at h
    cases h
    exact (looked_touches [real s.file path,resolve s.file path] s).did (fun hgo => hgo.2 hd) id
      (by simp [touches, hd])
  · rw [if_neg h0, if_neg hd] at h
    have hlast := lastLink_dropNamed s.file (resolve s.file (parentPath path)) (tail path)
      (resolve s.file path)
    obtain ⟨rfl,hs'⟩ := erased (q := LastLink s.file (resolve s.file path))
      (by rw [← hlast]; simp [LastLink, decNlink]) h
    have hgrown := ((grown_touches [real s.file path,resolve s.file path,
      real s.file (parentPath path)] s).modify (resolve s.file (parentPath path))
      (File.dropNamed (tail path))).modify_mem (i := resolve s.file path) (by simp)
      (File.setStat decNlink)
    apply hgrown.did_drop (by simp [touches, h0, hd]) hs' ?_
      (fun K' => Effect.unlinked path ⟨h0,hd⟩)
    rw [hs', unlinkView, dropLink]
    simp only [hlast]
    split_ifs
    · simp [put]
    · simp

theorem myRmdir_did {path : Str} (h : myRmdir path s = (r,s')) :
    Did s (.rmdir path) r s' := by
  simp only [myRmdir, findIno_eq, Fs.touch_file, resolve_cons_slash, real_cons_slash] at h
  by_cases hd : (s.file (resolve s.file path)).isDir = false
  · rw [if_pos hd] at h
    cases h
    exact (looked_touches [real s.file path,resolve s.file path] s).did
      (fun hgo => by simp [hgo.1] at hd) id (by simp [touches, hd])
  by_cases hn : (s.file (resolve s.file path)).dentries.length > 2
  · rw [if_neg hd, if_pos hn] at h
    cases h
    exact (looked_touches [real s.file path,resolve s.file path] s).did
      (fun hgo => absurd hgo.2 (by omega)) id (by simp [touches, hn])
  · rw [if_neg hd, if_neg hn] at h
    obtain ⟨rfl,hs'⟩ := erased (q := LastLink s.file (resolve s.file path)) Iff.rfl h
    have hgrown := (grown_touches [real s.file path,resolve s.file path,
      real s.file (parentPath path)] s).modify (resolve s.file (parentPath path))
      (File.dropIno (resolve s.file path))
    apply hgrown.did_drop (by simp [touches, hd, hn]) hs' ?_
      (fun K' => Effect.removed path ⟨by simpa using hd,by omega⟩)
    rw [hs', rmdirView]
    split_ifs
    · simp
    · simp

theorem myRename_did {path newpath : Str} (h : myRename path newpath s = (r,s')) :
    Did s (.rename path newpath) r s' := by
  simp only [myRename, findIno_eq, Fs.touch_file, lookup_eq] at h
  by_cases hd : IsDots (tail path)
  · rw [if_pos hd] at h
    cases h
    exact (looked_touches [real s.file path,real s.file (parentPath path)] s).did
      (fun hgo => hgo hd) id (by simp [touches, hd])
  rw [if_neg hd] at h
  have hgrown := grown_touches [real s.file path,real s.file (parentPath path),
    real s.file (parentPath newpath),resolve s.file (parentPath newpath)] s
  have ht : ∀ k, k ≠ 0 → (k ∈ touches s.file (.rename path newpath) ↔
      k ∈ [real s.file path,real s.file (parentPath path),real s.file (parentPath newpath),
        resolve s.file (parentPath newpath)]++[resolve s.file (parentPath path)]) := by
    simp [touches, hd]
  by_cases hn : nameIn s.file (tail newpath) (resolve s.file (parentPath newpath)) ≠ 0
  · rw [if_pos hn] at h
    cases h
    apply (((hgrown.modify_mem (by simp) _).modify _ _).modify_mem (by simp) _).did ht ?_
      (fun K' => Effect.renamed path newpath hd)
    rw [renameView, clearView, if_pos hn]
    simp
  · rw [if_neg hn] at h
    cases h
    apply ((hgrown.modify _ _).modify_mem (by simp) _).did ht ?_
      (fun K' => Effect.renamed path newpath hd)
    rw [renameView, clearView, if_neg hn]
    simp

theorem myChmod_did {path : Str} {mode : Mode} (h : myChmod path mode s = (r,s')) :
    Did s (.chmod path mode) r s' := by
  simp only [myChmod, findIno_eq, Fs.touch_file] at h
  by_cases h0 : resolve s.file path = 0
  · rw [if_pos h0] at h
    cases h
    exact (looked_touches [real s.file path,resolve s.file path] s).did id id (by simp [touches])
  · rw [if_neg h0] at h
    cases h
    apply ((grown_touches [real s.file path,resolve s.file path] s).modify_mem (by simp) _).did
      (by simp [touches]) ?_ (fun K' => Effect.retyped path mode h0)
    rw [Fs.modify_file, touches_file]
    simp only [put, chmodStat]

theorem myChown_did {path : Str} {uid gid : ℕ} (h : myChown path uid gid s = (r,s')) :
    Did s (.chown path uid gid) r s' := by
  simp only [myChown, findIno_eq] at h
  split_ifs at h with h0
  · cases h
    exact (looked_touches [real s.file path] s).did id id
      (fun k hk => by simp [touches, h0, hk])
  · cases h
    apply ((grown_touches [real s.file path] s).modify (resolve s.file path) _).did
      (by simp [touches]) (by rw [Fs.modify_file, touches_file])
      (fun K' => Effect.patched _ _ ?_ rfl h0)
    exact ⟨fun _ => rfl,fun _ => rfl,fun _ => rfl,fun _ => rfl⟩

theorem myUtime_did {path : Str} {ubuf : Option (ℤ × ℤ)} (h : myUtime path ubuf s = (r,s')) :
    Did s (.utime path ubuf) r s' := by
  cases ubuf with
  | none =>
    cases h
    exact (looked_touches [] s).did id id (by simp [touches])
  | some times =>
    simp only [myUtime, findIno_eq] at h
    split_ifs at h with h0
    · cases h
      exact (looked_touches [real s.file path] s).did id id
        (fun k hk => by simp [touches, h0, hk])
    · cases h
      apply ((grown_touches [real s.file path] s).modify (resolve s.file path) _).did
        (by simp [touches]) (by rw [Fs.modify_file, touches_file])
        (fun K' => Effect.patched _ _ ?_ rfl h0)
      exact ⟨fun _ => rfl,fun _ => rfl,fun _ => rfl,fun _ => rfl⟩

/-- The branch that creates a file is never taken. -/
theorem myOpen_eq (env : Env) (path : Str) (flags : ℕ) (s : Fs) :
    myOpen env path flags s = (toInt32 (resolve s.file path),
      (s.touch (real s.file path)).modify (resolve s.file path) (File.setStat incNlink)) := by
  simp only [myOpen, findIno_eq, ge_iff_le, Nat.zero_le, if_true]

theorem myOpen_did {path : Str} {flags : ℕ} (h : myOpen env path flags s = (r,s')) :
    Did s (.openFile path flags) r s' := by
  rw [myOpen_eq] at h
  obtain ⟨-,hs'⟩ := Prod.mk.inj h
  subst hs'
  have hgrown := (grown_touches [real s.file path] s).modify (resolve s.file path)
    (File.setStat incNlink)
  exact hgrown.did (by simp [touches]) (by rw [Fs.modify_file, touches_file])
    (fun K' => Effect.opened path flags)

theorem myClose_some {fh : ℕ} (h0 : fh ≠ 0) (h : myClose fh s = (r,s')) :
    r = ok ∧ s' = if LastLink s.file fh then (s.modify fh (File.setStat decNlink)).erase fh
      else s.modify fh (File.setStat decNlink) := by
  rw [myClose, if_neg h0] at h
  exact erased (by simp [LastLink, decNlink]) h

theorem myClose_did {fh : ℕ} (h : myClose fh s = (r,s')) : Did s (.close fh) r s' := by
  by_cases h0 : fh = 0
  · rw [myClose, if_pos h0] at h
    cases h
    exact (looked_touches [] s).did id id (fun k hk => by simp [touches, h0, hk])
  · obtain ⟨rfl,hs'⟩ := myClose_some h0 h
    apply ((grown_touches [] s).modify fh (File.setStat decNlink)).did_drop (by simp [touches]) hs'
      ?_ (fun K' => Effect.closed fh h0)
    rw [hs', dropLink]
    split_ifs
    · simp [put]
    · simp

theorem myPwrite_some {fh : ℕ} {buf : Str} {size : ℕ} {offset : ℤ}
    (h : myPwrite fh buf size offset s = some (r,s')) :
    (fh = 0 ∨ (s.file fh).isReg = false) ∧ r = anErr ∧ s' = s.touch fh ∨
      fh ≠ 0 ∧ (s.file fh).isReg = true ∧ r = toInt32 (cstr buf).length ∧
        ∃ data, overwrite (s.file fh).data (cstr buf) size offset = some data ∧
          s' = (s.touch fh).modify fh (stored data (cstr buf)) := by
  simp only [myPwrite, Fs.touch_file] at h
  split_ifs at h with h0 hr
  · cases h
    exact Or.inl ⟨Or.inl h0,rfl,rfl⟩
  · cases h
    exact Or.inl ⟨Or.inr hr,rfl,rfl⟩
  · cases ho : overwrite (s.file fh).data (cstr buf) size offset with
    | none => simp [ho] at h
    | some data =>
      simp only [ho, Option.some.injEq, Prod.mk.injEq] at h
      obtain ⟨hret,hs'⟩ := h
      exact Or.inr ⟨h0,by simpa using hr,hret.symm,data,rfl,hs'.symm⟩

theorem myPwrite_did {fh : ℕ} {buf : Str} {size : ℕ} {offset : ℤ}
    (h : myPwrite fh buf size offset s = some (r,s')) :
    Did s (.pwrite fh buf size offset) r s' := by
  rcases myPwrite_some h with ⟨-,rfl,rfl⟩ | ⟨h0,hr,hret,data,-,rfl⟩
  · exact (looked_touches [fh] s).did id id (by simp [touches])
  · have hgrown := (grown_touches [fh] s).modify_mem (List.mem_singleton_self fh)
      (stored data (cstr buf))
    rw [hret]
    exact hgrown.did (by simp [touches]) (by rw [Fs.modify_file, touches_file])
      (fun K' => Effect.written fh buf size offset data h0 hr)

def cutTo (n : ℕ) (f : File) : File :=
  { f with
    data := resize n f.data
    metadata := { f.metadata with stSize := (resize n f.data).length } }

theorem keeps_cutTo (n : ℕ) : Keeps (cutTo n) :=
  ⟨fun _ => rfl,fun _ => rfl,fun _ => rfl,fun _ => rfl⟩

theorem myFtruncate_some {fh : ℕ} {offset : ℤ} (h : myFtruncate fh offset s = (r,s')) :
    (fh = 0 ∨ offset < 0 ∨ (s.file fh).isDir = true) ∧ r = anErr ∧
        s' = (if fh = 0 ∨ offset < 0 then s else s.touch fh) ∨
      fh ≠ 0 ∧ 0 ≤ offset ∧ (s.file fh).isDir = false ∧ r = ok ∧
        s' = (s.touch fh).modify fh (cutTo offset.toNat) := by
  simp only [myFtruncate, Fs.touch_file] at h
  split_ifs at h with h0 ho hd
  · cases h
    exact Or.inl ⟨Or.inl h0,rfl,by simp [h0]⟩
  · cases h
    exact Or.inl ⟨Or.inr (Or.inl ho),rfl,by simp [ho]⟩
  · cases h
    exact Or.inl ⟨Or.inr (Or.inr hd),rfl,by simp [h0, ho]⟩
  · cases h
    refine Or.inr ⟨h0,not_lt.mp ho,by simpa using hd,rfl,?_⟩
    have hread : InsertingMap.read (s.touch fh).entry fh = s.file fh :=
      congrFun (s.touch_file fh) fh
    simp only [Fs.modify, InsertingMap.modify, hread, cutTo]

theorem myFtruncate_did {fh : ℕ} {offset : ℤ} (h : myFtruncate fh offset s = (r,s')) :
    Did s (.ftruncate fh offset) r s' := by
  rcases myFtruncate_some h with ⟨-,rfl,rfl⟩ | ⟨h0,ho,-,rfl,rfl⟩
  · split_ifs with hz
    · apply (looked_touches [] s).did id id
      intro k hk
      rcases hz with h0 | ho
      · simp [touches, h0, hk]
      · simp [touches, ho]
    · have ho : ¬ offset < 0 := fun ho => hz (Or.inr ho)
      exact (looked_touches [fh] s).did id id (by simp [touches, ho])
  · apply ((grown_touches [fh] s).modify_mem (by simp) _).did (by simp [touches, not_lt.mpr ho])
      (by rw [Fs.modify_file, touches_file]) (fun K' => Effect.patched _ _ (keeps_cutTo _) rfl h0)

theorem myTruncate_some {path : Str} {newsize : ℤ} (h : myTruncate path newsize s = (r,s')) :
    (newsize < 0 ∨ resolve s.file path = 0 ∨ (s.file (resolve s.file path)).isDir = true) ∧
        r = anErr ∧ s'.file = s.file ∨
      0 ≤ newsize ∧ resolve s.file path ≠ 0 ∧ (s.file (resolve s.file path)).isDir = false ∧
        r = ok ∧ s'.file = put s.file (resolve s.file path) (cutTo newsize.toNat) := by
  simp only [myTruncate, findIno_eq, Fs.touch_file] at h
  split_ifs at h with ho h0 hd
  · cases h
    exact Or.inl ⟨Or.inl ho,rfl,rfl⟩
  · cases h
    exact Or.inl ⟨Or.inr (Or.inl h0),rfl,by simp⟩
  · cases h
    exact Or.inl ⟨Or.inr (Or.inr hd),rfl,by simp⟩
  · rcases myFtruncate_some h with ⟨hbad,-,-⟩ | ⟨-,-,-,rfl,rfl⟩
    · simp [h0, ho, hd] at hbad
    · exact Or.inr ⟨not_lt.mp ho,h0,by simpa using hd,rfl,by simp⟩

theorem myTruncate_did {path : Str} {newsize : ℤ} (h : myTruncate path newsize s = (r,s')) :
    Did s (.truncate path newsize) r s' := by
  simp only [myTruncate, findIno_eq, Fs.touch_file] at h
  split_ifs at h with ho h0 hd
  · cases h
    exact (looked_touches [] s).did id id (by simp [touches, ho])
  · cases h
    exact (looked_touches [real s.file path] s).did id id
      (fun k hk => by simp [touches, ho, h0, hk])
  · cases h
    exact (looked_touches [real s.file path,resolve s.file path] s).did id id
      (by simp [touches, ho])
  · rcases myFtruncate_some h with ⟨hbad,-,-⟩ | ⟨-,-,-,rfl,rfl⟩
    · simp [h0, ho, hd] at hbad
    · apply ((grown_touches [real s.file path,resolve s.file path,resolve s.file path] s).modify_mem
        (by simp) _).did (by simp [touches, ho]) (by rw [Fs.modify_file, touches_file])
        (fun K' => Effect.patched _ _ (keeps_cutTo _) rfl h0)

theorem myLsetxattr_did {fpath name value : Str} (h : myLsetxattr fpath name value s = (r,s')) :
    Did s (.lsetxattr fpath name value) r s' := by
  simp only [myLsetxattr, findRealIno_eq, Fs.touch_file] at h
  split_ifs at h with h0 hm
  · cases h
    exact (looked_touches [] s).did id id (fun k hk => by simp [touches, h0, hk])
  · cases h
    exact (looked_touches [real s.file fpath] s).did id id (by simp [touches])
  · cases h
    apply ((grown_touches [real s.file fpath] s).modify_mem (by simp) _).did (by simp [touches])
      (by rw [Fs.modify_file, touches_file]) (fun K' => Effect.patched _ _ ?_ rfl h0)
    exact ⟨fun _ => rfl,fun _ => rfl,fun _ => rfl,fun _ => rfl⟩

theorem myLremovexattr_did {path name : Str} (h : myLremovexattr path name s = (r,s')) :
    Did s (.lremovexattr path name) r s' := by
  simp only [myLremovexattr, findIno_eq, Fs.touch_file] at h
  split_ifs at h with h0 hm
  · cases h
    exact (looked_touches [real s.file path] s).did id id
      (fun k hk => by simp [touches, h0, hk])
  · cases h
    apply ((grown_touches [real s.file path,resolve s.file path] s).modify_mem (by simp) _).did
      (by simp [touches]) (by rw [Fs.modify_file, touches_file])
      (fun K' => Effect.patched _ _ ?_ rfl h0)
    exact ⟨fun _ => rfl,fun _ => rfl,fun _ => rfl,fun _ => rfl⟩
  · cases h
    exact (looked_touches [real s.file path,resolve s.file path] s).did id id (by simp [touches])

theorem myPread_looked (fh size : ℕ) (offset : ℤ) :
    Looked s [fh] (myPread fh size offset s).2 := by
  simp only [myPread]
  split_ifs <;> exact looked_touches [fh] s

theorem readResult_looked {x : ReadOut × Fs} (hx : Looked s ks x.2)
    (h : readResult x = some (r,s')) : Looked s ks s' := by
  obtain ⟨out,t⟩ := x
  cases out with
  | failed =>
    cases h
    exact hx
  | threw => simp [readResult] at h
  | stored ret buf =>
    cases h
    exact hx

theorem looked_real {fh : ℕ} (h : s' = if fh = 0 then s else s.touch fh) : Looked s [fh] s' := by
  subst h
  split_ifs with h0
  · refine ⟨⟨?_,rfl,rfl⟩,rfl⟩
    intro k hk
    simp [h0, hk]
  · exact looked_touches [fh] s

theorem myReadlink_looked (path : Str) (size : ℕ) :
    Looked s [real s.file path] (myReadlink path size s).2 := by
  apply looked_real
  simp only [myReadlink, findRealIno_eq]
  split_ifs with h0 hl
  · rfl
  · rfl
  · have hp : (myPread (real s.file path) size 0 (s.touch (real s.file path))).2 =
        s.touch (real s.file path) := by
      have ht : (s.touch (real s.file path)).touch (real s.file path) =
          s.touch (real s.file path) :=
        Fs.touch_of_mem (InsertingMap.mem_touch.mpr (Or.inl rfl))
      simp only [myPread, ht]
      split_ifs <;> rfl
    generalize myPread (real s.file path) size 0 (s.touch (real s.file path)) = x at hp
    obtain ⟨out,t⟩ := x
    cases out with
    | failed => exact hp
    | threw => exact hp
    | stored ret buf =>
      simp only
      split_ifs
      · exact hp
      · exact hp

theorem myStatvfs_looked (fpath : Str) (statv : Bool) :
    Looked s [real s.file fpath] (myStatvfs fpath statv s).2 := by
  simp only [myStatvfs, findIno_eq]
  split_ifs <;> exact looked_touches _ s

theorem myAccess_looked (fpath : Str) (mask : Mode) :
    Looked s [real s.file fpath] (myAccess fpath mask s).2 := by
  simp only [myAccess, findIno_eq]
  generalize myFstat (resolve s.file fpath) (s.touch (real s.file fpath)) = x
  obtain ⟨r,st⟩ := x
  cases st with
  | none => exact looked_touches [real s.file fpath] s
  | some st =>
    simp only
    split_ifs <;> exact looked_touches [real s.file fpath] s

theorem myLgetxattr_looked (fpath name value : Str) :
    Looked s [real s.file fpath] (myLgetxattr fpath name value s).2 := by
  apply looked_real
  simp only [myLgetxattr, findRealIno_eq]
  split_ifs with h0
  · rfl
  · cases ((s.touch (real s.file fpath)).file (real s.file fpath)).xattr.lookup name with
    | none => rfl
    | some x => rfl

theorem myLlistxattr_looked (path : Str) (size : ℕ) :
    Looked s [real s.file path] (myLlistxattr path size s).2 := by
  apply looked_real
  simp only [myLlistxattr, findRealIno_eq]
  split_ifs with h0
  · rfl
  · rfl

theorem myOpendir_looked (path : Str) :
    Looked s [real s.file path,resolve s.file path] (myOpendir path s).2 := by
  have hs : (myOpendir path s).2 = (s.touch (real s.file path)).touch (resolve s.file path) := by
    simp only [myOpendir, findIno_eq, fopendir]
    split_ifs <;> rfl
  rw [hs]
  exact looked_touches [real s.file path,resolve s.file path] s

theorem myLstat_state (path : Str) : (myLstat path s).2 = s := by
  simp only [myLstat, findRealIno_eq]
  split_ifs <;> rfl

theorem settled_touch (hs : Settled s) (k : ℕ) : Settled (s.touch k) where
  toNumbers := by
    rw [Fs.touch_file, Fs.touch_count]
    exact hs.toNumbers
  started := hs.started
  low := hs.low
  high := hs.high

theorem enterView_put {v : View} {n P : ℕ} (hP : P ≠ n) (name : Str) (f : File)
    (g : File → File) : put (enterView v n P name f) n g = enterView v n P name (g f) := by
  funext k
  by_cases hk : k = n
  · subst hk
    simp [enterView, put_of_ne _ _ hP.symm]
  · rw [put_of_ne _ _ hk]
    by_cases hkP : k = P
    · subst hkP
      simp [enterView, hk]
    · simp [enterView, put_of_ne _ _ hkP, hk]

def linkFile (data str : Str) (f : File) : File :=
  (stored data str f).setStat (fun m => { m with stMode := m.stMode ||| S_IFLNK })

theorem linkFile_type {f : File} (h : typeBits f.metadata.stMode = S_IFREG) (data str : Str) :
    typeBits (linkFile data str f).metadata.stMode = S_IFLNK := by
  change typeBits (f.metadata.stMode ||| S_IFLNK) = S_IFLNK
  rw [typeBits_or, h]
  decide

/-- The part of `my_symlink` after the file has been created: the handle found
for the link name is 0 or a regular file. -/
theorem mySymlink_rest {path link : Str}
    (hF : resolve s.file link = 0 ∨ (s.file (resolve s.file link)).isReg = true)
    (h : (match myPwrite (resolve s.file link) path path.length 0 (s.touch (real s.file link)) with
      | none => none
      | some (_, u) =>
        let u := u.touch (resolve s.file link)
        match myChmod link ((u.file (resolve s.file link)).metadata.stMode ||| S_IFLNK) u with
        | (err, u) => if err = -1 then some (anErr, u) else some (ok, u)) = some (r,s')) :
    Grown s [real s.file link,resolve s.file link] s' ∧
      (resolve s.file link = 0 ∧ r = anErr ∧ s'.file = s.file ∨
        resolve s.file link ≠ 0 ∧ r = ok ∧
          ∃ data, overwrite (s.file (resolve s.file link)).data (cstr path) path.length 0 =
              some data ∧
            s'.file = put s.file (resolve s.file link) (linkFile data (cstr path))) := by
  cases hp : myPwrite (resolve s.file link) path path.length 0 (s.touch (real s.file link)) with
  | none => simp [hp] at h
  | some x =>
    obtain ⟨ret,u⟩ := x
    simp only [hp] at h
    rcases myPwrite_some hp with ⟨hbad,-,hu⟩ | ⟨hne,hreg,-,data,how,hu⟩
    · have hz : resolve s.file link = 0 := by
        rcases hF with hF | hF
        · exact hF
        · rcases hbad with hbad | hbad
          · exact hbad
          · simp [hF] at hbad
      subst hu
      simp only [myChmod, findIno_eq, Fs.touch_file, hz, if_true] at h
      cases h
      refine ⟨⟨?_,rfl,rfl⟩,Or.inl ⟨hz,rfl,by simp⟩⟩
      intro k hk
      simp [hz, hk, or_comm]
    · rw [Fs.touch_file] at hreg how
      have hul : u.file = put s.file (resolve s.file link) (stored data (cstr path)) := by
        rw [hu, Fs.modify_file, Fs.touch_file, Fs.touch_file]
      have hk := (keeps_stored data (cstr path)).put s.file (resolve s.file link)
      rw [← hul] at hk
      have hsame : resolve u.file link = resolve s.file link := by
        refine resolve_congr (fun k => ⟨(hk k).isDir,(hk k).dentries⟩)
          (fun k => ⟨(hk k).isLnk,?_⟩) link
        intro hl
        have hkF : k ≠ resolve s.file link := by
          rintro rfl
          simp [(type_exclusive (s.file (resolve s.file link))).2 hreg] at hl
        rw [hul, put_of_ne _ _ hkF]
      have hsreal : real u.file link = real s.file link :=
        real_congr (fun k => ⟨(hk k).isDir,(hk k).dentries⟩) link
      have hdir : (u.file (resolve s.file link)).isDir = false := by
        rw [(hk _).isDir]
        exact isDir_of_isReg hreg
      have hmode := (hk (resolve s.file link)).stMode
      simp only [myChmod, findIno_eq, Fs.touch_file, hsame, hsreal, hne, if_false, hdir,
        Bool.false_eq_true, hmode] at h
      obtain ⟨rfl,hs'⟩ := Prod.mk.inj (Option.some.inj h)
      refine ⟨⟨?_,by rw [← hs', hu]; rfl,by rw [← hs', hu]; rfl⟩,Or.inr ⟨hne,rfl,data,how,?_⟩⟩
      · clear how
        intro k hk
        simp [← hs', hu]
        tauto
      · rw [← hs']
        funext k
        by_cases hkF : k = resolve s.file link
        · subst hkF
          simp [hul, linkFile, stored, File.setStat]
        · simp [hul, put_of_ne _ _ hkF]

theorem mySymlink_cases (hs : Settled s) {path link : Str}
    (h : mySymlink env path link s = some (r,s')) :
    ¬ Takes s.file (.symlink path link) ∧ Looked s (touches s.file (.symlink path link)) s' ∨
      Takes s.file (.symlink path link) ∧ ∃ err t,
        myMknod env link (S_IFREG ||| 666#32) 100 (s.touch (real s.file link)) = (err,t) ∧
        (err = anErr ∧ r = anErr ∧ s' = t ∨ err = ok ∧
          (resolve t.file link = 0 ∨ resolve t.file link = s.count) ∧
          Grown t [real t.file link,resolve t.file link] s' ∧
          (resolve t.file link = 0 ∧ r = anErr ∧ s'.file = t.file ∨
            resolve t.file link = s.count ∧ r = ok ∧
              ∃ data, overwrite (t.file s.count).data (cstr path) path.length 0 = some data ∧
                s'.file = put t.file s.count (linkFile data (cstr path)))) := by
  unfold mySymlink at h
  simp only [findIno_eq] at h
  by_cases hd : IsDots (tail link)
  · rw [if_pos hd] at h
    cases h
    left
    refine ⟨fun ht => ht.1 hd,?_⟩
    rw [touches, if_pos hd]
    exact looked_touches [] s
  rw [if_neg hd] at h
  by_cases hl : resolve s.file link ≠ 0
  · rw [if_pos hl] at h
    cases h
    left
    refine ⟨fun ht => hl ht.2,?_⟩
    rw [touches, if_neg hd, if_pos hl]
    exact looked_touches [real s.file link] s
  rw [if_neg hl] at h
  right
  refine ⟨⟨hd,not_not.mp hl⟩,?_⟩
  rcases hm : myCreat env link 666#32 (s.touch (real s.file link)) with ⟨err,t⟩
  simp only [hm] at h
  rw [myCreat, if_neg hd] at hm
  refine ⟨err,t,hm,?_⟩
  obtain ⟨-,-,-,f,hnew,-,hcase⟩ := myMknod_effect (settled_touch hs _) hm
  rw [Fs.touch_count] at hnew hcase
  rw [Fs.touch_file] at hcase
  rcases hcase with ⟨rfl,-,-,-⟩ | ⟨rfl,hgo,-,hv⟩
  · rw [if_pos (show anErr = -1 from rfl)] at h
    cases h
    exact Or.inl ⟨rfl,rfl,rfl⟩
  · rw [if_neg (show ok ≠ -1 by decide)] at h
    have hfr := hs.fresh
    have hP := hfr.resolve_ne (parentPath link)
    have hu0 := untyped hs.sentinel
    have hreg : f.isReg = true := by
      rw [File.isReg, S_ISREG_eq, hnew.type]
      decide
    have hfd : f.isDir = false := by
      rw [File.isDir, S_ISDIR_eq, hnew.type]
      decide
    have htn : t.file s.count = f := by
      rw [hv, enterView, put_of_ne _ _ hP.symm, Function.update_self]
    -- the link name is found at 0 or at the new file
    have hF : resolve t.file link = 0 ∨ resolve t.file link = s.count := by
      rw [hv]
      exact hfr.resolve_entered hu0.1 hu0.2.2 f hfd ((type_exclusive f).2 hreg) hP _ _ hgo.2
    obtain ⟨hgrown,hout⟩ := mySymlink_rest
      (hF.imp_right (fun hF => by rw [hF, htn, hreg])) h
    refine Or.inr ⟨rfl,hF,hgrown,hout.imp_right ?_⟩
    rintro ⟨hne,hr,hdata⟩
    have hn := hF.resolve_left hne
    rw [hn] at hdata
    exact ⟨hn,hr,hdata⟩

theorem mySymlink_did (hs : Settled s) {path link : Str}
    (h : mySymlink env path link s = some (r,s')) : Did s (.symlink path link) r s' := by
  rcases mySymlink_cases hs h with ⟨hno,hlooked⟩ | ⟨htakes,err,t,hm,hcases⟩
  · exact hlooked.did (fun hgo => hno ⟨hgo.1,hgo.2.2⟩) hno (fun _ _ => Iff.rfl)
  obtain ⟨hd,hl⟩ := htakes
  have hkind : typeBits (S_IFREG ||| 666#32) = S_IFREG := by decide
  obtain ⟨hn,hf,hkeys,f,hnew,-,hcase⟩ := myMknod_effect (settled_touch hs _) hm
  rw [Fs.touch_count] at hn hkeys hnew hcase
  rw [Fs.touch_file] at hkeys hcase
  rw [hkind] at hnew
  have hcreate : Call.created (.symlink path link) = some link := rfl
  have hkeys' : SameKeys (insert s.count (touched s.file s.keys (.symlink path link))) t.keys := by
    intro k hk
    rw [← hkeys k hk]
    clear hcase hcases
    simp [touched, touches, hd, hl]
    tauto
  rcases hcases with ⟨rfl,rfl,rfl⟩ | ⟨rfl,hF,⟨hk,hn',hf'⟩,hout⟩
  · obtain ⟨-,hno,he,hv⟩ := hcase.resolve_right (fun hc => absurd hc.1 (by decide))
    refine ⟨?_,hf.trans hs.started.symm⟩
    rw [hv, hn]
    exact Effect.leaked f (by simp [hcreate]) ⟨hd,hl⟩ (fun hgo => hno hgo.2) hnew he hkeys'
  obtain ⟨-,hgo,hdots,hv⟩ := hcase.resolve_left (fun hc => absurd hc.1 (by decide))
  have hP := hs.fresh.resolve_ne (parentPath link)
  have hfd : f.isDir = false := by
    rw [File.isDir, S_ISDIR_eq, hnew.type]
    decide
  have hR : real t.file link = real s.file link ∨ real t.file link = 0 ∨
      real t.file link = s.count := by
    rw [hv]
    exact (hs.fresh.real_entered (untyped hs.sentinel).1 f hfd hP (tail link) link).imp_right
      And.right
  have hkeys'' : SameKeys (insert s.count (touched s.file s.keys (.symlink path link)))
      s'.keys := by
    intro k hk0
    rw [hk k hk0, ← hkeys' k hk0, List.mem_pair]
    have htouch : real s.file link ∈ touched s.file s.keys (.symlink path link) := by
      simp [touched, touches, hd]
    simp only [Set.mem_insert_iff]
    constructor
    · exact Or.inl
    · rintro (hmem | rfl | rfl)
      · exact hmem
      · rcases hR with hR | hR | hR
        · rw [hR]
          exact Or.inr htouch
        · exact absurd hR hk0
        · exact Or.inl hR
      · rcases hF with hF | hF
        · exact absurd hF hk0
        · exact Or.inl hF
  refine ⟨?_,hf'.trans (hf.trans hs.started.symm)⟩
  rcases hout with ⟨-,rfl,hv'⟩ | ⟨-,rfl,data,-,hv'⟩
  · rw [hv', hv, hn', hn]
    exact Effect.entered link f hcreate ⟨hd,hl⟩ ⟨hd,hgo⟩ hnew hdots hkeys''
  · rw [hv', hv, enterView_put hP, hn', hn]
    refine Effect.entered link _ hcreate ⟨hd,hl⟩ ⟨hd,hgo⟩ ?_ ?_ hkeys''
    · exact ⟨hnew.ino,hnew.nlink,linkFile_type hnew.type data (cstr path)⟩
    · have hld : (linkFile data (cstr path) f).isDir = false := by
        rw [File.isDir, S_ISDIR_eq, linkFile_type hnew.type]
        decide
      change f.dentries = _
      rw [hdots, dotEntries, dotEntries, hfd, hld]

theorem did_of_plain {c : Call} (hc : c.created = none) (h : answer env c s = some (r,s')) :
    Did s c r s' := by
  cases c with
  | mknod path mode dev => simp [Call.created] at hc
  | mkdir path mode => simp [Call.created] at hc
  | creat path mode => simp [Call.created] at hc
  | symlink path link => simp [Call.created] at hc
  | lstat path =>
    cases h
    rw [myLstat_state]
    exact (looked_touches [] s).did id id (by simp [touches])
  | fstat fh =>
    cases h
    exact (looked_touches [] s).did id id (by simp [touches])
  | link path newpath => exact myLink_did (Option.some.inj h)
  | unlink path => exact myUnlink_did (Option.some.inj h)
  | rmdir path => exact myRmdir_did (Option.some.inj h)
  | readlink path size =>
    exact (readResult_looked (myReadlink_looked path size) h).did id id (by simp [touches])
  | rename path newpath => exact myRename_did (Option.some.inj h)
  | access path mask =>
    have hl := @myAccess_looked s path mask
    rw [Option.some.inj h] at hl
    exact hl.did id id (by simp [touches])
  | chmod path mode => exact myChmod_did (Option.some.inj h)
  | chown path uid gid => exact myChown_did (Option.some.inj h)
  | utime path ubuf => exact myUtime_did (Option.some.inj h)
  | openFile path flags => exact myOpen_did (Option.some.inj h)
  | close fh => exact myClose_did (Option.some.inj h)
  | pread fh size offset =>
    exact (readResult_looked (myPread_looked fh size offset) h).did id id (by simp [touches])
  | pwrite fh buf size offset => exact myPwrite_did h
  | statvfs path statv =>
    have hl := @myStatvfs_looked s path statv
    rw [(Prod.mk.inj (Option.some.inj h)).2] at hl
    exact hl.did id id (by simp [touches])
  | fdatasync fh =>
    cases h
    exact (looked_touches [] s).did id id (by simp [touches])
  | fsync fh =>
    cases h
    exact (looked_touches [] s).did id id (by simp [touches])
  | lsetxattr path name value => exact myLsetxattr_did (Option.some.inj h)
  | lgetxattr path name value =>
    have hl := @myLgetxattr_looked s path name value
    rw [(Prod.mk.inj (Option.some.inj h)).2] at hl
    exact hl.did id id (by simp [touches])
  | llistxattr path size =>
    have hl := @myLlistxattr_looked s path size
    rw [(Prod.mk.inj (Option.some.inj h)).2] at hl
    exact hl.did id id (by simp [touches])
  | lremovexattr path name => exact myLremovexattr_did (Option.some.inj h)
  | ftruncate fh offset => exact myFtruncate_did (Option.some.inj h)
  | truncate path newsize => exact myTruncate_did (Option.some.inj h)
  | opendir path =>
    have hl := @myOpendir_looked s path
    rw [(Prod.mk.inj (Option.some.inj h)).2] at hl
    exact hl.did id id (by simp [touches])

/-- Every answer of a settled state is one of the listed effects. -/
theorem did_of_answer (hs : Settled s) {c : Call} (h : answer env c s = some (r,s')) :
    Did s c r s' := by
  by_cases hc : c.created = none
  · exact did_of_plain hc h
  cases c with
  | mknod path mode dev =>
    exact myMknod_did hs rfl trivial (fun _ => rfl) Iff.rfl rfl (Option.some.inj h)
  | mkdir path mode =>
    exact myMknod_did hs rfl trivial (fun _ => rfl) Iff.rfl rfl (Option.some.inj h)
  | creat path mode => exact myCreat_did hs (Option.some.inj h)
  | symlink path link => exact mySymlink_did hs h
  | _ => exact absurd rfl hc

theorem err_ne_ok : anErr ≠ ok := by decide

theorem myLink_ok {path newpath : Str} (h : myLink path newpath s = (ok,s')) :
    Proceeds s.file (.link path newpath) ∧
      s'.file = linkView s.file (resolve s.file (parentPath newpath)) (tail newpath)
        (resolve s.file path) ∧
      SameKeys (touched s.file s.keys (.link path newpath)) s'.keys := by
  have hgo : Proceeds s.file (.link path newpath) := by
    simp only [myLink, findIno_eq, Fs.touch_file] at h
    split_ifs at h with h0 hr hP hq
    · exact absurd (congrArg Prod.fst h) err_ne_ok
    · exact absurd (congrArg Prod.fst h) err_ne_ok
    · exact absurd (congrArg Prod.fst h) err_ne_ok
    · exact absurd (congrArg Prod.fst h) err_ne_ok
    · exact ⟨h0,by simpa using hr,hP,by simpa using hq⟩
  obtain ⟨hkeys,hcase⟩ := (myLink_did h).1.link
  exact ⟨hgo,(hcase.resolve_left (fun hstop => hstop.1 hgo)).2,hkeys⟩

theorem myUnlink_ok_iff {path : Str} :
    (myUnlink path s).1 = ok ↔ Proceeds s.file (.unlink path) := by
  simp only [myUnlink, findIno_eq, Fs.touch_file]
  by_cases h0 : resolve s.file path = 0
  · rw [if_pos h0]
    exact iff_of_false err_ne_ok (fun hgo => hgo.1 h0)
  by_cases hd : IsDots (tail path)
  · rw [if_neg h0, if_pos hd]
    exact iff_of_false err_ne_ok (fun hgo => hgo.2 hd)
  · rw [if_neg h0, if_neg hd]
    refine iff_of_true ?_ ⟨h0,hd⟩
    split_ifs <;> rfl

theorem myUnlink_proceeds {path : Str} (h : Proceeds s.file (.unlink path)) :
    ∃ s', myUnlink path s = (ok,s') :=
  ⟨_,Prod.ext (myUnlink_ok_iff.mpr h) rfl⟩

theorem myUnlink_ok {path : Str} (h : myUnlink path s = (ok,s')) :
    Proceeds s.file (.unlink path) ∧
      s'.file = unlinkView s.file (resolve s.file (parentPath path)) (tail path)
        (resolve s.file path) ∧
      SameKeys (dropKey s.file (resolve s.file path) (touched s.file s.keys (.unlink path)))
        s'.keys := by
  have hgo : Proceeds s.file (.unlink path) := myUnlink_ok_iff.mp (by rw [h])
  exact (myUnlink_did h).1.unlink.resolve_left (fun hstop => hstop.1 hgo)

theorem myRmdir_ok_iff {path : Str} :
    (myRmdir path s).1 = ok ↔ Proceeds s.file (.rmdir path) := by
  simp only [myRmdir, findIno_eq, Fs.touch_file]
  by_cases hd : (s.file (resolve s.file path)).isDir = false
  · rw [if_pos hd]
    exact iff_of_false err_ne_ok (fun hgo => Bool.false_ne_true (hd.symm.trans hgo.1))
  by_cases hn : (s.file (resolve s.file path)).dentries.length > 2
  · rw [if_neg hd, if_pos hn]
    exact iff_of_false err_ne_ok (fun hgo => absurd hgo.2 (by omega))
  · rw [if_neg hd, if_neg hn]
    refine iff_of_true ?_ ⟨by simpa using hd,by omega⟩
    split_ifs <;> rfl

theorem myRmdir_proceeds {path : Str} (h : Proceeds s.file (.rmdir path)) :
    ∃ s', myRmdir path s = (ok,s') :=
  ⟨_,Prod.ext (myRmdir_ok_iff.mpr h) rfl⟩

theorem myRmdir_ok {path : Str} (h : myRmdir path s = (ok,s')) :
    Proceeds s.file (.rmdir path) ∧
      s'.file = rmdirView s.file (resolve s.file (parentPath path)) (resolve s.file path) ∧
      SameKeys (dropKey s.file (resolve s.file path) (touched s.file s.keys (.rmdir path)))
        s'.keys := by
  have hgo : Proceeds s.file (.rmdir path) := myRmdir_ok_iff.mp (by rw [h])
  exact (myRmdir_did h).1.rmdir.resolve_left (fun hstop => hstop.1 hgo)

end Bbfs.Outcomes
