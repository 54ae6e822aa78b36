import Bbfs.FuseTable

/-!
# Open files of the FUSE variant

The open table is keyed by descriptor and points into the inode table.
`my_rmdir` does not look at it: the pointers stay valid as long as no inode is
erased that an open file points to, and no longer.
-/

set_option autoImplicit false

namespace Bbfs.FuseOpen
open Bbfs.Strings Bbfs.Files Bbfs.FuseCalls Bbfs.FuseTable Bbfs.Runs

def nodeAt (t : Table) (k : ℕ) : Option ℕ := (t.lookup k).map MyInode.node

/-- Descriptors are distinct and equal to their keys, and every open file
points to a node of the inode table. -/
structure OpenValid (s : Fuse) : Prop where
  desc : ∀ fd f, s.openFT.lookup fd = some f → f.fDesc = fd
  distinct : ∀ fd fd' f f', s.openFT.lookup fd = some f → s.openFT.lookup fd' = some f' →
    fd ≠ fd' → f.fDesc ≠ f'.fDesc
  held : ∀ fd f, s.openFT.lookup fd = some f → ∃ k, nodeAt s.ilist k = some f.fInode

def OpenOn (k : ℕ) (s : Fuse) : Prop :=
  ∃ fd ∈ s.openFT.keys, (s.openFT.lookup fd).map MyFile.fInode = nodeAt s.ilist k

instance (k : ℕ) (s : Fuse) : Decidable (OpenOn k s) := inferInstanceAs (Decidable (∃ _ ∈ _, _))

/-- No inode that `my_rmdir` goes on to erase has an open file. -/
def Spares : FuseCall → Fuse → Prop
  | .rmdir pathname, s => ∀ k ∈ getInodeNumber pathname s, Removes pathname k s → ¬ OpenOn k s
  | _, _ => True

structure Settled (s : Fuse) : Prop where
  table : WellFormed s.ilist
  made : ∀ k n, nodeAt s.ilist k = some n → n < s.nodes
  apart : ∀ k k' n, nodeAt s.ilist k = some n → nodeAt s.ilist k' = some n → k = k'
  desc : ∀ fd f, s.openFT.lookup fd = some f → f.fDesc = fd

variable {s s' : Fuse} {t : Table} {c : FuseCall} {i : MyInode} {f : MyFile} {k p fd : ℕ}

theorem nodeAt_insert (t : Table) (k : ℕ) (i : MyInode) :
    nodeAt (t.insert k i) = Function.update (nodeAt t) k (some i.node) := by
  funext j
  by_cases hj : j = k
  · subst hj
    simp [nodeAt, Finmap.lookup_insert]
  · simp [nodeAt, Finmap.lookup_insert_of_ne _ hj, hj]

theorem nodeAt_modify (h : t.lookup k = some i) {j : MyInode} (hj : j.node = i.node) :
    nodeAt (t.insert k j) = nodeAt t := by
  have hi : nodeAt t k = some i.node := by rw [nodeAt, h, Option.map_some]
  rw [nodeAt_insert, hj, ← hi]
  exact Function.update_eq_self k (nodeAt t)

theorem nodeAt_erase (t : Table) (k : ℕ) :
    nodeAt (t.erase k) = Function.update (nodeAt t) k none := by
  funext j
  by_cases hj : j = k
  · subst hj
    simp [nodeAt, Finmap.lookup_erase]
  · simp [nodeAt, Finmap.lookup_erase_ne hj, hj]

inductive Shift (s : Fuse) (c : FuseCall) (s' : Fuse) : Prop
  | still (hc : Spares c s) (hn : nodeAt s'.ilist = nodeAt s.ilist) (hm : s'.nodes = s.nodes)
      (ho : s'.openFT = s.openFT)
  | grown (hc : Spares c s)
      (hn : nodeAt s'.ilist = Function.update (nodeAt s.ilist) (maxInode s+1) (some s.nodes))
      (hm : s'.nodes = s.nodes+1) (ho : s'.openFT = s.openFT)
  | shrunk (pathname : Str) (k : ℕ) (hc : c = .rmdir pathname) (hk : Removes pathname k s)
      (hn : nodeAt s'.ilist = Function.update (nodeAt s.ilist) k none) (hm : s'.nodes = s.nodes)
      (ho : s'.openFT = s.openFT)
  | opened (f : MyFile) (hc : Spares c s) (hi : s'.ilist = s.ilist) (hm : s'.nodes = s.nodes)
      (hf : ∃ k, nodeAt s.ilist k = some f.fInode) (hd : f.fDesc = maxFd s+1)
      (ho : s'.openFT = insertNew s.openFT (maxFd s+1) f)
  | closed (fd : ℕ) (hc : Spares c s) (hi : s'.ilist = s.ilist) (hm : s'.nodes = s.nodes)
      (ho : s'.openFT = s.openFT.erase fd)

theorem spares_of_ne (h : ∀ pathname, c ≠ .rmdir pathname) : Spares c s := by
  cases c with
  | rmdir pathname => exact absurd rfl (h pathname)
  | _ => trivial

theorem nodeAt_inodeInit (hw : WellFormed s.ilist) (mode : Mode) :
    nodeAt (inodeInit mode s).2.ilist =
      Function.update (nodeAt s.ilist) (maxInode s+1) (some s.nodes) := by
  rw [inodeInit_ilist hw, nodeAt_insert]

theorem move_shifts (hw : WellFormed s.ilist) (hm : Move s c s') : Shift s c s' := by
  cases hm with
  | idle h =>
    apply Shift.still _ rfl rfl rfl
    cases c with
    | rmdir pathname => exact fun k _ hk => absurd hk (h pathname k rfl)
    | _ => trivial
  | remode h => exact Shift.still trivial (nodeAt_modify h rfl) rfl rfl
  | added => exact Shift.grown trivial (nodeAt_inodeInit hw _) rfl rfl
  | @named _ mode p name _ hc hp h =>
    obtain ⟨i,hi,rfl⟩ := modifyInode_some h
    refine Shift.grown (spares_of_ne hc) ?_ rfl rfl
    rw [← nodeAt_inodeInit hw mode]
    exact nodeAt_modify hi rfl
  | @removed pathname name p k i d hk hp hd hi =>
    refine Shift.shrunk pathname k rfl hk ?_ rfl rfl
    have hdrop : (dropDirent name i).node = i.node := rfl
    rw [nodeAt_erase, nodeAt_modify hp hdrop]
  | @opened _ mode flags k i hc h =>
    have hk : nodeAt s.ilist k = some i.node := by rw [nodeAt, h, Option.map_some]
    exact Shift.opened
      { fDesc := maxFd s+1, fMode := mode, fPos := 0, flags := flags, fInode := i.node }
      (spares_of_ne hc) rfl rfl ⟨k,hk⟩ rfl rfl
  | closed => exact Shift.closed _ trivial rfl rfl rfl

theorem le_maxFd (hd : ∀ fd f, s.openFT.lookup fd = some f → f.fDesc = fd)
    (h : s.openFT.lookup fd = some f) : fd ≤ maxFd s := by
  have hle := Finset.le_sup (f := fun k => (s.openFT.lookup k).elim 0 MyFile.fDesc)
    (Finmap.mem_keys.mpr (Finmap.mem_of_lookup_eq_some h))
  simp only [h, Option.elim_some, hd fd f h] at hle
  exact hle

theorem lookup_opened (hd : ∀ fd f, s.openFT.lookup fd = some f → f.fDesc = fd) {g : MyFile}
    (h : (insertNew s.openFT (maxFd s+1) g).lookup fd = some f) :
    fd = maxFd s+1 ∧ f = g ∨ s.openFT.lookup fd = some f := by
  have hnew : maxFd s+1 ∉ s.openFT := by
    intro hmem
    obtain ⟨e,he⟩ := Finmap.mem_iff.mp hmem
    have hle := le_maxFd hd he
    omega
  rw [insertNew, if_neg hnew] at h
  by_cases hfd : fd = maxFd s+1
  · subst hfd
    rw [Finmap.lookup_insert] at h
    exact Or.inl ⟨rfl,(Option.some.inj h).symm⟩
  · rw [Finmap.lookup_insert_of_ne _ hfd] at h
    exact Or.inr h

theorem lookup_closed {g : ℕ} (h : (s.openFT.erase g).lookup fd = some f) :
    s.openFT.lookup fd = some f := by
  by_cases hfd : fd = g
  · subst hfd
    simp [Finmap.lookup_erase] at h
  · rwa [Finmap.lookup_erase_ne hfd] at h

theorem Settled.narrow (hs : Settled s) (hw : WellFormed s'.ilist) (hmade : s'.nodes = s.nodes)
    (hold : ∀ k n, nodeAt s'.ilist k = some n → nodeAt s.ilist k = some n)
    (hdesc : ∀ fd f, s'.openFT.lookup fd = some f → f.fDesc = fd) : Settled s' where
  table := hw
  made := by
    intro k n hk
    rw [hmade]
    exact hs.made k n (hold k n hk)
  apart := fun k k' n hk hk' => hs.apart k k' n (hold k n hk) (hold k' n hk')
  desc := hdesc

theorem settled_step (hs : Settled s) (hm : Move s c s') : Settled s' := by
  have hw := hm.wellFormed hs.table
  cases move_shifts hs.table hm with
  | still hc hn hmade ho =>
    apply hs.narrow hw hmade
    · rw [hn]
      exact fun _ _ => id
    · rw [ho]
      exact hs.desc
  | grown hc hn hmade ho =>
    have hold : ∀ k n, nodeAt s'.ilist k = some n →
        k = maxInode s+1 ∧ n = s.nodes ∨ nodeAt s.ilist k = some n := by
      intro k n hk
      rw [hn] at hk
      by_cases he : k = maxInode s+1
      · subst he
        rw [Function.update_self] at hk
        exact Or.inl ⟨rfl,(Option.some.inj hk).symm⟩
      · rw [Function.update_of_ne he] at hk
        exact Or.inr hk
    constructor
    · exact hw
    · intro k n hk
      rw [hmade]
      rcases hold k n hk with ⟨-,rfl⟩ | hbefore
      · exact Nat.lt_succ_self _
      · exact Nat.lt_succ_of_lt (hs.made k n hbefore)
    · intro k k' n hk hk'
      rcases hold k n hk with ⟨rfl,hn⟩ | hbefore <;> rcases hold k' n hk' with ⟨rfl,hn'⟩ | hbefore'
      · rfl
      · exact absurd (hs.made k' n hbefore') (by omega)
      · exact absurd (hs.made k n hbefore) (by omega)
      · exact hs.apart k k' n hbefore hbefore'
    · rw [ho]
      exact hs.desc
  | shrunk pathname k hc hk hn hmade ho =>
    apply hs.narrow hw hmade
    · intro j n hj
      rw [hn] at hj
      by_cases he : j = k
      · subst he
        simp at hj
      · rwa [Function.update_of_ne he] at hj
    · rw [ho]
      exact hs.desc
  | opened g hc hi hmade hf hd ho =>
    apply hs.narrow hw hmade
    · rw [hi]
      exact fun _ _ => id
    · intro fd f h
      rw [ho] at h
      rcases lookup_opened hs.desc h with ⟨rfl,rfl⟩ | hbefore
      · exact hd
      · exact hs.desc fd f hbefore
  | closed g hc hi hmade ho =>
    apply hs.narrow hw hmade
    · rw [hi]
      exact fun _ _ => id
    · intro fd f h
      rw [ho] at h
      exact hs.desc fd f (lookup_closed h)

theorem openValid_iff (hd : ∀ fd f, s.openFT.lookup fd = some f → f.fDesc = fd) :
    OpenValid s ↔ ∀ fd f, s.openFT.lookup fd = some f → ∃ k, nodeAt s.ilist k = some f.fInode := by
  constructor
  · exact OpenValid.held
  · intro h
    refine ⟨hd,?_,h⟩
    intro fd fd' f f' hf hf' hne
    rw [hd fd f hf, hd fd' f' hf']
    exact hne

theorem openValid_step (hs : Settled s) (hv : OpenValid s) (hm : Move s c s') :
    OpenValid s' ↔ Spares c s := by
  rw [openValid_iff (settled_step hs hm).desc]
  cases move_shifts hs.table hm with
  | still hc hn hmade ho =>
    rw [hn, ho]
    exact iff_of_true hv.held hc
  | grown hc hn hmade ho =>
    apply iff_of_true _ hc
    intro fd f hf
    rw [ho] at hf
    obtain ⟨k,hk⟩ := hv.held fd f hf
    have hne : k ≠ maxInode s+1 := by
      rintro rfl
      obtain ⟨i,hi,-⟩ := Option.map_eq_some_iff.mp hk
      exact next_notMem hs.table (mem_of_lookup hi)
    exact ⟨k,by rw [hn, Function.update_of_ne hne, hk]⟩
  | shrunk pathname k hc hk hn hmade ho =>
    subst hc
    constructor
    · rintro h j hj hremoves ⟨fd,hfd,hpoints⟩
      obtain rfl := Option.some.inj (hk.1.symm.trans hj)
      obtain ⟨f,hf⟩ := Finmap.mem_iff.mp (Finmap.mem_keys.mp hfd)
      rw [hf, Option.map_some] at hpoints
      obtain ⟨j,hj⟩ := h fd f (by rw [ho, hf])
      rw [hn] at hj
      by_cases he : j = k
      · subst he
        simp at hj
      · rw [Function.update_of_ne he] at hj
        exact he (hs.apart j k f.fInode hj hpoints.symm)
    · intro h fd f hf
      rw [ho] at hf
      obtain ⟨j,hj⟩ := hv.held fd f hf
      have hne : j ≠ k := by
        rintro rfl
        apply h j hk.1 hk
        refine ⟨fd,Finmap.mem_keys.mpr (Finmap.mem_of_lookup_eq_some hf),?_⟩
        rw [hf, Option.map_some, hj]
      exact ⟨j,by rw [hn, Function.update_of_ne hne, hj]⟩
  | opened g hc hi hmade hf hd ho =>
    apply iff_of_true _ hc
    intro fd f h
    rw [ho] at h
    rw [hi]
    rcases lookup_opened hs.desc h with ⟨rfl,rfl⟩ | hbefore
    · exact hf
    · exact hv.held fd f hbefore
  | closed g hc hi hmade ho =>
    apply iff_of_true _ hc
    intro fd f h
    rw [ho] at h
    rw [hi]
    exact hv.held fd f (lookup_closed h)

theorem rootOnly_settled (mode : Mode) : Settled (rootOnly mode) := by
  have hnode : ∀ k n, nodeAt (rootOnly mode).ilist k = some n → k = 0 ∧ n = 0 := by
    intro k n hk
    obtain ⟨i,hi,rfl⟩ := Option.map_eq_some_iff.mp hk
    obtain ⟨h0,rfl⟩ := rootOnly_lookup hi
    exact ⟨h0,rfl⟩
  constructor
  · exact rootOnly_wellFormed mode
  · intro k n hk
    rw [(hnode k n hk).2]
    exact Nat.one_pos
  · intro k k' n hk hk'
    exact (hnode k n hk).1.trans (hnode k' n hk').1.symm
  · intro fd f hf
    simp [rootOnly] at hf

/-- In a run from the root inode alone, the open files are valid in every state
exactly when no inode with an open file is erased. -/
theorem open_files_valid_iff (rootMode : Mode) (calls : List FuseCall) :
    Holds advance OpenValid calls (rootOnly rootMode) ↔
      Meets advance Spares calls (rootOnly rootMode) := by
  have hempty : OpenValid (rootOnly rootMode) := by
    rw [openValid_iff (rootOnly_settled rootMode).desc]
    intro fd f hf
    simp [rootOnly] at hf
  have hsettled : ∀ c t t', True → Settled t → advance c t = some t' → Settled t' := by
    intro c t t' _ ht hstep
    exact settled_step ht (advance_some ht.table hstep)
  have hvalid : ∀ c t t', True → Settled t → OpenValid t → advance c t = some t' →
      (OpenValid t' ↔ Spares c t) := by
    intro c t t' _ ht hv hstep
    exact openValid_step ht hv (advance_some ht.table hstep)
  exact holds_iff_meets hsettled hvalid calls (fun _ _ => trivial) (rootOnly_settled rootMode)
    hempty

theorem OpenValid.held_keys (h : OpenValid s) : ∀ fd ∈ s.openFT.keys, ∃ k ∈ s.ilist.keys,
    nodeAt s.ilist k = (s.openFT.lookup fd).map MyFile.fInode := by
  intro fd hfd
  obtain ⟨f,hf⟩ := Finmap.mem_iff.mp (Finmap.mem_keys.mp hfd)
  obtain ⟨k,hk⟩ := h.held fd f hf
  obtain ⟨i,hi,-⟩ := Option.map_eq_some_iff.mp hk
  refine ⟨k,Finmap.mem_keys.mpr (mem_of_lookup hi),?_⟩
  rw [hk, hf, Option.map_some]

/-- A directory removed while it is open. -/
theorem open_directory_erased :
    ∃ s, exec advance [.mkdir ['/','d'] 0o755#32,.open1 ['/','d'] 0,.rmdir ['/','d']]
      (rootOnly 0o755#32) = some s ∧ ¬ OpenValid s := by
  refine ⟨_,rfl,?_⟩
  intro h
  exact absurd h.held_keys (by decide)

end Bbfs.FuseOpen
