import Bbfs.Contents
import Bbfs.Directories

/-!
# Data under numbers that name no file

`my_ftruncate` takes any handle but 0, so that a number not yet given out can
have data when a new file gets it. Such data is zero bytes throughout; the
handle 0 has none.
-/

set_option autoImplicit false

namespace Bbfs.Leftovers
open Bbfs.Strings Bbfs.Files Bbfs.Resolve Bbfs.Calls Bbfs.Session Bbfs.Walks Bbfs.Effects
open Bbfs.Outcomes Bbfs.Numbers Bbfs.Directories Bbfs.Contents

def Zeroed (f : File) : Prop := ∀ c ∈ f.data, c = '\x00'

structure Blank (s : Fs) : Prop where
  sentinel : (s.file 0).data = []
  spare : ∀ k, s.count ≤ k → k ≠ errIno → Zeroed (s.file k)

inductive Rewritten (k : ℕ) (f f' : File) : Prop
  | same (data : f'.data = f.data)
  | erased (data : f'.data = [])
  | written (reg : f.isReg = true)
  | cut (nonzero : k ≠ 0) (n : ℕ) (data : f'.data = resize n f.data)

variable {v w : View} {s s' : Fs} {env : Env} {r : ℤ} {k : ℕ}

def SameData (g : File → File) : Prop := ∀ f, (g f).data = f.data

theorem SameData.put {g : File → File} (h : SameData g) (v : View) (j k : ℕ) :
    (put v j g k).data = (v k).data := by
  by_cases hk : k = j
  · subst hk
    rw [put_self, h]
  · rw [put_of_ne _ _ hk]

theorem sameData_push (d : Dirent) : SameData (File.push d) := fun _ => rfl

theorem sameData_dropNamed (name : Str) : SameData (File.dropNamed name) := fun _ => rfl

theorem sameData_dropIno (i : ℕ) : SameData (File.dropIno i) := fun _ => rfl

theorem sameData_setStat (g : Stat → Stat) : SameData (File.setStat g) := fun _ => rfl

theorem erase_data (v : View) (fh k : ℕ) :
    (Function.update v fh default k).data = (v k).data ∨
      Function.update v fh default k = default := by
  by_cases hk : k = fh
  · subst hk
    rw [Function.update_self]
    exact Or.inr rfl
  · rw [Function.update_of_ne hk]
    exact Or.inl rfl

theorem dropLink_data (v : View) (fh k : ℕ) :
    (dropLink v fh k).data = (v k).data ∨ dropLink v fh k = default := by
  unfold dropLink
  split_ifs
  · exact erase_data v fh k
  · exact Or.inl ((sameData_setStat _).put v fh k)

theorem renameView_data (P Q : ℕ) (name newname : Str) (i k : ℕ) :
    (renameView v P Q name newname i k).data = (v k).data := by
  have hclear : (clearTarget v Q newname k).data = (v k).data := by
    unfold clearTarget
    split_ifs
    · exact (sameData_dropNamed _).put v Q k
    · rfl
  rw [renameView, (sameData_push _).put, clearView_eq, (sameData_dropNamed _).put, hclear]

theorem enterView_data {n P : ℕ} (name : Str) (f : File) (hk : k ≠ n) :
    (enterView v n P name f k).data = (v k).data := by
  rw [enterView, (sameData_push _).put, Function.update_of_ne hk]

theorem data_effect {K K' : Set ℕ} {n n' : ℕ} {c : Call} (hc : c.edits = true)
    (he : Effect v K n c r w K' n') (k : ℕ) :
    k = n ∧ n' = n+1 ∨ (w k).data = (v k).data ∨ w k = default := by
  cases he with
  | idle => exact Or.inr (Or.inl rfl)
  | leaked f =>
    by_cases hk : k = n
    · exact Or.inl ⟨hk,rfl⟩
    · rw [Function.update_of_ne hk]
      exact Or.inr (Or.inl rfl)
  | entered path f =>
    by_cases hk : k = n
    · exact Or.inl ⟨hk,rfl⟩
    · exact Or.inr (Or.inl (enterView_data _ f hk))
  | linked path newpath =>
    right
    left
    rw [linkView, (sameData_push _).put, (sameData_setStat _).put]
  | unlinked path =>
    right
    rw [unlinkView, ← (sameData_dropNamed (tail path)).put v (resolve v (parentPath path)) k]
    exact dropLink_data _ _ k
  | removed path =>
    right
    rw [← (sameData_dropIno (resolve v path)).put v (resolve v (parentPath path)) k]
    unfold rmdirView
    split_ifs
    · exact erase_data _ _ k
    · exact Or.inl rfl
  | renamed path newpath => exact Or.inr (Or.inl (renameView_data _ _ _ _ _ k))
  | patched j g keeps other => simp [hc] at other
  | _ => simp [Call.edits, Call.isNamespace] at hc

theorem looked_data {ks : List ℕ} (h : Looked s ks s') (k : ℕ) :
    (s'.file k).data = (s.file k).data := by
  rw [h.file]

theorem put_data {j : ℕ} {g : File → File} (hv : w = put v j g) (hg : SameData g) (k : ℕ) :
    (w k).data = (v k).data := by
  rw [hv, hg.put]

theorem rewritten_cut {t : Fs} {j n : ℕ} (ht : t.file = put s.file j (cutTo n)) (hj : j ≠ 0)
    (k : ℕ) : Rewritten k (s.file k) (t.file k) := by
  rw [ht]
  by_cases hk : k = j
  · subst hk
    rw [put_self]
    exact .cut hj n rfl
  · rw [put_of_ne _ _ hk]
    exact .same rfl

def changesData : Call → Bool
  | .close .. | .pwrite .. | .ftruncate .. | .truncate .. => true
  | c => c.edits

theorem data_kept {c : Call} (hc : changesData c = false) (ha : answer env c s = some (r,s'))
    (k : ℕ) : (s'.file k).data = (s.file k).data := by
  cases c with
  | lstat path =>
    cases ha
    rw [myLstat_state]
  | fstat fh =>
    cases ha
    rfl
  | readlink path size => exact looked_data (readResult_looked (myReadlink_looked path size) ha) k
  | access path mask =>
    have hl := myAccess_looked (s := s) path mask
    rw [Option.some.inj ha] at hl
    exact looked_data hl k
  | chmod path mode =>
    have hm := Option.some.inj ha
    simp only [myChmod, findIno_eq, Fs.touch_file] at hm
    by_cases h0 : resolve s.file path = 0
    · rw [if_pos h0] at hm
      cases hm
      rw [Fs.touch_file, Fs.touch_file]
    · rw [if_neg h0] at hm
      cases hm
      exact put_data (by rw [Fs.modify_file, Fs.touch_file, Fs.touch_file])
        (sameData_setStat _) k
  | chown path uid gid =>
    have hm := Option.some.inj ha
    simp only [myChown, findIno_eq] at hm
    split_ifs at hm
    · cases hm
      rw [Fs.touch_file]
    · cases hm
      exact put_data (by rw [Fs.modify_file, Fs.touch_file]) (sameData_setStat _) k
  | utime path ubuf =>
    have hm := Option.some.inj ha
    cases ubuf with
    | none =>
      cases hm
      rfl
    | some times =>
      simp only [myUtime, findIno_eq] at hm
      split_ifs at hm
      · cases hm
        rw [Fs.touch_file]
      · cases hm
        exact put_data (by rw [Fs.modify_file, Fs.touch_file]) (sameData_setStat _) k
  | openFile path flags =>
    have hm := Option.some.inj ha
    rw [myOpen_eq] at hm
    rw [← (Prod.mk.inj hm).2]
    exact put_data (by rw [Fs.modify_file, Fs.touch_file]) (sameData_setStat _) k
  | pread fh size offset =>
    exact looked_data (readResult_looked (myPread_looked fh size offset) ha) k
  | statvfs path statv =>
    cases ha
    exact looked_data (myStatvfs_looked path statv) k
  | fdatasync fh =>
    cases ha
    rfl
  | fsync fh =>
    cases ha
    rfl
  | lsetxattr path name value =>
    have hm := Option.some.inj ha
    simp only [myLsetxattr, findRealIno_eq, Fs.touch_file] at hm
    split_ifs at hm
    · cases hm
      rfl
    · cases hm
      rw [Fs.touch_file]
    · cases hm
      have hset : SameData (mySetXattr name value) := fun _ => rfl
      exact put_data (by rw [Fs.modify_file, Fs.touch_file]) hset k
  | lgetxattr path name value =>
    cases ha
    exact looked_data (myLgetxattr_looked path name value) k
  | llistxattr path size =>
    cases ha
    exact looked_data (myLlistxattr_looked path size) k
  | lremovexattr path name =>
    have hm := Option.some.inj ha
    simp only [myLremovexattr, findIno_eq, Fs.touch_file] at hm
    split_ifs at hm
    · cases hm
      rw [Fs.touch_file]
    · cases hm
      have herase : SameData (fun f => { f with xattr := f.xattr.erase name }) := fun _ => rfl
      exact put_data (by rw [Fs.modify_file, Fs.touch_file, Fs.touch_file]) herase k
    · cases hm
      rw [Fs.touch_file, Fs.touch_file]
  | opendir path =>
    cases ha
    exact looked_data (myOpendir_looked path) k
  | _ => exact absurd hc.symm Bool.false_ne_true

theorem data_step (hs : Settled s) {c : Call} (ha : answer env c s = some (r,s')) (k : ℕ) :
    k = s.count ∧ s'.count = s.count+1 ∨ Rewritten k (s.file k) (s'.file k) := by
  by_cases hc : c.edits = true
  · apply (data_effect hc (did_of_answer hs ha).1 k).imp_right
    rintro (hd | hd)
    · exact .same hd
    · exact .erased (by rw [hd]; rfl)
  right
  by_cases hchange : changesData c = true
  · cases c with
    | close fh =>
      by_cases h0 : fh = 0
      · have hm := Option.some.inj ha
        rw [myClose, if_pos h0] at hm
        cases hm
        exact .same rfl
      · obtain ⟨-,hs'⟩ := myClose_some h0 (Option.some.inj ha)
        rw [hs']
        split_ifs
        · rw [Fs.erase_file, Fs.modify_file]
          rcases erase_data (put s.file fh (File.setStat decNlink)) fh k with hd | hd
          · exact .same (hd.trans ((sameData_setStat _).put s.file fh k))
          · exact .erased (by rw [hd]; rfl)
        · exact .same (put_data (Fs.modify_file _ _ _) (sameData_setStat _) k)
    | pwrite fh buf size offset =>
      have hm : myPwrite fh buf size offset s = some (r,s') := ha
      rcases myPwrite_some hm with ⟨-,-,hs'⟩ | ⟨-,hreg,-,data,-,hs'⟩
      · rw [hs', Fs.touch_file]
        exact .same rfl
      · by_cases hk : k = fh
        · subst hk
          exact .written hreg
        · rw [hs', Fs.modify_file, Fs.touch_file, put_of_ne _ _ hk]
          exact .same rfl
    | ftruncate fh offset =>
      rcases myFtruncate_some (Option.some.inj ha) with ⟨-,-,hs'⟩ | ⟨h0,-,-,-,hs'⟩
      · rw [hs']
        split_ifs
        · exact .same rfl
        · rw [Fs.touch_file]
          exact .same rfl
      · have hv : s'.file = put s.file fh (cutTo offset.toNat) := by
          rw [hs', Fs.modify_file, Fs.touch_file]
        exact rewritten_cut hv h0 k
    | truncate path newsize =>
      rcases myTruncate_some (Option.some.inj ha) with ⟨-,-,hv⟩ | ⟨-,h0,-,-,hv⟩
      · rw [hv]
        exact .same rfl
      · exact rewritten_cut hv h0 k
    | _ => exact absurd hchange hc
  · exact .same (data_kept (by simpa using hchange) ha k)

theorem zeros_resize {data : Str} (h : ∀ c ∈ data, c = '\x00') (n : ℕ) :
    ∀ c ∈ resize n data, c = '\x00' := by
  intro c hc
  rw [resize, List.mem_append] at hc
  rcases hc with hc | hc
  · exact h c (List.mem_of_mem_take hc)
  · exact (List.mem_replicate.mp hc).2

theorem Blank.step (hb : Blank s) (hs : Settled s) {c : Call}
    (ha : answer env c s = some (r,s')) (hle : s.count ≤ s'.count) : Blank s' where
  sentinel := by
    have hlow := hs.low
    rcases data_step hs ha 0 with ⟨hk,-⟩ | hr
    · omega
    · cases hr with
      | same hd => exact hd.trans hb.sentinel
      | erased hd => exact hd
      | written reg => simp [(untyped hs.sentinel).2.1] at reg
      | cut h0 => exact absurd rfl h0
  spare := by
    intro k hk he
    have hold : s.count ≤ k := hle.trans hk
    rcases data_step hs ha k with ⟨hkn,hn⟩ | hr
    · omega
    · cases hr with
      | same hd =>
        rw [Zeroed, hd]
        exact hb.spare k hold he
      | erased hd =>
        rw [Zeroed, hd]
        simp
      | written reg => simp [(untyped (hs.spare k hold he).2).2.1] at reg
      | cut _ n hd =>
        rw [Zeroed, hd]
        exact zeros_resize (hb.spare k hold he) n

theorem sessions_blank {cond : Label → Fs → Prop} (h : Sessions env cond s) : Blank s := by
  apply sessions_invariant h
  · obtain ⟨hn,-,-,hv⟩ := initialized_eq env
    have hempty : ∀ k, ((initialized env).file k).data = [] := by
      intro k
      rw [hv]
      by_cases hk : k = 2
      · subst hk
        rw [rootView_root]
        rfl
      · rw [rootView_other env hk]
        rfl
    refine ⟨hempty 0,fun k _ _ c hc => ?_⟩
    rw [hempty k] at hc
    exact absurd hc List.not_mem_nil
  · intro l t t' r ht _ hb _ ha he
    exact hb.step ht ha (numbers_effect ht.toNumbers ht.low he).2.1

end Bbfs.Leftovers
