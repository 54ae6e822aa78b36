import Bbfs.Leftovers
import Bbfs.NameRuns
import Bbfs.Sizes

/-!
# Names and contents

The tree of names tells which file a path leads to; here every file also has its
contents. They are kept by number: a file has one whatever its names, it has it
under a new name, and as long as it is open it has it without any name.
-/

set_option autoImplicit false

namespace Bbfs.FileStore
open Bbfs.Strings Bbfs.Files Bbfs.Resolve Bbfs.Calls Bbfs.Session Bbfs.Walks Bbfs.Effects
open Bbfs.Outcomes Bbfs.Numbers Bbfs.Directories Bbfs.Quiet Bbfs.Opens Bbfs.PathTree
open Bbfs.Placement Bbfs.ZeroExtended Bbfs.Sizes Bbfs.Leftovers Bbfs.NameTree Bbfs.NameCalls Bbfs.NameRuns

variable {N : NameTree.Names} {v w : View} {n k : ℕ} {ws us : List Str} {path : Str} {e : Env}
  {s s' : Fs} {r : ℤ} {a : Place}

/-- The names, and the types and contents of files by number. -/
structure Store where
  names : NameTree.Names
  kind : ℕ → Mode
  image : ℕ → Contents.Image

def imageOf (data : Str) : Contents.Image := ⟨extend '\x00' data,data.length⟩

namespace Store

/-- The next number gets a type and contents; a call that is refused leaves it
without a name. -/
noncomputable def make (S : Store) (c : Call) (kind : Mode) (data : Str) : ℤ × Store :=
  ((act S.names c).1, ⟨(act S.names c).2,Function.update S.kind S.names.next kind,
    Function.update S.image S.names.next (imageOf data)⟩)

def edit (S : Store) (fh : ℕ) (op : Contents.FileOp) : Store :=
  { S with image := Function.update S.image fh (op.apply (S.image fh)) }

def cut (S : Store) (fh : ℕ) (size : ℤ) : ℤ × Store :=
  if S.kind fh = S_IFDIR ∨ size < 0 then (anErr, S)
  else (ok, S.edit fh (.truncate (BitVec.ofInt 64 size)))

noncomputable def act (S : Store) : Call → ℤ × Store
  | .mkdir path mode => S.make (.mkdir path mode) S_IFDIR []
  | .creat path mode => S.make (.creat path mode) S_IFREG []
  | .symlink target path => S.make (.symlink target path) S_IFLNK target
  | .pwrite fh buf _ offset =>
    if S.kind fh = S_IFREG then
      (buf.length, S.edit fh (.write buf (BitVec.ofInt 64 offset)))
    else (anErr, S)
  | .ftruncate fh offset => S.cut fh offset
  | .truncate path newsize =>
    match (place S.names.tree path).bind S.names.tree.label with
    | some a => S.cut a.1 newsize
    | none => (anErr, S)
  | c => ((NameTree.act S.names c).1, { S with names := (NameTree.act S.names c).2 })

end Store

def Live (N : NameTree.Names) (k : ℕ) : Prop :=
  (∃ ws m, N.tree.label ws = some (k,m)) ∨ 0 < N.opens k

def IsWord (x : ℤ) : Prop := (BitVec.ofInt 64 x).toInt = x

instance (x : ℤ) : Decidable (IsWord x) := inferInstanceAs (Decidable (_ = _))

/-- Buffers and targets are C strings, and lengths stay an `int`; handles are of
files that are there. -/
def Fits (S : Store) : Call → Prop
  | .pwrite fh buf size offset => Live S.names fh ∧ size = buf.length ∧ IsWord offset ∧
    (Contents.FileOp.write buf (BitVec.ofInt 64 offset)).Fits (S.image fh)
  | .ftruncate fh offset => Live S.names fh ∧ IsWord offset
  | .truncate path newsize => Direct S.names.tree path ∧ IsWord newsize
  | .symlink target _ => '\x00' ∉ target ∧ target.length < 2^31
  | _ => True

def Allows (S : Store) (c : Call) : Prop := Admitted S.names c ∧ Fits S c

def newKind : Call → Option Mode
  | .mkdir .. => some S_IFDIR
  | .creat .. => some S_IFREG
  | .symlink .. => some S_IFLNK
  | _ => none

theorem named_label {T : PlaceTree} {b : Place} (h : (named T path a).label ws = some b) :
    b = a ∨ T.label ws = some b := by
  unfold named at h
  split_ifs at h
  · exact Tree.grow_label a h
  · exact Or.inr h

theorem act_label {c : Call} {b : Place} (h : (act N c).2.tree.label ws = some b) :
    (∃ us, N.tree.label us = some b) ∨ newKind c = some b.2 ∧ b.1 = N.next := by
  cases c with
  | mkdir path mode =>
    rw [act] at h
    split_ifs at h
    · exact (named_label h).symm.imp (fun hl => ⟨ws,hl⟩) (fun hb => by rw [hb]; exact ⟨rfl,rfl⟩)
    · exact Or.inl ⟨ws,h⟩
  | creat path mode =>
    rw [act] at h
    split_ifs at h
    · exact Or.inl ⟨ws,h⟩
    · exact (named_label h).symm.imp (fun hl => ⟨ws,hl⟩) (fun hb => by rw [hb]; exact ⟨rfl,rfl⟩)
    · exact Or.inl ⟨ws,h⟩
  | symlink target path =>
    rw [act] at h
    split_ifs at h
    · exact Or.inl ⟨ws,h⟩
    · exact (named_label h).symm.imp (fun hl => ⟨ws,hl⟩) (fun hb => by rw [hb]; exact ⟨rfl,rfl⟩)
    · exact Or.inl ⟨ws,h⟩
  | link path newpath =>
    rw [act] at h
    split at h
    · next a hl =>
      split_ifs at h
      · rcases named_label h with hb | hold
        · obtain ⟨us,-,hus⟩ := Option.bind_eq_some_iff.mp hl
          exact Or.inl ⟨us,hb ▸ hus⟩
        · exact Or.inl ⟨ws,hold⟩
      · exact Or.inl ⟨ws,h⟩
    · exact Or.inl ⟨ws,h⟩
  | unlink path =>
    rw [act] at h
    split at h
    · split_ifs at h
      · exact Or.inl ⟨ws,h⟩
      · exact Or.inl ⟨ws,Tree.cut_label h⟩
    · exact Or.inl ⟨ws,h⟩
  | rmdir path =>
    rw [act] at h
    split at h
    · split_ifs at h
      · exact Or.inl ⟨ws,Tree.cut_label h⟩
      · exact Or.inl ⟨ws,h⟩
    · exact Or.inl ⟨ws,h⟩
  | rename path newpath =>
    rw [act] at h
    split_ifs at h
    · exact Or.inl ⟨ws,h⟩
    · split at h
      · exact Or.inl (Tree.move_label h)
      · exact Or.inl ⟨ws,h⟩
  | openFile path flags =>
    rw [act] at h
    split at h
    · exact Or.inl ⟨ws,h⟩
    · exact Or.inl ⟨ws,h⟩
  | _ => exact Or.inl ⟨ws,h⟩

theorem live_act {c : Call} (h : Live (act N c).2 k) :
    Live N k ∨ (newKind c).isSome = true ∧ k = N.next := by
  rcases h with ⟨ws,m,hl⟩ | hpos
  · rcases act_label hl with ⟨us,hus⟩ | ⟨hkind,hk⟩
    · exact Or.inl (Or.inl ⟨us,m,hus⟩)
    · exact Or.inr ⟨by rw [hkind]; rfl,hk⟩
  · left
    by_cases hc : c.isNamespace = true
    · exact Or.inr (act_opens N hc ▸ hpos)
    cases c with
    | openFile path flags =>
      rw [act] at hpos
      split at hpos
      · next a hl =>
        obtain ⟨ws,-,hws⟩ := Option.bind_eq_some_iff.mp hl
        rcases eq_or_ne k a.1 with rfl | hne
        · exact Or.inl ⟨ws,a.2,hws⟩
        · change 0 < Function.update N.opens a.1 (N.opens a.1+1) k at hpos
          rw [Function.update_of_ne hne] at hpos
          exact Or.inr hpos
      · exact Or.inr hpos
    | close fh =>
      have hle : (act N (.close fh)).2.opens k ≤ N.opens k := by
        change Function.update N.opens fh (N.opens fh-1) k ≤ N.opens k
        rcases eq_or_ne k fh with rfl | hne
        · rw [Function.update_self]
          exact Nat.sub_le _ _
        · rw [Function.update_of_ne hne]
      exact Or.inr (Nat.lt_of_lt_of_le hpos hle)
    | _ => first | exact Or.inr hpos | exact absurd rfl hc

theorem live_made (h : Represents s N) (hk : Live N k) :
    k ≠ 0 ∧ (s.file k).metadata.stIno = k ∧ k < s.count := by
  have hmade : Made s.file k := by
    rcases hk with ⟨ws,m,hl⟩ | hpos
    · rw [h.label] at hl
      obtain ⟨x,hx,hxk⟩ := Option.map_eq_some_iff.mp hl
      obtain ⟨rfl,-⟩ := Prod.mk.inj hxk
      by_cases h2 : x = 2
      · rw [h2]
        exact ⟨two_ne_zero,(h.orderly.dots.dirs 2 h.root).2⟩
      · exact made_of_reached h.orderly (reached_of_find hx) h2
    · exact (h.held.opened k hpos).2.1
  refine ⟨hmade.1,hmade.2,?_⟩
  rcases h.settled.numbered k with hz | ⟨-,hlt⟩
  · exact absurd (hmade.2.symm.trans hz) hmade.1
  · exact hlt

theorem live_not_default (h : Represents s N) (hk : Live N k) : s.file k ≠ default := by
  obtain ⟨h0,hi,-⟩ := live_made h hk
  intro hd
  rw [hd] at hi
  exact h0 hi.symm

theorem dropLink_mode (v : View) (fh k : ℕ) :
    (dropLink v fh k).metadata.stMode = (v k).metadata.stMode ∨ dropLink v fh k = default := by
  rcases eq_or_ne k fh with rfl | hne
  · rw [dropLink]
    split_ifs
    · exact Or.inr (Function.update_self ..)
    · rw [put_self]
      exact Or.inl rfl
  · rw [dropLink_of_ne v hne]
    exact Or.inl rfl

theorem mode_effect {K K' : Set ℕ} {n' : ℕ} {c : Call} (hc : c.isNamespace = true)
    (he : Effect v K n c r w K' n') (hk : ¬ (k = n ∧ n' = n+1)) :
    (w k).metadata.stMode = (v k).metadata.stMode ∨ w k = default := by
  cases he with
  | idle => exact Or.inl rfl
  | leaked f =>
    have hkn : k ≠ n := fun he => hk ⟨he,rfl⟩
    exact Or.inl (by rw [Function.update_of_ne hkn])
  | entered path f =>
    have hkn : k ≠ n := fun he => hk ⟨he,rfl⟩
    exact Or.inl (by rw [NameViews.entered_meta hkn])
  | linked path newpath => exact Or.inl (NameViews.linkView_meta v _ _ k _)
  | unlinked path =>
    have hmeta := (Edit.dropNamed (tail path)).put_metadata v (resolve v (parentPath path)) k
    rw [unlinkView, ← hmeta]
    exact dropLink_mode _ _ k
  | removed path =>
    have hmeta := (Edit.dropIno (resolve v path)).put_metadata v (resolve v (parentPath path)) k
    rw [rmdirView]
    split_ifs
    · rcases eq_or_ne k (resolve v path) with hr | hne
      · rw [hr]
        exact Or.inr (Function.update_self ..)
      · rw [Function.update_of_ne hne, hmeta]
        exact Or.inl rfl
    · exact Or.inl (by rw [hmeta])
  | renamed path newpath => exact Or.inl (by rw [renameView_metadata])
  | retyped => exact absurd hc Bool.false_ne_true
  | opened => exact absurd hc Bool.false_ne_true
  | closed => exact absurd hc Bool.false_ne_true
  | written => exact absurd hc Bool.false_ne_true
  | patched j g keeps other =>
    rw [edits_of_isNamespace hc] at other
    exact absurd other.symm Bool.false_ne_true

def writes : Call → Bool
  | .pwrite .. | .ftruncate .. | .truncate .. => true
  | _ => false

theorem old_file (h : Represents s N) {c : Call} (ha : Admitted N c) (hw : writes c = false)
    (hm : answer e c s = some (r,s')) (hk : ¬ (k = s.count ∧ s'.count = s.count+1)) :
    typeBits (s'.file k).metadata.stMode = typeBits (s.file k).metadata.stMode ∧
      (s'.file k).data = (s.file k).data ∨ s'.file k = default := by
  obtain ⟨he,-⟩ := did_of_answer h.settled hm
  rcases ha with ha | ha
  · rcases allowed_cases ha with hc | hq
    · rcases data_effect (edits_of_isNamespace hc) he k with hkn | hd | hd
      · exact absurd hkn hk
      · exact (mode_effect hc he hk).imp_left (fun hmode => ⟨by rw [hmode],hd⟩)
      · exact Or.inr hd
    · have hchange : changesData c = false := by
        cases c <;> first | rfl | exact absurd hw.symm Bool.false_ne_true |
          exact absurd hq Bool.false_ne_true
      have hshape := quiet_effect hq (keepsType_of_allowed h.orderly h.label ha) he
      exact Or.inl ⟨hshape.type k,data_kept hchange hm k⟩
  · cases c with
    | openFile path flags =>
      have hm' : myOpen e path flags s = (r,s') := Option.some.inj hm
      rw [myOpen_eq] at hm'
      refine Or.inl ⟨?_,data_kept rfl hm k⟩
      rw [← (Prod.mk.inj hm').2, Fs.modify_file, Fs.touch_file]
      rcases eq_or_ne k (resolve s.file path) with hr | hne
      · rw [hr, put_self]
        rfl
      · rw [put_of_ne _ _ hne]
    | close fh =>
      have hne := (h.held.opened fh ha).2.1.1
      rw [myClose_file hne (Option.some.inj hm)]
      rcases dropLink_data s.file fh k with hd | hd
      · exact (dropLink_mode s.file fh k).imp_left (fun hmode => ⟨by rw [hmode],hd⟩)
      · exact Or.inr hd
    | _ => exact absurd ha id

theorem symlink_data (hs : Settled s) {target : Str}
    (hm : mySymlink e target path s = some (r,s')) (hempty : (s.file s.count).data = [])
    (hnul : '\x00' ∉ target) (hlen : target.length < 2^31)
    (ht : typeBits (s'.file s.count).metadata.stMode = S_IFLNK) :
    (s'.file s.count).data = target := by
  have hreg : S_IFREG ≠ S_IFLNK := by decide
  rcases mySymlink_cases hs hm with ⟨-,hlooked⟩ | ⟨-,err,t,hmk,hcases⟩
  · rw [hlooked.file, (hs.spare s.count le_rfl hs.fresh.ne_err).2] at ht
    exact absurd ht (by decide)
  have hdata := mknod_data (settled_touch hs _) hmk
  rw [Fs.touch_count, Fs.touch_file, hempty] at hdata
  -- a file that is no link yet
  have hmade : typeBits (t.file s.count).metadata.stMode = S_IFREG := by
    obtain ⟨-,-,-,f,hnew,-,hcase⟩ := myMknod_effect (settled_touch hs _) hmk
    rw [Fs.touch_count, Fs.touch_file] at hcase
    rw [Fs.touch_count] at hnew
    have hkind : typeBits (S_IFREG ||| 666#32) = S_IFREG := by decide
    rcases hcase with ⟨-,-,-,hview⟩ | ⟨-,-,-,hview⟩
    · rw [hview, Function.update_self, hnew.type, hkind]
    · rw [hview, entered_new (hs.fresh.resolve_ne _), hnew.type, hkind]
  rcases hcases with ⟨-,-,rfl⟩ | ⟨-,-,-,⟨-,-,hview⟩ | ⟨-,-,data,hover,hview⟩⟩
  · exact absurd (hmade.symm.trans ht) hreg
  · rw [hview] at ht
    exact absurd (hmade.symm.trans ht) hreg
  · rw [hdata, Contents.cstr_of_notMem hnul] at hover
    have hword : (0:ℤ) = (0:BitVec 64).toInt := by decide
    rw [hword, Contents.overwrite_eq (by simpa using hlen)] at hover
    rw [hview, put_self]
    change data = target
    have hplace : Contents.place 0 0 = 0 := by decide
    have hread : ((splice (resize target.length []) 0 target).drop 0).take target.length = target :=
      take_drop_splice (Nat.zero_le _)
    have hfull : (splice (resize target.length []) 0 target).length = target.length := by
      rw [length_splice (by rw [Contents.length_resize]; omega), Contents.length_resize]
    rw [List.drop_zero, List.take_of_length_le hfull.le] at hread
    rw [← Option.some.inj hover, List.length_nil, Nat.zero_add, hplace]
    exact hread

def newData : Call → Str
  | .symlink target _ => target
  | _ => []

theorem new_file (h : Represents s N) {c : Call} (hc : (newKind c).isSome = true)
    (hfits : ∀ target path, c = .symlink target path → '\x00' ∉ target ∧ target.length < 2^31)
    (hm : answer e c s = some (r,s')) (hempty : (s.file s.count).data = [])
    (ht : newKind c = some (typeBits (s'.file s.count).metadata.stMode)) :
    (s'.file s.count).data = newData c := by
  have hs := h.settled
  cases c with
  | mkdir path mode =>
    have hm' : myMknod e path (S_IFDIR ||| mode) 100 s = (r,s') := Option.some.inj hm
    exact (mknod_data hs hm').trans hempty
  | creat path mode =>
    have hm' : myCreat e path mode s = (r,s') := Option.some.inj hm
    rw [myCreat] at hm'
    split_ifs at hm'
    · rw [← (Prod.mk.inj hm').2]
      exact hempty
    · exact (mknod_data hs hm').trans hempty
  | symlink target path =>
    obtain ⟨hnul,hlen⟩ := hfits target path rfl
    exact symlink_data hs hm hempty hnul hlen (Option.some.inj ht).symm
  | _ => exact absurd hc Bool.false_ne_true

end Bbfs.FileStore
