import Bbfs.Bytes
import Bbfs.FileStore

/-!
# Runs of the store

A run may mix calls on names, opens, closes and calls that write contents. The
table has the types and the contents of the store for every file that is reached
or open, so what is read is what the store says.
-/

set_option autoImplicit false

namespace Bbfs.StoreRuns
open Bbfs.Strings Bbfs.Files Bbfs.Resolve Bbfs.Calls Bbfs.Session Bbfs.Walks Bbfs.Effects
open Bbfs.Outcomes Bbfs.Numbers Bbfs.Directories Bbfs.Quiet Bbfs.Opens Bbfs.PathTree
open Bbfs.Placement Bbfs.ZeroExtended Bbfs.Sizes Bbfs.Leftovers Bbfs.NameTree Bbfs.NameCalls
open Bbfs.NameRuns Bbfs.FileStore Bbfs.Runs
open Bbfs.FreedCopy (Finds finds_real Spares myReadlink_found)

variable {S : Store} {fh k : ℕ} {ws us : List Str} {path : Str} {e env : Env} {s s' : Fs}
  {r : ℤ} {a : Place}

def Edited (v w : View) (fh : ℕ) (op : Contents.FileOp) : Prop :=
  (∀ k, k ≠ fh → w k = v k) ∧ (w fh).metadata.stMode = (v fh).metadata.stMode ∧
    Contents.image (w fh) = op.apply (Contents.image (v fh))

theorem pwrite_edits {fh size : ℕ} {buf : Str} {offset : ℤ} (h0 : fh ≠ 0)
    (hreg : (s.file fh).isReg = true) (hsize : size = buf.length) (hword : IsWord offset)
    (hf : (Contents.FileOp.write buf (BitVec.ofInt 64 offset)).Fits (Contents.image (s.file fh)))
    (hm : myPwrite fh buf size offset s = some (r,s')) :
    r = buf.length ∧ Edited s.file s'.file fh (.write buf (BitVec.ofInt 64 offset)) := by
  subst hsize
  obtain ⟨t,ht,-,himage⟩ : ∃ t,
      Contents.fileStep plainEnv fh (.write buf (BitVec.ofInt 64 offset)) s = some t ∧
        (t.file fh).isReg = true ∧ Contents.image (t.file fh) = _ :=
    Contents.fileStep_apply h0 _ hreg hf
  rw [Contents.fileStep, Contents.FileOp.call, hword] at ht
  change (myPwrite fh buf buf.length offset s).map Prod.snd = some t at ht
  rw [hm] at ht
  obtain rfl := Option.some.inj ht
  rcases myPwrite_some hm with ⟨hbad,-,-⟩ | ⟨-,-,hret,data,-,hs'⟩
  · rw [hreg] at hbad
    exact absurd (hbad.resolve_left h0).symm Bool.false_ne_true
  have hlen : buf.length < 2^31 := Nat.lt_of_le_of_lt (Nat.le_add_left _ _) hf.2
  have hview : s'.file = put s.file fh (stored data (cstr buf)) := by
    rw [hs', Fs.modify_file, Fs.touch_file]
  refine ⟨?_,fun k hk => ?_,?_,himage⟩
  · rw [hret, Contents.cstr_of_notMem hf.1, Contents.toInt32_natCast hlen]
  · rw [hview, put_of_ne _ _ hk]
  · rw [hview, put_self]
    rfl

theorem cut_edits {fh : ℕ} {size : ℤ} (hword : IsWord size)
    (hview : s'.file = put s.file fh (cutTo size.toNat)) :
    Edited s.file s'.file fh (.truncate (BitVec.ofInt 64 size)) := by
  refine ⟨fun k hk => ?_,?_,?_⟩
  · rw [hview, put_of_ne _ _ hk]
  · rw [hview, put_self]
    rfl
  · rw [hview, put_self]
    simp only [Contents.image, cutTo, Contents.FileOp.apply, Contents.length_resize,
      Contents.extend_resize]
    rw [hword]

structure Stands (s : Fs) (S : Store) : Prop where
  names : Represents s S.names
  kind : ∀ k, Live S.names k → S.kind k = typeBits (s.file k).metadata.stMode
  image : ∀ k, Live S.names k → S.image k = Contents.image (s.file k)
  spare : ∀ k, s.count ≤ k → k ≠ errIno → (s.file k).data = []

theorem Stands.isDir (h : Stands s S) (hk : Live S.names k) :
    S.kind k = S_IFDIR ↔ (s.file k).isDir = true := by
  rw [h.kind k hk, File.isDir, S_ISDIR_eq, beq_iff_eq]

theorem Stands.isReg (h : Stands s S) (hk : Live S.names k) :
    S.kind k = S_IFREG ↔ (s.file k).isReg = true := by
  rw [h.kind k hk, File.isReg, S_ISREG_eq, beq_iff_eq]

theorem stands_same (h : Stands s S) (hnames : Represents s' S.names) (hview : s'.file = s.file)
    (hcount : s'.count = s.count) : Stands s' S := by
  refine ⟨hnames,?_,?_,?_⟩
  · rw [hview]
    exact h.kind
  · rw [hview]
    exact h.image
  · rw [hview, hcount]
    exact h.spare

theorem stands_edit {op : Contents.FileOp} (h : Stands s S) (hnames : Represents s' S.names)
    (hlive : Live S.names fh) (he : Edited s.file s'.file fh op) (hcount : s'.count = s.count) :
    Stands s' (S.edit fh op) := by
  obtain ⟨hother,hmode,himage⟩ := he
  refine ⟨hnames,fun k hk => ?_,fun k hk => ?_,fun k hk herr => ?_⟩
  · rcases eq_or_ne k fh with rfl | hne
    · rw [hmode]
      exact h.kind k hk
    · rw [hother k hne]
      exact h.kind k hk
  · change Function.update S.image fh (op.apply (S.image fh)) k = _
    rcases eq_or_ne k fh with rfl | hne
    · rw [Function.update_self, himage, h.image k hk]
    · rw [Function.update_of_ne hne, hother k hne]
      exact h.image k hk
  · rw [hcount] at hk
    have hlt := (live_made h.names hlive).2.2
    rw [hother k (by omega)]
    exact h.spare k hk herr

theorem stands_cut {size : ℤ} (h : Stands s S) (hnames : Represents s' S.names)
    (hlive : Live S.names fh) (hcount : s'.count = s.count) (hword : IsWord size)
    (hcase : (size < 0 ∨ (s.file fh).isDir = true) ∧ r = anErr ∧ s'.file = s.file ∨
      0 ≤ size ∧ (s.file fh).isDir = false ∧ r = ok ∧
        s'.file = put s.file fh (cutTo size.toNat)) :
    r = (S.cut fh size).1 ∧ Stands s' (S.cut fh size).2 := by
  rcases hcase with ⟨hbad,hret,hview⟩ | ⟨hpos,hdir,hret,hview⟩
  · rw [Store.cut, if_pos (hbad.symm.imp_left (h.isDir hlive).mpr)]
    exact ⟨hret,stands_same h hnames hview hcount⟩
  · have hgood : ¬ (S.kind fh = S_IFDIR ∨ size < 0) := by
      rw [h.isDir hlive, hdir]
      rintro (hd | hneg)
      · exact Bool.false_ne_true hd
      · omega
    rw [Store.cut, if_neg hgood]
    exact ⟨hret,stands_edit h hnames hlive (cut_edits hword hview) hcount⟩

theorem act_rest {c : Call} (hw : writes c = false) (hc : newKind c = none) :
    S.act c = ((NameTree.act S.names c).1, { S with names := (NameTree.act S.names c).2 }) := by
  cases c <;> first | rfl | exact absurd hw.symm Bool.false_ne_true | cases hc

theorem act_new {c : Call} {m : Mode} (hc : newKind c = some m) :
    S.act c = S.make c m (newData c) := by
  cases c <;> cases hc <;> rfl

theorem writes_of_new {c : Call} (hc : (newKind c).isSome = true) :
    c.isNamespace = true ∧ writes c = false := by
  cases c <;> first | exact ⟨rfl,rfl⟩ | exact absurd hc Bool.false_ne_true

theorem stands_old (h : Stands s S) {c : Call} (ha : Admitted S.names c) (hw : writes c = false)
    (hm : answer e c s = some (r,s')) (hnames : Represents s' (NameTree.act S.names c).2)
    (hlive : Live (NameTree.act S.names c).2 k) (hk : k ≠ s.count) :
    S.kind k = typeBits (s'.file k).metadata.stMode ∧
      S.image k = Contents.image (s'.file k) := by
  have hold : Live S.names k := by
    refine (live_act hlive).resolve_right (fun hnew => hk ?_)
    rw [hnew.2, h.names.next]
  obtain ⟨htype,hdata⟩ := (old_file h.names ha hw hm (fun hc => hk hc.1)).resolve_right
    (live_not_default hnames hlive)
  refine ⟨(h.kind k hold).trans htype.symm,?_⟩
  rw [h.image k hold, Contents.image, Contents.image, hdata]

theorem stands_spare (h : Stands s S) {c : Call} (ha : Admitted S.names c) (hw : writes c = false)
    (hm : answer e c s = some (r,s')) (hle : s.count ≤ s'.count) :
    ∀ k, s'.count ≤ k → k ≠ errIno → (s'.file k).data = [] := by
  intro k hk herr
  have hold : ¬ (k = s.count ∧ s'.count = s.count+1) := by
    rintro ⟨rfl,hcount⟩
    omega
  rcases old_file h.names ha hw hm hold with ⟨-,hdata⟩ | hgone
  · rw [hdata]
    exact h.spare k (hle.trans hk) herr
  · rw [hgone]
    rfl

theorem stands_new (h : Stands s S) {c : Call} {m : Mode} (hc : newKind c = some m)
    (hfits : ∀ target path, c = .symlink target path → '\x00' ∉ target ∧ target.length < 2^31)
    (hm : answer e c s = some (r,s')) (hnames : Represents s' (NameTree.act S.names c).2)
    (hlive : Live (NameTree.act S.names c).2 s.count) :
    m = typeBits (s'.file s.count).metadata.stMode ∧
      imageOf (newData c) = Contents.image (s'.file s.count) := by
  have hdead : ¬ Live S.names s.count := fun hl => lt_irrefl _ (live_made h.names hl).2.2
  have hnew : (newKind c).isSome = true := by rw [hc]; rfl
  have hempty : (s.file s.count).data = [] :=
    h.spare s.count le_rfl h.names.settled.fresh.ne_err
  have htype : m = typeBits (s'.file s.count).metadata.stMode := by
    rcases hlive with ⟨ws,m',hl⟩ | hpos
    · rcases act_label hl with ⟨us,hus⟩ | ⟨hkind,-⟩
      · exact absurd (Or.inl ⟨us,m',hus⟩) hdead
      · rw [hnames.label] at hl
        obtain ⟨x,-,hxk⟩ := Option.map_eq_some_iff.mp hl
        obtain ⟨rfl,rfl⟩ := Prod.mk.inj hxk
        exact Option.some.inj (hc.symm.trans hkind)
    · rw [act_opens _ (writes_of_new hnew).1] at hpos
      exact absurd (Or.inr hpos) hdead
  have hdata := new_file h.names hnew hfits hm hempty (by rw [hc, htype])
  refine ⟨htype,?_⟩
  rw [Contents.image, hdata, imageOf]

theorem written_answer (h : Stands s S) {c : Call} (ha : Allows S c) (hw : writes c = true)
    (hm : answer e c s = some (r,s')) (hs' : Settled s') :
    r = (S.act c).1 ∧ Stands s' (S.act c).2 := by
  have hq : quiet c = true ∧ KeepsType s.file c := by
    cases c <;> first | exact ⟨rfl,trivial⟩ | exact absurd hw Bool.false_ne_true
  have hcount := (quiet_follows h.names hq.1 hq.2 hm).1
  have hnames := (represents_answer h.names ha.1 hm hs').2
  rw [act_quiet _ hq.1] at hnames
  have hfits := ha.2
  cases c with
  | pwrite fh buf size offset =>
    obtain ⟨hlive,hsize,hword,hfit⟩ := hfits
    have hm' : myPwrite fh buf size offset s = some (r,s') := hm
    by_cases hreg : (s.file fh).isReg = true
    · rw [h.image fh hlive] at hfit
      obtain ⟨hret,hedit⟩ := pwrite_edits (live_made h.names hlive).1 hreg hsize hword hfit hm'
      rw [Store.act, if_pos ((h.isReg hlive).mpr hreg)]
      exact ⟨hret,stands_edit h hnames hlive hedit hcount⟩
    · have hkind : ¬ S.kind fh = S_IFREG := fun hk => hreg ((h.isReg hlive).mp hk)
      rw [Store.act, if_neg hkind]
      rcases myPwrite_some hm' with ⟨-,hret,hs'⟩ | ⟨-,hc,-⟩
      · exact ⟨hret,stands_same h hnames (by rw [hs', Fs.touch_file]) hcount⟩
      · exact absurd hc hreg
  | ftruncate fh offset =>
    obtain ⟨hlive,hword⟩ := hfits
    have h0 := (live_made h.names hlive).1
    refine stands_cut h hnames hlive hcount hword ?_
    rcases myFtruncate_some (Option.some.inj hm) with ⟨hbad,hret,hs'⟩ | ⟨-,hpos,hdir,hret,hs'⟩
    · refine Or.inl ⟨hbad.resolve_left h0,hret,?_⟩
      rw [hs']
      split_ifs
      · rfl
      · exact Fs.touch_file _ _
    · refine Or.inr ⟨hpos,hdir,hret,?_⟩
      rw [hs', Fs.modify_file, Fs.touch_file]
  | truncate path newsize =>
    obtain ⟨hdirect,hword⟩ := hfits
    have hv := h.names.orderly
    have hr := Direct.resolve hv h.names.label hdirect
    have hcase := myTruncate_some (Option.some.inj hm)
    rw [hr] at hcase
    rw [Store.act]
    cases hplace : place S.names.tree path with
    | none =>
      have hz := (place_none hv h.names.label).mp hplace
      obtain ⟨-,hret,hview⟩ := hcase.resolve_right (fun hc => hc.2.1 hz)
      exact ⟨hret,stands_same h hnames hview hcount⟩
    | some ws =>
      have hz := (place_some hv h.names.label hplace).1
      have hlabel := label_place hv h.names.label hplace
      simp only [Option.bind_some, hlabel]
      refine stands_cut h hnames (Or.inl ⟨ws,_,hlabel⟩) hcount hword ?_
      exact hcase.imp (fun ⟨hbad,hret,hview⟩ => ⟨hbad.imp_right (fun hc => hc.resolve_left hz),
        hret,hview⟩) (fun ⟨hpos,_,hdir,hret,hview⟩ => ⟨hpos,hdir,hret,hview⟩)
  | _ => exact absurd hw Bool.false_ne_true

def decided (c : Call) : Bool := !quiet c || writes c

/-- One call: the answer, where the store decides it, and the table. -/
theorem stands_answer (h : Stands s S) {c : Call} (ha : Allows S c)
    (hm : answer e c s = some (r,s')) (hs' : Settled s') :
    (decided c = true → r = (S.act c).1) ∧ Stands s' (S.act c).2 := by
  by_cases hw : writes c = true
  · obtain ⟨hret,hstands⟩ := written_answer h ha hw hm hs'
    exact ⟨fun _ => hret,hstands⟩
  have hw : writes c = false := by simpa using hw
  have hs := h.names.settled
  obtain ⟨hret,hnames⟩ := represents_answer h.names ha.1 hm hs'
  have hanswer : decided c = true → r = (act S.names c).1 := by
    intro hd
    rw [decided, hw, Bool.or_false, Bool.not_eq_true'] at hd
    exact hret hd
  obtain ⟨he,-⟩ := did_of_answer hs hm
  have hle := (numbers_effect hs.toNumbers hs.low he).2.1
  have hspare := stands_spare h ha.1 hw hm hle
  cases hc : newKind c with
  | none =>
    have hold : ∀ k, Live (act S.names c).2 k → k ≠ s.count := by
      intro k hk
      have hlive := (live_act hk).resolve_right (fun hnew => by
        rw [hc] at hnew
        exact Bool.false_ne_true hnew.1)
      exact Nat.ne_of_lt (live_made h.names hlive).2.2
    rw [act_rest hw hc]
    exact ⟨hanswer,hnames,fun k hk => (stands_old h ha.1 hw hm hnames hk (hold k hk)).1,
      fun k hk => (stands_old h ha.1 hw hm hnames hk (hold k hk)).2,hspare⟩
  | some m =>
    have hfits : ∀ target path, c = .symlink target path →
        '\x00' ∉ target ∧ target.length < 2^31 := by
      rintro target path rfl
      exact ha.2
    rw [act_new hc]
    refine ⟨hanswer,hnames,fun k hk => ?_,fun k hk => ?_,hspare⟩
    · change Function.update S.kind S.names.next m k = _
      rw [h.names.next]
      rcases eq_or_ne k s.count with rfl | hne
      · rw [Function.update_self]
        exact (stands_new h hc hfits hm hnames hk).1
      · rw [Function.update_of_ne hne]
        exact (stands_old h ha.1 hw hm hnames hk hne).1
    · change Function.update S.image S.names.next (imageOf (newData c)) k = _
      rw [h.names.next]
      rcases eq_or_ne k s.count with rfl | hne
      · rw [Function.update_self]
        exact (stands_new h hc hfits hm hnames hk).2
      · rw [Function.update_of_ne hne]
        exact (stands_old h ha.1 hw hm hnames hk hne).2

def text (c : Contents.Image) (off size : ℕ) : Str :=
  (List.range size).map (fun i => c.bytes (off+i))

theorem text_image {f : File} {off size : ℕ} (h : off+size ≤ f.data.length) :
    text (Contents.image f) off size = Bytes.requested f.data size off := by
  have hlen : (Bytes.requested f.data size off).length = size := by
    rw [Bytes.length_requested]
    omega
  refine List.ext_getElem (by rw [hlen, text, List.length_map, List.length_range]) ?_
  intro i hi hi'
  rw [hlen] at hi'
  have hat : off+i < f.data.length := by omega
  simp [text, Contents.image, extend, Bytes.requested, List.getD_eq_getElem?_getD, hat]

theorem text_whole (f : File) :
    text (Contents.image f) 0 (Contents.image f).length = f.data :=
  (text_image (Nat.zero_add _).le).trans (List.take_of_length_le le_rfl)

theorem pread_range {size off : ℕ} (hd : (s.file fh).isDir = false) (hpos : 0 < size)
    (hin : off+size ≤ (s.file fh).data.length) (hlen : (s.file fh).data.length < 2^31)
    (hnul : '\x00' ∉ Bytes.requested (s.file fh).data size off) :
    (myPread fh size off s).1 = .stored size (Bytes.requested (s.file fh).data size off) := by
  have hlast : ((off:ℕ):ℤ)+size-1 = ((off+size-1:ℕ):ℤ) := by omega
  rw [Bytes.requested] at hnul ⊢
  rw [Bytes.myPread_eq hd, Bytes.readOut, Contents.toInt32_natCast hlen, hlast,
    Contents.toU64_natCast (by omega), Contents.toU64_natCast (by omega),
    Contents.toU64_natCast (by omega), if_neg (by omega), if_neg (by omega), if_neg (by omega),
    Contents.toInt32_natCast (by omega), Contents.cstr_of_notMem hnul]

theorem readlink_target {size : ℕ} (h0 : real s.file path ≠ 0)
    (hl : (s.file (real s.file path)).isLnk = true)
    (hroom : (s.file (real s.file path)).data.length < size) (hsize : size < 2^31)
    (hnul : '\x00' ∉ (s.file (real s.file path)).data) :
    (myReadlink path size s).1 = .stored ok (s.file (real s.file path)).data := by
  set f := s.file (real s.file path) with hf
  have hread : Bytes.readOut f.data size 0 =
      .stored (if f.data.length < size-1 then f.data.length else size) f.data := by
    have hlast : (0:ℤ)+size-1 = ((size-1:ℕ):ℤ) := by omega
    rw [Bytes.readOut, Contents.toInt32_natCast (by omega), hlast,
      Contents.toU64_natCast (by omega), Contents.toU64_natCast (by omega), toU64_zero,
      if_neg (by omega), if_neg (by omega), List.drop_zero, List.take_of_length_le hroom.le,
      Contents.cstr_of_notMem hnul, Int.sub_zero, Contents.toInt32_natCast (by omega),
      Contents.toInt32_natCast (by omega)]
    split_ifs <;> rfl
  have hd : ((s.touch (real s.file path)).file (real s.file path)).isDir = false := by
    rw [Fs.touch_file]
    exact isDir_of_isLnk hl
  have hout := Bytes.myPread_eq hd size 0
  rw [Fs.touch_file, ← hf, hread] at hout
  simp only [myReadlink, findRealIno_eq, h0, if_false, Fs.touch_file, ← hf, hl,
    Bool.true_eq_false]
  generalize myPread (real s.file path) size 0 (s.touch (real s.file path)) = x at hout
  obtain ⟨out,t⟩ := x
  obtain rfl : out = _ := hout
  refine congrArg Prod.fst (if_neg ?_)
  split_ifs <;> rw [anErr] <;> omega

def start : Store := ⟨NameRuns.start,fun _ => S_IFDIR,fun _ => imageOf []⟩

noncomputable def storeNext (S : Store) (l : Label) : Store := (S.act l.2).2

noncomputable def storeAfter (ls : List Label) : Store := ls.foldl storeNext start

def allows (l : Label) (S : Store) : Prop := Allows S l.2

theorem start_stands (env : Env) : Stands (initialized env) start := by
  obtain ⟨-,-,-,hview⟩ := initialized_eq env
  have hnames := start_represents env
  have hempty : ∀ k, ((initialized env).file k).data = [] := by
    intro k
    rw [hview]
    rcases eq_or_ne k 2 with rfl | hne
    · rw [rootView_root]
      rfl
    · rw [rootView_other env hne]
      rfl
  refine ⟨hnames,fun k hk => ?_,fun k _ => ?_,fun k _ _ => hempty k⟩
  · have hne := live_not_default hnames hk
    rw [hview] at hne ⊢
    have h2 : k = 2 := by
      by_contra h2
      exact hne (rootView_other env h2)
    rw [h2, rootView_root, rootFile_type]
    rfl
  · rw [Contents.image, hempty]
    rfl

theorem stands_step (l : Label) (s : Fs) (S : Store) (s' : Fs) (h : Stands s S)
    (ha : allows l S) (hm : advance l s = some s') : Stands s' (storeNext S l) := by
  obtain ⟨hs',r,hr,-⟩ := advance_effect h.names.settled hm
  exact (stands_answer h ha hr hs').2

theorem Stands.found (h : Stands s S) (path : Str) :
    (place S.names.tree path).bind S.names.tree.label =
      if (findRealIno path s).1 = 0 then none else
        some ((findRealIno path s).1,S.kind (findRealIno path s).1) := by
  have hfound := found_place h.names path
  by_cases h0 : (findRealIno path s).1 = 0
  · rw [hfound, if_pos h0, if_pos h0]
  · rw [if_neg h0] at hfound ⊢
    obtain ⟨ws,-,hl⟩ := Option.bind_eq_some_iff.mp hfound
    rw [hfound, h.kind _ (Or.inl ⟨ws,_,hl⟩)]

theorem Stands.linked (h : Stands s S) {path : Str} {k : ℕ} (size : ℕ)
    (hplace : (place S.names.tree path).bind S.names.tree.label = some (k,S_IFLNK))
    (hroom : (S.image k).length < size) (hsize : size < 2^31)
    (hnul : '\x00' ∉ text (S.image k) 0 (S.image k).length) :
    (myReadlink path size s).1 = .stored ok (text (S.image k) 0 (S.image k).length) := by
  have hfound := h.found path
  rw [hplace, findRealIno_eq] at hfound
  split_ifs at hfound with h0
  obtain ⟨hk,hkind⟩ := Prod.mk.inj (Option.some.inj hfound)
  obtain ⟨ws,-,hl⟩ := Option.bind_eq_some_iff.mp hplace
  have hlive : Live S.names k := Or.inl ⟨ws,_,hl⟩
  rw [h.image k hlive] at hroom hnul ⊢
  rw [text_whole] at hnul ⊢
  subst hk
  refine readlink_target h0 ?_ hroom hsize hnul
  rw [File.isLnk, S_ISLNK_eq, ← h.kind _ hlive, ← hkind]
  decide

theorem Stands.read (h : Stands s S) {k : ℕ} (off size : ℕ) (hk : Live S.names k)
    (hkind : S.kind k ≠ S_IFDIR) (hpos : 0 < size) (hin : off+size ≤ (S.image k).length)
    (hlen : (S.image k).length < 2^31) (hnul : '\x00' ∉ text (S.image k) off size) :
    (myPread k size off s).1 = .stored size (text (S.image k) off size) := by
  rw [h.image k hk] at hin hlen hnul ⊢
  rw [text_image hin] at hnul ⊢
  have hd : (s.file k).isDir = false := by
    rw [← Bool.not_eq_true, ← h.isDir hk]
    exact hkind
  exact pread_range hd hpos hin hlen hnul

/-- What is asked of the table by paths that do not name dots is answered by the
store, whatever is lost of the dots. -/
structure Answers (s : Fs) (S : Store) : Prop where
  found : ∀ path, dot ∉ segments path → path.length < 2^31 → ∃ fh, Finds s path fh ∧
    (place S.names.tree path).bind S.names.tree.label =
      if fh = 0 then none else some (fh,S.kind fh)
  kept : ∀ k, Live S.names k → S.kind k = typeBits (s.file k).metadata.stMode ∧
    S.image k = Contents.image (s.file k)
  read : ∀ k off size, Live S.names k → S.kind k ≠ S_IFDIR → 0 < size →
    off+size ≤ (S.image k).length → (S.image k).length < 2^31 →
    '\x00' ∉ text (S.image k) off size →
    (myPread k size off s).1 = .stored size (text (S.image k) off size)
  linked : ∀ path k size, dot ∉ segments path → path.length < 2^31 →
    (place S.names.tree path).bind S.names.tree.label = some (k,S_IFLNK) →
    (S.image k).length < size → size < 2^31 → '\x00' ∉ text (S.image k) 0 (S.image k).length →
    ∀ m, Spares m → ∃ fuel t, FreedCopy.myReadlink m fuel path size s =
      some (.stored ok (text (S.image k) 0 (S.image k).length), t)
  decides : ∀ l r s', decided l.2 = true → allows l S → Undotted l.2 → advance l s = some s' →
    answer l.1 l.2 s = some (r,s') → r = (S.act l.2).1

theorem stands_answers (h : Stands s S) : Answers s S where
  found := by
    intro path hdot hlen
    have hplace := h.found path
    rw [findRealIno_eq] at hplace
    exact ⟨_,finds_real hdot hlen,hplace⟩
  kept := fun k hk => ⟨h.kind k hk,h.image k hk⟩
  read := fun _ => h.read
  linked := by
    intro path k size hdot hlen hplace hroom hsize hnul m hm
    obtain ⟨fuel,hfuel⟩ := finds_real (s := s) hdot hlen m hm
    have hread := h.linked size hplace hroom hsize hnul
    refine ⟨fuel,(myReadlink path size s).2,?_⟩
    rw [myReadlink_found hfuel, ← hread]
  decides := by
    intro l r s' hd ha _ hm hr
    exact (stands_answer h ha hr (advance_effect h.names.settled hm).1).1 hd

def keptCalls : List Call :=
  [.creat ['/','f'] 0o644#32,.openFile ['/','f'] 0,.pwrite 3 ['a','b','c'] 3 0,.unlink ['/','f']]

end Bbfs.StoreRuns
