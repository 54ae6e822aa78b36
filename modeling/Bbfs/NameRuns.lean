import Bbfs.FreedCopy
import Bbfs.NameCalls

/-!
# Runs of the tree of names

A run may mix calls on names, calls that leave the names alone, opens of files
and closes of what is open. The table stands for the tree after every call. The
entry `.` may be lost when it is read, so what is said of paths is said of those
without it.
-/

set_option autoImplicit false

namespace Bbfs.NameRuns
open Bbfs.Strings Bbfs.Files Bbfs.Resolve Bbfs.Calls Bbfs.Session Bbfs.Walks Bbfs.Effects
open Bbfs.Outcomes Bbfs.Numbers Bbfs.Directories Bbfs.DotEntries Bbfs.Tally Bbfs.Tree Bbfs.Names
open Bbfs.Placement Bbfs.Dangling Bbfs.Normal Bbfs.Quiet Bbfs.Opens Bbfs.Listing Bbfs.PathTree
open Bbfs.NameTree Bbfs.NameViews Bbfs.NameCalls Bbfs.Runs
open Bbfs.FreedCopy (Finds finds_real)

variable {N : NameTree.Names} {v : View} {n k : ℕ} {ws us : List Str} {path : Str} {env e : Env}
  {s s' : Fs} {r : ℤ} {a : Place}

theorem act_quiet (N : NameTree.Names) {c : Call} (hq : quiet c = true) : (act N c).2 = N := by
  cases c <;> first | rfl | exact absurd hq Bool.false_ne_true

theorem quiet_follows (h : Represents s N) {c : Call} (hq : quiet c = true)
    (hk : KeepsType s.file c) (hm : answer e c s = some (r,s')) :
    s'.count = s.count ∧ ∀ ws, labelAt s'.file ws = labelAt s.file ws := by
  obtain ⟨he,-⟩ := did_of_answer h.settled hm
  have hshape := quiet_effect hq hk he
  refine ⟨Effect.spends_none he (created_of_quiet hq),label_frame (fun k _ => ⟨?_,hshape.type k⟩)⟩
  funext u
  rw [child, child, hshape.nameIn]

theorem made_of_reached (hv : Orderly v n) (h : Reached v k) (h2 : k ≠ 2) : Made v k := by
  cases h with
  | root => exact absurd rfl h2
  | child before holds =>
    obtain ⟨hd,d,hm,-,rfl⟩ := holds
    exact hv.made _ before hd d hm

theorem opened_place (h : Represents s N) (ha : Direct N.tree path)
    (hl : (place N.tree path).bind N.tree.label = some a) (hd : a.2 ≠ S_IFDIR) :
    resolve s.file path = a.1 ∧ a.1 ≠ 2 ∧ Made s.file a.1 ∧ (s.file a.1).isDir = false := by
  have hv := h.orderly
  obtain ⟨ws,hws,hlabel⟩ := Option.bind_eq_some_iff.mp hl
  rw [label_place hv h.label hws] at hlabel
  obtain rfl := Option.some.inj hlabel
  have hfile : (s.file (real s.file path)).isDir = false := by
    rw [File.isDir, S_ISDIR_eq, beq_eq_false_iff_ne]
    exact hd
  have h2 : real s.file path ≠ 2 := by
    intro h2
    rw [h2, h.root] at hfile
    exact Bool.false_ne_true hfile.symm
  exact ⟨Direct.resolve hv h.label ha,h2,
    made_of_reached hv (reached_of_find (place_some hv h.label hws).2) h2,hfile⟩

theorem open_follows (h : Represents s N) {flags : ℕ}
    (ha : AllowedOpen N (.openFile path flags)) (hm : answer e (.openFile path flags) s = some (r,s')) :
    r = (act N (.openFile path flags)).1 ∧ s'.count = s.count ∧
      Held (Finset.range (2^31)) (act N (.openFile path flags)).2.opens s'.file ∧
      ∀ ws, labelAt s'.file ws = labelAt s.file ws := by
  obtain ⟨hdirect,a,hl,hd⟩ := ha
  obtain ⟨hr,h2,hmade,hfile⟩ := opened_place h hdirect hl hd
  have hm' : myOpen e path flags s = (r,s') := Option.some.inj hm
  rw [myOpen_eq, hr] at hm'
  obtain ⟨hret,hs'⟩ := Prod.mk.inj hm'
  have hview : s'.file = put s.file a.1 (File.setStat incNlink) := by
    rw [← hs', Fs.modify_file, Fs.touch_file]
  have hlt : a.1 < 2^31 := by
    have hhigh := h.settled.high
    rcases h.settled.numbered a.1 with hz | ⟨-,hlt⟩
    · exact absurd (hmade.2.symm.trans hz) hmade.1
    · omega
  simp only [act, hl]
  rw [← hret, hview]
  refine ⟨toInt32_of_range (by omega) (by omega),by rw [← hs']; rfl,
    held_open h.held h2 hmade hfile,fun ws => ?_⟩
  exact label_nlink s.file a.1 (g := incNlink) (fun _ => rfl) ws

theorem myClose_file {fh : ℕ} (h0 : fh ≠ 0) (h : myClose fh s = (r,s')) :
    s'.file = dropLink s.file fh := by
  obtain ⟨-,hs'⟩ := myClose_some h0 h
  rw [hs', dropLink]
  split_ifs
  · simp [put]
  · simp

theorem close_follows (h : Represents s N) {fh : ℕ} (ha : 0 < N.opens fh)
    (hm : answer e (.close fh) s = some (r,s')) :
    r = ok ∧ s'.count = s.count ∧
      Held (Finset.range (2^31)) (Function.update N.opens fh (N.opens fh-1)) s'.file ∧
      ∀ ws, labelAt s'.file ws = labelAt s.file ws := by
  obtain ⟨h2,hmade,hfile,-⟩ := h.held.opened fh ha
  have hm' : myClose fh s = (r,s') := Option.some.inj hm
  obtain ⟨hret,hs'⟩ := myClose_some hmade.1 hm'
  have hview := myClose_file hmade.1 hm'
  have hcount : s'.count = s.count := by
    rw [hs']
    split_ifs <;> rfl
  have hdir : ∀ k, (s.file k).isDir = true → k ∈ Finset.range (2^31) :=
    fun k hk => mem_low (Nat.lt_of_lt_of_le (h.orderly.dots.dirs.lt h.settled.toNumbers hk).2
      h.settled.high)
  obtain ⟨hheld,hunnamed⟩ := held_close h.held hdir ha
  rw [hview]
  refine ⟨hret,hcount,hheld,fun ws => ?_⟩
  by_cases hl : LastLink s.file fh
  · -- a file that goes is reached no more
    rw [dropLink, if_pos hl]
    refine label_frame (fun k hk => ?_) ws
    have hne : k ≠ fh := by
      rintro rfl
      cases hk with
      | root => exact h2 rfl
      | child before holds =>
        obtain ⟨hd,d,hmem,-,hi⟩ := holds
        exact hunnamed hl _ (h.held.plain.sound.placed (visible_of_reached before) hd) d hmem hi
    rw [Function.update_of_ne hne]
    exact ⟨funext fun u => child_congr (by rw [Function.update_of_ne hne])
      (by rw [Function.update_of_ne hne]),rfl⟩
  · rw [dropLink, if_neg hl]
    exact label_nlink s.file fh (g := decNlink) (fun _ => rfl) ws

theorem named_root (T : PlaceTree) (path : Str) (a : Place) :
    (named T path a).label [] = T.label [] := by
  unfold named
  split_ifs
  · exact Tree.grow_ne a (by simp)
  · rfl

theorem act_root (N : NameTree.Names) (c : Call) :
    (act N c).2.tree.label [] = N.tree.label [] := by
  cases c with
  | mkdir path mode => rw [act]; split_ifs; exact named_root _ _ _; rfl
  | creat path mode => rw [act]; split_ifs; rfl; exact named_root _ _ _; rfl
  | symlink target path => rw [act]; split_ifs; rfl; exact named_root _ _ _; rfl
  | link path newpath => rw [act]; split; split_ifs; exact named_root _ _ _; rfl; rfl
  | unlink path => rw [act]; split; split_ifs; rfl; exact Tree.cut_root; rfl
  | rmdir path => rw [act]; split; split_ifs; exact Tree.cut_root; rfl; rfl
  | rename path newpath => rw [act]; split_ifs; rfl; split; exact Tree.move_root; rfl
  | openFile path flags => rw [act]; split <;> rfl
  | _ => rfl

theorem act_opens (N : NameTree.Names) {c : Call} (hc : c.isNamespace = true) :
    (act N c).2.opens = N.opens := by
  cases c with
  | mkdir path mode => rw [act]; split_ifs <;> rfl
  | creat path mode => rw [act]; split_ifs <;> rfl
  | symlink target path => rw [act]; split_ifs <;> rfl
  | link path newpath => rw [act]; split; split_ifs <;> rfl; rfl
  | unlink path => rw [act]; split; split_ifs <;> rfl; rfl
  | rmdir path => rw [act]; split; split_ifs <;> rfl; rfl
  | rename path newpath => rw [act]; split_ifs; rfl; split <;> rfl
  | _ => exact absurd hc Bool.false_ne_true

/-- One call: the answer, where the tree decides it, and the table. -/
theorem represents_answer (h : Represents s N) {c : Call} (ha : Admitted N c)
    (hm : answer e c s = some (r,s')) (hs' : Settled s') :
    (quiet c = false → r = (act N c).1) ∧ Represents s' (act N c).2 := by
  have hv := h.orderly
  obtain ⟨he,-⟩ := did_of_answer h.settled hm
  have hs := h.settled
  have hmain : (quiet c = false → r = (act N c).1) ∧ (act N c).2.next = s'.count ∧
      Held (Finset.range (2^31)) (act N c).2.opens s'.file ∧
      ∀ ws, (act N c).2.tree.label ws = labelAt s'.file ws := by
    rcases ha with ha | ha
    · rcases allowed_cases ha with hc | hq
      · obtain ⟨hkeeps,hdots⟩ := keeps_of_allowed h.lower_orderly h.label hc ha
        have hheld := held_effect h.held hs.toNumbers hs.fresh hs.low
          (numbers_effect hs.toNumbers hs.low he).2.1 hs'.high (fun _ => mem_low) hc hkeeps hdots he
        have hv' := orderly_of_standing hheld.plain hs'.toNumbers hs'.fresh hs'.high
          (fun _ => mem_low)
        obtain ⟨hret,hnext,hlabel⟩ := follows h hc ha r s' hm hv'
        exact ⟨fun _ => hret,hnext,(act_opens N hc).symm ▸ hheld,hlabel⟩
      · have htype := keepsType_of_allowed hv h.label ha
        obtain ⟨hcount,hsame⟩ := quiet_follows h hq htype hm
        rw [act_quiet N hq, hq]
        exact ⟨fun hc => absurd hc.symm Bool.false_ne_true,h.next.trans hcount.symm,
          held_quiet h.held (quiet_effect hq htype he),
          fun ws => (h.label ws).trans (hsame ws).symm⟩
    · cases c with
      | openFile path flags =>
        obtain ⟨hret,hcount,hheld,hsame⟩ := open_follows h ha hm
        have htree : (act N (.openFile path flags)).2.tree = N.tree ∧
            (act N (.openFile path flags)).2.next = N.next := by
          rw [act]
          split <;> exact ⟨rfl,rfl⟩
        rw [htree.1, htree.2]
        exact ⟨fun _ => hret,h.next.trans hcount.symm,hheld,
          fun ws => (h.label ws).trans (hsame ws).symm⟩
      | close fh =>
        obtain ⟨hret,hcount,hheld,hsame⟩ := close_follows h ha hm
        exact ⟨fun _ => hret,h.next.trans hcount.symm,hheld,
          fun ws => (h.label ws).trans (hsame ws).symm⟩
      | _ => exact absurd ha id
  obtain ⟨hret,hnext,hheld,hlabel⟩ := hmain
  refine ⟨hret,hs',hheld,?_,hnext,hlabel⟩
  have hroot := (typeAt_dir h.label (find_nil 2 (child s.file))).mpr h.root
  rw [typeAt, ← act_root N c] at hroot
  exact (typeAt_dir hlabel (find_nil 2 (child s'.file))).mp hroot

def start : NameTree.Names := ⟨Tree.leaf (2,S_IFDIR),3,fun _ => 0⟩

noncomputable def namesNext (N : NameTree.Names) (l : Label) : NameTree.Names := (act N l.2).2

noncomputable def namesAfter (ls : List Label) : NameTree.Names := ls.foldl namesNext start

def admits (l : Label) (N : NameTree.Names) : Prop := Admitted N l.2

/-- The paths that a call resolves, and the one that a link will lead by. -/
def pathsOf : Call → List Str
  | .lstat path | .mknod path _ _ | .mkdir path _ | .creat path _ | .unlink path | .rmdir path
  | .readlink path _ | .access path _ | .chmod path _ | .chown path _ _
  | .utime path _ | .openFile path _ | .statvfs path _ | .lsetxattr path _ _
  | .lgetxattr path _ _ | .llistxattr path _ | .lremovexattr path _ | .truncate path _
  | .opendir path => [path]
  | .symlink path newpath | .link path newpath | .rename path newpath => [path,newpath]
  | _ => []

def Undotted (c : Call) : Prop := ∀ path ∈ pathsOf c, dot ∉ segments path ∧ path.length < 2^31

instance (c : Call) : Decidable (Undotted c) := inferInstanceAs (Decidable (∀ _ ∈ _, _))

theorem start_represents (env : Env) : Represents (initialized env) start := by
  obtain ⟨hcount,-,-,hview⟩ := initialized_eq env
  have hroot : rootView env 2 = rootFile env := Function.update_self ..
  have hnone : ∀ u, child (rootView env) 2 u = none := by
    intro u
    refine if_neg ?_
    rintro ⟨-,hu,hsome⟩
    rcases nameIn_origin (v := rootView env) u 2 with hz | ⟨-,d,hm,hn,-⟩
    · exact hsome hz
    · exact hu (hn ▸ rootView_dots env 2 d hm)
  have hopened : Opened (fun _ => 0) (initialized env).file :=
    fun k hk => absurd hk (lt_irrefl 0)
  refine ⟨initialized_settled env,⟨⟨initialized_kept env,?_⟩,hopened⟩,?_,hcount.symm,fun ws => ?_⟩
  · rw [hview]
    exact rootView_dotsRight env
  · rw [hview, hroot]
    exact rootFile_isDir env
  · rw [hview, labelAt, find_leaf hnone]
    change (if ws = [] then some (2,S_IFDIR) else none) = _
    split_ifs
    · rw [Option.map_some, hroot, rootFile_type]
    · rfl

theorem represents_step (l : Label) (s : Fs) (N : NameTree.Names) (s' : Fs)
    (h : Represents s N) (ha : admits l N) (hm : advance l s = some s') :
    Represents s' (namesNext N l) := by
  obtain ⟨hs',r,hr,-⟩ := advance_effect h.settled hm
  exact (represents_answer h ha hr hs').2

theorem found_place (h : Represents s N) (path : Str) :
    (place N.tree path).bind N.tree.label =
      if (findRealIno path s).1 = 0 then none else
        some ((findRealIno path s).1,
          typeBits (s.file (findRealIno path s).1).metadata.stMode) := by
  have hv := h.orderly
  rw [findRealIno_eq]
  cases hplace : place N.tree path with
  | none => rw [Option.bind_none, if_pos ((place_none hv h.label).mp hplace)]
  | some ws =>
    rw [Option.bind_some, if_neg (place_some hv h.label hplace).1, label_place hv h.label hplace]

/-- A run of admitted calls from the start-up, by paths that name no dot, goes as
the tree of names says. After it such a path leads to the file that the tree has at
the names it leads to, and to none where it leads nowhere, whatever is lost of the
dots; a directory has one place; and the next call admitted that edits names, opens
or closes returns what the tree decides. -/
theorem calls_refine_names {ls : List Label}
    (h : Meets (fun l N => some (namesNext N l)) (fun l N => admits l N ∧ Undotted l.2) ls start)
    (he : exec advance ls (initialized env) = some s) :
    (∀ path, dot ∉ segments path → path.length < 2^31 → ∃ fh, Finds s path fh ∧
      (place (namesAfter ls).tree path).bind (namesAfter ls).tree.label =
        if fh = 0 then none else some (fh,typeBits (s.file fh).metadata.stMode)) ∧
    (∀ ws us k, (namesAfter ls).tree.label ws = some (k,S_IFDIR) →
      (namesAfter ls).tree.label us = some (k,S_IFDIR) → ws = us) ∧
    ∀ l r s', quiet l.2 = false → admits l (namesAfter ls) → Undotted l.2 →
      advance l s = some s' → answer l.1 l.2 s = some (r,s') →
      r = (act (namesAfter ls) l.2).1 := by
  have hrep : Represents s (namesAfter ls) :=
    exec_follows represents_step ls (start_represents env) (h.mono (fun _ _ => And.left)) he
  have hv := hrep.orderly
  refine ⟨fun path hdot hlen => ?_,fun ws us k hws hus => ?_,fun l r s' hq ha _ hm hr => ?_⟩
  · refine ⟨_,finds_real hdot hlen,?_⟩
    have hplace := found_place hrep path
    rwa [findRealIno_eq] at hplace
  · have hfound : ∀ vs, (namesAfter ls).tree.label vs = some (k,S_IFDIR) →
        PathTree.find 2 (child s.file) vs = some k ∧ (s.file k).isDir = true := by
      intro vs hvs
      rw [hrep.label] at hvs
      obtain ⟨x,hx,hxk⟩ := Option.map_eq_some_iff.mp hvs
      obtain ⟨rfl,htype⟩ := Prod.mk.inj hxk
      exact ⟨hx,by rw [File.isDir, S_ISDIR_eq, htype]; decide⟩
    obtain ⟨hfind,hd⟩ := hfound us hus
    exact (hv.find_iff hfind hd ws).mp (hfound ws hws).1
  · exact (represents_answer hrep ha hr (advance_effect hrep.settled hm).1).1 hq

def movedCalls : List Call :=
  [.mkdir ['/','d'] 0o755#32,.chmod ['/','d'] 0o700#32,.rename ['/','d'] ['/','e']]

theorem calls_refine_names_run :
    (place (namesAfter (plain movedCalls)).tree ['/','e']).bind
      (namesAfter (plain movedCalls)).tree.label = some (3,S_IFDIR) := by
  have hmade : (namesNext start (plainEnv,.mkdir ['/','d'] 0o755#32)).tree =
      start.tree.grow [['d']] (3,S_IFDIR) := by
    have hvacant : Vacant start.tree ['/','d'] := by decide
    have hdir : InDirectory start.tree ['/','d'] := by decide
    rw [namesNext, act, if_pos hvacant]
    change named start.tree ['/','d'] (3,S_IFDIR) = _
    rw [named, if_pos hdir]
    rfl
  have hd : (start.tree.grow [['d']] (3,S_IFDIR)).label [['d']] = some (3,S_IFDIR) :=
    Tree.grow_self _ ⟨by decide,by decide,by decide⟩
  have hroot : (start.tree.grow [['d']] (3,S_IFDIR)).label [] = some (2,S_IFDIR) :=
    Tree.grow_ne _ (by decide)
  have hplace : place (start.tree.grow [['d']] (3,S_IFDIR)) ['/','d'] = some [['d']] := by
    have hsegs : segments ['/','d'] = [[],['d']] := by decide
    simp [place, hsegs, enter, typeAt, hroot, hd, dot, dotdot]
  have hdirect : Direct (start.tree.grow [['d']] (3,S_IFDIR)) ['/','d'] := by
    rw [Direct, hplace, Option.bind_some, typeAt, hd]
    decide
  have hparent : place (start.tree.grow [['d']] (3,S_IFDIR)) (parentPath ['/','e']) = some [] := by
    have hsegs : segments (parentPath ['/','e']) = [[]] := by decide
    simp [place, hsegs, enter]
  have hmeets : Meets (fun l N => some (namesNext N l)) (fun l N => admits l N ∧ Undotted l.2)
      (plain movedCalls) start := by
    refine ⟨⟨Or.inl ⟨by decide,by decide,by decide⟩,by decide⟩,⟨Or.inl ?_,by decide⟩,
      ⟨Or.inl ?_,by decide⟩,trivial⟩
    · change Allowed (namesNext start (plainEnv,.mkdir ['/','d'] 0o755#32)).tree _
      rw [hmade]
      refine ⟨hdirect,fun ws hws => Or.inr ⟨?_,by decide⟩⟩
      rw [← Option.some.inj (hplace.symm.trans hws), typeAt, hd]
      rfl
    · change Allowed (namesNext start (plainEnv,.mkdir ['/','d'] 0o755#32)).tree _
      rw [hmade]
      refine fun _ => ⟨hdirect,by decide,by decide,by decide,[['d']],[],hplace,hparent,?_,?_⟩
      · rw [typeAt, hroot]
        rfl
      · exact fun _ => rfl
  obtain ⟨fh,hfinds,hfound⟩ := (calls_refine_names hmeets (exec_after (by decide +kernel))).1
    ['/','e'] (by decide) (by decide)
  rw [hfound, hfinds.eq_real (by decide)]
  decide +kernel

end Bbfs.NameRuns
