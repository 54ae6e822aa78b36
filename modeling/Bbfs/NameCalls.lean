import Bbfs.NameViews

/-!
# Calls on names

A call on names that `Allowed` admits keeps the table in line with the tree of
names: it returns what the tree says and changes the table as the tree.
-/

set_option autoImplicit false

namespace Bbfs.NameCalls
open Bbfs.Strings Bbfs.Files Bbfs.Resolve Bbfs.Calls Bbfs.Session Bbfs.Walks Bbfs.Effects
open Bbfs.Outcomes Bbfs.Numbers Bbfs.Directories Bbfs.DotEntries Bbfs.Tally Bbfs.Tree Bbfs.Names
open Bbfs.Placement Bbfs.Dangling Bbfs.Normal Bbfs.Quiet Bbfs.Opens Bbfs.Listing Bbfs.PathTree
open Bbfs.NameTree Bbfs.NameViews Bbfs.Runs

variable {T : PlaceTree} {N : NameTree.Names} {v w : View} {n k P Q i : ℕ} {ws us : List Str}
  {path newpath name newname : Str} {e : Env} {s s' : Fs} {r : ℤ} {a : Place}

theorem place_last (h0 : tail path ≠ []) (hn : ¬ IsDots (tail path)) (h : place T path = some ws) :
    ∃ us, place T (parentPath path) = some us ∧ typeAt T us = some S_IFDIR ∧
      ws = us++[tail path] := by
  rw [place_parentPath] at h
  obtain ⟨us,hus,henter⟩ := Option.bind_eq_some_iff.mp h
  rw [enter_plain h0 hn] at henter
  split_ifs at henter with hc
  exact ⟨us,hus,hc.1,(Option.some.inj henter).symm⟩

theorem Vacant.free (h : Vacant T path) (hd : InDirectory T path) :
    ∃ us, place T (parentPath path) = some us ∧ typeAt T us = some S_IFDIR ∧ tail path ≠ [] ∧
      ¬ IsDots (tail path) ∧ T.label (us++[tail path]) = none := by
  obtain ⟨us,hus,hdir⟩ := Option.bind_eq_some_iff.mp hd
  have hnone := h.2
  rw [place_parentPath, hus, Option.bind_some] at hnone
  have h0 : tail path ≠ [] := by
    intro h0
    rw [enter, if_pos h0] at hnone
    exact Option.some_ne_none _ hnone
  have hn : ¬ IsDots (tail path) := by
    intro hdots
    rw [enter, if_neg h0, if_neg (not_not.mpr hdir)] at hnone
    rcases hdots with h1 | h2
    · rw [if_pos h1] at hnone
      exact Option.some_ne_none _ hnone
    · rw [h2, if_neg (by decide), if_pos rfl] at hnone
      exact Option.some_ne_none _ hnone
  refine ⟨us,hus,hdir,h0,hn,?_⟩
  rw [enter_plain h0 hn] at hnone
  by_contra hl
  rw [if_pos ⟨hdir,Option.isSome_iff_ne_none.mpr hl⟩] at hnone
  exact Option.some_ne_none _ hnone

theorem named_grows (h : Vacant T path) (hd : InDirectory T path)
    (hus : place T (parentPath path) = some us) (a : Place) :
    named T path a = T.grow (us++[tail path]) a ∧ T.CanGrow (us++[tail path]) := by
  obtain ⟨us',hus',hdir,-,-,hfree⟩ := Vacant.free h hd
  obtain rfl := Option.some.inj (hus.symm.trans hus')
  refine ⟨?_,by simp,hfree,?_⟩
  · rw [named, if_pos hd, hus, Option.getD_some]
  · obtain ⟨b,hb,-⟩ := Option.map_eq_some_iff.mp hdir
    rw [List.dropLast_concat, hb]
    rfl

section
variable (hv : Orderly v n) (hT : ∀ ws, T.label ws = labelAt v ws)
include hv hT

theorem typeAt_place (h : place T path = some ws) :
    typeAt T ws = some (typeBits (v (real v path)).metadata.stMode) := by
  rw [typeAt, hT, label_find (place_some hv hT h).2]
  rfl

theorem Direct.resolve (h : Direct T path) : resolve v path = real v path := by
  by_cases h0 : real v path = 0
  · exact resolve_not_lnk (h0 ▸ hv.zero.2)
  · obtain ⟨ws,hws⟩ := exists_place hv hT h0
    apply resolve_not_lnk
    rw [Direct, hws, Option.bind_some, typeAt_place hv hT hws] at h
    rw [File.isLnk, S_ISLNK_eq, beq_eq_false_iff_ne]
    exact fun hl => h (congrArg some hl)

theorem vacant_iff :
    Vacant T path ↔ real v (parentPath path) ≠ 0 ∧ real v path = 0 := by
  rw [Vacant, place_none hv hT, ← Option.ne_none_iff_isSome, Ne, place_none hv hT]

theorem inDirectory_iff : InDirectory T path ↔ (v (real v (parentPath path))).isDir = true := by
  rw [InDirectory]
  by_cases h0 : real v (parentPath path) = 0
  · rw [(place_none hv hT).mpr h0, h0, hv.zero.1]
    exact iff_of_false nofun Bool.false_ne_true
  · obtain ⟨us,hus⟩ := exists_place hv hT h0
    rw [hus, Option.bind_some]
    exact typeAt_dir hT (place_some hv hT hus).2

theorem real_last (h0 : tail path ≠ []) (hn : ¬ IsDots (tail path)) (h : place T path = some ws) :
    ∃ us, place T (parentPath path) = some us ∧ ws = us++[tail path] ∧
      PathTree.find 2 (child v) us = some (resolve v (parentPath path)) ∧
      (v (resolve v (parentPath path))).isDir = true ∧
      child v (resolve v (parentPath path)) (tail path) = some (real v path) := by
  obtain ⟨us,hus,hdir,rfl⟩ := place_last h0 hn h
  have hfind := (place_some hv hT hus).2
  have hd := (typeAt_dir hT hfind).mp hdir
  have hlast := (place_some hv hT h).2
  rw [find_concat, hfind, Option.bind_some] at hlast
  rw [resolve_dir hd]
  exact ⟨us,hus,rfl,hfind,hd,hlast⟩

theorem vacant_entry (hgo : Vacant T path)
    (hd : (v (real v (parentPath path))).isDir = true) :
    ∃ us, place T (parentPath path) = some us ∧
      PathTree.find 2 (child v) us = some (real v (parentPath path)) ∧ tail path ≠ [] ∧
      ¬ IsDots (tail path) ∧ child v (real v (parentPath path)) (tail path) = none := by
  obtain ⟨us,hus,-,h0,hn,hfree⟩ := Vacant.free hgo ((inDirectory_iff hv hT).mpr hd)
  have hfind := (place_some hv hT hus).2
  rw [hT, labelAt, find_concat, hfind, Option.bind_some] at hfree
  exact ⟨us,hus,hfind,h0,hn,Option.map_eq_none_iff.mp hfree⟩

end

theorem last_entry (hv : Orderly v n) (hc : child v P name = some i) :
    (v P).isDir = true ∧ nameIn v name P = i ∧ i ≠ 0 ∧ under name (v P) = [i] ∧ Holds v P i := by
  have hd := isDir_of_child hc
  obtain ⟨-,hn,hname,hi0⟩ := child_some.mp hc
  obtain ⟨-,-,-,-,hh⟩ := holds_of_nameIn hn (hname ▸ hi0)
  exact ⟨hd,hname,hi0,under_named hv hd hname hi0,hname ▸ hh⟩

section
variable (hv : Orderly v n) (hT : ∀ ws, T.label ws = labelAt v ws)
include hv hT

theorem adds_free (hp : Direct T (parentPath path)) (hd : Direct T path)
    (hgo : resolve v (parentPath path) ≠ 0 ∧ resolve v path = 0)
    (hdir : (v (resolve v (parentPath path))).isDir = true) :
    ¬ IsDots (tail path) ∧ tail path ∉ Names.names (v (resolve v (parentPath path))) := by
  rw [Direct.resolve hv hT hp, Direct.resolve hv hT hd] at hgo
  rw [Direct.resolve hv hT hp] at hdir ⊢
  obtain ⟨us,-,hfind,h0,hn,hchild⟩ := vacant_entry hv hT ((vacant_iff hv hT).mpr hgo) hdir
  refine ⟨hn,fun hm => ?_⟩
  obtain ⟨d,hd,hdn⟩ := List.mem_map.mp hm
  have hunder := hv.free (reached_of_find hfind) hdir h0 hn hchild
  have hmem := mem_under hd hdn
  rw [hunder] at hmem
  exact List.not_mem_nil hmem

end

theorem removal_keeps (hv : Orderly v n) (hT : ∀ ws, T.label ws = labelAt v ws)
    (hd : Direct T path) (h0 : tail path ≠ []) (hn : ¬ IsDots (tail path))
    (hr : resolve v path ≠ 0) :
    ∃ us, place T path = some (us++[tail path]) ∧
      PathTree.find 2 (child v) us = some (resolve v (parentPath path)) ∧
      child v (resolve v (parentPath path)) (tail path) = some (resolve v path) := by
  rw [Direct.resolve hv hT hd] at hr ⊢
  obtain ⟨ws,hws⟩ := exists_place hv hT hr
  obtain ⟨us,-,rfl,hfind,-,hchild⟩ := real_last hv hT h0 hn hws
  exact ⟨us,hws,hfind,hchild⟩

theorem rename_keeps (hv : Orderly v n) (hP : Reached v P) (hi : child v P name = some i)
    (hQ : Reached v Q) (hQd : (v Q).isDir = true) (h0 : newname ≠ []) (hn : ¬ IsDots newname)
    (hstay : (v i).isDir = true → Q = P) :
    RemovesOld v P Q name newname i ∧ Replaces v P Q name newname i ∧
      (nameIn v newname Q = 0 → FreeName (v Q) newname) ∧
      ((v i).isDir = true → i ≠ 2 ∧ nameIn v dotdot i = Q) := by
  obtain ⟨hPd,hname,hi0,hunder,hholds⟩ := last_entry hv hi
  obtain ⟨-,d,hm,hdn,hdi⟩ := id hholds
  have hremoved : nameIn v newname Q = i ∨
      (firstNamed name (clearTarget v Q newname P)).map Dirent.dIno = some i := by
    by_cases hsame : P = Q ∧ name = newname
    · obtain ⟨rfl,rfl⟩ := hsame
      exact Or.inl hname
    · have hstill := under_clearTarget hv hQd hQ h0 hn P name
      rw [if_neg hsame, hunder] at hstill
      obtain ⟨b,hb,rfl⟩ := firstNamed_of_under hstill
      exact Or.inr (by rw [hb]; rfl)
  have herr : i ≠ errIno := by
    have hmade := (hv.made P hP hPd d hm).2
    rw [hdi] at hmade
    have hhigh := hv.high
    rcases hv.numbers.numbered i with hz | ⟨-,hlt⟩
    · exact absurd (hmade.symm.trans hz) hi0
    · rw [errIno]
      omega
  refine ⟨hremoved.imp_right (fun hf => ⟨hPd,hf⟩),
    ⟨hi0,herr,Or.inr (hremoved.imp_right (fun hf => ⟨hPd,hf,hstay⟩))⟩,?_,?_⟩
  · intro hz hd hmem
    obtain ⟨b,hb,hbn⟩ := List.mem_map.mp hmem
    have hfree := mem_under hb hbn
    rw [hv.free hQ hQd h0 hn (if_neg (fun hc => hc.2.2 hz))] at hfree
    exact List.not_mem_nil hfree
  · intro hid
    have h2 : i ≠ 2 := hdi ▸ (hv.younger P hPd d hm hdn (hdi ▸ hid)).1
    rw [hstay hid]
    exact ⟨h2,nameIn_of_under hid (hv.dots.held P i hholds hid h2).2⟩

theorem rename_places (hv : Orderly v n) (hT : ∀ ws, T.label ws = labelAt v ws)
    (h : Allowed T (.rename path newpath)) (hn : ¬ IsDots (tail path)) :
    ∃ ps qs, place T path = some (ps++[tail path]) ∧ place T (parentPath newpath) = some qs ∧
      tail newpath ≠ [] ∧ ¬ IsDots (tail newpath) ∧
      PathTree.find 2 (child v) ps = some (resolve v (parentPath path)) ∧
      PathTree.find 2 (child v) qs = some (resolve v (parentPath newpath)) ∧
      (v (resolve v (parentPath newpath))).isDir = true ∧
      child v (resolve v (parentPath path)) (tail path) = some (resolve v path) ∧
      ((v (resolve v path)).isDir = true → qs = ps) := by
  obtain ⟨hd,h0,hnew0,hnewn,ws,qs,hws,hqs,hdir,hstay⟩ := h hn
  obtain ⟨ps,-,rfl,hfind,-,hchild⟩ := real_last hv hT h0 hn hws
  have hreal := place_some hv hT hws
  have hfindQ := (place_some hv hT hqs).2
  have hQd := (typeAt_dir hT hfindQ).mp hdir
  refine ⟨ps,qs,hws,hqs,hnew0,hnewn,hfind,?_,?_,?_,?_⟩
  · rw [resolve_dir hQd]
    exact hfindQ
  · rw [resolve_dir hQd]
    exact hQd
  · rw [Direct.resolve hv hT hd]
    exact hchild
  · intro hid
    rw [Direct.resolve hv hT hd] at hid
    rw [hstay ((typeAt_dir hT hreal.2).mpr hid), List.dropLast_concat]

theorem keeps_of_allowed (hv : Orderly v n) (hT : ∀ ws, T.label ws = labelAt v ws) {c : Call}
    (hc : c.isNamespace = true) (h : Allowed T c) : KeepsEntries v c ∧ KeepsDots v c := by
  have hnew : ∀ path, Direct T (parentPath path) → Direct T path →
      resolve v (parentPath path) ≠ 0 ∧ resolve v path = 0 →
      FreeName (v (resolve v (parentPath path))) (tail path) ∧
        (IsDots (tail path) → (v (resolve v (parentPath path))).isDir = true →
          resolve v (parentPath path) = 2) :=
    fun path hp hd hgo => ⟨fun hdir => (adds_free hv hT hp hd hgo hdir).2,
      fun hdots hdir => absurd hdots (adds_free hv hT hp hd hgo hdir).1⟩
  cases c with
  | mkdir path mode =>
    exact ⟨⟨Or.inl rfl,fun _ => trivial,fun _ => trivial,fun hgo => (hnew path h.2.1 h.2.2 hgo).1⟩,
      fun hgo => (hnew path h.2.1 h.2.2 hgo).2⟩
  | creat path mode =>
    exact ⟨⟨Or.inl rfl,fun _ => trivial,fun _ => trivial,
      fun hgo => (hnew path h.2.1 h.2.2 hgo.2).1⟩,fun hgo => (hnew path h.2.1 h.2.2 hgo.2).2⟩
  | symlink target path =>
    exact ⟨⟨Or.inl rfl,fun _ => trivial,fun _ => trivial,fun hgo => (hnew path h.1 h.2 hgo.2).1⟩,
      fun hgo => (hnew path h.1 h.2 hgo.2).2⟩
  | link path newpath =>
    exact ⟨⟨Or.inl rfl,fun _ => trivial,fun _ => trivial,
      fun hgo => (hnew newpath h.2.1 h.2.2 hgo.2.2).1⟩,fun hgo => (hnew newpath h.2.1 h.2.2 hgo.2.2).2⟩
  | unlink path =>
    refine ⟨⟨Or.inl rfl,fun _ => trivial,fun hgo => ?_,fun _ => trivial⟩,fun _ => trivial⟩
    obtain ⟨us,-,-,hchild⟩ := removal_keeps hv hT h.1 h.2 hgo.2 hgo.1
    obtain ⟨hPd,-,-,hunder,-⟩ := last_entry hv hchild
    obtain ⟨d,hd,hi⟩ := firstNamed_of_under hunder
    exact Or.inr (Or.inr ⟨hPd,by rw [hd, Option.map_some, hi]⟩)
  | rmdir path =>
    refine ⟨⟨Or.inl rfl,fun _ => trivial,fun hgo => ?_,fun _ => trivial⟩,fun _ => trivial⟩
    have hr : resolve v path ≠ 0 := by
      intro hz
      have hd := hgo.1
      rw [hz, hv.zero.1] at hd
      exact Bool.false_ne_true hd
    obtain ⟨us,-,-,hchild⟩ := removal_keeps hv hT h.1 h.2.1 h.2.2 hr
    obtain ⟨hPd,-,-,-,-,d,hm,hdn,hdi⟩ := last_entry hv hchild
    have hlt := (hv.younger _ hPd d hm hdn (hdi ▸ hgo.1)).2
    rw [hdi] at hlt
    exact Or.inr ⟨hPd,hlt,List.any_eq_true.mpr ⟨d,hm,by simpa using hdi⟩⟩
  | rename path newpath =>
    refine ⟨⟨Or.inl rfl,fun hgo hd => ?_,fun hgo hd => ?_,fun hgo => ?_⟩,fun hgo hd => ?_⟩
    all_goals
      obtain ⟨ps,qs,-,-,h0,hn,hP,hQ,hQd,hchild,hstay⟩ := rename_places hv hT h hgo
      have hkept := rename_keeps hv (reached_of_find hP) hchild (reached_of_find hQ) hQd h0 hn
        (fun hid => Option.some.inj (hQ.symm.trans (hstay hid ▸ hP)))
    · exact ⟨h0,fun hid _ => ⟨(hkept.2.2.2 hid).1,hkept.1⟩⟩
    · exact hkept.2.1
    · exact fun hz => Or.inl (hkept.2.2.1 hz)
    · exact ⟨hn,fun hid => (hkept.2.2.2 hid).2⟩
  | _ => exact absurd hc Bool.false_ne_true

theorem keepsType_of_allowed (hv : Orderly v n) (hT : ∀ ws, T.label ws = labelAt v ws) {c : Call}
    (h : Allowed T c) : KeepsType v c := by
  cases c with
  | chmod path mode =>
    intro h0
    rw [Direct.resolve hv hT h.1] at h0 ⊢
    obtain ⟨ws,hws⟩ := exists_place hv hT h0
    have htype := h.2 ws hws
    rw [typeAt_place hv hT hws, Option.some_inj, Option.some_inj] at htype
    have hdir : (v (real v path)).isDir = true ↔
        typeBits (v (real v path)).metadata.stMode = S_IFDIR := by
      rw [File.isDir, S_ISDIR_eq, beq_iff_eq]
    rw [chmodStat, File.setStat_metadata]
    split_ifs with hd
    · rw [typeBits_or, hdir.mp hd]
      rcases htype with htype | ⟨-,htype⟩
      · rw [← htype, hdir.mp hd]
        decide
      · rw [htype]
        decide
    · exact (htype.resolve_right (fun hc => hd (hdir.mpr hc.1))).symm
  | _ => exact trivial

theorem allowed_cases {c : Call} (h : Allowed T c) : c.isNamespace = true ∨ quiet c = true := by
  cases c <;> first | exact Or.inl rfl | exact Or.inr rfl | exact Or.inr h

theorem myLink_return (path newpath : Str) (s : Fs) :
    (myLink path newpath s).1 = if Proceeds s.file (.link path newpath) then ok else anErr := by
  simp only [myLink, findIno_eq, Fs.touch_file, Proceeds]
  split_ifs <;> simp_all

theorem myUnlink_return (path : Str) (s : Fs) :
    (myUnlink path s).1 = if Proceeds s.file (.unlink path) then ok else anErr := by
  simp only [myUnlink, findIno_eq, Fs.touch_file, Proceeds]
  split_ifs <;> simp_all

theorem myRmdir_return (path : Str) (s : Fs) :
    (myRmdir path s).1 = if Proceeds s.file (.rmdir path) then ok else anErr := by
  simp only [myRmdir, findIno_eq, Fs.touch_file, Proceeds]
  split_ifs with _ _ h <;> simp_all
  omega

theorem myRename_return (path newpath : Str) (s : Fs) :
    (myRename path newpath s).1 = if Proceeds s.file (.rename path newpath) then ok else anErr := by
  simp only [myRename, findIno_eq, Proceeds]
  split_ifs <;> simp_all

theorem Effect.spends_none {K K' : Set ℕ} {n' : ℕ} {c : Call} (he : Effect v K n c r w K' n')
    (hc : c.created = none) : n' = n := by
  cases he with
  | leaked f create => simp [hc] at create
  | entered path f create => simp [hc] at create
  | _ => rfl

theorem Effect.rename_stops {K K' : Set ℕ} {n' : ℕ}
    (he : Effect v K n (.rename path newpath) r w K' n')
    (hno : ¬ Proceeds v (.rename path newpath)) : w = v := by
  cases he with
  | idle => rfl
  | leaked f create => simp [Call.created] at create
  | entered p f create => simp [Call.created] at create
  | renamed _ _ go => exact absurd go hno
  | patched k g keeps other => simp [Call.edits, Call.isNamespace] at other

section
variable (hv : Orderly v n) (hT : ∀ ws, T.label ws = labelAt v ws)
include hv hT

theorem label_named (hp : Direct T (parentPath path)) (hgo : Vacant T path)
    (hdir : ∀ us, PathTree.find 2 (child v) us = some (resolve v (parentPath path)) →
      (v (resolve v (parentPath path))).isDir = true → tail path ≠ [] → ¬ IsDots (tail path) →
      child v (resolve v (parentPath path)) (tail path) = none →
      ∀ ws, labelAt w ws = if ws = us++[tail path] then some a else labelAt v ws)
    (hfile : (v (resolve v (parentPath path))).isDir = false → ∀ ws, labelAt w ws = labelAt v ws)
    (ws : List Str) : (named T path a).label ws = labelAt w ws := by
  rw [Direct.resolve hv hT hp] at hdir hfile
  by_cases hd : InDirectory T path
  · have hPd := (inDirectory_iff hv hT).mp hd
    obtain ⟨us,hus,hfind,h0,hn,hchild⟩ := vacant_entry hv hT hgo hPd
    obtain ⟨hnamed,hgrow⟩ := named_grows hgo hd hus a
    rw [hnamed, hdir us hfind hPd h0 hn hchild]
    by_cases hws : ws = us++[tail path]
    · rw [if_pos hws, hws, Tree.grow_self _ hgrow]
    · rw [if_neg hws, Tree.grow_ne _ hws, hT]
  · rw [inDirectory_iff hv hT, Bool.not_eq_true] at hd
    rw [named, if_neg (by rw [inDirectory_iff hv hT, hd]; exact Bool.false_ne_true), hT, hfile hd]

theorem label_created (hp : Direct T (parentPath path)) (hgo : Vacant T path) {f : File}
    {kind : Mode} (new : NewFile n kind f) (dots : ∀ d ∈ f.dentries, IsDots d.dName)
    (ws : List Str) : (named T path (n,kind)).label ws =
      labelAt (enterView v n (resolve v (parentPath path)) (tail path) f) ws := by
  refine label_named hv hT hp hgo (fun us hfind hd h0 hn hfree =>
    label_entered hv hfind hd h0 hn hfree new dots) (fun hd us => ?_) ws
  have hPn := hv.fresh.resolve_ne (parentPath path)
  rw [enterView, label_misplaced (by rw [Function.update_of_ne hPn]; exact hd), label_leaked hv]

theorem label_relinked (hp : Direct T (parentPath path)) (hgo : Vacant T path) (hi : i ≠ 0)
    (hfile : (v i).isDir = false) (ws : List Str) :
    (named T path (i,typeBits (v i).metadata.stMode)).label ws =
      labelAt (linkView v (resolve v (parentPath path)) (tail path) i) ws := by
  refine label_named hv hT hp hgo (fun us hfind hd h0 hn hfree =>
    label_linked hv hfind hd h0 hn hfree hi hfile) (fun hd us => ?_) ws
  rw [linkView, label_misplaced (by rw [setStat_isDir (g := incNlink) (fun _ => rfl)]; exact hd),
    label_nlink v i (g := incNlink) (fun _ => rfl)]

theorem label_cut (hd : Direct T path) (h0 : tail path ≠ []) (hn : ¬ IsDots (tail path))
    (hr : resolve v path ≠ 0) (h2 : (v 2).isDir = true) {n' : ℕ}
    (hw : Orderly (unlinkView v (resolve v (parentPath path)) (tail path) (resolve v path)) n') :
    ∃ us, place T path = some us ∧ ∀ ws, (T.cut us).label ws =
      labelAt (unlinkView v (resolve v (parentPath path)) (tail path) (resolve v path)) ws := by
  obtain ⟨us,hus,hfind,hchild⟩ := removal_keeps hv hT hd h0 hn hr
  refine ⟨us++[tail path],hus,fun ws => ?_⟩
  rw [label_unlinked hv hw h2 hfind hchild]
  split_ifs with hws
  · exact Tree.cut_below (by simp) hws
  · rw [Tree.cut_other hws, hT]

theorem label_moved (h : Allowed T (.rename path newpath)) (hn : ¬ IsDots (tail path)) :
    ∃ us qs, place T path = some us ∧ place T (parentPath newpath) = some qs ∧
      ∀ ws, (T.move us (qs++[tail newpath])).label ws =
        labelAt (renameView v (resolve v (parentPath path)) (resolve v (parentPath newpath))
          (tail path) (tail newpath) (resolve v path)) ws := by
  obtain ⟨ps,qs,hps,hqs,h0,hnew,hP,hQ,hQd,hchild,hstay⟩ := rename_places hv hT h hn
  have hout : ¬ ps++[tail path] <+: qs := by
    rintro ⟨vs,rfl⟩
    have hbelow : PathTree.find (resolve v path) (child v) vs =
        some (resolve v (parentPath newpath)) := by
      rw [find_append, find_concat, hP, Option.bind_some, hchild, Option.bind_some] at hQ
      exact hQ
    by_cases hid : (v (resolve v path)).isDir = true
    · have hlen := congrArg List.length (hstay hid)
      rw [List.length_append, List.length_append] at hlen
      simp only [List.length_singleton] at hlen
      omega
    · rw [find_leaf (child_not_dir (by simpa using hid))] at hbelow
      split_ifs at hbelow
      rw [Option.some.inj hbelow] at hid
      exact hid hQd
  have hmove : T.CanMove (ps++[tail path]) (qs++[tail newpath]) := by
    refine ⟨by simp,by simp,?_,?_⟩
    · rw [List.dropLast_concat, hT, label_find hQ]
      rfl
    · rw [List.dropLast_concat]
      exact hout
  obtain ⟨hto,hother⟩ := label_renamed hv hP hQ hchild hQd h0 hnew hout
  refine ⟨ps++[tail path],qs,hps,hqs,fun ws => ?_⟩
  by_cases hq : qs++[tail newpath] <+: ws
  · obtain ⟨vs,rfl⟩ := hq
    rw [Tree.move_to hmove, ← List.append_cons, ← List.append_cons, hto, hT]
  · by_cases hp : ps++[tail path] <+: ws
    · rw [Tree.move_from hmove hq hp, (hother ws hq).1 hp]
    · rw [Tree.move_other hq hp, (hother ws hq).2 hp, hT]

end

structure Represents (s : Fs) (N : NameTree.Names) : Prop where
  settled : Settled s
  held : Held (Finset.range (2^31)) N.opens s.file
  root : (s.file 2).isDir = true
  next : N.next = s.count
  label : ∀ ws, N.tree.label ws = labelAt s.file ws

/-- The call returns what the tree says and changes the table as the tree. -/
def Follows (s : Fs) (N : NameTree.Names) (l : Label) : Prop :=
  ∀ r s', answer l.1 l.2 s = some (r,s') → Orderly s'.file s'.count →
    r = (act N l.2).1 ∧ (act N l.2).2.next = s'.count ∧
      ∀ ws, (act N l.2).2.tree.label ws = labelAt s'.file ws

theorem mem_low {k : ℕ} (h : k < 2^31) : k ∈ Finset.range (2^31) := Finset.mem_range.mpr h

theorem Represents.orderly (h : Represents s N) : Orderly s.file s.count :=
  orderly_of_standing h.held.plain h.settled.toNumbers h.settled.fresh h.settled.high
    (fun _ => mem_low)

theorem Represents.lower_orderly (h : Represents s N) :
    Orderly (lower N.opens s.file) s.count :=
  orderly_of_standing h.held.standing (lower_numbers h.settled.toNumbers)
    (lower_fresh h.settled.fresh) h.settled.high (fun _ => mem_low)

theorem mknod_follows (hs : Settled s) (hv : Orderly s.file s.count)
    (hT : ∀ ws, T.label ws = labelAt s.file ws) {mode kind : Mode} (hk : typeBits mode = kind)
    (hp : Direct T (parentPath path)) (hd : Direct T path)
    (hm : myMknod e path mode 100 s = (r,s')) :
    s'.count = s.count+1 ∧
      (Vacant T path ∧ r = ok ∧ (∃ f, NewFile s.count kind f ∧
          (∀ d ∈ f.dentries, IsDots d.dName) ∧ s'.file =
            enterView s.file s.count (resolve s.file (parentPath path)) (tail path) f) ∨
        ¬ Vacant T path ∧ r = anErr ∧ ∀ ws, T.label ws = labelAt s'.file ws) := by
  obtain ⟨hcount,-,-,f,hnew,-,hcase⟩ := myMknod_effect hs hm
  rw [Direct.resolve hv hT hp, Direct.resolve hv hT hd, ← vacant_iff hv hT] at hcase
  rw [Direct.resolve hv hT hp]
  rw [hk] at hnew
  refine ⟨hcount,?_⟩
  rcases hcase with ⟨rfl,hno,-,hview⟩ | ⟨rfl,hgo,hdots,hview⟩
  · refine Or.inr ⟨hno,rfl,fun ws => ?_⟩
    rw [hview, label_leaked hv, hT]
  · refine Or.inl ⟨hgo,rfl,f,hnew,?_,hview⟩
    rw [hdots]
    exact dotEntries_dots _ _ f

theorem mkdir_follows (h : Represents s N) {mode : Mode}
    (ha : Allowed N.tree (.mkdir path mode)) : Follows s N (e,.mkdir path mode) := by
  intro r s' hm _
  have hv := h.orderly
  have hk : typeBits (S_IFDIR ||| mode) = S_IFDIR := by
    rw [typeBits_or, ha.1]
    decide
  obtain ⟨hcount,⟨hgo,rfl,f,hnew,hdots,hview⟩ | ⟨hno,rfl,hl⟩⟩ :=
    mknod_follows h.settled hv h.label hk ha.2.1 ha.2.2 (Option.some.inj hm)
  · rw [act, if_pos hgo, hcount, hview, h.next]
    exact ⟨rfl,rfl,label_created hv h.label ha.2.1 hgo hnew hdots⟩
  · rw [act, if_neg hno, hcount, h.next]
    exact ⟨rfl,rfl,hl⟩

theorem creat_follows (h : Represents s N) {mode : Mode}
    (ha : Allowed N.tree (.creat path mode)) : Follows s N (e,.creat path mode) := by
  intro r s' hm _
  have hv := h.orderly
  have hk : typeBits (S_IFREG ||| mode) = S_IFREG := by
    rw [typeBits_or, ha.1]
    decide
  have hm' : myCreat e path mode s = (r,s') := Option.some.inj hm
  rw [myCreat] at hm'
  rw [act]
  by_cases hdots : IsDots (tail path)
  · rw [if_pos hdots] at hm' ⊢
    obtain ⟨rfl,rfl⟩ := Prod.mk.inj hm'
    exact ⟨rfl,h.next,h.label⟩
  rw [if_neg hdots] at hm' ⊢
  obtain ⟨hcount,⟨hgo,rfl,f,hnew,hdots,hview⟩ | ⟨hno,rfl,hl⟩⟩ :=
    mknod_follows h.settled hv h.label hk ha.2.1 ha.2.2 hm'
  · rw [if_pos hgo, hcount, hview, h.next]
    exact ⟨rfl,rfl,label_created hv h.label ha.2.1 hgo hnew hdots⟩
  · rw [if_neg hno, hcount, h.next]
    exact ⟨rfl,rfl,hl⟩

theorem resolve_made (hv : Orderly v n) (hT : ∀ ws, T.label ws = labelAt v ws)
    (hgo : Vacant T path) {f : File} (hd : f.isDir = false) (hl : f.isLnk = false) :
    resolve (enterView v n (real v (parentPath path)) (tail path) f) path =
      if (v (real v (parentPath path))).isDir then n else 0 := by
  obtain ⟨hparent,hfree⟩ := (vacant_iff hv hT).mp hgo
  have hPn := hv.fresh.real_ne (parentPath path)
  have hP : real (enterView v n (real v (parentPath path)) (tail path) f) (parentPath path) =
      real v (parentPath path) :=
    (hv.fresh.real_entered hv.zero.1 f hd hPn (tail path) (parentPath path)).resolve_right
      (fun hc => hparent hc.1)
  have h0 : ∀ m : Str, (enterView v n (real v (parentPath path)) m f 0).isDir = false :=
    fun m => (entered_isDir hv.fresh.ne_zero.symm m f).trans hv.zero.1
  have ht : tail path ≠ [] := by
    intro ht
    rw [real_parentPath hv.zero.1, if_pos ht] at hfree
    exact hparent hfree
  have hreal : real (enterView v n (real v (parentPath path)) (tail path) f) path =
      if (v (real v (parentPath path))).isDir then n else 0 := by
    rw [real_parentPath (h0 _), if_neg ht, hP, entered_isDir hPn]
    by_cases hdir : (v (real v (parentPath path))).isDir = true
    · obtain ⟨us,-,hfind,-,hn,hchild⟩ := vacant_entry hv hT hgo hdir
      rw [if_pos hdir, if_pos hdir, nameIn_under, entered_isDir hPn, if_pos hdir,
        entered_under hPn, hv.free (reached_of_find hfind) hdir ht hn hchild, if_pos ⟨rfl,rfl⟩]
      rfl
    · rw [if_neg hdir, if_neg hdir]
  have hlnk : (enterView v n (real v (parentPath path)) (tail path) f
      (if (v (real v (parentPath path))).isDir then n else 0)).isLnk = false := by
    split_ifs
    · rw [entered_new hPn, hl]
    · rw [File.isLnk, entered_meta hv.fresh.ne_zero.symm]
      exact hv.zero.2
  rw [resolve, hreal, follow_not_lnk hlnk]

theorem mySymlink_refused {target : Str} (h : IsDots (tail path) ∨ resolve s.file path ≠ 0)
    (hm : mySymlink e target path s = some (r,s')) :
    r = anErr ∧ s'.count = s.count ∧ s'.file = s.file := by
  simp only [mySymlink, findIno_eq] at hm
  by_cases hdots : IsDots (tail path)
  · rw [if_pos hdots] at hm
    obtain ⟨rfl,rfl⟩ := Prod.mk.inj (Option.some.inj hm)
    exact ⟨rfl,rfl,rfl⟩
  · rw [if_neg hdots, if_pos (h.resolve_left hdots)] at hm
    obtain ⟨rfl,rfl⟩ := Prod.mk.inj (Option.some.inj hm)
    exact ⟨rfl,rfl,Fs.touch_file _ _⟩

theorem symlink_follows (h : Represents s N) {target : Str}
    (ha : Allowed N.tree (.symlink target path)) : Follows s N (e,.symlink target path) := by
  intro r s' hm _
  have hs := h.settled
  have hv := h.orderly
  have hd := Direct.resolve hv h.label ha.2
  have hp := Direct.resolve hv h.label ha.1
  have hplace : (place N.tree path).isSome = true ↔ resolve s.file path ≠ 0 := by
    rw [hd, ← Option.ne_none_iff_isSome, Ne, place_none hv h.label]
  rw [act]
  by_cases hrefused : IsDots (tail path) ∨ (place N.tree path).isSome = true
  · obtain ⟨rfl,hcount,hview⟩ := mySymlink_refused (hrefused.imp_right hplace.mp) hm
    rw [if_pos hrefused, hcount, hview]
    exact ⟨rfl,h.next,h.label⟩
  rw [if_neg hrefused]
  obtain ⟨-,err,t,hmk,hcases⟩ := (mySymlink_cases hs hm).resolve_left
    (fun hc => hc.1 ⟨fun hdots => hrefused (Or.inl hdots),
      by_contra fun hr => hrefused (Or.inr (hplace.mpr hr))⟩)
  have hkind : typeBits (S_IFREG ||| 666#32) = S_IFREG := by decide
  obtain ⟨hcount,hcase⟩ := mknod_follows (T := N.tree) (settled_touch hs _)
    (by rw [Fs.touch_file, Fs.touch_count]; exact hv) (by rw [Fs.touch_file]; exact h.label) hkind
    ha.1 ha.2 hmk
  rw [Fs.touch_count] at hcount hcase
  rw [Fs.touch_file] at hcase
  rcases hcases with ⟨rfl,rfl,rfl⟩ | ⟨rfl,-,hgrown,hout⟩
  · obtain ⟨hno,-,hl⟩ := hcase.resolve_left (fun hc => err_ne_ok hc.2.1)
    have hnodir : ¬ InDirectory N.tree path := by
      intro hdir
      obtain ⟨us,hus,-⟩ := Option.bind_eq_some_iff.mp hdir
      refine hno ⟨by rw [hus]; rfl,?_⟩
      exact Option.not_isSome_iff_eq_none.mp (fun hsome => hrefused (Or.inr hsome))
    rw [if_neg hnodir, hcount, h.next]
    exact ⟨rfl,rfl,hl⟩
  · obtain ⟨hgo,-,f,hnew,hdots,hview⟩ := hcase.resolve_right (fun hc => err_ne_ok hc.2.1.symm)
    have hfd : f.isDir = false := by
      rw [File.isDir, S_ISDIR_eq, hnew.type]
      decide
    have hfl : f.isLnk = false := by
      rw [File.isLnk, S_ISLNK_eq, hnew.type]
      decide
    have hfound : resolve t.file path =
        if (s.file (resolve s.file (parentPath path))).isDir then s.count else 0 := by
      rw [hview, hp]
      exact resolve_made hv h.label hgo hfd hfl
    rw [hgrown.count, hcount, h.next]
    by_cases hdir : InDirectory N.tree path
    · have hPd := (inDirectory_iff hv h.label).mp hdir
      rw [hp, if_pos hPd] at hfound
      obtain ⟨-,rfl,data,-,hlink⟩ := hout.resolve_left
        (fun hc => hv.fresh.ne_zero (hfound.symm.trans hc.1))
      have hP := hv.fresh.resolve_ne (parentPath path)
      rw [if_pos hdir, hlink, hview, enterView_put hP]
      refine ⟨rfl,rfl,label_created hv h.label ha.1 hgo ?_ hdots⟩
      exact ⟨hnew.ino,hnew.nlink,linkFile_type hnew.type data (cstr target)⟩
    · have hPd := hdir
      rw [inDirectory_iff hv h.label] at hPd
      rw [hp, if_neg hPd] at hfound
      obtain ⟨-,rfl,hsame⟩ := hout.resolve_right
        (fun hc => hv.fresh.ne_zero (hc.1.symm.trans hfound))
      rw [if_neg hdir, hsame, hview]
      refine ⟨rfl,rfl,fun ws => ?_⟩
      rw [← label_created hv h.label ha.1 hgo hnew hdots, named, if_neg hdir]

theorem label_place (hv : Orderly v n) (hT : ∀ ws, T.label ws = labelAt v ws)
    (h : place T path = some ws) :
    T.label ws = some (real v path,typeBits (v (real v path)).metadata.stMode) := by
  rw [hT, label_find (place_some hv hT h).2]

theorem link_follows (h : Represents s N) (ha : Allowed N.tree (.link path newpath)) :
    Follows s N (e,.link path newpath) := by
  intro r s' hm _
  have hv := h.orderly
  have hm' : myLink path newpath s = (r,s') := Option.some.inj hm
  have heffect := (myLink_did hm').1
  have hreturn : r = if Proceeds s.file (.link path newpath) then ok else anErr := by
    rw [← myLink_return, hm']
  have hd := Direct.resolve hv h.label ha.1
  have hcount := Effect.spends_none heffect rfl
  have hgo : Proceeds s.file (.link path newpath) ↔ real s.file path ≠ 0 ∧
      (s.file (real s.file path)).isReg = true ∧ Vacant N.tree newpath := by
    rw [Proceeds, hd, Direct.resolve hv h.label ha.2.1, Direct.resolve hv h.label ha.2.2,
      vacant_iff hv h.label]
  cases hplace : place N.tree path with
  | none =>
    have hno : ¬ Proceeds s.file (.link path newpath) :=
      fun hc => (hgo.mp hc).1 ((place_none hv h.label).mp hplace)
    obtain ⟨-,hview⟩ := heffect.link.2.resolve_right (fun hc => hno hc.1)
    simp only [act, hplace, Option.bind_none]
    rw [hview, hcount]
    exact ⟨by rw [hreturn, if_neg hno],h.next,h.label⟩
  | some ws =>
    have hlabel := label_place hv h.label hplace
    have hreal := (place_some hv h.label hplace).1
    simp only [act, hplace, Option.bind_some, hlabel]
    by_cases hc : Proceeds s.file (.link path newpath)
    · obtain ⟨-,hreg,hvacant⟩ := hgo.mp hc
      obtain ⟨-,hview⟩ := heffect.link.2.resolve_left (fun hstop => hstop.1 hc)
      have htype : typeBits (s.file (real s.file path)).metadata.stMode = S_IFREG := by
        rwa [File.isReg, S_ISREG_eq, beq_iff_eq] at hreg
      rw [if_pos ⟨htype,hvacant⟩, hview, hcount, hd]
      exact ⟨by rw [hreturn, if_pos hc],h.next,
        label_relinked hv h.label ha.2.1 hvacant hreal (isDir_of_isReg hreg)⟩
    · obtain ⟨-,hview⟩ := heffect.link.2.resolve_right (fun hgo => hc hgo.1)
      have hno : ¬ (typeBits (s.file (real s.file path)).metadata.stMode = S_IFREG ∧
          Vacant N.tree newpath) := by
        rintro ⟨htype,hvacant⟩
        exact hc (hgo.mpr ⟨hreal,by rw [File.isReg, S_ISREG_eq, htype]; decide,hvacant⟩)
      rw [if_neg hno, hview, hcount]
      exact ⟨by rw [hreturn, if_neg hc],h.next,h.label⟩

theorem unlink_follows (h : Represents s N) (ha : Allowed N.tree (.unlink path)) :
    Follows s N (e,.unlink path) := by
  intro r s' hm hw
  have hv := h.orderly
  have hm' : myUnlink path s = (r,s') := Option.some.inj hm
  have heffect := (myUnlink_did hm').1
  have hreturn : r = if Proceeds s.file (.unlink path) then ok else anErr := by
    rw [← myUnlink_return, hm']
  have hd := Direct.resolve hv h.label ha.1
  have hcount := Effect.spends_none heffect rfl
  by_cases hc : Proceeds s.file (.unlink path)
  · obtain ⟨-,hview,-⟩ := heffect.unlink.resolve_left (fun hstop => hstop.1 hc)
    rw [hview] at hw ⊢
    obtain ⟨us,hplace,hl⟩ := label_cut hv h.label ha.1 ha.2 hc.2 hc.1 h.root hw
    simp only [act, hplace, if_neg hc.2]
    rw [hcount]
    exact ⟨by rw [hreturn, if_pos hc],h.next,hl⟩
  · obtain ⟨-,hview,-⟩ := heffect.unlink.resolve_right (fun hgo => hc hgo.1)
    rw [hview, hcount, hreturn, if_neg hc]
    cases hplace : place N.tree path with
    | none =>
      simp only [act, hplace]
      exact ⟨trivial,h.next,h.label⟩
    | some ws =>
      have hdots : IsDots (tail path) := by
        by_contra hn
        exact hc ⟨hd ▸ (place_some hv h.label hplace).1,hn⟩
      simp only [act, hplace, if_pos hdots]
      exact ⟨trivial,h.next,h.label⟩

theorem leaf_iff (hv : Orderly v n) (hT : ∀ ws, T.label ws = labelAt v ws)
    (hk : PathTree.find 2 (child v) ws = some k) (hd : (v k).isDir = true) :
    (∀ w, T.label (ws++[w]) = none) ↔ (v k).dentries.length ≤ 2 := by
  have hreached := reached_of_find hk
  have hchild : ∀ w, T.label (ws++[w]) = none ↔ child v k w = none := by
    intro w
    rw [hT, labelAt, find_concat, hk, Option.bind_some, Option.map_eq_none_iff]
  constructor
  · intro hleaf
    have hdots : names (v k) ⊆ [dot,dotdot] := by
      intro m hm
      obtain ⟨d,hmem,rfl⟩ := List.mem_map.mp hm
      by_contra hn
      have hplain : ¬ IsDots d.dName := by
        rintro (h1 | h2)
        · exact hn (by simp [h1])
        · exact hn (by simp [h2])
      have hlink : child v k d.dName = some d.dIno :=
        child_some.mpr ⟨hv.named k hd d hmem,hplain,nameIn_of_unique hv.distinct hd hmem,
          (hv.made k hreached hd d hmem).1⟩
      rw [(hchild d.dName).mp (hleaf d.dName)] at hlink
      exact Option.some_ne_none _ hlink.symm
    have hlen := (List.subperm_of_subset (hv.distinct k hd) hdots).length_le
    rw [Names.names, List.length_map] at hlen
    exact hlen
  · intro hlen w
    rw [hchild]
    cases hc : child v k w with
    | none => rfl
    | some y => exact absurd (last_entry hv hc).2.2.2.2 (hv.dots.small hreached hd hlen y)

theorem rmdir_follows (h : Represents s N) (ha : Allowed N.tree (.rmdir path)) :
    Follows s N (e,.rmdir path) := by
  intro r s' hm hw
  have hv := h.orderly
  have hm' : myRmdir path s = (r,s') := Option.some.inj hm
  have heffect := (myRmdir_did hm').1
  have hreturn : r = if Proceeds s.file (.rmdir path) then ok else anErr := by
    rw [← myRmdir_return, hm']
  have hd := Direct.resolve hv h.label ha.1
  have hcount := Effect.spends_none heffect rfl
  have hempty : ∀ us, place N.tree path = some us →
      ((typeAt N.tree us = some S_IFDIR ∧ ∀ w, N.tree.label (us++[w]) = none) ↔
        Proceeds s.file (.rmdir path)) := by
    intro us hplace
    have hfind := (place_some hv h.label hplace).2
    rw [Proceeds, hd, typeAt_dir h.label hfind]
    exact and_congr_right (fun hdir => leaf_iff hv h.label hfind hdir)
  by_cases hc : Proceeds s.file (.rmdir path)
  · obtain ⟨-,hview,-⟩ := heffect.rmdir.resolve_left (fun hstop => hstop.1 hc)
    have hr : resolve s.file path ≠ 0 := by
      intro hz
      have hdir := hc.1
      rw [hz, hv.zero.1] at hdir
      exact Bool.false_ne_true hdir
    obtain ⟨us,-,hfind,hchild⟩ := removal_keeps hv h.label ha.1 ha.2.1 ha.2.2 hr
    rw [rmdirView_eq hv (reached_of_find hfind) hchild hc.1] at hview
    rw [hview] at hw ⊢
    obtain ⟨us,hplace,hl⟩ := label_cut hv h.label ha.1 ha.2.1 ha.2.2 hr h.root hw
    simp only [act, hplace, if_pos ((hempty us hplace).mpr hc)]
    rw [hcount]
    exact ⟨by rw [hreturn, if_pos hc],h.next,hl⟩
  · obtain ⟨-,hview,-⟩ := heffect.rmdir.resolve_right (fun hgo => hc hgo.1)
    rw [hview, hcount, hreturn, if_neg hc]
    cases hplace : place N.tree path with
    | none =>
      simp only [act, hplace]
      exact ⟨trivial,h.next,h.label⟩
    | some us =>
      simp only [act, hplace, if_neg (fun hp => hc ((hempty us hplace).mp hp))]
      exact ⟨trivial,h.next,h.label⟩

theorem rename_follows (h : Represents s N) (ha : Allowed N.tree (.rename path newpath)) :
    Follows s N (e,.rename path newpath) := by
  intro r s' hm _
  have hv := h.orderly
  have hm' : myRename path newpath s = (r,s') := Option.some.inj hm
  have heffect := (myRename_did hm').1
  have hreturn : r = if Proceeds s.file (.rename path newpath) then ok else anErr := by
    rw [← myRename_return, hm']
  have hcount := Effect.spends_none heffect rfl
  by_cases hdots : IsDots (tail path)
  · have hno : ¬ Proceeds s.file (.rename path newpath) := fun hgo => hgo hdots
    rw [act, if_pos hdots, Effect.rename_stops heffect hno, hcount, hreturn, if_neg hno]
    exact ⟨rfl,h.next,h.label⟩
  · obtain ⟨hview,-⟩ := heffect.rename hdots
    obtain ⟨us,qs,hus,hqs,hl⟩ := label_moved hv h.label ha hdots
    simp only [act, if_neg hdots, hus, hqs]
    rw [hview, hcount, hreturn, if_pos (show Proceeds s.file (.rename path newpath) from hdots)]
    exact ⟨rfl,h.next,hl⟩

theorem follows (h : Represents s N) {c : Call} (hc : c.isNamespace = true)
    (ha : Allowed N.tree c) : Follows s N (e,c) := by
  cases c with
  | mkdir path mode => exact mkdir_follows h ha
  | creat path mode => exact creat_follows h ha
  | symlink target path => exact symlink_follows h ha
  | link path newpath => exact link_follows h ha
  | unlink path => exact unlink_follows h ha
  | rmdir path => exact rmdir_follows h ha
  | rename path newpath => exact rename_follows h ha
  | _ => exact absurd hc Bool.false_ne_true

end Bbfs.NameCalls
