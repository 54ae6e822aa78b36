import Bbfs.StoreRuns

/-!
# Trees that are built

A layout lists the files of a tree, parents first. The calls that make them one
after the other are allowed and answered, and build this tree: what is listed is
found at its path with its type and contents, and nothing else is.
-/

set_option autoImplicit false

namespace Bbfs.Building
open Bbfs.Strings Bbfs.Files Bbfs.Resolve Bbfs.Calls Bbfs.Session Bbfs.Walks Bbfs.Effects
open Bbfs.Outcomes Bbfs.Numbers Bbfs.Directories Bbfs.Quiet Bbfs.PathTree Bbfs.Placement
open Bbfs.ZeroExtended Bbfs.Sizes Bbfs.Normal Bbfs.NameTree Bbfs.NameCalls Bbfs.NameRuns
open Bbfs.FileStore Bbfs.StoreRuns Bbfs.Runs

inductive Node where
  | dir
  | file (data : Str)
  | link (target : Str)
  deriving DecidableEq

namespace Node

def kind : Node → Mode
  | dir => S_IFDIR
  | file _ => S_IFREG
  | link _ => S_IFLNK

def data : Node → Str
  | dir => []
  | file data => data
  | link target => target

def make (path : Str) : Node → Call
  | dir => .mkdir path 0o755#32
  | file _ => .creat path 0o644#32
  | link target => .symlink target path

def empty : Node → Node
  | file _ => file []
  | node => node

def fill (n : ℕ) : Node → List Call
  | file data => [.pwrite n data data.length 0]
  | _ => []

end Node

/-- The names of each file from the root on, and the file. -/
abbrev Layout := List (List Str × Node)

def calls : ℕ → Layout → List Call
  | _, [] => []
  | n, x::l => x.2.make (absolute x.1)::x.2.fill n++calls (n+1) l

def Plain (w : Str) : Prop := w ≠ [] ∧ '/' ∉ w ∧ ¬ IsDots w

instance (w : Str) : Decidable (Plain w) := inferInstanceAs (Decidable (_ ∧ _))

/-- Every file is listed once, below the root or a directory listed before; contents
are C strings of a length that an `int` holds. -/
structure Proper (l : Layout) : Prop where
  names : ∀ x ∈ l, x.1 ≠ [] ∧ ∀ w ∈ x.1, Plain w
  once : (l.map Prod.fst).Nodup
  below : ∀ (i : ℕ) ws w node, l[i]? = some (ws++[w],node) →
    ws = [] ∨ ∃ j < i, l[j]? = some (ws,.dir)
  data : ∀ x ∈ l, '\x00' ∉ x.2.data ∧ x.2.data.length < 2^31
  few : 3+l.length < 2^31

variable {T : PlaceTree} {N : NameTree.Names} {S : Store} {v : View} {n k : ℕ} {ws us : List Str}
  {w path : Str} {e env : Env} {s s' : Fs} {l : Layout} {node : Node} {m : Mode}

theorem segments_absolute (hws : ∀ w ∈ ws, Plain w) : segments (absolute ws) = []::ws :=
  segments_append_absolute ws (fun w hw => (hws w hw).2.1) (w := []) List.not_mem_nil

theorem lexical_absolute (h : ∀ w ∈ ws, Plain w) : lexical (absolute ws) = ws := by
  have hsegs := segments_absolute h
  have hpush : ∀ st : List Str, ws.foldl pushName st = ws.reverse++st := by
    clear hsegs
    induction ws with
    | nil => exact fun _ => rfl
    | cons w ws ih =>
      intro st
      obtain ⟨⟨h0,-,hd⟩,hws⟩ := List.forall_mem_cons.mp h
      have hw : pushName st w = w::st := by
        rw [pushName, if_neg (not_or_intro h0 (fun h1 => hd (Or.inl h1))),
          if_neg (fun h2 => hd (Or.inr h2))]
      rw [List.foldl_cons, hw, ih hws, List.reverse_cons, List.append_assoc]
      rfl
  rw [lexical, hsegs, List.foldl_cons, hpush, List.reverse_append, List.reverse_reverse]
  rfl

theorem place_absolute (h : Represents s N) (hws : ∀ w ∈ ws, Plain w) :
    place N.tree (absolute ws) = if (N.tree.label ws).isSome then some ws else none := by
  have hv := h.orderly
  have hplace := place_real hv h.label (absolute ws)
  rw [lexical_absolute hws] at hplace
  by_cases hr : real s.file (absolute ws) = 0
  · rw [if_pos hr] at hplace
    rw [hplace, if_neg]
    intro hl
    obtain ⟨k,hk⟩ := Option.isSome_iff_exists.mp hl
    rw [h.label] at hk
    obtain ⟨x,hx,-⟩ := Option.map_eq_some_iff.mp hk
    have hchain : Chain s.file ws.reverse x := chain_find.mpr (by rw [List.reverse_reverse, hx])
    have hwalk := hchain.walk hv.zero.1
    rw [List.reverse_reverse, ← real_absolute ws (fun w hw => (hws w hw).2.1), hr] at hwalk
    rcases eq_or_ne x 2 with h2 | h2
    · omega
    · exact (made_of_reached hv (reached_of_find hx) h2).1 hwalk.symm
  · rw [if_neg hr] at hplace
    rw [hplace, if_pos]
    rw [h.label, label_find (place_some hv h.label hplace).2]
    rfl

theorem tail_absolute (hws : ∀ x ∈ ws++[w], Plain x) : tail (absolute (ws++[w])) = w := by
  rw [tail, segments_absolute hws, ← List.cons_append, List.getLastD_concat]

theorem place_parent (hws : ∀ x ∈ ws++[w], Plain x) :
    place T (parentPath (absolute (ws++[w]))) = place T (absolute ws) := by
  have hdrop : (segments (absolute (ws++[w]))).dropLast = segments (absolute ws) := by
    rw [segments_absolute hws, segments_absolute (fun x hx => hws x (List.mem_append_left _ hx)),
      ← List.cons_append, List.dropLast_concat]
  rcases segments_parentPath (absolute (ws++[w])) with h | ⟨-,h⟩
  · rw [place, h, hdrop, place]
  · rw [hdrop] at h
    exact absurd h (segments_ne_nil _)

structure Ready (S : Store) (ws : List Str) (w : Str) : Prop where
  plain : ∀ x ∈ ws++[w], Plain x
  dir : typeAt S.names.tree ws = some S_IFDIR
  free : S.names.tree.label (ws++[w]) = none

theorem Ready.parent (h : Ready S ws w) (hs : Represents s S.names) :
    place S.names.tree (parentPath (absolute (ws++[w]))) = some ws := by
  have hdir := h.dir
  have hsome : (S.names.tree.label ws).isSome = true := by
    obtain ⟨b,hb,-⟩ := Option.map_eq_some_iff.mp hdir
    rw [hb]
    rfl
  rw [place_parent h.plain, place_absolute hs (fun x hx => h.plain x (List.mem_append_left _ hx)),
    if_pos hsome]

theorem Ready.none (h : Ready S ws w) (hs : Represents s S.names) :
    place S.names.tree (absolute (ws++[w])) = none := by
  rw [place_absolute hs h.plain, h.free]
  rfl

theorem Ready.vacant (h : Ready S ws w) (hs : Represents s S.names) :
    Vacant S.names.tree (absolute (ws++[w])) := by
  refine ⟨?_,h.none hs⟩
  rw [h.parent hs]
  rfl

theorem Ready.inDirectory (h : Ready S ws w) (hs : Represents s S.names) :
    InDirectory S.names.tree (absolute (ws++[w])) := by
  rw [InDirectory, h.parent hs, Option.bind_some, h.dir]

theorem Ready.direct (h : Ready S ws w) (hs : Represents s S.names) :
    Direct S.names.tree (parentPath (absolute (ws++[w]))) ∧
      Direct S.names.tree (absolute (ws++[w])) := by
  constructor
  · rw [Direct, h.parent hs, Option.bind_some, h.dir]
    decide
  · rw [Direct, h.none hs, Option.bind_none]
    exact Option.some_ne_none S_IFLNK ∘ Eq.symm

theorem make_kind (node : Node) (path : Str) : newKind (node.make path) = some node.kind := by
  cases node <;> rfl

theorem make_data (node : Node) (path : Str) : newData (node.make path) = node.empty.data := by
  cases node <;> rfl

theorem make_allows (h : Ready S ws w) (hs : Represents s S.names)
    (hd : '\x00' ∉ node.data ∧ node.data.length < 2^31) :
    Allows S (node.make (absolute (ws++[w]))) := by
  obtain ⟨hparent,hpath⟩ := h.direct hs
  cases node with
  | dir => exact ⟨Or.inl ⟨by decide,hparent,hpath⟩,trivial⟩
  | file data => exact ⟨Or.inl ⟨by decide,hparent,hpath⟩,trivial⟩
  | link target => exact ⟨Or.inl ⟨hparent,hpath⟩,hd⟩

theorem act_make (h : Ready S ws w) (hs : Represents s S.names) (node : Node) :
    (act S.names (node.make (absolute (ws++[w])))).2 =
      { S.names with tree := S.names.tree.grow (ws++[w]) (S.names.next,node.kind)
                     next := S.names.next+1 } := by
  have hvacant := h.vacant hs
  have hdir := h.inDirectory hs
  have htail := tail_absolute h.plain
  have hdots : ¬ IsDots (tail (absolute (ws++[w]))) := by
    rw [htail]
    exact (h.plain w (List.mem_append_right ws (List.mem_singleton_self w))).2.2
  have hnamed : ∀ a, named S.names.tree (absolute (ws++[w])) a = S.names.tree.grow (ws++[w]) a := by
    intro a
    rw [(named_grows hvacant hdir (h.parent hs) a).1, htail]
  cases node with
  | dir => rw [Node.make, act, if_pos hvacant, hnamed]; rfl
  | file data => rw [Node.make, act, if_neg hdots, if_pos hvacant, hnamed]; rfl
  | link target =>
    have hfree : ¬ (IsDots (tail (absolute (ws++[w]))) ∨
        (place S.names.tree (absolute (ws++[w]))).isSome = true) := by
      rw [h.none hs]
      exact not_or_intro hdots Bool.false_ne_true
    rw [Node.make, act, if_neg hfree, if_pos hdir, hnamed]; rfl

structure Built (S : Store) (l : Layout) : Prop where
  next : S.names.next = 3+l.length
  root : S.names.tree.label [] = some (2,S_IFDIR)
  node : ∀ (i : ℕ) ws node, l[i]? = some (ws,node) →
    S.names.tree.label ws = some (3+i,node.kind) ∧ S.kind (3+i) = node.kind ∧
      S.image (3+i) = imageOf node.data
  only : ∀ ws, ws ≠ [] → ws ∉ l.map Prod.fst → S.names.tree.label ws = none

theorem getElem?_concat {α : Type} {l : List α} {x y : α} {i : ℕ} (h : (l++[x])[i]? = some y) :
    i = l.length ∧ x = y ∨ i < l.length ∧ l[i]? = some y := by
  rcases Nat.lt_trichotomy i l.length with hlt | heq | hgt
  · rw [List.getElem?_append_left hlt] at h
    exact Or.inr ⟨hlt,h⟩
  · rw [heq, List.getElem?_concat_length] at h
    exact Or.inl ⟨heq,Option.some.inj h⟩
  · rw [List.getElem?_eq_none (by simpa using hgt)] at h
    exact absurd h.symm (Option.some_ne_none y)

theorem built_make (h : Ready S ws w) (hs : Represents s S.names) (hb : Built S l)
    (node : Node) :
    Built (S.act (node.make (absolute (ws++[w])))).2 (l++[(ws++[w],node.empty)]) := by
  have hkind : node.empty.kind = node.kind := by cases node <;> rfl
  have hgrow : S.names.tree.CanGrow (ws++[w]) := by
    refine ⟨by simp,h.free,?_⟩
    obtain ⟨b,hb,-⟩ := Option.map_eq_some_iff.mp h.dir
    rw [List.dropLast_concat, hb]
    rfl
  rw [act_new (make_kind node _), make_data, Store.make]
  simp only [act_make h hs]
  refine ⟨?_,?_,?_,?_⟩
  · rw [List.length_append, hb.next]
    rfl
  · rw [Tree.grow_ne _ (by simp)]
    exact hb.root
  · intro i us other hi
    rcases getElem?_concat hi with ⟨rfl,hx⟩ | ⟨hlt,hold⟩
    · obtain ⟨rfl,rfl⟩ := Prod.mk.inj hx
      rw [hb.next, hkind]
      exact ⟨Tree.grow_self _ hgrow,Function.update_self ..,Function.update_self ..⟩
    · obtain ⟨hl,hk,himage⟩ := hb.node i us other hold
      have hne : us ≠ ws++[w] := by
        rintro rfl
        rw [h.free] at hl
        exact absurd hl.symm (Option.some_ne_none _)
      have hnext : 3+i ≠ S.names.next := by
        rw [hb.next]
        omega
      change (S.names.tree.grow (ws++[w]) (S.names.next,node.kind)).label us = _ ∧
        Function.update S.kind S.names.next node.kind (3+i) = _ ∧
        Function.update S.image S.names.next (imageOf node.empty.data) (3+i) = _
      rw [Tree.grow_ne _ hne, Function.update_of_ne hnext, Function.update_of_ne hnext]
      exact ⟨hl,hk,himage⟩
  · intro us h0 hnot
    rw [List.map_append, List.mem_append, not_or] at hnot
    have hne : us ≠ ws++[w] := fun he => hnot.2 (by simp [he])
    rw [Tree.grow_ne _ hne]
    exact hb.only us h0 hnot.1

theorem apply_write {data : Str} :
    Contents.FileOp.apply (imageOf []) (.write data (BitVec.ofInt 64 0)) = imageOf data := by
  have hplace : Contents.place 0 (BitVec.ofInt 64 0) = 0 := by decide
  have hbytes : replaceAt (extend '\x00' []) 0 data = extend '\x00' data := by
    funext i
    by_cases hi : i < data.length <;> simp [replaceAt, extend, hi]
  simp only [Contents.FileOp.apply, imageOf, List.length_nil, Nat.zero_add, hplace, hbytes]

theorem pwrite_isSome {fh : ℕ} {buf : Str} (hnul : '\x00' ∉ buf)
    (hlen : fh ≠ 0 → (s.file fh).data.length+buf.length < 2^31) :
    (myPwrite fh buf buf.length 0 s).isSome = true := by
  rw [myPwrite]
  split_ifs with h0
  · rfl
  · rfl
  · have hzero : (0:BitVec 64).toInt = 0 := by decide
    have hover := Contents.overwrite_eq (hlen h0) 0
    rw [hzero] at hover
    rw [Fs.touch_file, Contents.cstr_of_notMem hnul, hover]
    rfl

theorem symlink_isSome (hs : Settled s) {target : Str} (hempty : (s.file s.count).data = [])
    (hnul : '\x00' ∉ target) (hlen : target.length < 2^31) :
    (mySymlink e target path s).isSome = true := by
  rw [mySymlink]
  simp only [findIno_eq]
  by_cases hdots : IsDots (tail path)
  · rw [if_pos hdots]
    rfl
  rw [if_neg hdots]
  by_cases hl : resolve s.file path ≠ 0
  · rw [if_pos hl]
    rfl
  rw [if_neg hl]
  rcases hm : myCreat e path 666#32 (s.touch (real s.file path)) with ⟨err,t⟩
  by_cases herr : err = -1
  · simp only [herr, if_true, Option.isSome_some]
  simp only [herr, if_false]
  rw [myCreat, if_neg hdots] at hm
  have hdata := mknod_data (settled_touch hs _) hm
  rw [Fs.touch_count, Fs.touch_file, hempty] at hdata
  have hfound : resolve t.file path = 0 ∨ resolve t.file path = s.count := by
    obtain ⟨-,-,-,f,hnew,-,hcase⟩ := myMknod_effect (settled_touch hs _) hm
    rw [Fs.touch_count] at hnew hcase
    rw [Fs.touch_file] at hcase
    obtain ⟨-,hgo,-,hview⟩ := hcase.resolve_left (fun hc => herr hc.1)
    have hu0 := untyped hs.sentinel
    have hkind : typeBits (S_IFREG ||| 666#32) = S_IFREG := by decide
    have hreg : f.isReg = true := by rw [File.isReg, S_ISREG_eq, hnew.type, hkind, beq_self_eq_true]
    rw [hview]
    exact hs.fresh.resolve_entered hu0.1 hu0.2.2 f (isDir_of_isReg hreg)
      ((type_exclusive f).2 hreg) (hs.fresh.resolve_ne (parentPath path)) _ _ hgo.2
  have hwrite : (myPwrite (resolve t.file path) target target.length 0
      (t.touch (real t.file path))).isSome = true := by
    refine pwrite_isSome hnul (fun h0 => ?_)
    rw [Fs.touch_file, hfound.resolve_left h0, hdata, List.length_nil, Nat.zero_add]
    exact hlen
  obtain ⟨x,hx⟩ := Option.isSome_iff_exists.mp hwrite
  simp only [hx]
  split_ifs <;> rfl

theorem advance_of_answer {c : Call} (hlow : s.count < 2^31)
    (h : (answer e c s).isSome = true) : ∃ s', advance (e,c) s = some s' := by
  obtain ⟨x,hx⟩ := Option.isSome_iff_exists.mp h
  refine ⟨x.2,?_⟩
  rw [advance, if_pos hlow, hx]
  rfl

theorem Proper.ready (h : Proper (l++[(ws++[w],node)])) (hb : Built S l) : Ready S ws w := by
  have hmem : (ws++[w],node) ∈ l++[(ws++[w],node)] := by simp
  obtain ⟨h0,hplain⟩ := h.names _ hmem
  refine ⟨hplain,?_,hb.only _ h0 ?_⟩
  · rcases h.below l.length ws w node (List.getElem?_concat_length ..) with rfl | ⟨j,hj,hdir⟩
    · rw [typeAt, hb.root]
      rfl
    · rw [List.getElem?_append_left hj] at hdir
      rw [typeAt, (hb.node j ws .dir hdir).1]
      rfl
  · have honce := h.once
    rw [List.map_append] at honce
    intro hin
    exact (List.nodup_append.mp honce).2.2 _ hin _ (List.mem_singleton_self _) rfl

theorem make_advances (h : Stands s S) (hr : Ready S ws w)
    (hd : '\x00' ∉ node.data ∧ node.data.length < 2^31) (hlow : s.count < 2^31) :
    ∃ s', advance (e,node.make (absolute (ws++[w]))) s = some s' ∧
      Stands s' (S.act (node.make (absolute (ws++[w])))).2 := by
  have hs := h.names.settled
  have hanswer : (answer e (node.make (absolute (ws++[w]))) s).isSome = true := by
    cases node with
    | dir => rfl
    | file data => rfl
    | link target =>
      exact symlink_isSome hs (h.spare s.count le_rfl hs.fresh.ne_err) hd.1 hd.2
  obtain ⟨s',hm⟩ := advance_of_answer hlow hanswer
  exact ⟨s',hm,stands_step (e,_) s S s' h (make_allows hr h.names hd) hm⟩

theorem built_fill {data : Str} (h : Built S (l++[(us,.file [])])) :
    Built (S.edit (3+l.length) (.write data (BitVec.ofInt 64 0))) (l++[(us,.file data)]) := by
  refine ⟨?_,h.root,fun i vs other hi => ?_,fun vs h0 hnot => h.only vs h0 ?_⟩
  · rw [List.length_append]
    exact h.next.trans (by rw [List.length_append]; rfl)
  · change S.names.tree.label vs = _ ∧ S.kind (3+i) = _ ∧
      Function.update S.image (3+l.length) _ (3+i) = _
    rcases getElem?_concat hi with ⟨rfl,hx⟩ | ⟨hlt,hold⟩
    · obtain ⟨rfl,rfl⟩ := Prod.mk.inj hx
      obtain ⟨hl,hk,himage⟩ := h.node l.length us (.file []) (List.getElem?_concat_length ..)
      rw [Function.update_self, himage]
      exact ⟨hl,hk,apply_write⟩
    · rw [Function.update_of_ne (by omega)]
      exact h.node i vs other (by rwa [List.getElem?_append_left hlt])
  · simpa using hnot

theorem fill_advances {data : Str} (h : Stands s S) (hb : Built S (l++[(us,.file [])]))
    (hd : '\x00' ∉ data ∧ data.length < 2^31) (hlow : s.count < 2^31) :
    ∃ s', advance (e,.pwrite (3+l.length) data data.length 0) s = some s' ∧
      Stands s' (S.edit (3+l.length) (.write data (BitVec.ofInt 64 0))) := by
  obtain ⟨hl,hk,himage⟩ := hb.node l.length us (.file []) (List.getElem?_concat_length ..)
  have hlive : Live S.names (3+l.length) := Or.inl ⟨us,_,hl⟩
  have hempty : (s.file (3+l.length)).data.length = 0 := by
    rw [h.image _ hlive] at himage
    exact congrArg Contents.Image.length himage
  have hanswer : (answer e (.pwrite (3+l.length) data data.length 0) s).isSome = true := by
    change (myPwrite (3+l.length) data data.length 0 s).isSome = true
    refine pwrite_isSome hd.1 (fun _ => ?_)
    rw [hempty, Nat.zero_add]
    exact hd.2
  obtain ⟨s',hm⟩ := advance_of_answer hlow hanswer
  have hfits : (Contents.FileOp.write data (BitVec.ofInt 64 0)).Fits (S.image (3+l.length)) := by
    rw [himage]
    refine ⟨hd.1,?_⟩
    change 0+data.length < 2^31
    rw [Nat.zero_add]
    exact hd.2
  have hallows : allows (e,.pwrite (3+l.length) data data.length 0) S :=
    ⟨Or.inl rfl,hlive,rfl,by decide,hfits⟩
  have hstands := stands_step _ s S s' h hallows hm
  rw [storeNext, Store.act, if_pos (show S.kind (3+l.length) = S_IFREG from hk)] at hstands
  exact ⟨s',hm,hstands⟩

theorem build_next (h : Proper (l++[(us,node)])) (hs : Stands s S) (hb : Built S l) :
    ∃ s' S', exec advance
        ((node.make (absolute us)::node.fill (3+l.length)).map (fun c => (e,c))) s = some s' ∧
      Stands s' S' ∧ Built S' (l++[(us,node)]) := by
  have hmem : (us,node) ∈ l++[(us,node)] := by simp
  obtain ⟨ws,w,rfl⟩ : ∃ ws w, us = ws++[w] :=
    (List.eq_nil_or_concat' us).resolve_left (h.names _ hmem).1
  have hfew := h.few
  rw [List.length_append, List.length_singleton] at hfew
  have hr := h.ready hb
  have hlow : s.count < 2^31 := by
    rw [← hs.names.next, hb.next]
    omega
  have hdata : '\x00' ∉ node.data ∧ node.data.length < 2^31 := h.data _ hmem
  obtain ⟨t,hm,ht⟩ := make_advances (e := e) hs hr hdata hlow
  have hbuilt := built_make hr hs.names hb node
  cases node with
  | dir => exact ⟨t,_,by simp [Node.fill, exec, hm],ht,hbuilt⟩
  | link target => exact ⟨t,_,by simp [Node.fill, exec, hm],ht,hbuilt⟩
  | file data =>
    have hlow' : t.count < 2^31 := by
      rw [← ht.names.next, hbuilt.next, List.length_append, List.length_singleton]
      omega
    have hfill : '\x00' ∉ data ∧ data.length < 2^31 := hdata
    obtain ⟨s',hm',hs'⟩ := fill_advances (e := e) ht hbuilt hfill hlow'
    exact ⟨s',_,by simp [Node.fill, exec, hm, hm'],hs',built_fill hbuilt⟩

theorem Proper.init {x : List Str × Node} (h : Proper (l++[x])) : Proper l := by
  refine ⟨fun y hy => h.names y (List.mem_append_left _ hy),?_,fun i ws w node hi => ?_,
    fun y hy => h.data y (List.mem_append_left _ hy),?_⟩
  · have honce := h.once
    rw [List.map_append] at honce
    exact (List.nodup_append.mp honce).1
  · have hlt : i < l.length := (List.getElem?_eq_some_iff.mp hi).1
    refine (h.below i ws w node (by rwa [List.getElem?_append_left hlt])).imp_right ?_
    rintro ⟨j,hj,hdir⟩
    rw [List.getElem?_append_left (hj.trans hlt)] at hdir
    exact ⟨j,hj,hdir⟩
  · have hfew := h.few
    rw [List.length_append] at hfew
    omega

theorem calls_concat (n : ℕ) (l : Layout) (x : List Str × Node) :
    calls n (l++[x]) = calls n l++x.2.make (absolute x.1)::x.2.fill (n+l.length) := by
  induction l generalizing n with
  | nil => simp [calls]
  | cons y l ih =>
    rw [List.cons_append, calls, ih, calls, List.length_cons]
    simp [Nat.add_assoc, Nat.add_comm 1]

/-- Every proper layout is built by its calls. -/
theorem build (env : Env) (h : Proper l) :
    ∃ s S, exec advance ((calls 3 l).map (fun c => (env,c))) (initialized env) = some s ∧
      Stands s S ∧ Built S l := by
  induction l using List.reverseRecOn with
  | nil =>
    refine ⟨_,start,rfl,start_stands env,rfl,rfl,fun i ws node hi => ?_,fun ws h0 _ => if_neg h0⟩
    rw [List.getElem?_nil] at hi
    exact absurd hi.symm (Option.some_ne_none _)
  | append_singleton l x ih =>
    obtain ⟨s,S,hexec,hs,hb⟩ := ih h.init
    obtain ⟨s',S',hnext,hs',hb'⟩ := build_next (e := env) h hs hb
    refine ⟨s',S',?_,hs',hb'⟩
    rw [calls_concat, List.map_append, exec_append, hexec]
    exact hnext

/-- The table is the layout: what is listed is found with its type, its bytes are
read and its target if it is a link, and no path leads to anything else. -/
structure Restored (s : Fs) (l : Layout) : Prop where
  found : ∀ (i : ℕ) ws node, l[i]? = some (ws,node) → (findRealIno (absolute ws) s).1 = 3+i ∧
    typeBits (s.file (3+i)).metadata.stMode = node.kind
  read : ∀ (i : ℕ) ws data off size, l[i]? = some (ws,.file data) → 0 < size →
    off+size ≤ data.length → (myPread (3+i) size off s).1 = .stored size ((data.drop off).take size)
  linked : ∀ (i : ℕ) ws target size, l[i]? = some (ws,.link target) → target.length < size →
    size < 2^31 → (myReadlink (absolute ws) size s).1 = .stored ok target
  only : ∀ path, (findRealIno path s).1 ≠ 0 → lexical path = [] ∨
    ∃ i node, l[i]? = some (lexical path,node) ∧ (findRealIno path s).1 = 3+i

theorem imageOf_eq (data : Str) :
    imageOf data = Contents.image { (default : File) with data := data } := rfl

theorem text_range {data : Str} {off size : ℕ} (h : off+size ≤ data.length) :
    text (imageOf data) off size = (data.drop off).take size := by
  rw [imageOf_eq, text_image h]
  rfl

theorem text_all (data : Str) : text (imageOf data) 0 (imageOf data).length = data := by
  rw [imageOf_eq, text_whole]

theorem Built.place (hb : Built S l) (hs : Stands s S) (h : Proper l) {i : ℕ}
    (hi : l[i]? = some (ws,node)) :
    (place S.names.tree (absolute ws)).bind S.names.tree.label = some (3+i,node.kind) := by
  obtain ⟨hl,-,-⟩ := hb.node i ws node hi
  have hplain := (h.names _ (List.mem_of_getElem? hi)).2
  rw [place_absolute hs.names hplain, if_pos (by rw [hl]; rfl)]
  exact hl

theorem restored (hb : Built S l) (hs : Stands s S) (h : Proper l) : Restored s l := by
  have hlive : ∀ {i : ℕ} {ws node}, l[i]? = some (ws,node) → Live S.names (3+i) :=
    fun hi => Or.inl ⟨_,_,(hb.node _ _ _ hi).1⟩
  refine ⟨fun i ws node hi => ?_,fun i ws data off size hi hpos hin => ?_,
    fun i ws target size hi hroom hsize => ?_,fun path hne => ?_⟩
  · have hfound := hs.found (absolute ws)
    rw [hb.place hs h hi] at hfound
    split_ifs at hfound with h0
    obtain ⟨hk,-⟩ := Prod.mk.inj (Option.some.inj hfound)
    exact ⟨hk.symm,(hs.kind _ (hlive hi)).symm.trans (hb.node i ws node hi).2.1⟩
  · obtain ⟨-,hk,himage⟩ := hb.node i ws (.file data) hi
    obtain ⟨hnul,hlen⟩ := h.data _ (List.mem_of_getElem? hi)
    have himage : S.image (3+i) = imageOf data := himage
    have hreg : S.kind (3+i) ≠ S_IFDIR := by
      have hne : S_IFREG ≠ S_IFDIR := by decide
      exact fun hd => hne (hk.symm.trans hd)
    have hread := hs.read off size (hlive hi) hreg hpos
    rw [himage, text_range hin] at hread
    refine hread hin hlen (fun hc => hnul ?_)
    exact List.mem_of_mem_drop (List.mem_of_mem_take hc)
  · obtain ⟨-,-,himage⟩ := hb.node i ws (.link target) hi
    obtain ⟨hnul,-⟩ := h.data _ (List.mem_of_getElem? hi)
    have himage : S.image (3+i) = imageOf target := himage
    have hread := hs.linked size (hb.place hs h hi)
    rw [himage, text_all] at hread
    exact hread hroom hsize hnul
  · have hfound := hs.found path
    rw [if_neg hne] at hfound
    obtain ⟨us,hplace,hl⟩ := Option.bind_eq_some_iff.mp hfound
    have hreal := place_real hs.names.orderly hs.names.label path
    rw [findRealIno_eq] at hne
    rw [if_neg hne, hplace] at hreal
    obtain rfl := Option.some.inj hreal
    rcases eq_or_ne (lexical path) [] with h0 | h0
    · exact Or.inl h0
    · right
      by_contra hnot
      have hmem : lexical path ∈ l.map Prod.fst := by
        by_contra hout
        rw [hb.only _ h0 hout] at hl
        exact absurd hl.symm (Option.some_ne_none _)
      obtain ⟨⟨vs,node⟩,hx,hvs⟩ := List.mem_map.mp hmem
      obtain ⟨i,hi⟩ := List.mem_iff_getElem?.mp hx
      obtain rfl : vs = lexical path := hvs
      rw [(hb.node i _ node hi).1] at hl
      exact hnot ⟨i,node,hi,(Prod.mk.inj (Option.some.inj hl)).1.symm⟩

def bookLayout : Layout :=
  [([['d']],.dir),([['d'],['f']],.file ['a','b','c']),([['l']],.link ['d','/','f'])]

theorem bookLayout_proper : Proper bookLayout := by
  refine ⟨by decide,by decide,fun i ws w node hi => ?_,by decide,by decide⟩
  rw [show ws = (ws++[w]).dropLast from List.dropLast_concat.symm]
  rcases i with _ | _ | _ | i
  · obtain ⟨hws,-⟩ := Prod.mk.inj (Option.some.inj hi)
    exact Or.inl (hws ▸ rfl)
  · obtain ⟨hws,-⟩ := Prod.mk.inj (Option.some.inj hi)
    exact Or.inr ⟨0,Nat.one_pos,hws ▸ rfl⟩
  · obtain ⟨hws,-⟩ := Prod.mk.inj (Option.some.inj hi)
    exact Or.inl (hws ▸ rfl)
  · exact absurd hi.symm (Option.some_ne_none _)

end Bbfs.Building
