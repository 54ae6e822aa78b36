import Bbfs.Contents
import Bbfs.FuseOpen

/-!
# Bytes of open files in the FUSE variant

`my_pwrite` and `my_pread` hold the count against the whole length of the
buffer, whatever the offset, and nothing makes a buffer longer. Writes go to
unchecked positions; reads are checked and throw. A position outside a buffer,
or an `int` that overflows, gives no result.
-/

set_option autoImplicit false

namespace Bbfs.FuseBytes
open Bbfs.Strings Bbfs.Files Bbfs.Resolve Bbfs.ZeroExtended Bbfs.Contents
open Bbfs.FuseCalls Bbfs.FuseTable Bbfs.FuseOpen Bbfs.Runs

def holder (t : Table) (node : ℕ) : Option ℕ :=
  let ks := t.keys.filter (fun k => nodeAt t k = some node)
  if ks = ∅ then none else some (ks.sup id)

def deref (t : Table) (node : ℕ) : Option (ℕ × MyInode) :=
  (holder t node).bind (fun k => (t.lookup k).map (fun i => (k, i)))

def IsInt (x : ℤ) : Prop := -2^31 ≤ x ∧ x < 2^31

instance (x : ℤ) : Decidable (IsInt x) := inferInstanceAs (Decidable (_ ∧ _))

def charAt (v : Str) (index : ℤ) : Option Char := if index < 0 then none else v[index.toNat]?

def strlen (mem : Str) : Option ℕ := if '\x00' ∈ mem then some (cstr mem).length else none

/-- `bytes_read`; the `int` is compared as an unsigned number. -/
def bytesRead (count size : ℕ) : ℤ :=
  if toU64 (toInt32 count) > size then toInt32 size else toInt32 count

def preadLoop (tempBuf : Str) : ℕ → ℤ → Str → Option Str
  | 0, _, str => some str
  | n+1, index, str =>
    match charAt tempBuf index with
    | none => none
    | some c => preadLoop tempBuf n (index+1) (str++[c])

/-- The string is the one copied to the caller's memory, if any, where a NUL
follows it. -/
def myPread (fd : ℤ) (count : ℕ) (offset : ℤ) (s : Fuse) : Option (ℤ × Option Str) :=
  match s.openFT.lookup (toU64 fd) with
  | none => some (anErr, none)
  | some tempFile =>
    match deref s.ilist tempFile.fInode with
    | none => none
    | some (_, i) =>
      let bytes := bytesRead count i.buf.length
      let index := toInt32 offset
      if IsInt (bytes+index) then
        (preadLoop i.buf bytes.toNat index []).map (fun str => (bytes, some (cstr str)))
      else none

def bytesToWrite (buf : Str) (count size : ℕ) : Option ℤ :=
  if toU64 (toInt32 count) > size then (strlen buf).map (fun n => toInt32 n)
  else some (toInt32 count)

def pwriteLoop (buf : Str) (offset : ℤ) : ℕ → ℕ → Str → Option Str
  | 0, _, data => some data
  | n+1, index, data =>
    match buf[index]?, charAt data (index+offset) with
    | some c, some _ => pwriteLoop buf offset n (index+1) (data.set (index+offset).toNat c)
    | _, _ => none

/-- The string `buf` is the memory from the caller's pointer on. -/
def myPwrite (fd : ℤ) (buf : Str) (count : ℕ) (offset : ℤ) (s : Fuse) : Option (ℤ × Fuse) :=
  match s.openFT.lookup (toU64 fd) with
  | none => some (anErr, s)
  | some tempFile =>
    match deref s.ilist tempFile.fInode with
    | none => none
    | some (k, i) =>
      (bytesToWrite buf count i.buf.length).bind (fun bytes =>
        (pwriteLoop buf offset bytes.toNat 0 i.buf).map (fun data =>
          (bytes, { s with ilist := s.ilist.insert k { i with buf := data } })))

variable {s s' : Fuse} {t : Table} {f : MyFile} {i : MyInode} {k node n index : ℕ} {fd : ℤ}
  {v buf data str : Str} {count offset : ℕ}

theorem holder_mem (h : holder t node = some k) : nodeAt t k = some node := by
  simp only [holder] at h
  split_ifs at h with hempty
  obtain ⟨m,hm,hsup⟩ := Finset.exists_mem_eq_sup _ (Finset.nonempty_iff_ne_empty.mpr hempty) id
  rw [← Option.some.inj h, hsup]
  exact (Finset.mem_filter.mp hm).2

theorem deref_some : deref t node = some (k,i) ↔ holder t node = some k ∧ t.lookup k = some i := by
  rw [deref, Option.bind_eq_some_iff]
  constructor
  · intro ⟨m,hm,h⟩
    obtain ⟨j,hj,he⟩ := Option.map_eq_some_iff.mp h
    obtain ⟨rfl,rfl⟩ := Prod.mk.inj he
    exact ⟨hm,hj⟩
  · intro ⟨hk,hi⟩
    exact ⟨k,hk,by rw [hi]; rfl⟩

theorem deref_held (h : nodeAt t k = some node)
    (hu : ∀ k', nodeAt t k' = some node → k' = k) : ∃ i, deref t node = some (k,i) := by
  obtain ⟨i,hi,-⟩ := Option.map_eq_some_iff.mp h
  cases hh : holder t node with
  | none =>
    simp only [holder] at hh
    split_ifs at hh with hempty
    have hk : k ∈ t.keys.filter (fun k => nodeAt t k = some node) :=
      Finset.mem_filter.mpr ⟨Finmap.mem_keys.mpr (mem_of_lookup hi),h⟩
    rw [hempty] at hk
    exact absurd hk (Finset.notMem_empty k)
  | some k' =>
    obtain rfl := hu k' (holder_mem hh)
    exact ⟨i,deref_some.mpr ⟨hh,hi⟩⟩

theorem open_deref (hs : Settled s) (hv : OpenValid s) {g : ℕ}
    (hf : s.openFT.lookup g = some f) : ∃ k i, deref s.ilist f.fInode = some (k,i) := by
  obtain ⟨k,hk⟩ := hv.held g f hf
  exact ⟨k,deref_held hk (fun k' hk' => hs.apart k' k _ hk' hk)⟩

theorem deref_stored (h : deref t node = some (k,i)) (data : Str) :
    deref (t.insert k { i with buf := data }) node = some (k,{ i with buf := data }) := by
  obtain ⟨hk,hi⟩ := deref_some.mp h
  have hkeys : (t.insert k { i with buf := data }).keys = t.keys := by
    ext j
    rw [Finmap.mem_keys, Finmap.mem_keys, Finmap.mem_insert]
    exact or_iff_right_of_imp (fun hj => hj ▸ mem_of_lookup hi)
  have hnode : nodeAt (t.insert k { i with buf := data }) = nodeAt t := nodeAt_modify hi rfl
  refine deref_some.mpr ⟨?_,Finmap.lookup_insert _⟩
  rw [holder, hkeys, hnode]
  exact hk

theorem charAt_natCast (v : Str) (index : ℕ) : charAt v index = v[index]? := by
  rw [charAt, if_neg (by omega), Int.toNat_natCast]

theorem preadLoop_inside (h : index+n ≤ v.length) (str : Str) :
    preadLoop v n index str = some (str++(v.drop index).take n) := by
  induction n generalizing index str with
  | zero => simp [preadLoop]
  | succ n ih =>
    have hlt : index < v.length := by omega
    have hnext : (index:ℤ)+1 = ((index+1:ℕ):ℤ) := by omega
    rw [preadLoop, charAt_natCast, List.getElem?_eq_getElem hlt]
    show preadLoop v n ((index:ℤ)+1) (str++[v[index]]) = _
    rw [hnext, ih (by omega), List.drop_eq_getElem_cons hlt, List.take_succ_cons, List.append_assoc,
      List.singleton_append]

theorem preadLoop_isSome (n : ℕ) (index : ℤ) (str : Str) :
    (preadLoop v n index str).isSome = true ↔ n = 0 ∨ 0 ≤ index ∧ index+n ≤ v.length := by
  induction n generalizing index str with
  | zero => simp [preadLoop]
  | succ n ih =>
    rw [preadLoop]
    cases hc : charAt v index with
    | none =>
      have hout : index < 0 ∨ (v.length:ℤ) ≤ index := by
        rw [charAt] at hc
        split_ifs at hc with hneg
        · exact Or.inl hneg
        · have hle := List.getElem?_eq_none_iff.mp hc
          omega
      simp only [Option.isSome_none, Bool.false_eq_true, false_iff]
      omega
    | some c =>
      have hin : 0 ≤ index ∧ index < v.length := by
        rw [charAt] at hc
        split_ifs at hc with hneg
        have hlt := (List.getElem?_eq_some_iff.mp hc).1
        omega
      simp only [ih]
      omega

theorem pwriteLoop_inside (hbuf : index+n ≤ buf.length) (hdata : index+offset+n ≤ data.length) :
    pwriteLoop buf offset n index data =
      some (splice data (index+offset) ((buf.drop index).take n)) := by
  induction n generalizing index data with
  | zero => rw [pwriteLoop, List.take_zero, splice_nil]
  | succ n ih =>
    have hlt : index < buf.length := by omega
    have hpos : index+offset < data.length := by omega
    have hcast : (index:ℤ)+offset = ((index+offset:ℕ):ℤ) := by omega
    have hnext : index+1+offset = index+offset+1 := by omega
    rw [pwriteLoop, hcast, charAt_natCast, List.getElem?_eq_getElem hlt,
      List.getElem?_eq_getElem hpos]
    show pwriteLoop buf offset n (index+1) (data.set ((index+offset:ℕ):ℤ).toNat buf[index]) = _
    rw [Int.toNat_natCast, ih (by omega) (by rw [List.length_set]; omega), hnext,
      splice_set hpos, List.drop_eq_getElem_cons hlt, List.take_succ_cons]

theorem pwriteLoop_isSome (n index : ℕ) (data : Str) :
    (pwriteLoop buf offset n index data).isSome = true ↔
      n = 0 ∨ index+n ≤ buf.length ∧ index+offset+n ≤ data.length := by
  induction n generalizing index data with
  | zero => simp [pwriteLoop]
  | succ n ih =>
    have hcast : (index:ℤ)+offset = ((index+offset:ℕ):ℤ) := by omega
    rw [pwriteLoop, hcast, charAt_natCast]
    by_cases hbuf : index < buf.length
    · by_cases hdata : index+offset < data.length
      · rw [List.getElem?_eq_getElem hbuf, List.getElem?_eq_getElem hdata]
        simp only [ih, List.length_set]
        omega
      · rw [List.getElem?_eq_none (Nat.le_of_not_lt hdata)]
        cases buf[index]? <;> simp <;> omega
    · rw [List.getElem?_eq_none (Nat.le_of_not_lt hbuf)]
      simp
      omega

theorem myPread_eq (hf : s.openFT.lookup (toU64 fd) = some f)
    (hd : deref s.ilist f.fInode = some (k,i)) (count : ℕ) (offset : ℤ) :
    myPread fd count offset s =
      if IsInt (bytesRead count i.buf.length+toInt32 offset) then
        (preadLoop i.buf (bytesRead count i.buf.length).toNat (toInt32 offset) []).map
          (fun str => (bytesRead count i.buf.length,some (cstr str)))
      else none := by
  simp only [myPread, hf, hd]

theorem myPwrite_eq (hf : s.openFT.lookup (toU64 fd) = some f)
    (hd : deref s.ilist f.fInode = some (k,i)) (buf : Str) (count : ℕ) (offset : ℤ) :
    myPwrite fd buf count offset s =
      (bytesToWrite buf count i.buf.length).bind (fun bytes =>
        (pwriteLoop buf offset bytes.toNat 0 i.buf).map (fun data =>
          (bytes,{ s with ilist := s.ilist.insert k { i with buf := data } }))) := by
  simp only [myPwrite, hf, hd]

/-- The bytes fit, and no conversion changes the numbers in use: what is written
is counted and read back. The read starts at the offset as an `int`; past
`2^31` it looks elsewhere, where the bytes may be by chance. -/
def KeepsBytes (data buf : Str) (count offset : ℕ) : Prop :=
  count = 0 ∨ offset+count ≤ data.length ∧ 0 ≤ toInt32 offset ∧ toInt32 offset+count < 2^31 ∧
    (offset < 2^31 ∨ (data.drop (toInt32 offset).toNat).take count = buf.take count)

def Inside (size : ℕ) (bytes offset : ℤ) : Prop :=
  IsInt (bytes+offset) ∧ (bytes ≤ 0 ∨ 0 ≤ offset ∧ bytes+offset ≤ size)

def ReadsInside (size count : ℕ) (offset : ℤ) : Prop :=
  if toU64 (toInt32 count) ≤ size then Inside size (toInt32 count) (toInt32 offset)
  else Inside size (toInt32 size) (toInt32 offset)

/-- The bytes are written inside the buffer and counted, and a read at the same
place counts and stores them. -/
def ReadBack (fd : ℤ) (buf : Str) (count offset : ℕ) (s : Fuse) : Prop :=
  ∃ s', myPwrite fd buf count offset s = some ((count:ℤ),s') ∧
    myPread fd count offset s' = some ((count:ℤ),some (buf.take count))

def ReadSafe (fd : ℤ) (count : ℕ) (offset : ℤ) (s : Fuse) : Prop :=
  (myPread fd count offset s).isSome = true

theorem readSafe_iff (hf : s.openFT.lookup (toU64 fd) = some f)
    (hd : deref s.ilist f.fInode = some (k,i)) (count : ℕ) (offset : ℤ) :
    ReadSafe fd count offset s ↔ ReadsInside i.buf.length count offset := by
  have hinside : ∀ bytes : ℤ, (IsInt (bytes+toInt32 offset) ∧
      (bytes.toNat = 0 ∨ 0 ≤ toInt32 offset ∧ toInt32 offset+bytes.toNat ≤ i.buf.length)) ↔
        Inside i.buf.length bytes (toInt32 offset) := by
    intro bytes
    rw [Inside]
    apply and_congr_right
    omega
  have hbytes : ReadSafe fd count offset s ↔
      Inside i.buf.length (bytesRead count i.buf.length) (toInt32 offset) := by
    rw [ReadSafe, myPread_eq hf hd, ← hinside]
    split_ifs with hint
    · rw [Option.isSome_map, preadLoop_isSome, and_iff_right hint]
    · exact iff_of_false Bool.false_ne_true (fun h => hint h.1)
  rw [hbytes, ReadsInside, bytesRead]
  by_cases hclip : toU64 (toInt32 count) > i.buf.length
  · rw [if_pos hclip, if_neg (Nat.not_le_of_gt hclip)]
  · rw [if_neg hclip, if_pos (Nat.le_of_not_gt hclip)]

def written (buf : Str) (count offset k : ℕ) (i : MyInode) (s : Fuse) : Fuse :=
  { s with ilist := s.ilist.insert k { i with buf := splice i.buf offset (buf.take count) } }

theorem myPwrite_counts (hf : s.openFT.lookup (toU64 fd) = some f)
    (hd : deref s.ilist f.fInode = some (k,i))
    (h : myPwrite fd buf count offset s = some ((count:ℤ),s')) :
    count < 2^31 ∧ (count = 0 ∨ count ≤ buf.length ∧ offset+count ≤ i.buf.length) ∧
      s' = written buf count offset k i s := by
  rw [myPwrite_eq hf hd] at h
  obtain ⟨bytes,hb,h⟩ := Option.bind_eq_some_iff.mp h
  obtain ⟨data,hdata,he⟩ := Option.map_eq_some_iff.mp h
  obtain ⟨rfl,rfl⟩ := Prod.mk.inj he
  have hint : (count:ℤ) < 2^31 := by
    rw [bytesToWrite] at hb
    split_ifs at hb
    · obtain ⟨n,-,hn⟩ := Option.map_eq_some_iff.mp hb
      exact hn ▸ (toInt32_range n).2
    · exact Option.some.inj hb ▸ (toInt32_range count).2
  rw [Int.toNat_natCast] at hdata
  have hfits := (pwriteLoop_isSome count 0 i.buf).mp (Option.isSome_iff_exists.mpr ⟨data,hdata⟩)
  simp only [Nat.zero_add] at hfits
  refine ⟨by omega,hfits,?_⟩
  have hsplice : data = splice i.buf offset (buf.take count) := by
    rcases hfits with rfl | ⟨hbuf,hin⟩
    · rw [List.take_zero, splice_nil]
      exact (Option.some.inj hdata).symm
    · rw [pwriteLoop_inside (by omega) (by omega)] at hdata
      rw [← Option.some.inj hdata, List.drop_zero, Nat.zero_add]
  rw [written, hsplice]

theorem toU64_count (h : count < 2^31) : toU64 (toInt32 count) = count := by
  rw [toInt32_natCast h]
  exact toU64_natCast (by omega)

theorem myPwrite_fits (hf : s.openFT.lookup (toU64 fd) = some f)
    (hd : deref s.ilist f.fInode = some (k,i)) (hcount : count < 2^31)
    (h : count = 0 ∨ count ≤ buf.length ∧ offset+count ≤ i.buf.length) :
    myPwrite fd buf count offset s = some ((count:ℤ),written buf count offset k i s) := by
  have hbytes : bytesToWrite buf count i.buf.length = some (count:ℤ) := by
    rw [bytesToWrite, toU64_count hcount, toInt32_natCast hcount, if_neg (by omega)]
  have hloop : pwriteLoop buf offset count 0 i.buf =
      some (splice i.buf offset (buf.take count)) := by
    rcases h with rfl | ⟨hbuf,hin⟩
    · rw [pwriteLoop, List.take_zero, splice_nil]
    · rw [pwriteLoop_inside (by omega) (by omega), List.drop_zero, Nat.zero_add]
  rw [myPwrite_eq hf hd, hbytes, Option.bind_some, Int.toNat_natCast, hloop, Option.map_some,
    written]

theorem take_drop_splice_ahead {e o : ℕ} {l str : Str} (h : o+n ≤ e) (he : e ≤ l.length) :
    ((splice l e str).drop o).take n = (l.drop o).take n := by
  have hlen : (l.take e).length = e := by
    rw [List.length_take]
    omega
  rw [splice, List.drop_append_of_le_length (by omega),
    List.take_append_of_le_length (by rw [List.length_drop]; omega), List.drop_take, List.take_take,
    Nat.min_eq_left (by omega)]

theorem cstr_eq_iff {xs w : Str} (hlen : xs.length = w.length) (hw : '\x00' ∉ w) :
    cstr xs = w ↔ xs = w := by
  constructor
  · intro h
    have hpre : cstr xs <+: xs := List.takeWhile_prefix _
    rw [h] at hpre
    exact (hpre.eq_of_length hlen.symm).symm
  · rintro rfl
    exact cstr_of_notMem hw

theorem myPread_counts (hf : s.openFT.lookup (toU64 fd) = some f)
    (hd : deref s.ilist f.fInode = some (k,i)) (hcount : count < 2^31)
    (hle : count ≤ i.buf.length) (hpos : count ≠ 0) (w : Str) :
    myPread fd count offset s = some ((count:ℤ),some w) ↔
      0 ≤ toInt32 offset ∧ toInt32 offset+count < 2^31 ∧ toInt32 offset+count ≤ i.buf.length ∧
        cstr ((i.buf.drop (toInt32 offset).toNat).take count) = w := by
  have hbytes : bytesRead count i.buf.length = count := by
    rw [bytesRead, toU64_count hcount, toInt32_natCast hcount, if_neg (by omega)]
  rw [myPread_eq hf hd, hbytes, Int.toNat_natCast]
  have hsome := preadLoop_isSome (v := i.buf) count (toInt32 offset) []
  by_cases hin : 0 ≤ toInt32 offset ∧ toInt32 offset+count ≤ i.buf.length
  · obtain ⟨o,ho⟩ := Int.eq_ofNat_of_zero_le hin.1
    rw [ho] at hin ⊢
    rw [preadLoop_inside (by omega), List.nil_append, Int.toNat_natCast]
    by_cases hint : IsInt ((count:ℤ)+o)
    · rw [if_pos hint, Option.map_some]
      have hlt := hint.2
      have hrange : (0:ℤ) ≤ o ∧ (o:ℤ)+count < 2^31 ∧ (o:ℤ)+count ≤ i.buf.length := by omega
      simp only [Option.some.injEq, Prod.mk.injEq, true_and]
      exact ⟨fun h => ⟨hrange.1,hrange.2.1,hrange.2.2,h⟩,fun h => h.2.2.2⟩
    · rw [if_neg hint]
      refine iff_of_false nofun (fun h => hint ?_)
      rw [IsInt]
      omega
  · have hnone : preadLoop i.buf count (toInt32 offset) [] = none := by
      rw [← Option.not_isSome_iff_eq_none, hsome]
      omega
    rw [hnone, Option.map_none, ite_self]
    exact iff_of_false nofun (fun h => hin ⟨h.1,h.2.2.1⟩)

theorem readBack_zero (hf : s.openFT.lookup (toU64 fd) = some f)
    (hd : deref s.ilist f.fInode = some (k,i)) (buf : Str) (offset : ℕ) :
    ReadBack fd buf 0 offset s := by
  have hwrite : myPwrite fd buf 0 offset s = some (((0:ℕ):ℤ),written buf 0 offset k i s) :=
    myPwrite_fits hf hd (by omega) (Or.inl rfl)
  refine ⟨_,hwrite,?_⟩
  have hd' : deref (written buf 0 offset k i s).ilist f.fInode =
      some (k,{ i with buf := splice i.buf offset (buf.take 0) }) := deref_stored hd _
  have hbytes : ∀ size, bytesRead 0 size = 0 := by
    intro size
    have h0 : toU64 (toInt32 ((0:ℕ):ℤ)) = 0 := toU64_count (by omega)
    rw [bytesRead, h0, if_neg (Nat.not_lt_zero size)]
    rfl
  have hrange := toInt32_range offset
  have hint : IsInt (0+toInt32 offset) := by rw [IsInt]; omega
  rw [myPread_eq (s := written buf 0 offset k i s) hf hd', hbytes, if_pos hint]
  rfl

theorem written_read {o : ℕ} (ho : toInt32 offset = o) (hlt : o+count < 2^31)
    (hbuf : count ≤ buf.length) (hnul : '\x00' ∉ buf.take count)
    (hin : offset+count ≤ data.length) :
    cstr (((splice data offset (buf.take count)).drop o).take count) = buf.take count ↔
      offset < 2^31 ∨ (data.drop o).take count = buf.take count := by
  have htake : (buf.take count).length = count := by
    rw [List.length_take]
    omega
  by_cases hsmall : offset < 2^31
  · have heq : o = offset := by
      rw [toInt32_natCast hsmall] at ho
      omega
    subst heq
    have hback : ((splice data o (buf.take count)).drop o).take (buf.take count).length =
        buf.take count := take_drop_splice (by omega)
    rw [htake] at hback
    rw [hback, cstr_of_notMem hnul]
    exact iff_of_true rfl (Or.inl hsmall)
  · -- the range read lies ahead of the one written
    have hroom : o+count ≤ offset := by omega
    have hlen : ((data.drop o).take count).length = (buf.take count).length := by
      rw [List.length_take, List.length_drop, htake]
      omega
    rw [take_drop_splice_ahead hroom (by omega), cstr_eq_iff hlen hnul, or_iff_right hsmall]

theorem myPread_written (hf : s.openFT.lookup (toU64 fd) = some f)
    (hd : deref s.ilist f.fInode = some (k,i)) (hpos : count ≠ 0) (hcount : count < 2^31)
    (hbuf : count ≤ buf.length) (hnul : '\x00' ∉ buf.take count)
    (hin : offset+count ≤ i.buf.length) :
    myPread fd count offset (written buf count offset k i s) =
      some ((count:ℤ),some (buf.take count)) ↔ KeepsBytes i.buf buf count offset := by
  set j : MyInode := { i with buf := splice i.buf offset (buf.take count) } with hj
  have hd' : deref (written buf count offset k i s).ilist f.fInode = some (k,j) :=
    deref_stored hd _
  have hlen : j.buf.length = i.buf.length := by
    rw [hj]
    apply length_splice
    rw [List.length_take]
    omega
  rw [myPread_counts (s := written buf count offset k i s) hf hd' hcount (by omega) hpos, hlen,
    KeepsBytes, or_iff_right hpos, and_iff_right hin]
  apply and_congr_right
  intro h0
  apply and_congr_right
  intro hlt
  obtain ⟨o,ho⟩ := Int.eq_ofNat_of_zero_le h0
  rw [ho] at hlt
  have hread := written_read ho (by omega) hbuf hnul hin
  rw [ho, Int.toNat_natCast, hread, and_iff_right_of_imp]
  intro _
  by_cases hsmall : offset < 2^31
  · rw [toInt32_natCast hsmall] at ho
    omega
  · omega

theorem readBack_iff (hf : s.openFT.lookup (toU64 fd) = some f)
    (hd : deref s.ilist f.fInode = some (k,i)) (hbuf : count ≤ buf.length)
    (hnul : '\x00' ∉ buf.take count) (offset : ℕ) :
    ReadBack fd buf count offset s ↔ KeepsBytes i.buf buf count offset := by
  by_cases hpos : count = 0
  · subst hpos
    exact iff_of_true (readBack_zero hf hd buf offset) (Or.inl rfl)
  constructor
  · intro ⟨s',hw,hr⟩
    obtain ⟨hcount,hfits,rfl⟩ := myPwrite_counts hf hd hw
    exact (myPread_written hf hd hpos hcount hbuf hnul (hfits.resolve_left hpos).2).mp hr
  · intro hkeeps
    obtain ⟨hin,h0,hlt,-⟩ := hkeeps.resolve_left hpos
    have hcount : count < 2^31 := by omega
    have hread := myPread_written hf hd hpos hcount hbuf hnul hin
    exact ⟨_,myPwrite_fits hf hd hcount (Or.inr ⟨hbuf,hin⟩),hread.mpr hkeeps⟩

/-- For every open file whose inode is there: when bytes written are read back,
and when a read stays inside the buffer. -/
theorem bytes_kept_iff (hf : s.openFT.lookup (toU64 fd) = some f)
    (hd : deref s.ilist f.fInode = some (k,i)) :
    (∀ (buf : Str) (count offset : ℕ), count ≤ buf.length → '\x00' ∉ buf.take count →
      (ReadBack fd buf count offset s ↔ KeepsBytes i.buf buf count offset)) ∧
      ∀ (count : ℕ) (offset : ℤ),
        ReadSafe fd count offset s ↔ ReadsInside i.buf.length count offset :=
  ⟨fun _ _ offset hbuf hnul => readBack_iff hf hd hbuf hnul offset,readSafe_iff hf hd⟩

def oneOpen (data : Str) : Fuse where
  ilist := Finmap.singleton 0 { iIno := 0, iMode := 0, buf := data, node := 0 }
  openFT := Finmap.singleton 1 { fDesc := 1, fMode := 0, fPos := 0, flags := 0, fInode := 0 }
  nodes := 1

/-- Two bytes are written over the last two of three. -/
theorem bytes_kept_three : ReadBack 1 ['x','y'] 2 1 (oneOpen ['a','b','c']) := by
  refine ((bytes_kept_iff rfl rfl).1 ['x','y'] 2 1 (by decide) (by decide)).mpr (Or.inr ?_)
  have hone : toInt32 ((1:ℕ):ℤ) = 1 := toInt32_natCast (by omega)
  rw [hone]
  exact ⟨by decide,by decide,by decide,Or.inl (by decide)⟩

/-- A file just made holds no bytes, and a byte written to it goes outside. -/
theorem bytes_kept_fails :
    ¬ ∀ (rootMode : Mode) (s : Fuse) (fd : ℤ) (f : MyFile) (k : ℕ) (i : MyInode) (buf : Str)
      (count offset : ℕ), Reaches advance Resolving (rootOnly rootMode) s →
        s.openFT.lookup (toU64 fd) = some f → deref s.ilist f.fInode = some (k,i) →
          count ≤ buf.length → '\x00' ∉ buf.take count → offset ≤ i.buf.length →
            ReadBack fd buf count offset s := by
  intro hall
  have hmeets : Meets advance Resolving [.mkdir ['/','d'] 0o755#32,
      .creat ['/','d','/','f'] 0o644#32,.open2 ['/','d','/','f'] 2 0o644#32]
      (rootOnly 0o755#32) := by decide
  have hreach := reaches_of_exec _ hmeets rfl
  have hback := hall _ _ 1 _ _ _ ['x','\x00'] 1 0 hreach rfl rfl (by decide) (by decide) (by decide)
  rw [readBack_iff rfl rfl (by decide) (by decide)] at hback
  have hfits := (hback.resolve_left (by decide)).1
  exact absurd hfits (by decide)

def NoBytes (t : Table) : Prop := ∀ k i, t.lookup k = some i → i.buf = []

theorem NoBytes.insert (h : NoBytes t) (hi : i.buf = []) : NoBytes (t.insert k i) := by
  intro j m hj
  by_cases hk : j = k
  · rw [hk, Finmap.lookup_insert] at hj
    exact Option.some.inj hj ▸ hi
  · rw [Finmap.lookup_insert_of_ne _ hk] at hj
    exact h j m hj

theorem NoBytes.inodeInit (h : NoBytes s.ilist) (mode : Mode) :
    NoBytes (inodeInit mode s).2.ilist := by
  rw [FuseCalls.inodeInit, insertNew]
  split_ifs
  · exact h
  · exact h.insert rfl

theorem noBytes_move {c : FuseCall} (hm : Move s c s') (h : NoBytes s.ilist) :
    NoBytes s'.ilist := by
  cases hm with
  | idle hno => exact h
  | @remode _ mode k i hi =>
    have hmode : ({ i with iMode := mode } : MyInode).buf = [] := h k i hi
    exact h.insert hmode
  | added => exact h.inodeInit _
  | named hc hp hmodify =>
    obtain ⟨i,hi,rfl⟩ := modifyInode_some hmodify
    have hi' : i.buf = [] := h.inodeInit _ _ _ hi
    exact (h.inodeInit _).insert hi'
  | @removed _ name p k i d hk hp hd hino =>
    have hdrop : (dropDirent name i).buf = [] := h p i hp
    have hp' := h.insert (k := p) hdrop
    intro j m hj
    by_cases hjk : j = k
    · rw [hjk, Finmap.lookup_erase] at hj
      exact nomatch hj
    · rw [Finmap.lookup_erase_ne hjk] at hj
      exact hp' j m hj
  | opened hc hi => exact h
  | closed => exact h

/-- No state reached from the root inode alone keeps any byte. -/
theorem nothing_kept {rootMode : Mode} (h : Reaches advance Resolving (rootOnly rootMode) s)
    (hf : s.openFT.lookup (toU64 fd) = some f) (hd : deref s.ilist f.fInode = some (k,i))
    (hbuf : count ≤ buf.length) (hnul : '\x00' ∉ buf.take count) (offset : ℕ) :
    ReadBack fd buf count offset s ↔ count = 0 := by
  have hempty : WellFormed s.ilist ∧ NoBytes s.ilist := by
    apply h.invariant
    · refine ⟨rootOnly_wellFormed rootMode,?_⟩
      intro k i hi
      obtain ⟨-,rfl⟩ := rootOnly_lookup hi
      rfl
    · intro c t t' ht _ hstep
      have hm := advance_some ht.1 hstep
      exact ⟨hm.wellFormed ht.1,noBytes_move hm ht.2⟩
  have hnil : i.buf = [] := hempty.2 k i (deref_some.mp hd).2
  rw [readBack_iff hf hd hbuf hnul, KeepsBytes, hnil, List.length_nil]
  omega

end Bbfs.FuseBytes
