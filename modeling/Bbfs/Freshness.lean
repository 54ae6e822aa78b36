import Bbfs.Numbers

/-!
# New numbers are fresh

A run interleaves calls with uses of `find_ino` whose results are kept as
handles. Keys and handles stay below the counter, the error handle apart, so
the number that `my_mknod` takes is in no use.
-/

set_option autoImplicit false

namespace Bbfs.Freshness
open Bbfs.Strings Bbfs.Files Bbfs.Resolve Bbfs.Calls Bbfs.Session Bbfs.Walks Bbfs.Effects
open Bbfs.Outcomes Bbfs.Numbers Bbfs.Runs

inductive Move where
  | call (l : Label)
  | find (path : Str)

/-- A state with the handles `find_ino` has returned so far. -/
structure Held where
  fs : Fs
  handles : List ℕ

def move : Move → Held → Option Held
  | .call l, h => (advance l h.fs).map (fun s => { h with fs := s })
  | .find path, h => some ⟨(findIno path h.fs).2,(findIno path h.fs).1::h.handles⟩

/-- The handle a call gets as an argument and indexes the table with. -/
def handle : Call → Option ℕ
  | .pread fh _ _ | .pwrite fh _ _ _ | .ftruncate fh _ | .close fh => some fh
  | _ => none

def usesHeld : Move → Held → Prop
  | .call l, h => ∀ fh ∈ handle l.2, fh ∈ h.handles
  | .find _, _ => True

instance (m : Move) (h : Held) : Decidable (usesHeld m h) := by
  cases m with
  | call l => exact inferInstanceAs (Decidable (∀ fh ∈ handle l.2, fh ∈ h.handles))
  | find path => exact isTrue trivial

def mknodState : Call → Fs → Option Fs
  | .mknod _ _ _, s | .mkdir _ _, s => some s
  | .creat path _, s => if IsDots (tail path) then none else some s
  | .symlink _ link, s => if IsDots (tail link) then none else
    if (findIno link s).1 ≠ 0 then none else some (findIno link s).2
  | _, _ => none

variable {v : View} {n : ℕ}

def Resolved (v : View) (k : ℕ) : Prop := (∃ p, k = real v p) ∨ ∃ p, k = resolve v p

@[simp] theorem resolved_real (p : Str) : Resolved v (real v p) := Or.inl ⟨p,rfl⟩

@[simp] theorem resolved_resolve (p : Str) : Resolved v (resolve v p) := Or.inr ⟨p,rfl⟩

theorem mknodTouches_resolved (path : Str) : ∀ k ∈ mknodTouches v path, Resolved v k := by
  unfold mknodTouches
  split_ifs <;> simp

theorem touches_resolved (c : Call) :
    ∀ k ∈ touches v c, Resolved v k ∨ handle c = some k := by
  have hm : ∀ path, ∀ k ∈ mknodTouches v path, Resolved v k ∨ handle c = some k :=
    fun path k hk => Or.inl (mknodTouches_resolved path k hk)
  cases c with
  | mknod path mode dev => exact hm path
  | mkdir path mode => exact hm path
  | creat path mode =>
    simp only [touches]
    split_ifs
    · simp
    · exact hm path
  | symlink path link =>
    simp only [touches]
    split_ifs
    · simp
    · simp
    · exact List.forall_mem_cons.mpr ⟨Or.inl (resolved_real link),hm link⟩
  | link path newpath =>
    simp only [touches]
    split_ifs <;> simp
  | unlink path =>
    simp only [touches]
    split_ifs <;> simp
  | rmdir path =>
    simp only [touches]
    split_ifs <;> simp
  | rename path newpath =>
    simp only [touches]
    split_ifs <;> simp
  | utime path ubuf =>
    simp only [touches]
    split_ifs <;> simp
  | truncate path newsize =>
    simp only [touches]
    split_ifs <;> simp
  | ftruncate fh offset =>
    simp only [touches]
    split_ifs <;> simp [handle]
  | _ => simp [touches, handle]

theorem effect_keys {K K' : Set ℕ} {c : Call} {r : ℤ} {v' : View} {n' : ℕ}
    (he : Effect v K n c r v' K' n') {k : ℕ} (h0 : k ≠ 0) (hk : k ∈ K') :
    k ∈ K ∨ k ∈ touches v c ∨ k = n ∧ n' = n+1 := by
  have hin : ∀ {T : Set ℕ}, SameKeys T K' → k ∈ T := fun keys => (keys k h0).mpr hk
  cases he with
  | idle stopped unspent keys => exact (hin keys).imp_right Or.inl
  | leaked f create spent stopped new empty keys =>
    rcases hin keys with hn | ht
    · exact Or.inr (Or.inr ⟨hn,rfl⟩)
    · exact ht.imp_right Or.inl
  | entered path f create spent go new dots keys =>
    rcases hin keys with hn | ht
    · exact Or.inr (Or.inr ⟨hn,rfl⟩)
    · exact ht.imp_right Or.inl
  | linked path newpath go keys => exact (hin keys).imp_right Or.inl
  | unlinked path go keys => exact (hin keys).1.imp_right Or.inl
  | removed path go keys => exact (hin keys).1.imp_right Or.inl
  | renamed path newpath go keys => exact (hin keys).imp_right Or.inl
  | retyped path mode source keys => exact (hin keys).imp_right Or.inl
  | opened path flags keys => exact (hin keys).imp_right Or.inl
  | closed fh source keys => exact (hin keys).1.imp_right Or.inl
  | written fh buf size offset data source reg keys => exact (hin keys).imp_right Or.inl
  | patched k g keeps other source keys => exact (hin keys).imp_right Or.inl

structure Below (h : Held) : Prop where
  settled : Settled h.fs
  keys : ∀ k ∈ h.fs.keys, k < h.fs.count ∨ k = errIno
  handles : ∀ fh ∈ h.handles, fh < h.fs.count ∨ fh = errIno

theorem resolved_below {s : Fs} (hs : Settled s) {k : ℕ} (h : Resolved s.file k) :
    k < s.count ∨ k = errIno := by
  have hl := hs.low
  rcases h with ⟨p,rfl⟩ | ⟨p,rfl⟩
  · rcases real_origin (v := s.file) p with h0 | h2 | ⟨k,-,d,hd,hi⟩
    · exact Or.inl (by omega)
    · exact Or.inl (by omega)
    · rw [← hi]
      exact hs.bounded k d hd
  · exact hs.resolve_lt hl p

theorem below_initialized (env : Env) : Below ⟨initialized env,[]⟩ := by
  obtain ⟨hc,-,hk,-⟩ := initialized_eq env
  refine ⟨initialized_settled env,?_,by simp⟩
  intro k hmem
  rw [hk] at hmem
  rw [Set.mem_singleton_iff.mp hmem, hc]
  exact Or.inl (by decide)

theorem below_move {m : Move} {h h' : Held} (hb : Below h) (hu : usesHeld m h)
    (hm : move m h = some h') : Below h' := by
  have hl := hb.settled.low
  cases m with
  | call l =>
    obtain ⟨s',ha,rfl⟩ := Option.map_eq_some_iff.mp hm
    obtain ⟨hs',r,-,he⟩ := advance_effect hb.settled ha
    obtain ⟨-,hle,hle'⟩ := numbers_effect hb.settled.toNumbers hl he
    have hmono : ∀ k, k < h.fs.count ∨ k = errIno → k < s'.count ∨ k = errIno :=
      fun k hk => hk.imp_left (fun hlt => Nat.lt_of_lt_of_le hlt hle)
    refine ⟨hs',?_,fun fh hfh => hmono fh (hb.handles fh hfh)⟩
    intro k hk
    by_cases h0 : k = 0
    · left
      change k < s'.count
      omega
    rcases effect_keys he h0 hk with hold | htouch | ⟨hn,hn'⟩
    · exact hmono k (hb.keys k hold)
    · rcases touches_resolved l.2 k htouch with hres | hhandle
      · exact hmono k (resolved_below hb.settled hres)
      · exact hmono k (hb.handles k (hu k hhandle))
    · left
      change k < s'.count
      omega
  | find path =>
    cases hm
    simp only [findIno_eq]
    refine ⟨settled_touch hb.settled _,?_,?_⟩
    · intro k hk
      rw [Fs.touch_keys] at hk
      rcases hk with rfl | hk
      · exact resolved_below hb.settled (resolved_real path)
      · exact hb.keys k hk
    · intro fh hfh
      rcases List.mem_cons.mp hfh with rfl | hfh
      · exact resolved_below hb.settled (resolved_resolve path)
      · exact hb.handles fh hfh

theorem mknodState_below {h : Held} (hb : Below h) {c : Call} {t : Fs}
    (ht : mknodState c h.fs = some t) : Settled t ∧ ∀ k ∈ t.keys, k < t.count ∨ k = errIno := by
  have hself : h.fs = t → Settled t ∧ ∀ k ∈ t.keys, k < t.count ∨ k = errIno := by
    rintro rfl
    exact ⟨hb.settled,hb.keys⟩
  cases c with
  | mknod path mode dev => exact hself (Option.some.inj ht)
  | mkdir path mode => exact hself (Option.some.inj ht)
  | creat path mode =>
    simp only [mknodState] at ht
    split_ifs at ht
    exact hself (Option.some.inj ht)
  | symlink path link =>
    simp only [mknodState, findIno_eq] at ht
    split_ifs at ht
    cases ht
    refine ⟨settled_touch hb.settled _,?_⟩
    intro k hk
    rw [Fs.touch_keys] at hk
    rcases hk with rfl | hk
    · exact resolved_below hb.settled (resolved_real link)
    · exact hb.keys k hk
  | _ => simp [mknodState] at ht

/-- Along every run, the number that `my_mknod` takes is neither a key of the
table nor stored in an entry of any file. -/
theorem mknod_number_fresh {env : Env} {h : Held}
    (hr : Reaches move usesHeld ⟨initialized env,[]⟩ h) {c : Call} {t : Fs}
    (ht : mknodState c h.fs = some t) :
    (next t).1 ∉ t.entry ∧ ∀ k, ∀ d ∈ (t.file k).dentries, d.dIno ≠ (next t).1 := by
  have hb : Below h := hr.invariant (below_initialized env) (fun _ _ _ hi hu hm =>
    below_move hi hu hm)
  obtain ⟨hs,hk⟩ := mknodState_below hb ht
  refine ⟨?_,hs.fresh.unnamed⟩
  intro hmem
  rcases hk t.count hmem with hlt | he
  · omega
  · exact hs.fresh.ne_err he

/-- Handle 0 is stored by a rename of a missing file and opened as a phantom
before the next creation. -/
theorem mknod_number_fresh_run :
    ∃ h, exec move [.call (plainEnv,.rename ['/','x'] ['/','y']),.find ['/','y'],
        .call (plainEnv,.mkdir ['/'] 0),.call (plainEnv,.pread 0 4 0)]
        ⟨initialized plainEnv,[]⟩ = some h ∧
      (next h.fs).1 ∉ h.fs.entry ∧ ∀ k, ∀ d ∈ (h.fs.file k).dentries, d.dIno ≠ (next h.fs).1 := by
  set ms : List Move := [.call (plainEnv,.rename ['/','x'] ['/','y']),.find ['/','y'],
    .call (plainEnv,.mkdir ['/'] 0),.call (plainEnv,.pread 0 4 0)] with hms
  have hmeets : Meets move usesHeld ms ⟨initialized plainEnv,[]⟩ := by decide
  obtain ⟨h,hh⟩ := Option.isSome_iff_exists.mp
    (show (exec move ms ⟨initialized plainEnv,[]⟩).isSome = true by decide)
  exact ⟨h,hh,mknod_number_fresh (c := .mkdir ['/','d'] 0) (reaches_of_exec ms hmeets hh) rfl⟩

end Bbfs.Freshness
