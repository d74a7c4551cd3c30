import Mathlib.Data.List.GetD
import Xv6.UserCopySafe
import Xv6.UserGrow

/-!
# The user stack that `exec` builds (`kernel/exec.c`)

After the program is loaded, `exec` allocates two pages, takes the lower one from the user as a guard, and
pushes on the upper one the argument strings, each at a multiple of 16, and then the array of pointers to
them.  An argument is the list of its bytes before the terminating zero.

* `pushStrings_spec` — where the strings go, and when they do not fit;
* `buildStack_spec` — the whole of it.
-/

namespace Xv6.ExecStack

open Xv6.Panics Xv6.LittleEndian Xv6.RadixTree Xv6.Sv39 Xv6.PhysMem Xv6.PageTable Xv6.UserSpace
open Xv6.UserGrow Xv6.UserCopy

/-! ### The code -/

def MAXARG : ℕ := 32

/-- A string in memory, with the zeros after it. -/
def cstr (arg : List UInt8) : ℕ → UInt8 := fun k => arg.getD k 0

/-- `(char *)ustack`; the word after the last one is `ustack[argc] = 0`. -/
def ustackBytes (ustack : List Addr) : ℕ → UInt8 := fun k =>
  UInt8.ofNat ((ustack.getD (k / 8) 0).toNat / 256 ^ (k % 8))

/-- The loop over `argv`, with `argc` the length of `ustack`; `none` is `goto bad`. -/
def pushStrings (pagetable stackbase : Addr) :
    List (List UInt8) → Addr → List Addr → Call (Option (Addr × List Addr))
  | [], sp, ustack => pure (some (sp, ustack))
  | arg :: argv, sp, ustack =>
    if MAXARG ≤ ustack.length then pure none
    else do
      let sp := sp - BitVec.ofNat 64 (arg.length + 1)
      let sp := sp - sp % 16
      if sp < stackbase then pure none
      else do
        let r ← copyout pagetable sp (cstr arg) (BitVec.ofNat 64 (arg.length + 1))
        if r < 0 then pure none
        else pushStrings pagetable stackbase argv sp (ustack ++ [sp])

def pushArray (pagetable stackbase sp : Addr) (ustack : List Addr) : Call (Option Addr) := do
  let sp := sp - BitVec.ofNat 64 ((ustack.length + 1) * 8)
  let sp := sp - sp % 16
  if sp < stackbase then pure none
  else do
    let r ← copyout pagetable sp (ustackBytes ustack) (BitVec.ofNat 64 ((ustack.length + 1) * 8))
    if r < 0 then pure none else pure (some sp)

/-- The strings and the array; it returns `argc` and `sp`. -/
def pushArgs (pagetable stackbase sp : Addr) (argv : List (List UInt8)) : Call (Option (ℕ × Addr)) := do
  match ← pushStrings pagetable stackbase argv sp [] with
  | none => pure none
  | some (sp, ustack) => do
    match ← pushArray pagetable stackbase sp ustack with
    | none => pure none
    | some sp => pure (some (ustack.length, sp))

/-- From `sz = PGROUNDUP(sz)` to the last `copyout`.  It returns `sz` and, unless it goes to `bad`, `argc`
and `sp`. -/
def buildStack (kend pagetable sz : Addr) (argv : List (List UInt8)) :
    Call (Addr × Option (ℕ × Addr)) := do
  let sz := PGROUNDUP sz
  let sz1 ← uvmalloc kend pagetable sz (sz + 2 * PGSIZE)
  if sz1 = 0 then pure (sz, none)
  else do
    uvmclear pagetable (sz1 - 2 * PGSIZE)
    let r ← pushArgs pagetable (sz1 - PGSIZE) sz1 argv
    pure (sz1, r)

/-- What `exec` returns in `a0`, the registers `a1` and `sp` it sets, and the new size. -/
structure Started where
  argc : ℕ
  a1 : Addr
  sp : Addr
  sz : Addr

/-- The rest of `exec` once the program is loaded, up to its return; `none` is -1. -/
def startProgram (kend pagetable sz : Addr) (argv : List (List UInt8)) : Call (Option Started) := do
  let (sz, r) ← buildStack kend pagetable sz argv
  match r with
  | none => pure none
  | some (argc, sp) => pure (some ⟨argc, sp, sp, sz⟩)

variable {s t : Kmem} {kend pagetable q sz : Addr} {T H : Multiset Addr} {D : Finset ℕ} {i : ℕ}

/-! ### User pages of an address space -/

/-- Nothing from `TRAPFRAME` on is for the user. -/
def NoUserTop (s : Kmem) (pagetable : Addr) : Prop :=
  ∀ x, 4096 * top ≤ x → userPage s pagetable x = none

theorem userPage_page (s : Kmem) (pagetable : Addr) {x : ℕ} (hx : x < 274877906944) :
    userPage s pagetable x = (view s pagetable (page (x / 4096))).bind fun v =>
      if v.2 &&& PTE_U = 0 then none else some v.1 := by
  have hround : PGROUNDDOWN (BitVec.ofNat 64 x) = page (x / 4096) := by
    apply BitVec.eq_of_toNat_eq
    rw [toNat_PGROUNDDOWN, toNat_page (by omega), BitVec.toNat_ofNat]
    omega
  rw [userPage_eq s pagetable hx, hround]

theorem userPage_of_space (h : Space T s pagetable D H) (htop : NoUserTop s pagetable) {x : ℕ} {p : Addr}
    (hp : userPage s pagetable x = some p) : x / 4096 ∈ D ∧ frame s pagetable (x / 4096) = p := by
  have hx := userPage_lt hp
  have hlt : x / 4096 < top := by
    by_contra hge
    rw [htop x (by omega)] at hp
    cases hp
  rw [userPage_page s pagetable hx] at hp
  obtain ⟨v, hv, hflag⟩ := Option.bind_eq_some_iff.mp hp
  have hin : x / 4096 ∈ D := by
    by_contra hout
    rw [h.none _ hout hlt] at hv
    cases hv
  refine ⟨hin, ?_⟩
  rw [frame_of_view hv]
  split at hflag
  · cases hflag
  · exact Option.some.inj hflag

theorem separate_of_space (hT : Ram kend T) (h : Space T s pagetable D H)
    (htop : NoUserTop s pagetable) : Separate s pagetable where
  nonzero := by
    intro x p hp hzero
    obtain ⟨hin, hframe⟩ := userPage_of_space h htop hp
    obtain ⟨-, hlow, -⟩ := h.frame_ram hT hin
    rw [hframe, hzero] at hlow
    have hbase := hT.base
    rw [BitVec.le_def] at hlow hbase
    exact absurd (Nat.le_trans hbase hlow) (by decide)
  distinct := by
    intro x y p hx hy
    obtain ⟨hinx, hframex⟩ := userPage_of_space h htop hx
    obtain ⟨hiny, hframey⟩ := userPage_of_space h htop hy
    by_contra hne
    refine (h.user hT hinx).2.2.2 (mem_userPages.mpr ⟨y / 4096, ?_, ?_⟩)
    · exact Finset.mem_erase.mpr ⟨fun e => hne e.symm, hiny⟩
    · rw [hframex, hframey]

theorem apart_of_space (hT : Ram kend T) (h : Space T s pagetable D H) (htop : NoUserTop s pagetable) :
    Apart s pagetable := by
  intro x p hp
  obtain ⟨hin, hframe⟩ := userPage_of_space h htop hp
  rw [← hframe]
  exact (h.user hT hin).1

theorem Moved.space (h : Space T s pagetable D H) (hm : Moved s t pagetable) : Space T t pagetable D H :=
  h.move hm.table (by rw [hm.free])

/-! ### `uvmclear` -/

theorem uvmclear_space (hT : Ram kend T) (h : Space T s pagetable D H) (hi : i ∈ D) {v : Addr × Pte}
    (hv : view s pagetable (page i) = some v) (hflag : v.2 &&& ~~~PTE_U ≠ PTE_V) :
    Wp (uvmclear pagetable (page i)) s (fun _ t => Space T t pagetable D H ∧ Keeps s t pagetable ∧
      ∀ x, Aligned x → x < MAXVA →
        view t pagetable x = Function.update (view s pagetable) (page i) (some (noUser v)) x) fun _ => False := by
  have htop := h.bound i hi
  rw [top_eq] at htop
  refine wp_mono (uvmclear_spec (h.table hT)) ?_ ?_
  · intro _ t ht
    obtain ⟨hkeeps, hview⟩ := ht
    rw [PGROUNDDOWN_of_aligned (aligned_page i), hv, Option.map_some] at hview
    have hself : view t pagetable (page i) = some (noUser v) := by
      rw [hview _ (aligned_page i) (page_lt_MAXVA (by omega)), Function.update_self]
    have hother : ∀ j, j < top → j ≠ i → view t pagetable (page j) = view s pagetable (page j) :=
      fun j hj hne => view_other hview (by omega) (by rw [top_eq] at hj; omega) hne
    have hframe : ∀ j ∈ D, frame t pagetable j = frame s pagetable j := by
      intro j hj
      by_cases he : j = i
      · rw [he, frame_of_view hself, frame_of_view hv]
        rfl
      · exact frame_congr (hother j (h.bound j hj) he)
    have husers : userPages t pagetable D = userPages s pagetable D :=
      Finset.sum_congr rfl fun j hj => by rw [hframe j hj]
    refine ⟨⟨?_, ?_, ?_, h.bound⟩, hkeeps, hview⟩
    · have hpages := hkeeps.pages
      calc tables t pagetable + userPages t pagetable D + (t.free : Multiset Addr) + H
          = (tables t pagetable + (t.free : Multiset Addr)) + userPages s pagetable D + H := by
            rw [husers]
            abel
        _ = tables s pagetable + userPages s pagetable D + (s.free : Multiset Addr) + H := by
            rw [hpages]
            abel
        _ = T := h.total
    · intro j hj
      by_cases he : j = i
      · rw [he]
        exact ⟨_, hself, hflag⟩
      · rw [hother j (h.bound j hj) he]
        exact h.leaf j hj
    · intro j hj hjtop
      have hne : j ≠ i := fun e => hj (e ▸ hi)
      rw [hother j hjtop hne]
      exact h.none j hj hjtop
  · intro e he
    rcases he with hge | hnone
    · exact absurd (page_lt_MAXVA (i := i) (by omega)) (BitVec.not_lt.mpr hge)
    · rw [hv] at hnone
      cases hnone

/-! ### Where the strings go -/

/-- `n` rounded up to a multiple of 16. -/
def up16 (n : ℕ) : ℕ := (n + 15) / 16 * 16

def need : List (List UInt8) → ℕ
  | [] => 0
  | arg :: argv => up16 (arg.length + 1) + need argv

/-- The addresses of the strings, pushed from `sp` down. -/
def places : ℕ → List (List UInt8) → List ℕ
  | _, [] => []
  | sp, arg :: argv => (sp - up16 (arg.length + 1)) :: places (sp - up16 (arg.length + 1)) argv

theorem length_places (argv : List (List UInt8)) (sp : ℕ) : (places sp argv).length = argv.length := by
  induction argv generalizing sp with
  | nil => rfl
  | cons arg argv ih => simp only [places, List.length_cons, ih]

theorem places_le (argv : List (List UInt8)) (sp : ℕ) : ∀ p ∈ places sp argv, p ≤ sp := by
  induction argv generalizing sp with
  | nil =>
    intro p hp
    simp only [places, List.not_mem_nil] at hp
  | cons arg argv ih =>
    intro p hp
    simp only [places, List.mem_cons] at hp
    rcases hp with rfl | hp
    · exact Nat.sub_le _ _
    · exact Nat.le_trans (ih _ p hp) (Nat.sub_le _ _)

theorem need_mod (argv : List (List UInt8)) : need argv % 16 = 0 := by
  induction argv with
  | nil => rfl
  | cons arg argv ih =>
    simp only [need, up16]
    omega

theorem le_up16 (n : ℕ) : n ≤ up16 n := by
  unfold up16
  omega

theorem places_inside {argv : List (List UInt8)} {sp : ℕ} (h : need argv ≤ sp) :
    ∀ x ∈ argv.zip (places sp argv), sp - need argv ≤ x.2 ∧ x.2 + x.1.length + 1 ≤ sp := by
  induction argv generalizing sp with
  | nil =>
    intro x hx
    simp only [places, List.zip_nil_left, List.not_mem_nil] at hx
  | cons arg argv ih =>
    intro x hx
    have hle := le_up16 (arg.length + 1)
    simp only [need] at h ⊢
    simp only [places, List.zip_cons_cons, List.mem_cons] at hx
    rcases hx with rfl | hx
    · show _ ≤ sp - up16 (arg.length + 1) ∧ sp - up16 (arg.length + 1) + arg.length + 1 ≤ sp
      omega
    · obtain ⟨hlow, hhigh⟩ := ih (by omega) x hx
      omega

theorem places_disjoint {argv : List (List UInt8)} {sp : ℕ} (h : need argv ≤ sp) :
    (argv.zip (places sp argv)).Pairwise fun x y => y.2 + y.1.length + 1 ≤ x.2 := by
  induction argv generalizing sp with
  | nil => simp only [places, List.zip_nil_left, List.Pairwise.nil]
  | cons arg argv ih =>
    simp only [need] at h
    simp only [places, List.zip_cons_cons, List.pairwise_cons]
    exact ⟨fun x hx => (places_inside (by omega) x hx).2, ih (by omega)⟩

/-- `sp -= n; sp -= sp % 16;` -/
theorem toNat_push {sp : Addr} {n : ℕ} (hal : sp.toNat % 16 = 0) (hn : n ≤ sp.toNat) :
    (sp - BitVec.ofNat 64 n - (sp - BitVec.ofNat 64 n) % 16).toNat = sp.toNat - up16 n := by
  have hlt := sp.isLt
  have hsub : (sp - BitVec.ofNat 64 n).toNat = sp.toNat - n := by
    rw [BitVec.toNat_sub, BitVec.toNat_ofNat]
    omega
  have hsixteen : (16 : Addr).toNat = 16 := rfl
  rw [BitVec.toNat_sub, BitVec.toNat_umod, hsub, hsixteen, up16]
  omega

/-! ### Pushing them -/

/-- The page from `base` on is the user's, and a `copyout` can go to it. -/
structure Ready (s : Kmem) (pagetable : Addr) (base : ℕ) : Prop where
  separate : Separate s pagetable
  apart : Apart s pagetable
  mapped : ∀ x, base ≤ x → x < base + 4096 → (userPage s pagetable x).isSome

theorem Ready.moved {base : ℕ} (h : Ready s pagetable base) (hm : Moved s t pagetable) :
    Ready t pagetable base where
  separate := h.separate.congr hm.page
  apart := hm.apart h.apart
  mapped := by
    intro x hlow hhigh
    rw [hm.page]
    exact h.mapped x hlow hhigh

theorem Ready.copyout {base : ℕ} (h : Ready s pagetable base) {va : Addr} {n : ℕ} (src : ℕ → UInt8)
    (hlow : base ≤ va.toNat) (hhigh : va.toNat + n ≤ base + 4096) (hn : n < 2 ^ 64) :
    ∃ t, copyout pagetable va src (BitVec.ofNat 64 n) s = .ok (0, t) ∧ Moved s t pagetable ∧
      (∀ k < n, userByte t pagetable (va.toNat + k) = some (src k)) ∧
      ∀ x, x < va.toNat ∨ va.toNat + n ≤ x → userByte t pagetable x = userByte s pagetable x := by
  have hlen : (BitVec.ofNat 64 n).toNat = n := by
    rw [BitVec.toNat_ofNat]
    omega
  obtain ⟨r, t, hrun, -, hiff, hcopied, hother, hmoved⟩ :=
    copyout_spec h.separate h.apart va src (BitVec.ofNat 64 n)
  rw [hlen] at hiff hcopied hother
  have hr : r = 0 := hiff.mpr fun k hk => h.mapped _ (by omega) (by omega)
  subst hr
  exact ⟨t, hrun, hmoved, hcopied rfl, hother⟩

/-- User memory outside of the page from `base` on is the same. -/
def SameOutside (s t : Kmem) (pagetable : Addr) (base : ℕ) : Prop :=
  ∀ x, x < base ∨ base + 4096 ≤ x → userByte t pagetable x = userByte s pagetable x

def Copied (u : ℕ → Option UInt8) (argv : List (List UInt8)) (ptrs : List ℕ) : Prop :=
  ∀ x ∈ argv.zip ptrs, ∀ j ≤ x.1.length, u (x.2 + j) = some (cstr x.1 j)

theorem pushStrings_spec {stackbase : Addr} (hbase : 4096 ≤ stackbase.toNat) (argv : List (List UInt8)) :
    ∀ (s : Kmem) (sp : Addr) (ustack : List Addr), Ready s pagetable stackbase.toNat →
    sp.toNat % 16 = 0 → stackbase.toNat ≤ sp.toNat → sp.toNat ≤ stackbase.toNat + 4096 →
    (∀ arg ∈ argv, arg.length < 4096) → ustack.length + argv.length < MAXARG →
    ∃ r t, pushStrings pagetable stackbase argv sp ustack s = .ok (r, t) ∧ Moved s t pagetable ∧
      SameOutside s t pagetable stackbase.toNat ∧ (stackbase.toNat + need argv ≤ sp.toNat → ∃ sp' : Addr,
        r = some (sp', ustack ++ (places sp.toNat argv).map (BitVec.ofNat 64)) ∧
        sp'.toNat = sp.toNat - need argv ∧ Copied (userByte t pagetable) argv (places sp.toNat argv) ∧
        ∀ x, sp.toNat ≤ x → userByte t pagetable x = userByte s pagetable x) ∧
      (sp.toNat < stackbase.toNat + need argv → r = none) := by
  induction argv with
  | nil =>
    intro s sp ustack _ _ hlow _ _ _
    refine ⟨_, s, rfl, .refl s pagetable, fun _ _ => rfl, fun _ => ⟨sp, ?_, rfl, ?_, fun _ _ => rfl⟩,
      fun hlt => ?_⟩
    · show some (sp, ustack) = some (sp, ustack ++ [])
      rw [List.append_nil]
    · intro x hx
      simp only [List.zip_nil_left, List.not_mem_nil] at hx
    · simp only [need] at hlt
      omega
  | cons arg argv ih =>
    intro s sp ustack hready hal hlow hhigh hlen hcount
    have harg : arg.length < 4096 := hlen arg List.mem_cons_self
    have hup := le_up16 (arg.length + 1)
    have hcount' : ¬ MAXARG ≤ ustack.length := by
      rw [List.length_cons] at hcount
      omega
    obtain ⟨p, hp⟩ : ∃ p, p = sp - BitVec.ofNat 64 (arg.length + 1) -
        (sp - BitVec.ofNat 64 (arg.length + 1)) % 16 := ⟨_, rfl⟩
    have hpval : p.toNat = sp.toNat - up16 (arg.length + 1) := by
      rw [hp]
      exact toNat_push hal (by omega)
    unfold pushStrings
    rw [if_neg hcount', ← hp]
    by_cases hfit : p < stackbase
    · rw [if_pos hfit]
      rw [BitVec.lt_def] at hfit
      refine ⟨none, s, rfl, .refl s pagetable, fun _ _ => rfl, fun hroom => ?_, fun _ => rfl⟩
      simp only [need] at hroom
      omega
    · rw [if_neg hfit]
      rw [BitVec.lt_def] at hfit
      have hend : p.toNat + (arg.length + 1) ≤ stackbase.toNat + 4096 := by omega
      obtain ⟨t, hrun, hmoved, hcopied, hother⟩ :=
        hready.copyout (cstr arg) (by omega) hend (by omega)
      obtain ⟨r, v, hrun', hmoved', hsame', hroom', hfull'⟩ := ih t p (ustack ++ [p]) (hready.moved hmoved)
        (by rw [hpval, up16]; omega) (by omega) (by omega)
        (fun a ha => hlen a (List.mem_cons_of_mem arg ha)) (by
          rw [List.length_append, List.length_singleton]
          rw [List.length_cons] at hcount
          omega)
      refine ⟨r, v, ?_, hmoved.trans hmoved', fun x hx => ?_, fun hroom => ?_, fun hlt => ?_⟩
      · rw [bind_of_ok hrun]
        exact hrun'
      · rw [hsame' x hx]
        clear hroom' hfull'
        exact hother x (by omega)
      · simp only [need] at hroom
        have hroom'' : stackbase.toNat + need argv ≤ p.toNat := by omega
        obtain ⟨sp', hr, hsp', hin, hkeep⟩ := hroom' hroom''
        clear hroom' hfull'
        refine ⟨sp', ?_, ?_, ?_, fun x hx => ?_⟩
        · rw [hr, List.append_assoc, hpval, places, List.map_cons, List.singleton_append, ← hpval,
            BitVec.ofNat_toNat, BitVec.setWidth_eq]
        · simp only [need]
          omega
        · intro x hx j hj
          simp only [places, List.zip_cons_cons, List.mem_cons] at hx
          rcases hx with rfl | hx
          · show userByte v pagetable (sp.toNat - up16 (arg.length + 1) + j) = _
            rw [← hpval, hkeep _ (by omega), hcopied j (Nat.lt_succ_of_le hj)]
          · rw [← hpval] at hx
            exact hin x hx j hj
        · rw [hkeep x (by omega), hother x (.inr (by omega))]
      · simp only [need] at hlt
        have hlt' : p.toNat < stackbase.toNat + need argv := by
          clear hroom' hfull'
          omega
        exact hfull' hlt'

/-! ### The whole stack -/

/-- The aligned strings and the pointer array fit in one page. -/
def Fits (argv : List (List UInt8)) : Prop := need argv + up16 ((argv.length + 1) * 8) ≤ 4096

instance (argv : List (List UInt8)) : Decidable (Fits argv) := inferInstanceAs (Decidable (_ ≤ _))

/-- The arguments on a stack page `[base, base + 4096)` with stack pointer `sp`: the array of pointers with
a null pointer at its end, and behind it the strings, none overlapping another. -/
structure Passed (u : ℕ → Option UInt8) (base sp : ℕ) (argv : List (List UInt8)) (ptrs : List ℕ) :
    Prop where
  length : ptrs.length = argv.length
  aligned : sp % 16 = 0
  stack : base ≤ sp ∧ sp + 8 * (argv.length + 1) ≤ base + 4096
  pointer : ∀ i < argv.length, ∀ b < 8,
    u (sp + 8 * i + b) = some (UInt8.ofNat (ptrs.getD i 0 / 256 ^ b))
  null : ∀ b < 8, u (sp + 8 * argv.length + b) = some 0
  string : ∀ x ∈ argv.zip ptrs, NulAt u x.2 x.1.length ∧
    ∀ j < x.1.length, u (x.2 + j) = some (x.1.getD j 0)
  inside : ∀ x ∈ argv.zip ptrs, sp + 8 * (argv.length + 1) ≤ x.2 ∧ x.2 + x.1.length + 1 ≤ base + 4096
  disjoint : (argv.zip ptrs).Pairwise fun x y => y.2 + y.1.length + 1 ≤ x.2

theorem Copied.congr {u u' : ℕ → Option UInt8} {argv : List (List UInt8)} {ptrs : List ℕ} (lo : ℕ)
    (h : Copied u argv ptrs) (hlo : ∀ x ∈ argv.zip ptrs, lo ≤ x.2) (hu : ∀ x, lo ≤ x → u' x = u x) :
    Copied u' argv ptrs := by
  intro x hx j hj
  have hle := hlo x hx
  rw [hu _ (by omega)]
  exact h x hx j hj

theorem Copied.string {u : ℕ → Option UInt8} {argv : List (List UInt8)} {ptrs : List ℕ}
    (h : Copied u argv ptrs) (hstr : ∀ arg ∈ argv, ∀ b ∈ arg, b ≠ 0) :
    ∀ x ∈ argv.zip ptrs, NulAt u x.2 x.1.length ∧ ∀ j < x.1.length, u (x.2 + j) = some (x.1.getD j 0) := by
  intro x hx
  have hmem : x.1 ∈ argv := (List.of_mem_zip hx).1
  refine ⟨⟨?_, fun j hj => ⟨x.1.getD j 0, h x hx j (by omega), ?_⟩⟩, fun j hj => h x hx j (by omega)⟩
  · rw [h x hx _ (Nat.le_refl _), cstr, List.getD_eq_default _ _ (Nat.le_refl _)]
  · rw [List.getD_eq_getElem _ _ hj]
    exact hstr x.1 hmem _ (List.getElem_mem hj)

theorem ustackBytes_pointer {ptrs : List ℕ} (hlt : ∀ p ∈ ptrs, p < 2 ^ 64) {i b : ℕ} (hi : i < ptrs.length)
    (hb : b < 8) : ustackBytes (ptrs.map (BitVec.ofNat 64)) (8 * i + b) = UInt8.ofNat (ptrs.getD i 0 / 256 ^ b) := by
  have hdiv : (8 * i + b) / 8 = i := by omega
  have hmod : (8 * i + b) % 8 = b := by omega
  have hval : ((ptrs.map (BitVec.ofNat 64)).getD i 0).toNat = ptrs.getD i 0 := by
    rw [List.getD_eq_getElem _ _ (by rw [List.length_map]; exact hi), List.getD_eq_getElem _ _ hi,
      List.getElem_map, BitVec.toNat_ofNat, Nat.mod_eq_of_lt (hlt _ (List.getElem_mem hi))]
  rw [ustackBytes, hdiv, hmod, hval]

theorem ustackBytes_null (ustack : List Addr) {b : ℕ} (hb : b < 8) :
    ustackBytes ustack (8 * ustack.length + b) = 0 := by
  have hdiv : (8 * ustack.length + b) / 8 = ustack.length := by omega
  rw [ustackBytes, hdiv, List.getD_eq_default _ _ (Nat.le_refl _)]
  show UInt8.ofNat (0 / _) = 0
  rw [Nat.zero_div]
  rfl

theorem pushArray_eq {stackbase sp p : Addr} {ustack : List Addr} {argc : ℕ} (hlength : ustack.length = argc)
    (hp : p = sp - BitVec.ofNat 64 ((argc + 1) * 8) - (sp - BitVec.ofNat 64 ((argc + 1) * 8)) % 16) :
    pushArray pagetable stackbase sp ustack = if p < stackbase then pure none else
      (copyout pagetable p (ustackBytes ustack) (BitVec.ofNat 64 ((argc + 1) * 8)) >>= fun r =>
        if r < 0 then pure none else pure (some p)) := by
  subst hlength hp
  rfl

theorem pushArgs_spec {stackbase sp₀ : Addr} (hbase : 4096 ≤ stackbase.toNat)
    (hal : stackbase.toNat % 4096 = 0) (hsp₀ : sp₀.toNat = stackbase.toNat + 4096)
    (hready : Ready s pagetable stackbase.toNat) {argv : List (List UInt8)}
    (hcount : argv.length < MAXARG) (hlen : ∀ arg ∈ argv, arg.length < 4096) (hstr : ∀ arg ∈ argv, ∀ b ∈ arg, b ≠ 0) :
    ∃ r t, pushArgs pagetable stackbase sp₀ argv s = .ok (r, t) ∧ Moved s t pagetable ∧
      SameOutside s t pagetable stackbase.toNat ∧ (r.isSome ↔ Fits argv) ∧
      ∀ argc sp, r = some (argc, sp) → argc = argv.length ∧
        ∃ ptrs, Passed (userByte t pagetable) stackbase.toNat sp.toNat argv ptrs := by
  obtain ⟨r, t, hrun, hmoved, hsame, hroom, hfull⟩ := pushStrings_spec hbase argv s sp₀ [] hready (by omega)
    (by omega) (by omega) hlen (by rw [List.length_nil]; omega)
  have hltb := sp₀.isLt
  have hup := le_up16 ((argv.length + 1) * 8)
  have hcount' : argv.length < 32 := hcount
  unfold pushArgs
  rw [bind_of_ok hrun]
  by_cases hfit : stackbase.toNat + need argv ≤ sp₀.toNat
  · obtain ⟨sp, rfl, hsp, hcopied, -⟩ := hroom hfit
    clear hroom hfull
    rw [List.nil_append]
    have hlength : ((places sp₀.toNat argv).map (BitVec.ofNat 64)).length = argv.length := by
      rw [List.length_map, length_places]
    have hspal : sp.toNat % 16 = 0 := by
      have hneed := need_mod argv
      rw [hsp]
      omega
    obtain ⟨p, hp⟩ : ∃ p, p = sp - BitVec.ofNat 64 ((argv.length + 1) * 8) -
        (sp - BitVec.ofNat 64 ((argv.length + 1) * 8)) % 16 := ⟨_, rfl⟩
    have hpval : p.toNat = sp.toNat - up16 ((argv.length + 1) * 8) := by
      rw [hp]
      exact toNat_push hspal (by omega)
    show ∃ r v, (pushArray pagetable stackbase sp _ >>= _) t = .ok (r, v) ∧ _
    rw [pushArray_eq hlength hp]
    by_cases hlow : p < stackbase
    · rw [if_pos hlow]
      rw [BitVec.lt_def] at hlow
      have hno : ¬ Fits argv := by
        unfold Fits up16
        unfold up16 at hpval
        omega
      refine ⟨none, t, rfl, hmoved, hsame, ⟨fun hsome => absurd hsome (by simp), fun h => absurd h hno⟩,
        fun _ _ heq => by cases heq⟩
    · rw [if_neg hlow]
      rw [BitVec.lt_def] at hlow
      have hend : p.toNat + (argv.length + 1) * 8 ≤ stackbase.toNat + 4096 := by omega
      obtain ⟨v, hrun', hmoved', hbytes, hother⟩ := (hready.moved hmoved).copyout
        (ustackBytes ((places sp₀.toNat argv).map (BitVec.ofNat 64))) (by omega) hend (by omega)
      have hneed : need argv ≤ sp₀.toNat := by omega
      have hplaces := places_inside hneed
      have hup' : p.toNat + (argv.length + 1) * 8 ≤ sp.toNat := by omega
      have hltp : ∀ x ∈ places sp₀.toNat argv, x < 2 ^ 64 := fun x hx =>
        Nat.lt_of_le_of_lt (places_le argv sp₀.toNat x hx) hltb
      have hfinal : Copied (userByte v pagetable) argv (places sp₀.toNat argv) := by
        refine hcopied.congr sp.toNat (fun x hx => ?_) fun x hx => hother x (.inr (by omega))
        rw [hsp]
        exact (hplaces x hx).1
      have hpassed : Passed (userByte v pagetable) stackbase.toNat p.toNat argv
          (places sp₀.toNat argv) := by
        refine ⟨length_places argv _, ?_, ⟨by omega, by omega⟩, fun i hi b hb => ?_, fun b hb => ?_,
          hfinal.string hstr, fun x hx => ?_, places_disjoint hneed⟩
        · rw [hpval, up16]
          omega
        · rw [Nat.add_assoc, hbytes _ (by omega),
            ustackBytes_pointer hltp (by rw [length_places]; exact hi) hb]
        · have hnull := ustackBytes_null ((places sp₀.toNat argv).map (BitVec.ofNat 64)) hb
          rw [hlength] at hnull
          rw [Nat.add_assoc, hbytes _ (by omega), hnull]
        · have hin := hplaces x hx
          omega
      have hfits : Fits argv := by
        unfold Fits
        omega
      refine ⟨some (argv.length, p), v, ?_, hmoved.trans hmoved', fun x hx => ?_,
        ⟨fun _ => hfits, fun _ => rfl⟩, fun argc sp' heq => ?_⟩
      · rw [bind_of_ok (a := some p) (t := v), hlength]
        · rfl
        · rw [bind_of_ok hrun']
          rfl
      · rw [hother x (by omega)]
        exact hsame x hx
      · obtain ⟨rfl, rfl⟩ := Prod.mk.inj (Option.some.inj heq)
        exact ⟨rfl, _, hpassed⟩
  · have hlt : sp₀.toNat < stackbase.toNat + need argv := by omega
    have hno : ¬ Fits argv := by
      unfold Fits
      clear hroom hfull
      omega
    rw [hfull hlt]
    exact ⟨none, t, rfl, hmoved, hsame, ⟨fun hsome => absurd hsome (by simp), fun h => absurd h hno⟩,
      fun _ _ heq => by cases heq⟩

/-- The page from `base` on is mapped, but not for the user. -/
def Guarded (s : Kmem) (pagetable : Addr) (base : ℕ) : Prop :=
  ∀ x, base ≤ x → x < base + 4096 → userPage s pagetable x = none

theorem userPage_of_views {x : ℕ} (h : view t pagetable (page (x / 4096)) =
    view s pagetable (page (x / 4096))) : userPage t pagetable x = userPage s pagetable x := by
  by_cases hx : x < 274877906944
  · rw [userPage_page t pagetable hx, userPage_page s pagetable hx, h]
  · have hge : ¬ x < MAXVA.toNat := hx
    rw [userPage, userPage, if_neg hge, if_neg hge]

/-- What `buildStack` does before it pushes anything: a guard page and a stack page. -/
structure TwoPages (T H : Multiset Addr) (s t : Kmem) (pagetable : Addr) (n : ℕ) : Prop where
  space : Space T t pagetable (Finset.range (n + 2)) H
  old : ∀ x, Aligned x → x < MAXVA → x < page n ∨ page (n + 2) ≤ x →
    view t pagetable x = view s pagetable x
  frame : ∀ q, q ∉ tables s pagetable → q ∉ s.free → t.mem q = s.mem q
  new : ∀ i, n ≤ i → i < n + 2 →
    UserSpace.frame t pagetable i ∈ tables s pagetable + (s.free : Multiset Addr)
  guard : Guarded t pagetable (4096 * n)
  stack : ∀ x, 4096 * (n + 1) ≤ x → x < 4096 * (n + 2) → (userPage t pagetable x).isSome

theorem Grown.clear (hT : Ram kend T) {n : ℕ} (hs : Space T s pagetable (Finset.range n) H)
    (h : Grown zeroed T H s t pagetable n (n + 2)) :
    ∃ v, uvmclear pagetable (page n) t = .ok ((), v) ∧ TwoPages T H s v pagetable n := by
  have hmax := Space_range_le hT h.space
  obtain ⟨q, hq, -⟩ := h.new n (Nat.le_refl n) (by omega)
  obtain ⟨q', hq', -⟩ := h.new (n + 1) (by omega) (by omega)
  have hin : n ∈ Finset.range (n + 2) := Finset.mem_range.mpr (by omega)
  have hflag : (userPerm ||| PTE_V) &&& ~~~PTE_U ≠ PTE_V := by decide +kernel
  obtain ⟨_, v, hrun, hspace, hkeeps, hview⟩ :=
    exists_of_wp (uvmclear_space hT h.space hin hq hflag)
  have hother : ∀ x, Aligned x → x < MAXVA → x ≠ page n → view v pagetable x = view t pagetable x := by
    intro x hx hxmax hne
    rw [hview x hx hxmax, Function.update_of_ne hne]
  refine ⟨v, hrun, hspace, fun x hx hxmax hout => ?_, fun x htab hfree => ?_, fun i hi hlt => ?_,
    fun x hlow hhigh => ?_, fun x hlow hhigh => ?_⟩
  · rw [hother x hx hxmax, h.old x hx hxmax hout]
    intro e
    rw [e, page_lt_page (by omega) (by omega), BitVec.le_def, toNat_page (by omega),
      toNat_page (by omega)] at hout
    omega
  · obtain ⟨htab', -, hfree'⟩ := h.sub hT hs htab hfree
    rw [hkeeps.frame x htab' hfree']
    exact h.frame x htab hfree
  · have hframe : UserSpace.frame v pagetable i = UserSpace.frame t pagetable i := by
      by_cases he : i = n
      · rw [he, frame_of_view (v := (q, userPerm ||| PTE_V)) hq]
        refine frame_of_view (v := noUser (q, userPerm ||| PTE_V)) ?_
        rw [hview _ (aligned_page n) (page_lt_MAXVA (by omega)), Function.update_self]
        rfl
      · refine frame_congr (hother _ (aligned_page i) (page_lt_MAXVA (by omega)) fun e => he ?_)
        exact page_inj (by omega) (by omega) e
    rw [hframe, ← h.pages hT hs]
    refine Multiset.mem_add.mpr (.inl (Multiset.mem_add.mpr (.inr ?_)))
    exact mem_userPages.mpr ⟨i, Finset.mem_Ico.mpr ⟨hi, hlt⟩, rfl⟩
  · have hdiv : x / 4096 = n := by omega
    rw [userPage_page v pagetable (by omega), hdiv, hview _ (aligned_page n) (page_lt_MAXVA (by omega)),
      Function.update_self, Option.bind_some]
    have hclear : (userPerm ||| PTE_V) &&& ~~~PTE_U &&& PTE_U = 0 := by decide +kernel
    exact if_pos hclear
  · have hdiv : x / 4096 = n + 1 := by omega
    have hne : page (n + 1) ≠ page n := fun e => by
      have := page_inj (by omega) (by omega) e
      omega
    rw [userPage_page v pagetable (by omega), hdiv,
      hother _ (aligned_page _) (page_lt_MAXVA (by omega)) hne, hq', Option.bind_some]
    show (if (userPerm ||| PTE_V) &&& PTE_U = 0 then none else some q').isSome
    rw [if_neg (by decide +kernel)]
    rfl

theorem TwoPages.ready (hT : Ram kend T) {n : ℕ} (h : TwoPages T H s t pagetable n) (htop : NoUserTop s pagetable) :
    NoUserTop t pagetable ∧ Ready t pagetable (4096 * (n + 1)) := by
  have hmax := Space_range_le hT h.space
  have htop' : NoUserTop t pagetable := by
    intro x hx
    rw [top_eq] at hx
    by_cases hlt : x < 274877906944
    · have hview : view t pagetable (page (x / 4096)) = view s pagetable (page (x / 4096)) := by
        refine h.old _ (aligned_page _) (page_lt_MAXVA (by omega)) (.inr ?_)
        rw [BitVec.le_def, toNat_page (by omega), toNat_page (by omega)]
        omega
      rw [userPage_of_views hview]
      exact htop x (by rw [top_eq]; omega)
    · have hge : ¬ x < MAXVA.toNat := hlt
      exact if_neg hge
  refine ⟨htop', separate_of_space hT h.space htop', apart_of_space hT h.space htop',
    fun x hlow hhigh => h.stack x hlow (by omega)⟩

/-- What `buildStack` returns and leaves behind on memory `s` with `n` user pages. -/
structure Pushed (T H : Multiset Addr) (s t : Kmem) (pagetable : Addr) (n : ℕ) (argv : List (List UInt8))
    (r : Option (ℕ × Addr)) : Prop where
  space : Space T t pagetable (Finset.range (n + 2)) H
  top : NoUserTop t pagetable
  frame : ∀ q, q ∉ tables s pagetable → q ∉ s.free → (∀ i < n, UserSpace.frame s pagetable i ≠ q) →
    t.mem q = s.mem q
  image : ∀ x, x < 4096 * n → userByte t pagetable x = userByte s pagetable x
  guard : Guarded t pagetable (4096 * n)
  fits : r.isSome ↔ Fits argv
  passed : ∀ argc sp, r = some (argc, sp) → argc = argv.length ∧
    ∃ ptrs, Passed (userByte t pagetable) (4096 * (n + 1)) sp.toNat argv ptrs

theorem TwoPages.image (hT : Ram kend T) {n : ℕ} (hs : Space T s pagetable (Finset.range n) H)
    (h : TwoPages T H s t pagetable n) {x : ℕ} (hx : x < 4096 * n) :
    userByte t pagetable x = userByte s pagetable x := by
  have hmax := Space_range_le hT h.space
  have hin : x / 4096 ∈ Finset.range n := Finset.mem_range.mpr (by omega)
  have hview : view t pagetable (page (x / 4096)) = view s pagetable (page (x / 4096)) := by
    refine h.old _ (aligned_page _) (page_lt_MAXVA (by omega)) (.inl ?_)
    exact (page_lt_page (by omega) (by omega)).mpr (by omega)
  obtain ⟨htab, hfree, -⟩ := hs.user hT hin
  rw [userByte, userByte, userPage_of_views hview]
  cases hp : userPage s pagetable x with
  | none => rfl
  | some p =>
    have hframe : UserSpace.frame s pagetable (x / 4096) = p := by
      rw [userPage_page s pagetable (userPage_lt hp)] at hp
      obtain ⟨v, hv, hflag⟩ := Option.bind_eq_some_iff.mp hp
      rw [frame_of_view hv]
      split at hflag
      · cases hflag
      · exact Option.some.inj hflag
    rw [hframe] at htab hfree
    rw [Option.map_some, Option.map_some, pageByte_congr (h.frame p htab hfree)]

/-- After the guard page is set up, only the stack page changes. -/
theorem TwoPages.pushed (hT : Ram kend T) {n : ℕ} (hs : Space T s pagetable (Finset.range n) H)
    (h : TwoPages T H s t pagetable n) (htop : NoUserTop t pagetable) {v : Kmem}
    (hmoved : Moved t v pagetable) (hsame : SameOutside t v pagetable (4096 * (n + 1)))
    {argv : List (List UInt8)} {r : Option (ℕ × Addr)} (hfits : r.isSome ↔ Fits argv)
    (hpassed : ∀ argc sp, r = some (argc, sp) → argc = argv.length ∧
      ∃ ptrs, Passed (userByte v pagetable) (4096 * (n + 1)) sp.toNat argv ptrs) :
    Pushed T H s v pagetable n argv r where
  space := Moved.space h.space hmoved
  top := by
    intro x hx
    rw [hmoved.page]
    exact htop x hx
  frame := by
    intro q htab hfree huser
    refine (hmoved.frame q fun x hx => ?_).trans (h.frame q htab hfree)
    obtain ⟨hin, hframe⟩ := userPage_of_space h.space htop hx
    have hin' := Finset.mem_range.mp hin
    by_cases hlt : x / 4096 < n
    · have hmax := Space_range_le hT h.space
      refine huser _ hlt ?_
      rw [← hframe]
      refine (frame_congr (h.old _ (aligned_page _) (page_lt_MAXVA (by omega)) (.inl ?_))).symm
      exact (page_lt_page (by omega) (by omega)).mpr hlt
    · have hnew := h.new (x / 4096) (by omega) hin'
      rw [hframe, Multiset.mem_add, Multiset.mem_coe] at hnew
      exact hnew.elim htab hfree
  image := by
    intro x hx
    rw [hsame x (.inl (by omega))]
    exact h.image hT hs hx
  guard := by
    intro x hlow hhigh
    rw [hmoved.page]
    exact h.guard x hlow hhigh
  fits := hfits
  passed := hpassed

/-- **The stack of a new program.**  Unless there is no memory for it, `buildStack` allocates the guard page
and the stack page, and pushes the arguments iff they fit in the page. -/
theorem buildStack_spec (hT : Ram kend T) {n : ℕ} (hn : npages sz = n)
    (hs : Space T s pagetable (Finset.range n) H) (htop : NoUserTop s pagetable)
    {argv : List (List UInt8)} (hcount : argv.length < MAXARG)
    (hlen : ∀ arg ∈ argv, arg.length < 4096) (hstr : ∀ arg ∈ argv, ∀ b ∈ arg, b ≠ 0) :
    ∃ r t, buildStack kend pagetable sz argv s = .ok (r, t) ∧
      ((r = (page n, none) ∧ Grown zeroed T H s t pagetable n n ∧
          outcome (uvmalloc kend pagetable (page n) (page (n + 2))) s = .ok 0) ∨
        (r.1 = page (n + 2) ∧ Pushed T H s t pagetable n argv r.2)) := by
  have hmax := Space_range_le hT hs
  have hsize : npages sz = (sz.toNat + 4095) / 4096 := rfl
  have hround : PGROUNDUP sz = page n := by
    rw [← hn]
    exact PGROUNDUP_eq (by omega)
  have hend : page n + 2 * PGSIZE = page (n + 2) := by
    rw [← page_succ, ← page_succ, BitVec.add_assoc]
    rfl
  have hs' : Space T s pagetable (Finset.range (npages (page n))) H := by
    rw [npages_page (by omega)]
    exact hs
  have hle : page n ≤ page (n + 2) := by
    rw [BitVec.le_def, toNat_page (by omega), toNat_page (by omega)]
    omega
  obtain ⟨r, t, hrun, hpost⟩ := exists_of_wp (uvmalloc_space hT hs' hle)
  rw [npages_page (by omega), npages_page (by omega)] at hpost
  have hpos : page (n + 2) ≠ 0 := fun e => by
    have hzero := congrArg BitVec.toNat e
    rw [toNat_page (by omega)] at hzero
    exact absurd hzero (by simp)
  rw [buildStack, hround, hend]
  rcases hpost with ⟨rfl, hgrown⟩ | ⟨rfl, hgrown⟩
  · have hmax' := Space_range_le hT hgrown.space
    have hguard : page (n + 2) - 2 * PGSIZE = page n := by
      rw [← hend, BitVec.add_sub_cancel]
    have hstack : page (n + 2) - PGSIZE = page (n + 1) := by
      rw [← page_succ, BitVec.add_sub_cancel]
    obtain ⟨v, hclear, htwo⟩ := Grown.clear hT hs hgrown
    obtain ⟨htop', hready⟩ := htwo.ready hT htop
    have hbase : (page (n + 1)).toNat = 4096 * (n + 1) := toNat_page (by omega)
    have hsp₀ : (page (n + 2)).toNat = (page (n + 1)).toNat + 4096 := by
      rw [hbase, toNat_page (by omega)]
      omega
    rw [← hbase] at hready
    obtain ⟨r, w, hpush, hmoved, hsame, hfits, hpassed⟩ :=
      pushArgs_spec (by omega) (by omega) hsp₀ hready hcount hlen hstr
    rw [hbase] at hsame hpassed
    refine ⟨(page (n + 2), r), w, ?_, .inr ⟨rfl, htwo.pushed hT hs htop' hmoved hsame hfits hpassed⟩⟩
    rw [bind_of_ok hrun, if_neg hpos, hguard, hstack, bind_of_ok hclear, bind_of_ok hpush]
    rfl
  · refine ⟨(page n, none), t, ?_, .inl ⟨rfl, hgrown, ?_⟩⟩
    · rw [bind_of_ok hrun, if_pos rfl]
      rfl
    · rw [outcome, hrun]
      rfl

/-! ### Arguments reach the new program -/

/-- The two pages that `startProgram` asks for. -/
def stackAllocated (kend pagetable sz : Addr) (s : Kmem) : Prop :=
  outcome (uvmalloc kend pagetable (PGROUNDUP sz) (PGROUNDUP sz + 2 * PGSIZE)) s ≠ .ok 0

theorem startProgram_none {sz' : Addr} (h : buildStack kend pagetable sz argv s = .ok ((sz', none), t)) :
    startProgram kend pagetable sz argv s = .ok (none, t) := by
  rw [startProgram, bind_of_ok h]
  rfl

theorem startProgram_some {sz' sp : Addr} {argc : ℕ}
    (h : buildStack kend pagetable sz argv s = .ok ((sz', some (argc, sp)), t)) :
    startProgram kend pagetable sz argv s = .ok (some ⟨argc, sp, sp, sz'⟩, t) := by
  rw [startProgram, bind_of_ok h]
  rfl

/-- **`exec` passes the arguments faithfully**, and once the stack is allocated it fails exactly when they
do not fit in one page. -/
theorem exec_passes_arguments (hT : Ram kend T) (hs : Space T s pagetable (Finset.range (npages sz)) H)
    (htop : NoUserTop s pagetable) {argv : List (List UInt8)} (hcount : argv.length ≤ MAXARG - 1)
    (hlen : ∀ arg ∈ argv, arg.length ≤ 4096 - 1) (hstr : ∀ arg ∈ argv, ∀ b ∈ arg, b ≠ 0) :
    ∃ r t, startProgram kend pagetable sz argv s = .ok (r, t) ∧
      (stackAllocated kend pagetable sz s → (r = none ↔ ¬ Fits argv)) ∧
      ∀ e, r = some e → e.argc = argv.length ∧ e.a1 = e.sp ∧
        ∃ stackbase, e.sz.toNat = stackbase + 4096 ∧ 4096 ≤ stackbase ∧
          Guarded t pagetable (stackbase - 4096) ∧
          ∃ ptrs, Passed (userByte t pagetable) stackbase e.sp.toNat argv ptrs := by
  have hcount' : argv.length < MAXARG := Nat.lt_succ_of_le hcount
  have hlen' : ∀ arg ∈ argv, arg.length < 4096 := fun arg harg => Nat.lt_succ_of_le (hlen arg harg)
  obtain ⟨⟨sz', r⟩, t, hrun, hpost⟩ := buildStack_spec hT rfl hs htop hcount' hlen' hstr
  rcases hpost with ⟨hr, -, hfail⟩ | ⟨hsz, hp⟩
  · obtain ⟨rfl, rfl⟩ := Prod.mk.inj hr
    refine ⟨none, t, startProgram_none hrun, fun hok => absurd ?_ hok, fun e he => by cases he⟩
    have hsize : npages sz = (sz.toNat + 4095) / 4096 := rfl
    have hmax := Space_range_le hT hs
    rw [PGROUNDUP_eq (by omega)]
    have hend : page (npages sz) + 2 * PGSIZE = page (npages sz + 2) := by
      rw [← page_succ, ← page_succ, BitVec.add_assoc]
      rfl
    rw [hend]
    exact hfail
  · have hsz' : sz' = page (npages sz + 2) := hsz
    have hmax := Space_range_le hT hp.space
    have htoNat : sz'.toNat = 4096 * (npages sz + 1) + 4096 := by
      rw [hsz', toNat_page (by omega)]
      omega
    cases r with
    | none =>
      refine ⟨none, t, startProgram_none hrun, fun _ => ⟨fun _ hfits => ?_, fun _ => rfl⟩,
        fun e he => by cases he⟩
      exact absurd (hp.fits.mpr hfits) (by simp)
    | some x =>
      obtain ⟨argc, sp⟩ := x
      obtain ⟨hargc, hpassed⟩ := hp.passed argc sp rfl
      refine ⟨_, t, startProgram_some hrun, fun _ => ⟨fun he => (by cases he), fun hno => ?_⟩, ?_⟩
      · exact absurd (hp.fits.mp rfl) hno
      · intro e he
        cases he
        refine ⟨hargc, rfl, 4096 * (npages sz + 1), htoNat, by omega, ?_, hpassed⟩
        have hguard : 4096 * (npages sz + 1) - 4096 = 4096 * npages sz := by omega
        rw [hguard]
        exact hp.guard

/-! ### A program of no pages -/

/-- Memory with five free pages: a page table of three and a stack of two. -/
def fivePages : Kmem :=
  ⟨fun _ _ => 0, [0x80010000, 0x80011000, 0x80012000, 0x80013000, 0x80014000]⟩

def fivePagesSet : Multiset Addr := (fivePages.free : Multiset Addr)

def emptySpace : Kmem := after uvmcreate fivePages

theorem ram_fivePages : Ram 0x80000000 fivePagesSet := by
  refine ⟨BitVec.le_refl _, by decide +kernel, fun q hq => ?_⟩
  have hall : ∀ q ∈ fivePages.free, Aligned q ∧ (0x80000000 : Addr) ≤ q ∧ q < PHYSTOP :=
    List.forall_iff_forall_mem.mp (by decide +kernel)
  exact hall q (Multiset.mem_coe.mp hq)

theorem uvmcreate_fivePages : uvmcreate fivePages = .ok (some 0x80010000, emptySpace) :=
  ok_of_outcome (by decide +kernel)

theorem space_emptySpace : Space fivePagesSet emptySpace 0x80010000 ∅ 0 ∧
    ∀ x, view emptySpace 0x80010000 x = none := by
  have hpost := ok_of_wp (uvmcreate_space (H := 0) (add_zero _) fun _ => True)
    uvmcreate_fivePages
  rcases hpost with ⟨hnone, -⟩ | ⟨q, hq, hspace, hview, -⟩
  · cases hnone
  · cases hq
    exact ⟨hspace, hview⟩

theorem exec_passes_arguments_echo : ∃ r t,
    startProgram 0x80000000 0x80010000 0 [[101, 99, 104, 111], [104, 105]] emptySpace = .ok (some r, t) ∧
      r.argc = 2 := by
  have htop : NoUserTop emptySpace 0x80010000 := by
    intro x _
    rw [userPage, space_emptySpace.2]
    split
    · rfl
    · rfl
  have hcount : ([[101, 99, 104, 111], [104, 105]] : List (List UInt8)).length ≤ MAXARG - 1 := by decide
  have hspace : Space fivePagesSet emptySpace 0x80010000 (Finset.range (npages 0)) 0 := space_emptySpace.1
  obtain ⟨r, t, hrun, hfails, hpost⟩ := exec_passes_arguments ram_fivePages hspace htop hcount
    (by decide) (by simp)
  have hok : stackAllocated 0x80000000 0x80010000 0 emptySpace := by
    have hrun' : outcome (uvmalloc 0x80000000 0x80010000 0 8192) emptySpace = .ok 8192 := by
      decide +kernel
    intro hzero
    have hsame := hrun'.symm.trans hzero
    exact absurd hsame (by decide)
  cases r with
  | none => exact absurd (by decide) ((hfails hok).mp rfl)
  | some e => exact ⟨e, t, hrun, (hpost e rfl).1⟩

end Xv6.ExecStack
