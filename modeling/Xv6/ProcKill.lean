import Xv6.ProcPids
import Xv6.ProcSched

/-!
# `kill`

`kill` compares `p->pid` and not `p->state`.  Unused slots have `pid` 0, so for other numbers that is the
same: the slot it finds is a process.  `kill(0)` finds an unused slot and sets `killed` in it, and nobody
clears it before the slot is used.

The early return of `allocproc` leaves a number in a slot that stays unused.
-/

namespace Xv6.ProcKill

open Xv6.Params Xv6.LabelledRuns Xv6.ProcMachine Xv6.ProcMoves Xv6.ProcPlaces Xv6.ProcMoved Xv6.ProcInv
open Xv6.ProcFamily Xv6.ProcSched Xv6.ProcPids
open Function (update_self)

variable {n m : ℕ} {initproc : Fin n} {s t : St n m} {c d : Fin m} {p q : Fin n} {a : Act n}
  {mv : Move n} {pid : Int32}

/-! ### The loop without interference -/

/-- The loop of `kill` over the slots `l`. -/
def killIn (T : Table n) (pid : Int32) : List (Fin n) → Int32 × Table n
  | [] => (-1, T)
  | i :: l => if (T i).pid = pid then (0, Function.update T i (slay (T i))) else killIn T pid l

def kill (T : Table n) (pid : Int32) : Int32 × Table n := killIn T pid (List.finRange n)

theorem killIn_cases (T : Table n) (pid : Int32) (l : List (Fin n)) :
    (killIn T pid l = (-1, T) ∧ ∀ i ∈ l, (T i).pid ≠ pid) ∨
    ∃ i ∈ l, (T i).pid = pid ∧ killIn T pid l = (0, Function.update T i (slay (T i))) := by
  induction l with
  | nil => exact Or.inl ⟨rfl, nofun⟩
  | cons i l ih =>
    by_cases hi : (T i).pid = pid
    · exact Or.inr ⟨i, List.mem_cons_self, hi, if_pos hi⟩
    · have hrest : killIn T pid (i :: l) = killIn T pid l := if_neg hi
      rw [hrest]
      obtain ⟨heq, hno⟩ | ⟨j, hj, hpid, heq⟩ := ih
      · refine Or.inl ⟨heq, ?_⟩
        intro j hj
        obtain rfl | hj := List.mem_cons.mp hj
        · exact hi
        · exact hno j hj
      · exact Or.inr ⟨j, List.mem_cons_of_mem _ hj, hpid, heq⟩

theorem code_kill (T : Table n) (p : Fin n) (pid : Int32) (i : ℕ) :
    code initproc T p (.kill pid i) .go =
      if h : i < n then
        if (T ⟨i, h⟩).pid = pid then
          some { lock := .acquire ⟨i, h⟩, effect := .slay ⟨i, h⟩, next := .killEnd ⟨i, h⟩ }
        else some { lock := .acquire ⟨i, h⟩, next := .killNext pid ⟨i, h⟩ }
      else some { effect := .ret p (-1), next := .run } := rfl

section Loop

variable (hon : s.on c = some p) (hfree : ∀ q, s.lock q = none)

include hon hfree

variable (initproc)

theorem exec_kill_other {i : Fin n} (hctl : s.ctl (.proc p) = ⟨.kill pid i, none⟩) (hpid : (s.proc i).pid ≠ pid) :
    exec (St.step initproc) s [(c, .go), (c, .go)] = some (s.setCtl (.proc p) ⟨.kill pid (i + 1), none⟩) := by
  have hcode : code initproc s.proc p (.kill pid i) .go =
      some { lock := .acquire i, next := .killNext pid i } := by
    rw [code_kill, dif_pos i.isLt, if_neg hpid]
  let u : St n m :=
    { s with lock := Function.update s.lock i (some c) }.setCtl (.proc p) ⟨.killNext pid i, none⟩
  have hfirst : St.step initproc s (c, .go) = some u := by
    rw [step_go_eq_move hon hctl (fun _ h => by cases h) hcode]
    simp only [St.move, St.lockOp, hfree, if_true, Option.map_some, St.effect, hctl, Ctl.goto, u]
  have honu : u.on c = some p := hon
  have hlock : u.lock i = some c := update_self _ _ _
  have hplace : u.ctl (.proc p) = ⟨.killNext pid i, none⟩ := setCtl_self _ _ _
  have hnext : code initproc u.proc p (.killNext pid i) .go =
      some { lock := .release i, next := .kill pid (i + 1) } := rfl
  have hsecond : St.step initproc u (c, .go) = some (s.setCtl (.proc p) ⟨.kill pid (i + 1), none⟩) := by
    rw [step_go_eq_move honu hplace (fun _ h => by cases h) hnext]
    simp only [St.move, St.lockOp, hlock, if_true, Option.map_some, St.effect]
    simp only [u, St.setCtl, Function.update_idem, update_self, Ctl.goto]
    rw [← hfree i, Function.update_eq_self]
  rw [exec_cons, hfirst, Option.bind_some, exec_cons, hsecond]
  rfl

theorem exec_kill_found {i : Fin n} (hctl : s.ctl (.proc p) = ⟨.kill pid i, none⟩) (hpid : (s.proc i).pid = pid) :
    ∃ t, exec (St.step initproc) s [(c, .go), (c, .go)] = some t ∧
      t.proc = Function.update s.proc i (slay (s.proc i)) ∧ t.a0 p = 0 := by
  have hcode : code initproc s.proc p (.kill pid i) .go =
      some { lock := .acquire i, effect := .slay i, next := .killEnd i } := by
    rw [code_kill, dif_pos i.isLt, if_pos hpid]
  let u : St n m :=
    { s with lock := Function.update s.lock i (some c),
             proc := Function.update s.proc i (slay (s.proc i)) }.setCtl (.proc p) ⟨.killEnd i, none⟩
  have hfirst : St.step initproc s (c, .go) = some u := by
    rw [step_go_eq_move hon hctl (fun _ h => by cases h) hcode]
    simp only [St.move, St.lockOp, hfree, if_true, Option.map_some, St.effect, St.setProc, hctl, Ctl.goto,
      u]
  have honu : u.on c = some p := hon
  have hlock : u.lock i = some c := update_self _ _ _
  have hplace : u.ctl (.proc p) = ⟨.killEnd i, none⟩ := setCtl_self _ _ _
  have hnext : code initproc u.proc p (.killEnd i) .go =
      some { lock := .release i, effect := .ret p 0, next := .run } := rfl
  have hsecond := step_go_eq_move honu hplace (fun _ h => by cases h) hnext
  simp only [St.move, St.lockOp, hlock, if_true, Option.map_some] at hsecond
  refine ⟨_, by rw [exec_cons, hfirst, Option.bind_some, exec_cons, hsecond]; rfl, rfl, ?_⟩
  exact update_self _ _ _

omit hon hfree in
theorem exec_kill_from (k : ℕ) : ∀ {s : St n m} {i : ℕ}, s.on c = some p → (∀ q, s.lock q = none) →
    s.ctl (.proc p) = ⟨.kill pid i, none⟩ → i + k = n →
    ∃ j t, exec (St.step initproc) s (List.replicate j (c, .go)) = some t ∧
      t.proc = (killIn s.proc pid ((List.finRange n).drop i)).2 ∧
      t.a0 p = (killIn s.proc pid ((List.finRange n).drop i)).1 := by
  induction k with
  | zero =>
    intro s i hon hfree hctl hi
    have hcode : code initproc s.proc p (.kill pid i) .go =
        some { effect := .ret p (-1), next := .run } := by
      rw [code_kill, dif_neg (by omega)]
    have hdrop : (List.finRange n).drop i = [] := List.drop_eq_nil_of_le (by simp; omega)
    have hstep := step_go_eq_move hon hctl (fun _ => nofun) hcode
    simp only [St.move, St.lockOp, Option.map_some] at hstep
    refine ⟨1, _, by rw [List.replicate_one, exec_cons, hstep]; rfl, ?_, ?_⟩
    · rw [hdrop]
      rfl
    · rw [hdrop]
      exact update_self _ _ _
  | succ k ih =>
    intro s i hon hfree hctl hi
    have hlt : i < n := by omega
    have hdrop : (List.finRange n).drop i = ⟨i, hlt⟩ :: (List.finRange n).drop (i + 1) := by
      rw [List.drop_eq_getElem_cons (by simpa using hlt)]
      simp
    rw [hdrop, killIn]
    by_cases hpid : (s.proc ⟨i, hlt⟩).pid = pid
    · obtain ⟨t, hrun, hproc, hret⟩ := exec_kill_found initproc hon hfree
        (i := ⟨i, hlt⟩) hctl hpid
      rw [if_pos hpid]
      exact ⟨2, t, hrun, hproc, hret⟩
    · have hrun := exec_kill_other initproc hon hfree (i := ⟨i, hlt⟩) hctl hpid
      obtain ⟨j, t, hrest, hproc, hret⟩ := ih (s := s.setCtl (.proc p) ⟨.kill pid (i + 1), none⟩)
        hon hfree (setCtl_self _ _ _) (by omega)
      rw [if_neg hpid]
      refine ⟨2 + j, t, ?_, hproc, hret⟩
      rw [List.replicate_add, exec_append]
      change (exec (St.step initproc) s [(c, .go), (c, .go)]).bind _ = _
      rw [hrun, Option.bind_some, hrest]

theorem exec_kill (hctl : s.ctl (.proc p) = ⟨.run, none⟩) (hothers : s.others c = ∅) :
    ∃ k t, exec (St.step initproc) s ((c, .kill pid) :: List.replicate k (c, .go)) = some t ∧
      t.proc = (kill s.proc pid).2 ∧ t.a0 p = (kill s.proc pid).1 := by
  have hallowed : s.Allowed c (.kill pid) := ⟨fun q => by rw [hfree]; exact nofun, hothers⟩
  have hcode : code initproc s.proc p .run (.kill pid) = some { next := .kill pid 0 } := rfl
  have hfirst := step_eq_move hon hctl (fun _ => nofun) hallowed nofun hcode
  simp only [St.move, St.lockOp, Option.map_some, St.effect, hctl, Ctl.goto] at hfirst
  obtain ⟨k, t, hrun, hproc, hret⟩ := exec_kill_from initproc n
    (s := s.setCtl (.proc p) ⟨.kill pid 0, none⟩) (i := 0) hon hfree (setCtl_self _ _ _) (Nat.zero_add n)
  refine ⟨k, t, ?_, hproc, hret⟩
  rw [exec_cons, hfirst, Option.bind_some, hrun]

end Loop

/-! ### Unused slots -/

/-- The slot that `allocproc` and `fork` have given a number. -/
def prepares : Pc n → Option (Fin n)
  | .trapframe i | .pagetable i | .uvmcopy i => some i
  | _ => none

def Making (s : St n m) (q : Fin n) : Prop :=
  ∃ p, (s.proc p).state ≠ .unused ∧ prepares (base s p) = some q

def KillAt : Pc n → Prop
  | .kill pid _ | .killNext pid _ => pid ≠ 0
  | _ => True

structure Clean (s : St n m) : Prop where
  killed : ∀ q, (s.proc q).state = .unused → (s.proc q).killed = false
  pid : ∀ q, (s.proc q).state = .unused → (s.proc q).pid ≠ 0 → Making s q
  place : ∀ p, (s.proc p).state ≠ .unused → KillAt (base s p)

/-- No `kill(0)`, and `allocproc` gets its trapframe. -/
def Ordinary (s : St n m) (x : Fin m × Act n) : Prop :=
  x.2 ≠ .kill 0 ∧ ∀ i, (s.ctl (s.active x.1)).pc = .trapframe i → x.2 ≠ .fail

theorem prepares_inv {pc : Pc n} (hpc : prepares pc = some q) :
    (∀ k, pc ≠ .resumed k) ∧ q ∈ held initproc (some p) pc ∧ stateAt pc = .running := by
  unfold prepares at hpc
  split at hpc
  case h_4 => cases hpc
  all_goals
    obtain rfl := Option.some.inj hpc
    exact ⟨fun _ => nofun, List.mem_singleton.mpr rfl, rfl⟩

theorem on_of_making (h : Inv initproc s) (hu : (s.proc p).state ≠ .unused) (hp : prepares (base s p) = some q) :
    ∃ d, modeOf s (s.active d) = .proc p ∧ s.lock q = some d ∧ (s.proc p).state = .running := by
  obtain ⟨hne, hin, hst⟩ := prepares_inv hp
  obtain ⟨d, hd, hlock⟩ := on_of_base h hu hne hin
  refine ⟨d, hd, hlock, ?_⟩
  have hon := on_of_own (by rw [hd]; rfl)
  rw [(h.state_of_on hon).1, ← active_proc.mpr hon, pc_of_mode hd, hst]

section Moved

variable (h : Inv initproc s) (hclean : Clean s) (hm : Moved initproc s c a mv t)

include h hm

theorem making_moved (hok : Ordinary s (c, a)) (hq : Making s q) (hu : (t.proc q).state = .unused) :
    Making t q ∨ (t.proc q).pid = 0 := by
  obtain ⟨p, hp, hpc⟩ := hq
  obtain ⟨d, hd, -, hrun⟩ := on_of_making h hp hpc
  by_cases hx : modeOf s (s.active c) = .proc p
  · obtain ⟨hmv, hnext⟩ := base_moved_self h hm hx
    have hmaking : prepares mv.next = some q → Making t q := by
      intro hq
      refine ⟨p, ?_, by rw [hnext, hq]⟩
      rw [state_moved h hm (on_of_own (by rw [hx]; rfl))]
      exact stateAt_ne_unused _
    have hproc := hm.proc
    have hfreed : t.proc = Function.update s.proc q (freeproc n) → (t.proc q).pid = 0 := by
      intro heq
      rw [heq, update_self]
      rfl
    have hfail := hok.2 q
    rw [pc_of_mode hx] at hfail
    generalize base s p = pc at hmv hpc hfail
    cases hmv <;> try (cases hpc; done)
    all_goals obtain rfl := Option.some.inj hpc
    case trapframe | pagetable => exact Or.inl (hmaking rfl)
    case trapframeFail => exact absurd rfl (hfail rfl)
    case pagetableFail | uvmcopyFail => exact Or.inr (hfreed hproc)
    case uvmcopy i =>
      change t.proc = Function.update s.proc i _ at hproc
      rw [hproc, update_self] at hu
      cases hu
  · refine Or.inl ⟨p, ?_, ?_⟩
    · exact (live_moved h hm (by rw [hrun]; exact ⟨nofun, nofun⟩) fun hc => absurd hc hx).1
    · rw [base_moved_other h hm hx fun he => hp (context_unused h hm he)]
      exact hpc

omit h in
theorem lock_of_kill (hpc : (s.ctl (s.active c)).pc = .kill pid q) : s.lock q = none := by
  have hwants : mv.lock = .acquire q := by
    rw [hm.moves.wants, hpc]
    exact dif_pos q.isLt
  have hlock := hm.lock
  rw [hwants] at hlock
  exact hlock.1

include hclean

omit hm in
theorem alive_of_kill (hx : modeOf s (s.active c) = .proc p) (hpc : (s.ctl (s.active c)).pc = .kill pid q)
    (hpid : (s.proc q).pid = pid) (hlock : s.lock q = none) : (s.proc q).state ≠ .unused := by
  intro hu
  have hat := hclean.place p (alive_of_on h (on_of_own (by rw [hx]; rfl)))
  rw [← pc_of_mode hx, hpc] at hat
  obtain ⟨r, hr, hpc'⟩ := hclean.pid q hu (hpid ▸ hat)
  obtain ⟨d, -, hd, -⟩ := on_of_making h hr hpc'
  rw [hlock] at hd
  cases hd

theorem unused_moved (hok : Ordinary s (c, a)) (hu : (t.proc q).state = .unused) :
    (t.proc q).killed = false ∧ ((t.proc q).pid ≠ 0 → Making t q) := by
  have hkeep : (s.proc q).state = .unused → (t.proc q).killed = (s.proc q).killed →
      (t.proc q).pid = (s.proc q).pid →
      (t.proc q).killed = false ∧ ((t.proc q).pid ≠ 0 → Making t q) := by
    intro hs hk hpid
    refine ⟨by rw [hk]; exact hclean.killed q hs, fun hne => ?_⟩
    have hmaking := hclean.pid q hs (by rwa [← hpid])
    exact (making_moved h hm hok hmaking hu).resolve_right hne
  have hw := wrote_moved h hm q
  generalize t.proc q = y at hw hu hkeep
  cases hw with
  | same | tidied _ | adopted _ _ _ _ _ => exact hkeep hu rfl rfl
  | numbered p hx hpc =>
    obtain ⟨hmv, hnext⟩ := base_moved_self h hm hx
    rw [← pc_of_mode hx, hpc] at hmv
    refine ⟨hclean.killed q hu, fun _ => ⟨p, ?_, ?_⟩⟩
    · rw [state_moved h hm (on_of_own (by rw [hx]; rfl))]
      exact stateAt_ne_unused _
    · rw [hnext]
      cases hmv
      rfl
  | slain p hx hpc =>
    exact absurd (slay_unused hu) (alive_of_kill h hclean hx hpc rfl (lock_of_kill hm hpc))
  | freed _ | reaped _ _ _ _ _ => exact ⟨rfl, fun hne => absurd rfl hne⟩
  | woken _ | yielded _ _ | slept _ _ _ | born _ _ _ | exited _ _ _ _ _ _ | dispatched _ _ => cases hu

end Moved

theorem killAt_self (hok : Ordinary s (c, a)) (hmv : Moves initproc s.proc (.proc p) (base s p) a mv)
    (hat : KillAt (base s p)) : KillAt mv.next := by
  generalize base s p = pc at hmv hat
  cases hmv <;> try trivial
  case killCall pid => exact fun hz => hok.1 (congrArg Act.kill hz)

/-- **Step lemma.** -/
theorem clean_step (h : Inv initproc s) (hclean : Clean s) (hok : Ordinary s (c, a))
    (hs : St.step initproc s (c, a) = some t) : Clean t := by
  have hplace : ∀ p, (t.proc p).state ≠ .unused → KillAt (base t p) := by
    intro p hu
    cases based_step h hs hu with
    | fresh hp => rw [hp]; trivial
    | self hu' mv hm hx hmv hp =>
      rw [hp]
      exact killAt_self hok hmv (hclean.place p hu')
    | other hu' mv hm hx hp =>
      rw [hp]
      exact hclean.place p hu'
    | still hu' hsame hp =>
      obtain hp | ⟨k, -, hp⟩ := hp
      · rw [hp]
        exact hclean.place p hu'
      · rw [hp]
        trivial
  obtain ⟨mv, hm⟩ | ⟨hsame, hbase⟩ := moved_or_same hs
  · exact ⟨fun q hu => (unused_moved h hclean hm hok hu).1, fun q hu => (unused_moved h hclean hm hok hu).2,
      hplace⟩
  · refine ⟨by rw [hsame.proc]; exact hclean.killed, ?_, hplace⟩
    intro q hu hpid
    rw [hsame.proc] at hu hpid
    obtain ⟨p, hp, hpc⟩ := hclean.pid q hu hpid
    refine ⟨p, by rwa [hsame.proc], ?_⟩
    obtain hb | ⟨k, hb, -⟩ := hbase p
    · rwa [hb]
    · rw [hb] at hpc
      cases hpc

theorem clean_boot (initproc : Fin n) : Clean (St.boot initproc : St n m) := by
  have hkilled : ∀ q, ((St.boot initproc : St n m).proc q).killed = false := by
    intro q
    simp only [St.boot]
    split <;> rfl
  refine ⟨fun q _ => hkilled q, ?_, fun _ _ => trivial⟩
  intro q hu hpid
  simp only [St.boot] at hu hpid
  split at hu
  case isTrue => cases hu
  case isFalse hq =>
    rw [if_neg hq] at hpid
    exact absurd rfl hpid

/-- **Run lemma.** -/
theorem clean_run {ls : List (Fin m × Act n)} (hok : Meets (St.step initproc) Ordinary (St.boot initproc) ls)
    (hrun : exec (St.step initproc) (St.boot initproc) ls = some s) : Clean s :=
  exec_rule (clean_boot initproc) (fun _ _ _ _ h _ hclean hx hs => clean_step h hclean hx hs) hok hrun

/-! ### What `kill` does -/

theorem kill_spec (hnamed : ∀ q, (s.proc q).pid = pid → (s.proc q).state ≠ .unused) :
    ((kill s.proc pid).1 = 0 ↔ ∃ q, (s.proc q).state ≠ .unused ∧ (s.proc q).pid = pid) ∧
    ((kill s.proc pid).1 = 0 → ∃ q, (s.proc q).state ≠ .unused ∧ (s.proc q).pid = pid ∧
      (kill s.proc pid).2 = Function.update s.proc q (slay (s.proc q))) ∧
    ((kill s.proc pid).1 ≠ 0 → (kill s.proc pid).2 = s.proc) := by
  obtain ⟨heq, hno⟩ | ⟨i, -, hi, heq⟩ := killIn_cases s.proc pid (List.finRange n)
  · rw [kill, heq]
    have hne : (-1 : Int32) ≠ 0 := by decide
    refine ⟨⟨fun hz => absurd hz hne, ?_⟩, fun hz => absurd hz hne, fun _ => rfl⟩
    rintro ⟨q, -, hq⟩
    exact absurd hq (hno q (List.mem_finRange q))
  · rw [kill, heq]
    exact ⟨⟨fun _ => ⟨i, hnamed i hi, hi⟩, fun _ => rfl⟩, fun _ => ⟨i, hnamed i hi, hi, rfl⟩,
      fun hz => absurd rfl hz⟩

theorem kill_step (h : Inv initproc s) (hclean : Clean s) {i : ℕ} (hon : s.on c = some p)
    (hctl : s.ctl (.proc p) = ⟨.kill pid i, none⟩) (hs : St.step initproc s (c, a) = some t) (hne : t.proc ≠ s.proc) :
    ∃ q : Fin n, q.val = i ∧ (s.proc q).state ≠ .unused ∧ (s.proc q).pid = pid ∧
      t.proc = Function.update s.proc q (slay (s.proc q)) := by
  obtain ⟨mv, hm⟩ | ⟨hsame, -⟩ := moved_or_same hs
  · have hpc : (s.ctl (s.active c)).pc = .kill pid i := by
      rw [active_proc.mpr hon, hctl]
      rfl
    have hx : modeOf s (s.active c) = .proc p := by
      rw [active_proc.mpr hon]
      exact if_pos (by rw [hctl])
    have hmoves := hm.moves
    have hproc := hm.proc
    have halive := fun q (hq : q.val = i) => alive_of_kill h hclean hx (q := q) (by rw [hpc, hq])
    have hlock := fun q (hq : q.val = i) => lock_of_kill hm (q := q) (by rw [hpc, hq])
    rw [hx, hpc] at hmoves
    cases hmoves with
    | killFound _ _ j hj => exact ⟨j, rfl, halive j rfl hj (hlock j rfl), hj, hproc⟩
    | killOther _ _ j _ | killNone _ _ _ => exact absurd hproc hne
  · exact absurd hsame.proc hne

/-- **`kill` finds processes**, and unused slots are clean, as long as nobody calls `kill(0)` and `allocproc`
does not fail at the trapframe. -/
theorem kill_finds_processes (initproc : Fin n) (ls : List (Fin m × Act n)) (s : St n m)
    (hok : Meets (St.step initproc) Ordinary (St.boot initproc) ls)
    (hrun : exec (St.step initproc) (St.boot initproc) ls = some s) :
    (∀ pid, pid ≠ 0 → (∀ q, (s.proc q).state = .unused → s.lock q = none) →
      ((kill s.proc pid).1 = 0 ↔ ∃ q, (s.proc q).state ≠ .unused ∧ (s.proc q).pid = pid) ∧
      ((kill s.proc pid).1 = 0 → ∃ q, (s.proc q).state ≠ .unused ∧ (s.proc q).pid = pid ∧
        (kill s.proc pid).2 = Function.update s.proc q (slay (s.proc q))) ∧
      ((kill s.proc pid).1 ≠ 0 → (kill s.proc pid).2 = s.proc)) ∧
    (∀ c p pid, s.on c = some p → s.ctl (.proc p) = ⟨.run, none⟩ → s.others c = ∅ →
      (∀ q, s.lock q = none) →
      ∃ k t, exec (St.step initproc) s ((c, .kill pid) :: List.replicate k (c, .go)) = some t ∧
        t.proc = (kill s.proc pid).2 ∧ t.a0 p = (kill s.proc pid).1) ∧
    (∀ c a t p pid i, s.on c = some p → s.ctl (.proc p) = ⟨.kill pid i, none⟩ →
      St.step initproc s (c, a) = some t → t.proc ≠ s.proc →
      ∃ q : Fin n, q.val = i ∧ (s.proc q).state ≠ .unused ∧ (s.proc q).pid = pid ∧
        t.proc = Function.update s.proc q (slay (s.proc q))) ∧
    (∀ q, (s.proc q).state = .unused →
      (s.proc q).killed = false ∧ (s.lock q = none → (s.proc q).pid = 0)) ∧
    ∀ p q, (s.proc p).state ≠ .unused → prepares (base s p) = some q → (s.proc q).killed = false := by
  have h : Inv initproc s := inv_run ⟨ls, hrun⟩
  have hclean := clean_run hok hrun
  have hpid : ∀ q, (s.proc q).state = .unused → s.lock q = none → (s.proc q).pid = 0 := by
    intro q hu hlock
    by_contra hne
    obtain ⟨r, hr, hpc⟩ := hclean.pid q hu hne
    obtain ⟨d, -, hd, -⟩ := on_of_making h hr hpc
    rw [hlock] at hd
    cases hd
  refine ⟨?_, ?_, ?_, fun q hu => ⟨hclean.killed q hu, hpid q hu⟩, ?_⟩
  · intro pid hne hfree
    refine kill_spec fun q hq hu => hne ?_
    rw [← hq]
    exact hpid q hu (hfree q hu)
  · exact fun c p pid hon hctl hothers hfree => exec_kill initproc hon hfree hctl hothers
  · exact fun c a t p pid i hon hctl hs hne => kill_step h hclean hon hctl hs hne
  · intro p q hp hpc
    obtain ⟨d, hd, -, -⟩ := on_of_making h hp hpc
    have hf := h.found d
    rw [pc_of_mode hd] at hf
    refine hclean.killed q ?_
    generalize base s p = pc at hpc hf
    unfold prepares at hpc
    split at hpc
    case h_4 => cases hpc
    case h_3 => exact Option.some.inj hpc ▸ hf.1
    all_goals exact Option.some.inj hpc ▸ hf

theorem kill_finds_processes_firstRun : ∃ s : St NPROC NCPU,
    exec (St.step slot0) (St.boot slot0) firstRun = some s ∧ (kill s.proc 1).1 = 0 ∧
    ∃ q, (s.proc q).state ≠ .unused ∧ (s.proc q).pid = 1 := by
  have hend : (exec (St.step slot0) (St.boot slot0) firstRun).any (fun s =>
      (∀ q, s.lock q = none) ∧ (s.proc slot0).state ≠ .unused ∧ (s.proc slot0).pid = 1) = true := by
    decide +kernel
  obtain ⟨s, hs, hall⟩ := (Option.any_eq_true _ _).mp hend
  obtain ⟨hlock, hu, hpid⟩ := of_decide_eq_true hall
  have hok : Meets (St.step slot0) Ordinary (St.boot slot0 : St NPROC NCPU) firstRun := by
    refine ⟨⟨nofun, fun i hi => nofun⟩, fun t _ => ⟨⟨nofun, fun i hi => nofun⟩, fun u _ => ?_⟩⟩
    exact ⟨⟨nofun, fun i hi => nofun⟩, fun _ _ => trivial⟩
  have hspec := (kill_finds_processes slot0 firstRun s hok hs).1 1 (by decide) fun q _ => hlock q
  have hex : ∃ q, (s.proc q).state ≠ .unused ∧ (s.proc q).pid = 1 := ⟨slot0, hu, hpid⟩
  exact ⟨s, hs, hspec.1.mpr hex, hex⟩

/-! ### `kill(0)` -/

def slot1 : Fin NPROC := ⟨1, by decide⟩

/-- The first process calls `kill(0)` and then `fork`, as far as `allocproc` returns. -/
def killZero : List (Fin NCPU × Act NPROC) := does cpu0 .go 2 ++ does cpu0 (.kill 0) 4 ++ does cpu0 .fork 6

/-- `fork`, with no memory for the trapframe. -/
def noTrapframe : List (Fin NCPU × Act NPROC) := does cpu0 .go 2 ++ does cpu0 .fork 4 ++ does cpu0 .fail 1

/-- `kill(0)` succeeds without a process of that number, and the next process is made with `killed` set; a
failed `fork` leaves its number in an unused slot. -/
theorem kill_zero_unused :
    ((kill (St.boot slot0 : St NPROC NCPU).proc 0).1 = 0 ∧
      ¬ ∃ q, ((St.boot slot0 : St NPROC NCPU).proc q).state ≠ .unused ∧
        ((St.boot slot0 : St NPROC NCPU).proc q).pid = 0) ∧
    (∃ s : St NPROC NCPU, exec (St.step slot0) (St.boot slot0) killZero = some s ∧
      (s.proc slot0).state ≠ .unused ∧ prepares (base s slot0) = some slot1 ∧
      (s.proc slot1).killed = true) ∧
    ∃ s : St NPROC NCPU, exec (St.step slot0) (St.boot slot0) noTrapframe = some s ∧
      (s.proc slot1).state = .unused ∧ s.lock slot1 = none ∧ (s.proc slot1).pid = 2 := by
  have hkill : (exec (St.step slot0) (St.boot slot0) killZero).any (fun s =>
      (s.proc slot0).state ≠ .unused ∧ prepares (base s slot0) = some slot1 ∧
      (s.proc slot1).killed = true) = true := by
    decide +kernel
  have hfork : (exec (St.step slot0) (St.boot slot0) noTrapframe).any (fun s =>
      (s.proc slot1).state = .unused ∧ s.lock slot1 = none ∧ (s.proc slot1).pid = 2) = true := by
    decide +kernel
  obtain ⟨s, hs, hall⟩ := (Option.any_eq_true _ _).mp hkill
  obtain ⟨t, ht, hall'⟩ := (Option.any_eq_true _ _).mp hfork
  exact ⟨⟨by decide +kernel, by decide +kernel⟩, ⟨s, hs, of_decide_eq_true hall⟩,
    ⟨t, ht, of_decide_eq_true hall'⟩⟩

end Xv6.ProcKill
