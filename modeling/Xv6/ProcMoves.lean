import Xv6.ProcMachine

/-!
# The moves of `proc.c`

`Moves` lists what a thread can do, one constructor for each way through `common`, `trapCode`, `code` and
`schedCode`; `steps_of_step` does the same for a step of a CPU.  Everything later is proved by cases on
them.

`held` says which process locks a thread has at a place and `wants` for which one it is waiting.  Both
are checked against the lock operations here, once.
-/

namespace Xv6.ProcMoves

open Xv6.ProcMachine

variable {n m : ℕ} {initproc : Fin n} {T : Table n}

/-- Whose code runs, and whether an interrupt runs on top of it. -/
inductive Mode (n : ℕ) where
  | proc (p : Fin n)
  | trap (p : Fin n)
  | sched
  | schedTrap

namespace Mode

def own : Mode n → Option (Fin n)
  | .proc p | .trap p => some p
  | .sched | .schedTrap => none

end Mode

inductive Moves (initproc : Fin n) (T : Table n) : Mode n → Pc n → Act n → Move n → Prop
  | acquireOther {x : Mode n} (hx : x ≠ .sched) (l : ℕ) :
      Moves initproc T x .run (.acquire l) { lock := .acquireOther l, next := .run }
  | releaseOther {x : Mode n} (hx : x ≠ .sched) (l : ℕ) :
      Moves initproc T x .run (.release l) { lock := .releaseOther l, next := .run }
  | wakeupCall {x : Mode n} (hx : x ≠ .sched) (ch : Chan n) :
      Moves initproc T x .run (.wakeup ch) { next := .wakeup ch 0 }
  | wakeup {x : Mode n} (hx : x ≠ .sched) (ch : Chan n) (i : Fin n) :
      Moves initproc T x (.wakeup ch i) .go
        { lock := .acquire i, effect := .wake ch i, next := .wakeupNext ch i }
  | wakeupEnd {x : Mode n} (hx : x ≠ .sched) (ch : Chan n) {i : ℕ} (h : n ≤ i) :
      Moves initproc T x (.wakeup ch i) .go { next := .run }
  | wakeupNext {x : Mode n} (hx : x ≠ .sched) (ch : Chan n) (i : Fin n) :
      Moves initproc T x (.wakeupNext ch i) .go { lock := .release i, next := .wakeup ch (i + 1) }
  | yieldCall (p : Fin n) : Moves initproc T (.trap p) .run .yield { next := .yield }
  | yield (p : Fin n) : Moves initproc T (.trap p) .yield .go
      { lock := .acquire p, effect := .yield p, next := .sched .yield }
  | yieldEnd (p : Fin n) : Moves initproc T (.trap p) (.resumed .yield) .go
      { lock := .release p, next := .run }
  | sleepCall (p : Fin n) (ch : Chan n) (l : ℕ) :
      Moves initproc T (.proc p) .run (.sleep ch l) { next := .sleep ch l }
  | sleep (p : Fin n) (ch : Chan n) (l : ℕ) :
      Moves initproc T (.proc p) (.sleep ch l) .go { lock := .acquire p, next := .sleepLocked ch l }
  | sleepLocked (p : Fin n) (ch : Chan n) (l : ℕ) :
      Moves initproc T (.proc p) (.sleepLocked ch l) .go
        { lock := .releaseOther l, next := .sleepUnlocked ch l }
  | sleepUnlocked (p : Fin n) (ch : Chan n) (l : ℕ) :
      Moves initproc T (.proc p) (.sleepUnlocked ch l) .go
        { effect := .sleep p ch, next := .sched (.sleep l) }
  | sleepWoken (p : Fin n) (l : ℕ) :
      Moves initproc T (.proc p) (.resumed (.sleep l)) .go
        { lock := .release p, effect := .tidy p, next := .sleepAgain l }
  | sleepAgain (p : Fin n) (l : ℕ) :
      Moves initproc T (.proc p) (.sleepAgain l) .go { lock := .acquireOther l, next := .run }
  | forkret (p : Fin n) :
      Moves initproc T (.proc p) (.resumed .forkret) .go { lock := .release p, next := .run }
  | forkCall (p : Fin n) : Moves initproc T (.proc p) .run .fork { next := .alloc 0 }
  | allocFound (p : Fin n) (i : Fin n) (h : (T i).state = .unused) :
      Moves initproc T (.proc p) (.alloc i) .go { lock := .acquire i, next := .allocpid i }
  | allocOther (p : Fin n) (i : Fin n) (h : (T i).state ≠ .unused) :
      Moves initproc T (.proc p) (.alloc i) .go { lock := .acquire i, next := .allocNext i }
  | allocNone (p : Fin n) {i : ℕ} (h : n ≤ i) :
      Moves initproc T (.proc p) (.alloc i) .go { effect := .ret p (-1), next := .run }
  | allocNext (p i : Fin n) :
      Moves initproc T (.proc p) (.allocNext i) .go { lock := .release i, next := .alloc (i + 1) }
  | allocpid (p i : Fin n) :
      Moves initproc T (.proc p) (.allocpid i) .go { effect := .allocpid i, next := .trapframe i }
  | trapframe (p i : Fin n) :
      Moves initproc T (.proc p) (.trapframe i) .go { next := .pagetable i }
  | trapframeFail (p i : Fin n) :
      Moves initproc T (.proc p) (.trapframe i) .fail { next := .forkFail i }
  | pagetable (p i : Fin n) :
      Moves initproc T (.proc p) (.pagetable i) .go { effect := .context i, next := .uvmcopy i }
  | pagetableFail (p i : Fin n) :
      Moves initproc T (.proc p) (.pagetable i) .fail { effect := .freeproc i, next := .forkFail i }
  | uvmcopy (p i : Fin n) :
      Moves initproc T (.proc p) (.uvmcopy i) .go { effect := .child p i, next := .forkEnd i }
  | uvmcopyFail (p i : Fin n) :
      Moves initproc T (.proc p) (.uvmcopy i) .fail { effect := .freeproc i, next := .forkFail i }
  | forkFail (p i : Fin n) : Moves initproc T (.proc p) (.forkFail i) .go
      { lock := .release i, effect := .ret p (-1), next := .run }
  | forkEnd (p i : Fin n) : Moves initproc T (.proc p) (.forkEnd i) .go
      { lock := .release i, effect := .ret p (T i).pid, next := .run }
  | exitCall (p : Fin n) (h : p ≠ initproc) (st : Int32) :
      Moves initproc T (.proc p) .run (.exit st) { next := .exitInit st }
  | exitInit (p : Fin n) (st : Int32) : Moves initproc T (.proc p) (.exitInit st) .go
      { lock := .acquire initproc, effect := .wake (.proc initproc) initproc, next := .exitWoken st }
  | exitWoken (p : Fin n) (st : Int32) :
      Moves initproc T (.proc p) (.exitWoken st) .go { lock := .release initproc, next := .exitSelf st }
  | exitSelf (p : Fin n) (st : Int32) (op : Fin n) (h : (T p).parent = some op) :
      Moves initproc T (.proc p) (.exitSelf st) .go { lock := .acquire p, next := .exitRead st op }
  | exitRead (p : Fin n) (st : Int32) (op : Fin n) :
      Moves initproc T (.proc p) (.exitRead st op) .go { lock := .release p, next := .exitParent st op }
  | exitParent (p : Fin n) (st : Int32) (op : Fin n) :
      Moves initproc T (.proc p) (.exitParent st op) .go { lock := .acquire op, next := .exitOwn st op }
  | exitOwn (p : Fin n) (st : Int32) (op : Fin n) :
      Moves initproc T (.proc p) (.exitOwn st op) .go { lock := .acquire p, next := .reparent st op 0 }
  | reparentFound (p : Fin n) (st : Int32) (op i : Fin n) (h : (T i).parent = some p) :
      Moves initproc T (.proc p) (.reparent st op i) .go { next := .reparentChild st op i }
  | reparentOther (p : Fin n) (st : Int32) (op i : Fin n) (h : (T i).parent ≠ some p) :
      Moves initproc T (.proc p) (.reparent st op i) .go { next := .reparent st op (i + 1) }
  | exitZombie (p : Fin n) (st : Int32) (op : Fin n) {i : ℕ} (h : n ≤ i) :
      Moves initproc T (.proc p) (.reparent st op i) .go
        { effect := .zombie p op st, next := .exitZombie op }
  | reparentChild (p : Fin n) (st : Int32) (op i : Fin n) :
      Moves initproc T (.proc p) (.reparentChild st op i) .go
        { lock := .acquire i, effect := .adopt i, next := .reparentNext st op i }
  | reparentNext (p : Fin n) (st : Int32) (op i : Fin n) :
      Moves initproc T (.proc p) (.reparentNext st op i) .go
        { lock := .release i, next := .reparent st op (i + 1) }
  | exitEnd (p op : Fin n) :
      Moves initproc T (.proc p) (.exitZombie op) .go { lock := .release op, next := .sched .exit }
  | waitCall (p : Fin n) (addr : ℕ) :
      Moves initproc T (.proc p) .run (.wait addr) { next := .waitStart addr }
  | waitStart (p : Fin n) (addr : ℕ) : Moves initproc T (.proc p) (.waitStart addr) .go
      { lock := .acquire p, next := .waitScan addr 0 false }
  | waitFound (p : Fin n) (addr : ℕ) (i : Fin n) (havekids : Bool) (h : (T i).parent = some p) :
      Moves initproc T (.proc p) (.waitScan addr i havekids) .go { next := .waitChild addr i }
  | waitOther (p : Fin n) (addr : ℕ) (i : Fin n) (havekids : Bool) (h : (T i).parent ≠ some p) :
      Moves initproc T (.proc p) (.waitScan addr i havekids) .go
        { next := .waitScan addr (i + 1) havekids }
  | waitNone (p : Fin n) (addr : ℕ) {i : ℕ} (hi : n ≤ i) (havekids : Bool)
      (h : havekids = false ∨ (T p).killed = true) :
      Moves initproc T (.proc p) (.waitScan addr i havekids) .go { next := .waitEnd (-1) }
  | waitSleep (p : Fin n) (addr : ℕ) {i : ℕ} (hi : n ≤ i) (havekids : Bool)
      (h : ¬ (havekids = false ∨ (T p).killed = true)) :
      Moves initproc T (.proc p) (.waitScan addr i havekids) .go
        { effect := .sleep p (.proc p), next := .sched (.wait addr) }
  | waitZombie (p : Fin n) (addr : ℕ) (i : Fin n) (h : (T i).state = .zombie) :
      Moves initproc T (.proc p) (.waitChild addr i) .go
        { lock := .acquire i, next := .waitZombie addr i }
  | waitAlive (p : Fin n) (addr : ℕ) (i : Fin n) (h : (T i).state ≠ .zombie) :
      Moves initproc T (.proc p) (.waitChild addr i) .go
        { lock := .acquire i, next := .waitNext addr i }
  | waitNext (p : Fin n) (addr : ℕ) (i : Fin n) :
      Moves initproc T (.proc p) (.waitNext addr i) .go
        { lock := .release i, next := .waitScan addr (i + 1) true }
  | waitReap (p : Fin n) (addr : ℕ) (i : Fin n) :
      Moves initproc T (.proc p) (.waitZombie addr i) .go
        { effect := .reap p i addr, next := .waitRelease i (T i).pid }
  | waitFault (p : Fin n) {addr : ℕ} (h : addr ≠ 0) (i : Fin n) :
      Moves initproc T (.proc p) (.waitZombie addr i) .fail { next := .waitRelease i (-1) }
  | waitRelease (p i : Fin n) (r : Int32) :
      Moves initproc T (.proc p) (.waitRelease i r) .go { lock := .release i, next := .waitEnd r }
  | waitEnd (p : Fin n) (r : Int32) : Moves initproc T (.proc p) (.waitEnd r) .go
      { lock := .release p, effect := .ret p r, next := .run }
  | waitWoken (p : Fin n) (addr : ℕ) : Moves initproc T (.proc p) (.resumed (.wait addr)) .go
      { effect := .tidy p, next := .waitScan addr 0 false }
  | killCall (p : Fin n) (pid : Int32) :
      Moves initproc T (.proc p) .run (.kill pid) { next := .kill pid 0 }
  | killFound (p : Fin n) (pid : Int32) (i : Fin n) (h : (T i).pid = pid) :
      Moves initproc T (.proc p) (.kill pid i) .go
        { lock := .acquire i, effect := .slay i, next := .killEnd i }
  | killOther (p : Fin n) (pid : Int32) (i : Fin n) (h : (T i).pid ≠ pid) :
      Moves initproc T (.proc p) (.kill pid i) .go { lock := .acquire i, next := .killNext pid i }
  | killNone (p : Fin n) (pid : Int32) {i : ℕ} (h : n ≤ i) :
      Moves initproc T (.proc p) (.kill pid i) .go { effect := .ret p (-1), next := .run }
  | killNext (p : Fin n) (pid : Int32) (i : Fin n) :
      Moves initproc T (.proc p) (.killNext pid i) .go { lock := .release i, next := .kill pid (i + 1) }
  | killEnd (p i : Fin n) : Moves initproc T (.proc p) (.killEnd i) .go
      { lock := .release i, effect := .ret p 0, next := .run }
  | dispatch (i : Fin n) (h : (T i).state = .runnable) :
      Moves initproc T .sched (.scan i) .go
        { lock := .acquire i, effect := .dispatch i, next := .swtch i }
  | scanOther (i : Fin n) (h : (T i).state ≠ .runnable) :
      Moves initproc T .sched (.scan i) .go { lock := .acquire i, next := .scanNext i }
  | scanEnd {i : ℕ} (h : n ≤ i) : Moves initproc T .sched (.scan i) .go { next := .scan 0 }
  | scanNext (i : Fin n) :
      Moves initproc T .sched (.scanNext i) .go { lock := .release i, next := .scan (i + 1) }
  | back (i : Fin n) :
      Moves initproc T .sched (.back i) .go { effect := .undispatch, next := .scanNext i }

theorem moves_of_common {x : Mode n} (hx : x ≠ .sched) {pc : Pc n} {a : Act n} {mv : Move n}
    (h : common pc a = some mv) : Moves initproc T x pc a mv := by
  unfold common at h
  split at h
  case h_1 l => cases h; exact .acquireOther hx l
  case h_2 l => cases h; exact .releaseOther hx l
  case h_3 ch => cases h; exact .wakeupCall hx ch
  case h_4 ch i =>
    split at h
    case isTrue hi => cases h; exact .wakeup hx ch ⟨i, hi⟩
    case isFalse hi => cases h; exact .wakeupEnd hx ch (Nat.not_lt.mp hi)
  case h_5 ch i => cases h; exact .wakeupNext hx ch i
  case h_6 => cases h

theorem moves_of_trapCode {p : Fin n} {pc : Pc n} {a : Act n} {mv : Move n}
    (h : trapCode p pc a = some mv) : Moves initproc T (.trap p) pc a mv := by
  unfold trapCode at h
  split at h
  case h_1 => cases h; exact .yieldCall p
  case h_2 => cases h; exact .yield p
  case h_3 => cases h; exact .yieldEnd p
  case h_4 => exact moves_of_common (by simp) h

theorem moves_of_schedCode {pc : Pc n} {a : Act n} {mv : Move n}
    (h : schedCode T pc a = some mv) : Moves initproc T .sched pc a mv := by
  unfold schedCode at h
  split at h
  case h_1 i =>
    split at h
    case isTrue hi =>
      split at h
      case isTrue hr => cases h; exact .dispatch ⟨i, hi⟩ hr
      case isFalse hr => cases h; exact .scanOther ⟨i, hi⟩ hr
    case isFalse hi => cases h; exact .scanEnd (Nat.not_lt.mp hi)
  case h_2 i => cases h; exact .scanNext i
  case h_3 i => cases h; exact .back i
  case h_4 => cases h

theorem moves_of_code {p : Fin n} {pc : Pc n} {a : Act n} {mv : Move n}
    (h : code initproc T p pc a = some mv) : Moves initproc T (.proc p) pc a mv := by
  unfold code at h
  split at h
  case h_9 i =>
    split at h
    case isTrue hi =>
      split at h
      case isTrue hu => cases h; exact .allocFound p ⟨i, hi⟩ hu
      case isFalse hu => cases h; exact .allocOther p ⟨i, hi⟩ hu
    case isFalse hi => cases h; exact .allocNone p (Nat.not_lt.mp hi)
  case h_20 st =>
    split at h
    case isTrue hp => cases h
    case isFalse hp => cases h; exact .exitCall p hp st
  case h_23 st =>
    split at h
    case h_1 => cases h
    case h_2 op hop => cases h; exact .exitSelf p st op hop
  case h_27 st op i =>
    split at h
    case isTrue hi =>
      split at h
      case isTrue hc => cases h; exact .reparentFound p st op ⟨i, hi⟩ hc
      case isFalse hc => cases h; exact .reparentOther p st op ⟨i, hi⟩ hc
    case isFalse hi => cases h; exact .exitZombie p st op (Nat.not_lt.mp hi)
  case h_33 addr i havekids =>
    split at h
    case isTrue hi =>
      split at h
      case isTrue hc => cases h; exact .waitFound p addr ⟨i, hi⟩ havekids hc
      case isFalse hc => cases h; exact .waitOther p addr ⟨i, hi⟩ havekids hc
    case isFalse hi =>
      split at h
      case isTrue hk =>
        cases h
        exact .waitNone p addr (Nat.not_lt.mp hi) havekids hk
      case isFalse hk =>
        cases h
        exact .waitSleep p addr (Nat.not_lt.mp hi) havekids hk
  case h_34 addr i =>
    split at h
    case isTrue hz => cases h; exact .waitZombie p addr i hz
    case isFalse hz => cases h; exact .waitAlive p addr i hz
  case h_37 addr i =>
    split at h
    case isTrue ha => cases h
    case isFalse ha => cases h; exact .waitFault p ha i
  case h_42 pid i =>
    split at h
    case isTrue hi =>
      split at h
      case isTrue hp => cases h; exact .killFound p pid ⟨i, hi⟩ hp
      case isFalse hp => cases h; exact .killOther p pid ⟨i, hi⟩ hp
    case isFalse hi => cases h; exact .killNone p pid (Nat.not_lt.mp hi)
  case h_45 => exact moves_of_common (by simp) h
  -- the other places have one way on
  all_goals
    cases h
    constructor

/-! ### Steps of a CPU -/

def modeOf (s : St n m) : Thread n m → Mode n
  | .proc p => if (s.ctl (.proc p)).trap = none then .proc p else .trap p
  | .sched c => if (s.ctl (.sched c)).trap = none then .sched else .schedTrap

/-- What a lock operation of CPU `c` does to the locks. -/
def LockChange (s : St n m) (c : Fin m) (lock : Fin n → Option (Fin m)) (others : Fin m → Finset ℕ) :
    LockOp n → Prop
  | .none => lock = s.lock ∧ others = s.others
  | .acquire q => s.lock q = none ∧ lock = Function.update s.lock q (some c) ∧ others = s.others
  | .release q => s.lock q = some c ∧ lock = Function.update s.lock q none ∧ others = s.others
  | .acquireOther l => (∀ d, l ∉ s.others d) ∧ lock = s.lock ∧
      others = Function.update s.others c (insert l (s.others c))
  | .releaseOther l => l ∈ s.others c ∧ lock = s.lock ∧
      others = Function.update s.others c ((s.others c).erase l)

/-- A move of the thread that CPU `c` executes, component by component. -/
structure Moved (initproc : Fin n) (s : St n m) (c : Fin m) (a : Act n) (mv : Move n) (t : St n m) :
    Prop where
  allowed : s.Allowed c a
  moves : Moves initproc s.proc (modeOf s (s.active c)) (s.ctl (s.active c)).pc a mv
  lock : LockChange s c t.lock t.others mv.lock
  proc : t.proc = (s.effect initproc c mv.effect).proc
  ctl : t.ctl = Function.update (s.effect initproc c mv.effect).ctl (s.active c)
    (((s.effect initproc c mv.effect).ctl (s.active c)).goto mv.next)
  saved : t.saved = (s.effect initproc c mv.effect).saved
  on : t.on = s.on
  cproc : t.cproc = (s.effect initproc c mv.effect).cproc
  nextpid : t.nextpid = (s.effect initproc c mv.effect).nextpid
  a0 : t.a0 = (s.effect initproc c mv.effect).a0
  calls : t.calls = (s.effect initproc c mv.effect).calls
  birth : t.birth = (s.effect initproc c mv.effect).birth
  sleeps : t.sleeps = (s.effect initproc c mv.effect).sleeps
  log : t.log = (s.effect initproc c mv.effect).log

inductive Steps (initproc : Fin n) (s : St n m) (c : Fin m) : Act n → St n m → Prop
  | move {a : Act n} {t : St n m} (mv : Move n) (moved : Moved initproc s c a mv t) :
      Steps initproc s c a t
  | interrupt (free : s.Free c) (trap : (s.ctl (s.active c)).trap = none) :
      Steps initproc s c .interrupt (s.setCtl (s.active c) ⟨(s.ctl (s.active c)).base, some .run⟩)
  | iret (free : s.Free c) (trap : (s.ctl (s.active c)).trap = some .run) :
      Steps initproc s c .iret (s.setCtl (s.active c) ⟨(s.ctl (s.active c)).base, none⟩)
  | switchOut (p : Fin n) (k : After) (on : s.on c = some p) (pc : (s.ctl (.proc p)).pc = .sched k)
      (may : s.MaySwitch c p) : Steps initproc s c .go (s.switchOut c p k)
  | switchIn (p : Fin n) (on : s.on c = none) (ctl : s.ctl (.sched c) = ⟨.swtch p, none⟩) :
      Steps initproc s c .go (s.switchIn c p)

theorem lockChange_of_lockOp {s u : St n m} {c : Fin m} {op : LockOp n}
    (h : s.lockOp c op = some u) :
    LockChange s c u.lock u.others op ∧ u = { s with lock := u.lock, others := u.others } := by
  unfold St.lockOp at h
  split at h
  case h_1 =>
    cases h
    exact ⟨⟨rfl, rfl⟩, rfl⟩
  all_goals
    split at h
    case isFalse => cases h
    case isTrue hc =>
      cases h
      exact ⟨⟨hc, rfl, rfl⟩, rfl⟩

theorem effect_locks (s : St n m) (c : Fin m) (lock : Fin n → Option (Fin m))
    (others : Fin m → Finset ℕ) (e : Effect n) :
    ({ s with lock := lock, others := others } : St n m).effect initproc c e =
      { s.effect initproc c e with lock := lock, others := others } := by
  cases e <;> rfl

theorem effect_on (s : St n m) (c : Fin m) (e : Effect n) : (s.effect initproc c e).on = s.on := by
  cases e <;> rfl

theorem moved_of_move {s t : St n m} {c : Fin m} {a : Act n} {mv : Move n} (allowed : s.Allowed c a)
    (moves : Moves initproc s.proc (modeOf s (s.active c)) (s.ctl (s.active c)).pc a mv)
    (h : s.move initproc c (s.active c) mv = some t) : Moved initproc s c a mv t := by
  obtain ⟨u, hu, rfl⟩ := Option.map_eq_some_iff.mp h
  obtain ⟨hlock, hrest⟩ := lockChange_of_lockOp hu
  have heffect : u.effect initproc c mv.effect =
      { s.effect initproc c mv.effect with lock := u.lock, others := u.others } := by
    rw [hrest]
    exact effect_locks s c u.lock u.others mv.effect
  refine ⟨allowed, moves, ?_, ?_, ?_, ?_, ?_, ?_, ?_, ?_, ?_, ?_, ?_, ?_⟩
  all_goals simp only [heffect, St.setCtl]
  · exact hlock
  · exact effect_on s c mv.effect

theorem moves_of_next {s : St n m} {th : Thread n m} {a : Act n} {mv : Move n} (h : s.next initproc th a = some mv) :
    Moves initproc s.proc (modeOf s th) (s.ctl th).pc a mv := by
  unfold St.next at h
  unfold Ctl.pc
  cases th with
  | proc p =>
    cases ht : (s.ctl (.proc p)).trap with
    | none =>
      rw [ht] at h
      simp only [modeOf, ht, if_true, Option.getD_none]
      exact moves_of_code h
    | some pc =>
      rw [ht] at h
      simp only [modeOf, ht, Option.getD_some, reduceCtorEq, if_false]
      exact moves_of_trapCode h
  | sched c =>
    cases ht : (s.ctl (.sched c)).trap with
    | none =>
      rw [ht] at h
      simp only [modeOf, ht, if_true, Option.getD_none]
      exact moves_of_schedCode h
    | some pc =>
      rw [ht] at h
      simp only [modeOf, ht, Option.getD_some, reduceCtorEq, if_false]
      exact moves_of_common (by simp) h

theorem active_proc {s : St n m} {c : Fin m} {p : Fin n} : s.active c = .proc p ↔ s.on c = some p := by
  unfold St.active
  cases h : s.on c <;> simp

theorem active_sched {s : St n m} {c d : Fin m} : s.active c = .sched d ↔ s.on c = none ∧ d = c := by
  unfold St.active
  cases h : s.on c <;> simp [eq_comm]

theorem steps_of_step {s t : St n m} {c : Fin m} {a : Act n}
    (h : St.step initproc s (c, a) = some t) : Steps initproc s c a t := by
  simp only [St.step] at h
  split at h
  case isFalse => cases h
  case isTrue allowed =>
    split at h
    case h_1 ht => cases h; exact .interrupt allowed ht
    case h_2 pc hpc ht =>
      cases h
      rw [Ctl.pc, ht, Option.getD_some] at hpc
      exact .iret allowed (by rw [ht, hpc])
    case h_3 p k hth hpc =>
      split at h
      case isTrue hmay =>
        cases h
        rw [hth] at hpc
        exact .switchOut p k (active_proc.mp hth) hpc hmay
      case isFalse => cases h
    case h_4 d p hth hpc ht =>
      cases h
      obtain ⟨hon, rfl⟩ := active_sched.mp hth
      rw [Ctl.pc, ht, Option.getD_none] at hpc
      rw [hth] at hpc ht
      have hctl : s.ctl (.sched d) = ⟨.swtch p, none⟩ := by
        rw [← hpc, ← ht]
      exact .switchIn p hon hctl
    case h_5 =>
      obtain ⟨mv, hmv, hmove⟩ := Option.bind_eq_some_iff.mp h
      exact .move mv (moved_of_move allowed (moves_of_next hmv) hmove)

/-! ### Locks -/

/-- The process locks that a thread holds at a place, the last one first. -/
def held (initproc : Fin n) (own : Option (Fin n)) : Pc n → List (Fin n)
  | .sleepLocked _ _ | .sleepUnlocked _ _ | .sched _ | .resumed _ => own.toList
  | .exitRead _ _ | .waitScan _ _ _ | .waitChild _ _ | .waitEnd _ => own.toList
  | .wakeupNext _ i | .allocNext i | .allocpid i | .trapframe i | .pagetable i | .uvmcopy i => [i]
  | .forkFail i | .forkEnd i | .killNext _ i | .killEnd i | .scanNext i | .swtch i | .back i => [i]
  | .exitWoken _ => [initproc]
  | .exitOwn _ op => [op]
  | .reparent _ op _ | .reparentChild _ op _ | .exitZombie op => own.toList ++ [op]
  | .reparentNext _ op i => i :: (own.toList ++ [op])
  | .waitNext _ i | .waitZombie _ i | .waitRelease i _ => i :: own.toList
  | .run | .wakeup _ _ | .yield | .sleep _ _ | .sleepAgain _ | .alloc _ | .exitInit _ | .exitSelf _ => []
  | .exitParent _ _ | .waitStart _ | .kill _ _ | .scan _ => []

/-- The process lock that a thread is about to acquire. -/
def wants (initproc : Fin n) (own : Option (Fin n)) : Pc n → Option (Fin n)
  | .wakeup _ i | .alloc i | .kill _ i | .scan i => if h : i < n then some ⟨i, h⟩ else none
  | .yield | .sleep _ _ | .exitSelf _ | .exitOwn _ _ | .waitStart _ => own
  | .exitInit _ => some initproc
  | .exitParent _ op => some op
  | .reparentChild _ _ i | .waitChild _ i => some i
  | _ => none

def LockStep (h : List (Fin n)) (h' : List (Fin n)) : LockOp n → Prop
  | .acquire q => h' = q :: h
  | .release q => h.Perm (q :: h')
  | .none | .acquireOther _ | .releaseOther _ => h' = h

theorem Moves.lockStep {x : Mode n} {pc : Pc n} {a : Act n} {mv : Move n} (h : Moves initproc T x pc a mv) :
    LockStep (held initproc x.own pc) (held initproc x.own mv.next) mv.lock := by
  cases h <;> simp [LockStep, held, Mode.own]
  case exitEnd p op => exact List.Perm.swap op p []

theorem Moves.wants {x : Mode n} {pc : Pc n} {a : Act n} {mv : Move n} (h : Moves initproc T x pc a mv) {q : Fin n} :
    mv.lock = .acquire q ↔ wants initproc x.own pc = some q := by
  cases h <;> simp [ProcMoves.wants, Mode.own]
  all_goals omega

/-- The slots that an effect writes to. -/
def touches : Effect n → List (Fin n)
  | .wake _ i | .yield i | .sleep i _ | .tidy i | .allocpid i | .context i | .freeproc i => [i]
  | .child _ i | .adopt i | .reap _ i _ | .slay i | .dispatch i => [i]
  | .zombie p op _ => [p, op]
  | .none | .undispatch | .ret _ _ => []

theorem Moves.touches {x : Mode n} {pc : Pc n} {a : Act n} {mv : Move n}
    (h : Moves initproc T x pc a mv) {q : Fin n} (hq : q ∈ ProcMoves.touches mv.effect) :
    q ∈ held initproc x.own pc ∨ q ∈ held initproc x.own mv.next := by
  cases h <;> simp [ProcMoves.touches] at hq <;> simp [held, Mode.own, hq]

end Xv6.ProcMoves
