import Xv6.Monitors

/-!
# Sleep-locks (`kernel/sleeplock.c`)

Any number of sleep-locks and `n` processes.  Each lock is a monitor: its fields are under the spinlock `lk->lk`,
and `sleep` and `wakeup` are those of the library of monitors, with the lock as the channel.

`holders` records who took the lock in `acquiresleep` and has not given it up in `releasesleep`; the code does
not read it.
-/

namespace Xv6.SleepLocks

open Monitors LabelledRuns

variable {n : ℕ} {ι : Type} [DecidableEq ι]

structure SleepLock (n : ℕ) where
  locked : Bool
  pid : BitVec 32
  holders : List (Fin n)

/-- `initsleeplock`. -/
def SleepLock.init : SleepLock n := ⟨false, 0, []⟩

/-- Places with `lk->lk` held: the loop of `acquiresleep`, the beginning of `releasesleep` and of `holdingsleep`,
and before `release`, with what `holdingsleep` will return. -/
inductive Place where
  | acquiresleep
  | releasesleep
  | holdingsleep
  | answer (r : Bool)
  | done
deriving DecidableEq

section
variable (pid : Fin n → BitVec 32)

def code (p : Fin n) (_ : Unit) : Place → SleepLock n → Option (Move Place (SleepLock n))
  | .acquiresleep, lk =>
    if lk.locked then some (.sleep .acquiresleep)
    else some (.goto .done { locked := true, pid := pid p, holders := p :: lk.holders })
  | .releasesleep, lk =>
    some (.wakeup .done { locked := false, pid := 0, holders := lk.holders.erase p })
  | .holdingsleep, lk => some (.goto (.answer (lk.locked && lk.pid == pid p)) lk)
  | .answer _, _ => some .leave
  | .done, _ => some .leave

/-- The functions a process may call: `releasesleep` only as the holder. -/
def MayCall (p : Fin n) (k : Place) (lk : SleepLock n) : Prop :=
  match k with
  | .acquiresleep => True
  | .holdingsleep => True
  | .releasesleep => p ∈ lk.holders
  | .answer _ => False
  | .done => False

instance decidableMayCall (p : Fin n) : ∀ (k : Place) (lk : SleepLock n), Decidable (MayCall p k lk)
  | .acquiresleep, _ => isTrue trivial
  | .holdingsleep, _ => isTrue trivial
  | .releasesleep, lk => inferInstanceAs (Decidable (p ∈ lk.holders))
  | .answer _, _ => isFalse id
  | .done, _ => isFalse id

structure Agrees (lk : SleepLock n) : Prop where
  held : lk.locked = true → ∃ p, lk.holders = [p] ∧ lk.pid = pid p
  free : lk.locked = false → lk.holders = []

def At (p : Fin n) (k : Place) (lk : SleepLock n) : Prop :=
  Agrees pid lk ∧
    match k with
    | .releasesleep => p ∈ lk.holders
    | .answer r => r = true ↔ p ∈ lk.holders
    | _ => True

variable {pid}

theorem agrees_init : Agrees pid (SleepLock.init : SleepLock n) where
  held := fun h => absurd h Bool.false_ne_true
  free := fun _ => rfl

theorem Agrees.length_le {lk : SleepLock n} (h : Agrees pid lk) : lk.holders.length ≤ 1 := by
  cases hl : lk.locked with
  | false =>
    rw [h.free hl]
    exact Nat.zero_le 1
  | true =>
    obtain ⟨p, hp, -⟩ := h.held hl
    rw [hp]
    exact Nat.le_refl 1

theorem holding_iff (hpid : Function.Injective pid) {lk : SleepLock n} (h : Agrees pid lk) (p : Fin n) :
    (lk.locked && lk.pid == pid p) = true ↔ p ∈ lk.holders := by
  rw [Bool.and_eq_true, beq_iff_eq]
  cases hl : lk.locked with
  | false =>
    rw [h.free hl]
    simp
  | true =>
    obtain ⟨q, hq, heq⟩ := h.held hl
    rw [hq, heq, List.mem_singleton]
    constructor
    · intro hh
      exact (hpid hh.2).symm
    · intro hh
      exact ⟨rfl, by rw [hh]⟩

theorem outline (hpid : Function.Injective pid) : Outline (code pid) MayCall (At pid) (Agrees pid) where
  enter := by
    intro p k lk hI hB
    refine ⟨hI, ?_⟩
    cases k with
    | releasesleep => exact hB
    | answer r => exact absurd hB id
    | _ => exact trivial
  goto := by
    intro p e k k' lk lk' hA hcode
    cases k with
    | acquiresleep =>
      simp only [code] at hcode
      split at hcode
      · cases hcode
      · cases hcode
        refine ⟨⟨fun _ => ⟨p, ?_, rfl⟩, fun h => absurd h.symm Bool.false_ne_true⟩, trivial⟩
        rw [hA.1.free (Bool.eq_false_iff.mpr ‹_›)]
    | holdingsleep =>
      cases hcode
      exact ⟨hA.1, holding_iff hpid hA.1 p⟩
    | releasesleep | answer r | done => cases hcode
  wakeup := by
    intro p e k k' lk lk' hA hcode
    cases k with
    | releasesleep =>
      cases hcode
      refine ⟨⟨fun h => absurd h Bool.false_ne_true, fun _ => ?_⟩, trivial⟩
      have hmem : p ∈ lk.holders := hA.2
      cases hl : lk.locked with
      | false =>
        rw [hA.1.free hl] at hmem
        exact absurd hmem List.not_mem_nil
      | true =>
        obtain ⟨q, hq, -⟩ := hA.1.held hl
        rw [hq, List.mem_singleton] at hmem
        show lk.holders.erase p = []
        rw [hq, hmem, List.erase_cons_head]
    | acquiresleep =>
      simp only [code] at hcode
      split at hcode
      · cases hcode
      · cases hcode
    | holdingsleep | answer r | done => cases hcode
  sleep := by
    intro p e k k' lk hA hcode
    cases k with
    | acquiresleep =>
      simp only [code] at hcode
      split at hcode
      · cases hcode
        exact ⟨hA.1, trivial⟩
      · cases hcode
    | releasesleep | holdingsleep | answer r | done => cases hcode
  leave := fun _ _ _ _ hA _ => hA.1
  stable := by
    intro p q e k k' lk lk' l hq hA hcode hB
    cases l with
    | acquiresleep | holdingsleep => exact trivial
    | answer r | done => exact hB
    | releasesleep =>
      have hmem : q ∈ lk.holders := hB
      show q ∈ lk'.holders
      cases k with
      | acquiresleep =>
        simp only [code] at hcode
        split at hcode
        · rcases hcode with hc | hc
          · cases hc
          · cases hc
        · rcases hcode with hc | hc
          · cases hc
            exact List.mem_cons_of_mem p hmem
          · cases hc
      | releasesleep =>
        rcases hcode with hc | hc
        · cases hc
        · cases hc
          exact (List.mem_erase_of_ne hq).mpr hmem
      | holdingsleep =>
        rcases hcode with hc | hc
        · cases hc
          exact hmem
        · cases hc
      | answer r | done =>
        rcases hcode with hc | hc
        · cases hc
        · cases hc

/-- `acquiresleep` sleeps on a lock that is taken, and `releasesleep`, which frees it, calls `wakeup`. -/
theorem wakes : Wakes (code pid) (At pid) fun lk => lk.locked = false where
  sleep := by
    intro p e k k' lk hA hcode hfree
    cases k with
    | acquiresleep =>
      simp only [code] at hcode
      split at hcode
      · rename_i hlocked
        exact Bool.false_ne_true (hfree.symm.trans hlocked)
      · cases hcode
    | releasesleep | holdingsleep | answer r | done => cases hcode
  goto := by
    intro p e k k' lk lk' hA hcode hfree
    cases k with
    | acquiresleep =>
      simp only [code] at hcode
      split at hcode
      · cases hcode
      · cases hcode
        exact absurd hfree.symm Bool.false_ne_true
    | holdingsleep =>
      cases hcode
      exact hfree
    | releasesleep | answer r | done => cases hcode

end

/-- **Sleep-locks exclude and do not strand.**  At most one process holds a lock, `holdingsleep` returns 1
exactly to that process, and while `lk->lk` is free nobody sleeps on a lock with `locked == 0`. -/
theorem sleeplocks_exclude {pid : Fin n → BitVec 32} (hpid : Function.Injective pid)
    {ls : List (Fin n × Act ι Place Unit n)} {s : Monitors.St ι Place (SleepLock n) n}
    (hls : Meets (Monitors.St.step (code pid)) (Calls MayCall) (Monitors.St.boot fun _ => SleepLock.init) ls)
    (hrun : exec (Monitors.St.step (code pid)) (Monitors.St.boot fun _ => SleepLock.init) ls = some s) (i : ι) :
    (s.shared i).holders.length ≤ 1 ∧
    (∀ p r, (s.thread p).pc = .on i (.answer r) .inside → (r = true ↔ p ∈ (s.shared i).holders)) ∧
    (s.lock i = none → (s.shared i).locked = false →
      ∀ p, ¬ ((s.thread p).sleeping = true ∧ (s.thread p).chan = some i)) := by
  have hstart : ∀ _ : ι, Agrees pid (SleepLock.init : SleepLock n) := fun _ => agrees_init
  obtain ⟨hinv, ha⟩ := asserts_exec (outline hpid) hstart hls hrun
  refine ⟨?_, ?_, ?_⟩
  · exact ha.always hinv (fun _ h => h.length_le) (fun _ _ _ h => h.1.length_le) i
  · intro p r hpc
    have hA : At pid p (.answer r) (s.shared i) := ha.stated p i (.answer r) .inside hpc
    exact hA.2
  · intro hfree hlocked p
    exact no_sleeper_left (outline hpid) wakes hstart hls hrun hfree hlocked p

/-- Process 0 takes the lock, process 1 goes to sleep on it; process 0 gives it up, process 1 takes it and asks
`holdingsleep`. -/
def handOver : List (Fin 2 × Act Unit Place Unit 2) :=
  [(0, .call () .acquiresleep), (0, .go ()), (0, .go ()), (0, .go ()), (1, .call () .acquiresleep)] ++
    List.replicate 6 (1, .go ()) ++ [(0, .call () .releasesleep)] ++ List.replicate 6 (0, .go ()) ++
    List.replicate 5 (1, .go ()) ++ [(1, .call () .holdingsleep), (1, .go ()), (1, .go ())]

def pids (p : Fin 2) : BitVec 32 := BitVec.ofNat 32 (p.val + 1)

theorem sleeplocks_exclude_handOver : ∃ s : Monitors.St Unit Place (SleepLock 2) 2,
    exec (Monitors.St.step (code pids)) (Monitors.St.boot fun _ => SleepLock.init) handOver = some s ∧
      (s.thread 1).pc = .on () (.answer true) .inside ∧ 1 ∈ (s.shared ()).holders := by
  have hpid : Function.Injective pids := by decide
  have hls : Meets (Monitors.St.step (code pids)) (Calls MayCall)
      (Monitors.St.boot fun _ => SleepLock.init) handOver := by
    decide +kernel
  have hrun : (exec (Monitors.St.step (code pids)) (Monitors.St.boot fun _ => SleepLock.init) handOver).map
      (fun s => (s.thread 1).pc) = some (.on () (.answer true) .inside) := by
    decide +kernel
  obtain ⟨s, hs, hpc⟩ := Option.map_eq_some_iff.mp hrun
  exact ⟨s, hs, hpc, ((sleeplocks_exclude hpid hls hs ()).2.1 1 true hpc).mp rfl⟩

end Xv6.SleepLocks
