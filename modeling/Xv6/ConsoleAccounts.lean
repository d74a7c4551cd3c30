import Xv6.ConsoleSteps

/-!
# How many bytes a console call moves

`watch p` runs the machine and counts, for the last call of `p`, the bytes that `consoleread` has copied to
user memory and those that `consolewrite` has taken from it.  `counted_step` says what the counts are at each
place of the code, and `within_of_counted` that neither passes the length the call was made with.
-/

namespace Xv6.ConsoleMachine

open LabelledRuns RingBuffer

variable {n : ℕ} {s t : St n} {p : Fin n} {ok : Bool}

structure Tally where
  /-- The `n` of the call. -/
  asked : Int
  copied : ℕ
  consumed : ℕ

/-- A byte of user memory is on its way to the UART. -/
def Pc.taken : Pc → Bool
  | .put _ _ _ => true
  | _ => false

/-- The account after a step of the call from `s` to `t`. -/
def Tally.note (c : Tally) (s t : St n) (p : Fin n) : Tally where
  asked := c.asked
  copied := c.copied + ((t.got p).length - (s.got p).length)
  consumed := if (t.thread p).pc.taken && !(s.thread p).pc.taken then c.consumed + 1 else c.consumed

def Tally.next (c : Tally) (s t : St n) (p : Fin n) : Act n → Tally
  | .go _ _ => c.note s t p
  | .write m | .read m => ⟨m, 0, 0⟩
  | _ => c

def watch (p : Fin n) (x : St n × Tally) (l : Fin n × Act n) : Option (St n × Tally) :=
  (x.1.step l).map fun t => (t, if l.1 = p then x.2.next x.1 t p l.2 else x.2)

/-! ### The counts at each place -/

/-- The account of a `consolewrite` that has taken `i` bytes. -/
structure Tally.Wrote (c : Tally) (m : Int) (i : ℕ) : Prop where
  asked : c.asked = m
  copied : c.copied = 0
  consumed : c.consumed = i
  le : i ≤ m.toNat

/-- The account of a `consoleread` with `m` bytes to go. -/
structure Tally.Read (c : Tally) (target m : Int) : Prop where
  asked : c.asked = target
  copied : (c.copied : Int) = target - m
  consumed : c.consumed = 0
  le : c.copied ≤ target.toNat

def Loop.Counted (c : Tally) : Loop → Prop
  | .read target m => c.Read target m ∧ 0 < m
  | .put m i _ => c.Wrote m (i + 1)

def Caller.Counted (c : Tally) : Caller → Prop
  | .put m i => c.Wrote m (i + 1)
  | .intr => True

def Counted (c : Tally) : Pc → Prop
  | .write m => c.Wrote m 0
  | .writeNext m i => c.Wrote m i
  | .writeEnd i => ∃ m, c.Wrote m i
  | .put m i _ | .putLoop m i _ | .putEnd m i => c.Wrote m (i + 1)
  | .start k => k.Counted c
  | .read m => c.Read m m
  | .readNext target m => c.Read target m
  | .readWait target m => c.Read target m ∧ 0 < m
  | .readEnd _ => c.copied ≤ c.asked.toNat ∧ c.consumed = 0
  | .sleep k | .asleep k | .again k => k.Counted c
  | _ => True

theorem Tally.Read.within {c : Tally} {target m : Int} (h : c.Read target m) :
    c.copied ≤ c.asked.toNat ∧ c.consumed = 0 := by
  rw [h.asked]
  exact ⟨h.le, h.consumed⟩

theorem counted_acquires {c : Tally} {pc pc' : Pc} {lk : Lock} (h : pc.acquires = some (lk, pc'))
    (hc : Counted c pc) : Counted c pc' ∧ pc'.taken = false := by
  cases pc with
  | write m | put m i b | read m | consoleintr b | intrTx =>
    cases h
    exact ⟨hc, rfl⟩
  | again k =>
    cases h
    cases k with
    | read target m | put m i b => exact ⟨hc, rfl⟩
  | _ => cases h

theorem counted_releases {c : Tally} {pc pc' : Pc} {lk : Lock} (h : pc.releases = some (lk, pc'))
    (hc : Counted c pc) : Counted c pc' ∧ pc'.taken = false := by
  cases pc with
  | putEnd m i =>
    cases h
    exact ⟨hc, rfl⟩
  | consoleintrEnd | intrTxEnd =>
    cases h
    exact ⟨trivial, rfl⟩
  | _ => cases h

theorem note_same {c : Tally} (hgot : t.got p = s.got p)
    (htaken : ((t.thread p).pc.taken && !(s.thread p).pc.taken) = false) : c.note s t p = c := by
  rw [Tally.note, hgot, htaken, Nat.sub_self, Nat.add_zero]
  rfl

theorem note_panic (c : Tally) (s : St n) (p : Fin n) (e : Option Panic) :
    c.note s { s with panic := e } p = c :=
  note_same rfl (Bool.and_not_self _)

theorem counted_note {c : Tally} (pc : Pc) (hpc : (t.thread p).pc = pc) (hgot : t.got p = s.got p)
    (htaken : pc.taken = false) (hc : Counted c pc) : Counted (c.note s t p) (t.thread p).pc := by
  rw [note_same hgot (by rw [hpc, htaken, Bool.false_and]), hpc]
  exact hc

theorem goInput_pc (s : St n) (p : Fin n) (b : UInt8) :
    ((s.goInput p b).thread p).pc = .consoleintrEnd ∧ (s.goInput p b).got = s.got := by
  rcases goInput_eq s p b with heq | heq
  · rw [heq, thread_setPc_self]
    exact ⟨rfl, rfl⟩
  · rw [heq, thread_setPc_self]
    exact ⟨rfl, rfl⟩

/-- **One step of the call.** -/
theorem counted_goes {c : Tally} (hown : Counted c (s.thread p).pc) (hgo : Goes s p ok t) :
    Counted (c.note s t p) (t.thread p).pc := by
  cases hgo with
  | acquirePanic lk pc hpc _ | sleepPanic k hpc _ =>
    rw [note_panic]
    exact hown
  | acquire lk pc hpc _ =>
    obtain ⟨hc, htaken⟩ := counted_acquires hpc hown
    exact counted_note pc (by rw [thread_setThread_self]) rfl htaken hc
  | release lk pc hpc =>
    obtain ⟨hc, htaken⟩ := counted_releases hpc hown
    exact counted_note pc (by rw [St.release, thread_setThread_self]) rfl htaken hc
  | copyin m i b hpc hi =>
    rw [hpc] at hown
    rw [thread_setPc_self]
    refine ⟨hown.asked, ?_, ?_, by omega⟩
    · show c.copied + ((s.got p).length - (s.got p).length) = 0
      rw [Nat.sub_self, hown.copied]
    · show (if ((s.setPc p (.put m i b)).thread p).pc.taken && !(s.thread p).pc.taken then c.consumed + 1
        else c.consumed) = i + 1
      rw [thread_setPc_self, hpc, hown.consumed]
      rfl
  | written m i hpc =>
    rw [hpc] at hown
    exact counted_note (.writeEnd i) (by rw [thread_setPc_self]) rfl rfl ⟨m, hown⟩
  | writeEnd i hpc | readEnd r hpc => exact counted_note .user (by rw [St.ret, thread_setThread_self]) rfl rfl trivial
  | putFull m i b hpc _ =>
    rw [hpc] at hown
    exact counted_note (.sleep (.put m i b)) (by rw [thread_setPc_self]) rfl rfl hown
  | putStore m i b hpc _ =>
    rw [hpc] at hown
    exact counted_note (.start (.put m i)) (by rw [thread_setPc_self]) rfl rfl hown
  | startEnd k hpc =>
    rw [hpc] at hown
    cases k with
    | put m i => exact counted_note (.putEnd m i) (by rw [thread_setPc_self]; rfl) rfl rfl hown
    | intr => exact counted_note .intrTxEnd (by rw [thread_setPc_self]; rfl) rfl rfl trivial
  | startSend k hpc =>
    rw [hpc] at hown
    exact counted_note (.start k) (by rw [thread_setPc_self]) rfl rfl hown
  | readMore target m hpc hm =>
    rw [hpc] at hown
    exact counted_note (.readWait target m) (by rw [thread_setPc_self]) rfl rfl ⟨hown, hm⟩
  | readFull target m hpc _ =>
    rw [hpc] at hown
    exact counted_note (.readEnd (target - m)) (by rw [thread_setPc_self]) rfl rfl hown.within
  | readKilled target m hpc _ _ =>
    rw [hpc] at hown
    exact counted_note (.readEnd (-1)) (by rw [thread_setPc_self]) rfl rfl hown.1.within
  | readSleep target m hpc _ _ =>
    rw [hpc] at hown
    exact counted_note (.sleep (.read target m)) (by rw [thread_setPc_self]) rfl rfl hown
  | readEof target m hpc _ _ | readFault target m hpc _ _ _ =>
    rw [hpc] at hown
    exact counted_note (.readEnd (target - m)) (by rw [thread_setPc_self]) rfl rfl hown.1.within
  | readByte target m hpc _ _ =>
    rw [hpc] at hown
    obtain ⟨hread, hm⟩ := hown
    obtain ⟨u, hu⟩ : ∃ u, u = ({ s with
      cons := s.cons.skip
      got := Function.update s.got p (s.got p ++ [s.cons.first]) }.setPc p
      (if s.cons.first = newline then .readEnd (target - (m - 1)) else .readNext target (m - 1)) : St n) :=
      ⟨_, rfl⟩
    rw [← hu]
    have hpc' : (u.thread p).pc =
        if s.cons.first = newline then .readEnd (target - (m - 1)) else .readNext target (m - 1) := by
      rw [hu, thread_setPc_self]
    have hgot : u.got p = s.got p ++ [s.cons.first] := by
      rw [hu]
      exact Function.update_self _ _ _
    have hnext : (c.note s u p).Read target (m - 1) := by
      have hcopied : (c.note s u p).copied = c.copied + 1 := by
        show c.copied + ((u.got p).length - (s.got p).length) = c.copied + 1
        rw [hgot, List.length_append, List.length_singleton, Nat.add_sub_cancel_left]
      have htaken : (u.thread p).pc.taken = false := by
        rw [hpc']
        split
        · rfl
        · rfl
      have hle := hread.copied
      refine ⟨hread.asked, ?_, ?_, ?_⟩
      · rw [hcopied]
        omega
      · show (if (u.thread p).pc.taken && !(s.thread p).pc.taken then c.consumed + 1 else c.consumed) = 0
        rw [htaken]
        exact hread.consumed
      · rw [hcopied]
        omega
    rw [hpc']
    split
    · exact hnext.within
    · exact hnext
  | sleep k hpc _ =>
    rw [hpc] at hown
    exact counted_note (.asleep k) (by rw [thread_setThread_self]) rfl rfl hown
  | woken k hpc =>
    rw [hpc] at hown
    exact counted_note (.again k) (by rw [thread_setPc_self]) rfl rfl hown
  | getc b hpc => exact counted_note (.consoleintr b) (by rw [thread_setPc_self]) rfl rfl trivial
  | noChar hpc => exact counted_note .intrTx (by rw [thread_setPc_self]) rfl rfl trivial
  | input b hpc =>
    obtain ⟨hpc', hgot⟩ := goInput_pc s p b
    exact counted_note .consoleintrEnd hpc' (by rw [hgot]) rfl trivial

theorem counted_does {c : Tally} {a : Act n} (hown : Counted c (s.thread p).pc) (hdo : Does s p a t) :
    Counted (c.next s t p a) (t.thread p).pc := by
  cases hdo with
  | write m _ =>
    rw [thread_setPc_self]
    exact ⟨rfl, rfl, rfl, Nat.zero_le _⟩
  | read m _ =>
    rw [thread_setPc_self]
    refine ⟨rfl, ?_, rfl, Nat.zero_le _⟩
    show ((0 : ℕ) : Int) = m - m
    omega
  | interrupt _ =>
    rw [thread_setPc_self]
    trivial
  | kill q =>
    by_cases hq : p = q
    · rw [← hq, thread_setThread_self]
      exact hown
    · rw [thread_setThread_of_ne hq]
      exact hown

theorem does_other {q : Fin n} {a : Act n} (hq : q ≠ p) (hdo : Does s p a t) : (t.thread q).pc = (s.thread q).pc := by
  cases hdo with
  | write m _ | read m _ | interrupt _ => rw [thread_setPc_of_ne hq]
  | kill r =>
    by_cases hr : q = r
    · rw [← hr, thread_setThread_self]
    · rw [thread_setThread_of_ne hr]

/-! ### Whole runs -/

theorem counted_step {x y : St n × Tally} {l : Fin n × Act n} (hx : Counted x.2 (x.1.thread p).pc)
    (h : watch p x l = some y) : Counted y.2 (y.1.thread p).pc := by
  obtain ⟨t, hstep, rfl⟩ := Option.map_eq_some_iff.mp h
  obtain ⟨r, a⟩ := l
  obtain ⟨-, hcases⟩ := steps_of_step hstep
  by_cases hr : r = p
  · show Counted (if r = p then _ else _) _
    rw [if_pos hr]
    rw [hr] at hcases
    rcases hcases with ⟨ok, b, ha, hgo⟩ | hdo
    · have ha' : a = .go ok b := ha
      rw [ha']
      exact counted_goes hx hgo
    · exact counted_does hx hdo
  · have hne : p ≠ r := fun e => hr e.symm
    show Counted (if r = p then _ else _) _
    rw [if_neg hr]
    rcases hcases with ⟨ok, b, -, hgo⟩ | hdo
    · rw [(goes_other hgo hne).1]
      exact hx
    · rw [does_other hne hdo]
      exact hx

/-- The places of `consoleread` and `consolewrite`. -/
def Pc.calls : Pc → Bool
  | .write _ | .writeNext _ _ | .writeEnd _ | .put _ _ _ | .putLoop _ _ _ | .putEnd _ _
  | .start (.put _ _) | .read _ | .readNext _ _ | .readWait _ _ | .readEnd _ | .sleep _ | .asleep _
  | .again _ => true
  | _ => false

theorem Tally.Wrote.within {c : Tally} {m : Int} {i : ℕ} (h : c.Wrote m i) :
    c.copied ≤ c.asked.toNat ∧ c.consumed ≤ c.asked.toNat := by
  rw [h.asked, h.copied, h.consumed]
  exact ⟨Nat.zero_le _, h.le⟩

end Xv6.ConsoleMachine
