import Xv6.Params
import Xv6.PipeInv

/-!
# Nobody sleeps on a pipe that is ready

`Told` is the reason: whoever makes the pipe ready for a sleeper still holds `pi->lock` and will call
`wakeup` (`Pc.Owes`).  The only exit of the three functions that can break it is the one of `pipewrite`
for a killed process, which returns without waking the readers up: `Unkilled` leaves out the runs in which
it is taken with bytes that no reader was told about, and `killed_writer_tells_nobody` is such a run.
-/

namespace Xv6.PipeMachine

open LabelledRuns RingBuffer Params

variable {n : ℕ} {s t : St n} {p : Fin n}

/-- The process sleeps on `ch`, or has given up `pi->lock` to do so. -/
def Proc.Waits (x : Proc) (ch : Chan) : Prop :=
  ∃ k : Loop, k.chan = ch ∧
    (x.pc = .sleepUnlocked k ∨ (x.pc = .sched k ∨ x.pc = .resume k) ∧ x.sleeping = true)

/-- Whoever is at this place with `pi->lock` will still call `wakeup(ch)` for `proc[q]`. -/
def Pc.Owes (fresh : Bool) (ch : Chan) (q : ℕ) : Pc → Prop
  | .write _ _ | .full _ _ | .fullCheck _ _ => fresh = true ∧ ch = .nread
  | .read _ _ => ch = .nwrite
  | .wakeup a j => a.chan = ch ∧ j ≤ q
  | _ => False

def Told (s : St n) : Prop :=
  ∀ q ch, (s.proc q).Waits ch → s.pipe.blocks ch = false →
    ∃ p, s.lock = some p ∧ (s.proc p).pc.Owes s.fresh ch q

def Pc.findsFull : Pc → Bool
  | .fullCheck _ _ => true
  | _ => false

/-- A `pipewrite` that has stored bytes since it took `pi->lock` is not killed when it finds the pipe
full. -/
def Unkilled (s : St n) (l : Fin n × Act n) : Prop :=
  (s.proc l.1).pc.findsFull = true → s.fresh = true → (s.proc l.1).killed = false

instance (s : St n) (l : Fin n × Act n) : Decidable (Unkilled s l) := by
  unfold Unkilled
  infer_instance

/-! ### Who waits -/

theorem Proc.Waits.not_holds {x : Proc} {ch : Chan} (h : x.Waits ch) : x.pc.holds = false := by
  obtain ⟨k, -, hpc | ⟨hpc | hpc, -⟩⟩ := h <;> rw [hpc] <;> rfl

theorem Proc.Waits.uses {x : Proc} {ch : Chan} (h : x.Waits ch) : ∃ k : Loop, k.chan = ch ∧ x.pc.uses = k.uses := by
  obtain ⟨k, hk, hpc | ⟨hpc | hpc, -⟩⟩ := h <;> exact ⟨k, hk, by rw [hpc]; rfl⟩

theorem waits_congr {x y : Proc} {ch : Chan} (hpc : y.pc = x.pc)
    (hs : y.sleeping = true → x.sleeping = true) (h : y.Waits ch) : x.Waits ch := by
  obtain ⟨k, hk, hw⟩ := h
  rw [hpc] at hw
  exact ⟨k, hk, hw.imp_right fun hw => ⟨hw.1, hs hw.2⟩⟩

theorem waits_goes_other {q : Fin n} {ch : Chan} (hgo : Goes s p t) (hq : q ≠ p)
    (h : (t.proc q).Waits ch) : (s.proc q).Waits ch :=
  waits_congr ((goes_frame hgo).pc q hq) ((goes_frame hgo).sleeping q hq) h

theorem waits_does {q : Fin n} {ch : Chan} (hdo : Does s p t) (h : (t.proc q).Waits ch) : (s.proc q).Waits ch := by
  have hproc : ∀ {r : Fin n} {x : Proc}, t.proc = Function.update s.proc r x →
      (x.Waits ch → (s.proc r).Waits ch) → (s.proc q).Waits ch := by
    intro r x ht hx
    by_cases hr : q = r
    · rw [hr] at h ⊢
      rw [ht, Function.update_self] at h
      exact hx h
    · rwa [ht, Function.update_of_ne hr] at h
  have hidle : ∀ {x : Proc}, (x.pc = .user ∨ ∃ c, x.pc = .enter c) → ¬ x.Waits ch := by
    intro x hx hw
    obtain ⟨k, -, hpc | ⟨hpc | hpc, -⟩⟩ := hw <;> obtain hx | ⟨c, hx⟩ := hx <;> rw [hpc] at hx <;>
      cases hx
  cases hdo with
  | write b | read b => exact hproc rfl fun hw => (hidle (.inr ⟨_, rfl⟩) hw).elim
  | close e =>
    refine hproc rfl fun hw => (hidle ?_ hw).elim
    by_cases hmore : 0 < s.ref e - 1
    · exact .inl (if_pos hmore)
    · exact .inr ⟨_, if_neg hmore⟩
  | dup e | fork c | run mem => exact hproc rfl (waits_congr rfl id)
  | kill q => exact hproc rfl (waits_congr rfl fun hs => by cases hs)

/-! ### One step -/

theorem told_keep (h : Inv s) (htold : Told s) (hgo : Goes s p t) (hp : (s.proc p).pc.holds = true)
    (hp' : (t.proc p).pc.holds = true)
    (hstep : ∀ q ch, (s.proc q).Waits ch → (t.proc q).Waits ch → t.pipe.blocks ch = false →
      (s.pipe.blocks ch = false → (s.proc p).pc.Owes s.fresh ch q) → (t.proc p).pc.Owes t.fresh ch q) : Told t := by
  intro q ch hw hready
  have hq : q ≠ p := by
    rintro rfl
    rw [hw.not_holds] at hp'
    cases hp'
  have hws := waits_goes_other hgo hq hw
  refine ⟨p, (lock_goes h hgo p).mpr hp', hstep q ch hws hw hready ?_⟩
  intro hs
  obtain ⟨r, hr, how⟩ := htold q ch hws hs
  rw [(h.lock p).mpr hp, Option.some.injEq] at hr
  rwa [hr]

theorem told_pass (h : Inv s) (htold : Told s) (hgo : Goes s p t) (hp : (s.proc p).pc.holds = true)
    (hp' : (t.proc p).pc.holds = true) (hpipe : t.pipe = s.pipe)
    (hpass : ∀ ch (q : Fin n), (s.proc p).pc.Owes s.fresh ch q → (t.proc p).pc.Owes t.fresh ch q) : Told t := by
  refine told_keep h htold hgo hp hp' ?_
  intro q ch _ _ hready how
  rw [hpipe] at hready
  exact hpass ch q (how hready)

theorem blocked_of_not_owes (h : Inv s) (htold : Told s) (hp : (s.proc p).pc.holds = true)
    (hno : ∀ ch q, ¬ (s.proc p).pc.Owes s.fresh ch q) {q : Fin n} {ch : Chan}
    (hw : (s.proc q).Waits ch) : s.pipe.blocks ch = true := by
  by_contra hready
  obtain ⟨r, hr, how⟩ := htold q ch hw (Bool.not_eq_true _ ▸ hready)
  rw [(h.lock p).mpr hp, Option.some.injEq] at hr
  subst hr
  exact hno ch q how

theorem told_of_blocked (hpipe : t.pipe = s.pipe)
    (hall : ∀ q ch, (t.proc q).Waits ch → s.pipe.blocks ch = true) : Told t := by
  intro q ch hw hready
  rw [hpipe, hall q ch hw] at hready
  cases hready

theorem told_take (htold : Told s) (hgo : Goes s p t) (hnone : s.lock = none) (hpipe : t.pipe = s.pipe)
    (hp : (t.proc p).pc.holds = true) : Told t := by
  refine told_of_blocked hpipe ?_
  intro q ch hw
  have hq : q ≠ p := by
    rintro rfl
    rw [hw.not_holds] at hp
    cases hp
  by_contra hready
  obtain ⟨r, hr, -⟩ := htold q ch (waits_goes_other hgo hq hw) (Bool.not_eq_true _ ▸ hready)
  rw [hnone] at hr
  cases hr

theorem told_give (h : Inv s) (htold : Told s) (hgo : Goes s p t) (hp : (s.proc p).pc.holds = true)
    (hpipe : t.pipe = s.pipe) (hno : ∀ ch q, ¬ (s.proc p).pc.Owes s.fresh ch q)
    (hself : ∀ ch, (t.proc p).Waits ch → s.pipe.blocks ch = true) : Told t := by
  refine told_of_blocked hpipe ?_
  intro q ch hw
  by_cases hq : q = p
  · subst hq
    exact hself ch hw
  · exact blocked_of_not_owes h htold hp hno (waits_goes_other hgo hq hw)

theorem told_outside (h : Inv s) (htold : Told s) (hgo : Goes s p t) (hp : (s.proc p).pc.holds = false)
    (hlock : t.lock = s.lock) (hfresh : t.fresh = s.fresh)
    (hself : ∀ ch, (t.proc p).Waits ch → (s.proc p).Waits ch) : Told t := by
  intro q ch hw hready
  have hpipe : t.pipe = s.pipe := (goes_frame hgo).pipe.resolve_left (Bool.eq_false_iff.mp hp)
  rw [hpipe] at hready
  have hws : (s.proc q).Waits ch := by
    by_cases hq : q = p
    · subst hq
      exact hself ch hw
    · exact waits_goes_other hgo hq hw
  obtain ⟨r, hr, how⟩ := htold q ch hws hready
  have hrp : r ≠ p := by
    rintro rfl
    rw [(h.lock r).mp hr] at hp
    cases hp
  refine ⟨r, hlock.trans hr, ?_⟩
  rwa [(goes_frame hgo).pc r hrp, hfresh]

theorem Inv.readopen (h : Inv s) {q : Fin n} (hw : (s.proc q).Waits .nread) : s.pipe.readopen = true := by
  obtain ⟨k, hk, hu⟩ := hw.uses
  have huses : (s.proc q).pc.uses = some .read := by
    rw [hu]
    cases k with
    | write b i => cases hk
    | read b => rfl
  by_contra hclosed
  have hzero := h.shut .read (Bool.not_eq_true _ ▸ hclosed)
  have hpos := h.uses q .read huses
  have := h.fds_le q .read
  omega

theorem not_waits_wake {j : Fin n} {a : After} (h : Inv s) (hj : (s.proc j).locked = false) :
    ¬ (wake a.chan (s.proc j)).Waits a.chan := by
  rintro ⟨k, hk, hw⟩
  have hpc := (wake_fields a.chan (s.proc j)).1
  rw [hpc] at hw
  have hawake : ∀ {pc}, (s.proc j).pc = pc → pc.dozes = true → False := by
    intro pc hpc hdoze
    rw [h.locked j, hpc, hdoze] at hj
    cases hj
  obtain hpc | ⟨hpc | hpc, hs⟩ := hw
  · exact hawake hpc rfl
  · exact hawake hpc rfl
  · have hsleep := (wake_fields a.chan (s.proc j)).2.2.2.2 hs
    obtain ⟨k', hk', hchan⟩ := h.asleep j hsleep
    rw [hpc] at hk'
    obtain hk' | hk' := hk'
    · cases hk'
    · cases hk'
      rw [hk] at hchan
      rw [wake, if_pos ⟨hsleep, hchan⟩] at hs
      cases hs

theorem owes_skip {ch : Chan} (hdata : s.pipe.isEmpty = false)
    (how : s.pipe.blocks ch = false → ch = .nwrite) : ch = .nwrite := by
  cases ch with
  | nwrite => rfl
  | nread => exact how (by rw [Pipe.blocks, hdata, Bool.false_and])

theorem told_goes {l : Fin n × Act n} (h : Inv s) (htold : Told s) (hok : Unkilled s l)
    (hgo : Goes s l.1 t) : Told t := by
  obtain ⟨p, a⟩ := l
  have hgo' : Goes s p t := hgo
  have hat : ∀ {pc}, (s.proc p).pc = pc → pc.holds = true → (s.proc p).pc.holds = true := by
    rintro pc rfl hh
    exact hh
  cases hgo with
  | enter c hpc hnone => exact told_take htold hgo' hnone rfl (by simp [c.pc_holds])
  | again k hpc hnone => exact told_take htold hgo' hnone rfl (by simp [k.pc_holds])
  | more b i hpc | full b i hpc =>
    refine told_pass h htold hgo' (hat hpc rfl) (by simp [Pc.holds]) rfl fun ch q how => ?_
    rw [hpc] at how
    rw [proc_setPc_self]
    exact how
  | written b i hpc | copyinFault b i hpc | announce b i hpc =>
    refine told_pass h htold hgo' (hat hpc rfl) (by simp [Pc.holds]) rfl fun ch q how => ?_
    rw [hpc] at how
    rw [proc_setPc_self]
    exact ⟨how.2.symm, Nat.zero_le _⟩
  | store b i c hpc hspace =>
    refine told_keep h htold hgo' (hat hpc rfl) (by simp [Pc.holds]) fun q ch _ _ _ how => ?_
    rw [hpc] at how
    rw [proc_setPc_self]
    refine ⟨rfl, ?_⟩
    cases ch with
    | nread => rfl
    | nwrite =>
      -- there was space, so nobody waits for it
      exact (how (by rw [Pipe.blocks, hspace, Bool.false_and])).2
  | giveUp b i hpc hwhy =>
    refine told_keep h htold hgo' (hat hpc rfl) (by simp [Pc.holds]) fun q ch hws _ hready how => ?_
    rw [hpc] at how
    obtain ⟨hfresh, rfl⟩ := how hready
    obtain hclosed | hkilled := hwhy
    · rw [h.readopen hws] at hclosed
      cases hclosed
    · rw [hok (by rw [hpc]; rfl) hfresh] at hkilled
      cases hkilled
  | empty b hpc | begin b hpc | killed b hpc | await b hpc | sleep k hpc =>
    refine told_pass h htold hgo' (hat hpc rfl) (by simp [Pc.holds]) rfl fun ch q how => ?_
    rw [hpc] at how
    exact how.elim
  | done b i hpc =>
    refine told_pass h htold hgo' (hat hpc rfl) (by simp [Pc.holds]) rfl fun ch q how => ?_
    rw [hpc] at how
    rw [proc_setPc_self]
    exact ⟨Eq.symm how, Nat.zero_le _⟩
  | copyoutFault b i hpc _ hdata =>
    refine told_keep h htold hgo' (hat hpc rfl) (by simp [Pc.holds]) fun q ch _ _ _ how => ?_
    rw [hpc] at how
    rw [proc_setPc_self]
    exact ⟨(owes_skip hdata how).symm, Nat.zero_le _⟩
  | deliver b i hpc _ hdata =>
    refine told_keep h htold hgo' (hat hpc rfl) (by simp [Pc.holds]) fun q ch _ _ _ how => ?_
    rw [hpc] at how
    rw [proc_setProc_self]
    exact owes_skip hdata how
  | wake a j hpc hj =>
    refine told_keep h htold hgo' (hat hpc rfl) (by simp [Pc.holds]) fun q ch _ hw hready how => ?_
    rw [hpc] at how
    obtain ⟨hch, hle⟩ := how hready
    rw [proc_setPc_self]
    refine ⟨hch, ?_⟩
    have hne : q ≠ j := by
      rintro rfl
      have hqp : q ≠ p := by
        rintro rfl
        rw [proc_setPc_self] at hw
        have := hw.not_holds
        cases this
      rw [proc_setPc_of_ne hqp, proc_setProc_self, ← hch] at hw
      exact not_waits_wake h hj hw
    have : (j : ℕ) ≠ q := fun heq => hne (Fin.ext heq.symm)
    omega
  | woken a j hpc hj =>
    refine told_keep h htold hgo' (hat hpc rfl) (by simp [a.pc_holds]) fun q ch _ _ hready how => ?_
    rw [hpc] at how
    have := (how hready).2
    omega
  | leave c r hpc =>
    refine told_give h htold hgo' (hat hpc rfl) rfl (by rw [hpc]; exact fun _ _ => id) fun ch hw => ?_
    rw [proc_setProc_self] at hw
    obtain ⟨k, -, hk | ⟨hk | hk, -⟩⟩ := hw <;> cases hk
  | unlock k hpc =>
    refine told_give h htold hgo' (hat hpc rfl) rfl (by rw [hpc]; exact fun _ _ => id) fun ch hw => ?_
    have hknows := h.knows p
    rw [hpc] at hknows
    rw [proc_release_self] at hw
    obtain ⟨k', hk', hk | ⟨hk | hk, -⟩⟩ := hw <;> cases hk
    rw [← hk']
    exact hknows
  | dose k hpc =>
    refine told_outside h htold hgo' (by rw [hpc]; rfl) rfl rfl fun ch hw => ?_
    rw [proc_setProc_self] at hw
    obtain ⟨k', hk', hk | ⟨hk | hk, -⟩⟩ := hw <;> cases hk
    exact ⟨k, hk', .inl hpc⟩
  | sched k hpc =>
    refine told_outside h htold hgo' (by rw [hpc]; rfl) rfl rfl fun ch hw => ?_
    rw [proc_setProc_self] at hw
    obtain ⟨k', hk', hk | ⟨hk | hk, hs⟩⟩ := hw <;> cases hk
    exact ⟨k, hk', .inr ⟨.inl hpc, hs⟩⟩
  | resume k hpc =>
    refine told_outside h htold hgo' (by rw [hpc]; rfl) rfl rfl fun ch hw => ?_
    rw [proc_setProc_self] at hw
    obtain ⟨k', -, hk | ⟨hk | hk, -⟩⟩ := hw <;> cases hk
  | close e hpc =>
    refine told_keep h htold hgo' (hat hpc rfl) (by simp [Pc.holds]) fun q ch hws _ hready how => ?_
    rw [hpc] at how
    rw [proc_setPc_self]
    refine ⟨?_, Nat.zero_le _⟩
    by_contra hch
    -- the other channel is not affected
    have hsame : (s.pipe.shut e).blocks ch = s.pipe.blocks ch := by
      cases e <;> cases ch <;> first | rfl | exact absurd rfl hch
    exact how (hsame.symm.trans hready)
  | lastOut hpc | closed hpc =>
    refine told_give h htold hgo' (hat hpc rfl) rfl (by rw [hpc]; exact fun _ _ => id) fun ch hw => ?_
    rw [proc_release_self] at hw
    obtain ⟨k, -, hk | ⟨hk | hk, -⟩⟩ := hw <;> cases hk
  | kfree hpc =>
    refine told_outside h htold hgo' (by rw [hpc]; rfl) rfl rfl fun ch hw => ?_
    rw [proc_setPc_self] at hw
    obtain ⟨k', -, hk | ⟨hk | hk, -⟩⟩ := hw <;> cases hk

theorem told_does (h : Inv s) (htold : Told s) (huser : (s.proc p).pc = .user) (hdo : Does s p t) : Told t := by
  obtain ⟨hpipe, hlock, -, -, hfresh, hpc⟩ := does_frame hdo
  intro q ch hw hready
  rw [hpipe] at hready
  obtain ⟨r, hr, how⟩ := htold q ch (waits_does hdo hw) hready
  refine ⟨r, hlock.trans hr, ?_⟩
  have hholds : (t.proc r).pc.holds = true := ((inv_does h huser hdo).lock r).mp (hlock.trans hr)
  obtain heq | heq | ⟨c, heq⟩ := hpc r
  · rwa [heq, hfresh]
  · rw [heq] at hholds
    cases hholds
  · rw [heq] at hholds
    cases hholds

theorem told_boot (page : Fin PIPESIZE → UInt8) (p : Fin n) : Told (St.boot page p) := by
  intro q ch hw
  obtain ⟨k, -, hk | ⟨hk | hk, -⟩⟩ := hw <;> cases hk

/-! ### Runs -/

theorem told_run {page : Fin PIPESIZE → UInt8} {ls : List (Fin n × Act n)}
    (hok : Meets St.step Unkilled (St.boot page p) ls)
    (hrun : exec St.step (St.boot page p) ls = some s) : Told s := by
  refine exec_history (P := fun _ s => Told s) (told_boot page p) ?_ hok hrun
  intro ks u l v hks htold hl hs
  have h := inv_run ⟨ks, hks⟩
  obtain hgo | ⟨huser, hdo⟩ := steps_of_step hs
  · exact told_goes h htold hl hgo
  · exact told_does h htold huser hdo

theorem blocked_of_sleeping (h : Inv s) (htold : Told s) (hfree : s.lock = none) {q : Fin n} {ch : Chan}
    (hs : (s.proc q).sleeping = true) (hch : (s.proc q).chan = some ch) : s.pipe.blocks ch = true := by
  obtain ⟨k, hpc, hk⟩ := h.asleep q hs
  rw [hch, Option.some.injEq] at hk
  by_contra hready
  obtain ⟨r, hr, -⟩ := htold q ch ⟨k, hk.symm, .inr ⟨hpc, hs⟩⟩ (Bool.not_eq_true _ ▸ hready)
  rw [hfree] at hr
  cases hr

/-- **Nobody sleeps on a ready pipe**, unless a writer is killed. -/
theorem no_sleeper_on_ready_pipe (page : Fin PIPESIZE → UInt8) (p₀ : Fin n)
    (ls : List (Fin n × Act n)) (s : St n) (hok : Meets St.step Unkilled (St.boot page p₀) ls)
    (hrun : exec St.step (St.boot page p₀) ls = some s) (hfree : s.lock = none) (q : Fin n)
    (hs : (s.proc q).sleeping = true) :
    ¬ ((s.proc q).chan = some .nread ∧
        (s.pipe.nread ≠ s.pipe.nwrite ∨ s.pipe.writeopen = false)) ∧
    ¬ ((s.proc q).chan = some .nwrite ∧
        ((s.pipe.nwrite - s.pipe.nread).toNat < PIPESIZE ∨ s.pipe.readopen = false)) := by
  have h := inv_run ⟨ls, hrun⟩
  have htold := told_run hok hrun
  constructor
  · rintro ⟨hch, hready⟩
    have hblocks := blocked_of_sleeping h htold hfree hs hch
    rw [Pipe.blocks, Bool.and_eq_true] at hblocks
    obtain hdata | hclosed := hready
    · rw [not_empty_iff.mpr hdata] at hblocks
      cases hblocks.1
    · rw [hclosed] at hblocks
      cases hblocks.2
  · rintro ⟨hch, hready⟩
    have hblocks := blocked_of_sleeping h htold hfree hs hch
    rw [Pipe.blocks, Bool.and_eq_true] at hblocks
    obtain hspace | hclosed := hready
    · rw [(not_full_iff h.size).mpr hspace] at hblocks
      cases hblocks.1
    · rw [hclosed] at hblocks
      cases hblocks.2

/-- A child that has gone to sleep in `piperead`. -/
def childReads : List (Fin 2 × Act 2) := (0, .fork 1) :: (1, .read ⟨0, 1⟩) :: goes 1 7

theorem no_sleeper_on_ready_pipe_childReads : ∃ s : St 2,
    exec St.step (St.boot (fun _ => 0) 0) childReads = some s ∧ s.lock = none ∧
    (s.proc 1).sleeping = true ∧ (s.proc 1).chan = some .nread ∧
    ¬ ((s.proc 1).chan = some .nread ∧
        (s.pipe.nread ≠ s.pipe.nwrite ∨ s.pipe.writeopen = false)) := by
  have hok : Meets St.step Unkilled (St.boot (fun _ => 0) 0) childReads := by decide +kernel
  have hrun : (exec St.step (St.boot (fun _ => 0) 0) childReads).any (fun s =>
      s.lock = none ∧ (s.proc 1).sleeping = true ∧ (s.proc 1).chan = some .nread) = true := by
    decide +kernel
  obtain ⟨s, hs, hat⟩ := (Option.any_eq_true _ _).mp hrun
  obtain ⟨hfree, hsleep, hchan⟩ := of_decide_eq_true hat
  have hready := no_sleeper_on_ready_pipe (fun _ => 0) 0 childReads s hok hs hfree 1 hsleep
  exact ⟨s, hs, hfree, hsleep, hchan, hready.1⟩

/-! ### A killed writer -/

theorem exec_store {b : Buf} {i : ℕ} {ch : UInt8} (hpc : (s.proc p).pc = .write b i)
    (hi : (i : Int) < b.n) (hspace : s.pipe.isFull = false)
    (hmem : (s.proc p).mem (b.addr + UInt64.ofNat i) = some ch) :
    ∃ t, exec St.step s (goes p 2) = some t ∧
      t.proc p = { s.proc p with pc := .write b (i + 1) } ∧ (∀ q, q ≠ p → t.proc q = s.proc q) ∧
      t.pipe = s.pipe.store ch := by
  have hfirst : s.step (p, .go) = some (s.setPc p (.full b i)) := by
    simp [St.step, St.go, hpc, hi]
  have hsecond : (s.setPc p (.full b i)).step (p, .go) =
      some ({ s.setPc p (.full b i) with
        pipe := s.pipe.store ch, accepted := s.accepted ++ [ch], fresh := true }.setPc p
          (.write b (i + 1))) := by
    have hspace : (s.setPc p (.full b i)).pipe.isFull = false := hspace
    simp only [St.step, St.go, proc_setPc_self, St.goFull, hspace, hmem]
    rfl
  refine ⟨_, exec_cons_of hfirst (exec_cons_of hsecond rfl), ?_, ?_, rfl⟩
  · rw [proc_setPc_self]
    change { (s.setPc p (.full b i)).proc p with pc := .write b (i + 1) } = _
    rw [proc_setPc_self]
  · intro q hq
    rw [proc_setPc_of_ne hq]
    exact proc_setPc_of_ne hq s _

theorem exec_stores {b : Buf} (k : ℕ) : ∀ (i : ℕ) (s : St n), (s.proc p).pc = .write b i →
    (i + k : Int) ≤ b.n → size s.pipe.nread s.pipe.nwrite + k ≤ PIPESIZE →
    (∀ j, j < k → ((s.proc p).mem (b.addr + UInt64.ofNat (i + j))).isSome = true) →
    ∃ t, exec St.step s (goes p (2 * k)) = some t ∧
      t.proc p = { s.proc p with pc := .write b (i + k) } ∧ (∀ q, q ≠ p → t.proc q = s.proc q) ∧
      size t.pipe.nread t.pipe.nwrite = size s.pipe.nread s.pipe.nwrite + k := by
  induction k with
  | zero =>
    intro i s hpc _ _ _
    refine ⟨s, rfl, ?_, fun _ _ => rfl, rfl⟩
    rw [Nat.add_zero, ← hpc]
  | succ k ih =>
    intro i s hpc hn hspace hmem
    obtain ⟨ch, hch⟩ := Option.isSome_iff_exists.mp (hmem 0 k.succ_pos)
    have hlt : size s.pipe.nread s.pipe.nwrite < PIPESIZE := by omega
    obtain ⟨u, hu, hself, hother, hpipe⟩ :=
      exec_store hpc (by omega) ((not_full_iff hlt.le).mpr hlt) hch
    have hsize : size u.pipe.nread u.pipe.nwrite = size s.pipe.nread s.pipe.nwrite + 1 := by
      have : PIPESIZE < 2 ^ 32 := by decide
      have hpush : size s.pipe.nread (s.pipe.nwrite + 1) = size s.pipe.nread s.pipe.nwrite + 1 :=
        size_push (by omega)
      rw [hpipe]
      exact hpush
    have hpcu : (u.proc p).pc = .write b (i + 1) := by
      rw [hself]
    have hmemu : (u.proc p).mem = (s.proc p).mem := by
      rw [hself]
    have hmore : ∀ j, j < k → ((u.proc p).mem (b.addr + UInt64.ofNat (i + 1 + j))).isSome = true := by
      intro j hj
      rw [hmemu, Nat.add_assoc, Nat.add_comm 1 j]
      exact hmem (j + 1) (Nat.succ_lt_succ hj)
    obtain ⟨t, ht, htself, htother, htsize⟩ :=
      ih (i + 1) u hpcu (by push_cast; omega) (by omega) hmore
    refine ⟨t, ?_, ?_, ?_, ?_⟩
    · have hsplit : goes p (2 * (k + 1)) = goes p 2 ++ goes p (2 * k) := by
        rw [goes, goes, goes, List.replicate_append_replicate]
        congr 1
        omega
      rw [hsplit, exec_append, hu, Option.bind_some, ht]
    · rw [htself, hself, show i + 1 + k = i + (k + 1) by omega]
    · intro q hq
      rw [htother q hq, hother q hq]
    · omega

theorem step_leave {c : Call} {r : Int} (hpc : (s.proc p).pc = .leave c r) :
    s.step (p, .go) =
      some ({ s with lock := none }.setProc p { s.proc p with pc := .user, ret := some r }) := by
  simp only [St.step, St.go, hpc]

theorem exec_giveUp {b : Buf} {i : ℕ} (hpc : (s.proc p).pc = .write b i) (hi : (i : Int) < b.n)
    (hfull : s.pipe.isFull = true) (hkilled : (s.proc p).killed = true) :
    ∃ t, exec St.step s (goes p 4) = some t ∧ t.lock = none ∧ t.pipe = s.pipe ∧ ∀ q, q ≠ p → t.proc q = s.proc q := by
  have h1 : s.step (p, .go) = some (s.setPc p (.full b i)) := by
    simp [St.step, St.go, hpc, hi]
  have h2 : (s.setPc p (.full b i)).step (p, .go) = some (s.setPc p (.fullCheck b i)) := by
    have hfull : (s.setPc p (.full b i)).pipe.isFull = true := hfull
    simp [St.step, St.go, St.goFull, hfull, setPc_setPc]
  have h3 : (s.setPc p (.fullCheck b i)).step (p, .go) = some (s.setPc p (.leave (.write b) (-1))) := by
    simp [St.step, St.go, hkilled, setPc_setPc]
  have h4 := step_leave (s := s.setPc p (.leave (.write b) (-1))) (by rw [proc_setPc_self])
  refine ⟨_, exec_cons_of h1 (exec_cons_of h2 (exec_cons_of h3 (exec_cons_of h4 rfl))), rfl, rfl, ?_⟩
  intro q hq
  rw [proc_setProc_of_ne hq]
  exact proc_setPc_of_ne hq s _

theorem mod_NPROC_lt (i : ℕ) : i % NPROC < NPROC := Nat.mod_lt i (by decide)

def slotOf (i : ℕ) : Fin NPROC := ⟨i % NPROC, mod_NPROC_lt i⟩

/-- Process 1 sleeps in `piperead`; process 0 is in `pipewrite` with more than `PIPESIZE` bytes when
process 2 kills it. -/
def killedWriter : List (Fin NPROC × Act NPROC) :=
  (slotOf 0, .run fun _ => some 7) :: (slotOf 0, .fork (slotOf 1)) :: (slotOf 0, .fork (slotOf 2)) ::
    (slotOf 1, .read ⟨0, 1⟩) :: goes (slotOf 1) 7 ++ (slotOf 0, .write ⟨0, 513⟩) :: goes (slotOf 0) 1 ++
    [(slotOf 2, .kill (slotOf 0))]

/-- **A killed writer tells nobody.**  It fills the pipe, finds itself killed and leaves, with the reader
still asleep. -/
theorem killed_writer_tells_nobody :
    ∃ s : St NPROC, exec St.step (St.boot (fun _ => 0) (slotOf 0))
      (killedWriter ++ goes (slotOf 0) (2 * PIPESIZE) ++ goes (slotOf 0) 4) = some s ∧
    s.lock = none ∧ (s.proc (slotOf 1)).sleeping = true ∧ (s.proc (slotOf 1)).chan = some .nread ∧
    s.pipe.nread ≠ s.pipe.nwrite := by
  have hstart : (exec St.step (St.boot (fun _ => 0) (slotOf 0)) killedWriter).any (fun s =>
      (s.proc (slotOf 0)).pc = .write ⟨0, 513⟩ 0 ∧ size s.pipe.nread s.pipe.nwrite = 0 ∧
      (∀ j, j < PIPESIZE → ((s.proc (slotOf 0)).mem (0 + UInt64.ofNat (0 + j))).isSome = true) ∧
      (s.proc (slotOf 0)).killed = true ∧ (s.proc (slotOf 1)).sleeping = true ∧
      (s.proc (slotOf 1)).chan = some .nread) = true := by decide +kernel
  have hne : slotOf 1 ≠ slotOf 0 := by decide
  obtain ⟨s, hs, hat⟩ := (Option.any_eq_true _ _).mp hstart
  obtain ⟨hpc, hsize, hmem, hkilled, hsleep, hchan⟩ := of_decide_eq_true hat
  obtain ⟨t, ht, htself, htother, htsize⟩ :=
    exec_stores PIPESIZE 0 s hpc (by decide) (by rw [hsize, Nat.zero_add]) hmem
  have hfull : t.pipe.isFull = true := by
    rw [hsize, Nat.zero_add] at htsize
    rw [← Bool.not_eq_false, not_full_iff htsize.le, htsize]
    exact lt_irrefl _
  obtain ⟨u, hu, hfree, hpipe, huother⟩ :=
    exec_giveUp (s := t) (b := ⟨0, 513⟩) (i := 0 + PIPESIZE) (by rw [htself]) (by decide) hfull
      (by rw [htself]; exact hkilled)
  refine ⟨u, ?_, hfree, ?_, ?_, ?_⟩
  · rw [exec_append, exec_append, hs, Option.bind_some, ht, Option.bind_some, hu]
  · rw [huother _ hne, htother _ hne]
    exact hsleep
  · rw [huother _ hne, htother _ hne]
    exact hchan
  · rw [hpipe]
    intro heq
    rw [hsize, Nat.zero_add, size_eq_zero.mpr heq] at htsize
    cases htsize

end Xv6.PipeMachine
