import Xv6.ConsoleSteps
import Xv6.RunSimulation

/-!
# The console's line discipline

`Line` is what the input ring stands for: the bytes that are committed and the line that is still being
edited.  `Disc` is the terminal seen from outside, with the calls of `consoleread` in progress.

* `intr_line`, `skip_line` — the three indices do on the ring what `Line.input` and a reader do on lists,
  and keep them in order (`Cons.Ok`);
* `disc_goes`, `disc_does` — each step of the machine is a step of `Disc` or none;
* `console_refines_line_discipline` — so is every run, as long as no copy to a user faults.
-/

namespace Xv6.ConsoleMachine

open LabelledRuns RingBuffer RunSimulation
open Function (update_self update_of_ne update_eq_self)

variable {n : ℕ} {s t : St n} {p : Fin n} {ok : Bool} {a : Act n} {k : Cons} {c : UInt8}

/-! ### The line discipline -/

/-- The committed bytes and the line being edited. -/
structure Line where
  queue : List UInt8
  line : List UInt8

def Line.stored (l : Line) : ℕ := l.queue.length + l.line.length

/-- A byte is appended; newline, `^D` or a full buffer commit the line. -/
def Line.append (l : Line) (c : UInt8) : Line :=
  if c = newline ∨ c = ctrlD ∨ l.stored + 1 = INPUT_BUF then ⟨l.queue ++ (l.line ++ [c]), []⟩
  else ⟨l.queue, l.line ++ [c]⟩

def Line.input (l : Line) (c : UInt8) : Line :=
  if c = ctrlP then l
  else if c = ctrlU then ⟨l.queue, []⟩
  else if c = ctrlH ∨ c = del then ⟨l.queue, l.line.dropLast⟩
  else if c ≠ 0 ∧ l.stored < INPUT_BUF then l.append (if c = carriageReturn then newline else c)
  else l

/-- A call of `consoleread`: with `left` bytes of `target` to go, or about to return `r`. -/
inductive Reader where
  | idle
  | reading (target left : Int)
  | done (r : Int)

structure Disc (n : ℕ) where
  line : Line
  reader : Fin n → Reader
  got : Fin n → List UInt8

inductive Event (n : ℕ) where
  | input (c : UInt8)
  | read (p : Fin n) (m : Int)
  /-- `p` takes the first committed byte. -/
  | take (p : Fin n)
  /-- `p` has what it asked for. -/
  | full (p : Fin n)
  /-- `p` is killed while it waits. -/
  | giveUp (p : Fin n)
  | ret (p : Fin n)

def Disc.set (d : Disc n) (p : Fin n) (x : Reader) : Disc n :=
  { d with reader := Function.update d.reader p x }

/-- A reader meets `c`, with `rest` behind it: `^D` ends the call and stays when there were bytes before
it, a newline is delivered and ends the call. -/
def Disc.take (d : Disc n) (p : Fin n) (target left : Int) (c : UInt8) (rest : List UInt8) : Disc n :=
  if c = ctrlD then
    { d with line := ⟨if left < target then c :: rest else rest, d.line.line⟩ }.set p (.done (target - left))
  else
    { d with
      line := ⟨rest, d.line.line⟩
      got := Function.update d.got p (d.got p ++ [c]) }.set p
      (if c = newline then .done (target - (left - 1)) else .reading target (left - 1))

def Disc.step (d : Disc n) : Event n → Option (Disc n)
  | .input c => some { d with line := d.line.input c }
  | .read p m =>
    match d.reader p with
    | .idle => some (d.set p (.reading m m))
    | _ => none
  | .take p =>
    match d.reader p, d.line.queue with
    | .reading target left, c :: rest => if 0 < left then some (d.take p target left c rest) else none
    | _, _ => none
  | .full p =>
    match d.reader p with
    | .reading target left => if 0 < left then none else some (d.set p (.done (target - left)))
    | _ => none
  | .giveUp p =>
    match d.reader p, d.line.queue with
    | .reading _ left, [] => if 0 < left then some (d.set p (.done (-1))) else none
    | _, _ => none
  | .ret p =>
    match d.reader p with
    | .done _ => some (d.set p .idle)
    | _ => none

def Disc.boot (n : ℕ) : Disc n := ⟨⟨[], []⟩, fun _ => .idle, fun _ => []⟩

/-! ### The ring as a line -/

def Cons.line (k : Cons) : Line := ⟨contents k.buf k.r k.w, contents k.buf k.w k.e⟩

structure Cons.Ok (k : Cons) : Prop where
  order : size k.r k.w ≤ size k.r k.e
  room : size k.r k.e ≤ INPUT_BUF
  full : size k.r k.e = INPUT_BUF → k.w = k.e
  noNewline : newline ∉ contents k.buf k.w k.e

theorem Cons.Ok.stored (h : k.Ok) : k.line.stored = size k.r k.e := by
  rw [Line.stored, Cons.line, length_contents, length_contents, size_between h.order]

theorem INPUT_BUF_dvd : INPUT_BUF ∣ 2 ^ 32 := by decide

theorem size_eq_INPUT_BUF (r e : BitVec 32) : size r e = INPUT_BUF ↔ e = r + BitVec.ofNat 32 INPUT_BUF := by
  constructor
  · intro h
    rw [← h, add_size]
  · rintro rfl
    have hsub : r + BitVec.ofNat 32 INPUT_BUF - r = BitVec.ofNat 32 INPUT_BUF := by grind
    rw [size, hsub]
    rfl

/-- **`^U` empties the line**: there is no newline in it to stop at. -/
theorem killLine_eq (k : Cons) (h : newline ∉ contents k.buf k.w k.e) :
    k.killLine (size k.w k.e) = { k with e := k.w } := by
  generalize hm : size k.w k.e = m
  induction m generalizing k with
  | zero =>
    obtain ⟨buf, r, w, e⟩ := k
    have heq : w = e := size_eq_zero.mp hm
    rw [Cons.killLine, heq]
  | succ m ih =>
    have hne : k.w ≠ k.e := fun heq => by rw [size_eq_zero.mpr heq] at hm; cases hm
    rw [size_back hne, Nat.add_right_cancel_iff] at hm
    rw [contents_back hne, List.mem_append, List.mem_singleton, not_or] at h
    rw [Cons.killLine, if_pos ⟨hne.symm, Ne.symm h.2⟩]
    exact ih { k with e := k.e - 1 } h.1 hm

theorem erase_line (h : k.Ok) : k.erase.line = ⟨k.line.queue, k.line.line.dropLast⟩ ∧ k.erase.Ok := by
  unfold Cons.erase
  split
  · rename_i hne
    have hback := contents_back hne.symm k.buf
    have hsize := size_back hne.symm
    have hbetween := size_between h.order
    have hre : k.r ≠ k.e := by
      intro heq
      rw [size_eq_zero.mpr heq] at hbetween
      omega
    have hback' := size_back hre
    have hroom := h.room
    refine ⟨?_, ?_, ?_, ?_, ?_⟩
    · simp only [Cons.line, hback, List.dropLast_concat]
    · change size k.r k.w ≤ size k.r (k.e - 1)
      omega
    · change size k.r (k.e - 1) ≤ INPUT_BUF
      omega
    · intro hfull
      change size k.r (k.e - 1) = INPUT_BUF at hfull
      omega
    · change newline ∉ contents k.buf k.w (k.e - 1)
      have hno := h.noNewline
      rw [hback, List.mem_append, not_or] at hno
      exact hno.1
  · rename_i heq
    rw [ne_eq, not_not] at heq
    refine ⟨?_, h⟩
    rw [Cons.line, heq, contents_self, List.dropLast_nil]

theorem input_line (h : k.Ok) (hroom : size k.r k.e < INPUT_BUF) (c : UInt8) :
    (k.input c).1.line = k.line.append c ∧ (k.input c).1.Ok := by
  have hbuf : INPUT_BUF = 128 := rfl
  have hbetween := size_between h.order
  have hqueue := contents_update INPUT_BUF_dvd h.order hroom k.buf c
  have hline := contents_push INPUT_BUF_dvd (by omega : size k.w k.e < INPUT_BUF) (by omega) k.buf c
  have hsize : size k.r (k.e + 1) = size k.r k.e + 1 := size_push (by omega)
  have hends : (k.store c).ends c = true ↔ c = newline ∨ c = ctrlD ∨ k.line.stored + 1 = INPUT_BUF := by
    rw [h.stored, ← hsize, size_eq_INPUT_BUF]
    simp [Cons.ends, Cons.store, or_assoc]
  unfold Cons.input Line.append
  by_cases hend : (k.store c).ends c = true
  · rw [if_pos hend, if_pos (hends.mp hend)]
    have hwhole : contents (k.store c).buf k.r (k.e + 1) =
        contents k.buf k.r k.w ++ (contents k.buf k.w k.e ++ [c]) := by
      rw [contents_append (by omega : size k.r k.w ≤ size k.r (k.e + 1))]
      simp only [Cons.store]
      rw [hqueue, hline]
    refine ⟨?_, le_refl _, ?_, fun _ => rfl, ?_⟩
    · simp only [Cons.line]
      rw [contents_self]
      exact congrArg (Line.mk · []) hwhole
    · change size k.r (k.e + 1) ≤ INPUT_BUF
      omega
    · simp only [Cons.store, contents_self, List.not_mem_nil, not_false_eq_true]
  · rw [if_neg hend, if_neg (mt hends.mpr hend)]
    rw [hends, not_or, not_or, h.stored] at hend
    obtain ⟨hnewline, -, hfew⟩ := hend
    refine ⟨?_, ?_, ?_, ?_, ?_⟩
    · simp only [Cons.line, Cons.store]
      rw [hqueue, hline]
    · change size k.r k.w ≤ size k.r (k.e + 1)
      omega
    · change size k.r (k.e + 1) ≤ INPUT_BUF
      omega
    · intro hfull
      change size k.r (k.e + 1) = INPUT_BUF at hfull
      omega
    · change newline ∉ contents (k.store c).buf k.w (k.e + 1)
      simp only [Cons.store]
      rw [hline, List.mem_append, List.mem_singleton, not_or]
      exact ⟨h.noNewline, Ne.symm hnewline⟩

/-- **`consoleintr` edits the line.** -/
theorem intr_line (h : k.Ok) (c : UInt8) : (k.intr c).1.line = k.line.input c ∧ (k.intr c).1.Ok := by
  unfold Cons.intr Line.input
  by_cases hP : c = ctrlP
  · rw [if_pos hP, if_pos hP]
    exact ⟨rfl, h⟩
  rw [if_neg hP, if_neg hP]
  by_cases hU : c = ctrlU
  · rw [if_pos hU, if_pos hU]
    have hkill : k.killLine (k.e - k.w).toNat = { k with e := k.w } := killLine_eq k h.noNewline
    have hroom := h.order.trans h.room
    simp only [hkill]
    refine ⟨?_, le_refl _, hroom, fun _ => rfl, ?_⟩
    · rw [Cons.line, contents_self]
      rfl
    · rw [contents_self]
      exact List.not_mem_nil
  rw [if_neg hU, if_neg hU]
  by_cases hH : c = ctrlH ∨ c = del
  · rw [if_pos hH, if_pos hH]
    exact erase_line h
  rw [if_neg hH, if_neg hH, h.stored]
  change (if c ≠ 0 ∧ size k.r k.e < INPUT_BUF then _ else _ : Cons × Bool).1.line = _ ∧
    (if c ≠ 0 ∧ size k.r k.e < INPUT_BUF then _ else _ : Cons × Bool).1.Ok
  by_cases hput : c ≠ 0 ∧ size k.r k.e < INPUT_BUF
  · rw [if_pos hput, if_pos hput]
    exact input_line h hput.2 _
  · rw [if_neg hput, if_neg hput]
    exact ⟨rfl, h⟩

/-- **`cons.r++` takes the first committed byte.** -/
theorem skip_line (h : k.Ok) (hne : k.r ≠ k.w) :
    k.line = ⟨k.first :: k.skip.line.queue, k.skip.line.line⟩ ∧ k.skip.Ok := by
  have hw := size_pop hne
  have horder := h.order
  have hroom := h.room
  have hre : k.r ≠ k.e := by
    intro heq
    rw [size_eq_zero.mpr heq] at horder
    omega
  have he := size_pop hre
  refine ⟨?_, ?_, ?_, ?_, h.noNewline⟩
  · rw [Cons.line, contents_pop hne]
    rfl
  · change size (k.r + 1) k.w ≤ size (k.r + 1) k.e
    omega
  · change size (k.r + 1) k.e ≤ INPUT_BUF
    omega
  · intro hfull
    change size (k.r + 1) k.e = INPUT_BUF at hfull
    omega

theorem queue_append (l : Line) (c : UInt8) : l.queue <+: (l.append c).queue := by
  unfold Line.append
  split
  · exact List.prefix_append _ _
  · exact List.prefix_refl _

theorem queue_input (l : Line) (c : UInt8) : l.queue <+: (l.input c).queue := by
  unfold Line.input
  split
  · exact List.prefix_refl _
  split
  · exact List.prefix_refl _
  split
  · exact List.prefix_refl _
  split
  · exact queue_append l _
  · exact List.prefix_refl _

theorem queue_edit (l : Line) (h : c = ctrlU ∨ c = ctrlH ∨ c = del) : (l.input c).queue = l.queue := by
  obtain rfl | rfl | rfl := h
  · rfl
  · rfl
  · rfl

/-! ### One step -/

/-- The call of `consoleread` at a place. -/
def Pc.reader : Pc → Reader
  | .read m => .reading m m
  | .readNext target m | .readWait target m => .reading target m
  | .sleep (.read target m) | .asleep (.read target m) | .again (.read target m) => .reading target m
  | .readEnd r => .done r
  | _ => .idle

def St.disc (s : St n) : Disc n := ⟨s.cons.line, fun p => (s.thread p).pc.reader, s.got⟩

/-- What a thread that goes on does to the terminal. -/
def St.goEvent (s : St n) (p : Fin n) : Option (Event n) :=
  match (s.thread p).pc with
  | .consoleintrBody c => some (.input c)
  | .readNext _ m => if 0 < m then none else some (.full p)
  | .readWait _ _ =>
    if s.cons.r = s.cons.w then (if (s.thread p).killed then some (.giveUp p) else none)
    else some (.take p)
  | .readEnd _ => some (.ret p)
  | _ => none

def St.event (s : St n) (l : Fin n × Act n) : Option (Event n) :=
  match l.2 with
  | .go _ _ => s.goEvent l.1
  | .read m => some (.read l.1 m)
  | _ => none

/-- The places of a call that still wants bytes. -/
def Pc.wants : Pc → Option Int
  | .readWait _ m | .sleep (.read _ m) | .asleep (.read _ m) | .again (.read _ m) => some m
  | _ => none

structure Ready (s : St n) : Prop where
  cons : s.cons.Ok
  wants : ∀ p m, (s.thread p).pc.wants = some m → 0 < m

theorem disc_of_goes (hgo : Goes s p ok t) :
    t.disc = ⟨t.cons.line, Function.update s.disc.reader p (t.thread p).pc.reader, t.got⟩ := by
  have hreader : (fun q => (t.thread q).pc.reader) =
      Function.update s.disc.reader p (t.thread p).pc.reader := by
    funext q
    by_cases hq : q = p
    · rw [hq, update_self]
    · rw [update_of_ne hq, (goes_other hgo hq).1]
      rfl
  rw [St.disc, hreader]

theorem exec_disc_none (hgo : Goes s p ok t) (hevent : s.goEvent p = none) (hcons : t.cons = s.cons)
    (hgot : t.got = s.got) (hreader : (t.thread p).pc.reader = (s.thread p).pc.reader) :
    exec Disc.step s.disc (s.goEvent p).toList = some t.disc := by
  rw [hevent, Option.toList_none, exec_nil, disc_of_goes hgo, hcons, hgot, hreader,
    Option.some.injEq]
  exact congrArg (Disc.mk s.cons.line · s.got) (update_eq_self p s.disc.reader).symm

theorem exec_disc_some {e : Event n} {d : Disc n} (hevent : s.goEvent p = some e)
    (hstep : s.disc.step e = some d) (hd : d = t.disc) :
    exec Disc.step s.disc (s.goEvent p).toList = some t.disc := by
  rw [hevent, Option.toList_some]
  exact exec_cons_of (hstep.trans (congrArg some hd)) (exec_nil _)

theorem reader_acquires {pc pc' : Pc} {lk : Lock} (h : pc.acquires = some (lk, pc')) : pc'.reader = pc.reader := by
  cases pc with
  | again k => cases k <;> cases h <;> rfl
  | write | put | read | consoleintr | intrTx => cases h; rfl
  | _ => cases h

theorem reader_releases {pc pc' : Pc} {lk : Lock} (h : pc.releases = some (lk, pc')) : pc'.reader = pc.reader := by
  cases pc with
  | putEnd | consoleintrEnd | intrTxEnd => cases h; rfl
  | _ => cases h

theorem goEvent_acquires {lk : Lock} {pc : Pc} (h : (s.thread p).pc.acquires = some (lk, pc)) :
    s.goEvent p = none := by
  unfold St.goEvent
  cases hpc : (s.thread p).pc <;> rw [hpc] at h <;> first | rfl | cases h

theorem goEvent_releases {lk : Lock} {pc : Pc} (h : (s.thread p).pc.releases = some (lk, pc)) :
    s.goEvent p = none := by
  unfold St.goEvent
  cases hpc : (s.thread p).pc <;> rw [hpc] at h <;> first | rfl | cases h

theorem disc_take (h : Ready s) {target m : Int} (hpc : (s.thread p).pc = .readWait target m)
    (hne : s.cons.r ≠ s.cons.w) : s.goEvent p = some (.take p) ∧
    s.disc.step (.take p) = some (s.disc.take p target m s.cons.first s.cons.skip.line.queue) := by
  have hm : 0 < m := h.wants p m (by rw [hpc]; rfl)
  have hline := (skip_line h.cons hne).1
  have hreader : s.disc.reader p = .reading target m := by
    simp only [St.disc, hpc, Pc.reader]
  have hqueue : s.disc.line.queue = s.cons.first :: s.cons.skip.line.queue := by
    simp only [St.disc, hline]
  refine ⟨?_, ?_⟩
  · simp only [St.goEvent, hpc, hne, if_false]
  · simp only [Disc.step, hreader, hqueue, hm, if_true]

theorem disc_goes (h : Ready s) (hok : (s.thread p).pc.wants.isSome → ok = true) (hgo : Goes s p ok t) :
    exec Disc.step s.disc (s.goEvent p).toList = some t.disc := by
  have hdisc := disc_of_goes hgo
  have hgo' := hgo
  cases hgo with
  | readFault target m hpc hne hfirst hfault =>
    rw [hok (by rw [hpc]; rfl)] at hfault
    cases hfault
  | acquirePanic lk pc hpc _ => exact exec_disc_none hgo' (goEvent_acquires hpc) rfl rfl rfl
  | acquire lk pc hpc _ =>
    refine exec_disc_none hgo' (goEvent_acquires hpc) rfl rfl ?_
    rw [thread_setThread_self]
    exact reader_acquires hpc
  | release lk pc hpc =>
    refine exec_disc_none hgo' (goEvent_releases hpc) rfl rfl ?_
    rw [St.release, thread_setThread_self]
    exact reader_releases hpc
  | input c hpc =>
    have hevent : s.goEvent p = some (.input c) := by simp only [St.goEvent, hpc]
    refine exec_disc_some hevent rfl ?_
    have hline := (intr_line h.cons c).1
    have hreader : s.disc.reader p = .idle := by simp only [St.disc, hpc, Pc.reader]
    obtain heq | heq := goInput_eq s p c <;> rw [hdisc, heq, thread_setPc_self]
    · change _ = Disc.mk (s.cons.intr c).1.line (Function.update s.disc.reader p .idle) s.got
      rw [hline, ← hreader, update_eq_self]
      rfl
    · change _ = Disc.mk (s.cons.intr c).1.line (Function.update s.disc.reader p .idle) s.got
      rw [hline, ← hreader, update_eq_self]
      rfl
  | readByte target m hpc hne hfirst =>
    obtain ⟨hevent, hstep⟩ := disc_take h hpc hne
    refine exec_disc_some hevent hstep ?_
    have hline := (skip_line h.cons hne).1
    rw [hdisc, Disc.take, if_neg hfirst, thread_setPc_self]
    simp only [Disc.set, St.disc, hline, St.setPc, St.setThread, Disc.mk.injEq, true_and, and_true]
    split <;> rfl
  | readEof target m hpc hne hfirst =>
    obtain ⟨hevent, hstep⟩ := disc_take h hpc hne
    refine exec_disc_some hevent hstep ?_
    have hline := (skip_line h.cons hne).1
    rw [hdisc, Disc.take, if_pos hfirst, thread_setPc_self]
    simp only [Disc.set, St.disc, hline, St.setPc, St.setThread, Disc.mk.injEq, and_true]
    refine ⟨?_, rfl⟩
    split
    · rw [hline]
    · rfl
  | readEnd r hpc =>
    have hevent : s.goEvent p = some (.ret p) := by simp only [St.goEvent, hpc]
    have hreader : s.disc.reader p = .done r := by simp only [St.disc, hpc, Pc.reader]
    have hstep : s.disc.step (.ret p) = some (s.disc.set p .idle) := by simp only [Disc.step, hreader]
    refine exec_disc_some hevent hstep ?_
    rw [hdisc, St.ret, thread_setThread_self]
    rfl
  | readFull target m hpc hm =>
    have hevent : s.goEvent p = some (.full p) := by simp only [St.goEvent, hpc, hm, if_false]
    have hreader : s.disc.reader p = .reading target m := by simp only [St.disc, hpc, Pc.reader]
    have hstep : s.disc.step (.full p) = some (s.disc.set p (.done (target - m))) := by
      simp only [Disc.step, hreader, hm, if_false]
    refine exec_disc_some hevent hstep ?_
    rw [hdisc, thread_setPc_self]
    rfl
  | readKilled target m hpc hempty hkilled =>
    have hevent : s.goEvent p = some (.giveUp p) := by
      simp only [St.goEvent, hpc, hempty, hkilled, if_true]
    have hreader : s.disc.reader p = .reading target m := by simp only [St.disc, hpc, Pc.reader]
    have hqueue : s.disc.line.queue = [] := by
      simp only [St.disc, Cons.line, hempty, contents_self]
    have hm : 0 < m := h.wants p m (by rw [hpc]; rfl)
    have hstep : s.disc.step (.giveUp p) = some (s.disc.set p (.done (-1))) := by
      simp only [Disc.step, hreader, hqueue, hm, if_true]
    refine exec_disc_some hevent hstep ?_
    rw [hdisc, thread_setPc_self]
    rfl
  | startEnd k hpc | woken k hpc =>
    refine exec_disc_none hgo' (by simp only [St.goEvent, hpc]) rfl rfl ?_
    rw [thread_setPc_self, hpc]
    cases k <;> rfl
  | sleepPanic k hpc _ => exact exec_disc_none hgo' (by simp only [St.goEvent, hpc]) rfl rfl rfl
  | sleep k hpc _ =>
    refine exec_disc_none hgo' (by simp only [St.goEvent, hpc]) rfl rfl ?_
    rw [thread_setThread_self, hpc]
    cases k <;> rfl
  | writeEnd i hpc =>
    refine exec_disc_none hgo' (by simp only [St.goEvent, hpc]) rfl rfl ?_
    rw [St.ret, thread_setThread_self, hpc]
    rfl
  | _ =>
    refine exec_disc_none hgo' (by simp_all [St.goEvent]) rfl rfl ?_
    rw [thread_setPc_self]
    simp_all [Pc.reader]

theorem disc_does (hdo : Does s p a t) : exec Disc.step s.disc (s.event (p, a)).toList = some t.disc := by
  have hset : ∀ {q : Fin n} {x : Thread}, x.pc.reader = (s.thread q).pc.reader →
      (s.setThread q x).disc = s.disc := by
    intro q x hx
    have hreader : (fun r => ((s.setThread q x).thread r).pc.reader) = s.disc.reader := by
      funext r
      by_cases hr : r = q
      · rw [hr, thread_setThread_self, hx]
        rfl
      · rw [thread_setThread_of_ne hr]
        rfl
    rw [St.disc, hreader]
    rfl
  cases hdo with
  | write m huser | interrupt huser => exact congrArg some (hset (by rw [huser]; rfl)).symm
  | kill q =>
    have hkill := hset (q := q) (x := { s.thread q with killed := true, sleeping := false }) rfl
    exact congrArg some hkill.symm
  | read m huser =>
    have hidle : s.disc.reader p = .idle := by simp only [St.disc, huser, Pc.reader]
    have hstep : s.disc.step (.read p m) = some (s.disc.set p (.reading m m)) := by
      simp only [Disc.step, hidle]
    have hreader : (fun q => ((s.setPc p (.read m)).thread q).pc.reader) =
        Function.update s.disc.reader p (.reading m m) := by
      funext q
      by_cases hq : q = p
      · rw [hq, thread_setPc_self, update_self]
        rfl
      · rw [thread_setPc_of_ne hq, update_of_ne hq]
        rfl
    refine exec_cons_of hstep ?_
    change some (s.disc.set p (.reading m m)) =
      some (Disc.mk s.cons.line (fun q => ((s.setPc p (.read m)).thread q).pc.reader) s.got)
    rw [hreader]
    rfl

/-! ### The invariant -/

theorem ready_goes (h : Ready s) (hgo : Goes s p ok t) : Ready t := by
  refine ⟨?_, ?_⟩
  · have hcons := h.cons
    cases hgo with
    | input c hpc =>
      have hintr := (intr_line hcons c).2
      obtain heq | heq := goInput_eq s p c <;> rw [heq] <;> exact hintr
    | readByte target m hpc hne _ | readFault target m hpc hne _ _ => exact (skip_line hcons hne).2
    | readEof target m hpc hne _ =>
      change (if m < target then s.cons else s.cons.skip).Ok
      split
      · exact hcons
      · exact (skip_line hcons hne).2
    | _ => exact hcons
  · intro q m hq
    by_cases hqp : q = p
    · subst hqp
      have hwants := h.wants q
      cases hgo with
      | acquirePanic | sleepPanic => exact hwants m hq
      | acquire lk pc hpc _ =>
        rw [thread_setThread_self] at hq
        cases hat : (s.thread q).pc with
        | again k =>
          rw [hat] at hpc hwants
          cases k with
          | read target m' =>
            cases hpc
            exact hwants m hq
          | put => cases hpc; cases hq
        | write | put | read | consoleintr | intrTx => rw [hat] at hpc; cases hpc; cases hq
        | _ => rw [hat] at hpc; cases hpc
      | release lk pc hpc =>
        rw [St.release, thread_setThread_self] at hq
        cases hat : (s.thread q).pc with
        | putEnd | consoleintrEnd | intrTxEnd => rw [hat] at hpc; cases hpc; cases hq
        | _ => rw [hat] at hpc; cases hpc
      | readMore target m' hpc hm =>
        rw [thread_setPc_self] at hq
        cases hq
        exact hm
      | readSleep target m' hpc _ _ =>
        rw [thread_setPc_self] at hq
        rw [hpc] at hwants
        exact hwants m hq
      | sleep k hpc _ =>
        rw [thread_setThread_self] at hq
        rw [hpc] at hwants
        cases k with
        | read => exact hwants m hq
        | put => cases hq
      | woken k hpc =>
        rw [thread_setPc_self] at hq
        rw [hpc] at hwants
        cases k with
        | read => exact hwants m hq
        | put => cases hq
      | startEnd k hpc =>
        rw [thread_setPc_self] at hq
        cases k <;> cases hq
      | input c hpc =>
        obtain heq | heq := goInput_eq s q c <;> rw [heq, thread_setPc_self] at hq <;> cases hq
      | readByte target m' hpc _ _ =>
        rw [thread_setPc_self] at hq
        change Pc.wants (if s.cons.first = newline then _ else _) = some m at hq
        split at hq <;> cases hq
      | writeEnd i hpc | readEnd r hpc =>
        rw [St.ret, thread_setThread_self] at hq
        cases hq
      | _ =>
        rw [thread_setPc_self] at hq
        cases hq
    · rw [(goes_other hgo hqp).1] at hq
      exact h.wants q m hq

theorem ready_does (h : Ready s) (hdo : Does s p a t) : Ready t := by
  have hset : ∀ {q : Fin n} {x : Thread}, x.pc = (s.thread q).pc ∨ x.pc.wants = none →
      Ready (s.setThread q x) := by
    intro q x hx
    refine ⟨h.cons, ?_⟩
    intro r m hr
    by_cases hq : r = q
    · rw [hq, thread_setThread_self] at hr
      obtain hx | hx := hx
      · rw [hx] at hr
        exact h.wants q m hr
      · rw [hx] at hr
        cases hr
    · rw [thread_setThread_of_ne hq] at hr
      exact h.wants r m hr
  cases hdo with
  | write | read | interrupt => exact hset (.inr rfl)
  | kill q => exact hset (.inl rfl)

theorem line_boot : (St.boot n).cons.line = ⟨[], []⟩ := by
  simp only [St.boot, Cons.line, contents_self]

theorem ready_boot : Ready (St.boot n) where
  cons :=
    { order := le_refl _
      room := by simp only [St.boot, size_self, Nat.zero_le]
      full := fun _ => rfl
      noNewline := by simp only [St.boot, contents_self, List.not_mem_nil, not_false_eq_true] }
  wants := by
    intro p m hm
    cases hm

/-! ### Runs -/

/-- The copies of `consoleread` to users do not fault. -/
def NoFault (s : St n) (l : Fin n × Act n) : Prop :=
  match l.2 with
  | .go ok _ => (s.thread l.1).pc.wants.isSome = true → ok = true
  | _ => True

instance (s : St n) (l : Fin n × Act n) : Decidable (NoFault s l) := by
  unfold NoFault
  split <;> infer_instance

theorem ready_step {l : Fin n × Act n} (h : Ready s) (hs : s.step l = some t) : Ready t := by
  obtain ⟨-, ⟨ok, c, -, hgo⟩ | hdo⟩ := steps_of_step hs
  · exact ready_goes h hgo
  · exact ready_does h hdo

theorem disc_step {l : Fin n × Act n} (h : Ready s) (hl : NoFault s l) (hs : s.step l = some t) :
    exec Disc.step s.disc (s.event l).toList = some t.disc := by
  obtain ⟨p, a⟩ := l
  obtain ⟨-, ⟨ok, c, rfl, hgo⟩ | hdo⟩ := steps_of_step hs
  · exact disc_goes h hl hgo
  · exact disc_does hdo

/-- **The ring refines the line discipline**, the indices stay in order, a full buffer is committed, and
input leaves the committed bytes where they are. -/
theorem console_refines_line_discipline (ls : List (Fin n × Act n)) (s : St n)
    (hok : Meets St.step NoFault (St.boot n) ls) (hrun : exec St.step (St.boot n) ls = some s) :
    exec Disc.step (Disc.boot n) (trace St.step St.event (St.boot n) ls) = some s.disc ∧
    (size s.cons.r s.cons.w ≤ size s.cons.r s.cons.e ∧ size s.cons.r s.cons.e ≤ INPUT_BUF) ∧
    (s.disc.line.stored = INPUT_BUF → s.disc.line.line = []) ∧
    ∀ c, s.cons.line.queue <+: (s.cons.intr c).1.line.queue ∧
      (c = ctrlU ∨ c = ctrlH ∨ c = del → (s.cons.intr c).1.line.queue = s.cons.line.queue) := by
  have hready : Ready s := exec_invariant (fun u l v h _ hs => ready_step h hs) ready_boot hok hrun
  have hboot : (St.boot n).disc = Disc.boot n := by
    rw [St.disc, line_boot]
    rfl
  have hsim : exec Disc.step (St.boot n).disc (trace St.step St.event (St.boot n) ls) = some s.disc :=
    exec_trace (fun u l v h _ hs => ready_step h hs) (fun u l v h hl hs => disc_step h hl hs)
      ready_boot hok hrun
  rw [hboot] at hsim
  refine ⟨hsim, ⟨hready.cons.order, hready.cons.room⟩, ?_, ?_⟩
  · intro hfull
    have hwe : s.cons.w = s.cons.e := hready.cons.full (hready.cons.stored.symm.trans hfull)
    simp only [St.disc, Cons.line, hwe, contents_self]
  · intro c
    rw [(intr_line hready.cons c).1]
    exact ⟨queue_input _ c, queue_edit _⟩

/-- `a`, `b`, backspace, `c` and return are typed, and a reader asks for five bytes. -/
def typeAndRead : List (Fin 2 × Act 2) :=
  ([97, 98, 8, 99, 13].map fun c => (1, .interrupt) :: goes 1 true c 4 ++ goes 1 false 0 4).flatten ++
    (0, .read 5) :: goes 0 true 0 7

theorem console_refines_line_discipline_typeAndRead : ∃ s : St 2,
    exec St.step (St.boot 2) typeAndRead = some s ∧ s.got 0 = [97, 99, 10] ∧
    exec Disc.step (Disc.boot 2) (trace St.step St.event (St.boot 2) typeAndRead) = some s.disc := by
  have hok : Meets St.step NoFault (St.boot 2) typeAndRead := by decide +kernel
  have hrun : (exec St.step (St.boot 2) typeAndRead).any (fun s => s.got 0 = [97, 99, 10]) = true := by
    decide +kernel
  obtain ⟨s, hs, hat⟩ := (Option.any_eq_true _ _).mp hrun
  exact ⟨s, hs, of_decide_eq_true hat, (console_refines_line_discipline typeAndRead s hok hs).1⟩

end Xv6.ConsoleMachine
