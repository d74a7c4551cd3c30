import Xv6.FileCounts

/-!
# Processes that share a file (`kernel/file.c`)

`k` processes with one `struct file` of type `FD_INODE`.  `f->off` is under the lock of the inode, as the contents
of the file are; `filewrite` gives up the lock between two chunks.

One step is `ilock`, one call of `readi` or `writei`, the update of `f->off`, or `iunlock`.  Everything else that
happens in the file system, by whomever, is a step of the environment: any change at any time.  The lock of the
inode is a sleep-lock, which one process at most holds.

`log` records the transfers in the order of the calls of `readi` and `writei`: where they start, and how many
bytes they return.  The code does not read it.
-/

namespace Xv6.SharedOffset

open Xv6.Params Xv6.LabelledRuns Xv6.Panics Xv6.LittleEndian Xv6.FsLayout Xv6.FsInodes Xv6.FsFiles
open Xv6.FsByteArrays Xv6.FsWrites Xv6.FileCounts

structure Job where
  n : ℤ
  src : ℕ → UInt8
  avail : ℕ

/-- `n1`, for a chunk that begins at `i`. -/
def Job.chunk (w : Job) (i : ℕ) : ℕ := min (w.n.toNat - i) chunkMax

inductive Pc where
  | user
  /-- `fileread`: about to call `ilock`, `readi`, to update `f->off`, to call `iunlock`. -/
  | readLock (n : UInt32) (avail : ℕ)
  | readi (n : UInt32) (avail : ℕ)
  | readOff (r : ℤ)
  | readUnlock
  /-- `filewrite`: at the test `i < n`, then as above. -/
  | write (w : Job) (i : ℕ)
  | writeLock (w : Job) (i : ℕ)
  | writei (w : Job) (i : ℕ)
  | writeOff (w : Job) (i : ℕ) (r : ℤ)
  | writeUnlock (w : Job) (i : ℕ) (r : ℤ)

/-- The lock of the inode is held. -/
def Pc.holds : Pc → Bool
  | .readi _ _ | .readOff _ | .readUnlock | .writei _ _ | .writeOff _ _ _ | .writeUnlock _ _ _ => true
  | _ => false

structure Transfer where
  write : Bool
  start : ℕ
  count : ℕ
deriving DecidableEq

inductive Halt where
  | fs (e : FsInodes.Panic)
  | short
deriving DecidableEq

structure St (k : ℕ) where
  fs : Fs
  /-- `f->off`. -/
  off : UInt32
  lock : Option (Fin k)
  pc : Fin k → Pc
  log : List Transfer
  panic : Option Halt

variable {k : ℕ}

def St.setPc (s : St k) (p : Fin k) (pc : Pc) : St k := { s with pc := Function.update s.pc p pc }

/-- `if(r > 0) f->off += r;`. -/
def advance (off : UInt32) (r : ℤ) : UInt32 := if r > 0 then off + UInt32.ofNat r.toNat else off

section
variable (sb : SuperBlock) (f : InodeFile)

/-- `ilock(f->ip)`. -/
def St.ilock (s : St k) (p : Fin k) (pc : Pc) : Option (St k) :=
  if s.lock = none then
    match FsInodes.ilock sb f.ip s.fs with
    | .error e => some { s with panic := some (.fs e) }
    | .ok (_, fs) => some ({ s with fs := fs, lock := some p }.setPc p pc)
  else none

def St.go (s : St k) (p : Fin k) : Option (St k) :=
  match s.pc p with
  | .user => none
  | .readLock n avail => s.ilock sb f p (.readi n avail)
  | .readi n avail =>
    match readiUser sb f.ip avail s.off n s.fs with
    | .error e => some { s with panic := some (.fs e) }
    | .ok ((tot, _), fs) =>
      some ({ s with fs := fs, log := s.log ++ [Transfer.mk false s.off.toNat (asInt tot).toNat] }.setPc p
        (.readOff (asInt tot)))
  | .readOff r => some ({ s with off := advance s.off r }.setPc p .readUnlock)
  | .readUnlock => some ({ s with lock := none }.setPc p .user)
  | .write w i => some (s.setPc p (if (i : ℤ) < w.n then .writeLock w i else .user))
  | .writeLock w i => s.ilock sb f p (.writei w i)
  | .writei w i =>
    match FsInodes.writei sb f.ip (fun x => w.src (i + x)) (w.avail - i) s.off
        (UInt32.ofNat (w.chunk i)) s.fs with
    | .error e => some { s with panic := some (.fs e) }
    | .ok (r, fs) =>
      some ({ s with fs := fs, log := s.log ++ [Transfer.mk true s.off.toNat r.toNat] }.setPc p (.writeOff w i r))
  | .writeOff w i r => some ({ s with off := advance s.off r }.setPc p (.writeUnlock w i r))
  | .writeUnlock w i r =>
    if r < 0 then some ({ s with lock := none }.setPc p .user)
    else if r ≠ w.chunk i then some { s with panic := some .short }
    else some ({ s with lock := none }.setPc p (.write w (i + r.toNat)))

inductive Act where
  | go
  | read (n : BitVec 32) (avail : ℕ)
  | write (w : Job)
  /-- The file system changes. -/
  | env (fs : Fs)

def St.step (s : St k) (l : Fin k × Act) : Option (St k) :=
  if s.panic.isSome then none
  else
    match l.2 with
    | .go => s.go sb f l.1
    | .read n avail =>
      match s.pc l.1 with
      | .user => if f.readable then some (s.setPc l.1 (.readLock (UInt32.ofBitVec n) avail)) else none
      | _ => none
    | .write w =>
      match s.pc l.1 with
      | .user => if f.writable then some (s.setPc l.1 (.write w 0)) else none
      | _ => none
    | .env fs => some { s with fs := fs }

/-- The file is open, and nobody is in a call. -/
def St.start (k : ℕ) (fs : Fs) : St k where
  fs := fs
  off := f.off
  lock := none
  pc := fun _ => .user
  log := []
  panic := none

end

/-! ### What `readi` and `writei` return -/

variable {sb : SuperBlock} {ip : Fin NINODE}

theorem writei_returns {src : ℕ → UInt8} {avail : ℕ} {off n : UInt32} {r : ℤ} {s t : Fs}
    (h : FsInodes.writei sb ip src avail off n s = .ok (r, t)) :
    r = -1 ∨ r = n.toNat ∧ off.toNat + n.toNat < 2 ^ 32 := by
  have hspec : Wp (FsInodes.writei sb ip src avail off n) s
      (fun r _ => r = -1 ∨ r = n.toNat ∧ off.toNat + n.toNat < 2 ^ 32) fun _ => True := by
    unfold FsInodes.writei
    refine wp_bind (wp_gets ?_)
    by_cases hout : off > (s.icache ip).d.size ∨ off + n < off
    · rw [if_pos hout]
      exact wp_pure (.inl rfl)
    · rw [if_neg hout]
      rw [not_or] at hout
      have hadd := toNat_add_of_not_lt hout.2
      have hsum := (off + n).toNat_lt
      by_cases hbig : (off + n).toNat > MAXFILE * BSIZE
      · rw [if_pos hbig]
        exact wp_pure (.inl rfl)
      · rw [if_neg hbig]
        refine wp_seq wp_true ?_
        intro off' u _
        refine wp_seq wp_true ?_
        intro _ v _
        exact wp_pure (.inr ⟨rfl, by omega⟩)
  have hres := ok_of_wp hspec h
  exact hres

theorem asInt_le (tot : ℕ) : (asInt tot).toNat ≤ tot := by
  rw [asInt, BitVec.toInt_eq_toNat_cond, BitVec.toNat_ofNat]
  split
  · omega
  · omega

theorem toNat_advance {off : UInt32} {r : ℤ} (h : off.toNat + r.toNat < 2 ^ 32) :
    (advance off r).toNat = off.toNat + r.toNat := by
  rw [advance]
  split
  · rw [UInt32.toNat_add, UInt32.toNat_ofNat', Nat.mod_eq_of_lt (show r.toNat < 2 ^ 32 by omega),
      Nat.mod_eq_of_lt h]
  · omega

/-! ### The transfers follow each other -/

/-- Each transfer starts where the one before it ended; the first at `a`, and the last ends at `b`. -/
def Chain : ℕ → List Transfer → ℕ → Prop
  | a, [], b => a = b
  | a, t :: ts, b => t.start = a ∧ Chain (a + t.count) ts b

theorem chain_snoc {a b : ℕ} {ts : List Transfer} {t : Transfer} (h : Chain a ts b) (ht : t.start = b) :
    Chain a (ts ++ [t]) (b + t.count) := by
  induction ts generalizing a with
  | nil =>
    have hab : a = b := h
    exact ⟨by rw [ht, hab], by rw [hab]; rfl⟩
  | cons u ts ih => exact ⟨h.1, ih h.2⟩

theorem chain_sum {a b : ℕ} {ts : List Transfer} (h : Chain a ts b) : b = a + (ts.map (·.count)).sum := by
  induction ts generalizing a with
  | nil =>
    have hab : a = b := h
    rw [← hab]
    rfl
  | cons u ts ih =>
    rw [ih h.2, List.map_cons, List.sum_cons, Nat.add_assoc]

theorem chain_start {a b : ℕ} {ts : List Transfer} (h : Chain a ts b) : ∀ t ∈ ts, a ≤ t.start := by
  induction ts generalizing a with
  | nil => exact fun t ht => absurd ht List.not_mem_nil
  | cons u ts ih =>
    intro t ht
    rcases List.mem_cons.mp ht with rfl | ht
    · exact Nat.le_of_eq h.1.symm
    · exact (Nat.le_add_right a u.count).trans (ih h.2 t ht)

theorem chain_disjoint {a b : ℕ} {ts : List Transfer} (h : Chain a ts b) :
    ts.Pairwise fun t u => t.start + t.count ≤ u.start := by
  induction ts generalizing a with
  | nil => exact List.Pairwise.nil
  | cons u ts ih =>
    refine List.pairwise_cons.mpr ⟨fun t ht => ?_, ih h.2⟩
    rw [h.1]
    exact chain_start h.2 t ht

/-- What is still to be added to `f->off`. -/
def Pc.pending : Pc → ℕ
  | .readOff r => r.toNat
  | .writeOff _ _ r => r.toNat
  | _ => 0

def St.pending (s : St k) : ℕ :=
  match s.lock with
  | none => 0
  | some p => (s.pc p).pending

structure Inv (start : ℕ) (s : St k) : Prop where
  lock : ∀ p, s.lock = some p ↔ (s.pc p).holds = true
  chain : Chain start s.log (s.off.toNat + s.pending)
  small : s.off.toNat + s.pending < 2 ^ 32

variable {s t : St k} {p : Fin k} {start : ℕ} {f : InodeFile}

theorem setPc_self (s : St k) (p : Fin k) (pc : Pc) : (s.setPc p pc).pc p = pc := Function.update_self _ _ _

theorem setPc_of_ne {q : Fin k} (h : q ≠ p) (s : St k) (pc : Pc) : (s.setPc p pc).pc q = s.pc q :=
  Function.update_of_ne h _ _

theorem inv_inside (h : Inv start s) (hp : (s.pc p).holds = true) {u : St k} {pc : Pc} (hpc : pc.holds = true)
    (hlock : u.lock = s.lock) (hu : u.pc = s.pc) (hchain : Chain start u.log (u.off.toNat + pc.pending))
    (hsmall : u.off.toNat + pc.pending < 2 ^ 32) : Inv start (u.setPc p pc) := by
  have hheld : s.lock = some p := (h.lock p).mpr hp
  have hpending : (u.setPc p pc).pending = pc.pending := by
    have hl : (u.setPc p pc).lock = some p := hlock.trans hheld
    rw [St.pending, hl]
    show ((u.setPc p pc).pc p).pending = pc.pending
    rw [setPc_self]
  refine ⟨fun q => ?_, by rw [hpending]; exact hchain, by rw [hpending]; exact hsmall⟩
  show u.lock = some q ↔ _
  rw [hlock, h.lock q]
  by_cases hq : q = p
  · rw [hq, setPc_self, hp, hpc]
  · rw [setPc_of_ne hq, hu]

theorem inv_outside (h : Inv start s) (hp : (s.pc p).holds = false) {pc : Pc} (hpc : pc.holds = false) :
    Inv start (s.setPc p pc) := by
  have hpending : (s.setPc p pc).pending = s.pending := by
    unfold St.pending
    show (match s.lock with | none => 0 | some q => ((s.setPc p pc).pc q).pending) = _
    cases hl : s.lock with
    | none => rfl
    | some q =>
      have hq : q ≠ p := by
        rintro rfl
        exact Bool.false_ne_true (hp.symm.trans ((h.lock q).mp hl))
      show ((s.setPc p pc).pc q).pending = (s.pc q).pending
      rw [setPc_of_ne hq]
  refine ⟨fun q => ?_, by rw [hpending]; exact h.chain, by rw [hpending]; exact h.small⟩
  show s.lock = some q ↔ _
  rw [h.lock q]
  by_cases hq : q = p
  · rw [hq, setPc_self, hp, hpc]
  · rw [setPc_of_ne hq]

theorem inv_unlock (h : Inv start s) (hp : (s.pc p).holds = true) (hpending : (s.pc p).pending = 0) {pc : Pc}
    (hpc : pc.holds = false) : Inv start ({ s with lock := none }.setPc p pc) := by
  have hheld : s.lock = some p := (h.lock p).mpr hp
  have hzero : s.pending = 0 := by
    rw [St.pending, hheld]
    exact hpending
  have hchain := h.chain
  have hsmall := h.small
  rw [hzero] at hchain hsmall
  refine ⟨fun q => ?_, hchain, hsmall⟩
  by_cases hq : q = p
  · rw [hq, setPc_self, hpc]
    exact ⟨fun e => absurd e (by simp [St.setPc]), fun e => absurd e Bool.false_ne_true⟩
  · rw [setPc_of_ne hq]
    refine ⟨fun e => absurd e (by simp [St.setPc]), fun hh => ?_⟩
    have hq' := (h.lock q).mpr hh
    rw [hheld] at hq'
    exact absurd (Option.some.inj hq').symm hq

theorem inv_panic (h : Inv start s) (e : Halt) : Inv start { s with panic := some e } := ⟨h.lock, h.chain, h.small⟩

theorem inv_ilock (h : Inv start s) {pc : Pc} (hpc : pc.holds = true)
    (hpending : pc.pending = 0) (hs : s.ilock sb f p pc = some t) : Inv start t := by
  unfold St.ilock at hs
  split at hs
  · rename_i hfree
    split at hs
    · cases hs
      exact inv_panic h _
    · cases hs
      have hzero : s.pending = 0 := by rw [St.pending, hfree]
      have hchain := h.chain
      have hsmall := h.small
      rw [hzero] at hchain hsmall
      have hpend : ∀ fs, ({ s with fs := fs, lock := some p }.setPc p pc).pending = 0 := by
        intro fs
        show ((St.setPc { s with fs := fs, lock := some p } p pc).pc p).pending = 0
        rw [setPc_self]
        exact hpending
      refine ⟨fun q => ?_, by rw [hpend]; exact hchain, by rw [hpend]; exact hsmall⟩
      by_cases hq : q = p
      · rw [hq, setPc_self, hpc]
        exact ⟨fun _ => rfl, fun _ => rfl⟩
      · rw [setPc_of_ne hq]
        refine ⟨fun e => absurd (Option.some.inj e).symm hq, fun hh => ?_⟩
        have hq' := (h.lock q).mpr hh
        rw [hfree] at hq'
        cases hq'
  · cases hs

theorem inv_go (h : Inv start s) (hs : s.go sb f p = some t) : Inv start t := by
  have hpend : (s.pc p).holds = true → s.pending = (s.pc p).pending := by
    intro hp
    rw [St.pending, (h.lock p).mpr hp]
  unfold St.go at hs
  split at hs
  case h_1 => cases hs
  case h_2 n avail hpc | h_7 w i hpc => exact inv_ilock h rfl rfl hs
  case h_3 n avail hpc =>
    have hholds : (s.pc p).holds = true := by rw [hpc]; rfl
    have hzero : s.pending = 0 := by rw [hpend hholds, hpc]; rfl
    split at hs
    · cases hs
      exact inv_panic h _
    · rename_i tot out fs hread
      cases hs
      have hend := (ok_of_wp (readiUser_le _ _ _) hread).2
      have hle := asInt_le tot
      have hchain := h.chain
      rw [hzero] at hchain
      refine inv_inside h hholds rfl rfl rfl (chain_snoc hchain rfl) ?_
      show s.off.toNat + (asInt tot).toNat < 2 ^ 32
      omega
  case h_4 r hpc | h_9 w i r hpc =>
    have hholds : (s.pc p).holds = true := by rw [hpc]; rfl
    have hpending : s.pending = r.toNat := by rw [hpend hholds, hpc]; rfl
    have hchain := h.chain
    have hsmall := h.small
    rw [hpending] at hchain hsmall
    cases hs
    refine inv_inside h hholds rfl rfl rfl ?_ ?_
    · show Chain start s.log ((advance s.off r).toNat + 0)
      rw [toNat_advance hsmall]
      exact hchain
    · show (advance s.off r).toNat + 0 < 2 ^ 32
      rw [toNat_advance hsmall]
      exact hsmall
  case h_5 hpc =>
    cases hs
    exact inv_unlock h (by rw [hpc]; rfl) (by rw [hpc]; rfl) rfl
  case h_6 w i hpc =>
    cases hs
    refine inv_outside h (by rw [hpc]; rfl) ?_
    split
    · rfl
    · rfl
  case h_8 w i hpc =>
    have hholds : (s.pc p).holds = true := by rw [hpc]; rfl
    have hzero : s.pending = 0 := by rw [hpend hholds, hpc]; rfl
    split at hs
    · cases hs
      exact inv_panic h _
    · rename_i r fs hwrite
      cases hs
      have hchain := h.chain
      have hsmall := h.small
      rw [hzero] at hchain hsmall
      refine inv_inside h hholds rfl rfl rfl (chain_snoc hchain rfl) ?_
      show s.off.toNat + r.toNat < 2 ^ 32
      rcases writei_returns hwrite with hr | ⟨hr, hend⟩
      · rw [hr]
        exact hsmall
      · rw [hr]
        exact hend
  case h_10 w i r hpc =>
    have hholds : (s.pc p).holds = true := by rw [hpc]; rfl
    have hpending : (s.pc p).pending = 0 := by rw [hpc]; rfl
    split at hs
    · cases hs
      exact inv_unlock h hholds hpending rfl
    · split at hs
      · cases hs
        exact inv_panic h _
      · cases hs
        exact inv_unlock h hholds hpending rfl

theorem inv_step {l : Fin k × Act} (h : Inv start s) (hs : s.step sb f l = some t) : Inv start t := by
  unfold St.step at hs
  split at hs
  · cases hs
  split at hs
  · exact inv_go h hs
  · split at hs
    · rename_i hpc
      split at hs
      · cases hs
        exact inv_outside h (by rw [hpc]; rfl) rfl
      · cases hs
    · cases hs
  · split at hs
    · rename_i hpc
      split at hs
      · cases hs
        exact inv_outside h (by rw [hpc]; rfl) rfl
      · cases hs
    · cases hs
  · cases hs
    exact ⟨h.lock, h.chain, h.small⟩

theorem inv_start (fs : Fs) : Inv f.off.toNat (St.start f k fs) where
  lock := fun p => ⟨fun e => absurd e (by simp [St.start]), fun e => absurd e Bool.false_ne_true⟩
  chain := rfl
  small := f.off.toNat_lt

/-- **Shared offsets lose no update.**  Along every interleaving, the transfers in the order of their calls start
each where the one before it ended, they are apart, and while nobody is in a transfer `f->off` is the offset at
the beginning plus all they returned. -/
theorem shared_offset_advances {fs : Fs} (hs : Reachable (St.step sb f) (St.start f k fs) s) :
    (∃ b, Chain f.off.toNat s.log b) ∧
    (s.log.Pairwise fun t u => t.start + t.count ≤ u.start) ∧
    (s.lock = none → s.off.toNat = f.off.toNat + (s.log.map (·.count)).sum) := by
  have hinv : Inv f.off.toNat s := reachable_invariant (fun _ _ _ h hstep => inv_step h hstep) (inv_start fs) hs
  refine ⟨⟨_, hinv.chain⟩, chain_disjoint hinv.chain, fun hfree => ?_⟩
  have hzero : s.pending = 0 := by rw [St.pending, hfree]
  have hsum := chain_sum hinv.chain
  rw [hzero] at hsum
  exact hsum

/-- Two processes, the first reading one byte and the second eight, of the file of five bytes; the second calls
`fileread` while the first has the lock. -/
def twoReaders : List (Fin 2 × Act) :=
  [(0, .read 1 100), (0, .go), (1, .read 8 100), (0, .go), (0, .go), (0, .go), (1, .go), (1, .go), (1, .go), (1, .go)]

theorem shared_offset_advances_twoReaders : ∃ s : St 2,
    exec (St.step tinySb fiveFile) (St.start fiveFile 2 fiveBytes.fs) twoReaders = some s ∧
    s.log = [⟨false, 0, 1⟩, ⟨false, 1, 4⟩] ∧ s.off.toNat = 0 + (1 + (4 + 0)) := by
  have hrun : ((exec (St.step tinySb fiveFile) (St.start fiveFile 2 fiveBytes.fs) twoReaders).map
      fun s => (s.log, s.lock)) = some ([⟨false, 0, 1⟩, ⟨false, 1, 4⟩], none) := by decide +kernel
  obtain ⟨s, hs, hlog⟩ := Option.map_eq_some_iff.mp hrun
  have hlog' : s.log = [⟨false, 0, 1⟩, ⟨false, 1, 4⟩] := congrArg Prod.fst hlog
  have hlock : s.lock = none := congrArg Prod.snd hlog
  have hoff := (shared_offset_advances ⟨twoReaders, hs⟩).2.2 hlock
  rw [hlog'] at hoff
  exact ⟨s, hs, hlog', hoff⟩

end Xv6.SharedOffset
