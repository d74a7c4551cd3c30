import Xv6.FsFiles

/-!
# Writes through the log (`kernel/fs.c`, `kernel/log.c`)

`FsInodes` has one disk, the contents of the buffers.  Here a block has two contents: the one of its
buffer, and `home`, the one on disk since the last commit.  `log_write` puts a block number into the log
of the transaction, which pins the buffer until the commit copies it; a buffer outside the log may be
evicted, and then the block is read from `home` again.

The functions that write are given again with their calls of `log_write`.  `Erases` says that without the
log they are the ones of `FsInodes`, so that the specifications there hold here.
-/

namespace Xv6.FsLogged

open Xv6.Params Xv6.LittleEndian Xv6.Panics Xv6.FsLayout Xv6.FsInodes Xv6.FsOwnership Xv6.FsFiles
open Xv6.LogMachine (Block Disk)

structure Lfs where
  fs : Fs
  home : Disk
  /-- The blocks passed to `log_write`, each once. -/
  log : List ℕ

abbrev LCall := Prog Lfs Panic

/-- What a block holds once every buffer outside the log has been evicted. -/
def Lfs.evicted (s : Lfs) (b : ℕ) : Block := if b ∈ s.log then s.fs.disk b else s.home b

/-- A step that needs no `log_write`. -/
def onFs {α : Type} (m : Call α) : LCall α := zoom Lfs.fs (fun s f => { s with fs := f }) m

/-- `log_write`, with absorption. -/
def logWrite (b : ℕ) : LCall Unit := update fun s =>
  { s with log := if b ∈ s.log then s.log else s.log ++ [b] }

variable (sb : SuperBlock)

def bzero (b : ℕ) : LCall Unit := do
  onFs (FsInodes.bzero b)
  logWrite b

def balloc : LCall ℕ := do
  match findFree sb (← onFs (gets Fs.disk)) with
  | none => panic .ballocOutOfBlocks
  | some b =>
    onFs (update fun s => { s with disk := markUsed sb s.disk b, handed := b :: s.handed })
    logWrite (sb.bblock b)
    bzero b
    return b

def iupdate (ip : Fin NINODE) : LCall Unit := do
  let inum ← onFs (gets fun s => (s.icache ip).inum)
  onFs (FsInodes.iupdate sb ip)
  logWrite (sb.iblock inum)

/-- `if((addr = ip->addrs[k]) == 0) ip->addrs[k] = addr = balloc(ip->dev);`. -/
def bmapAddr (ip : Fin NINODE) (k : Fin (NDIRECT + 1)) : LCall ℕ := do
  let addr ← onFs (gets fun s => (s.icache ip).d.addrs k)
  if addr = 0 then
    let b ← balloc sb
    onFs (update fun s => s.setD ip
      { (s.icache ip).d with addrs := Function.update (s.icache ip).d.addrs k (UInt32.ofNat b) })
    return b
  else
    return addr.toNat

/-- `if((addr = a[j]) == 0){ a[j] = addr = balloc(ip->dev); log_write(bp); }`. -/
def bmapEntry (ind j : ℕ) : LCall ℕ := do
  let addr ← onFs (gets fun s => word (s.disk ind) j)
  if addr = 0 then
    let b ← balloc sb
    onFs (update fun s => s.put ind (setWord (s.disk ind) j (UInt32.ofNat b)))
    logWrite ind
    return b
  else
    return addr.toNat

def bmap (ip : Fin NINODE) (bn : ℕ) : LCall ℕ := do
  if h : bn < NDIRECT then
    bmapAddr sb ip ⟨bn, Nat.lt_succ_of_lt h⟩
  else if bn - NDIRECT < NINDIRECT then
    let ind ← bmapAddr sb ip (Fin.last NDIRECT)
    bmapEntry sb ind (bn - NDIRECT)
  else
    panic .bmapOutOfRange

/-- The loop of `writei`: a copy that faults has changed the buffer, and nobody calls `log_write`. -/
def writeLoop (ip : Fin NINODE) (src : ℕ → UInt8) (avail n : ℕ) : ℕ → ℕ → ℕ → LCall ℕ
  | 0, _, off => return off
  | fuel + 1, tot, off => do
    if tot < n then
      let b ← bmap sb ip (off / BSIZE)
      let m := min (n - tot) (BSIZE - off % BSIZE)
      onFs (update fun s => s.put b
        (setBytes (s.disk b) (off % BSIZE) (min m (avail - tot)) fun x => src (tot + x)))
      if tot + m ≤ avail then
        logWrite b
        writeLoop ip src avail n fuel (tot + m) (off + m)
      else
        return off
    else
      return off

def writei (ip : Fin NINODE) (src : ℕ → UInt8) (avail : ℕ) (off n : UInt32) : LCall ℤ := do
  let size ← onFs (gets fun s => (s.icache ip).d.size)
  if off > size ∨ off + n < off then
    return -1
  else if (off + n).toNat > MAXFILE * BSIZE then
    return -1
  else
    let off' ← writeLoop sb ip src avail n.toNat n.toNat 0 off.toNat
    onlyIf (n > 0) do
      onFs (update fun s =>
        if off' > (s.icache ip).d.size.toNat then
          s.setD ip { (s.icache ip).d with size := UInt32.ofNat off' }
        else s)
      iupdate sb ip
    return n.toNat

/-! ### Without the log -/

variable {sb} {α β : Type}

/-- Without `home` and `log`, program `m` is `m'`. -/
def Erases (m : LCall α) (m' : Call α) : Prop := ∀ s, (m s).map (fun r => (r.1, r.2.fs)) = m' s.fs

theorem erases_pure (a : α) : Erases (pure a) (pure a) := fun _ => rfl

theorem erases_panic (e : Panic) : Erases (panic e : LCall α) (panic e) := fun _ => rfl

theorem erases_onFs (m : Call α) : Erases (onFs m) m := by
  intro s
  unfold onFs zoom
  cases m s.fs with
  | ok r | error e => rfl

theorem erases_bind {m : LCall α} {m' : Call α} {f : α → LCall β} {f' : α → Call β} (hm : Erases m m')
    (hf : ∀ a, Erases (f a) (f' a)) : Erases (m >>= f) (m' >>= f') := by
  intro s
  have h := hm s
  cases hr : m s with
  | ok r =>
    rw [hr] at h
    rw [bind_of_ok hr, bind_of_ok h.symm]
    exact hf r.1 r.2
  | error e =>
    rw [hr] at h
    rw [bind_of_error hr, bind_of_error h.symm]
    rfl

theorem erases_log {b : ℕ} {r : LCall α} {r' : Call α} (h : Erases r r') :
    Erases (logWrite b >>= fun _ => r) r' := fun _ => h _

theorem erases_then_log {b : ℕ} {m : LCall Unit} {m' : Call Unit} (h : Erases m m') :
    Erases (m >>= fun _ => logWrite b) m' := by
  intro s
  rw [← h s]
  cases hr : m s with
  | ok r =>
    rw [bind_of_ok hr]
    rfl
  | error e => rw [bind_of_error hr]

theorem wp_of_erases {m : LCall α} {m' : Call α} {s : Lfs} {Q : α → Fs → Prop} {E : Panic → Prop}
    (h : Erases m m') (hwp : Wp m' s.fs Q E) : Wp m s (fun a t => Q a t.fs) E := by
  unfold Wp at *
  rw [← h s] at hwp
  cases hr : m s with
  | ok r | error e =>
    rw [hr] at hwp
    exact hwp

theorem erases_bzero (b : ℕ) : Erases (bzero b) (FsInodes.bzero b) :=
  erases_then_log (erases_onFs _)

theorem erases_balloc : Erases (balloc sb) (FsInodes.balloc sb) := by
  unfold balloc FsInodes.balloc
  refine erases_bind (erases_onFs _) fun disk => ?_
  cases findFree sb disk with
  | none => exact erases_panic _
  | some b =>
    refine erases_bind (erases_onFs _) fun _ => erases_log ?_
    exact erases_bind (erases_bzero b) fun _ => erases_pure b

theorem erases_iupdate (ip : Fin NINODE) : Erases (iupdate sb ip) (FsInodes.iupdate sb ip) := by
  intro s
  exact erases_then_log (erases_onFs (FsInodes.iupdate sb ip)) s

theorem erases_bmapAddr (ip : Fin NINODE) (k : Fin (NDIRECT + 1)) :
    Erases (bmapAddr sb ip k) (FsInodes.bmapAddr sb ip k) := by
  unfold bmapAddr FsInodes.bmapAddr
  refine erases_bind (erases_onFs _) fun addr => ?_
  by_cases hz : addr = 0
  · rw [if_pos hz, if_pos hz]
    refine erases_bind erases_balloc fun b => ?_
    exact erases_bind (erases_onFs _) fun _ => erases_pure b
  · rw [if_neg hz, if_neg hz]
    exact erases_pure _

theorem erases_bmapEntry (ind j : ℕ) : Erases (bmapEntry sb ind j) (FsInodes.bmapEntry sb ind j) := by
  unfold bmapEntry FsInodes.bmapEntry
  refine erases_bind (erases_onFs _) fun addr => ?_
  by_cases hz : addr = 0
  · rw [if_pos hz, if_pos hz]
    refine erases_bind erases_balloc fun b => ?_
    exact erases_bind (erases_onFs _) fun _ => erases_log (erases_pure b)
  · rw [if_neg hz, if_neg hz]
    exact erases_pure _

theorem erases_bmap (ip : Fin NINODE) (bn : ℕ) : Erases (bmap sb ip bn) (FsInodes.bmap sb ip bn) := by
  unfold bmap FsInodes.bmap
  by_cases hd : bn < NDIRECT
  · rw [dif_pos hd, dif_pos hd]
    exact erases_bmapAddr ip _
  rw [dif_neg hd, dif_neg hd]
  by_cases hi : bn - NDIRECT < NINDIRECT
  · rw [if_pos hi, if_pos hi]
    exact erases_bind (erases_bmapAddr ip _) fun ind => erases_bmapEntry ind _
  · rw [if_neg hi, if_neg hi]
    exact erases_panic _

theorem erases_writeLoop (ip : Fin NINODE) (src : ℕ → UInt8) (avail n fuel tot off : ℕ) :
    Erases (writeLoop sb ip src avail n fuel tot off) (FsInodes.writeLoop sb ip src avail n fuel tot off) := by
  induction fuel generalizing tot off with
  | zero => exact erases_pure off
  | succ fuel ih =>
    unfold writeLoop FsInodes.writeLoop
    by_cases htot : tot < n
    swap
    · rw [if_neg htot, if_neg htot]
      exact erases_pure off
    rw [if_pos htot, if_pos htot]
    refine erases_bind (erases_bmap ip _) fun b => erases_bind (erases_onFs _) fun _ => ?_
    by_cases ha : tot + min (n - tot) (BSIZE - off % BSIZE) ≤ avail
    · rw [if_pos ha, if_pos ha]
      exact erases_log (ih _ _)
    · rw [if_neg ha, if_neg ha]
      exact erases_pure off

theorem erases_writei (ip : Fin NINODE) (src : ℕ → UInt8) (avail : ℕ) (off n : UInt32) :
    Erases (writei sb ip src avail off n) (FsInodes.writei sb ip src avail off n) := by
  unfold writei FsInodes.writei
  refine erases_bind (erases_onFs _) fun size => ?_
  by_cases h₁ : off > size ∨ off + n < off
  · rw [if_pos h₁, if_pos h₁]
    exact erases_pure _
  rw [if_neg h₁, if_neg h₁]
  by_cases h₂ : (off + n).toNat > MAXFILE * BSIZE
  · rw [if_pos h₂, if_pos h₂]
    exact erases_pure _
  rw [if_neg h₂, if_neg h₂]
  refine erases_bind (erases_writeLoop ip src avail _ _ _ _) fun off' => ?_
  refine erases_bind ?_ fun _ => erases_pure _
  unfold onlyIf
  by_cases h₃ : n > 0
  · rw [if_pos h₃, if_pos h₃]
    exact erases_bind (erases_onFs _) fun _ => erases_iupdate ip
  · rw [if_neg h₃, if_neg h₃]
    exact erases_pure ()

/-! ### What every step keeps -/

/-- Block `b` gets the contents `blk` and goes to the log. -/
def Lfs.store (s : Lfs) (b : ℕ) (blk : Block) : Lfs :=
  { s with fs := s.fs.put b blk, log := if b ∈ s.log then s.log else s.log ++ [b] }

/-- A relation that contains the steps: a change of a block that goes to the log, and a change in memory. -/
structure Stepwise (R : Lfs → Lfs → Prop) : Prop where
  refl : ∀ s, R s s
  trans : ∀ {s t u}, R s t → R t u → R s u
  store : ∀ s b blk, R s (s.store b blk)
  memory : ∀ s f, f.disk = s.fs.disk → R s { s with fs := f }

def Keeps (R : Lfs → Lfs → Prop) (m : LCall α) : Prop := ∀ s, Wp m s (fun _ t => R s t) fun _ => True

section Keeps

variable {R : Lfs → Lfs → Prop} {ip : Fin NINODE}

theorem keeps_bind (hR : Stepwise R) {m : LCall α} {f : α → LCall β} (hm : Keeps R m)
    (hf : ∀ a, Keeps R (f a)) : Keeps R (m >>= f) := fun s =>
  wp_seq (hm s) fun a t ht => wp_mono (hf a t) (fun _ _ hu => hR.trans ht hu) fun _ he => he

theorem keeps_pure (hR : Stepwise R) (a : α) : Keeps R (pure a) := fun s => wp_pure (hR.refl s)

theorem keeps_read (hR : Stepwise R) (g : Fs → α) : Keeps R (onFs (gets g)) := fun s => hR.refl s

theorem keeps_memory (hR : Stepwise R) {g : Fs → Fs} (hg : ∀ s, (g s).disk = s.disk) :
    Keeps R (onFs (update g)) := fun s => hR.memory s _ (hg _)

theorem keeps_balloc (hR : Stepwise R) : Keeps R (balloc sb) := by
  refine keeps_bind hR (keeps_read hR _) fun disk => ?_
  cases findFree sb disk with
  | none => exact fun s => wp_panic trivial
  | some b =>
    intro s
    -- the bit of the free map, then the block of zeros
    have hmark : R s ({ s with fs := { s.fs with handed := b :: s.fs.handed } }.store (sb.bblock b)
        (markUsed sb s.fs.disk b (sb.bblock b))) :=
      hR.trans (hR.memory s { s.fs with handed := b :: s.fs.handed } rfl) (hR.store _ _ _)
    have hfs : (({ s with fs := { s.fs with handed := b :: s.fs.handed } } : Lfs).store (sb.bblock b)
        (markUsed sb s.fs.disk b (sb.bblock b))).fs =
        { s.fs with disk := markUsed sb s.fs.disk b, handed := b :: s.fs.handed } := by
      show ({ s.fs with disk := Function.update s.fs.disk (sb.bblock b) _, handed := _ } : Fs) = _
      unfold markUsed
      rw [Function.update_self]
    have hstep : R s { s with
        fs := { s.fs with disk := markUsed sb s.fs.disk b, handed := b :: s.fs.handed },
        log := if sb.bblock b ∈ s.log then s.log else s.log ++ [sb.bblock b] } := by
      rw [← hfs]
      exact hmark
    exact hR.trans hstep (hR.store _ b _)

theorem keeps_iupdate (hR : Stepwise R) (ip : Fin NINODE) : Keeps R (iupdate sb ip) :=
  fun s => hR.store s (sb.iblock (s.fs.icache ip).inum) _

theorem keeps_bmapAddr (hR : Stepwise R) (ip : Fin NINODE) (k : Fin (NDIRECT + 1)) : Keeps R (bmapAddr sb ip k) := by
  refine keeps_bind hR (keeps_read hR _) fun addr => ?_
  by_cases hz : addr = 0
  · rw [if_pos hz]
    refine keeps_bind hR (keeps_balloc hR) fun b => ?_
    exact keeps_bind hR (keeps_memory hR fun _ => rfl) fun _ => keeps_pure hR b
  · rw [if_neg hz]
    exact keeps_pure hR _

theorem keeps_bmapEntry (hR : Stepwise R) (ind j : ℕ) : Keeps R (bmapEntry sb ind j) := by
  refine keeps_bind hR (keeps_read hR _) fun addr => ?_
  by_cases hz : addr = 0
  · rw [if_pos hz]
    exact keeps_bind hR (keeps_balloc hR) fun b s => hR.store s ind _
  · rw [if_neg hz]
    exact keeps_pure hR _

theorem keeps_bmap (hR : Stepwise R) (ip : Fin NINODE) (bn : ℕ) : Keeps R (bmap sb ip bn) := by
  unfold bmap
  by_cases hd : bn < NDIRECT
  · rw [dif_pos hd]
    exact keeps_bmapAddr hR ip _
  rw [dif_neg hd]
  by_cases hi : bn - NDIRECT < NINDIRECT
  · rw [if_pos hi]
    exact keeps_bind hR (keeps_bmapAddr hR ip _) fun ind => keeps_bmapEntry hR ind _
  · rw [if_neg hi]
    exact fun s => wp_panic trivial

/-- The loop of `writei`, where no copy faults or `R` does not mind a change outside the log. -/
theorem keeps_writeLoop (hR : Stepwise R) (ip : Fin NINODE) (src : ℕ → UInt8) {avail n : ℕ}
    (hcopy : n ≤ avail ∨ ∀ s b blk, R s { s with fs := s.fs.put b blk }) (fuel tot off : ℕ) :
    Keeps R (writeLoop sb ip src avail n fuel tot off) := by
  induction fuel generalizing tot off with
  | zero => exact keeps_pure hR off
  | succ fuel ih =>
    unfold writeLoop
    by_cases htot : tot < n
    swap
    · rw [if_neg htot]
      exact keeps_pure hR off
    rw [if_pos htot]
    refine keeps_bind hR (keeps_bmap hR ip _) fun b s => ?_
    refine wp_bind (wp_zoom (wp_update ?_))
    by_cases ha : tot + min (n - tot) (BSIZE - off % BSIZE) ≤ avail
    · rw [if_pos ha]
      refine wp_bind (wp_update ?_)
      exact wp_mono (ih _ _ _) (fun _ _ hu => hR.trans (hR.store s b _) hu) fun _ he => he
    · rw [if_neg ha]
      refine wp_pure ?_
      rcases hcopy with hle | hput
      · omega
      · exact hput s b _

theorem keeps_writei (hR : Stepwise R) (ip : Fin NINODE) (src : ℕ → UInt8) {avail : ℕ} {off n : UInt32}
    (hcopy : n.toNat ≤ avail ∨ ∀ s b blk, R s { s with fs := s.fs.put b blk }) :
    Keeps R (writei sb ip src avail off n) := by
  unfold writei
  refine keeps_bind hR (keeps_read hR _) fun size => ?_
  by_cases h₁ : off > size ∨ off + n < off
  · rw [if_pos h₁]
    exact keeps_pure hR _
  rw [if_neg h₁]
  by_cases h₂ : (off + n).toNat > MAXFILE * BSIZE
  · rw [if_pos h₂]
    exact keeps_pure hR _
  rw [if_neg h₂]
  refine keeps_bind hR (keeps_writeLoop hR ip src hcopy _ _ _) fun off' => ?_
  refine keeps_bind hR ?_ fun _ => keeps_pure hR _
  unfold onlyIf
  by_cases h₃ : n > 0
  · rw [if_pos h₃]
    refine keeps_bind hR (keeps_memory hR fun s => ?_) fun _ => keeps_iupdate hR ip
    split <;> rfl
  · rw [if_neg h₃]
    exact keeps_pure hR ()

end Keeps

/-! ### Two such relations -/

/-- The log only grows, and has each block once. -/
structure Grows (s t : Lfs) : Prop where
  mono : ∀ b, b ∈ s.log → b ∈ t.log
  nodup : s.log.Nodup → t.log.Nodup

theorem mem_store_log (s : Lfs) (b : ℕ) (blk : Block) : b ∈ (s.store b blk).log := by
  show b ∈ if b ∈ s.log then s.log else s.log ++ [b]
  by_cases h : b ∈ s.log
  · rwa [if_pos h]
  · rw [if_neg h]
    exact List.mem_append_right _ (List.mem_singleton.mpr rfl)

theorem grows_store (s : Lfs) (b : ℕ) (blk : Block) : Grows s (s.store b blk) := by
  unfold Lfs.store
  by_cases h : b ∈ s.log
  · rw [if_pos h]
    exact ⟨fun _ hc => hc, fun hn => hn⟩
  · rw [if_neg h]
    refine ⟨fun _ hc => List.mem_append_left _ hc, fun hn => ?_⟩
    exact List.nodup_append.mpr ⟨hn, List.nodup_singleton b, fun c hc d hd he => h (by
      rw [← List.mem_singleton.mp hd, ← he]
      exact hc)⟩

theorem stepwise_grows : Stepwise Grows where
  refl _ := ⟨fun _ hb => hb, fun hn => hn⟩
  trans h h' := ⟨fun b hb => h'.mono b (h.mono b hb), fun hn => h'.nodup (h.nodup hn)⟩
  store := grows_store
  memory _ _ _ := ⟨fun _ hb => hb, fun hn => hn⟩

/-- What has changed is in the log, and only the log differs from the disk. -/
structure Logged (s t : Lfs) : Prop where
  mono : ∀ b, b ∈ s.log → b ∈ t.log
  changed : ∀ b, b ∉ t.log → t.fs.disk b = s.fs.disk b
  home : t.home = s.home

theorem stepwise_logged : Stepwise Logged where
  refl _ := ⟨fun _ hb => hb, fun _ _ => rfl, rfl⟩
  trans h h' := by
    refine ⟨fun b hb => h'.mono b (h.mono b hb), fun b hb => ?_, h'.home.trans h.home⟩
    rw [h'.changed b hb, h.changed b fun hc => hb (h'.mono b hc)]
  store s b blk := by
    refine ⟨(grows_store s b blk).mono, fun c hc => ?_, rfl⟩
    refine Function.update_of_ne (fun he => hc ?_) _ _
    rw [he]
    exact mem_store_log s b blk
  memory _ f hf := ⟨fun _ hb => hb, fun b _ => by rw [hf], rfl⟩

end Xv6.FsLogged
