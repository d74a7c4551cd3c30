import Xv6.FsByteArrays
import Xv6.FsConsistent
import Xv6.FsLogged

/-!
# `writei` and `filewrite` through the log

The blocks that a call of `writei` passes to `log_write` are its data blocks, one block of the free map for
each allocation, the indirect block and the block of the inode.  For the pieces that `filewrite` writes these
are at most `MAXOPBLOCKS`, since the block at an unaligned offset of a file without holes is there already.

A write from memory that is all accessible stores what it reports.  One that faults reports `n` as well, and
leaves bytes in a buffer that is not in the log.
-/

namespace Xv6.FsWrites

open Xv6.Params Xv6.LittleEndian Xv6.Panics Xv6.FsLayout Xv6.FsInodes Xv6.FsOwnership Xv6.FsMapping
open Xv6.FsBmap Xv6.FsContent Xv6.FsFiles Xv6.FsByteArrays Xv6.FsDirSpec Xv6.FsConsistent
open Xv6.FsLogged (Lfs LCall onFs logWrite erases_bmap erases_writei wp_of_erases Logged Grows)
open Xv6.LogMachine (Block Disk)

variable {sb : SuperBlock} {ip : Fin NINODE} {s t u : Lfs} {D D' D'' : ℕ → Dinode}

/-! ### The blocks that `bmap` logs -/

theorem mem_logged {l : List ℕ} {b c : ℕ} (h : b ∈ if c ∈ l then l else l ++ [c]) : b ∈ l ∨ b = c := by
  by_cases hc : c ∈ l
  · rw [if_pos hc] at h
    exact .inl h
  · rw [if_neg hc] at h
    exact (List.mem_append.mp h).imp_right List.mem_singleton.mp

theorem balloc_log : Wp (FsLogged.balloc sb) s
    (fun c t => c < sb.size ∧ t.fs.handed = c :: s.fs.handed ∧ t.fs.icache = s.fs.icache ∧
      ∀ b, b ∈ t.log → b ∈ s.log ∨ b = sb.bblock c ∨ b = c) fun _ => True := by
  refine wp_bind (wp_zoom (wp_gets ?_))
  cases hf : findFree sb s.fs.disk with
  | none => exact wp_panic trivial
  | some c =>
    refine ⟨(findFree_some hf).1, rfl, rfl, fun b hb => ?_⟩
    rcases mem_logged hb with hb | hb
    · exact (mem_logged hb).imp_right .inl
    · exact .inr (.inr hb)

def Handed (s t : Lfs) (bs : List ℕ) : Prop := t.fs.handed = bs ++ s.fs.handed

theorem bmapAddr_log (k : Fin (NDIRECT + 1)) : Wp (FsLogged.bmapAddr sb ip k) s
    (fun a t => ((t.fs.icache ip).d.addrs k).toNat = a ∧ ∃ bs, Handed s t bs ∧
      ∀ b, b ∈ t.log → b ∈ s.log ∨ b = a ∨ ∃ c ∈ bs, b = sb.bblock c) fun _ => True := by
  refine wp_bind (wp_zoom (wp_gets ?_))
  by_cases hz : (s.fs.icache ip).d.addrs k = 0
  · rw [if_pos hz]
    refine wp_seq balloc_log ?_
    rintro c t ⟨hlt, hhanded, hcache, hlog⟩
    refine wp_bind (wp_zoom (wp_update (wp_pure ⟨?_, [c], hhanded, fun b hb => ?_⟩)))
    · show (((t.fs.setD ip _).icache ip).d.addrs k).toNat = c
      rw [Fs.setD_self]
      show (Function.update (t.fs.icache ip).d.addrs k (UInt32.ofNat c) k).toNat = c
      rw [Function.update_self]
      exact UInt32.toNat_ofNat_of_lt' (lt_trans hlt (lt_trans sb.size_lt (by decide)))
    · rcases hlog b hb with h | h | h
      · exact .inl h
      · exact .inr (.inr ⟨c, List.mem_singleton.mpr rfl, h⟩)
      · exact .inr (.inl h)
  · rw [if_neg hz]
    exact wp_pure ⟨rfl, [], rfl, fun b hb => .inl hb⟩

theorem bmapEntry_log (ind j : ℕ) : Wp (FsLogged.bmapEntry sb ind j) s
    (fun a t => t.fs.icache = s.fs.icache ∧ ∃ bs, Handed s t bs ∧
      ∀ b, b ∈ t.log → b ∈ s.log ∨ b = a ∨ (∃ c ∈ bs, b = sb.bblock c) ∨ b = ind) fun _ => True := by
  refine wp_bind (wp_zoom (wp_gets ?_))
  by_cases hz : word (s.fs.disk ind) j = 0
  · rw [if_pos hz]
    refine wp_seq balloc_log ?_
    rintro c t ⟨hlt, hhanded, hcache, hlog⟩
    refine wp_bind (wp_zoom (wp_update (wp_bind (wp_update (wp_pure ⟨hcache, [c], hhanded, ?_⟩)))))
    intro b hb
    rcases mem_logged hb with hb | hb
    · rcases hlog b hb with h | h | h
      · exact .inl h
      · exact .inr (.inr (.inl ⟨c, List.mem_singleton.mpr rfl, h⟩))
      · exact .inr (.inl h)
    · exact .inr (.inr (.inr hb))
  · rw [if_neg hz]
    exact wp_pure ⟨rfl, [], rfl, fun b hb => .inl hb⟩

theorem bmap_log (bn : ℕ) : Wp (FsLogged.bmap sb ip bn) s (fun a t => ∃ bs, Handed s t bs ∧
      ∀ b, b ∈ t.log → b ∈ s.log ∨ b = a ∨ (∃ c ∈ bs, b = sb.bblock c) ∨
        NDIRECT ≤ bn ∧ b = ((t.fs.icache ip).d.addrs (Fin.last NDIRECT)).toNat) fun _ => True := by
  unfold FsLogged.bmap
  by_cases hd : bn < NDIRECT
  · rw [dif_pos hd]
    refine wp_mono (bmapAddr_log _) ?_ fun _ he => he
    rintro a t ⟨-, bs, hhanded, hlog⟩
    exact ⟨bs, hhanded, fun b hb => (hlog b hb).imp_right (.imp_right .inl)⟩
  rw [dif_neg hd]
  by_cases hi : bn - NDIRECT < NINDIRECT
  swap
  · rw [if_neg hi]
    exact wp_panic trivial
  rw [if_pos hi]
  have hle : NDIRECT ≤ bn := Nat.le_of_not_lt hd
  refine wp_seq (bmapAddr_log _) ?_
  rintro ind t ⟨hind, bs, hhanded, hlog⟩
  refine wp_mono (bmapEntry_log ind _) ?_ fun _ he => he
  rintro a u ⟨hcache, bs', hhanded', hlog'⟩
  refine ⟨bs' ++ bs, ?_, fun b hb => ?_⟩
  · unfold Handed at *
    rw [hhanded', hhanded, List.append_assoc]
  · rw [hcache, hind]
    rcases hlog' b hb with h | h | ⟨c, hc, h⟩ | h
    · rcases hlog b h with h | h | ⟨c, hc, h⟩
      · exact .inl h
      · exact .inr (.inr (.inr ⟨hle, h⟩))
      · exact .inr (.inr (.inl ⟨c, List.mem_append_right _ hc, h⟩))
    · exact .inr (.inl h)
    · exact .inr (.inr (.inl ⟨c, List.mem_append_left _ hc, h⟩))
    · exact .inr (.inr (.inr ⟨hle, h⟩))

/-! ### The blocks that the loop of `writei` logs -/

/-- What has gone to the log: the blocks `data`, the blocks of the free map for `bs`, the indirect block. -/
structure Spent (sb : SuperBlock) (ip : Fin NINODE) (D : ℕ → Dinode) (s : Lfs) (D' : ℕ → Dinode) (t : Lfs)
    (bs data : List ℕ) : Prop where
  maps : Maps sb ip D s.fs D' t.fs bs
  log : ∀ b, b ∈ t.log → b ∈ s.log ∨ b ∈ data ∨ (∃ c ∈ bs, b = sb.bblock c) ∨
    slots sb t.fs.disk D' ((s.fs.icache ip).inum, Slot.indirect) = some b

theorem Spent.refl (hw : Working sb ip D s.fs) : Spent sb ip D s D s [] [] :=
  ⟨Maps.refl hw, fun _ hb => .inl hb⟩

theorem Spent.trans {bs bs' data data' : List ℕ} (h : Spent sb ip D s D' t bs data)
    (h' : Spent sb ip D' t D'' u bs' data') : Spent sb ip D s D'' u (bs' ++ bs) (data ++ data') := by
  refine ⟨h.maps.trans h'.maps, fun b hb => ?_⟩
  have hlog' := h'.log b hb
  rw [h.maps.inum] at hlog'
  rcases hlog' with hb | hb | ⟨c, hc, hb⟩ | hb
  · rcases h.log b hb with hb | hb | ⟨c, hc, hb⟩ | hb
    · exact .inl hb
    · exact .inr (.inl (List.mem_append_left _ hb))
    · exact .inr (.inr (.inl ⟨c, List.mem_append_right _ hc, hb⟩))
    · exact .inr (.inr (.inr (h'.maps.evolves.keep _ b hb)))
  · exact .inr (.inl (List.mem_append_right _ hb))
  · exact .inr (.inr (.inl ⟨c, List.mem_append_left _ hc, hb⟩))
  · exact .inr (.inr (.inr hb))

theorem bmap_spent (hw : Working sb ip D s.fs) {bn : ℕ} (hbn : bn < MAXFILE) : Wp (FsLogged.bmap sb ip bn) s
      (fun a t => ∃ D' bs, Gets sb ip D s.fs bn a D' t.fs bs ∧ Spent sb ip D s D' t bs [a]) fun _ => True := by
  have hgets : Wp (FsLogged.bmap sb ip bn) s
      (fun a t => ∃ D' bs, Gets sb ip D s.fs bn a D' t.fs bs) fun _ => True :=
    wp_mono (wp_of_erases (erases_bmap ip bn) (bmap_spec hw hbn)) (fun _ _ h => h) fun _ _ => trivial
  refine wp_mono (wp_and hgets (bmap_log bn)) ?_ fun _ he => he
  rintro a t ⟨⟨D', bs, hg⟩, bs', hhanded, hlog⟩
  have hbs : bs' = bs := List.append_cancel_right (hhanded.symm.trans hg.maps.handed)
  subst hbs
  refine ⟨D', bs', hg, hg.maps, fun b hb => ?_⟩
  rcases hlog b hb with h | h | h | ⟨hle, h⟩
  · exact .inl h
  · exact .inr (.inl (List.mem_singleton.mpr h))
  · exact .inr (.inr (.inl h))
  · -- the indirect block is the one that the inode names now
    obtain ⟨c, hc⟩ := Option.ne_none_iff_exists'.mp (hg.indirect hle)
    have haddr : ((D' (s.fs.icache ip).inum).addrs (Fin.last NDIRECT)).toNat = c :=
      (slots_eq_some.mp hc).2.2.2
    rw [hg.maps.here] at haddr
    rw [h, haddr]
    exact .inr (.inr (.inr hc))

theorem spent_store {bn a : ℕ} {bs log : List ℕ} (hw : Working sb ip D s.fs)
    (hg : Gets sb ip D s.fs bn a D' t.fs bs) (hs : Spent sb ip D s D' t bs [a]) (blk : Block)
    (hlog : ∀ b, b ∈ log → b ∈ t.log ∨ b = a) :
    Spent sb ip D s D' { t with fs := t.fs.put a blk, log := log } bs [a] := by
  have hslot := hg.slot
  rw [← hg.maps.inum] at hslot
  have hstore := maps_store (hg.maps.working hw) hslot (fileSlot_ne_indirect bn) blk
  have hslots := slots_store hg.maps.evolves.own hg.slot (fileSlot_ne_indirect bn) blk
  refine ⟨?_, fun b hb => ?_⟩
  · have htrans := hg.maps.trans hstore
    rwa [List.nil_append] at htrans
  · show _ ∨ _ ∨ _ ∨ slots sb (Function.update t.fs.disk a blk) D' _ = some b
    rw [hslots]
    rcases hlog b hb with h | h
    · exact hs.log b h
    · exact .inr (.inl (List.mem_singleton.mpr h))

/-- **The loop of `writei`** and the log. -/
theorem writeLoop_spent {src : ℕ → UInt8} {avail n fuel tot off : ℕ} (hw : Working sb ip D s.fs)
    (hoff : off + (n - tot) ≤ MAXFILE * BSIZE) : Wp (FsLogged.writeLoop sb ip src avail n fuel tot off) s
      (fun _ t => ∃ D' bs data, Spent sb ip D s D' t bs data ∧ (n ≤ tot → bs = [] ∧ data = []) ∧
        bs.length ≤ need sb s.fs.disk D (s.fs.icache ip).inum (off / BSIZE) (blocks (off + (n - tot))) ∧
        data.length ≤ blocks (off + (n - tot)) - off / BSIZE) fun _ => True := by
  induction fuel generalizing tot off s D with
  | zero => exact wp_pure ⟨D, [], [], .refl hw, fun _ => ⟨rfl, rfl⟩, Nat.zero_le _, Nat.zero_le _⟩
  | succ fuel ih =>
    unfold FsLogged.writeLoop
    by_cases htot : tot < n
    swap
    · rw [if_neg htot]
      exact wp_pure ⟨D, [], [], .refl hw, fun _ => ⟨rfl, rfl⟩, Nat.zero_le _, Nat.zero_le _⟩
    rw [if_pos htot]
    have hoff' : off < MAXFILE * BSIZE := by omega
    have hlt : off / BSIZE < blocks (off + (n - tot)) := div_lt_blocks (by omega)
    refine wp_seq (bmap_spent hw (div_lt_maxfile hoff')) ?_
    rintro a t ⟨D₁, bs₁, hg, hspent⟩
    have hcost := hg.cost.trans (cost_le_need hlt)
    generalize hm : min (n - tot) (BSIZE - off % BSIZE) = m
    refine wp_bind (wp_zoom (wp_update ?_))
    by_cases havail : tot + m ≤ avail
    swap
    · rw [if_neg havail]
      refine wp_pure ⟨D₁, bs₁, [a], spent_store hw hg hspent _ fun b hb => .inl hb, ?_, hcost, ?_⟩
      · omega
      · show 1 ≤ _
        omega
    rw [if_pos havail]
    refine wp_bind (wp_update ?_)
    have hround := spent_store hw hg hspent
      (setBytes (t.fs.disk a) (off % BSIZE) (min m (avail - tot)) fun x => src (tot + x))
      (fun b hb => mem_logged (l := t.log) hb)
    have hw' := hround.maps.working hw
    refine wp_mono (ih hw' (by omega)) ?_ fun _ he => he
    rintro off' u ⟨D₂, bs₂, data₂, hrest, hnone, hneed, hlen⟩
    refine ⟨D₂, bs₂ ++ bs₁, [a] ++ data₂, hround.trans hrest, by omega, ?_, ?_⟩
    · rw [List.length_append]
      by_cases hend : n ≤ tot + m
      · rw [(hnone hend).1, List.length_nil]
        omega
      · have hnext : (off + m) / BSIZE = off / BSIZE + 1 := div_next_round hm.symm (by omega)
        have hblocks : off + m + (n - (tot + m)) = off + (n - tot) := by omega
        have hpaid := need_after hlt hg
        have hslots := slots_store hg.maps.evolves.own hg.slot (fileSlot_ne_indirect (off / BSIZE))
          (setBytes (t.fs.disk a) (off % BSIZE) (min m (avail - tot)) fun x => src (tot + x))
        rw [hround.maps.inum, hnext, hblocks] at hneed
        unfold need at hneed hpaid ⊢
        rw [show ({ t with fs := t.fs.put a _, log := _ } : Lfs).fs.disk = Function.update t.fs.disk a _
          from rfl, hslots] at hneed
        omega
    · rw [List.length_append, List.length_singleton]
      by_cases hend : n ≤ tot + m
      · rw [(hnone hend).2, List.length_nil]
        omega
      · have hnext : (off + m) / BSIZE = off / BSIZE + 1 := div_next_round hm.symm (by omega)
        have hblocks : off + m + (n - (tot + m)) = off + (n - tot) := by omega
        rw [hnext, hblocks] at hlen
        omega

/-! ### The budget of one piece -/

/-- The `max` of `filewrite`. -/
def chunkMax : ℕ := ((MAXOPBLOCKS - 1 - 1 - 2) / 2) * BSIZE

theorem need_le {disk : Disk} {i lo hi : ℕ} : need sb disk D i lo hi ≤ hi - lo + 1 := by
  have hcard : ((Finset.Ico lo hi).filter fun bn => slots sb disk D (i, fileSlot bn) = none).card ≤
      hi - lo := by
    rw [← Nat.card_Ico]
    exact Finset.card_filter_le _ _
  unfold need
  split <;> omega

theorem need_le_of_mapped {disk : Disk} {i lo hi : ℕ} (hlt : lo < hi)
    (h : slots sb disk D (i, fileSlot lo) ≠ none) : need sb disk D i lo hi ≤ hi - lo := by
  have hcard : ((Finset.Ico (lo + 1) hi).filter fun bn =>
      slots sb disk D (i, fileSlot bn) = none).card ≤ hi - (lo + 1) := by
    rw [← Nat.card_Ico]
    exact Finset.card_filter_le _ _
  unfold need
  rw [card_filter_Ico_succ hlt, if_neg h]
  split <;> omega

/-- Data blocks and allocations of a piece of a file without holes: an unaligned one has a block more, but
its first block is there. -/
theorem chunk_cost (h : Readable sb ip s.fs) {off n : ℕ} (hoff : off ≤ (s.fs.icache ip).d.size.toNat)
    (hpos : 0 < n) (hn : n ≤ chunkMax) :
    need sb s.fs.disk (dinode sb s.fs.disk) (s.fs.icache ip).inum (off / BSIZE) (blocks (off + n)) +
      (blocks (off + n) - off / BSIZE) + 2 ≤ MAXOPBLOCKS := by
  have hn' : n ≤ 3072 := hn
  have hM : MAXOPBLOCKS = 10 := rfl
  have hblocks : blocks (off + n) = (off + n + 1023) / 1024 := rfl
  have hB : BSIZE = 1024 := rfl
  by_cases hal : off % BSIZE = 0
  · have hle : need sb s.fs.disk (dinode sb s.fs.disk) (s.fs.icache ip).inum (off / BSIZE)
        (blocks (off + n)) ≤ blocks (off + n) - off / BSIZE + 1 := need_le
    rw [hB] at hal hle ⊢
    omega
  · have hlt : off / BSIZE < blocks (off + n) := div_lt_blocks (by omega)
    have hmapped : slots sb s.fs.disk (dinode sb s.fs.disk) ((s.fs.icache ip).inum,
        fileSlot (off / BSIZE)) ≠ none := by
      -- the byte before `off` lies in the same block
      have hbefore := h.filled.mapped (off - 1) (Nat.zero_le _) (by
        rw [h.synced.here, Nat.zero_add]
        rw [hB] at hal
        omega)
      have hsame : (off - 1) / BSIZE = off / BSIZE := by
        rw [hB] at hal ⊢
        omega
      rwa [hsame] at hbefore
    have hle := need_le_of_mapped hlt hmapped
    rw [hB] at hal hle ⊢
    omega

theorem wp_iupdate_log {Q : Unit → Lfs → Prop} {E : Panic → Prop}
    (h : ∀ f c, Q () { s with fs := f, log := if c ∈ s.log then s.log else s.log ++ [c] }) :
    Wp (FsLogged.iupdate sb ip) s Q E := h (updated sb ip s.fs) (sb.iblock (s.fs.icache ip).inum)

theorem writei_spent (h : Readable sb ip s.fs) {src : ℕ → UInt8} {avail : ℕ} {off n : UInt32}
    (hoff : off.toNat ≤ (s.fs.icache ip).d.size.toNat) (hn : n.toNat ≤ chunkMax) (hlog : s.log = []) :
    Wp (FsLogged.writei sb ip src avail off n) s
      (fun _ t => ∃ l : List ℕ, l.length ≤ MAXOPBLOCKS ∧ ∀ b, b ∈ t.log → b ∈ l) fun _ => True := by
  have hnone : ∃ l : List ℕ, l.length ≤ MAXOPBLOCKS ∧ ∀ b, b ∈ s.log → b ∈ l := by
    refine ⟨[], Nat.zero_le _, fun b hb => ?_⟩
    rwa [hlog] at hb
  unfold FsLogged.writei
  refine wp_bind (wp_zoom (wp_gets ?_))
  by_cases h₁ : off > (s.fs.icache ip).d.size ∨ off + n < off
  · rw [if_pos h₁]
    exact wp_pure hnone
  rw [if_neg h₁]
  by_cases h₂ : (off + n).toNat > MAXFILE * BSIZE
  · rw [if_pos h₂]
    exact wp_pure hnone
  rw [if_neg h₂]
  have hadd := toNat_add_of_not_lt fun hc => h₁ (.inr hc)
  refine wp_seq (writeLoop_spent h.synced.working (by omega)) ?_
  rintro off' t ⟨D', bs, data, hspent, hempty, hneed, hdata⟩
  rw [Nat.sub_zero] at hneed hdata
  have hallocs : bs.length ≤ need sb s.fs.disk (dinode sb s.fs.disk) (s.fs.icache ip).inum
      (off.toNat / BSIZE) (blocks (off.toNat + n.toNat)) := hneed
  -- the indirect block, if there is one
  obtain ⟨ind, hind, hone⟩ : ∃ ind : List ℕ, (∀ b, slots sb t.fs.disk D'
      ((s.fs.icache ip).inum, Slot.indirect) = some b → b ∈ ind) ∧ ind.length ≤ 1 := by
    cases slots sb t.fs.disk D' ((s.fs.icache ip).inum, Slot.indirect) with
    | none => exact ⟨[], fun b hb => (by cases hb), Nat.zero_le _⟩
    | some c => exact ⟨[c], fun b hb => (by cases hb; exact List.mem_singleton.mpr rfl), Nat.le_refl _⟩
  have hlogged : ∀ b, b ∈ t.log → b ∈ data ++ bs.map sb.bblock ++ ind := by
    intro b hb
    rcases hspent.log b hb with hb | hb | ⟨c, hc, hb⟩ | hb
    · rw [hlog] at hb
      exact absurd hb List.not_mem_nil
    · exact List.mem_append_left _ (List.mem_append_left _ hb)
    · refine List.mem_append_left _ (List.mem_append_right _ ?_)
      rw [hb]
      exact List.mem_map_of_mem hc
    · exact List.mem_append_right _ (hind b hb)
  refine wp_bind (wp_onlyIf (fun h₃ => wp_bind (wp_zoom (wp_update (wp_iupdate_log fun f c => ?_))))
    fun h₃ => ?_)
  · have hpos : 0 < n.toNat := h₃
    have hcost := chunk_cost h hoff hpos hn
    refine wp_pure ⟨data ++ bs.map sb.bblock ++ ind ++ [c], ?_, fun b hb => ?_⟩
    · simp only [List.length_append, List.length_map, List.length_singleton]
      omega
    · exact (mem_logged hb).elim (fun hb => List.mem_append_left _ (hlogged b hb))
        fun hb => List.mem_append_right _ (List.mem_singleton.mpr hb)
  · have hzero : n.toNat ≤ 0 := Nat.le_of_not_lt h₃
    obtain ⟨rfl, rfl⟩ := hempty hzero
    refine wp_pure ⟨_, ?_, hlogged⟩
    have hM : 1 ≤ MAXOPBLOCKS := by decide
    simp only [List.length_append, List.length_map, List.length_nil]
    omega

theorem writei_error (h : Synced sb ip s.fs) {src : ℕ → UInt8} {avail : ℕ} {off n : UInt32}
    (hoff : off.toNat ≤ (s.fs.icache ip).d.size.toNat) {e : Panic}
    (hrun : FsLogged.writei sb ip src avail off n s = .error e) : e = .ballocOutOfBlocks := by
  by_cases hout : off > (s.fs.icache ip).d.size ∨ off + n < off ∨ (off + n).toNat > MAXFILE * BSIZE
  · exact (error_of_wp (wp_of_erases (erases_writei ip src avail off n) (writei_out hout)) hrun).elim
  · have hadd := toNat_add_of_not_lt fun hc => hout (.inr (.inl hc))
    have hmax : off.toNat + n.toNat ≤ MAXFILE * BSIZE := by
      rw [← hadd]
      exact Nat.le_of_not_lt fun hc => hout (.inr (.inr hc))
    have hwp := wp_of_erases (erases_writei ip src avail off n) (writei_spec h hoff hmax)
    exact (error_of_wp hwp hrun).1

/-- **The budget of one piece.**  Between `begin_op` and `end_op` a piece that `filewrite` writes passes at
most `MAXOPBLOCKS` different blocks to `log_write`, whether or not its copies fault. -/
theorem chunk_fits_budget (sb : SuperBlock) (ip : Fin NINODE) (s : Lfs) (src : ℕ → UInt8) (avail : ℕ)
    (off n : UInt32) (h : Readable sb ip s.fs) (hoff : off.toNat ≤ (s.fs.icache ip).d.size.toNat)
    (hn : n.toNat ≤ chunkMax) :
    Wp (FsLogged.writei sb ip src avail off n) { s with log := [] }
      (fun _ t => t.log.Nodup ∧ t.log.length ≤ MAXOPBLOCKS) fun e => e = .ballocOutOfBlocks := by
  set s₀ : Lfs := { s with log := [] } with hs₀
  have h₀ : Readable sb ip s₀.fs := h
  have hspent : Wp (FsLogged.writei sb ip src avail off n) s₀ _ _ := writei_spent h₀ hoff hn rfl
  have hgrows : Wp (FsLogged.writei sb ip src avail off n) s₀ (fun _ t => Grows s₀ t) fun _ => True :=
    FsLogged.keeps_writei FsLogged.stepwise_grows ip src
      (.inr fun _ _ _ => ⟨fun _ hb => hb, fun hd => hd⟩) s₀
  cases hrun : FsLogged.writei sb ip src avail off n s₀ with
  | error e =>
    rw [Wp, hrun]
    exact writei_error h₀.synced hoff hrun
  | ok r =>
    obtain ⟨l, hl, hsub⟩ := ok_of_wp hspent hrun
    have hnodup := (ok_of_wp hgrows hrun).nodup List.nodup_nil
    rw [Wp, hrun]
    exact ⟨hnodup, (List.subperm_of_subset hnodup hsub).length_le.trans hl⟩

/-- `tiny` between two transactions. -/
def tinyLogged : Lfs := ⟨tiny, tiny.disk, []⟩

theorem readable_tiny : Readable tinySb entry0 tinyLogged.fs := by
  have hhere : dinode tinySb tiny.disk 1 = emptyFile := synced_tiny.here
  refine ⟨synced_tiny, ?_, fun x _ hx => ?_⟩
  · show (dinode tinySb tiny.disk 1).size.toNat ≤ _
    rw [hhere]
    decide
  · have hx' : x < 0 + (dinode tinySb tiny.disk 1).size.toNat := hx
    rw [hhere] at hx'
    exact absurd hx' (Nat.not_lt_zero x)

/-- A write of five bytes, of which two can be copied. -/
theorem chunk_fits_budget_tiny : Readable tinySb entry0 tinyLogged.fs ∧
    Wp (FsLogged.writei tinySb entry0 count 2 0 5) tinyLogged
      (fun _ t => t.log.Nodup ∧ t.log.length ≤ MAXOPBLOCKS) fun e => e = .ballocOutOfBlocks :=
  ⟨readable_tiny, chunk_fits_budget tinySb entry0 tinyLogged count 2 0 5 readable_tiny (by decide)
    (by decide)⟩

/-! ### `filewrite` -/

/-- `struct file`, for a file of type `FD_INODE`. -/
structure File where
  ip : Fin NINODE
  writable : Bool
  off : UInt32
deriving DecidableEq

/-- **Bytes `src` are stored** at offset `off` of the file in entry `ip`, `k` of them, and nothing else has
changed in any file; a buffer that has changed is in the log. -/
structure Stores (sb : SuperBlock) (ip : Fin NINODE) (src : ℕ → UInt8) (off k : ℕ) (s t : Lfs) : Prop where
  bytes : ∀ j x, x < MAXFILE * BSIZE → content sb t.fs.disk j x =
    if j = (s.fs.icache ip).inum ∧ off ≤ x ∧ x < off + k then src (x - off) else content sb s.fs.disk j x
  size : (t.fs.icache ip).d.size.toNat =
    if k = 0 then (s.fs.icache ip).d.size.toNat else max (s.fs.icache ip).d.size.toNat (off + k)
  evicted : t.evicted = t.fs.disk
  logged : ∀ b, t.fs.disk b ≠ s.fs.disk b → b ∈ t.log

/-- The file is in use, in memory as on disk. -/
structure Open (sb : SuperBlock) (ip : Fin NINODE) (s : Lfs) : Prop where
  synced : Synced sb ip s.fs
  locked : Locked s.fs ip
  evicted : s.evicted = s.fs.disk

/-- `Stores`, with what the next piece needs. -/
structure Stored (sb : SuperBlock) (ip : Fin NINODE) (src : ℕ → UInt8) (off k : ℕ) (s t : Lfs) : Prop where
  stores : Stores sb ip src off k s t
  opened : Open sb ip t
  inum : (t.fs.icache ip).inum = (s.fs.icache ip).inum
  log : Logged s t

theorem Stored.nothing (h : Open sb ip s) (src : ℕ → UInt8) (off : ℕ) : Stored sb ip src off 0 s s where
  stores := by
    refine ⟨fun j x _ => ?_, (if_pos rfl).symm, h.evicted, fun b hb => absurd rfl hb⟩
    rw [if_neg (by omega)]
  opened := h
  inum := rfl
  log := FsLogged.stepwise_logged.refl s

theorem Stored.trans {src : ℕ → UInt8} {off m k : ℕ} (h : Stored sb ip src off m s t)
    (h' : Stored sb ip (fun x => src (m + x)) (off + m) k t u) :
    Stored sb ip src off (m + k) s u where
  stores := by
    refine ⟨fun j x hx => ?_, ?_, h'.stores.evicted, fun b hb => ?_⟩
    · rw [h'.stores.bytes j x hx, h.stores.bytes j x hx, h.inum]
      by_cases hj : j = (s.fs.icache ip).inum
      · simp only [hj, true_and]
        by_cases h₁ : off + m ≤ x ∧ x < off + m + k
        · rw [if_pos h₁, if_pos (by omega), show m + (x - (off + m)) = x - off by omega]
        · rw [if_neg h₁]
          by_cases h₂ : off ≤ x ∧ x < off + m
          · rw [if_pos h₂, if_pos (by omega)]
          · rw [if_neg h₂, if_neg (by omega)]
      · simp only [hj, false_and, if_false]
    · rw [h'.stores.size, h.stores.size]
      by_cases hk : k = 0
      · rw [if_pos hk, hk, Nat.add_zero]
      · by_cases hm : m = 0
        · rw [if_neg hk, if_pos hm, if_neg (by omega), hm, Nat.zero_add, Nat.add_zero]
        · rw [if_neg hk, if_neg hm, if_neg (by omega)]
          omega
    · by_contra hnot
      exact hb (((FsLogged.stepwise_logged.trans h.log h'.log).changed b hnot))
  opened := h'.opened
  inum := h'.inum.trans h.inum
  log := FsLogged.stepwise_logged.trans h.log h'.log

/-- The file of five bytes, committed. -/
def fiveBytes : Lfs :=
  let s := after (FsLogged.writei tinySb entry0 count 5 0 5) tinyLogged
  ⟨s.fs, s.fs.disk, []⟩

end Xv6.FsWrites
