import Xv6.Panics
import Xv6.RadixTree
import Xv6.Sv39

/-!
# The physical page allocator (`kernel/kalloc.c`)

Physical memory is a map from page addresses to their 512 words.  The free list is a list of page
addresses; its links, which the code keeps in the first word of each free page, are that list and one
word of junk in memory.  `kend` is the linker's `end`, the first address after the kernel.
-/

namespace Xv6.PhysMem

open Xv6.Panics Xv6.RadixTree Xv6.Sv39

def PHYSTOP : Addr := 0x88000000

instance neZero_words : NeZero 512 := ⟨by decide⟩

structure Kmem where
  mem : Memory Addr (Fin 512) Pte
  free : List Addr

/-- The panics of `kalloc.c` and `vm.c`, and of `loadseg` in `exec.c`. -/
inductive Panic where
  | kfree
  | walk
  | remap
  | uvmunmapNotAligned
  | uvmunmapWalk
  | uvmunmapNotMapped
  | uvmunmapNotALeaf
  | uvmclear
  | freewalkLeaf
  | uvmcopyExist
  | uvmcopyPresent
  | loadsegAligned
  | loadsegExist
deriving DecidableEq

def Panic.msg : Panic → String
  | kfree => "kfree"
  | walk => "walk"
  | remap => "remap"
  | uvmunmapNotAligned => "uvmunmap: not aligned"
  | uvmunmapWalk => "uvmunmap: walk"
  | uvmunmapNotMapped => "uvmunmap: not mapped"
  | uvmunmapNotALeaf => "uvmunmap: not a leaf"
  | uvmclear => "uvmclear"
  | freewalkLeaf => "freewalk: leaf"
  | uvmcopyExist => "uvmcopy: pte should exist"
  | uvmcopyPresent => "uvmcopy: page not present"
  | loadsegAligned => "loadseg: va must be page aligned"
  | loadsegExist => "loadseg: address should exist"

abbrev Call := Prog Kmem Panic

namespace Kmem

/-- `memset(p, c, PGSIZE)` with the byte `c` repeated in `w`. -/
def fill (s : Kmem) (p : Addr) (w : Pte) : Kmem :=
  { s with mem := Function.update s.mem p fun _ => w }

/-- `p[k] = w`. -/
def put (s : Kmem) (p : Addr) (k : Fin 512) (w : Pte) : Kmem := { s with mem := store s.mem p k w }

end Kmem

/-- `kalloc`; `none` is the null pointer. -/
def kalloc : Call (Option Addr) := fun s =>
  match s.free with
  | [] => .ok (none, s)
  | r :: rest => .ok (some r, { s with free := rest }.fill r 0x0505050505050505)

def kfree (kend pa : Addr) : Call Unit :=
  if ¬ Aligned pa ∨ pa < kend ∨ PHYSTOP ≤ pa then panic .kfree
  else update fun s =>
    let t := (s.fill pa 0x0101010101010101).put pa 0 (s.free.head?.getD 0)
    { t with free := pa :: s.free }

/-! ### Specifications -/

theorem kalloc_spec (s : Kmem) (E : Panic → Prop) : Wp kalloc s (fun r t => (r = none ∧ s.free = [] ∧ t = s) ∨
      ∃ q rest, r = some q ∧ s.free = q :: rest ∧ t.free = rest ∧ ∀ x, x ≠ q → t.mem x = s.mem x) E := by
  unfold Wp kalloc
  cases hf : s.free with
  | nil => exact .inl ⟨rfl, rfl, rfl⟩
  | cons q rest => exact .inr ⟨q, rest, rfl, rfl, rfl, fun x hx => Function.update_of_ne hx _ _⟩

theorem kfree_spec {kend pa : Addr} (s : Kmem) {E : Panic → Prop}
    (hbad : ¬ (Aligned pa ∧ kend ≤ pa ∧ pa < PHYSTOP) → E .kfree) :
    Wp (kfree kend pa) s (fun _ t => Aligned pa ∧ kend ≤ pa ∧ pa < PHYSTOP ∧ t.free = pa :: s.free ∧
      ∀ x, x ≠ pa → t.mem x = s.mem x) E := by
  unfold kfree
  split
  case isTrue h =>
    refine wp_panic (hbad fun hok => ?_)
    rcases h with h | h | h
    · exact h hok.1
    · exact absurd hok.2.1 (BitVec.not_le.mpr h)
    · exact absurd hok.2.2 (BitVec.not_lt.mpr h)
  case isFalse h =>
    rw [not_or, not_or, not_not, BitVec.not_lt, BitVec.not_le] at h
    refine wp_update ⟨h.1, h.2.1, h.2.2, rfl, fun x hx => ?_⟩
    show store _ pa 0 _ x = s.mem x
    rw [store_page _ _ _ hx]
    exact Function.update_of_ne hx _ _

end Xv6.PhysMem
