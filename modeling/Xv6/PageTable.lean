import Xv6.PhysMem

/-!
# Page tables (`kernel/vm.c`)

The page-table functions as programs on physical memory and the free list.  A page table is the
address of its root page, and the pointer to an entry that `walk` returns is the page and the index of
the entry.
-/

namespace Xv6.PageTable

open Xv6.Panics Xv6.RadixTree Xv6.Sv39 Xv6.PhysMem

/-- `*pte` -/
def load (pte : Addr × Fin 512) : Call Pte := gets fun s => s.mem pte.1 pte.2

def write (pte : Addr × Fin 512) (w : Pte) : Call Unit := update fun s => s.put pte.1 pte.2 w

/-- The loop of `walk`, from `level` down to 0. -/
def walkFrom (va : Addr) (alloc : Bool) : ℕ → Addr → Call (Option (Addr × Fin 512))
  | 0, pagetable => pure (some (pagetable, PX 0 va))
  | level + 1, pagetable => do
    let pte := (pagetable, PX (level + 1) va)
    let e ← load pte
    if Valid e then walkFrom va alloc level (PTE2PA e)
    else if !alloc then pure none
    else do
      match ← kalloc with
      | none => pure none
      | some q => do
        update fun s => s.fill q 0
        write pte (PA2PTE q ||| PTE_V)
        walkFrom va alloc level q

def walk (pagetable va : Addr) (alloc : Bool) : Call (Option (Addr × Fin 512)) :=
  if MAXVA ≤ va then panic .walk else walkFrom va alloc 2 pagetable

def walkaddr (pagetable va : Addr) : Call Addr :=
  if MAXVA ≤ va then pure 0
  else do
    match ← walk pagetable va false with
    | none => pure 0
    | some pte => do
      let e ← load pte
      if ¬ Valid e then pure 0
      else if e &&& PTE_U = 0 then pure 0
      else pure (PTE2PA e)

/-- The loop of `mappages`.  Every turn is one page further, and `walk` panics at `MAXVA`, so `2 ^ 26`
turns are never exceeded. -/
def mapFrom (pagetable last : Addr) (perm : Pte) : ℕ → Addr → Addr → Call ℤ
  | 0, _, _ => panic .walk
  | n + 1, a, pa => do
    match ← walk pagetable a true with
    | none => pure (-1)
    | some pte => do
      let e ← load pte
      if Valid e then panic .remap
      else do
        write pte (PA2PTE pa ||| perm ||| PTE_V)
        if a = last then pure 0 else mapFrom pagetable last perm n (a + PGSIZE) (pa + PGSIZE)

def turns : ℕ := 2 ^ 26 + 1

def mappages (pagetable va size pa : Addr) (perm : Pte) : Call ℤ :=
  mapFrom pagetable (PGROUNDDOWN (va + size - 1)) perm turns (PGROUNDDOWN va) pa

/-- The loop of `uvmunmap`, which `walk` bounds in the same way. -/
def unmapFrom (kend pagetable stop : Addr) (doFree : Bool) : ℕ → Addr → Call Unit
  | 0, _ => panic .walk
  | n + 1, a =>
    if a < stop then do
      match ← walk pagetable a false with
      | none => panic .uvmunmapWalk
      | some pte => do
        let e ← load pte
        if ¬ Valid e then panic .uvmunmapNotMapped
        else if PTE_FLAGS e = PTE_V then panic .uvmunmapNotALeaf
        else do
          onlyIf (doFree = true) (kfree kend (PTE2PA e))
          write pte 0
          unmapFrom kend pagetable stop doFree n (a + PGSIZE)
    else pure ()

def uvmunmap (kend pagetable va npages : Addr) (doFree : Bool) : Call Unit :=
  if ¬ Aligned va then panic .uvmunmapNotAligned
  else unmapFrom kend pagetable (va + npages * PGSIZE) doFree turns va

def uvmcreate : Call (Option Addr) := do
  match ← kalloc with
  | none => pure none
  | some q => do
    update fun s => s.fill q 0
    pure (some q)

def uvmclear (pagetable va : Addr) : Call Unit := do
  match ← walk pagetable va false with
  | none => panic .uvmclear
  | some pte => do
    let e ← load pte
    write pte (e &&& ~~~PTE_U)

/-! ### The map a page table stands for -/

def next (e : Pte) : Option Addr := if Valid e then some (PTE2PA e) else none

/-- The physical address and the flags of a valid entry. -/
def leaf (e : Pte) : Option (Addr × Pte) := if Valid e then some (PTE2PA e, PTE_FLAGS e) else none

def path (va : Addr) (level : ℕ) : Fin 512 := PX level va

/-- The entry of `va`, where the tables for it exist. -/
def slot (s : Kmem) (pagetable va : Addr) : Option (Addr × Fin 512) :=
  find next s.mem 2 pagetable (path va)

def view (s : Kmem) (pagetable va : Addr) : Option (Addr × Pte) :=
  (slot s pagetable va).bind fun pte => leaf (s.mem pte.1 pte.2)

def tables (s : Kmem) (pagetable : Addr) : Multiset Addr := pages next s.mem 2 pagetable

end Xv6.PageTable
