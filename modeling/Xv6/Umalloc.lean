import Mathlib.Tactic
import Xv6.LabelledRuns

/-!
# `malloc` and `free` (`user/umalloc.c`)

The free blocks form a circular list in the order of their addresses, with the static header `base` in it.
Headers are kept by their address; addresses are numbers of bytes, far below `2^64`, so that pointer
arithmetic does not wrap.  A `uint` size counts units of 16 bytes, header included.

`sbrk` is a parameter: what it does to the state of the system, and the address it returns (`none` for -1).
A function that returns `none` has not come to its end, either because `fuel` was not enough for a loop or
because `sbrk` did not return.
-/

namespace Xv6.Umalloc

/-- `union header`. -/
structure Header where
  ptr : ℕ
  size : UInt32
deriving DecidableEq

structure Heap where
  mem : ℕ → Header
  /-- 0 before the first call of `malloc`. -/
  freep : ℕ

def Heap.setPtr (h : Heap) (p x : ℕ) : Heap :=
  { h with mem := Function.update h.mem p { h.mem p with ptr := x } }

def Heap.setSize (h : Heap) (p : ℕ) (x : UInt32) : Heap :=
  { h with mem := Function.update h.mem p { h.mem p with size := x } }

/-! ### `free` -/

/-- The loop of `free`. -/
def findPlace (mem : ℕ → Header) (bp : ℕ) : ℕ → ℕ → Option ℕ
  | 0, _ => none
  | fuel + 1, p =>
    if bp > p ∧ bp < (mem p).ptr then some p
    else if p ≥ (mem p).ptr ∧ (bp > p ∨ bp < (mem p).ptr) then some p
    else findPlace mem bp fuel (mem p).ptr

/-- `if(bp + bp->s.size == p->s.ptr)` and its branches. -/
def Heap.joinNext (h : Heap) (bp p : ℕ) : Heap :=
  let q := (h.mem p).ptr
  if bp + 16 * (h.mem bp).size.toNat = q then
    let h := h.setSize bp ((h.mem bp).size + (h.mem q).size)
    h.setPtr bp (h.mem q).ptr
  else h.setPtr bp q

/-- `if(p + p->s.size == bp)` and its branches. -/
def Heap.joinPrev (h : Heap) (bp p : ℕ) : Heap :=
  if p + 16 * (h.mem p).size.toNat = bp then
    let h := h.setSize p ((h.mem p).size + (h.mem bp).size)
    h.setPtr p (h.mem bp).ptr
  else h.setPtr p bp

def free (fuel ap : ℕ) (h : Heap) : Option Heap := do
  let bp := ap - 16
  let p ← findPlace h.mem bp fuel h.freep
  return { (h.joinNext bp p).joinPrev bp p with freep := p }

/-! ### `malloc` -/

section
variable {σ : Type} (sbrk : BitVec 32 → σ → Option (Option ℕ × σ)) (fuel : ℕ)

/-- The `int` that `morecore` passes to `sbrk`. -/
def sbrkArg (nu : UInt32) : BitVec 32 := BitVec.ofNat 32 (nu.toNat * 16)

/-- `if(nu < 4096) nu = 4096;`. -/
def atLeast4096 (nu : UInt32) : UInt32 := if nu < 4096 then 4096 else nu

/-- `morecore`; it returns 0 or `freep`. -/
def morecore (nu : UInt32) (h : Heap) (k : σ) : Option (ℕ × Heap × σ) := do
  let nu := atLeast4096 nu
  let (p, k) ← sbrk (sbrkArg nu) k
  match p with
  | none => return (0, h, k)
  | some hp =>
    let h ← free fuel (hp + 16) (h.setSize hp nu)
    return (h.freep, h, k)

/-- The block `p` is handed out, `prevp` is before it. -/
def Heap.take (h : Heap) (nunits : UInt32) (prevp p : ℕ) : ℕ × Heap :=
  if (h.mem p).size = nunits then
    (p + 16, { h.setPtr prevp (h.mem p).ptr with freep := prevp })
  else
    let h := h.setSize p ((h.mem p).size - nunits)
    let p := p + 16 * (h.mem p).size.toNat
    (p + 16, { h.setSize p nunits with freep := prevp })

/-- The loop of `malloc`. -/
def mallocLoop (nunits : UInt32) : ℕ → ℕ → ℕ → Heap → σ → Option (ℕ × Heap × σ)
  | 0, _, _, _, _ => none
  | rounds + 1, prevp, p, h, k =>
    if nunits ≤ (h.mem p).size then
      let (ap, h) := h.take nunits prevp p
      some (ap, h, k)
    else if p = h.freep then do
      let (p, h, k) ← morecore sbrk fuel nunits h k
      if p = 0 then return (0, h, k)
      else mallocLoop nunits rounds p (h.mem p).ptr h k
    else mallocLoop nunits rounds p (h.mem p).ptr h k

/-- `(nbytes + sizeof(Header) - 1)/sizeof(Header) + 1`. -/
def units (nbytes : UInt32) : UInt32 := UInt32.ofNat ((nbytes.toNat + 16 - 1) / 16 + 1)

/-- `base.s.ptr = freep = prevp = &base; base.s.size = 0;`, for the first call. -/
def Heap.begin (base : ℕ) (h : Heap) : Heap :=
  if h.freep = 0 then { mem := Function.update h.mem base ⟨base, 0⟩, freep := base } else h

/-- `malloc`; 0 is a null pointer. -/
def malloc (base : ℕ) (nbytes : UInt32) (h : Heap) (k : σ) : Option (ℕ × Heap × σ) :=
  let h := h.begin base
  mallocLoop sbrk fuel (units nbytes) fuel h.freep (h.mem h.freep).ptr h k

end

/-! ### Programs -/

/-- What `sbrk` will answer, and what it has given: the start and the number of bytes of each piece. -/
structure Sbrk where
  answers : List (Option ℕ)
  regions : List (ℕ × ℕ)

def Sbrk.call (n : BitVec 32) (k : Sbrk) : Option (Option ℕ × Sbrk) :=
  match k.answers with
  | some p :: answers => some (some p, ⟨answers, (p, n.toNat) :: k.regions⟩)
  | none :: answers => some (none, ⟨answers, k.regions⟩)
  | [] => some (none, k)

structure St where
  heap : Heap
  /-- The live blocks: the pointer that `malloc` returned, and the size it was asked for. -/
  live : List (ℕ × ℕ)
  regions : List (ℕ × ℕ)

/-- The number of units of the block with header `a`. -/
def Heap.units (h : Heap) (a : ℕ) : ℕ := (h.mem a).size.toNat

/-- The 16 bytes from `a` on touch what the program may write in a live block. -/
def St.touches (s : St) (a : ℕ) : Prop :=
  ∃ x ∈ s.live, a < x.1 - 16 + 16 * s.heap.units (x.1 - 16) ∧ x.1 < a + 16

instance (s : St) (a : ℕ) : Decidable (s.touches a) := by
  unfold St.touches
  infer_instance

inductive Op where
  | malloc (nbytes : UInt32) (answers : List (Option ℕ))
  | free (ap : ℕ)
  /-- The program writes to its blocks. -/
  | store (bytes : ℕ → Header)

/-- One call, for a program with `base` at a given address; `none` when it does not come to its end. -/
def St.step (base fuel : ℕ) (s : St) : Op → Option St
  | .malloc nbytes answers =>
    (malloc Sbrk.call fuel base nbytes s.heap ⟨answers, s.regions⟩).map fun r =>
      ⟨r.2.1, if r.1 = 0 then s.live else (r.1, nbytes.toNat) :: s.live, r.2.2.regions⟩
  | .free ap => (free fuel ap s.heap).map fun h => ⟨h, s.live.filter (·.1 ≠ ap), s.regions⟩
  | .store bytes =>
    some ⟨{ s.heap with mem := fun a => if s.touches a then bytes a else s.heap.mem a }, s.live, s.regions⟩

/-- Before the first call. -/
def St.start (mem : ℕ → Header) : St := ⟨⟨mem, 0⟩, [], []⟩

end Xv6.Umalloc
