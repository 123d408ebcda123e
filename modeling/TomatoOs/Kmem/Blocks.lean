import TomatoOs.Kmem.Allocator
import TomatoOs.Lib.Zipper

/-!
# The allocator on lists of blocks

What the heap is once its headers are read as records: the list from `base`,
the lists that a reset of `base` has cut off and that only `krealloc` still
reaches, and the break. The operations below are the allocator's on these
lists, without memory, wrapping or loops. `Ordered` is the invariant behind
isolation. It allows gaps: a released tail leaves the list, but its bytes stay
below the break.
-/

namespace TomatoOs.Kmem

open Lib

/-- One header; `next` is the list's business. -/
structure Blk where
  addr : Nat
  size : Nat
  free : Bool
  prev : Nat
  deriving DecidableEq, Repr

def Blk.data (b : Blk) : Nat := b.addr + metaBlockSize

def Blk.fin (b : Blk) : Nat := b.addr + metaBlockSize + b.size

structure Arena where
  stale : List (List Blk)
  chain : List Blk
  brk : Nat

def Arena.lists (A : Arena) : List (List Blk) := A.stale ++ [A.chain]

def Arena.blocks (A : Arena) : List Blk := A.stale.flatten ++ A.chain

-- ---------------------------------------------------------------------------
-- Operations
-- ---------------------------------------------------------------------------

def setPrev (p : Nat) : List Blk → List Blk
  | [] => []
  | c :: rest => { c with prev := p } :: rest

def Blk.remainder (b : Blk) (s : Nat) : Blk :=
  { addr := b.data + s, size := b.size - s - metaBlockSize, free := true, prev := b.addr }

def cut (b : Blk) (s : Nat) (rest : List Blk) : List Blk :=
  if metaBlockSize + 4 ≤ b.size - s then
    { b with size := s } :: b.remainder s :: setPrev (b.data + s) rest
  else b :: rest

def Blk.join (b c : Blk) : Blk := { b with size := b.size + metaBlockSize + c.size }

def mergeNext (b : Blk) : List Blk → List Blk
  | [] => [b]
  | c :: rest =>
    if c.free then b.join c :: setPrev b.addr rest else b :: { c with prev := b.addr } :: rest

def fits (s : Nat) (b : Blk) : Bool := b.free && s ≤ b.size

def Arena.kmalloc (A : Arena) (endp n : Nat) : Arena × Nat :=
  match findSplit (fits (align4 n)) A.chain with
  | some (pre, b, post) =>
    ({ A with chain := pre ++ cut { b with free := false } (align4 n) post }, b.data)
  | none =>
    if A.brk + metaBlockSize + align4 n ≤ endp then
      let b : Blk := { addr := A.brk, size := align4 n, free := false, prev := 0 }
      ({ A with chain := A.chain ++ [b], brk := b.fin }, b.data)
    else (A, 0)

/-- The last part of `kfree`: the free block `b` is merged with its successor.
With none it leaves the list, and with no `prev` the list is forgotten. -/
def Arena.release (A : Arena) (pre : List Blk) (b : Blk) (post : List Blk) : Arena :=
  if post ≠ [] then { A with chain := pre ++ mergeNext b post }
  else if b.prev ≠ 0 then { A with chain := pre }
  else { A with stale := A.stale ++ [pre ++ [b]], chain := [] }

def Arena.freeAt (A : Arena) (pre : List Blk) (b : Blk) (post : List Blk) : Arena :=
  match pre.getLast? with
  | some x =>
    if b.prev ≠ 0 ∧ x.free then A.release pre.dropLast (x.join b) (setPrev x.addr post)
    else A.release pre { b with free := true } post
  | none => A.release pre { b with free := true } post

def holds (p : Nat) (b : Blk) : Bool := b.data == p

def Arena.kfree (A : Arena) (p : Nat) : Arena :=
  match findSplit (holds p) A.chain with
  | some (pre, b, post) => if p < A.brk then A.freeAt pre b post else A
  | none => A

def updateAt (p : Nat) (f : Blk → List Blk → List Blk) (l : List Blk) : List Blk :=
  match findSplit (holds p) l with
  | some (pre, b, post) => pre ++ f b post
  | none => l

def Arena.update (A : Arena) (p : Nat) (f : Blk → List Blk → List Blk) : Arena :=
  { A with stale := A.stale.map (updateAt p f), chain := updateAt p f A.chain }

def grow (s : Nat) (b : Blk) : List Blk → List Blk
  | [] => [b]
  | c :: rest => cut (b.join c) s (setPrev b.addr rest)

def Arena.lookup (A : Arena) (p : Nat) : Option (Blk × List Blk) :=
  A.lists.findSome? fun l => (findSplit (holds p) l).map fun (_, b, post) => (b, post)

def Arena.move (A : Arena) (endp p n : Nat) : Arena × Nat :=
  if (A.kmalloc endp n).2 = 0 then A.kmalloc endp n
  else ((A.kmalloc endp n).1.kfree p, (A.kmalloc endp n).2)

def Arena.krealloc (A : Arena) (endp p n : Nat) : Arena × Nat :=
  if p = 0 then A.kmalloc endp n
  else if n = 0 then (A.kfree p, 0)
  else
    match A.lookup p with
    | none => (A, 0)
    | some (b, post) =>
      if align4 n ≤ b.size then (A.update p fun b post => cut b (align4 n) post, p)
      else if ∃ c ∈ post.head?, c.free ∧ align4 n ≤ (b.join c).size then
        (A.update p (grow (align4 n)), p)
      else A.move endp p n

end TomatoOs.Kmem
