import TomatoOs.Lib.Slots
import TomatoOs.Lib.Words
import TomatoOs.Lib.Runs
import TomatoOs.Lib.Zipper

/-!
# The in-memory file system

`vfs.c`, from a successful `init_vfs` on: one directory of entries, a table of
inodes and a table of data blocks. An inode is free if its mode is zero. A block
has no such mark: it counts as free if its first byte is zero.

Names, file data and block contents are C strings, up to the terminator. What
`memcpy` copies behind it is never looked at.
-/

namespace TomatoOs.Fs

open Lib

abbrev Str := List { c : BitVec 8 // c ≠ 0 }

def maxFiles : Nat := 100
def maxFilename : Nat := 256
def maxDatablocks : Nat := 50
def maxBlockNumber : Nat := 50
def vfsBlockSize : Nat := 4096
def initialCapacity : Nat := 200

def noBlock : Nat := 4294967295

structure Inode where
  mode : Nat
  size : Nat
  blocks : List Nat
  deriving DecidableEq, Repr

structure File where
  name : Str
  inodeNumber : Nat
  deriving DecidableEq

/-- `files` is the root directory's array up to `file_count`. -/
structure Vfs where
  files : List File
  capacity : Nat
  inodes : Nat → Inode
  blocks : Nat → Str
  totalFiles : Int
  totalSize : Nat
  inodeCount : Nat
  freeBlocks : Nat

def Inode.free : Inode := { mode := 0, size := 0, blocks := List.replicate maxBlockNumber noBlock }

def initVfs : Vfs :=
  { files := [], capacity := initialCapacity, inodes := fun _ => .free, blocks := fun _ => [],
    totalFiles := 0, totalSize := 0, inodeCount := maxFiles, freeBlocks := maxDatablocks }

def Vfs.freeInode (s : Vfs) : Option Nat := firstSlot (fun i => (s.inodes i).mode = 0) maxFiles

/-- `data[0] == 0` -/
def Vfs.freeBlock (s : Vfs) : Option Nat := firstSlot (fun i => s.blocks i = []) maxDatablocks

def Vfs.find (s : Vfs) (name : Str) : Option (List File × File × List File) :=
  findSplit (fun f => f.name = name) s.files

/-- The array of entries grows if it is full. If `krealloc` fails the entries
are lost. -/
def Vfs.reserve (s : Vfs) (grown : Bool) : Option Vfs :=
  if s.files.length < s.capacity then some s
  else if grown then some { s with capacity := s.capacity * 2 } else none

def Vfs.addFile (s : Vfs) (name data : Str) (inodeNum blockNum : Nat) : Vfs :=
  { s with
    inodes := Function.update s.inodes inodeNum
      { mode := 0o644, size := data.length % 2 ^ 32,
        blocks := (s.inodes inodeNum).blocks.set 0 blockNum }
    blocks := Function.update s.blocks blockNum (data.take vfsBlockSize)
    files := s.files ++ [{ name := name.take (maxFilename - 1), inodeNumber := inodeNum }]
    totalFiles := s.totalFiles + 1
    totalSize := wadd 64 s.totalSize data.length
    freeBlocks := wsub 32 s.freeBlocks 1
    inodeCount := wsub 32 s.inodeCount 1 }

/-- `none`: the call indexes `data_blocks` with -1, or loses the entries.
`grown` is the outcome of a `krealloc`. -/
def createFile (s : Vfs) (name data : Str) (grown : Bool) : Option (Vfs × Int) :=
  (s.reserve grown).bind fun s =>
    match s.freeInode with
    | none => some (s, -1)
    | some inodeNum =>
      match s.freeBlock with
      | none => none
      | some blockNum => some (s.addFile name data inodeNum blockNum, 0)

/-- The string at the pointer returned. -/
def readFile (s : Vfs) (name : Str) : Option Str :=
  match s.find name with
  | none => none
  | some (_, f, _) =>
    let inode := s.inodes f.inodeNumber
    if inode.mode = 0o755 then none
    else
      let blockNumber := inode.blocks.getD 0 noBlock
      if blockNumber = noBlock then none else some (s.blocks blockNumber)

def Vfs.clearBlock (s : Vfs) (blocknum : Nat) : Vfs :=
  if blocknum ≠ noBlock then
    { s with blocks := Function.update s.blocks blocknum [], freeBlocks := wadd 32 s.freeBlocks 1 }
  else s

/-- The entry `f` goes, with the blocks and the inode it refers to. The size is
subtracted after the inode is reset. -/
def Vfs.dropFile (s : Vfs) (before : List File) (f : File) (behind : List File) : Vfs :=
  let s := (s.inodes f.inodeNumber).blocks.foldl Vfs.clearBlock s
  let inodes := Function.update s.inodes f.inodeNumber .free
  { s with
    inodes
    inodeCount := wadd 32 s.inodeCount 1
    files := before ++ behind
    totalFiles := s.totalFiles - 1
    totalSize := wsub 64 s.totalSize (inodes f.inodeNumber).size }

def deleteFile (s : Vfs) (name : Str) : Vfs × Int :=
  match s.find name with
  | none => (s, -1)
  | some (before, f, behind) => (s.dropFile before f behind, 0)

def Vfs.addDirectory (s : Vfs) (name : Str) (inodeNumber : Nat) : Vfs :=
  { s with
    inodes := Function.update s.inodes inodeNumber
      { mode := 0o755, size := 0, blocks := List.replicate maxBlockNumber noBlock }
    files := s.files ++ [{ name := name.take (maxFilename - 1), inodeNumber }]
    totalFiles := s.totalFiles + 1
    inodeCount := wsub 32 s.inodeCount 1 }

/-- `dir` and `files` are the outcomes of the two calls of `kmalloc`. An entry
of the same name is reported and nothing else. `none`: the call indexes
`inode_table` with -1, or loses the entries. -/
def createDirectory (s : Vfs) (name : Str) (dir files grown : Bool) : Option (Vfs × Int) :=
  if name.length > maxFilename then some (s, -1)
  else if ¬dir then some (s, -1)
  else if ¬files then some (s, -1)
  else
    match s.freeInode with
    | none => none
    | some inodeNumber =>
      (s.reserve grown).bind fun s => some (s.addDirectory name inodeNumber, 0)

inductive VfsOp
  | createFile (name data : Str) (grown : Bool)
  | createDirectory (name : Str) (dir files grown : Bool)
  | deleteFile (name : Str)

def Vfs.call (s : Vfs) : VfsOp → Option (Vfs × Int)
  | .createFile name data grown => createFile s name data grown
  | .createDirectory name dir files grown => createDirectory s name dir files grown
  | .deleteFile name => some (deleteFile s name)

def Vfs.step (s : Vfs) (op : VfsOp) : Option Vfs := (s.call op).map Prod.fst

end TomatoOs.Fs
