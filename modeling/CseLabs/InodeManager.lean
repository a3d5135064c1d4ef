import CseLabs.Run
import CseLabs.Words

namespace CseLabs.InodeManager

abbrev Bytes := List UInt8

def DISK_SIZE : Nat := 1024 * 1024 * 16
def BLOCK_SIZE : Nat := 512
def BLOCK_NUM : Nat := DISK_SIZE / BLOCK_SIZE
def INODE_NUM : Nat := 1024
def IPB : Nat := 1
def BPB : Nat := BLOCK_SIZE * 8
def IBLOCK (i nblocks : Nat) : Nat := nblocks / BPB + i / IPB + 3
def NDIRECT : Nat := 100
def NINDIRECT : Nat := BLOCK_SIZE / 4
def MAXFILE : Nat := NDIRECT + NINDIRECT
def FILEBLOCK : Nat := IBLOCK INODE_NUM BLOCK_NUM

-- extent_protocol::types
def T_DIR : UInt32 := 1
def T_FILE : UInt32 := 2
def T_SYMLINK : UInt32 := 3

abbrev Data := Block BLOCK_SIZE

section Blocks

-- The disk and the block manager's map.
structure Fs where
  blocks : Nat → Data
  usingBlocks : Nat → Bool
  -- some call of alloc_block has returned 0
  exhausted : Bool := false

-- What ends the server process.
inductive Fault
  | assertion
  | exit
  | nullDereference
  deriving DecidableEq

abbrev Im := EStateM Fault Fs

-- An id out of range leaves the buffer as it was.
def readBlock (id : Nat) (buf : Data) : Im Data := do
  let s ← get
  pure (if id < BLOCK_NUM then s.blocks id else buf)

def writeBlock (id : Nat) (buf : Data) : Im Unit :=
  modify fun s => if id < BLOCK_NUM then { s with blocks := Function.update s.blocks id buf } else s

def firstFree (usingBlocks : Nat → Bool) : Option Nat :=
  (List.range' FILEBLOCK (BLOCK_NUM - FILEBLOCK)).find? fun i => !usingBlocks i

def allocBlock : Im Nat := do
  let s ← get
  match firstFree s.usingBlocks with
  | some i =>
      set { s with usingBlocks := Function.update s.usingBlocks i true }
      pure i
  | none =>
      set { s with exhausted := true }
      pure 0

def freeBlock (id : Nat) : Im Unit :=
  modify fun s => { s with usingBlocks := Function.update s.usingBlocks id false }

end Blocks

section Inodes

-- inode_t
@[ext] structure Inode where
  type : UInt16
  size : UInt32
  atime : UInt32
  mtime : UInt32
  ctime : UInt32
  blocks : Fin (NDIRECT + 1) → UInt32

-- blocks[NDIRECT]
def Inode.indirect (ino : Inode) : UInt32 := ino.blocks (Fin.last NDIRECT)

def Inode.setBlock (ino : Inode) (k : Fin (NDIRECT + 1)) (id : Nat) : Inode :=
  { ino with blocks := Function.update ino.blocks k (UInt32.ofNat id) }

-- The words of an inode_t in memory, type and the padding after it left out.
def Inode.wordAt (ino : Inode) : Nat → UInt32
  | 1 => ino.size
  | 2 => ino.atime
  | 3 => ino.mtime
  | 4 => ino.ctime
  | k => ino.blocks (Fin.ofNat (NDIRECT + 1) (k - 5))

def Inode.ofBlock (b : Data) : Inode where
  type := b.half
  size := b.word 1
  atime := b.word 2
  mtime := b.word 3
  ctime := b.word 4
  blocks := fun k => b.word (k.val + 5)

def Inode.toBlock (ino : Inode) (b : Data) : Data := fun p =>
  if p.val < 2 then digit ino.type.toNat p.val
  else if 4 ≤ p.val ∧ p.val < 4 * (NDIRECT + 6) then digit (ino.wordAt (p.val / 4)).toNat (p.val % 4)
  else b p

def getInode (inum : Nat) : Im (Option Inode) := do
  if INODE_NUM ≤ inum then pure none
  else
    let buf ← readBlock (IBLOCK inum BLOCK_NUM) (fun _ => 0)
    pure (some (Inode.ofBlock buf))

def putInode (inum : Nat) (ino : Inode) : Im Unit := do
  let buf ← readBlock (IBLOCK inum BLOCK_NUM) (fun _ => 0)
  writeBlock (IBLOCK inum BLOCK_NUM) (ino.toBlock buf)

def allocInodeFrom (type : UInt16) (i : Nat) : Nat → Im Nat
  | 0 => pure 1
  | count + 1 => do
      match ← getInode i with
      | none => throw .nullDereference
      | some tnode =>
          if tnode.type = 0 then
            putInode i { tnode with type := type, size := 0, atime := 0, mtime := 0, ctime := 0 }
            pure i
          else allocInodeFrom type (i + 1) count

def allocInode (type : UInt32) : Im Nat := allocInodeFrom type.toUInt16 1 INODE_NUM

def freeInode (inum : Nat) : Im Unit := do
  match ← getInode inum with
  | none => pure ()
  | some ino =>
      if ino.type = 0 then throw .assertion
      else putInode inum { ino with type := 0, size := 0, atime := 0, mtime := 0, ctime := 0 }

end Inodes

section Files

-- What the stack holds, in one call, where the uninitialised buffers are: buf of alloc_nth_block
-- and of get_nth_blockid for a block of the file, and the buffer of read_file or write_file.
structure Stack where
  alloc : Nat → Data
  get : Nat → Data
  file : Data

def Stack.zero : Stack := ⟨fun _ _ => 0, fun _ _ => 0, fun _ => 0⟩

def blocksNum (size : Nat) : Nat := if size = 0 then 0 else (size - 1) / BLOCK_SIZE + 1

def getNthBlockid (junk : Stack) (ino : Inode) (n : Nat) : Im Nat := do
  if h : n < NDIRECT then pure (ino.blocks ⟨n, Nat.lt_succ_of_lt h⟩).toNat
  else if n < MAXFILE then
    if ino.indirect = 0 then throw .assertion
    else
      let buf ← readBlock ino.indirect.toNat (junk.get n)
      pure (buf.word (n - NDIRECT)).toNat
  else throw .exit

-- A new block for entry n of the table in the indirect block.
def allocEntry (junk : Stack) (ino : Inode) (n : Nat) : Im Inode := do
  let buf ← readBlock ino.indirect.toNat (junk.alloc n)
  let id ← allocBlock
  writeBlock ino.indirect.toNat (buf.setWord (n - NDIRECT) (UInt32.ofNat id))
  pure ino

def allocNthBlock (junk : Stack) (ino : Inode) (n : Nat) : Im Inode := do
  if h : n < NDIRECT then
    let id ← allocBlock
    pure (ino.setBlock ⟨n, Nat.lt_succ_of_lt h⟩ id)
  else if n < MAXFILE then
    if ino.indirect = 0 then
      let id ← allocBlock
      allocEntry junk (ino.setBlock (Fin.last NDIRECT) id) n
    else allocEntry junk ino n
  else throw .exit

-- The for loops of write_file and remove_file, count turns from j on.
def allocFrom (junk : Stack) (ino : Inode) (j : Nat) : Nat → Im Inode
  | 0 => pure ino
  | count + 1 => do
      let ino ← allocNthBlock junk ino j
      allocFrom junk ino (j + 1) count

def freeFrom (junk : Stack) (ino : Inode) (j : Nat) : Nat → Im Unit
  | 0 => pure ()
  | count + 1 => do
      let id ← getNthBlockid junk ino j
      freeBlock id
      freeFrom junk ino (j + 1) count

-- The 512 bytes at buf + i * BLOCK_SIZE
def chunk (buf : Bytes) (i : Nat) : Data := fun p => buf.getD (i * BLOCK_SIZE + p.val) 0

def writeFrom (junk : Stack) (ino : Inode) (buf : Bytes) (i : Nat) : Nat → Im Unit
  | 0 => pure ()
  | count + 1 => do
      let id ← getNthBlockid junk ino i
      writeBlock id (chunk buf i)
      writeFrom junk ino buf (i + 1) count

-- temp after memcpy of the last bytes
def lastChunk (junk : Data) (buf : Bytes) (i : Nat) : Data := fun p =>
  if p.val < buf.length % BLOCK_SIZE then buf.getD (i * BLOCK_SIZE + p.val) 0 else junk p

structure Times where
  atime : UInt32
  mtime : UInt32
  ctime : UInt32

-- The two for loops of write_file, at most one of which has turns to take.
def resize (junk : Stack) (ino : Inode) (oldBlocksNum newBlocksNum : Nat) : Im Inode := do
  if oldBlocksNum < newBlocksNum then allocFrom junk ino oldBlocksNum (newBlocksNum - oldBlocksNum)
  else
    freeFrom junk ino newBlocksNum (oldBlocksNum - newBlocksNum)
    pure ino

-- The while loop of write_file and the block after it.
def writeData (junk : Stack) (ino : Inode) (buf : Bytes) : Im Unit := do
  let blockNum := buf.length / BLOCK_SIZE
  writeFrom junk ino buf 0 blockNum
  if buf.length % BLOCK_SIZE ≠ 0 then
    let id ← getNthBlockid junk ino blockNum
    writeBlock id (lastChunk junk.file buf blockNum)

def writeFile (junk : Stack) (now : Times) (inum : Nat) (buf : Bytes) : Im Unit := do
  if MAXFILE * BLOCK_SIZE ≤ buf.length then throw .assertion
  else
    match ← getInode inum with
    | none => pure ()
    | some ino =>
        let ino ← resize junk ino (blocksNum ino.size.toNat) (blocksNum buf.length)
        writeData junk ino buf
        putInode inum { ino with
          size := UInt32.ofNat buf.length, atime := now.atime, mtime := now.mtime, ctime := now.ctime }

-- The loop keeps its buffer from one turn to the next.
def readFrom (junk : Stack) (buf : Data) (ino : Inode) (i : Nat) : Nat → Im (Bytes × Data)
  | 0 => pure ([], buf)
  | count + 1 => do
      let id ← getNthBlockid junk ino i
      let buf ← readBlock id buf
      let (rest, last) ← readFrom junk buf ino (i + 1) count
      pure (List.ofFn buf ++ rest, last)

-- none: the inode does not exist, and the caller's buffer and size stay as they were.
def readFile (junk : Stack) (inum : Nat) : Im (Option Bytes) := do
  match ← getInode inum with
  | none => pure none
  | some ino =>
      let size := ino.size.toNat
      if MAXFILE * BLOCK_SIZE < size then throw .assertion
      else
        let blockNum := size / BLOCK_SIZE
        let (out, buf) ← readFrom junk junk.file ino 0 blockNum
        if size % BLOCK_SIZE ≠ 0 then
          let id ← getNthBlockid junk ino blockNum
          let buf ← readBlock id buf
          pure (some (out ++ (List.ofFn buf).take (size % BLOCK_SIZE)))
        else pure (some out)

-- extent_protocol::attr
structure Attr where
  type : UInt32 := 0
  atime : UInt32 := 0
  mtime : UInt32 := 0
  ctime : UInt32 := 0
  size : UInt32 := 0
  deriving DecidableEq

def getattr (inum : Nat) (a : Attr) : Im Attr := do
  match ← getInode inum with
  | none => pure a
  | some ino =>
      -- a short is extended with its sign
      pure { type := ino.type.toInt16.toInt32.toUInt32, atime := ino.atime, mtime := ino.mtime
             ctime := ino.ctime, size := ino.size }

def removeFile (junk : Stack) (inum : Nat) : Im Unit := do
  match ← getInode inum with
  | none => throw .assertion
  | some ino =>
      let blockNum := blocksNum ino.size.toNat
      freeFrom junk ino 0 blockNum
      if NDIRECT < blockNum then freeBlock ino.indirect.toNat
      freeInode inum

end Files

-- The disk after block_manager(). write_block copies a whole block from the address of sb.
def format (memory : Data) : Fs where
  blocks := Function.update (fun _ _ => 0) 1
    (((memory.setWord 0 (UInt32.ofNat (BLOCK_SIZE * BLOCK_NUM))).setWord 1 (UInt32.ofNat BLOCK_NUM)).setWord 2
      (UInt32.ofNat INODE_NUM))
  usingBlocks := fun i => i < FILEBLOCK

-- inode_manager()
def inodeManager : Im Unit := do
  let rootDir ← allocInode T_DIR
  if rootDir ≠ 1 then throw .exit

section System

inductive Event
  | allocInode (type : UInt32)
  | writeFile (junk : Stack) (now : Times) (inum : Nat) (buf : Bytes)
  | removeFile (junk : Stack) (inum : Nat)

def Event.run : Event → Im Unit
  | .allocInode type => do
      let _ ← InodeManager.allocInode type
      pure ()
  | .writeFile junk now inum buf => InodeManager.writeFile junk now inum buf
  | .removeFile junk inum => InodeManager.removeFile junk inum

-- A call that returns, and in which alloc_block has not returned 0.
def step (s : Fs) (event : Event) : Option Fs :=
  match event.run s with
  | .ok _ next => if next.exhausted then none else some next
  | .error _ _ => none

def Step (s : Fs) (event : Event) (next : Fs) : Prop := step s event = some next

-- The store after inode_manager().
def Initial (s : Fs) : Prop := ∃ memory, inodeManager (format memory) = .ok () s

end System

end CseLabs.InodeManager
