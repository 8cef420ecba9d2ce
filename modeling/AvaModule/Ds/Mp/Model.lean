import AvaModule.Ds.List
import AvaModule.Lib.Loop
import AvaModule.Lib.Transition

/-! The memory pool of ds/mp.h. Block headers and list links lie in the memory that is
given out. A loop over the free list that does not end, and a lock that is never
released, have the value `none`. -/
namespace AvaModule.MemPool
open ListHead Memory

variable {T : Target}

def mpSize : Nat := 64 * 1024

def mpAlign : Nat := 8

/-- `MP_ALIGN_UP` -/
def alignUp (sz : Usz T) : Usz T := (sz + 7) &&& ~~~7

/-- `mp_blk_t` is a list head and the size of the block. -/
def sizeofBlk (T : Target) : Usz T := BitVec.ofNat _ (3 * wordBytes T)

/-- `MP_BLOCK_HEADER_SIZE` -/
def headerSize (T : Target) : Usz T := alignUp (sizeofBlk T)

/-- `addr` is the address of the pool, which starts with `blk_root`; `buf` follows. -/
structure Mp (T : Target) where
  addr : Usz T
  mem : Nat → Byte
  off : Usz T
  lock : BitVec 32

def Mp.root (mp : Mp T) : Usz T := mp.addr

def Mp.buf (mp : Mp T) : Usz T := mp.addr + BitVec.ofNat _ (2 * wordBytes T)

def sizeOf (m : Nat → Byte) (blk : Usz T) : Usz T := load m (blk.toNat + 2 * wordBytes T)

def setSize (m : Nat → Byte) (blk size : Usz T) : Nat → Byte := store m (blk.toNat + 2 * wordBytes T) size

def spinLock (mp : Mp T) : Option (Mp T) := if mp.lock = 0 then some { mp with lock := 1 } else none

def spinUnlock (mp : Mp T) : Mp T := { mp with lock := 0 }

def mpInit (mp : Mp T) : Mp T := { mp with mem := listInit mp.mem mp.root }

/-- `LIST_FOR_EACH` up to the first block that is large enough. -/
def scan (m : Nat → Byte) (root blockSize : Usz T) : Usz T → Option (Option (Usz T)) :=
  Loop.run ⟨fun node =>
    if node = root then some (.done none)
    else if sizeOf m node < blockSize then some (.next (nextOf m node))
    else some (.done (some node))⟩

/-- The loop that looks for the place of a block in the order of addresses. -/
def seek (m : Nat → Byte) (root block : Usz T) : Usz T → Option (Usz T) :=
  Loop.run ⟨fun pos => if pos ≠ root ∧ pos < block then some (.next (nextOf m pos)) else some (.done pos)⟩

/-- The block is put into the list by its address. -/
def insertByAddr (m : Nat → Byte) (root block : Usz T) : Option (Nat → Byte) := do
  let pos ← seek m root block (nextOf m root)
  return listAddBetween m block (prevOf m pos) pos

/-- The block is taken from the list, and cut if what is left makes a block. -/
def takeBlock (m : Nat → Byte) (root blk blockSize : Usz T) : Option (Nat → Byte) :=
  if sizeOf m blk ≥ blockSize + headerSize T + 8 then
    let m := listDel m blk
    let splitBlk := blk + blockSize
    let m := setSize m splitBlk (sizeOf m blk - blockSize)
    let m := setSize m blk blockSize
    insertByAddr m root splitBlk
  else some (listDel m blk)

/-- The pointer returned is 0 for `NULL`. -/
def mpAlloc (mp : Mp T) (cap : Usz T) : Option (Usz T × Mp T) := do
  let blockSize := headerSize T + alignUp cap
  let mp ← spinLock mp
  match ← scan mp.mem mp.root blockSize (nextOf mp.mem mp.root) with
  | some blk =>
      let m ← takeBlock mp.mem mp.root blk blockSize
      return (blk + headerSize T, spinUnlock { mp with mem := m })
  | none =>
      if mp.off + blockSize > BitVec.ofNat _ mpSize then return (0, spinUnlock mp)
      else
        let freshBlk := mp.buf + mp.off
        let m := setSize mp.mem freshBlk blockSize
        return (freshBlk + headerSize T, spinUnlock { mp with mem := m, off := mp.off + blockSize })

def mpCalloc (mp : Mp T) (cap : Usz T) : Option (Usz T × Mp T) := do
  let (ptr, mp) ← mpAlloc mp cap
  if ptr = 0 then return (0, mp)
  else return (ptr, { mp with mem := write mp.mem ptr.toNat (List.replicate cap.toNat 0) })

def mpFree (mp : Mp T) (ptr : Usz T) : Option (Mp T) :=
  if ptr = 0 then some mp
  else do
    let block := ptr - headerSize T
    let mp ← spinLock mp
    let m ← insertByAddr mp.mem mp.root block
    return spinUnlock { mp with mem := m }

theorem scan_turn (m : Nat → Byte) (root blockSize node : Usz T) :
    scan m root blockSize node =
      if node = root then some none
      else if sizeOf m node < blockSize then scan m root blockSize (nextOf m node)
      else some (some node) := by
  rw [scan, Loop.run_eq]
  dsimp only
  split
  · rfl
  · split <;> rfl

theorem seek_turn (m : Nat → Byte) (root block pos : Usz T) :
    seek m root block pos =
      if pos ≠ root ∧ pos < block then seek m root block (nextOf m pos) else some pos := by
  rw [seek, Loop.run_eq]
  dsimp only
  split <;> rfl

end AvaModule.MemPool
