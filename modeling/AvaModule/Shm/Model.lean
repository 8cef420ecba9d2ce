import AvaModule.Ds.Spsc.Sequential

/-! The shared-memory channel of shm/shm.h. A named segment starts zero-filled;
its header is the record of the ring and the ring lies behind it. What the
operating system answers to a request it may refuse is a parameter, and so is
what it lets a mapping do beyond the access that was asked for. -/
namespace AvaModule.Shm
open SpscRing

variable {T : Target}

inductive System where
  | linux
  | windows
  deriving DecidableEq, Repr

inductive Access where
  | readonly
  | writeonly
  | readwrite
  deriving DecidableEq, Repr

/-- The branch that is compiled, and whether a mapping with an access can be read and written. -/
structure Platform where
  system : System
  reads : Access → Bool
  writes : Access → Bool
  readwrite : reads .readwrite ∧ writes .readwrite

/-- Pages that are written can be read as well, as on x86-64. -/
def linux : Platform := ⟨.linux, fun _ => true, fun access => access ≠ .readonly, by decide⟩

structure ShmCfg (T : Target) where
  name : String
  access : Access
  cap : Usz T

/-- The named segments. -/
abbrev Os (T : Target) := String → Option (Spsc T)

/-- Whether the segment can be created, sized and mapped. -/
structure Answers where
  creates : Bool
  truncates : Bool
  maps : Bool

def meacces : Int := 3
def mecreate : Int := 5

/-- The header of a zero-filled segment; `SPSC_POLICY_TRUNCATE` is 0. -/
def zeroFilled : Spsc T := ⟨.truncate, fun _ => 0, 0, 0, 0⟩

/-- Find the segment or create it: `is_creator` and the segments after it, or an
error. `shm_open` leaves the object behind when `ftruncate` fails. -/
def openSegment (P : Platform) (os : Os T) (name : String) (env : Answers) : Except Int Bool × Os T :=
  match P.system, os name with
  | _, some _ => (.ok false, os)
  | .linux, none =>
      if !env.creates then (.error meacces, os)
      else
        let os := Function.update os name (some zeroFilled)
        if !env.truncates then (.error meacces, os) else (.ok true, os)
  | .windows, none =>
      if !env.creates then (.error mecreate, os)
      else (.ok true, Function.update os name (some zeroFilled))

/-- The result of `spsc_init_buf` is dropped. -/
def creatorInit (spsc : Spsc T) (cap : Usz T) : Spsc T :=
  (spscInitBuf spsc (cap >>> 1) .reject).getD spsc

/-- The return value, `is_creator` and the segments; `none` stands for a fault,
a store through a mapping that does not allow it. -/
def shmInit (P : Platform) (os : Os T) (cfg : ShmCfg T) (env : Answers) :
    Option (Int × Bool × Os T) :=
  match openSegment P os cfg.name env with
  | (.error e, os) => some (-e, false, os)
  | (.ok isCreator, os) =>
      if !env.maps then
        some (-meacces, isCreator, if isCreator then Function.update os cfg.name none else os)
      else if !isCreator then some (0, false, os)
      else if isPowerOf2 (cfg.cap >>> 1) && !P.writes cfg.access then none
      else some (0, true, Function.update os cfg.name ((os cfg.name).map (creatorInit · cfg.cap)))

/-- A call stores through the mapping when it moves bytes. -/
def stores : Call T → Spsc T → Bool
  | .write src, spsc => (spscWriteBuf spsc src).1 ≠ 0
  | .read size, spsc => (spscReadBuf spsc size).1 ≠ []

/-- A length is a machine word. -/
def sized : Call T → Bool
  | .write src => src.length < T.modulus
  | .read _ => true

/-- `shm_write` or `shm_read` through a mapping: what the ring call returned and
the segment after it, or `none` for a fault. -/
def shmCall (P : Platform) (cfg : ShmCfg T) (call : Call T) (spsc : Spsc T) : Option (Result × Spsc T) :=
  if sized call && P.reads cfg.access && (P.writes cfg.access || !stores call spsc) then
    some (spscCall call spsc)
  else none

section Offsets

def wordBytes (T : Target) : Nat := T.bits / 8

/-- `sizeof(spsc_t)`: the policy, padded to a word, and four words. -/
def sizeofSpsc (T : Target) : Nat := 5 * wordBytes T

/-- The bytes of the `i`-th word of the header. -/
def headerWord (T : Target) (i : Nat) : List Nat :=
  (List.range (wordBytes T)).map (i * wordBytes T + ·)

def policyBytes : List Nat := List.range 4

/-- The bytes of `size` ring cells from `pos` on, in the two pieces of the copy. -/
def ringBytes (cap pos size : Usz T) : List Nat :=
  let off := pos &&& (cap - 1)
  let first := firstPart cap off size
  (List.range first.toNat).map (sizeofSpsc T + off.toNat + ·) ++
    (List.range (size - first).toNat).map (sizeofSpsc T + ·)

/-- The offsets from `base` a call loads or stores: `wp`, `rp` and `cap`, the
policy when the request does not fit, and the cells it copies. -/
def touches : Call T → Spsc T → List Nat
  | .write src, spsc =>
      let size := (spscPolicy spsc.ePolicy spsc.cap spsc.wp spsc.rp (BitVec.ofNat _ src.length)).1
      headerWord T 3 ++ headerWord T 4 ++ headerWord T 2 ++
        (if BitVec.ofNat _ src.length ≤ spscFree spsc then [] else policyBytes) ++
        (if size = 0 then [] else ringBytes spsc.cap spsc.wp size)
  | .read size, spsc =>
      let avail := spsc.wp - spsc.rp
      let size := if size > avail then avail else size
      headerWord T 4 ++ headerWord T 3 ++
        (if size = 0 then [] else headerWord T 2 ++ ringBytes spsc.cap spsc.rp size)

end Offsets

end AvaModule.Shm
