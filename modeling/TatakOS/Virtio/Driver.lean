import TatakOS.Base.Run
import TatakOS.Base.Ring
import TatakOS.Fs.Disk

/-!
# The driver of the virtio disk

`virtio_disk.c`, for any number of processes that call `virtio_disk_rw`, each with a buffer of its
own, and a device that works at its own pace. The memory that they share is `Disk`. What the driver
does under `vdisk_lock` is cut where the device can notice: the entry of the avail ring is written
in one step and counted in the next. A sleeping process may wake up at any time.
-/

namespace TatakOS.Virtio

open Fs (BSIZE)
open Function

def NUM : ℕ := 8
def VRING_DESC_F_NEXT : ℕ := 1
def VRING_DESC_F_WRITE : ℕ := 2
def VIRTIO_BLK_T_IN : ℕ := 0
def VIRTIO_BLK_T_OUT : ℕ := 1

/-! ## Shared memory -/

/-- What a descriptor may point to: `ops[i]`, the data of a buffer, or `info[i].status`. -/
inductive Addr (B : Type)
  | null
  | op (i : ℕ)
  | data (b : B)
  | status (i : ℕ)
  deriving DecidableEq

/-- `struct virtq_desc`. -/
structure Desc (B : Type) where
  addr : Addr B := .null
  len : ℕ := 0
  flags : ℕ := 0
  next : ℕ := 0

/-- `struct virtio_blk_req`. -/
structure BlkReq where
  type : ℕ := 0
  reserved : ℕ := 0
  sector : ℕ := 0

/-- `virtq_avail` and `virtq_used`: a counter of 16 bits and a ring of descriptor numbers. -/
structure Vring where
  idx : ℕ := 0
  ring : ℕ → ℕ := fun _ => 0

structure Info (B : Type) where
  b : Option B := none
  status : ℕ := 0

/-- `struct disk`, as `virtio_disk_init` leaves it. -/
structure Disk (B : Type) where
  desc : ℕ → Desc B := fun _ => {}
  avail : Vring := {}
  used : Vring := {}
  free : ℕ → Bool := fun i => decide (i < NUM)
  usedIdx : ℕ := 0
  info : ℕ → Info B := fun _ => {}
  ops : ℕ → BlkReq := fun _ => {}

inductive Fault
  | freeDesc1   -- "free_desc 1"
  | freeDesc2   -- "free_desc 2"
  | status      -- "virtio_disk_intr status"
  | nullBuf     -- no panic: `virtio_disk_intr` follows a null pointer
  | badId       -- no panic: a number in a ring is not that of a descriptor
  | badChain    -- no panic: the device finds no request there
  | overrun     -- no panic: an entry of the avail ring is lost
  deriving DecidableEq, Repr

variable {B : Type}

def allocDesc (d : Disk B) : Option ℕ × Disk B :=
  match (List.range NUM).find? d.free with
  | some i => (some i, { d with free := update d.free i false })
  | none => (none, d)

def freeDesc (i : ℕ) (d : Disk B) : Except Fault (Disk B) :=
  if NUM ≤ i then .error .freeDesc1
  else if d.free i then .error .freeDesc2
  else .ok { d with
    desc := update d.desc i {}
    free := update d.free i true }

/-- `free_chain`. It frees a descriptor in each round, so `NUM + 1` rounds are enough. -/
def freeChainLoop : ℕ → ℕ → Disk B → Except Fault (Disk B)
  | 0, _, d => .ok d
  | n + 1, i, d => do
    let flag := (d.desc i).flags
    let nxt := (d.desc i).next
    let d ← freeDesc i d
    if flag &&& VRING_DESC_F_NEXT ≠ 0 then freeChainLoop n nxt d else return d

def freeChain (i : ℕ) (d : Disk B) : Except Fault (Disk B) := freeChainLoop (NUM + 1) i d

/-- `idx[3]`. -/
structure Idx where
  head : ℕ
  data : ℕ
  status : ℕ
  deriving DecidableEq

/-- `alloc3_desc`; `none` is `-1`. -/
def alloc3Desc (d : Disk B) : Except Fault (Option Idx × Disk B) :=
  match allocDesc d with
  | (none, d) => .ok (none, d)
  | (some i, d) =>
    match allocDesc d with
    | (none, d) => do
      let d ← freeDesc i d
      return (none, d)
    | (some j, d) =>
      match allocDesc d with
      | (none, d) => do
        let d ← freeDesc i d
        let d ← freeDesc j d
        return (none, d)
      | (some k, d) => .ok (some ⟨i, j, k⟩, d)

/-- `b->blockno * (BSIZE / 512)`, in 32 bits. -/
def sector (blockno : ℕ) : ℕ := blockno * (BSIZE / 512) % 2 ^ 32

def blkReq (write : Bool) (blockno : ℕ) : BlkReq where
  type := if write then VIRTIO_BLK_T_OUT else VIRTIO_BLK_T_IN
  reserved := 0
  sector := sector blockno

/-- Format the three descriptors, and record the buffer. -/
def format (b : B) (write : Bool) (blockno : ℕ) (t : Idx) (d : Disk B) : Disk B :=
  { d with
    ops := update d.ops t.head (blkReq write blockno)
    desc := update (update (update d.desc
      t.head ⟨.op t.head, 16, VRING_DESC_F_NEXT, t.data⟩)
      t.data ⟨.data b, BSIZE, (if write then 0 else VRING_DESC_F_WRITE) ||| VRING_DESC_F_NEXT,
        t.status⟩)
      t.status ⟨.status t.head, 1, VRING_DESC_F_WRITE, 0⟩
    info := update d.info t.head ⟨some b, 0xff⟩ }

/-! ## The device -/

/-- A request as the device reads it from a chain. -/
structure Request (B : Type) where
  head : ℕ
  req : BlkReq
  buf : B
  /-- The device writes the buffer. -/
  toBuf : Bool
  status : ℕ
  /-- The transfer is done and the status is written. -/
  served : Bool := false

/-- The device follows the chain from descriptor `head`. -/
def readChain (d : Disk B) (head : ℕ) : Option (Request B) :=
  let d0 := d.desc head
  let d1 := d.desc d0.next
  let d2 := d.desc d1.next
  match d0.addr, d1.addr, d2.addr with
  | .op i, .data b, .status j =>
    if d0.flags &&& VRING_DESC_F_NEXT ≠ 0 ∧ d1.flags &&& VRING_DESC_F_NEXT ≠ 0 ∧
        d2.flags &&& VRING_DESC_F_NEXT = 0 ∧ d2.flags &&& VRING_DESC_F_WRITE ≠ 0 then
      some ⟨head, d.ops i, b, d1.flags &&& VRING_DESC_F_WRITE ≠ 0, j, false⟩
    else none
  | _, _, _ => none

/-! ## The system -/

/-- Where a call of `virtio_disk_rw` is. -/
inductive Pc
  | idle
  /-- At the loop around `alloc3_desc`. -/
  | alloc (write : Bool)
  /-- At the write to the avail ring. -/
  | ring (write : Bool) (t : Idx)
  /-- At `disk.avail->idx += 1`. -/
  | bump (write : Bool) (t : Idx)
  /-- At `while(b->disk == 1)`. -/
  | wait (write : Bool) (t : Idx)
  deriving DecidableEq

/-- Who holds `vdisk_lock`: a call for a buffer, or `virtio_disk_intr`. -/
inductive Holder (B : Type)
  | proc (b : B)
  | intr
  deriving DecidableEq

structure State (B : Type) where
  disk : Disk B := {}
  /-- `b->disk`. -/
  bufDisk : B → Bool := fun _ => false
  pc : B → Pc := fun _ => .idle
  lock : Option (Holder B) := none
  /-- How far the device has read the avail ring. -/
  last : ℕ := 0
  /-- The requests that the device works on. -/
  taken : List (Request B) := []
  /-- The buffers of the requests that have been counted in the avail ring, in order. -/
  submitted : List B := []
  /-- The buffers of the requests that the device has put into the used ring, in order. -/
  completed : List B := []
  /-- The buffers whose `disk` field `virtio_disk_intr` has cleared, in order. -/
  cleared : List B := []
  fault : Option Fault := none

/-- No request is in flight; the counters may stand anywhere. After `virtio_disk_init` they are 0. -/
def start (availIdx usedIdx : ℕ) : State B where
  disk := { avail := { idx := availIdx }, used := { idx := usedIdx }, usedIdx := usedIdx }
  last := availIdx

inductive Action (B : Type)
  /-- A process that has `b` locked calls `virtio_disk_rw`. -/
  | call (b : B) (write : Bool)
  /-- `acquire`, also at the end of `sleep`. -/
  | acquire (h : Holder B)
  /-- The call for `b`, which has the lock, goes on. -/
  | rw (b : B)
  /-- A round of the loop of `virtio_disk_intr`. -/
  | intr
  /-- The device takes an entry of the avail ring. -/
  | take
  /-- The device does the transfer and writes the status. -/
  | serve (k : ℕ)
  /-- The device puts a request that it has served into the used ring. -/
  | post (k : ℕ)

section Step

variable [DecidableEq B] (blockno : B → ℕ)

def State.setPc (s : State B) (b : B) (p : Pc) : State B := { s with pc := update s.pc b p }

def State.fail (s : State B) (f : Fault) : State B := { s with fault := some f }

/-- The next part of `virtio_disk_rw`. -/
def rwStep (s : State B) (b : B) : Option (State B) :=
  match s.pc b with
  | .idle => none
  | .alloc write =>
    match alloc3Desc s.disk with
    | .error f => some (s.fail f)
    | .ok (none, d) => some { s with disk := d, lock := none }
    | .ok (some t, d) =>
      some { s.setPc b (.ring write t) with
        disk := format b write (blockno b) t d
        bufDisk := update s.bufDisk b true }
  | .ring write t =>
    if NUM ≤ (s.disk.avail.idx + 2 ^ 16 - s.last) % 2 ^ 16 then some (s.fail .overrun)
    else some { s.setPc b (.bump write t) with
      disk := { s.disk with
        avail := { s.disk.avail with
          ring := update s.disk.avail.ring (s.disk.avail.idx % NUM) t.head } } }
  | .bump write t =>
    some { s.setPc b (.wait write t) with
      disk := { s.disk with
        avail := { s.disk.avail with idx := (s.disk.avail.idx + 1) % 2 ^ 16 } }
      submitted := s.submitted ++ [b] }
  | .wait _ t =>
    if s.bufDisk b then some { s with lock := none }
    else
      let d := { s.disk with
        info := update s.disk.info t.head { s.disk.info t.head with b := none } }
      match freeChain t.head d with
      | .error f => some (s.fail f)
      | .ok d => some { s.setPc b .idle with disk := d, lock := none }

def intrStep (s : State B) : State B :=
  if s.disk.usedIdx = s.disk.used.idx then { s with lock := none }
  else
    let id := s.disk.used.ring (s.disk.usedIdx % NUM)
    if NUM ≤ id then s.fail .badId
    else if (s.disk.info id).status ≠ 0 then s.fail .status
    else
      match (s.disk.info id).b with
      | none => s.fail .nullBuf
      | some b =>
        { s with
          bufDisk := update s.bufDisk b false
          disk := { s.disk with usedIdx := (s.disk.usedIdx + 1) % 2 ^ 16 }
          cleared := s.cleared ++ [b] }

def takeStep (s : State B) : Option (State B) :=
  if s.last = s.disk.avail.idx then none
  else
    let head := s.disk.avail.ring (s.last % NUM)
    if NUM ≤ head then some (s.fail .badId)
    else
      match readChain s.disk head with
      | none => some (s.fail .badChain)
      | some r => some { s with last := (s.last + 1) % 2 ^ 16, taken := s.taken ++ [r] }

def step (s : State B) (a : Action B) : Option (State B) :=
  if s.fault.isSome then none
  else
    match a with
    | .call b write => if s.pc b = .idle then some (s.setPc b (.alloc write)) else none
    | .acquire h =>
      if s.lock.isSome then none
      else
        match h with
        | .intr => some { s with lock := some .intr }
        | .proc b => if s.pc b = .idle then none else some { s with lock := some (.proc b) }
    | .rw b => if s.lock = some (.proc b) then rwStep blockno s b else none
    | .intr => if s.lock = some .intr then some (intrStep s) else none
    | .take => takeStep s
    | .serve k =>
      match s.taken[k]? with
      | none => none
      | some r =>
        if r.served then none
        else some { s with
          disk := { s.disk with
            info := update s.disk.info r.status
              { s.disk.info r.status with status := 0 } }
          taken := s.taken.set k { r with served := true } }
    | .post k =>
      match s.taken[k]? with
      | none => none
      | some r =>
        if r.served then
          some { s with
            disk := { s.disk with
              used := ⟨(s.disk.used.idx + 1) % 2 ^ 16,
                update s.disk.used.ring (s.disk.used.idx % NUM) r.head⟩ }
            taken := s.taken.eraseIdx k
            completed := s.completed ++ [r.buf] }
        else none

end Step

end TatakOS.Virtio
