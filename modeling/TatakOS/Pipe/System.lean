import TatakOS.Proc.Monitor

/-!
# Pipes

`piperead`, `pipewrite` and `pipeclose` on one `struct pipe`, as code under `pi->lock`. A place is
where a call is in the source; `copyin` and `copyout` of a byte may fail at any time, and the byte
that `copyin` fetches is arbitrary.
-/

namespace TatakOS.Pipes

open Monitor (Op Client)

def PIPESIZE : ℕ := 512

structure Pipe where
  data : ℕ → UInt8
  nread : UInt32
  nwrite : UInt32
  readopen : Bool
  writeopen : Bool

/-- What `pipealloc` sets; the page that it gets holds any bytes. -/
def pipealloc (data : ℕ → UInt8) : Pipe where
  data := data
  nread := 0
  nwrite := 0
  readopen := true
  writeopen := true

/-- `pi->nread == pi->nwrite`. -/
def Pipe.empty (d : Pipe) : Bool := d.nread = d.nwrite

/-- `pi->nwrite == pi->nread + PIPESIZE`. -/
def Pipe.full (d : Pipe) : Bool := d.nwrite = d.nread + UInt32.ofNat PIPESIZE

/-- `pi->data[pi->nwrite++ % PIPESIZE] = ch`. -/
def Pipe.put (d : Pipe) (ch : UInt8) : Pipe :=
  { d with data := Function.update d.data (d.nwrite.toNat % PIPESIZE) ch, nwrite := d.nwrite + 1 }

/-- `pi->nread++`. -/
def Pipe.drop (d : Pipe) : Pipe := { d with nread := d.nread + 1 }

def Pipe.close (d : Pipe) (writable : Bool) : Pipe :=
  if writable then { d with writeopen := false } else { d with readopen := false }

/-- `&pi->nread` and `&pi->nwrite`. -/
inductive Chan
  | nread | nwrite
  deriving DecidableEq, Repr

/-- Where a call is; `n` is its argument and `i` counts the bytes. -/
inductive Place
  /-- `piperead`, at `while(pi->nread == pi->nwrite && pi->writeopen)`. -/
  | readTest (n : ℤ)
  /-- At `for(i = 0; i < n; i++)`. -/
  | readCopy (i n : ℤ)
  /-- At `wakeup(&pi->nwrite)`. -/
  | readWake (i : ℤ)
  | readRet (i : ℤ)
  /-- At the `return -1` of a reader that was killed. -/
  | readKilled
  /-- `pipewrite`, at `while(i < n)`. -/
  | writeTest (i n : ℤ)
  /-- At `sleep(&pi->nwrite, &pi->lock)`. -/
  | writeSleep (i n : ℤ)
  /-- At `copyin`. -/
  | writeByte (i n : ℤ)
  /-- At the `wakeup(&pi->nread)` after the loop. -/
  | writeWake (i : ℤ)
  | writeRet (i : ℤ)
  /-- At the `return -1` in the loop. -/
  | writeGone
  /-- `pipeclose`. -/
  | closeSet (writable : Bool)
  | closeWake (writable : Bool)
  | closeRet
  deriving DecidableEq, Repr

def Place.entry : Place → Bool
  | .readTest _ | .writeTest 0 _ | .closeSet _ => true
  | _ => false

/-- The channel that `pipeclose` wakes. -/
def closeChan (writable : Bool) : Chan := if writable then .nread else .nwrite

/-- The next operation. `a` is the byte that `copyin` fetches, or `none` if the copy fails. -/
def next (a : Option UInt8) (l : Place) (d : Pipe) (killed : Bool) : Op Chan Pipe Place :=
  match l with
  | .readTest n =>
    if d.empty && d.writeopen then
      if killed then .go .readKilled d else .sleep .nread (.readTest n)
    else .go (.readCopy 0 n) d
  | .readCopy i n =>
    if i < n then
      if d.empty then .go (.readWake i) d
      else if a = none then .go (.readWake i) d.drop
      else .go (.readCopy (i + 1) n) d.drop
    else .go (.readWake i) d
  | .readWake i => .wakeup .nwrite (.readRet i)
  | .writeTest i n =>
    if i < n then
      if !d.readopen || killed then .go .writeGone d
      else if d.full then .wakeup .nread (.writeSleep i n)
      else .go (.writeByte i n) d
    else .go (.writeWake i) d
  | .writeSleep i n => .sleep .nwrite (.writeTest i n)
  | .writeByte i n =>
    match a with
    | none => .go (.writeWake i) d
    | some ch => .go (.writeTest (i + 1) n) (d.put ch)
  | .writeWake i => .wakeup .nread (.writeRet i)
  | .closeSet w => .go (.closeWake w) (d.close w)
  | .closeWake w => .wakeup (closeChan w) .closeRet
  | .readRet _ | .readKilled | .writeRet _ | .writeGone | .closeRet => .ret

/-- Readers wait while the pipe is empty and writers while it is full, and the other end is open. -/
def waits : Chan → Pipe → Bool
  | .nread, d => d.empty && d.writeopen
  | .nwrite, d => d.full && d.readopen

/-- Any number of calls on one pipe. -/
def client (n : ℕ) : Client n Unit Chan Pipe Place (Option UInt8) where
  lock _ := ()
  entry _ _ l := l.entry
  next a _ l d killed := next a l d killed
  chanLock _ := ()
  waits := waits

end TatakOS.Pipes
