import TatakOS.Proc.Monitor

/-!
# The console

`consoleread` and `consoleintr`, as code under `cons.lock`. The echo of the characters is left out.
-/

namespace TatakOS.Console

open Monitor (Op Client)

def INPUT_BUF : ℕ := 128

structure Cons where
  buf : ℕ → UInt8
  r : UInt32
  w : UInt32
  e : UInt32

/-- `C('D')`: end of file. -/
def EOF : UInt8 := 4

def LF : UInt8 := 10

/-- The loop of `C('U')`, with as many rounds as there are characters to erase. -/
def killLine : ℕ → Cons → Cons
  | 0, d => d
  | k + 1, d =>
    if d.e ≠ d.w ∧ d.buf ((d.e - 1).toNat % INPUT_BUF) ≠ LF then killLine k { d with e := d.e - 1 }
    else d

/-- What `consoleintr` does to the buffer, and whether it calls `wakeup(&cons.r)`. -/
def consoleintr (c : UInt8) (d : Cons) : Cons × Bool :=
  -- control-P prints the process list
  if c = 16 then (d, false)
  else if c = 21 then (killLine (d.e - d.w).toNat d, false)
  else if c = 8 ∨ c = 0x7f then (if d.e ≠ d.w then { d with e := d.e - 1 } else d, false)
  else if c ≠ 0 ∧ d.e - d.r < UInt32.ofNat INPUT_BUF then
    let c := if c = 13 then LF else c
    let d := { d with buf := Function.update d.buf (d.e.toNat % INPUT_BUF) c, e := d.e + 1 }
    if c = LF ∨ c = EOF ∨ d.e = d.r + UInt32.ofNat INPUT_BUF then ({ d with w := d.e }, true)
    else (d, false)
  else (d, false)

/-- Where a call is; `n` counts down from `target`. -/
inductive Place
  /-- `consoleread`, at `while(n > 0)` and `while(cons.r == cons.w)`. -/
  | readTest (n target : ℤ)
  /-- At `c = cons.buf[cons.r++ % INPUT_BUF]`. -/
  | readTake (n target : ℤ)
  | readRet (result : ℤ)
  | intr (c : UInt8)
  | intrWake
  | intrRet
  deriving DecidableEq, Repr

/-- A call of `consoleread`, or an interrupt. -/
def Place.entry : Place → Bool
  | .readTest n target => n = target
  | .intr _ => true
  | _ => false

/-- The next operation; `copied` says whether `either_copyout` succeeds. -/
def next (copied : Bool) (l : Place) (d : Cons) (killed : Bool) : Op Unit Cons Place :=
  match l with
  | .readTest n target =>
    if 0 < n then
      if d.r = d.w then if killed then .go (.readRet (-1)) d else .sleep () (.readTest n target)
      else .go (.readTake n target) d
    else .go (.readRet (target - n)) d
  | .readTake n target =>
    let c := d.buf (d.r.toNat % INPUT_BUF)
    let d' := { d with r := d.r + 1 }
    if c = EOF then
      if n < target then .go (.readRet (target - n)) { d' with r := d'.r - 1 }
      else .go (.readRet (target - n)) d'
    else if !copied then .go (.readRet (target - n)) d'
    else if c = LF then .go (.readRet (target - (n - 1))) d'
    else .go (.readTest (n - 1) target) d'
  | .intr c =>
    match consoleintr c d with
    | (d', true) => .go .intrWake d'
    | (d', false) => .go .intrRet d'
  | .intrWake => .wakeup () .intrRet
  | .readRet _ | .intrRet => .ret

/-- Any number of readers and interrupts. -/
def client (n : ℕ) : Client n Unit Unit Cons Place Bool where
  lock _ := ()
  entry _ _ l := l.entry
  next a _ l d killed := next a l d killed
  chanLock _ := ()
  waits _ d := d.r = d.w

end TatakOS.Console
