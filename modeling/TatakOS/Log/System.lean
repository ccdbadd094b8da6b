import TatakOS.Base.Run
import TatakOS.Log.Cache
import TatakOS.Log.Header

/-!
# The log over the buffer cache

The processes run file-system operations (`begin_op`, then `bread`, changes of the data,
`log_write` and `brelse` in any order, then `end_op`), and read blocks outside operations. The
process whose `end_op` is the last of its group runs `commit`. The machine may crash at any
moment: all but the disk is lost, and the first process of the next boot runs `recover_from_log`.

`State.groups` records the groups whose header write has reached the disk, and `State.pending` the
group in progress.
-/

namespace TatakOS.Logging

open Function

/-- Where the superblock puts the log: `sb.logstart` and `sb.nlog`. The first block is the header. -/
structure Geom where
  start : ℕ
  size : ℕ
  pos : 0 < size

/-- The block is not part of the log. -/
def Geom.home (g : Geom) (b : ℕ) : Prop := b < g.start ∨ g.start + g.size ≤ b

instance (g : Geom) (b : ℕ) : Decidable (g.home b) := inferInstanceAs (Decidable (_ ∨ _))

/-- Where one round of the loop of `write_log` or `install_trans` is: at `bread` of the log block,
at `bread` of the other block, `memmove`, `bwrite`, `bunpin`, and the two `brelse`. -/
inductive Copy
  | log
  | home
  | move
  | write
  | unpin
  | fst
  | snd
  deriving DecidableEq, Repr

/-- Where `write_head` or `read_head` is. -/
inductive Head
  | read
  | fill
  | write
  | rel
  deriving DecidableEq, Repr

/-- Which `write_head`: the first of `commit`, the second, or that of `recover_from_log`. -/
inductive Why
  | commit
  | clear
  | recover
  deriving DecidableEq, Repr

/-- What a process is doing. -/
inductive Job
  | idle
  /-- Between `begin_op` and `end_op`. -/
  | op
  | writeLog (tail : ℕ) (k : Copy)
  | writeHead (w : Why) (k : Head)
  | install (recovering : Bool) (tail : ℕ) (k : Copy)
  | readHead (k : Head)
  /-- In `end_op` after `commit`. -/
  | endCommit
  /-- At the end of `recover_from_log`. -/
  | recovered
  deriving DecidableEq, Repr

structure Thread extends Hold where
  job : Job := .idle

structure State (T : Type) where
  cache : Cache T
  log : Log
  th : T → Thread
  /-- `recover_from_log` has been run since the last boot. -/
  up : Bool
  pending : ℕ → Option Block
  groups : List (ℕ → Option Block)

variable {T : Type} [DecidableEq T]

@[simps -fullyApplied]
def State.setTh (s : State T) (t : T) (x : Thread) : State T :=
  { s with th := update s.th t x }

/-- The machine boots on a disk, and process `t` runs `recover_from_log`. -/
def boot (g : Geom) (disk : ℕ → Block) (t : T) (groups : List (ℕ → Option Block)) : State T where
  cache := binit disk
  log := { size := g.size }
  th := update (fun _ => {}) t { job := .readHead .read }
  up := false
  pending := fun _ => none
  groups := groups

/-- What an operation does next. -/
inductive Choice
  | begin
  | bread (b : ℕ)
  | modify (i : BufId) (d : Block)
  | logWrite (i : BufId)
  | brelse (i : BufId)
  | done
  | go

/-- Where the code goes on when `bread` returns. -/
def Job.afterBread : Job → Job
  | .writeLog tail .log => .writeLog tail .home
  | .writeLog tail .home => .writeLog tail .move
  | .install r tail .log => .install r tail .home
  | .install r tail .home => .install r tail .move
  | .writeHead w .read => .writeHead w .fill
  | .readHead .read => .readHead .fill
  | j => j

/-- The first part of `bread(b)`. -/
def State.bread (s : State T) (t : T) (b : ℕ) : Option (State T) :=
  (s.cache.bget b).map fun (i, c) => { s.setTh t { s.th t with io := .lock i } with cache := c }

/-- The first part of `brelse`, after which `t` goes on at `j`. A buffer that was changed is
logged or written before it is released. -/
def State.brelse (s : State T) (t : T) (i : BufId) (j : Job) : Option (State T) :=
  let x := s.th t
  if i ∈ x.regs ∧ i ∉ x.dirty then
    some { s.setTh t { x with io := .put i, regs := x.regs.erase i, job := j } with
      cache := s.cache.unlock i }
  else none

/-- `t` changes the data of the buffer and goes on at `j`. -/
def State.setData (s : State T) (t : T) (i : BufId) (d : Block) (j : Job) : State T :=
  let x := s.th t
  { s.setTh t { x with dirty := i :: x.dirty, job := j } with cache := s.cache.setData i d }

/-- `bwrite` by `t`, which goes on at `j`. -/
def State.bwrite (s : State T) (t : T) (i : BufId) (j : Job) : State T :=
  let x := s.th t
  { s.setTh t { x with dirty := x.dirty.filter (· ≠ i), job := j } with
    cache := s.cache.bwrite i }

def State.goto (s : State T) (t : T) (j : Job) : State T := s.setTh t { s.th t with job := j }

/-- `log_write` by `t`. -/
def State.logWrite (g : Geom) (s : State T) (t : T) (i : BufId) : Option (State T) :=
  let x := s.th t
  let b := (s.cache.buf i).blockno
  if i ∈ x.regs ∧ g.home b ∧ b < 2 ^ 32 then
    match Logging.logWrite s.log b with
    | .ok (l, new) =>
      some { s.setTh t { x with dirty := x.dirty.filter (· ≠ i) } with
        log := l
        cache := if new then s.cache.bpin i else s.cache
        pending := update s.pending b (some (s.cache.buf i).data) }
    | .error _ => none
  else none

/-- Outside an operation. -/
def idleStep (s : State T) (t : T) : Choice → Option (State T)
  | .begin =>
    if s.up ∧ (s.th t).regs = [] then
      (beginOp s.log).map fun l => { s.goto t .op with log := l }
    else none
  | .bread b => if s.up then s.bread t b else none
  | .brelse i => s.brelse t i .idle
  | _ => none

/-- Inside an operation. -/
def inOpStep (g : Geom) (s : State T) (t : T) : Choice → Option (State T)
  | .bread b => s.bread t b
  | .modify i d =>
    if i ∈ (s.th t).regs ∧ g.home (s.cache.buf i).blockno then some (s.setData t i d .op) else none
  | .logWrite i => s.logWrite g t i
  | .brelse i => s.brelse t i .op
  | .done =>
    if (s.th t).regs = [] then
      match endOp s.log with
      | .ok (l, doCommit) =>
        -- `commit` does nothing if no block was logged
        let j := if doCommit then if 0 < l.lh.length then .writeLog 0 .log else .endCommit
          else .idle
        some { s.goto t j with log := l }
      | .error _ => none
    else none
  | _ => none

/-- A step of `write_log` in round `tail`. -/
def writeLogStep (g : Geom) (s : State T) (t : T) (tail : ℕ) (k : Copy) : Option (State T) :=
  match k, (s.th t).regs with
  | .log, _ =>
    if tail < s.log.lh.length then s.bread t (g.start + tail + 1)
    else some (s.goto t (.writeHead .commit .read))
  | .home, _ => s.bread t (s.log.lh.getD tail 0)
  | .move, src :: dst :: _ =>
    some (s.setData t dst (s.cache.buf src).data (.writeLog tail .write))
  | .write, _ :: dst :: _ => some (s.bwrite t dst (.writeLog tail .fst))
  | .fst, src :: _ => s.brelse t src (.writeLog tail .snd)
  | .snd, dst :: _ => s.brelse t dst (.writeLog (tail + 1) .log)
  | _, _ => none

/-- A step of `install_trans(recovering)` in round `tail`; `log.lh.n = 0` follows its loop. -/
def installStep (g : Geom) (s : State T) (t : T) (r : Bool) (tail : ℕ) (k : Copy) :
    Option (State T) :=
  match k, (s.th t).regs with
  | .log, _ =>
    if tail < s.log.lh.length then s.bread t (g.start + tail + 1)
    else
      some { s.goto t (.writeHead (if r then .recover else .clear) .read) with
        log := { s.log with lh := [] } }
  | .home, _ => s.bread t (s.log.lh.getD tail 0)
  | .move, dst :: src :: _ =>
    some (s.setData t dst (s.cache.buf src).data (.install r tail .write))
  | .write, dst :: _ :: _ =>
    some (s.bwrite t dst (.install r tail (if r then .fst else .unpin)))
  | .unpin, dst :: _ =>
    some { s.goto t (.install r tail .fst) with cache := s.cache.bunpin dst }
  | .fst, _ :: src :: _ => s.brelse t src (.install r tail .snd)
  | .snd, dst :: _ => s.brelse t dst (.install r (tail + 1) .log)
  | _, _ => none

/-- What follows a `write_head`. -/
def Why.next : Why → Job
  | .commit => .install false 0 .log
  | .clear => .endCommit
  | .recover => .recovered

/-- A step of `write_head`. The `bwrite` of the first one of `commit` is the commit point. -/
def writeHeadStep (g : Geom) (s : State T) (t : T) (w : Why) (k : Head) : Option (State T) :=
  match k, (s.th t).regs with
  | .read, _ => s.bread t g.start
  | .fill, i :: _ =>
    some (s.setData t i (putHead s.log.lh (s.cache.buf i).data) (.writeHead w .write))
  | .write, i :: _ =>
    let s' := s.bwrite t i (.writeHead w .rel)
    if w = .commit then
      some { s' with groups := s.groups ++ [s.pending], pending := fun _ => none }
    else some s'
  | .rel, i :: _ => s.brelse t i w.next
  | _, _ => none

def readHeadStep (g : Geom) (s : State T) (t : T) (k : Head) : Option (State T) :=
  match k, (s.th t).regs with
  | .read, _ => s.bread t g.start
  | .fill, i :: _ =>
    (getHead (s.cache.buf i).data).map fun lh =>
      { s.goto t (.readHead .rel) with log := { s.log with lh := lh } }
  | .rel, i :: _ => s.brelse t i (.install true 0 .log)
  | _, _ => none

/-- The next step of `t`. -/
def exec (g : Geom) (s : State T) (t : T) (a : Choice) : Option (State T) :=
  let x := s.th t
  match x.io with
  | .lock i =>
    if (s.cache.buf i).lockedBy = none then
      some { s.setTh t { x with io := .fill i } with cache := s.cache.lock t i }
    else none
  | .fill i =>
    some { s.setTh t { x with io := .ready, regs := i :: x.regs, job := x.job.afterBread } with
      cache := s.cache.fill i }
  | .put i => some { s.setTh t { x with io := .ready } with cache := s.cache.put i }
  | .ready =>
    match x.job with
    | .idle => idleStep s t a
    | .op => inOpStep g s t a
    | .writeLog tail k => writeLogStep g s t tail k
    | .writeHead w k => writeHeadStep g s t w k
    | .install r tail k => installStep g s t r tail k
    | .readHead k => readHeadStep g s t k
    | .endCommit => some { s.goto t .idle with log := { s.log with committing := false } }
    | .recovered => some { s.goto t .idle with up := true }

inductive Act (T : Type)
  | exec (t : T) (a : Choice)
  /-- The machine crashes and boots again, with `t` as the first process. -/
  | crash (t : T)

def step (g : Geom) (s : State T) : Act T → Option (State T)
  | .exec t a => exec g s t a
  | .crash t => some (boot g s.cache.disk t s.groups)

/-! ## What a recovered disk should hold -/

/-- The effect of a group on the blocks. -/
def applyGroup (disk : ℕ → Block) (w : ℕ → Option Block) : ℕ → Block :=
  fun b => (w b).getD (disk b)

/-- The effect of groups, one after the other. -/
def applyGroups (disk : ℕ → Block) (ws : List (ℕ → Option Block)) : ℕ → Block :=
  ws.foldl applyGroup disk

end TatakOS.Logging
