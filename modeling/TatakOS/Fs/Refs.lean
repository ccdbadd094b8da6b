import TatakOS.Base.Tally
import TatakOS.Fs.Calls

/-!
# References to inodes

What the code below the system calls does to the reference counts of the inode table, on every path:
it gives out one reference with each inode that it returns, and takes back those it is given. The
files, processes and pipes are not changed there.
-/

namespace TatakOS.Fs

open ProcTable (Slot)
open Function

variable {α β : Type} {s : State}

/-- Code never uses a pipe that is no longer there. -/
def PipesLive (e : Panic × State) : Prop := e.1 ≠ .freedPipe

/-- Files, processes and pipes are the same. -/
structure SameFiles (s s' : State) : Prop where
  ftable : s'.ftable = s.ftable
  procs : s'.procs = s.procs
  pipes : s'.pipes = s.pipes

/-- The code adds the references `d` to inodes. -/
def Moves (m : Kern α) (d : α → Ip → ℤ) (s : State) : Prop :=
  Spec m s (fun a s' => SameFiles s s' ∧ ∀ k, (s'.itable k).ref = (s.itable k).ref + d a k) PipesLive

/-- It does so in every state. -/
def Adds (m : Kern α) (d : α → Ip → ℤ) : Prop := ∀ s, Moves m d s

/-- The code adds no references. Most code shows this by its form: that is what the instances are
for. -/
class Quiet (m : Kern α) : Prop where
  adds : Adds m fun _ _ => 0

variable {e : Panic}

section Rules

variable {m : Kern α} {f : α → Kern β} {d : α → Ip → ℤ} {d' : β → Ip → ℤ}

theorem adds_pure {a : α} (h : ∀ k, d a k = 0) : Adds (pure a) d := by
  intro s
  unfold Moves
  rw [spec_pure]
  refine ⟨⟨rfl, rfl, rfl⟩, fun k => ?_⟩
  rw [h, add_zero]

theorem adds_panic (h : e ≠ .freedPipe) : Adds (panic e : Kern α) d := by
  intro s
  unfold Moves
  rw [spec_panic]
  exact h

/-- The second part adds what is missing after the first. -/
theorem Moves.bind (hm : Moves m d s) (hf : ∀ a, Adds (f a) fun b k => d' b k - d a k) :
    Moves (m >>= f) d' s := by
  refine Spec.bind hm fun a s1 h1 => (hf a s1).imp fun b s2 h2 => ⟨?_, fun k => ?_⟩
  · exact ⟨h2.1.ftable.trans h1.1.ftable, h2.1.procs.trans h1.1.procs, h2.1.pipes.trans h1.1.pipes⟩
  · rw [h2.2 k, h1.2 k]
    ring

theorem Moves.then (hm : Moves m (fun _ _ => 0) s) (hf : ∀ a, Adds (f a) d') :
    Moves (m >>= f) d' s := by
  refine hm.bind fun a => ?_
  simp only [sub_zero]
  exact hf a

theorem Adds.bind (hm : Adds m d) (hf : ∀ a, Adds (f a) fun b k => d' b k - d a k) :
    Adds (m >>= f) d' := fun s => (hm s).bind hf

theorem Adds.then [hm : Quiet m] (hf : ∀ a, Adds (f a) d') : Adds (m >>= f) d' :=
  fun s => (hm.adds s).then hf

theorem Adds.congr (h : Adds m d) {e : α → Ip → ℤ} (he : ∀ a k, e a k = d a k) : Adds m e := by
  obtain rfl : e = d := funext fun a => funext (he a)
  exact h

variable {f : State → Kern β}

theorem adds_get_at (h : ∀ s, Moves (f s) d' s) : Adds (get >>= f) d' := by
  intro s
  unfold Moves
  rw [spec_get_bind]
  exact h s

instance quiet_pure {a : α} : Quiet (pure a) := ⟨adds_pure fun _ => rfl⟩

instance quiet_get : Quiet get :=
  ⟨fun _ => spec_get.mpr ⟨⟨rfl, rfl, rfl⟩, fun _ => (add_zero _).symm⟩⟩

instance quiet_bind {f : α → Kern β} [Quiet m] [hf : ∀ a, Quiet (f a)] : Quiet (m >>= f) :=
  ⟨.then fun a => (hf a).adds⟩

instance quiet_ite {c : Prop} [Decidable c] {m' : Kern α} [Quiet m] [Quiet m'] :
    Quiet (if c then m else m') := by
  split <;> infer_instance

theorem quiet_panic (h : e ≠ .freedPipe) : Quiet (panic e : Kern α) := ⟨adds_panic h⟩

theorem quiet_modify {g : State → State} (hg : ∀ s,
    ((g s).ftable, (g s).procs, (g s).pipes, (g s).itable) = (s.ftable, s.procs, s.pipes, s.itable)) :
    Quiet (modify g) := by
  refine ⟨fun s => ?_⟩
  unfold Moves
  rw [spec_modify]
  simp only [Prod.mk.injEq] at hg
  obtain ⟨hf, hp, hpi, hi⟩ := hg s
  refine ⟨⟨hf, hp, hpi⟩, fun k => ?_⟩
  rw [hi, add_zero]

end Rules

variable {ip : Ip}

theorem moves_setInode {x : Inode} {n : ℤ} (h : x.ref = (s.itable ip).ref + n) :
    Moves (setInode ip x) (fun _ k => n * one ip k) s := by
  unfold Moves setInode
  rw [spec_modify]
  refine ⟨⟨rfl, rfl, rfl⟩, fun k => ?_⟩
  show (update s.itable ip x k).ref = (s.itable k).ref + n * one ip k
  by_cases e : k = ip
  · rw [e, update_self, one_self, h, mul_one]
  · rw [update_of_ne e, one_of_ne e, mul_zero, add_zero]

theorem moves_setInode_same {x : Inode} (h : x.ref = (s.itable ip).ref) :
    Moves (setInode ip x) (fun _ _ => 0) s := by
  have hset : Moves (setInode ip x) (fun _ k => 0 * one ip k) s :=
    moves_setInode (by rw [h, add_zero])
  simpa using hset

instance quiet_setDin {g : Dinode → Dinode} : Quiet (setDin ip g) :=
  ⟨adds_get_at fun _ => moves_setInode_same rfl⟩

/-! ## Blocks -/

variable {b : ℕ}

instance quiet_bread : Quiet (bread b) := inferInstanceAs (Quiet (get >>= _))

instance quiet_store {v : Block} : Quiet (store b v) := quiet_modify fun _ => rfl

instance quiet_bwrite {v : Block} : Quiet (bwrite b v) := quiet_modify fun _ => rfl

instance quiet_setLog {l : State → Logging.Log} : Quiet (modify fun s => { s with log := l s }) :=
  quiet_modify fun _ => rfl

instance quiet_logWrite : Quiet (logWrite b) := by
  refine ⟨.then fun _ => ?_⟩
  split
  · exact adds_panic nofun
  · exact Quiet.adds

instance quiet_beginOp : Quiet beginOp := by
  refine ⟨.then fun _ => ?_⟩
  split
  · exact adds_panic nofun
  · exact Quiet.adds

instance quiet_writeLog {tail : ℕ} {bs : List ℕ} : Quiet (writeLog tail bs) := by
  induction bs generalizing tail <;> unfold writeLog <;> infer_instance

instance quiet_installTrans {tail : ℕ} {bs : List ℕ} : Quiet (installTrans tail bs) := by
  induction bs generalizing tail <;> unfold installTrans <;> infer_instance

instance quiet_writeHead : Quiet writeHead := by
  unfold writeHead
  infer_instance

instance quiet_commit : Quiet commit := by
  unfold commit clearHead
  infer_instance

instance quiet_endOp : Quiet endOp := by
  refine ⟨.then fun _ => ?_⟩
  split
  · exact adds_panic nofun
  · exact Quiet.adds

instance quiet_balloc : Quiet balloc := by
  refine ⟨.then fun _ => ?_⟩
  split
  · exact adds_panic nofun
  · unfold bzero
    exact Quiet.adds

instance quiet_bfree : Quiet (bfree b) := by
  have := quiet_panic (α := Unit) (e := .freeingFree) nofun
  unfold bfree
  infer_instance

/-! ## Inodes -/

theorem given_back (n : ℤ) : 0 - n - -n = 0 := by ring

/-- The references that come with a result. -/
def held : Option Ip → Ip → ℤ
  | none, _ => 0
  | some ip, k => one ip k

/-- `iget` hands out a reference to the entry that it returns. -/
theorem adds_iget {inum : ℕ} : Adds (iget inum) one := by
  refine adds_get_at fun s => ?_
  split
  · rename_i ip _
    refine (moves_setInode rfl).bind fun _ => adds_pure fun k => ?_
    ring
  · split
    · exact adds_panic (by decide) s
    · rename_i ip hip
      have href : (s.itable ip).ref = 0 := by simpa using List.find?_some hip
      have hset : ({ s.itable ip with inum := inum, ref := 1, valid := false } : Inode).ref =
          (s.itable ip).ref + 1 := by rw [href, zero_add]
      refine (moves_setInode hset).bind fun _ => adds_pure fun k => ?_
      ring

theorem adds_idup : Adds (idup ip) one := by
  unfold idup
  refine adds_get_at fun _ => (moves_setInode rfl).bind fun _ => adds_pure fun k => ?_
  ring

theorem adds_iallocLoop {type n inum : ℕ} : Adds (iallocLoop type n inum) one := by
  induction n generalizing inum with
  | zero => exact adds_panic nofun
  | succ n ih =>
    refine .then fun _ => ?_
    split_ifs
    · exact .then fun _ => .then fun _ => adds_iget
    · exact ih

theorem adds_ialloc {type : ℕ} : Adds (ialloc type) one :=
  .then fun _ => adds_iallocLoop

instance quiet_iupdate : Quiet (iupdate ip) := by
  unfold iupdate
  infer_instance

instance quiet_ilock : Quiet (ilock ip) := by
  refine ⟨adds_get_at fun s => ?_⟩
  simp only
  split_ifs
  · exact adds_panic (by decide) s
  · exact adds_panic (by decide) s
  · exact moves_setInode_same rfl
  · refine Moves.then ?_ fun _ => adds_panic nofun
    exact moves_setInode_same rfl
  · refine Moves.then ?_ fun _ => Quiet.adds
    exact moves_setInode_same rfl

instance quiet_iunlock : Quiet (iunlock ip) := by
  refine ⟨adds_get_at fun s => ?_⟩
  simp only
  split_ifs
  · exact adds_panic (by decide) s
  · exact moves_setInode_same rfl

instance quiet_bmap {bn : ℕ} : Quiet (bmap ip bn) := by
  have := quiet_panic (α := ℕ) (e := .bmap) nofun
  unfold bmap bmapIndirect
  infer_instance

instance quiet_itruncDirect {is : List ℕ} : Quiet (itruncDirect ip is) := by
  induction is <;> unfold itruncDirect <;> infer_instance

instance quiet_itruncIndirect {js : List ℕ} : Quiet (itruncIndirect b js) := by
  induction js <;> unfold itruncIndirect <;> infer_instance

instance quiet_itrunc : Quiet (itrunc ip) := by
  unfold itrunc itruncRest
  infer_instance

instance quiet_ifree : Quiet (ifree ip) := by
  refine ⟨adds_get_at fun s => ?_⟩
  simp only
  split_ifs
  · exact adds_panic (by decide) s
  · refine Moves.then ?_ fun _ => .then fun _ => .then fun _ => .then fun _ =>
      adds_get_at fun _ => ?_
    · exact moves_setInode_same rfl
    · exact moves_setInode_same rfl

theorem adds_iunref : Adds (iunref ip) (fun _ k => -one ip k) := by
  refine adds_get_at fun s => ?_
  have hset : ({ s.itable ip with ref := (s.itable ip).ref - 1 } : Inode).ref =
      (s.itable ip).ref + -1 := rfl
  have := moves_setInode hset
  simp only [neg_one_mul] at this
  exact this

theorem adds_iput : Adds (iput ip) (fun _ k => -one ip k) := by
  refine .then fun _ => ?_
  simp only
  split_ifs
  · exact .then fun _ => adds_iunref
  · exact adds_iunref

theorem adds_iunlockput : Adds (iunlockput ip) (fun _ k => -one ip k) :=
  .then fun _ => adds_iput

instance quiet_readiLoop {dst : Mem} {k tot off n : ℕ} : Quiet (readiLoop ip dst k tot off n) := by
  induction k generalizing tot off <;> unfold readiLoop <;> infer_instance

variable {off n : ℕ}

instance quiet_readi {dst : Mem} : Quiet (readi ip dst off n) := by
  unfold readi
  infer_instance

instance quiet_writeiLoop {src : Mem} {k tot off n : ℕ} :
    Quiet (writeiLoop ip src k tot off n) := by
  induction k generalizing tot off <;> unfold writeiLoop <;> infer_instance

instance quiet_writei {src : Mem} : Quiet (writei ip src off n) := by
  unfold writei
  infer_instance

/-! ## Directories and paths -/

variable {dp : Ip}

theorem quiet_readEntry {off : ℕ} (he : e ≠ .freedPipe) : Quiet (readEntry dp off e) := by
  have := quiet_panic (α := List UInt8) he
  refine ⟨.then fun r => ?_⟩
  cases r <;> exact Quiet.adds

theorem quiet_writeEntry {off : ℕ} {de : List UInt8} (he : e ≠ .freedPipe) :
    Quiet (writeEntry dp off de e) := by
  have := quiet_panic (α := Unit) he
  refine ⟨.then fun r => ?_⟩
  cases r <;> exact Quiet.adds

/-- The references that come with an inode and something else. -/
def heldFst {γ : Type} (r : Option (Ip × γ)) : Ip → ℤ := held (r.map Prod.fst)

variable {name : List UInt8}

theorem adds_dirlookupLoop {k off : ℕ} : Adds (dirlookupLoop dp name k off) heldFst := by
  induction k generalizing off with
  | zero => exact adds_pure fun _ => rfl
  | succ k ih =>
    have : Quiet (readEntry dp off .dirlookup) := quiet_readEntry nofun
    refine .then fun _ => ?_
    split_ifs
    · refine .then fun de => ?_
      split_ifs
      · exact adds_iget.bind fun ip => adds_pure fun k => sub_self _
      · exact ih
    · exact adds_pure fun _ => rfl

theorem adds_dirlookup : Adds (dirlookup dp name) heldFst := by
  refine .then fun _ => ?_
  simp only
  split_ifs
  · exact adds_panic nofun
  · exact adds_dirlookupLoop

instance quiet_emptyEntry {k off : ℕ} : Quiet (emptyEntry dp k off) := by
  have (off : ℕ) : Quiet (readEntry dp off .dirlinkRead) := quiet_readEntry nofun
  induction k generalizing off <;> unfold emptyEntry <;> infer_instance

instance quiet_dirlink {inum : ℕ} : Quiet (dirlink dp name inum) := by
  have (off : ℕ) (de : List UInt8) : Quiet (writeEntry dp off de .dirlink) := quiet_writeEntry nofun
  refine ⟨adds_dirlookup.bind fun r => ?_⟩
  cases r with
  | none => exact .then fun _ => .then fun _ => .then fun _ => adds_pure fun k => sub_self 0
  | some r => exact adds_iput.bind fun _ => adds_pure fun _ => given_back _

instance quiet_isdiremptyLoop {k off : ℕ} : Quiet (isdiremptyLoop dp k off) := by
  have (off : ℕ) : Quiet (readEntry dp off .isdirempty) := quiet_readEntry nofun
  induction k generalizing off <;> unfold isdiremptyLoop <;> infer_instance

instance quiet_isdirempty : Quiet (isdirempty dp) := by
  unfold isdirempty
  infer_instance

variable {p : Slot}

instance quiet_getProc : Quiet (getProc p) := by
  refine ⟨.then fun _ => ?_⟩
  split
  · exact Quiet.adds
  · exact adds_panic nofun

theorem adds_namexLoop {parent : Bool} {k : ℕ} {path name : List UInt8} :
    Adds (namexLoop parent k ip path name) (fun r j => heldFst r j - one ip j) := by
  induction k generalizing ip path name with
  | zero => exact adds_panic nofun
  | succ k ih =>
    unfold namexLoop
    split
    · split_ifs
      · exact adds_iput.bind fun _ => adds_pure fun _ => given_back _
      · exact adds_pure fun j => sub_self _
    · rename_i name path _
      -- `next` takes the place of `ip`
      have hdrop : Adds (do iunlockput ip; return (none : Option (Ip × List UInt8)))
          (fun r j => heldFst r j - one ip j) := by
        exact adds_iunlockput.bind fun _ => adds_pure fun _ => given_back _
      refine .then fun _ => .then fun _ => ?_
      split_ifs
      · exact hdrop
      · refine .then fun _ => adds_pure fun j => ?_
        exact sub_self _
      · refine adds_dirlookup.bind fun r => ?_
        cases r with
        | none =>
          refine adds_iunlockput.bind fun _ => adds_pure fun j => ?_
          show 0 - one ip j - 0 - -one ip j = 0
          ring
        | some r =>
          refine adds_iunlockput.bind fun _ => ih.congr fun q j => ?_
          show heldFst q j - one ip j - one r.1 j - -one ip j = heldFst q j - one r.1 j
          ring

variable {path : List UInt8}

/-- `namex` gives back all references but that to its result. -/
theorem adds_namex {parent : Bool} : Adds (namex p path parent) heldFst := by
  have hstart : Adds (startDir p path) one := by
    unfold startDir
    split_ifs
    · exact adds_iget
    · exact .then fun _ => adds_idup
  exact hstart.bind fun ip => adds_namexLoop

theorem adds_namei : Adds (namei p path) held :=
  adds_namex.bind fun _ => adds_pure fun _ => sub_self _

/-! ## Creating, linking and removing -/

instance quiet_nlinkInc : Quiet (nlinkInc ip) := quiet_setDin

instance quiet_nlinkDec : Quiet (nlinkDec ip) := quiet_setDin

instance quiet_createDots {dp ip : Ip} : Quiet (createDots dp ip) := by
  have := quiet_panic (α := Unit) (e := .createDots) nofun
  unfold createDots
  infer_instance

theorem adds_createEntry {dp ip : Ip} :
    Adds (createEntry dp ip name) (fun r k => held r k - one ip k - one dp k) := by
  refine .then fun _ => .then fun r => ?_
  split_ifs
  · refine adds_iunlockput.bind fun _ => adds_pure fun k => ?_
    show one ip k - one ip k - one dp k - -one dp k = 0
    ring
  · exact adds_panic nofun

theorem adds_create {type major minor : ℕ} : Adds (create p path type major minor) held := by
  refine adds_namex.bind fun r => ?_
  cases r with
  | none => exact adds_pure fun k => sub_self 0
  | some r =>
    obtain ⟨dp, name⟩ := r
    refine .then fun _ => adds_dirlookup.bind fun r => ?_
    cases r with
    | some r =>
      obtain ⟨ip, off⟩ := r
      refine adds_iunlockput.bind fun _ => .then fun _ => .then fun _ => ?_
      simp only
      split_ifs
      · refine adds_pure fun k => ?_
        show one ip k - one dp k - one ip k - -one dp k = 0
        ring
      · refine adds_iunlockput.bind fun _ => adds_pure fun k => ?_
        show 0 - one dp k - one ip k - -one dp k - -one ip k = 0
        ring
    | none =>
      refine adds_ialloc.bind fun ip => .then fun _ =>
        .then fun _ => .then fun _ => ?_
      -- what is left is what the last part gives back
      have hleft : ∀ {m : Kern (Option Ip)}, Adds m (fun r k => held r k - one ip k - one dp k) →
          Adds m fun r k => held r k - heldFst (some (dp, name)) k -
            heldFst (none : Option (Ip × ℕ)) k - one ip k := by
        refine fun h => h.congr fun r k => ?_
        show held r k - one dp k - 0 - one ip k = held r k - one ip k - one dp k
        ring
      split_ifs
      · exact hleft (.then fun _ => adds_createEntry)
      · exact hleft adds_createEntry

theorem adds_openInode {omode : ℕ} : Adds (openInode p path omode) held := by
  unfold openInode
  split_ifs
  · exact adds_create
  · refine adds_namei.bind fun r => ?_
    cases r with
    | none => exact adds_pure fun k => sub_self _
    | some ip =>
      refine .then fun _ => .then fun _ => ?_
      split_ifs
      · exact adds_iunlockput.bind fun _ => adds_pure fun _ => given_back _
      · exact adds_pure fun k => sub_self _

theorem adds_undoLink : Adds (undoLink ip) (fun _ k => -one ip k) := by
  refine .then fun _ => .then fun _ =>
    .then fun _ => adds_iunlockput.bind fun _ =>
      .then fun _ => adds_pure fun k => ?_
  exact sub_self _

variable {um : UserMem}

theorem quiet_sysLink {old new : ℕ} : Quiet (sysLink p um old new) := by
  constructor
  unfold sysLink
  split
  · rename_i old new _ _
    refine .then fun _ => adds_namei.bind fun r => ?_
    cases r with
    | none => exact .then fun _ => adds_pure fun k => sub_self 0
    | some ip =>
      refine .then fun _ => .then fun _ => ?_
      split_ifs
      · exact adds_iunlockput.bind fun _ => .then fun _ =>
          adds_pure fun _ => given_back _
      · refine .then fun _ => .then fun _ =>
          .then fun _ => adds_namex.bind fun r => ?_
        cases r with
        | none =>
          refine adds_undoLink.congr fun _ k => ?_
          show 0 - one ip k - 0 = -one ip k
          ring
        | some r =>
          obtain ⟨dp, name⟩ := r
          refine .then fun _ => .then fun _ => .then fun r => ?_
          split_ifs
          · refine adds_iunlockput.bind fun _ => adds_iput.bind fun _ =>
              .then fun _ => adds_pure fun k => ?_
            show 0 - one ip k - one dp k - -one dp k - -one ip k = 0
            ring
          · refine adds_iunlockput.bind fun _ => adds_undoLink.congr fun _ k => ?_
            show 0 - one ip k - one dp k - -one dp k = -one ip k
            ring
  · exact Quiet.adds

theorem adds_undoUnlink : Adds (undoUnlink dp) (fun _ k => -one dp k) := by
  refine adds_iunlockput.bind fun _ => .then fun _ => adds_pure fun k => ?_
  exact sub_self _

instance quiet_isdirfull : Quiet (isdirfull ip) := by
  unfold isdirfull
  infer_instance

instance quiet_dropParent {dp ip : Ip} : Quiet (dropParent dp ip) := by
  unfold dropParent
  infer_instance

theorem quiet_sysUnlink {path : ℕ} : Quiet (sysUnlink p um path) := by
  constructor
  unfold sysUnlink
  split
  · exact Quiet.adds
  · rename_i path _
    refine .then fun _ => adds_namex.bind fun r => ?_
    cases r with
    | none => exact .then fun _ => adds_pure fun k => sub_self 0
    | some r =>
      obtain ⟨dp, name⟩ := r
      refine .then fun _ => ?_
      split_ifs
      · exact adds_undoUnlink.congr fun _ k => zero_sub _
      · refine adds_dirlookup.bind fun r => ?_
        cases r with
        | none =>
          refine adds_undoUnlink.congr fun _ k => ?_
          show 0 - one dp k - 0 = -one dp k
          ring
        | some r =>
          obtain ⟨ip, off⟩ := r
          have (de : List UInt8) : Quiet (writeEntry dp off de .unlinkWritei) := quiet_writeEntry nofun
          refine .then fun _ => .then fun _ => ?_
          split_ifs
          · exact adds_panic nofun
          · refine .then fun r => ?_
            split_ifs
            · refine adds_iunlockput.bind fun _ => adds_undoUnlink.congr fun _ k => ?_
              show 0 - one dp k - one ip k - -one ip k = -one dp k
              ring
            · refine .then fun _ => .then fun _ =>
                adds_iunlockput.bind fun _ => .then fun _ =>
                  .then fun _ => adds_iunlockput.bind fun _ =>
                    .then fun _ => adds_pure fun k => ?_
              show 0 - one dp k - one ip k - -one dp k - -one ip k = 0
              ring

theorem quiet_sysCreate {path type major minor : ℕ} :
    Quiet (sysCreate p um path type major minor) := by
  constructor
  refine .then fun _ => ?_
  split
  · exact Quiet.adds
  · refine adds_create.bind fun r => ?_
    cases r with
    | none => exact .then fun _ => adds_pure fun k => sub_self 0
    | some ip =>
      exact adds_iunlockput.bind fun _ => .then fun _ =>
        adds_pure fun _ => given_back _

/-! ## Loading a program -/

instance quiet_readExact : Quiet (readExact ip off n) := by
  unfold readExact
  infer_instance

instance quiet_loadseg {offset sz k i : ℕ} : Quiet (loadseg ip offset sz k i) := by
  induction k generalizing i with
  | zero => exact quiet_pure
  | succ k ih =>
    unfold loadseg
    refine @quiet_ite _ _ _ _ _ ⟨.then fun r => ?_⟩ _
    cases r <;> exact Quiet.adds

variable {luck : Luck}

instance quiet_loadSegments {phoff k i : ℕ} : Quiet (loadSegments ip luck phoff k i) := by
  induction k generalizing i with
  | zero => exact quiet_pure
  | succ k ih =>
    refine ⟨.then fun r => ?_⟩
    cases r <;> exact Quiet.adds

instance quiet_loadImage : Quiet (loadImage ip luck) := by
  refine ⟨.then fun r => ?_⟩
  cases r <;> exact Quiet.adds

theorem quiet_sysExec {path : ℕ} : Quiet (sysExec p um path luck) := by
  constructor
  unfold sysExec
  split
  · exact Quiet.adds
  · split_ifs
    · exact Quiet.adds
    · refine .then fun _ => adds_namei.bind fun r => ?_
      cases r with
      | none => exact .then fun _ => adds_pure fun k => sub_self 0
      | some ip =>
        exact .then fun _ => .then fun _ =>
          adds_iunlockput.bind fun _ => .then fun _ =>
            adds_pure fun _ => given_back _

end TatakOS.Fs
