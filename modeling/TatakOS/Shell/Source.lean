import TatakOS.Base.CString
import TatakOS.Base.Spec

/-!
# The parser of the shell

`gettoken`, `peek` and the `parse` functions share one cursor into the input line; they build the
command tree out of nodes that `malloc` returns, which never fails here, and `nulterminate` then
ends the words of the line in place. Pointers to nodes are positions in the heap, which only grows.
A write outside an array, or through a pointer that points at no node, is a `fault`.
-/

namespace TatakOS.Shell

def MAXARGS : ℕ := 10

/-! ## Characters -/

def lt : UInt8 := 60

def gt : UInt8 := 62

def bar : UInt8 := 124

def amp : UInt8 := 38

def semi : UInt8 := 59

def lpar : UInt8 := 40

def rpar : UInt8 := 41

/-- What `gettoken` returns for `>>`. -/
def plus : UInt8 := 43

/-- What `gettoken` returns for a word. -/
def wordTok : UInt8 := 97

/-- Blank, tab, CR, LF and VT. -/
def whitespace : List UInt8 := [32, 9, 13, 10, 11]

def symbols : List UInt8 := [lt, bar, gt, amp, semi, lpar, rpar]

/-- `strchr` on one of the character sets above, as a truth value. -/
def strchr (s : List UInt8) (c : UInt8) : Bool := s.contains c

/-! ## Nodes -/

/-- The commands. A null pointer in `argv` or `eargv` is `none`. -/
inductive Cmd where
  | exec (argv eargv : List (Option ℕ))
  | redir (cmd file efile mode fd : ℕ)
  | pipe (left right : ℕ)
  | list (left right : ℕ)
  | back (cmd : ℕ)
  deriving DecidableEq, Repr

/-- How the shell's process can stop in the parser. `fuel` is not one of them: it says that the
model was cut short. -/
inductive Stop where
  | panic (msg : String)
  /-- The rest of the line at `s` is printed, and then the panic `syntax`. -/
  | leftovers (s : ℕ)
  | fault
  | fuel
  deriving DecidableEq, Repr

/-- The cursor, and the nodes allocated so far. -/
structure Parser where
  ps : ℕ
  heap : List Cmd
  deriving DecidableEq, Repr

abbrev Parse := Prog Parser Stop

/-- `malloc`, and the stores that fill the node. -/
def alloc (c : Cmd) : Parse ℕ := do
  let st ← get
  set { st with heap := st.heap ++ [c] }
  return st.heap.length

def execcmd : Parse ℕ := alloc (.exec (List.replicate MAXARGS none) (List.replicate MAXARGS none))

def redircmd (subcmd file efile mode fd : ℕ) : Parse ℕ := alloc (.redir subcmd file efile mode fd)

def pipecmd (left right : ℕ) : Parse ℕ := alloc (.pipe left right)

def listcmd (left right : ℕ) : Parse ℕ := alloc (.list left right)

def backcmd (subcmd : ℕ) : Parse ℕ := alloc (.back subcmd)

/-- `cmd->argv[argc] = q` and `cmd->eargv[argc] = eq`. -/
def setArg (cmd argc : ℕ) (q eq : Option ℕ) : Parse Unit := do
  let st ← get
  match st.heap[cmd]? with
  | some (.exec argv eargv) =>
    if argc < argv.length ∧ argc < eargv.length then
      set { st with heap := st.heap.set cmd (.exec (argv.set argc q) (eargv.set argc eq)) }
    else throw .fault
  | _ => throw .fault

/-! ## Tokens -/

/-- The loop `while(s < es && p(*s)) s++`, with `es - s` rounds at most. -/
def advanceLoop (p : UInt8 → Bool) (m : Bytes) : ℕ → ℕ → ℕ
  | 0, s => s
  | n + 1, s => if p (m s) then advanceLoop p m n (s + 1) else s

def advance (p : UInt8 → Bool) (m : Bytes) (es s : ℕ) : ℕ := advanceLoop p m (es - s) s

def isBlank (c : UInt8) : Bool := strchr whitespace c

def isWordChar (c : UInt8) : Bool := !strchr whitespace c && !strchr symbols c

/-- The return value of `gettoken`, and the two pointers it stores. -/
structure Token where
  ret : UInt8
  q : ℕ
  eq : ℕ
  deriving DecidableEq, Repr

/-- The `switch` of `gettoken` at the position `s`. -/
def tokenAt (m : Bytes) (es s : ℕ) : Token :=
  let c := m s
  if c = 0 then ⟨0, s, s⟩
  else if c = bar ∨ c = lpar ∨ c = rpar ∨ c = semi ∨ c = amp ∨ c = lt then ⟨c, s, s + 1⟩
  else if c = gt then
    if m (s + 1) = gt then ⟨plus, s, s + 2⟩ else ⟨c, s, s + 1⟩
  else ⟨wordTok, s, advance isWordChar m es s⟩

def gettoken (m : Bytes) (es : ℕ) : Parse Token := do
  let st ← get
  let tok := tokenAt m es (advance isBlank m es st.ps)
  set { st with ps := advance isBlank m es tok.eq }
  return tok

def peek (m : Bytes) (es : ℕ) (toks : List UInt8) : Parse Bool := do
  let st ← get
  let s := advance isBlank m es st.ps
  set { st with ps := s }
  return m s != 0 && strchr toks (m s)

/-! ## Parsing -/

def O_RDONLY : ℕ := 0x000

def O_WRONLY : ℕ := 0x001

def O_CREATE : ℕ := 0x200

def O_TRUNC : ℕ := 0x400

/-- The `switch` of `parseredirs`. -/
def redirFor (tok : UInt8) (cmd q eq : ℕ) : Parse ℕ :=
  if tok = lt then redircmd cmd q eq O_RDONLY 0
  else if tok = gt then redircmd cmd q eq (O_WRONLY ||| O_CREATE ||| O_TRUNC) 1
  else if tok = plus then redircmd cmd q eq (O_WRONLY ||| O_CREATE) 1
  else pure cmd

/-- One round of the loop for each call. -/
def parseredirs (m : Bytes) (es : ℕ) : ℕ → ℕ → Parse ℕ
  | 0, _ => throw .fuel
  | n + 1, cmd => do
    if ← peek m es [lt, gt] then
      let tok ← gettoken m es
      let file ← gettoken m es
      if file.ret ≠ wordTok then throw (.panic "missing file for redirection")
      else
        let cmd ← redirFor tok.ret cmd file.q file.eq
        parseredirs m es n cmd
    else return cmd

/-- The loop of `parseexec` over the words: `cmd` is the node that gets them, `ret` the command
with its redirections around; the result is `ret` and `argc`. -/
def parseargs (m : Bytes) (es cmd : ℕ) : ℕ → ℕ → ℕ → Parse (ℕ × ℕ)
  | 0, _, _ => throw .fuel
  | n + 1, ret, argc => do
    if ← peek m es [bar, rpar, amp, semi] then return (ret, argc)
    else
      let tok ← gettoken m es
      if tok.ret = 0 then return (ret, argc)
      else if tok.ret ≠ wordTok then throw (.panic "syntax")
      else
        setArg cmd argc (some tok.q) (some tok.eq)
        if argc + 1 ≥ MAXARGS then throw (.panic "too many args")
        else
          let ret ← parseredirs m es n ret
          parseargs m es cmd n ret (argc + 1)

/-- The loop of `parseline` over the `&`. -/
def parsebacks (m : Bytes) (es : ℕ) : ℕ → ℕ → Parse ℕ
  | 0, _ => throw .fuel
  | n + 1, cmd => do
    if ← peek m es [amp] then
      let _ ← gettoken m es
      let cmd ← backcmd cmd
      parsebacks m es n cmd
    else return cmd

mutual

def parseline (m : Bytes) (es : ℕ) : ℕ → Parse ℕ
  | 0 => throw .fuel
  | n + 1 => do
    let cmd ← parsepipe m es n
    let cmd ← parsebacks m es n cmd
    if ← peek m es [semi] then
      let _ ← gettoken m es
      let right ← parseline m es n
      listcmd cmd right
    else return cmd

def parsepipe (m : Bytes) (es : ℕ) : ℕ → Parse ℕ
  | 0 => throw .fuel
  | n + 1 => do
    let cmd ← parseexec m es n
    if ← peek m es [bar] then
      let _ ← gettoken m es
      let right ← parsepipe m es n
      pipecmd cmd right
    else return cmd

def parseexec (m : Bytes) (es : ℕ) : ℕ → Parse ℕ
  | 0 => throw .fuel
  | n + 1 => do
    if ← peek m es [lpar] then parseblock m es n
    else
      let cmd ← execcmd
      let ret ← parseredirs m es n cmd
      let args ← parseargs m es cmd n ret 0
      setArg cmd args.2 none none
      return args.1

def parseblock (m : Bytes) (es : ℕ) : ℕ → Parse ℕ
  | 0 => throw .fuel
  | n + 1 => do
    if ← peek m es [lpar] then
      let _ ← gettoken m es
      let cmd ← parseline m es n
      if ← peek m es [rpar] then
        let _ ← gettoken m es
        parseredirs m es n cmd
      else throw (.panic "syntax - missing )")
    else throw (.panic "parseblock")

end

/-! ## Ending the words -/

/-- `*p = 0`. -/
def poke (p : ℕ) (m : Bytes) : Bytes := fun i => if i = p then 0 else m i

/-- The loop over the words of an `EXEC` node. -/
def terminateArgs (argv eargv : List (Option ℕ)) : ℕ → ℕ → Prog Bytes Stop Unit
  | 0, _ => throw .fuel
  | n + 1, i =>
    match argv[i]? with
    | none => throw .fault
    | some none => return ()
    | some (some _) =>
      match eargv[i]? with
      | some (some e) => do
        modify (poke e)
        terminateArgs argv eargv n (i + 1)
      | _ => throw .fault

/-- NUL-terminate all the counted strings. -/
def nulterminate (heap : List Cmd) : ℕ → ℕ → Prog Bytes Stop Unit
  | 0, _ => throw .fuel
  | n + 1, cmd =>
    match heap[cmd]? with
    | none => throw .fault
    | some (.exec argv eargv) => terminateArgs argv eargv n 0
    | some (.redir cmd _ efile _ _) => do
      nulterminate heap n cmd
      modify (poke efile)
    | some (.pipe left right) => do
      nulterminate heap n left
      nulterminate heap n right
    | some (.list left right) => do
      nulterminate heap n left
      nulterminate heap n right
    | some (.back cmd) => nulterminate heap n cmd

/-- `strlen`. -/
def strlen (m : Bytes) (s : ℕ) : ℕ → ℕ → Except Stop ℕ
  | 0, _ => throw .fuel
  | k + 1, n => if m (s + n) ≠ 0 then strlen m s k (n + 1) else return n

/-- The command, the nodes and the memory in which the words are ended. -/
structure Parsed where
  cmd : ℕ
  heap : List Cmd
  mem : Bytes

def parsecmd (m : Bytes) (fuel s : ℕ) : Except Stop Parsed := do
  let len ← strlen m s fuel 0
  let es := s + len
  let (cmd, st) ← parseline m es fuel { ps := s, heap := [] }
  let (_, st) ← peek m es [] st
  if st.ps ≠ es then throw (.leftovers st.ps)
  let (_, mem) ← nulterminate st.heap fuel cmd m
  return { cmd, heap := st.heap, mem }

end TatakOS.Shell
