import Mathlib.Algebra.Order.BigOperators.Group.List
import Mathlib.Data.List.Induction
import TatakOS.Shell.Terminate

/-!
# Running a command

`runcmd` is modelled by the system calls that it makes, as a tree: where a call can fail, both
ways to go on are there, and at a `fork` there are the two processes. Each entry of `runcmd` is a
node of the tree, with the command and the descriptors at that point.
-/

namespace TatakOS.Shell

def NOFILE : ℕ := 16

/-- What a descriptor is connected to: what the shell had there, a file that was opened, or an end
of the pipe that the command at `cmd` made. -/
inductive Obj where
  | inherited (fd : ℕ)
  | file (path : List UInt8) (mode : ℕ)
  | pipe (cmd : ℕ) (write : Bool)
  deriving DecidableEq, Repr

/-- The descriptors of a process. -/
abbrev Fds := List (Option Obj)

/-- The lowest free descriptor. -/
def fdalloc (fds : Fds) : Option ℕ :=
  if fds.findIdx Option.isNone < fds.length then some (fds.findIdx Option.isNone) else none

def close (fds : Fds) (fd : ℕ) : Fds := fds.set fd none

/-- Connect the lowest free descriptor, if there is one. -/
def connect (fds : Fds) (o : Obj) : Fds :=
  match fdalloc fds with
  | some fd => fds.set fd (some o)
  | none => fds

/-- `dup`, whose result the shell does not look at. -/
def dup (fds : Fds) (fd : ℕ) : Fds :=
  match fds[fd]? with
  | some (some o) => connect fds o
  | _ => fds

/-- What a process does. -/
inductive Behav where
  /-- The call `runcmd(cmd)` with the descriptors `fds`. -/
  | run (cmd : ℕ) (fds : Fds) (body : Behav)
  | exit (status : ℕ)
  /-- A message with a string in it. -/
  | print (msg : String) (arg : List UInt8) (next : Behav)
  | exec (argv : List (List UInt8)) (fds : Fds) (failed : Behav)
  | open (path : List UInt8) (mode : ℕ) (opened failed : Behav)
  | fork (child parent failed : Behav)
  | pipe (made failed : Behav)
  | wait (next : Behav)
  | fault
  | fuel

def panic (msg : String) : Behav := .print msg [] (.exit 1)

/-- The string at `p`. -/
def strAt (mem : Bytes) : ℕ → ℕ → List UInt8
  | 0, _ => []
  | n + 1, p => if mem p = 0 then [] else mem p :: strAt mem n (p + 1)

/-- The strings of `argv`, up to the null pointer. -/
def argvStrings (mem : Bytes) (n : ℕ) : List (Option ℕ) → List (List UInt8)
  | some p :: argv => strAt mem n p :: argvStrings mem n argv
  | _ => []

/-- Execute the command. Every call ends with `exit`. -/
def runcmd (heap : List Cmd) (mem : Bytes) : ℕ → ℕ → Fds → Behav
  | 0, _, _ => .fuel
  | n + 1, cmd, fds => .run cmd fds <|
    match heap[cmd]? with
    | none => .fault
    | some (.exec argv _) =>
      match argvStrings mem n argv with
      | [] => .exit 1
      | path :: args => .exec (path :: args) fds (.print "exec %s failed" path (.exit 0))
    | some (.redir c file _ mode fd) =>
      let failed := .print "open %s failed" (strAt mem n file) (.exit 1)
      match fdalloc (close fds fd) with
      | some new =>
        .open (strAt mem n file) mode
          (runcmd heap mem n c ((close fds fd).set new (some (.file (strAt mem n file) mode)))) failed
      | none => failed
    | some (.list left right) =>
      .fork (runcmd heap mem n left fds) (.wait (runcmd heap mem n right fds)) (panic "fork")
    | some (.pipe left right) =>
      match fdalloc fds with
      | none => panic "pipe"
      | some p0 =>
        match fdalloc (fds.set p0 (some (.pipe cmd false))) with
        | none => panic "pipe"
        | some p1 =>
          let fds := (fds.set p0 (some (.pipe cmd false))).set p1 (some (.pipe cmd true))
          let reader := close (close (dup (close fds 0) p0) p0) p1
          let writer := close (close (dup (close fds 1) p1) p0) p1
          .pipe
            (.fork (runcmd heap mem n left writer)
              (.fork (runcmd heap mem n right reader) (.wait (.wait (.exit 0))) (panic "fork"))
              (panic "fork"))
            (panic "pipe")
    | some (.back c) => .fork (runcmd heap mem n c fds) (.exit 0) (panic "fork")

/-! ## Redirections from left to right -/

/-- A redirection as it is written: the operator and the name of the file. -/
abbrev Written := RedirOp × List UInt8

def Redir.written (r : Redir) : Written := (r.op, r.file.text)

/-- The file that a redirection opens. -/
def Written.obj (w : Written) : Obj := .file w.2 w.1.mode

/-- The last redirection of the descriptor `fd`. -/
def lastOf (fd : ℕ) (ws : List Written) : Option Written :=
  (ws.filter fun w => w.1.fd = fd).getLast?

/-- The first `n` files that are opened, and what comes after that. -/
def Behav.follow : ℕ → Behav → List (List UInt8 × ℕ) × Behav
  | n + 1, .run _ _ (.open path mode opened _) =>
    ((path, mode) :: (opened.follow n).1, (opened.follow n).2)
  | _, b => ([], b)

/-- The files of the redirections are opened in the order in which they are written, and the
command `t` starts with the descriptors 0 and 1 connected to the last file for each, or to what
they were connected to before. -/
def LeftToRight (heap : List Cmd) (mem : Bytes) (t : Tree) (ws : List Written) (in₀ out₀ : Obj)
    (b : Behav) : Prop :=
  ∃ c fds body, b.follow ws.length = (ws.map fun w => (w.2, w.1.mode), .run c fds body) ∧
    Shown heap mem c t ∧ fds[0]? = some (some ((lastOf 0 ws).elim in₀ Written.obj)) ∧
    fds[1]? = some (some ((lastOf 1 ws).elim out₀ Written.obj))

/-! ## What the shell does -/

/-- The descriptor of the redirection is connected to its file. -/
def redirect (fds : Fds) (w : Written) : Fds := fds.set w.1.fd (some w.obj)

theorem strAt_eq {mem : Bytes} : ∀ {s : List UInt8} {n p : ℕ}, CString mem p s → s.length ≤ n →
    strAt mem n p = s := by
  intro s
  induction s with
  | nil =>
    intro n p h hn
    cases n with
    | zero => rfl
    | succ n => rw [strAt, if_pos (cstring_nil.mp h)]
  | cons c s ih =>
    intro n p h hn
    obtain ⟨hc, h0, hs⟩ := cstring_cons.mp h
    obtain ⟨n, rfl⟩ : ∃ k, n = k + 1 := ⟨n - 1, by rw [List.length_cons] at hn; omega⟩
    rw [List.length_cons] at hn
    rw [strAt, if_neg (by rwa [hc]), hc, ih hs (by omega)]

variable {t : Tree}

section Redirect

variable {a b : Obj} {rest : Fds} {heap : List Cmd} {mem : Bytes}

/-- While 0 and 1 are open, the descriptor that was closed is the lowest free one. -/
theorem fdalloc_close (op : RedirOp) :
    fdalloc (close (some a :: some b :: rest) op.fd) = some op.fd := by
  cases op <;> simp [fdalloc, close, RedirOp.fd, List.findIdx_cons]

theorem runcmd_redir (a b : Obj) (rest : Fds) {p n : ℕ} {r : Redir}
    (h : Shown heap mem p (.redir t r))
    (hn : r.file.text.length ≤ n) :
    ∃ c failed, Shown heap mem c t ∧ runcmd heap mem (n + 1) p (some a :: some b :: rest) =
      .run p (some a :: some b :: rest) (.open r.file.text r.op.mode
        (runcmd heap mem n c (redirect (some a :: some b :: rest) r.written)) failed) := by
  obtain ⟨c, file, efile, hp, hfile, hc⟩ := h
  refine ⟨c, .print "open %s failed" r.file.text (.exit 1), hc, ?_⟩
  have hset : (close (some a :: some b :: rest) r.op.fd).set r.op.fd
      (some (.file r.file.text r.op.mode)) = redirect (some a :: some b :: rest) r.written := by
    rw [close, List.set_set]
    rfl
  rw [runcmd, hp]
  simp only [fdalloc_close, strAt_eq hfile hn, hset]

theorem redirect_eq (a b : Obj) (rest : Fds) (w : Written) :
    ∃ a' b', redirect (some a :: some b :: rest) w = some a' :: some b' :: rest := by
  obtain ⟨op, text⟩ := w
  cases op
  · exact ⟨_, _, rfl⟩
  · exact ⟨_, _, rfl⟩
  · exact ⟨_, _, rfl⟩

/-- The files are opened from right to left. -/
theorem runcmd_follow (rest : Fds) (rs : List Redir) : ∀ {p n : ℕ} {a b : Obj},
    Shown heap mem p (t.wrap rs) → (∀ r ∈ rs, r.file.text.length + rs.length ≤ n) →
    ∃ c body, Shown heap mem c t ∧
      (runcmd heap mem (n + 1) p (some a :: some b :: rest)).follow rs.length =
        ((rs.map Redir.written).reverse.map fun w => (w.2, w.1.mode),
          .run c ((rs.map Redir.written).reverse.foldl redirect (some a :: some b :: rest)) body) := by
  induction rs using List.reverseRecOn with
  | nil =>
    intro p n a b hp _
    exact ⟨p, _, hp, rfl⟩
  | append_singleton rs r ih =>
    intro p n a b hp hn
    rw [Tree.wrap_snoc] at hp
    have hr := hn r (by simp)
    rw [List.length_append, List.length_singleton] at hr
    obtain ⟨n, rfl⟩ : ∃ k, n = k + 1 := ⟨n - 1, by omega⟩
    obtain ⟨c, failed, hc, hrun⟩ := runcmd_redir a b rest (n := n + 1) hp (by omega)
    obtain ⟨a', b', hfds⟩ := redirect_eq a b rest r.written
    rw [hfds] at hrun
    have hn' : ∀ r ∈ rs, r.file.text.length + rs.length ≤ n := by
      intro r' hr'
      have := hn r' (List.mem_append_left _ hr')
      rw [List.length_append, List.length_singleton] at this
      omega
    obtain ⟨c', body, hc', hfollow⟩ := ih (a := a') (b := b') hc hn'
    refine ⟨c', body, hc', ?_⟩
    rw [hrun, List.length_append, List.length_singleton, Behav.follow, hfollow]
    simp only [List.map_append, List.map_cons, List.map_nil, List.reverse_append,
      List.reverse_cons, List.reverse_nil, List.nil_append, List.singleton_append, List.foldl_cons,
      hfds]
    rfl

theorem foldl_redirect (ws : List Written) : ws.foldl redirect (some a :: some b :: rest) =
      some ((lastOf 0 ws).elim a Written.obj) :: some ((lastOf 1 ws).elim b Written.obj) ::
        rest := by
  induction ws using List.reverseRecOn with
  | nil => rfl
  | append_singleton ws w ih =>
    obtain ⟨op, text⟩ := w
    rw [List.foldl_append, ih]
    cases op <;> simp [redirect, lastOf, List.filter_append, RedirOp.fd]

end Redirect

/-- A simple command or a block: its tokens, the command without its redirections, and the
redirections in the order of the text. -/
inductive Command : List Tok → Tree → List Redir → Prop where
  | block {ts t} (rs : List Redir) : Derives .line ts t →
      Command (.lpar :: ts ++ .rpar :: redirToks rs) t rs
  | simple (rs : List Redir) (as : List Arg) : as.length ≤ MAXARGS - 1 →
      Command (redirToks rs ++ argToks as) (.exec (as.map Arg.word)) (allRedirs rs as)

theorem Command.derives {ts : List Tok} {rs : List Redir} (h : Command ts t rs) :
    Derives .line ts (t.wrap rs) := by
  have hexec : Derives .exec ts (t.wrap rs) := by
    cases h with
    | block rs hline => exact .block rs hline
    | simple rs as hlen => exact .simple rs as hlen
  have hline := Derives.line 0 (.pipe hexec)
  rwa [List.replicate_zero, List.append_nil] at hline

theorem map_call_injective : Function.Injective (List.map fun w : Written => (w.2, w.1.mode)) := by
  apply List.map_injective_iff.mpr
  rintro ⟨op, text⟩ ⟨op', text'⟩ h
  simp only [Prod.mk.injEq] at h
  obtain ⟨rfl, hmode⟩ := h
  cases op <;> cases op' <;> first | rfl | (exact absurd hmode (by decide))

/-- A run of the redirections is from left to right exactly if their list reads the same from
right to left. -/
theorem leftToRight_iff {heap : List Cmd} {mem : Bytes} {rs : List Redir} {p n : ℕ}
    {a b : Obj} {rest : Fds} (hp : Shown heap mem p (t.wrap rs))
    (hn : ∀ r ∈ rs, r.file.text.length + rs.length ≤ n) :
    LeftToRight heap mem t (rs.map Redir.written) a b
        (runcmd heap mem (n + 1) p (some a :: some b :: rest)) ↔
      (rs.map Redir.written).reverse = rs.map Redir.written := by
  obtain ⟨c, body, hc, hfollow⟩ := runcmd_follow rest rs (a := a) (b := b) hp hn
  have hfollow' := hfollow
  rw [← List.length_map Redir.written] at hfollow'
  constructor
  · rintro ⟨c', fds, body', hrun, -⟩
    rw [hfollow'] at hrun
    exact map_call_injective (congrArg Prod.fst hrun)
  · intro hrev
    rw [hrev, foldl_redirect] at hfollow'
    exact ⟨c, _, body, hfollow', hc, rfl, rfl⟩

/-- For a simple command or a block, parsed and run with the descriptors 0, 1 and 2 open and with
opens that succeed: the redirections take effect from left to right exactly if their list reads
the same from right to left. -/
theorem redirections_iff (m : Bytes) (s : ℕ) (X : List UInt8) (t : Tree) (rs : List Redir)
    (hX : CString m s X) (hcmd : Command (lex s X) t rs) :
    ∃ n, ∀ fuel ≥ n, ∃ r, parsecmd m fuel s = .ok r ∧ ∀ (in₀ out₀ err₀ : Obj) (rest : Fds),
      LeftToRight r.heap r.mem t (rs.map Redir.written) in₀ out₀
          (runcmd r.heap r.mem fuel r.cmd (some in₀ :: some out₀ :: some err₀ :: rest)) ↔
        (rs.map Redir.written).reverse = rs.map Redir.written := by
  obtain ⟨n, hn⟩ := exists_parse_fuel s X
  obtain ⟨k, hk⟩ : ∃ k, ∀ r ∈ rs, r.file.text.length + rs.length ≤ k := by
    refine ⟨(rs.map fun r => r.file.text.length + rs.length).sum, fun r hr => ?_⟩
    exact List.single_le_sum (by simp) _ (List.mem_map.mpr ⟨r, hr, rfl⟩)
  refine ⟨max n (k + 1), fun fuel hfuel => ?_⟩
  obtain ⟨hinput, htoks, hheight⟩ := hn fuel (by omega)
  have houtcome := parsecmd_outcome hX hinput htoks hheight
  cases hparse : parsecmd m fuel s with
  | error e =>
    rw [hparse] at houtcome
    exact absurd hcmd.derives (houtcome.2 _)
  | ok r =>
    rw [hparse] at houtcome
    obtain ⟨u, -, hunique, hshown⟩ := houtcome
    rw [← hunique _ hcmd.derives] at hshown
    refine ⟨r, rfl, fun in₀ out₀ err₀ rest => ?_⟩
    obtain ⟨j, rfl⟩ : ∃ j, fuel = j + 1 := ⟨fuel - 1, by omega⟩
    exact leftToRight_iff hshown fun r' hr' => (hk r' hr').trans (by omega)

/-- The line `c<a>o<a` at 0. -/
def threeRedirs : Bytes := fun i => [99, 60, 97, 62, 111, 60, 97].getD i 0

theorem command_threeRedirs : Command (lex 0 [99, 60, 97, 62, 111, 60, 97]) (.exec [⟨0, [99]⟩])
      [⟨.input, ⟨2, [97]⟩⟩, ⟨.output, ⟨4, [111]⟩⟩, ⟨.input, ⟨6, [97]⟩⟩] := by
  have hlex : lex 0 [99, 60, 97, 62, 111, 60, 97] =
      [.word ⟨0, [99]⟩, .lt, .word ⟨2, [97]⟩, .gt, .word ⟨4, [111]⟩, .lt, .word ⟨6, [97]⟩] := by
    simp [lex, isBlank, strchr, whitespace, symbolTok, isWordChar, symbols, Shell.lt, Shell.gt,
      Shell.bar, Shell.amp, Shell.semi, Shell.lpar, Shell.rpar]
  rw [hlex]
  exact .simple [] [⟨⟨0, [99]⟩, [⟨.input, ⟨2, [97]⟩⟩, ⟨.output, ⟨4, [111]⟩⟩, ⟨.input, ⟨6, [97]⟩⟩]⟩]
    (by decide)

theorem redirections_iff_palindrome : ∃ n, ∀ fuel ≥ n, ∃ r, parsecmd threeRedirs fuel 0 = .ok r ∧
    ∀ in₀ out₀ err₀ rest, LeftToRight r.heap r.mem (.exec [⟨0, [99]⟩])
      [(.input, [97]), (.output, [111]), (.input, [97])] in₀ out₀
      (runcmd r.heap r.mem fuel r.cmd (some in₀ :: some out₀ :: some err₀ :: rest)) := by
  obtain ⟨n, hn⟩ := redirections_iff threeRedirs 0 [99, 60, 97, 62, 111, 60, 97] _ _
    (by simp [CString, threeRedirs]) command_threeRedirs
  refine ⟨n, fun fuel hfuel => ?_⟩
  obtain ⟨r, hr, hiff⟩ := hn fuel hfuel
  exact ⟨r, hr, fun in₀ out₀ err₀ rest => (hiff in₀ out₀ err₀ rest).mpr rfl⟩

/-- The line `c<a<b` at 0. -/
def twoRedirs : Bytes := fun i => [99, 60, 97, 60, 98].getD i 0

/-- The descriptors that the shell starts with. -/
def stdFds : Fds := (List.range NOFILE).map fun i => if i < 3 then some (.inherited i) else none

theorem command_twoRedirs : Command (lex 0 [99, 60, 97, 60, 98]) (.exec [⟨0, [99]⟩])
      [⟨.input, ⟨2, [97]⟩⟩, ⟨.input, ⟨4, [98]⟩⟩] := by
  have hlex : lex 0 [99, 60, 97, 60, 98] =
      [.word ⟨0, [99]⟩, .lt, .word ⟨2, [97]⟩, .lt, .word ⟨4, [98]⟩] := by
    simp [lex, isBlank, strchr, whitespace, symbolTok, isWordChar, symbols, Shell.lt, Shell.gt,
      Shell.bar, Shell.amp, Shell.semi, Shell.lpar, Shell.rpar]
  rw [hlex]
  exact .simple [] [⟨⟨0, [99]⟩, [⟨.input, ⟨2, [97]⟩⟩, ⟨.input, ⟨4, [98]⟩⟩]⟩] (by decide)

/-- In `c<a<b` the file `b` is opened before `a`. -/
theorem redirections_reversed : Command (lex 0 [99, 60, 97, 60, 98]) (.exec [⟨0, [99]⟩])
        [⟨.input, ⟨2, [97]⟩⟩, ⟨.input, ⟨4, [98]⟩⟩] ∧
      ∃ r, parsecmd twoRedirs 40 0 = .ok r ∧
        ((runcmd r.heap r.mem 40 r.cmd stdFds).follow 2).1 = [([98], 0), ([97], 0)] ∧
        ¬ LeftToRight r.heap r.mem (.exec [⟨0, [99]⟩]) [(.input, [97]), (.input, [98])]
          (.inherited 0) (.inherited 1) (runcmd r.heap r.mem 40 r.cmd stdFds) := by
  refine ⟨command_twoRedirs, ?_⟩
  have hrun : (parsecmd twoRedirs 40 0).toOption.map (fun r =>
      ((runcmd r.heap r.mem 40 r.cmd stdFds).follow 2).1) = some [([98], 0), ([97], 0)] := by
    decide +kernel
  cases hparse : parsecmd twoRedirs 40 0 with
  | error e =>
    rw [hparse] at hrun
    cases hrun
  | ok r =>
    rw [hparse] at hrun
    have hopened := Option.some.inj hrun
    refine ⟨r, rfl, hopened, ?_⟩
    rintro ⟨c, fds, body, hfollow, -⟩
    have horder : [([97], 0), ([98], 0)] = [(([98] : List UInt8), 0), ([97], 0)] :=
      (congrArg Prod.fst hfollow).symm.trans hopened
    exact absurd horder (by decide)

end TatakOS.Shell
