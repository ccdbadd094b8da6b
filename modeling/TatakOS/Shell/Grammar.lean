import TatakOS.Shell.Source

/-!
# The grammar of the shell

    line  ::= pipe '&'* [';' line]
    pipe  ::= exec ['|' pipe]
    exec  ::= '(' line ')' redir*
            | redir* (word redir*)*
    redir ::= ('<' | '>' | '>>') word

`Derives` is this grammar, with the tree of each derivation and the bound on the words of a simple
command. `Read.line` reads a line from a list of tokens the way the parser does: it finds a
derivation exactly if there is one, and the tree is the tree of every derivation.
-/

namespace TatakOS.Shell

/-! ## Tokens and trees -/

/-- A word of the input, with the place where it begins. -/
structure Word where
  pos : ℕ
  text : List UInt8
  deriving DecidableEq, Repr

/-- The place after the last character. -/
def Word.stop (w : Word) : ℕ := w.pos + w.text.length

inductive Tok where
  | lt
  | gt
  | gtgt
  | bar
  | amp
  | semi
  | lpar
  | rpar
  | word (w : Word)
  deriving DecidableEq, Repr

/-- `<`, `>` and `>>`. -/
inductive RedirOp where
  | input
  | output
  | append
  deriving DecidableEq, Repr

def RedirOp.tok : RedirOp → Tok
  | input => .lt
  | output => .gt
  | append => .gtgt

def Tok.redirOp : Tok → Option RedirOp
  | .lt => some .input
  | .gt => some .output
  | .gtgt => some .append
  | _ => none

theorem Tok.redirOp_eq_some {t : Tok} {op : RedirOp} : t.redirOp = some op ↔ t = op.tok := by
  cases t <;> cases op <;> simp [Tok.redirOp, RedirOp.tok]

structure Redir where
  op : RedirOp
  file : Word
  deriving DecidableEq, Repr

inductive Tree where
  | exec (argv : List Word)
  | redir (cmd : Tree) (r : Redir)
  | pipe (left right : Tree)
  | list (left right : Tree)
  | back (cmd : Tree)
  deriving DecidableEq, Repr

/-- The command with its redirections around, the last one outermost. -/
def Tree.wrap (t : Tree) (rs : List Redir) : Tree := rs.foldl Tree.redir t

/-- The command with `k` background commands around. -/
def Tree.backs (t : Tree) : ℕ → Tree
  | 0 => t
  | k + 1 => (Tree.back t).backs k

/-! ## Derivations -/

/-- An argument with the redirections after it. -/
structure Arg where
  word : Word
  redirs : List Redir
  deriving DecidableEq, Repr

def redirToks (rs : List Redir) : List Tok := rs.flatMap fun r => [r.op.tok, .word r.file]

def argToks (as : List Arg) : List Tok := as.flatMap fun a => .word a.word :: redirToks a.redirs

/-- The redirections of a simple command in the order of the text. -/
def allRedirs (rs : List Redir) (as : List Arg) : List Redir := rs ++ as.flatMap Arg.redirs

/-- The nonterminals. -/
inductive Nonterminal where
  | line
  | pipe
  | exec
  deriving DecidableEq, Repr

/-- The tokens of a line, pipe or exec, and its tree. -/
inductive Derives : Nonterminal → List Tok → Tree → Prop where
  | line {ts t} (k : ℕ) : Derives .pipe ts t →
      Derives .line (ts ++ List.replicate k .amp) (t.backs k)
  | lineSemi {ts t us u} (k : ℕ) : Derives .pipe ts t → Derives .line us u →
      Derives .line (ts ++ List.replicate k .amp ++ .semi :: us) (.list (t.backs k) u)
  | pipe {ts t} : Derives .exec ts t → Derives .pipe ts t
  | pipeBar {ts t us u} : Derives .exec ts t → Derives .pipe us u →
      Derives .pipe (ts ++ .bar :: us) (.pipe t u)
  | block {ts t} (rs : List Redir) : Derives .line ts t →
      Derives .exec (.lpar :: ts ++ .rpar :: redirToks rs) (t.wrap rs)
  | simple (rs : List Redir) (as : List Arg) : as.length ≤ MAXARGS - 1 →
      Derives .exec (redirToks rs ++ argToks as)
        ((Tree.exec (as.map Arg.word)).wrap (allRedirs rs as))

/-! ## Reading tokens -/

/-- What can go wrong in reading. -/
inductive Err where
  | fuel
  | panic (msg : String)
  deriving DecidableEq, Repr

namespace Read

/-- As many redirections as there are. -/
def redirs : ℕ → List Tok → Except Err (List Redir × List Tok)
  | 0, _ => .error .fuel
  | _ + 1, [] => .ok ([], [])
  | n + 1, t :: ts =>
    match t.redirOp with
    | none => .ok ([], t :: ts)
    | some op =>
      match ts with
      | .word w :: ts => do
        let (rs, rest) ← redirs n ts
        .ok (⟨op, w⟩ :: rs, rest)
      | _ => .error (.panic "missing file for redirection")

/-- The words of a simple command that has `argc` of them already, up to a token that ends it. -/
def args : ℕ → ℕ → List Tok → Except Err (List Arg × List Tok)
  | 0, _, _ => .error .fuel
  | _ + 1, _, [] => .ok ([], [])
  | n + 1, argc, t :: ts =>
    match t with
    | .bar | .rpar | .amp | .semi => .ok ([], t :: ts)
    | .word w =>
      if argc + 1 ≥ MAXARGS then .error (.panic "too many args")
      else do
        let (rs, rest) ← redirs n ts
        let (as, rest) ← args n (argc + 1) rest
        .ok (⟨w, rs⟩ :: as, rest)
    | _ => .error (.panic "syntax")

/-- As many `&` as there are. -/
def backs : ℕ → List Tok → Except Err (ℕ × List Tok)
  | 0, _ => .error .fuel
  | n + 1, .amp :: ts => do
    let (k, rest) ← backs n ts
    .ok (k + 1, rest)
  | _ + 1, ts => .ok (0, ts)

mutual

def line : ℕ → List Tok → Except Err (Tree × List Tok)
  | 0, _ => .error .fuel
  | n + 1, ts => do
    let (t, rest) ← pipe n ts
    let (k, rest) ← backs n rest
    match rest with
    | .semi :: rest => do
      let (u, rest) ← line n rest
      .ok (.list (t.backs k) u, rest)
    | rest => .ok (t.backs k, rest)

def pipe : ℕ → List Tok → Except Err (Tree × List Tok)
  | 0, _ => .error .fuel
  | n + 1, ts => do
    let (t, rest) ← exec n ts
    match rest with
    | .bar :: rest => do
      let (u, rest) ← pipe n rest
      .ok (.pipe t u, rest)
    | rest => .ok (t, rest)

def exec : ℕ → List Tok → Except Err (Tree × List Tok)
  | 0, _ => .error .fuel
  | n + 1, .lpar :: ts => block n (.lpar :: ts)
  | n + 1, ts => do
    let (rs, rest) ← redirs n ts
    let (as, rest) ← args n 0 rest
    .ok ((Tree.exec (as.map Arg.word)).wrap (allRedirs rs as), rest)

def block : ℕ → List Tok → Except Err (Tree × List Tok)
  | 0, _ => .error .fuel
  | n + 1, .lpar :: ts => do
    let (t, rest) ← line n ts
    match rest with
    | .rpar :: rest => do
      let (rs, rest) ← redirs n rest
      .ok (t.wrap rs, rest)
    | _ => .error (.panic "syntax - missing )")
  | _ + 1, _ => .error (.panic "parseblock")

end

section Equations

variable {n : ℕ} {ts : List Tok}

theorem redirs_stop (h : ∀ t, ts.head? = some t → t.redirOp = none) :
    redirs (n + 1) ts = .ok ([], ts) := by
  cases ts with
  | nil => rfl
  | cons t ts => simp only [redirs, h t rfl]

theorem redirs_word (op : RedirOp) (w : Word) : redirs (n + 1) (op.tok :: .word w :: ts) =
      redirs n ts >>= fun p => .ok (⟨op, w⟩ :: p.1, p.2) := by
  simp only [redirs, Tok.redirOp_eq_some.mpr rfl]

theorem redirs_missing (op : RedirOp) (h : ∀ w ts', ts ≠ .word w :: ts') :
    redirs (n + 1) (op.tok :: ts) = .error (.panic "missing file for redirection") := by
  simp only [redirs, Tok.redirOp_eq_some.mpr rfl]

end Equations

/-! ## What is read is derived -/

variable {α β : Type} {f : α → Except Err β} {x : Except Err α}

theorem bind_eq_ok {b : β} : (x >>= f) = .ok b ↔ ∃ a, x = .ok a ∧ f a = .ok b := by
  cases x with
  | error e => exact ⟨nofun, nofun⟩
  | ok a => exact ⟨fun h => ⟨a, rfl, h⟩, fun ⟨_, h, h'⟩ => by cases h; exact h'⟩

theorem redirs_ok : ∀ {n : ℕ} {ts : List Tok} {rs : List Redir} {rest : List Tok},
    redirs n ts = .ok (rs, rest) → ts = redirToks rs ++ rest := by
  intro n
  induction n with
  | zero => intro ts rs rest h; cases h
  | succ n ih =>
    intro ts rs rest h
    match ts, h with
    | [], h =>
      cases h
      rfl
    | t :: ts, h =>
      simp only [redirs] at h
      cases hop : t.redirOp with
      | none =>
        rw [hop] at h
        cases h
        rfl
      | some op =>
        rw [hop] at h
        match ts, h with
        | .word w :: ts, h =>
          obtain ⟨⟨rs', rest'⟩, hrs, h⟩ := bind_eq_ok.mp h
          cases h
          rw [Tok.redirOp_eq_some.mp hop, ih hrs]
          rfl

theorem args_ok : ∀ {n argc : ℕ} {ts : List Tok} {as : List Arg} {rest : List Tok},
    args n argc ts = .ok (as, rest) →
      ts = argToks as ++ rest ∧ (argc < MAXARGS → argc + as.length < MAXARGS) := by
  intro n
  induction n with
  | zero => intro argc ts as rest h; cases h
  | succ n ih =>
    intro argc ts as rest h
    match ts, h with
    | [], h =>
      cases h
      exact ⟨rfl, id⟩
    | .bar :: ts, h | .rpar :: ts, h | .amp :: ts, h | .semi :: ts, h =>
      cases h
      exact ⟨rfl, id⟩
    | .word w :: ts, h =>
      simp only [args] at h
      split at h
      · cases h
      · next hargc =>
        obtain ⟨⟨rs, rest₁⟩, hrs, h⟩ := bind_eq_ok.mp h
        obtain ⟨⟨as', rest₂⟩, has, h⟩ := bind_eq_ok.mp h
        cases h
        obtain ⟨htoks, hlen⟩ := ih has
        dsimp only at htoks ⊢
        refine ⟨?_, fun _ => ?_⟩
        · rw [redirs_ok hrs, htoks]
          simp [argToks]
        · have := hlen (by omega)
          rw [List.length_cons]
          omega

theorem backs_ok : ∀ {n : ℕ} {ts : List Tok} {k : ℕ} {rest : List Tok},
    backs n ts = .ok (k, rest) → ts = List.replicate k .amp ++ rest := by
  intro n
  induction n with
  | zero => intro ts k rest h; cases h
  | succ n ih =>
    intro ts k rest h
    unfold backs at h
    split at h
    · cases h
    · next hn =>
      cases hn
      obtain ⟨⟨k', rest'⟩, hk, h⟩ := bind_eq_ok.mp h
      cases h
      rw [ih hk]
      rfl
    · cases h
      rfl

/-- What the function reads is derived from the nonterminal. -/
def Sound (A : Nonterminal) (f : List Tok → Except Err (Tree × List Tok)) : Prop :=
  ∀ ts t rest, f ts = .ok (t, rest) → ∃ us, ts = us ++ rest ∧ Derives A us t

section Sound

variable {n : ℕ}

theorem sound_line (hpipe : Sound .pipe (pipe n)) (hline : Sound .line (line n)) :
    Sound .line (line (n + 1)) := by
  intro ts t rest h
  unfold line at h
  obtain ⟨⟨t₁, rest₁⟩, h₁, hrest⟩ := bind_eq_ok.mp h
  clear h
  obtain ⟨us, rfl, hus⟩ := hpipe _ _ _ h₁
  obtain ⟨⟨k, rest₂⟩, h₂, h⟩ := bind_eq_ok.mp hrest
  rw [backs_ok h₂]
  dsimp only at h
  split at h
  · next rest₃ =>
    obtain ⟨⟨u, rest₄⟩, h₃, h⟩ := bind_eq_ok.mp h
    cases h
    obtain ⟨vs, rfl, hvs⟩ := hline _ _ _ h₃
    exact ⟨us ++ List.replicate k .amp ++ .semi :: vs, by simp, .lineSemi k hus hvs⟩
  · cases h
    exact ⟨us ++ List.replicate k .amp, by simp, .line k hus⟩

theorem sound_pipe (hexec : Sound .exec (exec n)) (hpipe : Sound .pipe (pipe n)) :
    Sound .pipe (pipe (n + 1)) := by
  intro ts t rest h
  unfold pipe at h
  obtain ⟨⟨t₁, rest₁⟩, h₁, hrest⟩ := bind_eq_ok.mp h
  clear h
  obtain ⟨us, rfl, hus⟩ := hexec _ _ _ h₁
  dsimp only at hrest
  split at hrest
  · next rest₂ =>
    obtain ⟨⟨u, rest₃⟩, h₂, h⟩ := bind_eq_ok.mp hrest
    cases h
    obtain ⟨vs, rfl, hvs⟩ := hpipe _ _ _ h₂
    exact ⟨us ++ .bar :: vs, by simp, .pipeBar hus hvs⟩
  · cases hrest
    exact ⟨us, rfl, .pipe hus⟩

theorem sound_exec (hblock : Sound .exec (block n)) : Sound .exec (exec (n + 1)) := by
  intro ts t rest h
  unfold exec at h
  split at h
  · cases ‹_ = _›
  · next hn =>
    cases hn
    exact hblock _ _ _ h
  · next heq _ =>
    cases heq
    obtain ⟨⟨rs, rest₁⟩, h₁, h⟩ := bind_eq_ok.mp h
    obtain ⟨⟨as, rest₂⟩, h₂, h⟩ := bind_eq_ok.mp h
    cases h
    obtain ⟨htoks, hlen⟩ := args_ok h₂
    rw [redirs_ok h₁, htoks]
    have hmax := hlen (by decide)
    exact ⟨redirToks rs ++ argToks as, by simp, .simple rs as (by omega)⟩

theorem sound_block (hline : Sound .line (line n)) : Sound .exec (block (n + 1)) := by
  intro ts t rest h
  unfold block at h
  split at h
  · cases ‹_ = _›
  · next hn =>
    cases hn
    obtain ⟨⟨t₁, rest₁⟩, h₁, hrest⟩ := bind_eq_ok.mp h
    clear h
    obtain ⟨us, rfl, hus⟩ := hline _ _ _ h₁
    dsimp only at hrest
    split at hrest
    · next rest₂ =>
      obtain ⟨⟨rs, rest₃⟩, h₂, h⟩ := bind_eq_ok.mp hrest
      cases h
      rw [redirs_ok h₂]
      exact ⟨.lpar :: us ++ .rpar :: redirToks rs, by simp, .block rs hus⟩
    · cases hrest
  · cases h

theorem sound_all : ∀ n, Sound .line (line n) ∧ Sound .pipe (pipe n) ∧ Sound .exec (exec n) ∧
    Sound .exec (block n) := by
  intro n
  induction n with
  | zero => exact ⟨nofun, nofun, nofun, nofun⟩
  | succ n ih =>
    obtain ⟨hline, hpipe, hexec, hblock⟩ := ih
    exact ⟨sound_line hpipe hline, sound_pipe hexec hpipe, sound_exec hblock, sound_block hline⟩

end Sound

/-! ## What is derived is read -/

/-- The result is `a`, unless the fuel runs out. -/
def Gives {α : Type} (x : Except Err α) (a : α) : Prop := x = .ok a ∨ x = .error .fuel

theorem Gives.bind {a : α} {b : β} (hx : Gives x a) (hf : Gives (f a) b) : Gives (x >>= f) b := by
  rcases hx with rfl | rfl
  · exact hf
  · exact .inr rfl

theorem redirs_gives {vs : List Tok} (hvs : ∀ t, vs.head? = some t → t.redirOp = none)
    (rs : List Redir) : ∀ n, Gives (redirs n (redirToks rs ++ vs)) (rs, vs) := by
  induction rs with
  | nil =>
    intro n
    cases n with
    | zero => exact .inr rfl
    | succ n =>
      exact .inl (redirs_stop hvs)
  | cons r rs ih =>
    intro n
    cases n with
    | zero => exact .inr rfl
    | succ n =>
      have htoks : redirToks (r :: rs) ++ vs =
          r.op.tok :: .word r.file :: (redirToks rs ++ vs) := by simp [redirToks]
      rw [htoks, redirs_word]
      exact (ih n).bind (.inl rfl)

/-- The tokens that can come after a nonterminal. -/
def follow : Nonterminal → List Tok
  | .line => [.rpar]
  | .pipe => [.rpar, .amp, .semi]
  | .exec => [.rpar, .amp, .semi, .bar]

def Follow (A : Nonterminal) (vs : List Tok) : Prop := ∀ t, vs.head? = some t → t ∈ follow A

theorem Follow.redirOp {vs : List Tok} (h : Follow .exec vs) :
    ∀ t, vs.head? = some t → t.redirOp = none := by
  intro t ht
  have hmem := h t ht
  simp only [follow, List.mem_cons, List.not_mem_nil, or_false] at hmem
  rcases hmem with rfl | rfl | rfl | rfl <;> rfl

theorem args_gives {vs : List Tok} (hvs : Follow .exec vs) (as : List Arg) :
    ∀ n argc, argc + as.length < MAXARGS → Gives (args n argc (argToks as ++ vs)) (as, vs) := by
  induction as with
  | nil =>
    intro n argc _
    cases n with
    | zero => exact .inr rfl
    | succ n =>
      cases vs with
      | nil => exact .inl rfl
      | cons t vs =>
        have hmem := hvs t rfl
        simp only [follow, List.mem_cons, List.not_mem_nil, or_false] at hmem
        rcases hmem with rfl | rfl | rfl | rfl <;> exact .inl rfl
  | cons a as ih =>
    intro n argc hlen
    cases n with
    | zero => exact .inr rfl
    | succ n =>
      rw [List.length_cons] at hlen
      have htoks : argToks (a :: as) ++ vs =
          .word a.word :: (redirToks a.redirs ++ (argToks as ++ vs)) := by simp [argToks]
      have hnext : ∀ t, (argToks as ++ vs).head? = some t → t.redirOp = none := by
        cases as with
        | nil => exact hvs.redirOp
        | cons b as =>
          intro t ht
          cases ht
          rfl
      rw [htoks]
      simp only [args, if_neg (show ¬ argc + 1 ≥ MAXARGS by omega)]
      exact (redirs_gives hnext a.redirs n).bind ((ih n (argc + 1) (by omega)).bind (.inl rfl))

theorem backs_gives {vs : List Tok} (hvs : vs.head? ≠ some .amp) (k : ℕ) :
    ∀ n, Gives (backs n (List.replicate k .amp ++ vs)) (k, vs) := by
  induction k with
  | zero =>
    intro n
    cases n with
    | zero => exact .inr rfl
    | succ n =>
      refine .inl ?_
      unfold backs
      split
      · cases ‹_ = _›
      · next heq =>
        rw [List.replicate_zero, List.nil_append] at heq
        rw [heq] at hvs
        exact absurd rfl hvs
      · rfl
  | succ k ih =>
    intro n
    cases n with
    | zero => exact .inr rfl
    | succ n => exact (ih n).bind (.inl rfl)

/-- The function that reads a nonterminal. -/
def reader : Nonterminal → ℕ → List Tok → Except Err (Tree × List Tok)
  | .line => line
  | .pipe => pipe
  | .exec => exec

theorem exec_of_head {n : ℕ} {ts : List Tok} (h : ts.head? ≠ some .lpar) : exec (n + 1) ts = (do
      let (rs, rest) ← redirs n ts
      let (as, rest) ← args n 0 rest
      .ok ((Tree.exec (as.map Arg.word)).wrap (allRedirs rs as), rest)) := by
  unfold exec
  split
  · cases ‹_ = _›
  · exact absurd rfl h
  · next heq _ =>
    cases heq
    rfl

section Gives

variable {ts us vs : List Tok} {t u : Tree}

section

variable (hpipe : ∀ vs, Follow .pipe vs → ∀ n, Gives (pipe n (ts ++ vs)) (t, vs))
include hpipe

theorem gives_line {k : ℕ} (hvs : Follow .line vs) (n : ℕ) :
    Gives (line n (ts ++ List.replicate k .amp ++ vs)) (t.backs k, vs) := by
  cases n with
  | zero => exact .inr rfl
  | succ n =>
    have hfollow : Follow .pipe (List.replicate k .amp ++ vs) := by
      intro x hx
      cases k with
      | zero =>
        have := hvs x hx
        simp_all [follow]
      | succ k =>
        cases hx
        simp [follow]
    have hamp : vs.head? ≠ some .amp := by
      intro h
      have := hvs _ h
      simp [follow] at this
    have hstop : Gives (match vs with
        | .semi :: rest => do
          let (u, rest) ← line n rest
          .ok (.list (t.backs k) u, rest)
        | rest => .ok (t.backs k, rest)) (t.backs k, vs) := by
      refine .inl ?_
      split
      · have := hvs _ rfl
        simp [follow] at this
      · rfl
    unfold line
    rw [List.append_assoc]
    exact (hpipe _ hfollow n).bind ((backs_gives hamp k n).bind hstop)

theorem gives_lineSemi {k : ℕ}
    (hline : ∀ vs, Follow .line vs → ∀ n, Gives (line n (us ++ vs)) (u, vs)) (hvs : Follow .line vs)
    (n : ℕ) :
    Gives (line n (ts ++ List.replicate k .amp ++ .semi :: us ++ vs)) (.list (t.backs k) u, vs) := by
  cases n with
  | zero => exact .inr rfl
  | succ n =>
    have hfollow : Follow .pipe (List.replicate k .amp ++ .semi :: (us ++ vs)) := by
      intro x hx
      cases k with
      | zero | succ k =>
        cases hx
        simp [follow]
    have htoks : ts ++ List.replicate k .amp ++ .semi :: us ++ vs =
        ts ++ (List.replicate k .amp ++ .semi :: (us ++ vs)) := by simp
    unfold line
    rw [htoks]
    refine (hpipe _ hfollow n).bind ((backs_gives (by simp) k n).bind ?_)
    exact (hline vs hvs n).bind (.inl rfl)

end

section

variable (hexec : ∀ vs, Follow .exec vs → ∀ n, Gives (exec n (ts ++ vs)) (t, vs))
include hexec

theorem gives_pipe (hvs : Follow .pipe vs) (n : ℕ) : Gives (pipe n (ts ++ vs)) (t, vs) := by
  cases n with
  | zero => exact .inr rfl
  | succ n =>
    have hfollow : Follow .exec vs := by
      intro x hx
      have := hvs x hx
      simp_all [follow]
      tauto
    unfold pipe
    refine (hexec vs hfollow n).bind (.inl ?_)
    dsimp only
    split
    · have := hvs _ rfl
      simp [follow] at this
    · rfl

theorem gives_pipeBar (hpipe : ∀ vs, Follow .pipe vs → ∀ n, Gives (pipe n (us ++ vs)) (u, vs))
    (hvs : Follow .pipe vs) (n : ℕ) : Gives (pipe n (ts ++ .bar :: us ++ vs)) (.pipe t u, vs) := by
  cases n with
  | zero => exact .inr rfl
  | succ n =>
    have hfollow : Follow .exec (.bar :: (us ++ vs)) := by
      intro x hx
      cases hx
      simp [follow]
    unfold pipe
    rw [List.append_assoc, List.cons_append]
    exact (hexec _ hfollow n).bind ((hpipe vs hvs n).bind (.inl rfl))

end

theorem gives_block {rs : List Redir}
    (hline : ∀ vs, Follow .line vs → ∀ n, Gives (line n (ts ++ vs)) (t, vs))
    (hvs : Follow .exec vs) (n : ℕ) :
    Gives (exec n (.lpar :: ts ++ .rpar :: redirToks rs ++ vs)) (t.wrap rs, vs) := by
  have hfollow : Follow .line (.rpar :: (redirToks rs ++ vs)) := by
    intro x hx
    cases hx
    simp [follow]
  have htoks : Tok.lpar :: ts ++ .rpar :: redirToks rs ++ vs =
      .lpar :: (ts ++ .rpar :: (redirToks rs ++ vs)) := by simp
  rw [htoks]
  match n with
  | 0 => exact .inr rfl
  | 1 => exact .inr rfl
  | n + 2 =>
    exact (hline _ hfollow n).bind ((redirs_gives hvs.redirOp rs n).bind (.inl rfl))

theorem gives_simple {rs : List Redir} {as : List Arg} (hlen : as.length ≤ MAXARGS - 1)
    (hvs : Follow .exec vs) (n : ℕ) :
    Gives (exec n (redirToks rs ++ argToks as ++ vs))
      ((Tree.exec (as.map Arg.word)).wrap (allRedirs rs as), vs) := by
  cases n with
  | zero => exact .inr rfl
  | succ n =>
    have hargs : ∀ t, (argToks as ++ vs).head? = some t → t.redirOp = none ∧ t ≠ .lpar := by
      intro t ht
      cases as with
      | nil =>
        refine ⟨hvs.redirOp t ht, fun heq => ?_⟩
        have := hvs t ht
        simp [follow, heq] at this
      | cons a as =>
        cases ht
        exact ⟨rfl, nofun⟩
    have hhead : (redirToks rs ++ (argToks as ++ vs)).head? ≠ some .lpar := by
      cases rs with
      | nil => exact fun h => (hargs _ h).2 rfl
      | cons r rs =>
        intro h
        have hop : r.op.tok = .lpar := by simpa [redirToks] using h
        cases hr : r.op <;> rw [hr] at hop <;> cases hop
    rw [List.append_assoc, exec_of_head hhead]
    have hmax : 0 + as.length < MAXARGS := by
      have : 0 < MAXARGS := by decide
      omega
    exact (redirs_gives (fun t ht => (hargs t ht).1) rs n).bind
      ((args_gives hvs as n 0 hmax).bind (.inl rfl))

end Gives

theorem reader_gives {A : Nonterminal} {us : List Tok} {t : Tree} (h : Derives A us t) :
    ∀ vs, Follow A vs → ∀ n, Gives (reader A n (us ++ vs)) (t, vs) := by
  induction h with
  | line k _ ih => exact fun _ hvs n => gives_line ih hvs n
  | lineSemi k _ _ ih ih' => exact fun _ hvs n => gives_lineSemi ih ih' hvs n
  | pipe _ ih => exact fun _ hvs n => gives_pipe ih hvs n
  | pipeBar _ _ ih ih' => exact fun _ hvs n => gives_pipeBar ih ih' hvs n
  | block rs _ ih => exact fun _ hvs n => gives_block ih hvs n
  | simple rs as hlen => exact fun _ hvs n => gives_simple hlen hvs n

/-! ## Reading comes to an end -/

/-- The fuel was enough. -/
def Ends {α : Type} (x : Except Err α) : Prop := x ≠ .error .fuel

theorem Ends.bind (hx : Ends x) (hf : ∀ a, x = .ok a → Ends (f a)) : Ends (x >>= f) := by
  cases x with
  | error e => exact fun h => hx (by cases h; rfl)
  | ok a => exact hf a rfl

theorem redirs_ends : ∀ {n : ℕ} {ts : List Tok}, ts.length < n → Ends (redirs n ts) := by
  intro n
  induction n with
  | zero => intro ts h; omega
  | succ n ih =>
    intro ts hlen
    match ts, hlen with
    | [], _ => exact nofun
    | t :: ts, hlen =>
      simp only [redirs]
      cases t.redirOp with
      | none => exact nofun
      | some op =>
        match ts, hlen with
        | .word w :: ts, hlen =>
          rw [List.length_cons, List.length_cons] at hlen
          exact (ih (by omega)).bind fun _ _ => nofun
        | [], _ => exact nofun
        | .lt :: _, _ | .gt :: _, _ | .gtgt :: _, _ | .bar :: _, _ | .amp :: _, _ | .semi :: _, _
        | .lpar :: _, _ | .rpar :: _, _ => exact nofun

theorem args_ends : ∀ {n argc : ℕ} {ts : List Tok}, ts.length < n → Ends (args n argc ts) := by
  intro n
  induction n with
  | zero => intro argc ts h; omega
  | succ n ih =>
    intro argc ts hlen
    match ts, hlen with
    | [], _ => exact nofun
    | .word w :: ts, hlen =>
      rw [List.length_cons] at hlen
      simp only [args]
      split
      · exact nofun
      · refine (redirs_ends (by omega)).bind fun r hr => ?_
        have hsplit := congrArg List.length (redirs_ok hr)
        rw [List.length_append] at hsplit
        exact (ih (by omega)).bind fun _ _ => nofun
    | .lt :: _, _ | .gt :: _, _ | .gtgt :: _, _ | .bar :: _, _ | .amp :: _, _ | .semi :: _, _
    | .lpar :: _, _ | .rpar :: _, _ => exact nofun

theorem backs_ends : ∀ {n : ℕ} {ts : List Tok}, ts.length < n → Ends (backs n ts) := by
  intro n
  induction n with
  | zero => intro ts h; omega
  | succ n ih =>
    intro ts hlen
    unfold backs
    split
    · cases ‹_ = _›
    · next heq =>
      cases heq
      rw [List.length_cons] at hlen
      exact (ih (by omega)).bind fun _ _ => nofun
    · exact nofun

theorem Sound.length_le {A : Nonterminal} {f : List Tok → Except Err (Tree × List Tok)}
    (hf : Sound A f) {ts : List Tok} {r : Tree × List Tok} (h : f ts = .ok r) :
    r.2.length ≤ ts.length := by
  obtain ⟨us, rfl, -⟩ := hf ts r.1 r.2 h
  simp

/-- Four calls lead from `line` back to `line`, and on the way `block` takes a token. -/
theorem reader_ends : ∀ n ts,
    (4 * ts.length + 4 ≤ n → Ends (line n ts)) ∧ (4 * ts.length + 3 ≤ n → Ends (pipe n ts)) ∧
      (4 * ts.length + 2 ≤ n → Ends (exec n ts)) ∧ (4 * ts.length + 1 ≤ n → Ends (block n ts)) := by
  intro n
  induction n with
  | zero => intro ts; exact ⟨fun h => by omega, fun h => by omega, fun h => by omega,
      fun h => by omega⟩
  | succ n ih =>
    intro ts
    obtain ⟨hline, hpipe, hexec, -⟩ := sound_all n
    refine ⟨fun h => ?_, fun h => ?_, fun h => ?_, fun h => ?_⟩
    · unfold line
      refine ((ih ts).2.1 (by omega)).bind fun r hr => ?_
      have hr' := hpipe.length_le hr
      refine (backs_ends (by omega)).bind fun b hb => ?_
      have hb' := congrArg List.length (backs_ok hb)
      rw [List.length_append] at hb'
      dsimp only
      split
      · next heq =>
        rw [heq, List.length_cons] at hb'
        exact ((ih _).1 (by omega)).bind fun _ _ => nofun
      · exact nofun
    · unfold pipe
      refine ((ih ts).2.2.1 (by omega)).bind fun r hr => ?_
      have hr' := hexec.length_le hr
      dsimp only
      split
      · next heq =>
        rw [heq, List.length_cons] at hr'
        exact ((ih _).2.1 (by omega)).bind fun _ _ => nofun
      · exact nofun
    · unfold exec
      split
      · cases ‹_ = _›
      · next heq =>
        cases heq
        exact (ih _).2.2.2 (by omega)
      · next heq _ =>
        cases heq
        refine (redirs_ends (by omega)).bind fun r hr => ?_
        have hr' := congrArg List.length (redirs_ok hr)
        rw [List.length_append] at hr'
        exact (args_ends (by omega)).bind fun _ _ => nofun
    · unfold block
      split
      · cases ‹_ = _›
      · next heq =>
        cases heq
        rw [List.length_cons] at h
        refine ((ih _).1 (by omega)).bind fun r hr => ?_
        have hr' := hline.length_le hr
        dsimp only
        split
        · next heq =>
          rw [heq, List.length_cons] at hr'
          exact (redirs_ends (by omega)).bind fun _ _ => nofun
        · exact nofun
      · exact nofun

/-- With enough fuel, a line that can be derived is read to its end. -/
theorem line_of_derives {ts : List Tok} {t : Tree} (h : Derives .line ts t) {n : ℕ}
    (hn : 4 * ts.length + 4 ≤ n) : line n ts = .ok (t, []) := by
  have hgives := reader_gives h [] (fun _ => nofun) n
  rw [List.append_nil] at hgives
  exact hgives.resolve_right ((reader_ends n ts).1 hn)

end Read

end TatakOS.Shell
