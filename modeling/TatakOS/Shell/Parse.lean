import TatakOS.Shell.Lex

/-!
# The parser builds the tree

Each `parse` function does to the cursor and the heap what the function of `Read` with the same
fuel does to the list of tokens: it returns a pointer to the tree that is read, or stops with the
same error.
-/

namespace TatakOS.Shell

def RedirOp.mode : RedirOp → ℕ
  | input => O_RDONLY
  | output => O_WRONLY ||| O_CREATE ||| O_TRUNC
  | append => O_WRONLY ||| O_CREATE

def RedirOp.fd : RedirOp → ℕ
  | input => 0
  | _ => 1

def Redir.node (r : Redir) (cmd : ℕ) : Cmd :=
  .redir cmd r.file.pos r.file.stop r.op.mode r.op.fd

/-! ## Trees in the heap -/

/-- The pointers to the words, and null pointers after them. -/
def argvOf (f : Word → ℕ) (ws : List Word) : List (Option ℕ) :=
  ws.map (fun w => some (f w)) ++ List.replicate (MAXARGS - ws.length) none

def execNode (ws : List Word) : Cmd := .exec (argvOf Word.pos ws) (argvOf Word.stop ws)

/-- The pointer `p` points to the tree `t`. -/
def Built (heap : List Cmd) : ℕ → Tree → Prop
  | p, .exec ws => heap[p]? = some (execNode ws)
  | p, .redir t r => ∃ c, heap[p]? = some (r.node c) ∧ Built heap c t
  | p, .pipe t u => ∃ a b, heap[p]? = some (.pipe a b) ∧ Built heap a t ∧ Built heap b u
  | p, .list t u => ∃ a b, heap[p]? = some (.list a b) ∧ Built heap a t ∧ Built heap b u
  | p, .back t => ∃ c, heap[p]? = some (.back c) ∧ Built heap c t

/-- The pointer `p` points to redirections around the command at `c`. -/
inductive Wraps (heap : List Cmd) (c : ℕ) : ℕ → List Redir → Prop where
  | nil : Wraps heap c c []
  | snoc {p q : ℕ} {rs : List Redir} (r : Redir) : heap[p]? = some (r.node q) → Wraps heap c q rs →
      Wraps heap c p (rs ++ [r])

section Heap

variable {heap heap' : List Cmd} {p c : ℕ} {t : Tree} {rs : List Redir}

theorem getElem?_mono (h : heap <+: heap') {x : Cmd} (hx : heap[p]? = some x) :
    heap'[p]? = some x := by
  obtain ⟨l, rfl⟩ := h
  have hp : p < heap.length := (List.getElem?_eq_some_iff.mp hx).1
  rw [List.getElem?_append_left hp, hx]

theorem Built.mono (h : heap <+: heap') : ∀ {t : Tree} {p : ℕ}, Built heap p t → Built heap' p t := by
  intro t
  induction t with
  | exec ws => exact fun hb => getElem?_mono h hb
  | redir t r ih | back t ih =>
    rintro p ⟨c, hp, hc⟩
    exact ⟨c, getElem?_mono h hp, ih hc⟩
  | pipe t u iht ihu | list t u iht ihu =>
    rintro p ⟨a, b, hp, ha, hb⟩
    exact ⟨a, b, getElem?_mono h hp, iht ha, ihu hb⟩

theorem Wraps.mono (h : heap <+: heap') (hw : Wraps heap c p rs) : Wraps heap' c p rs := by
  induction hw with
  | nil => exact .nil
  | snoc r hp _ ih => exact .snoc r (getElem?_mono h hp) ih

theorem Tree.wrap_snoc (t : Tree) (rs : List Redir) (r : Redir) :
    t.wrap (rs ++ [r]) = .redir (t.wrap rs) r := by
  simp [Tree.wrap]

theorem Wraps.built (hw : Wraps heap c p rs) (hc : Built heap c t) : Built heap p (t.wrap rs) := by
  induction hw with
  | nil => exact hc
  | snoc r hp _ ih =>
    rw [Tree.wrap_snoc]
    exact ⟨_, hp, ih⟩

/-- The words of a command are stored while redirections point to it: they are other nodes. -/
theorem Wraps.set {argv eargv : List (Option ℕ)} {x : Cmd} (hw : Wraps heap c p rs)
    (hc : heap[c]? = some (.exec argv eargv)) : Wraps (heap.set c x) c p rs := by
  induction hw with
  | nil => exact .nil
  | @snoc p q rs r hp _ ih =>
    refine .snoc r ?_ ih
    have hne : c ≠ p := by
      rintro rfl
      rw [hp] at hc
      cases hc
    rw [List.getElem?_set_ne hne, hp]

theorem prefix_set {x : Cmd} (h : heap <+: heap') (hc : heap.length ≤ c) : heap <+: heap'.set c x := by
  obtain ⟨l, rfl⟩ := h
  rw [List.set_append_right c x hc]
  exact List.prefix_append _ _

end Heap

/-! ## The loops -/

def Err.stop : Err → Stop
  | .fuel => .fuel
  | .panic msg => .panic msg

theorem peeks_redir (t : Tok) (ts : List Tok) :
    peeks [Shell.lt, Shell.gt] (t :: ts) = t.redirOp.isSome := by
  cases t <;> rfl

/-- The symbols that `peek` asks for by themselves. -/
def Tok.single : Tok → Bool
  | .bar | .amp | .semi | .lpar | .rpar => true
  | _ => false

theorem peeks_single {ts : List Tok} (t : Tok) (ht : t.single = true)
    (h : ∀ ts', ts ≠ t :: ts') : peeks [t.code] ts = false := by
  cases ts with
  | nil => rfl
  | cons u ts =>
    have hne : u ≠ t := fun hu => h ts (by rw [hu])
    cases t <;> first | (cases u <;> first | rfl | exact absurd rfl hne) | cases ht

theorem code_ne_wordTok {t : Tok} (h : ∀ w, t ≠ .word w) : t.code ≠ wordTok := by
  cases t <;> first | exact absurd rfl (h _) | decide

/-- The node of a redirection, by the token that `gettoken` returned. -/
theorem redirFor_eq {tok : UInt8} {op : RedirOp} (h : tok = op.tok.code) (cmd q e : ℕ) :
    redirFor tok cmd q e = redircmd cmd q e op.mode op.fd := by
  subst h
  cases op <;> rfl

section Simulation

variable {α β γ δ : Type} {m : Bytes} {es : ℕ} {heap₀ heap₁ : List Cmd} {st : Parser}
  {ts : List Tok}

/-- The parser function `f`, started in `st`, does what `r` says: it ends before the tokens that
are left, with a result that `R` relates to the one of `r`, and has kept the nodes of `heap₀`. -/
def Sim (m : Bytes) (es : ℕ) (heap₀ : List Cmd) (f : Parse β) (st : Parser)
    (r : Except Err (α × List Tok)) (R : α → β → List Cmd → Prop) : Prop :=
  Spec f st
    (fun b st' => ∃ a vs, r = .ok (a, vs) ∧ Before m es st'.ps vs ∧ heap₀ <+: st'.heap ∧
      R a b st'.heap)
    (fun e => ∃ e', r = .error e' ∧ e = e'.stop)

variable {f : Parse β} {g : β → Parse δ} {r : Except Err (α × List Tok)}
  {k : α × List Tok → Except Err (γ × List Tok)} {R T : α → β → List Cmd → Prop}
  {S : γ → δ → List Cmd → Prop}

theorem Sim.bind (h : Sim m es heap₀ f st r R)
    (hg : ∀ a vs b st', Before m es st'.ps vs → heap₀ <+: st'.heap → R a b st'.heap →
      Sim m es heap₀ (g b) st' (k (a, vs)) S) : Sim m es heap₀ (f >>= g) st (r >>= k) S := by
  refine spec_bind.mpr (Spec.mono h ?_ ?_)
  · rintro b st' ⟨a, vs, rfl, hvs, hpre, hR⟩
    exact hg a vs b st' hvs hpre hR
  · rintro e ⟨e', rfl, rfl⟩
    exact ⟨e', rfl, rfl⟩

theorem Sim.mono (h : Sim m es heap₁ f st r R) (hpre : heap₀ <+: heap₁)
    (hR : ∀ a b heap, heap₁ <+: heap → R a b heap → T a b heap) : Sim m es heap₀ f st r T := by
  refine Spec.imp h ?_
  rintro b st' ⟨a, vs, hr, hvs, hpre', hab⟩
  exact ⟨a, vs, hr, hvs, hpre.trans hpre', hR a b _ hpre' hab⟩

theorem Sim.map {h : α → γ} {S : γ → β → List Cmd → Prop} (hf : Sim m es heap₀ f st r R)
    (hR : ∀ a b heap, R a b heap → S (h a) b heap) :
    Sim m es heap₀ f st (r >>= fun p => .ok (h p.1, p.2)) S := by
  refine Spec.mono hf ?_ ?_
  · rintro b st' ⟨a, vs, rfl, hvs, hpre, hab⟩
    exact ⟨h a, vs, rfl, hvs, hpre, hR a b _ hab⟩
  · rintro e ⟨e', rfl, rfl⟩
    exact ⟨e', rfl, rfl⟩

theorem sim_pure {a : α} {b : β} (hts : Before m es st.ps ts) (hpre : heap₀ <+: st.heap)
    (hR : R a b st.heap) : Sim m es heap₀ (pure b) st (.ok (a, ts)) R :=
  spec_pure.mpr ⟨a, ts, rfl, hts, hpre, hR⟩

theorem sim_fuel : Sim m es heap₀ (throw .fuel) st (.error .fuel) R :=
  spec_throw.mpr ⟨.fuel, rfl, rfl⟩

theorem sim_panic {msg : String} : Sim m es heap₀ (throw (.panic msg)) st (.error (.panic msg)) R :=
  spec_throw.mpr ⟨.panic msg, rfl, rfl⟩

theorem sim_peek {g : Bool → Parse β} {toks : List UInt8} (hts : Before m es st.ps ts)
    (htoks : toks ⊆ symbols)
    (hg : ∀ s, Before m es s ts → Sim m es heap₀ (g (peeks toks ts)) { st with ps := s } r R) :
    Sim m es heap₀ (peek m es toks >>= g) st r R :=
  spec_bind.mpr (spec_peek hts htoks hg)

variable {g : Token → Parse β}

theorem sim_gettoken {t : Tok} (hts : Before m es st.ps (t :: ts))
    (hg : ∀ tok s, Before m es s ts → tok.ret = t.code →
      (∀ w, t = .word w → tok.q = w.pos ∧ tok.eq = w.stop) →
      Sim m es heap₀ (g tok) { st with ps := s } r R) :
    Sim m es heap₀ (gettoken m es >>= g) st r R :=
  spec_bind.mpr (spec_gettoken hts hg)

theorem sim_gettoken_nil (hts : Before m es st.ps [])
    (hg : ∀ tok s, Before m es s [] → tok.ret = 0 →
      Sim m es heap₀ (g tok) { st with ps := s } r R) :
    Sim m es heap₀ (gettoken m es >>= g) st r R :=
  spec_bind.mpr (spec_gettoken_nil hts hg)

theorem sim_alloc {g : ℕ → Parse β} {c : Cmd}
    (hg : Sim m es heap₀ (g st.heap.length) { st with heap := st.heap ++ [c] } r R) :
    Sim m es heap₀ (alloc c >>= g) st r R := by
  refine spec_bind.mpr ?_
  simp only [alloc, spec_bind, spec_get, spec_set, spec_pure]
  exact hg

theorem sim_alloc_pure {c : Cmd} {a : α} {R : α → ℕ → List Cmd → Prop} (hts : Before m es st.ps ts)
    (hpre : heap₀ <+: st.heap) (hR : R a st.heap.length (st.heap ++ [c])) :
    Sim m es heap₀ (alloc c) st (.ok (a, ts)) R := by
  unfold Sim alloc
  simp only [spec_bind, spec_get, spec_set, spec_pure]
  exact ⟨a, ts, rfl, hts, hpre.trans (List.prefix_append _ _), hR⟩

theorem getElem?_alloc (heap : List Cmd) (c : Cmd) : (heap ++ [c])[heap.length]? = some c := by
  simp

end Simulation

section Loops

variable {m : Bytes} {es : ℕ}

theorem parseredirs_sim (c : ℕ) : ∀ (n : ℕ) (st : Parser) (ts : List Tok) (cmd : ℕ)
    (rs₀ : List Redir), Before m es st.ps ts → Wraps st.heap c cmd rs₀ →
    Sim m es st.heap (parseredirs m es n cmd) st (Read.redirs n ts)
      (fun rs p heap => Wraps heap c p (rs₀ ++ rs)) := by
  intro n
  induction n with
  | zero => exact fun st ts cmd rs₀ _ _ => sim_fuel
  | succ n ih =>
    intro st ts cmd rs₀ hts hw
    have hw₀ : Wraps st.heap c cmd (rs₀ ++ []) := by rwa [List.append_nil]
    unfold parseredirs
    refine sim_peek hts (by decide) fun s hs => ?_
    match ts, hs with
    | [], hs => exact sim_pure hs List.prefix_rfl hw₀
    | t :: ts, hs =>
      rw [peeks_redir]
      cases hop : t.redirOp with
      | none =>
        rw [Read.redirs_stop (by rintro _ ⟨⟩; exact hop)]
        exact sim_pure hs List.prefix_rfl hw₀
      | some op =>
        obtain rfl := Tok.redirOp_eq_some.mp hop
        rw [Option.isSome_some, if_pos rfl]
        refine sim_gettoken hs fun tok s hs htok _ => ?_
        by_cases hword : ∃ w ts', ts = .word w :: ts'
        · obtain ⟨w, ts, rfl⟩ := hword
          refine sim_gettoken hs fun file s hs hret hpos => ?_
          obtain ⟨hq, heq⟩ := hpos w rfl
          have hcode : ¬ file.ret ≠ wordTok := not_not_intro hret
          rw [if_neg hcode, redirFor_eq htok, hq, heq, Read.redirs_word]
          have hpre := List.prefix_append st.heap [Redir.node ⟨op, w⟩ cmd]
          have hwrap : Wraps (st.heap ++ [Redir.node ⟨op, w⟩ cmd]) c st.heap.length
              (rs₀ ++ [⟨op, w⟩]) := .snoc _ (getElem?_alloc _ _) (hw.mono hpre)
          refine sim_alloc ?_
          refine Sim.map ((ih _ ts _ _ hs hwrap).mono hpre fun _ _ _ _ h => h) ?_
          intro rs p heap h
          rwa [List.append_assoc] at h
        · have hne : ∀ w ts', ts ≠ .word w :: ts' := fun w ts' h => hword ⟨w, ts', h⟩
          rw [Read.redirs_missing op hne]
          cases ts with
          | nil =>
            refine sim_gettoken_nil hs fun file s _ hret => ?_
            have hcode : file.ret ≠ wordTok := by rw [hret]; decide
            rw [if_pos hcode]
            exact sim_panic
          | cons t ts =>
            refine sim_gettoken hs fun file s _ hret _ => ?_
            have hcode : file.ret ≠ wordTok := by
              rw [hret]
              exact code_ne_wordTok fun w hw => hne w ts (by rw [hw])
            rw [if_pos hcode]
            exact sim_panic

theorem parsebacks_sim : ∀ (n : ℕ) (st : Parser) (ts : List Tok) (cmd : ℕ) (t : Tree),
    Before m es st.ps ts → Built st.heap cmd t →
    Sim m es st.heap (parsebacks m es n cmd) st (Read.backs n ts)
      (fun k p heap => Built heap p (t.backs k)) := by
  intro n
  induction n with
  | zero => exact fun st ts cmd t _ _ => sim_fuel
  | succ n ih =>
    intro st ts cmd t hts ht
    unfold parsebacks
    refine sim_peek hts (by decide) fun s hs => ?_
    by_cases hamp : ∃ ts', ts = .amp :: ts'
    · obtain ⟨ts, rfl⟩ := hamp
      refine sim_gettoken hs fun tok s hs _ _ => sim_alloc ?_
      have hpre := List.prefix_append st.heap [Cmd.back cmd]
      have hback : Built (st.heap ++ [Cmd.back cmd]) st.heap.length t.back :=
        ⟨cmd, getElem?_alloc _ _, ht.mono hpre⟩
      exact Sim.map ((ih _ ts _ _ hs hback).mono hpre fun _ _ _ _ h => h) fun _ _ _ h => h
    · have hread : Read.backs (n + 1) ts = .ok (0, ts) := by
        unfold Read.backs
        split
        · cases ‹_ = _›
        · exact absurd ⟨_, rfl⟩ hamp
        · rfl
      have hpeeks : peeks [Shell.amp] ts = false := peeks_single .amp rfl fun ts' h => hamp ⟨ts', h⟩
      rw [hpeeks, hread]
      exact sim_pure hs List.prefix_rfl ht

/-! ## The words of a command -/

variable {ws : List Word} {f : Word → ℕ}

theorem length_argvOf (h : ws.length ≤ MAXARGS) : (argvOf f ws).length = MAXARGS := by
  simp only [argvOf, List.length_append, List.length_map, List.length_replicate]
  omega

theorem argvOf_set (w : Word) (h : ws.length < MAXARGS) :
    (argvOf f ws).set ws.length (some (f w)) = argvOf f (ws ++ [w]) := by
  obtain ⟨k, hk⟩ : ∃ k, MAXARGS - ws.length = k + 1 := ⟨MAXARGS - ws.length - 1, by omega⟩
  have hk' : MAXARGS - (ws ++ [w]).length = k := by
    rw [List.length_append, List.length_singleton]
    omega
  rw [argvOf, argvOf, hk, hk', List.set_append_right _ _ (by simp)]
  simp [List.replicate_succ]

theorem argvOf_set_none (h : ws.length < MAXARGS) :
    (argvOf f ws).set ws.length none = argvOf f ws := by
  obtain ⟨k, hk⟩ : ∃ k, MAXARGS - ws.length = k + 1 := ⟨MAXARGS - ws.length - 1, by omega⟩
  rw [argvOf, hk, List.set_append_right _ _ (by simp)]
  simp [List.replicate_succ]

theorem sim_setArg {α β : Type} {heap₀ : List Cmd} {st : Parser} {c : ℕ}
    {g : Unit → Parse β} {q e : Option ℕ} {r : Except Err (α × List Tok)}
    {R : α → β → List Cmd → Prop} (hc : st.heap[c]? = some (execNode ws))
    (hlen : ws.length < MAXARGS)
    (hg : Sim m es heap₀ (g ()) { st with heap := (st.heap.set c
      (.exec ((argvOf Word.pos ws).set ws.length q) ((argvOf Word.stop ws).set ws.length e))) }
      r R) :
    Sim m es heap₀ (setArg c ws.length q e >>= g) st r R := by
  have hbound : ws.length < (argvOf Word.pos ws).length ∧
      ws.length < (argvOf Word.stop ws).length := by
    rw [length_argvOf hlen.le, length_argvOf hlen.le]
    exact ⟨hlen, hlen⟩
  refine spec_bind.mpr ?_
  simp only [setArg, spec_bind, spec_get, hc, execNode, if_pos hbound, spec_set]
  exact hg

theorem parseargs_sim (c : ℕ) (heap₀ : List Cmd) (hc₀ : heap₀.length ≤ c) : ∀ (n : ℕ) (st : Parser)
    (ts : List Tok) (ret : ℕ) (ws : List Word) (rs₀ : List Redir), Before m es st.ps ts →
    heap₀ <+: st.heap → st.heap[c]? = some (execNode ws) → ws.length < MAXARGS →
    Wraps st.heap c ret rs₀ →
    Sim m es heap₀ (parseargs m es c n ret ws.length) st (Read.args n ws.length ts)
      (fun as p heap => p.2 = (ws ++ as.map Arg.word).length ∧ p.2 < MAXARGS ∧
        heap[c]? = some (execNode (ws ++ as.map Arg.word)) ∧
        Wraps heap c p.1 (rs₀ ++ as.flatMap Arg.redirs)) := by
  intro n
  induction n with
  | zero => exact fun st ts ret ws rs₀ _ _ _ _ _ => sim_fuel
  | succ n ih =>
    intro st ts ret ws rs₀ hts hpre hc hlen hw
    unfold parseargs
    refine sim_peek hts (by decide) fun s hs => ?_
    have hstop : ws.length = (ws ++ ([] : List Arg).map Arg.word).length ∧ ws.length < MAXARGS ∧
        st.heap[c]? = some (execNode (ws ++ ([] : List Arg).map Arg.word)) ∧
        Wraps st.heap c ret (rs₀ ++ ([] : List Arg).flatMap Arg.redirs) := by
      simpa using ⟨hlen, hc, hw⟩
    match ts, hs with
    | [], hs =>
      refine sim_gettoken_nil hs fun tok s hs hret => ?_
      rw [if_pos hret]
      exact sim_pure hs hpre hstop
    | .bar :: ts, hs | .rpar :: ts, hs | .amp :: ts, hs | .semi :: ts, hs =>
      exact sim_pure hs hpre hstop
    | .lt :: ts, hs | .gt :: ts, hs | .gtgt :: ts, hs | .lpar :: ts, hs =>
      refine sim_gettoken hs fun tok s hs hret _ => ?_
      rw [hret, if_neg (by decide), if_pos (by decide)]
      exact sim_panic
    | .word w :: ts, hs =>
      refine sim_gettoken hs fun tok s hs hret hpos => ?_
      obtain ⟨hq, heq⟩ := hpos w rfl
      have hret : tok.ret = wordTok := hret
      rw [hret, if_neg (by decide), if_neg (by simp), hq, heq]
      refine sim_setArg hc hlen ?_
      have hnode : Cmd.exec ((argvOf Word.pos ws).set ws.length (some w.pos))
          ((argvOf Word.stop ws).set ws.length (some w.stop)) = execNode (ws ++ [w]) := by
        rw [argvOf_set w hlen, argvOf_set w hlen, execNode]
      rw [hnode]
      simp only [Read.args]
      by_cases hmax : ws.length + 1 ≥ MAXARGS
      · rw [if_pos hmax, if_pos hmax]
        exact sim_panic
      · rw [if_neg hmax, if_neg hmax]
        have hlen' : (ws ++ [w]).length = ws.length + 1 := by simp
        have hget : (st.heap.set c (execNode (ws ++ [w])))[c]? = some (execNode (ws ++ [w])) := by
          rw [List.getElem?_set_self (List.getElem?_eq_some_iff.mp hc).1]
        have hredirs := (parseredirs_sim c n { ps := s, heap := st.heap.set c (execNode (ws ++ [w])) }
          ts ret rs₀ hs (hw.set hc)).mono (prefix_set hpre hc₀)
          (T := fun rs p heap => Wraps heap c p (rs₀ ++ rs) ∧
            heap[c]? = some (execNode (ws ++ [w])))
          fun _ _ _ h hw => ⟨hw, getElem?_mono h hget⟩
        refine hredirs.bind fun rs vs ret st' hvs hpre' h => ?_
        have hrest := ih st' vs ret (ws ++ [w]) (rs₀ ++ rs) hvs hpre' h.2 (by omega) h.1
        rw [hlen'] at hrest
        refine Sim.map hrest ?_
        rintro as p heap ⟨hargc, hmax', hnode', hwraps⟩
        refine ⟨?_, hmax', ?_, ?_⟩
        · simpa using hargc
        · simpa using hnode'
        · simpa using hwraps

end Loops

/-! ## The functions that call each other -/

section Functions

variable {m : Bytes} {es n : ℕ}

/-- The parser function builds the tree that `g` reads. -/
def Builds (m : Bytes) (es : ℕ) (f : Parse ℕ) (g : List Tok → Except Err (Tree × List Tok)) : Prop :=
  ∀ (st : Parser) (ts : List Tok), Before m es st.ps ts →
    Sim m es st.heap f st (g ts) (fun t p heap => Built heap p t)

/-- The nodes that a second part allocates leave the tree of the first part as it is. -/
theorem Builds.after {f : Parse ℕ} {g : List Tok → Except Err (Tree × List Tok)}
    (h : Builds m es f g) {heap₀ : List Cmd} (st : Parser) {ts : List Tok} {p : ℕ} {t : Tree}
    (hts : Before m es st.ps ts) (hpre : heap₀ <+: st.heap) (hp : Built st.heap p t) :
    Sim m es heap₀ f st (g ts) (fun u q heap => Built heap p t ∧ Built heap q u) :=
  (h st ts hts).mono hpre fun _ _ _ h hq => ⟨hp.mono h, hq⟩

theorem builds_line (hpipe : Builds m es (parsepipe m es n) (Read.pipe n))
    (hline : Builds m es (parseline m es n) (Read.line n)) :
    Builds m es (parseline m es (n + 1)) (Read.line (n + 1)) := by
  intro st ts hts
  unfold parseline Read.line
  refine (hpipe st ts hts).bind fun t vs cmd st₁ hvs hpre ht => ?_
  have hbacks := (parsebacks_sim n st₁ vs cmd t hvs ht).mono hpre fun _ _ _ _ h => h
  refine hbacks.bind fun k vs cmd st₂ hvs hpre hk => ?_
  refine sim_peek hvs (by decide) fun s hs => ?_
  cases vs with
  | nil => exact sim_pure hs hpre hk
  | cons v rest =>
    cases v with
    | semi =>
      refine sim_gettoken hs fun _ s hs _ _ => ?_
      refine (hline.after { st₂ with ps := s } hs hpre hk).bind fun u vs right st₃ hvs hpre h => ?_
      exact sim_alloc_pure hvs hpre ⟨cmd, right, getElem?_alloc _ _, h.1.mono (List.prefix_append _ _),
        h.2.mono (List.prefix_append _ _)⟩
    | _ => exact sim_pure hs hpre hk

theorem builds_pipe (hexec : Builds m es (parseexec m es n) (Read.exec n))
    (hpipe : Builds m es (parsepipe m es n) (Read.pipe n)) :
    Builds m es (parsepipe m es (n + 1)) (Read.pipe (n + 1)) := by
  intro st ts hts
  unfold parsepipe Read.pipe
  refine (hexec st ts hts).bind fun t vs cmd st₁ hvs hpre ht => ?_
  refine sim_peek hvs (by decide) fun s hs => ?_
  cases vs with
  | nil => exact sim_pure hs hpre ht
  | cons v rest =>
    cases v with
    | bar =>
      refine sim_gettoken hs fun _ s hs _ _ => ?_
      refine (hpipe.after { st₁ with ps := s } hs hpre ht).bind fun u vs right st₂ hvs hpre h => ?_
      exact sim_alloc_pure hvs hpre ⟨cmd, right, getElem?_alloc _ _, h.1.mono (List.prefix_append _ _),
        h.2.mono (List.prefix_append _ _)⟩
    | _ => exact sim_pure hs hpre ht

theorem builds_block (hline : Builds m es (parseline m es n) (Read.line n)) :
    Builds m es (parseblock m es (n + 1)) (Read.block (n + 1)) := by
  intro st ts hts
  unfold parseblock
  refine sim_peek hts (by decide) fun s hs => ?_
  match ts, hs with
  | .lpar :: ts, hs =>
    refine sim_gettoken hs fun _ s hs _ _ => ?_
    refine (hline { st with ps := s } ts hs).bind fun t vs cmd st₁ hvs hpre ht => ?_
    refine sim_peek hvs (by decide) fun s hs => ?_
    match vs, hs with
    | .rpar :: rest, hs =>
      refine sim_gettoken hs fun _ s hs _ _ => ?_
      have hredirs := parseredirs_sim cmd n { ps := s, heap := st₁.heap } rest cmd [] hs .nil
      refine Sim.map (hredirs.mono hpre (T := fun rs p heap => Built heap p (t.wrap rs)) ?_)
        fun _ _ _ h => h
      intro rs p heap hheap hw
      exact hw.built (ht.mono hheap)
    | [], hs | .word _ :: _, hs | .lt :: _, hs | .gt :: _, hs | .gtgt :: _, hs | .semi :: _, hs
    | .amp :: _, hs | .lpar :: _, hs | .bar :: _, hs => exact sim_panic
  | [], hs | .word _ :: _, hs | .lt :: _, hs | .gt :: _, hs | .gtgt :: _, hs | .semi :: _, hs
  | .amp :: _, hs | .rpar :: _, hs | .bar :: _, hs => exact sim_panic

theorem builds_exec (hblock : Builds m es (parseblock m es n) (Read.block n)) :
    Builds m es (parseexec m es (n + 1)) (Read.exec (n + 1)) := by
  intro st ts hts
  unfold parseexec
  refine sim_peek hts (by decide) fun s hs => ?_
  by_cases hlpar : ∃ ts', ts = .lpar :: ts'
  · obtain ⟨ts, rfl⟩ := hlpar
    exact hblock { st with ps := s } _ hs
  · have hpeeks : peeks [Shell.lpar] ts = false :=
      peeks_single .lpar rfl fun ts' h => hlpar ⟨ts', h⟩
    have hhead : ts.head? ≠ some .lpar := by
      intro h
      obtain ⟨ts', h⟩ := List.head?_eq_some_iff.mp h
      exact hlpar ⟨ts', h⟩
    rw [hpeeks, Read.exec_of_head hhead]
    refine sim_alloc ?_
    have hpre := List.prefix_append st.heap [execNode []]
    have hnode := getElem?_alloc st.heap (execNode [])
    have hredirs := (parseredirs_sim st.heap.length n
      { ps := s, heap := st.heap ++ [execNode []] } ts st.heap.length [] hs .nil).mono hpre
      (T := fun rs p heap => Wraps heap st.heap.length p rs ∧
        heap[st.heap.length]? = some (execNode []))
      fun _ _ _ h hw => ⟨hw, getElem?_mono h hnode⟩
    refine hredirs.bind fun rs vs ret st₁ hvs hpre h => ?_
    have hargs := parseargs_sim st.heap.length st.heap le_rfl n st₁ vs ret [] rs hvs hpre h.2
      (by decide) h.1
    refine hargs.bind fun as vs p st₂ hvs hpre h => ?_
    obtain ⟨hargc, hmax, hnode, hw⟩ := h
    rw [hargc] at hmax ⊢
    refine sim_setArg hnode hmax ?_
    have hset : st₂.heap.set st.heap.length (execNode ([] ++ as.map Arg.word)) = st₂.heap := by
      obtain ⟨hlt, hget⟩ := List.getElem?_eq_some_iff.mp hnode
      rw [← hget, List.set_getElem_self]
    rw [argvOf_set_none hmax, argvOf_set_none hmax, ← execNode, hset]
    refine sim_pure hvs hpre ?_
    have hbuilt : Built st₂.heap st.heap.length (.exec (as.map Arg.word)) := hnode
    exact hw.built hbuilt

theorem builds_all : ∀ n, Builds m es (parseline m es n) (Read.line n) ∧
    Builds m es (parsepipe m es n) (Read.pipe n) ∧ Builds m es (parseexec m es n) (Read.exec n) ∧
    Builds m es (parseblock m es n) (Read.block n) := by
  intro n
  induction n with
  | zero =>
    exact ⟨fun _ _ _ => sim_fuel, fun _ _ _ => sim_fuel, fun _ _ _ => sim_fuel,
      fun _ _ _ => sim_fuel⟩
  | succ n ih =>
    obtain ⟨hline, hpipe, hexec, hblock⟩ := ih
    exact ⟨builds_line hpipe hline, builds_pipe hexec hpipe, builds_exec hblock, builds_block hline⟩

end Functions

end TatakOS.Shell
