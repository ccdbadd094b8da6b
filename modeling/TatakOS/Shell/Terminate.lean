import Mathlib.Data.List.TakeWhile
import TatakOS.Shell.Parse

/-!
# The command and its strings

`nulterminate` stores a NUL after every word of the tree. A word ends before a blank, a symbol or
the end of the input, so no NUL falls into another word: each pointer of the tree then points to a
string that is the word.
-/

namespace TatakOS.Shell

/-! ## Words -/

def Tree.words : Tree → List Word
  | .exec ws => ws
  | .redir t r => t.words ++ [r.file]
  | .pipe t u => t.words ++ u.words
  | .list t u => t.words ++ u.words
  | .back t => t.words

/-- Every command has at most `MAXARGS - 1` words. -/
def Tree.Fits : Tree → Prop
  | .exec ws => ws.length < MAXARGS
  | .redir t _ => t.Fits
  | .pipe t u => t.Fits ∧ u.Fits
  | .list t u => t.Fits ∧ u.Fits
  | .back t => t.Fits

variable {t : Tree}

theorem Tree.fits_wrap (h : t.Fits) (rs : List Redir) : (t.wrap rs).Fits := by
  induction rs generalizing t with
  | nil => exact h
  | cons r rs ih => exact ih (t := .redir t r) h

theorem Tree.fits_backs (h : t.Fits) (k : ℕ) : (t.backs k).Fits := by
  induction k generalizing t with
  | zero => exact h
  | succ k ih => exact ih (t := .back t) h

variable {ts : List Tok}

theorem Derives.fits {A : Nonterminal} (h : Derives A ts t) : t.Fits := by
  induction h with
  | line k _ ih => exact Tree.fits_backs ih k
  | lineSemi k _ _ ih ih' => exact ⟨Tree.fits_backs ih k, ih'⟩
  | pipe _ ih => exact ih
  | pipeBar _ _ ih ih' => exact ⟨ih, ih'⟩
  | block rs _ ih => exact Tree.fits_wrap ih rs
  | simple rs as hlen =>
    have hmax : 0 < MAXARGS := by decide
    have hfits : (Tree.exec (as.map Arg.word)).Fits := by
      rw [Tree.Fits, List.length_map]
      omega
    exact Tree.fits_wrap hfits _

theorem Tree.words_wrap (t : Tree) (rs : List Redir) :
    (t.wrap rs).words = t.words ++ rs.map Redir.file := by
  induction rs generalizing t with
  | nil => simp [Tree.wrap]
  | cons r rs ih =>
    have h := ih (.redir t r)
    simp only [Tree.words, List.append_assoc, List.singleton_append] at h
    exact h

theorem Tree.words_backs (t : Tree) (k : ℕ) : (t.backs k).words = t.words := by
  induction k generalizing t with
  | zero => rfl
  | succ k ih => exact ih (.back t)

theorem mem_redirToks {rs : List Redir} {w : Word} (h : w ∈ rs.map Redir.file) :
    Tok.word w ∈ redirToks rs := by
  obtain ⟨r, hr, rfl⟩ := List.mem_map.mp h
  exact List.mem_flatMap.mpr ⟨r, hr, by simp⟩

theorem Derives.words {A : Nonterminal} (h : Derives A ts t) : ∀ w ∈ t.words, Tok.word w ∈ ts := by
  induction h with
  | line k _ ih =>
    intro w hw
    rw [Tree.words_backs] at hw
    exact List.mem_append_left _ (ih w hw)
  | lineSemi k _ _ ih ih' =>
    intro w hw
    rw [Tree.words, Tree.words_backs] at hw
    rcases List.mem_append.mp hw with hw | hw
    · simp [ih w hw]
    · simp [ih' w hw]
  | pipe _ ih => exact ih
  | pipeBar _ _ ih ih' =>
    intro w hw
    rcases List.mem_append.mp hw with hw | hw
    · simp [ih w hw]
    · simp [ih' w hw]
  | block rs _ ih =>
    intro w hw
    rw [Tree.words_wrap] at hw
    rcases List.mem_append.mp hw with hw | hw
    · simp [ih w hw]
    · simp [mem_redirToks hw]
  | simple rs as _ =>
    intro w hw
    rw [Tree.words_wrap] at hw
    rcases List.mem_append.mp hw with hw | hw
    · obtain ⟨a, ha, rfl⟩ := List.mem_map.mp hw
      refine List.mem_append_right _ (List.mem_flatMap.mpr ⟨a, ha, ?_⟩)
      simp
    · rw [allRedirs, List.map_append, List.mem_append] at hw
      rcases hw with hw | hw
      · exact List.mem_append_left _ (mem_redirToks hw)
      · obtain ⟨r, hr, rfl⟩ := List.mem_map.mp hw
        obtain ⟨a, ha, hra⟩ := List.mem_flatMap.mp hr
        refine List.mem_append_right _ (List.mem_flatMap.mpr ⟨a, ha, ?_⟩)
        exact List.mem_cons_of_mem _ (mem_redirToks (List.mem_map.mpr ⟨r, hra, rfl⟩))

/-! ## Words in memory -/

/-- The characters of the word stand in memory, and none of a word comes after them. -/
structure WordIn (m : Bytes) (w : Word) : Prop where
  chars : ∀ i (hi : i < w.text.length),
    m (w.pos + i) = w.text[i] ∧ w.text[i] ≠ 0 ∧ isWordChar w.text[i] = true
  stop : m w.stop = 0 ∨ isWordChar (m w.stop) = false

variable {m : Bytes} {X : List UInt8}

theorem wordIn_takeWhile {s : ℕ} (h : CString m s X) : WordIn m ⟨s, X.takeWhile isWordChar⟩ := by
  constructor
  · intro i hi
    have hpre := List.takeWhile_prefix isWordChar (l := X)
    have hi' : i < X.length := lt_of_lt_of_le hi hpre.length_le
    have hget : (X.takeWhile isWordChar)[i] = X[i] := hpre.getElem hi
    obtain ⟨hm, h0⟩ := (cstring_iff.mp h).1 i hi'
    have hword : isWordChar (X.takeWhile isWordChar)[i] = true :=
      List.mem_takeWhile_imp (List.getElem_mem hi)
    exact ⟨hm.trans hget.symm, hget ▸ h0, hword⟩
  · have hrest := cstring_dropWhile (p := isWordChar) h
    have hhead := List.head?_dropWhile_not isWordChar X
    cases hX : X.dropWhile isWordChar with
    | nil =>
      rw [hX] at hrest
      exact .inl hrest
    | cons c cs =>
      rw [hX] at hrest hhead
      refine .inr ?_
      rw [Word.stop, (cstring_cons.mp hrest).1]
      simpa using hhead

theorem wordIn_lex : ∀ (X : List UInt8) (s : ℕ), CString m s X →
    ∀ w, Tok.word w ∈ lex s X → WordIn m w := by
  intro X
  induction h : X.length using Nat.strong_induction_on generalizing X with
  | _ n ih =>
    intro s hX w hw
    subst h
    match X, hX with
    | [], hX =>
      rw [lex] at hw
      exact absurd hw List.not_mem_nil
    | c :: cs, hX =>
      obtain ⟨hc, h0, hcs⟩ := cstring_cons.mp hX
      cases hb : isBlank c with
      | true =>
        rw [lex_blank hb] at hw
        exact ih cs.length (by simp) cs rfl (s + 1) hcs w hw
      | false =>
        by_cases hgt : c = Shell.gt
        · subst hgt
          by_cases hd : cs.head? = some Shell.gt
          · obtain ⟨ds, rfl⟩ := List.head?_eq_some_iff.mp hd
            rw [lex_gtgt] at hw
            have hmem : Tok.word w ∈ lex (s + 2) ds := by simpa using hw
            have hlt : ds.length < (Shell.gt :: Shell.gt :: ds).length := by
              simp only [List.length_cons]
              omega
            exact ih ds.length hlt ds rfl (s + 2) (cstring_cons.mp hcs).2.2 w hmem
          · rw [lex_gt hd] at hw
            have hmem : Tok.word w ∈ lex (s + 1) cs := by simpa using hw
            exact ih cs.length (by simp) cs rfl (s + 1) hcs w hmem
        · cases hs : symbolTok c with
          | some t =>
            rw [lex_symbol hs] at hw
            rcases List.mem_cons.mp hw with hw | hw
            · have hsym := isSymbol_of_symbolTok hs
              rw [← hw] at hsym
              cases hsym.char
            · exact ih cs.length (by simp) cs rfl (s + 1) hcs w hw
          | none =>
            rw [lex_word hb hgt hs] at hw
            rcases List.mem_cons.mp hw with hw | hw
            · cases hw
              have hword := wordIn_takeWhile hX
              rwa [List.takeWhile_cons_of_pos (isWordChar_of_not hb hgt hs)] at hword
            · have hlen := (List.dropWhile_suffix isWordChar (l := cs)).length_le
              refine ih (cs.dropWhile isWordChar).length ?_ _ rfl _ (cstring_dropWhile hcs) w hw
              rw [List.length_cons]
              omega

/-- Memory with a NUL after each of the words. -/
def cut (ws : List Word) (m : Bytes) : Bytes := fun i => if i ∈ ws.map Word.stop then 0 else m i

theorem cut_append (ws vs : List Word) (m : Bytes) : cut (ws ++ vs) m = cut vs (cut ws m) := by
  funext i
  simp only [cut, List.map_append, List.mem_append]
  by_cases hv : i ∈ vs.map Word.stop
  · simp [hv]
  · simp [hv]

theorem poke_stop (w : Word) (m : Bytes) : poke w.stop m = cut [w] m := by
  funext i
  simp [poke, cut]

variable {ws : List Word}

/-- A word stays whole when the words of the line are ended. -/
theorem WordIn.cstring {w : Word} (h : WordIn m w)
    (hws : ∀ v ∈ ws, WordIn m v) (hw : w ∈ ws) : CString (cut ws m) w.pos w.text := by
  refine cstring_iff.mpr ⟨fun i hi => ?_, ?_⟩
  · obtain ⟨hm, h0, hword⟩ := h.chars i hi
    have hnot : w.pos + i ∉ ws.map Word.stop := by
      intro hmem
      obtain ⟨v, hv, heq⟩ := List.mem_map.mp hmem
      have hstop := (hws v hv).stop
      rw [heq, hm] at hstop
      rcases hstop with hstop | hstop
      · exact h0 hstop
      · rw [hword] at hstop
        cases hstop
    rw [cut, if_neg hnot]
    exact ⟨hm, h0⟩
  · exact if_pos (List.mem_map.mpr ⟨w, hw, rfl⟩)

/-! ## nulterminate -/

section Nulterminate

variable {E : Stop → Prop}

theorem argvOf_get {f : Word → ℕ} {i : ℕ} (hi : i < ws.length) :
    (argvOf f ws)[i]? = some (some (f ws[i])) := by
  rw [argvOf, List.getElem?_append_left (by simpa using hi)]
  simp [hi]

theorem argvOf_get_length {f : Word → ℕ} (h : ws.length < MAXARGS) :
    (argvOf f ws)[ws.length]? = some none := by
  rw [argvOf, List.getElem?_append_right (by simp), List.length_map, Nat.sub_self,
    List.getElem?_replicate, if_pos (by omega)]

theorem terminateArgs_spec (h : ws.length < MAXARGS) : ∀ (n i : ℕ) (m : Bytes),
    i ≤ ws.length → ws.length < n + i →
    Spec (terminateArgs (argvOf Word.pos ws) (argvOf Word.stop ws) n i) m
      (fun _ m' => m' = cut (ws.drop i) m) E := by
  intro n
  induction n with
  | zero =>
    intro i m hi hn
    omega
  | succ n ih =>
    intro i m hi hn
    unfold terminateArgs
    rcases Nat.lt_or_eq_of_le hi with hlt | rfl
    · rw [argvOf_get hlt, argvOf_get hlt]
      refine spec_bind.mpr (spec_modify.mpr ((ih (i + 1) _ hlt (by omega)).imp ?_))
      rintro _ m' rfl
      rw [List.drop_eq_getElem_cons hlt, poke_stop, ← cut_append]
      rfl
    · rw [argvOf_get_length h, List.drop_length]
      exact spec_pure.mpr (by funext i; simp [cut])

/-- The fuel that `nulterminate` needs. -/
def Tree.height : Tree → ℕ
  | .exec _ => MAXARGS + 1
  | .redir t _ => t.height + 1
  | .pipe t u => max t.height u.height + 1
  | .list t u => max t.height u.height + 1
  | .back t => t.height + 1

theorem nulterminate_spec {heap : List Cmd} : ∀ {t : Tree} {p n : ℕ} {m : Bytes}, Built heap p t →
    t.Fits → t.height ≤ n →
    Spec (nulterminate heap n p) m (fun _ m' => m' = cut t.words m) E := by
  intro t
  induction t with
  | exec ws =>
    intro p n m hp hfits hn
    obtain ⟨n, rfl⟩ : ∃ k, n = k + 1 := ⟨n - 1, by simp only [Tree.height] at hn; omega⟩
    simp only [Tree.height] at hn
    simp only [Tree.Fits] at hfits
    have hargs := terminateArgs_spec (E := E) hfits n 0 m (Nat.zero_le _) (by omega)
    unfold nulterminate
    rw [show heap[p]? = some (execNode ws) from hp]
    exact hargs
  | redir t r ih =>
    rintro p n m ⟨c, hp, hc⟩ hfits hn
    obtain ⟨n, rfl⟩ : ∃ k, n = k + 1 := ⟨n - 1, by simp only [Tree.height] at hn; omega⟩
    unfold nulterminate
    rw [hp]
    refine (ih hc hfits (by simp only [Tree.height] at hn; omega)).bind ?_
    rintro _ m' rfl
    refine spec_modify.mpr ?_
    rw [poke_stop, ← cut_append]
    rfl
  | pipe t u iht ihu | list t u iht ihu =>
    rintro p n m ⟨a, b, hp, ha, hb⟩ hfits hn
    obtain ⟨n, rfl⟩ : ∃ k, n = k + 1 := ⟨n - 1, by simp only [Tree.height] at hn; omega⟩
    simp only [Tree.height] at hn
    unfold nulterminate
    rw [hp]
    refine (iht ha hfits.1 (by omega)).bind ?_
    rintro _ m' rfl
    refine (ihu hb hfits.2 (by omega)).imp ?_
    rintro _ m' rfl
    exact (cut_append _ _ _).symm
  | back t ih =>
    rintro p n m ⟨c, hp, hc⟩ hfits hn
    obtain ⟨n, rfl⟩ : ∃ k, n = k + 1 := ⟨n - 1, by simp only [Tree.height] at hn; omega⟩
    unfold nulterminate
    rw [hp]
    exact ih hc hfits (by simp only [Tree.height] at hn; omega)

end Nulterminate

/-! ## parsecmd -/

/-- The pointer `p` points to the tree `t`, and the pointers to its words and file names to their
strings. -/
def Shown (heap : List Cmd) (mem : Bytes) : ℕ → Tree → Prop
  | p, .exec ws => ∃ argv eargv, heap[p]? = some (.exec argv eargv) ∧
      (∀ i (hi : i < ws.length), ∃ q, argv[i]? = some (some q) ∧ CString mem q ws[i].text) ∧
      argv[ws.length]? = some none
  | p, .redir t r => ∃ c file efile, heap[p]? = some (.redir c file efile r.op.mode r.op.fd) ∧
      CString mem file r.file.text ∧ Shown heap mem c t
  | p, .pipe t u => ∃ a b, heap[p]? = some (.pipe a b) ∧ Shown heap mem a t ∧ Shown heap mem b u
  | p, .list t u => ∃ a b, heap[p]? = some (.list a b) ∧ Shown heap mem a t ∧ Shown heap mem b u
  | p, .back t => ∃ c, heap[p]? = some (.back c) ∧ Shown heap mem c t

theorem Built.shown {heap : List Cmd} {mem : Bytes} : ∀ {t : Tree} {p : ℕ}, Built heap p t →
    t.Fits → (∀ w ∈ t.words, CString mem w.pos w.text) → Shown heap mem p t := by
  intro t
  induction t with
  | exec ws =>
    intro p hp hfits hws
    refine ⟨_, _, hp, fun i hi => ⟨ws[i].pos, argvOf_get hi, hws _ (List.getElem_mem hi)⟩, ?_⟩
    exact argvOf_get_length hfits
  | redir t r ih =>
    rintro p ⟨c, hp, hc⟩ hfits hws
    refine ⟨c, _, _, hp, hws _ ?_, ih hc hfits fun w hw => hws w ?_⟩
    · exact List.mem_append_right _ (List.mem_singleton_self _)
    · exact List.mem_append_left _ hw
  | pipe t u iht ihu | list t u iht ihu =>
    rintro p ⟨a, b, hp, ha, hb⟩ hfits hws
    exact ⟨a, b, hp, iht ha hfits.1 fun w hw => hws w (List.mem_append_left _ hw),
      ihu hb hfits.2 fun w hw => hws w (List.mem_append_right _ hw)⟩
  | back t ih =>
    rintro p ⟨c, hp, hc⟩ hfits hws
    exact ⟨c, hp, ih hc hfits hws⟩

theorem strlen_eq : ∀ {Y : List UInt8} {s k n : ℕ},
    CString m (s + n) Y → X.length = n + Y.length → Y.length < k → strlen m s k n = .ok X.length := by
  intro Y
  induction Y with
  | nil =>
    intro s k n hY hlen hk
    obtain ⟨k, rfl⟩ : ∃ j, k = j + 1 := ⟨k - 1, by omega⟩
    rw [strlen, if_neg (by simpa using hY), hlen]
    rfl
  | cons c Y ih =>
    intro s k n hY hlen hk
    obtain ⟨k, rfl⟩ : ∃ j, k = j + 1 := ⟨k - 1, by omega⟩
    obtain ⟨hc, h0, hY⟩ := cstring_cons.mp hY
    rw [List.length_cons] at hlen hk
    rw [strlen, if_pos (by rwa [hc])]
    exact ih hY (by omega) (by omega)

/-- What `parsecmd` may do with the tokens `ts`: return a command that is the tree of every
derivation of a line, or stop with a syntax error if there is none. -/
def ParseOutcome (ts : List Tok) : Except Stop Parsed → Prop
  | .ok r => ∃ t, Derives .line ts t ∧ (∀ u, Derives .line ts u → u = t) ∧
      Shown r.heap r.mem r.cmd t
  | .error e => ((∃ msg, e = .panic msg) ∨ ∃ p, e = .leftovers p) ∧ ∀ t, ¬ Derives .line ts t

theorem Derives.unique {t u : Tree} (ht : Derives .line ts t)
    (hu : Derives .line ts u) : u = t := by
  have htu := (Read.line_of_derives hu le_rfl).symm.trans (Read.line_of_derives ht le_rfl)
  exact congrArg Prod.fst (Except.ok.inj htu)

/-- How `parsecmd` goes on after `parseline`. -/
theorem parsecmd_of_ok {fuel s len cmd : ℕ} {st : Parser} (hlen : strlen m s fuel 0 = .ok len)
    (hline : parseline m (s + len) fuel { ps := s, heap := [] } = .ok (cmd, st)) :
    parsecmd m fuel s = if advance isBlank m (s + len) st.ps ≠ s + len then
        .error (.leftovers (advance isBlank m (s + len) st.ps))
      else
        match nulterminate st.heap fuel cmd m with
        | .ok r => .ok { cmd, heap := st.heap, mem := r.2 }
        | .error e => .error e := by
  have hpeek : ∃ b, peek m (s + len) [] st =
      .ok (b, { st with ps := advance isBlank m (s + len) st.ps }) := ⟨_, rfl⟩
  obtain ⟨b, hpeek⟩ := hpeek
  simp only [parsecmd, hlen, bind, Except.bind, hline, hpeek]
  by_cases h : advance isBlank m (s + len) st.ps = s + len
  · simp only [h, ne_eq, not_true_eq_false, if_false]
    cases nulterminate st.heap fuel cmd m <;> rfl
  · simp only [h, ne_eq, not_false_eq_true, if_true]
    rfl

theorem parsecmd_of_error {fuel s len : ℕ} {e : Stop} (hlen : strlen m s fuel 0 = .ok len)
    (hline : parseline m (s + len) fuel { ps := s, heap := [] } = .error e) :
    parsecmd m fuel s = .error e := by
  simp only [parsecmd, hlen, bind, Except.bind, hline]

/-- With enough fuel for the input, the tokens and the tree. -/
theorem parsecmd_outcome {fuel s : ℕ} (hX : CString m s X)
    (hinput : X.length < fuel) (htoks : 4 * (lex s X).length + 4 ≤ fuel)
    (hheight : ∀ t, Derives .line (lex s X) t → t.height ≤ fuel) :
    ParseOutcome (lex s X) (parsecmd m fuel s) := by
  have hlen : strlen m s fuel 0 = .ok X.length := strlen_eq hX (by omega) (by omega)
  have hread : Read.Ends (Read.line fuel (lex s X)) := (Read.reader_ends fuel _).1 (by omega)
  have hbefore : Before m (s + X.length) s (lex s X) := ⟨X, hX, rfl, rfl⟩
  have hsim := (builds_all fuel).1 { ps := s, heap := [] } (lex s X) hbefore
  cases hline : parseline m (s + X.length) fuel { ps := s, heap := [] } with
  | error e =>
    obtain ⟨e', herr, rfl⟩ := Spec.of_error hsim hline
    rw [parsecmd_of_error hlen hline]
    refine ⟨?_, fun t ht => ?_⟩
    · cases e' with
      | fuel => exact absurd herr hread
      | panic msg => exact .inl ⟨msg, rfl⟩
    · rw [Read.line_of_derives ht (by omega)] at herr
      cases herr
  | ok r =>
    obtain ⟨cmd, st⟩ := r
    obtain ⟨t, vs, hok, hvs, -, hbuilt⟩ := Spec.of_ok hsim hline
    rw [parsecmd_of_ok hlen hline]
    cases vs with
    | cons v vs =>
      have hne : advance isBlank m (s + X.length) st.ps ≠ s + X.length := by
        intro h
        have hchar := hvs.cons.ne_zero
        rw [h] at hchar
        have hend : CString m s (X ++ []) := by rwa [List.append_nil]
        exact hchar hend.append_right
      rw [if_pos hne]
      refine ⟨.inr ⟨_, rfl⟩, fun t ht => ?_⟩
      rw [Read.line_of_derives ht (by omega)] at hok
      cases hok
    | nil =>
      rw [if_neg (not_not_intro hvs.nil.2)]
      obtain ⟨us, hus, hder⟩ := (Read.sound_all fuel).1 _ _ _ hok
      rw [List.append_nil] at hus
      subst hus
      have hnul := nulterminate_spec (m := m) (E := fun _ => False) hbuilt hder.fits
        (hheight t hder)
      obtain ⟨_, mem, hmem, rfl⟩ := hnul.exists_ok
      rw [hmem]
      have hwords : ∀ w ∈ t.words, WordIn m w := fun w hw => wordIn_lex X s hX w (hder.words w hw)
      refine ⟨t, hder, fun u hu => hder.unique hu, hbuilt.shown hder.fits fun w hw => ?_⟩
      exact (hwords w hw).cstring hwords hw

/-- The fuel that a line needs: only one tree can be derived. -/
theorem exists_parse_fuel (s : ℕ) (X : List UInt8) : ∃ n, ∀ fuel ≥ n, X.length < fuel ∧
    4 * (lex s X).length + 4 ≤ fuel ∧ ∀ t, Derives .line (lex s X) t → t.height ≤ fuel := by
  obtain ⟨height, hheight⟩ : ∃ height, ∀ t, Derives .line (lex s X) t → t.height ≤ height := by
    by_cases h : ∃ t, Derives .line (lex s X) t
    · obtain ⟨t, ht⟩ := h
      exact ⟨t.height, fun u hu => by rw [ht.unique hu]⟩
    · exact ⟨0, fun t ht => absurd ⟨t, ht⟩ h⟩
  refine ⟨max (X.length + 1) (max (4 * (lex s X).length + 4) height), fun fuel hfuel => ?_⟩
  refine ⟨by omega, by omega, fun t ht => (hheight t ht).trans ?_⟩
  omega

/-- For every line `parsecmd` comes to an end. It returns a command exactly if the tokens are a
line, the command is the tree of the line with every word and file name a string, and the arrays
are never left. -/
theorem parsecmd_correct (m : Bytes) (s : ℕ) (X : List UInt8) (hX : CString m s X) :
    ∃ n, ∀ fuel ≥ n, ParseOutcome (lex s X) (parsecmd m fuel s) := by
  obtain ⟨n, hn⟩ := exists_parse_fuel s X
  refine ⟨n, fun fuel hfuel => ?_⟩
  obtain ⟨hinput, htoks, hheight⟩ := hn fuel hfuel
  exact parsecmd_outcome hX hinput htoks hheight

/-- The line `a >b` at 0. -/
def sampleLine : Bytes := fun i => [97, 32, 62, 98].getD i 0

theorem parsecmd_correct_sample : CString sampleLine 0 [97, 32, 62, 98] ∧
      ∃ n, ∀ fuel ≥ n, ParseOutcome (lex 0 [97, 32, 62, 98]) (parsecmd sampleLine fuel 0) :=
  ⟨by simp [CString, sampleLine],
    parsecmd_correct sampleLine 0 [97, 32, 62, 98] (by simp [CString, sampleLine])⟩

end TatakOS.Shell
