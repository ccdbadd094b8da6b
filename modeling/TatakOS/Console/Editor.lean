import Mathlib.Data.List.Induction
import TatakOS.Console.Delivery

/-!
# The line discipline

What the console is for: characters are edited in a line, and a line that is complete is moved to
the end of a queue, from which `consoleread` takes its bytes. `Editor` says so without a buffer and
indices. The console, with interrupts between any two steps of a reader, does the same.
-/

namespace TatakOS.Console

/-! ## The reference -/

structure Editor where
  queue : List UInt8 := []
  line : List UInt8 := []
  /-- All that has been moved to the queue. -/
  log : List UInt8 := []

/-- A key is pressed. -/
def Editor.key (c : UInt8) (x : Editor) : Editor :=
  if c = 8 ∨ c = 0x7f then { x with line := x.line.dropLast }
  else if c = 21 then { x with line := [] }
  else if c = 0 ∨ c = 16 then x
  else if x.queue.length + x.line.length < INPUT_BUF then
    let c := if c = 13 then LF else c
    let line := x.line ++ [c]
    if c = LF ∨ c = EOF ∨ x.queue.length + line.length = INPUT_BUF then
      { queue := x.queue ++ line, line := [], log := x.log ++ line }
    else { x with line := line }
  else x

/-- A call that has returned: the count it was given, the bytes it has stored, and its result. -/
structure Read where
  n : ℕ
  bytes : List UInt8
  ret : ℤ

inductive Act
  | key (c : UInt8)
  /-- Call `consoleread`. -/
  | read (n : ℕ)
  /-- The reader goes on. -/
  | go
  deriving DecidableEq

/-- What comes from outside. -/
def Act.input : Act → List Act
  | .go => []
  | a => [a]

structure Ref where
  ed : Editor := {}
  /-- The count and the bytes of the call in progress. -/
  call : Option (ℕ × List UInt8) := none
  returned : List Read := []

def Ref.ret (t : Ref) (n : ℕ) (bytes queue : List UInt8) : Ref where
  ed := { t.ed with queue := queue }
  returned := t.returned ++ [⟨n, bytes, bytes.length⟩]

/-- The reader waits while the queue is empty, and otherwise looks at the first character. -/
def Ref.step (t : Ref) : Act → Option Ref
  | .key c => some { t with ed := t.ed.key c }
  | .read n => if t.call = none ∧ 0 < n then some { t with call := some (n, []) } else none
  | .go =>
    match t.call, t.ed.queue with
    | some (n, out), c :: q =>
      if c = EOF then some (t.ret n out (if out = [] then q else c :: q))
      else if c = LF ∨ out.length + 1 = n then some (t.ret n (out ++ [c]) q)
      else some { t with ed := { t.ed with queue := q }, call := some (n, out ++ [c]) }
    | _, _ => none

/-- What a read of `n` bytes returns, if `rest` follows in the queue. -/
structure Line (n : ℕ) (out rest : List UInt8) : Prop where
  pos : 0 < n
  le : out.length ≤ n
  eof : EOF ∉ out
  lf : LF ∉ out.dropLast
  stop : out.length = n ∨ out.getLast? = some LF ∨ rest.head? = some EOF

/-- The reads take these bytes out of the queue, one after the other, and leave the last argument.
An end-of-file mark is taken if nothing else is. -/
inductive Served (log : List UInt8) : List Read → List UInt8 → Prop
  | nil : Served log [] log
  | read {rs n out rest} (h : Served log rs (out ++ rest)) (hl : Line n out rest) :
    Served log (rs ++ [⟨n, out, out.length⟩]) (if out = [] then rest.tail else rest)

theorem Line.append {n : ℕ} {out rest : List UInt8} (h : Line n out rest) (l : List UInt8) :
    Line n out (rest ++ l) := by
  refine { h with stop := h.stop.imp_right (.imp_right fun hr => ?_) }
  obtain ⟨q, rfl⟩ := List.head?_eq_some_iff.mp hr
  rfl

theorem Served.append {log rest : List UInt8} {rs : List Read} (h : Served log rs rest)
    (l : List UInt8) : Served (log ++ l) rs (rest ++ l) := by
  induction h with
  | nil => exact .nil
  | @read rs n out rest _ hl ih =>
    rw [List.append_assoc] at ih
    have := Served.read ih (hl.append l)
    by_cases ho : out = []
    · obtain ⟨q, rfl⟩ : ∃ q, rest = EOF :: q := by
        have hs := hl.stop
        have hpos := hl.pos
        rw [ho] at hs
        exact List.head?_eq_some_iff.mp ((hs.resolve_left hpos.ne).resolve_left (by simp))
      rw [if_pos ho] at this ⊢
      exact this
    · rw [if_neg ho] at this ⊢
      exact this

/-- The bytes of the call in progress. -/
def Ref.out (t : Ref) : List UInt8 := (t.call.map Prod.snd).getD []

structure Ref.Ok (t : Ref) : Prop where
  served : Served t.ed.log t.returned (t.out ++ t.ed.queue)
  line : LF ∉ t.ed.line
  call : ∀ n out, t.call = some (n, out) → out.length < n ∧ EOF ∉ out ∧ LF ∉ out

variable {x : Editor}

theorem Editor.lf_key (h : LF ∉ x.line) (c : UInt8) : LF ∉ (x.key c).line := by
  unfold Editor.key
  dsimp only
  split_ifs with h1 h2 h3 h4 hcr hlf hlf'
  · exact fun hm => h (List.mem_of_mem_dropLast hm)
  · exact List.not_mem_nil
  · exact h
  · exact List.not_mem_nil
  · exact absurd (.inl rfl) hlf
  · exact List.not_mem_nil
  · rw [List.mem_append, List.mem_singleton]
    rintro (hm | rfl)
    · exact h hm
    · exact hlf' (.inl rfl)
  · exact h

theorem Editor.key_log (x : Editor) (c : UInt8) :
    ∃ l, (x.key c).log = x.log ++ l ∧ (x.key c).queue = x.queue ++ l := by
  unfold Editor.key
  dsimp only
  split_ifs
  all_goals first | exact ⟨_, rfl, rfl⟩ | exact ⟨[], (List.append_nil _).symm, (List.append_nil _).symm⟩

theorem Ref.Ok.step {t t' : Ref} {a : Act} (h : t.Ok) (hs : t.step a = some t') : t'.Ok := by
  cases a with
  | key c =>
    cases hs
    refine ⟨?_, Editor.lf_key h.line c, h.call⟩
    obtain ⟨l, hlog, hqueue⟩ := t.ed.key_log c
    show Served (t.ed.key c).log t.returned (t.out ++ (t.ed.key c).queue)
    rw [hlog, hqueue, ← List.append_assoc]
    exact h.served.append l
  | read n =>
    simp only [Ref.step] at hs
    split_ifs at hs with hg
    cases hs
    have hout : t.out = [] := by
      unfold Ref.out
      rw [hg.1]
      rfl
    refine ⟨hout ▸ h.served, h.line, fun n out e => ?_⟩
    cases e
    exact ⟨hg.2, List.not_mem_nil, List.not_mem_nil⟩
  | go =>
    unfold Ref.step at hs
    dsimp only at hs
    split at hs
    · next n out c q hcall hq =>
      obtain ⟨hlt, heof, hlf⟩ := h.call n out hcall
      have hserved := h.served
      rw [hq, show t.out = out by unfold Ref.out; rw [hcall]; rfl] at hserved
      by_cases hc : c = EOF
      · rw [if_pos hc] at hs
        cases hs
        refine ⟨?_, h.line, nofun⟩
        subst hc
        exact hserved.read ⟨by omega, hlt.le, heof, fun hm => hlf (List.mem_of_mem_dropLast hm),
          .inr (.inr rfl)⟩
      rw [if_neg hc] at hs
      split_ifs at hs with hstop
      · cases hs
        refine ⟨?_, h.line, nofun⟩
        have hline : Line n (out ++ [c]) q := by
          refine ⟨by omega, ?_, ?_, ?_, ?_⟩
          · rw [List.length_append, List.length_singleton]
            omega
          · simpa using ⟨heof, Ne.symm hc⟩
          · rwa [List.dropLast_concat]
          · rw [List.length_append, List.length_singleton, List.getLast?_concat]
            obtain rfl | hn := hstop
            · exact .inr (.inl rfl)
            · exact .inl hn
        rw [List.append_cons] at hserved
        have := hserved.read hline
        rwa [if_neg (by simp)] at this
      · cases hs
        refine ⟨?_, h.line, fun m out' e => ?_⟩
        · rw [List.append_cons] at hserved
          exact hserved
        · cases e
          rw [not_or] at hstop
          refine ⟨?_, ?_, ?_⟩
          · rw [List.length_append, List.length_singleton]
            omega
          · simpa using ⟨heof, Ne.symm hc⟩
          · simpa using ⟨hlf, Ne.symm hstop.1⟩
    · cases hs

/-! ## The console -/

structure Call where
  n : ℕ
  place : Place
  /-- What has been copied to the user. -/
  got : List UInt8

structure State where
  cons : Cons
  call : Option Call := none
  returned : List Read := []

/-- An interrupt, or a step of the one reader. Copying succeeds, and nobody is killed. A reader that
sleeps takes no step: it tests again when it is woken. -/
def step (s : State) : Act → Option State
  | .key c => some { s with cons := (consoleintr c s.cons).1 }
  | .read n =>
    if s.call.isNone ∧ 0 < n then some { s with call := some ⟨n, .readTest n n, []⟩ } else none
  | .go =>
    match s.call with
    | none => none
    | some x =>
      match next true x.place s.cons false, x.place with
      | .go l d, _ => some { s with
          cons := d
          call := some ⟨x.n, l, x.got ++ (reader.copies x.place s.cons).toList⟩ }
      | .ret, .readRet k =>
        some { s with call := none, returned := s.returned ++ [⟨x.n, x.got, k⟩] }
      | _, _ => none

/-- `buf[r..w)` is the queue, and `buf[w..e)` is the line. -/
structure Shows (d : Cons) (q l : List UInt8) : Prop where
  queue : RingQueue (2 ^ 32) INPUT_BUF d.buf d.r.toNat d.w.toNat q
  line : RingQueue (2 ^ 32) INPUT_BUF d.buf d.w.toNat d.e.toNat l
  room : q.length + l.length ≤ INPUT_BUF

section Shows

variable {d : Cons} {q l : List UInt8} {c : UInt8}

theorem input_buf_dvd : INPUT_BUF ∣ 2 ^ 32 := by decide

theorem toNat_add_one (x : UInt32) : (x + 1).toNat = (x.toNat + 1) % 2 ^ 32 := UInt32.toNat_add x 1

theorem Shows.all (h : Shows d q l) :
    RingQueue (2 ^ 32) INPUT_BUF d.buf d.r.toNat d.e.toNat (q ++ l) :=
  (ringQueue_append input_buf_dvd).mpr ⟨_, h.queue, h.line⟩

theorem Shows.length_lt (h : Shows d q l) : q.length + l.length < 2 ^ 32 :=
  lt_of_le_of_lt h.room (by decide)

theorem Shows.empty_iff (h : Shows d q l) : d.r = d.w ↔ q = [] := by
  rw [← UInt32.toNat_inj]
  exact h.queue.lo_eq_hi_iff ((Nat.le_add_right _ _).trans_lt h.length_lt)

theorem Shows.unedited_iff (h : Shows d q l) : d.e = d.w ↔ l = [] := by
  rw [eq_comm, ← UInt32.toNat_inj]
  exact h.line.lo_eq_hi_iff ((Nat.le_add_left _ _).trans_lt h.length_lt)

theorem Shows.erase (h : Shows d q (l ++ [c])) :
    d.buf ((d.e - 1).toNat % INPUT_BUF) = c ∧ Shows { d with e := d.e - 1 } q l := by
  obtain ⟨mid, h1, h2⟩ := (ringQueue_append input_buf_dvd).mp h.line
  have he : (d.e - 1).toNat = mid := by
    have h3 := h2.hi_eq
    have h4 := h2.lo_lt
    rw [UInt32.toNat_sub, h3]
    have h5 : (1 : UInt32).toNat = 1 := rfl
    rw [h5, List.length_singleton]
    omega
  have hroom := h.room
  rw [List.length_append] at hroom
  refine ⟨?_, h.queue, ?_, by omega⟩
  · rw [he]
    exact h2.head_eq
  · show RingQueue _ _ _ _ (d.e - 1).toNat _
    rwa [he]

section

variable (h : Shows d q l)
include h

/-- Control-U: there is no line feed in the line, so all of it is erased. -/
theorem Shows.killLine (hlf : LF ∉ l) : Shows (Console.killLine l.length d) q [] := by
  induction l using List.reverseRecOn generalizing d with
  | nil => exact h
  | append_singleton l c ih =>
    rw [List.mem_append, List.mem_singleton, not_or] at hlf
    obtain ⟨hc, h'⟩ := h.erase
    have hne : d.e ≠ d.w := fun e => by simpa using h.unedited_iff.mp e
    rw [List.length_append, List.length_singleton, Console.killLine,
      if_pos ⟨hne, hc ▸ Ne.symm hlf.2⟩]
    exact ih h' hlf.1

theorem Shows.store (hroom : q.length + l.length < INPUT_BUF) (c : UInt8) :
    Shows { d with buf := Function.update d.buf (d.e.toNat % INPUT_BUF) c, e := d.e + 1 } q
      (l ++ [c]) := by
  have hall := (h.all.store input_buf_dvd (by rwa [List.length_append]) c).push input_buf_dvd
  rw [Function.update_self, List.append_assoc, ← toNat_add_one] at hall
  obtain ⟨mid, h1, h2⟩ := (ringQueue_append input_buf_dvd).mp hall
  obtain rfl : d.w.toNat = mid := h.queue.hi_eq.trans h1.hi_eq.symm
  refine ⟨h1, h2, ?_⟩
  rw [List.length_append, List.length_singleton]
  omega

theorem Shows.commit : Shows { d with w := d.e } (q ++ l) [] := by
  refine ⟨h.all, .nil d.e.toNat_lt, ?_⟩
  rw [List.length_append]
  exact h.room

/-- `cons.e-cons.r < INPUT_BUF`. -/
theorem Shows.room_iff : d.e - d.r < UInt32.ofNat INPUT_BUF ↔ q.length + l.length < INPUT_BUF := by
  have hlen := h.all.length_eq (by rw [List.length_append]; exact h.length_lt)
  have hr := d.r.toNat_lt
  have hb : (UInt32.ofNat INPUT_BUF).toNat = INPUT_BUF := rfl
  rw [List.length_append] at hlen
  rw [UInt32.lt_iff_toNat_lt, UInt32.toNat_sub, hb]
  have hadd : 2 ^ 32 - d.r.toNat + d.e.toNat = d.e.toNat + 2 ^ 32 - d.r.toNat := by omega
  rw [hadd, hlen]

/-- `cons.e == cons.r+INPUT_BUF`. -/
theorem Shows.full_iff : d.e = d.r + UInt32.ofNat INPUT_BUF ↔ q.length + l.length = INPUT_BUF := by
  have hlt : (q ++ l).length < 2 ^ 32 := by
    rw [List.length_append]
    exact h.length_lt
  rw [← UInt32.toNat_inj, ← List.length_append, ← h.all.hi_eq_add_iff hlt (by decide),
    UInt32.toNat_add]
  rfl

end

theorem Shows.key (h : Shows d x.queue x.line) (hlf : LF ∉ x.line) (c : UInt8) :
    Shows (consoleintr c d).1 (x.key c).queue (x.key c).line := by
  have hkill : (d.e - d.w).toNat = x.line.length := by
    have hw := d.w.toNat_lt
    rw [← h.line.length_eq ((Nat.le_add_left _ _).trans_lt h.length_lt), UInt32.toNat_sub]
    congr 1
    omega
  unfold consoleintr Editor.key
  by_cases h16 : c = 16
  · subst h16
    exact h
  by_cases h21 : c = 21
  · subst h21
    rw [if_neg h16, if_pos rfl, hkill]
    exact h.killLine hlf
  by_cases hbs : c = 8 ∨ c = 0x7f
  · rw [if_neg h16, if_neg h21, if_pos hbs, if_pos hbs]
    obtain hl | ⟨l, a, hl⟩ := List.eq_nil_or_concat x.line
    · have he := h.unedited_iff.mpr hl
      rw [hl] at h ⊢
      simpa [he] using h
    · rw [List.concat_eq_append] at hl
      rw [hl] at h ⊢
      have he : d.e ≠ d.w := fun e => by simpa using h.unedited_iff.mp e
      rw [if_pos he, List.dropLast_concat]
      exact h.erase.2
  rw [if_neg h16, if_neg h21, if_neg hbs, if_neg hbs, if_neg h21]
  by_cases h0 : c = 0
  · rw [if_neg (by simp [h0]), if_pos (.inl h0)]
    exact h
  rw [if_neg (not_or.mpr ⟨h0, h16⟩)]
  by_cases hroom : x.queue.length + x.line.length < INPUT_BUF
  · rw [if_pos ⟨h0, h.room_iff.mpr hroom⟩, if_pos hroom]
    generalize (if c = 13 then LF else c) = b
    have hs := h.store hroom b
    have hfull := hs.full_iff
    dsimp only at hfull ⊢
    simp only [hfull]
    split_ifs
    · exact hs.commit
    · exact hs
  · rw [if_neg fun hc => hroom (h.room_iff.mp hc.2), if_neg hroom]
    exact h

theorem Shows.take (h : Shows d (c :: q) l) :
    d.buf (d.r.toNat % INPUT_BUF) = c ∧ Shows { d with r := d.r + 1 } q l := by
  have hroom := h.room
  rw [List.length_cons] at hroom
  refine ⟨h.queue.head_eq, ?_, h.line, by omega⟩
  show RingQueue _ _ _ (d.r + 1).toNat _ _
  rw [toNat_add_one]
  exact h.queue.pop input_buf_dvd

end Shows

/-! ## The refinement -/

/-- The reference returns when the reader has found out that it will return. -/
inductive CallMatch (t : Ref) : Option Call → List Read → Prop
  | idle (h : t.call = none) : CallMatch t none t.returned
  | test {n got} (h : t.call = some (n, got)) (hn : got.length < n) :
    CallMatch t (some ⟨n, .readTest (n - got.length) n, got⟩) t.returned
  | take {n got} (h : t.call = some (n, got)) (hn : got.length < n) (hq : t.ed.queue ≠ []) :
    CallMatch t (some ⟨n, .readTake (n - got.length) n, got⟩) t.returned
  | done {n : ℕ} {got rs} {l : Place} (h : t.call = none)
      (hl : l = .readTest 0 n ∧ got.length = n ∨ l = .readRet got.length)
      (hr : t.returned = rs ++ [⟨n, got, got.length⟩]) : CallMatch t (some ⟨n, l, got⟩) rs

structure Match (s : State) (t : Ref) : Prop where
  shows : Shows s.cons t.ed.queue t.ed.line
  call : CallMatch t s.call s.returned
  ok : t.Ok

theorem Editor.queue_key_ne_nil (h : x.queue ≠ []) (c : UInt8) : (x.key c).queue ≠ [] := by
  obtain ⟨l, -, hl⟩ := x.key_log c
  rw [hl]
  exact List.append_ne_nil_of_left_ne_nil h l

variable {t : Ref}

theorem CallMatch.key {x : Option Call} {rs : List Read} (h : CallMatch t x rs)
    (c : UInt8) : CallMatch { t with ed := t.ed.key c } x rs := by
  cases h with
  | idle h => exact .idle (t := { t with ed := t.ed.key c }) h
  | test h hn => exact .test (t := { t with ed := t.ed.key c }) h hn
  | take h hn hq =>
    exact .take (t := { t with ed := t.ed.key c }) h hn (Editor.queue_key_ne_nil hq c)
  | done h hl hr => exact .done h hl hr

/-- The steps of the reference that match a step of the console. -/
def Matched (t : Ref) (a : Act) (s' : State) : Prop :=
  ∃ bs t', run Ref.step t bs = some t' ∧ bs.flatMap Act.input = a.input ∧ Match s' t'

theorem Matched.one {t t' : Ref} {a : Act} {s' : State} (ht : t.step a = some t')
    (h : t.Ok → Shows s'.cons t'.ed.queue t'.ed.line ∧ CallMatch t' s'.call s'.returned)
    (hok : t.Ok) : Matched t a s' :=
  ⟨[a], t', run_cons_eq_some.mpr ⟨t', ht, rfl⟩, by simp, (h hok).1, (h hok).2, hok.step ht⟩

theorem Matched.none {s' : State} (h : Match s' t) : Matched t .go s' :=
  ⟨[], t, rfl, rfl, h⟩

theorem Match.take {s s' : State} {n : ℕ} {got : List UInt8} (h : Match s t)
    (hx : s.call = some ⟨n, .readTake (n - got.length) n, got⟩) (hcall : t.call = some (n, got))
    (hn : got.length < n) (hq : t.ed.queue ≠ []) (hret : s.returned = t.returned)
    (hs : step s .go = some s') : Matched t .go s' := by
  obtain ⟨c, q, hcq⟩ := List.exists_cons_of_ne_nil hq
  have hshows := h.shows
  rw [hcq] at hshows
  obtain ⟨hc, hnext⟩ := hshows.take
  have hlt : ((n : ℤ) - got.length < n) ↔ got ≠ [] := by
    rw [← List.length_pos_iff]
    omega
  have hres : (n : ℤ) - (n - got.length) = got.length := by omega
  simp only [step, hx, next, hc, reader] at hs
  by_cases heof : c = EOF
  · have ht : t.step .go = some (t.ret n got (if got = [] then q else c :: q)) := by
      simp only [Ref.step, hcall, hcq, if_pos heof]
    refine .one ht (fun _ => ?_) h.ok
    by_cases hgot : got = []
    · rw [if_pos hgot]
      simp only [heof, if_true, if_neg (mt hlt.mp (not_not.mpr hgot)), Option.some.injEq] at hs
      subst hs
      refine ⟨hnext, .done rfl (.inr ?_) ?_⟩
      · rw [hres, Option.toList_none, List.append_nil]
      · simp [Ref.ret, hret]
    · rw [if_neg hgot]
      simp only [heof, if_true, if_pos (hlt.mpr hgot), Option.some.injEq] at hs
      subst hs
      refine ⟨?_, .done rfl (.inr ?_) ?_⟩
      · have hback : s.cons.r + 1 - 1 = s.cons.r := by simp
        rw [hback]
        exact hshows
      · rw [hres, Option.toList_none, List.append_nil]
      · simp [Ref.ret, hret]
  · by_cases hstop : c = LF ∨ got.length + 1 = n
    · have ht : t.step .go = some (t.ret n (got ++ [c]) q) := by
        simp only [Ref.step, hcall, hcq, if_neg heof, if_pos hstop]
      refine .one ht (fun _ => ?_) h.ok
      by_cases hlf : c = LF
      · simp only [if_neg heof, if_pos hlf, Bool.not_true, Bool.false_eq_true, if_false,
          Option.some.injEq] at hs
        subst hs
        refine ⟨hnext, .done rfl (.inr ?_) ?_⟩
        · rw [List.length_append, Option.toList_some, List.length_singleton]
          congr 1
          push_cast
          omega
        · simp [Ref.ret, hret]
      · simp only [if_neg heof, if_neg hlf, Bool.not_true, Bool.false_eq_true, if_false,
          Option.some.injEq] at hs
        subst hs
        have hone := hstop.resolve_left hlf
        refine ⟨hnext, .done rfl (.inl ⟨?_, ?_⟩) ?_⟩
        · congr 1
          omega
        · rwa [List.length_append, Option.toList_some, List.length_singleton]
        · simp [Ref.ret, hret]
    · have ht : t.step .go =
          some { t with ed := { t.ed with queue := q }, call := some (n, got ++ [c]) } := by
        simp only [Ref.step, hcall, hcq, if_neg heof, if_neg hstop]
      rw [not_or] at hstop
      refine .one ht (fun _ => ?_) h.ok
      simp only [if_neg heof, if_neg hstop.1, Bool.not_true, Bool.false_eq_true, if_false,
        Option.some.injEq] at hs
      subst hs
      refine ⟨hnext, ?_⟩
      have hlen : (n : ℤ) - got.length - 1 = n - (got ++ [c]).length := by
        rw [List.length_append, List.length_singleton]
        push_cast
        omega
      show CallMatch _ (some ⟨n, .readTest (n - got.length - 1) n, got ++ [c]⟩) s.returned
      rw [hlen, hret]
      refine .test rfl ?_
      rw [List.length_append, List.length_singleton]
      omega

theorem Match.step {s s' : State} {a : Act} (h : Match s t)
    (hs : Console.step s a = some s') : Matched t a s' := by
  obtain ⟨d, x, rs⟩ := s
  cases a with
  | key c =>
    cases hs
    exact .one rfl (fun hok => ⟨h.shows.key hok.line c, h.call.key c⟩) h.ok
  | read n =>
    simp only [Console.step] at hs
    split_ifs at hs with hg
    cases hs
    cases h.call with
    | idle hcall =>
      have ht : t.step (.read n) = some { t with call := some (n, []) } := if_pos ⟨hcall, hg.2⟩
      refine .one ht (fun _ => ⟨h.shows, ?_⟩) h.ok
      have := CallMatch.test (t := { t with call := some (n, []) }) rfl hg.2
      rwa [List.length_nil, Nat.cast_zero, sub_zero] at this
    | _ => cases hg.1
  | go =>
    cases h.call with
    | idle => cases hs
    | test hcall hn =>
      have hpos : (0 : ℤ) < _ := sub_pos.mpr (Int.ofNat_lt.mpr hn)
      simp only [Console.step, next, if_pos hpos, Bool.false_eq_true, if_false] at hs
      split_ifs at hs with hr
      cases hs
      refine .none ⟨h.shows, ?_, h.ok⟩
      rw [reader, Option.toList_none, List.append_nil]
      exact .take hcall hn (mt h.shows.empty_iff.mpr hr)
    | take hcall hn hq => exact h.take rfl hcall hn hq rfl hs
    | done hcall hl hr =>
      obtain ⟨rfl, hlen⟩ | rfl := hl
      · simp only [Console.step, next, lt_irrefl, if_false, sub_zero] at hs
        cases hs
        refine .none ⟨h.shows, .done hcall (.inr ?_) ?_, h.ok⟩
        · simp [reader, hlen]
        · simpa [reader] using hr
      · simp only [Console.step, next] at hs
        cases hs
        refine .none ⟨h.shows, ?_, h.ok⟩
        rw [← hr]
        exact .idle hcall

/-- Whatever is typed and read, and wherever the indices of the empty buffer are at first: the
buffer is what the reference says, and the calls return what the reference returns. -/
theorem console_refines {d : Cons} {as : List Act} {s : State} (hw : d.w = d.r) (he : d.e = d.r)
    (hr : run step { cons := d } as = some s) :
    ∃ bs t, run Ref.step {} bs = some t ∧ bs.flatMap Act.input = as.flatMap Act.input ∧
      Shows s.cons t.ed.queue t.ed.line ∧ s.returned <+: t.returned ∧
      Served t.ed.log t.returned (t.out ++ t.ed.queue) := by
  have hstart : Match { cons := d } {} := by
    refine ⟨⟨?_, ?_, Nat.zero_le _⟩, .idle rfl, .nil, List.not_mem_nil, nofun⟩
    · rw [hw]
      exact .nil d.r.toNat_lt
    · rw [hw, he]
      exact .nil d.r.toNat_lt
  obtain ⟨bs, t, ht, hin, hm⟩ := run_simulates (fun s a u t hR hs => hR.step hs) hstart hr
  refine ⟨bs, t, ht, hin, hm.shows, ?_, hm.ok.served⟩
  obtain ⟨d, x, rs⟩ := s
  cases hm.call with
  | idle | test | take => exact List.prefix_refl _
  | done _ _ hret => exact ⟨_, hret.symm⟩

/-- The indices are about to wrap around. -/
def wrapping : Cons where
  buf _ := 0
  r := 0xffffffff
  w := 0xffffffff
  e := 0xffffffff

/-- A typing error, a line, and a call that reads it. -/
def typed : List Act :=
  [.read 9, .key 97, .key 8, .key 98, .key 13] ++ List.replicate 5 .go

theorem console_refines_typed : ∃ s, run step { cons := wrapping } typed = some s ∧
    s.returned.map Read.bytes = [[98, LF]] ∧
    ∃ bs t, run Ref.step {} bs = some t ∧ bs.flatMap Act.input = typed.flatMap Act.input ∧
      Shows s.cons t.ed.queue t.ed.line ∧ s.returned <+: t.returned ∧
      Served t.ed.log t.returned (t.out ++ t.ed.queue) :=
  (exists_of_any (p := fun s => s.returned.map Read.bytes = [[98, LF]]) (by decide +kernel)).imp
    fun _ ⟨hs, hbytes⟩ => ⟨hs, hbytes, console_refines rfl rfl hs⟩

end TatakOS.Console
