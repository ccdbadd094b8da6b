import TatakOS.Base.Ring
import TatakOS.Proc.Signal

/-!
# The transmit buffer of the UART

`uartputc`, `uartstart` and the second half of `uartintr`, as code under `uart_tx_lock`. The history
variables `accepted` and `taken` say what has been put into the buffer and taken out. A character is
written to `THR` before the next one is taken or the lock released, so `taken` is what the UART gets.
-/

namespace TatakOS.Uart

open Monitor

def UART_TX_BUF_SIZE : ℕ := 32

structure Tx where
  buf : ℕ → UInt8 := fun _ => 0
  w : UInt64 := 0
  r : UInt64 := 0
  accepted : List UInt8 := []
  taken : List UInt8 := []

def Tx.full (d : Tx) : Bool := d.w = d.r + UInt64.ofNat UART_TX_BUF_SIZE

inductive Place
  /-- `uartputc`, at `if(panicked)` and at `while(1)`. -/
  | putc (c : UInt8)
  | put (c : UInt8)
  /-- `uartstart`, at `while(1)` and at `wakeup(&uart_tx_r)`. -/
  | start
  | wake

/-- `ReadReg(LSR) & LSR_TX_IDLE`, and `panicked`. -/
structure Env where
  idle : Bool
  panicked : Bool

def next (a : Env) (d : Tx) : Place → Op Unit Tx Place
  | .putc c => .go (if a.panicked then .putc c else .put c) d
  | .put c =>
    if d.full then .sleep () (.put c)
    else .go .start { d with
      buf := Function.update d.buf (d.w.toNat % UART_TX_BUF_SIZE) c
      w := d.w + 1
      accepted := d.accepted ++ [c] }
  | .start =>
    if d.w = d.r then .ret
    else if !a.idle then .ret
    else .go .wake { d with
      r := d.r + 1
      taken := d.taken ++ [d.buf (d.r.toNat % UART_TX_BUF_SIZE)] }
  | .wake => .wakeup () .start

/-- Any number of calls of `uartputc` and `uartintr`. -/
def client (n : ℕ) : Client n Unit Unit Tx Place Env where
  lock _ := ()
  entry _ _
    | .putc _ | .start => true
    | _ => false
  next a _ l d _ := next a d l
  chanLock _ := ()
  waits _ d := d.full

variable {n : ℕ} {s : State n Unit Unit Tx Place} {d d' : Tx} {q : List UInt8}

/-- The buffer holds `q`, which has been accepted and not been taken out. -/
structure Holds (d : Tx) (q : List UInt8) : Prop where
  ring : RingQueue (2 ^ 64) UART_TX_BUF_SIZE d.buf d.r.toNat d.w.toNat q
  le : q.length ≤ UART_TX_BUF_SIZE
  accepted : d.accepted = d.taken ++ q

theorem Holds.full_iff (h : Holds d q) : d.full = true ↔ q.length = UART_TX_BUF_SIZE := by
  rw [← h.ring.hi_eq_add_iff (h.le.trans_lt (by decide)) (by decide), Tx.full, decide_eq_true_eq,
    ← UInt64.toNat_inj, UInt64.toNat_add]
  rfl

theorem Holds.next {a : Env} {l l' : Place} (h : Holds d q) (hn : next a d l = .go l' d') :
    ∃ q', Holds d' q' := by
  have hdvd : UART_TX_BUF_SIZE ∣ 2 ^ 64 := by decide
  cases l with
  | putc c =>
    cases hn
    exact ⟨q, h⟩
  | put c =>
    simp only [Uart.next] at hn
    split_ifs at hn with hf
    cases hn
    have hlt : q.length < UART_TX_BUF_SIZE := h.le.lt_of_ne fun e => hf (h.full_iff.mpr e)
    have hpush := (h.ring.store hdvd hlt c).push hdvd
    rw [Function.update_self] at hpush
    refine ⟨q ++ [c], by simpa [UInt64.toNat_add] using hpush, ?_, ?_⟩
    · rwa [List.length_append]
    · rw [h.accepted, List.append_assoc]
  | start =>
    simp only [Uart.next] at hn
    split_ifs at hn with he
    cases hn
    cases q with
    | nil => exact absurd (UInt64.toNat_inj.mp ((h.ring.lo_eq_hi_iff (by decide)).mpr rfl)).symm he
    | cons c q =>
      refine ⟨q, by simpa [UInt64.toNat_add] using h.ring.pop hdvd, Nat.le_of_lt h.le, ?_⟩
      rw [h.accepted, h.ring.head_eq, List.append_assoc, List.singleton_append]
  | wake => cases hn

/-- `uartstart` owes a `wakeup` for a character that it has taken out. -/
theorem lawful (n : ℕ) : Lawful (client n) (fun _ _ => True) fun l _ => l = .wake where
  entry _ _ _ _ _ := trivial
  go a _ l d _ l' d' _ h := by
    refine ⟨rfl, trivial, fun _ _ => rfl, fun _ ho => ?_, fun _ hne => absurd rfl hne⟩
    cases l <;> simp only [client, next] at h ho <;> (try split_ifs at h) <;> cases h <;> simp_all
  sleep a _ l d _ _ l' _ h := by
    cases l <;> simp only [client, next] at h ⊢ <;> (try split_ifs at h) <;> cases h
    exact ⟨trivial, trivial, ‹_›, fun _ => trivial⟩
  wakeup _ _ _ _ _ _ _ _ _ := ⟨rfl, rfl, trivial, fun _ hne => absurd rfl hne⟩

/-- The UART gets the characters in the order in which `uartputc` accepts them. Where the lock is
free, a process sleeps in `uartputc` only if the buffer is full. -/
theorem uart_output (as : List (Act n Place Env))
    (hrun : run (step (client n)) (init {}) as = some s) :
    ∃ q, Holds s.data q ∧ (s.lk () = none → ∀ t, (s.th t).state = .SLEEPING →
      q.length = UART_TX_BUF_SIZE) := by
  have h : Inv (client n) (fun _ _ => True) (fun l _ => l = .wake) s ∧ ∃ q, Holds s.data q := by
    refine run_induct (I := fun s => Inv _ _ _ s ∧ ∃ q, Holds s.data q) (fun s a s' hs h => ?_)
      ⟨inv_init _ _ _ _, [], .nil (UInt64.toNat_lt _), Nat.zero_le _, rfl⟩ hrun
    obtain ⟨hi, q, hq⟩ := hs
    constructor
    · refine inv_step hi (lawful n) ?_ h
      cases a with
      | exec t a =>
        intro l hpc hleaves ch hch ho
        obtain rfl := hi.owes_of_owed hpc hch ho
        exact absurd hleaves id
      | _ => trivial
    · obtain ⟨t, -, hmove⟩ := step_moves h
      cases hmove with
      | go l l' x _ _ hnext _ => exact hq.next hnext
      | quiet _ _ hdata | call _ _ _ _ _ hdata | acquire _ _ _ _ _ _ hdata
      | sleep _ _ _ _ _ _ _ _ hdata | wakeup _ _ _ _ _ _ _ _ hdata | ret _ _ _ _ _ _ hdata
      | release _ _ _ _ _ _ hdata => exact ⟨q, hdata ▸ hq⟩
  obtain ⟨hi, q, hq⟩ := h
  refine ⟨q, hq, fun hlk t hs => hq.full_iff.mp ?_⟩
  obtain ⟨ch, l, -, hch⟩ := hi.state t hs
  exact hi.waits_of_sleeping hlk hs hch

/-- Two characters while the UART is busy, and then a `uartintr` that finds it idle once. -/
def interrupted : List (Act 2 Place Env) :=
  let w : Fin 2 := ⟨0, Nat.two_pos⟩
  let i : Fin 2 := ⟨1, Nat.one_lt_two⟩
  let putc (c : UInt8) : List (Act 2 Place Env) :=
    .call w (.putc c) :: List.replicate 4 (.exec w ⟨false, false⟩)
  putc 65 ++ putc 66 ++
    .call i .start :: List.replicate 6 (.exec i ⟨true, false⟩) ++ [.exec i ⟨false, false⟩]

theorem uart_output_interrupted : ∃ s, run (step (client 2)) (init {}) interrupted = some s ∧
    s.lk () = none ∧ s.data.taken = [65] ∧ Holds s.data [66] ∧ ∀ t, (s.th t).state ≠ .SLEEPING := by
  obtain ⟨s, hs, hlk, hacc, htaken⟩ := exists_of_any (o := run (step (client 2)) (init {}) interrupted)
    (p := fun s => s.lk () = none ∧ s.data.accepted = [65, 66] ∧ s.data.taken = [65])
    (by decide +kernel)
  obtain ⟨q, hq, hsleep⟩ := uart_output interrupted hs
  obtain rfl : q = [66] := by simpa [hacc, htaken] using hq.accepted.symm
  exact ⟨s, hs, hlk, htaken, hq, fun t ht => absurd (hsleep hlk t ht) (by decide)⟩

end TatakOS.Uart
