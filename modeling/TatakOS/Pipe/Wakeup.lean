import TatakOS.Pipe.System
import TatakOS.Proc.Signal

/-!
# Who sleeps on a pipe

Every change that ends the wait of a reader or writer is followed by a `wakeup` under the same hold
of `pi->lock`, except in one place: a writer that finds itself killed in its loop returns at once,
without a `wakeup` for the bytes that it has already put into the pipe.
-/

namespace TatakOS.Pipes

open Monitor (Op Client Lawful Inv State Act Settled step init)

/-- What the code relies on. -/
def good : Place → Pipe → Prop
  | .writeSleep _ _, d => d.full = true ∧ d.readopen = true
  | .writeByte _ _, d => d.full = false
  | _, _ => True

/-- Where a `wakeup` may be owed. -/
def owes : Place → Chan → Prop
  | .readCopy _ _, ch | .readWake _, ch => ch = .nwrite
  | .writeTest _ _, ch | .writeByte _ _, ch | .writeWake _, ch | .writeGone, ch => ch = .nread
  | .closeWake w, ch => ch = closeChan w
  | _, _ => False

variable {d : Pipe} {ch : Chan}

/-- A byte is taken out: only writers may have to be woken. -/
theorem owes_drop (hd : d.empty = false)
    (h : waits ch d = true ∧ waits ch d.drop = false) : ch = .nwrite := by
  cases ch with
  | nread => simp [waits, hd] at h
  | nwrite => rfl

/-- A byte is put in: only readers may have to be woken. -/
theorem owes_put (hd : d.full = false) {b : UInt8}
    (h : waits ch d = true ∧ waits ch (d.put b) = false) : ch = .nread := by
  cases ch with
  | nread => rfl
  | nwrite => simp [waits, hd] at h

theorem owes_close {w : Bool}
    (h : waits ch d = true ∧ waits ch (d.close w) = false) : ch = closeChan w := by
  cases ch <;> cases w <;>
    grind [waits, Pipe.close, closeChan, Pipe.empty, Pipe.full]

variable {a : Option UInt8} {l l' : Place}

theorem next_go {d d' : Pipe} {k : Bool} (hg : good l d) (h : next a l d k = .go l' d') :
    good l' d' ∧ ∀ ch, owes l ch ∨ waits ch d = true ∧ waits ch d' = false → owes l' ch := by
  -- where the data stays as it is, nothing new is owed
  have hsame : ∀ {l'}, (∀ ch, owes l ch → owes l' ch) →
      ∀ ch, owes l ch ∨ waits ch d = true ∧ waits ch d = false → owes l' ch := by
    intro l' hl ch h
    rcases h with h | ⟨h1, h2⟩
    · exact hl ch h
    · rw [h1] at h2
      cases h2
  cases l with
  | readTest n =>
    simp only [next] at h
    split_ifs at h
    · cases h
      exact ⟨trivial, hsame fun _ => False.elim⟩
    · cases h
      exact ⟨trivial, hsame fun _ => False.elim⟩
  | readCopy i n =>
    simp only [next] at h
    split_ifs at h with hi he ha
    · cases h
      exact ⟨trivial, hsame fun _ => id⟩
    · cases h
      exact ⟨trivial, fun ch h => h.elim id (owes_drop (by simpa using he))⟩
    · cases h
      exact ⟨trivial, fun ch h => h.elim id (owes_drop (by simpa using he))⟩
    · cases h
      exact ⟨trivial, hsame fun _ => id⟩
  | writeTest i n =>
    simp only [next] at h
    split_ifs at h with hi hk hf
    · cases h
      exact ⟨trivial, hsame fun _ => id⟩
    · cases h
      exact ⟨by simpa [good] using hf, hsame fun _ => id⟩
    · cases h
      exact ⟨trivial, hsame fun _ => id⟩
  | writeByte i n =>
    cases a with
    | none =>
      cases h
      exact ⟨trivial, hsame fun _ => id⟩
    | some b =>
      cases h
      exact ⟨trivial, fun ch h => h.elim id (owes_put hg)⟩
  | closeSet w =>
    cases h
    exact ⟨trivial, fun ch h => h.elim False.elim owes_close⟩
  | _ => cases h

theorem next_sleep {k : Bool} (hg : good l d) (h : next a l d k = .sleep ch l') :
    waits ch d = true ∧ ∀ d', good l' d' := by
  cases l with
  | readTest n =>
    simp only [next] at h
    split_ifs at h with he hk
    cases h
    exact ⟨he, fun _ => trivial⟩
  | writeSleep i n =>
    cases h
    have hg' : d.full = true ∧ d.readopen = true := hg
    exact ⟨by simp [waits, hg'], fun _ => trivial⟩
  | readCopy i n | writeTest i n =>
    simp only [next] at h
    split_ifs at h
  | writeByte i n => cases a <;> cases h
  | _ => cases h

theorem next_wakeup {k : Bool} (h : next a l d k = .wakeup ch l') :
    good l' d ∧ ∀ ch', ch' ≠ ch → owes l ch' → owes l' ch' := by
  cases l with
  | readTest n | readCopy i n =>
    simp only [next] at h
    split_ifs at h
  | writeTest i n =>
    simp only [next] at h
    split_ifs at h with hi hk hf
    cases h
    have hk' : d.readopen = true ∧ k = false := by simpa using hk
    exact ⟨⟨hf, hk'.1⟩, fun ch' hne howes => absurd howes hne⟩
  | readWake i | writeWake i | closeWake w =>
    cases h
    exact ⟨trivial, fun ch' hne howes => absurd howes hne⟩
  | writeByte i n => cases a <;> cases h
  | _ => cases h

theorem lawful (n : ℕ) : Lawful (client n) good owes where
  entry t d l h d' := by
    cases l <;> first | exact trivial | simp [client, Place.entry] at h
  go a t l d k l' d' hg h := by
    obtain ⟨h1, h2⟩ := next_go hg h
    exact ⟨rfl, h1, fun _ _ => rfl, h2, fun _ hne => absurd rfl hne⟩
  sleep a t l d k ch l' hg h := by
    obtain ⟨h1, h2⟩ := next_sleep hg h
    exact ⟨rfl, rfl, h1, h2⟩
  wakeup a t l d k ch l' hg h := by
    obtain ⟨h1, h2⟩ := next_wakeup h
    exact ⟨rfl, rfl, h1, h2⟩

/-- A writer does not return from inside its loop after it has put a byte into the empty pipe, with
no `wakeup(&pi->nread)` since, while a reader sleeps or is about to. -/
def SignalsReaders {n : ℕ} (s : State n Unit Chan Pipe Place) :
    Act n Place (Option UInt8) → Prop
  | .exec t _ => (s.th t).pc = .run .writeGone → s.owed .nread = true →
      ∀ u, ¬ (s.th u).Committed .nread
  | _ => True

/-- Everywhere else the code owes nothing where it leaves the lock. -/
theorem settled_of_signalsReaders {n : ℕ} {s : State n Unit Chan Pipe Place}
    {a : Act n Place (Option UInt8)} (hi : Inv (client n) good owes s) (h : SignalsReaders s a) :
    Settled (client n) s a := by
  cases a with
  | exec t a =>
    intro l hpc hleaves ch hch ho
    have howes := hi.owes_of_owed hpc hch ho
    cases l with
    | writeGone =>
      obtain rfl : ch = .nread := howes
      exact h hpc ho
    | readTest n | readRet i | readKilled | writeSleep i n | writeRet i | closeSet w | closeRet =>
      exact absurd howes id
    | readCopy i n | writeTest i n =>
      simp only [client, next] at hleaves
      split_ifs at hleaves <;> exact absurd hleaves id
    | writeByte i n => cases a <;> exact absurd hleaves id
    | readWake i | writeWake i | closeWake w => exact absurd hleaves id
  | _ => trivial

/-- Where `pi->lock` is free, readers sleep only on an empty pipe that can still be written, and
writers only on a full pipe that can still be read. -/
theorem pipe_sleepers_have_no_work {n : ℕ} {data : ℕ → UInt8}
    {as : List (Act n Place (Option UInt8))} {s : State n Unit Chan Pipe Place}
    (hok : RunMeets (step (client n)) SignalsReaders (init (pipealloc data)) as)
    (hrun : run (step (client n)) (init (pipealloc data)) as = some s) (hlk : s.lk () = none)
    (t : Fin n) (hs : (s.th t).state = .SLEEPING) :
    ((s.th t).chan = some .nread → s.data.nread = s.data.nwrite ∧ s.data.writeopen = true) ∧
      ((s.th t).chan = some .nwrite →
        s.data.nwrite = s.data.nread + UInt32.ofNat PIPESIZE ∧ s.data.readopen = true) := by
  have hi : Inv (client n) good owes s :=
    run_induct_of_meets
      (fun _ _ _ hi hG h => Monitor.inv_step hi (lawful n) (settled_of_signalsReaders hi hG) h)
      (Monitor.inv_init _ _ _ _) hok hrun
  refine ⟨fun hch => ?_, fun hch => ?_⟩
  · have hw : (s.data.empty && s.data.writeopen) = true := hi.waits_of_sleeping hlk hs hch
    simpa [Pipe.empty] using hw
  · have hw : (s.data.full && s.data.readopen) = true := hi.waits_of_sleeping hlk hs hch
    simpa [Pipe.full] using hw

/-- A reader finds the pipe empty and goes to sleep. -/
def readerSleeps (n : ℕ) (t : Fin n) : List (Act n Place (Option UInt8)) :=
  .call t (.readTest 1) :: List.replicate 5 (.exec t none)

theorem pipe_sleepers_have_no_work_reader :
    ∃ s, run (step (client 2)) (init (pipealloc fun _ => 0)) (readerSleeps 2 0) = some s ∧
      (s.th 0).state = .SLEEPING ∧ s.data.nread = s.data.nwrite ∧ s.data.writeopen = true := by
  have hok : RunMeets (step (client 2)) SignalsReaders (init (pipealloc fun _ => 0))
      (readerSleeps 2 0) := by
    refine .cons trivial rfl ?_
    refine .cons nofun rfl (.cons nofun rfl (.cons nofun rfl (.cons nofun rfl ?_)))
    exact .cons nofun rfl trivial
  exact ⟨_, rfl, rfl, (pipe_sleepers_have_no_work hok rfl rfl 0 rfl).1 rfl⟩

/-- A reader sleeps; a writer puts one byte of two into the pipe, is killed and returns. -/
def killedWriter : List (Act 2 Place (Option UInt8)) :=
  readerSleeps 2 0 ++ [.call 1 (.writeTest 0 2), .exec 1 none, .exec 1 none, .exec 1 (some 7),
    .kill 1, .exec 1 none, .exec 1 none]

theorem killed_writer_strands_reader :
    ∃ s, run (step (client 2)) (init (pipealloc fun _ => 0)) killedWriter = some s ∧
      s.lk () = none ∧ (s.th 0).state = .SLEEPING ∧ (s.th 0).chan = some .nread ∧
      s.data.nread ≠ s.data.nwrite := by
  refine ⟨_, rfl, rfl, rfl, rfl, ?_⟩
  decide

end TatakOS.Pipes
