import TatakOS.Console.System
import TatakOS.Pipe.Fifo
import TatakOS.Proc.Reader

/-!
# Input that is read

`piperead` and `consoleread` move on in their buffer before they copy the byte to the user. If the
copy fails, the byte is gone.
-/

namespace TatakOS

open Monitor

/-! ## Pipes -/

namespace Pipes

/-- `piperead`. -/
def reader : Reader Pipe Place (Option UInt8) where
  offset
    | .readTest _ => some 0
    | .readCopy i _ => some i
    | _ => none
  copies
    | .readCopy i m, d => if i < m ∧ d.empty = false then some d.first else none
    | _, _ => none
  copied a := a.isSome
  removed d d' :=
    (List.range (d'.nread - d.nread).toNat).map fun k => d.data ((d.nread.toNat + k) % PIPESIZE)

theorem removed_of_nread {d d' : Pipe} (h : d'.nread = d.nread) : reader.removed d d' = [] := by
  simp [reader, h]

theorem removed_drop (d : Pipe) : reader.removed d d.drop = [d.first] := by
  have : (d.drop.nread - d.nread).toNat = 1 := toNat_succ_sub d.nread
  simp [reader, this, Pipe.first]

theorem reader_lawful (n : ℕ) : reader.Lawful (client n) where
  same d := removed_of_nread rfl
  offset l d b hb := by
    cases l with
    | readCopy i m => rfl
    | _ => cases hb
  go_of_copies x t l d k b hb := by
    cases l with
    | readCopy i m =>
      show ∃ l' d', next x (.readCopy i m) d k = .go l' d'
      simp only [next]
      split_ifs <;> exact ⟨_, _, rfl⟩
    | _ => cases hb
  go x t l d k l' d' hnext := by
    replace hnext : next x l d k = .go l' d' := hnext
    cases l with
    | readTest m | writeTest i m =>
      simp only [next] at hnext
      split_ifs at hnext <;> cases hnext <;> exact removed_of_nread rfl
    | readCopy i m =>
      simp only [next] at hnext
      split_ifs at hnext with h1 h2 h3 <;> cases hnext
      · simp [reader, h2]
      · simpa [reader, h1, h2] using removed_drop d
      · simpa [reader, h1, h2] using removed_drop d
      · simp [reader, h1]
    | writeByte i m => cases x <;> cases hnext <;> exact removed_of_nread rfl
    | closeSet w =>
      cases hnext
      refine removed_of_nread ?_
      unfold Pipe.close
      split_ifs <;> rfl
    | _ => cases hnext

end Pipes

/-! ## The console -/

namespace Console

/-- `consoleread`. The end-of-file mark is not input. -/
def reader : Reader Cons Place Bool where
  offset
    | .readTest n target | .readTake n target => some (target - n)
    | _ => none
  copies
    | .readTake _ _, d =>
      if d.buf (d.r.toNat % INPUT_BUF) = EOF then none else some (d.buf (d.r.toNat % INPUT_BUF))
    | _, _ => none
  copied a := a
  removed d d' :=
    ((List.range (d'.r - d.r).toNat).map fun k => d.buf ((d.r.toNat + k) % INPUT_BUF)).filter
      (· ≠ EOF)

variable {d d' : Cons}

theorem removed_of_r (h : d'.r = d.r) : reader.removed d d' = [] := by
  simp [reader, h]

theorem removed_next (h : d'.r = d.r + 1) :
    reader.removed d d' = [d.buf (d.r.toNat % INPUT_BUF)].filter (· ≠ EOF) := by
  have : (d'.r - d.r).toNat = 1 := by rw [h]; exact toNat_succ_sub d.r
  simp [reader, this]

theorem killLine_r (k : ℕ) (d : Cons) : (killLine k d).r = d.r := by
  induction k generalizing d with
  | zero => rfl
  | succ k ih =>
    rw [killLine]
    split_ifs
    · exact ih _
    · rfl

theorem consoleintr_r (c : UInt8) (d : Cons) : (consoleintr c d).1.r = d.r := by
  unfold consoleintr
  dsimp only
  split_ifs <;> first | rfl | exact killLine_r _ d

theorem reader_lawful (n : ℕ) : reader.Lawful (client n) where
  same d := removed_of_r rfl
  offset l d b hb := by
    cases l with
    | readTake m target => rfl
    | _ => cases hb
  go_of_copies x t l d k b hb := by
    cases l with
    | readTake m target =>
      show ∃ l' d', next x (.readTake m target) d k = .go l' d'
      simp only [next]
      split_ifs <;> exact ⟨_, _, rfl⟩
    | _ => cases hb
  go x t l d k l' d' hnext := by
    replace hnext : next x l d k = .go l' d' := hnext
    cases l with
    | readTest m target =>
      simp only [next] at hnext
      split_ifs at hnext <;> cases hnext <;> exact removed_of_r rfl
    | readTake m target =>
      simp only [next] at hnext
      split_ifs at hnext with h1 h2 h3 h4 <;> cases hnext
      -- an end-of-file mark is taken back, or is no input
      · simp [reader, h1]
      all_goals
        rw [removed_next rfl]
        simp [reader, h1]
    | intr c =>
      have hr := consoleintr_r c d
      simp only [next] at hnext
      split at hnext <;> rename_i h <;> cases hnext <;> rw [h] at hr <;> exact removed_of_r hr
    | _ => cases hnext

end Console

/-! ## Both -/

/-- A call of `piperead` or `consoleread`, in any interleaving and from any state of the buffer,
stores as many bytes as it takes out exactly if the destination is mapped wherever it copies. -/
theorem reads_deliver_iff {n : ℕ} :
    (∀ (s s' : State n Unit Pipes.Chan Pipes.Pipe Pipes.Place) (t : Fin n) (ok : ℤ → Bool)
      (as : List (Act n Pipes.Place (Option UInt8))), run (step (Pipes.client n)) s as = some s' →
      RunMeets (step (Pipes.client n)) (Pipes.reader.OneCall ok t) s as →
      ((Pipes.reader.takes (Pipes.client n) t s as).length =
          (Pipes.reader.stores (Pipes.client n) t s as).length ↔
        RunMeets (step (Pipes.client n)) (Pipes.reader.Mapped ok t) s as)) ∧
    ∀ (s s' : State n Unit Unit Console.Cons Console.Place) (t : Fin n) (ok : ℤ → Bool)
      (as : List (Act n Console.Place Bool)), run (step (Console.client n)) s as = some s' →
      RunMeets (step (Console.client n)) (Console.reader.OneCall ok t) s as →
      ((Console.reader.takes (Console.client n) t s as).length =
          (Console.reader.stores (Console.client n) t s as).length ↔
        RunMeets (step (Console.client n)) (Console.reader.Mapped ok t) s as) :=
  ⟨fun _ _ _ _ _ hrun hok => (Reader.delivers_iff (Pipes.reader_lawful n) hrun hok).2,
    fun _ _ _ _ _ hrun hok => (Reader.delivers_iff (Console.reader_lawful n) hrun hok).2⟩

/-- A pipe with two bytes, and a call that reads them. -/
def twoInPipe : State 1 Unit Pipes.Chan Pipes.Pipe Pipes.Place :=
  (init (((Pipes.pipealloc fun _ => 0).put 7).put 8)).setTh ⟨0, Nat.one_pos⟩
    { pc := .acquire (.readTest 2) }

/-- A console with one byte of input, and a call that reads it. -/
def oneInCons : State 1 Unit Unit Console.Cons Console.Place :=
  (init { buf := fun _ => 7, r := 0, w := 1, e := 1 }).setTh ⟨0, Nat.one_pos⟩
    { pc := .acquire (.readTest 1 1) }

/-- Where the destination is not mapped, the byte is gone. -/
theorem failed_copy_loses_input :
    (∃ s', run (step (Pipes.client 1)) twoInPipe
        (List.replicate 3 (.exec 0 (some 0)) ++ [.exec 0 none]) = some s' ∧
      s'.data.empty = true) ∧
    Pipes.reader.stores (Pipes.client 1) 0 twoInPipe
      (List.replicate 3 (.exec 0 (some 0)) ++ [.exec 0 none]) = [7] ∧
    (∃ s', run (step (Console.client 1)) oneInCons (List.replicate 3 (.exec 0 false)) = some s' ∧
      s'.data.r = s'.data.w) ∧
    Console.reader.stores (Console.client 1) 0 oneInCons (List.replicate 3 (.exec 0 false)) = [] :=
  ⟨⟨_, rfl, rfl⟩, rfl, ⟨_, rfl, rfl⟩, rfl⟩

/-- Where it is mapped, both bytes are delivered. -/
theorem reads_deliver_iff_mapped :
    Pipes.reader.stores (Pipes.client 1) 0 twoInPipe (List.replicate 5 (.exec 0 (some 0))) = [7, 8] ∧
      (Pipes.reader.takes (Pipes.client 1) 0 twoInPipe
        (List.replicate 5 (.exec 0 (some 0)))).length = 2 := by
  have hmeets : ∀ G, (∀ s, G s (.exec 0 (some 0))) → RunMeets (step (Pipes.client 1)) G twoInPipe
      (List.replicate 5 (.exec 0 (some 0))) := fun G hG =>
    RunMeets.of_forall _ fun a ha s => List.eq_of_mem_replicate ha ▸ hG s
  refine ⟨rfl, ((reads_deliver_iff.1 twoInPipe _ 0 (fun _ => true) _ rfl ?_).mpr ?_).trans rfl⟩
  · exact hmeets _ fun s _ _ _ _ _ _ => rfl
  · exact hmeets _ fun s _ _ _ _ _ _ => rfl

end TatakOS
