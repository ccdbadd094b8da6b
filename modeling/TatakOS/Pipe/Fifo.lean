import TatakOS.Base.Ring
import TatakOS.Pipe.Wakeup

/-!
# A pipe is a bounded queue

The record of a run says which bytes went into the pipe and which came out of it, in the order in
which that happened, and where each call began. The counters `nread` and `nwrite` may wrap around.
-/

namespace TatakOS.Pipes

open Monitor

variable {n : ℕ}

/-- What happens to a pipe. -/
inductive Event (n : ℕ)
  /-- Thread `t` begins a call. -/
  | call (t : Fin n)
  /-- `pipewrite` puts the byte that it has fetched from `addr + i` into the pipe. -/
  | put (t : Fin n) (i : ℤ) (ch : UInt8)
  /-- `piperead` takes a byte out, and copies it to `addr + i`. -/
  | take (t : Fin n) (i : ℤ) (ch : UInt8)

/-- The byte that the next `piperead` gets. -/
def Pipe.first (d : Pipe) : UInt8 := d.data (d.nread.toNat % PIPESIZE)

/-- What is recorded when thread `t` goes on from `l`. -/
def Place.event (t : Fin n) (a : Option UInt8) (d : Pipe) : Place → List (Event n)
  | .writeByte i _ => (a.map (Event.put t i)).toList
  | .readCopy i m => if i < m ∧ d.empty = false then [.take t i d.first] else []
  | _ => []

/-- What is recorded for a step. -/
def event (s : State n Unit Chan Pipe Place) : Act n Place (Option UInt8) → List (Event n)
  | .call t _ => [.call t]
  | .exec t a =>
    match (s.th t).pc with
    | .run l => l.event t a s.data
    | _ => []
  | _ => []

/-- The bytes put into the pipe. -/
def written (tr : List (Event n)) : List UInt8 :=
  tr.filterMap fun | .put _ _ ch => some ch | _ => none

/-- The bytes taken out of the pipe. -/
def taken (tr : List (Event n)) : List UInt8 :=
  tr.filterMap fun | .take _ _ ch => some ch | _ => none

/-- The bytes in the buffer, the next one to be read first. -/
def Pipe.contents (d : Pipe) : List UInt8 :=
  (List.range (d.nwrite - d.nread).toNat).map fun k => d.data ((d.nread.toNat + k) % PIPESIZE)

def Event.thread : Event n → Fin n
  | .call t | .put t _ _ | .take t _ _ => t

def Event.begins : Event n → Bool
  | .call _ => true
  | _ => false

/-- The position of the byte in the caller's buffer. -/
def Event.index : Event n → ℤ
  | .call _ => 0
  | .put _ i _ | .take _ i _ => i

/-- The calls so far, the last one first, with one event more. -/
def addEvent (t : Fin n) (cs : List (List (Event n))) (e : Event n) : List (List (Event n)) :=
  if e.thread = t then if e.begins then [] :: cs else (cs.headD [] ++ [e]) :: cs.tail else cs

/-- The bytes of each call of thread `t`, as events. -/
def calls (t : Fin n) (tr : List (Event n)) : List (List (Event n)) := tr.foldl (addEvent t) []

/-! ## The queue -/

/-- The bytes between the counters. -/
def Queue (d : Pipe) (q : List UInt8) : Prop :=
  RingQueue (2 ^ 32) PIPESIZE d.data d.nread.toNat d.nwrite.toNat q ∧ q.length ≤ PIPESIZE

variable {d d' : Pipe} {q : List UInt8}

theorem queue_pipealloc (data : ℕ → UInt8) : Queue (pipealloc data) [] :=
  ⟨RingQueue.nil (pipealloc data).nread.toNat_lt, Nat.zero_le _⟩

theorem PIPESIZE_dvd : PIPESIZE ∣ 2 ^ 32 := by decide

section

variable (h : Queue d q)
include h

theorem Queue.length_lt : q.length < 2 ^ 32 := by
  have := h.2
  unfold PIPESIZE at this
  omega

theorem Queue.empty_iff : d.empty = true ↔ q = [] := by
  rw [← h.1.lo_eq_hi_iff h.length_lt, Pipe.empty, decide_eq_true_iff, UInt32.toNat_inj]

theorem Queue.full_iff : d.full = true ↔ q.length = PIPESIZE := by
  rw [← h.1.hi_eq_add_iff h.length_lt (by decide), Pipe.full, decide_eq_true_iff,
    ← UInt32.toNat_inj, UInt32.toNat_add]
  rfl

theorem Queue.put (hfull : d.full = false) (ch : UInt8) : Queue (d.put ch) (q ++ [ch]) := by
  have hlen : q.length < PIPESIZE := by
    have h1 := h.2
    have h2 : q.length ≠ PIPESIZE := fun e => by simp [h.full_iff.mpr e] at hfull
    omega
  have hring := (h.1.store PIPESIZE_dvd hlen ch).push PIPESIZE_dvd
  rw [Function.update_self] at hring
  refine ⟨?_, ?_⟩
  · rwa [show (d.put ch).nwrite.toNat = (d.nwrite.toNat + 1) % 2 ^ 32 from UInt32.toNat_add ..]
  · rw [List.length_append, List.length_singleton]
    omega

theorem Queue.drop (hempty : d.empty = false) : ∃ q', q = d.first :: q' ∧ Queue d.drop q' := by
  cases q with
  | nil => simp [h.empty_iff.mpr rfl] at hempty
  | cons x q' =>
    refine ⟨q', ?_, ?_, ?_⟩
    · rw [Pipe.first, h.1.head_eq]
    · rw [show d.drop.nread.toNat = (d.nread.toNat + 1) % 2 ^ 32 from UInt32.toNat_add ..]
      exact h.1.pop PIPESIZE_dvd
    · have := h.2
      rw [List.length_cons] at this
      omega

theorem Queue.length_eq : (d.nwrite - d.nread).toNat = q.length := by
  rw [← h.1.length_eq h.length_lt, UInt32.toNat_sub]
  congr 1
  have := d.nread.toNat_lt
  omega

theorem Queue.contents_eq : d.contents = q := by
  rw [Pipe.contents, h.length_eq]
  exact h.1.eq_map.symm

end

variable {a : Option UInt8} {l l' : Place} {k : Bool}

theorem Queue.next (h : Queue d q) (hg : good l d) (hnext : next a l d k = .go l' d') (t : Fin n) :
    ∃ q', Queue d' q' ∧ q ++ written (l.event t a d) = taken (l.event t a d) ++ q' := by
  have same : Queue d q ∧ q ++ written ([] : List (Event n)) = taken ([] : List (Event n)) ++ q :=
    ⟨h, by simp [written, taken]⟩
  cases l with
  | readTest m | writeTest i m =>
    simp only [Pipes.next] at hnext
    split_ifs at hnext <;> cases hnext <;> exact ⟨q, same⟩
  | readCopy i m =>
    simp only [Pipes.next] at hnext
    by_cases him : i < m
    · cases hempty : d.empty with
      | true =>
        simp only [him, hempty, if_true] at hnext
        cases hnext
        simpa [Place.event, hempty] using ⟨q, same⟩
      | false =>
        obtain ⟨q', rfl, hq'⟩ := h.drop hempty
        have hd : d' = d.drop := by
          simp only [him, hempty, if_true, Bool.false_eq_true, if_false] at hnext
          split_ifs at hnext <;> cases hnext <;> rfl
        subst hd
        refine ⟨q', hq', ?_⟩
        simp [Place.event, him, hempty, written, taken]
    · simp only [him, if_false] at hnext
      cases hnext
      simpa [Place.event, him] using ⟨q, same⟩
  | writeByte i m =>
    cases a with
    | none =>
      cases hnext
      exact ⟨q, same⟩
    | some ch =>
      cases hnext
      exact ⟨q ++ [ch], h.put hg ch, by simp [Place.event, written, taken]⟩
  | closeSet w =>
    cases hnext
    refine ⟨q, ?_, same.2⟩
    unfold Pipe.close
    split_ifs <;> exact h
  | _ => cases hnext

/-! ## The positions -/

/-- The number of bytes that the call has put or taken. -/
def Place.count : Place → Option ℤ
  | .readTest _ => some 0
  | .readCopy i _ | .writeTest i _ | .writeSleep i _ | .writeByte i _ | .writeWake i | .writeRet i =>
    some i
  | _ => none

variable {t : Fin n} {e : Event n}

theorem Place.event_index {l : Place} (he : e ∈ l.event t a d) :
    l.event t a d = [e] ∧ e.thread = t ∧ e.begins = false ∧ l.count = some e.index := by
  cases l with
  | readCopy i m =>
    simp only [Place.event] at he ⊢
    split_ifs at he ⊢ with h
    · obtain rfl := List.mem_singleton.mp he
      exact ⟨rfl, rfl, rfl, rfl⟩
    · simp at he
  | writeByte i m =>
    cases a with
    | none => simp [Place.event] at he
    | some ch =>
      obtain rfl := List.mem_singleton.mp he
      exact ⟨rfl, rfl, rfl, rfl⟩
  | _ => simp [Place.event] at he

theorem next_count {c : ℤ} (t : Fin n) (hnext : next a l d k = .go l' d') (hc : l'.count = some c) :
    ∃ c', l.count = some c' ∧ c = c' + (l.event t a d).length := by
  cases l with
  | readTest m =>
    simp only [Pipes.next] at hnext
    split_ifs at hnext <;> cases hnext
    · cases hc
    · cases hc
      exact ⟨0, rfl, rfl⟩
  | readCopy i m =>
    simp only [Pipes.next] at hnext
    split_ifs at hnext with h1 h2 h3 <;> cases hnext <;> cases hc
    exact ⟨i, rfl, by simp [Place.event, h1, h2]⟩
  | writeTest i m =>
    simp only [Pipes.next] at hnext
    split_ifs at hnext <;> cases hnext <;> cases hc <;> exact ⟨_, rfl, by simp [Place.event]⟩
  | writeByte i m =>
    cases a <;> cases hnext <;> cases hc <;> exact ⟨_, rfl, by simp [Place.event]⟩
  | closeSet w =>
    cases hnext
    cases hc
  | _ => cases hnext

theorem event_of_not_go {l : Place} (t : Fin n)
    (hnext : ∀ l' d', next a l d k ≠ .go l' d') : l.event t a d = [] := by
  cases l with
  | readCopy i m =>
    simp only [Pipes.next] at hnext
    split_ifs at hnext <;> exact absurd rfl (hnext _ _)
  | writeByte i m => cases a <;> exact absurd rfl (hnext _ _)
  | _ => rfl

theorem count_of_next {o : Op Chan Pipe Place} (hnext : next a l d k = o)
    (ho : ∃ ch, o = .sleep ch l' ∨ o = .wakeup ch l') : l'.count = l.count := by
  obtain ⟨ch, rfl | rfl⟩ := ho
  all_goals
    cases l with
    | readTest m | readCopy i m | writeTest i m =>
      simp only [Pipes.next] at hnext
      split_ifs at hnext <;> cases hnext <;> rfl
    | writeByte i m => cases a <;> cases hnext
    | _ => cases hnext <;> rfl

theorem calls_snoc (t : Fin n) (tr : List (Event n)) (e : Event n) :
    calls t (tr ++ [e]) = addEvent t (calls t tr) e := List.foldl_append

theorem calls_of_ne (h : e.thread ≠ t) (tr : List (Event n)) :
    calls t (tr ++ [e]) = calls t tr := by
  rw [calls_snoc, addEvent, if_neg h]

theorem calls_call (t : Fin n) (tr : List (Event n)) :
    calls t (tr ++ [.call t]) = [] :: calls t tr := by
  rw [calls_snoc]
  exact if_pos rfl

theorem calls_byte (h : e.begins = false) (tr : List (Event n)) : calls e.thread (tr ++ [e]) =
      ((calls e.thread tr).headD [] ++ [e]) :: (calls e.thread tr).tail := by
  rw [calls_snoc, addEvent, if_pos rfl, if_neg (by simp [h])]

theorem calls_sublist (t : Fin n) (tr : List (Event n)) : ∀ c ∈ calls t tr, c.Sublist tr := by
  induction tr using List.reverseRecOn with
  | nil =>
    intro c hc
    simp [calls] at hc
  | append_singleton tr e ih =>
    intro c hc
    have hold : c ∈ calls t tr → c.Sublist (tr ++ [e]) := fun h => (ih c h).trans (by simp)
    rw [calls_snoc, addEvent] at hc
    split_ifs at hc with h1 h2
    · rcases List.mem_cons.mp hc with rfl | hc
      · exact List.nil_sublist _
      · exact hold hc
    · rcases List.mem_cons.mp hc with rfl | hc
      · refine List.Sublist.append ?_ (List.Sublist.refl _)
        cases hcs : calls t tr with
        | nil => exact List.nil_sublist _
        | cons c cs => exact ih c (by rw [hcs]; exact List.mem_cons_self)
      · exact hold (List.mem_of_mem_tail hc)
    · exact hold hc

/-- The positions of the bytes of a call, in the order of the record. -/
def Numbered (c : List (Event n)) : Prop :=
  c.map Event.index = (List.range c.length).map Nat.cast

theorem Numbered.snoc {c : List (Event n)} (h : Numbered c)
    (he : e.index = c.length) : Numbered (c ++ [e]) := by
  unfold Numbered at *
  rw [List.map_append, h, List.length_append, List.length_singleton, List.range_succ,
    List.map_append, List.map_singleton, List.map_singleton, he]

/-- What the record `tr` says about a state. -/
structure Recorded (s : State n Unit Chan Pipe Place) (tr : List (Event n)) : Prop where
  guarded : Guarded (client n) good s
  queue : ∃ q, Queue s.data q ∧ written tr = taken tr ++ q
  numbered : ∀ t, ∀ c ∈ calls t tr, Numbered c
  count : ∀ t l c, (s.th t).pc.place = some l → l.count = some c →
    c = ((calls t tr).headD []).length

variable {s s' : State n Unit Chan Pipe Place} {tr : List (Event n)}

theorem recorded_init (data : ℕ → UInt8) :
    Recorded (init (pipealloc data) : State n Unit Chan Pipe Place) [] := by
  refine ⟨guarded_init _, ⟨[], queue_pipealloc data, rfl⟩, ?_, ?_⟩
  · intro t c hc
    simp [calls] at hc
  · intro t l c h
    cases h

theorem Recorded.silent (hr : Recorded s tr) (hg : Guarded (client n) good s')
    (hother : ∀ u, u ≠ t → (s'.th u).pc = (s.th u).pc) (hdata : s'.data = s.data)
    (hcount : ∀ l c, (s'.th t).pc.place = some l → l.count = some c →
      ∃ l', (s.th t).pc.place = some l' ∧ l'.count = some c) :
    Recorded s' (tr ++ []) := by
  rw [List.append_nil]
  refine ⟨hg, ?_, hr.numbered, fun u l c hl hc => ?_⟩
  · rw [hdata]
    exact hr.queue
  · by_cases e : u = t
    · subst e
      obtain ⟨l', hl', hc'⟩ := hcount l c hl hc
      exact hr.count u l' c hl' hc'
    · rw [hother u e] at hl
      exact hr.count u l c hl hc

theorem event_run {l : Place} (hpc : (s.th t).pc = .run l) (a : Option UInt8) :
    event s (.exec t a) = l.event t a s.data := by
  rw [event, hpc]

theorem event_of_not_run (hpc : ∀ l, (s.th t).pc ≠ .run l) (a : Option UInt8) :
    event s (.exec t a) = [] := by
  rw [event]
  split
  next l h => exact absurd h (hpc l)
  next => rfl

theorem Recorded.call {l : Place} (hr : Recorded s tr)
    (hg : Guarded (client n) good s') (hother : ∀ u, u ≠ t → (s'.th u).pc = (s.th u).pc)
    (hdata : s'.data = s.data) (hpc : (s'.th t).pc = .acquire l) (hentry : l.entry = true) :
    Recorded s' (tr ++ [.call t]) := by
  obtain ⟨q, hq, hqueue⟩ := hr.queue
  refine ⟨hg, ⟨q, hdata ▸ hq, by simpa [written, taken] using hqueue⟩, fun u => ?_, fun u l' c => ?_⟩
  all_goals by_cases e : u = t
  · subst e
    rw [calls_call]
    intro c hc
    rcases List.mem_cons.mp hc with rfl | hc
    · rfl
    · exact hr.numbered u c hc
  · rw [calls_of_ne (show (Event.call t).thread ≠ u from Ne.symm e)]
    exact hr.numbered u
  · subst e
    rw [calls_call, hpc]
    rintro ⟨⟩ hc
    cases l <;> simp_all [Place.entry, Place.count]
    -- only a call of `pipewrite` is left, and it begins with 0
    split at hentry <;> simp_all
  · rw [calls_of_ne (show (Event.call t).thread ≠ u from Ne.symm e), hother u e]
    exact hr.count u l' c

theorem Recorded.go (hr : Recorded s tr)
    (hg : Guarded (client n) good s') (hother : ∀ u, u ≠ t → (s'.th u).pc = (s.th u).pc)
    (hpc : (s.th t).pc = .run l) (hpc' : (s'.th t).pc = .run l')
    (hnext : next a l s.data (s.th t).killed = .go l' s'.data) :
    Recorded s' (tr ++ l.event t a s.data) := by
  obtain ⟨q, hq, hqueue⟩ := hr.queue
  have hplace : (s.th t).pc.place = some l := by rw [hpc]; rfl
  obtain ⟨q', hq', heq⟩ := hq.next (by simpa [hpc, Pc.Good] using hr.guarded.good t) hnext t
  have hcount' : ∀ l2 c, (s'.th t).pc.place = some l2 → l2.count = some c →
      c = ((calls t tr).headD []).length + (l.event t a s.data).length := by
    rw [hpc']
    rintro l2 c ⟨⟩ hc
    obtain ⟨c', hc', rfl⟩ := next_count t hnext hc
    rw [hr.count t l c' hplace hc']
  have hbytes : ∃ q', Queue s'.data q' ∧
      written (tr ++ l.event t a s.data) = taken (tr ++ l.event t a s.data) ++ q' := by
    refine ⟨q', hq', ?_⟩
    simp only [written, taken, List.filterMap_append] at *
    rw [hqueue, List.append_assoc, heq, List.append_assoc]
  cases hev : l.event t a s.data with
  | nil =>
    rw [hev] at hcount' hbytes
    rw [List.append_nil] at hbytes ⊢
    refine ⟨hg, hbytes, hr.numbered, fun u l2 c hl2 hc => ?_⟩
    by_cases e : u = t
    · subst e
      simpa using hcount' l2 c hl2 hc
    · rw [hother u e] at hl2
      exact hr.count u l2 c hl2 hc
  | cons e es =>
    obtain ⟨hone, rfl, hbegins, hindex⟩ := Place.event_index (hev ▸ List.mem_cons_self)
    obtain rfl : es = [] := (List.cons.inj (hev.symm.trans hone)).2
    rw [hev] at hcount' hbytes
    refine ⟨hg, hbytes, fun u => ?_, fun u l2 c => ?_⟩
    all_goals by_cases eu : e.thread = u
    · subst eu
      rw [calls_byte hbegins]
      intro c hc
      rcases List.mem_cons.mp hc with rfl | hc
      · refine Numbered.snoc ?_ (hr.count _ l _ hplace hindex)
        cases hcs : calls e.thread tr with
        | nil => rfl
        | cons c cs => exact hr.numbered e.thread c (by rw [hcs]; exact List.mem_cons_self)
      · exact hr.numbered _ c (List.mem_of_mem_tail hc)
    · rw [calls_of_ne eu]
      exact hr.numbered u
    · subst eu
      rw [calls_byte hbegins]
      intro hl2 hc
      simpa using hcount' l2 c hl2 hc
    · rw [calls_of_ne eu, hother u (Ne.symm eu)]
      exact hr.count u l2 c

theorem Recorded.step {a : Act n Place (Option UInt8)} (hr : Recorded s tr)
    (h : step (client n) s a = some s') : Recorded s' (tr ++ event s a) := by
  have hg := hr.guarded.step (lawful n) h
  obtain ⟨t, hother, hmove⟩ := step_moves h
  cases hmove with
  | quiet hsame _ hdata hquiet =>
    have hev : event s a = [] := by
      cases a with
      | call u l => exact hquiet.elim
      | exec u x => exact event_of_not_run hquiet x
      | _ => rfl
    rw [hev]
    exact hr.silent hg hother hdata fun l c hl hc => ⟨l, hsame.place ▸ hl, hc⟩
  | call l hpc hpc' hentry _ hdata => exact hr.call hg hother hdata hpc' hentry
  | acquire l x hpc hpc' _ _ hdata | release l ch x hpc hpc' _ hdata =>
    rw [event_of_not_run (by rw [hpc]; nofun)]
    refine hr.silent hg hother hdata fun l' c hl' hc => ?_
    rw [hpc'] at hl'
    cases hl'
    exact ⟨l, by rw [hpc]; rfl, hc⟩
  | go l l' x hpc hpc' hnext _ =>
    rw [event_run hpc]
    exact hr.go hg hother hpc hpc' hnext
  | sleep l l' ch x hpc hpc' hnext _ hdata | wakeup l l' ch x hpc hpc' hnext _ hdata =>
    change next x l s.data (s.th t).killed = _ at hnext
    rw [event_run hpc, event_of_not_go t (by rw [hnext]; nofun)]
    refine hr.silent hg hother hdata fun l2 c hl2 hc => ?_
    rw [hpc'] at hl2
    cases hl2
    exact ⟨l, by rw [hpc]; rfl, (count_of_next hnext (by simp)).symm.trans hc⟩
  | ret l x hpc hpc' hnext _ hdata =>
    have hnext' : next x l s.data (s.th t).killed = .ret := hnext
    rw [event_run hpc, event_of_not_go t (by rw [hnext']; nofun)]
    refine hr.silent hg hother hdata fun l2 c hl2 hc => ?_
    rw [hpc'] at hl2
    cases hl2

/-- In every run, what went into the pipe is what came out of it and what is still there, in the
same order; and the bytes of a call come in the order of its buffer. -/
theorem pipe_is_queue {data : ℕ → UInt8} {as : List (Act n Place (Option UInt8))}
    (hrun : run (step (client n)) (init (pipealloc data)) as = some s) :
    (s.data.nwrite - s.data.nread).toNat ≤ PIPESIZE ∧
      written (trace (step (client n)) event (init (pipealloc data)) as) =
        taken (trace (step (client n)) event (init (pipealloc data)) as) ++ s.data.contents ∧
      ∀ t, ∀ c ∈ calls t (trace (step (client n)) event (init (pipealloc data)) as),
        c.map Event.index = (List.range c.length).map Nat.cast ∧
          (written c).Sublist (written (trace (step (client n)) event (init (pipealloc data)) as)) ∧
          (taken c).Sublist (taken (trace (step (client n)) event (init (pipealloc data)) as)) := by
  have hr := run_trace_induct (I := fun tr s => Recorded s tr) (fun _ _ _ _ hr h => hr.step h)
    (recorded_init data) hrun
  rw [List.nil_append] at hr
  obtain ⟨q, hq, hqueue⟩ := hr.queue
  refine ⟨hq.length_eq ▸ hq.2, hq.contents_eq.symm ▸ hqueue, fun t c hc => ?_⟩
  have hsub := calls_sublist t _ c hc
  exact ⟨hr.numbered t c hc, hsub.filterMap _, hsub.filterMap _⟩

/-- One call writes 7 and 8 and returns, and another has read one byte. -/
def writeTwoReadOne : List (Act 2 Place (Option UInt8)) :=
  let w : Fin 2 := ⟨0, Nat.two_pos⟩
  let r : Fin 2 := ⟨1, Nat.one_lt_two⟩
  [.call w (.writeTest 0 2), .exec w none, .exec w none, .exec w (some 7), .exec w none,
    .exec w (some 8)] ++ List.replicate 6 (.exec w none) ++
  [.call r (.readTest 1), .exec r none, .exec r none, .exec r (some 0)]

theorem pipe_is_queue_writeTwoReadOne :
    let tr := trace (step (client 2)) event (init (pipealloc fun _ => 0)) writeTwoReadOne
    ∃ s, run (step (client 2)) (init (pipealloc fun _ => 0)) writeTwoReadOne = some s ∧
      written tr = [7, 8] ∧ taken tr = [7] ∧ s.data.contents = [8] ∧
      ∀ c ∈ calls 0 tr, c.map Event.index = (List.range c.length).map Nat.cast := by
  intro tr
  obtain ⟨s, hs⟩ : ∃ s, run (step (client 2)) (init (pipealloc fun _ => 0)) writeTwoReadOne = some s :=
    Option.isSome_iff_exists.mp (by decide +kernel)
  obtain ⟨-, hqueue, hcalls⟩ := pipe_is_queue hs
  have hw : written tr = [7, 8] := by decide +kernel
  have ht : taken tr = [7] := by decide +kernel
  change written tr = taken tr ++ _ at hqueue
  rw [hw, ht] at hqueue
  exact ⟨s, hs, hw, ht, (List.cons.inj hqueue).2.symm, fun c hc => (hcalls 0 c hc).1⟩

end TatakOS.Pipes
