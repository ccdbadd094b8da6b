import Mathlib.Data.Fintype.Card
import Mathlib.Data.List.FinRange
import Mathlib.Data.List.Induction
import TatakOS.Base.Path
import TatakOS.Base.Run
import TatakOS.Log.Cache

/-!
# The list of the buffers

The buffers of `bio.c` are linked through `prev` and `next` in a circle through `bcache.head`. The
steps are the sections under `bcache.lock` of `bget`, `brelse`, `bpin` and `bunpin`, taken by any
number of processes, with the sleep-locks of the buffers between them. The list keeps the order of
the last releases.
-/

namespace TatakOS.Lru

open Function
open Logging (NBUF BufId)

/-- `bcache.head` is `none`. -/
abbrev Node := Option BufId

/-- `struct buf`, without the data. `P` is the type of the processes. -/
structure Buf (P : Type) where
  valid : Bool := false
  dev : UInt32 := 0
  blockno : UInt32 := 0
  refcnt : UInt32 := 0
  /-- The holder of `b->lock`. -/
  lockedBy : Option P := none

/-- Where a process is: outside, in `bget` at `acquiresleep`, or in `brelse` after
`releasesleep`. -/
inductive Pc where
  | idle
  | locking (b : BufId)
  | putting (b : BufId)
  deriving DecidableEq, Repr

structure Bcache (P : Type) where
  next : Node → Node
  prev : Node → Node
  buf : BufId → Buf P
  pc : P → Pc

variable {P : Type}

/-! ## The source -/

/-- `b->next->prev = b->prev; b->prev->next = b->next`. -/
def Bcache.unlink (s : Bcache P) (b : Node) : Bcache P :=
  let s := { s with prev := update s.prev (s.next b) (s.prev b) }
  { s with next := update s.next (s.prev b) (s.next b) }

/-- The four stores that put `b` after the head. -/
def Bcache.push (s : Bcache P) (b : Node) : Bcache P :=
  let s := { s with next := update s.next b (s.next none) }
  let s := { s with prev := update s.prev b none }
  let s := { s with prev := update s.prev (s.next none) b }
  { s with next := update s.next none b }

/-- `binit`, from memory that is zero. -/
def binit : Bcache P :=
  (List.finRange NBUF).foldl (fun s b => s.push (some b))
    { next := fun _ => none, prev := fun _ => none, buf := fun _ => {}, pc := fun _ => .idle }

def Bcache.setBuf (s : Bcache P) (b : BufId) (x : Buf P) : Bcache P :=
  { s with buf := update s.buf b x }

/-- The test of the first loop of `bget`. -/
def Bcache.caches (s : Bcache P) (dev blockno : UInt32) : Node → Bool
  | some b => (s.buf b).dev = dev ∧ (s.buf b).blockno = blockno
  | none => false

/-- The test of the second loop. -/
def Bcache.unused (s : Bcache P) : Node → Bool
  | some b => (s.buf b).refcnt = 0
  | none => false

def Bcache.hit (s : Bcache P) (b : BufId) : Bcache P :=
  s.setBuf b { s.buf b with refcnt := (s.buf b).refcnt + 1 }

def Bcache.recycle (s : Bcache P) (b : BufId) (dev blockno : UInt32) : Bcache P :=
  s.setBuf b { s.buf b with dev, blockno, valid := false, refcnt := 1 }

/-- `bget` up to `acquiresleep`: the buffer, or `none` for `panic("bget: no buffers")`. The loops
end at the head, so that the fuel is enough. -/
def Bcache.bget (s : Bcache P) (dev blockno : UInt32) : Option (BufId × Bcache P) :=
  match search s.next none (s.caches dev blockno) (NBUF + 2) (s.next none) with
  | some (some (some b)) => some (b, s.hit b)
  | some none =>
    match search s.prev none s.unused (NBUF + 2) (s.prev none) with
    | some (some (some b)) => some (b, s.recycle b dev blockno)
    | _ => none
  | _ => none

/-- The rest of `brelse` after `releasesleep`. -/
def Bcache.put (s : Bcache P) (b : BufId) : Bcache P :=
  let s := s.setBuf b { s.buf b with refcnt := (s.buf b).refcnt - 1 }
  if (s.buf b).refcnt = 0 then (s.unlink (some b)).push (some b) else s

/-- What a process can do. -/
inductive Op (P : Type) where
  | bget (p : P) (dev blockno : UInt32)
  | acquiresleep (p : P)
  | brelse (p : P) (b : BufId)
  | put (p : P)
  | bpin (p : P) (b : BufId)
  | bunpin (p : P) (b : BufId)

section Step

variable [DecidableEq P]

def Bcache.goto (s : Bcache P) (p : P) (pc : Pc) : Bcache P :=
  { s with pc := update s.pc p pc }

/-- `none`: the process is somewhere else, has to wait, or the kernel panics. -/
def step (s : Bcache P) : Op P → Option (Bcache P)
  | .bget p dev blockno =>
    if s.pc p = .idle then (s.bget dev blockno).map fun r => r.2.goto p (.locking r.1) else none
  | .acquiresleep p =>
    match s.pc p with
    | .locking b =>
      if (s.buf b).lockedBy = none then
        some ((s.setBuf b { s.buf b with lockedBy := some p }).goto p .idle)
      else none
    | _ => none
  | .brelse p b =>
    if s.pc p = .idle ∧ (s.buf b).lockedBy = some p then
      some ((s.setBuf b { s.buf b with lockedBy := none }).goto p (.putting b))
    else none
  | .put p =>
    match s.pc p with
    | .putting b => some ((s.put b).goto p .idle)
    | _ => none
  | .bpin p b =>
    if s.pc p = .idle then
      some (s.setBuf b { s.buf b with refcnt := (s.buf b).refcnt + 1 })
    else none
  | .bunpin p b =>
    if s.pc p = .idle then
      some (s.setBuf b { s.buf b with refcnt := (s.buf b).refcnt - 1 })
    else none

/-- The buffer that a step releases for the last time, with `refcnt` 0 after it. -/
def released (s : Bcache P) : Op P → List BufId
  | .put p =>
    match s.pc p with
    | .putting b => if (s.buf b).refcnt - 1 = 0 then [b] else []
    | _ => []
  | _ => []

end Step

/-! ## The circle -/

/-- The pointers form a circle through the head that lists the buffers `l` in the direction of
`next`, and `l` has every buffer once. -/
structure Circle (s : Bcache P) (l : List BufId) : Prop where
  ring : Ring s.next s.prev none (l.map some)
  mem : ∀ b, b ∈ l

section Circle

variable {s s' : Bcache P} {l : List BufId} {b : BufId}

theorem Circle.congr (h : Circle s l) (hnext : s'.next = s.next) (hprev : s'.prev = s.prev) :
    Circle s' l :=
  ⟨by rw [hnext, hprev]; exact h.ring, h.mem⟩

theorem Circle.nodup (h : Circle s l) : l.Nodup :=
  (List.nodup_cons.mp h.ring.nodup).2.of_map some

theorem Bcache.push_eq (s : Bcache P) {b : Node} (hb : b ≠ none) : s.push b = { s with
      next := update (update s.next b (s.next none)) none b
      prev := update (update s.prev b none) (s.next none) b } := by
  simp [Bcache.push, update_of_ne hb.symm]

theorem Bcache.unlink_eq (s : Bcache P) {b : Node} (hb : b ≠ s.next b) : s.unlink b = { s with
      next := update s.next (s.prev b) (s.next b)
      prev := update s.prev (s.next b) (s.prev b) } := by
  simp [Bcache.unlink, update_of_ne hb]

/-- A buffer that is released for the last time comes to the head of the list. -/
theorem Circle.front (h : Circle s l) (b : BufId) :
    Circle ((s.unlink (some b)).push (some b)) (b :: l.erase b) := by
  obtain ⟨l₁, l₂, -, rfl, herase⟩ := List.exists_erase_eq (h.mem b)
  have hring := h.ring
  rw [List.map_append, List.map_cons] at hring
  have hnot : some b ∉ none :: (l₁.map some ++ l₂.map some) := by
    have hnodup := hring.nodup
    rw [← List.cons_append, List.nodup_middle] at hnodup
    exact (List.nodup_cons.mp hnodup).1
  have hpush := hring.unlink.push hnot
  rw [Bcache.unlink_eq s hring.next_ne.symm, Bcache.push_eq _ (Option.some_ne_none b), herase]
  refine ⟨?_, fun c => ?_⟩
  · rw [List.map_cons, List.map_append]
    exact hpush
  · have hc := h.mem c
    simp only [List.mem_append, List.mem_cons] at hc ⊢
    tauto

theorem Circle.put (h : Circle s l) (b : BufId) :
    Circle (s.put b) (if (s.buf b).refcnt - 1 = 0 then b :: l.erase b else l) := by
  have hset : Circle (s.setBuf b { s.buf b with refcnt := (s.buf b).refcnt - 1 }) l :=
    h.congr rfl rfl
  unfold Bcache.put
  simp only [Bcache.setBuf, update_self] at hset ⊢
  split_ifs
  · exact hset.front b
  · exact hset

theorem foldl_push_ring : ∀ (bs l : List BufId) (s : Bcache P), (bs.reverse ++ l).Nodup →
    Ring s.next s.prev none (l.map some) →
    Ring (bs.foldl (fun s b => s.push (some b)) s).next
      (bs.foldl (fun s b => s.push (some b)) s).prev none ((bs.reverse ++ l).map some) := by
  intro bs
  induction bs with
  | nil => exact fun l s _ h => h
  | cons b bs ih =>
    intro l s hn h
    rw [List.reverse_cons, List.append_assoc, List.singleton_append] at hn ⊢
    refine ih (b :: l) (s.push (some b)) hn ?_
    rw [Bcache.push_eq s (Option.some_ne_none b)]
    refine h.push ?_
    have hb : b ∉ l := (List.nodup_cons.mp (List.nodup_append.mp hn).2.1).1
    simpa using hb

theorem binit_circle : Circle (binit : Bcache P) (List.finRange NBUF).reverse := by
  have hn : ((List.finRange NBUF).reverse ++ []).Nodup := by
    rw [List.append_nil, List.nodup_reverse]
    exact List.nodup_finRange NBUF
  have hring := foldl_push_ring (List.finRange NBUF) [] (P := P)
    { next := fun _ => none, prev := fun _ => none, buf := fun _ => {}, pc := fun _ => .idle } hn
    ⟨rfl, rfl, List.nodup_singleton none⟩
  rw [List.append_nil] at hring
  exact ⟨hring, fun b => by simp⟩

end Circle

/-! ## The order of the last releases -/

/-- The list after the releases `rs`, the last one last. -/
def orderOf (rs : List BufId) : List BufId :=
  rs.foldl (fun l b => b :: l.erase b) (List.finRange NBUF).reverse

/-- How many releases ago the last release of `b` was. -/
def ago (rs : List BufId) (b : BufId) : Option ℕ := rs.reverse.idxOf? b

/-- The last release of `b` is longer ago than the one of `c`. Buffers that were never released
count as the oldest, in the order of the array. -/
def Older (rs : List BufId) (b c : BufId) : Prop :=
  match ago rs b, ago rs c with
  | some i, some j => j < i
  | none, some _ => True
  | none, none => b < c
  | some _, none => False

theorem orderOf_snoc (rs : List BufId) (b : BufId) :
    orderOf (rs ++ [b]) = b :: (orderOf rs).erase b := by
  simp [orderOf]

theorem ago_snoc_self (rs : List BufId) (b : BufId) : ago (rs ++ [b]) b = some 0 := by
  simp [ago, List.idxOf?_cons]

theorem ago_snoc_of_ne (rs : List BufId) {b c : BufId} (h : c ≠ b) :
    ago (rs ++ [b]) c = (ago rs c).map (· + 1) := by
  simp [ago, List.idxOf?_cons, h.symm]

/-- A buffer further back in the list was released longer ago. -/
theorem orderOf_pairwise (rs : List BufId) :
    (orderOf rs).Nodup ∧ (orderOf rs).Pairwise fun c b => Older rs b c := by
  induction rs using List.reverseRecOn with
  | nil =>
    refine ⟨List.nodup_reverse.mpr (List.nodup_finRange NBUF), ?_⟩
    rw [orderOf, List.foldl_nil, List.pairwise_reverse]
    exact (List.pairwise_lt_finRange NBUF).imp fun h => h
  | append_singleton rs r ih =>
    obtain ⟨hn, hp⟩ := ih
    rw [orderOf_snoc]
    have hne : ∀ c ∈ (orderOf rs).erase r, c ≠ r := fun c hc => (hn.mem_erase_iff.mp hc).1
    refine ⟨List.nodup_cons.mpr ⟨fun h => hne r h rfl, hn.erase r⟩, List.pairwise_cons.mpr ⟨?_, ?_⟩⟩
    · intro c hc
      rw [Older, ago_snoc_self, ago_snoc_of_ne rs (hne c hc)]
      cases ago rs c with
      | none => trivial
      | some i => exact Nat.succ_pos i
    · refine (hp.sublist List.erase_sublist).imp_of_mem ?_
      intro c b hc hb hold
      rw [Older, ago_snoc_of_ne rs (hne b hb), ago_snoc_of_ne rs (hne c hc)]
      rw [Older] at hold
      cases hi : ago rs b <;> cases hj : ago rs c <;> simp_all

/-! ## bget on the list -/

section Bget

variable {s : Bcache P} {l : List BufId} {dev blockno : UInt32}

theorem Circle.search_next (h : Circle s l) (p : Node → Bool) :
    search s.next none p (NBUF + 2) (s.next none) = some ((l.find? fun b => p (some b)).map some) := by
  have hlen : l.length ≤ NBUF := by simpa using h.nodup.length_le_card
  have hnone := (List.nodup_cons.mp h.ring.nodup).1
  rw [h.ring.forth.search hnone (by rw [List.length_map]; omega), List.find?_map]
  rfl

theorem Circle.search_prev (h : Circle s l) (p : Node → Bool) :
    search s.prev none p (NBUF + 2) (s.prev none) =
      some ((l.reverse.find? fun b => p (some b)).map some) := by
  have hlen : l.length ≤ NBUF := by simpa using h.nodup.length_le_card
  have hnone : none ∉ (l.map some).reverse := by simp
  have hlen' : (l.map some).reverse.length < NBUF + 2 := by
    rw [List.length_reverse, List.length_map]
    omega
  rw [h.ring.back.search hnone hlen', ← List.map_reverse, List.find?_map]
  rfl

/-- A block that no buffer has goes to the last unused buffer of the list. -/
theorem Circle.bget_miss (h : Circle s l) (hmiss : ∀ b, s.caches dev blockno (some b) = false) :
    s.bget dev blockno =
      (l.reverse.find? fun b => s.unused (some b)).map fun b => (b, s.recycle b dev blockno) := by
  have hfind : (l.find? fun b => s.caches dev blockno (some b)) = none :=
    List.find?_eq_none.mpr fun b _ => by simp [hmiss b]
  rw [Bcache.bget, h.search_next, h.search_prev, hfind]
  cases l.reverse.find? fun b => s.unused (some b) <;> rfl

theorem bget_pointers {b : BufId} {s' : Bcache P} (h : s.bget dev blockno = some (b, s')) :
    s'.next = s.next ∧ s'.prev = s.prev := by
  unfold Bcache.bget at h
  split at h
  · cases h
    exact ⟨rfl, rfl⟩
  · split at h
    · cases h
      exact ⟨rfl, rfl⟩
    · cases h
  · cases h

end Bget

/-! ## Runs -/

variable [DecidableEq P]

theorem Circle.step {s t : Bcache P} {rs : List BufId} {a : Op P} (h : Circle s (orderOf rs))
    (hstep : step s a = some t) : Circle t (orderOf (rs ++ released s a)) := by
  have hkeep : t.next = s.next → t.prev = s.prev → Circle t (orderOf (rs ++ [])) := by
    intro hnext hprev
    rw [List.append_nil]
    exact h.congr hnext hprev
  cases a with simp only [Lru.step] at hstep
  | bget p dev blockno =>
    split at hstep
    · obtain ⟨r, hr, rfl⟩ := Option.map_eq_some_iff.mp hstep
      obtain ⟨hnext, hprev⟩ := bget_pointers hr
      exact hkeep hnext hprev
    · cases hstep
  | acquiresleep p =>
    split at hstep
    · split at hstep
      · cases hstep
        exact hkeep rfl rfl
      · cases hstep
    · cases hstep
  | brelse p b | bpin p b | bunpin p b =>
    split at hstep
    · cases hstep
      exact hkeep rfl rfl
    · cases hstep
  | put p =>
    simp only [released]
    split at hstep
    · next b hpc =>
      cases hstep
      have hput := h.put b
      by_cases hzero : (s.buf b).refcnt - 1 = 0
      · rw [if_pos hzero] at hput ⊢
        rw [orderOf_snoc]
        exact hput.congr rfl rfl
      · rw [if_neg hzero] at hput ⊢
        rw [List.append_nil]
        exact hput.congr rfl rfl
    · cases hstep

theorem older_of_find {rs : List BufId} {q : BufId → Bool} {b : BufId}
    (h : (orderOf rs).reverse.find? q = some b) (hmem : ∀ c, c ∈ orderOf rs) :
    q b = true ∧ ∀ c, q c = true → c ≠ b → Older rs b c := by
  have hp : (orderOf rs).reverse.Pairwise fun b c => Older rs b c :=
    List.pairwise_reverse.mpr (orderOf_pairwise rs).2
  obtain ⟨hq, as, bs, hsplit, has⟩ := List.find?_eq_some_iff_append.mp h
  refine ⟨hq, fun c hc hne => ?_⟩
  have hcs : c ∈ as ++ b :: bs := hsplit ▸ List.mem_reverse.mpr (hmem c)
  rw [hsplit] at hp
  rcases List.mem_append.mp hcs with hc' | hc'
  · have hno := has c hc'
    simp [hc] at hno
  · have hbs : c ∈ bs := (List.mem_cons.mp hc').resolve_left hne
    exact (List.pairwise_cons.mp (List.pairwise_append.mp hp).2.1).1 c hbs

/-- After any run of the processes: `next` and `prev` are inverse and list every buffer once, and
`bget` of a block that is in no buffer recycles the buffer without references whose last release
is the longest ago, or panics if there is none. -/
theorem buffers_lru (ops : List (Op P)) (s : Bcache P) (hrun : run step binit ops = some s) :
    (∃ l : List BufId, l.Nodup ∧ (∀ b, b ∈ l) ∧ Path s.next none (l.map some) none ∧
      Path s.prev none (l.map some).reverse none) ∧
    (∀ n, s.prev (s.next n) = n ∧ s.next (s.prev n) = n) ∧
    ∀ p dev blockno, s.pc p = .idle → (∀ b, s.caches dev blockno (some b) = false) →
      ((∀ b, (s.buf b).refcnt ≠ 0) ∧ step s (.bget p dev blockno) = none) ∨
      ∃ b, (s.buf b).refcnt = 0 ∧
        (∀ c, (s.buf c).refcnt = 0 → c ≠ b → Older (trace step released binit ops) b c) ∧
        step s (.bget p dev blockno) = some ((s.recycle b dev blockno).goto p (.locking b)) := by
  have hcircle : Circle s (orderOf ([] ++ trace step released binit ops)) :=
    run_trace_induct (I := fun rs s => Circle s (orderOf rs))
      (fun _ _ _ _ h hstep => h.step hstep) binit_circle hrun
  rw [List.nil_append] at hcircle
  refine ⟨⟨_, hcircle.nodup, hcircle.mem, hcircle.ring.forth, hcircle.ring.back⟩, fun n => ?_, ?_⟩
  · refine hcircle.ring.inverse n ?_
    cases n with
    | none => exact List.mem_cons_self
    | some b => exact List.mem_cons_of_mem _ (List.mem_map.mpr ⟨b, hcircle.mem b, rfl⟩)
  · intro p dev blockno hidle hmiss
    have hstep : step s (.bget p dev blockno) =
        (s.bget dev blockno).map fun r => r.2.goto p (.locking r.1) := by
      simp only [step, if_pos hidle]
    rw [hstep, hcircle.bget_miss hmiss]
    cases hfind : (orderOf (trace step released binit ops)).reverse.find?
        fun b => s.unused (some b) with
    | none =>
      refine .inl ⟨fun b hb => ?_, rfl⟩
      have hno := List.find?_eq_none.mp hfind b (List.mem_reverse.mpr (hcircle.mem b))
      exact hno (by simpa [Bcache.unused] using hb)
    | some b =>
      obtain ⟨hb, hold⟩ := older_of_find hfind hcircle.mem
      refine .inr ⟨b, by simpa [Bcache.unused] using hb, fun c hc hne => hold c ?_ hne, rfl⟩
      simpa [Bcache.unused] using hc

/-- Blocks 5 and 6 are read into the buffers 0 and 1, the other buffers are pinned, and buffer 1 is
released before buffer 0. -/
def sampleOps : List (Op Unit) :=
  [[.bget () 1 5, .acquiresleep (), .bget () 1 6, .acquiresleep ()],
    (List.finRange _).tail.tail.map (.bpin ()),
    [.brelse () 1, .put (), .brelse () 0, .put ()]].flatten

/-- Another block takes the place of block 6. -/
theorem buffers_lru_sample : ∃ s, run step binit sampleOps = some s ∧
    (∀ n, s.prev (s.next n) = n ∧ s.next (s.prev n) = n) ∧ ∃ b : BufId, b.val = 1 ∧
      (∀ c, (s.buf c).refcnt = 0 → c ≠ b → Older (trace step released binit sampleOps) b c) ∧
      step s (.bget () 1 100) = some ((s.recycle b 1 100).goto () (.locking b)) := by
  obtain ⟨s, hs, hidle, hmiss, hstep⟩ := exists_of_any (o := run step binit sampleOps) (p := fun s =>
    s.pc () = .idle ∧ (∀ b, s.caches 1 100 (some b) = false) ∧
      (step s (.bget () 1 100)).map (fun s' => s'.pc ()) = some (.locking ⟨1, by decide⟩))
    (by decide +kernel)
  generalize sampleOps = ops at hs ⊢
  obtain ⟨-, hinv, hbget⟩ := buffers_lru ops s hs
  obtain ⟨-, hnone⟩ | ⟨b, -, hold, hsome⟩ := hbget () 1 100 hidle hmiss
  · rw [hnone] at hstep
    cases hstep
  · rw [hsome] at hstep
    rw [Option.map_some, Option.some.injEq] at hstep
    dsimp only [Bcache.goto] at hstep
    rw [update_self] at hstep
    exact ⟨s, hs, hinv, b, congrArg Fin.val (Pc.locking.inj hstep), hold, hsome⟩

end TatakOS.Lru
