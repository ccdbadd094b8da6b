import TatakOS.Log.Commit

/-!
# The buffer cache under arbitrary users

Here any process may read, change and write any block at any time, of any device; only `log_write`
is kept to operations, and a buffer that was changed is logged or written before it is released.
`Traced.last` is the array that the cache stands for: what was last put into the buffer of a block,
by users and by the code of the log.
-/

namespace TatakOS.Logging

open Function

section Model

variable {T : Type}

/-- What a user of the cache does next. -/
inductive Cmd
  | begin
  | bread (dev b : ℕ)
  | modify (i : BufId) (d : Block)
  | logWrite (i : BufId)
  | bwrite (i : BufId)
  | brelse (i : BufId)
  | done
  | go

variable [DecidableEq T]

/-- The first part of `bread(dev, b)`. -/
def State.breadDev (s : State T) (t : T) (dev b : ℕ) : Option (State T) :=
  (s.cache.bgetDev dev b).map fun (i, c) =>
    { s.setTh t { s.th t with io := .lock i } with cache := c }

/-- `log_write` by `t` of a block of any kind. It looks at `b->blockno` only. -/
def State.logAny (s : State T) (t : T) (i : BufId) : Option (State T) :=
  match Logging.logWrite s.log (s.cache.buf i).blockno with
  | .ok (l, new) =>
    some { s.setTh t { s.th t with dirty := (s.th t).dirty.filter (· ≠ i) } with
      log := l
      cache := if new then s.cache.bpin i else s.cache }
  | .error _ => none

/-- `end_op` by `t`, up to the call of `write_log`. -/
def State.endOp (s : State T) (t : T) : Option (State T) :=
  match Logging.endOp s.log with
  | .ok (l, doCommit) =>
    let j := if doCommit then if 0 < l.lh.length then .writeLog 0 .log else .endCommit else .idle
    some { s.goto t j with log := l }
  | .error _ => none

/-- A step of a process that does not run the code of the log. -/
def userStep (s : State T) (t : T) (a : Cmd) : Option (State T) :=
  let x := s.th t
  match a with
  | .begin =>
    if x.job = .idle then (beginOp s.log).map fun l => { s.goto t .op with log := l } else none
  | .bread dev b => if dev ≠ 0 then s.breadDev t dev b else none
  | .modify i d => if i ∈ x.regs then some (s.setData t i d x.job) else none
  | .logWrite i => if x.job = .op ∧ i ∈ x.regs then s.logAny t i else none
  | .bwrite i => if i ∈ x.regs then some (s.bwrite t i x.job) else none
  | .brelse i => s.brelse t i x.job
  | .done => if x.job = .op then s.endOp t else none
  | .go => none

/-- The next step of `t`. -/
def execAny (g : Geom) (s : State T) (t : T) (a : Cmd) : Option (State T) :=
  if (s.th t).io = .ready ∧ (s.th t).job.sys = false then userStep s t a else exec g s t .go

structure Traced (T : Type) where
  sys : State T
  /-- For each device and block what was last stored there. -/
  last : ℕ → ℕ → Block

/-- A step of `t` from `s` to `s'` stores into a buffer if it adds that to those `t` has changed. -/
def noteStore (s s' : State T) (t : T) (last : ℕ → ℕ → Block) : ℕ → ℕ → Block :=
  match (s'.th t).dirty with
  | [] => last
  | i :: _ =>
    if (s.th t).dirty.length < (s'.th t).dirty.length then
      let x := s'.cache.buf i
      update last x.dev (update (last x.dev) x.blockno x.data)
    else last

def tracedStep (g : Geom) (x : Traced T) (a : T × Cmd) : Option (Traced T) :=
  (execAny g x.sys a.1 a.2).map fun s => ⟨s, noteStore x.sys s a.1 x.last⟩

omit [DecidableEq T] in
/-- After the recovery, on some disk. -/
def fresh (g : Geom) (disk : ℕ → Block) : Traced T where
  sys :=
    { cache := binit disk, log := { size := g.size }, th := fun _ => {}, up := true
      pending := fun _ => none, groups := [] }
  last _ := disk

end Model

/-! ## What the code of the log is doing -/

/-- How far `commit` has come: which of the blocks in the log are still pinned. -/
def Stage (lh pins : List ℕ) (disk E : ℕ → Block) : Job → Prop
  | .writeLog tail k => pins = lh ∧ k.Inside lh tail
  | .writeHead .commit _ => pins = lh
  | .install false tail k =>
    k.Inside lh tail ∧ pins = lh.drop (k.rounds tail) ∧
      (k = .unpin → disk (lh.getD tail 0) = E (lh.getD tail 0))
  | .writeHead .clear _ | .endCommit => lh = [] ∧ pins = []
  | _ => False

/-- The rounds of `write_log` that have copied their block. -/
def Copy.copies (tail : ℕ) : Copy → ℕ
  | .log | .home | .move => tail
  | _ => tail + 1

/-- The blocks that `write_log` has copied are the same in both places. -/
def Copied (g : Geom) (lh : List ℕ) (last : ℕ → Block) : Job → Prop
  | .writeLog tail k =>
    ∀ j < lh.length, j < k.copies tail → last (g.start + j + 1) = last (lh.getD j 0)
  | .writeHead .commit _ | .install _ _ _ =>
    ∀ j < lh.length, last (g.start + j + 1) = last (lh.getD j 0)
  | _ => True

theorem Stage.mono {lh pins : List ℕ} {disk disk' E E' : ℕ → Block} {j : Job}
    (h : Stage lh pins disk E j) (hd : ∀ b, disk b = E b → disk' b = E' b) :
    Stage lh pins disk' E' j := by
  cases j with
  | install r tail k =>
    cases r with
    | false => exact ⟨h.1, h.2.1, fun hk => hd _ (h.2.2 hk)⟩
    | true => exact h
  | writeHead w k => cases w <;> exact h
  | _ => exact h

variable {lh : List ℕ}

theorem Copied.congr {g : Geom} {last last' : ℕ → Block} {j : Job}
    (h : Copied g lh last j) (hhome : ∀ b ∈ lh, last' b = last b)
    (hlog : ∀ j < lh.length, last' (g.start + j + 1) = last (g.start + j + 1)) :
    Copied g lh last' j := by
  have hall : ∀ j < lh.length, last (g.start + j + 1) = last (lh.getD j 0) →
      last' (g.start + j + 1) = last' (lh.getD j 0) := by
    intro j hj e
    rw [hlog j hj, e, hhome _ (LhOk.getD_mem hj)]
  cases j with
  | writeLog tail k => exact fun j hj hk => hall j hj (h j hj hk)
  | install r tail k => exact fun j hj => hall j hj (h j hj)
  | writeHead w k =>
    cases w with
    | commit => exact fun j hj => hall j hj (h j hj)
    | _ => trivial
  | _ => trivial

variable {T : Type}

/-- The buffers that the code of the log works with are on top of those its process holds. -/
structure At (g : Geom) (s : State T) (x : Thread) : Prop where
  regs : x.job.blocks g s.log.lh <+: x.regs.map fun i => (s.cache.buf i).blockno
  io : ∀ i, x.io = .lock i ∨ x.io = .fill i → x.job.want g s.log.lh = some (s.cache.buf i).blockno

/-- The in-memory log and who is inside operations or in `commit`. -/
structure Control (g : Geom) (l : Log) (job : T → Job) : Prop where
  size : l.size = g.size
  nodup : l.lh.Nodup
  length : l.lh.length ≤ g.size - 1
  ops : ∃ ops : Finset T, (∀ t, t ∈ ops ↔ job t = .op) ∧ l.outstanding = ops.card
  unique : ∀ t t', (job t).sys = true → (job t').sys = true → t = t'
  committing : l.committing = true ↔ ∃ t, (job t).sys = true
  alone : l.committing = true → l.outstanding = 0

/-- How `last` is related to the array `E` of the cache: they differ only where a process has
changed a buffer and not yet logged or written it. -/
structure Latest (c : Cache T) (h : T → Hold) (E last : ℕ → Block) : Prop where
  dirty : ∀ t, ∀ i ∈ (h t).dirty, (c.buf i).data = last (c.buf i).blockno
  clean : ∀ b, (∀ t, ∀ i ∈ (h t).dirty, (c.buf i).blockno ≠ b) → last b = E b

variable [DecidableEq T]

/-- The invariant. `strict` says whether users leave the log's blocks alone, and during a commit
those that it installs. -/
structure ArrayOk (strict : Prop) (g : Geom) (s : State T) (last : ℕ → Block) (pins : List ℕ)
    (E : ℕ → Block) : Prop where
  cache : CacheOk s.cache s.holds pins E
  devs : ∀ i, (s.cache.buf i).dev = 0 ∨ (s.cache.buf i).dev = ROOTDEV
  control : Control g s.log fun t => (s.th t).job
  place : ∀ t, (s.th t).job.sys = true → At g s (s.th t)
  quiet : (∀ t, (s.th t).job.sys = false) → pins = s.log.lh
  stage : ∀ t, (s.th t).job.sys = true → Stage s.log.lh pins s.cache.disk E (s.th t).job
  latest : Latest s.cache s.holds E last
  home : strict → ∀ b ∈ s.log.lh, g.home b
  copied : strict → ∀ t, (s.th t).job.sys = true → Copied g s.log.lh last (s.th t).job

def ArrayInv (strict : Prop) (g : Geom) (x : Traced T) : Prop :=
  ∃ pins E, ArrayOk strict g x.sys (x.last ROOTDEV) pins E

omit [DecidableEq T] in
theorem bget_devs {c c' : Cache T} {i : BufId} {b : ℕ}
    (h : ∀ i, (c.buf i).dev = 0 ∨ (c.buf i).dev = ROOTDEV) (hget : c.bget b = some (i, c'))
    (j : BufId) : (c'.buf j).dev = 0 ∨ (c'.buf j).dev = ROOTDEV := by
  unfold Cache.bget Cache.bgetDev at hget
  split at hget
  · cases hget
    by_cases e : j = i
    · subst e
      simpa using h j
    · simpa [e] using h j
  · split at hget
    · cases hget
      by_cases e : j = i
      · subst e
        simp
      · simpa [e] using h j
    · cases hget

/-! ## What a process reads -/

section Latest

variable {c c' : Cache T} {h h' : T → Hold} {users : BufId → Multiset (Option T)} {pins : List ℕ}
  {E last : ℕ → Block} {t : T} {i j : BufId}

theorem CacheInv.blockno_ne (hc : CacheInv c h users pins E) (hi : i ∈ (h t).regs) {t' : T}
    (hj : j ∈ (h t').regs) (hne : j ≠ i) : (c.buf j).blockno ≠ (c.buf i).blockno :=
  fun e => hne (hc.uniq j i (hc.dev_of_regs hj) (hc.dev_of_regs hi) e)

section

variable (hl : Latest c h E last)
include hl

theorem Latest.read (hc : CacheInv c h users pins E) (hi : i ∈ (h t).regs) :
    (c.buf i).data = last (c.buf i).blockno := by
  by_cases hd : i ∈ (h t).dirty
  · exact hl.dirty t i hd
  · rw [hc.data_of_regs hi hd]
    refine (hl.clean _ fun t' j hj e => ?_).symm
    have hji : j = i := by
      by_contra hne
      exact hc.blockno_ne hi (hc.dirty t' j hj) hne e
    subst hji
    have := hc.holder_unique (Hold.mem_held_of_regs hi) (Hold.mem_held_of_regs (hc.dirty t' j hj))
    subst this
    exact hd hj

omit [DecidableEq T] in
theorem Latest.frame (hd : ∀ t, (h' t).dirty = (h t).dirty)
    (hb : ∀ t, ∀ i ∈ (h t).dirty, (c'.buf i).blockno = (c.buf i).blockno ∧
      (c'.buf i).data = (c.buf i).data) :
    Latest c' h' E last := by
  refine ⟨fun t i hi => ?_, fun b hno => hl.clean b fun t i hi => ?_⟩
  · rw [hd] at hi
    rw [(hb t i hi).1, (hb t i hi).2]
    exact hl.dirty t i hi
  · rw [← (hb t i hi).1]
    exact hno t i (by rwa [hd])

theorem Latest.store (hc : CacheInv c h users pins E) (hi : i ∈ (h t).regs) (d : Block) :
    Latest (c.setData i d) (update h t { h t with dirty := i :: (h t).dirty }) E
      (update last (c.buf i).blockno d) := by
  have hold : ∀ t' j, j ∈ (update h t { h t with dirty := i :: (h t).dirty } t').dirty ↔
      j ∈ (h t').dirty ∨ t' = t ∧ j = i := by
    intro t' j
    by_cases e : t' = t
    · subst e
      simp [or_comm]
    · simp [e]
  have hself : ((c.setData i d).buf i).data = d := by simp [Cache.setData]
  have hblk := fun j => (c.setData_buf i d j).2
  refine ⟨fun t' j hj => ?_, fun b hno => ?_⟩
  · rw [hblk]
    by_cases e : j = i
    · subst e
      rw [hself, update_self]
    · have hj' : j ∈ (h t').dirty := ((hold t' j).mp hj).resolve_right fun h => e h.2
      rw [update_of_ne (hc.blockno_ne hi (hc.dirty t' j hj') e)]
      simpa [Cache.setData, e] using hl.dirty t' j hj'
  · have hb : b ≠ (c.buf i).blockno := by
      have := hno t i ((hold t i).mpr (.inr ⟨rfl, rfl⟩))
      rw [hblk] at this
      exact this.symm
    rw [update_of_ne hb]
    refine hl.clean b fun t' j hj => ?_
    have := hno t' j ((hold t' j).mpr (.inl hj))
    rwa [hblk] at this

theorem Latest.write (hc : CacheInv c h users pins E) (hi : i ∈ (h t).regs)
    (hb : ∀ j, (c'.buf j).blockno = (c.buf j).blockno ∧ (c'.buf j).data = (c.buf j).data) :
    Latest c' (update h t { h t with dirty := (h t).dirty.filter (· ≠ i) })
      (update E (c.buf i).blockno (c.buf i).data) last := by
  have hold : ∀ t' j,
      j ∈ (update h t { h t with dirty := (h t).dirty.filter (· ≠ i) } t').dirty ↔
        j ∈ (h t').dirty ∧ (t' = t → j ≠ i) := by
    intro t' j
    by_cases e : t' = t
    · subst e
      simp
    · simp [e]
  refine ⟨fun t' j hj => ?_, fun b hno => ?_⟩
  · rw [(hb j).1, (hb j).2]
    exact hl.dirty t' j ((hold t' j).mp hj).1
  · by_cases e : b = (c.buf i).blockno
    · subst e
      rw [update_self]
      exact (hl.read hc hi).symm
    · rw [update_of_ne e]
      refine hl.clean b fun t' j hj hjb => ?_
      refine hno t' j ((hold t' j).mpr ⟨hj, ?_⟩) ((hb j).1.trans hjb)
      rintro - rfl
      exact e hjb.symm

end

end Latest

/-! ## One process takes a step -/

section Step

variable {strict : Prop} {g : Geom} {s s' : State T} {last last' : ℕ → Block}
  {pins pins' : List ℕ} {E E' : ℕ → Block} {t : T} {x : Thread} {i : BufId} {b : ℕ} {j : Job}

section

omit [DecidableEq T]

theorem Control.frame {l : Log} {job job' : T → Job} (h : Control g l job)
    (hs : ∀ t, (job' t).sys = (job t).sys) (ho : ∀ t, job' t = .op ↔ job t = .op) :
    Control g l job' where
  size := h.size
  nodup := h.nodup
  length := h.length
  ops := by
    obtain ⟨ops, hops, hcard⟩ := h.ops
    exact ⟨ops, fun t => (hops t).trans (ho t).symm, hcard⟩
  unique t t' := by
    rw [hs, hs]
    exact h.unique t t'
  committing := by
    simp only [hs]
    exact h.committing
  alone := h.alone

theorem At.same {y : Thread} (h : At g s x) (hlog : s'.log = s.log)
    (hb : ∀ i ∈ x.regs, (s'.cache.buf i).blockno = (s.cache.buf i).blockno)
    (hjob : y.job = x.job) (hregs : y.regs = x.regs)
    (hio : ∀ i, y.io = .lock i ∨ y.io = .fill i →
      x.job.want g s.log.lh = some (s'.cache.buf i).blockno) : At g s' y := by
  refine ⟨?_, ?_⟩
  · rw [hlog, hjob, hregs, List.map_congr_left hb]
    exact h.regs
  · rw [hlog, hjob]
    exact hio

theorem At.frame (h : At g s x) (hlog : s'.log = s.log)
    (hb : ∀ i ∈ x.toHold.refs, (s'.cache.buf i).blockno = (s.cache.buf i).blockno) : At g s' x := by
  refine h.same hlog (fun i hi => hb i (Hold.mem_refs_of_regs hi)) rfl rfl fun i hi => ?_
  have hmem : i ∈ x.toHold.refs := by
    unfold Hold.refs
    obtain e | e := hi <;> simp [e]
  rw [hb i hmem]
  exact h.io i hi

end

section

variable (h : ArrayOk strict g s last pins E)
include h

section

variable (hth : s'.th = update s.th t x) (hlog : s'.log = s.log)
  (hsys : x.job.sys = (s.th t).job.sys) (hop : x.job = .op ↔ (s.th t).job = .op)
  (hdevs : ∀ i, (s'.cache.buf i).dev = 0 ∨ (s'.cache.buf i).dev = ROOTDEV)
  (hplace : x.job.sys = true → At g s' x)
include hth hlog hsys hop hdevs hplace

/-- Process `t` goes from `s.th t` to `x` and leaves the in-memory log alone. If it does not run the
code of the log, it leaves the pins alone too. -/
theorem ArrayOk.step (hc : CacheOk s'.cache s'.holds pins' E')
    (hk : ∀ t', t' ≠ t → ∀ i ∈ (s.th t').toHold.refs,
      (s'.cache.buf i).blockno = (s.cache.buf i).blockno)
    (hpins : (s.th t).job.sys = false → pins' = pins)
    (hstage : x.job.sys = true → Stage s.log.lh pins' s'.cache.disk E' x.job)
    (hdisk : (s.th t).job.sys = false → ∀ b, s.cache.disk b = E b → s'.cache.disk b = E' b)
    (hlatest : Latest s'.cache s'.holds E' last')
    (hcopied : strict → x.job.sys = true → Copied g s.log.lh last' x.job)
    (hlast : strict → (s.th t).job.sys = false → s.log.committing = true → (∀ b, ¬ g.home b →
      last' b = last b) ∧ ∀ b ∈ s.log.lh, last' b = last b) :
    ArrayOk strict g s' last' pins' E' := by
  have hself : s'.th t = x := by rw [hth, update_self]
  have hother : ∀ t', t' ≠ t → s'.th t' = s.th t' := fun t' e => by
    rw [hth, update_of_ne e]
  have hsys' : ∀ t', (s'.th t').job.sys = (s.th t').job.sys := by
    intro t'
    by_cases e : t' = t
    · subst e
      rw [hself, hsys]
    · rw [hother t' e]
  -- another process in the code of the log: then `t` is a user
  have huser : ∀ t', t' ≠ t → (s.th t').job.sys = true → (s.th t).job.sys = false := by
    intro t' e h'
    by_contra ht
    exact e (h.control.unique t' t h' (by simpa using ht))
  refine ⟨hc, hdevs, ?_, ?_, ?_, ?_, hlatest, ?_, ?_⟩
  · rw [hlog]
    refine h.control.frame hsys' fun t' => ?_
    by_cases e : t' = t
    · subst e
      rw [hself, hop]
    · rw [hother t' e]
  · intro t' h'
    by_cases e : t' = t
    · subst e
      rw [hself] at h' ⊢
      exact hplace h'
    · rw [hsys'] at h'
      rw [hother t' e]
      exact (h.place t' h').frame hlog (hk t' e)
  · intro hno
    simp only [hsys'] at hno
    rw [hpins (hno t), hlog]
    exact h.quiet hno
  · intro t' h'
    rw [hlog]
    by_cases e : t' = t
    · subst e
      rw [hself] at h' ⊢
      exact hstage h'
    · rw [hsys'] at h'
      rw [hother t' e, hpins (huser t' e h')]
      exact (h.stage t' h').mono (hdisk (huser t' e h'))
  · rw [hlog]
    exact h.home
  · intro hs t' h'
    rw [hlog]
    by_cases e : t' = t
    · subst e
      rw [hself] at h' ⊢
      exact hcopied hs h'
    · rw [hsys'] at h'
      rw [hother t' e]
      have hl := hlast hs (huser t' e h') (h.control.committing.mpr ⟨t', h'⟩)
      refine (h.copied hs t' h').congr hl.2 fun j hj => hl.1 _ ?_
      have := h.control.length
      unfold Geom.home
      omega

/-- A step that changes no data that a process has read, and no block of the array. -/
theorem ArrayOk.frame (hdisk : s'.cache.disk = s.cache.disk) (hdirty : x.dirty = (s.th t).dirty)
    (hc : CacheOk s'.cache s'.holds pins E) (hk : s.Keeps s')
    (hstage : x.job.sys = true → Stage s.log.lh pins s.cache.disk E x.job)
    (hcopied : strict → x.job.sys = true → Copied g s.log.lh last x.job) :
    ArrayOk strict g s' last pins E := by
  refine h.step hth hlog hsys hop hdevs hplace hc (fun t' _ i => (hk t' i).1) (fun _ => rfl) ?_ ?_ ?_
    hcopied fun _ _ _ => ⟨fun _ _ => rfl, fun _ _ => rfl⟩
  · rw [hdisk]
    exact hstage
  · rw [hdisk]
    exact fun _ _ hb => hb
  · refine h.latest.frame (fun t' => ?_) fun t' i hi => ?_
    · rw [holds_update t hth]
      by_cases e : t' = t
      · subst e
        rw [update_self]
        exact hdirty
      · rw [update_of_ne e]
    · have hi' := h.cache.dirty_regs t' i hi
      exact ⟨(hk t' i).1 (Hold.mem_refs_of_regs hi'), (hk t' i).2 hi'⟩

end

theorem ArrayOk.bread (hio : (s.th t).io = .ready)
    (hsys : (s.th t).job.sys = true → (s.th t).job.want g s.log.lh = some b)
    (hs : s.bread t b = some s') : ArrayOk strict g s' last pins E := by
  unfold State.bread at hs
  obtain ⟨⟨i, c⟩, hget, rfl⟩ := Option.map_eq_some_iff.mp hs
  obtain ⟨hc', hb, hdisk, hkeep⟩ := h.cache.bget (t := t) hio hget
  refine h.frame rfl rfl rfl Iff.rfl (bget_devs h.devs hget) ?_ hdisk rfl ?_ ?_ (h.stage t)
    fun hs => h.copied hs t
  · intro hs
    refine (h.place t hs).same rfl (fun j hj => (hkeep t j (Hold.mem_refs_of_regs hj)).1) rfl rfl
      fun j hj => ?_
    obtain rfl : i = j := by simpa using hj
    rw [hsys hs]
    exact congrArg some hb.symm
  · rw [holds_update t rfl]
    exact hc'
  · intro t' j
    exact ⟨fun hj => (hkeep t' j hj).1, fun hj => (hkeep t' j (Hold.mem_refs_of_regs hj)).2⟩

theorem ArrayOk.same (hth : s'.th = update s.th t x) (hlog : s'.log = s.log)
    (hdisk : s'.cache.disk = s.cache.disk) (hjob : x.job = (s.th t).job)
    (hregs : (s.th t).job.sys = true → x.regs = (s.th t).regs) (hdirty : x.dirty = (s.th t).dirty)
    (hc : CacheOk s'.cache s'.holds pins E) (hb : s.cache.Same s'.cache)
    (hio : ∀ i, x.io = .lock i ∨ x.io = .fill i → (s.th t).io = .lock i ∨ (s.th t).io = .fill i) :
    ArrayOk strict g s' last pins E := by
  refine h.frame hth hlog (by rw [hjob]) (by rw [hjob]) (fun j => ?_) ?_ hdisk hdirty hc
    (keeps_of_buf fun j => (hb j).2) ?_ ?_
  · rw [(hb j).1]
    exact h.devs j
  · rw [hjob]
    intro hs
    refine (h.place t hs).same hlog (fun j _ => (hb j).2.1) hjob (hregs hs) fun j hj => ?_
    rw [(hb j).2.1]
    exact (h.place t hs).io j (hio j hj)
  · rw [hjob]
    exact h.stage t
  · rw [hjob]
    exact fun hs => h.copied hs t

theorem ArrayOk.lock (hio : (s.th t).io = .lock i) (hfree : (s.cache.buf i).lockedBy = none) :
    ArrayOk strict g { s.setTh t { s.th t with io := .fill i } with cache := s.cache.lock t i }
      last pins E := by
  obtain ⟨users, hc⟩ := h.cache
  refine h.same rfl rfl rfl rfl (fun _ => rfl) rfl ⟨users, ?_⟩
    (Cache.same_lock _ i t) fun j hj => ?_
  · rw [holds_update t rfl]
    exact hc.lock (t := t) hio hfree
  · obtain rfl : i = j := by simpa using hj
    exact .inl hio

theorem ArrayOk.put (hio : (s.th t).io = .put i) :
    ArrayOk strict g { s.setTh t { s.th t with io := .ready } with cache := s.cache.put i }
      last pins E := by
  obtain ⟨users, hc⟩ := h.cache
  refine h.same rfl rfl (Cache.put_disk _ _) rfl (fun _ => rfl) rfl ?_
    (Cache.same_put _ i) fun j hj => ?_
  · rw [holds_update t rfl]
    exact ⟨_, hc.put (t := t) hio⟩
  · simp at hj

end

theorem Job.afterBread_eq_op : j.afterBread = .op ↔ j = .op := by
  cases j with
  | writeLog tail k | install r tail k | writeHead w k | readHead k =>
    cases k <;> simp [Job.afterBread]
  | _ => simp [Job.afterBread]

theorem Stage.afterBread {disk : ℕ → Block} (h : Stage lh pins disk E j)
    (hw : j.want g lh = some b) : Stage lh pins disk E j.afterBread := by
  cases j with
  | writeLog tail k => cases k <;> simp_all [Job.want, Job.afterBread, Stage, Copy.Inside]
  | install r tail k =>
    cases r <;> cases k <;> simp_all [Job.want, Job.afterBread, Stage, Copy.Inside, Copy.rounds]
  | writeHead w k => cases w <;> cases k <;> simp_all [Job.want, Job.afterBread, Stage]
  | readHead k => cases h
  | _ => simp [Job.want] at hw

theorem Copied.afterBread (h : Copied g lh last j) : Copied g lh last j.afterBread := by
  cases j with
  | writeLog tail k => cases k <;> exact h
  | install r tail k => cases k <;> exact h
  | writeHead w k => cases w <;> cases k <;> exact h
  | readHead k => cases k <;> exact h
  | _ => exact h

section

variable (h : ArrayOk strict g s last pins E)
include h

theorem ArrayOk.fill (hio : (s.th t).io = .fill i) : ArrayOk strict g { s.setTh t { s.th t with
      io := .ready, regs := i :: (s.th t).regs, job := (s.th t).job.afterBread } with
        cache := s.cache.fill i } last pins E := by
  obtain ⟨users, hc⟩ := h.cache
  have hblk := fun j => (s.cache.fill_buf i j).2.1
  have hwant := fun hs => (h.place t hs).io i (.inr hio)
  refine h.frame rfl rfl (Job.afterBread_sys _) Job.afterBread_eq_op (fun j => ?_) ?_
    (Cache.fill_disk _ _) rfl ⟨users, ?_⟩ ?_ ?_ ?_
  · rw [show ((s.cache.fill i).buf j).dev = _ from (s.cache.fill_buf i j).1]
    exact h.devs j
  · rw [Job.afterBread_sys]
    intro hs
    refine ⟨?_, fun j hj => by simp at hj⟩
    show (s.th t).job.afterBread.blocks g s.log.lh <+: _
    rw [Job.afterBread_blocks (hwant hs)]
    simp only [List.map_cons, hblk]
    exact List.cons_prefix_cons.mpr ⟨rfl, (h.place t hs).regs⟩
  · rw [holds_update t rfl]
    exact hc.fill (t := t) hio
  · exact fun t' k => ⟨fun _ => hblk k, fun hk => Cache.fill_data i (hc.valid t' k hk)⟩
  · rw [Job.afterBread_sys]
    exact fun hs => (h.stage t hs).afterBread (hwant hs)
  · rw [Job.afterBread_sys]
    exact fun hst hs => (h.copied hst t hs).afterBread

theorem ArrayOk.brelse (hio : (s.th t).io = .ready) (hsys : j.sys = (s.th t).job.sys)
    (hop : j = .op ↔ (s.th t).job = .op)
    (hplace : j.sys = true →
      j.blocks g s.log.lh <+: ((s.th t).regs.erase i).map fun i => (s.cache.buf i).blockno)
    (hstage : j.sys = true → Stage s.log.lh pins s.cache.disk E j)
    (hcopied : strict → j.sys = true → Copied g s.log.lh last j) (hs : s.brelse t i j = some s') :
    ArrayOk strict g s' last pins E := by
  obtain ⟨users, hc⟩ := h.cache
  simp only [State.brelse] at hs
  split_ifs at hs with hr
  cases hs
  have hb := s.cache.same_unlock i
  refine h.frame rfl rfl hsys hop (fun j => ?_) ?_ rfl rfl ⟨users, ?_⟩
    (keeps_of_buf fun j => (hb j).2) hstage hcopied
  · rw [show ((s.cache.unlock i).buf j).dev = _ from (hb j).1]
    exact h.devs j
  · intro hj
    refine ⟨?_, fun j hj => by simp at hj⟩
    have := hplace hj
    rwa [← List.map_congr_left fun k _ => (hb k).2.1] at this
  · rw [holds_update t rfl]
    exact hc.unlock (t := t) hio hr.1 hr.2

variable (hio : (s.th t).io = .ready) (hi : i ∈ (s.th t).regs) (hsys : j.sys = (s.th t).job.sys)
  (hop : j = .op ↔ (s.th t).job = .op) (hplace : j.sys = true →
    j.blocks g s.log.lh <+: (s.th t).regs.map fun i => (s.cache.buf i).blockno)
include hio hi hsys hop hplace

theorem ArrayOk.setData {d : Block}
    (hstage : j.sys = true → Stage s.log.lh pins s.cache.disk E j)
    (hcopied : strict → j.sys = true → Copied g s.log.lh (update last (s.cache.buf i).blockno d) j)
    (hlast : strict → (s.th t).job.sys = false → s.log.committing = true →
      g.home (s.cache.buf i).blockno ∧ (s.cache.buf i).blockno ∉ s.log.lh) :
    ArrayOk strict g (s.setData t i d j) (update last (s.cache.buf i).blockno d)
      pins E := by
  obtain ⟨users, hc⟩ := h.cache
  have hbuf := s.cache.setData_buf i d
  refine h.step rfl rfl hsys hop (fun k => ?_) (fun hj => ⟨?_, fun k hk => ?_⟩) ⟨users, ?_⟩
    (fun t' _ k _ => (hbuf k).2) (fun _ => rfl) hstage (fun _ b hb => hb) ?_ hcopied ?_
  · rw [show ((s.setData t i d j).cache.buf k).dev = _ from (hbuf k).1]
    exact h.devs k
  · have := hplace hj
    rwa [← List.map_congr_left fun k _ => (hbuf k).2] at this
  · have hk' : (s.th t).io = .lock k ∨ (s.th t).io = .fill k := hk
    simp [hio] at hk'
  · rw [holds_update t rfl]
    exact hc.setData (t := t) hi d
  · rw [holds_update t rfl]
    exact h.latest.store hc hi d
  · intro hst hu hcom
    obtain ⟨hhome, hlh⟩ := hlast hst hu hcom
    refine ⟨fun b hb => update_of_ne ?_ _ _, fun b hb => update_of_ne ?_ _ _⟩
    · rintro rfl
      exact hb hhome
    · rintro rfl
      exact hlh hb

theorem ArrayOk.bwrite
    (hstage : ∀ disk E' : ℕ → Block, (∀ b, s.cache.disk b = E b → disk b = E' b) →
      disk (s.cache.buf i).blockno = E' (s.cache.buf i).blockno → j.sys = true →
      Stage s.log.lh pins disk E' j)
    (hcopied : strict → j.sys = true → Copied g s.log.lh last j) :
    ArrayOk strict g (s.bwrite t i j) last pins
      (update E (s.cache.buf i).blockno (s.cache.buf i).data) := by
  obtain ⟨users, hc⟩ := h.cache
  have hdisk : ∀ b, s.cache.disk b = E b → (s.cache.bwrite i).disk b =
      update E (s.cache.buf i).blockno (s.cache.buf i).data b := by
    intro b hb
    unfold Cache.bwrite
    by_cases e : b = (s.cache.buf i).blockno
    · subst e
      simp
    · simpa [e] using hb
  refine h.step rfl rfl hsys hop h.devs (fun hj => ⟨hplace hj, fun k hk => ?_⟩) ⟨users, ?_⟩
    (fun _ _ _ _ => rfl) (fun _ => rfl) (hstage _ _ hdisk ?_) (fun _ => hdisk) ?_ hcopied
    fun _ _ _ => ⟨fun _ _ => rfl, fun _ _ => rfl⟩
  · have hk' : (s.th t).io = .lock k ∨ (s.th t).io = .fill k := hk
    simp [hio] at hk'
  · rw [holds_update t rfl]
    exact hc.bwrite (t := t) hi
  · show update s.cache.disk _ _ _ = _
    rw [update_self, update_self]
  · rw [holds_update t rfl]
    exact h.latest.write hc hi fun _ => ⟨rfl, rfl⟩

end

end Step

end TatakOS.Logging
