import Mathlib.Data.Finset.Card
import TatakOS.Log.System

/-!
# The invariant of the log

`RecOk` is the crash invariant: whatever the machine is doing, copying the blocks that the header
on the disk names from the log to their places gives the effect of the committed groups.
`Phase` says, for each place in `commit` and in `recover_from_log`, how far it has come.
-/

namespace TatakOS.Logging

open Function

variable {T : Type} [DecidableEq T]

/-- The disk after `install_trans` for the header `lh`. -/
def installed (g : Geom) (disk : ℕ → Block) (lh : List ℕ) (b : ℕ) : Block :=
  if b ∈ lh then disk (g.start + lh.idxOf b + 1) else disk b

/-- A list of blocks that fits the log. -/
structure LhOk (g : Geom) (lh : List ℕ) : Prop where
  nodup : lh.Nodup
  home : ∀ b ∈ lh, g.home b
  word : ∀ b ∈ lh, b < 2 ^ 32
  length : lh.length ≤ LOGSIZE ∧ lh.length ≤ g.size - 1

structure RecOk (g : Geom) (disk : ℕ → Block) (C : ℕ → Block) (lh : List ℕ) : Prop where
  header : getHead (disk g.start) = some lh
  fits : LhOk g lh
  install : ∀ b, g.home b → installed g disk lh b = C b

/-! ## What the code of the log is doing -/

/-- The process runs `commit` or `recover_from_log`. -/
def Job.sys : Job → Bool
  | .idle | .op => false
  | _ => true

def Job.recovering : Job → Bool
  | .readHead _ | .install true _ _ | .writeHead .recover _ | .recovered => true
  | _ => false

/-- The blocks of the buffers that this code holds. -/
def Job.blocks (g : Geom) (lh : List ℕ) : Job → List ℕ
  | .writeLog _ .log | .install _ _ .log => []
  | .writeLog tail .home | .install _ tail .home | .writeLog tail .snd => [g.start + tail + 1]
  | .install _ tail .snd => [lh.getD tail 0]
  | .writeLog tail _ | .install _ tail _ => [lh.getD tail 0, g.start + tail + 1]
  | .writeHead _ .read | .readHead .read => []
  | .writeHead _ _ | .readHead _ => [g.start]
  | _ => []

/-- The block that this code is reading. -/
def Job.want (g : Geom) (lh : List ℕ) : Job → Option ℕ
  | .writeLog tail .log | .install _ tail .log =>
    if tail < lh.length then some (g.start + tail + 1) else none
  | .writeLog tail .home | .install _ tail .home => some (lh.getD tail 0)
  | .writeHead _ .read | .readHead .read => some g.start
  | _ => none

/-- The blocks of the buffers that it has changed and not yet written. -/
def Job.changed (g : Geom) (lh : List ℕ) : Job → List ℕ
  | .writeLog tail .write => [g.start + tail + 1]
  | .install _ tail .write => [lh.getD tail 0]
  | .writeHead _ .write => [g.start]
  | _ => []

structure SysOk (g : Geom) (s : State T) (x : Thread) : Prop where
  regs : x.regs.map (fun i => (s.cache.buf i).blockno) = x.job.blocks g s.log.lh
  io : ∀ i, x.io = .lock i ∨ x.io = .fill i → x.job.want g s.log.lh = some (s.cache.buf i).blockno
  dirty : x.dirty.map (fun i => (s.cache.buf i).blockno) = x.job.changed g s.log.lh

/-- The rounds of the loop that are done. -/
def Copy.rounds (tail : ℕ) : Copy → ℕ
  | .fst | .snd => tail + 1
  | _ => tail

/-- Where a loop over `lh` can be. -/
def Copy.Inside (lh : List ℕ) (tail : ℕ) (k : Copy) : Prop :=
  if k = .log then tail ≤ lh.length else tail < lh.length

/-- What the phases are about: the header in memory, the disk and the group in progress. -/
structure View where
  lh : List ℕ
  disk : ℕ → Block
  pending : ℕ → Option Block

def State.view (s : State T) : View := ⟨s.log.lh, s.cache.disk, s.pending⟩

/-- The group in progress is in the cache only, and its blocks are pinned there. -/
structure Uncommitted (g : Geom) (v : View) (pins : List ℕ) (E : ℕ → Block) : Prop where
  header : getHead (v.disk g.start) = some []
  pins : pins = v.lh
  pending : ∀ b, v.pending b = if b ∈ v.lh then some (E b) else none

/-- The group is in the log, and the header names it. -/
structure Committed (g : Geom) (v : View) (E C : ℕ → Block) : Prop where
  header : getHead (v.disk g.start) = some v.lh
  pending : ∀ b, v.pending b = none
  home : ∀ b, g.home b → E b = C b

/-- Everything is in its place, but the header may still name a group. -/
structure Installed (g : Geom) (v : View) (pins : List ℕ) (E C : ℕ → Block) : Prop where
  lh : v.lh = []
  pins : pins = []
  pending : ∀ b, v.pending b = none
  home : ∀ b, g.home b → E b = C b

/-- The crash was during `recover_from_log`, or it is the first one. -/
structure Recovering (v : View) (pins : List ℕ) : Prop where
  pins : pins = []
  pending : ∀ b, v.pending b = none

/-- How far the code of the log has come; `new` is what it has put into the buffers that it has
not yet written. -/
def Phase (g : Geom) (v : View) (pins : List ℕ) (E C : ℕ → Block) (new : List Block) : Job → Prop
  | .idle | .op => Uncommitted g v pins E
  | .writeLog tail k =>
    Uncommitted g v pins E ∧ k.Inside v.lh tail ∧
      (∀ j < k.rounds tail, E (g.start + j + 1) = E (v.lh.getD j 0)) ∧
      (k = .write → ∀ d ∈ new, d = E (v.lh.getD tail 0))
  | .writeHead .commit k =>
    if k = .rel then Committed g v E C ∧ pins = v.lh
    else
      Uncommitted g v pins E ∧
      (∀ j < v.lh.length, E (g.start + j + 1) = E (v.lh.getD j 0)) ∧
      (k = .write → ∀ d ∈ new, getHead d = some v.lh)
  | .install false tail k =>
    Committed g v E C ∧ k.Inside v.lh tail ∧ pins = v.lh.drop (k.rounds tail) ∧
      (k = .write → ∀ d ∈ new, d = E (v.lh.getD tail 0)) ∧
      (k = .unpin → v.disk (v.lh.getD tail 0) = E (v.lh.getD tail 0))
  | .writeHead .clear k | .writeHead .recover k =>
    Installed g v pins E C ∧ (k = .rel → getHead (v.disk g.start) = some []) ∧
      (k = .write → ∀ d ∈ new, getHead d = some [])
  | .endCommit | .recovered => Installed g v pins E C ∧ getHead (v.disk g.start) = some []
  | .readHead k =>
    Recovering v pins ∧ if k = .rel then getHead (v.disk g.start) = some v.lh else v.lh = []
  | .install true tail k =>
    Recovering v pins ∧ getHead (v.disk g.start) = some v.lh ∧ k.Inside v.lh tail ∧ k ≠ .unpin ∧
      (∀ j < k.rounds tail, E (v.lh.getD j 0) = E (g.start + j + 1)) ∧
      (k = .write → ∀ d ∈ new, d = E (g.start + tail + 1))

/-- The process that runs the code of the log, or one that does nothing. -/
def State.Runs (s : State T) (x : Thread) : Prop :=
  (∀ t, (s.th t).job.sys = false) ∧ x = {} ∨ ∃ t, s.th t = x ∧ x.job.sys = true

def State.new (s : State T) (x : Thread) : List Block := x.dirty.map fun i => (s.cache.buf i).data

/-- The log part of the invariant; `C` is the effect of the committed groups. -/
structure LogOk (g : Geom) (s : State T) (pins : List ℕ) (E C : ℕ → Block) : Prop where
  size : s.log.size = g.size
  lh : LhOk g s.log.lh
  recover : ∃ h, RecOk g s.cache.disk C h
  /-- `log.outstanding` counts the operations. -/
  ops : ∃ ops : Finset T, (∀ t, t ∈ ops ↔ (s.th t).job = .op) ∧ s.log.outstanding = ops.card
  unique : ∀ t t', (s.th t).job.sys = true → (s.th t').job.sys = true → t = t'
  recovering : ∀ t, (s.th t).job.recovering = true → s.up = false
  committing : s.log.committing = true ↔
    ∃ t, (s.th t).job.sys = true ∧ (s.th t).job.recovering = false
  down : s.up = false → ∀ t, (s.th t).job.recovering = false → s.th t = {}
  alone : s.log.committing = true → s.log.outstanding = 0
  sys : ∀ t, (s.th t).job.sys = true → SysOk g s (s.th t)
  /-- Only operations change blocks, and these are not blocks of the log. -/
  idle : ∀ t, (s.th t).job = .idle → (s.th t).dirty = []
  op : ∀ t, (s.th t).job = .op → ∀ i ∈ (s.th t).dirty, g.home (s.cache.buf i).blockno
  phase : ∃ x, s.Runs x ∧ Phase g s.view pins E C (s.new x) x.job

def State.holds (s : State T) : T → Hold := fun t => (s.th t).toHold

/-- The invariant. -/
def Inv (g : Geom) (base : ℕ → Block) (s : State T) : Prop :=
  ∃ pins E, CacheOk s.cache s.holds pins E ∧ LogOk g s pins E (applyGroups base s.groups)

/-! ## Steps that only move buffers about -/

section Frame

variable {g : Geom} {s s' : State T} {pins : List ℕ} {E C : ℕ → Block} {t : T} {x : Thread}

theorem CacheOk.dirty_regs (hc : CacheOk s.cache s.holds pins E) (t : T) :
    ∀ i ∈ (s.th t).dirty, i ∈ (s.th t).regs := by
  obtain ⟨users, hc⟩ := hc
  exact hc.dirty t

theorem CacheOk.dirty_nil (hc : CacheOk s.cache s.holds pins E) (hr : (s.th t).regs = []) :
    (s.th t).dirty = [] := by
  refine List.eq_nil_iff_forall_not_mem.mpr fun i hi => ?_
  have := hc.dirty_regs t i hi
  simp [hr] at this

/-- The buffers that processes have a reference to cache the same blocks, and those that they have
read hold the same data. -/
def State.Keeps (s s' : State T) : Prop :=
  ∀ t, ∀ i, (i ∈ (s.th t).toHold.refs → (s'.cache.buf i).blockno = (s.cache.buf i).blockno) ∧
    (i ∈ (s.th t).regs → (s'.cache.buf i).data = (s.cache.buf i).data)

omit [DecidableEq T] in
theorem SysOk.frame (h : SysOk g s x) (hlog : s'.log = s.log)
    (hb : ∀ i ∈ x.toHold.refs, (s'.cache.buf i).blockno = (s.cache.buf i).blockno)
    (hd : ∀ i ∈ x.dirty, i ∈ x.regs) : SysOk g s' x := by
  refine ⟨?_, ?_, ?_⟩
  · rw [hlog, ← h.regs]
    exact List.map_congr_left fun i hi => hb i (Hold.mem_refs_of_regs hi)
  · intro i hi
    rw [hlog, h.io i hi, hb i]
    rcases hi with hi | hi <;> simp [Hold.refs, hi]
  · rw [hlog, ← h.dirty]
    exact List.map_congr_left fun i hi => hb i (Hold.mem_refs_of_regs (hd i hi))

omit [DecidableEq T] in
theorem SysOk.of_same {y : Thread} (h : SysOk g s x) (hlog : s'.log = s.log)
    (hb : ∀ i, (s'.cache.buf i).blockno = (s.cache.buf i).blockno) (hjob : y.job = x.job)
    (hregs : y.regs = x.regs) (hdirty : y.dirty = x.dirty)
    (hio : ∀ i, y.io = .lock i ∨ y.io = .fill i → x.io = .lock i ∨ x.io = .fill i) :
    SysOk g s' y := by
  refine ⟨?_, fun i hi => ?_, ?_⟩
  · simpa only [hb, hlog, hjob, hregs] using h.regs
  · simpa only [hb, hlog, hjob] using h.io i (hio i hi)
  · simpa only [hb, hlog, hjob, hdirty] using h.dirty

/-- Process `t` goes from `s.th t` to `x`, with the same job. -/
theorem LogOk.frame (hl : LogOk g s pins E C) (hc : CacheOk s.cache s.holds pins E)
    (hth : s'.th = update s.th t x) (hlog : s'.log = s.log) (hup : s'.up = s.up)
    (hpend : s'.pending = s.pending) (hdisk : s'.cache.disk = s.cache.disk)
    (hk : s.Keeps s') (hjob : x.job = (s.th t).job) (hdirty : x.dirty = (s.th t).dirty)
    (hsys : x.job.sys = true → SysOk g s' x)
    (hdown : s.up = false → (s.th t).job.recovering = true) : LogOk g s' pins E C := by
  have hj : ∀ t', (s'.th t').job = (s.th t').job := by
    intro t'
    rw [hth]
    rcases eq_or_ne t' t with rfl | e
    · simpa using hjob
    · simp [e]
  have hd : ∀ t', (s'.th t').dirty = (s.th t').dirty := by
    intro t'
    rw [hth]
    rcases eq_or_ne t' t with rfl | e
    · simpa using hdirty
    · simp [e]
  have hreg := fun t' i hi => hc.dirty_regs t' i hi
  have hview : s'.view = s.view := by simp [State.view, hlog, hdisk, hpend]
  refine ⟨by rw [hlog]; exact hl.size, by rw [hlog]; exact hl.lh, by rw [hdisk]; exact hl.recover,
    ?_, ?_, ?_, ?_, ?_, by rw [hlog]; exact hl.alone, ?_, ?_, ?_, ?_⟩
  · simpa only [hj, hlog] using hl.ops
  · simpa only [hj] using hl.unique
  · simpa only [hj, hup] using hl.recovering
  · simpa only [hj, hlog] using hl.committing
  · intro hu t' hr
    rw [hup] at hu
    rw [hj] at hr
    rcases eq_or_ne t' t with rfl | e
    · simp [hdown hu] at hr
    · rw [hth, update_of_ne e]
      exact hl.down hu t' hr
  · intro t' hs
    rcases eq_or_ne t' t with rfl | e
    · rw [hth, update_self] at hs ⊢
      exact hsys hs
    · rw [hth, update_of_ne e] at hs ⊢
      exact (hl.sys t' hs).frame hlog (fun i hi => (hk t' i).1 hi) (hreg t')
  · intro t' hi
    rw [hd]
    exact hl.idle t' (by rwa [hj] at hi)
  · intro t' ho i hi
    rw [hd] at hi
    rw [(hk t' i).1 (Hold.mem_refs_of_regs (hreg t' i hi))]
    exact hl.op t' (by rwa [hj] at ho) i hi
  · obtain ⟨y, hy, hph⟩ := hl.phase
    rw [hview]
    rcases hy with ⟨hno, rfl⟩ | ⟨t', rfl, hs⟩
    · exact ⟨{}, .inl ⟨by simpa only [hj] using hno, rfl⟩, by simpa [State.new] using hph⟩
    · refine ⟨s'.th t', .inr ⟨t', rfl, by rwa [hj]⟩, ?_⟩
      have hnew : s'.new (s'.th t') = s.new (s.th t') := by
        unfold State.new
        rw [hd]
        exact List.map_congr_left fun i hi => (hk t' i).2 (hreg t' i hi)
      rwa [hnew, hj]

/-- A step of the process that runs the code of the log. -/
theorem LogOk.sys_step {pins' : List ℕ} {E' C' : ℕ → Block} (hl : LogOk g s pins E C)
    (hc : CacheOk s.cache s.holds pins E) (ht : (s.th t).job.sys = true)
    (hth : s'.th = update s.th t x) (hx : x.job.sys = true)
    (hrec : x.job.recovering = (s.th t).job.recovering) (hsize : s'.log.size = s.log.size)
    (hout : s'.log.outstanding = s.log.outstanding)
    (hcom : s'.log.committing = s.log.committing) (hup : s'.up = s.up)
    (hk : ∀ t', t' ≠ t → ∀ i ∈ (s.th t').toHold.refs,
      (s'.cache.buf i).blockno = (s.cache.buf i).blockno)
    (hlh : LhOk g s'.log.lh) (hrecover : ∃ h, RecOk g s'.cache.disk C' h) (hsys : SysOk g s' x)
    (hphase : Phase g s'.view pins' E' C' (s'.new x) x.job) : LogOk g s' pins' E' C' := by
  have hother : ∀ t', t' ≠ t → s'.th t' = s.th t' := by
    intro t' e
    rw [hth, update_of_ne e]
  have hself : s'.th t = x := by rw [hth, update_self]
  have hsysj : ∀ t', (s'.th t').job.sys = (s.th t').job.sys := by
    intro t'
    rcases eq_or_ne t' t with rfl | e
    · rw [hself, hx, ht]
    · rw [hother t' e]
  have hrecj : ∀ t', (s'.th t').job.recovering = (s.th t').job.recovering := by
    intro t'
    rcases eq_or_ne t' t with rfl | e
    · rw [hself, hrec]
    · rw [hother t' e]
  -- `t` is neither idle nor in an operation, before and after
  have hnot : ∀ j : Job, j.sys = false → (s'.th t).job ≠ j := by
    rintro j hj rfl
    rw [hself, hx] at hj
    cases hj
  refine ⟨hsize.trans hl.size, hlh, hrecover, ?_, ?_, ?_, ?_, ?_, ?_, ?_, ?_, ?_, ?_⟩
  · obtain ⟨ops, hops, hcard⟩ := hl.ops
    refine ⟨ops, fun t' => ?_, hout.trans hcard⟩
    rw [hops]
    rcases eq_or_ne t' t with rfl | e
    · refine ⟨fun h => ?_, fun h => absurd h (hnot .op rfl)⟩
      rw [h] at ht
      cases ht
    · rw [hother t' e]
  · simpa only [hsysj] using hl.unique
  · simpa only [hrecj, hup] using hl.recovering
  · simpa only [hsysj, hrecj, hcom] using hl.committing
  · intro hu t' hr
    rw [hup] at hu
    rw [hrecj] at hr
    rcases eq_or_ne t' t with rfl | e
    · rw [hl.down hu t' hr] at ht
      cases ht
    · rw [hother t' e]
      exact hl.down hu t' hr
  · rw [hcom, hout]
    exact hl.alone
  · intro t' hs
    obtain rfl : t' = t := hl.unique t' t (by rwa [hsysj] at hs) ht
    rwa [hself]
  · intro t' hi
    rcases eq_or_ne t' t with rfl | e
    · exact absurd hi (hnot .idle rfl)
    · rw [hother t' e] at hi ⊢
      exact hl.idle t' hi
  · intro t' ho i hi
    rcases eq_or_ne t' t with rfl | e
    · exact absurd ho (hnot .op rfl)
    · rw [hother t' e] at ho hi
      rw [hk t' e i (Hold.mem_refs_of_regs (hc.dirty_regs t' i hi))]
      exact hl.op t' ho i hi
  · exact ⟨x, .inr ⟨t, hself, hx⟩, hphase⟩

omit [DecidableEq T] in
theorem LogOk.phase_of_sys (hl : LogOk g s pins E C) (ht : (s.th t).job.sys = true) :
    Phase g s.view pins E C (s.new (s.th t)) (s.th t).job := by
  obtain ⟨x, ⟨hno, -⟩ | ⟨t', rfl, hs⟩, hph⟩ := hl.phase
  · simp [hno] at ht
  · rwa [hl.unique t t' ht hs]

theorem Inv.at_job {base : ℕ → Block} {j : Job} (hi : Inv g base s) (hj : (s.th t).job = j)
    (hs : j.sys = true) : ∃ pins E, CacheOk s.cache s.holds pins E ∧
      LogOk g s pins E (applyGroups base s.groups) ∧ SysOk g s (s.th t) ∧
      Phase g s.view pins E (applyGroups base s.groups) (s.new (s.th t)) j := by
  subst hj
  obtain ⟨pins, E, hc, hl⟩ := hi
  exact ⟨pins, E, hc, hl, hl.sys t hs, hl.phase_of_sys hs⟩

section

variable (hl : LogOk g s pins E C)
include hl

section

omit [DecidableEq T]

theorem LogOk.no_sys (hup : s.up = true) (hcom : s.log.committing = false) (t : T) :
    (s.th t).job.sys = false := by
  by_contra hs
  have hr : (s.th t).job.recovering = false := by
    by_contra h
    have := hl.recovering t (by simpa using h)
    simp [hup] at this
  have := hl.committing.mpr ⟨t, by simpa using hs, hr⟩
  simp [hcom] at this

/-- Outside `commit` and `recover_from_log`, the group in progress is in the cache only. -/
theorem LogOk.uncommitted (hup : s.up = true) (hcom : s.log.committing = false) :
    Uncommitted g s.view pins E := by
  obtain ⟨x, ⟨-, rfl⟩ | ⟨t, rfl, hs⟩, hph⟩ := hl.phase
  · exact hph
  · simp [hl.no_sys hup hcom t] at hs

theorem LogOk.of_op (ho : (s.th t).job = .op) :
    s.up = true ∧ s.log.committing = false ∧ 0 < s.log.outstanding := by
  obtain ⟨ops, hops, hcard⟩ := hl.ops
  have hpos : 0 < s.log.outstanding := by
    rw [hcard]
    exact Finset.card_pos.mpr ⟨t, (hops t).mpr ho⟩
  refine ⟨?_, ?_, hpos⟩
  · by_contra hu
    have := hl.down (by simpa using hu) t (by rw [ho]; rfl)
    rw [this] at ho
    cases ho
  · by_contra hcm
    have := hl.alone (by simpa using hcm)
    omega

end

/-- A step of an operation, or of a process outside operations. -/
theorem LogOk.user_step {pins' : List ℕ} {E' : ℕ → Block} (hc : CacheOk s.cache s.holds pins E)
    (hup : s.up = true) (hcom : s.log.committing = false) (hth : s'.th = update s.th t x)
    (hx : x.job.sys = false) (hsize : s'.log.size = s.log.size) (hcom' : s'.log.committing = false)
    (hup' : s'.up = true) (hdisk : s'.cache.disk = s.cache.disk)
    (hk : ∀ t', ∀ i ∈ (s.th t').toHold.refs, (s'.cache.buf i).blockno = (s.cache.buf i).blockno)
    (hops : ∃ ops : Finset T, (∀ t', t' ∈ ops ↔ (s'.th t').job = .op) ∧
      s'.log.outstanding = ops.card)
    (hlh : LhOk g s'.log.lh) (hidle : x.job = .idle → x.dirty = [])
    (hop : x.job = .op → ∀ i ∈ x.dirty, g.home (s'.cache.buf i).blockno)
    (hph : Uncommitted g s'.view pins' E') : LogOk g s' pins' E' C := by
  have hno : ∀ t', (s'.th t').job.sys = false := by
    intro t'
    rw [hth]
    rcases eq_or_ne t' t with rfl | e
    · simpa using hx
    · simpa [e] using hl.no_sys hup hcom t'
  have hrec : ∀ t', (s'.th t').job.recovering = false := by
    intro t'
    have := hno t'
    generalize (s'.th t').job = j at this
    cases j <;> first | rfl | cases this
  refine ⟨hsize.trans hl.size, hlh, by rw [hdisk]; exact hl.recover, hops, ?_, ?_, ?_, ?_, ?_, ?_,
    ?_, ?_, ?_⟩
  · intro t' _ h
    simp [hno] at h
  · intro t' h
    simp [hrec] at h
  · simp [hno, hcom']
  · intro h
    simp [hup'] at h
  · intro h
    simp [hcom'] at h
  · intro t' h
    simp [hno] at h
  · intro t' h
    rw [hth] at h ⊢
    rcases eq_or_ne t' t with rfl | e
    · simpa using hidle (by simpa using h)
    · simpa [e] using hl.idle t' (by simpa [e] using h)
  · intro t' h i hi
    rw [hth] at h hi
    rcases eq_or_ne t' t with rfl | e
    · exact hop (by simpa using h) i (by simpa using hi)
    · simp only [update_of_ne e] at h hi
      rw [hk t' i (Hold.mem_refs_of_regs (hc.dirty_regs t' i hi))]
      exact hl.op t' h i hi
  · exact ⟨{}, .inl ⟨hno, rfl⟩, hph⟩

end

end Frame

end TatakOS.Logging
