import Mathlib.Data.Fintype.BigOperators
import TatakOS.Log.Array

/-!
# The buffer cache is an array of blocks

Every step of a user and of the code of the log keeps `ArrayOk`, as long as all blocks are of the
device of the log. If moreover the users leave the blocks of the log alone, and during a commit
those that it installs, then nothing that `commit` does can be seen outside the log.
-/

namespace TatakOS.Logging

open Function

variable {T : Type} [DecidableEq T] {strict : Prop} {g : Geom} {s s' : State T}
  {last : ℕ → Block} {L : ℕ → ℕ → Block} {pins : List ℕ} {E : ℕ → Block} {t : T} {x : Thread}
  {i i' : BufId} {b b' tail : ℕ} {j : Job}

/-! ## Steps that change the in-memory log -/

variable {new : Bool}

section Control

variable {l l' : Log} {job : T → Job}

theorem sys_of_op {j : Job} (h : j = .op) : j.sys = false := by
  rw [h]
  rfl

theorem op_iff_of_sys {j' : Job} (hj : j.sys = true) (hj' : j'.sys = true) :
    j = .op ↔ j' = .op := by
  refine ⟨fun e => ?_, fun e => ?_⟩
  · simp [sys_of_op e] at hj
  · simp [sys_of_op e] at hj'

section

omit [DecidableEq T]

theorem Control.calm (h : Control g l job) (ho : job t = .op) :
    l.committing = false ∧ ∀ t', (job t').sys = false := by
  obtain ⟨ops, hops, hcard⟩ := h.ops
  have hpos : 0 < ops.card := Finset.card_pos.mpr ⟨t, (hops t).mpr ho⟩
  have hcom : l.committing = false := by
    by_contra hc
    have := h.alone (by simpa using hc)
    omega
  refine ⟨hcom, fun t' => ?_⟩
  by_contra hs
  have := h.committing.mpr ⟨t', by simpa using hs⟩
  simp [hcom] at this

theorem Control.no_sys (h : Control g l job) (hcom : l.committing = false) (t : T) :
    (job t).sys = false := by
  by_contra hs
  have := h.committing.mpr ⟨t, by simpa using hs⟩
  simp [hcom] at this

theorem Control.log_write (h : Control g l job) (ho : job t = .op)
    (hw : logWrite l b = .ok (l', new)) : Control g l' job := by
  obtain ⟨hcom, hno⟩ := h.calm ho
  obtain ⟨-, hlen, -, ⟨-, rfl, -⟩ | ⟨hb, rfl, -⟩⟩ := logWrite_eq_ok hw
  · exact h
  · refine ⟨h.size, ?_, ?_, h.ops, h.unique, h.committing, h.alone⟩
    · exact List.nodup_append.mpr ⟨h.nodup, List.nodup_singleton b, fun a ha c hc e => by
        rw [List.mem_singleton.mp hc] at e
        exact hb (e ▸ ha)⟩
    · have := h.size
      simp only [List.length_append, List.length_singleton]
      omega

end

theorem update_sys (hno : ∀ t', (job t').sys = false) (hj : j.sys = false) (t' : T) :
    (update job t j t').sys = false := by
  by_cases e : t' = t
  · subst e
    simpa using hj
  · simpa [e] using hno t'

theorem Control.begin (h : Control g l job) (hj : job t = .idle) (hb : beginOp l = some l') :
    Control g l' (update job t .op) := by
  obtain ⟨hcom, rfl⟩ := beginOp_eq_some hb
  have hno := update_sys (t := t) (j := .op) (h.no_sys hcom) rfl
  refine ⟨h.size, h.nodup, h.length, ?_, ?_, ?_, ?_⟩
  · obtain ⟨ops, hops, hcard⟩ := h.ops
    refine ⟨insert t ops, fun t' => ?_, ?_⟩
    · rw [Finset.mem_insert, hops]
      by_cases e : t' = t
      · subst e
        simp
      · simp [e]
    · rw [Finset.card_insert_of_notMem (by simp [hops, hj]), ← hcard]
  · intro t' t'' h'
    simp [hno] at h'
  · simp [hcom, hno]
  · simp [hcom]

/-- The ends of operations. The last one of a group goes on at `j`, in `commit`. -/
theorem Control.end_op (h : Control g l job) (ho : job t = .op)
    (he : endOp l = .ok (l', new)) (hj : j.sys = new) (hop : j ≠ .op) :
    Control g l' (update job t j) := by
  obtain ⟨-, hno⟩ := h.calm ho
  obtain ⟨-, hsize, hlh, hout, hcom', hlast⟩ := endOp_eq_ok he
  obtain ⟨ops, hops, hcard⟩ := h.ops
  have hsys : ∀ t', (update job t j t').sys = true ↔ t' = t ∧ new = true := by
    intro t'
    by_cases e : t' = t
    · subst e
      simp [hj]
    · simp [e, hno]
  refine ⟨hsize.trans h.size, hlh ▸ h.nodup, hlh ▸ h.length, ⟨ops.erase t, fun t' => ?_, ?_⟩,
    fun t' t'' h' h'' => ?_, ?_, ?_⟩
  · rw [Finset.mem_erase, hops]
    by_cases e : t' = t
    · subst e
      simp [hop]
    · simp [e]
  · rw [Finset.card_erase_of_mem ((hops t).mpr ho), ← hcard, hout]
  · rw [((hsys t').mp h').1, ((hsys t'').mp h'').1]
  · simp [hcom', hsys]
  · rw [hcom', hout]
    exact hlast.mp

theorem Control.finish (h : Control g l job) (hs : (job t).sys = true) (hlh : l'.lh = [])
    (hl : l' = { l with lh := l'.lh, committing := false }) :
    Control g l' (update job t .idle) := by
  have hno : ∀ t', (update job t .idle t').sys = false := by
    intro t'
    by_cases e : t' = t
    · subst e
      simp [Job.sys]
    · rw [update_of_ne e]
      by_contra h'
      exact e (h.unique t' t (by simpa using h') hs)
  have hop : job t ≠ .op := fun e => by simp [sys_of_op e] at hs
  rw [hl, hlh]
  refine ⟨h.size, List.nodup_nil, Nat.zero_le _, ?_, ?_, ?_, ?_⟩
  · obtain ⟨ops, hops, hcard⟩ := h.ops
    refine ⟨ops, fun t' => ?_, hcard⟩
    rw [hops]
    by_cases e : t' = t
    · subst e
      simp [hop]
    · simp [e]
  · intro t' t'' h'
    simp [hno] at h'
  · simp [hno]
  · simp

end Control

theorem jobs_update (h : s'.th = update s.th t x) :
    (fun t' => (s'.th t').job) = update (fun t' => (s.th t').job) t x.job := by
  funext t'
  rw [h]
  by_cases e : t' = t
  · subst e
    simp
  · simp [e]

/-- A step after which only `t` may be running the code of the log. -/
theorem ArrayOk.of_alone (hth : s'.th = update s.th t x)
    (hno : ∀ t', t' ≠ t → (s.th t').job.sys = false) (hc : CacheOk s'.cache s'.holds pins E)
    (hdevs : ∀ i, (s'.cache.buf i).dev = 0 ∨ (s'.cache.buf i).dev = ROOTDEV)
    (hctl : Control g s'.log (update (fun t' => (s.th t').job) t x.job))
    (hplace : x.job.sys = true → At g s' x) (hquiet : x.job.sys = false → pins = s'.log.lh)
    (hstage : x.job.sys = true → Stage s'.log.lh pins s'.cache.disk E x.job)
    (hlatest : Latest s'.cache s'.holds E last) (hhome : strict → ∀ b ∈ s'.log.lh, g.home b)
    (hcopied : strict → x.job.sys = true → Copied g s'.log.lh last x.job) :
    ArrayOk strict g s' last pins E := by
  have hself : s'.th t = x := by rw [hth, update_self]
  have honly : ∀ t', (s'.th t').job.sys = true → t' = t := by
    intro t' h'
    by_contra e
    rw [hth, update_of_ne e, hno t' e] at h'
    cases h'
  refine ⟨hc, hdevs, by rw [jobs_update hth]; exact hctl, fun t' h' => ?_, fun h => ?_,
    fun t' h' => ?_, hlatest, hhome, fun hs t' h' => ?_⟩
  · obtain rfl := honly t' h'
    rw [hself] at h' ⊢
    exact hplace h'
  · exact hquiet (hself ▸ h t)
  · obtain rfl := honly t' h'
    rw [hself] at h' ⊢
    exact hstage h'
  · obtain rfl := honly t' h'
    rw [hself] at h' ⊢
    exact hcopied hs h'

theorem ArrayOk.others (h : ArrayOk strict g s last pins E)
    (hs : (s.th t).job.sys = true) (t' : T) (e : t' ≠ t) : (s.th t').job.sys = false := by
  by_contra h'
  exact e (h.control.unique t' t (by simpa using h') hs)

theorem Latest.goto (h : Latest s.cache s.holds E last) (hth : s'.th = (s.goto t j).th)
    (hcache : s'.cache = s.cache) : Latest s'.cache s'.holds E last := by
  rw [hcache, holds_update (s := s) t hth]
  show Latest s.cache (update s.holds t (s.holds t)) E last
  rwa [update_eq_self]

section

variable (h : ArrayOk strict g s last pins E)
include h

theorem ArrayOk.begin {l : Log} (hj : (s.th t).job = .idle) (hb : beginOp s.log = some l) :
    ArrayOk strict g { s.goto t .op with log := l } last pins E := by
  have hctl := h.control.begin hj hb
  obtain ⟨hcom, rfl⟩ := beginOp_eq_some hb
  have hno := h.control.no_sys hcom
  exact .of_alone rfl (fun t' _ => hno t') (h.cache.goto rfl rfl) h.devs hctl nofun
    (fun _ => h.quiet hno) nofun (h.latest.goto rfl rfl) h.home nofun

theorem ArrayOk.end_op {l : Log} (hio : (s.th t).io = .ready) (ho : (s.th t).job = .op)
    (he : endOp s.log = .ok (l, new))
    (hj : j = if new then if 0 < l.lh.length then .writeLog 0 .log else .endCommit else .idle) :
    ArrayOk strict g { s.goto t j with log := l } last pins E := by
  obtain ⟨-, hno⟩ := h.control.calm ho
  have hsys : j.sys = new := by
    rw [hj]
    split_ifs with h1 h2 <;> simp_all [Job.sys]
  have hop : j ≠ .op := by
    rw [hj]
    split_ifs <;> simp
  have hblocks : j.blocks g l.lh = [] := by
    rw [hj]
    split_ifs <;> rfl
  have hctl := h.control.end_op ho he hsys hop
  have hpins := h.quiet hno
  obtain ⟨-, -, hlh, -⟩ := endOp_eq_ok he
  rw [← hlh] at hpins
  refine .of_alone rfl (fun t' _ => hno t') (h.cache.goto rfl rfl) h.devs hctl ?_
    (fun _ => hpins) ?_ (h.latest.goto rfl rfl) ?_ ?_
  · refine fun _ => ⟨?_, fun i hi => ?_⟩
    · show j.blocks g l.lh <+: _
      rw [hblocks]
      exact List.nil_prefix
    · have hi' : (s.th t).io = .lock i ∨ (s.th t).io = .fill i := hi
      simp [hio] at hi'
  · show j.sys = true → Stage l.lh pins s.cache.disk E j
    intro hs
    rw [hsys.symm.trans hs, if_pos rfl] at hj
    rw [hj]
    split_ifs with hn
    · exact ⟨hpins, Nat.zero_le _⟩
    · have hnil : l.lh = [] := List.length_eq_zero_iff.mp (by omega)
      exact ⟨hnil, hpins.trans hnil⟩
  · show strict → ∀ b ∈ l.lh, g.home b
    rw [hlh]
    exact h.home
  · show strict → j.sys = true → Copied g l.lh last j
    intro _ hs
    rw [hsys.symm.trans hs, if_pos rfl] at hj
    rw [hj]
    split_ifs
    · exact fun k _ hk => absurd hk (Nat.not_lt_zero k)
    · trivial

theorem ArrayOk.log_write {l : Log} (ho : (s.th t).job = .op) (hi : i ∈ (s.th t).regs)
    (hw : logWrite s.log (s.cache.buf i).blockno = .ok (l, new))
    (hhome : strict → g.home (s.cache.buf i).blockno) : ArrayOk strict g
      { s.setTh t { s.th t with dirty := (s.th t).dirty.filter (· ≠ i) } with
        log := l, cache := if new then s.cache.bpin i else s.cache } last l.lh
      (update E (s.cache.buf i).blockno (s.cache.buf i).data) := by
  obtain ⟨-, hno⟩ := h.control.calm ho
  have hctl := h.control.log_write ho hw
  have hpins := h.quiet hno
  have hsame : s.cache.Same (if new then s.cache.bpin i else s.cache) := by
    split_ifs
    · exact s.cache.same_bpin i
    · exact fun _ => ⟨rfl, rfl, rfl⟩
  have hfalse : (s.th t).job.sys ≠ true := by
    rw [sys_of_op ho]
    simp
  obtain ⟨users, hc⟩ := h.cache
  refine .of_alone rfl (fun t' _ => hno t') ?_ (fun k => ?_) ?_ (fun hs => absurd hs hfalse)
    (fun _ => rfl) (fun hs => absurd hs hfalse) ?_ ?_ fun _ hs => absurd hs hfalse
  · rw [holds_update t rfl]
    obtain ⟨-, -, -, ⟨hb, rfl, rfl⟩ | ⟨hb, rfl, rfl⟩⟩ := logWrite_eq_ok hw
    · rw [hpins] at hc
      exact ⟨users, hc.log_absorb (t := t) hi hb⟩
    · rw [hpins] at hc
      exact ⟨_, hc.log_pin (t := t) hi hb⟩
  · exact (hsame k).1 ▸ h.devs k
  · have : update (fun t' => (s.th t').job) t (s.th t).job = fun t' => (s.th t').job :=
      update_eq_self t _
    rw [show _ = update (fun t' => (s.th t').job) t (s.th t).job from rfl, this]
    exact hctl
  · rw [holds_update t rfl]
    exact h.latest.write hc hi fun k => (hsame k).2
  · intro hs b hb
    obtain ⟨-, -, -, ⟨-, rfl, -⟩ | ⟨-, rfl, -⟩⟩ := logWrite_eq_ok hw
    · exact h.home hs b hb
    · obtain hb | hb := List.mem_append.mp hb
      · exact h.home hs b hb
      · rw [List.mem_singleton.mp hb]
        exact hhome hs

end

/-! ## Buffers in use -/

/-- No buffer in use is taken for another block. -/
def Cache.Keeps (c c' : Cache T) : Prop :=
  ∀ i, 0 < (c.buf i).refcnt →
    (c'.buf i).dev = (c.buf i).dev ∧ (c'.buf i).blockno = (c.buf i).blockno

section

omit [DecidableEq T]

theorem Cache.Same.keeps {c c' : Cache T} (h : c.Same c') : c.Keeps c' :=
  fun i _ => ⟨(h i).1, (h i).2.1⟩

theorem bgetDev_spec {c c' : Cache T} {dev : ℕ} (h : c.bgetDev dev b = some (i, c')) :
    ((c'.buf i).dev = dev ∧ (c'.buf i).blockno = b) ∧ c.Keeps c' := by
  unfold Cache.bgetDev at h
  split at h
  · rename_i k hfind
    have hk := List.find?_some hfind
    cases h
    refine ⟨by simpa using hk, fun k _ => ?_⟩
    by_cases e : k = i
    · subst e
      simp
    · simp [e]
  · split at h
    · rename_i k hfind
      have hk := List.find?_some hfind
      cases h
      refine ⟨by simp, fun k hpos => ?_⟩
      have e : k ≠ i := by
        rintro rfl
        simp at hk
        omega
      simp [e]
    · cases h

theorem Cache.Keeps.refl (c : Cache T) : c.Keeps c := fun _ _ => ⟨rfl, rfl⟩

end

theorem bread_keeps (h : s.bread t b = some s') : s.cache.Keeps s'.cache := by
  unfold State.bread at h
  obtain ⟨⟨i, c⟩, hget, rfl⟩ := Option.map_eq_some_iff.mp h
  exact (bgetDev_spec hget).2

theorem brelse_keeps (h : s.brelse t i j = some s') : s.cache.Keeps s'.cache := by
  simp only [State.brelse] at h
  split_ifs at h
  cases h
  exact (s.cache.same_unlock i).keeps

theorem setData_keeps (d : Block) : s.cache.Keeps (s.setData t i d j).cache :=
  fun k _ => s.cache.setData_buf i d k

/-! ## The code of the log -/

omit [DecidableEq T] in
theorem At.head {rest : List BufId} {bs : List ℕ} (h : At g s x) (hr : x.regs = i :: rest)
    (hb : x.job.blocks g s.log.lh = b :: bs) :
    (s.cache.buf i).blockno = b ∧ bs <+: rest.map fun i => (s.cache.buf i).blockno := by
  have := h.regs
  rw [hr, hb, List.map_cons, List.cons_prefix_cons] at this
  exact ⟨this.1.symm, this.2⟩

omit [DecidableEq T] in
theorem At.two {rest : List BufId} (h : At g s x) (hr : x.regs = i :: i' :: rest)
    (hb : x.job.blocks g s.log.lh = [b, b']) :
    (s.cache.buf i).blockno = b ∧ (s.cache.buf i').blockno = b' := by
  obtain ⟨h1, h2⟩ := h.head hr hb
  rw [List.map_cons, List.cons_prefix_cons] at h2
  exact ⟨h1, h2.1.symm⟩

section

variable (h : ArrayOk strict g s last pins E)
include h

theorem ArrayOk.dev_of_regs (hi : i ∈ (s.th t).regs) : (s.cache.buf i).dev = ROOTDEV := by
  obtain ⟨users, hc⟩ := h.cache
  exact hc.dev_of_regs (t := t) hi

theorem ArrayOk.read (hi : i ∈ (s.th t).regs) :
    (s.cache.buf i).data = last (s.cache.buf i).blockno := by
  obtain ⟨users, hc⟩ := h.cache
  exact h.latest.read hc (t := t) hi

theorem ArrayOk.regs_nodup (t : T) : (s.th t).regs.Nodup := by
  obtain ⟨users, hc⟩ := h.cache
  have hn : (s.th t).toHold.held.Nodup := hc.nodup t
  unfold Hold.held at hn
  split at hn
  · exact (List.nodup_cons.mp hn).2
  · exact hn

theorem ArrayOk.goto (hio : (s.th t).io = .ready) (hsys : j.sys = (s.th t).job.sys)
    (hop : j = .op ↔ (s.th t).job = .op) (hblocks : j.blocks g s.log.lh = [])
    (hstage : Stage s.log.lh pins s.cache.disk E j) (hcopied : strict → Copied g s.log.lh last j) :
    ArrayOk strict g (s.goto t j) last pins E := by
  refine h.frame rfl rfl hsys hop h.devs (fun _ => ⟨?_, fun i hi => ?_⟩) rfl rfl
    (h.cache.goto rfl rfl) (fun _ _ => ⟨fun _ => rfl, fun _ => rfl⟩) (fun _ => hstage)
    fun hs _ => hcopied hs
  · show j.blocks g s.log.lh <+: _
    rw [hblocks]
    exact List.nil_prefix
  · have hi' : (s.th t).io = .lock i ∨ (s.th t).io = .fill i := hi
    simp [hio] at hi'

theorem ArrayOk.unpin (hio : (s.th t).io = .ready) (hj : (s.th t).job = .install false tail .unpin)
    (hi : i ∈ (s.th t).regs) (hb : (s.cache.buf i).blockno = s.log.lh.getD tail 0) :
    ArrayOk strict g { s.goto t (.install false tail .fst) with cache := s.cache.bunpin i } last
      (s.log.lh.drop (tail + 1)) E := by
  have hs : (s.th t).job.sys = true := by rw [hj]; rfl
  have hst := h.stage t hs
  rw [hj] at hst
  obtain ⟨hin, hpins, hdisk⟩ := hst
  have hlt : tail < s.log.lh.length := hin
  have hpins' : pins = s.log.lh.drop tail := hpins
  have hsame := s.cache.same_bunpin i
  have hholds : (s.goto t (.install false tail .fst)).holds = s.holds := by
    rw [holds_update t rfl]
    exact update_eq_self t s.holds
  obtain ⟨users, hc⟩ := h.cache
  refine h.step rfl rfl (by rw [hj]; rfl) (by rw [hj]; simp) (fun k => (hsame k).1 ▸ h.devs k) ?_ ?_
    (fun _ _ k _ => (hsame k).2.1) (fun hu => by simp [hs] at hu) ?_ (fun _ _ hb => hb) ?_ ?_
    fun _ _ _ => ⟨fun _ _ => rfl, fun _ _ => rfl⟩
  · intro _
    have hat := h.place t hs
    refine ⟨?_, fun k hk => ?_⟩
    · have hregs := hat.regs
      rw [hj] at hregs
      show Job.blocks g s.log.lh (.install false tail .fst) <+:
        (s.th t).regs.map fun k => ((s.cache.bunpin i).buf k).blockno
      rw [List.map_congr_left fun k _ => (hsame k).2.1]
      exact hregs
    · have hk' : (s.th t).io = .lock k ∨ (s.th t).io = .fill k := hk
      simp [hio] at hk'
  · show CacheOk (s.cache.bunpin i) (s.goto t (.install false tail .fst)).holds _ E
    rw [hholds]
    refine ⟨_, hc.bunpin (t := t) hi ?_ ?_ ?_⟩
    · rw [hb, hpins', drop_getD hlt]
      exact List.mem_cons_self
    · rw [hb]
      exact hdisk rfl
    · rw [hb, hpins']
      exact mem_drop_succ h.control.nodup hlt
  · exact fun _ => ⟨hin, rfl, nofun⟩
  · show Latest (s.cache.bunpin i) (s.goto t (.install false tail .fst)).holds E last
    rw [hholds]
    exact h.latest.frame (fun _ => rfl) fun _ k _ => (hsame k).2
  · intro hst' _
    have := h.copied hst' t hs
    rw [hj] at this
    exact this

end

/-- A step of the code of the log: the invariant holds, if the users are careful no block outside
the log has another value, and no buffer in use is recycled. -/
structure LogStep (strict : Prop) (g : Geom) (s s' : State T) (t : T) (L : ℕ → ℕ → Block) :
    Prop where
  inv : ArrayInv strict g ⟨s', noteStore s s' t L⟩
  home : strict → ∀ b, g.home b → noteStore s s' t L ROOTDEV b = L ROOTDEV b
  keeps : s.cache.Keeps s'.cache

omit [DecidableEq T] in
theorem noteStore_of_le (h : (s'.th t).dirty.length ≤ (s.th t).dirty.length) :
    noteStore s s' t L = L := by
  unfold noteStore
  split
  · rfl
  · rw [if_neg (by omega)]

theorem ArrayOk.traced (h : ArrayOk strict g s' (L ROOTDEV) pins E)
    (hd : (s'.th t).dirty.length ≤ (s.th t).dirty.length) :
    ArrayInv strict g ⟨s', noteStore s s' t L⟩ := by
  rw [noteStore_of_le hd]
  exact ⟨pins, E, h⟩

theorem LogStep.of_ok (h : ArrayOk strict g s' (L ROOTDEV) pins E)
    (hd : (s'.th t).dirty.length ≤ (s.th t).dirty.length) (hk : s.cache.Keeps s'.cache) :
    LogStep strict g s s' t L where
  inv := h.traced hd
  home _ _ _ := by rw [noteStore_of_le hd]
  keeps := hk

theorem noteStore_setData {d : Block} (hdev : (s.cache.buf i).dev = ROOTDEV) :
    noteStore s (s.setData t i d j) t L ROOTDEV = update (L ROOTDEV) (s.cache.buf i).blockno d := by
  simp [noteStore, State.setData, Cache.setData, hdev]

theorem bread_dirty (h : s.bread t b = some s') : (s'.th t).dirty = (s.th t).dirty := by
  unfold State.bread at h
  obtain ⟨⟨i, c⟩, -, rfl⟩ := Option.map_eq_some_iff.mp h
  simp

theorem brelse_dirty (h : s.brelse t i j = some s') : (s'.th t).dirty = (s.th t).dirty := by
  simp only [State.brelse] at h
  split_ifs at h
  cases h
  simp

theorem bwrite_dirty : ((s.bwrite t i j).th t).dirty.length ≤ (s.th t).dirty.length := by
  simp only [State.bwrite, State.setTh_th, update_self]
  exact List.length_filter_le _ _

section

variable (h : ArrayOk strict g s (L ROOTDEV) pins E)
include h

section

variable (hio : (s.th t).io = .ready)
include hio

theorem LogStep.bread (hw : (s.th t).job.want g s.log.lh = some b) (hs : s.bread t b = some s') :
    LogStep strict g s s' t L :=
  .of_ok (h.bread hio (fun _ => hw) hs) (congrArg List.length (bread_dirty hs)).le (bread_keeps hs)

variable (hs : (s.th t).job.sys = true) (hj : j.sys = true)
include hs hj

theorem LogStep.brelse
    (hblocks : j.blocks g s.log.lh <+: ((s.th t).regs.erase i).map fun i => (s.cache.buf i).blockno)
    (hstage : Stage s.log.lh pins s.cache.disk E j)
    (hcopied : strict → Copied g s.log.lh (L ROOTDEV) j) (hrel : s.brelse t i j = some s') :
    LogStep strict g s s' t L := by
  have hop := op_iff_of_sys hj hs
  exact .of_ok (h.brelse hio (hj.trans hs.symm) hop (fun _ => hblocks) (fun _ => hstage)
    (fun hst _ => hcopied hst) hrel) (congrArg List.length (brelse_dirty hrel)).le
    (brelse_keeps hrel)

variable (hi : i ∈ (s.th t).regs)
  (hblocks : j.blocks g s.log.lh = (s.th t).job.blocks g s.log.lh)
include hi hblocks

/-- The code of the log goes on from `s.th t` to `j`, and has stored `d`. -/
theorem LogStep.setData {d : Block} (hstage : Stage s.log.lh pins s.cache.disk E j)
    (hcopied : strict → Copied g s.log.lh (update (L ROOTDEV) (s.cache.buf i).blockno d) j)
    (hval : strict → g.home (s.cache.buf i).blockno → d = L ROOTDEV (s.cache.buf i).blockno) :
    LogStep strict g s (s.setData t i d j) t L := by
  have hnote := noteStore_setData (t := t) (j := j) (d := d) (L := L) (h.dev_of_regs hi)
  have hop := op_iff_of_sys hj hs
  refine ⟨⟨pins, E, ?_⟩, fun hst b hb => ?_, setData_keeps d⟩
  · show ArrayOk strict g _ (noteStore s (s.setData t i d j) t L ROOTDEV) pins E
    rw [hnote]
    refine h.setData hio hi (hj.trans hs.symm) hop (fun _ => ?_) (fun _ => hstage)
      (fun hst _ => hcopied hst) fun _ hu => by simp [hs] at hu
    rw [hblocks]
    exact (h.place t hs).regs
  · rw [hnote]
    by_cases e : b = (s.cache.buf i).blockno
    · subst e
      rw [update_self]
      exact hval hst hb
    · rw [update_of_ne e]

theorem LogStep.bwrite
    (hstage : ∀ disk E' : ℕ → Block, (∀ b, s.cache.disk b = E b → disk b = E' b) →
      disk (s.cache.buf i).blockno = E' (s.cache.buf i).blockno → Stage s.log.lh pins disk E' j)
    (hcopied : strict → Copied g s.log.lh (L ROOTDEV) j) :
    LogStep strict g s (s.bwrite t i j) t L := by
  have hop := op_iff_of_sys hj hs
  refine .of_ok (h.bwrite hio hi (hj.trans hs.symm) hop (fun _ => ?_)
    (fun disk E' h1 h2 _ => hstage disk E' h1 h2) fun hst _ => hcopied hst) bwrite_dirty (.refl _)
  rw [hblocks]
  exact (h.place t hs).regs

end

end

theorem ArrayOk.not_home (h : ArrayOk strict g s last pins E) {k : ℕ} (hk : k < s.log.lh.length) :
    ¬ g.home (g.start + k + 1) := by
  have := h.control.length
  unfold Geom.home
  omega

section

variable (h : ArrayOk strict g s (L ROOTDEV) pins E)
include h

theorem ArrayOk.at_sys {j : Job} (hj : (s.th t).job = j) (hsys : j.sys = true) :
    (s.th t).job.sys = true ∧ At g s (s.th t) ∧ Stage s.log.lh pins s.cache.disk E j ∧
      (strict → Copied g s.log.lh (L ROOTDEV) j) := by
  subst hj
  exact ⟨hsys, h.place t hsys, h.stage t hsys, fun hstr => h.copied hstr t hsys⟩

theorem logStep_writeLog {k : Copy} (hj : (s.th t).job = .writeLog tail k)
    (hio : (s.th t).io = .ready) (hs : writeLogStep g s t tail k = some s') :
    LogStep strict g s s' t L := by
  obtain ⟨hsys, hat, hst, hcp⟩ := h.at_sys hj rfl
  obtain ⟨hpins, hin⟩ := hst
  unfold writeLogStep at hs
  split at hs
  · by_cases hlt : tail < s.log.lh.length
    · rw [if_pos hlt] at hs
      exact .bread h hio (by rw [hj]; simp [Job.want, hlt]) hs
    · rw [if_neg hlt] at hs
      cases hs
      -- all blocks are in the log
      refine .of_ok (h.goto hio (by rw [hj]; rfl) (by rw [hj]; simp) rfl hpins fun hstr k hk =>
        hcp hstr k hk ?_) (by simp [State.goto]) (.refl _)
      show k < tail
      omega
  · exact .bread h hio (by rw [hj]; rfl) hs
  · rename_i src dst rest hr
    cases hs
    have hlt : tail < s.log.lh.length := hin
    obtain ⟨hsrc, hdst⟩ := hat.two hr (by rw [hj]; rfl)
    have hsrcMem : src ∈ (s.th t).regs := by simp [hr]
    have hdstMem : dst ∈ (s.th t).regs := by simp [hr]
    refine .setData h hio hsys rfl hdstMem (by rw [hj]; rfl) ⟨hpins, hin⟩ (fun hstr k hk hkt => ?_)
      fun hstr hhome => absurd (hdst ▸ hhome) (h.not_home hlt)
    have hne : s.log.lh.getD k 0 ≠ g.start + tail + 1 := fun e =>
      h.not_home hlt (e ▸ h.home hstr _ (LhOk.getD_mem hk))
    rw [hdst, update_of_ne hne]
    by_cases e : k = tail
    · subst e
      rw [update_self, h.read hsrcMem, hsrc]
    · rw [update_of_ne (by omega)]
      exact hcp hstr k hk (by change k < tail + 1 at hkt; show k < tail; omega)
  · rename_i src dst rest hr
    cases hs
    exact .bwrite h hio hsys rfl (by simp [hr]) (by rw [hj]; rfl) (fun _ _ _ _ => ⟨hpins, hin⟩) hcp
  · rename_i src rest hr
    refine .brelse (j := .writeLog tail .snd) h hio hsys rfl ?_ ⟨hpins, hin⟩ hcp hs
    rw [hr, List.erase_cons_head]
    exact (hat.head hr (by rw [hj]; rfl)).2
  · rename_i dst rest hr
    exact .brelse (j := .writeLog (tail + 1) .log) h hio hsys rfl List.nil_prefix
      ⟨hpins, Nat.succ_le_of_lt hin⟩ hcp hs
  · cases hs

theorem logStep_writeHead {w : Why} {k : Head} (hj : (s.th t).job = .writeHead w k)
    (hio : (s.th t).io = .ready) (hs : writeHeadStep g s t w k = some s') :
    LogStep strict g s s' t L := by
  obtain ⟨hsys, hat, hst, hcp⟩ := h.at_sys hj rfl
  -- the stage does not depend on how far `write_head` is, nor on the disk
  have hst' : ∀ k' disk E', Stage s.log.lh pins disk E' (.writeHead w k') := by
    intro k' disk E'
    cases w <;> exact hst
  have hcp' : strict → ∀ k', Copied g s.log.lh (L ROOTDEV) (.writeHead w k') := by
    intro hstr k'
    cases w with
    | commit => exact hcp hstr
    | _ => trivial
  unfold writeHeadStep at hs
  split at hs
  · exact .bread h hio (by rw [hj]; rfl) hs
  · rename_i i rest hr
    cases hs
    obtain ⟨hi, -⟩ := hat.head hr (by rw [hj]; rfl)
    refine .setData h hio hsys rfl (by simp [hr]) (by rw [hj]; rfl) (hst' _ _ _) (fun hstr => ?_)
      fun hstr hhome => absurd (hi ▸ hhome) g.not_home_start
    refine (hcp' hstr _).congr (fun b hb => update_of_ne ?_ _ _) fun k _ =>
      update_of_ne ?_ _ _
    · rintro rfl
      exact g.not_home_start (hi ▸ h.home hstr _ hb)
    · omega
  · rename_i i rest hr
    have hw : LogStep strict g s (s.bwrite t i (.writeHead w .rel)) t L :=
      .bwrite h hio hsys rfl (by simp [hr]) (by rw [hj]; rfl) (fun _ _ _ _ => hst' _ _ _) fun hstr =>
        hcp' hstr _
    simp only at hs
    split_ifs at hs with hc
    · cases hs
      -- the commit point is recorded in the history only
      obtain ⟨⟨pins, E, hok⟩, hval, -⟩ := hw
      exact ⟨⟨pins, E, ⟨hok.cache, hok.devs, hok.control, fun t' ht' => ⟨(hok.place t' ht').regs,
        (hok.place t' ht').io⟩, hok.quiet, hok.stage, hok.latest, hok.home, hok.copied⟩⟩, hval, .refl _⟩
    · cases hs
      exact hw
  · rename_i i rest hr
    have hcases : w.next.sys = true ∧ w.next.blocks g s.log.lh = [] ∧
        Stage s.log.lh pins s.cache.disk E w.next ∧
          (strict → Copied g s.log.lh (L ROOTDEV) w.next) := by
      cases w with
      | commit => exact ⟨rfl, rfl, ⟨Nat.zero_le _, hst, nofun⟩, hcp⟩
      | clear => exact ⟨rfl, rfl, hst, fun _ => trivial⟩
      | recover => cases hst
    obtain ⟨h1, h2, h3, h4⟩ := hcases
    exact .brelse h hio hsys h1 (h2 ▸ List.nil_prefix) h3 h4 hs
  · cases hs

theorem logStep_install {k : Copy} (hj : (s.th t).job = .install false tail k)
    (hio : (s.th t).io = .ready) (hs : installStep g s t false tail k = some s') :
    LogStep strict g s s' t L := by
  obtain ⟨hsys, hat, hst, hcp⟩ := h.at_sys hj rfl
  obtain ⟨hin, hpins, hdisk⟩ := hst
  unfold installStep at hs
  split at hs
  · by_cases hlt : tail < s.log.lh.length
    · rw [if_pos hlt] at hs
      exact .bread h hio (by rw [hj]; simp [Job.want, hlt]) hs
    · rw [if_neg hlt] at hs
      cases hs
      -- all blocks are in their places, and `log.lh.n = 0`
      have hnil : pins = [] := hpins.trans (List.drop_eq_nil_of_le (show _ ≤ tail by omega))
      refine .of_ok (.of_alone rfl (h.others hsys) (h.cache.goto rfl rfl) h.devs ?_ (fun _ =>
        ⟨List.nil_prefix, fun i hi => ?_⟩) (by rintro ⟨⟩) (fun _ => ⟨rfl, hnil⟩) (h.latest.goto rfl rfl)
          (fun _ b hb => absurd hb List.not_mem_nil) fun _ _ => trivial) (by simp [State.goto])
        (.refl _)
      · have hctl : Control g s.log (update (fun t' => (s.th t').job) t
            (.writeHead .clear .read)) := h.control.frame (fun t' => ?_) fun t' => ?_
        · exact ⟨hctl.size, List.nodup_nil, Nat.zero_le _, hctl.ops, hctl.unique, hctl.committing,
            hctl.alone⟩
        · by_cases e : t' = t
          · subst e
            rw [update_self, hsys]
            rfl
          · rw [update_of_ne e]
        · by_cases e : t' = t
          · subst e
            simp [hj]
          · rw [update_of_ne e]
      · have hi' : (s.th t).io = .lock i ∨ (s.th t).io = .fill i := hi
        simp [hio] at hi'
  · exact .bread h hio (by rw [hj]; rfl) hs
  · rename_i dst src rest hr
    cases hs
    have hlt : tail < s.log.lh.length := hin
    obtain ⟨hdst, hsrc⟩ := hat.two hr (by rw [hj]; rfl)
    have hsrcMem : src ∈ (s.th t).regs := by simp [hr]
    -- what is copied is there already
    have hval : strict → (s.cache.buf src).data = L ROOTDEV (s.cache.buf dst).blockno := by
      intro hstr
      rw [h.read hsrcMem, hsrc, hdst]
      exact hcp hstr tail hlt
    refine .setData h hio hsys rfl (by simp [hr]) (by rw [hj]; rfl) ⟨hin, hpins, by simp⟩
      (fun hstr => ?_) fun hstr _ => hval hstr
    rw [hval hstr, update_eq_self]
    exact hcp hstr
  · rename_i dst src rest hr
    cases hs
    obtain ⟨hdst, -⟩ := hat.two hr (by rw [hj]; rfl)
    refine .bwrite h hio hsys rfl (by simp [hr]) (by rw [hj]; rfl) (fun disk E' _ hb =>
      ⟨hin, hpins, fun _ => ?_⟩) hcp
    rwa [hdst] at hb
  · rename_i dst rest hr
    cases hs
    have hdst := (hat.head hr (by rw [hj]; rfl)).1
    exact .of_ok (h.unpin hio hj (by simp [hr]) hdst) (by simp [State.goto])
      (s.cache.same_bunpin dst).keeps
  · rename_i dst src rest hr
    refine .brelse (j := .install false tail .snd) h hio hsys rfl ?_ ⟨hin, hpins, by simp⟩ hcp hs
    have hne : dst ≠ src := by
      have := h.regs_nodup t
      rw [hr] at this
      exact fun e => (List.nodup_cons.mp this).1 (e ▸ List.mem_cons_self)
    rw [hr, List.erase_cons_tail (by simpa using hne), List.erase_cons_head, List.map_cons,
      (hat.head hr (by rw [hj]; rfl)).1]
    exact List.cons_prefix_cons.mpr ⟨rfl, List.nil_prefix⟩
  · rename_i dst rest hr
    exact .brelse (j := .install false (tail + 1) .log) h hio hsys rfl List.nil_prefix
      ⟨Nat.succ_le_of_lt hin, hpins, by simp⟩ hcp hs
  · cases hs

theorem logStep_endCommit (hj : (s.th t).job = .endCommit) :
    LogStep strict g s { s.goto t .idle with log := { s.log with committing := false } } t L := by
  have hsys : (s.th t).job.sys = true := by rw [hj]; rfl
  have hst := h.stage t hsys
  rw [hj] at hst
  obtain ⟨hlh, hpins⟩ := hst
  exact .of_ok (.of_alone rfl (h.others hsys) (h.cache.goto rfl rfl) h.devs
    (h.control.finish hsys hlh rfl) nofun (fun _ => hpins.trans hlh.symm) nofun
    (h.latest.goto rfl rfl) h.home nofun) (by simp [State.goto]) (.refl _)

/-- The steps of `bread` and `brelse` after their first, and those of the code of the log. -/
theorem logStep_exec (hbusy : ¬ ((s.th t).io = .ready ∧ (s.th t).job.sys = false))
    (hs : exec g s t .go = some s') : LogStep strict g s s' t L := by
  simp only [exec] at hs
  split at hs
  · rename_i i hio
    split_ifs at hs with hfree
    cases hs
    exact .of_ok (h.lock hio hfree) (by simp) (s.cache.same_lock i t).keeps
  · rename_i i hio
    cases hs
    exact .of_ok (h.fill hio) (by simp) fun k _ =>
      ⟨(Cache.fill_buf _ _ _).1, (Cache.fill_buf _ _ _).2.1⟩
  · rename_i i hio
    cases hs
    exact .of_ok (h.put hio) (by simp) (s.cache.same_put i).keeps
  · rename_i hio
    have hsys : (s.th t).job.sys = true := by
      by_contra hn
      exact hbusy ⟨hio, by simpa using hn⟩
    have hst := h.stage t hsys
    split at hs
    · rename_i hj
      simp [hj, Job.sys] at hsys
    · rename_i hj
      simp [hj, Job.sys] at hsys
    · rename_i hj
      exact logStep_writeLog h hj hio hs
    · rename_i hj
      exact logStep_writeHead h hj hio hs
    · rename_i r tail k hj
      cases r with
      | false => exact logStep_install h hj hio hs
      | true =>
        rw [hj] at hst
        cases hst
    · rename_i hj
      rw [hj] at hst
      cases hst
    · rename_i hj
      cases hs
      exact logStep_endCommit h hj
    · rename_i hj
      rw [hj] at hst
      cases hst

end

/-! ## The users -/

/-- All blocks that are read are of the device of the log. -/
def OneDevice : Cmd → Prop
  | .bread dev _ => dev = ROOTDEV
  | _ => True

instance (a : Cmd) : Decidable (OneDevice a) :=
  match a with
  | .bread dev _ => inferInstanceAs (Decidable (dev = ROOTDEV))
  | .begin | .modify _ _ | .logWrite _ | .bwrite _ | .brelse _ | .done | .go => .isTrue trivial

/-- A user neither changes nor logs a block of the log, and does not change a block that a commit in
progress has in its header. -/
def Careful (g : Geom) (x : Traced T) (a : T × Cmd) : Prop :=
  let block (i : BufId) := (x.sys.cache.buf i).blockno
  match a.2 with
  | .modify i _ => g.home (block i) ∧ (x.sys.log.committing = true → block i ∉ x.sys.log.lh)
  | .logWrite i => g.home (block i)
  | _ => True

theorem ArrayOk.user {a : Cmd} (h : ArrayOk strict g s (L ROOTDEV) pins E)
    (hio : (s.th t).io = .ready) (hu : (s.th t).job.sys = false)
    (hdev : OneDevice a) (hcare : strict → Careful g ⟨s, L⟩ (t, a))
    (hs : userStep s t a = some s') : ArrayInv strict g ⟨s', noteStore s s' t L⟩ := by
  have hnot : (s.th t).job.sys ≠ true := by simp [hu]
  cases a with
  | begin =>
    simp only [userStep] at hs
    split_ifs at hs with hj
    obtain ⟨l, hl, rfl⟩ := Option.map_eq_some_iff.mp hs
    exact (h.begin hj hl).traced (by simp [State.goto])
  | bread dev b =>
    obtain rfl : dev = ROOTDEV := hdev
    simp only [userStep] at hs
    split_ifs at hs
    have hb : s.bread t b = some s' := hs
    exact (h.bread hio (fun h' => absurd h' hnot) hb).traced
      (congrArg List.length (bread_dirty hb)).le
  | modify i d =>
    simp only [userStep] at hs
    split_ifs at hs with hi
    cases hs
    refine ⟨pins, E, ?_⟩
    show ArrayOk strict g _ (noteStore s (s.setData t i d (s.th t).job) t L ROOTDEV) pins E
    rw [noteStore_setData (h.dev_of_regs hi)]
    refine h.setData hio hi rfl Iff.rfl (fun h' => absurd h' hnot) (fun h' => absurd h' hnot)
      (fun _ h' => absurd h' hnot) fun hstr _ hcom => ?_
    obtain ⟨h1, h2⟩ := hcare hstr
    exact ⟨h1, h2 hcom⟩
  | logWrite i =>
    simp only [userStep, State.logAny] at hs
    split_ifs at hs with hi
    split at hs
    · rename_i l new hw
      cases hs
      refine (h.log_write hi.1 hi.2 hw hcare).traced ?_
      simp only [State.setTh_th, update_self]
      exact List.length_filter_le _ _
    · cases hs
  | bwrite i =>
    simp only [userStep] at hs
    split_ifs at hs with hi
    cases hs
    exact (h.bwrite hio hi rfl Iff.rfl (fun h' => absurd h' hnot)
      (fun _ _ _ _ h' => absurd h' hnot) fun _ h' => absurd h' hnot).traced bwrite_dirty
  | brelse i =>
    have hb : s.brelse t i (s.th t).job = some s' := hs
    exact (h.brelse hio rfl Iff.rfl (fun h' => absurd h' hnot) (fun h' => absurd h' hnot)
      (fun _ h' => absurd h' hnot) hb).traced (congrArg List.length (brelse_dirty hb)).le
  | done =>
    simp only [userStep, State.endOp] at hs
    split_ifs at hs with ho
    split at hs
    · rename_i l new he
      cases hs
      exact (h.end_op hio ho he rfl).traced (by simp [State.goto])
    · cases hs
  | go => cases hs

theorem arrayInv_step {x y : Traced T} {a : T × Cmd} (h : ArrayInv strict g x)
    (hdev : OneDevice a.2) (hcare : strict → Careful g x a) (hs : tracedStep g x a = some y) :
    ArrayInv strict g y := by
  obtain ⟨pins, E, h⟩ := h
  obtain ⟨s', he, rfl⟩ := Option.map_eq_some_iff.mp hs
  unfold execAny at he
  split_ifs at he with hu
  · exact h.user hu.1 hu.2 hdev hcare he
  · exact (logStep_exec h hu he).inv

theorem arrayInv_fresh (g : Geom) (disk : ℕ → Block) :
    ArrayInv strict g (fresh g disk : Traced T) := by
  refine ⟨[], disk, binit_ok disk fun _ => rfl, fun _ => .inl rfl, ?_, nofun, fun _ => rfl, nofun,
    ⟨nofun, fun _ _ => rfl⟩, nofun, nofun⟩
  exact ⟨rfl, List.nodup_nil, Nat.zero_le _, ⟨∅, fun _ => by simp [fresh], rfl⟩, nofun,
    ⟨nofun, nofun⟩, nofun⟩

/-! ## Which buffers are recycled -/

theorem userStep_keeps {a : Cmd} (hs : userStep s t a = some s') : s.cache.Keeps s'.cache := by
  cases a with
  | begin =>
    simp only [userStep] at hs
    split_ifs at hs
    obtain ⟨l, -, rfl⟩ := Option.map_eq_some_iff.mp hs
    exact .refl _
  | bread dev b =>
    simp only [userStep, State.breadDev] at hs
    split_ifs at hs
    obtain ⟨⟨i, c⟩, hget, rfl⟩ := Option.map_eq_some_iff.mp hs
    exact (bgetDev_spec hget).2
  | modify i d =>
    simp only [userStep] at hs
    split_ifs at hs
    cases hs
    exact setData_keeps _
  | logWrite i =>
    simp only [userStep, State.logAny] at hs
    split_ifs at hs
    split at hs
    · rename_i l new _
      cases hs
      cases new with
      | true => exact (s.cache.same_bpin i).keeps
      | false => exact .refl _
    · cases hs
  | bwrite i =>
    simp only [userStep] at hs
    split_ifs at hs
    cases hs
    exact .refl _
  | brelse i => exact brelse_keeps hs
  | done =>
    simp only [userStep, State.endOp] at hs
    split_ifs at hs
    split at hs
    · cases hs
      exact .refl _
    · cases hs
  | go => cases hs

/-! ## The cache as an array -/

section Array

variable [Fintype T]

/-- How many processes hold buffer `i`, wait for it in `bread`, or are in `brelse` of it. -/
def State.users (s : State T) (i : BufId) : ℕ := ∑ t, (s.th t).toHold.refs.count i

theorem CacheInv.refcnt_eq {c : Cache T} {h : T → Hold}
    {users : BufId → Multiset (Option T)} (hc : CacheInv c h users pins E) (i : BufId) :
    (c.buf i).refcnt = ∑ t, (h t).refs.count i +
      if (c.buf i).dev = ROOTDEV ∧ (c.buf i).blockno ∈ pins then 1 else 0 := by
  rw [hc.refcnt, ← Multiset.sum_count_eq_card (s := Finset.univ) fun a _ => Finset.mem_univ a,
    Fintype.sum_option, hc.pin, Nat.add_comm]
  simp only [hc.thread]

/-- What the cache promises in a state of a run. -/
structure PlainArray (g : Geom) (x : Traced T) : Prop where
  /-- No two buffers hold one block. -/
  uniq : ∀ i j, (x.sys.cache.buf i).dev ≠ 0 → (x.sys.cache.buf i).dev = (x.sys.cache.buf j).dev →
      (x.sys.cache.buf i).blockno = (x.sys.cache.buf j).blockno → i = j
  refcnt : x.sys.log.committing = false → ∀ i, (x.sys.cache.buf i).refcnt = x.sys.users i +
    if (x.sys.cache.buf i).dev ≠ 0 ∧ (x.sys.cache.buf i).blockno ∈ x.sys.log.lh then 1 else 0
  /-- A buffer in use is not recycled. -/
  recycle : ∀ a y, tracedStep g x a = some y → x.sys.cache.Keeps y.sys.cache
  /-- At the end of `commit` no buffer is pinned. -/
  unpinned : ∀ t, (x.sys.th t).job = .endCommit → ∀ i, (x.sys.cache.buf i).refcnt = x.sys.users i
  /-- `bread` gets a buffer of the block that is asked for. -/
  bread : ∀ t dev b y, (x.sys.th t).io = .ready → (x.sys.th t).job.sys = false →
    tracedStep g x (t, .bread dev b) = some y →
      ∃ i, (y.sys.th t).io = .lock i ∧ (y.sys.cache.buf i).dev = dev ∧
        (y.sys.cache.buf i).blockno = b
  /-- From the end of `bread` to `brelse` the buffer holds what was last stored in the block. -/
  read : ∀ t, ∀ i ∈ (x.sys.th t).regs, (x.sys.cache.buf i).data =
    x.last (x.sys.cache.buf i).dev (x.sys.cache.buf i).blockno

/-- If the step is one of the code of the log, nothing changes outside the log. -/
def Unseen (g : Geom) (x : Traced T) (a : T × Cmd) : Prop :=
  (x.sys.th a.1).job.sys = true → ∀ y, tracedStep g x a = some y →
    ∀ b, g.home b → y.last ROOTDEV b = x.last ROOTDEV b

theorem ArrayInv.plainArray {x : Traced T} (h : ArrayInv strict g x) : PlainArray g x := by
  obtain ⟨pins, E, h⟩ := h
  obtain ⟨users, hc⟩ := h.cache
  have hroot : ∀ i, (x.sys.cache.buf i).dev ≠ 0 → (x.sys.cache.buf i).dev = ROOTDEV :=
    fun i hi => (h.devs i).resolve_left hi
  refine ⟨fun i j hi hd hb => ?_, fun hcom i => ?_, fun a y hs => ?_, fun t hj i => ?_,
    fun t dev b y hio hu hs => ?_, fun t i hi => ?_⟩
  · exact hc.uniq i j (hroot i hi) (hd ▸ hroot i hi) hb
  · rw [hc.refcnt_eq i, h.quiet (h.control.no_sys hcom)]
    have hiff : (x.sys.cache.buf i).dev = ROOTDEV ↔ (x.sys.cache.buf i).dev ≠ 0 :=
      ⟨fun e => by simp [e, ROOTDEV], hroot i⟩
    simp only [hiff]
    rfl
  · obtain ⟨s', he, rfl⟩ := Option.map_eq_some_iff.mp hs
    unfold execAny at he
    split_ifs at he with hu
    · exact userStep_keeps he
    · exact (logStep_exec h hu he).keeps
  · have hst := h.stage t (by rw [hj]; rfl)
    rw [hj] at hst
    rw [hc.refcnt_eq i, hst.2]
    simp [State.users, State.holds]
  · obtain ⟨s', he, rfl⟩ := Option.map_eq_some_iff.mp hs
    simp only [execAny, if_pos (And.intro hio hu), userStep, State.breadDev] at he
    split_ifs at he
    obtain ⟨⟨i, c⟩, hget, rfl⟩ := Option.map_eq_some_iff.mp he
    exact ⟨i, by simp, (bgetDev_spec hget).1⟩
  · rw [h.dev_of_regs hi]
    exact h.read hi

/-- As long as all blocks are of one device, the cache is an array of blocks: whatever the users
and `commit` do. If the users are careful, `commit` moreover leaves that array as it is, apart from
its own blocks. -/
theorem cache_is_array {disk : ℕ → Block} {as : List (T × Cmd)} {x : Traced T}
    (hdev : ∀ a ∈ as, OneDevice a.2) (h : run (tracedStep g) (fresh g disk) as = some x) :
    PlainArray g x ∧ (RunMeets (tracedStep g) (Careful g) (fresh g disk) as →
        RunMeets (tracedStep g) (Unseen g) (fresh g disk) as) := by
  have hmeets : RunMeets (tracedStep g) (fun _ a => OneDevice a.2) (fresh g disk) as :=
    .of_forall _ fun a ha _ => hdev a ha
  refine ⟨?_, fun hcare => ?_⟩
  · have hi : ArrayInv False g x := run_induct_of_meets
      (fun _ _ _ hi hd hs => arrayInv_step hi hd False.elim hs) (arrayInv_fresh g disk) hmeets h
    exact hi.plainArray
  · refine RunMeets.of_inv (I := ArrayInv True g)
      (fun _ _ _ hi hG hs => arrayInv_step hi hG.1 (fun _ => hG.2) hs) ?_ (arrayInv_fresh g disk)
      (hmeets.and hcare)
    rintro y a ⟨pins, E, hi⟩ - hsys z hs b hb
    obtain ⟨s', he, rfl⟩ := Option.map_eq_some_iff.mp hs
    unfold execAny at he
    rw [if_neg (by simp [hsys])] at he
    exact (logStep_exec hi (by simp [hsys]) he).home trivial b hb

end Array

/-- One process reads block `b` of device `dev`. -/
def readBlock (dev b : ℕ) : List (Unit × Cmd) := [((), .bread dev b), ((), .go), ((), .go)]

/-- It fills the buffer with `v`, logs and releases it. -/
def updateBlock (i : BufId) (v : UInt8) : List (Unit × Cmd) :=
  [((), .modify i fun _ => v), ((), .logWrite i), ((), .brelse i), ((), .go)]

/-- An operation changes block 40, and the block is read again after the commit. -/
def commitTrace : List (Unit × Cmd) :=
  [((), .begin)] ++ readBlock 1 40 ++ updateBlock 0 7 ++ [((), .done)] ++
    List.replicate 42 ((), .go) ++ readBlock 1 40

theorem cache_is_array_commit :
    ∃ x, run (tracedStep ⟨2, 30, by decide⟩) (fresh ⟨2, 30, by decide⟩ fun _ _ => 0) commitTrace =
        some x ∧ x.sys.groups.length = 1 ∧ (x.sys.th ()).regs = [0] ∧ x.last 1 40 0 = 7 ∧
      PlainArray ⟨2, 30, by decide⟩ x :=
  (exists_of_any (p := fun x => x.sys.groups.length = 1 ∧ (x.sys.th ()).regs = [0] ∧ x.last 1 40 0 = 7)
    (by decide +kernel)).imp fun _ ⟨hx, h1, h2, h3⟩ =>
      ⟨hx, h1, h2, h3, (cache_is_array (by decide) hx).1⟩

/-- Block 40 of device 1 is logged and then block 40 of device 2. Reading 29 other blocks recycles
the buffer of the latter, and then it is read again. -/
def staleTrace : List (Unit × Cmd) :=
  [((), .begin)] ++ readBlock 1 40 ++ updateBlock 0 7 ++ readBlock 2 40 ++ updateBlock 1 9 ++
    (List.range 29).flatMap (fun k => readBlock 1 (100 + k)) ++ [((), .brelse 1), ((), .go)] ++
      readBlock 2 40

/-- With two devices the cache loses data: `log_write` takes block 40 of device 2 for the one that
is in the log, and does not pin its buffer. -/
theorem two_devices_stale :
    ∃ x, run (tracedStep ⟨2, 30, by decide⟩) (fresh ⟨2, 30, by decide⟩ fun _ _ => 0) staleTrace =
        some x ∧ 1 ∈ (x.sys.th ()).regs ∧ (x.sys.cache.buf 1).dev = 2 ∧
      (x.sys.cache.buf 1).blockno = 40 ∧ (x.sys.cache.buf 1).data 0 = 0 ∧ x.last 2 40 0 = 9 :=
  exists_of_any (by decide +kernel)

end TatakOS.Logging
