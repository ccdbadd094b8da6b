import TatakOS.Log.Invariant

/-!
# The steps of operations

`bread` and `brelse`, by operations and by the code of the log, and what operations do: `begin_op`,
changes of the data, `log_write` and `end_op`.
-/

namespace TatakOS.Logging

open Function

variable {T : Type} [DecidableEq T] {g : Geom} {base : ℕ → Block} {s : State T} {t : T} {i : BufId}
  {b : ℕ} {j j₀ : Job} {pins : List ℕ} {E C : ℕ → Block} {s' : State T}

theorem holds_update (t : T) {x : Thread} (h : s'.th = update s.th t x) :
    s'.holds = update s.holds t x.toHold := by
  funext t'
  unfold State.holds
  rw [h]
  rcases eq_or_ne t' t with rfl | e
  · simp
  · simp [e]

theorem CacheOk.goto (hc : CacheOk s.cache s.holds pins E)
    (hth : s'.th = (s.goto t j).th) (hcache : s'.cache = s.cache) :
    CacheOk s'.cache s'.holds pins E := by
  have hsame : update s.holds t (s.th t).toHold = s.holds :=
    update_eq_self t s.holds
  rw [hcache, holds_update (s := s) t hth]
  show CacheOk s.cache (update s.holds t (s.th t).toHold) pins E
  rw [hsame]
  exact hc

section

omit [DecidableEq T]

theorem keeps_of_buf (h : ∀ i, (s'.cache.buf i).blockno = (s.cache.buf i).blockno ∧
      (s'.cache.buf i).data = (s.cache.buf i).data) : s.Keeps s' :=
  fun _ i => ⟨fun _ => (h i).1, fun _ => (h i).2⟩

/-- Before the recovery is done, only the process that runs it does anything. -/
theorem LogOk.recovering_of_busy (hl : LogOk g s pins E C) (hne : s.th t ≠ {})
    (hu : s.up = false) : (s.th t).job.recovering = true := by
  by_contra hr
  exact hne (hl.down hu t (by simpa using hr))

theorem LogOk.recovering_of_io (hl : LogOk g s pins E C) (hio : (s.th t).io ≠ .ready)
    (hu : s.up = false) : (s.th t).job.recovering = true := by
  refine hl.recovering_of_busy (fun h => ?_) hu
  rw [h] at hio
  exact hio rfl

end

/-! ## `bread` -/

theorem inv_bread (hi : Inv g base s) (hio : (s.th t).io = .ready)
    (hbusy : s.up = true ∨ s.th t ≠ {})
    (hsys : (s.th t).job.sys = true → (s.th t).job.want g s.log.lh = some b)
    (h : s.bread t b = some s') : Inv g base s' := by
  obtain ⟨pins, E, hc, hl⟩ := hi
  unfold State.bread at h
  obtain ⟨⟨i, c⟩, hget, rfl⟩ := Option.map_eq_some_iff.mp h
  obtain ⟨hc', hb, hdisk, hkeep⟩ := hc.bget (t := t) hio hget
  refine ⟨pins, E, ?_, ?_⟩
  · rw [holds_update t rfl]
    exact hc'
  · refine hl.frame hc rfl rfl rfl rfl hdisk ?_ rfl rfl ?_ ?_
    · intro t' j
      exact ⟨fun hj => (hkeep t' j hj).1, fun hj => (hkeep t' j (Hold.mem_refs_of_regs hj)).2⟩
    · intro hs
      have hok := hl.sys t hs
      refine ⟨?_, ?_, ?_⟩
      · refine (List.map_congr_left fun j hj => ?_).trans hok.regs
        exact (hkeep t j (Hold.mem_refs_of_regs hj)).1
      · intro j hj
        obtain rfl : i = j := by simpa using hj
        rw [hb]
        exact hsys hs
      · refine (List.map_congr_left fun j hj => ?_).trans hok.dirty
        exact (hkeep t j (Hold.mem_refs_of_regs (hc.dirty_regs t j hj))).1
    · intro hu
      refine hl.recovering_of_busy ?_ hu
      rcases hbusy with hup | hne
      · simp [hu] at hup
      · exact hne

theorem inv_bread_sys (hi : Inv g base s) (hj : (s.th t).job = j) (hio : (s.th t).io = .ready)
    (hw : j.want g s.log.lh = some b) (h : s.bread t b = some s') : Inv g base s' := by
  refine inv_bread hi hio (.inr fun e => ?_) (fun _ => hj ▸ hw) h
  rw [e] at hj
  rw [← hj] at hw
  cases hw

theorem inv_lock (hi : Inv g base s) (hio : (s.th t).io = .lock i)
    (hfree : (s.cache.buf i).lockedBy = none) :
    Inv g base { s.setTh t { s.th t with io := .fill i } with cache := s.cache.lock t i } := by
  obtain ⟨pins, E, ⟨users, hc⟩, hl⟩ := hi
  have hbuf := fun j => (s.cache.same_lock i t j).2
  refine ⟨pins, E, ⟨users, ?_⟩, ?_⟩
  · rw [holds_update t rfl]
    exact hc.lock (t := t) hio hfree
  · refine hl.frame ⟨users, hc⟩ rfl rfl rfl rfl rfl (keeps_of_buf hbuf) rfl rfl ?_ ?_
    · intro hs
      refine (hl.sys t hs).of_same rfl (fun j => (hbuf j).1) rfl rfl rfl fun j hj => ?_
      obtain rfl : i = j := by simpa using hj
      exact .inl hio
    · exact hl.recovering_of_io (by simp [hio])

theorem inv_put (hi : Inv g base s) (hio : (s.th t).io = .put i) :
    Inv g base { s.setTh t { s.th t with io := .ready } with cache := s.cache.put i } := by
  obtain ⟨pins, E, ⟨users, hc⟩, hl⟩ := hi
  have hbuf := fun j => (s.cache.same_put i j).2
  refine ⟨pins, E, ?_, ?_⟩
  · rw [holds_update t rfl]
    exact ⟨_, hc.put (t := t) hio⟩
  · refine hl.frame ⟨users, hc⟩ rfl rfl rfl rfl (by simp) (keeps_of_buf hbuf) rfl rfl ?_ ?_
    · intro hs
      exact (hl.sys t hs).of_same rfl (fun j => (hbuf j).1) rfl rfl rfl fun j hj => by simp at hj
    · exact hl.recovering_of_io (by simp [hio])

/-! ## The end of `bread` -/

section Fill

variable {lh : List ℕ}

theorem Job.afterBread_sys (j : Job) : j.afterBread.sys = j.sys := by
  cases j with
  | writeLog tail k => cases k <;> rfl
  | install r tail k => cases k <;> rfl
  | writeHead w k => cases k <;> rfl
  | readHead k => cases k <;> rfl
  | _ => rfl

theorem Job.afterBread_of_not_sys (h : j.sys = false) : j.afterBread = j := by
  cases j <;> first | rfl | cases h

theorem Job.afterBread_recovering (j : Job) : j.afterBread.recovering = j.recovering := by
  cases j with
  | writeLog tail k => cases k <;> rfl
  | install r tail k => cases r <;> cases k <;> rfl
  | writeHead w k => cases w <;> cases k <;> rfl
  | readHead k => cases k <;> rfl
  | _ => rfl

theorem Job.afterBread_blocks (h : j.want g lh = some b) :
    j.afterBread.blocks g lh = b :: j.blocks g lh := by
  cases j with
  | writeLog tail k | install r tail k =>
    cases k <;> simp_all [Job.want, Job.afterBread, Job.blocks]
  | writeHead w k | readHead k => cases k <;> simp_all [Job.want, Job.afterBread, Job.blocks]
  | _ => simp [Job.want] at h

theorem Job.afterBread_changed (h : j.want g lh = some b) :
    j.afterBread.changed g lh = j.changed g lh := by
  cases j with
  | writeLog tail k | install r tail k =>
    cases k <;> simp_all [Job.want, Job.afterBread, Job.changed]
  | writeHead w k | readHead k => cases k <;> simp_all [Job.want, Job.afterBread, Job.changed]
  | _ => simp [Job.want] at h

theorem Phase.afterBread {v : View} {new : List Block} (hp : Phase g v pins E C new j)
    (h : j.want g v.lh = some b) (new' : List Block) : Phase g v pins E C new' j.afterBread := by
  cases j with
  | writeLog tail k =>
    cases k <;> simp_all [Job.want, Job.afterBread, Phase, Copy.Inside, Copy.rounds]
  | install r tail k =>
    cases r <;> cases k <;> simp_all [Job.want, Job.afterBread, Phase, Copy.Inside, Copy.rounds]
  | writeHead w k => cases w <;> cases k <;> simp_all [Job.want, Job.afterBread, Phase]
  | readHead k => cases k <;> simp_all [Job.want, Job.afterBread, Phase]
  | _ => simp [Job.want] at h

end Fill

theorem inv_fill (hi : Inv g base s) (hio : (s.th t).io = .fill i) :
    Inv g base { s.setTh t { s.th t with
      io := .ready, regs := i :: (s.th t).regs, job := (s.th t).job.afterBread } with
        cache := s.cache.fill i } := by
  obtain ⟨pins, E, ⟨users, hc⟩, hl⟩ := hi
  have hblk := fun j => (s.cache.fill_buf i j).2.1
  refine ⟨pins, E, ⟨users, ?_⟩, ?_⟩
  · rw [holds_update t rfl]
    exact hc.fill (t := t) hio
  by_cases hs : (s.th t).job.sys = true
  · have hok := hl.sys t hs
    have hwant := hok.io i (.inr hio)
    refine hl.sys_step ⟨users, hc⟩ hs rfl ?_ ?_ rfl rfl rfl rfl (fun t' _ j _ => hblk j) hl.lh ?_ ?_ ?_
    · exact (Job.afterBread_sys _).trans hs
    · exact Job.afterBread_recovering _
    · simpa [Cache.fill_disk] using hl.recover
    · refine ⟨?_, fun j hj => by simp at hj, ?_⟩
      · simp only [List.map_cons, hblk]
        rw [hok.regs]
        exact (Job.afterBread_blocks hwant).symm
      · simp only [hblk]
        rw [hok.dirty]
        exact (Job.afterBread_changed hwant).symm
    · have hph := (hl.phase_of_sys hs).afterBread hwant
      simpa [State.view, Cache.fill_disk] using hph _
  · have hj := Job.afterBread_of_not_sys (j := (s.th t).job) (by simpa using hs)
    refine hl.frame ⟨users, hc⟩ rfl rfl rfl rfl (Cache.fill_disk _ _) ?_ hj rfl ?_ ?_
    · exact fun t' k => ⟨fun _ => hblk k, fun hk => Cache.fill_data i (hc.valid t' k hk)⟩
    · intro h
      rw [Job.afterBread_sys] at h
      exact absurd h hs
    · exact hl.recovering_of_io (by simp [hio])

/-! ## `brelse` -/

theorem inv_brelse (hi : Inv g base s) (hio : (s.th t).io = .ready)
    (hs : (s.th t).job.sys = false) (h : s.brelse t i (s.th t).job = some s') :
    Inv g base s' := by
  obtain ⟨pins, E, ⟨users, hc⟩, hl⟩ := hi
  simp only [State.brelse] at h
  split_ifs at h with hr
  cases h
  refine ⟨pins, E, ⟨users, ?_⟩, ?_⟩
  · rw [holds_update t rfl]
    exact hc.unlock (t := t) hio hr.1 hr.2
  · refine hl.frame ⟨users, hc⟩ rfl rfl rfl rfl rfl
      (keeps_of_buf fun j => (s.cache.same_unlock i j).2) rfl rfl ?_ ?_
    · intro h
      simp [hs] at h
    · refine hl.recovering_of_busy fun h => ?_
      rw [h] at hr
      simp at hr

theorem inv_brelse_sys (hc : CacheOk s.cache s.holds pins E)
    (hl : LogOk g s pins E (applyGroups base s.groups)) (hj₀ : (s.th t).job = j₀)
    (hio : (s.th t).io = .ready) (hs : j₀.sys = true) (hj : j.sys = true)
    (hrec : j.recovering = j₀.recovering)
    (hb : ((s.th t).regs.erase i).map (fun i => (s.cache.buf i).blockno) = j.blocks g s.log.lh)
    (hch : j.changed g s.log.lh = j₀.changed g s.log.lh)
    (hph : ∀ new, Phase g s.view pins E (applyGroups base s.groups) new j)
    (h : s.brelse t i j = some s') : Inv g base s' := by
  obtain ⟨users, hc⟩ := hc
  subst hj₀
  have hblk := fun k => (s.cache.same_unlock i k).2.1
  simp only [State.brelse] at h
  split_ifs at h with hr
  cases h
  refine ⟨pins, E, ⟨users, ?_⟩, ?_⟩
  · rw [holds_update t rfl]
    exact hc.unlock (t := t) hio hr.1 hr.2
  · refine hl.sys_step ⟨users, hc⟩ hs rfl hj hrec rfl rfl rfl rfl (fun t' _ j _ => hblk j) hl.lh
      hl.recover ⟨?_, fun k hk => by simp at hk, ?_⟩ (hph _)
    · simp only [hblk]
      exact hb
    · simp only [hblk]
      exact (hl.sys t hs).dirty.trans hch.symm

/-! ## Operations -/

variable {l : Log}

theorem inv_begin (hi : Inv g base s) (hj : (s.th t).job = .idle)
    (hup : s.up = true) (hb : beginOp s.log = some l)
    (h : s' = { s.goto t .op with log := l }) : Inv g base s' := by
  obtain ⟨pins, E, hc, hl⟩ := hi
  obtain ⟨hcom, rfl⟩ := beginOp_eq_some hb
  subst h
  refine ⟨pins, E, ?_, ?_⟩
  · exact hc.goto rfl rfl
  · refine hl.user_step hc hup hcom rfl rfl rfl hcom hup rfl (fun _ _ _ => rfl) ?_ hl.lh
      (fun h => by cases h) (fun _ i hi => ?_) (hl.uncommitted hup hcom)
    · obtain ⟨ops, hops, hcard⟩ := hl.ops
      have ht : t ∉ ops := by simp [hops, hj]
      refine ⟨insert t ops, fun t' => ?_, ?_⟩
      · rw [Finset.mem_insert, hops]
        rcases eq_or_ne t' t with rfl | e
        · simp [State.goto]
        · simp [State.goto, e]
      · rw [Finset.card_insert_of_notMem ht, ← hcard]
    · simp [hl.idle t hj] at hi

theorem inv_modify {d : Block} (hi : Inv g base s) (ho : (s.th t).job = .op)
    (hr : i ∈ (s.th t).regs) (hb : g.home (s.cache.buf i).blockno) :
    Inv g base (s.setData t i d .op) := by
  obtain ⟨pins, E, ⟨users, hc⟩, hl⟩ := hi
  obtain ⟨hup, hcom, -⟩ := hl.of_op ho
  have hblk := fun k => (s.cache.setData_buf i d k).2
  refine ⟨pins, E, ⟨users, ?_⟩, ?_⟩
  · rw [holds_update t rfl]
    exact hc.setData (t := t) hr d
  · refine hl.user_step ⟨users, hc⟩ hup hcom rfl rfl rfl hcom hup rfl (fun _ k _ => hblk k) ?_ hl.lh
      (fun h => by cases h) (fun _ k hk => ?_) (hl.uncommitted hup hcom)
    · obtain ⟨ops, hops, hcard⟩ := hl.ops
      refine ⟨ops, fun t' => ?_, hcard⟩
      rw [hops]
      rcases eq_or_ne t' t with rfl | e
      · simp [State.setData, ho]
      · simp [State.setData, e]
    · rw [show (s.setData t i d .op).cache = s.cache.setData i d from rfl, hblk]
      rcases List.mem_cons.mp hk with rfl | hk
      · exact hb
      · exact hl.op t ho k hk

omit [DecidableEq T] in
theorem Uncommitted.log_write {v : View} {new : Bool} {d : Block}
    (hu : Uncommitted g v pins E) (hlog : s.log.lh = v.lh)
    (hw : logWrite s.log b = .ok (l, new)) :
    Uncommitted g ⟨l.lh, v.disk, update v.pending b (some d)⟩ l.lh
      (update E b d) := by
  refine ⟨hu.header, rfl, fun b' => ?_⟩
  have hmem : b' ∈ l.lh ↔ b' ∈ v.lh ∨ b' = b := by
    obtain ⟨-, -, -, ⟨hb, rfl, -⟩ | ⟨-, rfl, -⟩⟩ := logWrite_eq_ok hw
    · rw [hlog] at hb ⊢
      exact ⟨.inl, fun h => h.elim id fun e => e ▸ hb⟩
    · simp [hlog]
  rcases eq_or_ne b' b with rfl | e
  · simp [hmem]
  · simp [hmem, e, hu.pending b']

omit [DecidableEq T] in
theorem LhOk.log_write {new : Bool} (h : LhOk g s.log.lh) (hsize : s.log.size = g.size)
    (hb : g.home b) (hword : b < 2 ^ 32) (hw : logWrite s.log b = .ok (l, new)) :
    l.size = g.size ∧ l.outstanding = s.log.outstanding ∧ l.committing = s.log.committing ∧
      LhOk g l.lh := by
  obtain ⟨h1, h2, -, ⟨-, rfl, -⟩ | ⟨hnew, rfl, -⟩⟩ := logWrite_eq_ok hw
  · exact ⟨hsize, rfl, rfl, h⟩
  · refine ⟨hsize, rfl, rfl, ?_, ?_, ?_, ?_⟩
    · have := h.nodup
      rw [List.nodup_append]
      refine ⟨this, List.nodup_singleton _, fun a ha c hc => ?_⟩
      rintro rfl
      exact hnew (List.mem_singleton.mp hc ▸ ha)
    · intro b' hb'
      rcases List.mem_append.mp hb' with h' | h'
      · exact h.home b' h'
      · exact List.mem_singleton.mp h' ▸ hb
    · intro b' hb'
      rcases List.mem_append.mp hb' with h' | h'
      · exact h.word b' h'
      · exact List.mem_singleton.mp h' ▸ hword
    · rw [hsize] at h2
      rw [List.length_append, List.length_singleton]
      omega

theorem inv_logWrite (hi : Inv g base s) (ho : (s.th t).job = .op)
    (h : s.logWrite g t i = some s') : Inv g base s' := by
  obtain ⟨pins, E, ⟨users, hc⟩, hl⟩ := hi
  obtain ⟨hup, hcom, -⟩ := hl.of_op ho
  have hun := hl.uncommitted hup hcom
  simp only [State.logWrite] at h
  split_ifs at h with hr
  split at h
  · rename_i l new hw
    cases h
    obtain ⟨hsize, hout, hcom', hlh⟩ := hl.lh.log_write hl.size hr.2.1 hr.2.2 hw
    have hpins : pins = s.log.lh := hun.pins
    refine ⟨l.lh, update E (s.cache.buf i).blockno (s.cache.buf i).data, ?_, ?_⟩
    · rw [holds_update t rfl]
      obtain ⟨-, -, -, ⟨hb, rfl, rfl⟩ | ⟨hb, rfl, rfl⟩⟩ := logWrite_eq_ok hw
      · exact ⟨users, hpins ▸ hc.log_absorb (t := t) hr.1 (hpins ▸ hb)⟩
      · exact ⟨_, hpins ▸ hc.log_pin (t := t) hr.1 (hpins ▸ hb)⟩
    · have hblk : ∀ k, ((if new = true then s.cache.bpin i else s.cache).buf k).blockno =
          (s.cache.buf k).blockno := by
        intro k
        split_ifs
        · exact (s.cache.same_bpin i k).2.1
        · rfl
      have hdisk : (if new = true then s.cache.bpin i else s.cache).disk = s.cache.disk := by
        split_ifs <;> rfl
      refine hl.user_step ⟨users, hc⟩ hup hcom rfl (by rw [ho]; rfl) (hsize.trans hl.size.symm)
        (hcom'.trans hcom) hup hdisk (fun _ k _ => hblk k) ?_ hlh (fun h => ?_) (fun _ k hk => ?_) ?_
      · obtain ⟨ops, hops, hcard⟩ := hl.ops
        refine ⟨ops, fun t' => ?_, hout.trans hcard⟩
        rw [hops]
        rcases eq_or_ne t' t with rfl | e
        · simp
        · simp [e]
      · have h' : (s.th t).job = .idle := h
        rw [ho] at h'
        cases h'
      · show g.home ((if new = true then s.cache.bpin i else s.cache).buf k).blockno
        rw [hblk]
        exact hl.op t ho k (List.mem_of_mem_filter hk)
      · have := hun.log_write (d := (s.cache.buf i).data) rfl hw
        simpa [State.view, hdisk] using this
  · cases h

/-! ## `end_op` -/

omit [DecidableEq T] in
/-- Where nothing is pinned and the header is empty, the disk has all committed groups. -/
theorem LogOk.home_of_header (hl : LogOk g s pins E C)
    (hh : getHead (s.cache.disk g.start) = some []) (hb : g.home b) : s.cache.disk b = C b := by
  obtain ⟨h, hrec⟩ := hl.recover
  obtain rfl : [] = h := by
    have := hh.symm.trans hrec.header
    simpa using this
  simpa [installed] using hrec.install b hb

theorem inv_done_rest (hi : Inv g base s) (ho : (s.th t).job = .op) (hr : (s.th t).regs = [])
    (he : endOp s.log = .ok (l, false)) :
    Inv g base { s.goto t .idle with log := l } := by
  obtain ⟨pins, E, hc, hl⟩ := hi
  obtain ⟨hup, hcom, -⟩ := hl.of_op ho
  obtain ⟨-, hsize, hlh, hout, hcom', -⟩ := endOp_eq_ok he
  have hdirty := hc.dirty_nil hr
  refine ⟨pins, E, ?_, ?_⟩
  · exact hc.goto rfl rfl
  · refine hl.user_step hc hup hcom rfl rfl hsize hcom' hup rfl (fun _ _ _ => rfl) ?_
      (by rw [hlh]; exact hl.lh) (fun _ => hdirty) (fun h => by cases h) ?_
    · obtain ⟨ops, hops, hcard⟩ := hl.ops
      refine ⟨ops.erase t, fun t' => ?_, ?_⟩
      · rw [Finset.mem_erase, hops]
        rcases eq_or_ne t' t with rfl | e
        · simp [State.goto]
        · simp [State.goto, e]
      · rw [Finset.card_erase_of_mem ((hops t).mpr ho), ← hcard, hout]
    · have := hl.uncommitted hup hcom
      simpa [State.view, State.goto, hlh] using this

theorem inv_done_commit (hi : Inv g base s) (ho : (s.th t).job = .op) (hr : (s.th t).regs = [])
    (hio : (s.th t).io = .ready) (he : endOp s.log = .ok (l, true)) :
    Inv g base { s.goto t (if 0 < l.lh.length then .writeLog 0 .log else .endCommit) with
      log := l } := by
  obtain ⟨pins, E, hc, hl⟩ := hi
  obtain ⟨hup, hcom, hpos⟩ := hl.of_op ho
  have hun := hl.uncommitted hup hcom
  obtain ⟨-, hsize, hlh, hout, hcom', hlast⟩ := endOp_eq_ok he
  have hdirty := hc.dirty_nil hr
  set j : Job := if 0 < l.lh.length then .writeLog 0 .log else .endCommit with hj
  have hjs : j.sys = true ∧ j.recovering = false ∧ j.blocks g l.lh = [] ∧ j.changed g l.lh = [] := by
    rw [hj]
    split_ifs <;> exact ⟨rfl, rfl, rfl, rfl⟩
  -- `t` was the only operation
  obtain ⟨ops, hops, hcard⟩ := hl.ops
  have hzero : s.log.outstanding - 1 = 0 := hlast.mp rfl
  have honly : ∀ t', t' ≠ t → (s.th t').job = .idle := by
    intro t' e
    have hno := hl.no_sys hup hcom t'
    have hne : (s.th t').job ≠ .op := by
      intro h
      have h2 : 1 < ops.card :=
        Finset.one_lt_card.mpr ⟨t', (hops t').mpr h, t, (hops t).mpr ho, e⟩
      omega
    generalize (s.th t').job = k at hno hne
    cases k <;> simp_all [Job.sys]
  have hother : ∀ t', t' ≠ t → (update s.th t { s.th t with job := j } t') = s.th t' :=
    fun t' e => update_of_ne e _ _
  refine ⟨pins, E, ?_, ?_⟩
  · exact hc.goto rfl rfl
  refine ⟨hsize.trans hl.size, ?_, hl.recover, ⟨∅, fun t' => ?_, ?_⟩, ?_, ?_, ?_, ?_, ?_, ?_, ?_, ?_,
    ?_⟩
  · show LhOk g l.lh
    rw [hlh]
    exact hl.lh
  · rcases eq_or_ne t' t with rfl | e
    · have : j ≠ .op := fun h => by rw [h] at hjs; exact absurd hjs.1 (by decide)
      simp [State.goto, this]
    · simp [State.goto, e, honly t' e]
  · simp [hout, hzero]
  · intro t' t'' h' h''
    have hself : ∀ u, ((s.goto t j).th u).job.sys = true → u = t := by
      intro u hu
      by_contra e
      simp [State.goto, e, honly u e, Job.sys] at hu
    rw [hself t' h', hself t'' h'']
  · intro t' h'
    rcases eq_or_ne t' t with rfl | e
    · simp [State.goto, hjs] at h'
    · simp [State.goto, e, honly t' e, Job.recovering] at h'
  · simp only [hcom', true_iff]
    exact ⟨t, by simp [State.goto, hjs]⟩
  · intro h
    simp [State.goto, hup] at h
  · intro _
    simp [hout, hzero]
  · intro t' h'
    rcases eq_or_ne t' t with rfl | e
    · refine ⟨?_, ?_, ?_⟩
      · simp [State.goto, hr, hjs]
      · intro i hi
        simp [State.goto, hio] at hi
      · simp [State.goto, hdirty, hjs]
    · simp [State.goto, e, honly t' e, Job.sys] at h'
  · intro t' h'
    rcases eq_or_ne t' t with rfl | e
    · simp [State.goto] at h'
      rw [h'] at hjs
      exact absurd hjs.1 (by decide)
    · simpa [State.goto, e] using hl.idle t' (honly t' e)
  · intro t' h'
    rcases eq_or_ne t' t with rfl | e
    · simp [State.goto] at h'
      rw [h'] at hjs
      exact absurd hjs.1 (by decide)
    · simp [State.goto, e, honly t' e] at h'
  · refine ⟨{ s.th t with job := j }, .inr ⟨t, by simp [State.goto], hjs.1⟩, ?_⟩
    have hun' : Uncommitted g ⟨l.lh, s.cache.disk, s.pending⟩ pins E := by
      rw [hlh]
      exact hun
    rw [hj]
    split_ifs with hn
    · exact ⟨hun', Nat.zero_le _, fun j hj => absurd hj (Nat.not_lt_zero j), fun h => by cases h⟩
    · have hnil : l.lh = [] := List.length_eq_zero_iff.mp (by omega)
      have hpins : pins = [] := by rw [hun'.pins]; exact hnil
      refine ⟨⟨hnil, hpins, fun b => ?_, fun b hb => ?_⟩, hun.header⟩
      · have := hun'.pending b
        simp only [hnil, List.not_mem_nil, if_false] at this
        exact this
      · obtain ⟨users, hc⟩ := hc
        rw [← hc.disk b (by simp [hpins])]
        exact hl.home_of_header hun.header hb

end TatakOS.Logging
