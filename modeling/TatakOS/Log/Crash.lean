import TatakOS.Base.Run
import TatakOS.Log.Commit

/-!
# Crashes

The steps at the header of the log, crashes, and what recovery leaves on the disk: the effect of
the groups that were committed, in order, and of nothing else.
-/

namespace TatakOS.Logging

open Function

variable {T : Type} [DecidableEq T] {g : Geom} {base : ℕ → Block} {s s' : State T} {t : T}
  {i : BufId} {pins : List ℕ} {E C : ℕ → Block} {d : Block}

/-! ## `write_head` -/

omit [DecidableEq T] in
theorem getHead_fill (hl : LhOk g s.log.lh) (d : Block) :
    getHead (putHead s.log.lh d) = some s.log.lh :=
  getHead_putHead hl.length.1 hl.word

theorem applyGroups_append (ws : List (ℕ → Option Block)) (w : ℕ → Option Block) :
    applyGroups base (ws ++ [w]) = applyGroup (applyGroups base ws) w := by
  unfold applyGroups
  rw [List.foldl_append]
  rfl

/-- At the commit point the cache holds the effect of one more group. -/
theorem Uncommitted.applyGroup {v : View} (hu : Uncommitted g v pins E) {b : ℕ}
    (hr : RecOk g v.disk C []) (hdisk : ∀ b, b ∉ pins → v.disk b = E b) (hb : g.home b) :
    E b = Logging.applyGroup C v.pending b := by
  unfold Logging.applyGroup
  rw [hu.pending]
  split_ifs with hmem
  · rfl
  · have := hr.install b hb
    rw [← hdisk b (by rw [hu.pins]; exact hmem)]
    simpa [installed] using this

variable {k : Head}

theorem inv_writeHead_commit (hi : Inv g base s)
    (hj : (s.th t).job = .writeHead .commit k) (hio : (s.th t).io = .ready)
    (h : writeHeadStep g s t .commit k = some s') : Inv g base s' := by
  obtain ⟨pins, E, hc, hl, hok, hph⟩ := hi.at_job hj rfl
  unfold writeHeadStep at h
  split at h
  · exact inv_bread_sys hi hj hio rfl h
  · rename_i i rest hr
    cases h
    obtain ⟨hun, hcopied, -⟩ := hph
    obtain ⟨hblk, -⟩ := hok.head hj hr rfl
    refine inv_setData_sys hc hl hj hio rfl rfl rfl (by simp [hr]) rfl rfl (by rw [hblk]; rfl)
      ⟨hun, hcopied, fun _ d hd => ?_⟩
    rw [List.mem_singleton.mp hd]
    exact getHead_fill hl.lh _
  · rename_i i rest hr
    cases h
    obtain ⟨hun, hcopied, hnew⟩ := hph
    obtain ⟨hblk, -⟩ := hok.head hj hr rfl
    have hch : (Job.writeHead .commit .write).changed g s.log.lh = [(s.cache.buf i).blockno] := by
      rw [hblk]
      rfl
    have hd : getHead (s.cache.buf i).data = some s.log.lh :=
      data_of_changed hc hok hj (by simp [hr]) hch (hnew rfl)
    obtain ⟨hh, hrec⟩ := hl.recover
    replace hrec := hun.recOk hrec
    have hdisk : ∀ b, b ∉ pins → s.cache.disk b = E b := by
      obtain ⟨users, hc⟩ := hc
      exact hc.disk
    have hlog : ∀ j < s.log.lh.length, s.cache.disk (g.start + j + 1) = E (s.log.lh.getD j 0) := by
      intro j hj
      rw [hdisk _ fun hmem => hl.lh.not_home hj (hl.lh.home _ (by rwa [hun.pins] at hmem))]
      exact hcopied j hj
    have hcommit := hrec.commit hl.lh hd hun.pending hlog
    rw [← hblk] at hcommit
    refine ⟨pins, _, logOk_bwrite (j := .writeHead .commit .rel) hc hl hj hio rfl rfl rfl
      (by simp [hr]) rfl hch rfl rfl rfl rfl rfl
      ⟨s.log.lh, ?_⟩ fun new => ⟨⟨?_, fun _ => rfl, fun b hb => ?_⟩, hun.pins⟩⟩
    · show RecOk g _ (applyGroups base (s.groups ++ [s.pending])) _
      rw [applyGroups_append]
      exact hcommit
    · exact hcommit.header
    · have e : b ≠ (s.cache.buf i).blockno := by
        rintro rfl
        exact g.not_home_start (hblk ▸ hb)
      show _ = applyGroups base (s.groups ++ [s.pending]) b
      rw [applyGroups_append, update_of_ne e]
      exact hun.applyGroup hrec hdisk hb
  · rename_i i rest hr
    obtain ⟨hcm, hpins⟩ := hph
    exact inv_brelse_sys (j := .install false 0 .log) hc hl hj hio rfl rfl rfl
      (hok.erase hj hr rfl) rfl
      (fun _ => ⟨hcm, Nat.zero_le _, hpins, by simp, by simp⟩) h
  · cases h

theorem Phase.clear_iff {v : View} {new : List Block} {w : Why} (hw : w ≠ .commit) :
    Phase g v pins E C new (.writeHead w k) ↔
      Installed g v pins E C ∧ (k = .rel → getHead (v.disk g.start) = some []) ∧
        (k = .write → ∀ d ∈ new, getHead d = some []) := by
  cases w
  · exact absurd rfl hw
  · rfl
  · rfl

theorem inv_writeHead_clear {w : Why} (hw : w ≠ .commit) (hi : Inv g base s)
    (hj : (s.th t).job = .writeHead w k) (hio : (s.th t).io = .ready)
    (h : writeHeadStep g s t w k = some s') : Inv g base s' := by
  obtain ⟨pins, E, hc, hl, hok, hph⟩ := hi.at_job hj rfl
  have hrec : ∀ k k', (Job.writeHead w k).recovering = (Job.writeHead w k').recovering := by
    intro k k'
    cases w <;> rfl
  rw [Phase.clear_iff hw] at hph
  obtain ⟨hin, hrel, hnew⟩ := hph
  unfold writeHeadStep at h
  split at h
  · exact inv_bread_sys hi hj hio rfl h
  · rename_i i rest hr
    cases h
    obtain ⟨hblk, -⟩ := hok.head hj hr rfl
    refine inv_setData_sys hc hl hj hio rfl rfl (hrec _ _) (by simp [hr]) rfl rfl
      (by rw [hblk]; rfl) ((Phase.clear_iff hw).mpr ⟨hin, by simp, fun _ d hd => ?_⟩)
    rw [List.mem_singleton.mp hd, getHead_fill hl.lh]
    exact congrArg some hin.lh
  · rename_i i rest hr
    rw [if_neg hw] at h
    cases h
    obtain ⟨hblk, -⟩ := hok.head hj hr rfl
    have hch : (Job.writeHead w .write).changed g s.log.lh = [(s.cache.buf i).blockno] := by
      rw [hblk]
      rfl
    have hd : getHead (s.cache.buf i).data = some [] :=
      data_of_changed hc hok hj (by simp [hr]) hch (hnew rfl)
    have hdisk : ∀ b, g.home b → s.cache.disk b = applyGroups base s.groups b := by
      obtain ⟨users, hc⟩ := hc
      intro b hb
      rw [hc.disk b (by simp [hin.pins])]
      exact hin.home b hb
    have hclear := RecOk.clear hd hdisk
    rw [← hblk] at hclear
    refine ⟨pins, _, logOk_bwrite (j := .writeHead w .rel) hc hl hj hio rfl rfl (hrec _ _)
      (by simp [hr]) rfl hch rfl rfl rfl rfl rfl
      ⟨[], hclear⟩ fun new => (Phase.clear_iff hw).mpr
        ⟨⟨hin.lh, hin.pins, hin.pending, fun b hb => ?_⟩, fun _ => hclear.header, by simp⟩⟩
    have e : b ≠ (s.cache.buf i).blockno := by
      rintro rfl
      exact g.not_home_start (hblk ▸ hb)
    rw [update_of_ne e]
    exact hin.home b hb
  · rename_i i rest hr
    have hnext : w.next = .endCommit ∧ w = .clear ∨ w.next = .recovered ∧ w = .recover := by
      cases w
      · exact absurd rfl hw
      · exact .inl ⟨rfl, rfl⟩
      · exact .inr ⟨rfl, rfl⟩
    have herase := hok.erase hj hr rfl
    rcases hnext with ⟨e, rfl⟩ | ⟨e, rfl⟩
    · exact inv_brelse_sys (j := .endCommit) hc hl hj hio rfl rfl rfl herase rfl
        (fun _ => ⟨hin, hrel rfl⟩) h
    · exact inv_brelse_sys (j := .recovered) hc hl hj hio rfl rfl rfl herase rfl
        (fun _ => ⟨hin, hrel rfl⟩) h
  · cases h

/-! ## `read_head` and the ends -/

theorem inv_readHead (hi : Inv g base s) (hj : (s.th t).job = .readHead k)
    (hio : (s.th t).io = .ready) (h : readHeadStep g s t k = some s') : Inv g base s' := by
  obtain ⟨pins, E, hc, hl, hok, hrv, hk⟩ := hi.at_job hj rfl
  unfold readHeadStep at h
  split at h
  · exact inv_bread_sys hi hj hio rfl h
  · rename_i i rest hr
    obtain ⟨lh, hlh, rfl⟩ := Option.map_eq_some_iff.mp h
    obtain ⟨hblk, -⟩ := hok.head hj hr rfl
    have hdata := data_of_sys (t := t) (i := i) hc hok hj (by simp [hr]) rfl
    have hdisk : s.cache.disk g.start = E g.start := by
      obtain ⟨users, hc⟩ := hc
      exact hc.disk _ (by simp [hrv.pins])
    rw [hdata, hblk, ← hdisk] at hlh
    obtain ⟨hh, hrec⟩ := hl.recover
    have hfits : LhOk g lh := by
      have := hrec.header
      rw [hlh] at this
      cases this
      exact hrec.fits
    exact inv_goto_sys (j := .readHead .rel) hc hl hj hio rfl rfl rfl hfits rfl rfl
      ⟨⟨hrv.pins, hrv.pending⟩, hlh⟩
  · rename_i i rest hr
    exact inv_brelse_sys (j := .install true 0 .log) hc hl hj hio rfl rfl rfl
      (hok.erase hj hr rfl) rfl
      (fun _ => ⟨hrv, hk, Nat.zero_le _, by simp, by rintro _ ⟨⟩, by simp⟩) h
  · cases h

theorem Installed.uncommitted {v : View} (h : Installed g v pins E C)
    (hd : getHead (v.disk g.start) = some []) : Uncommitted g v pins E := by
  refine ⟨hd, h.pins.trans h.lh.symm, fun b => ?_⟩
  rw [h.pending, h.lh]
  simp

theorem inv_leave (hc : CacheOk s.cache s.holds pins E)
    (hl : LogOk g s pins E (applyGroups base s.groups)) (hs : (s.th t).job.sys = true)
    (hch : (s.th t).job.changed g s.log.lh = [])
    (hph : Installed g s.view pins E (applyGroups base s.groups) ∧
      getHead (s.cache.disk g.start) = some []) :
    Inv g base { s.goto t .idle with log := { s.log with committing := false }, up := true } := by
  refine ⟨pins, E, hc.goto rfl rfl, ?_⟩
  have hno : ∀ t', ((s.goto t .idle).th t').job.sys = false := by
    intro t'
    unfold State.goto
    rcases eq_or_ne t' t with rfl | e
    · simp [Job.sys]
    · by_contra h
      simp only [State.setTh_th, update_of_ne e, Bool.not_eq_false] at h
      exact e (hl.unique t' t h hs)
  have hrec : ∀ t', ((s.goto t .idle).th t').job.recovering = false := by
    intro t'
    have := hno t'
    generalize ((s.goto t .idle).th t').job = j at this
    cases j <;> first | rfl | cases this
  have hdirty : (s.th t).dirty = [] := by
    have := (hl.sys t hs).dirty
    rwa [hch, List.map_eq_nil_iff] at this
  refine ⟨hl.size, hl.lh, hl.recover, ?_, ?_, ?_, ?_, by simp, by simp, ?_, ?_, ?_,
    {}, .inl ⟨hno, rfl⟩, hph.1.uncommitted hph.2⟩
  · obtain ⟨ops, hops, hcard⟩ := hl.ops
    refine ⟨ops, fun t' => ?_, hcard⟩
    rw [hops]
    unfold State.goto
    rcases eq_or_ne t' t with rfl | e
    · refine ⟨fun h => ?_, fun h => ?_⟩
      · rw [h] at hs
        cases hs
      · simp at h
    · simp [e]
  · intro t' _ h
    exact absurd h (by simp [hno])
  · intro t' h
    exact absurd h (by simp [hrec])
  · simp [hno]
  · intro t' h
    exact absurd h (by simp [hno])
  · intro t' h
    unfold State.goto at h ⊢
    rcases eq_or_ne t' t with rfl | e
    · simpa using hdirty
    · simpa [e] using hl.idle t' (by simpa [e] using h)
  · intro t' h i hi
    unfold State.goto at h hi
    rcases eq_or_ne t' t with rfl | e
    · simp at h
    · exact hl.op t' (by simpa [e] using h) i (by simpa [e] using hi)

/-! ## Runs -/

variable {a : Choice}

section

variable (hi : Inv g base s)
include hi

theorem inv_idle (hj : (s.th t).job = .idle) (hio : (s.th t).io = .ready)
    (h : idleStep s t a = some s') : Inv g base s' := by
  have hs : (s.th t).job.sys = false := by rw [hj]; rfl
  unfold idleStep at h
  split at h
  · split_ifs at h with hup
    obtain ⟨l, hl, rfl⟩ := Option.map_eq_some_iff.mp h
    exact inv_begin hi hj hup.1 hl rfl
  · split_ifs at h with hup
    exact inv_bread hi hio (.inl hup) (fun h => by simp [hs] at h) h
  · exact inv_brelse hi hio hs (by rw [hj]; exact h)
  · cases h

theorem inv_inOp (hj : (s.th t).job = .op) (hio : (s.th t).io = .ready)
    (h : inOpStep g s t a = some s') : Inv g base s' := by
  have hs : (s.th t).job.sys = false := by rw [hj]; rfl
  have hbusy : s.th t ≠ {} := by
    intro e
    rw [e] at hj
    cases hj
  unfold inOpStep at h
  split at h
  · exact inv_bread hi hio (.inr hbusy) (fun h => by simp [hs] at h) h
  · split_ifs at h with hr
    cases h
    exact inv_modify hi hj hr.1 hr.2
  · exact inv_logWrite hi hj h
  · exact inv_brelse hi hio hs (by rw [hj]; exact h)
  · split_ifs at h with hr
    split at h
    · rename_i l doCommit he
      cases h
      cases doCommit
      · exact inv_done_rest hi hj hr he
      · exact inv_done_commit hi hj hr hio he
    · cases h
  · cases h

theorem inv_endCommit (hj : (s.th t).job = .endCommit) :
    Inv g base { s.goto t .idle with log := { s.log with committing := false } } := by
  obtain ⟨pins, E, hc, hl⟩ := hi
  have hs : (s.th t).job.sys = true := by rw [hj]; rfl
  have hph := hl.phase_of_sys hs
  rw [hj] at hph
  have hup : s.up = true := by
    by_contra h
    have := hl.down (by simpa using h) t (by rw [hj]; rfl)
    rw [this] at hs
    cases hs
  have := inv_leave hc hl hs (by rw [hj]; rfl) hph
  rwa [← hup] at this

theorem inv_recovered (hj : (s.th t).job = .recovered) :
    Inv g base { s.goto t .idle with up := true } := by
  obtain ⟨pins, E, hc, hl⟩ := hi
  have hs : (s.th t).job.sys = true := by rw [hj]; rfl
  have hph := hl.phase_of_sys hs
  rw [hj] at hph
  -- the only process in the code of the log is the one that recovers
  have hcom : s.log.committing = false := by
    by_contra h
    obtain ⟨t', hs', hr⟩ := hl.committing.mp (by simpa using h)
    rw [hl.unique t' t hs' hs, hj] at hr
    cases hr
  have := inv_leave hc hl hs (by rw [hj]; rfl) hph
  rwa [← hcom] at this

theorem inv_exec (h : exec g s t a = some s') : Inv g base s' := by
  simp only [exec] at h
  split at h
  · rename_i i hio
    split_ifs at h with hfree
    cases h
    exact inv_lock hi hio hfree
  · rename_i i hio
    cases h
    exact inv_fill hi hio
  · rename_i i hio
    cases h
    exact inv_put hi hio
  · rename_i hio
    split at h
    · rename_i hj
      exact inv_idle hi hj hio h
    · rename_i hj
      exact inv_inOp hi hj hio h
    · rename_i tail k hj
      exact inv_writeLog hi hj hio h
    · rename_i w k hj
      by_cases hw : w = .commit
      · subst hw
        exact inv_writeHead_commit hi hj hio h
      · exact inv_writeHead_clear hw hi hj hio h
    · rename_i r tail k hj
      cases r
      · exact inv_install hi hj hio h
      · exact inv_install_recovering hi hj hio h
    · rename_i k hj
      exact inv_readHead hi hj hio h
    · rename_i hj
      cases h
      exact inv_endCommit hi hj
    · rename_i hj
      cases h
      exact inv_recovered hi hj

end

/-- Booting needs nothing but a disk from which the log can be recovered. -/
theorem inv_boot {disk : ℕ → Block} {groups : List (ℕ → Option Block)}
    (hr : ∃ h, RecOk g disk (applyGroups base groups) h) (t : T) :
    Inv g base (boot g disk t groups) := by
  refine ⟨[], disk, binit_ok disk ?_, ?_⟩
  · intro t'
    unfold State.holds boot
    rcases eq_or_ne t' t with rfl | e
    · simp
    · simp [e]
  · have hself : (boot g disk t groups).th t = { job := .readHead .read } := by simp [boot]
    have hother : ∀ t', t' ≠ t → (boot g disk t groups).th t' = {} := by
      intro t' e
      simp [boot, e]
    have hsys : ∀ t', ((boot g disk t groups).th t').job.sys = true → t' = t := by
      intro t' h
      by_contra e
      rw [hother t' e] at h
      cases h
    refine ⟨rfl, ⟨List.nodup_nil, by simp [boot], by simp [boot], by simp [boot]⟩, hr,
      ⟨∅, fun t' => ?_, rfl⟩, fun t' t'' h h' => (hsys t' h).trans (hsys t'' h').symm,
      fun _ _ => rfl, ?_, ?_, fun _ => rfl, ?_, ?_, ?_, ?_⟩
    · rcases eq_or_ne t' t with rfl | e
      · simp [hself]
      · simp [hother t' e]
    · refine ⟨nofun, fun ⟨t', h, h'⟩ => ?_⟩
      rw [hsys t' h, hself] at h'
      cases h'
    · intro _ t' h
      rcases eq_or_ne t' t with rfl | e
      · rw [hself] at h
        cases h
      · exact hother t' e
    · intro t' h
      rw [hsys t' h, hself]
      exact ⟨rfl, nofun, rfl⟩
    · intro t' _
      rcases eq_or_ne t' t with rfl | e
      · simp [hself]
      · simp [hother t' e]
    · intro t' h
      rcases eq_or_ne t' t with rfl | e
      · rw [hself] at h
        cases h
      · simp [hother t' e]
    · exact ⟨_, .inr ⟨t, hself, rfl⟩, ⟨rfl, fun _ => rfl⟩, rfl⟩

theorem inv_step {a : Act T} (hi : Inv g base s) (h : step g s a = some s') : Inv g base s' := by
  cases a with
  | exec t a => exact inv_exec hi h
  | crash t =>
    cases h
    obtain ⟨pins, E, -, hl⟩ := hi
    exact inv_boot hl.recover t

/-- Whatever the processes do and wherever the machine crashes, and crashes again during recovery:
the disk always holds a log from which recovery gets the effect of the committed groups, and
whenever recovery is over and no commit is in progress, the home blocks hold just that. -/
theorem crash_atomic {disk : ℕ → Block} {as : List (Act T)} (t : T)
    (hd : getHead (disk g.start) = some [])
    (h : run (step g) (boot g disk t []) as = some s) :
    (∃ lh, getHead (s.cache.disk g.start) = some lh ∧
      ∀ b, g.home b → installed g s.cache.disk lh b = applyGroups disk s.groups b) ∧
    (s.up = true → s.log.committing = false →
      ∀ b, g.home b → s.cache.disk b = applyGroups disk s.groups b) := by
  have hboot : RecOk g disk (applyGroups disk []) [] := by
    refine ⟨hd, ⟨List.nodup_nil, by simp, by simp, by simp⟩, fun b _ => ?_⟩
    simp [installed, applyGroups]
  obtain ⟨pins, E, -, hl⟩ : Inv g disk s :=
    run_induct (fun _ _ _ hi hs => inv_step hi hs) (inv_boot ⟨[], hboot⟩ t) h
  obtain ⟨lh, hrec⟩ := hl.recover
  refine ⟨⟨lh, hrec.header, hrec.install⟩, fun hup hcom b hb => ?_⟩
  have hnil : RecOk g s.cache.disk _ [] := (hl.uncommitted hup hcom).recOk hrec
  simpa [installed] using hnil.install b hb

/-- One process: recovery, an operation that fills block 40 with 7, a crash right after the commit
point, and recovery again. -/
def crashTrace : List (Act Unit) :=
  let go (n : ℕ) := List.replicate n (Act.exec () .go)
  let i : BufId := ⟨1, by decide⟩
  go 15 ++ [.exec () .begin, .exec () (.bread 40)] ++ go 2 ++
    [.exec () (.modify i fun _ => 7), .exec () (.logWrite i), .exec () (.brelse i)] ++ go 1 ++
    [.exec () .done] ++ go 18 ++ [.crash ()] ++ go 27

theorem crash_atomic_trace :
    ∃ s, run (step ⟨2, 30, by decide⟩) (boot ⟨2, 30, by decide⟩ (fun _ _ => 0) () []) crashTrace =
        some s ∧ s.groups.length = 1 ∧ s.cache.disk 40 0 = 7 ∧
      ∀ b, Geom.home ⟨2, 30, by decide⟩ b →
        s.cache.disk b = applyGroups (fun _ _ => 0) s.groups b :=
  (exists_of_any (p := fun s => s.up = true ∧ s.log.committing = false ∧ s.groups.length = 1 ∧
    s.cache.disk 40 0 = 7) (by decide +kernel)).imp fun _ ⟨hs, hup, hc, h1, h2⟩ =>
      ⟨hs, h1, h2, (crash_atomic () (by decide +kernel) hs).2 hup hc⟩

/-- While a group is committed, no operation is in progress and one process commits. -/
theorem commit_alone {disk : ℕ → Block} {as : List (Act T)} (t : T)
    (hr : ∃ h, RecOk g disk (applyGroups base []) h)
    (h : run (step g) (boot g disk t []) as = some s) (hc : s.log.committing = true) :
    (∀ u, (s.th u).job ≠ .op) ∧ ∃! u, (s.th u).job.sys = true := by
  obtain ⟨pins, E, -, hl⟩ : Inv g base s :=
    run_induct (fun _ _ _ hi hs => inv_step hi hs) (inv_boot hr t) h
  obtain ⟨ops, hops, hcard⟩ := hl.ops
  rw [hl.alone hc, eq_comm, Finset.card_eq_zero] at hcard
  obtain ⟨u, hu, -⟩ := hl.committing.mp hc
  refine ⟨fun v hv => ?_, u, hu, fun v hv => hl.unique v u hv hu⟩
  simpa [hcard] using (hops v).mpr hv

/-- Two processes are in one group: the first fills block 40 with 7, and the second ends last. -/
def groupTrace : List (Act Bool) :=
  let go (n : ℕ) := List.replicate n (Act.exec false .go)
  let i : BufId := ⟨1, by decide⟩
  [go 15, [.exec false .begin, .exec false (.bread 40)], go 2,
    [.exec true .begin, .exec false (.modify i fun _ => 7), .exec false (.logWrite i),
      .exec false (.brelse i)], go 1, [.exec false .done, .exec true .done]].flatten

theorem commit_alone_group : ∃ s : State Bool,
    run (step ⟨2, 30, by decide⟩) (boot ⟨2, 30, by decide⟩ (fun _ _ => 0) false []) groupTrace =
      some s ∧ s.log.lh = [40] ∧ (s.th true).job.sys = true ∧
      (∀ u, (s.th u).job ≠ .op) ∧ ∃! u, (s.th u).job.sys = true :=
  (exists_of_any (p := fun s => s.log.committing = true ∧ s.log.lh = [40] ∧
    (s.th true).job.sys = true) (by decide +kernel)).imp fun _ ⟨hs, hc, h1, h2⟩ =>
      ⟨hs, h1, h2, commit_alone false ⟨[], by decide +kernel,
        ⟨List.nodup_nil, by simp, by simp, by simp⟩, fun _ _ => rfl⟩ hs hc⟩

end TatakOS.Logging
