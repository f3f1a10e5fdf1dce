import NetLabs.FileCopy.Isolation

/-! # All threads together

When the destinations are different files and none of them is a source, every thread is alone
with its files. -/

namespace NetLabs.FileCopy

open Machine

variable {Name : Type*} {n : ℕ} {jobs : Fin n → Job Name} {files₀ : Files Name}
  {p q : Process Name n} {i : Fin n}

theorem Private.of_distinct (hdst : Function.Injective fun i => (jobs i).dst)
    (hsrc : ∀ i j, (jobs i).dst ≠ (jobs j).src) (i : Fin n) : Private jobs i :=
  ⟨hsrc i i, fun j _ => hsrc j i, fun _ hj heq => hj (hdst heq)⟩

theorem AllWhole.ownWhole {a : ProcessAction n} (h : AllWhole p a) : OwnWhole i p a := by
  cases a with
  | copy j outcome => exact fun _ => h
  | main | params => trivial

/-! ## What main knows of the threads -/

/-- `main` is past a thread's creation only when it exists, and past its join only when it
has ended. -/
def Joined (p : Process Name n) : Prop :=
  match p.main with
  | .create i => ∀ j : Fin n, (j : ℕ) < i → p.threads j ≠ .absent
  | .join i => (∀ j, p.threads j ≠ .absent) ∧ ∀ j : Fin n, (j : ℕ) < i → p.threads j = .ended
  | .past => ∀ j, p.threads j = .ended

/-- Threads that have been created or have ended stay so. -/
theorem Joined.congr (h : Joined p) (hmain : q.main = p.main)
    (hpresent : ∀ j, p.threads j ≠ .absent → q.threads j ≠ .absent)
    (hended : ∀ j, p.threads j = .ended → q.threads j = .ended) : Joined q := by
  unfold Joined at h ⊢
  rw [hmain]
  cases hcase : p.main with
  | create i =>
      simp only [hcase] at h
      exact fun j hj => hpresent j (h j hj)
  | join i =>
      simp only [hcase] at h
      exact ⟨fun j => hpresent j (h.1 j), fun j hj => hended j (h.2 j hj)⟩
  | past =>
      simp only [hcase] at h
      exact fun j => hended j (h j)

theorem Joined.setThread (h : Joined p) (hmain : q.main = p.main) {i : Fin n}
    {thread : Thread Name} (hi : p.threads i ≠ .ended) (hthread : thread ≠ .absent)
    (hthreads : q.threads = Function.update p.threads i thread) : Joined q := by
  refine h.congr hmain (fun j hj => ?_) (fun j hj => ?_) <;> rw [hthreads]
  · by_cases heq : j = i
    · subst heq
      rwa [Function.update_self]
    · rwa [Function.update_of_ne heq]
  · have hne : j ≠ i := by
      rintro rfl
      exact hi hj
    rwa [Function.update_of_ne hne]

theorem Joined.mainStep (h : Joined p) (hstep : p.mainStep jobs = some q) : Joined q := by
  unfold Process.mainStep at hstep
  unfold Joined at h
  split at hstep
  case h_1 k hcreate =>
      simp only [hcreate] at h
      split at hstep <;> obtain rfl := Option.some.inj hstep
      case isTrue hk =>
          intro j hj
          by_cases heq : j = ⟨k, hk⟩
          · simp [heq]
          · have hne : (j : ℕ) ≠ k := fun hval => heq (Fin.ext hval)
            dsimp only
            rw [Function.update_of_ne heq]
            exact h j (by omega)
      case isFalse hk =>
          exact ⟨fun j => h j (by have := j.isLt; omega),
            fun j hj => absurd hj (Nat.not_lt_zero _)⟩
  case h_2 k hjoin =>
      simp only [hjoin] at h
      obtain ⟨hpresent, hjoined⟩ := h
      split at hstep
      case isTrue hk =>
          split at hstep
          case h_1 hended =>
              obtain rfl := Option.some.inj hstep
              refine ⟨hpresent, fun j hj => ?_⟩
              by_cases heq : j = ⟨k, hk⟩
              · exact heq ▸ hended
              · have hne : (j : ℕ) ≠ k := fun hval => heq (Fin.ext hval)
                exact hjoined j (by omega)
          case h_2 => simp at hstep
      case isFalse hk =>
          obtain rfl := Option.some.inj hstep
          exact fun j => hjoined j (by have := j.isLt; omega)
  case h_3 => simp at hstep

/-- A bound on the turns of its loops that `main` still has to make. -/
def MainStage.left (n : ℕ) : MainStage → ℕ
  | .create i => (n - i) + n + 2
  | .join i => (n - i) + 1
  | .past => 0

/-- `main` goes on unless it waits for a thread. -/
theorem Process.exists_mainStep (jobs : Fin n → Job Name) (hpast : p.main ≠ .past)
    (hawaited : ∀ k (hk : k < n), p.main = .join k → p.threads ⟨k, hk⟩ = .ended) :
    ∃ q, p.mainStep jobs = some q ∧ q.main.left n < p.main.left n := by
  cases hmain : p.main with
  | create k =>
      by_cases hk : k < n <;> refine ⟨_, by simp [Process.mainStep, hmain, hk]; rfl, ?_⟩ <;>
        simp only [MainStage.left] <;> omega
  | join k =>
      by_cases hk : k < n
      · have hended := hawaited k hk hmain
        refine ⟨{ p with main := .join (k + 1) }, by simp [Process.mainStep, hmain, hk, hended], ?_⟩
        simp only [MainStage.left]
        omega
      · refine ⟨{ p with main := .past }, by simp [Process.mainStep, hmain, hk], ?_⟩
        simp [MainStage.left]
  | past => exact absurd hmain hpast

variable [DecidableEq Name]

theorem Joined.step (h : Joined p) (hwired : Wired jobs p) {a : ProcessAction n}
    (hstep : p.step jobs a = some q) : Joined q := by
  cases a with
  | main => exact h.mainStep hstep
  | params j =>
      obtain ⟨_, _, hmain, hcreated, hthreads⟩ := hwired.paramsStep hstep
      exact h.setThread hmain (by simp [hcreated]) (by simp) hthreads
  | copy j outcome =>
      obtain ⟨c, files, c', hcopying, _, _, _, _, hmain, hthreads, _⟩ := hwired.copyStep hstep
      exact h.setThread hmain (by simp [hcopying]) (by split <;> simp) hthreads

theorem joined_of_run {ok : Process Name n → ProcessAction n → Prop}
    {es : List (ProcessAction n)} (h : Run (Process.step jobs) ok (.start files₀) es p) :
    Joined p := by
  refine (h.invariant (P := fun p => Wired jobs p ∧ Joined p) ?_
    ⟨.start jobs files₀, fun j hj => absurd hj (Nat.not_lt_zero _)⟩).2
  rintro p a q ⟨hwired, hjoined⟩ _ hstep
  exact ⟨hwired.step hstep, hjoined.step hwired hstep⟩

/-- A call of a thread changes its own destination only. -/
theorem untouched_of_run {ok : Process Name n → ProcessAction n → Prop}
    {es : List (ProcessAction n)} (h : Run (Process.step jobs) ok (.start files₀) es p)
    {name : Name} (hname : ∀ i, name ≠ (jobs i).dst) : p.files name = files₀ name := by
  refine (h.invariant (P := fun p => Wired jobs p ∧ p.files name = files₀ name) ?_
    ⟨.start jobs files₀, rfl⟩).2
  rintro p a q ⟨hwired, hsame⟩ _ hstep
  refine ⟨hwired.step hstep, ?_⟩
  cases a with
  | main =>
      obtain ⟨_, hfiles, _⟩ := hwired.mainStep hstep
      rw [hfiles, hsame]
  | params j =>
      obtain ⟨_, hfiles, _⟩ := hwired.paramsStep hstep
      rw [hfiles, hsame]
  | copy j outcome =>
      obtain ⟨c, files, c', _, _, hd, hcopied, rfl, _⟩ := hwired.copyStep hstep
      exact (hcopied.frame.2.2 name (hd ▸ hname j)).trans hsame

/-! ## Copies that do not interfere -/

/-- When all threads have been joined, each destination holds the bytes of its source, and
no other file has changed. -/
theorem parallel_copies (jobs : Fin n → Job Name) (files₀ : Files Name)
    (hdst : Function.Injective fun i => (jobs i).dst)
    (hsrc : ∀ i j, (jobs i).dst ≠ (jobs j).src) (es : List (ProcessAction n))
    (p : Process Name n) (h : Run (Process.step jobs) AllWhole (.start files₀) es p)
    (hpast : p.main = .past) :
    (∀ i, ∃ content, files₀ (jobs i).src = some content ∧
      p.files (jobs i).dst = some content) ∧
    ∀ name, (∀ i, name ≠ (jobs i).dst) → p.files name = files₀ name := by
  refine ⟨fun i => ?_, fun name hname => untouched_of_run h hname⟩
  have hjoined := joined_of_run h
  simp only [Joined, hpast] at hjoined
  have hexact := exact_of_run (.of_distinct hdst hsrc i) (h.mono fun _ _ ha => ha.ownWhole)
  simpa only [Exact, hjoined i] using hexact

/-- Two threads take turns. The first destination was longer than its source, the second did
not exist. -/
theorem parallel_copies_inTurn :
    ∃ (es : List (ProcessAction 2)) (p : Process (Fin 5) 2),
      Run (Process.step ![⟨0, 1⟩, ⟨2, 3⟩]) AllWhole
        (.start ![some [1, 2, 3], some [5, 5, 5, 5], some [9], none, some [4]]) es p ∧
      p.main = .past ∧
      p.files 1 = some [1, 2, 3] ∧ p.files 3 = some [9] ∧ p.files 4 = some [4] := by
  let jobs : Fin 2 → Job (Fin 5) := ![⟨0, 1⟩, ⟨2, 3⟩]
  let es : List (ProcessAction 2) :=
    [.main, .params 0, .copy 0 (.opened true), .main, .copy 0 (.opened true), .params 1,
      .copy 0 (.read 2), .copy 1 (.opened true), .copy 1 (.opened true), .copy 1 (.read 1),
      .copy 0 (.wrote 2), .copy 1 (.wrote 1), .main, .copy 0 (.read 1), .copy 1 (.read 0),
      .copy 1 (.flushed 1), .copy 0 (.flushed 2), .copy 1 .closed, .copy 0 (.wrote 1),
      .copy 0 (.read 0), .copy 0 (.flushed 1), .copy 0 .closed, .main, .main, .main]
  obtain ⟨p, hrun, hpast⟩ : ∃ p, Run (Process.step jobs) AllWhole
      (.start ![some [1, 2, 3], some [5, 5, 5, 5], some [9], none, some [4]]) es p ∧
        p.main = .past :=
    Run.exists_of_guarded (by decide +kernel)
  obtain ⟨hcopies, hothers⟩ := parallel_copies jobs _ (by decide) (by decide) es p hrun hpast
  obtain ⟨content, hsrc, hdst⟩ := hcopies 0
  obtain ⟨content', hsrc', hdst'⟩ := hcopies 1
  exact ⟨es, p, hrun, hpast, hdst.trans hsrc.symm, hdst'.trans hsrc'.symm,
    hothers 4 (by decide)⟩

/-! ## Runs that are joined -/

/-- `fclose` can write all that is pending. -/
theorem exists_return_of_close (files : Files Name) {c : Copy Name} (hstage : c.stage = .close) :
    ∃ es t, Run funcCopy Whole (files, c) es t ∧ t.2.stage = .returned := by
  by_cases hpending : c.pending = []
  · refine ⟨[.closed], (files, { c with stage := .returned, pending := [] }),
      .single hpending ?_, rfl⟩
    simp [funcCopy, copyStep, hstage]
  · have hlength := List.length_pos_iff.mpr hpending
    refine ⟨[.flushed c.pending.length, .closed], ((c.flush files c.pending.length).1,
      { (c.flush files c.pending.length).2 with stage := .returned, pending := [] }),
      .cons (t := c.flush files c.pending.length) trivial ?_ (.single ?_ ?_), rfl⟩
    · simp [funcCopy, copyStep, hstage, Stage.dstOpen, hlength]
    · simp [Whole, Copy.flush]
    · simp [funcCopy, copyStep, Copy.flush, hstage]

/-- `fwrite` can take all that was read. -/
theorem funcCopy_wrote (files : Files Name) {c : Copy Name} {buf : List UInt8}
    (hstage : c.stage = .write buf) :
    Whole (files, c) (.wrote buf.length) ∧
      funcCopy (files, c) (.wrote buf.length) = some (files, c.accept buf) := by
  have hneg : ¬ (buf.length : ℤ) < 0 := by omega
  simp [Whole, funcCopy, copyStep, hstage, Interface.MayWrite, Copy.put, hneg]

/-- From inside its loop a copy can go on until it returns, one byte at a time. -/
theorem exists_return_of_read (files : Files Name) {c : Copy Name} (hstage : c.stage = .read) :
    ∃ es t, Run funcCopy Whole (files, c) es t ∧ t.2.stage = .returned := by
  induction hleft : (c.rest files).length using Nat.strong_induction_on generalizing c with
  | _ left ih =>
      by_cases hend : c.rest files = []
      · obtain ⟨es, t, hrun, ht⟩ := exists_return_of_close files (c := { c with stage := .close })
          rfl
        refine ⟨.read 0 :: es, t, .cons (.inr hend) ?_ hrun, ht⟩
        simp [funcCopy, copyStep, hstage, Interface.MayRead, hend]
      · have hpos := List.length_pos_iff.mpr hend
        let filled : Copy Name := { c with
          stage := .write ((c.rest files).take 1)
          rpos := c.rpos + 1 }
        have hread : funcCopy (files, c) (.read 1) = some (files, filled) := by
          have hone : (1 : ℤ) ≤ (c.rest files).length := by exact_mod_cast hpos
          simp [funcCopy, copyStep, hstage, Interface.MayRead, BUF_SIZE, hone, filled]
        obtain ⟨hwhole, hwrote⟩ := funcCopy_wrote files (c := filled) rfl
        have hrest : ((filled.accept ((c.rest files).take 1)).rest files).length < left := by
          simp only [filled, Copy.rest, Copy.source, Copy.accept, List.length_drop] at hleft hpos ⊢
          omega
        obtain ⟨es, t, hrun, ht⟩ := ih _ hrest rfl rfl
        exact ⟨.read 1 :: _, t, .cons (.inl one_pos) hread (.cons hwhole hwrote hrun), ht⟩

theorem exists_return (files : Files Name) {c : Copy Name} (hexist : files c.src ≠ none)
    (hexited : c.stage ≠ .exited) (hreturned : c.stage ≠ .returned) :
    ∃ es t, Run funcCopy Whole (files, c) es t ∧ t.2.stage = .returned := by
  have hopenDst : ∀ c : Copy Name, c.stage = .openDst →
      ∃ es t, Run funcCopy Whole (files, c) es t ∧ t.2.stage = .returned := by
    intro c hstage
    obtain ⟨es, t, hrun, ht⟩ := exists_return_of_read
      (Function.update files c.dst (some [])) (c := { c with stage := .read }) rfl
    refine ⟨.opened true :: es, t, .cons rfl ?_ hrun, ht⟩
    simp [funcCopy, copyStep, hstage]
  cases hcase : c.stage with
  | openSrc =>
      obtain ⟨es, t, hrun, ht⟩ := hopenDst { c with stage := .openDst } rfl
      refine ⟨.opened true :: es, t, .cons rfl ?_ hrun, ht⟩
      simp [funcCopy, copyStep, hcase, hexist]
  | openDst => exact hopenDst c hcase
  | read => exact exists_return_of_read files hcase
  | write buf =>
      obtain ⟨hwhole, hwrote⟩ := funcCopy_wrote files hcase
      obtain ⟨es, t, hrun, ht⟩ := exists_return_of_read files (c := c.accept buf) rfl
      exact ⟨_, t, .cons hwhole hwrote hrun, ht⟩
  | close => exact exists_return_of_close files hcase
  | returned => exact absurd hcase hreturned
  | exited => exact absurd hcase hexited

/-- The calls of one thread, as steps of the program. -/
theorem Process.run_of_copy (jobs : Fin n → Job Name) {c : Copy Name}
    (hcopying : p.threads i = .copying c) (hstage : c.stage ≠ .returned) {es : List Outcome}
    {t : Files Name × Copy Name} (h : Run funcCopy Whole (p.files, c) es t) :
    ∃ q, Run (Process.step jobs) AllWhole p (es.map (.copy i)) q ∧ q.main = p.main ∧
      q.files = t.1 ∧ q.threads i = if t.2.stage = .returned then .ended else .copying t.2 := by
  induction h with
  | nil => exact ⟨p, .nil, rfl, rfl, by rw [if_neg hstage, hcopying]⟩
  | @snoc es t outcome u _ hwhole hstep ih =>
      obtain ⟨q, hrun, hmain, hfiles, hthread⟩ := ih
      have hrunning : t.2.stage ≠ .returned := by
        intro hreturned
        cases copied_of_copyStep hstep <;> simp_all [Stage.dstOpen]
      rw [if_neg hrunning] at hthread
      refine ⟨{ q with
        files := u.1
        threads := Function.update q.threads i
          (if u.2.stage = .returned then .ended else .copying u.2) }, ?_, hmain, rfl,
        Function.update_self ..⟩
      rw [List.map_append]
      refine hrun.snoc ?_ ?_
      · simpa only [AllWhole, hthread, hfiles] using hwhole
      · simp [Process.step, hthread, hfiles, hstep]

/-- A thread that exists can go on until it ends. -/
theorem exists_ended (hwired : Wired jobs p) (hexact : Exact jobs files₀ i p)
    (hpresent : p.threads i ≠ .absent) (hexist : p.files (jobs i).src ≠ none) :
    ∃ es q, Run (Process.step jobs) AllWhole p es q ∧ q.main = p.main ∧
      q.threads i = .ended := by
  have hcopy : ∀ (p : Process Name n) (c : Copy Name), p.threads i = .copying c →
      p.files c.src ≠ none → c.stage ≠ .exited → c.stage ≠ .returned →
      ∃ es q, Run (Process.step jobs) AllWhole p es q ∧ q.main = p.main ∧
        q.threads i = .ended := by
    intro p c hcopying hsrc hexited hreturned
    obtain ⟨es, t, hrun, ht⟩ := exists_return p.files hsrc hexited hreturned
    obtain ⟨q, hq, hmain, _, hthread⟩ := Process.run_of_copy jobs hcopying hreturned hrun
    exact ⟨_, q, hq, hmain, by rw [hthread, if_pos ht]⟩
  have hnamed := hwired.named i
  cases hcase : p.threads i with
  | absent => exact absurd hcase hpresent
  | created =>
      simp only [ThreadNamed, hcase] at hnamed
      obtain ⟨id, hparams⟩ := hnamed
      let next : Process Name n := { p with
        threads := Function.update p.threads i (.copying (.start (jobs i).src (jobs i).dst)) }
      obtain ⟨es, q, hrun, hmain, hended⟩ := hcopy next (.start (jobs i).src (jobs i).dst)
        (Function.update_self ..) hexist (by simp [Copy.start]) (by simp [Copy.start])
      refine ⟨.params i :: es, q, .cons trivial ?_ hrun, hmain, hended⟩
      simp [Process.step, hcase, hparams, next]
  | copying c =>
      simp only [ThreadNamed, hcase] at hnamed
      simp only [Exact, hcase] at hexact
      refine hcopy p c hcase (hnamed.1 ▸ hexist) ?_ hnamed.2.2
      intro hexited
      simp [CaughtUp, hexited] at hexact
  | ended => exact ⟨[], p, .nil, rfl, hcase⟩

/-- Whatever the threads have done, if the sources exist, a run can go on until `main` has
joined all threads. -/
theorem exists_joined (jobs : Fin n → Job Name) (files₀ : Files Name)
    (hdst : Function.Injective fun i => (jobs i).dst)
    (hsrc : ∀ i j, (jobs i).dst ≠ (jobs j).src) (hexist : ∀ i, files₀ (jobs i).src ≠ none)
    (es : List (ProcessAction n)) (p : Process Name n)
    (h : Run (Process.step jobs) AllWhole (.start files₀) es p) :
    ∃ fs q, Run (Process.step jobs) AllWhole p fs q ∧ q.main = .past := by
  induction hleft : p.main.left n using Nat.strong_induction_on generalizing es p with
  | _ left ih =>
      by_cases hpast : p.main = .past
      · exact ⟨[], p, .nil, hpast⟩
      -- the thread that `main` waits for, if any, goes on until it ends
      obtain ⟨gs, q, hgs, hmain, hawaited⟩ : ∃ gs q, Run (Process.step jobs) AllWhole p gs q ∧
          q.main = p.main ∧
          ∀ k (hk : k < n), q.main = .join k → q.threads ⟨k, hk⟩ = .ended := by
        by_cases hjoin : ∃ k, k < n ∧ p.main = .join k
        · obtain ⟨k, hk, hjoin⟩ := hjoin
          have hjoined := joined_of_run h
          simp only [Joined, hjoin] at hjoined
          have hprivate : Private jobs ⟨k, hk⟩ := .of_distinct hdst hsrc _
          have hexact := exact_of_run hprivate (h.mono fun _ _ ha => ha.ownWhole)
          obtain ⟨hwired, hapart⟩ := apart_of_run hprivate h
          obtain ⟨gs, q, hgs, hmain, hended⟩ := exists_ended hwired hexact (hjoined.1 _)
            (hapart.1 ▸ hexist _)
          refine ⟨gs, q, hgs, hmain, fun k' hk' hjoin' => ?_⟩
          obtain rfl := MainStage.join.inj (hjoin.symm.trans (hmain.symm.trans hjoin'))
          exact hended
        · exact ⟨[], p, .nil, rfl, fun k hk heq => (hjoin ⟨k, hk, heq⟩).elim⟩
      obtain ⟨r, hstep, hlt⟩ := Process.exists_mainStep jobs (hmain ▸ hpast) hawaited
      rw [hmain, hleft] at hlt
      have hturn : Run (Process.step jobs) AllWhole p (gs ++ [.main]) r := hgs.snoc trivial hstep
      obtain ⟨fs, u, hfs, hend⟩ := ih _ hlt _ r (h.trans hturn) rfl
      exact ⟨_, u, hturn.trans hfs, hend⟩

end NetLabs.FileCopy
