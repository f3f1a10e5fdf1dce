import NetLabs.FileCopy.Threads

/-! # One thread among others

A thread whose files the others leave alone does not notice what becomes of these, whatever
their calls and its own return. -/

namespace NetLabs.FileCopy

open Machine

variable {Name : Type*} {n : ℕ} {jobs : Fin n → Job Name} {files₀ : Files Name}
  {p q : Process Name n} {i : Fin n}

/-- Nobody else writes to the files of thread `i`, and it does not copy a file onto itself. -/
structure Private (jobs : Fin n → Job Name) (i : Fin n) : Prop where
  self : (jobs i).dst ≠ (jobs i).src
  src : ∀ j, j ≠ i → (jobs j).dst ≠ (jobs i).src
  dst : ∀ j, j ≠ i → (jobs j).dst ≠ (jobs i).dst

/-- What thread `i` has done to its files, whatever its calls and those of others return. -/
def Apart (jobs : Fin n → Job Name) (files₀ : Files Name) (i : Fin n)
    (p : Process Name n) : Prop :=
  p.files (jobs i).src = files₀ (jobs i).src ∧
  match p.threads i with
  | .absent | .created => p.files (jobs i).dst = files₀ (jobs i).dst
  | .copying c => Fragment files₀ p.files c
  | .ended => ∃ written, p.files (jobs i).dst = some written ∧
      written.Sublist ((files₀ (jobs i).src).getD [])

/-- Thread `i` has left nothing out. -/
def Exact (jobs : Fin n → Job Name) (files₀ : Files Name) (i : Fin n)
    (p : Process Name n) : Prop :=
  match p.threads i with
  | .absent | .created => True
  | .copying c => CaughtUp files₀ p.files c
  | .ended => ∃ content, files₀ (jobs i).src = some content ∧
      p.files (jobs i).dst = some content

theorem Apart.congr (h : Apart jobs files₀ i p) (hwired : Wired jobs p)
    (hthread : q.threads i = p.threads i)
    (hsrc : q.files (jobs i).src = p.files (jobs i).src)
    (hdst : q.files (jobs i).dst = p.files (jobs i).dst) : Apart jobs files₀ i q := by
  obtain ⟨hsource, hown⟩ := h
  have hnamed := hwired.named i
  refine ⟨hsrc.trans hsource, ?_⟩
  rw [hthread, hdst]
  unfold ThreadNamed at hnamed
  cases hcase : p.threads i with
  | absent | created | ended =>
      simp only [hcase] at hown
      exact hown
  | copying c =>
      simp only [hcase] at hown hnamed
      exact hown.congr (hnamed.1 ▸ hsrc) (hnamed.2.1 ▸ hdst)

theorem Exact.congr (h : Exact jobs files₀ i p) (hwired : Wired jobs p)
    (hthread : q.threads i = p.threads i)
    (hdst : q.files (jobs i).dst = p.files (jobs i).dst) : Exact jobs files₀ i q := by
  have hnamed := hwired.named i
  unfold Exact at h ⊢
  unfold ThreadNamed at hnamed
  rw [hthread, hdst]
  cases hcase : p.threads i with
  | absent | created | ended =>
      simp only [hcase] at h
      exact h
  | copying c =>
      simp only [hcase] at h hnamed
      exact h.congr (hnamed.2.1 ▸ hdst)

variable [DecidableEq Name]

/-- What a step does to the files and the state of thread `i`: nothing; or the thread is
created or begins its copy, with the files as they are; or it makes a call of its own. -/
inductive Process.NextOf (jobs : Fin n → Job Name) (i : Fin n) (p q : Process Name n) :
    ProcessAction n → Prop
  | other (a : ProcessAction n) (thread : q.threads i = p.threads i)
      (src : q.files (jobs i).src = p.files (jobs i).src)
      (dst : q.files (jobs i).dst = p.files (jobs i).dst) : Process.NextOf jobs i p q a
  | create (absent : p.threads i = .absent) (created : q.threads i = .created)
      (files : q.files = p.files) : Process.NextOf jobs i p q .main
  | start (created : p.threads i = .created) (files : q.files = p.files)
      (copying : q.threads i = .copying (.start (jobs i).src (jobs i).dst)) :
      Process.NextOf jobs i p q (.params i)
  | call (c c' : Copy Name) (outcome : Outcome) (copying : p.threads i = .copying c)
      (src : c.src = (jobs i).src) (dst : c.dst = (jobs i).dst)
      (copied : Copied p.files c outcome (q.files, c'))
      (thread : q.threads i = if c'.stage = .returned then .ended else .copying c') :
      Process.NextOf jobs i p q (.copy i outcome)

theorem Wired.next (hwired : Wired jobs p) (hprivate : Private jobs i) {a : ProcessAction n}
    (hstep : p.step jobs a = some q) : Process.NextOf jobs i p q a := by
  cases a with
  | main =>
      obtain ⟨_, hfiles, hthread⟩ := hwired.mainStep hstep
      rcases hthread i with ⟨hthread, _⟩ | ⟨habsent, hcreated⟩
      · exact .other _ hthread (congrFun hfiles _) (congrFun hfiles _)
      · exact .create habsent hcreated hfiles
  | params j =>
      obtain ⟨_, hfiles, _, hcreated, hthreads⟩ := hwired.paramsStep hstep
      by_cases hj : j = i
      · subst hj
        exact .start hcreated hfiles (by rw [hthreads, Function.update_self])
      · refine .other _ ?_ (congrFun hfiles _) (congrFun hfiles _)
        rw [hthreads, Function.update_of_ne (Ne.symm hj)]
  | copy j outcome =>
      obtain ⟨c, files, c', hcopying, hs, hd, hcopied, rfl, _, hthreads, _⟩ :=
        hwired.copyStep hstep
      obtain ⟨_, _, hframe⟩ := hcopied.frame
      by_cases hj : j = i
      · subst hj
        exact .call c c' outcome hcopying hs hd hcopied (by rw [hthreads, Function.update_self])
      · refine .other _ ?_ (hframe _ ?_) (hframe _ ?_)
        · rw [hthreads, Function.update_of_ne (Ne.symm hj)]
        · exact hd ▸ (hprivate.src j hj).symm
        · exact hd ▸ (hprivate.dst j hj).symm

theorem Apart.step (h : Apart jobs files₀ i p) (hwired : Wired jobs p)
    (hprivate : Private jobs i) {a : ProcessAction n} (hstep : p.step jobs a = some q) :
    Apart jobs files₀ i q := by
  cases hwired.next hprivate hstep with
  | other _ hthread hsrc hdst => exact h.congr hwired hthread hsrc hdst
  | create habsent hcreated hfiles =>
      obtain ⟨hsource, hown⟩ := h
      simp only [habsent] at hown
      refine ⟨hfiles ▸ hsource, ?_⟩
      rw [hcreated, hfiles]
      exact hown
  | start hcreated hfiles hcopying =>
      obtain ⟨hsource, hown⟩ := h
      simp only [hcreated] at hown
      refine ⟨hfiles ▸ hsource, ?_⟩
      rw [hcopying, hfiles]
      exact ⟨hsource, .inl rfl, rfl, rfl, rfl, hown⟩
  | call c c' outcome hcopying hs hd hcopied hthread =>
      obtain ⟨_, hown⟩ := h
      simp only [hcopying] at hown
      have hfragment := hown.step (.inl (hs ▸ hd ▸ hprivate.self)) hcopied
      obtain ⟨hs', hd', _⟩ := hcopied.frame
      dsimp only at hs' hd' hfragment
      have hsource := hfragment.src
      rw [hs', hs] at hsource
      refine ⟨hsource, ?_⟩
      rw [hthread]
      by_cases hreturned : c'.stage = .returned
      · have hwritten := hfragment.dst_eq hreturned
        have hsub := hfragment.dst
        simp only [hreturned] at hsub
        rw [hd', hd] at hwritten
        rw [if_pos hreturned]
        refine ⟨_, hwritten, hsub.1.2.trans ?_⟩
        rw [Copy.source, hs', hs]
        exact List.take_sublist _ _
      · rw [if_neg hreturned]
        exact hfragment

/-- Whether a copy is exact depends on the thread's own calls only. -/
theorem Exact.step (h : Exact jobs files₀ i p) (hapart : Apart jobs files₀ i p)
    (hwired : Wired jobs p) (hprivate : Private jobs i) {a : ProcessAction n}
    (hwhole : OwnWhole i p a) (hstep : p.step jobs a = some q) : Exact jobs files₀ i q := by
  cases hwired.next hprivate hstep with
  | other _ hthread _ hdst => exact h.congr hwired hthread hdst
  | create _ hcreated => simp [Exact, hcreated]
  | start _ _ hcopying => simp [Exact, hcopying, CaughtUp, Copy.start]
  | call c c' outcome hcopying hs hd hcopied hthread =>
      have hwhole : Whole (p.files, c) outcome := by
        have hall := hwhole rfl
        simpa only [AllWhole, hcopying] using hall
      obtain ⟨_, hown⟩ := hapart
      simp only [hcopying] at hown
      simp only [Exact, hcopying] at h
      have hcaught := (hown.caughtUp_iff hcopied).mpr ⟨h, hwhole⟩
      have hfragment := hown.step (.inl (hs ▸ hd ▸ hprivate.self)) hcopied
      obtain ⟨hs', hd', _⟩ := hcopied.frame
      dsimp only at hs' hd' hcaught hfragment
      simp only [Exact, hthread]
      by_cases hreturned : c'.stage = .returned
      · rw [if_pos hreturned]
        have hcopy := hcaught.copied hfragment hreturned
        rwa [hs', hs, hd', hd] at hcopy
      · rw [if_neg hreturned]
        exact hcaught

theorem apart_of_run (hprivate : Private jobs i) {ok : Process Name n → ProcessAction n → Prop}
    {es : List (ProcessAction n)} (h : Run (Process.step jobs) ok (.start files₀) es p) :
    Wired jobs p ∧ Apart jobs files₀ i p :=
  h.invariant (P := fun p => Wired jobs p ∧ Apart jobs files₀ i p)
    (fun _ _ _ hp _ hstep => ⟨hp.1.step hstep, hp.2.step hp.1 hprivate hstep⟩)
    ⟨.start jobs files₀, rfl, rfl⟩

theorem exact_of_run (hprivate : Private jobs i) {es : List (ProcessAction n)}
    (h : Run (Process.step jobs) (OwnWhole i) (.start files₀) es p) :
    Exact jobs files₀ i p := by
  refine (h.invariant
    (P := fun p => Wired jobs p ∧ Apart jobs files₀ i p ∧ Exact jobs files₀ i p) ?_
    ⟨.start jobs files₀, ⟨rfl, rfl⟩, trivial⟩).2.2
  rintro p a q ⟨hwired, hapart, hexact⟩ hwhole hstep
  exact ⟨hwired.step hstep, hapart.step hwired hprivate hstep,
    hexact.step hapart hwired hprivate hwhole hstep⟩

/-- A thread that copies a file to another, neither of which anybody else writes to, among any
number of others whose copies may fail, collide or erase each other. Its source stays as it
was, its destination is at any moment the old file or a part of the source, and it is an exact
copy when the thread ends if the thread's own calls did all they could and its stream lost
nothing, in `fclose` included. -/
theorem thread_isolated (jobs : Fin n → Job Name) (files₀ : Files Name) (i : Fin n)
    (hprivate : Private jobs i) (es : List (ProcessAction n)) (p : Process Name n)
    (h : Run (Process.step jobs) (fun _ _ => True) (.start files₀) es p) :
    p.files (jobs i).src = files₀ (jobs i).src ∧
    (p.files (jobs i).dst = files₀ (jobs i).dst ∨ ∃ written,
      p.files (jobs i).dst = some written ∧
        written.Sublist ((files₀ (jobs i).src).getD [])) ∧
    (Run (Process.step jobs) (OwnWhole i) (.start files₀) es p → p.threads i = .ended →
      ∃ content, files₀ (jobs i).src = some content ∧ p.files (jobs i).dst = some content) := by
  obtain ⟨hwired, hapart⟩ := apart_of_run hprivate h
  refine ⟨hapart.1, ?_, ?_⟩
  · obtain ⟨_, hown⟩ := hapart
    have hnamed := hwired.named i
    unfold ThreadNamed at hnamed
    cases hcase : p.threads i with
    | absent | created =>
        simp only [hcase] at hown
        exact .inl hown
    | copying c =>
        simp only [hcase] at hown hnamed
        have hresult := hown.result
        rwa [Copy.source, hnamed.1, hnamed.2.1] at hresult
    | ended =>
        simp only [hcase] at hown
        exact .inr hown
  · intro hrun hended
    have hexact := exact_of_run hprivate hrun
    simpa only [Exact, hended] using hexact

/-- The other thread erases a file by copying it onto itself. -/
theorem thread_isolated_beside :
    ∃ (es : List (ProcessAction 2)) (p : Process (Fin 3) 2),
      Run (Process.step ![⟨0, 1⟩, ⟨2, 2⟩]) (OwnWhole 0)
        (.start ![some [1, 2, 3], some [5], some [9]]) es p ∧
      p.threads 0 = .ended ∧ p.files 1 = some [1, 2, 3] ∧ p.files 2 = some [] := by
  let jobs : Fin 2 → Job (Fin 3) := ![⟨0, 1⟩, ⟨2, 2⟩]
  let es : List (ProcessAction 2) :=
    [.main, .params 0, .copy 0 (.opened true), .main, .copy 0 (.opened true), .params 1,
      .copy 0 (.read 2), .copy 1 (.opened true), .copy 1 (.opened true), .copy 1 (.read 0),
      .copy 0 (.wrote 2), .copy 0 (.read 1), .copy 1 .closed, .copy 0 (.flushed 1),
      .copy 0 (.wrote 1), .copy 0 (.read 0), .copy 0 (.flushed 2), .copy 0 .closed]
  obtain ⟨p, hrun, hobs⟩ : ∃ p, Run (Process.step jobs) (OwnWhole 0)
      (.start ![some [1, 2, 3], some [5], some [9]]) es p ∧
        (decide (p.threads 0 = .ended), p.files 2) = (true, some []) :=
    Run.exists_of_guarded (by decide +kernel)
  obtain ⟨hthread, hother⟩ := Prod.mk.inj hobs
  have hended : p.threads 0 = .ended := of_decide_eq_true hthread
  have hprivate : Private jobs 0 := ⟨by decide, by decide, by decide⟩
  obtain ⟨_, _, hexact⟩ :=
    thread_isolated jobs _ 0 hprivate es p (hrun.mono fun _ _ _ => trivial)
  obtain ⟨content, hsrc, hdst⟩ := hexact hrun hended
  exact ⟨es, p, hrun, hended, hdst.trans hsrc.symm, hother⟩

end NetLabs.FileCopy
