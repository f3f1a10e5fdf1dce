import NetLabs.FileCopy.Fragment

/-! # When a copy is complete

The functions return 0 whatever the last read has returned, after short writes, and whatever
`fclose` has still written. What they have written is a copy when every call has done all it
could, the stream has lost nothing, and opening the destination has not erased the source. -/

namespace NetLabs.FileCopy

open Machine

variable {Name : Type*} {api : Interface} {files₀ files : Files Name}
  {c : Copy Name} {outcome : Outcome} {t : Files Name × Copy Name} {content : List UInt8}

/-! ## Conditions on a step -/

/-- The call succeeds and does all it could: the read that ends the loop has nothing left to
read, a write takes all bytes, and those that the stream has taken are not lost, the last of
them written before it is closed. -/
def Whole (s : Files Name × Copy Name) : Outcome → Prop
  | .opened success => success = true
  | .read result => 0 < result ∨ s.2.rest s.1 = []
  | .wrote result =>
      match s.2.stage with
      | .write buf => result = buf.length
      | _ => True
  | .flushed _ => True
  | .lost => False
  | .closed => s.2.pending = []

instance (s : Files Name × Copy Name) (outcome : Outcome) : Decidable (Whole s outcome) := by
  unfold Whole
  split
  case h_3 => split <;> infer_instance
  all_goals infer_instance

/-- Opening the destination, which erases it, does not erase bytes of the source. -/
def KeepsSource (s : Files Name × Copy Name) : Prop :=
  s.2.stage = .openDst → s.2.Separate s.1

def Complete (s : Files Name × Copy Name) (outcome : Outcome) : Prop :=
  Whole s outcome ∧ KeepsSource s

/-! ## Copies that have left nothing out -/

/-- Nothing of what was read has been left out, and nothing has been left unread. -/
def CaughtUp (files₀ files : Files Name) (c : Copy Name) : Prop :=
  match c.stage with
  | .openSrc | .openDst => True
  | .read | .write _ => c.output files = (c.source files₀).take c.rpos
  | .close | .returned => c.output files = c.source files₀
  | .exited => False

/-- A copy is not affected by what happens to other files. -/
theorem CaughtUp.congr {files' : Files Name} (h : CaughtUp files₀ files c)
    (hdst : files' c.dst = files c.dst) : CaughtUp files₀ files' c := by
  unfold CaughtUp Copy.output at h ⊢
  rwa [hdst]

theorem CaughtUp.copied (h : CaughtUp files₀ files c) (hfragment : Fragment files₀ files c)
    (hstage : c.stage = .returned) :
    ∃ content, files₀ c.src = some content ∧ files c.dst = some content := by
  have hexist := hfragment.exist
  simp only [hstage, reduceCtorEq, false_or] at hexist
  obtain ⟨content, hsrc⟩ := Option.ne_none_iff_exists'.mp hexist
  simp only [CaughtUp, hstage, Copy.source, hsrc, Option.getD_some] at h
  exact ⟨content, hsrc, h ▸ hfragment.dst_eq hstage⟩

/-- A copy that has left nothing out is at least as long as what was read. -/
theorem CaughtUp.length_le (h : CaughtUp files₀ files c)
    (hstage : c.stage.dstOpen = true ∨ c.stage = .returned) :
    ((c.source files₀).take c.rpos).length ≤ (c.output files).length := by
  unfold CaughtUp at h
  cases hcase : c.stage with
  | read | write buf =>
      simp only [hcase] at h
      rw [h]
  | close | returned =>
      simp only [hcase] at h
      rw [h]
      exact List.length_take_le' _ _
  | openSrc | openDst | exited => simp [hcase, Stage.dstOpen] at hstage

theorem Fragment.read_caughtUp (h : Fragment files₀ files c) (hstage : c.stage = .read)
    (count : ℕ) : CaughtUp files₀ files { c with
      stage := .write ((c.rest files).take count)
      rpos := c.rpos + count } ↔ CaughtUp files₀ files c := by
  have hbefore : c.output files = (files c.dst).getD [] ++ c.pending := by
    simp [Copy.output, Copy.unwritten, hstage, Stage.buf]
  simp only [CaughtUp, hstage, hbefore]
  simp only [Copy.output, Copy.unwritten, Stage.buf]
  rw [← List.append_assoc, h.rest_eq, Copy.source, List.take_add]
  exact List.append_left_inj _

/-- The end of the loop leaves nothing out when nothing is left to read. -/
theorem Fragment.endLoop_caughtUp (h : Fragment files₀ files c) (hstage : c.stage = .read) :
    CaughtUp files₀ files { c with stage := .close } ↔
      CaughtUp files₀ files c ∧ c.rest files = [] := by
  have hsame : Copy.output files { c with stage := .close } = c.output files := by
    simp [Copy.output, Copy.unwritten, hstage, Stage.buf]
  obtain ⟨_, hsub⟩ := h.wrote (by rw [hstage]; rfl)
  simp only [CaughtUp, hstage, hsame, h.rest_eq, List.drop_eq_nil_iff]
  constructor
  · intro hall
    rw [hall] at hsub
    have hle := hsub.length_le
    rw [List.length_take] at hle
    have hread : (c.source files₀).length ≤ c.rpos := by
      simp only [Copy.source] at hle ⊢
      omega
    refine ⟨?_, hread⟩
    rw [hall, List.take_of_length_le hread]
    rfl
  · rintro ⟨hall, hread⟩
    rw [hall, List.take_of_length_le hread]
    rfl

/-- A write leaves nothing out when it takes all. -/
theorem Fragment.accept_caughtUp (h : Fragment files₀ files c) {buf : List UInt8}
    (hstage : c.stage = .write buf) {count : ℕ} (hle : count ≤ buf.length) :
    CaughtUp files₀ files (c.accept (buf.take count)) ↔
      CaughtUp files₀ files c ∧ count = buf.length := by
  obtain ⟨_, hsub⟩ := h.wrote (by rw [hstage]; rfl)
  have hbefore : c.output files = (files c.dst).getD [] ++ c.pending ++ buf := by
    simp [Copy.output, Copy.unwritten, hstage, Stage.buf]
  have hafter : (c.accept (buf.take count)).output files =
      (files c.dst).getD [] ++ c.pending ++ buf.take count := by
    simp [Copy.output, Copy.unwritten, Copy.accept, Stage.buf]
  simp only [CaughtUp, hstage, hbefore, hafter] at hsub ⊢
  constructor
  · intro hall
    have hlength := hsub.length_le
    have hread : (c.accept (buf.take count)).source files₀ = c.source files₀ := rfl
    have hrpos : (c.accept (buf.take count)).rpos = c.rpos := rfl
    rw [hread, hrpos] at hall
    rw [← hall] at hlength
    simp only [List.length_append, List.length_take] at hlength
    have hcount : count = buf.length := by omega
    rw [hcount, List.take_length] at hall
    exact ⟨hall, hcount⟩
  · rintro ⟨hall, rfl⟩
    rw [List.take_length]
    exact hall

/-- Where bytes were pending and are gone, something is left out. -/
theorem Wrote.pending_eq_nil (h : Wrote files₀ files c) {stage : Stage}
    (hbuf : stage.buf = c.stage.buf) (hstage : stage.dstOpen = true ∨ stage = .returned)
    (hcaught : CaughtUp files₀ files { c with stage, pending := [] }) : c.pending = [] := by
  obtain ⟨_, hsub⟩ := h
  have hle := hsub.length_le.trans (hcaught.length_le hstage)
  simp only [Copy.output, Copy.unwritten, hbuf, List.length_append, List.length_nil] at hle
  exact List.eq_nil_of_length_eq_zero (by omega)

theorem Fragment.close_caughtUp (h : Fragment files₀ files c) (hstage : c.stage = .close) :
    CaughtUp files₀ files { c with stage := .returned, pending := [] } ↔
      CaughtUp files₀ files c ∧ c.pending = [] := by
  have hsame : c.pending = [] →
      Copy.output files { c with stage := .returned, pending := [] } = c.output files := by
    intro hpending
    simp [Copy.output, Copy.unwritten, hstage, hpending, Stage.buf]
  constructor
  · intro hcaught
    have hpending := (h.wrote (by rw [hstage]; rfl)).pending_eq_nil (by rw [hstage]; rfl)
      (.inr rfl) hcaught
    simp only [CaughtUp, hsame hpending] at hcaught
    simp only [CaughtUp, hstage]
    exact ⟨hcaught, hpending⟩
  · rintro ⟨hcaught, hpending⟩
    simp only [CaughtUp, hstage] at hcaught
    simp only [CaughtUp, hsame hpending]
    exact hcaught

section

variable [DecidableEq Name]

theorem Copy.AtEnd.flush_caughtUp (h : c.AtEnd files) (count : ℕ) :
    CaughtUp files₀ (c.flush files count).1 (c.flush files count).2 ↔
      CaughtUp files₀ files c := by
  unfold CaughtUp
  rw [h.output_flush]
  rfl

/-- A step leaves nothing out exactly when it does all it could. -/
theorem Fragment.caughtUp_iff (h : Fragment files₀ files c)
    (hstep : Copied files c outcome t) :
    CaughtUp files₀ t.1 t.2 ↔ CaughtUp files₀ files c ∧ Whole (files, c) outcome := by
  cases hstep with
  | openSrc content heq => simp [CaughtUp, heq, Whole]
  | openDst heq =>
      have hdst := h.dst
      simp only [heq] at hdst
      obtain ⟨hr, _, hpending, _⟩ := hdst
      simp [CaughtUp, heq, Whole, Copy.output, Copy.unwritten, hr, hpending, Stage.buf]
  | fail => simp [CaughtUp, Whole]
  | read count heq hpos =>
      rw [h.read_caughtUp heq]
      simp [Whole, hpos]
  | endLoop result heq hnonpos =>
      rw [h.endLoop_caughtUp heq]
      simp [Whole, not_lt.mpr hnonpos]
  | write buf count heq hle =>
      rw [h.accept_caughtUp heq hle]
      simp [Whole, heq]
  | writeThrough buf count heq hle =>
      have hend := ((h.wrote (by rw [heq]; rfl)).accept heq count).1
      rw [hend.flush_caughtUp, h.accept_caughtUp heq hle]
      simp [Whole, heq]
  | writeError buf result heq hneg =>
      have hne : result ≠ buf.length := by omega
      simp [CaughtUp, Whole, heq, hne]
  | close heq => exact h.close_caughtUp heq
  | flush count hopen =>
      rw [(h.wrote hopen).1.flush_caughtUp]
      simp [Whole]
  | lose hopen hnonempty =>
      refine iff_of_false ?_ (by simp [Whole])
      exact fun hcaught => hnonempty ((h.wrote hopen).pending_eq_nil rfl (.inl hopen) hcaught)

/-! ## Complete runs -/

variable {src dst : Name} {es : List Outcome}

theorem CaughtUp.complete (hkeep : (Copy.start src dst).Separate files)
    (h : Run (copyStep api) (fun _ _ => True) (files, .start src dst) es t)
    (hcaught : CaughtUp files t.1 t.2) :
    Run (copyStep api) Complete (files, .start src dst) es t := by
  induction h with
  | nil => exact .nil
  | @snoc es s outcome t hrun _ hstep ih =>
      obtain ⟨hfragment, rfl, rfl⟩ := fragment_of_run hkeep hrun
      obtain ⟨hbefore, hwhole⟩ := (hfragment.caughtUp_iff (copied_of_copyStep hstep)).mp hcaught
      have hkeeps : KeepsSource s := fun _ => hkeep.imp_right hfragment.src.trans
      exact (ih hbefore).snoc ⟨hwhole, hkeeps⟩ hstep

theorem caughtUp_of_run (hkeep : (Copy.start src dst).Separate files)
    (h : Run (copyStep api) Complete (files, .start src dst) es t) : CaughtUp files t.1 t.2 := by
  have hinv : Fragment files t.1 t.2 ∧ t.2.src = src ∧ t.2.dst = dst ∧
      CaughtUp files t.1 t.2 := by
    refine h.invariant (P := fun t => Fragment files t.1 t.2 ∧ t.2.src = src ∧ t.2.dst = dst ∧
      CaughtUp files t.1 t.2) ?_ ⟨.start files src dst, rfl, rfl, by simp [CaughtUp, Copy.start]⟩
    rintro ⟨now, c⟩ outcome t ⟨hfragment, rfl, rfl, hcaught⟩ hcomplete hstep
    have hcopied := copied_of_copyStep hstep
    obtain ⟨hs, hd, _⟩ := hcopied.frame
    exact ⟨hfragment.step hkeep hcopied, hs, hd,
      (hfragment.caughtUp_iff hcopied).mpr ⟨hcaught, hcomplete.1⟩⟩
  exact hinv.2.2.2

/-- Only an existing source can be opened, and the test of `KeepsSource` is made on the files
that the call has found. -/
theorem opened_of_run {ok : Files Name × Copy Name → Outcome → Prop}
    (h : Run (copyStep api) ok (files, .start src dst) es t) :
    t.2.src = src ∧ t.2.dst = dst ∧ match t.2.stage with
      | .openSrc => t.1 = files
      | .openDst => t.1 = files ∧ files src ≠ none
      | .exited => True
      | _ => files src ≠ none ∧
          ((∀ s a, ok s a → KeepsSource s) → (Copy.start src dst).Separate files) := by
  refine h.invariant (P := fun t => t.2.src = src ∧ t.2.dst = dst ∧ match t.2.stage with
    | .openSrc => t.1 = files
    | .openDst => t.1 = files ∧ files src ≠ none
    | .exited => True
    | _ => files src ≠ none ∧
        ((∀ s a, ok s a → KeepsSource s) → (Copy.start src dst).Separate files)) ?_
    ⟨rfl, rfl, rfl⟩
  rintro ⟨now, c⟩ outcome t ⟨rfl, rfl, hstage⟩ hok hstep
  dsimp only at hstage
  cases copied_of_copyStep hstep with
  | openSrc content heq hexist =>
      simp only [heq] at hstage
      subst hstage
      exact ⟨rfl, rfl, rfl, by simp [hexist]⟩
  | openDst heq =>
      simp only [heq] at hstage
      obtain ⟨rfl, hexist⟩ := hstage
      exact ⟨rfl, rfl, hexist, fun hkeeps => hkeeps _ _ hok heq⟩
  | fail | writeError => exact ⟨rfl, rfl, trivial⟩
  | read count heq | endLoop result heq | write buf count heq | writeThrough buf count heq
  | close heq =>
      simp only [heq] at hstage
      exact ⟨rfl, rfl, hstage⟩
  | flush count hopen | lose hopen =>
      refine ⟨rfl, rfl, ?_⟩
      dsimp only [Copy.flush]
      cases hcase : c.stage with
      | read | write buf | close =>
          simp only [hcase] at hstage
          exact hstage
      | openSrc | openDst | returned | exited => simp [hcase, Stage.dstOpen] at hopen

/-- A copy that has returned holds the bytes of the source exactly when it was complete. -/
theorem complete_iff (h : Run (copyStep api) (fun _ _ => True) (files, .start src dst) es t)
    (hreturned : t.2.stage = .returned) : ∃ content, files src = some content ∧
      (t.1 dst = some content ↔ Run (copyStep api) Complete (files, .start src dst) es t) := by
  have hopened := (opened_of_run h).2.2
  simp only [hreturned] at hopened
  obtain ⟨content, hsrc⟩ := Option.ne_none_iff_exists'.mp hopened.1
  refine ⟨content, hsrc, ?_⟩
  by_cases hkeep : (Copy.start src dst).Separate files
  · obtain ⟨hfragment, rfl, rfl⟩ := fragment_of_run hkeep h
    have hcaught : t.1 t.2.dst = some content ↔ CaughtUp files t.1 t.2 := by
      simp [CaughtUp, hreturned, hfragment.dst_eq hreturned, Copy.source, hsrc]
    rw [hcaught]
    exact ⟨CaughtUp.complete hkeep h, caughtUp_of_run hkeep⟩
  · refine iff_of_false ?_ ?_
    · -- the source has been erased
      obtain ⟨hself, hnonempty⟩ := not_or.mp hkeep
      obtain rfl : dst = src := not_not.mp hself
      have herased := (self_of_run h).2.2.2
      simp only [hreturned] at herased
      rw [herased, ← hsrc]
      exact fun heq => hnonempty heq.symm
    · intro hcomplete
      have hkeeps := (opened_of_run hcomplete).2.2
      simp only [hreturned] at hkeeps
      exact hkeep (hkeeps.2 fun _ _ hok => hok.2)

/-! ## Both functions -/

/-- Two files with a few bytes each. -/
def twoFiles : Files Bool :=
  fun name => if name then some [7, 8] else some [1, 2, 3]

/-- Each function can return 0 without having copied the file: after a short write, after a
flush that fell short in `fclose`, after a read that failed, or when both names are the same. -/
theorem returns_incomplete :
    (∃ es s, Run funcCopy (fun _ _ => True) (twoFiles, .start false true) es s ∧
      s.2.stage = .returned ∧ s.1 true = some [1]) ∧
    (∃ es s, Run funcCopy (fun _ _ => True) (twoFiles, .start false true) es s ∧
      .wrote 3 ∈ es ∧ s.2.stage = .returned ∧ s.1 true = some [1, 2]) ∧
    (∃ es s, Run syscallCopy (fun _ _ => True) (twoFiles, .start false true) es s ∧
      s.2.stage = .returned ∧ s.1 true = some []) ∧
    ∃ es s, Run syscallCopy (fun _ _ => True) (twoFiles, .start false false) es s ∧
      s.2.stage = .returned ∧ s.1 false = some [] := by
  let short : List Outcome :=
    [.opened true, .opened true, .read 3, .wrote 1, .read 0, .flushed 1, .closed]
  let buffered : List Outcome :=
    [.opened true, .opened true, .read 3, .wrote 3, .read 0, .flushed 2, .closed]
  let failed : List Outcome := [.opened true, .opened true, .read (-1), .closed]
  let same : List Outcome := [.opened true, .opened true, .read 0, .closed]
  obtain ⟨s, hrun, hobs⟩ : ∃ s, Run funcCopy (fun _ _ => True)
      (twoFiles, .start false true) short s ∧
        (s.2.stage, s.1 true) = (.returned, some [1]) :=
    Run.exists_of_exec (by simp) (by decide +kernel)
  obtain ⟨s', hrun', hobs'⟩ : ∃ s, Run funcCopy (fun _ _ => True)
      (twoFiles, .start false true) buffered s ∧
        (s.2.stage, s.1 true) = (.returned, some [1, 2]) :=
    Run.exists_of_exec (by simp) (by decide +kernel)
  obtain ⟨s'', hrun'', hobs''⟩ : ∃ s, Run syscallCopy (fun _ _ => True)
      (twoFiles, .start false true) failed s ∧
        (s.2.stage, s.1 true) = (.returned, some []) :=
    Run.exists_of_exec (by simp) (by decide +kernel)
  obtain ⟨s₃, hrun₃, hobs₃⟩ : ∃ s, Run syscallCopy (fun _ _ => True)
      (twoFiles, .start false false) same s ∧
        (s.2.stage, s.1 false) = (.returned, some []) :=
    Run.exists_of_exec (by simp) (by decide +kernel)
  exact ⟨⟨short, s, hrun, Prod.mk.inj hobs⟩,
    ⟨buffered, s', hrun', by simp [buffered], Prod.mk.inj hobs'⟩,
    ⟨failed, s'', hrun'', Prod.mk.inj hobs''⟩, ⟨same, s₃, hrun₃, Prod.mk.inj hobs₃⟩⟩

/-- Where `func_copy` or `syscall_copy` returns 0, the destination holds what the source held
exactly when the two were different files or the source was empty, the last read found the
end of the file, every write took all bytes, and the stream lost none of them. -/
theorem copies_iff (files : Files Name) (src dst : Name) (es : List Outcome)
    (s : Files Name × Copy Name) :
    (Run funcCopy (fun _ _ => True) (files, .start src dst) es s → s.2.stage = .returned →
      ∃ content, files src = some content ∧
        (s.1 dst = some content ↔ Run funcCopy Complete (files, .start src dst) es s)) ∧
    (Run syscallCopy (fun _ _ => True) (files, .start src dst) es s → s.2.stage = .returned →
      ∃ content, files src = some content ∧
        (s.1 dst = some content ↔
          Run syscallCopy Complete (files, .start src dst) es s)) :=
  ⟨complete_iff, complete_iff⟩

/-- Three bytes over two, in two reads. -/
theorem copies_iff_twoReads :
    (∃ es s, Run funcCopy Complete (twoFiles, .start false true) es s ∧
      s.2.stage = .returned ∧ s.1 true = some [1, 2, 3]) ∧
    ∃ es s, Run syscallCopy Complete (twoFiles, .start false true) es s ∧
      s.2.stage = .returned ∧ s.1 true = some [1, 2, 3] := by
  let buffered : List Outcome := [.opened true, .opened true, .read 2, .wrote 2, .read 1,
    .flushed 1, .wrote 1, .read 0, .flushed 2, .closed]
  let direct : List Outcome :=
    [.opened true, .opened true, .read 2, .wrote 2, .read 1, .wrote 1, .read 0, .closed]
  obtain ⟨s, hrun, hobs⟩ : ∃ s, Run funcCopy (fun _ _ => True)
      (twoFiles, .start false true) buffered s ∧
        (s.2.stage, s.1 true) = (.returned, some [1, 2, 3]) :=
    Run.exists_of_exec (by simp) (by decide +kernel)
  obtain ⟨hreturned, hcopy⟩ := Prod.mk.inj hobs
  obtain ⟨content, hsrc, hiff⟩ := (copies_iff twoFiles false true buffered s).1 hrun hreturned
  obtain rfl : [1, 2, 3] = content := Option.some.inj hsrc
  obtain ⟨s', hrun', hobs'⟩ : ∃ s, Run syscallCopy (fun _ _ => True)
      (twoFiles, .start false true) direct s ∧
        (s.2.stage, s.1 true) = (.returned, some [1, 2, 3]) :=
    Run.exists_of_exec (by simp) (by decide +kernel)
  obtain ⟨hreturned', hcopy'⟩ := Prod.mk.inj hobs'
  obtain ⟨content', hsrc', hiff'⟩ :=
    (copies_iff twoFiles false true direct s').2 hrun' hreturned'
  obtain rfl : [1, 2, 3] = content' := Option.some.inj hsrc'
  exact ⟨⟨buffered, s, hiff.mp hcopy, hreturned, hcopy⟩,
    ⟨direct, s', hiff'.mp hcopy', hreturned', hcopy'⟩⟩

end

end NetLabs.FileCopy
