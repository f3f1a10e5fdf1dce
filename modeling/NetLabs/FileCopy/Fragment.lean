import NetLabs.FileCopy.Copy

/-! # What a copy can leave behind

Reads may end early, writes may be short, and bytes may be lost in the buffer. The destination
then holds a part of the source, with bytes left out but none added and none moved. -/

namespace NetLabs.FileCopy

open Machine

variable {Name : Type*} {files₀ files : Files Name} {c : Copy Name} {outcome : Outcome}
  {t : Files Name × Copy Name}

/-! ## What is in the file and what is still to come -/

def Stage.buf : Stage → List UInt8
  | .write buf => buf
  | _ => []

/-- The bytes that have been read and are not in the file yet. -/
def Copy.unwritten (c : Copy Name) : List UInt8 :=
  c.pending ++ c.stage.buf

/-- The destination as it will be once these are written. -/
def Copy.output (files : Files Name) (c : Copy Name) : List UInt8 :=
  (files c.dst).getD [] ++ c.unwritten

/-- The next write goes to the end of the destination. -/
def Copy.AtEnd (files : Files Name) (c : Copy Name) : Prop :=
  ∃ written, files c.dst = some written ∧ written.length = c.wpos

/-- Bytes written where a file ends are appended. -/
theorem overwrite_append {content : List UInt8} {offset : ℕ} (h : offset = content.length)
    (bytes : List UInt8) : overwrite content offset bytes = content ++ bytes := by
  subst h
  unfold overwrite
  split
  · rename_i hnil
    rw [hnil, List.append_nil]
  · simp

/-- The destination is another file than the source, or there is nothing to copy. -/
def Copy.Separate (files : Files Name) (c : Copy Name) : Prop :=
  c.dst ≠ c.src ∨ files c.src = some []

section

variable [DecidableEq Name]

theorem Copy.flush_dst {written : List UInt8} (hdst : files c.dst = some written)
    (hlength : written.length = c.wpos) (count : ℕ) :
    (c.flush files count).1 c.dst = some (written ++ c.pending.take count) := by
  simp only [Copy.flush, Function.update_self, hdst, Option.getD_some]
  rw [overwrite_append hlength.symm]

theorem Copy.AtEnd.flush (h : c.AtEnd files) {count : ℕ} (hle : count ≤ c.pending.length) :
    (c.flush files count).2.AtEnd (c.flush files count).1 := by
  obtain ⟨written, hdst, hlength⟩ := h
  refine ⟨_, Copy.flush_dst hdst hlength count, ?_⟩
  rw [List.length_append, List.length_take, min_eq_left hle, hlength]
  rfl

/-- A flush moves bytes into the file that were to come next. -/
theorem Copy.AtEnd.output_flush (h : c.AtEnd files) (count : ℕ) :
    (c.flush files count).2.output (c.flush files count).1 = c.output files := by
  obtain ⟨written, hdst, hlength⟩ := h
  have hafter : (c.flush files count).1 (c.flush files count).2.dst =
      some (written ++ c.pending.take count) := Copy.flush_dst hdst hlength count
  simp only [Copy.output, hafter, hdst, Option.getD_some]
  have hmoved : c.pending.take count ++ (c.flush files count).2.unwritten = c.unwritten := by
    simp only [Copy.unwritten, Copy.flush]
    rw [← List.append_assoc, List.take_append_drop]
  rw [List.append_assoc, hmoved]

end

/-! ## Part of the source -/

/-- Bytes of the source that was read are in the file or in hand, in their order. -/
def Wrote (files₀ files : Files Name) (c : Copy Name) : Prop :=
  c.AtEnd files ∧ (c.output files).Sublist ((c.source files₀).take c.rpos)

/-- The source is untouched, and the destination has not been opened yet or has been written
from it. Only an existing source can be opened. -/
structure Fragment (files₀ files : Files Name) (c : Copy Name) : Prop where
  src : files c.src = files₀ c.src
  exist : c.stage = .openSrc ∨ c.stage = .exited ∨ files₀ c.src ≠ none
  dst : match c.stage with
    | .openSrc | .openDst =>
        c.rpos = 0 ∧ c.wpos = 0 ∧ c.pending = [] ∧ files c.dst = files₀ c.dst
    | .read | .write _ | .close => Wrote files₀ files c
    | .returned => Wrote files₀ files c ∧ c.pending = []
    | .exited => files c.dst = files₀ c.dst ∨ Wrote files₀ files c

theorem Fragment.start (files₀ : Files Name) (src dst : Name) :
    Fragment files₀ files₀ (.start src dst) :=
  ⟨rfl, .inl rfl, rfl, rfl, rfl, rfl⟩

/-- A copy is not affected by what happens to other files. -/
theorem Fragment.congr {files' : Files Name} (h : Fragment files₀ files c)
    (hsrc : files' c.src = files c.src) (hdst : files' c.dst = files c.dst) :
    Fragment files₀ files' c := by
  refine ⟨hsrc.trans h.src, h.exist, ?_⟩
  have hold := h.dst
  unfold Wrote Copy.AtEnd Copy.output at hold ⊢
  rwa [hdst]

theorem Wrote.result (h : Wrote files₀ files c) : ∃ written, files c.dst = some written ∧
    written.Sublist (c.source files₀) := by
  obtain ⟨⟨written, hdst, _⟩, hsub⟩ := h
  refine ⟨written, hdst, ?_⟩
  have hwritten : written.Sublist (c.output files) := by
    rw [Copy.output, hdst]
    exact List.sublist_append_left _ _
  exact (hwritten.trans hsub).trans (List.take_sublist _ _)

/-- At any moment the destination is the old file or holds a part of the source. -/
theorem Fragment.result (h : Fragment files₀ files c) :
    files c.dst = files₀ c.dst ∨
      ∃ written, files c.dst = some written ∧ written.Sublist (c.source files₀) := by
  have hdst := h.dst
  cases hcase : c.stage with
  | openSrc | openDst =>
      simp only [hcase] at hdst
      exact .inl hdst.2.2.2
  | read | write | close =>
      simp only [hcase] at hdst
      exact .inr hdst.result
  | returned =>
      simp only [hcase] at hdst
      exact .inr hdst.1.result
  | exited =>
      simp only [hcase] at hdst
      exact hdst.imp_right Wrote.result

theorem Fragment.rest_eq (h : Fragment files₀ files c) :
    c.rest files = (c.source files₀).drop c.rpos := by
  rw [Copy.rest, Copy.source, h.src, Copy.source]

theorem Wrote.read (h : Wrote files₀ files c) (hfragment : Fragment files₀ files c)
    (hstage : c.stage = .read) (count : ℕ) :
    Wrote files₀ files { c with
      stage := .write ((c.rest files).take count)
      rpos := c.rpos + count } := by
  obtain ⟨hend, hsub⟩ := h
  refine ⟨hend, ?_⟩
  have hbefore : c.output files = (files c.dst).getD [] ++ c.pending := by
    simp [Copy.output, Copy.unwritten, hstage, Stage.buf]
  simp only [Copy.output, Copy.unwritten, Stage.buf]
  rw [← List.append_assoc, ← hbefore, hfragment.rest_eq, Copy.source, List.take_add]
  exact hsub.append (List.Sublist.refl _)

/-- Whatever is dropped of what was to be written, the rest is still in order. -/
theorem Wrote.drop (h : Wrote files₀ files c) {c' : Copy Name} (hsrc : c'.src = c.src)
    (hdst : c'.dst = c.dst) (hr : c'.rpos = c.rpos) (hw : c'.wpos = c.wpos)
    (hunwritten : c'.unwritten.Sublist c.unwritten) : Wrote files₀ files c' := by
  obtain ⟨⟨written, hwritten, hlength⟩, hsub⟩ := h
  refine ⟨⟨written, hdst ▸ hwritten, hw ▸ hlength⟩, ?_⟩
  have hsource : c'.source files₀ = c.source files₀ := by rw [Copy.source, hsrc, Copy.source]
  rw [hsource, hr]
  refine List.Sublist.trans ?_ hsub
  rw [Copy.output, hdst, Copy.output]
  exact hunwritten.append_left _

theorem Wrote.accept (h : Wrote files₀ files c) {buf : List UInt8}
    (hstage : c.stage = .write buf) (count : ℕ) :
    Wrote files₀ files (c.accept (buf.take count)) := by
  refine h.drop rfl rfl rfl rfl ?_
  simp only [Copy.unwritten, Copy.accept, hstage, Stage.buf, List.append_nil]
  exact (List.take_sublist count buf).append_left _

theorem Wrote.dropPending (h : Wrote files₀ files c) (stage : Stage)
    (hbuf : stage.buf.Sublist c.stage.buf) :
    Wrote files₀ files { c with stage, pending := [] } :=
  h.drop rfl rfl rfl rfl (hbuf.trans (List.sublist_append_right _ _))

theorem Wrote.dropBuf (h : Wrote files₀ files c) (stage : Stage)
    (hbuf : stage.buf.Sublist c.stage.buf) : Wrote files₀ files { c with stage } :=
  h.drop rfl rfl rfl rfl (hbuf.append_left _)

/-- While the destination is open, every stage says the same of it. -/
theorem Fragment.wrote (h : Fragment files₀ files c) (hopen : c.stage.dstOpen = true) :
    Wrote files₀ files c := by
  have hdst := h.dst
  cases hcase : c.stage <;> simp_all [Stage.dstOpen]

/-- A copy that has returned has nothing left to write. -/
theorem Fragment.dst_eq (h : Fragment files₀ files c) (hstage : c.stage = .returned) :
    files c.dst = some (c.output files) := by
  have hdst := h.dst
  simp only [hstage] at hdst
  obtain ⟨⟨⟨written, hwritten, _⟩, _⟩, hpending⟩ := hdst
  simp [Copy.output, Copy.unwritten, hwritten, hpending, hstage, Stage.buf]

theorem Fragment.exist_of_open (h : Fragment files₀ files c) (hopen : c.stage.dstOpen = true) :
    files₀ c.src ≠ none := by
  have hexist := h.exist
  cases hcase : c.stage <;> simp_all [Stage.dstOpen]

theorem Wrote.fragment (h : Wrote files₀ files c) (hsrc : files c.src = files₀ c.src)
    (hexist : files₀ c.src ≠ none) (hopen : c.stage.dstOpen = true) : Fragment files₀ files c := by
  refine ⟨hsrc, .inr (.inr hexist), ?_⟩
  cases hcase : c.stage <;> simp_all [Stage.dstOpen]

section

variable [DecidableEq Name]

theorem Wrote.flush (h : Wrote files₀ files c) {count : ℕ} (hle : count ≤ c.pending.length) :
    Wrote files₀ (c.flush files count).1 (c.flush files count).2 := by
  obtain ⟨hend, hsub⟩ := h
  refine ⟨hend.flush hle, ?_⟩
  rw [hend.output_flush]
  exact hsub

theorem Copy.Separate.update_src (hkeep : c.Separate files₀) (hsrc : files c.src = files₀ c.src)
    {content : List UInt8} (hempty : files₀ c.src = some [] → content = []) :
    Function.update files c.dst (some content) c.src = files₀ c.src := by
  by_cases hself : c.src = c.dst
  · have hnil := hkeep.resolve_left (not_not.mpr hself.symm)
    rw [hself, Function.update_self, ← hself, hnil, hempty hnil]
  · rw [Function.update_of_ne hself, hsrc]

/-- An empty source is not changed by what is written to it. -/
theorem Wrote.flush_src (h : Wrote files₀ files c) (hkeep : c.Separate files₀)
    (hsrc : files c.src = files₀ c.src) (count : ℕ) :
    (c.flush files count).1 c.src = files₀ c.src := by
  obtain ⟨⟨written, hdst, hlength⟩, hsub⟩ := h
  refine hkeep.update_src hsrc fun hnil => ?_
  have houtput : c.output files = [] := by
    simpa [Copy.source, hnil] using hsub
  obtain ⟨hwritten, hpending, _⟩ : written = [] ∧ c.pending = [] ∧ c.stage.buf = [] := by
    simpa [Copy.output, Copy.unwritten, hdst] using houtput
  simp [hdst, hwritten, hpending, overwrite]

theorem Fragment.openDst (h : Fragment files₀ files c) (hkeep : c.Separate files₀)
    (hstage : c.stage = .openDst) :
    Fragment files₀ (Function.update files c.dst (some [])) { c with stage := .read } := by
  have hdst := h.dst
  simp only [hstage] at hdst
  obtain ⟨hr, hw, hpending, _⟩ := hdst
  refine ⟨hkeep.update_src h.src fun _ => rfl, .inr (.inr ?_), ⟨[], by simp, by simp [hw]⟩, ?_⟩
  · simpa [hstage] using h.exist
  · simp [Copy.output, Copy.unwritten, hpending, hr, Stage.buf]

/-- Whatever a call returns, the copy stays a part of the source. -/
theorem Fragment.step (h : Fragment files₀ files c) (hkeep : c.Separate files₀)
    (hstep : Copied files c outcome t) : Fragment files₀ t.1 t.2 := by
  cases hstep with
  | openSrc content heq hexist =>
      have hdst := h.dst
      simp only [heq] at hdst
      refine ⟨h.src, .inr (.inr ?_), hdst⟩
      dsimp only
      rw [← h.src, hexist]
      simp
  | openDst heq => exact h.openDst hkeep heq
  | fail heq =>
      have hdst := h.dst
      refine ⟨h.src, .inr (.inl rfl), .inl ?_⟩
      rcases heq with heq | heq <;> simp only [heq] at hdst <;> exact hdst.2.2.2
  | read count heq =>
      have hopen : c.stage.dstOpen = true := by rw [heq]; rfl
      exact ((h.wrote hopen).read h heq count).fragment h.src (h.exist_of_open hopen) rfl
  | endLoop result heq =>
      have hopen : c.stage.dstOpen = true := by rw [heq]; rfl
      exact ((h.wrote hopen).dropBuf .close (List.nil_sublist _)).fragment h.src
        (h.exist_of_open hopen) rfl
  | write buf count heq =>
      have hopen : c.stage.dstOpen = true := by rw [heq]; rfl
      exact ((h.wrote hopen).accept heq count).fragment h.src (h.exist_of_open hopen) rfl
  | writeThrough buf count heq =>
      have hopen : c.stage.dstOpen = true := by rw [heq]; rfl
      have haccept := (h.wrote hopen).accept heq count
      exact (haccept.flush le_rfl).fragment (haccept.flush_src hkeep h.src _)
        (h.exist_of_open hopen) rfl
  | writeError buf result heq =>
      have hopen : c.stage.dstOpen = true := by rw [heq]; rfl
      exact ⟨h.src, .inr (.inl rfl), .inr ((h.wrote hopen).dropBuf .exited (List.nil_sublist _))⟩
  | close heq =>
      have hopen : c.stage.dstOpen = true := by rw [heq]; rfl
      exact ⟨h.src, .inr (.inr (h.exist_of_open hopen)),
        (h.wrote hopen).dropPending .returned (List.nil_sublist _), rfl⟩
  | flush count hopen _ hle =>
      exact ((h.wrote hopen).flush hle).fragment ((h.wrote hopen).flush_src hkeep h.src count)
        (h.exist_of_open hopen) hopen
  | lose hopen =>
      exact ((h.wrote hopen).dropPending _ (List.Sublist.refl _)).fragment h.src
        (h.exist_of_open hopen) hopen

theorem fragment_of_run {api : Interface} {ok : Files Name × Copy Name → Outcome → Prop}
    {src dst : Name} {es : List Outcome} (hkeep : (Copy.start src dst).Separate files)
    (h : Run (copyStep api) ok (files, .start src dst) es t) :
    Fragment files t.1 t.2 ∧ t.2.src = src ∧ t.2.dst = dst := by
  refine h.invariant (P := fun t => Fragment files t.1 t.2 ∧ t.2.src = src ∧ t.2.dst = dst) ?_
    ⟨.start files src dst, rfl, rfl⟩
  rintro ⟨now, c⟩ outcome t ⟨hfragment, rfl, rfl⟩ _ hstep
  have hcopied := copied_of_copyStep hstep
  obtain ⟨hs, hd, _⟩ := hcopied.frame
  exact ⟨hfragment.step hkeep hcopied, hs, hd⟩

/-- A file copied onto itself is there as it was or is empty. -/
theorem self_of_run {api : Interface} {ok : Files Name × Copy Name → Outcome → Prop}
    {name : Name} {es : List Outcome}
    (h : Run (copyStep api) ok (files, .start name name) es t) :
    t.2.src = name ∧ t.2.dst = name ∧ t.2.pending = [] ∧ match t.2.stage with
      | .openSrc | .openDst => t.1 name = files name
      | .write _ => False
      | .exited => t.1 name = files name ∨ t.1 name = some []
      | _ => t.1 name = some [] := by
  refine h.invariant (P := fun t => t.2.src = name ∧ t.2.dst = name ∧ t.2.pending = [] ∧
    match t.2.stage with
    | .openSrc | .openDst => t.1 name = files name
    | .write _ => False
    | .exited => t.1 name = files name ∨ t.1 name = some []
    | _ => t.1 name = some []) ?_ ⟨rfl, rfl, rfl, rfl⟩
  rintro ⟨now, c⟩ outcome t ⟨hsrc, hdst, hpending, hstage⟩ _ hstep
  dsimp only at hsrc hdst hpending hstage
  cases copied_of_copyStep hstep with
  | openSrc content heq =>
      simp only [heq] at hstage
      exact ⟨hsrc, hdst, hpending, hstage⟩
  | openDst heq => exact ⟨hsrc, hdst, hpending, by simp [hdst]⟩
  | fail heq =>
      rcases heq with heq | heq <;> simp only [heq] at hstage <;>
        exact ⟨hsrc, hdst, hpending, .inl hstage⟩
  | read count heq hpos hle =>
      simp only [heq] at hstage
      simp only [Copy.rest, Copy.source, hsrc, hstage, Option.getD_some, List.drop_nil,
        List.length_nil] at hle
      omega
  | write buf count heq | writeThrough buf count heq | writeError buf result heq =>
      simp only [heq] at hstage
  | endLoop result heq =>
      simp only [heq] at hstage
      exact ⟨hsrc, hdst, hpending, hstage⟩
  | close heq =>
      simp only [heq] at hstage
      exact ⟨hsrc, hdst, rfl, hstage⟩
  | flush count _ hpos hle =>
      simp only [hpending, List.length_nil] at hle
      omega
  | lose _ hnonempty => exact absurd hpending hnonempty

/-- Whatever the calls of a copy return, it changes no file but the destination, and that is
at any moment the old file or a part of the source: bytes may be missing, but none is added
and none is moved. -/
theorem always_fragment (api : Interface) (files : Files Name) (src dst : Name)
    (es : List Outcome) (t : Files Name × Copy Name)
    (h : Run (copyStep api) (fun _ _ => True) (files, .start src dst) es t) :
    (∀ name, name ≠ dst → t.1 name = files name) ∧
    (t.1 dst = files dst ∨
      ∃ written, t.1 dst = some written ∧ written.Sublist ((files src).getD [])) := by
  have hothers : t.2.dst = dst ∧ ∀ name, name ≠ dst → t.1 name = files name := by
    refine h.invariant (P := fun t : Files Name × Copy Name =>
      t.2.dst = dst ∧ ∀ name, name ≠ dst → t.1 name = files name) ?_ ⟨rfl, fun _ _ => rfl⟩
    rintro ⟨now, c⟩ outcome t ⟨rfl, hsame⟩ _ hstep
    obtain ⟨_, hdst, hframe⟩ := (copied_of_copyStep hstep).frame
    exact ⟨hdst, fun name hname => (hframe name hname).trans (hsame name hname)⟩
  refine ⟨hothers.2, ?_⟩
  by_cases hne : dst = src
  · subst hne
    obtain ⟨_, _, _, hstage⟩ := self_of_run h
    have hempty : t.1 dst = some [] → ∃ written, t.1 dst = some written ∧
        written.Sublist ((files dst).getD []) := fun h => ⟨[], h, List.nil_sublist _⟩
    cases hcase : t.2.stage with
    | openSrc | openDst =>
        simp only [hcase] at hstage
        exact .inl hstage
    | write buf => simp only [hcase] at hstage
    | exited =>
        simp only [hcase] at hstage
        exact hstage.imp_right hempty
    | read | close | returned =>
        simp only [hcase] at hstage
        exact .inr (hempty hstage)
  · obtain ⟨hfragment, rfl, rfl⟩ := fragment_of_run (.inl hne) h
    exact hfragment.result

/-- The first write is short, and the second takes a byte that the stream loses. -/
theorem always_fragment_short :
    ∃ (es : List Outcome) (t : Files Bool × Copy Bool),
      Run (copyStep .stdio) (fun _ _ => True)
        (fun name => if name then some [9] else some [1, 2, 3, 4, 5], .start false true) es t ∧
      t.1 true = some [1, 2, 5] ∧ t.1 false = some [1, 2, 3, 4, 5] := by
  let files : Files Bool := fun name => if name then some [9] else some [1, 2, 3, 4, 5]
  let es : List Outcome := [.opened true, .opened true, .read 3, .wrote 2, .flushed 2, .read 1,
    .wrote 1, .lost, .read 1, .wrote 1, .read 0, .flushed 1, .closed]
  obtain ⟨t, hrun, hobs⟩ : ∃ t, Run (copyStep .stdio) (fun _ _ => True)
      (files, .start false true) es t ∧ t.1 true = some [1, 2, 5] :=
    Run.exists_of_exec (by simp) (by decide +kernel)
  have hmain := always_fragment .stdio files false true es t hrun
  exact ⟨es, t, hrun, hobs, hmain.1 false (by decide)⟩

end

end NetLabs.FileCopy
