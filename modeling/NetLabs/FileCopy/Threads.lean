import Mathlib.Data.Fin.VecNotation
import NetLabs.FileCopy.Complete

/-! # Copies in parallel

`main` of `templateFilesThreads (1).c` starts a thread for each pair of names and joins them
all. The threads share the files, and each reads its parameters from its own place in an
array of `main`. The steps of `main` and of the threads come in any order. -/

namespace NetLabs.FileCopy

open Machine

variable {Name : Type*} {n : ℕ}

/-! ## The program -/

/-- `struct copy_struct`. -/
structure CopyStruct (Name : Type*) where
  threadId : ℕ
  srcFilename : Name
  dstFilename : Name

/-- What `main` is asked to copy. -/
structure Job (Name : Type*) where
  src : Name
  dst : Name

/-- A thread: not created yet, about to read its parameters, in `func_copy`, or past
`pthread_exit`. -/
inductive Thread (Name : Type*) where
  | absent
  | created
  | copying (c : Copy Name)
  | ended

/-- Where `main` stands: at index `i` of the loop that creates the threads or of the loop
that joins them, or past both. -/
inductive MainStage where
  | create (i : ℕ)
  | join (i : ℕ)
  | past
  deriving DecidableEq, Repr

structure Process (Name : Type*) (n : ℕ) where
  files : Files Name
  threadParams : Fin n → Option (CopyStruct Name)
  threads : Fin n → Thread Name
  main : MainStage

def Process.start (files : Files Name) : Process Name n :=
  { files, threadParams := fun _ => none, threads := fun _ => .absent, main := .create 0 }

/-- `main` makes a turn of a loop, or a thread copies its parameters, or makes the next call
of `func_copy`. -/
inductive ProcessAction (n : ℕ) where
  | main
  | params (i : Fin n)
  | copy (i : Fin n) (outcome : Outcome)

/-- One turn of a loop of `main`. `pthread_join` waits for the thread to end. -/
def Process.mainStep (jobs : Fin n → Job Name) (p : Process Name n) :
    Option (Process Name n) :=
  match p.main with
  | .create i =>
      if h : i < n then
        some { p with
          threadParams := Function.update p.threadParams ⟨i, h⟩
            (some ⟨i, (jobs ⟨i, h⟩).src, (jobs ⟨i, h⟩).dst⟩)
          threads := Function.update p.threads ⟨i, h⟩ .created
          main := .create (i + 1) }
      else some { p with main := .join 0 }
  | .join i =>
      if h : i < n then
        match p.threads ⟨i, h⟩ with
        | .ended => some { p with main := .join (i + 1) }
        | _ => none
      else some { p with main := .past }
  | .past => none

section

variable [DecidableEq Name]

/-- An `exit` in one thread ends the program: the runs in which the others go on after it are
more than the program has. -/
def Process.step (jobs : Fin n → Job Name) (p : Process Name n) :
    ProcessAction n → Option (Process Name n)
  | .main => p.mainStep jobs
  | .params i =>
      match p.threads i, p.threadParams i with
      | .created, some params => some { p with
          threads := Function.update p.threads i
            (.copying (.start params.srcFilename params.dstFilename)) }
      | _, _ => none
  | .copy i outcome =>
      match p.threads i with
      | .copying c => (funcCopy (p.files, c) outcome).map fun (files, c) => { p with
          files := files
          threads := Function.update p.threads i
            (if c.stage = .returned then .ended else .copying c) }
      | _ => none

end

/-- The calls of the threads succeed and do all they could. -/
def AllWhole (p : Process Name n) : ProcessAction n → Prop
  | .copy i outcome =>
      match p.threads i with
      | .copying c => Whole (p.files, c) outcome
      | _ => True
  | _ => True

instance (p : Process Name n) (a : ProcessAction n) : Decidable (AllWhole p a) := by
  unfold AllWhole
  split
  case h_1 => split <;> infer_instance
  case h_2 => infer_instance

/-- The calls of thread `i` succeed and do all they could. -/
def OwnWhole (i : Fin n) (p : Process Name n) : ProcessAction n → Prop
  | .copy j outcome => j = i → AllWhole p (.copy j outcome)
  | _ => True

instance (i : Fin n) (p : Process Name n) (a : ProcessAction n) :
    Decidable (OwnWhole i p a) :=
  match a with
  | .main | .params _ => instDecidableTrue
  | .copy _ _ => forall_prop_decidable _

instance (thread : Thread Name) : Decidable (thread = .ended) := by
  cases thread
  case ended => exact isTrue rfl
  all_goals exact isFalse nofun

/-! ## Who works on what -/

variable {jobs : Fin n → Job Name} {p q : Process Name n} {i : Fin n} {files₀ : Files Name}

/-- A thread that exists works on the names it was given. -/
def ThreadNamed (jobs : Fin n → Job Name) (p : Process Name n) (j : Fin n) : Prop :=
  match p.threads j with
  | .created => ∃ id, p.threadParams j = some ⟨id, (jobs j).src, (jobs j).dst⟩
  | .copying c => c.src = (jobs j).src ∧ c.dst = (jobs j).dst ∧ c.stage ≠ .returned
  | _ => True

structure Wired (jobs : Fin n → Job Name) (p : Process Name n) : Prop where
  fresh : ∀ k, p.main = .create k → ∀ j : Fin n, k ≤ j → p.threads j = .absent
  named : ∀ j, ThreadNamed jobs p j

theorem ThreadNamed.congr {j : Fin n} (h : ThreadNamed jobs p j)
    (hthread : q.threads j = p.threads j) (hparams : q.threadParams j = p.threadParams j) :
    ThreadNamed jobs q j := by
  unfold ThreadNamed at h ⊢
  rwa [hthread, hparams]

theorem Wired.start (jobs : Fin n → Job Name) (files₀ : Files Name) :
    Wired jobs (.start files₀) :=
  ⟨fun _ _ _ _ => rfl, fun _ => trivial⟩

/-- What `main` does to a thread: nothing, or it creates the thread. -/
theorem Wired.mainStep (h : Wired jobs p) (hstep : p.mainStep jobs = some q) :
    Wired jobs q ∧ q.files = p.files ∧
      ∀ i, q.threads i = p.threads i ∧ q.threadParams i = p.threadParams i ∨
        p.threads i = .absent ∧ q.threads i = .created := by
  unfold Process.mainStep at hstep
  split at hstep
  case h_1 k hcreate =>
      split at hstep <;> obtain rfl := Option.some.inj hstep
      case isTrue hk =>
          refine ⟨⟨?_, fun j => ?_⟩, rfl, fun i => ?_⟩
          · intro k' hk' j hj
            obtain rfl := MainStage.create.inj hk'
            have hne : j ≠ ⟨k, hk⟩ := by
              rintro rfl
              simp at hj
            dsimp only
            rw [Function.update_of_ne hne]
            exact h.fresh k hcreate j (by omega)
          · by_cases hj : j = ⟨k, hk⟩
            · subst hj
              simp [ThreadNamed]
            · exact (h.named j).congr (Function.update_of_ne hj _ _) (Function.update_of_ne hj _ _)
          · by_cases hi : i = ⟨k, hk⟩
            · subst hi
              exact .inr ⟨h.fresh k hcreate _ le_rfl, Function.update_self ..⟩
            · exact .inl ⟨Function.update_of_ne hi _ _, Function.update_of_ne hi _ _⟩
      case isFalse =>
          exact ⟨⟨by simp, fun j => (h.named j).congr rfl rfl⟩, rfl, fun _ => .inl ⟨rfl, rfl⟩⟩
  case h_2 k hjoin =>
      split at hstep
      case isTrue =>
          split at hstep
          case h_1 =>
              obtain rfl := Option.some.inj hstep
              exact ⟨⟨by simp, fun j => (h.named j).congr rfl rfl⟩, rfl, fun _ => .inl ⟨rfl, rfl⟩⟩
          case h_2 => simp at hstep
      case isFalse =>
          obtain rfl := Option.some.inj hstep
          exact ⟨⟨by simp, fun j => (h.named j).congr rfl rfl⟩, rfl, fun _ => .inl ⟨rfl, rfl⟩⟩
  case h_3 => simp at hstep

/-- A thread that is not absent may change. -/
theorem Wired.setThread (h : Wired jobs p) {j : Fin n} (hj : p.threads j ≠ .absent)
    (hmain : q.main = p.main) (hparams : q.threadParams = p.threadParams) {thread : Thread Name}
    (hthreads : q.threads = Function.update p.threads j thread) (hnamed : ThreadNamed jobs q j) :
    Wired jobs q := by
  have hsame : ∀ k, k ≠ j → q.threads k = p.threads k := by
    intro k hk
    rw [hthreads, Function.update_of_ne hk]
  refine ⟨fun k hk l hl => ?_, fun k => ?_⟩
  · have habsent := h.fresh k (hmain ▸ hk) l hl
    have hne : l ≠ j := by
      rintro rfl
      exact hj habsent
    rw [hsame l hne, habsent]
  · by_cases hk : k = j
    · exact hk ▸ hnamed
    · exact (h.named k).congr (hsame k hk) (congrFun hparams k)

variable [DecidableEq Name]

theorem Wired.paramsStep (h : Wired jobs p) {j : Fin n}
    (hstep : p.step jobs (.params j) = some q) :
    Wired jobs q ∧ q.files = p.files ∧ q.main = p.main ∧ p.threads j = .created ∧
      q.threads = Function.update p.threads j (.copying (.start (jobs j).src (jobs j).dst)) := by
  simp only [Process.step] at hstep
  split at hstep
  case h_1 params hcreated hparams =>
      obtain rfl := Option.some.inj hstep
      have hnamed := h.named j
      simp only [ThreadNamed, hcreated, hparams, Option.some.injEq] at hnamed
      obtain ⟨id, rfl⟩ := hnamed
      refine ⟨?_, rfl, rfl, hcreated, rfl⟩
      exact h.setThread (by simp [hcreated]) rfl rfl rfl (by simp [ThreadNamed, Copy.start])
  case h_2 => simp at hstep

theorem Wired.copyStep (h : Wired jobs p) {j : Fin n} {outcome : Outcome}
    (hstep : p.step jobs (.copy j outcome) = some q) :
    ∃ c files c', p.threads j = .copying c ∧ c.src = (jobs j).src ∧ c.dst = (jobs j).dst ∧
      Copied p.files c outcome (files, c') ∧ q.files = files ∧ q.main = p.main ∧
      q.threads = Function.update p.threads j
        (if c'.stage = .returned then .ended else .copying c') ∧ Wired jobs q := by
  simp only [Process.step] at hstep
  split at hstep
  case h_1 c hcopying =>
      obtain ⟨⟨files, c'⟩, hcopy, rfl⟩ := Option.map_eq_some_iff.mp hstep
      have hcopied := copied_of_copyStep hcopy
      have hnamed := h.named j
      simp only [ThreadNamed, hcopying] at hnamed
      obtain ⟨hs, hd, _⟩ := hnamed
      obtain ⟨hs', hd', _⟩ := hcopied.frame
      refine ⟨c, files, c', hcopying, hs, hd, hcopied, rfl, rfl, rfl, ?_⟩
      refine h.setThread (by simp [hcopying]) rfl rfl rfl ?_
      simp only [ThreadNamed, Function.update_self]
      by_cases hreturned : c'.stage = .returned
      · rw [if_pos hreturned]
        trivial
      · rw [if_neg hreturned]
        exact ⟨hs'.trans hs, hd'.trans hd, hreturned⟩
  case h_2 => simp at hstep

theorem Wired.step (h : Wired jobs p) {a : ProcessAction n} (hstep : p.step jobs a = some q) :
    Wired jobs q := by
  cases a with
  | main => exact (h.mainStep hstep).1
  | params j => exact (h.paramsStep hstep).1
  | copy j outcome =>
      obtain ⟨_, _, _, _, _, _, _, _, _, _, hwired⟩ := h.copyStep hstep
      exact hwired

end NetLabs.FileCopy
