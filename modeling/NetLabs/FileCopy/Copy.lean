import Mathlib.Data.List.Basic
import Mathlib.Data.UInt
import Mathlib.Logic.Function.Basic
import NetLabs.Library.Machine

/-! # Copying a file

`func_copy`, the same in `templateFiles (1).c` and `templateFilesThreads (1).c`, and
`syscall_copy` are one loop over two interfaces. Files are a map from names to contents; a
step is one call, and its label is what the call returns. `write` gives its bytes to the file,
`fwrite` to the buffer of a stream, which stdio empties when it likes and in `fclose` for the
last time. A read that brings bytes leaves the offset behind them, also where it reports an
error. -/

namespace NetLabs.FileCopy

open Machine

variable {Name : Type*}

/-- A name stands for the file itself: two paths to one file are the same name. -/
abbrev Files (Name : Type*) := Name → Option (List UInt8)

def BUF_SIZE : ℕ := 2048

/-! ## The calls -/

/-- `fopen`, `fread`, `fwrite` and `fclose`, or `open`, `read`, `write` and `close`. -/
inductive Interface where
  | stdio
  | posix
  deriving DecidableEq, Repr

/-- What a read of `BUF_SIZE` bytes may return where `left` bytes are left of the file.
`fread` returns a count, which is short on errors as well; `read` returns -1 on errors, and
0 at the end of the file only. -/
def Interface.MayRead (left : ℕ) (result : ℤ) : Interface → Prop
  | .stdio => 0 ≤ result ∧ result ≤ BUF_SIZE ∧ result ≤ left
  | .posix => result = -1 ∨
      (0 ≤ result ∧ result ≤ BUF_SIZE ∧ result ≤ left ∧ (result = 0 → left = 0))

/-- What a write of `count` bytes may return. `fwrite` returns a `size_t`, which is never
negative. -/
def Interface.MayWrite (count : ℕ) (result : ℤ) : Interface → Prop
  | .stdio => 0 ≤ result ∧ result ≤ count
  | .posix => result = -1 ∨ (0 ≤ result ∧ result ≤ count)

instance (left : ℕ) (result : ℤ) (api : Interface) : Decidable (api.MayRead left result) := by
  cases api <;> unfold Interface.MayRead <;> infer_instance

instance (count : ℕ) (result : ℤ) (api : Interface) : Decidable (api.MayWrite count result) := by
  cases api <;> unfold Interface.MayWrite <;> infer_instance

/-- A file after a write at an offset, with zeros in a gap before it. -/
def overwrite (content : List UInt8) (offset : ℕ) (bytes : List UInt8) : List UInt8 :=
  if bytes = [] then content
  else content.take offset ++ List.replicate (offset - content.length) 0 ++ bytes ++
    content.drop (offset + bytes.length)

/-! ## The function -/

/-- Where the function stands, with the bytes in `buf` that it is about to write. -/
inductive Stage where
  | openSrc
  | openDst
  | read
  | write (buf : List UInt8)
  | close
  | returned
  | exited
  deriving DecidableEq, Repr

/-- Is the destination open? -/
def Stage.dstOpen : Stage → Bool
  | .read | .write _ | .close => true
  | _ => false

/-- A call of the function, with the offsets of its two files and the bytes of the destination
that are still in the buffer of the stream. -/
structure Copy (Name : Type*) where
  src : Name
  dst : Name
  stage : Stage
  rpos : ℕ
  wpos : ℕ
  pending : List UInt8

def Copy.start (src dst : Name) : Copy Name :=
  ⟨src, dst, .openSrc, 0, 0, []⟩

/-- What the next call returns, or what becomes of bytes in the buffer: stdio writes the first
`count` of them, or its write fails and they are lost. The last such steps before `closed` are
those that `fclose` makes. -/
inductive Outcome where
  | opened (success : Bool)
  | read (result : ℤ)
  | wrote (result : ℤ)
  | flushed (count : ℕ)
  | lost
  | closed
  deriving DecidableEq, Repr

/-- The source as it is now. -/
def Copy.source (files : Files Name) (c : Copy Name) : List UInt8 :=
  (files c.src).getD []

/-- What is left of it from the offset on. That a stream reads ahead makes a difference only
where somebody writes to the source. -/
def Copy.rest (files : Files Name) (c : Copy Name) : List UInt8 :=
  (c.source files).drop c.rpos

/-- `fwrite` has taken the bytes. -/
def Copy.accept (c : Copy Name) (bytes : List UInt8) : Copy Name :=
  { c with stage := .read, pending := c.pending ++ bytes }

variable [DecidableEq Name]

/-- The first `count` bytes of the buffer go into the file. -/
def Copy.flush (files : Files Name) (c : Copy Name) (count : ℕ) : Files Name × Copy Name :=
  (Function.update files c.dst
    (some (overwrite ((files c.dst).getD []) c.wpos (c.pending.take count))),
    { c with wpos := c.wpos + count, pending := c.pending.drop count })

/-- The bytes that `fwrite` or `write` has taken, the latter without a buffer. -/
def Copy.put (files : Files Name) (c : Copy Name) (bytes : List UInt8) :
    Interface → Files Name × Copy Name
  | .stdio => (files, c.accept bytes)
  | .posix => (c.accept bytes).flush files (c.accept bytes).pending.length

/-- The next call of the function and what it does with the result. Both interfaces test a
read with `> 0` and a write with `< 0`, and neither looks at the result of closing. -/
def copyStep (api : Interface) : Files Name × Copy Name → Outcome →
    Option (Files Name × Copy Name)
  | (files, c), outcome =>
    match c.stage, outcome with
    | .openSrc, .opened success =>
        if success then
          if files c.src ≠ none then some (files, { c with stage := .openDst }) else none
        else some (files, { c with stage := .exited })
    | .openDst, .opened success =>
        if success then
          some (Function.update files c.dst (some []), { c with stage := .read })
        else some (files, { c with stage := .exited })
    | .read, .read result =>
        if api.MayRead (c.rest files).length result then
          if 0 < result then
            some (files, { c with
              stage := .write ((c.rest files).take result.toNat)
              rpos := c.rpos + result.toNat })
          else some (files, { c with stage := .close })
        else none
    | .write buf, .wrote result =>
        if api.MayWrite buf.length result then
          if result < 0 then some (files, { c with stage := .exited })
          else some (c.put files (buf.take result.toNat) api)
        else none
    | .close, .closed => some (files, { c with stage := .returned, pending := [] })
    | stage, .flushed count =>
        if stage.dstOpen ∧ 0 < count ∧ count ≤ c.pending.length then some (c.flush files count)
        else none
    | stage, .lost =>
        if stage.dstOpen ∧ c.pending ≠ [] then some (files, { c with pending := [] }) else none
    | _, _ => none

def funcCopy : Files Name × Copy Name → Outcome → Option (Files Name × Copy Name) :=
  copyStep .stdio

def syscallCopy : Files Name × Copy Name → Outcome → Option (Files Name × Copy Name) :=
  copyStep .posix

/-! ## Its steps -/

/-- What `copyStep` can do, each step with its guard. -/
inductive Copied (files : Files Name) (c : Copy Name) :
    Outcome → Files Name × Copy Name → Prop
  | openSrc (content : List UInt8) (stage : c.stage = .openSrc)
      (exist : files c.src = some content) :
      Copied files c (.opened true) (files, { c with stage := .openDst })
  | openDst (stage : c.stage = .openDst) : Copied files c (.opened true)
      (Function.update files c.dst (some []), { c with stage := .read })
  | fail (stage : c.stage = .openSrc ∨ c.stage = .openDst) :
      Copied files c (.opened false) (files, { c with stage := .exited })
  | read (count : ℕ) (stage : c.stage = .read) (pos : 0 < count)
      (le : count ≤ (c.rest files).length) : Copied files c (.read count) (files, { c with
        stage := .write ((c.rest files).take count)
        rpos := c.rpos + count })
  | endLoop (result : ℤ) (stage : c.stage = .read) (nonpos : result ≤ 0) :
      Copied files c (.read result) (files, { c with stage := .close })
  | write (buf : List UInt8) (count : ℕ) (stage : c.stage = .write buf)
      (le : count ≤ buf.length) :
      Copied files c (.wrote count) (files, c.accept (buf.take count))
  | writeThrough (buf : List UInt8) (count : ℕ) (stage : c.stage = .write buf)
      (le : count ≤ buf.length) : Copied files c (.wrote count)
      ((c.accept (buf.take count)).flush files (c.accept (buf.take count)).pending.length)
  | writeError (buf : List UInt8) (result : ℤ) (stage : c.stage = .write buf)
      (neg : result < 0) : Copied files c (.wrote result) (files, { c with stage := .exited })
  | close (stage : c.stage = .close) :
      Copied files c .closed (files, { c with stage := .returned, pending := [] })
  | flush (count : ℕ) (dstOpen : c.stage.dstOpen = true) (pos : 0 < count)
      (le : count ≤ c.pending.length) : Copied files c (.flushed count) (c.flush files count)
  | lose (dstOpen : c.stage.dstOpen = true) (nonempty : c.pending ≠ []) :
      Copied files c .lost (files, { c with pending := [] })

theorem copied_of_copyStep {api : Interface} {files : Files Name} {c : Copy Name}
    {outcome : Outcome} {t : Files Name × Copy Name}
    (h : copyStep api (files, c) outcome = some t) : Copied files c outcome t := by
  simp only [copyStep] at h
  split at h
  case h_1 success hstage =>
      split at h
      case isTrue hsuccess =>
          split at h
          case isTrue hexist =>
              obtain ⟨content, hcontent⟩ := Option.ne_none_iff_exists'.mp hexist
              obtain rfl := Option.some.inj h
              exact hsuccess ▸ .openSrc content hstage hcontent
          case isFalse => simp at h
      case isFalse hsuccess =>
          obtain rfl := Option.some.inj h
          obtain rfl : success = false := by simpa using hsuccess
          exact .fail (.inl hstage)
  case h_2 success hstage =>
      split at h
      case isTrue hsuccess =>
          obtain rfl := Option.some.inj h
          exact hsuccess ▸ .openDst hstage
      case isFalse hsuccess =>
          obtain rfl := Option.some.inj h
          obtain rfl : success = false := by simpa using hsuccess
          exact .fail (.inr hstage)
  case h_3 result hstage =>
      split at h
      case isTrue hmay =>
          split at h
          case isTrue hpos =>
              obtain ⟨count, rfl⟩ := Int.eq_ofNat_of_zero_le hpos.le
              obtain rfl := Option.some.inj h
              refine .read count hstage (by omega) ?_
              cases api <;> simp only [Interface.MayRead] at hmay <;> omega
          case isFalse hpos =>
              obtain rfl := Option.some.inj h
              exact .endLoop result hstage (not_lt.mp hpos)
      case isFalse => simp at h
  case h_4 buf result hstage =>
      split at h
      case isTrue hmay =>
          split at h
          case isTrue hneg =>
              obtain rfl := Option.some.inj h
              exact .writeError buf result hstage hneg
          case isFalse hneg =>
              obtain ⟨count, rfl⟩ := Int.eq_ofNat_of_zero_le (not_lt.mp hneg)
              obtain rfl := Option.some.inj h
              cases api with
              | stdio => exact .write buf count hstage (by simpa using hmay.2)
              | posix =>
                  refine .writeThrough buf count hstage ?_
                  simp only [Interface.MayWrite] at hmay
                  omega
      case isFalse => simp at h
  case h_5 hstage =>
      obtain rfl := Option.some.inj h
      exact .close hstage
  case h_6 count =>
      obtain ⟨⟨hopen, hpos, hle⟩, h⟩ := Option.ite_none_right_eq_some.mp h
      obtain rfl := Option.some.inj h
      exact .flush count hopen hpos hle
  case h_7 =>
      obtain ⟨⟨hopen, hpending⟩, h⟩ := Option.ite_none_right_eq_some.mp h
      obtain rfl := Option.some.inj h
      exact .lose hopen hpending
  case h_8 => simp at h

/-- A step changes no file but the destination, and neither name. -/
theorem Copied.frame {files : Files Name} {c : Copy Name} {outcome : Outcome}
    {t : Files Name × Copy Name} (h : Copied files c outcome t) :
    t.2.src = c.src ∧ t.2.dst = c.dst ∧ ∀ name, name ≠ c.dst → t.1 name = files name := by
  cases h with
  | openDst | writeThrough | flush =>
      exact ⟨rfl, rfl, fun name hname => Function.update_of_ne hname _ _⟩
  | _ => exact ⟨rfl, rfl, fun _ _ => rfl⟩

end NetLabs.FileCopy
