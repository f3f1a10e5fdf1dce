import Mathlib.Data.List.Basic
import Mathlib.Data.UInt

/-! # Source and destination files

The clients read their source in pieces of at most ten bytes; the servers write theirs at
a file offset, into a file opened without truncation. -/

namespace NetLabs

/-- What one `read(fp, packet.data, sizeof(packet.data))` brings before end of file. -/
structure Chunk where
  bytes : List UInt8
  length_pos : 0 < bytes.length
  length_le : bytes.length ≤ 10
  deriving DecidableEq, Repr

/-- The bytes that a sequence of reads has brought. -/
def contents (chunks : List Chunk) : List UInt8 :=
  chunks.flatMap Chunk.bytes

@[simp] theorem contents_nil : contents [] = [] := rfl

@[simp] theorem contents_cons (c : Chunk) (cs : List Chunk) :
    contents (c :: cs) = c.bytes ++ contents cs := rfl

@[simp] theorem contents_append (cs ds : List Chunk) :
    contents (cs ++ ds) = contents cs ++ contents ds := by
  simp [contents]

/-- The reads of a regular file, each of which brings all it can. -/
def fullReads : List UInt8 → List Chunk
  | [] => []
  | b :: bs =>
      ⟨(b :: bs).take 10, by simp, by simp⟩ :: fullReads ((b :: bs).drop 10)
  termination_by bs => bs.length
  decreasing_by simp only [List.length_drop, List.length_cons]; omega

/-- Every file can be cut into reads. -/
@[simp] theorem contents_fullReads (bs : List UInt8) : contents (fullReads bs) = bs := by
  fun_induction fullReads bs with
  | case1 => rfl
  | case2 b bs ih => rw [contents_cons, ih, List.take_append_drop]

/-! ## Packets of a file -/

/-- The bytes of packet `k`: a chunk, or nothing in the packet after the last one. -/
def bytesAt (chunks : List Chunk) (k : ℕ) : List UInt8 :=
  match chunks[k]? with
  | some chunk => chunk.bytes
  | none => []

theorem length_bytesAt_le (chunks : List Chunk) (k : ℕ) : (bytesAt chunks k).length ≤ 10 := by
  unfold bytesAt
  split
  · rename_i chunk _
    exact chunk.length_le
  · simp

/-- From packet `k` on there is nothing left to send, or a chunk and those after it. -/
theorem todo_cases {chunks todo : List Chunk} {k : ℕ} (htodo : todo = chunks.drop k)
    (hle : k ≤ chunks.length) :
    (todo = [] ∧ k = chunks.length) ∨
      ∃ chunk, todo = chunk :: chunks.drop (k + 1) ∧ chunks[k]? = some chunk := by
  rcases hle.lt_or_eq with hlt | rfl
  · right
    exact ⟨chunks[k], htodo.trans (List.drop_eq_getElem_cons hlt),
      List.getElem?_eq_getElem hlt⟩
  · left
    exact ⟨htodo.trans List.drop_length, rfl⟩

/-- The first `m` packets carry the first `m` chunks. -/
theorem flatMap_bytesAt_range (chunks : List Chunk) (m : ℕ) :
    (List.range m).flatMap (bytesAt chunks) = contents (chunks.take m) := by
  induction m with
  | zero => simp
  | succ m ih =>
      rw [List.range_succ, List.flatMap_append, ih, List.take_add_one, contents_append]
      congr 1
      unfold bytesAt
      cases hget : chunks[m]? <;> simp [hget]

/-! ## The destination -/

/-- A file open for writing, its offset never past its end. -/
structure OpenFile where
  content : List UInt8
  offset : ℕ
  offset_le : offset ≤ content.length
  deriving DecidableEq, Repr

/-- `open(path, O_CREAT | O_RDWR, 0666)`: what the file held before stays. -/
def OpenFile.reopen (old : List UInt8) : OpenFile :=
  ⟨old, 0, Nat.zero_le _⟩

/-- `write` at the offset, all bytes taken: it overwrites what lies there, extends the
file where it ends, and moves the offset on. -/
def OpenFile.write (f : OpenFile) (bs : List UInt8) : OpenFile where
  content := f.content.take f.offset ++ bs ++ f.content.drop (f.offset + bs.length)
  offset := f.offset + bs.length
  offset_le := by
    have := f.offset_le
    simp only [List.length_append, List.length_take, List.length_drop]
    omega

theorem OpenFile.ext' {f g : OpenFile} (hc : f.content = g.content) (ho : f.offset = g.offset) :
    f = g := by
  cases f
  cases g
  simp_all

@[simp] theorem OpenFile.write_nil (f : OpenFile) : f.write [] = f :=
  OpenFile.ext' (by simp [OpenFile.write]) (by simp [OpenFile.write])

/-- Two writes in a row are one write of both. -/
theorem OpenFile.write_write (f : OpenFile) (bs cs : List UInt8) :
    (f.write bs).write cs = f.write (bs ++ cs) := by
  have hlength : (f.content.take f.offset).length = f.offset := by
    simp [List.length_take, Nat.min_eq_left f.offset_le]
  apply OpenFile.ext'
  · simp only [OpenFile.write]
    rw [List.take_left' (by simp [hlength]), ← List.drop_drop,
      List.drop_left' (by simp [hlength]), List.drop_drop]
    simp [List.append_assoc, Nat.add_assoc]
  · simp [OpenFile.write, Nat.add_assoc]

/-- Written from the start, new bytes cover as many old ones; what is left of a longer old
file stays behind them. -/
theorem OpenFile.content_reopen_write (old bs : List UInt8) :
    ((OpenFile.reopen old).write bs).content = bs ++ old.drop bs.length := by
  simp [OpenFile.reopen, OpenFile.write]

/-- A transfer leaves exactly the new bytes when the old file was no longer than they are. -/
theorem OpenFile.content_reopen_write_eq_iff (old bs : List UInt8) :
    ((OpenFile.reopen old).write bs).content = bs ↔ old.length ≤ bs.length := by
  rw [OpenFile.content_reopen_write, List.append_right_eq_self, List.drop_eq_nil_iff]

end NetLabs
