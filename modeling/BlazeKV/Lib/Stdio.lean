import Mathlib.Data.List.TakeDrop

/-! Output streams with a buffer. A write takes some of its bytes into the buffer, and some
of what is buffered reaches the file, in order; how many is not for the caller to say. -/

namespace BlazeKV.Lib

/-- What has reached the file, and what is buffered behind it. -/
structure Stream (β : Type) where
  disk : List β
  buf : List β

/-- What one write does. -/
structure Transfer where
  accepted : ℕ
  drained : ℕ

namespace Stream

variable {β : Type} (s : Stream β)

/-- The next `n` bytes reach the file. -/
def drain (n : ℕ) : Stream β := ⟨s.disk ++ s.buf.take n, s.buf.drop n⟩

/-- `fwrite`, and how much it says it has taken. -/
def fwrite (t : Transfer) (p : List β) : Stream β × ℕ :=
  (drain ⟨s.disk, s.buf ++ p.take t.accepted⟩ t.drained, min t.accepted p.length)

def content : List β := s.disk ++ s.buf

@[simp] theorem content_drain (n : ℕ) : (s.drain n).content = s.content := by
  simp [content, drain]

theorem length_buf_drain (n : ℕ) : (s.drain n).buf.length = s.buf.length - n := by
  simp [drain]

/-- A write that reports success has taken everything. -/
theorem fwrite_of_success {t : Transfer} {p : List β} (h : (s.fwrite t p).2 = p.length) :
    (s.fwrite t p).1.content = s.content ++ p ∧
      (s.fwrite t p).1.buf.length = s.buf.length + p.length - t.drained := by
  have hle : p.length ≤ t.accepted := by
    simp only [fwrite] at h
    omega
  simp only [fwrite, content_drain, length_buf_drain, List.take_of_length_le hle, List.length_append]
  exact ⟨(List.append_assoc _ _ _).symm, trivial⟩

theorem fwrite_success_iff {t : Transfer} {p : List β} : (s.fwrite t p).2 = p.length ↔ p.length ≤ t.accepted := by
  simp only [fwrite]
  omega

/-- The file is complete when all that was buffered has been drained. -/
theorem disk_drain_eq_iff (n m : ℕ) : ((s.drain n).drain m).disk = s.content ↔ s.buf.length ≤ n + m := by
  have htake : s.buf.take n ++ (s.buf.drop n).take m = s.buf.take (n + m) := List.take_add.symm
  simp only [drain, content, List.append_assoc, List.append_cancel_left_eq, htake, List.take_eq_self_iff]

end Stream

end BlazeKV.Lib
