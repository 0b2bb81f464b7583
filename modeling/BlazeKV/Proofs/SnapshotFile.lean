import BlazeKV.Spec.SnapshotFile

/-! When `save` replaces a snapshot by a whole one. -/

namespace BlazeKV.Snapshot

/-! The calls write the snapshot. -/

theorem flatten_strCalls (s : Bytes) : (strCalls s).flatten = putStr s := by simp [strCalls, putStr]

theorem flatten_flatMap {α : Type} (f : α → List Bytes) (l : List α) :
    (l.flatMap f).flatten = l.flatMap fun a => (f a).flatten := by
  rw [List.flatMap, List.flatten_flatten, List.map_map]
  rfl

theorem flatten_valueCalls (obj : Object) : (valueCalls obj).flatten = writeValue obj := by
  cases obj <;>
    simp only [valueCalls, writeValue, flatten_strCalls, List.flatten_cons, flatten_flatMap, List.flatten_append,
      List.flatten_nil, List.append_nil]

theorem flatten_saveCalls (db : Keyspace) : (saveCalls db).flatten = save db := by
  have hobj : ∀ key deadline obj, (objectCalls key deadline obj).flatten = writeObject key deadline obj := by
    intro key deadline obj
    simp only [objectCalls, writeObject, List.flatten_cons, List.flatten_append, flatten_strCalls,
      flatten_valueCalls, List.singleton_append]
  simp only [saveCalls, save, List.flatten_cons, flatten_flatMap, hobj]

/-! Successful writes. -/

/-- Every `fwrite` reports success. -/
def Outcomes.Accepts (o : Outcomes) (calls : List (Bytes × ℕ)) : Prop :=
  ∀ e ∈ calls, e.1.length ≤ (o.transfers e.2).accepted

/-- How many bytes are buffered behind the calls. -/
def Outcomes.buffered (o : Outcomes) (calls : List (Bytes × ℕ)) (n : ℕ) : ℕ :=
  calls.foldl (fun n e => n + e.1.length - (o.transfers e.2).drained) n

/-- Once a write has failed, no more is written. -/
theorem writeAll_stuck (o : Outcomes) (calls : List (Bytes × ℕ)) {w : Writer} (h : w.ok = false) :
    w.writeAll o calls = w := by
  unfold Writer.writeAll
  induction calls with
  | nil => rfl
  | cons e calls ih =>
    have hb : w.bytes (o.transfers e.2) e.1 = w := by simp [Writer.bytes, h]
    rw [List.foldl_cons, hb]
    exact ih

/-- The run lemma of the writer. -/
theorem writeAll_spec (o : Outcomes) (calls : List (Bytes × ℕ)) {w : Writer} (hw : w.ok = true) :
    let w' := w.writeAll o calls
    (w'.ok = true ↔ o.Accepts calls) ∧ (w'.ok = true →
      w'.file.content = w.file.content ++ (calls.map Prod.fst).flatten ∧
        w'.file.buf.length = o.buffered calls w.file.buf.length) := by
  induction calls generalizing w with
  | nil => simp [Writer.writeAll, Outcomes.Accepts, Outcomes.buffered, hw]
  | cons e calls ih =>
    have hb : w.bytes (o.transfers e.2) e.1 =
        ⟨(w.file.fwrite (o.transfers e.2) e.1).1, (w.file.fwrite (o.transfers e.2) e.1).2 = e.1.length⟩ := by
      simp [Writer.bytes, hw]
    rw [Writer.writeAll, List.foldl_cons, hb, ← Writer.writeAll]
    by_cases hs : (w.file.fwrite (o.transfers e.2) e.1).2 = e.1.length
    · have hacc : o.Accepts (e :: calls) ↔ o.Accepts calls := by
        simp [Outcomes.Accepts, w.file.fwrite_success_iff.1 hs]
      obtain ⟨hcontent, hbuf⟩ := w.file.fwrite_of_success hs
      obtain ⟨hok, hrest⟩ := ih (w := ⟨(w.file.fwrite (o.transfers e.2) e.1).1,
        (w.file.fwrite (o.transfers e.2) e.1).2 = e.1.length⟩) (by simpa using hs)
      refine ⟨hok.trans hacc.symm, fun h => ?_⟩
      obtain ⟨h1, h2⟩ := hrest h
      refine ⟨by rw [h1, hcontent, List.map_cons, List.flatten_cons, List.append_assoc], ?_⟩
      rw [h2, hbuf]
      rfl
    · rw [writeAll_stuck o calls (by simpa using hs)]
      have hacc : ¬o.Accepts (e :: calls) := fun h => hs (w.file.fwrite_success_iff.2 (h e List.mem_cons_self))
      simp [hs, hacc]

/-- `save` puts the whole snapshot at its path and reports success, or leaves the previous
one and reports failure. This is so just when `fflush` and `fclose` write what is buffered
before a rename that nothing else has stopped. -/
theorem save_replaces_iff (o : Outcomes) (db : Keyspace) (d : Dir) :
    ((saveFile o db d).1.target = some (save db) ∧ (saveFile o db d).2 = true ∨
      (saveFile o db d).1.target = d.target ∧ (saveFile o db d).2 = false) ↔
    (o.opened → o.Accepts (saveCalls db).zipIdx → o.renamed →
      o.buffered (saveCalls db).zipIdx 0 ≤ o.flushed + o.closed) := by
  obtain ⟨hok, hrest⟩ := writeAll_spec o (saveCalls db).zipIdx (w := ⟨⟨[], []⟩, true⟩) rfl
  simp only [saveFile]
  generalize Writer.writeAll o ⟨⟨[], []⟩, true⟩ (saveCalls db).zipIdx = w at hok hrest
  rw [← hok]
  cases ho : o.opened with
  | false => simp
  | true =>
    cases hw : w.ok with
    | false => simp
    | true =>
      cases hr : o.renamed with
      | false => simp
      | true =>
        obtain ⟨hcontent, hbuf⟩ := hrest hw
        rw [List.zipIdx_map_fst, flatten_saveCalls] at hcontent
        have hdisk := w.file.disk_drain_eq_iff o.flushed o.closed
        rw [hcontent, hbuf] at hdisk
        simpa [Lib.Stream.content] using hdisk

/-- All calls of `fwrite` only fill the buffer, and the disk is full when it is flushed: the
previous snapshot is replaced by an empty file. -/
theorem save_replaces_by_nothing : ¬ ∀ (o : Outcomes) (db : Keyspace) (d : Dir),
    (saveFile o db d).1.target = some (save db) ∧ (saveFile o db d).2 = true ∨
      (saveFile o db d).1.target = d.target ∧ (saveFile o db d).2 = false := by
  intro h
  have hsave := h ⟨true, fun _ => ⟨100, 0⟩, 0, 0, true⟩ .empty ⟨some (save .empty), none⟩
  have htarget : (saveFile ⟨true, fun _ => ⟨100, 0⟩, 0, 0, true⟩ .empty ⟨some (save .empty), none⟩).1.target =
      some [] := by decide +kernel
  have hret : (saveFile ⟨true, fun _ => ⟨100, 0⟩, 0, 0, true⟩ .empty ⟨some (save .empty), none⟩).2 = true := by
    decide +kernel
  rw [htarget, hret] at hsave
  rcases hsave with ⟨h, -⟩ | ⟨-, h⟩
  · exact absurd h (by decide +kernel)
  · cases h

end BlazeKV.Snapshot
