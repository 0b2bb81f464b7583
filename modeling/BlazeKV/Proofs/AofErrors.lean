import BlazeKV.Lib.Machine
import BlazeKV.Spec.AofFile
import Mathlib.Data.List.Infix
import Mathlib.Data.List.Sublists

/-! What is in the file of a log after write errors. -/

namespace BlazeKV

/-- Whole records in the order of `rs`, and at the end at most one that is incomplete. -/
def RecordsOf (rs : List Bytes) (data : Bytes) : Prop :=
  ∃ sel p, data = sel.flatten ++ p ∧ (p = [] ∧ sel.Sublist rs ∨ ∃ r, (sel ++ [r]).Sublist rs ∧ p <+: r ∧ p ≠ r)

/-- The file and, beside it, the records in the buffer, and whether an error has cut one. -/
structure Watched where
  file : LogFile
  pending : List Bytes
  cut : Bool

namespace Watched

/-- The records in the buffer when a call flushes it. -/
def before (s : Watched) (c : LogCall) : List Bytes := if s.file.opened then s.pending ++ c.record else s.pending

/-- What a call adds to the file. -/
def added (s : Watched) (c : LogCall) : Bytes := (s.file.call c).disk.drop s.file.disk.length

/-- Whether the addition ends between two records. -/
def even (s : Watched) (c : LogCall) : Bool :=
  (List.range ((s.before c).length + 1)).any fun k => s.added c = ((s.before c).take k).flatten

def step (s : Watched) (c : LogCall) : Watched × Unit :=
  (⟨s.file.call c, if (s.file.call c).buf = [] then [] else s.before c, s.cut || !s.even c⟩, ())

def start (policy : FsyncPolicy) (now : ℕ) : Watched := ⟨LogFile.openFile policy [] now, [], false⟩

/-- The condition on a call: behind a record that was cut nothing is written. -/
def Silent (s : Watched) (c : LogCall) : Prop := s.cut → s.added c = []

instance (s : Watched) : DecidablePred s.Silent := fun c => inferInstanceAs (Decidable (s.cut = true → s.added c = []))

end Watched

/-! The calls, as far as the file is concerned. -/

theorem writeLoop_prefix (rest : Bytes) (rs : List WriteResult) : writeLoop rest rs <+: rest := by
  induction rs generalizing rest with
  | nil => exact List.prefix_rfl
  | cons r rs ih =>
    unfold writeLoop
    split_ifs
    · exact List.nil_prefix
    · cases r with
      | wrote n =>
        obtain ⟨t, ht⟩ := ih (rest.drop n)
        exact ⟨t, by rw [List.append_assoc, ht, List.take_append_drop]⟩
      | interrupted => exact ih rest
      | failed => exact List.nil_prefix

/-- A call keeps the buffer with what it appends, or writes a prefix of it and empties it. -/
theorem LogFile.call_cases (l : LogFile) (c : LogCall) :
    ((l.call c).disk = l.disk ∧ (l.call c).buf = l.buf ++ (if l.opened then c.record.flatten else [])) ∨
      ∃ w, w <+: l.buf ++ (if l.opened then c.record.flatten else []) ∧ (l.call c).disk = l.disk ++ w ∧ (l.call c).buf = [] := by
  have hflush : ∀ (l : LogFile) rs, ((l.flush rs).disk = l.disk ∧ (l.flush rs).buf = l.buf) ∨
      ∃ w, w <+: l.buf ∧ (l.flush rs).disk = l.disk ++ w ∧ (l.flush rs).buf = [] := by
    intro l rs
    unfold LogFile.flush
    split_ifs
    · exact .inr ⟨_, writeLoop_prefix _ rs, rfl, rfl⟩
    · exact .inl ⟨rfl, rfl⟩
  have hfsync : ∀ (l : LogFile) ok, (l.doFsync ok).disk = l.disk ∧ (l.doFsync ok).buf = l.buf := by
    intro l ok
    unfold LogFile.doFsync
    split_ifs <;> exact ⟨rfl, rfl⟩
  cases c with
  | append encoded rs ok =>
    cases ho : l.opened with
    | false => exact .inl ⟨by simp [LogFile.call, LogFile.append, ho], by simp [LogFile.call, LogFile.append, ho]⟩
    | true =>
      have happend : ∃ l' : LogFile, (l.call (.append encoded rs ok)).disk = l'.disk ∧
          (l.call (.append encoded rs ok)).buf = l'.buf ∧
            (l' = { l with buf := l.buf ++ encoded } ∨ l' = LogFile.flush rs { l with buf := l.buf ++ encoded }) := by
        unfold LogFile.call LogFile.append
        dsimp only
        rw [if_pos ho]
        split_ifs
        · exact ⟨LogFile.flush rs { l with buf := l.buf ++ encoded }, (hfsync _ ok).1, (hfsync _ ok).2, .inr rfl⟩
        · exact ⟨LogFile.flush rs { l with buf := l.buf ++ encoded }, rfl, rfl, .inr rfl⟩
        · exact ⟨{ l with buf := l.buf ++ encoded }, (hfsync _ ok).1, (hfsync _ ok).2, .inl rfl⟩
        · exact ⟨{ l with buf := l.buf ++ encoded }, rfl, rfl, .inl rfl⟩
      obtain ⟨l', hd, hb, hl⟩ := happend
      rw [hd, hb]
      simp only [LogCall.record, List.flatten_singleton, if_true]
      rcases hl with rfl | rfl
      · exact .inl ⟨rfl, rfl⟩
      · exact hflush _ rs
  | tick now rs ok =>
    simp only [LogCall.record, List.flatten_nil, ite_self, List.append_nil, LogFile.call, LogFile.tick]
    split_ifs
    · rw [(hfsync _ ok).1, (hfsync _ ok).2]
      exact hflush l rs
    · exact .inl ⟨rfl, rfl⟩
  | flush rs =>
    simp only [LogCall.record, List.flatten_nil, ite_self, List.append_nil]
    exact hflush l rs
  | close rs ok =>
    simp only [LogCall.record, List.flatten_nil, ite_self, List.append_nil, LogFile.call, LogFile.close]
    split_ifs
    · rw [(hfsync _ ok).1, (hfsync _ ok).2]
      exact hflush l rs
    · exact .inl ⟨rfl, rfl⟩

/-- A prefix of records one after another ends between two of them or in one of them. -/
theorem prefix_flatten {β : Type} {rs : List (List β)} {w : List β} (h : w <+: rs.flatten) :
    ∃ as p, w = as.flatten ++ p ∧ (p = [] ∧ as <+: rs ∨ ∃ r, as ++ [r] <+: rs ∧ p <+: r ∧ p ≠ r) := by
  induction rs generalizing w with
  | nil => exact ⟨[], [], by simpa using h, .inl ⟨rfl, List.prefix_rfl⟩⟩
  | cons r rs ih =>
    rw [List.flatten_cons] at h
    rcases List.prefix_or_prefix_of_prefix h (List.prefix_append r rs.flatten) with hw | ⟨w', rfl⟩
    · by_cases hr : w = r
      · exact ⟨[r], [], by simp [hr], .inl ⟨rfl, ⟨rs, rfl⟩⟩⟩
      · exact ⟨[], w, rfl, .inr ⟨r, ⟨rs, rfl⟩, hw, hr⟩⟩
    · obtain ⟨as, p, rfl, hcase⟩ := ih ((List.prefix_append_right_inj r).1 h)
      refine ⟨r :: as, p, by simp, hcase.imp (fun h => ⟨h.1, List.cons_prefix_cons.2 ⟨rfl, h.2⟩⟩) ?_⟩
      rintro ⟨r', hr', hp⟩
      exact ⟨r', List.cons_prefix_cons.2 ⟨rfl, hr'⟩, hp⟩

/-- What holds of the file while nothing is written behind a cut. -/
structure Watched.Inv (s : Watched) (rs : List Bytes) : Prop where
  buf : s.file.buf = s.pending.flatten
  whole : s.cut = false → ∃ sel : List Bytes, s.file.disk = sel.flatten ∧ (sel ++ s.pending).Sublist rs
  torn : s.cut = true → ∃ sel p r, s.file.disk = sel.flatten ++ p ∧ p <+: r ∧ p ≠ r ∧ (sel ++ r :: s.pending).Sublist rs

namespace Watched

variable {s : Watched} {rs : List Bytes} {c : LogCall}

theorem before_flatten (h : s.Inv rs) : (s.before c).flatten = s.file.buf ++ (if s.file.opened then c.record.flatten else []) := by
  unfold before
  split_ifs <;> simp [h.buf]

/-- The records that wait when a call flushes come behind those that waited before. -/
theorem before_sublist {xs : List Bytes} (h : (xs ++ s.pending).Sublist rs) :
    (xs ++ s.before c).Sublist (rs ++ c.record) := by
  unfold before
  split_ifs
  · rw [← List.append_assoc]
    exact h.append (List.Sublist.refl _)
  · exact h.trans (List.sublist_append_left _ _)

theorem even_iff : s.even c = true ↔ ∃ as, as <+: s.before c ∧ s.added c = as.flatten := by
  simp only [even, List.any_eq_true, List.mem_range, decide_eq_true_eq]
  constructor
  · rintro ⟨k, -, hk⟩
    exact ⟨_, List.take_prefix k _, hk⟩
  · rintro ⟨as, has, hk⟩
    exact ⟨as.length, Nat.lt_succ_of_le has.length_le, by rw [hk, ← List.prefix_iff_eq_take.1 has]⟩

/-- A call that writes nothing. -/
theorem Inv.waits (h : s.Inv rs) (hdisk : (s.file.call c).disk = s.file.disk)
    (hbuf : (s.file.call c).buf = s.file.buf ++ (if s.file.opened then c.record.flatten else [])) :
    (s.step c).1.Inv (rs ++ c.record) := by
  have hadded : s.added c = [] := by rw [added, hdisk, List.drop_length]
  have heven : s.even c = true := even_iff.2 ⟨[], List.nil_prefix, hadded⟩
  have hstep : (s.step c).1 = ⟨s.file.call c, if (s.file.call c).buf = [] then [] else s.before c, s.cut⟩ := by
    simp [step, heven]
  have hpending : (if (s.file.call c).buf = [] then [] else s.before c).Sublist (s.before c) := by
    split_ifs
    · exact List.nil_sublist _
    · exact List.Sublist.refl _
  rw [hstep]
  refine ⟨?_, fun hcut => ?_, fun hcut => ?_⟩
  · dsimp only
    split_ifs with hb
    · exact hb
    · rw [hbuf, before_flatten h]
  · obtain ⟨sel, hsel, hsub⟩ := h.whole hcut
    exact ⟨sel, hdisk.trans hsel, ((List.Sublist.refl sel).append hpending).trans (before_sublist hsub)⟩
  · obtain ⟨sel, p, r, hsel, hp, hne, hsub⟩ := h.torn hcut
    have hsub' : ((sel ++ [r]) ++ s.before c).Sublist (rs ++ c.record) := before_sublist (by simpa using hsub)
    refine ⟨sel, p, r, hdisk.trans hsel, hp, hne, ?_⟩
    have := ((List.Sublist.refl (sel ++ [r])).append hpending).trans hsub'
    simpa using this

/-- A call that flushes. -/
theorem Inv.flushes (h : s.Inv rs) (hok : s.Silent c) {w : Bytes}
    (hw : w <+: s.file.buf ++ (if s.file.opened then c.record.flatten else []))
    (hdisk : (s.file.call c).disk = s.file.disk ++ w) (hbuf : (s.file.call c).buf = []) :
    (s.step c).1.Inv (rs ++ c.record) := by
  have hadded : s.added c = w := by rw [added, hdisk, List.drop_left]
  have hstep : (s.step c).1 = ⟨s.file.call c, [], s.cut || !s.even c⟩ := by simp [step, hbuf]
  rw [hstep]
  rw [← before_flatten h] at hw
  refine ⟨hbuf, fun hcut => ?_, fun hcut => ?_⟩
  · simp only [Bool.or_eq_false_iff, Bool.not_eq_false'] at hcut
    obtain ⟨sel, hsel, hsub⟩ := h.whole hcut.1
    obtain ⟨as, has, hflat⟩ := even_iff.1 hcut.2
    refine ⟨sel ++ as, ?_, ?_⟩
    · rw [hdisk, hsel, ← hadded, hflat, List.flatten_append]
    · rw [List.append_nil]
      exact ((List.Sublist.refl sel).append has.sublist).trans (before_sublist hsub)
  · cases hc : s.cut with
    | true =>
      obtain ⟨sel, p, r, hsel, hp, hne, hsub⟩ := h.torn hc
      have hnil : w = [] := hadded.symm.trans (hok hc)
      refine ⟨sel, p, r, by rw [hdisk, hnil, List.append_nil, hsel], hp, hne, ?_⟩
      have hsub' : ((sel ++ [r]) ++ s.before c).Sublist (rs ++ c.record) := before_sublist (by simpa using hsub)
      exact (List.sublist_append_left _ _).trans hsub'
    | false =>
      obtain ⟨sel, hsel, hsub⟩ := h.whole hc
      obtain ⟨as, p, rfl, hcase⟩ := prefix_flatten hw
      rcases hcase with ⟨rfl, has⟩ | ⟨r, hr, hp, hne⟩
      · have heven : s.even c = true := even_iff.2 ⟨as, has, by rw [hadded, List.append_nil]⟩
        simp [hc, heven] at hcut
      · refine ⟨sel ++ as, p, r, by rw [hdisk, hsel, List.flatten_append, List.append_assoc], hp, hne, ?_⟩
        have := ((List.Sublist.refl sel).append hr.sublist).trans (before_sublist (c := c) hsub)
        simpa using this

/-- The step lemma. -/
theorem Inv.step (h : s.Inv rs) (hok : s.Silent c) : (s.step c).1.Inv (rs ++ c.record) := by
  rcases s.file.call_cases c with ⟨hdisk, hbuf⟩ | ⟨w, hw, hdisk, hbuf⟩
  · exact h.waits hdisk hbuf
  · exact h.flushes hok hw hdisk hbuf

/-- The run lemma. -/
theorem Inv.run (h : s.Inv rs) (calls : List LogCall) (hok : Lib.RunOk Watched.step Silent s calls) :
    (Lib.runTotal Watched.step s calls).1.Inv (rs ++ calls.flatMap LogCall.record) ∧
      (Lib.runTotal Watched.step s calls).1.file = calls.foldl LogFile.call s.file := by
  induction calls generalizing s rs with
  | nil => exact ⟨by simpa [Lib.runTotal] using h, rfl⟩
  | cons c calls ih =>
    obtain ⟨hinv, hfile⟩ := ih (h.step hok.1) hok.2
    exact ⟨by simpa [Lib.runTotal] using hinv, hfile⟩

theorem inv_start (policy : FsyncPolicy) (now : ℕ) : (start policy now).Inv [] :=
  ⟨rfl, fun _ => ⟨[], rfl, List.Sublist.refl _⟩, fun h => by cases h⟩

theorem Inv.records (h : s.Inv rs) : RecordsOf rs s.file.disk := by
  cases hc : s.cut with
  | false =>
    obtain ⟨sel, hsel, hsub⟩ := h.whole hc
    exact ⟨sel, [], by rw [hsel, List.append_nil], .inl ⟨rfl, (List.sublist_append_left _ _).trans hsub⟩⟩
  | true =>
    obtain ⟨sel, p, r, hsel, hp, hne, hsub⟩ := h.torn hc
    have hr : (sel ++ [r]).Sublist (sel ++ r :: s.pending) :=
      (List.Sublist.refl sel).append (List.cons_sublist_cons.2 (List.nil_sublist _))
    exact ⟨sel, p, hsel, .inr ⟨r, hr.trans hsub, hp, hne⟩⟩

end Watched

/-- In a run in which nothing is written behind a record that an error has cut, the file
holds whole records, in the order of the calls, and at most one cut record at its end. -/
theorem file_holds_records (policy : FsyncPolicy) (now : ℕ) (calls : List LogCall)
    (hok : Lib.RunOk Watched.step Watched.Silent (Watched.start policy now) calls) :
    RecordsOf (calls.flatMap LogCall.record) (calls.foldl LogFile.call (LogFile.openFile policy [] now)).disk := by
  obtain ⟨hinv, hfile⟩ := (Watched.inv_start policy now).run calls hok
  have := hinv.records
  rw [hfile] at this
  exact this

/-- A log of which the second record is cut and nothing is written behind it. -/
theorem file_holds_records_cut : RecordsOf [encodeMultibulk [ascii "SET", [97], [49]], encodeMultibulk [ascii "DEL", [97]]]
    ([LogCall.append (encodeMultibulk [ascii "SET", [97], [49]]) [.interrupted, .wrote 5] true,
      .append (encodeMultibulk [ascii "DEL", [97]]) [.wrote 3, .failed] true, .close [] true].foldl LogFile.call
        (LogFile.openFile .always [] 0)).disk :=
  file_holds_records .always 0 _ (by decide +kernel)

/-- The file begins with a record, or is part of one. -/
theorem RecordsOf.head {rs : List Bytes} {data : Bytes} (h : RecordsOf rs data) :
    data = [] ∨ ∃ r ∈ rs, r <+: data ∨ data <+: r := by
  obtain ⟨sel, p, rfl, hcase⟩ := h
  have hsub : sel.Sublist rs := by
    rcases hcase with ⟨-, h⟩ | ⟨r, h, -⟩
    · exact h
    · exact (List.sublist_append_left _ _).trans h
  cases sel with
  | nil =>
    rcases hcase with ⟨rfl, -⟩ | ⟨r, hr, hp, -⟩
    · exact .inl rfl
    · exact .inr ⟨r, hr.subset (by simp), .inr hp⟩
  | cons r sel => exact .inr ⟨r, hsub.subset List.mem_cons_self, .inl ⟨sel.flatten ++ p, by simp⟩⟩

/-- The disk is full behind three bytes of a record, and has room for the next one. -/
theorem record_behind_cut : ¬ ∀ (policy : FsyncPolicy) (now : ℕ) (calls : List LogCall),
    RecordsOf (calls.flatMap LogCall.record) (calls.foldl LogFile.call (LogFile.openFile policy [] now)).disk := by
  intro h
  have hhead := (h .always 0 [.append (encodeMultibulk [ascii "SET", [97], [49]]) [.wrote 3, .failed] true,
    .append (encodeMultibulk [ascii "DEL", [97]]) [] true]).head
  exact absurd hhead (by decide +kernel)

end BlazeKV
