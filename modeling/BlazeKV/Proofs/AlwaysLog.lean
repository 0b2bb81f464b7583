import BlazeKV.Proofs.FlushRace

/-! The log under `appendfsync always`, while no call on it fails: what a shard has executed
since the log was made anew is on disk, and synced. -/

namespace BlazeKV

theorem writeLoop_of_success (rest : Bytes) {rs : List WriteResult} (h : .failed ∉ rs) : writeLoop rest rs = rest := by
  induction rs generalizing rest with
  | nil => rfl
  | cons r rs ih =>
    have hrs : .failed ∉ rs := fun hm => h (List.mem_cons_of_mem _ hm)
    unfold writeLoop
    split_ifs with hnil
    · exact hnil.symm
    · cases r with
      | wrote n =>
        dsimp only
        rw [ih _ hrs, List.take_append_drop]
      | interrupted => exact ih rest hrs
      | failed => exact absurd List.mem_cons_self h

/-- A log that has nothing buffered, with what it holds behind the `n` bytes that were there
when it was opened. -/
structure LogFile.Steady (l : LogFile) (base : Bytes) (rs : List Bytes) : Prop where
  opened : l.opened = true
  policy : l.policy = .always
  buf : l.buf = []
  disk : l.disk = base ++ rs.flatten
  synced : rs = [] ∨ l.synced = l.disk.length

section Logs

variable {l : LogFile} {base : Bytes} {rs : List Bytes} (ws : List WriteResult)

theorem LogFile.Steady.append {ws : List WriteResult} (h : l.Steady base rs) (b : Bytes) (hws : .failed ∉ ws) :
    (l.append b ws true).Steady base (rs ++ [b]) := by
  obtain ⟨opened, policy, disk, buf, synced, dirty, lastFsync⟩ := l
  obtain ⟨hopened, hpolicy, hbuf, hdisk, -⟩ := h
  dsimp only at hopened hpolicy hbuf hdisk
  subst hopened hpolicy hbuf hdisk
  unfold LogFile.append LogFile.flush LogFile.doFsync
  by_cases hb : b = []
  · subst hb
    exact ⟨rfl, rfl, rfl, by simp, .inr rfl⟩
  · simp only [if_true, or_true, List.nil_append, ne_eq, hb, not_false_eq_true, and_self, writeLoop_of_success b hws]
    exact ⟨rfl, rfl, rfl, by simp, .inr rfl⟩

theorem LogFile.Steady.tick (h : l.Steady base rs) (now : ℕ) (ok : Bool) : (l.tick now ws ok).Steady base rs := by
  unfold LogFile.tick
  rw [if_neg (by simp [h.policy])]
  exact h

theorem LogFile.Steady.resetFile (h : l.Steady base rs) (ok : Bool) (now : ℕ) : (l.resetFile ws ok now).Steady [] [] := by
  unfold LogFile.resetFile LogFile.close LogFile.flush LogFile.doFsync
  simp only [h.opened, h.buf, ne_eq, not_true_eq_false, and_false, if_true, if_false]
  exact ⟨rfl, h.policy, rfl, rfl, .inl rfl⟩

end Logs

section Entries

variable {ι : Type} [DecidableEq ι] (shardFor : Bytes → ι) {here j : ι}

/-- What follows what was executed before. -/
theorem sinceFlush_append (j : ι) (es fs : List (Act ι)) : sinceFlush j (es ++ fs) =
    fs.foldl (fun xs e => match e with
      | .exec x => if x.shard = j then xs ++ [x] else xs
      | .flush i => if i = j then [] else xs) (sinceFlush j es) := List.foldl_append

theorem sinceFlush_entries (es : List (Act ι)) (sh : Shard) (origin : ι) (cid seq index : ℕ) (env : Env) (argv : List Bytes) :
    sinceFlush j (es ++ sh.entries here origin cid seq index env argv) =
      if here = j then
        (if (execCore env argv sh.db).flush then [] else sinceFlush j es) ++
          [⟨here, origin, cid, seq, index, argv, (execCore env argv sh.db).record, (execCore env argv sh.db).reply⟩]
      else sinceFlush j es := by
  rw [sinceFlush_append, Shard.entries]
  cases (execCore env argv sh.db).flush <;> by_cases hj : here = j <;> simp [hj]

/-- The entries of a move are those of what it does to the data. -/
theorem entries_of_move (here : ι) (l : Loop ι) (e : Event) :
    (∃ env argv origin cid seq index, Loop.move shardFor here l e = .exec env argv ∧
      Loop.entries shardFor here l e = l.state.entries here origin cid seq index env argv) ∨
    (Loop.move shardFor here l e = .flush ∧ Loop.entries shardFor here l e = [.flush here]) ∨
    ((Loop.move shardFor here l e = .nothing ∨ ∃ now synced, Loop.move shardFor here l e = .cron now synced) ∧
      Loop.entries shardFor here l e = []) := by
  have ht := (turned_step shardFor [] here (l := l) e).turn
  generalize Loop.move shardFor here l e = d at ht ⊢
  generalize Loop.entries shardFor here l e = es at ht ⊢
  cases ht with
  | quiet => exact .inr (.inr ⟨.inl rfl, rfl⟩)
  | cron now synced => exact .inr (.inr ⟨.inr ⟨now, synced, rfl⟩, rfl⟩)
  | complete => exact .inr (.inr ⟨.inl rfl, rfl⟩)
  | flush => exact .inr (.inl ⟨rfl, rfl⟩)
  | execute env origin part => exact .inl ⟨env, part.args, origin, part.cid, part.seq, part.index, rfl, rfl⟩
  | input env cid c es d _ _ _ hi =>
    cases hi with
    | inline argv => exact .inl ⟨env, argv, here, cid, c.nextSeq, 0, rfl, rfl⟩
    | nothing | malformed | refused | posted => exact .inr (.inr ⟨.inl rfl, rfl⟩)

end Entries

section Steps

variable {n : ℕ} {shardFor : Bytes → Fin n} {t : Traced n}

/-- The records of what a shard has executed since its log was made anew. -/
def Traced.records (t : Traced n) (j : Fin n) : List Bytes := (sinceFlush j t.history).filterMap (·.record)

/-- The log of a shard holds the records, behind what was in the file, together with those
of active expiry. -/
def Traced.Logged (t : Traced n) (j : Fin n) : Prop :=
  ∃ base rs, (t.logs j).Steady base rs ∧ (t.records j).Sublist rs

theorem steady_cron {l : LogFile} {base : Bytes} {rs : List Bytes} (h : l.Steady base rs) {io : Calls} (hio : io.Succeed)
    (ks : List Bytes) (i : ℕ) : (ks.foldl (fun (s : ℕ × LogFile) k =>
      (s.1 + 1, s.2.append (encodeMultibulk [ascii "DEL", k]) (io.results s.1) (io.synced s.1))) (i, l)).2.Steady base
        (rs ++ ks.map fun k => encodeMultibulk [ascii "DEL", k]) := by
  induction ks generalizing l rs i with
  | nil => simpa using h
  | cons k ks ih =>
    have hone := h.append (encodeMultibulk [ascii "DEL", k]) (hio i).1
    have hrest := ih hone (i + 1)
    rw [List.append_assoc] at hrest
    rw [List.foldl_cons, (hio i).2]
    exact hrest

/-- What one shard records leaves the records of the others. -/
theorem sinceFlush_other {j : Fin n} (es : List (Act (Fin n))) (l : Loop (Fin n)) {i : Fin n} (ev : Event) (hj : i ≠ j) :
    sinceFlush j (es ++ Loop.entries shardFor i l ev) = sinceFlush j es := by
  rcases entries_of_move shardFor i l ev with
    ⟨env, argv, origin, cid, seq, index, -, he⟩ | ⟨-, he⟩ | ⟨-, he⟩
  · rw [he, sinceFlush_entries, if_neg hj]
  · simp [he, sinceFlush_append, hj]
  · rw [he, List.append_nil]

/-- The step lemma. -/
theorem logged_step {e : Fin n × Event} {io : Calls} (hio : io.Succeed) {j : Fin n} (h : t.Logged j) :
    (t.step shardFor (e, io)).Logged j := by
  obtain ⟨base, rs, hlog, hrec⟩ := h
  obtain ⟨i, ev⟩ := e
  unfold Traced.Logged Traced.records Traced.step
  unfold Traced.records at hrec
  dsimp only
  by_cases hj : i = j
  · subst hj
    rw [Function.update_self]
    rcases entries_of_move shardFor i (t.server i) ev with
      ⟨env, argv, origin, cid, seq, index, hm, he⟩ | ⟨hm, he⟩ | ⟨hm, he⟩
    · -- A flush makes the log anew, and then the record is appended.
      rw [hm, he, sinceFlush_entries, if_pos rfl]
      have hbase : ∃ base rs, (if (execCore env argv (t.server i).state.db).flush then
            (t.logs i).resetFile (io.results 0) (io.synced 0) io.now else t.logs i).Steady base rs ∧
          ((if (execCore env argv (t.server i).state.db).flush then [] else sinceFlush i t.history).filterMap
            (·.record)).Sublist rs := by
        split_ifs
        · exact ⟨[], [], hlog.resetFile _ _ _, List.Sublist.refl _⟩
        · exact ⟨base, rs, hlog, hrec⟩
      obtain ⟨base', rs', hlog', hrec'⟩ := hbase
      unfold Move.log
      dsimp only
      cases hb : (execCore env argv (t.server i).state.db).record with
      | none => exact ⟨base', rs', hlog', by simpa [List.filterMap_append] using hrec'⟩
      | some b =>
        refine ⟨base', rs' ++ [b], ?_, ?_⟩
        · rw [(hio 1).2]
          exact hlog'.append b (hio 1).1
        · rw [List.filterMap_append]
          exact hrec'.append (List.Sublist.refl [b])
    · rw [hm, he, sinceFlush_append]
      exact ⟨[], [], hlog.resetFile _ _ _, by simp⟩
    · rw [he, List.append_nil]
      rcases hm with hm | ⟨now, synced, hm⟩ <;> rw [hm]
      · exact ⟨base, rs, hlog, hrec⟩
      · have hds := steady_cron hlog hio ((t.server i).state.db.activeExpireCycle now 20).2 1
        exact ⟨base, _, hds.tick _ _ _, hrec.trans (List.sublist_append_left rs _)⟩
  · rw [Function.update_of_ne (Ne.symm hj), sinceFlush_other _ _ _ hj]
    exact ⟨base, rs, hlog, hrec⟩

/-- The run lemma. -/
theorem logged_run (es : List ((Fin n × Event) × Calls)) (hes : ∀ e ∈ es, e.2.Succeed) {j : Fin n} (h : t.Logged j) :
    (t.run shardFor es).Logged j := by
  induction es generalizing t with
  | nil => exact h
  | cons e es ih =>
    exact ih (fun e' he' => hes e' (List.mem_cons_of_mem _ he')) (logged_step (hes e List.mem_cons_self) h)

theorem logged_boot (db : Fin n → Keyspace) (disk : Fin n → Bytes) (now : ℕ) (j : Fin n) :
    (Traced.boot db .always disk now).Logged j :=
  ⟨disk j, [], ⟨rfl, rfl, rfl, by simp [Traced.boot, LogFile.openFile], .inl rfl⟩, List.Sublist.refl _⟩

/-- The log that the shard keeps is the file: nothing is buffered. -/
def Traced.Mirrors (t : Traced n) (j : Fin n) : Prop :=
  (t.server j).state.aof = some ⟨.always, (t.logs j).disk, []⟩

theorem append_always (disk b : Bytes) : Aof.append ⟨.always, disk, []⟩ b = ⟨.always, disk ++ b, []⟩ := by
  simp [Aof.append, Aof.flush]

theorem foldl_append_always (ks : List Bytes) (disk : Bytes) :
    ks.foldl (fun a k => Aof.append a (encodeMultibulk [ascii "DEL", k])) ⟨.always, disk, []⟩ =
      ⟨.always, disk ++ (ks.map fun k => encodeMultibulk [ascii "DEL", k]).flatten, []⟩ := by
  induction ks generalizing disk with
  | nil => simp
  | cons k ks ih => rw [List.foldl_cons, append_always, ih, List.map_cons, List.flatten_cons, List.append_assoc]

/-- The log file refines the log of the shard, call by call. -/
theorem mirrors_step {e : Fin n × Event} {io : Calls} (hio : io.Succeed) {j : Fin n} (h : t.Logged j) (hm : t.Mirrors j) :
    (t.step shardFor (e, io)).Mirrors j := by
  obtain ⟨base, rs, hlog, -⟩ := h
  obtain ⟨i, ev⟩ := e
  unfold Traced.Mirrors Traced.step Server.step
  dsimp only
  rw [Lib.Net.deliver_state]
  by_cases hj : i = j
  · subst hj
    rw [Function.update_self, Function.update_self,
      (does_step (l := t.server i) shardFor (List.finRange n) i ev).aof]
    cases Loop.move shardFor i (t.server i) ev with
    | nothing => exact hm
    | exec env argv =>
      have hbase : (if (execCore env argv (t.server i).state.db).flush then
            (t.server i).state.aof.map fun a => Aof.openFile a.policy [] else (t.server i).state.aof) =
          some ⟨.always, (if (execCore env argv (t.server i).state.db).flush then
            (t.logs i).resetFile (io.results 0) (io.synced 0) io.now else t.logs i).disk, []⟩ := by
        split_ifs
        · rw [hm]
          rfl
        · exact hm
      have hsteady : ∃ base rs, (if (execCore env argv (t.server i).state.db).flush then
            (t.logs i).resetFile (io.results 0) (io.synced 0) io.now else t.logs i).Steady base rs := by
        split_ifs
        · exact ⟨[], [], hlog.resetFile _ _ _⟩
        · exact ⟨base, rs, hlog⟩
      obtain ⟨base', rs', hsteady⟩ := hsteady
      unfold Move.apply Move.log Shard.exec
      dsimp only
      rw [hbase]
      cases (execCore env argv (t.server i).state.db).record with
      | none => rfl
      | some b =>
        dsimp only
        rw [(hio 1).2, (hsteady.append b (hio 1).1).disk, Option.map_some, append_always, hsteady.disk]
        simp
    | flush =>
      show ((t.server i).state.aof.map fun a => Aof.openFile a.policy []) = _
      rw [hm]
      rfl
    | cron now synced =>
      have hds := (steady_cron hlog hio ((t.server i).state.db.activeExpireCycle now 20).2 1).tick
        (io.results 0) now (io.synced 0)
      unfold Move.apply Move.log Shard.cron
      dsimp only
      rw [hds.disk, hm, Option.map_some, Option.map_some, foldl_append_always, hlog.disk]
      simp
  · rw [Function.update_of_ne (Ne.symm hj), Function.update_of_ne (Ne.symm hj)]
    exact hm

theorem mirrors_run (es : List ((Fin n × Event) × Calls)) (hes : ∀ e ∈ es, e.2.Succeed) {j : Fin n} (h : t.Logged j)
    (hm : t.Mirrors j) : (t.run shardFor es).Mirrors j := by
  induction es generalizing t with
  | nil => exact hm
  | cons e es ih =>
    have he := hes e List.mem_cons_self
    exact ih (fun e' he' => hes e' (List.mem_cons_of_mem _ he')) (logged_step he h) (mirrors_step he h hm)

theorem mirrors_boot (db : Fin n → Keyspace) (disk : Fin n → Bytes) (now : ℕ) (j : Fin n) :
    (Traced.boot db .always disk now).Mirrors j := rfl

end Steps

end BlazeKV
