import BlazeKV.Proofs.AlwaysLog
import BlazeKV.Proofs.Executions

/-! Replies under `appendfsync always`. When a reply has been appended to the output of its
connection, all its parts were executed, and each shard had synced its record before. -/

namespace BlazeKV

section Histories

variable {ι : Type} [DecidableEq ι]

/-- An execution stands behind the last flush of its shard, or before one. -/
theorem mem_sinceFlush {h : List (Act ι)} {x : Execution ι} (hx : .exec x ∈ h) :
    x ∈ sinceFlush x.shard h ∨ ∃ before after, h = before ++ .exec x :: after ∧ .flush x.shard ∈ after := by
  induction h using List.reverseRecOn with
  | nil => cases hx
  | append_singleton es e ih =>
    rw [sinceFlush_append]
    rcases List.mem_append.1 hx with hmem | hlast
    · rcases ih hmem with hin | ⟨before, after, rfl, hf⟩
      · cases e with
        | exec y =>
          dsimp only [List.foldl_cons, List.foldl_nil]
          split_ifs
          · exact .inl (List.mem_append_left _ hin)
          · exact .inl hin
        | flush i =>
          by_cases hi : i = x.shard
          · obtain ⟨before, after, rfl⟩ := List.append_of_mem hmem
            exact .inr ⟨before, after ++ [.flush i], by simp, by simp [hi]⟩
          · exact .inl (by simpa [hi] using hin)
      · exact .inr ⟨before, after ++ [e], by simp, List.mem_append_left _ hf⟩
    · obtain rfl := List.mem_singleton.1 hlast
      exact .inl (by simp)

end Histories

/-- The synced part of a log holds records, in their order, among others. -/
def LogFile.Holds (l : LogFile) (bs : List Bytes) : Prop :=
  ∃ base rs, l.disk.take l.synced = base ++ rs.flatten ∧ bs.Sublist rs

theorem LogFile.Steady.holds {l : LogFile} {base : Bytes} {rs bs : List Bytes} (h : l.Steady base rs) (hbs : bs.Sublist rs) :
    l.Holds bs := by
  rcases h.synced with hnil | hs
  · subst hnil
    exact ⟨l.disk.take l.synced, [], by simp, hbs⟩
  · exact ⟨base, rs, by rw [hs, List.take_length, h.disk], hbs⟩

/-- What an answer has from the part with an index. -/
def Answer.piece (index : ℕ) : Answer → Option Bytes
  | .here b => some b
  | .parts _ frags => (frags[index]?).join

section Servers

variable {n : ℕ} {shardFor : Bytes → Fin n} {h : List (Act (Fin n))}

/-- All parts of a complete answer were executed. -/
theorem Filled.executed {o : Fin n} {cid seq : ℕ} {argv : List Bytes} {a : Answer} (hf : Filled shardFor h o cid seq argv a)
    {b : Bytes} (hb : a.reply = some b) {index : ℕ} (hi : index < (requests shardFor o argv).length) :
    ∃ reply, a.piece index = some reply ∧ Executed shardFor h o cid seq argv index reply := by
  cases a with
  | here c => exact ⟨c, rfl, hf index _ (List.getElem?_eq_getElem hi)⟩
  | parts kind frags =>
    have hnone : missing frags = 0 := by
      by_contra hne
      simp [Answer.reply, hne] at hb
    have hlt : index < frags.length := hf.1 ▸ hi
    have hsome : frags[index] ≠ none := by
      simpa using List.countP_eq_zero.1 hnone frags[index] (List.getElem_mem hlt)
    obtain ⟨reply, hr⟩ := Option.ne_none_iff_exists'.1 hsome
    have hget : frags[index]? = some (some reply) := by rw [List.getElem?_eq_getElem hlt, hr]
    exact ⟨reply, by rw [Answer.piece, hget]; rfl, hf.2 index reply hget⟩

/-- In every state that a server reaches while no call on its logs fails: all parts of a
request whose reply was appended were executed, nothing is buffered, and the synced part of
each log holds the records of what its shard has executed since its last flush. -/
theorem reply_is_synced (shardFor : Bytes → Fin n) (db : Fin n → Keyspace) (disk : Fin n → Bytes) (now : ℕ)
    (es : List ((Fin n × Event) × Calls)) (hes : ∀ e ∈ es, e.2.Succeed) (i : Fin n) (cid : ℕ) :
    let t := (Traced.boot db .always disk now).run shardFor es
    let l := (t.server i).state.ledger cid
    (∃ m ≤ l.requests.length, repliesOf (l.requests.take m) = some l.appended ∧
      ∀ seq < m, ∀ argv a, l.requests[seq]? = some (.command argv a) → ∀ index < (requests shardFor i argv).length,
        ∃ x, .exec x ∈ t.history ∧ x.Of shardFor i cid seq argv index ∧ a.piece index = some x.reply ∧
          (x ∈ sinceFlush x.shard t.history ∨
            ∃ before after, t.history = before ++ .exec x :: after ∧ .flush x.shard ∈ after)) ∧
    ∀ j, t.Mirrors j ∧ (t.logs j).Holds ((sinceFlush j t.history).filterMap (·.record)) := by
  intro t l
  have hs : Sourced shardFor t.server t.history := sourced_run es (sourced_boot db .always disk now)
  refine ⟨?_, fun j => ?_⟩
  · obtain ⟨m, hm, hreplies⟩ := (hs.ok.accounted i).delivered cid
    refine ⟨m, hm, hreplies, fun seq hseq argv a ha index hi => ?_⟩
    have hmem : Request.command argv a ∈ l.requests.take m :=
      List.mem_of_getElem? (by rw [List.getElem?_take_of_lt hseq, ha])
    obtain ⟨b, hb⟩ := reply_of_repliesOf hreplies _ hmem
    obtain ⟨reply, hpiece, x, hx, hof, rfl⟩ := (hs.answers i cid seq argv a ha).executed hb hi
    exact ⟨x, hx, hof, hpiece, mem_sinceFlush hx⟩
  · have hboot := logged_boot db disk now j
    obtain ⟨base, rs, hsteady, hsub⟩ : t.Logged j := logged_run es hes hboot
    exact ⟨mirrors_run es hes hboot (mirrors_boot db disk now j), hsteady.holds hsub⟩

end Servers

/-- Calls of which the first `write` is short and the second is interrupted. -/
def haltingCalls : Calls := ⟨fun _ => [.wrote 3, .interrupted], fun _ => true, 0⟩

theorem haltingCalls_succeed : haltingCalls.Succeed := fun _ => ⟨by simp [haltingCalls], rfl⟩

/-- `SET d x`, asked on the shard that does not own `d`. -/
def forwardedSet : List ((Fin 2 × Event) × Calls) :=
  (askShard 0 setD ++ ([(1, .drain), (1, .next (.quiet 0) ⟨0, false⟩), (0, .drain), (0, .next (.quiet 0) ⟨0, false⟩)] :
    List (Fin 2 × Event))).map (·, haltingCalls)

theorem reply_is_synced_forwarded :
    let t := (Traced.boot (fun _ => .empty) .always (fun _ => []) 0).run (shardOf 2) forwardedSet
    let l := (t.server 0).state.ledger 1
    l.appended = Reply.simpleString (ascii "OK") ∧
    (∃ m ≤ l.requests.length, repliesOf (l.requests.take m) = some l.appended ∧
      ∀ seq < m, ∀ argv a, l.requests[seq]? = some (.command argv a) → ∀ index < (requests (shardOf 2) 0 argv).length,
        ∃ x, .exec x ∈ t.history ∧ x.Of (shardOf 2) 0 1 seq argv index ∧ a.piece index = some x.reply ∧
          (x ∈ sinceFlush x.shard t.history ∨
            ∃ before after, t.history = before ++ .exec x :: after ∧ .flush x.shard ∈ after)) ∧
    ∀ j, t.Mirrors j ∧ (t.logs j).Holds ((sinceFlush j t.history).filterMap (·.record)) := by
  refine ⟨by decide +kernel, reply_is_synced (shardOf 2) (fun _ => .empty) (fun _ => []) 0 forwardedSet (fun e he => ?_) 0 1⟩
  obtain ⟨e', -, rfl⟩ := List.mem_map.1 he
  exact haltingCalls_succeed

/-- `SET a x` and `FLUSHALL` in one input: both replies are appended at the end of the input,
when the flush has made the log anew. -/
def flushedSet : List ((Fin 1 × Event) × Calls) :=
  ([(0, .accept), (0, .readable 1 (encodeMultibulk [ascii "SET", [97], [120]] ++ encodeMultibulk [ascii "FLUSHALL"]) false),
    (0, .process (.quiet 0)), (0, .process (.quiet 0)), (0, .process (.quiet 0))] : List (Fin 1 × Event)).map
    (·, haltingCalls)

theorem flushed_record_gone : ¬ ∀ (n : ℕ) (shardFor : Bytes → Fin n) (db : Fin n → Keyspace) (disk : Fin n → Bytes) (now : ℕ)
    (es : List ((Fin n × Event) × Calls)) (_ : ∀ e ∈ es, e.2.Succeed) (i : Fin n) (cid : ℕ),
    let t := (Traced.boot db .always disk now).run shardFor es
    let l := (t.server i).state.ledger cid
    ∀ m ≤ l.requests.length, repliesOf (l.requests.take m) = some l.appended → ∀ seq < m,
      ∀ x, .exec x ∈ t.history → x.origin = i → x.cid = cid → x.seq = seq →
        ∀ b ∈ x.record, b <:+: (t.logs x.shard).disk.take (t.logs x.shard).synced := by
  intro h
  have hempty : (((Traced.boot (fun _ => .empty) .always (fun _ => []) 0).run (fun _ => 0) flushedSet).logs 0).disk = [] := by
    decide +kernel
  have hhistory : Act.exec ⟨0, 0, 1, 0, 0, [ascii "SET", [97], [120]], some (encodeMultibulk [ascii "SET", [97], [120]]),
      Reply.simpleString (ascii "OK")⟩ ∈
      ((Traced.boot (fun _ => .empty) .always (fun _ => []) 0).run (fun _ => 0) flushedSet).history := by
    decide +kernel
  have hin := h 1 (fun _ => 0) (fun _ => .empty) (fun _ => []) 0 flushedSet (fun e he => ?_) 0 1 2 (by decide +kernel)
    (by decide +kernel) 0 (by decide) _ hhistory rfl rfl rfl _ rfl
  · rw [hempty] at hin
    exact absurd (List.infix_nil.1 (by simpa using hin)) (by decide)
  · obtain ⟨e', -, rfl⟩ := List.mem_map.1 he
    exact haltingCalls_succeed

end BlazeKV
