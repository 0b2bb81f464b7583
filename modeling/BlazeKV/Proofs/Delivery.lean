import BlazeKV.Proofs.Pipeline
import BlazeKV.Spec.Server

/-! Replies leave a connection in the order of its requests, each once. A fragment
that a request waits for is the ticket of one message in flight, and of no other. -/

namespace BlazeKV

/-- The first `m` requests are answered, and their replies are all that was appended. -/
def Ledger.Delivered (l : Ledger) (m : ℕ) : Prop :=
  m ≤ l.requests.length ∧ repliesOf (l.requests.take m) = some l.appended

structure Tracks (c : Connection) (l : Ledger) : Prop where
  nextSeq : c.nextSeq = l.requests.length
  out : c.out <:+ l.appended
  pipeline : ∃ m, l.Delivered m ∧ c.pipeline = slotsFrom m (l.requests.drop m)

structure Accounted (sh : Shard) : Prop where
  tracks : ∀ cid, ∀ c ∈ sh.conns cid, Tracks c (sh.ledger cid)
  delivered : ∀ cid, ∃ m, (sh.ledger cid).Delivered m
  fresh : ∀ cid, sh.nextConnId ≤ cid → sh.conns cid = none ∧ sh.ledger cid = .empty

/-! What the operations on one connection do to the relation with its ledger. -/

section Tracks

variable {c : Connection} {l : Ledger}

theorem Tracks.delivered (h : Tracks c l) : ∃ m, l.Delivered m :=
  h.pipeline.imp fun _ hm => hm.1

theorem Tracks.of_eq {c' : Connection} (h : Tracks c l) (hp : c'.pipeline = c.pipeline)
    (hn : c'.nextSeq = c.nextSeq) (ho : c'.out <:+ c.out) : Tracks c' l :=
  ⟨hn.trans h.nextSeq, ho.trans h.out, hp ▸ h.pipeline⟩

theorem tracks_new : Tracks .new .empty := ⟨rfl, List.nil_suffix, 0, ⟨le_refl 0, rfl⟩, rfl⟩

theorem Ledger.Delivered.request {m : ℕ} (h : l.Delivered m) (r : Request) :
    (l.request r).Delivered m := by
  refine ⟨?_, ?_⟩
  · have := h.1
    simp only [Ledger.request, List.length_append]
    omega
  · rw [Ledger.request, List.take_append_of_le_length h.1]
    exact h.2

theorem Tracks.enqueue (h : Tracks c l) {pr : PendingReply} {r : Request} (hr : pr = r.answer.slot) :
    Tracks (c.enqueue pr) (l.request r) := by
  obtain ⟨m, hm, hp⟩ := h.pipeline
  refine ⟨?_, h.out, m, hm.request r, ?_⟩
  · simp [Connection.enqueue, Ledger.request, h.nextSeq]
  · have hlen : c.nextSeq = m + (l.requests.drop m).length := by
      have := hm.1
      rw [h.nextSeq, List.length_drop]
      omega
    simp only [Connection.enqueue, Ledger.request, hp, hr, hlen, set_slotsFrom_end,
      List.drop_append_of_le_length hm.1]

theorem Tracks.flushReady (h : Tracks c l) : Tracks c.flushReady (l.append c.pipeline.flush.1) := by
  obtain ⟨m, hm, hp⟩ := h.pipeline
  obtain ⟨k, hk, hb, hrest, -⟩ := flush_slotsFrom m (l.requests.drop m)
  rw [List.length_drop] at hk
  have htake : l.requests.take (m + k) = l.requests.take m ++ (l.requests.drop m).take k :=
    List.take_add
  have hout : c.out ++ c.pipeline.flush.1 <:+ l.appended ++ c.pipeline.flush.1 :=
    h.out.imp fun sent hs => by rw [← hs, List.append_assoc]
  refine ⟨h.nextSeq, hout, m + k, ⟨?_, ?_⟩, ?_⟩
  · have := hm.1
    simp only [Ledger.append]
    omega
  · rw [Ledger.append, htake, hp]
    exact repliesOf_append hm.2 hb
  · simp only [Connection.flushReady, Ledger.append, hp, hrest, List.drop_drop]

/-- Whether the ledger waits for the fragment with a number and an index. -/
def Ledger.awaits (l : Ledger) (seq index : ℕ) (isInt : Bool) : Bool :=
  l.requests[seq]?.any fun r => r.awaits index isInt

theorem Ledger.awaits_iff {l : Ledger} {seq index : ℕ} {isInt : Bool} :
    l.awaits seq index isInt ↔ ∃ r, l.requests[seq]? = some r ∧ r.awaits index isInt :=
  Option.any_eq_true _ _

theorem Ledger.Delivered.fragment {m : ℕ} {part : Part} (h : l.Delivered m) (reply : Bytes)
    (ha : l.awaits part.seq part.index part.isInt) :
    m ≤ part.seq ∧ (l.fragment part reply).Delivered m := by
  obtain ⟨r, hr, hw⟩ := Ledger.awaits_iff.1 ha
  have hle := length_le_of_awaits h.2 hr hw
  refine ⟨hle, ?_, ?_⟩
  · simpa [Ledger.fragment] using h.1
  · rw [Ledger.fragment, List.take_modify, List.modify_eq_self]
    · exact h.2
    · exact (List.length_take_le _ _).trans hle

theorem Tracks.fragment {part : Part} (h : Tracks c l) (reply : Bytes)
    (ha : l.awaits part.seq part.index part.isInt) : ∃ pr, c.pipeline.find part.seq = some pr ∧
      Tracks { c with pipeline := c.pipeline.set part.seq (pr.complete part reply) }
        (l.fragment part reply) := by
  obtain ⟨m, hm, hp⟩ := h.pipeline
  obtain ⟨hle, hm'⟩ := hm.fragment reply ha
  obtain ⟨r, hr, hw⟩ := Ledger.awaits_iff.1 ha
  have hseq : part.seq = m + (part.seq - m) := by omega
  have hr' : (l.requests.drop m)[part.seq - m]? = some r := by rwa [List.getElem?_drop, ← hseq]
  refine ⟨r.answer.slot, ?_, ?_, h.out, m, hm', ?_⟩
  · rw [hp, hseq, find_slotsFrom, hr']
    rfl
  · simpa [Ledger.fragment] using h.nextSeq
  · have hset := set_slotsFrom (m := m) (fun r => r.setAnswer (r.answer.fill part reply)) hr'
    rw [← hseq, ← List.drop_modify_of_ge _ _ _ _ hle] at hset
    have hans : (r.setAnswer (r.answer.fill part reply)).answer = r.answer.fill part reply := by
      cases r <;> rfl
    rw [hans, slot_fill reply hw] at hset
    rw [hp]
    exact hset

end Tracks

end BlazeKV
