import BlazeKV.Proofs.Turns
import BlazeKV.Spec.Wire

/-! Nothing is lost on the way to a socket. What was sent on a connection and what waits in its
output buffer are the replies that its pipeline has let go; it is closed in order when these
are all replies, and not before. -/

namespace BlazeKV

section Shards

variable {sh sh' : Shard} {cid : ℕ} {c c' : Connection} {sent : Bytes} {hung : Prop}

/-- The bytes of one connection, which may have been hung up. -/
structure Sends (hung : Prop) (sh : Shard) (cid : ℕ) (sent : Bytes) : Prop where
  inOrder : sent <+: (sh.ledger cid).appended
  unsent : ∀ c, sh.conns cid = some c → c.outSent ≤ c.out.length ∧
  sent ++ c.out.drop c.outSent = (sh.ledger cid).appended
  closed : cid < sh.nextConnId → sh.conns cid = none →
    hung ∨ (sent = (sh.ledger cid).appended ∧
    repliesOf (sh.ledger cid).requests = some (sh.ledger cid).appended)

/-- A connection that owes nothing is closed, unless it is being read or written. -/
def Shard.Attended (sh : Shard) (cid : ℕ) : Prop :=
  ∀ c, sh.conns cid = some c → c.owesNothing = true → sh.phase = .reading cid ∨ sh.phase = .writing cid

theorem Sends.of_open (hc : sh.conns cid = some c) (hle : c.outSent ≤ c.out.length)
    (hout : sent ++ c.out.drop c.outSent = (sh.ledger cid).appended) : Sends hung sh cid sent := by
  refine ⟨⟨_, hout⟩, fun c' hc' => ?_, fun _ hnone => ?_⟩
  · obtain rfl := Option.some.inj (hc.symm.trans hc')
    exact ⟨hle, hout⟩
  · cases hc.symm.trans hnone

/-- What does not touch the connection. -/
theorem Sends.frame (h : Sends hung sh cid sent) (hconns : sh'.conns cid = sh.conns cid)
    (hledger : sh'.ledger cid = sh.ledger cid) (hid : cid < sh'.nextConnId → cid < sh.nextConnId) :
    Sends hung sh' cid sent := by
  refine ⟨?_, fun c hc => ?_, fun hlt hnone => ?_⟩
  · rw [hledger]
    exact h.inOrder
  · rw [hledger]
    exact h.unsent c (hconns ▸ hc)
  · rw [hledger]
    exact h.closed (hid hlt) (hconns ▸ hnone)

theorem Shard.Attended.frame (h : sh.Attended cid) (hconns : sh'.conns cid = sh.conns cid)
    (hphase : sh.phase = .reading cid ∨ sh.phase = .writing cid → sh'.phase = .reading cid ∨
    sh'.phase = .writing cid) :
    sh'.Attended cid := fun c hc howes => hphase (h c (hconns ▸ hc) howes)

/-- What `handle_writable` sends comes off the front of what waits. -/
theorem taken_handleWritable (c : Connection) (w : Written) (hle : c.outSent ≤ c.out.length) :
    (c.handleWritable w).outSent ≤ (c.handleWritable w).out.length ∧
      c.taken w ++ (c.handleWritable w).out.drop (c.handleWritable w).outSent =
      c.out.drop c.outSent := by
  unfold Connection.handleWritable Connection.taken
  dsimp only
  split_ifs with hall
  · refine ⟨le_refl 0, ?_⟩
    rw [List.drop_zero, List.append_nil, List.take_of_length_le]
    rw [List.length_drop]
    omega
  · refine ⟨by dsimp only; omega, ?_⟩
    have hsum : min c.out.length (c.outSent + w.accepted) = c.outSent + w.accepted := by omega
    rw [hsum, ← List.drop_drop]
    exact List.take_append_drop _ _

theorem pipeline_handleWritable (c : Connection) (w : Written) :
    (c.handleWritable w).pipeline = c.pipeline := by
  unfold Connection.handleWritable
  dsimp only
  split_ifs <;> rfl

/-- A connection without slots has all its replies. -/
theorem Tracks.answered {l : Ledger} (h : Tracks c l) (hnil : c.pipeline = []) :
    repliesOf l.requests = some l.appended := by
  obtain ⟨m, hm, hp⟩ := h.pipeline
  have hall : l.requests.drop m = [] := by
    rw [hnil] at hp
    cases hd : l.requests.drop m with
    | nil => rfl
    | cons r rs =>
      rw [hd] at hp
      cases hp
  have hle := List.drop_eq_nil_iff.1 hall
  rw [← hm.2, List.take_of_length_le hle]

/-- After `handle_writable` and the decision to close. -/
theorem Sends.finish (h : Sends hung sh cid sent) (ht : Tracks c (sh.ledger cid))
    (hc : sh.conns cid = some c) (w : Written) :
    Sends hung (sh.finish cid w) cid (sent ++ c.taken w) ∧ ∀ c',
    (sh.finish cid w).conns cid = some c' → c'.owesNothing = false := by
  obtain ⟨hle, hout⟩ := h.unsent c hc
  obtain ⟨hle', htaken⟩ := taken_handleWritable c w hle
  have hout' : sent ++ c.taken w ++ (c.handleWritable w).out.drop (c.handleWritable w).outSent =
    (sh.ledger cid).appended := by
    rw [List.append_assoc, htaken, hout]
  unfold Shard.finish
  rw [hc]
  dsimp only
  cases howes : (c.handleWritable w).owesNothing with
  | false =>
    rw [if_neg (by simp)]
    refine ⟨.of_open (Function.update_self _ _ _) hle' hout', fun c' hc' => ?_⟩
    obtain rfl : c.handleWritable w = c' := by simpa [Shard.setConn] using hc'
    exact howes
  | true =>
    have howes' := howes
    simp only [Connection.owesNothing, Bool.and_eq_true, decide_eq_true_eq,
      pipeline_handleWritable] at howes'
    have hdone : (c.handleWritable w).out.drop (c.handleWritable w).outSent = [] :=
      List.drop_eq_nil_iff.2 howes'.2
    rw [hdone, List.append_nil] at hout'
    have hclosed : (sh.closeConn cid).conns cid = none := Function.update_self _ _ _
    rw [if_pos rfl]
    refine ⟨⟨⟨[], by rw [List.append_nil]; exact hout'⟩, fun c' hc' => ?_, fun _ _ =>
      .inr ⟨hout', ?_⟩⟩, fun c' hc' => ?_⟩
    · cases hclosed.symm.trans hc'
    · exact ht.answered (List.isEmpty_iff.1 howes'.1.2)
    · cases hclosed.symm.trans hc'

theorem Sends.finish_none (h : Sends hung sh cid sent) (hc : sh.conns cid = none) (w : Written) :
    Sends hung (sh.finish cid w) cid sent ∧ (sh.finish cid w).conns cid = none := by
  unfold Shard.finish
  rw [hc]
  exact ⟨h, hc⟩

/-- A flush of the pipeline moves replies into the output buffer. -/
theorem Sends.flushReady (hle : c.outSent ≤ c.out.length)
    (hout : sent ++ c.out.drop c.outSent = (sh.ledger cid).appended) :
    Sends hung (sh.flushReady cid c) cid sent := by
  have happended : ((sh.flushReady cid c).ledger cid).appended =
    (sh.ledger cid).appended ++ c.pipeline.flush.1 := by
    simp [Shard.flushReady, Shard.note, Shard.setConn, Ledger.append]
  refine .of_open (c := c.flushReady) (by simp [Shard.flushReady, Shard.note, Shard.setConn]) ?_ ?_
  · simp only [Connection.flushReady, List.length_append]
    omega
  · simp only [happended, Connection.flushReady, List.drop_append_of_le_length hle]
    rw [← List.append_assoc, hout]

theorem finish_frame (sh : Shard) (cid : ℕ) (w : Written) :
    (∀ j, j ≠ cid → (sh.finish cid w).conns j = sh.conns j) ∧
    (sh.finish cid w).nextConnId = sh.nextConnId ∧
      (sh.finish cid w).phase = sh.phase := by
  unfold Shard.finish
  split
  · exact ⟨fun _ _ => rfl, rfl, rfl⟩
  · dsimp only
    split_ifs
    · exact ⟨fun j hj => Function.update_of_ne hj _ _, rfl, rfl⟩
    · exact ⟨fun j hj => Function.update_of_ne hj _ _, rfl, rfl⟩

/-- A fragment that arrives for the connection. -/
theorem Sends.complete {part : Part} (h : Sends hung sh part.cid sent)
    (hacc : Accounted sh) (reply : Bytes) (w : Written)
    (hwait : (sh.ledger part.cid).awaits part.seq part.index part.isInt) :
    Sends hung (sh.completeFragment part reply w) part.cid
        (sent ++ (((sh.conns part.cid).bind fun c => c.completed part reply).map fun c =>
        c.taken w).getD []) ∧
      ∀ c', (sh.completeFragment part reply w).conns part.cid = some c' → c'.owesNothing = false := by
  have hledger : (sh.note part.cid (·.fragment part reply)).ledger part.cid =
    (sh.ledger part.cid).fragment part reply :=
    Function.update_self _ _ _
  cases hc : sh.conns part.cid with
  | none =>
    have hc' : (sh.note part.cid (·.fragment part reply)).conns part.cid = none := hc
    unfold Shard.completeFragment
    simp only [hc', Option.bind_none, Option.map_none, Option.getD_none, List.append_nil]
    refine ⟨⟨?_, fun c hsome => ?_, fun hlt _ => ?_⟩, fun c hsome => ?_⟩
    · rw [hledger]
      exact h.inOrder
    · cases hc'.symm.trans hsome
    · -- A connection that was closed in order waits for nothing.
      refine (h.closed hlt hc).imp_right fun hall => ?_
      obtain ⟨r, hr, hw⟩ := Ledger.awaits_iff.1 hwait
      have hdone : repliesOf ((sh.ledger part.cid).requests.take (sh.ledger part.cid).requests.length) =
          some (sh.ledger part.cid).appended := by
        rw [List.take_length]
        exact hall.2
      have hle := length_le_of_awaits hdone hr hw
      have hlt' := (List.getElem?_eq_some_iff.1 hr).1
      omega
    · cases hsome
  | some c =>
    obtain ⟨pr, hfind, ht⟩ := (hacc.tracks part.cid c hc).fragment reply hwait
    obtain ⟨hle, hout⟩ := h.unsent c hc
    have hcompleted : c.completed part reply =
        some { c with pipeline := c.pipeline.set part.seq (pr.complete part reply) }.flushReady := by
      rw [Connection.completed, hfind]
      rfl
    set c₁ : Connection := { c with pipeline := c.pipeline.set part.seq (pr.complete part reply) }
    set sh₁ := sh.note part.cid (·.fragment part reply)
    have hout₁ : sent ++ c₁.out.drop c₁.outSent = (sh₁.ledger part.cid).appended := by
      rw [hledger]
      exact hout
    have hflush : Sends hung (sh₁.flushReady part.cid c₁) part.cid sent := .flushReady hle hout₁
    have hopen : (sh₁.flushReady part.cid c₁).conns part.cid = some c₁.flushReady := by
      simp [Shard.flushReady, Shard.note, Shard.setConn]
    have htracks : Tracks c₁.flushReady ((sh₁.flushReady part.cid c₁).ledger part.cid) := by
      have happ : (sh₁.flushReady part.cid c₁).ledger part.cid =
          ((sh.ledger part.cid).fragment part reply).append c₁.pipeline.flush.1 := by
        simp [Shard.flushReady, Shard.note, Shard.setConn, sh₁]
      rw [happ]
      exact ht.flushReady
    have hsame : sh.completeFragment part reply w = (sh₁.flushReady part.cid c₁).finish part.cid w := by
      have hc' : sh₁.conns part.cid = some c := hc
      simp only [Shard.completeFragment, sh₁, hc', hfind, c₁]
    rw [hsame, Option.bind_some, hcompleted]
    exact hflush.finish htracks hopen w

end Shards

section Loops

variable {ι : Type} [DecidableEq ι] (shardFor : Bytes → ι) (shards : List ι) (here : ι) {l : Loop ι} {cid : ℕ}
  {sent : Bytes} {hung : Prop}

/-- What was sent on a connection of a shard, and that it does not linger. -/
structure Wiring (hung : Prop) (sh : Shard) (cid : ℕ) (sent : Bytes) : Prop where
  sends : Sends hung sh cid sent
  attended : sh.Attended cid

theorem Wiring.frame {sh sh' : Shard} (h : Wiring hung sh cid sent)
    (hconns : sh'.conns cid = sh.conns cid)
    (hledger : sh'.ledger cid = sh.ledger cid) (hid : cid < sh'.nextConnId → cid < sh.nextConnId)
    (hphase : sh.phase = .reading cid ∨ sh.phase = .writing cid → sh'.phase = .reading cid ∨
    sh'.phase = .writing cid) :
    Wiring hung sh' cid sent := ⟨h.sends.frame hconns hledger hid, h.attended.frame hconns hphase⟩

/-- A connection that does not owe nothing is attended in every phase. -/
theorem Wiring.of_owing {sh : Shard} {phase : Phase} (h : Sends hung sh cid sent)
    (howes : ∀ c, sh.conns cid = some c → c.owesNothing = false) :
    Wiring hung { sh with phase := phase } cid sent :=
  ⟨h.frame rfl rfl id, fun c hc ho => by cases (howes c hc).symm.trans ho⟩

theorem Wiring.finish {sh : Shard} (h : Wiring hung sh cid sent)
    (hacc : Accounted sh) (w : Written) (phase : Phase) :
    Wiring hung { sh.finish cid w with phase := phase } cid
      (sent ++ ((sh.conns cid).map fun c => c.taken w).getD []) := by
  cases hc : sh.conns cid with
  | none =>
    obtain ⟨hs, hnone⟩ := h.sends.finish_none hc w
    rw [Option.map_none, Option.getD_none, List.append_nil]
    exact .of_owing hs fun c hsome => by cases hnone.symm.trans hsome
  | some c =>
    obtain ⟨hs, howes⟩ := h.sends.finish (hacc.tracks cid c hc) hc w
    exact .of_owing hs howes

/-- A round of the loop of `process_input` for this connection. -/
theorem Wiring.input {sh : Shard} {c : Connection} (h : Wiring hung sh cid sent)
    (hphase : sh.phase = .reading cid)
    (hc : sh.conns cid = some c) (env : Env) :
    Wiring hung (Shard.processInput shardFor shards here sh env cid c).1 cid sent := by
  obtain ⟨hle, hout⟩ := h.sends.unsent c hc
  have hend : ∀ (sh' : Shard) (c' : Connection), c'.outSent ≤ c'.out.length →
      sent ++ c'.out.drop c'.outSent = (sh'.ledger cid).appended →
      Wiring hung (sh'.endInput cid c') cid sent :=
    fun sh' c' hle' hout' => ⟨(Sends.flushReady hle' hout').frame rfl rfl id, fun _ _ _ => .inr rfl⟩
  have hset : ∀ (sh' : Shard) (c' : Connection), sh'.phase = .reading cid → sh'.conns cid = some c' →
      c'.outSent ≤ c'.out.length → sent ++ c'.out.drop c'.outSent = (sh'.ledger cid).appended →
      Wiring hung sh' cid sent :=
    fun sh' c' hp hopen hle' hout' => ⟨.of_open hopen hle' hout', fun _ _ _ => .inl hp⟩
  have henqueue : ∀ (sh' : Shard) (c' : Connection) (pr : PendingReply) (r : Request),
    sh'.phase = .reading cid →
      c'.outSent ≤ c'.out.length → sent ++ c'.out.drop c'.outSent = (sh'.ledger cid).appended →
      Wiring hung (sh'.enqueue cid c' pr r) cid sent := fun sh' c' pr r hp hle' hout' =>
    hset _ (c'.enqueue pr) hp (by simp [Shard.enqueue, Shard.note, Shard.setConn]) hle'
      (by simpa [Shard.enqueue, Shard.note, Shard.setConn, Ledger.request, Connection.enqueue] using hout')
  unfold Shard.processInput
  split_ifs
  · exact hend sh c hle hout
  · cases RequestParser.parse c.input with
    | needMore => exact hend sh c hle hout
    | protocolError e =>
      refine hend _ _ hle ?_
      simpa [Shard.note, Ledger.request, Connection.enqueue] using hout
    | ok argv consumed =>
      dsimp only
      split_ifs
      · exact hset _ _ hphase (Function.update_self _ _ _) hle hout
      · unfold Shard.dispatch
        cases plan shardFor here argv with
        | refuse e => exact henqueue sh _ _ _ hphase hle hout
        | inline => exact henqueue (sh.exec env argv).1 _ _ _ hphase hle hout
        | forward target => exact henqueue sh _ _ _ hphase hle hout
        | fanOut keys => exact henqueue sh _ _ _ hphase hle hout

omit [DecidableEq ι] in
theorem completeFragment_frame (sh : Shard) (part : Part) (reply : Bytes) (w : Written) :
    (∀ j, j ≠ part.cid → (sh.completeFragment part reply w).conns j = sh.conns j ∧
      (sh.completeFragment part reply w).ledger j = sh.ledger j) ∧
      (sh.completeFragment part reply w).nextConnId = sh.nextConnId ∧
      (sh.completeFragment part reply w).phase = sh.phase := by
  have hnote : ∀ j, j ≠ part.cid → (sh.note part.cid (·.fragment part reply)).ledger j = sh.ledger j :=
    fun j hj => Function.update_of_ne hj _ _
  have hkeep : ∀ c : Connection, let sh₁ :=
    (sh.note part.cid (·.fragment part reply)).flushReady part.cid c
      (∀ j, j ≠ part.cid → (sh₁.finish part.cid w).conns j = sh.conns j ∧
      (sh₁.finish part.cid w).ledger j = sh.ledger j) ∧
        (sh₁.finish part.cid w).nextConnId = sh.nextConnId ∧
        (sh₁.finish part.cid w).phase = sh.phase := by
    intro c sh₁
    obtain ⟨hconns, hid, hphase⟩ := finish_frame sh₁ part.cid w
    refine ⟨fun j hj => ⟨(hconns j hj).trans (Function.update_of_ne hj _ _), ?_⟩, hid, hphase⟩
    rw [ledger_finish]
    exact (Function.update_of_ne hj _ _).trans (hnote j hj)
  unfold Shard.completeFragment
  dsimp only
  split
  · exact ⟨fun j hj => ⟨rfl, hnote j hj⟩, rfl, rfl⟩
  · split
    · exact ⟨fun j hj => ⟨rfl, hnote j hj⟩, rfl, rfl⟩
    · exact hkeep _

theorem processInput_frame (sh : Shard) (env : Env) (k : ℕ) (c : Connection) :
    let sh' := (Shard.processInput shardFor shards here sh env k c).1
    (∀ j, j ≠ k → sh'.conns j = sh.conns j ∧ sh'.ledger j = sh.ledger j) ∧
    sh'.nextConnId = sh.nextConnId := by
  have hend : ∀ (sh' : Shard) (c' : Connection),
    (∀ j, j ≠ k → sh'.conns j = sh.conns j ∧ sh'.ledger j = sh.ledger j) →
      ∀ j, j ≠ k → (sh'.endInput k c').conns j = sh.conns j ∧
      (sh'.endInput k c').ledger j = sh.ledger j :=
    fun sh' c' h j hj => ⟨(Function.update_of_ne hj _ _).trans (h j hj).1,
    (Function.update_of_ne hj _ _).trans (h j hj).2⟩
  have henqueue : ∀ (sh' : Shard) (c' : Connection) (pr : PendingReply) (r : Request),
      (∀ j, j ≠ k → sh'.conns j = sh.conns j ∧ sh'.ledger j = sh.ledger j) →
      ∀ j, j ≠ k → (sh'.enqueue k c' pr r).conns j = sh.conns j ∧
      (sh'.enqueue k c' pr r).ledger j = sh.ledger j :=
    fun sh' c' pr r h j hj => ⟨(Function.update_of_ne hj _ _).trans (h j hj).1,
    (Function.update_of_ne hj _ _).trans (h j hj).2⟩
  have hself : ∀ j, j ≠ k → sh.conns j = sh.conns j ∧ sh.ledger j = sh.ledger j := fun _ _ => ⟨rfl, rfl⟩
  unfold Shard.processInput
  split_ifs
  · exact ⟨hend sh c hself, rfl⟩
  · cases RequestParser.parse c.input with
    | needMore => exact ⟨hend sh c hself, rfl⟩
    | protocolError e => exact ⟨hend _ _ fun j hj => ⟨rfl, Function.update_of_ne hj _ _⟩, rfl⟩
    | ok argv consumed =>
      dsimp only
      split_ifs
      · exact ⟨fun j hj => ⟨Function.update_of_ne hj _ _, rfl⟩, rfl⟩
      · unfold Shard.dispatch
        cases plan shardFor here argv with
        | refuse e => exact ⟨henqueue sh _ _ _ hself, rfl⟩
        | inline => exact ⟨henqueue (sh.exec env argv).1 _ _ _ hself, rfl⟩
        | forward target => exact ⟨henqueue sh _ _ _ hself, rfl⟩
        | fanOut keys => exact ⟨henqueue sh _ _ _ hself, rfl⟩

/-- A phase in which no connection is read or written. -/
theorem phase_calm {phase p : Phase} (hp : p = phase) (h : phase = .polling ∨ phase = .draining)
    {Q : Prop} :
    p = .reading cid ∨ p = .writing cid → Q := by
  subst hp
  rcases h with rfl | rfl <;> simp

theorem phase_other {k : ℕ} {phase p : Phase} (hp : p = phase)
    (h : phase = .reading k ∨ phase = .writing k) (hne : cid ≠ k)
    {Q : Prop} : p = .reading cid ∨ p = .writing cid → Q := by
  subst hp
  rcases h with rfl | rfl <;> simp [Ne.symm hne]

theorem sentTo_self (k : ℕ) (o : Option Connection) (w : Written) :
    sentTo k (o.map fun c => (k, c, w)) = (o.map fun c => c.taken w).getD [] := by
  cases o <;> simp [sentTo]

theorem sentTo_other {k : ℕ} (hne : cid ≠ k) (o : Option Connection) (w : Written) :
    sentTo cid (o.map fun c => (k, c, w)) = [] := by
  cases o <;> simp [sentTo, Ne.symm hne]

/-- The step lemma of one loop. -/
theorem wiring_step (h : Wiring hung l.state cid sent) (hacc : Accounted l.state)
    (hawaits : ∀ part reply rest, l.batch = .complete part reply :: rest →
      (l.state.ledger part.cid).awaits part.seq part.index part.isInt) (e : Event)
      (hhung : e = .hangup cid → hung) :
    Wiring hung (Loop.step shardFor shards here l e).1.state cid
    (sent ++ sentTo cid (Loop.writes l e)) := by
  have hidle : Wiring hung l.state cid (sent ++ []) := by rwa [List.append_nil]
  have hwrite : ∀ (k : ℕ) (w : Written) (phase : Phase), l.state.phase = phase →
      phase = .polling ∨ phase = .reading k ∨ phase = .writing k →
      Wiring hung { l.state.finish k w with phase := .polling } cid
        (sent ++ sentTo cid ((l.state.conns k).map fun c => (k, c, w))) := by
    intro k w phase hp hphase
    by_cases hcid : cid = k
    · subst hcid
      rw [sentTo_self]
      exact h.finish hacc w .polling
    · obtain ⟨hothers, hid, -⟩ := finish_frame l.state k w
      rw [sentTo_other hcid]
      refine hidle.frame (hothers cid hcid) (congrFun (ledger_finish _ _ _) cid) (hid ▸ id) ?_
      rcases hphase with hph | hph
      · exact phase_calm hp (.inl hph)
      · exact phase_other hp hph hcid
  cases e with
  | accept =>
    simp only [Loop.step, Loop.writes, sentTo]
    split_ifs with hp
    · change Wiring hung l.state.accept cid (sent ++ [])
      by_cases hcid : cid = l.state.nextConnId
      · subst hcid
        have hempty := (hacc.fresh l.state.nextConnId (le_refl _)).2
        have hnil : sent = [] := by
          have := h.sends.inOrder
          rw [hempty] at this
          exact List.prefix_nil.1 this
        refine ⟨.of_open (c := .new) (Function.update_self _ _ _) (le_refl 0) ?_, fun c hc ho => ?_⟩
        · change _ = (l.state.ledger l.state.nextConnId).appended
          rw [hempty, hnil]
          rfl
        · obtain rfl : Connection.new = c := by simpa [Shard.accept, Shard.setConn] using hc
          cases ho
      · refine hidle.frame (Function.update_of_ne hcid _ _) rfl (fun hlt => ?_) id
        change cid < l.state.nextConnId + 1 at hlt
        omega
    · exact hidle
  | readable k data eof =>
    simp only [Loop.step, Loop.writes, sentTo, Loop.onConn]
    split
    · next c hp hc =>
      change Wiring hung { l.state.setConn k (c.receive data eof) with phase := .reading k } cid
        (sent ++ [])
      by_cases hcid : cid = k
      · subst hcid
        obtain ⟨hle, hout⟩ := h.sends.unsent c hc
        refine ⟨.of_open (c := c.receive data eof) (Function.update_self _ _ _) hle ?_, fun _ _ _ =>
          .inl rfl⟩
        rwa [List.append_nil]
      · exact hidle.frame (Function.update_of_ne hcid _ _) rfl id (phase_calm hp (.inl rfl))
    · exact hidle
  | process env =>
    simp only [Loop.step, Loop.writes, sentTo]
    split
    · next k hp =>
      split
      · next c hc =>
        change Wiring hung (Shard.processInput shardFor shards here l.state env k c).1 cid (sent ++ [])
        by_cases hcid : cid = k
        · subst hcid
          rw [List.append_nil]
          exact h.input shardFor shards here hp hc env
        · obtain ⟨hothers, hid⟩ := processInput_frame shardFor shards here l.state env k c
          exact hidle.frame (hothers cid hcid).1 (hothers cid hcid).2 (hid ▸ id)
            (phase_other hp (.inl rfl) hcid)
      · exact hidle
    · exact hidle
  | settle w =>
    unfold Loop.step Loop.writes
    cases hp : l.state.phase with
    | writing k => exact hwrite k w (.writing k) hp (.inr (.inr rfl))
    | _ => exact hidle
  | writable k w =>
    unfold Loop.step Loop.writes Loop.onConn
    cases hp : l.state.phase with
    | polling =>
      dsimp only
      cases hc : l.state.conns k with
      | none => exact hidle
      | some c =>
        have hw := hwrite k w .polling hp (.inl rfl)
        rw [hc] at hw
        have hphase : (l.state.finish k w).phase = .polling := (finish_frame l.state k w).2.2.trans hp
        dsimp only at hw ⊢
        rwa [← hphase] at hw
    | _ => exact hidle
  | hangup k =>
    unfold Loop.step Loop.writes Loop.onConn
    cases hp : l.state.phase with
    | polling =>
      dsimp only
      cases hc : l.state.conns k with
      | none => exact hidle
      | some c =>
        change Wiring hung (l.state.closeConn k) cid (sent ++ [])
        by_cases hcid : cid = k
        · subst hcid
          have hclosed : (l.state.closeConn cid).conns cid = none := Function.update_self _ _ _
          refine ⟨⟨hidle.sends.inOrder, fun c' hc' => ?_, fun _ _ => .inl (hhung rfl)⟩,
            fun c' hc' => ?_⟩
          · cases hclosed.symm.trans hc'
          · cases hclosed.symm.trans hc'
        · exact hidle.frame (Function.update_of_ne hcid _ _) rfl id id
    | _ => exact hidle
  | drain =>
    simp only [Loop.step, Loop.writes, sentTo]
    split_ifs with hp
    · exact hidle.frame rfl rfl id (phase_calm hp (.inl rfl))
    · exact hidle
  | next env w =>
    unfold Loop.step Loop.writes
    cases hp : l.state.phase with
    | draining =>
      cases hb : l.batch with
      | nil => exact hidle
      | cons m rest =>
        cases m with
        | execute origin part => exact hidle.frame rfl rfl id id
        | flush => exact hidle.frame rfl rfl id id
        | complete part reply =>
          change Wiring hung (l.state.completeFragment part reply w) cid _
          by_cases hcid : cid = part.cid
          · subst hcid
            obtain ⟨hs, howes⟩ := h.sends.complete hacc reply w (hawaits part reply rest hb)
            dsimp only
            rw [sentTo_self]
            exact ⟨hs, fun c hc ho => by cases (howes c hc).symm.trans ho⟩
          · obtain ⟨hothers, hid, hphase⟩ := completeFragment_frame l.state part reply w
            dsimp only
            rw [sentTo_other hcid]
            exact hidle.frame (hothers cid hcid).1 (hothers cid hcid).2 (hid ▸ id) (hphase ▸ id)
    | _ => exact hidle
  | iterate due synced =>
    unfold Loop.step Loop.writes
    cases hp : l.state.phase with
    | draining =>
      cases hb : l.batch with
      | nil =>
        refine hidle.frame ?_ ?_ ?_ (phase_calm hp (.inr rfl))
        · cases due <;> rfl
        · cases due <;> rfl
        · cases due <;> exact id
      | cons m rest => exact hidle
    | _ => exact hidle

end Loops

namespace Wired

variable {n : ℕ} {shardFor : Bytes → Fin n} {i : Fin n} {cid : ℕ} {hung : Prop}

/-- The invariant for one connection of a shard. -/
def Sound (hung : Prop) (i : Fin n) (cid : ℕ) (w : Wired n) : Prop :=
  w.server.Ok ∧ Wiring hung (w.server i).state cid (w.sent i cid)

theorem Sound.boot (db : Fin n → Keyspace) (aof : Fin n → Option Aof) :
    Sound hung i cid (boot db aof) := by
  refine ⟨.boot db aof, ⟨⟨⟨[], rfl⟩, fun c hc => ?_, fun _ _ => .inr ⟨rfl, rfl⟩⟩, fun c hc => ?_⟩⟩
  · cases hc
  · cases hc

theorem Sound.step {w : Wired n} (h : Sound hung i cid w) (e : Fin n × Event)
    (hhung : e = (i, .hangup cid) → hung) :
    Sound hung i cid (w.step shardFor e) := by
  obtain ⟨hok, hw⟩ := h
  obtain ⟨j, ev⟩ := e
  refine ⟨hok.step (j, ev), ?_⟩
  by_cases hj : j = i
  · subst hj
    have hawaits : ∀ part reply rest, (w.server j).batch = .complete part reply :: rest →
        ((w.server j).state.ledger part.cid).awaits part.seq part.index part.isInt :=
        fun part reply rest hb =>
      hok.awaits (List.mem_append_left _ (hb ▸ List.mem_cons_self))
    have hstep := wiring_step shardFor (List.finRange n) j hw (hok.accounted j) hawaits ev fun he =>
      hhung (by rw [he])
    simpa [Wired.step, Server.step, Lib.Net.deliver] using hstep
  · have hstate : (Server.step shardFor w.server (j, ev) i).state = (w.server i).state := by
      simp [Server.step, Lib.Net.deliver, Ne.symm hj]
    simpa [Wired.step, hstate, hj] using hw

theorem Sound.run {w : Wired n} (h : Sound hung i cid w) (es : List (Fin n × Event))
    (hhung : (i, .hangup cid) ∈ es → hung) : Sound hung i cid (w.run shardFor es) := by
  induction es generalizing w with
  | nil => exact h
  | cons e es ih =>
    exact ih (h.step e fun he => hhung (he ▸ List.mem_cons_self)) fun hm =>
      hhung (List.mem_cons_of_mem e hm)

/-- What the sockets have accepted in any run. On each connection it is a beginning of the replies
in order, and what an open connection still holds is what follows. A connection is closed, without
being hung up, exactly when its peer has stopped, all replies are there and all are sent. -/
theorem socket_bytes (shardFor : Bytes → Fin n) (db : Fin n → Keyspace) (aof : Fin n → Option Aof)
    (es : List (Fin n × Event)) (i : Fin n) (cid : ℕ) :
    let w := Wired.run shardFor (Wired.boot db aof) es
    let sh := (w.server i).state
    let l := sh.ledger cid
    (∃ m ≤ l.requests.length, repliesOf (l.requests.take m) = some l.appended) ∧
    w.sent i cid <+: l.appended ∧
      (∀ c, sh.conns cid = some c → w.sent i cid ++ c.out.drop c.outSent = l.appended ∧
        (c.closing = true ∧ c.pipeline = [] ∧ w.sent i cid = l.appended → sh.phase = .reading cid ∨
        sh.phase = .writing cid)) ∧
      (cid < sh.nextConnId → sh.conns cid = none → (i, .hangup cid) ∉ es →
        w.sent i cid = l.appended ∧ repliesOf l.requests = some l.appended) := by
  intro w sh l
  have hsound : Sound ((i, .hangup cid) ∈ es) i cid w := (Sound.boot db aof).run es id
  obtain ⟨hok, hw⟩ := hsound
  refine ⟨(hok.accounted i).delivered cid, hw.sends.inOrder, fun c hc => ?_, fun hlt hnone hno => ?_⟩
  · obtain ⟨hle, hout⟩ := hw.sends.unsent c hc
    refine ⟨hout, fun howes => hw.attended c hc ?_⟩
    obtain ⟨hclosing, hpipe, hsent⟩ := howes
    have hdrop : c.out.drop c.outSent = [] := by
      have := hout.trans hsent.symm
      simpa using this
    simp only [Connection.owesNothing, hclosing, hpipe, List.isEmpty_nil, Bool.and_self,
      Bool.true_and, decide_eq_true_eq]
    exact List.drop_eq_nil_iff.1 hdrop
  · exact (hw.sends.closed hlt hnone).resolve_left hno

end Wired

end BlazeKV
