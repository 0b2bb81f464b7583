import BlazeKV.Proofs.InFlight
import BlazeKV.Spec.History
import BlazeKV.Spec.Serving

/-! What a move of an event loop does with the data of its shard, the requests of its
connections and its mailbox, all of it. What else is said of a step is read off this. -/

namespace BlazeKV

section Shards

/-- The request `r` is new at the end, and the other requests are as they were. -/
structure Adds (sh sh' : Shard) (cid : ℕ) (r : Request) : Prop where
  here : (sh'.ledger cid).requests = (sh.ledger cid).requests ++ [r]
  others : ∀ j, j ≠ cid → (sh'.ledger j).requests = (sh.ledger j).requests

theorem adds_enqueue (sh : Shard) (cid : ℕ) (c : Connection) (pr : PendingReply) (r : Request) :
    Adds sh (sh.enqueue cid c pr r) cid r :=
  ⟨by simp [Shard.enqueue, Shard.note, Shard.setConn, Ledger.request],
    fun j hj => by simp [Shard.enqueue, Shard.note, Shard.setConn, hj]⟩

theorem requests_complete (sh : Shard) (part : Part) (reply : Bytes) (w : Written) (cid : ℕ) :
    ((sh.completeFragment part reply w).ledger cid).requests =
      if cid = part.cid then ((sh.ledger cid).fragment part reply).requests else (sh.ledger cid).requests := by
  have hnote : ((sh.note part.cid (·.fragment part reply)).ledger cid).requests =
      if cid = part.cid then ((sh.ledger cid).fragment part reply).requests else (sh.ledger cid).requests := by
    by_cases hc : cid = part.cid
    · subst hc
      simp [Shard.note]
    · simp [Shard.note, hc]
  unfold Shard.completeFragment
  dsimp only
  split
  · exact hnote
  · split
    · exact hnote
    · rw [ledger_finish, requests_flushReady, hnote]

variable {sh : Shard}

theorem finish_data (cid : ℕ) (w : Written) : (sh.finish cid w).db = sh.db ∧ (sh.finish cid w).aof = sh.aof := by
  unfold Shard.finish
  split
  · exact ⟨rfl, rfl⟩
  · dsimp only
    split_ifs <;> exact ⟨rfl, rfl⟩

theorem completeFragment_data (part : Part) (reply : Bytes) (w : Written) :
    (sh.completeFragment part reply w).db = sh.db ∧ (sh.completeFragment part reply w).aof = sh.aof := by
  unfold Shard.completeFragment
  dsimp only
  split
  · exact ⟨rfl, rfl⟩
  · split
    · exact ⟨rfl, rfl⟩
    · exact finish_data part.cid w

end Shards

section Loops

variable {ι : Type} [DecidableEq ι] (shardFor : Bytes → ι) (shards : List ι) (here : ι)

/-- What becomes of the input of a connection whose next request has the number `seq`, by the
entries in the history and the move. -/
inductive Input (env : Env) (sh sh' : Shard) (cid seq : ℕ) (posts : Posts ι) : List (Act ι) → Move → Prop
  | nothing (hl : ∀ j, (sh'.ledger j).requests = (sh.ledger j).requests) (hp : posts = []) :
    Input env sh sh' cid seq posts [] .nothing
  | malformed (b : Bytes) (hl : Adds sh sh' cid (.malformed b)) (hp : posts = []) : Input env sh sh' cid seq posts [] .nothing
  | refused (argv : List Bytes) (b : Bytes) (hplan : plan shardFor here argv = .refuse b)
      (hl : Adds sh sh' cid (.command argv (.here b))) (hp : posts = []) : Input env sh sh' cid seq posts [] .nothing
  | inline (argv : List Bytes) (hplan : plan shardFor here argv = .inline)
      (hl : Adds sh sh' cid (.command argv (.here (execCore env argv sh.db).reply)))
      (hp : posts = Shard.flushPosts shards here (execCore env argv sh.db).flush) :
    Input env sh sh' cid seq posts (sh.entries here here cid seq 0 env argv) (.exec env argv)
  | posted (argv : List Bytes) (kind : Kind)
      (hplan : (∃ t, plan shardFor here argv = .forward t ∧ kind = .single) ∨
        ∃ keys, plan shardFor here argv = .fanOut keys ∧ kind = kindOf (lowercase (cmdName argv)))
      (hl : Adds sh sh' cid (.command argv (.parts kind (List.replicate (requests shardFor here argv).length none))))
      (hp : posts = (requests shardFor here argv).mapIdx fun i r =>
        (r.1, .execute here ⟨cid, seq, i, kind.isInt, r.2⟩)) : Input env sh sh' cid seq posts [] .nothing

/-- A move leaves the data of its shard as its `Move` does. -/
def SameData (sh sh' : Shard) (d : Move) : Prop := sh'.db = (d.apply sh).db ∧ sh'.aof = (d.apply sh).aof

theorem input_turn (sh : Shard) (env : Env) (cid : ℕ) (c : Connection) :
    let r := Shard.processInput shardFor shards here sh env cid c
    let d := Loop.inlined shardFor here env c
    SameData sh r.1 d ∧ Input shardFor shards here env sh r.1 cid c.nextSeq r.2
      (match d with
        | .exec env argv => sh.entries here here cid c.nextSeq 0 env argv
        | _ => []) d := by
  unfold Shard.processInput Loop.inlined
  split_ifs with hclosing
  · exact ⟨⟨rfl, rfl⟩, .nothing (requests_endInput sh cid c) rfl⟩
  · cases RequestParser.parse c.input with
    | needMore => exact ⟨⟨rfl, rfl⟩, .nothing (requests_endInput sh cid c) rfl⟩
    | protocolError e =>
      refine ⟨⟨rfl, rfl⟩, .malformed (Reply.error (ascii "ERR Protocol error: " ++ e)) ⟨?_, fun j hj => ?_⟩ rfl⟩
      · rw [requests_endInput]
        simp [Shard.note, Ledger.request]
      · rw [requests_endInput]
        simp [Shard.note, hj]
    | ok argv consumed =>
      dsimp only
      split_ifs with hnil
      · exact ⟨⟨rfl, rfl⟩, .nothing (fun _ => rfl) rfl⟩
      · unfold Shard.dispatch
        cases hplan : plan shardFor here argv with
        | refuse e => exact ⟨⟨rfl, rfl⟩, .refused argv e hplan (adds_enqueue _ _ _ _ _) rfl⟩
        | inline =>
          have hadds := adds_enqueue (sh.exec env argv).1 cid { c with input := c.input.drop consumed }
            (.done (sh.exec env argv).2.1) (.command argv (.here (sh.exec env argv).2.1))
          exact ⟨⟨rfl, rfl⟩, .inline argv hplan ⟨hadds.here, hadds.others⟩ rfl⟩
        | forward target =>
          have hone : requests shardFor here argv = [(target, argv)] := by simp [requests, hplan]
          refine ⟨⟨rfl, rfl⟩, .posted argv .single (.inl ⟨target, hplan, rfl⟩) ?_ ?_⟩
          · rw [hone]
            exact adds_enqueue _ _ _ _ _
          · rw [hone]
            rfl
        | fanOut keys =>
          have hmany : requests shardFor here argv = keys.mapIdx fun i key =>
              (shardFor key, subCommand (kindOf (lowercase (cmdName argv))) argv i key) := by simp [requests, hplan]
          refine ⟨⟨rfl, rfl⟩, .posted argv _ (.inr ⟨keys, hplan, rfl⟩) ?_ ?_⟩
          · rw [hmany, List.length_mapIdx]
            exact adds_enqueue _ _ _ _ _
          · rw [hmany, List.mapIdx_mapIdx]
            rfl

/-- What a move does, by its entries in the history and its `Move`. -/
inductive Turns (l l' : Loop ι) (e : Event) (posts : Posts ι) : List (Act ι) → Move → Prop
  | quiet (hl : ∀ j, (l'.state.ledger j).requests = (l.state.ledger j).requests) (hp : posts = []) (hheld : l'.held = l.held) :
    Turns l l' e posts [] .nothing
  | cron (now : ℕ) (synced : Bool) (hl : ∀ j, (l'.state.ledger j).requests = (l.state.ledger j).requests) (hp : posts = [])
      (hheld : l'.held = l.held) : Turns l l' e posts [] (.cron now synced)
  | input (env : Env) (cid : ℕ) (c : Connection) (es : List (Act ι)) (d : Move) (he : e = .process env)
      (hphase : l.state.phase = .reading cid) (hc : l.state.conns cid = some c)
      (ht : Input shardFor shards here env l.state l'.state cid c.nextSeq posts es d) (hheld : l'.held = l.held) :
    Turns l l' e posts es d
  | execute (env : Env) (origin : ι) (part : Part) (hl : ∀ j, (l'.state.ledger j).requests = (l.state.ledger j).requests)
      (hp : posts = Shard.flushPosts shards here (execCore env part.args l.state.db).flush ++
        [(origin, .complete part (execCore env part.args l.state.db).reply)])
      (hheld : l.held = .execute origin part :: l'.held) :
    Turns l l' e posts (l.state.entries here origin part.cid part.seq part.index env part.args) (.exec env part.args)
  | complete (part : Part) (reply : Bytes)
      (hl : ∀ j, (l'.state.ledger j).requests =
        if j = part.cid then ((l.state.ledger j).fragment part reply).requests else (l.state.ledger j).requests)
      (hp : posts = []) (hheld : l.held = .complete part reply :: l'.held) : Turns l l' e posts [] .nothing
  | flush (hl : ∀ j, (l'.state.ledger j).requests = (l.state.ledger j).requests) (hp : posts = [])
      (hheld : l.held = .flush :: l'.held) : Turns l l' e posts [.flush here] .flush

variable {l : Loop ι}

/-- The data and the rest. -/
structure Turned (l l' : Loop ι) (e : Event) (posts : Posts ι) (es : List (Act ι)) (d : Move) : Prop where
  data : SameData l.state l'.state d
  turn : Turns shardFor shards here l l' e posts es d

theorem Turned.same {l' : Loop ι} {e : Event} (hdb : l'.state.db = l.state.db) (haof : l'.state.aof = l.state.aof)
    (hl : ∀ j, (l'.state.ledger j).requests = (l.state.ledger j).requests) (hheld : l'.held = l.held) :
    Turned shardFor shards here l l' e [] [] .nothing := ⟨⟨hdb, haof⟩, .quiet hl rfl hheld⟩

theorem Turned.onConn (cid : ℕ) {f : Connection → Loop ι} {e : Event}
    (hf : ∀ c, Turned shardFor shards here l (f c) e [] [] .nothing) :
    Turned shardFor shards here l (Loop.onConn l cid f) e [] [] .nothing := by
  unfold Loop.onConn
  split
  · exact hf _
  · exact .same shardFor shards here rfl rfl (fun _ => rfl) rfl

/-- The step lemma of one loop. -/
theorem turned_step (e : Event) : Turned shardFor shards here l (Loop.step shardFor shards here l e).1 e
    (Loop.step shardFor shards here l e).2 (Loop.entries shardFor here l e) (Loop.move shardFor here l e) := by
  have hidle : ∀ e, Turned shardFor shards here l l e [] [] .nothing :=
    fun _ => .same shardFor shards here rfl rfl (fun _ => rfl) rfl
  have hfinish : ∀ (l' : Loop ι) (e : Event) (cid : ℕ) (w : Written), l'.state.db = (l.state.finish cid w).db →
      l'.state.aof = (l.state.finish cid w).aof → l'.state.ledger = (l.state.finish cid w).ledger → l'.held = l.held →
        Turned shardFor shards here l l' e [] [] .nothing := fun l' e cid w hdb haof hl hheld =>
    .same shardFor shards here (hdb.trans (finish_data cid w).1) (haof.trans (finish_data cid w).2)
      (fun j => congrArg (fun f => (f j).requests) (hl.trans (ledger_finish l.state cid w))) hheld
  cases e with
  | accept =>
    simp only [Loop.step, Loop.entries, Loop.move]
    split_ifs
    · exact .same shardFor shards here rfl rfl (fun _ => rfl) rfl
    · exact hidle _
  | readable cid data eof => exact .onConn shardFor shards here cid fun c => .same shardFor shards here rfl rfl (fun _ => rfl) rfl
  | process env =>
    unfold Loop.step Loop.entries Loop.move
    cases hp : l.state.phase with
    | reading cid =>
      dsimp only
      cases hc : l.state.conns cid with
      | none => exact hidle _
      | some c =>
        obtain ⟨hdata, hinput⟩ := input_turn shardFor shards here l.state env cid c
        exact ⟨hdata, .input env cid c _ _ rfl hp hc hinput rfl⟩
    | _ => exact hidle _
  | settle w =>
    unfold Loop.step Loop.entries Loop.move
    cases hp : l.state.phase with
    | writing cid => exact hfinish _ _ cid w rfl rfl rfl rfl
    | _ => exact hidle _
  | writable cid w => exact .onConn shardFor shards here cid fun c => hfinish _ _ cid w rfl rfl rfl rfl
  | hangup cid => exact .onConn shardFor shards here cid fun c => .same shardFor shards here rfl rfl (fun _ => rfl) rfl
  | drain =>
    simp only [Loop.step, Loop.entries, Loop.move]
    split_ifs
    · exact .same shardFor shards here rfl rfl (fun _ => rfl) (Lib.Actor.held_take l)
    · exact hidle _
  | next env w =>
    unfold Loop.step Loop.entries Loop.move
    cases hp : l.state.phase with
    | draining =>
      cases hb : l.batch with
      | nil => exact hidle _
      | cons m rest =>
        have hheld : ∀ sh : Shard, l.held = m :: Lib.Actor.held { l with state := sh, batch := rest } := fun sh => by
          simp only [Lib.Actor.held, hb, List.cons_append]
        cases m with
        | execute origin part => exact ⟨⟨rfl, rfl⟩, .execute env origin part (fun _ => rfl) rfl (hheld _)⟩
        | complete part reply =>
          exact ⟨completeFragment_data part reply w, .complete part reply (requests_complete l.state part reply w) rfl (hheld _)⟩
        | flush => exact ⟨⟨rfl, rfl⟩, .flush (fun _ => rfl) rfl (hheld _)⟩
    | _ => exact hidle _
  | iterate due synced =>
    unfold Loop.step Loop.entries Loop.move
    cases hp : l.state.phase with
    | draining =>
      cases hb : l.batch with
      | nil =>
        cases due with
        | none => exact .same shardFor shards here rfl rfl (fun _ => rfl) rfl
        | some now => exact ⟨⟨rfl, rfl⟩, .cron now synced (fun _ => rfl) rfl rfl⟩
      | cons m rest => cases due <;> exact hidle _
    | _ => cases due <;> exact hidle _

end Loops

section Phases

/-- The first slot of the connection, if there is one, still waits. -/
def Connection.Halted (c : Connection) : Prop := ∀ p ∈ c.pipeline.head?, p.2.ready = false

/-- Only a connection that is being read has replies to append. -/
def Shard.Idle (sh : Shard) : Prop := ∀ k c, sh.conns k = some c → c.Halted ∨ sh.phase = .reading k

theorem flush_halts (p : Pipeline) : ∀ q ∈ p.flush.2.head?, q.2.ready = false := by
  induction p with
  | nil => simp [Pipeline.flush]
  | cons q p ih =>
    obtain ⟨s, pr⟩ := q
    cases hr : pr.ready with
    | false => simp [Pipeline.flush, hr]
    | true => simpa [Pipeline.flush, hr] using ih

theorem Connection.halted_flushReady (c : Connection) : c.flushReady.Halted := flush_halts c.pipeline

variable {sh sh' : Shard} {k : ℕ}

/-- A move that touches one connection. -/
theorem Shard.Idle.of_one (h : sh.Idle) (hothers : ∀ j, j ≠ k → sh'.conns j = sh.conns j)
    (hphase : ∀ j, j ≠ k → sh.phase = .reading j → sh'.phase = .reading j)
    (hone : ∀ c, sh'.conns k = some c → c.Halted ∨ sh'.phase = .reading k) : sh'.Idle := by
  intro j c hc
  by_cases hj : j = k
  · subst hj
    exact hone c hc
  · rw [hothers j hj] at hc
    exact (h j c hc).imp_right (hphase j hj)

theorem Shard.Idle.of_conns (h : sh.Idle) (hconns : sh'.conns = sh.conns)
    (hphase : ∀ j, sh.phase = .reading j → sh'.phase = .reading j) : sh'.Idle := by
  intro j c hc
  rw [hconns] at hc
  exact (h j c hc).imp_right (hphase j)

theorem Shard.Idle.setConn (h : sh.Idle) {c : Connection} (hc : c.Halted ∨ sh.phase = .reading k) :
    (sh.setConn k c).Idle := by
  refine h.of_one (fun j hj => Function.update_of_ne hj _ _) (fun _ _ => id) fun c' hc' => ?_
  obtain rfl : c = c' := by simpa [Shard.setConn] using hc'
  exact hc

theorem Shard.Idle.closeConn (h : sh.Idle) (k : ℕ) : (sh.closeConn k).Idle := by
  refine h.of_one (fun j hj => Function.update_of_ne hj _ _) (fun _ _ => id) fun c hc => ?_
  simp [Shard.closeConn] at hc

theorem Shard.Idle.finish (h : sh.Idle) (k : ℕ) (w : Written) : (sh.finish k w).Idle ∧ (sh.finish k w).phase = sh.phase := by
  unfold Shard.finish
  cases hc : sh.conns k with
  | none => exact ⟨h, rfl⟩
  | some c =>
    have hpipe : (c.handleWritable w).pipeline = c.pipeline := by
      unfold Connection.handleWritable
      dsimp only
      split_ifs <;> rfl
    have hhalt : (c.handleWritable w).Halted ∨ sh.phase = .reading k := by
      unfold Connection.Halted
      rw [hpipe]
      exact h k c hc
    dsimp only
    split_ifs
    · exact ⟨h.closeConn k, rfl⟩
    · exact ⟨h.setConn hhalt, rfl⟩

theorem Shard.Idle.flushReady (h : sh.Idle) (k : ℕ) (c : Connection) : (sh.flushReady k c).Idle :=
  (h.setConn (.inl c.halted_flushReady)).of_conns rfl fun _ => id

theorem Shard.Idle.complete (h : sh.Idle) (part : Part) (reply : Bytes) (w : Written) :
    (sh.completeFragment part reply w).Idle ∧ (sh.completeFragment part reply w).phase = sh.phase := by
  have hnote : (sh.note part.cid (·.fragment part reply)).Idle := h.of_conns rfl fun _ => id
  unfold Shard.completeFragment
  dsimp only
  split
  · exact ⟨hnote, rfl⟩
  · split
    · exact ⟨hnote, rfl⟩
    · exact (hnote.flushReady part.cid _).finish part.cid w

section Loops

variable {ι : Type} [DecidableEq ι] (shardFor : Bytes → ι) (shards : List ι) (here : ι) {l : Loop ι}

theorem Shard.Idle.input (h : sh.Idle) (hphase : sh.phase = .reading k) (env : Env) (c : Connection) :
    let sh' := (Shard.processInput shardFor shards here sh env k c).1
    sh'.Idle ∧ (sh'.phase = .reading k ∨ sh'.phase = .writing k) := by
  have hend : ∀ (sh : Shard), sh.Idle → sh.phase = .reading k → ∀ c : Connection,
      (sh.endInput k c).Idle ∧ ((sh.endInput k c).phase = .reading k ∨ (sh.endInput k c).phase = .writing k) := by
    intro sh h hphase c
    refine ⟨h.of_one (fun j hj => Function.update_of_ne hj _ _) (fun j hj hr => ?_) fun c' hc' => .inl ?_, .inr rfl⟩
    · exact absurd (Phase.reading.inj (hr.symm.trans hphase)) hj
    · obtain rfl : c.flushReady = c' := by simpa [Shard.endInput, Shard.flushReady, Shard.note, Shard.setConn] using hc'
      exact c.halted_flushReady
  have hkeep : ∀ sh' : Shard, sh'.phase = sh.phase → (∀ j, j ≠ k → sh'.conns j = sh.conns j) →
      sh'.Idle ∧ (sh'.phase = .reading k ∨ sh'.phase = .writing k) := fun sh' hp hothers =>
    ⟨h.of_one hothers (fun _ _ hr => hp.trans hr) fun _ _ => .inr (hp.trans hphase), .inl (hp.trans hphase)⟩
  unfold Shard.processInput
  split_ifs with hclosing
  · exact hend sh h hphase c
  · cases RequestParser.parse c.input with
    | needMore => exact hend sh h hphase c
    | protocolError e => exact hend _ (h.of_conns rfl fun _ => id) hphase _
    | ok argv consumed =>
      dsimp only
      split_ifs with hnil
      · exact hkeep _ rfl fun j hj => Function.update_of_ne hj _ _
      · unfold Shard.dispatch
        cases plan shardFor here argv with
        | _ => exact hkeep _ rfl fun j hj => Function.update_of_ne hj _ _

/-- A move that leaves no reply behind, and reads only what was readable. -/
structure Pauses (l l' : Loop ι) (e : Event) : Prop where
  idle : l'.state.Idle
  reading : ∀ k, l'.state.phase = .reading k → l.state.phase = .reading k ∨ ∃ data eof, e = .readable k data eof

omit [DecidableEq ι] in
theorem Pauses.stay {l' : Loop ι} {e : Event} (h : l'.state.Idle ∧ l'.state.phase = l.state.phase) : Pauses l l' e :=
  ⟨h.1, fun _ hk => .inl (h.2 ▸ hk)⟩

omit [DecidableEq ι] in
/-- From one phase in which nothing is read to another. -/
theorem Pauses.pass {l' : Loop ι} {e : Event} {phase : Phase} (h : sh.Idle) (hfrom : ∀ j, sh.phase ≠ .reading j)
    (hto : ∀ j, phase ≠ .reading j) (hl : l'.state = { sh with phase := phase }) : Pauses l l' e := by
  refine ⟨?_, fun k hk => ?_⟩
  · rw [hl]
    exact h.of_conns rfl fun j hr => absurd hr (hfrom j)
  · rw [hl] at hk
    exact absurd hk (hto k)

omit [DecidableEq ι] in
theorem Pauses.onConn {f : Connection → Loop ι} {e : Event} (h : l.state.Idle) (cid : ℕ)
    (hf : ∀ c, l.state.phase = .polling → Pauses l (f c) e) : Pauses l (Loop.onConn l cid f) e := by
  unfold Loop.onConn
  split
  · next c hp hc => exact hf c hp
  · exact .stay ⟨h, rfl⟩

/-- The step lemma of the phases. -/
theorem pauses_step (h : l.state.Idle) (e : Event) : Pauses l (Loop.step shardFor shards here l e).1 e := by
  have hidle : ∀ e, Pauses l l e := fun _ => .stay ⟨h, rfl⟩
  have hno : ∀ phase, l.state.phase = phase → (∀ j, phase ≠ .reading j) → ∀ j, l.state.phase ≠ .reading j :=
    fun _ hp hne => hp ▸ hne
  cases e with
  | accept =>
    simp only [Loop.step]
    split_ifs
    · exact .stay ⟨(h.setConn (.inl fun p hp => by cases hp)).of_conns rfl fun _ => id, rfl⟩
    · exact hidle _
  | readable cid data eof =>
    refine .onConn h cid fun c hp => ⟨?_, fun k hk => .inr ⟨data, eof, ?_⟩⟩
    · refine h.of_one (fun j hj => Function.update_of_ne hj _ _) (fun j _ hr => ?_) fun _ _ => .inr rfl
      rw [hp] at hr
      cases hr
    · obtain rfl := Phase.reading.inj hk
      rfl
  | process env =>
    unfold Loop.step
    cases hp : l.state.phase with
    | reading cid =>
      dsimp only
      cases hc : l.state.conns cid with
      | none => exact hidle _
      | some c =>
        obtain ⟨hi, hphase⟩ := h.input shardFor shards here hp env c
        refine ⟨hi, fun k hk => .inl ?_⟩
        rcases hphase with hr | hw
        · exact hp.trans (hr.symm.trans hk)
        · cases hw.symm.trans hk
    | _ => exact hidle _
  | settle w =>
    unfold Loop.step
    cases hp : l.state.phase with
    | writing cid =>
      obtain ⟨hi, hphase⟩ := h.finish cid w
      exact .pass hi (fun j hr => by cases hp.symm.trans (hphase.symm.trans hr)) (by simp) rfl
    | _ => exact hidle _
  | writable cid w => exact .onConn h cid fun c _ => .stay (h.finish cid w)
  | hangup cid => exact .onConn h cid fun c _ => .stay ⟨h.closeConn cid, rfl⟩
  | drain =>
    simp only [Loop.step]
    split_ifs with hp
    · exact .pass h (hno _ hp (by simp)) (by simp) rfl
    · exact hidle _
  | next env w =>
    unfold Loop.step
    cases hp : l.state.phase with
    | draining =>
      cases hb : l.batch with
      | nil => exact hidle _
      | cons m rest =>
        cases m with
        | execute origin part => exact .stay ⟨h.of_conns rfl fun _ => id, rfl⟩
        | complete part reply => exact .stay (h.complete part reply w)
        | flush => exact .stay ⟨h.of_conns rfl fun _ => id, rfl⟩
    | _ => exact hidle _
  | iterate due synced =>
    unfold Loop.step
    cases hp : l.state.phase with
    | draining =>
      cases hb : l.batch with
      | nil =>
        cases due with
        | none => exact .pass h (hno _ hp (by simp)) (by simp) rfl
        | some now =>
          exact .pass (h.of_conns rfl fun _ => id : (l.state.cron now synced).Idle) (hno _ hp (by simp)) (by simp) rfl
      | cons m rest => exact hidle _
    | _ => exact hidle _

end Loops

end Phases

end BlazeKV
