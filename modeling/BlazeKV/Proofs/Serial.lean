import BlazeKV.Proofs.Executions
import BlazeKV.Proofs.OneClient

/-! What clients see of a server is what its shards do one command after another. Each part of
a request is executed once, the reply is put together from these executions, and whoever has
a reply before asking for something else finds it done. -/

namespace BlazeKV

open Lib

/-- A part of a request: its connection, the number of the request and the index of the part. -/
structure PartId (ι : Type) where
  origin : ι
  cid : ℕ
  seq : ℕ
  index : ℕ
  deriving DecidableEq

section Parts

variable {ι : Type} [DecidableEq ι]

def Execution.part (x : Execution ι) : PartId ι := ⟨x.origin, x.cid, x.seq, x.index⟩

def Act.isOf (p : PartId ι) : Act ι → Bool
  | .exec x => x.part = p
  | .flush _ => false

/-- Whether a message asks for the execution of a part. -/
def Message.isOf (p : PartId ι) : Message ι → Bool
  | .execute origin part => (⟨origin, part.cid, part.seq, part.index⟩ : PartId ι) = p
  | _ => false

/-- How often a part was executed. -/
def timesRun (p : PartId ι) (h : List (Act ι)) : ℕ := h.countP (Act.isOf p)

/-- The result of an execution of a shard. -/
def Act.result (j : ι) : Act ι → Option (List Bytes × Option Bytes × Bytes)
  | .exec x => if x.shard = j then some (x.argv, x.record, x.reply) else none
  | .flush _ => none

end Parts

/-- A keyspace on which a move is made, and what it executes. -/
def Keyspace.serve (db : Keyspace) : Move → Keyspace × List (List Bytes × Option Bytes × Bytes)
  | .nothing => (db, [])
  | .exec env argv => ((execCore env argv db).db,
      [(argv, (execCore env argv db).record, (execCore env argv db).reply)])
  | .flush => (db.clear, [])
  | .cron now _ => ((db.activeExpireCycle now 20).1, [])

/-- One move after another on one keyspace. -/
def Keyspace.serially (db : Keyspace) (ms : List Move) :
    Keyspace × List (List Bytes × Option Bytes × Bytes) :=
  ms.foldl (fun r m => ((r.1.serve m).1, r.2 ++ (r.1.serve m).2)) (db, [])

theorem Keyspace.serially_append (db : Keyspace) (ms : List Move) (m : Move) : db.serially (ms ++ [m]) =
    (((db.serially ms).1.serve m).1, (db.serially ms).2 ++ ((db.serially ms).1.serve m).2) := by
  rw [serially, List.foldl_append]
  rfl

theorem apply_serve (sh : Shard) (m : Move) : (m.apply sh).db = (sh.db.serve m).1 := by
  cases m <;> rfl

section Replies

variable {ι : Type} [DecidableEq ι] (shardFor : Bytes → ι)

/-- The reply to a command from the replies to its parts. -/
def joined (o : ι) (argv : List Bytes) (bs : List Bytes) : Bytes :=
  match plan shardFor o argv with
  | .refuse e => e
  | .inline | .forward _ => bs.headD []
  | .fanOut _ => assembled (kindOf (lowercase (cmdName argv))) bs

/-- The answer is one that the plan for the command gives. -/
def Routed (o : ι) (argv : List Bytes) : Answer → Prop
  | .here b => plan shardFor o argv = .refuse b ∨ plan shardFor o argv = .inline
  | .parts kind _ => (∃ t, plan shardFor o argv = .forward t ∧ kind = .single) ∨
      ∃ keys, plan shardFor o argv = .fanOut keys ∧ kind = kindOf (lowercase (cmdName argv))

/-- How often the part with an index of a request is to be executed. -/
def Request.due (o : ι) (index : ℕ) : Request → ℕ
  | .command argv _ => if index < (requests shardFor o argv).length then 1 else 0
  | .malformed _ => 0

/-- The same for a part of any connection of a shard. -/
def Shard.due (here : ι) (p : PartId ι) (sh : Shard) : ℕ :=
  if p.origin = here then (sh.ledger p.cid).requests[p.seq]?.elim 0
  (Request.due shardFor here p.index) else 0

variable {shardFor} {here : ι} {p : PartId ι} {sh sh' : Shard}

theorem due_of_requests (h : ∀ j, (sh'.ledger j).requests = (sh.ledger j).requests) :
    sh'.due shardFor here p = sh.due shardFor here p := by
  rw [Shard.due, Shard.due, h]

theorem due_fragment {part : Part} {reply : Bytes} (h : ∀ j, (sh'.ledger j).requests =
    if j = part.cid then ((sh.ledger j).fragment part reply).requests else (sh.ledger j).requests) :
    sh'.due shardFor here p = sh.due shardFor here p := by
  have hsame : ∀ r : Request, Request.due shardFor here p.index
    (r.setAnswer (r.answer.fill part reply)) =
      Request.due shardFor here p.index r := fun r => by cases r <;> rfl
  rw [Shard.due, Shard.due, h]
  split_ifs
  · rw [Ledger.fragment, List.getElem?_modify]
    cases (sh.ledger p.cid).requests[p.seq]? with
    | none => rfl
    | some r =>
      by_cases hseq : part.seq = p.seq
      · simpa [hseq] using hsame r
      · simp [hseq]
  · rfl
  · rfl

theorem due_adds {cid : ℕ} {r : Request} (h : Adds sh sh' cid r) :
    sh'.due shardFor here p = sh.due shardFor here p +
    if p.origin = here ∧ p.cid = cid ∧ p.seq =
    (sh.ledger cid).requests.length then r.due shardFor here p.index else 0 := by
  unfold Shard.due
  by_cases ho : p.origin = here
  · by_cases hcid : p.cid = cid
    · subst hcid
      rw [h.here]
      rcases lt_trichotomy p.seq (sh.ledger p.cid).requests.length with hlt | heq | hgt
      · simp [List.getElem?_append_left hlt, hlt.ne]
      · simp [heq, ho]
      · have hone : [r].length ≤ p.seq - (sh.ledger p.cid).requests.length := by
          rw [List.length_singleton]
          omega
        simp [List.getElem?_append_right hgt.le, List.getElem?_eq_none hgt.le,
          List.getElem?_eq_none hone, hgt.ne']
    · simp [h.others p.cid hcid, hcid]
  · simp [ho]

theorem runs_entries (sh : Shard) (origin : ι) (cid seq index : ℕ) (env : Env) (argv : List Bytes) :
    timesRun p (sh.entries here origin cid seq index env argv) =
    if (⟨origin, cid, seq, index⟩ : PartId ι) = p then 1 else 0 := by
  unfold timesRun Shard.entries
  rw [List.countP_append, List.countP_singleton]
  have hflush : List.countP (Act.isOf p) (if
    (execCore env argv sh.db).flush then [Act.flush here] else []) = 0 := by
    split_ifs <;> rfl
  rw [hflush, Nat.zero_add]
  exact if_congr decide_eq_true_iff rfl rfl

theorem asks_flush (shards : List ι) (flushed : Bool) :
    (Shard.flushPosts shards here flushed).countP (fun e => Message.isOf p e.2) = 0 := by
  refine List.countP_eq_zero.2 fun e he => ?_
  rw [(Shard.mem_flushPosts he).2.2]
  exact Bool.false_ne_true

/-- What the input of a connection adds. -/
theorem Input.once {shards : List ι} {env : Env} {cid seq : ℕ} {posts : Posts ι} {es : List (Act ι)}
    {d : Move}
    (h : Input shardFor shards here env sh sh' cid seq posts es d)
    (hseq : seq = (sh.ledger cid).requests.length) :
    timesRun p es + posts.countP (fun e => Message.isOf p e.2) + sh.due shardFor here p =
    sh'.due shardFor here p := by
  subst hseq
  have hnone : ∀ es : List (Act ι), es = [] → timesRun p es = 0 := fun es he => by rw [he]; rfl
  cases h with
  | nothing hl hp =>
    rw [due_of_requests hl, hp]
    exact Nat.zero_add _
  | malformed b hl hp =>
    rw [due_adds hl, hp]
    simp [timesRun, Request.due]
  | refused argv b hplan hl hp =>
    have hno : requests shardFor here argv = [] := by simp [requests, hplan]
    rw [due_adds hl, hp]
    simp [timesRun, Request.due, hno]
  | inline argv hplan hl hp =>
    have hone : requests shardFor here argv = [(here, argv)] := by simp [requests, hplan]
    rw [due_adds hl, hp, asks_flush, runs_entries]
    simp only [Request.due, hone, List.length_singleton, Nat.lt_one_iff]
    obtain ⟨o, k, s, index⟩ := p
    simp only [PartId.mk.injEq]
    split_ifs <;> grind
  | posted argv kind hplan hl hp =>
    have hcount := countP_mapIdx
      (fun i (r : ι × List Bytes) => (r.1, Message.execute here ⟨cid,
      (sh.ledger cid).requests.length, i, kind.isInt, r.2⟩))
      (fun e => Message.isOf p e.2) (here = p.origin ∧ cid = p.cid ∧
      (sh.ledger cid).requests.length = p.seq) p.index
      (fun i r => by
        obtain ⟨o, k, s, index⟩ := p
        simp only [Message.isOf, PartId.mk.injEq]
        grind) (requests shardFor here argv)
    rw [due_adds hl, hp, hcount]
    simp only [Request.due, timesRun, List.countP_nil]
    grind

/-- The step lemma of one loop. -/
theorem Turned.once {shards : List ι} {l l' : Loop ι} {e : Event} {posts : Posts ι}
    {es : List (Act ι)} {d : Move}
    (h : Turned shardFor shards here l l' e posts es d) (hacc : Accounted l.state) :
    timesRun p es + l'.held.countP (Message.isOf p) + posts.countP (fun e => Message.isOf p e.2) +
    l.state.due shardFor here p =
      l.held.countP (Message.isOf p) + l'.state.due shardFor here p := by
  cases h.turn with
  | quiet hl hp hheld =>
    rw [due_of_requests hl, hp, hheld]
    simp [timesRun]
  | cron now synced hl hp hheld =>
    rw [due_of_requests hl, hp, hheld]
    simp [timesRun]
  | input env cid c es d he hphase hc ht hheld =>
    have honce := ht.once (p := p) (hacc.tracks cid c hc).nextSeq
    rw [hheld]
    omega
  | execute env origin part hl hp hheld =>
    rw [due_of_requests hl, hp, hheld, List.countP_append, asks_flush, runs_entries,
      List.countP_singleton, List.countP_cons]
    simp only [Message.isOf, decide_eq_true_eq, Bool.false_eq_true, if_false]
    omega
  | complete part reply hl hp hheld =>
    rw [due_fragment hl, hp, hheld]
    simp [timesRun, Message.isOf]
  | flush hl hp hheld =>
    rw [due_of_requests hl, hp, hheld]
    simp [timesRun, Message.isOf, Act.isOf]

/-- What the input of a connection leaves of its answers. -/
theorem Input.routed {shards : List ι} {env : Env} {cid seq : ℕ} {posts : Posts ι}
    {es : List (Act ι)} {d : Move}
    (h : Input shardFor shards here env sh sh' cid seq posts es d) {j q : ℕ} {argv : List Bytes}
    {a : Answer}
    (hold : ∀ (argv : List Bytes) (a : Answer), (sh.ledger j).requests[q]? =
    some (.command argv a) → Routed shardFor here argv a)
    (ha : (sh'.ledger j).requests[q]? = some (.command argv a)) : Routed shardFor here argv a := by
  cases h with
  | nothing hl => exact hold argv a (hl j ▸ ha)
  | malformed b hl =>
    rcases hl.cases ha with ha | ⟨-, -, hr⟩
    · exact hold argv a ha
    · cases hr
  | refused argv' b hplan hl =>
    rcases hl.cases ha with ha | ⟨-, -, hr⟩
    · exact hold argv a ha
    · obtain ⟨rfl, rfl⟩ := Request.command.inj hr
      exact .inl hplan
  | inline argv' hplan hl =>
    rcases hl.cases ha with ha | ⟨-, -, hr⟩
    · exact hold argv a ha
    · obtain ⟨rfl, rfl⟩ := Request.command.inj hr
      exact .inr hplan
  | posted argv' kind hplan hl =>
    rcases hl.cases ha with ha | ⟨-, -, hr⟩
    · exact hold argv a ha
    · obtain ⟨rfl, rfl⟩ := Request.command.inj hr
      exact hplan

theorem Turned.routed {shards : List ι} {l l' : Loop ι} {e : Event} {posts : Posts ι}
    {es : List (Act ι)} {d : Move}
    (h : Turned shardFor shards here l l' e posts es d)
    (hold : ∀ (j q : ℕ) (argv : List Bytes) (a : Answer), (l.state.ledger j).requests[q]? =
    some (.command argv a) →
      Routed shardFor here argv a)
    {j q : ℕ} {argv : List Bytes} {a : Answer}
    (ha : (l'.state.ledger j).requests[q]? = some (.command argv a)) :
    Routed shardFor here argv a := by
  cases h.turn with
  | quiet hl => exact hold j q argv a (hl j ▸ ha)
  | cron _ _ hl => exact hold j q argv a (hl j ▸ ha)
  | flush hl => exact hold j q argv a (hl j ▸ ha)
  | execute _ _ _ hl => exact hold j q argv a (hl j ▸ ha)
  | input env cid c es d _ _ _ ht => exact ht.routed (hold j q) ha
  | complete part reply hl =>
    rw [hl] at ha
    split_ifs at ha
    · rw [Ledger.fragment, List.getElem?_modify] at ha
      obtain ⟨r, hr, hcommand⟩ := Option.map_eq_some_iff.1 ha
      cases r with
      | malformed b =>
        split_ifs at hcommand
        cases hcommand
      | command argv' a' =>
        have hbefore := hold j q argv' a' hr
        split_ifs at hcommand
        · obtain ⟨rfl, rfl⟩ := Request.command.inj hcommand
          cases a' <;> exact hbefore
        · obtain ⟨rfl, rfl⟩ := Request.command.inj hcommand
          exact hbefore
    · exact hold j q argv a ha

/-- What a move of a shard executes is what its keyspace serves. -/
theorem Turned.results {shards : List ι} {l l' : Loop ι} {e : Event} {posts : Posts ι}
    {es : List (Act ι)} {d : Move}
    (h : Turned shardFor shards here l l' e posts es d) :
    es.filterMap (Act.result here) = (l.state.db.serve d).2 ∧ ∀ j, j ≠ here →
    es.filterMap (Act.result j) = [] := by
  have hentries : ∀ (origin : ι) (cid seq index : ℕ) (env : Env) (argv : List Bytes),
      (l.state.entries here origin cid seq index env argv).filterMap (Act.result here) =
      (l.state.db.serve (.exec env argv)).2 ∧
        ∀ j, j ≠ here → (l.state.entries here origin cid seq index env argv).filterMap
        (Act.result j) = [] := by
    intro origin cid seq index env argv
    unfold Shard.entries
    dsimp only
    refine ⟨?_, fun j hj => ?_⟩
    · split_ifs <;> simp [List.filterMap_cons, Act.result, Keyspace.serve]
    · split_ifs <;> simp [List.filterMap_cons, Act.result, Ne.symm hj]
  cases h.turn with
  | quiet => exact ⟨rfl, fun _ _ => rfl⟩
  | cron => exact ⟨rfl, fun _ _ => rfl⟩
  | flush => exact ⟨rfl, fun _ _ => rfl⟩
  | complete => exact ⟨rfl, fun _ _ => rfl⟩
  | execute env origin part => exact hentries _ _ _ _ _ _
  | input env cid c es d _ _ _ ht =>
    cases ht with
    | inline argv => exact hentries _ _ _ _ _ _
    | _ => exact ⟨rfl, fun _ _ => rfl⟩

end Replies

section Servers

variable {n : ℕ} {shardFor : Bytes → Fin n} {start : Fin n → Keyspace} {sv : Server n} {h : List (Act (Fin n))}

/-- The invariant: a part that is due was executed or is on its way to its shard, answers are of
the kind that the plan gives, and each shard has served one move after another. -/
structure Serial (shardFor : Bytes → Fin n) (start : Fin n → Keyspace) (sv : Server n)
    (h : List (Act (Fin n))) : Prop where
  once : ∀ p : PartId (Fin n), timesRun p h + Net.count sv (fun _ => Message.isOf p) =
  (sv p.origin).state.due shardFor p.origin p
  routed : ∀ (o : Fin n) (cid seq : ℕ) (argv : List Bytes) (a : Answer),
    ((sv o).state.ledger cid).requests[seq]? = some (.command argv a) → Routed shardFor o argv a
  served : ∀ j, ∃ ms, (sv j).state.db = ((start j).serially ms).1 ∧
  h.filterMap (Act.result j) = ((start j).serially ms).2

theorem Serial.boot (shardFor : Bytes → Fin n) (db : Fin n → Keyspace) (aof : Fin n → Option Aof) :
    Serial shardFor db (Server.boot db aof) [] := by
  refine ⟨fun p => ?_, fun o cid seq argv a ha => ?_, fun j => ⟨[], rfl, rfl⟩⟩
  · rw [Net.count_eq_zero _ _ fun _ => rfl]
    simp [timesRun, Shard.due, Server.boot, Ledger.empty]
  · cases ha

/-- The step lemma. -/
theorem Serial.step (hs : Serial shardFor start sv h) (hok : sv.Ok) (e : Fin n × Event) :
    Serial shardFor start (Server.step shardFor sv e)
    (h ++ Loop.entries shardFor e.1 (sv e.1) e.2) := by
  obtain ⟨i, ev⟩ := e
  have hturn := turned_step (l := sv i) shardFor (List.finRange n) i ev
  have hst := stepped_step shardFor sv i ev
  set r := Loop.step shardFor (List.finRange n) i (sv i) ev
  set es := Loop.entries shardFor i (sv i) ev
  obtain ⟨hresults, hothers⟩ := hturn.results
  refine ⟨fun p => ?_, fun o cid seq argv a ha => ?_, fun j => ?_⟩
  · have hupdate := Net.count_update sv i (fun _ => Message.isOf p) r.1
    have hdeliver := Net.count_deliver (Function.update sv i r.1) r.2 fun _ => Message.isOf p
    have honce := hturn.once (p := p) (hok.accounted i)
    have hbefore := hs.once p
    have hruns : timesRun p (h ++ es) = timesRun p h + timesRun p es := List.countP_append
    change _ + Net.count (Net.deliver (Function.update sv i r.1) r.2) (fun _ => Message.isOf p) = _
    rw [hst.state, hruns]
    by_cases ho : p.origin = i
    · rw [if_pos ho]
      rw [ho] at hbefore ⊢
      omega
    · rw [if_neg ho]
      have h0 : Shard.due shardFor i p r.1.state = 0 := if_neg ho
      have h1 : Shard.due shardFor i p (sv i).state = 0 := if_neg ho
      omega
  · rw [hst.state] at ha
    split_ifs at ha with ho
    · subst ho
      exact hturn.routed (fun j q argv a => hs.routed o j q argv a) ha
    · exact hs.routed o cid seq argv a ha
  · obtain ⟨ms, hdb, hserved⟩ := hs.served j
    rw [hst.state, List.filterMap_append]
    split_ifs with hj
    · subst hj
      refine ⟨ms ++ [Loop.move shardFor j (sv j) ev], ?_, ?_⟩
      · rw [hturn.data.1, apply_serve, Keyspace.serially_append, ← hdb]
      · rw [hresults, Keyspace.serially_append, hserved, ← hdb]
    · exact ⟨ms, hdb, by rw [hothers j hj, List.append_nil, hserved]⟩

/-- The run lemma. -/
theorem serial_run {t : Traced n} (es : List ((Fin n × Event) × Calls))
    (hs : Serial shardFor start t.server t.history)
    (hok : t.server.Ok) :
    Serial shardFor start (t.run shardFor es).server (t.run shardFor es).history := by
  induction es generalizing t with
  | nil => exact hs
  | cons e es ih => exact ih (hs.step hok e.1) (hok.step e.1)

theorem grown_run (sv : Server n) (es : List (Fin n × Event)) (o : Fin n) (cid : ℕ) :
    Grown ((sv o).state.ledger cid).requests
    ((Server.run shardFor sv es o).state.ledger cid).requests := by
  induction es generalizing sv with
  | nil => exact .refl _
  | cons e es ih =>
    obtain ⟨i, ev⟩ := e
    have hstep : Grown ((sv o).state.ledger cid).requests
      ((Server.step shardFor sv (i, ev) o).state.ledger cid).requests := by
      rw [(stepped_step shardFor sv i ev).state]
      split_ifs with ho
      · subst ho
        exact (handles_step shardFor (List.finRange n) o ev).grown shardFor o cid
      · exact .refl _
    intro seq argv a ha
    obtain ⟨a', ha'⟩ := hstep seq argv a ha
    exact ih _ seq argv a' ha'

theorem Traced.server_run (t : Traced n) (es : List ((Fin n × Event) × Calls)) :
    (t.run shardFor es).server = Server.run shardFor t.server (es.map Prod.fst) := by
  induction es generalizing t with
  | nil => rfl
  | cons e es ih => exact ih (t.step shardFor e)

/-- What is already in the history stays there. -/
theorem Traced.history_run (t : Traced n) (es : List ((Fin n × Event) × Calls)) :
    ∃ later, (t.run shardFor es).history = t.history ++ later := by
  induction es generalizing t with
  | nil => exact ⟨[], (List.append_nil _).symm⟩
  | cons e es ih =>
    obtain ⟨later, hl⟩ := ih (t.step shardFor e)
    exact ⟨_, hl.trans (List.append_assoc _ _ _)⟩

/-- A request that waits for a part has no reply. -/
theorem not_awaits_of_reply {r : Request} (h : r.answer.reply.isSome) (index : ℕ) (isInt : Bool) :
    r.awaits index isInt = false := by
  by_contra hw
  obtain ⟨kind, frags, ha, hi, -⟩ := Request.awaits_iff.1 (Bool.eq_true_of_not_eq_false hw)
  have hmiss := missing_set [] hi
  rw [ha, Answer.reply, if_neg (by omega)] at h
  cases h

/-- No part of an answered request is on its way. -/
theorem count_answered (hok : sv.Ok) {p : PartId (Fin n)} {r : Request}
    (hr : ((sv p.origin).state.ledger p.cid).requests[p.seq]? = some r)
    (hreply : r.answer.reply.isSome) :
    Net.count sv (fun _ => Message.isOf p) = 0 := by
  refine Finset.sum_eq_zero fun j _ => List.countP_eq_zero.2 fun m hm hof => ?_
  cases m with
  | execute origin part =>
    obtain rfl : (⟨origin, part.cid, part.seq, part.index⟩ : PartId (Fin n)) = p :=
      of_decide_eq_true hof
    have hpos : 0 < (sv j).held.countP (brings (part.ticket origin) j) :=
      List.countP_pos_iff.2 ⟨_, hm, by simp [brings]⟩
    have hle : (sv j).held.countP (brings (part.ticket origin) j) ≤ Net.count sv
      (brings (part.ticket origin)) :=
      Finset.single_le_sum (f := fun k => (sv k).held.countP (brings (part.ticket origin) k))
        (fun _ _ => Nat.zero_le _) (Finset.mem_univ j)
    have hnot : owed (part.ticket origin).shard (part.ticket origin)
      (sv (part.ticket origin).shard).state = 0 := by
      refine if_neg fun hw => ?_
      obtain ⟨q, hq, hawaits⟩ := Ledger.awaits_iff.1 hw.2
      obtain rfl := Option.some.inj (hr.symm.trans hq)
      rw [not_awaits_of_reply hreply] at hawaits
      cases hawaits
    have hin := hok.inFlight (part.ticket origin)
    omega
  | complete part reply => cases hof
  | flush => cases hof

theorem Shard.due_command {sh : Shard} {o : Fin n} {cid seq index : ℕ} {argv : List Bytes} {a : Answer}
    (ha : (sh.ledger cid).requests[seq]? = some (.command argv a)) :
    sh.due shardFor o ⟨o, cid, seq, index⟩ =
    if index < (requests shardFor o argv).length then 1 else 0 := by
  rw [Shard.due, if_pos rfl, ha]
  rfl

theorem exists_list {α : Type} {P : ℕ → α → Prop} (k : ℕ) (h : ∀ i < k, ∃ x, P i x) :
    ∃ xs : List α, xs.length = k ∧ ∀ i x, xs[i]? = some x → P i x := by
  induction k with
  | zero => exact ⟨[], rfl, fun i x hx => by cases hx⟩
  | succ k ih =>
    obtain ⟨xs, hlen, hxs⟩ := ih fun i hi => h i (by omega)
    obtain ⟨x, hx⟩ := h k (Nat.lt_add_one k)
    refine ⟨xs ++ [x], by rw [List.length_append, hlen, List.length_singleton], fun i y hy => ?_⟩
    rcases Nat.lt_or_ge i xs.length with hlt | hge
    · exact hxs i y (by rwa [List.getElem?_append_left hlt] at hy)
    · rw [List.getElem?_append_right hge, List.getElem?_singleton] at hy
      split_ifs at hy with hi
      obtain rfl := Option.some.inj hy
      obtain rfl : i = k := by omega
      exact hx

/-- A reply is put together from the replies of executions. -/
theorem reply_joined {o : Fin n} {cid seq : ℕ} {argv : List Bytes} {a : Answer}
    (hfilled : Filled shardFor h o cid seq argv a)
    (hrouted : Routed shardFor o argv a) {b : Bytes} (hb : a.reply = some b) :
    ∃ xs : List (Execution (Fin n)), xs.length = (requests shardFor o argv).length ∧
      (∀ (i : ℕ) x, xs[i]? = some x → .exec x ∈ h ∧ x.Of shardFor o cid seq argv i) ∧
      b = joined shardFor o argv (xs.map Execution.reply) := by
  cases a with
  | here c =>
    obtain rfl := Option.some.inj hb
    rcases hrouted with hplan | hplan
    · refine ⟨[], by simp [requests, hplan], fun i x hx => (by cases hx), ?_⟩
      rw [joined, hplan]
    · have hone : requests shardFor o argv = [(o, argv)] := by simp [requests, hplan]
      obtain ⟨x, hx, hof, hreply⟩ := hfilled 0 (o, argv) (by rw [hone]; rfl)
      refine ⟨[x], by rw [hone]; rfl, fun i y hy => ?_, ?_⟩
      · rw [List.getElem?_singleton] at hy
        split_ifs at hy with hi
        obtain rfl := Option.some.inj hy
        subst hi
        exact ⟨hx, hof⟩
      · rw [joined, hplan]
        exact hreply.symm
  | parts kind frags =>
    obtain ⟨hlen, hfrags⟩ := hfilled
    by_cases hmiss : missing frags = 0
    · rw [Answer.reply, if_pos hmiss] at hb
      obtain rfl := Option.some.inj hb
      have hgiven : ∀ i < frags.length, ∃ x : Execution (Fin n),
        (.exec x ∈ h ∧ x.Of shardFor o cid seq argv i) ∧
          frags[i]? = some (some x.reply) := by
        intro i hi
        have hsome : frags[i] ≠ none := by simpa using List.countP_eq_zero.1 hmiss frags[i] (List.getElem_mem hi)
        obtain ⟨reply, hreply⟩ := Option.ne_none_iff_exists'.1 hsome
        have hget : frags[i]? = some (some reply) := by rw [List.getElem?_eq_getElem hi, hreply]
        obtain ⟨x, hx, hof, rfl⟩ := hfrags i reply hget
        exact ⟨x, ⟨hx, hof⟩, hget⟩
      obtain ⟨xs, hxlen, hxs⟩ := exists_list frags.length hgiven
      have hsame : frags.map given = xs.map Execution.reply := by
        refine List.ext_getElem (by rw [List.length_map, List.length_map, hxlen]) fun i hi hi' => ?_
        rw [List.length_map] at hi hi'
        obtain ⟨-, hget⟩ := hxs i xs[i] (List.getElem?_eq_getElem hi')
        have hfrag : frags[i] = some xs[i].reply := (List.getElem?_eq_some_iff.1 hget).2
        rw [List.getElem_map, List.getElem_map, hfrag]
        rfl
      refine ⟨xs, hxlen.trans hlen, fun i x hx => (hxs i x hx).1, ?_⟩
      rw [hsame, joined]
      rcases hrouted with ⟨t, hplan, rfl⟩ | ⟨keys, hplan, rfl⟩
      · rw [hplan]
        rfl
      · rw [hplan]
    · rw [Answer.reply, if_neg hmiss] at hb
      cases hb

/-- Strict serializability of the parts. In every run each shard executes one part after another.
Every part of a request is executed at most once, and a reply is put together from one execution
of each part. What is answered at some point is not executed later, and what is executed by then
has been asked: a request that is made after another is answered is executed after it. -/
theorem serializable_in_real_time (shardFor : Bytes → Fin n) (db : Fin n → Keyspace)
    (policy : FsyncPolicy) (disk : Fin n → Bytes) (now : ℕ) (es₁ es₂ : List ((Fin n × Event) × Calls)) :
    let t₁ := (Traced.boot db policy disk now).run shardFor es₁
    let t₂ := t₁.run shardFor es₂
    ∃ later, t₂.history = t₁.history ++ later ∧
      (∀ j, ∃ ms, (t₂.server j).state.db = ((db j).serially ms).1 ∧
        t₂.history.filterMap (Act.result j) = ((db j).serially ms).2) ∧
      (∀ (o : Fin n) (cid seq : ℕ) argv a, (asked t₂.server o cid)[seq]? = some (.command argv a) →
        (∀ index, timesRun ⟨o, cid, seq, index⟩ t₂.history ≤ 1) ∧
        ∀ b, a.reply = some b → ∃ xs : List (Execution (Fin n)),
          xs.length = (requests shardFor o argv).length ∧
          (∀ (i : ℕ) x, xs[i]? = some x →
            .exec x ∈ t₂.history ∧ x.Of shardFor o cid seq argv i ∧
            timesRun ⟨o, cid, seq, i⟩ t₂.history = 1) ∧
          b = joined shardFor o argv (xs.map Execution.reply)) ∧
      (∀ (o : Fin n) (cid seq : ℕ) argv a, (asked t₁.server o cid)[seq]? = some (.command argv a) →
        a.reply.isSome → ∀ x, .exec x ∈ later → (x.origin, x.cid, x.seq) ≠ (o, cid, seq)) ∧
      ∀ x, .exec x ∈ t₁.history → x.seq < (asked t₁.server x.origin x.cid).length := by
  intro t₁ t₂
  have hboot := Serial.boot shardFor db fun i => some (Aof.openFile policy (disk i))
  have hok₀ : (Traced.boot db policy disk now).server.Ok := Server.Ok.boot db _
  have hs₁ : Serial shardFor db t₁.server t₁.history := serial_run es₁ hboot hok₀
  have hsourced₁ : Sourced shardFor t₁.server t₁.history :=
    sourced_run es₁ (sourced_boot db policy disk now)
  have hs₂ : Serial shardFor db t₂.server t₂.history := serial_run es₂ hs₁ hsourced₁.ok
  have hsourced₂ : Sourced shardFor t₂.server t₂.history := sourced_run es₂ hsourced₁
  obtain ⟨later, hlater⟩ : ∃ later, t₂.history = t₁.history ++ later := t₁.history_run es₂
  refine ⟨later, hlater, hs₂.served, fun o cid seq argv a ha => ⟨fun index => ?_, fun b hb => ?_⟩,
    fun o cid seq argv a ha hreply x hx heq => ?_, fun x hx => ?_⟩
  · have honce := hs₂.once ⟨o, cid, seq, index⟩
    rw [Shard.due_command ha] at honce
    split_ifs at honce <;> omega
  · obtain ⟨xs, hlen, hxs, hjoined⟩ := reply_joined (hsourced₂.answers o cid seq argv a ha)
      (hs₂.routed o cid seq argv a ha) hb
    refine ⟨xs, hlen, fun i x hx => ⟨(hxs i x hx).1, (hxs i x hx).2, ?_⟩, hjoined⟩
    have hi : i < (requests shardFor o argv).length := hlen ▸ (List.getElem?_eq_some_iff.1 hx).1
    have honce := hs₂.once ⟨o, cid, seq, i⟩
    rw [Shard.due_command ha, if_pos hi,
      count_answered hsourced₂.ok (p := ⟨o, cid, seq, i⟩) ha (by rw [Request.answer, hb]; rfl)] at honce
    exact honce
  · -- Its parts were all executed before, so another execution would be one too many.
    have honce₁ := hs₁.once ⟨o, cid, seq, x.index⟩
    rw [Shard.due_command ha,
      count_answered hsourced₁.ok (p := ⟨o, cid, seq, x.index⟩) ha hreply] at honce₁
    have hgrown : Grown ((t₁.server o).state.ledger cid).requests
        ((Server.run shardFor t₁.server (es₂.map Prod.fst) o).state.ledger cid).requests :=
      grown_run t₁.server (es₂.map Prod.fst) o cid
    rw [← Traced.server_run] at hgrown
    obtain ⟨a', ha'⟩ := hgrown seq argv a ha
    have honce₂ := hs₂.once ⟨o, cid, seq, x.index⟩
    rw [Shard.due_command ha', hlater, timesRun, List.countP_append] at honce₂
    have hpos : 0 < later.countP (Act.isOf ⟨o, cid, seq, x.index⟩) := by
      refine List.countP_pos_iff.2 ⟨_, hx, decide_eq_true ?_⟩
      simp only [Prod.mk.injEq] at heq
      rw [Execution.part, heq.1, heq.2.1, heq.2.2]
    rw [timesRun] at honce₁
    omega
  · have honce := hs₁.once x.part
    have hpos : 0 < timesRun x.part t₁.history := List.countP_pos_iff.2 ⟨_, hx, decide_eq_true rfl⟩
    by_contra hge
    have hnone : (asked t₁.server x.origin x.cid)[x.seq]? = none :=
      List.getElem?_eq_none (Nat.not_lt.1 hge)
    have hdue : (t₁.server x.part.origin).state.due shardFor x.part.origin x.part = 0 := by
      rw [Shard.due, if_pos rfl]
      change (asked t₁.server x.origin x.cid)[x.seq]?.elim 0 _ = 0
      rw [hnone]
      rfl
    omega

end Servers

end BlazeKV
