import BlazeKV.Lib.Rounds
import BlazeKV.Proofs.OneClient
import BlazeKV.Proofs.Wire

/-! A server comes to rest. When no more input arrives, two iterations of every event loop
answer all requests: in the first the parts of other shards are executed, and in the second
their replies arrive. -/

namespace BlazeKV

open Lib

/-- A part has yet to be executed and then to be answered. -/
def Message.rank {ι : Type} : Message ι → ℕ
  | .execute _ _ => 1
  | _ => 0

def Event.isReadable : Event → Bool
  | .readable _ _ _ => true
  | _ => false

section Loops

variable {ι : Type} [DecidableEq ι] (shardFor : Bytes → ι) (shards : List ι) (here : ι) {l : Loop ι}

/-- What a move of a loop that reads no input does to the messages. -/
inductive Rests (l l' : Loop ι) (posts : Posts ι) : Prop
  | stay (hbatch : l'.batch = l.batch) (hqueue : l'.queue = l.queue) (hp : posts = [])
  | take (hbatch : l'.batch = l.held) (hqueue : l'.queue = []) (hp : posts = [])
  | handle (m : Message ι) (hbatch : l.batch = m :: l'.batch) (hqueue : l'.queue = l.queue)
      (hp : ∀ p ∈ posts, p.2.rank < m.rank)

/-- The shard reads no input. -/
def Shard.Unread (sh : Shard) : Prop := ∀ cid, sh.phase ≠ .reading cid

omit [DecidableEq ι] in
theorem Rests.onConn (cid : ℕ) {f : Connection → Loop ι} (hf : ∀ c, Rests l (f c) []) :
    Rests l (Loop.onConn l cid f) [] := by
  unfold Loop.onConn
  split
  · exact hf _
  · exact .stay rfl rfl rfl

/-- The step lemma of one loop. -/
theorem rests_step (hread : l.state.Unread) (e : Event) (he : e.isReadable = false) :
    Rests l (Loop.step shardFor shards here l e).1 (Loop.step shardFor shards here l e).2 := by
  have hidle : Rests l l [] := .stay rfl rfl rfl
  cases e with
  | accept =>
    simp only [Loop.step]
    split_ifs
    · exact .stay rfl rfl rfl
    · exact hidle
  | readable cid data eof => cases he
  | process env =>
    unfold Loop.step
    cases hp : l.state.phase with
    | reading cid => exact absurd hp (hread cid)
    | _ => exact hidle
  | settle w =>
    unfold Loop.step
    cases hp : l.state.phase with
    | writing cid => exact .stay rfl rfl rfl
    | _ => exact hidle
  | writable cid w => exact .onConn cid fun _ => .stay rfl rfl rfl
  | hangup cid => exact .onConn cid fun _ => .stay rfl rfl rfl
  | drain =>
    simp only [Loop.step]
    split_ifs
    · exact .take rfl rfl rfl
    · exact hidle
  | next env w =>
    unfold Loop.step
    cases hp : l.state.phase with
    | draining =>
      cases hb : l.batch with
      | nil => exact hidle
      | cons m rest =>
        cases m with
        | execute origin part =>
          refine .handle _ hb rfl fun p hmem => ?_
          rcases List.mem_append.1 hmem with hflush | hdone
          · rw [(Shard.mem_flushPosts hflush).2.2]
            exact Nat.one_pos
          · obtain rfl := List.mem_singleton.1 hdone
            exact Nat.one_pos
        | complete part reply => exact .handle _ hb rfl fun p hmem => absurd hmem List.not_mem_nil
        | flush => exact .handle _ hb rfl fun p hmem => absurd hmem List.not_mem_nil
    | _ => exact hidle
  | iterate due synced =>
    unfold Loop.step
    cases hp : l.state.phase with
    | draining =>
      cases hb : l.batch with
      | nil => exact .stay rfl rfl rfl
      | cons m rest => exact hidle
    | _ => exact hidle

end Loops

namespace Server

variable {n : ℕ} {shardFor : Bytes → Fin n} {sv : Server n} {es : List (Fin n × Event)}

/-- The parts of the invariant that do not speak of messages. -/
structure Calm (sv : Server n) : Prop where
  ok : sv.Ok
  idle : ∀ i, (sv i).state.Idle
  unread : ∀ i, (sv i).state.Unread

/-- The shard begins to work through its mailbox at some point of the run, and ends the iteration
later. -/
def Iterates (shardFor : Bytes → Fin n) (sv : Server n) (es : List (Fin n × Event)) (i : Fin n) :
    Prop :=
  ∃ a b c due synced, es = a ++ (i, .drain) :: b ++ (i, .iterate due synced) :: c ∧
    (run shardFor sv a i).state.phase = .polling ∧
    (run shardFor sv (a ++ (i, .drain) :: b) i).state.phase = .draining ∧
    (run shardFor sv (a ++ (i, .drain) :: b) i).batch = []

theorem run_append (sv : Server n) (a b : List (Fin n × Event)) :
    run shardFor sv (a ++ b) = run shardFor (run shardFor sv a) b := List.foldl_append ..

theorem Iterates.rounded {i : Fin n} (h : Iterates shardFor sv es i) :
    Net.Rounded (step shardFor) sv es i := by
  obtain ⟨a, b, c, due, synced, rfl, hpoll, -, hdone⟩ := h
  refine ⟨a ++ [(i, .drain)], b, (i, .iterate due synced) :: c, by simp, ?_, ?_⟩
  · rw [List.foldl_append]
    change (step shardFor (run shardFor sv a) (i, .drain) i).queue = []
    simp [step, Loop.step, hpoll, Loop.inPhase, Actor.take]
  · rw [List.append_assoc, List.singleton_append]
    exact hdone

/-- The step lemma of a server without new input. -/
theorem Calm.step (h : sv.Calm) (e : Fin n × Event) (he : e.2.isReadable = false) :
    (step shardFor sv e).Calm ∧ Net.Works Message.rank sv (step shardFor sv e) := by
  obtain ⟨i, ev⟩ := e
  have hpause := pauses_step shardFor (List.finRange n) i (h.idle i) ev
  have hrest := rests_step shardFor (List.finRange n) i (h.unread i) ev he
  have hst := stepped_step shardFor sv i ev
  refine ⟨⟨h.ok.step (i, ev), fun j => ?_, fun j => ?_⟩, ?_⟩
  · rw [hst.state]
    split_ifs
    · exact hpause.idle
    · exact h.idle j
  · rw [hst.state]
    split_ifs
    · intro k hk
      rcases hpause.reading k hk with hr | ⟨data, eof, rfl⟩
      · exact h.unread i k hr
      · cases he
    · exact h.unread j
  · set r := Loop.step shardFor (List.finRange n) i (sv i) ev
    have hstep : ∀ j, Server.step shardFor sv (i, ev) j =
      Net.deliver (Function.update sv i r.1) r.2 j := fun _ => rfl
    have hbatch : ∀ j, (Server.step shardFor sv (i, ev) j).batch = if j =
      i then r.1.batch else (sv j).batch := by
      intro j
      rw [hstep, Net.deliver_batch, Function.update_apply]
      split_ifs <;> rfl
    have hqueue : ∀ j, (Server.step shardFor sv (i, ev) j).queue =
        (if j = i then r.1.queue else (sv j).queue) ++ Net.postedTo r.2 j := by
      intro j
      rw [hstep, Net.deliver, Function.update_apply]
      split_ifs <;> rfl
    cases hrest with
    | stay hb hq hp =>
      refine .stay (fun j => ?_) fun j => ?_
      · rw [hbatch]
        split_ifs with hj
        · rw [hj, hb]
        · rfl
      · rw [hqueue, hp, Net.postedTo_nil, List.append_nil]
        split_ifs with hj
        · rw [hj, hq]
        · rfl
    | take hb hq hp =>
      refine .take i (fun j => ?_) fun j => ?_
      · rw [hbatch, hb]
        split_ifs with hj
        · rw [hj]
        · rfl
      · rw [hqueue, hp, Net.postedTo_nil, List.append_nil, hq]
    | handle m hb hq hp =>
      refine .handle i m r.2 ?_ (fun j hj => ?_) (fun j => ?_) hp
      · rw [hbatch, if_pos rfl, hb]
      · rw [hbatch, if_neg hj]
      · rw [hqueue]
        split_ifs with hj
        · rw [hj, hq]
        · rfl

/-- Every shard reads only in the phases in which it reads. -/
theorem idle_run {sv : Server n} (h : ∀ i, (sv i).state.Idle) (es : List (Fin n × Event)) :
    ∀ i, (run shardFor sv es i).state.Idle := by
  induction es generalizing sv with
  | nil => exact h
  | cons e es ih =>
    refine ih fun j => ?_
    obtain ⟨i, ev⟩ := e
    rw [(stepped_step shardFor sv i ev).state]
    split_ifs
    · exact (pauses_step shardFor (List.finRange n) i (h i) ev).idle
    · exact h j

/-- Requests that are all answered. -/
theorem repliesOf_answered {rs : List Request} (h : ∀ r ∈ rs, r.answer.reply.isSome) :
    ∃ b, repliesOf rs = some b := by
  induction rs with
  | nil => exact ⟨[], rfl⟩
  | cons r rs ih =>
    obtain ⟨b, hb⟩ := Option.isSome_iff_exists.1 (h r List.mem_cons_self)
    obtain ⟨bs, hbs⟩ := ih fun q hq => h q (List.mem_cons_of_mem r hq)
    exact ⟨b ++ bs, by simp [repliesOf, hb, hbs]⟩

/-- Without messages in flight, a connection that is not being read has all its replies. -/
theorem drained_connection (hok : sv.Ok) (hdrained : ∀ i, (sv i).held = []) {i : Fin n}
    (hidle : (sv i).state.Idle)
    {cid : ℕ} (hphase : (sv i).state.phase ≠ .reading cid) {c : Connection}
    (hc : (sv i).state.conns cid = some c) :
    c.pipeline = [] ∧ repliesOf ((sv i).state.ledger cid).requests =
    some ((sv i).state.ledger cid).appended := by
  have htracks := (hok.accounted i).tracks cid c hc
  obtain ⟨m, hm, hpipe⟩ := htracks.pipeline
  have hhalt : c.Halted := (hidle cid c hc).resolve_right hphase
  have hnil : c.pipeline = [] := by
    cases hdrop : ((sv i).state.ledger cid).requests.drop m with
    | nil =>
      rw [hpipe, hdrop]
      rfl
    | cons r rs =>
      have hready : r.answer.reply.isSome :=
        answered_of_drained hok hdrained (List.mem_of_mem_drop (hdrop ▸ List.mem_cons_self))
      have hhead := hhalt (m, r.answer.slot) (by rw [hpipe, hdrop]; rfl)
      rw [Answer.slot_ready, hready] at hhead
      cases hhead
  exact ⟨hnil, htracks.answered hnil⟩

/-- After any run, two iterations of every event loop in which no input is read leave nothing in
flight. All requests of all connections are answered, and on those that are open all replies are
sent or wait in the output buffer. -/
theorem comes_to_rest (shardFor : Bytes → Fin n) (db : Fin n → Keyspace) (aof : Fin n → Option Aof)
    (es es₁ es₂ : List (Fin n × Event)) (hunread : ∀ i, (run shardFor (boot db aof) es i).state.Unread)
    (hinput : ∀ e ∈ es₁ ++ es₂, e.2.isReadable = false)
    (h₁ : ∀ i, Iterates shardFor (run shardFor (boot db aof) es) es₁ i)
    (h₂ : ∀ i, Iterates shardFor (run shardFor (boot db aof) (es ++ es₁)) es₂ i) :
    let w := Wired.run shardFor (Wired.boot db aof) (es ++ es₁ ++ es₂)
    (∀ i, (w.server i).held = []) ∧ ∀ i cid, let l := (w.server i).state.ledger cid
      (∃ b, repliesOf l.requests = some b) ∧ ∀ c, (w.server i).state.conns cid = some c →
        c.pipeline = [] ∧ repliesOf l.requests = some (w.sent i cid ++ c.out.drop c.outSent) := by
  intro w
  set sv := run shardFor (boot db aof) es
  have hboot : ∀ i, (boot db aof i).state.Idle := fun i k c hc => by cases hc
  have hcalm : sv.Calm := ⟨(Ok.boot db aof).run es, idle_run hboot es, hunread⟩
  have hlow : Net.Low Message.rank 2 sv := by
    intro i m _
    cases m with
    | execute origin part => exact Nat.lt_add_one 1
    | complete part reply => exact Nat.two_pos
    | flush => exact Nat.two_pos
  have hworking : ∀ fs, (∀ e ∈ fs, e.2.isReadable = false) →
      Net.Working Message.rank (step shardFor) Calm fs :=
    fun fs hfs net hnet e he => Calm.step hnet e (hfs e he)
  have hrounds : Net.Rounds (step shardFor) sv [es₁, es₂] := by
    refine ⟨fun i => (h₁ i).rounded, fun i => ?_, trivial⟩
    rw [run_append] at h₂
    exact (h₂ i).rounded
  have hboth : ∀ fs ∈ [es₁, es₂], Net.Working Message.rank (step shardFor) Calm fs := by
    intro fs hfs
    rcases List.mem_cons.1 hfs with rfl | hfs
    · exact hworking _ fun e he => hinput e (List.mem_append_left _ he)
    · obtain rfl := List.mem_singleton.1 hfs
      exact hworking _ fun e he => hinput e (List.mem_append_right _ he)
  obtain ⟨hend, hdrained⟩ := hrounds.drained hboth hcalm hlow
  have hserver : w.server = run shardFor sv ([es₁, es₂].flatten) := by
    rw [Wired.server_run, List.append_assoc, run_append]
    simp [sv, Wired.boot]
  change (run shardFor sv [es₁, es₂].flatten).Calm at hend
  change ∀ i, (run shardFor sv [es₁, es₂].flatten i).held = [] at hdrained
  rw [← hserver] at hend hdrained
  refine ⟨hdrained, fun i cid => ⟨repliesOf_answered fun r hr =>
    answered_of_drained hend.ok hdrained hr, fun c hc => ?_⟩⟩
  obtain ⟨hnil, hall⟩ := drained_connection hend.ok hdrained (hend.idle i) (hend.unread i cid) hc
  refine ⟨hnil, ?_⟩
  obtain ⟨-, hw⟩ : Wired.Sound True i cid w := (Wired.Sound.boot db aof).run _ fun _ => trivial
  rw [(hw.sends.unsent c hc).2]
  exact hall

/-- One iteration of the loop of a shard, which finds `k` closures in its mailbox. -/
def iteration (i : Fin 2) (k : ℕ) : List (Fin 2 × Event) :=
  (i, .drain) :: List.replicate k (i, .next (.quiet 0) ⟨4, false⟩) ++ [(i, .iterate none false)]

/-- `MSET a 1 d 2`, whose keys are on two shards, and `GET d`. -/
theorem comes_to_rest_pipelined :
    let w := Wired.run (shardOf 2) (Wired.boot (fun _ => .empty) fun _ => none)
      (served msetGetD [] ++ (iteration 0 1 ++ iteration 1 2) ++ (iteration 0 3 ++ iteration 1 0))
    (∀ i, (w.server i).held = []) ∧ w.sent 0 1 =
    (Reply.simpleString (ascii "OK") ++ Reply.bulk [50]).take 8 ∧
      ∀ c, (w.server 0).state.conns 1 = some c →
        repliesOf ((w.server 0).state.ledger 1).requests =
        some (w.sent 0 1 ++ c.out.drop c.outSent) := by
  have hrest := comes_to_rest (shardOf 2) (fun _ => .empty) (fun _ => none) (served msetGetD [])
    (iteration 0 1 ++ iteration 1 2) (iteration 0 3 ++ iteration 1 0)
    (fun i cid hr => by
      have hpolling : ∀ j, (run (shardOf 2) (boot (fun _ => .empty) fun _ =>
        none) (served msetGetD []) j).state.phase = .polling := by
        decide +kernel
      cases (hpolling i).symm.trans hr)
    (by decide)
    (Fin.forall_fin_two.2
      ⟨⟨[], [(0, .next (.quiet 0) ⟨4, false⟩)], iteration 1 2, none, false,
      rfl, by decide +kernel, by decide +kernel,
          List.isEmpty_iff.1 (by decide +kernel)⟩,
        ⟨iteration 0 1, List.replicate 2 (1, .next (.quiet 0) ⟨4, false⟩), [], none, false,
        rfl, by decide +kernel,
          by decide +kernel, List.isEmpty_iff.1 (by decide +kernel)⟩⟩)
    (Fin.forall_fin_two.2
      ⟨⟨[], List.replicate 3 (0, .next (.quiet 0) ⟨4, false⟩), iteration 1 0, none, false,
      rfl, by decide +kernel,
          by decide +kernel, List.isEmpty_iff.1 (by decide +kernel)⟩,
        ⟨iteration 0 3, [], [], none, false, rfl, by decide +kernel, by decide +kernel,
          List.isEmpty_iff.1 (by decide +kernel)⟩⟩)
  exact ⟨hrest.1, by decide +kernel, fun c hc => ((hrest.2 0 1).2 c hc).2⟩

end Server

end BlazeKV
