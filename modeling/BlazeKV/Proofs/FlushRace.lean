import BlazeKV.Proofs.Turns

/-! `FLUSHALL` answers while its messages to the other shards are still in their
mailboxes. What a shard writes before it comes to such a message is lost with the rest. -/

namespace BlazeKV

/-- How many flush messages a move uses up. -/
def Move.flushes : Move → ℕ
  | .flush => 1
  | _ => 0

section Loops

variable {ι : Type} [DecidableEq ι] (shardFor : Bytes → ι) (shards : List ι) (here : ι)

def Message.isFlush : Message ι → Bool
  | .flush => true
  | _ => false

variable {sh : Shard} {l : Loop ι} {env : Env} {argv : List Bytes}

/-- The flush messages of a move are those of a command that it executes. -/
def FlushesOf (here : ι) (sh : Shard) (d : Move) (posts : Posts ι) : Prop :=
  ∀ p ∈ posts, p.2.isFlush → p.1 ≠ here ∧ ∃ env argv, d = .exec env argv ∧ (sh.exec env argv).2.2 = true

/-- How many flush messages a loop has in front of it. -/
def Loop.pending (l : Loop ι) : ℕ := l.held.countP Message.isFlush

/-- What a step leaves: the data as its move leaves them, one flush message less where the
move is a flush, and in the posts only those of a command. -/
structure Does (l l' : Loop ι) (d : Move) (posts : Posts ι) : Prop where
  db : l'.state.db = (d.apply l.state).db
  aof : l'.state.aof = (d.apply l.state).aof
  pending : l'.pending + d.flushes = l.pending
  posts : FlushesOf here l.state d posts

/-- The flush messages among those that a command posts. -/
theorem flushesOf_exec (shards : List ι) (env : Env) (argv : List Bytes) (posts : Posts ι) (hno : ∀ p ∈ posts, p.2.isFlush = false) :
    FlushesOf here sh (.exec env argv) (Shard.flushPosts shards here (execCore env argv sh.db).flush ++ posts) := by
  intro p hp hf
  rcases List.mem_append.1 hp with hp | hp
  · obtain ⟨hasked, hne, -⟩ := Shard.mem_flushPosts hp
    exact ⟨hne, env, argv, rfl, hasked⟩
  · rw [hno p hp] at hf
    cases hf

/-- The step lemma. -/
theorem does_step (e : Event) :
    Does here l (Loop.step shardFor shards here l e).1 (Loop.move shardFor here l e)
      (Loop.step shardFor shards here l e).2 := by
  obtain ⟨⟨hdb, haof⟩, ht⟩ := turned_step shardFor shards here (l := l) e
  have hnone : ∀ {l' : Loop ι} {posts : Posts ι}, l'.held = l.held → posts = [] → l'.pending = l.pending ∧
      ∀ d, FlushesOf here l.state d posts := fun hheld hp => ⟨by rw [Loop.pending, hheld, Loop.pending], by simp [FlushesOf, hp]⟩
  generalize Loop.move shardFor here l e = d at hdb haof ht ⊢
  generalize Loop.entries shardFor here l e = es at ht
  cases ht with
  | quiet _ hp hheld => exact ⟨hdb, haof, (hnone hheld hp).1, (hnone hheld hp).2 _⟩
  | cron _ _ _ hp hheld => exact ⟨hdb, haof, (hnone hheld hp).1, (hnone hheld hp).2 _⟩
  | complete part reply _ hp hheld =>
    refine ⟨hdb, haof, ?_, by simp [FlushesOf, hp]⟩
    rw [Loop.pending, Loop.pending, hheld]
    rfl
  | flush _ hp hheld =>
    refine ⟨hdb, haof, ?_, by simp [FlushesOf, hp]⟩
    rw [Loop.pending, Loop.pending, hheld, List.countP_cons]
    rfl
  | execute env origin part _ hp hheld =>
    refine ⟨hdb, haof, ?_, ?_⟩
    · rw [Loop.pending, Loop.pending, hheld]
      rfl
    · rw [hp]
      exact flushesOf_exec here shards env part.args _ (by simp [Message.isFlush])
  | input env cid c es d _ _ _ hi hheld =>
    have hpending := (hnone hheld (rfl : ([] : Posts ι) = [])).1
    cases hi with
    | nothing _ hp => exact ⟨hdb, haof, hpending, (hnone hheld hp).2 _⟩
    | malformed _ _ hp => exact ⟨hdb, haof, hpending, (hnone hheld hp).2 _⟩
    | refused _ _ _ _ hp => exact ⟨hdb, haof, hpending, (hnone hheld hp).2 _⟩
    | inline argv _ _ hp =>
      refine ⟨hdb, haof, hpending, ?_⟩
      rw [hp, ← List.append_nil (Shard.flushPosts _ _ _)]
      exact flushesOf_exec here shards env argv [] (by simp)
    | posted argv kind _ _ hp =>
      refine ⟨hdb, haof, hpending, fun p hmem hf => ?_⟩
      rw [hp] at hmem
      obtain ⟨i, hi, rfl⟩ := List.mem_mapIdx.1 hmem
      cases hf

end Loops

section Servers

variable {n : ℕ} (shardFor : Bytes → Fin n) (j : Fin n) (k : Bytes)

/-- What a shard holds under a key. -/
def Shard.entry (sh : Shard) (k : Bytes) : Option Object × Option ℕ := (sh.db.dict.find k, sh.db.expires.find k)

/-- The step executes no flush, and its command or its active expiry leaves the key of
shard `j`. What flush messages do is not restricted. -/
def Spares (sv : Server n) (e : Fin n × Event) : Prop :=
  let d := Loop.move shardFor e.1 (sv e.1) e.2
  (∀ env argv, d = .exec env argv → ((sv e.1).state.exec env argv).2.2 = false) ∧
    (e.1 = j → d.flushes = 0 → (d.apply (sv j).state).entry k = (sv j).state.entry k)

variable {shardFor j k} {sv : Server n} {e : Fin n × Event}

/-- The step lemma of the mailbox of shard `j`. -/
theorem pending_step (he : ∀ env argv, Loop.move shardFor e.1 (sv e.1) e.2 = .exec env argv →
      e.1 ≠ j → ((sv e.1).state.exec env argv).2.2 = false) :
    Loop.pending (Server.step shardFor sv e j) +
      (if e.1 = j then (Loop.move shardFor e.1 (sv e.1) e.2).flushes else 0) = Loop.pending (sv j) := by
  have hdoes := does_step (l := sv e.1) shardFor (List.finRange n) e.1 e.2
  have hposts : (Lib.Net.postedTo (Loop.step shardFor (List.finRange n) e.1 (sv e.1) e.2).2 j).countP Message.isFlush = 0 := by
    refine List.countP_eq_zero.2 fun m hm hf => ?_
    obtain ⟨p, hp, rfl⟩ := List.mem_map.1 hm
    obtain ⟨hmem, hto⟩ := List.mem_filter.1 hp
    obtain ⟨hne, env, argv, hd, hasked⟩ := hdoes.posts p hmem hf
    rw [he env argv hd fun h => hne ((of_decide_eq_true hto).trans h.symm)] at hasked
    cases hasked
  unfold Loop.pending Server.step
  rw [Lib.Net.deliver_held, List.countP_append, hposts, Nat.add_zero]
  by_cases hj : e.1 = j
  · subst hj
    rw [if_pos rfl, Function.update_self]
    exact hdoes.pending
  · rw [if_neg hj, Function.update_of_ne (Ne.symm hj)]
    rfl

theorem entry_step : (Server.step shardFor sv e j).state.entry k =
    if e.1 = j then ((Loop.move shardFor e.1 (sv e.1) e.2).apply (sv j).state).entry k else (sv j).state.entry k := by
  have hdoes := does_step (l := sv e.1) shardFor (List.finRange n) e.1 e.2
  unfold Server.step
  rw [Lib.Net.deliver_state]
  by_cases hj : e.1 = j
  · subst hj
    rw [if_pos rfl, Function.update_self, Shard.entry, hdoes.db]
    rfl
  · rw [if_neg hj, Function.update_of_ne (Ne.symm hj)]

/-- A step that spares the key leaves it, unless it comes to a flush message. -/
theorem spares_step (he : Spares shardFor j k sv e) :
    (Loop.pending (Server.step shardFor sv e j) = Loop.pending (sv j) ∧
      (Server.step shardFor sv e j).state.entry k = (sv j).state.entry k) ∨
    (Loop.pending (Server.step shardFor sv e j) < Loop.pending (sv j) ∧
      (Server.step shardFor sv e j).state.entry k = (none, none)) := by
  have hpending := pending_step (j := j) fun env argv hd _ => he.1 env argv hd
  rw [entry_step]
  by_cases hj : e.1 = j
  · rw [if_pos hj] at hpending ⊢
    cases hd : Loop.move shardFor e.1 (sv e.1) e.2 with
    | flush =>
      rw [hd] at hpending
      refine .inr ⟨by simp only [Move.flushes] at hpending; omega, ?_⟩
      simp [Move.apply, Shard.flush, Shard.entry, Keyspace.clear]
    | _ =>
      have hkept := he.2 hj (by rw [hd]; rfl)
      rw [hd] at hpending hkept
      exact .inl ⟨hpending, hkept⟩
  · rw [if_neg hj] at hpending ⊢
    exact .inl ⟨hpending, rfl⟩

/-- The run lemma. -/
theorem spares_run (es : List (Fin n × Event))
    (hes : Lib.RunOk (fun sv e => (Server.step shardFor sv e, ())) (Spares shardFor j k) sv es) :
    Loop.pending (Server.run shardFor sv es j) ≤ Loop.pending (sv j) ∧
      (Server.run shardFor sv es j).state.entry k =
        if Loop.pending (Server.run shardFor sv es j) = Loop.pending (sv j) then (sv j).state.entry k else (none, none) := by
  induction es generalizing sv with
  | nil => simp
  | cons e es ih =>
    obtain ⟨hle, hentry⟩ := ih hes.2
    dsimp only at hle hentry
    rw [Server.run_cons]
    rcases spares_step hes.1 with ⟨hp, hkept⟩ | ⟨hp, hgone⟩
    · rw [hp, hkept] at hentry
      exact ⟨hp ▸ hle, hentry⟩
    · refine ⟨by omega, ?_⟩
      rw [if_neg (by omega), hentry, hgone, ite_self]

theorem pending_eq_zero {ι : Type} {l : Loop ι} : l.pending = 0 ↔ Message.flush ∉ l.held := by
  rw [Loop.pending, List.countP_eq_zero]
  constructor
  · exact fun h hm => h .flush hm rfl
  · intro h m hm hf
    cases m with
    | flush => exact h hm
    | execute | complete => cases hf

/-- A shard executes a command that leaves something under a key, and nothing but flush
messages touches it until the mailbox of the shard is drained. It is then as the command
left it exactly when no flush message was in the mailbox while the command was executed. -/
theorem flush_spares_write_iff (shardFor : Bytes → Fin n) (db : Fin n → Keyspace) (aof : Fin n → Option Aof)
    (es : List (Fin n × Event)) (j : Fin n) (e : Event) (k : Bytes) (fs : List (Fin n × Event)) :
    let sv := Server.run shardFor (Server.boot db aof) es
    let sv' := Server.step shardFor sv (j, e)
    ∀ env argv, Loop.move shardFor j (sv j) e = .exec env argv →
    ((sv' j).state.entry k).1.isSome →
    Lib.RunOk (fun sv e => (Server.step shardFor sv e, ())) (Spares shardFor j k) sv' fs →
    (Server.run shardFor sv' fs j).held = [] →
    ((Server.run shardFor sv' fs j).state.entry k = (sv' j).state.entry k ↔ Message.flush ∉ (sv j).held) := by
  intro sv sv' env argv hd hk hfs hdrained
  obtain ⟨-, hentry⟩ := spares_run fs hfs
  have hzero : Loop.pending (Server.run shardFor sv' fs j) = 0 := by simp [Loop.pending, hdrained]
  have hsame : Loop.pending (sv' j) = Loop.pending (sv j) := by
    have hstep : Loop.pending (sv' j) + (if j = j then (Loop.move shardFor j (sv j) e).flushes else 0) =
        Loop.pending (sv j) := pending_step fun _ _ _ hne => absurd rfl hne
    rwa [if_pos rfl, hd] at hstep
  rw [← pending_eq_zero, ← hsame, hentry, hzero]
  by_cases hp : Loop.pending (sv' j) = 0
  · simp [hp]
  · rw [if_neg (Ne.symm hp)]
    refine iff_of_false (fun h => ?_) hp
    rw [← h] at hk
    cases hk

end Servers

/-- A client sends one command to a shard and takes the reply. -/
def askShard (i : Fin 2) (argv : List Bytes) : List (Fin 2 × Event) :=
  [(i, .accept), (i, .readable 1 (encodeMultibulk argv) false), (i, .process (.quiet 0)), (i, .process (.quiet 0)),
    (i, .settle ⟨0, false⟩)]

/-- Both shards work through their mailboxes. -/
def drainShards : List (Fin 2 × Event) :=
  [(1, .drain), (1, .next (.quiet 0) ⟨0, false⟩), (1, .iterate none false), (0, .drain), (0, .iterate none false)]

def setD : List Bytes := [ascii "SET", [100], [120]]

/-- `SET d x` while no shard flushes. -/
theorem flush_spares_write_alone :
    let sv := Server.run (shardOf 2) (Server.boot (fun _ => .empty) fun _ => none) ((askShard 1 setD).take 2)
    let sv' := Server.step (shardOf 2) sv (1, .process (.quiet 0))
    (Server.run (shardOf 2) sv' [(0, .drain)] 1).state.entry [100] = (sv' 1).state.entry [100] ∧
      ((sv' 1).state.entry [100]).1.isSome := by
  have hk : ((Server.step (shardOf 2) (Server.run (shardOf 2) (Server.boot (fun _ => .empty) fun _ => none)
      ((askShard 1 setD).take 2)) (1, .process (.quiet 0)) 1).state.entry [100]).1.isSome := by decide +kernel
  refine ⟨(flush_spares_write_iff (shardOf 2) (fun _ => .empty) (fun _ => none) ((askShard 1 setD).take 2) 1
    (.process (.quiet 0)) [100] [(0, .drain)] (.quiet 0) setD rfl hk ⟨⟨?_, ?_⟩, trivial⟩ rfl).2 ?_, hk⟩
  · intro env argv h
    cases h
  · intro h
    cases h
  · exact List.not_mem_nil

/-- `FLUSHALL` is answered. Then a client connects to the other shard, sets `d` and is
answered, and then the mailboxes are drained. -/
theorem flush_erases_later_write :
    let sv := Server.run (shardOf 2) (Server.boot (fun _ => .empty) fun _ => none) (askShard 0 [ascii "FLUSHALL"])
    let sv' := Server.run (shardOf 2) sv (askShard 1 setD)
    let sv'' := Server.run (shardOf 2) sv' drainShards
    ((sv 0).state.ledger 1).appended = Reply.simpleString (ascii "OK") ∧ (sv 1).state.conns 1 = none ∧
      ((sv' 1).state.ledger 1).appended = Reply.simpleString (ascii "OK") ∧
      ((sv' 1).state.entry [100]).1.isSome ∧
      Lib.RunOk (fun sv e => (Server.step (shardOf 2) sv e, ())) (Spares (shardOf 2) 1 [100]) sv' drainShards ∧
      (∀ i, (sv'' i).held = []) ∧ ((sv'' 1).state.entry [100]).1 = none := by
  have hdrained : ∀ i, (Server.run (shardOf 2) (Server.run (shardOf 2) (Server.run (shardOf 2)
      (Server.boot (fun _ => .empty) fun _ => none) (askShard 0 [ascii "FLUSHALL"])) (askShard 1 setD)) drainShards i).held.isEmpty := by
    decide +kernel
  refine ⟨by decide +kernel, rfl, by decide +kernel, by decide +kernel, ⟨?_, ?_, ?_, ?_, ?_, trivial⟩,
    fun i => List.isEmpty_iff.1 (hdrained i), Option.isNone_iff_eq_none.1 (by decide +kernel)⟩
  · exact ⟨fun env argv h => (by cases h), fun _ _ => rfl⟩
  · -- The one step that erases `d` is that of the flush message.
    exact ⟨fun env argv h => (by cases h), fun _ h => (by cases h)⟩
  · exact ⟨fun env argv h => (by cases h), fun _ _ => rfl⟩
  · exact ⟨fun env argv h => (by cases h), fun h => (by cases h)⟩
  · exact ⟨fun env argv h => (by cases h), fun h => (by cases h)⟩

end BlazeKV
