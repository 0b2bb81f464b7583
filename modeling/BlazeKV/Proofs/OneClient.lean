import BlazeKV.Proofs.FlushRace
import BlazeKV.Proofs.StringStore
import BlazeKV.Proofs.Turns

/-! One client that pipelines commands of strings. What the parts in the mailboxes will do
leads every shard to the keyspace on which the commands are executed one after another,
unless a command overtakes a part that it is related to. -/

namespace BlazeKV

open Keyspace Lib

def Request.command? : Request → Option (List Bytes)
  | .command argv _ => some argv
  | .malformed _ => none

def Message.part? {ι : Type} : Message ι → Option Part
  | .execute _ part => some part
  | _ => none

/-- The parts that a shard has yet to execute. -/
def Loop.parts {ι : Type} (l : Loop ι) : List Part := l.held.filterMap Message.part?

section InTurn

variable {n : ℕ} (shardFor : Bytes → Fin n) (U : Keyspace) (o : Fin n) (cs : List (List Bytes))

/-- The keyspace that the command with a number meets. -/
def keyspaceAt (seq : ℕ) : Keyspace := (inTurn U (cs.take seq)).1

/-- The replies to the parts of the command with a number. -/
def partReplies (seq : ℕ) : List Bytes :=
  (inTurn (keyspaceAt U cs seq) ((requests shardFor o (cs.getD seq [])).map Prod.snd)).2

def expected (part : Part) : Bytes := (partReplies shardFor U o cs part.seq).getD part.index []

/-- What an answer has of its reply is as expected. -/
def Agrees (seq : ℕ) : Answer → Prop
  | .here b => (inTurn U cs).2[seq]? = some b
  | .parts kind frags => frags.length = (partReplies shardFor U o cs seq).length ∧
      (∀ (i : ℕ) b, frags[i]? = some (some b) → (partReplies shardFor U o cs seq)[i]? = some b) ∧
      (inTurn U cs).2[seq]? = some (assembled kind (partReplies shardFor U o cs seq))

variable {shardFor U o cs} {seq : ℕ} {argv : List Bytes}

theorem take_next (h : cs[seq]? = some argv) : cs.take (seq + 1) = cs.take seq ++ [argv] := by
  rw [List.take_add_one, h]
  rfl

theorem keyspaceAt_succ (h : cs[seq]? = some argv) :
    keyspaceAt U cs (seq + 1) = (perform argv calm (keyspaceAt U cs seq)).1 := by
  rw [keyspaceAt, take_next h, inTurn_append]
  rfl

theorem reply_at (h : cs[seq]? = some argv) :
    (inTurn U cs).2[seq]? = some (perform argv calm (keyspaceAt U cs seq)).2 := by
  have hlt : seq < cs.length := (List.getElem?_eq_some_iff.1 h).1
  have hlen : (inTurn U (cs.take seq)).2.length = seq := by
    rw [inTurn_length, List.length_take]
    omega
  have hsplit : cs.take seq ++ argv :: cs.drop (seq + 1) = cs := by
    rw [List.append_cons, ← take_next h, List.take_append_drop]
  have hrep : (inTurn U (cs.take seq ++ argv :: cs.drop (seq + 1))).2[seq]? =
      some (perform argv calm (keyspaceAt U cs seq)).2 := by
    rw [inTurn_append, List.getElem?_append_right (by omega), hlen, Nat.sub_self]
    rfl
  rwa [hsplit] at hrep

theorem Agrees.reply {a : Answer} (h : Agrees shardFor U o cs seq a) {b : Bytes} (hb : a.reply = some b) :
    (inTurn U cs).2[seq]? = some b := by
  cases a with
  | here c => exact (Option.some.inj hb) ▸ h
  | parts kind frags =>
    obtain ⟨hlen, hfrags, hrep⟩ := h
    have hmiss : missing frags = 0 := by
      by_contra hne
      simp [Answer.reply, hne] at hb
    have hall : frags.map given = partReplies shardFor U o cs seq := by
      refine List.ext_getElem (by rw [List.length_map, hlen]) fun i hi hi' => ?_
      rw [List.length_map] at hi
      have hsome : frags[i] ≠ none := by
        simpa using List.countP_eq_zero.1 hmiss frags[i] (List.getElem_mem hi)
      obtain ⟨c, hc⟩ := Option.ne_none_iff_exists'.1 hsome
      obtain ⟨_, hget⟩ := List.getElem?_eq_some_iff.1 (hfrags i c (by rw [List.getElem?_eq_getElem hi, hc]))
      rw [List.getElem_map, hc, hget]
      rfl
    rw [Answer.reply, if_pos hmiss, hall] at hb
    rw [hrep, hb]

/-- A fragment that is as expected. -/
theorem Agrees.fill {a : Answer} {part : Part} (h : Agrees shardFor U o cs part.seq a) :
    Agrees shardFor U o cs part.seq (a.fill part (expected shardFor U o cs part)) := by
  cases a with
  | here c => exact h
  | parts kind frags =>
    obtain ⟨hlen, hfrags, hrep⟩ := h
    refine ⟨(List.length_set ..).trans hlen, fun i b hb => ?_, hrep⟩
    rw [List.getElem?_set] at hb
    split_ifs at hb with hi hlt
    · subst hi
      obtain rfl := Option.some.inj (Option.some.inj hb)
      rw [expected, List.getD_eq_getElem?_getD, List.getElem?_eq_getElem (hlen ▸ hlt)]
      rfl
    · exact hfrags i b hb

/-- The parts of a command, in turn, do what the command does. -/
theorem parts_inTurn {kind : Kind} {V : Keyspace} (hp : Plain argv) (hV : Strings V)
    (hplan : (∃ t, plan shardFor o argv = .forward t ∧ kind = .single) ∨
      ∃ keys, plan shardFor o argv = .fanOut keys ∧ kind = kindOf (lowercase (cmdName argv))) :
    let r := inTurn V ((requests shardFor o argv).map Prod.snd)
    assembled kind r.2 = (perform argv calm V).2 ∧ ∀ k, stored r.1 k = stored (perform argv calm V).1 k := by
  rcases hplan with ⟨t, hplan, rfl⟩ | ⟨keys, hplan, rfl⟩
  · have hone : requests shardFor o argv = [(t, argv)] := by simp [requests, hplan]
    rw [hone]
    exact ⟨rfl, fun _ => rfl⟩
  · exact split_inTurn hp hplan hV

theorem agrees_asked {kind : Kind} (h : cs[seq]? = some argv) (hp : Plain argv) (hV : Strings (keyspaceAt U cs seq))
    (hplan : (∃ t, plan shardFor o argv = .forward t ∧ kind = .single) ∨
      ∃ keys, plan shardFor o argv = .fanOut keys ∧ kind = kindOf (lowercase (cmdName argv))) :
    Agrees shardFor U o cs seq (.parts kind (List.replicate (requests shardFor o argv).length none)) := by
  have hget : cs.getD seq [] = argv := by rw [List.getD_eq_getElem?_getD, h, Option.getD_some]
  refine ⟨?_, fun i b hb => ?_, ?_⟩
  · rw [partReplies, inTurn_length, List.length_map, hget, List.length_replicate]
  · rw [List.getElem?_replicate] at hb
    split_ifs at hb
    cases Option.some.inj hb
  · rw [reply_at h, partReplies, hget, (parts_inTurn hp hV hplan).1]

/-- The replies of requests that are answered as expected. -/
theorem replies_taken {bs : List Bytes} {rs : List Request} {out : Bytes} (hout : repliesOf rs = some out)
    (h : ∀ (i : ℕ) (r : Request), rs[i]? = some r → ∀ b, r.answer.reply = some b → bs[i]? = some b) : out = (bs.take rs.length).flatten := by
  induction rs generalizing bs out with
  | nil => simpa [repliesOf] using hout.symm
  | cons r rs ih =>
    simp only [repliesOf, Option.bind_eq_bind, Option.bind_eq_some_iff, Option.pure_def, Option.some.injEq] at hout
    obtain ⟨x, hx, y, hy, rfl⟩ := hout
    cases bs with
    | nil => exact absurd (h 0 r rfl x hx) (by simp)
    | cons b bs =>
      obtain rfl : b = x := by simpa using h 0 r rfl x hx
      rw [List.length_cons, List.take_succ_cons, List.flatten_cons, ih hy fun i r hr b hb => ?_]
      exact h (i + 1) r (by simpa using hr) b hb

end InTurn

section Runs

variable {n : ℕ} (shardFor : Bytes → Fin n) (db : Fin n → Keyspace) (U : Keyspace) (o : Fin n) (cid : ℕ)
  (cs : List (List Bytes))

/-- The only input comes from one connection. -/
def OnlyFrom : Fin n × Event → Prop
  | (i, .readable k _ _) => i = o ∧ k = cid
  | _ => True

instance OnlyFrom.decidable : DecidablePred (OnlyFrom o cid)
  | (i, .readable k _ _) => inferInstanceAs (Decidable (i = o ∧ k = cid))
  | (_, .accept) | (_, .process _) | (_, .settle _) | (_, .writable _ _) | (_, .hangup _) | (_, .drain) | (_, .next _ _)
  | (_, .iterate _ _) => inferInstanceAs (Decidable True)

/-- The step executes no command before a part that is related to it and waits in the mailbox
of the same shard. -/
def unhurried (sv : Server n) (e : Fin n × Event) : Bool :=
  match e.2, Loop.move shardFor e.1 (sv e.1) e.2 with
  | .process _, .exec _ argv => (Loop.parts (sv e.1)).all fun part => decide (Unrelated argv part.args)
  | _, _ => true

/-- The replies on the connection are the first of those of the commands, one after another on
one keyspace. When nothing is in flight, each shard holds what this keyspace has of its keys
and otherwise what it held before, and an open connection that is not being read has all
replies. -/
def AsInTurn (sv : Server n) : Prop :=
  let r := inTurn U cs
  let l := (sv o).state.ledger cid
  (∃ m ≤ cs.length, l.appended = (r.2.take m).flatten) ∧
    ((∀ i, (sv i).held = []) →
      (∀ j k, (sv j).state.entry k = if shardFor k = j then (r.1.dict.find k, r.1.expires.find k)
        else ((db j).dict.find k, (db j).expires.find k)) ∧
      ((sv o).state.phase ≠ .reading cid → ((sv o).state.conns cid).isSome → l.appended = r.2.flatten))

/-- What the connection has asked for are the first of the commands. -/
def Asks (l : Ledger) : Prop := l.requests.map Request.command? <+: cs.map some

/-- A message that does what is expected of it. -/
def Fair (j : Fin n) : Message (Fin n) → Prop
  | .execute _ part => Plain part.args ∧ ∀ k ∈ keysOf part.args, shardFor k = j
  | .complete part reply => reply = expected shardFor U o cs part
  | .flush => False

/-- The invariant. The parts that wait lead each shard to the keyspace behind the commands. -/
structure Follows (sv : Server n) : Prop where
  ok : sv.Ok
  idle : ∀ i, (sv i).state.Idle
  reading : ∀ i k, (sv i).state.phase = .reading k → i = o ∧ k = cid
  strings : ∀ j, Strings (sv j).state.db
  frame : ∀ j k, shardFor k ≠ j → stored (sv j).state.db k = stored (db j) k
  messages : ∀ j, ∀ m ∈ (sv j).held, Fair shardFor U o cs j m
  leads : ∀ j, Leads stored (fun part : Part => perform part.args) (expected shardFor U o cs) (ownedBy shardFor j)
    (sv j).state.db (Loop.parts (sv j)) (keyspaceAt U cs ((sv o).state.ledger cid).requests.length)
  answers : ∀ (seq : ℕ) (r : Request), ((sv o).state.ledger cid).requests[seq]? = some r →
    Agrees shardFor U o cs seq r.answer

/-- What a step of shard `i` leaves. -/
structure Stepped (sv sv' : Server n) (i : Fin n) (l' : Loop (Fin n)) (posts : Posts (Fin n)) : Prop where
  state : ∀ j, (sv' j).state = if j = i then l'.state else (sv j).state
  held : ∀ j, (sv' j).held = (if j = i then l'.held else (sv j).held) ++ Net.postedTo posts j

variable {shardFor db U o cid cs} {sv sv' : Server n} {i : Fin n} {l' : Loop (Fin n)} {posts : Posts (Fin n)}

theorem stepped_step (shardFor : Bytes → Fin n) (sv : Server n) (i : Fin n) (ev : Event) : Stepped sv (Server.step shardFor sv (i, ev)) i
    (Loop.step shardFor (List.finRange n) i (sv i) ev).1 (Loop.step shardFor (List.finRange n) i (sv i) ev).2 := by
  refine ⟨fun j => ?_, fun j => ?_⟩
  · unfold Server.step
    rw [Net.deliver_state]
    by_cases hj : j = i
    · subst hj
      simp
    · simp [hj]
  · unfold Server.step
    rw [Net.deliver_held]
    by_cases hj : j = i
    · subst hj
      simp
    · simp [hj]

theorem Stepped.parts (h : Stepped sv sv' i l' posts) (j : Fin n) : Loop.parts (sv' j) =
    (if j = i then Loop.parts l' else Loop.parts (sv j)) ++ (Net.postedTo posts j).filterMap Message.part? := by
  rw [Loop.parts, h.held, List.filterMap_append]
  split_ifs <;> rfl

theorem mem_parts {l : Loop (Fin n)} {part : Part} : part ∈ Loop.parts l ↔ ∃ origin, .execute origin part ∈ l.held := by
  unfold Loop.parts
  rw [List.mem_filterMap]
  constructor
  · rintro ⟨m, hm, hpart⟩
    cases m with
    | execute origin part' =>
      obtain rfl := Option.some.inj hpart
      exact ⟨origin, hm⟩
    | complete part' reply => cases hpart
    | flush => cases hpart
  · rintro ⟨origin, hm⟩
    exact ⟨_, hm, rfl⟩

theorem Asks.next {rs : List Request} {r : Request} (h : (rs ++ [r]).map Request.command? <+: cs.map some) :
    ∃ argv, r.command? = some argv ∧ cs[rs.length]? = some argv := by
  obtain ⟨t, ht⟩ := h
  have hget := congrArg (·[rs.length]?) ht
  simp only [List.map_append, List.map_singleton, List.append_assoc, List.singleton_append] at hget
  rw [List.getElem?_append_right (by simp), List.length_map, Nat.sub_self, List.getElem?_cons_zero, List.getElem?_map] at hget
  obtain ⟨argv, hargv, hr⟩ := Option.map_eq_some_iff.1 hget.symm
  exact ⟨argv, hr.symm, hargv⟩

/-- A command on the keys of a shard. -/
theorem Plain.performed {argv : List Bytes} (hp : Plain argv) (hk : ∀ k ∈ keysOf argv, shardFor k = i) {d : Keyspace}
    (hd : Strings d) (env : Env) : Strings (perform argv env d).1 ∧
      ∀ k, shardFor k ≠ i → stored (perform argv env d).1 k = stored d k :=
  ⟨hp.operation.1.keeps env d hd, fun k hne => hp.operation.1.frame env d hd k fun hmem => hne (hk k hmem)⟩

theorem Follows.within (hs : Follows shardFor db U o cid cs sv) (j : Fin n) :
    Within stored Strings (fun part : Part => perform part.args) (fun part => keySet part.args) (ownedBy shardFor j)
      (Loop.parts (sv j)) := by
  intro part hmem
  obtain ⟨origin, hm⟩ := mem_parts.1 hmem
  obtain ⟨hp, hk⟩ := hs.messages j _ hm
  exact ⟨hp.operation.1, hk⟩

/-- What does not depend on what the step does. -/
theorem Follows.next (hs : Follows shardFor db U o cid cs sv) {ev : Event} (he : OnlyFrom o cid (i, ev)) :
    let sv' := Server.step shardFor sv (i, ev)
    sv'.Ok ∧ (∀ j, (sv' j).state.Idle) ∧ ∀ j k, (sv' j).state.phase = .reading k → j = o ∧ k = cid := by
  have hst := stepped_step shardFor sv i ev
  have hpause := pauses_step shardFor (List.finRange n) i (hs.idle i) ev
  refine ⟨hs.ok.step (i, ev), fun j => ?_, fun j k hk => ?_⟩
  · rw [hst.state]
    split_ifs
    · exact hpause.idle
    · exact hs.idle j
  · rw [hst.state] at hk
    split_ifs at hk with hj
    · subst hj
      rcases hpause.reading k hk with hr | ⟨data, eof, rfl⟩
      · exact hs.reading j k hr
      · exact he
    · exact hs.reading j k hk

/-- The requests of the connection. -/
abbrev asked (sv : Server n) (o : Fin n) (cid : ℕ) : List Request := ((sv o).state.ledger cid).requests

theorem Follows.carry (hs : Follows shardFor db U o cid cs sv)
    (hnext : sv'.Ok ∧ (∀ j, (sv' j).state.Idle) ∧ ∀ j k, (sv' j).state.phase = .reading k → j = o ∧ k = cid)
    (hst : Stepped sv sv' i l' posts)
    (hdata : Strings l'.state.db ∧ ∀ k, shardFor k ≠ i → stored l'.state.db k = stored (sv i).state.db k)
    (hheld : ∀ m ∈ l'.held, m ∈ (sv i).held) (hposts : ∀ p ∈ posts, Fair shardFor U o cs p.1 p.2)
    (hleads : ∀ j, Leads stored (fun part : Part => perform part.args) (expected shardFor U o cs) (ownedBy shardFor j)
      (sv' j).state.db (Loop.parts (sv' j)) (keyspaceAt U cs (asked sv' o cid).length))
    (hanswers : ∀ (seq : ℕ) (r : Request), (asked sv' o cid)[seq]? = some r → Agrees shardFor U o cs seq r.answer) :
    Follows shardFor db U o cid cs sv' := by
  refine ⟨hnext.1, hnext.2.1, hnext.2.2, fun j => ?_, fun j k hk => ?_, fun j m hm => ?_, hleads, hanswers⟩
  · rw [hst.state]
    split_ifs
    · exact hdata.1
    · exact hs.strings j
  · rw [hst.state]
    split_ifs with hj
    · subst hj
      exact (hdata.2 k hk).trans (hs.frame j k hk)
    · exact hs.frame j k hk
  · rw [hst.held] at hm
    rcases List.mem_append.1 hm with hin | hpost
    · split_ifs at hin with hj
      · subst hj
        exact hs.messages j m (hheld m hin)
      · exact hs.messages j m hin
    · obtain ⟨p, hp, rfl⟩ := List.mem_map.1 hpost
      obtain ⟨hmem, hto⟩ := List.mem_filter.1 hp
      obtain rfl := of_decide_eq_true hto
      exact hposts p hmem

/-- A step that executes nothing and posts nothing. -/
theorem Follows.still (hs : Follows shardFor db U o cid cs sv)
    (hnext : sv'.Ok ∧ (∀ j, (sv' j).state.Idle) ∧ ∀ j k, (sv' j).state.phase = .reading k → j = o ∧ k = cid)
    (hst : Stepped sv sv' i l' []) (hdb : l'.state.db = (sv i).state.db) (hparts : Loop.parts l' = Loop.parts (sv i))
    (hheld : ∀ m ∈ l'.held, m ∈ (sv i).held) (hlen : (asked sv' o cid).length = (asked sv o cid).length)
    (hanswers : ∀ (seq : ℕ) (r : Request), (asked sv' o cid)[seq]? = some r → Agrees shardFor U o cs seq r.answer) :
    Follows shardFor db U o cid cs sv' := by
  refine hs.carry hnext hst ⟨hdb ▸ hs.strings i, fun k _ => by rw [hdb]⟩ hheld (by simp) (fun j => ?_) hanswers
  have hdb' : (sv' j).state.db = (sv j).state.db := by
    rw [hst.state]
    split_ifs with hj
    · rw [hdb, hj]
    · rfl
  have hparts' : Loop.parts (sv' j) = Loop.parts (sv j) := by
    rw [hst.parts]
    split_ifs with hj
    · simp [hparts, hj]
    · simp
  rw [hdb', hparts', hlen]
  exact hs.leads j

/-- The requests of a connection, after a step of shard `i`. -/
theorem Stepped.asked (hst : Stepped sv sv' i l' posts) : asked sv' o cid =
    if o = i then (l'.state.ledger cid).requests else asked sv o cid := by
  unfold BlazeKV.asked
  rw [hst.state]
  split_ifs <;> rfl

theorem Follows.complete (hs : Follows shardFor db U o cid cs sv)
    (hnext : sv'.Ok ∧ (∀ j, (sv' j).state.Idle) ∧ ∀ j k, (sv' j).state.phase = .reading k → j = o ∧ k = cid)
    (hst : Stepped sv sv' i l' []) {part : Part} {reply : Bytes} (hdb : l'.state.db = (sv i).state.db)
    (hl : ∀ j, (l'.state.ledger j).requests =
      if j = part.cid then (((sv i).state.ledger j).fragment part reply).requests else ((sv i).state.ledger j).requests)
    (hheld : (sv i).held = .complete part reply :: l'.held) : Follows shardFor db U o cid cs sv' := by
  have hreply : reply = expected shardFor U o cs part :=
    hs.messages i (.complete part reply) (hheld ▸ List.mem_cons_self)
  have hparts : Loop.parts l' = Loop.parts (sv i) := by
    rw [Loop.parts, Loop.parts, hheld]
    rfl
  -- The step fills in one fragment, perhaps of another connection.
  have hasked : asked sv' o cid = asked sv o cid ∨ asked sv' o cid =
      (asked sv o cid).modify part.seq fun r => r.setAnswer (r.answer.fill part reply) := by
    rw [hst.asked]
    split_ifs with ho
    · subst ho
      rw [hl]
      split_ifs
      · exact .inr rfl
      · exact .inl rfl
    · exact .inl rfl
  refine hs.still hnext hst hdb hparts (fun m hm => hheld ▸ List.mem_cons_of_mem _ hm) ?_ fun seq r hr => ?_
  · rcases hasked with h | h <;> simp [h]
  · rcases hasked with h | h
    · rw [h] at hr
      exact hs.answers seq r hr
    · rw [h, List.getElem?_modify] at hr
      obtain ⟨q, hq, rfl⟩ := Option.map_eq_some_iff.1 hr
      split_ifs with hseq
      · subst hseq hreply
        have hfill := (hs.answers part.seq q hq).fill
        cases q <;> exact hfill
      · exact hs.answers seq q hq

theorem Follows.execute (hs : Follows shardFor db U o cid cs sv)
    (hnext : sv'.Ok ∧ (∀ j, (sv' j).state.Idle) ∧ ∀ j k, (sv' j).state.phase = .reading k → j = o ∧ k = cid)
    {env : Env} {origin : Fin n} {part : Part} (hst : Stepped sv sv' i l'
      (Shard.flushPosts (List.finRange n) i (execCore env part.args (sv i).state.db).flush ++
        [(origin, .complete part (execCore env part.args (sv i).state.db).reply)]))
    (hdb : l'.state.db = (execCore env part.args (sv i).state.db).db)
    (hl : ∀ j, (l'.state.ledger j).requests = ((sv i).state.ledger j).requests)
    (hheld : (sv i).held = .execute origin part :: l'.held) : Follows shardFor db U o cid cs sv' := by
  obtain ⟨hplain, hkeys⟩ : Plain part.args ∧ ∀ k ∈ keysOf part.args, shardFor k = i :=
    hs.messages i (.execute origin part) (hheld ▸ List.mem_cons_self)
  have hparts : Loop.parts (sv i) = part :: Loop.parts l' := by
    rw [Loop.parts, Loop.parts, hheld]
    rfl
  have hlead := hs.leads i
  rw [hparts] at hlead
  obtain ⟨hans, hrest⟩ := hlead env
  have hposts : Shard.flushPosts (List.finRange n) i (execCore env part.args (sv i).state.db).flush = [] := by
    rw [hplain.noFlush]
    rfl
  rw [hposts, List.nil_append] at hst
  have hasked : asked sv' o cid = asked sv o cid := by
    rw [hst.asked]
    split_ifs with ho
    · subst ho
      exact hl cid
    · rfl
  refine hs.carry hnext hst ?_ (fun m hm => hheld ▸ List.mem_cons_of_mem _ hm) (fun p hp => ?_) (fun j => ?_) fun seq r hr => ?_
  · rw [hdb]
    exact hplain.performed hkeys (hs.strings i) env
  · obtain rfl := List.mem_singleton.1 hp
    exact hans
  · have hnone : (Net.postedTo [(origin, (.complete part (execCore env part.args (sv i).state.db).reply : Message (Fin n)))]
        j).filterMap Message.part? = [] := by
      rw [Net.postedTo_cons]
      split_ifs <;> rfl
    rw [hst.state, hst.parts, hnone, List.append_nil, hasked]
    split_ifs with hj
    · rw [hdb, hj]
      exact hrest
    · exact hs.leads j
  · rw [hasked] at hr
    exact hs.answers seq r hr

/-- One request more. -/
theorem Follows.answers_snoc (hs : Follows shardFor db U o cid cs sv) {r : Request}
    (hasked : asked sv' o cid = asked sv o cid ++ [r]) (hr : Agrees shardFor U o cs (asked sv o cid).length r.answer) :
    ∀ (seq : ℕ) (q : Request), (asked sv' o cid)[seq]? = some q → Agrees shardFor U o cs seq q.answer := by
  intro seq q hq
  rw [hasked] at hq
  rcases Nat.lt_trichotomy seq (asked sv o cid).length with hlt | heq | hgt
  · rw [List.getElem?_append_left hlt] at hq
    exact hs.answers seq q hq
  · subst heq
    rw [List.getElem?_concat_length] at hq
    exact Option.some.inj hq ▸ hr
  · rw [List.getElem?_eq_none (by simp; omega)] at hq
    cases hq

instance : Nonempty Env := ⟨calm⟩

/-- A command that is executed at once overtakes the parts in the mailbox. -/
theorem Follows.inline (hs : Follows shardFor db U o cid cs sv)
    (hnext : sv'.Ok ∧ (∀ j, (sv' j).state.Idle) ∧ ∀ j k, (sv' j).state.phase = .reading k → j = o ∧ k = cid)
    (hst : Stepped sv sv' o l' []) {env : Env} {argv : List Bytes} (hargv : cs[(asked sv o cid).length]? = some argv)
    (hplain : Plain argv) (hkeys : ∀ k ∈ keysOf argv, shardFor k = o)
    (hapart : ∀ part ∈ Loop.parts (sv o), Unrelated argv part.args)
    (hV : Strings (keyspaceAt U cs (asked sv o cid).length)) (hdb : l'.state.db = (execCore env argv (sv o).state.db).db)
    (hasked : asked sv' o cid = asked sv o cid ++ [.command argv (.here (execCore env argv (sv o).state.db).reply)])
    (hheld : l'.held = (sv o).held) : Follows shardFor db U o cid cs sv' := by
  have hplainOf : ∀ part ∈ Loop.parts (sv o), Plain part.args := fun part hmem => by
    obtain ⟨origin, hm⟩ := mem_parts.1 hmem
    exact (hs.messages o _ hm).1
  obtain ⟨hans, hlead⟩ := (hs.leads o).overtake hplain.operation.1 hkeys (hs.within o)
    (fun part hmem => (hapart part hmem).apart hplain (hplainOf part hmem)) (hs.strings o) hV env calm
  refine hs.carry hnext hst ?_ (fun m hm => hheld ▸ hm) (by simp) (fun j => ?_) (hs.answers_snoc hasked ?_)
  · rw [hdb]
    exact hplain.performed hkeys (hs.strings o) env
  · rw [hst.state, hst.parts, hasked, List.length_append, List.length_singleton, keyspaceAt_succ hargv, Net.postedTo_nil,
      List.filterMap_nil, List.append_nil]
    split_ifs with hj
    · rw [hdb, Loop.parts, hheld, hj]
      exact hlead
    · exact (hs.leads j).target (hplain.operation.1.others hkeys hj hV calm)
  · exact (reply_at hargv).trans (congrArg some hans.symm)

theorem runTotal_parts (V : Keyspace) (ps : List Part) :
    runTotal (fun s (part : Part) => perform part.args calm s) V ps = inTurn V (ps.map Part.args) := by
  induction ps generalizing V with
  | nil => rfl
  | cons p ps ih => rw [runTotal, ih, List.map_cons, inTurn_cons]

theorem parts_postedTo (ps : List (Fin n × Part)) (j : Fin n) :
    (Net.postedTo (ps.map fun p => (p.1, Message.execute o p.2)) j).filterMap Message.part? = Net.postedTo ps j := by
  induction ps with
  | nil => rfl
  | cons p ps ih =>
    rw [List.map_cons, Net.postedTo_cons, Net.postedTo_cons, ← ih]
    split_ifs <;> rfl

/-- A command whose parts are posted. -/
theorem Follows.posted (hs : Follows shardFor db U o cid cs sv)
    (hnext : sv'.Ok ∧ (∀ j, (sv' j).state.Idle) ∧ ∀ j k, (sv' j).state.phase = .reading k → j = o ∧ k = cid)
    {argv : List Bytes} {kind : Kind} (hst : Stepped sv sv' o l' ((requests shardFor o argv).mapIdx fun i r =>
      (r.1, .execute o ⟨cid, (asked sv o cid).length, i, kind.isInt, r.2⟩)))
    (hargv : cs[(asked sv o cid).length]? = some argv) (hplain : Plain argv)
    (hplan : (∃ t, plan shardFor o argv = .forward t ∧ kind = .single) ∨
      ∃ keys, plan shardFor o argv = .fanOut keys ∧ kind = kindOf (lowercase (cmdName argv)))
    (hV : Strings (keyspaceAt U cs (asked sv o cid).length)) (hdb : l'.state.db = (sv o).state.db)
    (hasked : asked sv' o cid = asked sv o cid ++
      [.command argv (.parts kind (List.replicate (requests shardFor o argv).length none))])
    (hheld : l'.held = (sv o).held) : Follows shardFor db U o cid cs sv' := by
  set m := (asked sv o cid).length
  set ps : List (Fin n × Part) := (requests shardFor o argv).mapIdx fun i r => (r.1, ⟨cid, m, i, kind.isInt, r.2⟩)
  have hposts : ((requests shardFor o argv).mapIdx fun i r =>
      (r.1, Message.execute o ⟨cid, m, i, kind.isInt, r.2⟩)) = ps.map fun p => (p.1, .execute o p.2) := by
    refine List.ext_getElem (by simp [ps]) fun i _ _ => ?_
    simp [ps]
  have hps : ∀ p ∈ ps, Plain p.2.args ∧ ∀ k ∈ keysOf p.2.args, shardFor k = p.1 := by
    intro p hp
    obtain ⟨i, hi, rfl⟩ := List.mem_mapIdx.1 hp
    exact hplain.part shardFor o (List.getElem_mem hi)
  have hargs : (ps.map Prod.snd).map Part.args = (requests shardFor o argv).map Prod.snd := by
    refine List.ext_getElem (by simp [ps]) fun i _ _ => ?_
    simp [ps]
  have hget : cs.getD m [] = argv := by rw [List.getD_eq_getElem?_getD, hargv, Option.getD_some]
  have hexp : (inTurn (keyspaceAt U cs m) ((requests shardFor o argv).map Prod.snd)).2 =
      (ps.map Prod.snd).map (expected shardFor U o cs) := by
    refine List.ext_getElem (by simp [ps]) fun i hi hi' => ?_
    simp only [ps, List.getElem_map, List.getElem_mapIdx, expected, partReplies, hget]
    rw [List.getD_eq_getElem?_getD, List.getElem?_eq_getElem hi, Option.getD_some]
  have hall := Leads.posts ps hs.within (fun p hp => ⟨(hps p hp).1.operation.1, (hps p hp).2⟩) hs.strings hV hs.leads calm
    (by rw [runTotal_parts, hargs, hexp])
  rw [runTotal_parts, hargs] at hall
  refine hs.carry hnext hst ⟨hdb ▸ hs.strings o, fun k _ => by rw [hdb]⟩ (fun m hm => hheld ▸ hm) (fun p hp => ?_)
    (fun j => ?_) (hs.answers_snoc hasked (agrees_asked hargv hplain hV hplan))
  · rw [hposts] at hp
    obtain ⟨q, hq, rfl⟩ := List.mem_map.1 hp
    exact hps q hq
  · have hparts : Loop.parts (sv' j) = Loop.parts (sv j) ++ Net.postedTo ps j := by
      rw [hst.parts, hposts, parts_postedTo]
      split_ifs with hj
      · rw [Loop.parts, hheld, hj]
        rfl
      · rfl
    have hdb' : (sv' j).state.db = (sv j).state.db := by
      rw [hst.state]
      split_ifs with hj
      · rw [hdb, hj]
      · rfl
    rw [hparts, hdb', hasked, List.length_append, List.length_singleton, keyspaceAt_succ hargv]
    exact (hall j).target fun k _ => (parts_inTurn hplain hV hplan).2 k

/-- The step lemma. -/
theorem Follows.step (hs : Follows shardFor db U o cid cs sv) (hU : Strings U) (hcs : ∀ c ∈ cs, Plain c)
    {e : Fin n × Event} (he : OnlyFrom o cid e) (hun : unhurried shardFor sv e)
    (hasks : Asks cs ((Server.step shardFor sv e o).state.ledger cid)) :
    Follows shardFor db U o cid cs (Server.step shardFor sv e) := by
  obtain ⟨i, ev⟩ := e
  have hst := stepped_step shardFor sv i ev
  have hnext := hs.next he
  have hV : ∀ seq, Strings (keyspaceAt U cs seq) := fun seq =>
    inTurn_strings hU fun c hc => hcs c (List.mem_of_mem_take hc)
  generalize Server.step shardFor sv (i, ev) = sv' at hst hnext hasks
  have hkept : ∀ {l' : Loop (Fin n)} {posts : Posts (Fin n)}, Stepped sv sv' i l' posts →
      (∀ j, (l'.state.ledger j).requests = ((sv i).state.ledger j).requests) → asked sv' o cid = asked sv o cid := by
    intro l' posts hst hl
    rw [hst.asked]
    split_ifs with ho
    · subst ho
      exact hl cid
    · rfl
  have hstill : ∀ {l' : Loop (Fin n)}, Stepped sv sv' i l' [] → l'.state.db = (sv i).state.db →
      (∀ j, (l'.state.ledger j).requests = ((sv i).state.ledger j).requests) → l'.held = (sv i).held →
        Follows shardFor db U o cid cs sv' := by
    intro l' hst hdb hl hheld
    have hasked := hkept hst hl
    refine hs.still hnext hst hdb (by rw [Loop.parts, Loop.parts, hheld]) (fun m hm => hheld ▸ hm) (by rw [hasked])
      fun seq r hr => ?_
    rw [hasked] at hr
    exact hs.answers seq r hr
  obtain ⟨hdata, ht⟩ := turned_step shardFor (List.finRange n) i (l := sv i) ev
  generalize hm : Loop.move shardFor i (sv i) ev = d at hdata ht
  generalize Loop.entries shardFor i (sv i) ev = es at ht
  cases ht with
  | quiet hl hp hheld =>
    rw [hp] at hst
    exact hstill hst hdata.1 hl hheld
  | cron now synced hl hp hheld =>
    rw [hp] at hst
    exact hstill hst (hdata.1.trans (expire_bare (hs.strings i).bare now)) hl hheld
  | execute env origin part hl hp hheld =>
    rw [hp] at hst
    exact hs.execute hnext hst hdata.1 hl hheld
  | complete part reply hl hp hheld =>
    rw [hp] at hst
    exact hs.complete hnext hst hdata.1 hl hheld
  | flush hl hp hheld =>
    have hfair : Fair shardFor U o cs i .flush := hs.messages i .flush (hheld ▸ List.mem_cons_self)
    exact hfair.elim
  | input env k c es d hev hphase hc ht hheld =>
    obtain ⟨rfl, rfl⟩ := hs.reading i k hphase
    have hseq : c.nextSeq = (asked sv i k).length := ((hs.ok.accounted i).tracks k c hc).nextSeq
    -- The next request is the next of the commands.
    have hcommand : ∀ {sh' : Shard} {r : Request}, Adds (sv i).state sh' k r →
        (sv' i).state = sh' → asked sv' i k = asked sv i k ++ [r] ∧
          ∃ argv, r.command? = some argv ∧ cs[(asked sv i k).length]? = some argv ∧ Plain argv := by
      intro sh' r hadds hstate
      have hasked : asked sv' i k = asked sv i k ++ [r] := by
        rw [asked, hstate]
        exact hadds.here
      have hasks' : (asked sv' i k).map Request.command? <+: cs.map some := hasks
      rw [hasked] at hasks'
      obtain ⟨argv, hr, hargv⟩ := Asks.next hasks'
      exact ⟨hasked, argv, hr, hargv, hcs argv (List.mem_of_getElem? hargv)⟩
    have hstate : (sv' i).state = (Loop.step shardFor (List.finRange n) i (sv i) ev).1.state := by
      rw [hst.state, if_pos rfl]
    cases ht with
    | nothing hl hp =>
      rw [hp] at hst
      exact hstill hst hdata.1 hl hheld
    | malformed b hl hp =>
      obtain ⟨-, argv, hr, -⟩ := hcommand hl hstate
      cases hr
    | refused argv b hplan hl hp =>
      obtain ⟨-, argv', hr, -, hplain⟩ := hcommand hl hstate
      obtain rfl := Option.some.inj hr
      exact absurd hplan (hplain.not_refused shardFor i b)
    | inline argv hplan hl hp =>
      obtain ⟨hasked, argv', hr, hargv, hplain⟩ := hcommand hl hstate
      obtain rfl := Option.some.inj hr
      have hkeys : ∀ k ∈ keysOf argv, shardFor k = i :=
        (hplain.part shardFor i (r := (i, argv)) (by simp [requests, hplan])).2
      have hnone : (Loop.step shardFor (List.finRange n) i (sv i) ev).2 = [] := by
        rw [hp, hplain.noFlush]
        rfl
      rw [hnone] at hst
      have hapart : ∀ part ∈ Loop.parts (sv i), Unrelated argv part.args := by
        simpa [unhurried, hev, hev ▸ hm] using hun
      exact hs.inline hnext hst hargv hplain hkeys hapart (hV _) hdata.1 hasked hheld
    | posted argv kind hplan hl hp =>
      obtain ⟨hasked, argv', hr, hargv, hplain⟩ := hcommand hl hstate
      obtain rfl := Option.some.inj hr
      rw [hp, hseq] at hst
      exact hs.posted hnext hst hargv hplain hplan (hV _) hdata.1 hasked hheld

theorem Adds.grows {sh sh' : Shard} {k : ℕ} {r : Request} (h : Adds sh sh' k r) (j : ℕ) :
    (sh.ledger j).requests.map Request.command? <+: (sh'.ledger j).requests.map Request.command? := by
  by_cases hj : j = k
  · subst hj
    rw [h.here, List.map_append]
    exact List.prefix_append _ _
  · rw [h.others j hj]

/-- Requests stay, with their commands. -/
theorem grows_step (sv : Server n) (e : Fin n × Event) :
    (asked sv o cid).map Request.command? <+: (asked (Server.step shardFor sv e) o cid).map Request.command? := by
  obtain ⟨i, ev⟩ := e
  rw [(stepped_step shardFor sv i ev).asked]
  split_ifs with ho
  · subst ho
    have ht := (turned_step shardFor (List.finRange n) o (l := sv o) ev).turn
    generalize Loop.move shardFor o (sv o) ev = d at ht
    generalize Loop.entries shardFor o (sv o) ev = es at ht
    cases ht with
    | quiet hl => rw [hl]
    | cron _ _ hl => rw [hl]
    | execute _ _ _ hl => rw [hl]
    | flush hl => rw [hl]
    | complete part reply hl =>
      rw [hl]
      split_ifs
      · have hsame : (((sv o).state.ledger cid).fragment part reply).requests.map Request.command? =
            (asked sv o cid).map Request.command? := by
          refine List.ext_getElem? fun m => ?_
          rw [Ledger.fragment, List.getElem?_map, List.getElem?_modify, List.getElem?_map]
          cases hr : ((sv o).state.ledger cid).requests[m]? with
          | none => rfl
          | some r =>
            by_cases hm : part.seq = m
            · cases r <;> simp [hm, Request.setAnswer, Request.command?]
            · simp [hm]
        rw [hsame]
      · exact List.prefix_refl _
    | input env k c _ _ _ _ _ ht =>
      cases ht with
      | nothing hl => rw [hl]
      | malformed _ hl => exact hl.grows cid
      | refused _ _ _ hl => exact hl.grows cid
      | inline _ _ hl => exact hl.grows cid
      | posted _ _ _ hl => exact hl.grows cid
  · exact List.prefix_refl _

theorem grows_run (sv : Server n) (es : List (Fin n × Event)) :
    (asked sv o cid).map Request.command? <+: (asked (Server.run shardFor sv es) o cid).map Request.command? := by
  induction es generalizing sv with
  | nil => exact List.prefix_refl _
  | cons e es ih => exact (grows_step sv e).trans (ih _)

/-- The run lemma. -/
theorem Follows.run (hs : Follows shardFor db U o cid cs sv) (hU : Strings U) (hcs : ∀ c ∈ cs, Plain c)
    (es : List (Fin n × Event)) (honly : ∀ e ∈ es, OnlyFrom o cid e)
    (hun : RunOk (fun sv e => (Server.step shardFor sv e, ())) (fun sv e => unhurried shardFor sv e) sv es)
    (hasks : Asks cs ((Server.run shardFor sv es o).state.ledger cid)) :
    Follows shardFor db U o cid cs (Server.run shardFor sv es) := by
  induction es generalizing sv with
  | nil => exact hs
  | cons e es ih =>
    have hasks' : Asks cs ((Server.step shardFor sv e o).state.ledger cid) := (grows_run _ es).trans hasks
    exact ih (hs.step hU hcs (honly e List.mem_cons_self) hun.1 hasks') (fun e he => honly e (List.mem_cons_of_mem _ he))
      hun.2 hasks

theorem follows_boot (hdb : ∀ j, Strings (db j)) (aof : Fin n → Option Aof)
    (hwhole : ∀ k, U.dict.find k = (db (shardFor k)).dict.find k) :
    Follows shardFor db U o cid cs (Server.boot db aof) := by
  refine ⟨.boot db aof, fun i k c hc => (by cases hc), fun i k hk => (by cases hk), hdb, fun _ _ _ => rfl,
    fun j m hm => (by cases hm), fun j k hk => ?_, fun seq r hr => (by cases hr)⟩
  obtain rfl : shardFor k = j := hk
  exact (hwhole k).symm

/-- A server with empty mailboxes has answered every request. -/
theorem answered_of_drained (hok : sv.Ok) (hdrained : ∀ i, (sv i).held = []) {r : Request} (hr : r ∈ asked sv o cid) :
    r.answer.reply.isSome := by
  obtain ⟨seq, hseq⟩ := List.mem_iff_getElem?.1 hr
  cases ha : r.answer with
  | here b => rfl
  | parts kind frags =>
    have hmiss : missing frags = 0 := by
      refine List.countP_eq_zero.2 fun f hf hnone => ?_
      obtain ⟨index, hindex⟩ := List.mem_iff_getElem?.1 hf
      rw [Option.isNone_iff_eq_none.1 hnone] at hindex
      have hawaits : ((sv o).state.ledger cid).awaits seq index kind.isInt :=
        Ledger.awaits_iff.2 ⟨r, hseq, Request.awaits_iff.2 ⟨kind, frags, ha, hindex, rfl⟩⟩
      have hcount := hok.inFlight ⟨o, cid, seq, index, kind.isInt⟩
      rw [Net.count_eq_zero _ _ hdrained, owed, if_pos ⟨rfl, hawaits⟩] at hcount
      cases hcount
    rw [Answer.reply, if_pos hmiss]
    rfl

/-- What has been appended, in any state of such a run. -/
theorem Follows.appended (hs : Follows shardFor db U o cid cs sv) {m : ℕ}
    (hm : ((sv o).state.ledger cid).Delivered m) :
    ((sv o).state.ledger cid).appended = ((inTurn U cs).2.take m).flatten := by
  have hlen : ((asked sv o cid).take m).length = m := List.length_take_of_le hm.1
  have htaken : ((sv o).state.ledger cid).appended =
      ((inTurn U cs).2.take ((asked sv o cid).take m).length).flatten := by
    refine replies_taken hm.2 fun i r hr b hb => ?_
    have hlt : i < m := hlen ▸ (List.getElem?_eq_some_iff.1 hr).1
    rw [List.getElem?_take_of_lt hlt] at hr
    exact (hs.answers i r hr).reply hb
  rw [htaken, hlen]

theorem Follows.asInTurn (hs : Follows shardFor db U o cid cs sv) (hU : Strings U) (hcs : ∀ c ∈ cs, Plain c)
    (hdb : ∀ j, Strings (db j)) (hasked : (asked sv o cid).map Request.command? = cs.map some) :
    AsInTurn shardFor db U o cid cs sv := by
  have hlen : (asked sv o cid).length = cs.length := by simpa using congrArg List.length hasked
  refine ⟨?_, fun hdrained => ⟨fun j k => ?_, fun hphase hopen => ?_⟩⟩
  · obtain ⟨m, hm⟩ := (hs.ok.accounted o).delivered cid
    exact ⟨m, hlen ▸ hm.1, hs.appended hm⟩
  · have hparts : Loop.parts (sv j) = [] := by rw [Loop.parts, hdrained, List.filterMap_nil]
    have hlead := hs.leads j
    rw [hparts, hlen, keyspaceAt, List.take_length] at hlead
    have hend : Strings (inTurn U cs).1 := inTurn_strings hU hcs
    rw [Shard.entry, (hs.strings j).bare.deadline, hend.bare.deadline, (hdb j).bare.deadline]
    split_ifs with hk
    · exact Prod.ext (hlead k hk) rfl
    · exact Prod.ext (hs.frame j k hk) rfl
  · obtain ⟨c, hc⟩ := Option.isSome_iff_exists.1 hopen
    obtain ⟨m, hm, hpipe⟩ := ((hs.ok.accounted o).tracks cid c hc).pipeline
    have hhalt : c.Halted := (hs.idle o cid c hc).resolve_right hphase
    have hall : (asked sv o cid).drop m = [] := by
      cases hdrop : (asked sv o cid).drop m with
      | nil => rfl
      | cons r rs =>
        have hready : r.answer.reply.isSome :=
          answered_of_drained hs.ok hdrained (List.mem_of_mem_drop (hdrop ▸ List.mem_cons_self))
        have hhead := hhalt (m, r.answer.slot) (by rw [hpipe, hdrop]; rfl)
        rw [Answer.slot_ready, hready] at hhead
        cases hhead
    have hle : cs.length ≤ m := hlen ▸ List.drop_eq_nil_iff.1 hall
    rw [hs.appended hm, List.take_of_length_le (by rwa [inTurn_length])]

/-- One client pipelines commands of strings, and no command that is executed at once overtakes
a part that it is related to. In every state of such a run, whatever the shards do in which
order, replies and contents are those of the commands in turn. -/
theorem pipeline_agrees (shardFor : Bytes → Fin n) (db : Fin n → Keyspace) (aof : Fin n → Option Aof) (U : Keyspace)
    (hdb : ∀ j, Strings (db j)) (hU : Strings U) (hwhole : ∀ k, U.dict.find k = (db (shardFor k)).dict.find k)
    (o : Fin n) (cid : ℕ) (cs : List (List Bytes)) (hcs : ∀ c ∈ cs, Plain c) (es : List (Fin n × Event))
    (honly : ∀ e ∈ es, OnlyFrom o cid e)
    (hun : RunOk (fun sv e => (Server.step shardFor sv e, ())) (fun sv e => unhurried shardFor sv e)
      (Server.boot db aof) es)
    (hasked : (asked (Server.run shardFor (Server.boot db aof) es) o cid).map Request.command? = cs.map some) :
    AsInTurn shardFor db U o cid cs (Server.run shardFor (Server.boot db aof) es) := by
  have hboot : Follows shardFor db U o cid cs (Server.boot db aof) := follows_boot hdb aof hwhole
  have hrun := hboot.run hU hcs es honly hun ⟨[], by rw [List.append_nil]; exact hasked⟩
  exact hrun.asInTurn hU hcs hdb hasked

end Runs

/-- What one client sends to shard 0, and how the shards serve it. -/
def served (cs : List (List Bytes)) (es : List (Fin 2 × Event)) : List (Fin 2 × Event) :=
  [(0, .accept), (0, .readable 1 (cs.map encodeMultibulk).flatten false), (0, .process (.quiet 0)),
    (0, .process (.quiet 0)), (0, .process (.quiet 0)), (0, .settle ⟨0, false⟩)] ++ es

/-- The shards work through their mailboxes, first 0 and then 1 and then 0 again. -/
def threeRounds : List (Fin 2 × Event) :=
  [(0, .drain), (0, .next (.quiet 0) ⟨0, false⟩), (0, .iterate none false), (1, .drain),
    (1, .next (.quiet 0) ⟨0, false⟩), (1, .next (.quiet 0) ⟨0, false⟩), (0, .drain), (0, .next (.quiet 0) ⟨0, false⟩),
    (0, .next (.quiet 0) ⟨0, false⟩), (0, .next (.quiet 0) ⟨0, false⟩)]

theorem strings_empty : Strings .empty :=
  ⟨⟨fun k => by simp [Keyspace.empty], fun k o ho => by simp [Keyspace.empty] at ho⟩,
    fun k o ho => by simp [Keyspace.empty] at ho⟩

/-- `MSET a 1 d 2`, whose keys are on two shards, and `GET d`, which is forwarded. -/
def msetGetD : List (List Bytes) := [[ascii "MSET", [97], [49], [100], [50]], [ascii "GET", [100]]]

theorem pipeline_agrees_forwarded :
    let sv := Server.run (shardOf 2) (Server.boot (fun _ => .empty) fun _ => none) (served msetGetD threeRounds)
    AsInTurn (shardOf 2) (fun _ => .empty) .empty 0 1 msetGetD sv ∧ (∀ i, (sv i).held = []) ∧
      ((sv 0).state.ledger 1).appended = Reply.simpleString (ascii "OK") ++ Reply.bulk [50] := by
  have hdrained : ∀ i, (Server.run (shardOf 2) (Server.boot (fun _ => .empty) fun _ => none)
      (served msetGetD threeRounds) i).held.isEmpty := by decide +kernel
  have hplain : ∀ c ∈ msetGetD, Plain c := by
    intro c hc
    simp only [msetGetD, List.mem_cons, List.not_mem_nil, or_false] at hc
    rcases hc with rfl | rfl <;> exact ⟨_, rfl, by decide, by decide, by decide⟩
  exact ⟨pipeline_agrees (shardOf 2) (fun _ => .empty) (fun _ => none) .empty (fun _ => strings_empty) strings_empty
    (fun _ => rfl) 0 1 msetGetD hplain (served msetGetD threeRounds) (by decide +kernel) (by decide +kernel) (by decide +kernel),
    fun i => List.isEmpty_iff.1 (hdrained i), by decide +kernel⟩

/-- `MSET a 1 d 2` and `GET a`, asked on the shard of `a`. The part `SET a 1` waits in the
mailbox of this shard while `GET a` is executed. -/
def msetGetA : List (List Bytes) := [[ascii "MSET", [97], [49], [100], [50]], [ascii "GET", [97]]]

theorem get_overtakes_mset : ¬ ∀ (n : ℕ) (shardFor : Bytes → Fin n) (db : Fin n → Keyspace) (aof : Fin n → Option Aof)
    (U : Keyspace), (∀ j, Strings (db j)) → Strings U → (∀ k, U.dict.find k = (db (shardFor k)).dict.find k) →
    ∀ (o : Fin n) (cid : ℕ) (cs : List (List Bytes)), (∀ c ∈ cs, Plain c) → ∀ es : List (Fin n × Event),
    (∀ e ∈ es, OnlyFrom o cid e) →
    (asked (Server.run shardFor (Server.boot db aof) es) o cid).map Request.command? = cs.map some →
    AsInTurn shardFor db U o cid cs (Server.run shardFor (Server.boot db aof) es) := by
  intro h
  have hplain : ∀ c ∈ msetGetA, Plain c := by
    intro c hc
    simp only [msetGetA, List.mem_cons, List.not_mem_nil, or_false] at hc
    rcases hc with rfl | rfl <;> exact ⟨_, rfl, by decide, by decide, by decide⟩
  have hdrained : ∀ i, (Server.run (shardOf 2) (Server.boot (fun _ => .empty) fun _ => none)
      (served msetGetA threeRounds) i).held.isEmpty := by decide +kernel
  have hreplies := ((h 2 (shardOf 2) (fun _ => .empty) (fun _ => none) .empty (fun _ => strings_empty) strings_empty
    (fun _ => rfl) 0 1 msetGetA hplain (served msetGetA threeRounds) (by decide +kernel) (by decide +kernel)).2
    fun i => List.isEmpty_iff.1 (hdrained i)).2 (by decide +kernel) (by decide +kernel)
  exact absurd hreplies (by decide +kernel)

end BlazeKV
