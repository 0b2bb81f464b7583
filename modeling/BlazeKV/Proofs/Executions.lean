import BlazeKV.Proofs.Turns

/-! Where the fragments of a reply come from. Each is the reply of an execution, which is in
the history and is of the part that the request has at that place. -/

namespace BlazeKV

section Shards

variable {ι : Type} [DecidableEq ι] (shardFor : Bytes → ι) (shards : List ι) (here : ι)

/-- An execution of the part with an index of a request. -/
def Execution.Of (x : Execution ι) (origin : ι) (cid seq : ℕ) (argv : List Bytes) (index : ℕ) : Prop :=
  x.origin = origin ∧ x.cid = cid ∧ x.seq = seq ∧ x.index = index ∧
    (requests shardFor origin argv)[index]? = some (x.shard, x.argv)

/-- What a shard does with a command: it answers at once, perhaps after an execution, or it
posts the parts. -/
inductive Took (sh sh' : Shard) (cid seq : ℕ) (es : List (Act ι)) (posts : Posts ι) : Prop
  | silent (hl : ∀ j, (sh'.ledger j).requests = (sh.ledger j).requests) (hp : posts = [])
  | malformed (b : Bytes) (hl : Adds sh sh' cid (.malformed b)) (hp : posts = [])
  | answered (argv : List Bytes) (b : Bytes) (hl : Adds sh sh' cid (.command argv (.here b)))
      (hp : ∀ p ∈ posts, p.2 = .flush)
      (hx : ∀ index r, (requests shardFor here argv)[index]? = some r →
        ∃ x, .exec x ∈ es ∧ x.Of shardFor here cid seq argv index ∧ x.reply = b)
  | posted (argv : List Bytes) (kind : Kind)
      (hl : Adds sh sh' cid (.command argv (.parts kind (List.replicate (requests shardFor here argv).length none))))
      (hp : ∀ p ∈ posts, ∃ part : Part, p.2 = .execute here part ∧ part.cid = cid ∧ part.seq = seq ∧
        (requests shardFor here argv)[part.index]? = some (p.1, part.args))

omit [DecidableEq ι] in
theorem exec_mem_entries (sh : Shard) (origin : ι) (cid seq index : ℕ) (env : Env) (argv : List Bytes) :
    .exec ⟨here, origin, cid, seq, index, argv, (execCore env argv sh.db).record, (execCore env argv sh.db).reply⟩ ∈
      sh.entries here origin cid seq index env argv := List.mem_append_right _ List.mem_cons_self

theorem Input.took {env : Env} {sh sh' : Shard} {cid seq : ℕ} {posts : Posts ι} {es : List (Act ι)} {d : Move}
    (h : Input shardFor shards here env sh sh' cid seq posts es d) : Took shardFor here sh sh' cid seq es posts := by
  cases h with
  | nothing hl hp => exact .silent hl hp
  | malformed b hl hp => exact .malformed b hl hp
  | refused argv b hplan hl hp =>
    have hnone : requests shardFor here argv = [] := by simp [requests, hplan]
    exact .answered argv b hl (by simp [hp]) (by simp [hnone])
  | inline argv hplan hl hp =>
    have hone : requests shardFor here argv = [(here, argv)] := by simp [requests, hplan]
    refine .answered argv _ hl (fun p hmem => ?_) fun index r hr => ?_
    · rw [hp] at hmem
      exact (Shard.mem_flushPosts hmem).2.2
    · rw [hone] at hr
      have h0 : index = 0 := by
        by_contra hne
        simp [hne] at hr
      subst h0
      exact ⟨_, exec_mem_entries here sh here cid seq 0 env argv, ⟨rfl, rfl, rfl, rfl, by rw [hone]; rfl⟩, rfl⟩
  | posted argv kind _ hl hp =>
    refine .posted argv kind hl fun p hmem => ?_
    rw [hp] at hmem
    obtain ⟨i, hi, rfl⟩ := List.mem_mapIdx.1 hmem
    exact ⟨_, rfl, rfl, rfl, List.getElem?_eq_getElem hi⟩

/-- What a move of a loop does with the requests of its connections and with messages. -/
inductive Handles (l l' : Loop ι) (es : List (Act ι)) (posts : Posts ι) : Prop
  | quiet (hl : ∀ j, (l'.state.ledger j).requests = (l.state.ledger j).requests) (hp : posts = [])
      (hheld : ∀ m ∈ l'.held, m ∈ l.held)
  | input (cid : ℕ) (c : Connection) (hc : l.state.conns cid = some c)
      (ht : Took shardFor here l.state l'.state cid c.nextSeq es posts) (hheld : l'.held = l.held)
  | execute (origin : ι) (part : Part) (reply : Bytes) (hm : .execute origin part ∈ l.held)
      (hl : ∀ j, (l'.state.ledger j).requests = (l.state.ledger j).requests)
      (hp : ∀ p ∈ posts, p.2 = .flush ∨ p = (origin, .complete part reply))
      (hx : ∃ record, .exec ⟨here, origin, part.cid, part.seq, part.index, part.args, record, reply⟩ ∈ es)
      (hheld : ∀ m ∈ l'.held, m ∈ l.held)
  | complete (part : Part) (reply : Bytes) (hm : .complete part reply ∈ l.held)
      (hl : ∀ j, (l'.state.ledger j).requests =
        if j = part.cid then ((l.state.ledger j).fragment part reply).requests else (l.state.ledger j).requests)
      (hp : posts = []) (hheld : ∀ m ∈ l'.held, m ∈ l.held)

variable {l : Loop ι}

/-- The step lemma of one loop. -/
theorem handles_step (e : Event) :
    Handles shardFor here l (Loop.step shardFor shards here l e).1 (Loop.entries shardFor here l e)
      (Loop.step shardFor shards here l e).2 := by
  have ht := (turned_step shardFor shards here (l := l) e).turn
  generalize Loop.move shardFor here l e = d at ht
  generalize Loop.entries shardFor here l e = es at ht ⊢
  cases ht with
  | quiet hl hp hheld => exact .quiet hl hp fun m hm => hheld ▸ hm
  | cron now synced hl hp hheld => exact .quiet hl hp fun m hm => hheld ▸ hm
  | flush hl hp hheld => exact .quiet hl hp fun m hm => hheld ▸ List.mem_cons_of_mem _ hm
  | input env cid c es d _ _ hc hi hheld => exact .input cid c hc (hi.took shardFor shards here) hheld
  | execute env origin part hl hp hheld =>
    refine .execute origin part _ (hheld ▸ List.mem_cons_self) hl (fun p hmem => ?_)
      ⟨_, exec_mem_entries here l.state origin part.cid part.seq part.index env part.args⟩
      fun m hm => hheld ▸ List.mem_cons_of_mem _ hm
    rw [hp] at hmem
    rcases List.mem_append.1 hmem with hmem | hmem
    · exact .inl (Shard.mem_flushPosts hmem).2.2
    · exact .inr (List.mem_singleton.1 hmem)
  | complete part reply hl hp hheld =>
    exact .complete part reply (hheld ▸ List.mem_cons_self) hl hp fun m hm => hheld ▸ List.mem_cons_of_mem _ hm

/-- Every command is still there, perhaps with more of its answer. -/
def Grown (rs rs' : List Request) : Prop :=
  ∀ (seq : ℕ) argv a, rs[seq]? = some (Request.command argv a) → ∃ a', rs'[seq]? = some (Request.command argv a')

theorem Grown.refl (rs : List Request) : Grown rs rs := fun _ _ a h => ⟨a, h⟩

theorem grown_append (rs qs : List Request) : Grown rs (rs ++ qs) := by
  intro seq argv a h
  exact ⟨a, by rw [List.getElem?_append_left (List.getElem?_eq_some_iff.1 h).1, h]⟩

theorem grown_fragment (l : Ledger) (part : Part) (reply : Bytes) : Grown l.requests (l.fragment part reply).requests := by
  intro seq argv a h
  rw [Ledger.fragment, List.getElem?_modify, h]
  by_cases hs : part.seq = seq
  · exact ⟨a.fill part reply, by simp [hs, Request.setAnswer, Request.answer]⟩
  · exact ⟨a, by simp [hs]⟩

theorem Adds.grown {sh sh' : Shard} {cid : ℕ} {r : Request} (h : Adds sh sh' cid r) (j : ℕ) :
    Grown (sh.ledger j).requests (sh'.ledger j).requests := by
  by_cases hj : j = cid
  · subst hj
    rw [h.here]
    exact grown_append _ _
  · rw [h.others j hj]
    exact .refl _

theorem Handles.grown {l' : Loop ι} {es : List (Act ι)} {posts : Posts ι} (h : Handles shardFor here l l' es posts) (j : ℕ) :
    Grown (l.state.ledger j).requests (l'.state.ledger j).requests := by
  cases h with
  | quiet hl => exact hl j ▸ .refl _
  | input cid c hc ht =>
    cases ht with
    | silent hl => exact hl j ▸ .refl _
    | malformed b hl => exact hl.grown j
    | answered argv b hl => exact hl.grown j
    | posted argv kind hl => exact hl.grown j
  | execute origin part reply hm hl => exact hl j ▸ .refl _
  | complete part reply hm hl =>
    rw [hl j]
    split_ifs
    · exact grown_fragment _ _ _
    · exact .refl _

end Shards

section Servers

variable {n : ℕ} (shardFor : Bytes → Fin n)

def Asked (sv : Server n) (o : Fin n) (cid seq : ℕ) (argv : List Bytes) : Prop :=
  ∃ a, ((sv o).state.ledger cid).requests[seq]? = some (.command argv a)

/-- The part was executed, with this reply. -/
def Executed (h : List (Act (Fin n))) (o : Fin n) (cid seq : ℕ) (argv : List Bytes) (index : ℕ) (reply : Bytes) : Prop :=
  ∃ x, .exec x ∈ h ∧ x.Of shardFor o cid seq argv index ∧ x.reply = reply

/-- A message in flight to a shard is of a request that was asked. -/
def Comes (sv : Server n) (h : List (Act (Fin n))) (i : Fin n) : Message (Fin n) → Prop
  | .execute o part => ∃ argv, Asked sv o part.cid part.seq argv ∧
      (requests shardFor o argv)[part.index]? = some (i, part.args)
  | .complete part reply => ∃ argv, Asked sv i part.cid part.seq argv ∧
      Executed shardFor h i part.cid part.seq argv part.index reply
  | .flush => True

/-- What an answer has of its reply was executed. -/
def Filled (h : List (Act (Fin n))) (o : Fin n) (cid seq : ℕ) (argv : List Bytes) : Answer → Prop
  | .here b => ∀ index r, (requests shardFor o argv)[index]? = some r → Executed shardFor h o cid seq argv index b
  | .parts _ frags => frags.length = (requests shardFor o argv).length ∧
      ∀ index reply, frags[index]? = some (some reply) → Executed shardFor h o cid seq argv index reply

structure Sourced (sv : Server n) (h : List (Act (Fin n))) : Prop where
  ok : sv.Ok
  messages : ∀ i, ∀ m ∈ (sv i).held, Comes shardFor sv h i m
  answers : ∀ o cid seq argv a, ((sv o).state.ledger cid).requests[seq]? = some (.command argv a) →
    Filled shardFor h o cid seq argv a

variable {shardFor} {sv sv' : Server n} {h es : List (Act (Fin n))}

theorem Executed.mono {o : Fin n} {cid seq : ℕ} {argv : List Bytes} {index : ℕ} {reply : Bytes}
    (hx : Executed shardFor h o cid seq argv index reply) : Executed shardFor (h ++ es) o cid seq argv index reply := by
  obtain ⟨x, hm, hof, hr⟩ := hx
  exact ⟨x, List.mem_append_left _ hm, hof, hr⟩

theorem Filled.mono {o : Fin n} {cid seq : ℕ} {argv : List Bytes} {a : Answer} (hf : Filled shardFor h o cid seq argv a) :
    Filled shardFor (h ++ es) o cid seq argv a := by
  cases a with
  | here b => exact fun index r hr => (hf index r hr).mono
  | parts kind frags => exact ⟨hf.1, fun index reply hi => (hf.2 index reply hi).mono⟩

theorem Comes.mono (hgrown : ∀ o cid, Grown ((sv o).state.ledger cid).requests ((sv' o).state.ledger cid).requests) {i : Fin n}
    {m : Message (Fin n)} (hc : Comes shardFor sv h i m) : Comes shardFor sv' (h ++ es) i m := by
  cases m with
  | execute o part =>
    obtain ⟨argv, ⟨a, ha⟩, hr⟩ := hc
    exact ⟨argv, hgrown o part.cid part.seq argv a ha, hr⟩
  | complete part reply =>
    obtain ⟨argv, ⟨a, ha⟩, hx⟩ := hc
    exact ⟨argv, hgrown i part.cid part.seq argv a ha, hx.mono⟩
  | flush => trivial

/-- The fragment of a message goes to its place. -/
theorem Filled.fill {o : Fin n} {part : Part} {reply : Bytes} {argv : List Bytes} {a : Answer}
    (hf : Filled shardFor h o part.cid part.seq argv a)
    (hx : Executed shardFor h o part.cid part.seq argv part.index reply) :
    Filled shardFor h o part.cid part.seq argv (a.fill part reply) := by
  cases a with
  | here b => exact hf
  | parts kind frags =>
    refine ⟨(List.length_set ..).trans hf.1, fun index r hr => ?_⟩
    rw [List.getElem?_set] at hr
    by_cases hi : part.index = index
    · subst hi
      rw [if_pos rfl] at hr
      split_ifs at hr
      obtain rfl := Option.some.inj (Option.some.inj hr)
      exact hx
    · rw [if_neg hi] at hr
      exact hf.2 index r hr

variable {i : Fin n} {l' : Loop (Fin n)} {posts : Posts (Fin n)}

/-- A new request has the number that its connection gives it. -/
theorem Sourced.nextSeq (hs : Sourced shardFor sv h) {cid : ℕ} {c : Connection} (hc : (sv i).state.conns cid = some c) :
    c.nextSeq = ((sv i).state.ledger cid).requests.length :=
  ((hs.ok.accounted i).tracks cid c hc).nextSeq

/-- What a move posts comes from requests. -/
theorem Sourced.posted (hs : Sourced shardFor sv h) (hh : Handles shardFor i (sv i) l' es posts)
    (hstate : (sv' i).state = l'.state)
    (hgrown : ∀ o cid, Grown ((sv o).state.ledger cid).requests ((sv' o).state.ledger cid).requests) :
    ∀ p ∈ posts, Comes shardFor sv' (h ++ es) p.1 p.2 := by
  have hflush : ∀ p : Fin n × Message (Fin n), p.2 = .flush → Comes shardFor sv' (h ++ es) p.1 p.2 := by
    intro p hp
    rw [hp]
    trivial
  intro p hp
  cases hh with
  | quiet hl hnil => simp [hnil] at hp
  | input cid c hc ht =>
    cases ht with
    | silent hl hnil => simp [hnil] at hp
    | malformed b hl hnil => simp [hnil] at hp
    | answered argv b hl hposts => exact hflush p (hposts p hp)
    | posted argv kind hl hposts =>
      obtain ⟨part, hpart, rfl, hseq, hreq⟩ := hposts p hp
      rw [hpart]
      refine ⟨argv, ⟨.parts kind (List.replicate (requests shardFor i argv).length none), ?_⟩, hreq⟩
      rw [hstate, hl.here, hseq, hs.nextSeq hc]
      exact List.getElem?_concat_length
  | execute origin part reply hm hl hposts hx =>
    rcases hposts p hp with hp | rfl
    · exact hflush p hp
    · obtain ⟨argv, ⟨a, ha⟩, hreq⟩ := hs.messages i _ hm
      obtain ⟨record, hx⟩ := hx
      exact ⟨argv, hgrown origin part.cid part.seq argv a ha,
        ⟨_, List.mem_append_right _ hx, ⟨rfl, rfl, rfl, rfl, hreq⟩, rfl⟩⟩
  | complete part reply hm hl hnil => simp [hnil] at hp

/-- A request at the end of the list, or an earlier one. -/
theorem Adds.cases {sh sh' : Shard} {cid : ℕ} {r : Request} (hadds : Adds sh sh' cid r) {j seq : ℕ} {q : Request}
    (hq : (sh'.ledger j).requests[seq]? = some q) :
    (sh.ledger j).requests[seq]? = some q ∨ (j = cid ∧ seq = (sh.ledger cid).requests.length ∧ q = r) := by
  by_cases hj : j = cid
  · subst hj
    rw [hadds.here] at hq
    rcases Nat.lt_trichotomy seq (sh.ledger j).requests.length with hlt | heq | hgt
    · rw [List.getElem?_append_left hlt] at hq
      exact .inl hq
    · subst heq
      rw [List.getElem?_concat_length] at hq
      exact .inr ⟨rfl, rfl, (Option.some.inj hq).symm⟩
    · rw [List.getElem?_eq_none (by simp; omega)] at hq
      cases hq
  · rw [hadds.others j hj] at hq
    exact .inl hq

/-- What a move adds to an answer was executed. -/
theorem Sourced.answered (hs : Sourced shardFor sv h) (hh : Handles shardFor i (sv i) l' es posts) :
    ∀ cid seq argv a, (l'.state.ledger cid).requests[seq]? = some (.command argv a) →
      Filled shardFor (h ++ es) i cid seq argv a := by
  intro cid seq argv a ha
  have hold : ((sv i).state.ledger cid).requests[seq]? = some (.command argv a) → Filled shardFor (h ++ es) i cid seq argv a :=
    fun ha => (hs.answers i cid seq argv a ha).mono
  cases hh with
  | quiet hl => exact hold (hl cid ▸ ha)
  | input cid' c hc ht =>
    cases ht with
    | silent hl => exact hold (hl cid ▸ ha)
    | malformed b hl =>
      rcases hl.cases ha with ha | ⟨-, -, hr⟩
      · exact hold ha
      · cases hr
    | answered argv' b hl hposts hx =>
      rcases hl.cases ha with ha | ⟨rfl, rfl, hr⟩
      · exact hold ha
      · obtain ⟨rfl, rfl⟩ := Request.command.inj hr
        intro index r hreq
        obtain ⟨x, hm, hof, hreply⟩ := hx index r hreq
        rw [hs.nextSeq hc] at hof
        exact ⟨x, List.mem_append_right _ hm, hof, hreply⟩
    | posted argv' kind hl =>
      rcases hl.cases ha with ha | ⟨rfl, rfl, hr⟩
      · exact hold ha
      · obtain ⟨rfl, rfl⟩ := Request.command.inj hr
        refine ⟨List.length_replicate, fun index reply hi => ?_⟩
        rw [List.getElem?_replicate] at hi
        split_ifs at hi
        cases Option.some.inj hi
  | execute origin part reply hm hl => exact hold (hl cid ▸ ha)
  | complete part reply hm hl =>
    rw [hl cid] at ha
    split_ifs at ha with hcid
    · subst hcid
      obtain ⟨argv', ⟨a', ha'⟩, hx⟩ := hs.messages i _ hm
      rw [Ledger.fragment, List.getElem?_modify] at ha
      by_cases hseq : part.seq = seq
      · subst hseq
        rw [ha'] at ha
        have hcmd : Request.command argv' (a'.fill part reply) = .command argv a := by simpa [Request.setAnswer, Request.answer] using ha
        obtain ⟨rfl, rfl⟩ := Request.command.inj hcmd
        exact ((hs.answers i part.cid part.seq argv' a' ha').fill hx).mono
      · exact hold (by simpa [hseq] using ha)
    · exact hold ha

/-- The step lemma. -/
theorem Sourced.step (hs : Sourced shardFor sv h) (e : Fin n × Event) :
    Sourced shardFor (Server.step shardFor sv e) (h ++ Loop.entries shardFor e.1 (sv e.1) e.2) := by
  obtain ⟨i, ev⟩ := e
  have hh := handles_step (l := sv i) shardFor (List.finRange n) i ev
  have hstate : ∀ j, (Server.step shardFor sv (i, ev) j).state =
      if j = i then (Loop.step shardFor (List.finRange n) i (sv i) ev).1.state else (sv j).state := by
    intro j
    unfold Server.step
    rw [Lib.Net.deliver_state]
    by_cases hj : j = i
    · subst hj
      simp
    · simp [hj]
  have hgrown : ∀ o cid, Grown ((sv o).state.ledger cid).requests
      ((Server.step shardFor sv (i, ev) o).state.ledger cid).requests := by
    intro o cid
    rw [hstate]
    split_ifs with ho
    · subst ho
      exact hh.grown shardFor o cid
    · exact .refl _
  refine ⟨hs.ok.step (i, ev), fun j m hm => ?_, fun o cid seq argv a ha => ?_⟩
  · have hheld : (Server.step shardFor sv (i, ev) j).held =
        (Function.update sv i (Loop.step shardFor (List.finRange n) i (sv i) ev).1 j).held ++
          Lib.Net.postedTo (Loop.step shardFor (List.finRange n) i (sv i) ev).2 j := Lib.Net.deliver_held _ _ _
    rw [hheld] at hm
    rcases List.mem_append.1 hm with hm | hm
    · have hmem : m ∈ (sv j).held := by
        by_cases hj : j = i
        · subst hj
          rw [Function.update_self] at hm
          cases hh with
          | quiet _ _ hheld => exact hheld m hm
          | input cid c hc ht hheld => exact hheld ▸ hm
          | execute _ _ _ _ _ _ _ hheld => exact hheld m hm
          | complete _ _ _ _ _ hheld => exact hheld m hm
        · rwa [Function.update_of_ne hj] at hm
      exact (hs.messages j m hmem).mono hgrown
    · obtain ⟨p, hp, rfl⟩ := List.mem_map.1 hm
      obtain ⟨hmem, hto⟩ := List.mem_filter.1 hp
      obtain rfl := of_decide_eq_true hto
      exact hs.posted hh (by rw [hstate, if_pos rfl]) hgrown p hmem
  · rw [hstate] at ha
    split_ifs at ha with ho
    · subst ho
      exact hs.answered hh cid seq argv a ha
    · exact (hs.answers o cid seq argv a ha).mono

/-- The run lemma. -/
theorem sourced_run {t : Traced n} (es : List ((Fin n × Event) × Calls)) (ht : Sourced shardFor t.server t.history) :
    Sourced shardFor (t.run shardFor es).server (t.run shardFor es).history := by
  induction es generalizing t with
  | nil => exact ht
  | cons e es ih => exact ih (ht.step e.1)

theorem sourced_boot (db : Fin n → Keyspace) (policy : FsyncPolicy) (disk : Fin n → Bytes) (now : ℕ) :
    Sourced shardFor (Traced.boot db policy disk now).server (Traced.boot db policy disk now).history :=
  ⟨Server.Ok.boot _ _, fun i m hm => (by cases hm), fun o cid seq argv a ha => (by cases ha)⟩

end Servers

end BlazeKV
