import BlazeKV.Proofs.Delivery

/-! Every fragment that some request waits for is the ticket of exactly one message
in flight, in every reachable state of a server. -/

namespace BlazeKV

/-- A fragment, by the connection and the request it is for. -/
structure Ticket (ι : Type) where
  shard : ι
  cid : ℕ
  seq : ℕ
  index : ℕ
  isInt : Bool
  deriving DecidableEq

section Shards

variable {ι : Type} [DecidableEq ι] (here : ι) (k : Ticket ι)

def Part.ticket (part : Part) (origin : ι) : Ticket ι :=
  ⟨origin, part.cid, part.seq, part.index, part.isInt⟩

/-- Whether a message at shard `at'` brings the fragment, now or once it is executed. -/
def brings (at' : ι) : Message ι → Bool
  | .execute origin part => part.ticket origin = k
  | .complete part _ => part.ticket at' = k
  | .flush => false

def posted (posts : Posts ι) : ℕ := posts.countP fun p => brings k p.1 p.2

/-- Whether the fragment is one that a request of shard `here` waits for. -/
def owed (sh : Shard) : ℕ :=
  if k.shard = here ∧ (sh.ledger k.cid).awaits k.seq k.index k.isInt then 1 else 0

theorem owed_of_requests {sh sh' : Shard}
    (h : ∀ cid, (sh'.ledger cid).requests = (sh.ledger cid).requests) :
    owed here k sh' = owed here k sh := by
  have ha : (sh'.ledger k.cid).awaits k.seq k.index k.isInt =
      (sh.ledger k.cid).awaits k.seq k.index k.isInt := by simp only [Ledger.awaits, h]
  rw [owed, owed, ha]

@[simp] theorem posted_flush (shards : List ι) (asked : Bool) :
    posted k (Shard.flushPosts shards here asked) = 0 := by
  cases asked <;> simp [posted, Shard.flushPosts, brings]

/-- What a move leaves: the pipelines follow the requests, and what is owed changes
with the messages used and posted. -/
structure Keeps (sh sh' : Shard) (used : List (Message ι)) (posts : Posts ι) : Prop where
  accounted : Accounted sh'
  balance : ∀ k, owed here k sh' + used.countP (brings k here) = owed here k sh + posted k posts

variable {here} {sh sh' : Shard} {cid : ℕ} {c : Connection}

theorem Accounted.lt (h : Accounted sh) (hc : sh.conns cid = some c) : cid < sh.nextConnId := by
  by_contra hge
  rw [(h.fresh cid (by omega)).1] at hc
  cases hc

/-- A move that touches one connection id. -/
theorem Accounted.of_one (h : Accounted sh) (hlt : cid < sh.nextConnId)
    (hconns : ∀ j, j ≠ cid → sh'.conns j = sh.conns j)
    (hledger : ∀ j, j ≠ cid → sh'.ledger j = sh.ledger j) (hid : sh'.nextConnId = sh.nextConnId)
    (htracks : ∀ c ∈ sh'.conns cid, Tracks c (sh'.ledger cid))
    (hdel : ∃ m, (sh'.ledger cid).Delivered m) : Accounted sh' := by
  refine ⟨fun j c hc => ?_, fun j => ?_, fun j hj => ?_⟩
  · by_cases hj : j = cid
    · subst hj
      exact htracks c hc
    · rw [hledger j hj]
      rw [hconns j hj] at hc
      exact h.tracks j c hc
  · by_cases hj : j = cid
    · subst hj
      exact hdel
    · rw [hledger j hj]
      exact h.delivered j
  · have hne : j ≠ cid := by omega
    rw [hconns j hne, hledger j hne]
    exact h.fresh j (by omega)

theorem Accounted.of_fields (h : Accounted sh) (hconns : sh'.conns = sh.conns)
    (hledger : sh'.ledger = sh.ledger) (hid : sh'.nextConnId = sh.nextConnId) : Accounted sh' := by
  refine ⟨?_, ?_, ?_⟩
  · rw [hconns, hledger]
    exact h.tracks
  · rw [hledger]
    exact h.delivered
  · rw [hconns, hledger, hid]
    exact h.fresh

theorem Accounted.setConn (h : Accounted sh) (hlt : cid < sh.nextConnId) (ht : Tracks c (sh.ledger cid)) :
    Accounted (sh.setConn cid c) := by
  refine h.of_one hlt (fun j hj => Function.update_of_ne hj _ _) (fun _ _ => rfl) rfl ?_ (h.delivered cid)
  intro c' hc'
  obtain rfl : c = c' := by simpa [Shard.setConn] using hc'
  exact ht

theorem Accounted.closeConn (h : Accounted sh) (cid : ℕ) : Accounted (sh.closeConn cid) := by
  refine ⟨fun j c hc => ?_, h.delivered, fun j hj => ⟨?_, (h.fresh j hj).2⟩⟩
  · by_cases hj : j = cid
    · subst hj
      simp [Shard.closeConn] at hc
    · refine h.tracks j c ?_
      simpa [Shard.closeConn, hj] using hc
  · by_cases hjc : j = cid
    · subst hjc
      exact Function.update_self _ _ _
    · simpa [Shard.closeConn, hjc] using (h.fresh j hj).1

theorem Accounted.accept (h : Accounted sh) : Accounted sh.accept := by
  have hnew := h.fresh sh.nextConnId (le_refl _)
  refine ⟨fun j c hc => ?_, h.delivered, fun j hj => ?_⟩
  · by_cases hj : j = sh.nextConnId
    · subst hj
      obtain rfl : Connection.new = c := by simpa [Shard.accept, Shard.setConn] using hc
      change Tracks _ (sh.ledger sh.nextConnId)
      rw [hnew.2]
      exact tracks_new
    · refine h.tracks j c ?_
      simpa [Shard.accept, Shard.setConn, hj] using hc
  · change sh.nextConnId + 1 ≤ j at hj
    have hne : j ≠ sh.nextConnId := by omega
    refine ⟨?_, (h.fresh j (by omega)).2⟩
    simpa [Shard.accept, Shard.setConn, hne] using (h.fresh j (by omega)).1

theorem Accounted.flushReady (h : Accounted sh) (hlt : cid < sh.nextConnId)
    (ht : Tracks c (sh.ledger cid)) : Accounted (sh.flushReady cid c) := by
  have hl : (sh.flushReady cid c).ledger cid = (sh.ledger cid).append c.pipeline.flush.1 :=
    Function.update_self _ _ _
  have ht' := ht.flushReady
  rw [← hl] at ht'
  refine h.of_one hlt (fun j hj => Function.update_of_ne hj _ _)
    (fun j hj => Function.update_of_ne hj _ _) rfl ?_ ht'.delivered
  intro c' hc'
  obtain rfl : c.flushReady = c' := by
    simpa [Shard.flushReady, Shard.note, Shard.setConn] using hc'
  exact ht'

theorem Accounted.enqueue (h : Accounted sh) (hlt : cid < sh.nextConnId) (ht : Tracks c (sh.ledger cid))
    {pr : PendingReply} {r : Request} (hr : pr = r.answer.slot) :
    Accounted (sh.enqueue cid c pr r) := by
  have hl : (sh.enqueue cid c pr r).ledger cid = (sh.ledger cid).request r :=
    Function.update_self _ _ _
  have ht' := ht.enqueue hr
  rw [← hl] at ht'
  refine h.of_one hlt (fun j hj => Function.update_of_ne hj _ _)
    (fun j hj => Function.update_of_ne hj _ _) rfl ?_ ht'.delivered
  intro c' hc'
  obtain rfl : c.enqueue pr = c' := by simpa [Shard.enqueue, Shard.note, Shard.setConn] using hc'
  exact ht'

theorem Accounted.finish (h : Accounted sh) (cid : ℕ) (w : Written) : Accounted (sh.finish cid w) := by
  unfold Shard.finish
  cases hc : sh.conns cid with
  | none => exact h
  | some c =>
    have ht : Tracks (c.handleWritable w) (sh.ledger cid) := by
      refine (h.tracks cid c hc).of_eq ?_ ?_ ?_ <;>
        · unfold Connection.handleWritable
          dsimp only
          split_ifs <;> first | rfl | exact List.nil_suffix
    dsimp only
    split_ifs
    · exact h.closeConn cid
    · exact h.setConn (h.lt hc) ht

/-! The ledgers behind these. -/

@[simp] theorem ledger_finish (sh : Shard) (cid : ℕ) (w : Written) :
    (sh.finish cid w).ledger = sh.ledger := by
  unfold Shard.finish
  split
  · rfl
  · dsimp only
    split_ifs <;> rfl

theorem requests_flushReady (sh : Shard) (cid : ℕ) (c : Connection) (j : ℕ) :
    ((sh.flushReady cid c).ledger j).requests = (sh.ledger j).requests := by
  by_cases hj : j = cid
  · subst hj
    simp [Shard.flushReady, Shard.note, Shard.setConn, Ledger.append]
  · simp [Shard.flushReady, Shard.note, Shard.setConn, hj]

theorem awaits_request (l : Ledger) (r : Request) (seq index : ℕ) (isInt : Bool) :
    ((l.request r).awaits seq index isInt).toNat = (l.awaits seq index isInt).toNat +
      if seq = l.requests.length ∧ r.awaits index isInt then 1 else 0 := by
  unfold Ledger.awaits Ledger.request
  rcases lt_trichotomy seq l.requests.length with h | h | h
  · have hne : seq ≠ l.requests.length := by omega
    simp [List.getElem?_append_left h, hne]
  · subst h
    cases hr : r.awaits index isInt <;> simp [hr]
  · have hge : l.requests.length ≤ seq := by omega
    have hne : seq ≠ l.requests.length := by omega
    have hone : [r].length ≤ seq - l.requests.length := by simp; omega
    simp [List.getElem?_append_right hge, List.getElem?_eq_none hge, List.getElem?_eq_none hone, hne]

theorem awaits_fragment (l : Ledger) (part : Part) (reply : Bytes)
    (ha : l.awaits part.seq part.index part.isInt) (seq index : ℕ) (isInt : Bool) :
    ((l.fragment part reply).awaits seq index isInt).toNat +
      (if part.seq = seq ∧ part.index = index ∧ part.isInt = isInt then 1 else 0) =
      (l.awaits seq index isInt).toNat := by
  obtain ⟨r, hr, hw⟩ := Ledger.awaits_iff.1 ha
  obtain ⟨kind, frags, hans, hi, hk⟩ := Request.awaits_iff.1 hw
  by_cases hseq : part.seq = seq
  · subst hseq
    have hlt : part.index < frags.length := (List.getElem?_eq_some_iff.1 hi).1
    have hset : (r.setAnswer (r.answer.fill part reply)).answer =
        .parts kind (frags.set part.index (some reply)) := by
      cases r <;> simp_all [Request.setAnswer, Request.answer, Answer.fill]
    by_cases hindex : part.index = index
    · subst hindex
      by_cases hint : kind.isInt = isInt <;>
        simp_all [Ledger.awaits, Ledger.fragment, Request.awaits]
    · have hother : (r.setAnswer (r.answer.fill part reply)).awaits index isInt = r.awaits index isInt := by
        unfold Request.awaits
        rw [hset, hans]
        simp [hindex]
      simp [Ledger.awaits, Ledger.fragment, hr, hother, hindex]
  · simp [Ledger.awaits, Ledger.fragment, hseq]

theorem owed_enqueue (sh : Shard) (cid : ℕ) (c : Connection) (pr : PendingReply) (r : Request) :
    owed here k (sh.enqueue cid c pr r) = owed here k sh +
      if k.shard = here ∧ k.cid = cid ∧ k.seq = (sh.ledger cid).requests.length ∧
        r.awaits k.index k.isInt then 1 else 0 := by
  by_cases hc : k.cid = cid
  · subst hc
    have hl : (sh.enqueue k.cid c pr r).ledger k.cid = (sh.ledger k.cid).request r :=
      Function.update_self _ _ _
    have := awaits_request (sh.ledger k.cid) r k.seq k.index k.isInt
    rw [owed, owed, hl]
    by_cases hs : k.shard = here
    · simp only [Bool.toNat, Bool.cond_eq_ite] at this
      simpa only [hs, true_and] using this
    · simp [hs]
  · have hl : (sh.enqueue cid c pr r).ledger k.cid = sh.ledger k.cid :=
      Function.update_of_ne hc _ _
    rw [owed, owed, hl]
    simp [hc]

/-- A request that is answered at once is owed nothing. -/
theorem owed_enqueue_here (sh : Shard) (cid : ℕ) (c : Connection) (pr : PendingReply) {r : Request}
    {b : Bytes} (hr : r.answer = .here b) : owed here k (sh.enqueue cid c pr r) = owed here k sh := by
  rw [owed_enqueue]
  simp [Request.awaits, hr]

/-! One lemma for each move of a shard. -/

theorem Keeps.quiet (h : Accounted sh') (hl : ∀ cid, (sh'.ledger cid).requests = (sh.ledger cid).requests) :
    Keeps here sh sh' [] [] :=
  ⟨h, fun k => by rw [owed_of_requests here k hl]; rfl⟩

theorem keeps_localReply (h : Accounted sh) (hlt : cid < sh.nextConnId) (ht : Tracks c (sh.ledger cid))
    (argv bytes : List _) (shards : List ι) (asked : Bool) :
    Keeps here sh (sh.localReply cid c argv bytes) [] (Shard.flushPosts shards here asked) := by
  refine ⟨h.enqueue hlt ht rfl, fun k => ?_⟩
  rw [posted_flush]
  exact owed_enqueue_here k sh cid c _ rfl

theorem keeps_enqueue_here (h : Accounted sh) (hlt : cid < sh.nextConnId) (ht : Tracks c (sh.ledger cid))
    (bytes : Bytes) : Keeps here sh (sh.enqueue cid c (.done bytes) (.malformed bytes)) [] [] :=
  ⟨h.enqueue hlt ht rfl, fun k => owed_enqueue_here k sh cid c _ rfl⟩

theorem keeps_forward (h : Accounted sh) (hlt : cid < sh.nextConnId) (ht : Tracks c (sh.ledger cid))
    (target : ι) (argv : List Bytes) :
    Keeps here sh (Shard.beginSingleForward here sh cid c target argv).1 []
      (Shard.beginSingleForward here sh cid c target argv).2 := by
  refine ⟨h.enqueue hlt ht (Answer.slot_waiting .single Nat.one_pos).symm, fun k => ?_⟩
  obtain ⟨shard, cid', seq, index, isInt⟩ := k
  simp only [Shard.beginSingleForward, owed_enqueue, posted, brings, Part.ticket, ← ht.nextSeq,
    List.countP_cons, List.countP_nil, Request.awaits, Request.answer, Kind.isInt, Ticket.mk.injEq]
  cases index <;> grind

theorem countP_mapIdx {α β : Type} (f : ℕ → α → β) (p : β → Bool) (q : Prop) [Decidable q] (j : ℕ)
    (h : ∀ i a, p (f i a) = decide (q ∧ i = j)) (xs : List α) :
    (xs.mapIdx f).countP p = if q ∧ j < xs.length then 1 else 0 := by
  induction xs using List.reverseRecOn with
  | nil => simp
  | append_singleton xs x ih =>
    rw [List.mapIdx_concat, List.countP_append, ih]
    simp only [List.countP_cons, List.countP_nil, h, List.length_append, List.length_singleton,
      decide_eq_true_eq]
    by_cases hq : q
    · simp only [hq, true_and]
      split_ifs <;> omega
    · simp [hq]

theorem keeps_multikey (shardFor : Bytes → ι) (h : Accounted sh) (hlt : cid < sh.nextConnId)
    (ht : Tracks c (sh.ledger cid)) (argv : List Bytes) {keys : List Bytes} (hk : keys ≠ []) :
    Keeps here sh (Shard.beginMultikey shardFor here sh cid c argv keys).1 []
      (Shard.beginMultikey shardFor here sh cid c argv keys).2 := by
  have hpos := List.length_pos_iff.2 hk
  refine ⟨h.enqueue hlt ht (Answer.slot_waiting _ hpos).symm, fun k => ?_⟩
  obtain ⟨shard, cid', seq, index, isInt⟩ := k
  set kind := kindOf (lowercase (cmdName argv))
  have hcount := countP_mapIdx
    (fun i key => (shardFor key, Message.execute here ⟨cid, c.nextSeq, i, kind.isInt, subCommand kind argv i key⟩))
    (fun p => brings ⟨shard, cid', seq, index, isInt⟩ p.1 p.2)
    (here = shard ∧ cid = cid' ∧ c.nextSeq = seq ∧ kind.isInt = isInt) index
    (fun i key => by simp only [brings, Part.ticket, Ticket.mk.injEq]; grind) keys
  simp only [Shard.beginMultikey, posted, owed_enqueue, ← ht.nextSeq]
  rw [hcount]
  simp only [Request.awaits, Request.answer, List.getElem?_replicate, List.countP_nil]
  grind

theorem keeps_exec (h : Accounted sh) (env : Env) (argv : List Bytes) :
    Accounted (sh.exec env argv).1 ∧ (sh.exec env argv).1.conns = sh.conns ∧
      (sh.exec env argv).1.ledger = sh.ledger ∧ (sh.exec env argv).1.nextConnId = sh.nextConnId :=
  ⟨h.of_fields rfl rfl rfl, rfl, rfl, rfl⟩

theorem Keeps.of_ledger (sh₀ : Shard) {used : List (Message ι)} {posts : Posts ι}
    (h : Keeps here sh₀ sh' used posts) (hl : sh₀.ledger = sh.ledger) : Keeps here sh sh' used posts := by
  refine ⟨h.accounted, fun k => ?_⟩
  have : owed here k sh₀ = owed here k sh := owed_of_requests here k fun _ => by rw [hl]
  rw [← this]
  exact h.balance k

theorem keeps_dispatch (shardFor : Bytes → ι) (shards : List ι) (env : Env) (h : Accounted sh)
    (hlt : cid < sh.nextConnId) (ht : Tracks c (sh.ledger cid)) (argv : List Bytes) :
    Keeps here sh (Shard.dispatch shardFor shards here sh env cid c argv).1 []
      (Shard.dispatch shardFor shards here sh env cid c argv).2 := by
  unfold Shard.dispatch
  cases hplan : plan shardFor here argv with
  | refuse e => exact keeps_localReply h hlt ht argv e shards false
  | inline =>
    obtain ⟨hexec, -, hledger, hid⟩ := keeps_exec h env argv
    refine Keeps.of_ledger (sh.exec env argv).1 ?_ hledger
    refine keeps_localReply hexec (hid ▸ hlt) ?_ argv _ shards _
    rw [hledger]
    exact ht
  | forward target => exact keeps_forward h hlt ht target argv
  | fanOut keys =>
    refine keeps_multikey shardFor h hlt ht argv ?_
    rintro rfl
    unfold plan at hplan
    split at hplan
    · cases hplan
    · split at hplan
      · cases hplan
      · split_ifs at hplan
        cases hplan

theorem requests_endInput (sh : Shard) (cid : ℕ) (c : Connection) (j : ℕ) :
    ((sh.endInput cid c).ledger j).requests = (sh.ledger j).requests :=
  requests_flushReady sh cid c j

theorem Accounted.endInput (h : Accounted sh) (hlt : cid < sh.nextConnId) (ht : Tracks c (sh.ledger cid)) :
    Accounted (sh.endInput cid c) :=
  (h.flushReady hlt ht).of_fields rfl rfl rfl

theorem keeps_processInput (shardFor : Bytes → ι) (shards : List ι) (env : Env) (h : Accounted sh)
    (hc : sh.conns cid = some c) :
    Keeps here sh (Shard.processInput shardFor shards here sh env cid c).1 []
      (Shard.processInput shardFor shards here sh env cid c).2 := by
  have hlt := h.lt hc
  have ht := h.tracks cid c hc
  have hend : Keeps here sh (sh.endInput cid c) [] [] :=
    .quiet (h.endInput hlt ht) (requests_endInput sh cid c)
  unfold Shard.processInput
  split_ifs with hclosing
  · exact hend
  · cases RequestParser.parse c.input with
    | needMore => exact hend
    | protocolError e =>
      dsimp only
      set bytes := Reply.error (ascii "ERR Protocol error: " ++ e)
      -- The slot goes into the pipeline together with its request, as for a command.
      set sh₁ := sh.enqueue cid c (.done bytes) (.malformed bytes)
      have hslot : Keeps here sh sh₁ [] [] := keeps_enqueue_here h hlt ht bytes
      have ht₁ : Tracks { c.enqueue (.done bytes) with closing := true } (sh₁.ledger cid) :=
        (hslot.accounted.tracks cid (c.enqueue (.done bytes)) (Function.update_self _ _ _)).of_eq rfl rfl (List.suffix_refl _)
      have hsame : (sh.note cid (·.request (.malformed bytes))).endInput cid
          { c.enqueue (.done bytes) with closing := true } =
          sh₁.endInput cid { c.enqueue (.done bytes) with closing := true } := by
        simp [sh₁, Shard.endInput, Shard.flushReady, Shard.note, Shard.setConn, Shard.enqueue]
      rw [hsame]
      refine ⟨hslot.accounted.endInput hlt ht₁, fun k => ?_⟩
      rw [owed_of_requests here k (requests_endInput sh₁ cid _)]
      exact hslot.balance k
    | ok argv consumed =>
      dsimp only
      have ht' : Tracks { c with input := c.input.drop consumed } (sh.ledger cid) := ht.of_eq rfl rfl (List.suffix_refl _)
      split_ifs with hnil
      · exact .quiet (h.setConn hlt ht') fun _ => rfl
      · exact keeps_dispatch shardFor shards env h hlt ht' argv

theorem keeps_complete (h : Accounted sh) (part : Part) (reply : Bytes) (w : Written)
    (ha : (sh.ledger part.cid).awaits part.seq part.index part.isInt) :
    Keeps here sh (sh.completeFragment part reply w) [.complete part reply] [] := by
  set sh₁ := sh.note part.cid (·.fragment part reply)
  have hl₁ : sh₁.ledger part.cid = (sh.ledger part.cid).fragment part reply := Function.update_self _ _ _
  have hlt : part.cid < sh.nextConnId := by
    by_contra hge
    rw [(h.fresh part.cid (by omega)).2] at ha
    simp [Ledger.awaits, Ledger.empty] at ha
  have hbalance : ∀ k, owed here k sh₁ + [Message.complete part reply].countP (brings k here) =
      owed here k sh := by
    intro k
    have hfill := awaits_fragment (sh.ledger part.cid) part reply ha k.seq k.index k.isInt
    obtain ⟨shard, cid', seq, index, isInt⟩ := k
    simp only [owed, brings, Part.ticket, Ticket.mk.injEq, List.countP_cons, List.countP_nil]
    by_cases hcid : part.cid = cid'
    · subst hcid
      rw [hl₁]
      simp only [Bool.toNat, Bool.cond_eq_ite] at hfill
      grind
    · have : sh₁.ledger cid' = sh.ledger cid' := Function.update_of_ne (Ne.symm hcid) _ _
      rw [this]
      grind
  -- The slot is found exactly when the connection is open.
  have hdelivered : ∃ m, (sh₁.ledger part.cid).Delivered m := by
    obtain ⟨m, hm⟩ := h.delivered part.cid
    exact ⟨m, hl₁ ▸ (hm.fragment reply ha).2⟩
  unfold Shard.completeFragment
  cases hc : sh.conns part.cid with
  | none =>
    have hc₁ : sh₁.conns part.cid = none := hc
    have hacc : Accounted sh₁ := by
      refine h.of_one hlt (fun _ _ => rfl) (fun j hj => Function.update_of_ne hj _ _) rfl ?_ hdelivered
      intro c hmem
      rw [hc₁] at hmem
      cases hmem
    have hmatch : (sh.note part.cid (·.fragment part reply)).conns part.cid = none := hc
    simp only [hmatch]
    exact ⟨hacc, fun k => hbalance k⟩
  | some c =>
    obtain ⟨pr, hfind, ht⟩ := (h.tracks part.cid c hc).fragment reply ha
    set c₁ : Connection := { c with pipeline := c.pipeline.set part.seq (pr.complete part reply) }
    rw [← hl₁] at ht
    have hconn : Accounted (sh₁.setConn part.cid c₁) := by
      refine h.of_one hlt (fun j hj => Function.update_of_ne hj _ _)
        (fun j hj => Function.update_of_ne hj _ _) rfl ?_ hdelivered
      intro c' hc'
      obtain rfl : c₁ = c' := by simpa [Shard.setConn] using hc'
      exact ht
    have hflush : Accounted (sh₁.flushReady part.cid c₁) := by
      have := Accounted.flushReady hconn hlt ht
      simpa [Shard.flushReady, Shard.note, Shard.setConn] using this
    have hc₁ : (sh.note part.cid (·.fragment part reply)).conns part.cid = some c := hc
    simp only [hc₁, hfind]
    refine ⟨hflush.finish part.cid w, fun k => ?_⟩
    have : owed here k ((sh₁.flushReady part.cid c₁).finish part.cid w) = owed here k sh₁ :=
      owed_of_requests here k fun j => by rw [ledger_finish, requests_flushReady]
    rw [this]
    exact hbalance k

theorem keeps_runMessage (shards : List ι) (env : Env) (w : Written) (h : Accounted sh) (m : Message ι)
    (ha : ∀ part reply, m = .complete part reply →
      (sh.ledger part.cid).awaits part.seq part.index part.isInt) :
    Keeps here sh (Shard.runMessage shards here sh env w m).1 [m]
      (Shard.runMessage shards here sh env w m).2 := by
  cases m with
  | execute origin part =>
    obtain ⟨hexec, -, hledger, -⟩ := keeps_exec h env part.args
    refine ⟨hexec, fun k => ?_⟩
    have hsame : owed here k (sh.exec env part.args).1 = owed here k sh :=
      owed_of_requests here k fun _ => by rw [hledger]
    have hposts : posted k (Shard.runMessage shards here sh env w (.execute origin part)).2 =
        [Message.execute origin part].countP (brings k here) := by
      unfold Shard.runMessage posted
      rw [List.countP_append]
      exact (congrArg (· + _) (posted_flush here k shards _)).trans (Nat.zero_add _)
    rw [hposts]
    exact congrArg (· + _) hsame
  | complete part reply => exact keeps_complete h part reply w (ha part reply rfl)
  | flush => exact ⟨h.of_fields rfl rfl rfl, fun k => rfl⟩

end Shards

/-! The loop of one shard, and the server. -/

section Loops

variable {ι : Type} [DecidableEq ι] {here : ι} {l l' : Loop ι}

/-- What a move of a loop leaves, with the messages it holds. -/
structure LoopKeeps (here : ι) (l l' : Loop ι) (posts : Posts ι) : Prop where
  accounted : Accounted l'.state
  balance : ∀ k, owed here k l'.state + l.held.countP (brings k here) =
    owed here k l.state + l'.held.countP (brings k here) + posted k posts

theorem LoopKeeps.of_shard {used : List (Message ι)} {posts : Posts ι}
    (h : Keeps here l.state l'.state used posts) (hheld : l.held = used ++ l'.held) :
    LoopKeeps here l l' posts := by
  refine ⟨h.accounted, fun k => ?_⟩
  have := h.balance k
  rw [hheld, List.countP_append]
  omega

theorem LoopKeeps.idle (h : Accounted l.state) : LoopKeeps here l l [] :=
  .of_shard (.quiet h fun _ => rfl) rfl

/-- A move that uses no message and leaves the requests as they are. -/
theorem LoopKeeps.quiet (h : Accounted l'.state) (hheld : l.held = l'.held)
    (hl : ∀ cid, (l'.state.ledger cid).requests = (l.state.ledger cid).requests) :
    LoopKeeps here l l' [] :=
  .of_shard (.quiet h hl) hheld

theorem loopKeeps_onConn (h : Accounted l.state) (cid : ℕ) {f : Connection → Loop ι}
    (hf : ∀ c, l.state.conns cid = some c → LoopKeeps here l (f c) []) :
    LoopKeeps here l (Loop.onConn l cid f) [] := by
  unfold Loop.onConn
  split
  · exact hf _ (by assumption)
  · exact .idle h

theorem loopKeeps_step (here : ι) (shardFor : Bytes → ι) (shards : List ι) (h : Accounted l.state)
    (ha : ∀ part reply rest, l.batch = .complete part reply :: rest →
      (l.state.ledger part.cid).awaits part.seq part.index part.isInt) (e : Event) :
    LoopKeeps here l (Loop.step shardFor shards here l e).1 (Loop.step shardFor shards here l e).2 := by
  cases e with
  | accept =>
    simp only [Loop.step]
    split_ifs
    · exact .quiet h.accept rfl fun _ => rfl
    · exact .idle h
  | readable cid data eof =>
    refine loopKeeps_onConn h cid fun c hc => ?_
    have ht : Tracks (c.receive data eof) (l.state.ledger cid) :=
      (h.tracks cid c hc).of_eq rfl rfl (List.suffix_refl _)
    exact .quiet ((h.setConn (h.lt hc) ht).of_fields rfl rfl rfl) rfl fun _ => rfl
  | process env =>
    simp only [Loop.step]
    split
    · split
      · next cid c hc => exact .of_shard (keeps_processInput shardFor shards env h hc) rfl
      · exact .idle h
    · exact .idle h
  | settle w =>
    simp only [Loop.step]
    split
    · next cid _ =>
      refine .quiet ((h.finish cid w).of_fields rfl rfl rfl) rfl fun j => ?_
      exact congrArg (fun f => (f j).requests) (ledger_finish l.state cid w)
    · exact .idle h
  | writable cid w =>
    refine loopKeeps_onConn h cid fun c hc => .quiet (h.finish cid w) rfl fun j => ?_
    exact congrArg (fun f => (f j).requests) (ledger_finish l.state cid w)
  | hangup cid =>
    exact loopKeeps_onConn h cid fun c hc => .quiet (h.closeConn cid) rfl fun _ => rfl
  | drain =>
    simp only [Loop.step]
    split_ifs
    · exact .quiet (h.of_fields rfl rfl rfl) (Lib.Actor.held_take l).symm fun _ => rfl
    · exact .idle h
  | next env w =>
    simp only [Loop.step]
    split
    · next m rest _ hb =>
      refine .of_shard (keeps_runMessage shards env w h m fun part reply hm => ?_) ?_
      · exact ha part reply rest (hm ▸ hb)
      · simp [Lib.Actor.held, hb]
    · exact .idle h
  | iterate due synced =>
    simp only [Loop.step]
    split
    · cases due with
      | none => exact .quiet (h.of_fields rfl rfl rfl) rfl fun _ => rfl
      | some now => exact .quiet (h.of_fields rfl rfl rfl) rfl fun _ => rfl
    · exact .idle h

end Loops

namespace Server

variable {n : ℕ} {shardFor : Bytes → Fin n} {sv : Server n}

/-- The invariant of a server. -/
structure Ok (sv : Server n) : Prop where
  accounted : ∀ i, Accounted (sv i).state
  inFlight : ∀ k : Ticket (Fin n), Lib.Net.count sv (brings k) = owed k.shard k (sv k.shard).state

theorem Ok.boot (db : Fin n → Keyspace) (aof : Fin n → Option Aof) : (boot db aof).Ok := by
  refine ⟨fun i => ⟨fun cid c hc => ?_, fun cid => ⟨0, le_refl 0, rfl⟩, fun cid _ => ⟨rfl, rfl⟩⟩, fun k => ?_⟩
  · cases hc
  · rw [Lib.Net.count_eq_zero _ _ fun _ => rfl]
    simp [owed, Server.boot, Ledger.awaits, Ledger.empty]

/-- A completion in flight is one that its request waits for. -/
theorem Ok.awaits (h : sv.Ok) {i : Fin n} {part : Part} {reply : Bytes}
    (hm : .complete part reply ∈ (sv i).held) :
    ((sv i).state.ledger part.cid).awaits part.seq part.index part.isInt := by
  have hpos : 0 < (sv i).held.countP (brings (part.ticket i) i) :=
    List.countP_pos_iff.2 ⟨_, hm, by simp [brings]⟩
  have hle : (sv i).held.countP (brings (part.ticket i) i) ≤ Lib.Net.count sv (brings (part.ticket i)) :=
    Finset.single_le_sum (f := fun j => (sv j).held.countP (brings (part.ticket i) j))
      (fun _ _ => Nat.zero_le _) (Finset.mem_univ i)
  rw [h.inFlight] at hle
  by_contra hno
  have : owed (part.ticket i).shard (part.ticket i) (sv (part.ticket i).shard).state = 0 :=
    if_neg fun hw => hno hw.2
  omega

theorem Ok.step (h : sv.Ok) (e : Fin n × Event) : (step shardFor sv e).Ok := by
  obtain ⟨i, ev⟩ := e
  have hwaits : ∀ part reply rest, (sv i).batch = .complete part reply :: rest →
      ((sv i).state.ledger part.cid).awaits part.seq part.index part.isInt := by
    intro part reply rest hb
    have hm : .complete part reply ∈ (sv i).held := by simp [Lib.Actor.held, hb]
    exact h.awaits hm
  have hkeeps := loopKeeps_step i shardFor (List.finRange n) (h.accounted i) hwaits ev
  set r := Loop.step shardFor (List.finRange n) i (sv i) ev
  have hstate : ∀ j, (Server.step shardFor sv (i, ev) j).state =
      (Function.update sv i r.1 j).state := fun _ => rfl
  refine ⟨fun j => ?_, fun k => ?_⟩
  · rw [hstate]
    by_cases hj : j = i
    · subst hj
      rw [Function.update_self]
      exact hkeeps.accounted
    · rw [Function.update_of_ne hj]
      exact h.accounted j
  · have hupdate := Lib.Net.count_update sv i (brings k) r.1
    have hdeliver := Lib.Net.count_deliver (Function.update sv i r.1) r.2 (brings k)
    have hbalance := hkeeps.balance k
    have hbefore := h.inFlight k
    rw [hstate]
    change Lib.Net.count (Lib.Net.deliver (Function.update sv i r.1) r.2) (brings k) = _
    change _ = _ + posted k r.2 at hdeliver
    by_cases hk : k.shard = i
    · subst hk
      rw [Function.update_self]
      omega
    · rw [Function.update_of_ne hk]
      have h0 : owed i k r.1.state = 0 := if_neg fun hw => hk hw.1
      have h1 : owed i k (sv i).state = 0 := if_neg fun hw => hk hw.1
      omega

theorem Ok.run (h : sv.Ok) (es : List (Fin n × Event)) : (run shardFor sv es).Ok := by
  induction es generalizing sv with
  | nil => exact h
  | cons e es ih => exact ih (h.step e)

end Server

end BlazeKV
