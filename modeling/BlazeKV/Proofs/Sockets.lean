import BlazeKV.Proofs.Reactor
import BlazeKV.Proofs.Wire
import BlazeKV.Spec.Sockets

/-! An event of the reactor reaches the connection that it is about, or nobody. The reactor
watches exactly the descriptors of open connections, each with the token of its id; an id is
never used twice, so that an event which was reported before its connection was closed finds
nothing, also when the descriptor belongs to another connection by then. -/

namespace BlazeKV

open PollReactor

theorem decode_encode {id : ℕ} (h : id < 2 ^ 62) : decodeToken (encodeConnToken id) = .conn id := by
  have hfits : (id <<< 2) % 2 ^ 64 = id <<< 2 := by
    refine Nat.mod_eq_of_lt ?_
    rw [Nat.shiftLeft_eq]
    omega
  have hor : id <<< 2 ||| 3 = id <<< 2 + 3 := (Nat.shiftLeft_add_eq_or_of_lt (by decide) id).symm
  have hmask : (id <<< 2 + 3) &&& 3 = 3 := by
    rw [Nat.and_two_pow_sub_one_eq_mod (id <<< 2 + 3) 2, Nat.shiftLeft_eq]
    omega
  have hshift : (id <<< 2 + 3) >>> 2 = id := by
    rw [Nat.shiftRight_eq_div_pow, Nat.shiftLeft_eq]
    omega
  have htoken : encodeConnToken id = id <<< 2 + 3 := by rw [encodeConnToken, hfits, kTagConn, hor]
  unfold decodeToken kTagMask
  rw [htoken, hmask, hshift]
  rfl

section Shards

/-- The interests that a shard has registered: those of the listening socket and of the waker,
and those of its open connections. A connection that is neither read nor written is watched for
writing exactly while it has something to send. -/
structure Watches (listen wake : ℤ) (s : Sockets) (sh : Shard) (m : Interests ℕ) : Prop where
  registered : Represents s.reactor m
  listens : m listen = some (kRead, kTagListen)
  wakes : m wake = some (kRead, kTagWake)
  conns : ∀ cid c, sh.conns cid = some c → s.fds cid ≠ listen ∧ s.fds cid ≠ wake ∧ ∃ flags,
    m (s.fds cid) = some (flags, encodeConnToken cid) ∧
      (sh.phase ≠ .reading cid → sh.phase ≠ .writing cid → flags = c.interest)
  distinct : ∀ cid cid' c c', sh.conns cid = some c → sh.conns cid' = some c' →
    s.fds cid = s.fds cid' → cid = cid'
  nothingElse : ∀ fd x, m fd = some x → fd = listen ∨ fd = wake ∨ ∃ cid c, sh.conns cid = some c ∧
    s.fds cid = fd

variable {listen wake : ℤ} {s : Sockets} {sh sh' : Shard} {m : Interests ℕ} {cid : ℕ} {c c' : Connection}

theorem Watches.start (hne : listen ≠ wake) (hconns : ∀ cid, sh.conns cid = none) :
    ∃ m, Watches listen wake (.start listen wake) sh m := by
  have hone : Represents (PollReactor.empty.add listen kRead kTagListen).1 _ :=
    represents_empty.add kRead kTagListen rfl
  have hnew : Function.update (fun _ => none) listen (some (kRead, kTagListen)) wake = none := by
    rw [Function.update_of_ne (Ne.symm hne)]
  have htwo := hone.add kRead kTagWake hnew
  refine ⟨_, htwo, ?_, Function.update_self .., fun cid c hc => ?_, fun cid cid' c c' hc => ?_,
    fun fd x hx => ?_⟩
  · rw [Function.update_of_ne hne, Function.update_self]
  · cases (hconns cid).symm.trans hc
  · cases (hconns cid).symm.trans hc
  · by_cases hw : fd = wake
    · exact .inr (.inl hw)
    · rw [Function.update_of_ne hw] at hx
      by_cases hl : fd = listen
      · exact .inl hl
      · rw [Function.update_of_ne hl] at hx
        cases hx

/-- A move that leaves the descriptors and the output buffers alone, or touches only the
connection that is read or written from then on. -/
theorem Watches.frame (h : Watches listen wake s sh m)
    (hconns : ∀ j, j ≠ cid → sh'.conns j = sh.conns j)
    (hself : (sh'.conns cid).isSome = (sh.conns cid).isSome)
    (hsettled : sh'.conns cid = sh.conns cid ∨ sh'.phase = .reading cid ∨ sh'.phase = .writing cid)
    (hphase : ∀ j, sh'.phase ≠ .reading j → sh'.phase ≠ .writing j → sh'.conns j = none ∨
      (sh.phase ≠ .reading j ∧ sh.phase ≠ .writing j)) : Watches listen wake s sh' m := by
  have hopen : ∀ j, (sh'.conns j).isSome = (sh.conns j).isSome := by
    intro j
    by_cases hj : j = cid
    · rw [hj, hself]
    · rw [hconns j hj]
  have hback : ∀ j d, sh'.conns j = some d → ∃ d', sh.conns j = some d' := fun j d hd =>
    Option.isSome_iff_exists.1 ((hopen j).symm.trans (by rw [hd]; rfl))
  refine ⟨h.registered, h.listens, h.wakes, fun j d hd => ?_, fun j k d e hd he hfd => ?_,
    fun fd x hx => ?_⟩
  · obtain ⟨d', hd'⟩ := hback j d hd
    obtain ⟨hl, hw, flags, hflags, hint⟩ := h.conns j d' hd'
    refine ⟨hl, hw, flags, hflags, fun hr hwr => ?_⟩
    have hsame : sh'.conns j = sh.conns j := by
      by_cases hj : j = cid
      · subst hj
        rcases hsettled with hs | hs | hs
        · exact hs
        · exact absurd hs hr
        · exact absurd hs hwr
      · exact hconns j hj
    obtain rfl : d = d' := Option.some.inj (hd.symm.trans (hsame.trans hd'))
    rcases hphase j hr hwr with hnone | ⟨hr', hw'⟩
    · cases hnone.symm.trans hd
    · exact hint hr' hw'
  · obtain ⟨d', hd'⟩ := hback j d hd
    obtain ⟨e', he'⟩ := hback k e he
    exact h.distinct j k d' e' hd' he' hfd
  · refine (h.nothingElse fd x hx).imp_right (Or.imp_right fun hc => ?_)
    obtain ⟨j, d, hd, hfd⟩ := hc
    obtain ⟨d', hd'⟩ := Option.isSome_iff_exists.1 ((hopen j).trans (by rw [hd]; rfl))
    exact ⟨j, d', hd', hfd⟩

/-- No other connection is read or written. -/
def Shard.Only (sh : Shard) (cid : ℕ) : Prop :=
  ∀ j, j ≠ cid → sh.phase ≠ .reading j ∧ sh.phase ≠ .writing j

theorem Watches.accept {fd : ℤ} (h : Watches listen wake s sh m)
    (hnew : sh.conns sh.nextConnId = none) (hl : fd ≠ listen) (hw : fd ≠ wake)
    (hfresh : ∀ cid c, sh.conns cid = some c → s.fds cid ≠ fd) :
    ∃ m', Watches listen wake (s.accept sh.nextConnId fd) sh.accept m' := by
  have hnone : m fd = none := by
    by_contra hx
    obtain ⟨x, hx⟩ := Option.ne_none_iff_exists'.1 hx
    rcases h.nothingElse fd x hx with he | he | ⟨cid, c, hc, he⟩
    · exact hl he
    · exact hw he
    · exact hfresh cid c hc he
  have hold : ∀ cid c, cid ≠ sh.nextConnId → sh.accept.conns cid = some c → sh.conns cid = some c :=
    fun cid c hne hc =>
    (Function.update_of_ne hne _ _).symm.trans hc
  have hfds : ∀ cid, cid ≠ sh.nextConnId → (s.accept sh.nextConnId fd).fds cid = s.fds cid :=
    fun cid hne => Function.update_of_ne hne _ _
  have hself : (s.accept sh.nextConnId fd).fds sh.nextConnId = fd := Function.update_self ..
  refine ⟨_, h.registered.add kRead (encodeConnToken sh.nextConnId) hnone, ?_, ?_, fun cid c hc => ?_,
    fun cid cid' c c' hc hc' hfd => ?_, fun fd' x hx => ?_⟩
  · rw [Function.update_of_ne (Ne.symm hl), h.listens]
  · rw [Function.update_of_ne (Ne.symm hw), h.wakes]
  · by_cases hne : cid = sh.nextConnId
    · subst hne
      obtain rfl : Connection.new = c := by simpa [Shard.accept, Shard.setConn] using hc
      rw [hself]
      exact ⟨hl, hw, kRead, Function.update_self .., fun _ _ => rfl⟩
    · have hc := hold cid c hne hc
      obtain ⟨hl', hw', flags, hflags, hint⟩ := h.conns cid c hc
      rw [hfds cid hne, Function.update_of_ne (hfresh cid c hc)]
      exact ⟨hl', hw', flags, hflags, hint⟩
  · by_cases hne : cid = sh.nextConnId
    · by_cases hne' : cid' = sh.nextConnId
      · rw [hne, hne']
      · rw [hne, hself, hfds cid' hne'] at hfd
        exact absurd hfd.symm (hfresh cid' c' (hold cid' c' hne' hc'))
    · by_cases hne' : cid' = sh.nextConnId
      · rw [hne', hself, hfds cid hne] at hfd
        exact absurd hfd (hfresh cid c (hold cid c hne hc))
      · rw [hfds cid hne, hfds cid' hne'] at hfd
        exact h.distinct cid cid' c c' (hold cid c hne hc) (hold cid' c' hne' hc') hfd
  · by_cases hfd : fd' = fd
    · exact .inr (.inr ⟨sh.nextConnId, .new, Function.update_self .., hself.trans hfd.symm⟩)
    · rw [Function.update_of_ne hfd] at hx
      refine (h.nothingElse fd' x hx).imp_right (Or.imp_right fun hc => ?_)
      obtain ⟨cid, c, hc, rfl⟩ := hc
      have hne : cid ≠ sh.nextConnId := by
        rintro rfl
        cases hnew.symm.trans hc
      exact ⟨cid, c, (Function.update_of_ne hne _ _).trans hc, hfds cid hne⟩

/-- The interest of one connection is made new. -/
theorem Watches.updateInterest (h : Watches listen wake s sh m) (hc : sh.conns cid = some c)
    (honly : sh.Only cid)
    (hconns : sh'.conns = Function.update sh.conns cid (some c')) :
    ∃ m', Watches listen wake (s.updateInterest cid c') sh' m' := by
  obtain ⟨hl, hw, -⟩ := h.conns cid c hc
  have hother : ∀ j d, j ≠ cid → sh'.conns j = some d → sh.conns j = some d := fun j d hj hd => by
    rwa [hconns, Function.update_of_ne hj] at hd
  have hback : ∀ j d, sh'.conns j = some d → ∃ d', sh.conns j = some d' := by
    intro j d hd
    by_cases hj : j = cid
    · exact ⟨c, hj ▸ hc⟩
    · exact ⟨d, hother j d hj hd⟩
  refine ⟨_, h.registered.mod (s.fds cid) c'.interest (encodeConnToken cid), ?_, ?_, fun j d hd => ?_,
    fun j k d e hd he hfd => ?_, fun fd x hx => ?_⟩
  · rw [Function.update_of_ne (Ne.symm hl), h.listens]
  · rw [Function.update_of_ne (Ne.symm hw), h.wakes]
  · by_cases hj : j = cid
    · subst hj
      obtain rfl : c' = d := by simpa [hconns] using hd
      exact ⟨hl, hw, c'.interest, Function.update_self .., fun _ _ => rfl⟩
    · have hd := hother j d hj hd
      obtain ⟨hl', hw', flags, hflags, hint⟩ := h.conns j d hd
      have hne : s.fds j ≠ s.fds cid := fun he => hj (h.distinct j cid d c hd hc he)
      refine ⟨hl', hw', flags, ?_, fun _ _ => hint (honly j hj).1 (honly j hj).2⟩
      exact (Function.update_of_ne hne _ _).trans hflags
  · obtain ⟨d', hd'⟩ := hback j d hd
    obtain ⟨e', he'⟩ := hback k e he
    exact h.distinct j k d' e' hd' he' hfd
  · by_cases hfd : fd = s.fds cid
    · exact .inr (.inr ⟨cid, c', by rw [hconns, Function.update_self], hfd.symm⟩)
    · rw [Function.update_of_ne hfd] at hx
      refine (h.nothingElse fd x hx).imp_right (Or.imp_right fun hj => ?_)
      obtain ⟨j, d, hd, rfl⟩ := hj
      have hj : j ≠ cid := by
        rintro rfl
        exact hfd rfl
      exact ⟨j, d, by rwa [hconns, Function.update_of_ne hj], rfl⟩

theorem Watches.close (h : Watches listen wake s sh m) (hc : sh.conns cid = some c)
    (honly : sh.Only cid)
    (hconns : sh'.conns = Function.update sh.conns cid none) :
    ∃ m', Watches listen wake (s.close cid) sh' m' := by
  obtain ⟨hl, hw, -⟩ := h.conns cid c hc
  have hother : ∀ j d, sh'.conns j = some d → j ≠ cid ∧ sh.conns j = some d := by
    intro j d hd
    have hj : j ≠ cid := by
      rintro rfl
      simp [hconns] at hd
    rw [hconns, Function.update_of_ne hj] at hd
    exact ⟨hj, hd⟩
  refine ⟨_, h.registered.del (s.fds cid), ?_, ?_, fun j d hd => ?_, fun j k d e hd he hfd => ?_,
    fun fd x hx => ?_⟩
  · rw [Function.update_of_ne (Ne.symm hl), h.listens]
  · rw [Function.update_of_ne (Ne.symm hw), h.wakes]
  · obtain ⟨hj, hd⟩ := hother j d hd
    obtain ⟨hl', hw', flags, hflags, hint⟩ := h.conns j d hd
    have hne : s.fds j ≠ s.fds cid := fun he => hj (h.distinct j cid d c hd hc he)
    refine ⟨hl', hw', flags, ?_, fun _ _ => hint (honly j hj).1 (honly j hj).2⟩
    exact (Function.update_of_ne hne _ _).trans hflags
  · exact h.distinct j k d e (hother j d hd).2 (hother k e he).2 hfd
  · have hfd : fd ≠ s.fds cid := by
      rintro rfl
      rw [Function.update_self] at hx
      cases hx
    rw [Function.update_of_ne hfd] at hx
    refine (h.nothingElse fd x hx).imp_right (Or.imp_right fun hj => ?_)
    obtain ⟨j, d, hd, rfl⟩ := hj
    have hj : j ≠ cid := by
      rintro rfl
      exact hfd rfl
    exact ⟨j, d, by rwa [hconns, Function.update_of_ne hj], rfl⟩

/-- `handle_writable` and the decision to close. -/
theorem Watches.finish (h : Watches listen wake s sh m) (hc : sh.conns cid = some c)
    (honly : sh.Only cid) (w : Written)
    (hconns : sh'.conns = Function.update sh.conns cid
      (if (c'.handleWritable w).owesNothing then none else some (c'.handleWritable w))) :
    ∃ m', Watches listen wake (s.finish cid c' w) sh' m' := by
  unfold Sockets.finish
  dsimp only
  set c₁ := c'.handleWritable w
  have hupdated : (sh.setConn cid c₁).conns = Function.update sh.conns cid (some c₁) := rfl
  obtain ⟨m₁, h₁⟩ := h.updateInterest hc honly hupdated
  split_ifs with howes
  · refine h₁.close (c := c₁) (Function.update_self ..) honly ?_
    rw [hconns, if_pos howes, hupdated, Function.update_idem]
  · refine h.updateInterest hc honly ?_
    rw [hconns, if_neg howes]

end Shards

section Loops

variable {ι : Type} [DecidableEq ι] (shardFor : Bytes → ι) (shards : List ι) (here : ι) {l : Loop ι} {listen wake : ℤ}
  {s : Sockets} {m : Interests ℕ}

theorem only_of_calm {sh : Shard} (h : sh.phase = .polling ∨ sh.phase = .draining) (cid : ℕ) :
    sh.Only cid := by
  intro j _
  rcases h with h | h <;> simp [h]

theorem only_of_busy {sh : Shard} {cid : ℕ}
    (h : sh.phase = .reading cid ∨ sh.phase = .writing cid) : sh.Only cid := by
  intro j hj
  rcases h with h | h <;> simp [h, Ne.symm hj]

/-- The connection that is read stays open, and is read on or written next. -/
theorem processInput_self (sh : Shard) (env : Env) (cid : ℕ) (c : Connection)
    (hphase : sh.phase = .reading cid) :
    let sh' := (Shard.processInput shardFor shards here sh env cid c).1
    (sh'.conns cid).isSome ∧ (sh'.phase = .reading cid ∨ sh'.phase = .writing cid) := by
  have hend : ∀ (sh : Shard) (c : Connection), ((sh.endInput cid c).conns cid).isSome ∧
      ((sh.endInput cid c).phase = .reading cid ∨ (sh.endInput cid c).phase = .writing cid) :=
      fun sh c =>
    ⟨by simp [Shard.endInput, Shard.flushReady, Shard.note, Shard.setConn], .inr rfl⟩
  have henqueue : ∀ (sh : Shard) (c : Connection) (pr : PendingReply) (r : Request),
    sh.phase = .reading cid →
      ((sh.enqueue cid c pr r).conns cid).isSome ∧
        ((sh.enqueue cid c pr r).phase = .reading cid ∨
        (sh.enqueue cid c pr r).phase = .writing cid) := fun sh c pr r hp =>
    ⟨by simp [Shard.enqueue, Shard.note, Shard.setConn], .inl hp⟩
  unfold Shard.processInput
  split_ifs
  · exact hend sh c
  · cases RequestParser.parse c.input with
    | needMore => exact hend sh c
    | protocolError e => exact hend _ _
    | ok argv consumed =>
      dsimp only
      split_ifs
      · exact ⟨by simp [Shard.setConn], .inl hphase⟩
      · unfold Shard.dispatch
        cases plan shardFor here argv with
        | refuse e => exact henqueue sh _ _ _ hphase
        | inline => exact henqueue (sh.exec env argv).1 _ _ _ hphase
        | forward target => exact henqueue sh _ _ _ hphase
        | fanOut keys => exact henqueue sh _ _ _ hphase

theorem conns_finish (sh : Shard) (cid : ℕ) (w : Written) {c : Connection}
    (hc : sh.conns cid = some c) :
    (sh.finish cid w).conns = Function.update sh.conns cid
      (if (c.handleWritable w).owesNothing then none else some (c.handleWritable w)) := by
  unfold Shard.finish
  rw [hc]
  dsimp only
  split_ifs <;> rfl

/-- The step lemma of one loop. -/
theorem watches_step (h : Watches listen wake s l.state m)
    (hacc : Accounted l.state) (e : Event) (fd : ℤ)
    (hfresh : e = .accept → l.state.phase = .polling →
      fd ≠ listen ∧ fd ≠ wake ∧ ∀ cid c, l.state.conns cid = some c → s.fds cid ≠ fd) :
    ∃ m', Watches listen wake (s.step l fd e) (Loop.step shardFor shards here l e).1.state m' := by
  have hidle : ∃ m', Watches listen wake s l.state m' := ⟨m, h⟩
  -- From one phase in which nothing is read or written to another.
  have hpass : ∀ sh' : Shard, sh'.conns = l.state.conns →
    (∀ j, l.state.phase ≠ .reading j ∧ l.state.phase ≠ .writing j) →
      ∃ m', Watches listen wake s sh' m' := fun sh' hconns hcalm =>
    ⟨m, h.frame (fun j (_ : j ≠ 0) => by rw [hconns]) (by rw [hconns])
      (.inl (by rw [hconns])) fun j _ _ => .inr (hcalm j)⟩
  have hcalm : ∀ phase, l.state.phase = phase → phase = .polling ∨ phase = .draining →
      ∀ j, l.state.phase ≠ .reading j ∧ l.state.phase ≠ .writing j := by
    intro phase hp hphase j
    rw [hp]
    rcases hphase with rfl | rfl <;> simp
  cases e with
  | accept =>
    simp only [Loop.step, Sockets.step]
    split_ifs with hp
    · obtain ⟨hl, hw, hnew⟩ := hfresh rfl hp
      exact h.accept (hacc.fresh _ (le_refl _)).1 hl hw hnew
    · exact hidle
  | readable k data eof =>
    simp only [Loop.step, Sockets.step, Loop.writes, Loop.onConn]
    split
    · next c hp hc =>
      refine ⟨m, h.frame (fun j (hj : j ≠ k) => Function.update_of_ne hj _ _) ?_
        (.inr (.inl rfl)) fun j _ _ => .inr (hcalm _ hp (.inl rfl) j)⟩
      simp [Loop.inPhase, Shard.setConn, hc]
    · exact hidle
  | process env =>
    unfold Loop.step Sockets.step Loop.writes
    dsimp only
    cases hp : l.state.phase with
    | reading k =>
      dsimp only
      cases hc : l.state.conns k with
      | none => exact hidle
      | some c =>
        obtain ⟨hothers, -⟩ := processInput_frame shardFor shards here l.state env k c
        obtain ⟨hopen, hphase⟩ := processInput_self shardFor shards here l.state env k c hp
        refine ⟨m, h.frame (fun j hj => (hothers j hj).1) (hopen.trans (by rw [hc]; rfl))
          (.inr hphase) fun j hr hw => .inr ?_⟩
        have hj : j ≠ k := by
          rintro rfl
          rcases hphase with hph | hph
          · exact hr hph
          · exact hw hph
        exact only_of_busy (.inl hp) j hj
    | _ => exact hidle
  | settle w =>
    unfold Loop.step Sockets.step Loop.writes
    dsimp only
    cases hp : l.state.phase with
    | writing k =>
      dsimp only
      cases hc : l.state.conns k with
      | none =>
        have hnone : l.state.finish k w = l.state := by
          unfold Shard.finish
          rw [hc]
        refine ⟨m, h.frame (fun j (_ : j ≠ k) => ?_) ?_ (.inl ?_) fun j _ _ => ?_⟩
        · simp only [Loop.inPhase, hnone]
        · simp only [Loop.inPhase, hnone]
        · simp only [Loop.inPhase, hnone]
        · by_cases hj : j = k
          · subst hj
            refine .inl ?_
            simp only [Loop.inPhase, hnone, hc]
          · exact .inr (only_of_busy (.inr hp) j hj)
      | some c => exact h.finish hc (only_of_busy (.inr hp)) w (conns_finish l.state k w hc)
    | _ => exact hidle
  | writable k w =>
    unfold Loop.step Sockets.step Loop.writes Loop.onConn
    dsimp only
    cases hp : l.state.phase with
    | polling =>
      dsimp only
      cases hc : l.state.conns k with
      | none => exact hidle
      | some c => exact h.finish hc (only_of_calm (.inl hp) k) w (conns_finish l.state k w hc)
    | _ => exact hidle
  | hangup k =>
    unfold Loop.step Sockets.step Loop.onConn
    dsimp only
    cases hp : l.state.phase with
    | polling =>
      cases hc : l.state.conns k with
      | none => exact hidle
      | some c =>
        rw [if_pos ⟨rfl, rfl⟩]
        exact h.close hc (only_of_calm (.inl hp) k) rfl
    | _ =>
      rw [if_neg (by simp)]
      exact hidle
  | drain =>
    simp only [Loop.step, Sockets.step, Loop.writes]
    split_ifs with hp
    · exact hpass _ rfl (hcalm _ hp (.inl rfl))
    · exact hidle
  | next env w =>
    unfold Loop.step Sockets.step Loop.writes
    dsimp only
    cases hp : l.state.phase with
    | draining =>
      cases hb : l.batch with
      | nil => exact hidle
      | cons msg rest =>
        cases msg with
        | execute origin part => exact hpass _ rfl (hcalm _ hp (.inr rfl))
        | flush => exact hpass _ rfl (hcalm _ hp (.inr rfl))
        | complete part reply =>
          change ∃ m', Watches listen wake _ (l.state.completeFragment part reply w) m'
          unfold Shard.completeFragment
          have hnote : (l.state.note part.cid (·.fragment part reply)).conns = l.state.conns := rfl
          simp only [hnote]
          cases hc : l.state.conns part.cid with
          | none => exact hpass _ rfl (hcalm _ hp (.inr rfl))
          | some c =>
            dsimp only [Option.bind_some]
            unfold Connection.completed
            cases hfind : c.pipeline.find part.seq with
            | none => exact hpass _ rfl (hcalm _ hp (.inr rfl))
            | some pr =>
              dsimp only [Option.map_some]
              set c₁ : Connection :=
                { c with pipeline := c.pipeline.set part.seq (pr.complete part reply) }
              refine h.finish hc (only_of_calm (.inr hp) part.cid) w ?_
              rw [conns_finish _ part.cid w
                (c := c₁.flushReady) (by simp [Shard.flushReady, Shard.note, Shard.setConn])]
              exact Function.update_idem ..
    | _ => exact hidle
  | iterate due synced =>
    unfold Loop.step Sockets.step Loop.writes
    dsimp only
    cases hp : l.state.phase with
    | draining =>
      cases hb : l.batch with
      | nil =>
        refine hpass _ ?_ (hcalm _ hp (.inr rfl))
        cases due <;> rfl
      | cons msg rest => exact hidle
    | _ => exact hidle

/-- An id of a connection that has been closed is not used again. -/
structure Ages (sh sh' : Shard) : Prop where
  ids : sh.nextConnId ≤ sh'.nextConnId
  closed : ∀ cid, cid < sh.nextConnId → sh.conns cid = none → sh'.conns cid = none

theorem Ages.of_open {sh sh' : Shard} {k : ℕ} (hid : sh'.nextConnId = sh.nextConnId)
    (hothers : ∀ j, j ≠ k → sh'.conns j = sh.conns j)
    (hself : sh.conns k = none → sh'.conns k = none) : Ages sh sh' := by
  refine ⟨hid.ge, fun cid _ hnone => ?_⟩
  by_cases hcid : cid = k
  · subst hcid
    exact hself hnone
  · rw [hothers cid hcid]
    exact hnone

theorem Ages.same {sh sh' : Shard} (hid : sh'.nextConnId = sh.nextConnId)
    (hconns : sh'.conns = sh.conns) : Ages sh sh' :=
  .of_open (k := 0) hid (fun j _ => by rw [hconns]) fun hnone => by rwa [hconns]

theorem Ages.finish (sh : Shard) (k : ℕ) (w : Written) : Ages sh (sh.finish k w) := by
  obtain ⟨hothers, hid, -⟩ := finish_frame sh k w
  refine .of_open hid hothers fun hnone => ?_
  unfold Shard.finish
  rw [hnone]
  exact hnone

omit [DecidableEq ι] in
theorem Ages.onConn (cid : ℕ) {f : Connection → Loop ι}
    (hf : ∀ c, l.state.conns cid = some c → Ages l.state (f c).state) :
    Ages l.state (Loop.onConn l cid f).state := by
  unfold Loop.onConn
  split
  · next c _ hc => exact hf c hc
  · exact .same rfl rfl

theorem ages_step (e : Event) : Ages l.state (Loop.step shardFor shards here l e).1.state := by
  have hidle : Ages l.state l.state := .same rfl rfl
  cases e with
  | accept =>
    simp only [Loop.step]
    split_ifs
    · refine ⟨Nat.le_succ _, fun cid hlt hnone => ?_⟩
      exact (Function.update_of_ne hlt.ne _ _).trans hnone
    · exact hidle
  | readable k data eof =>
    refine .onConn k fun c hc => .of_open (k := k) rfl (fun j hj =>
      Function.update_of_ne hj _ _) fun hnone => ?_
    cases hnone.symm.trans hc
  | process env =>
    unfold Loop.step
    cases hp : l.state.phase with
    | reading k =>
      dsimp only
      cases hc : l.state.conns k with
      | none => exact hidle
      | some c =>
        obtain ⟨hothers, hid⟩ := processInput_frame shardFor shards here l.state env k c
        exact .of_open hid (fun j hj => (hothers j hj).1) fun hnone => by cases hnone.symm.trans hc
    | _ => exact hidle
  | settle w =>
    unfold Loop.step
    cases hp : l.state.phase with
    | writing k => exact ⟨(Ages.finish l.state k w).ids, (Ages.finish l.state k w).closed⟩
    | _ => exact hidle
  | writable k w => exact .onConn k fun c _ => .finish l.state k w
  | hangup k =>
    exact .onConn k fun c _ => .of_open (k := k) rfl (fun j hj =>
      Function.update_of_ne hj _ _) fun _ => Function.update_self ..
  | drain =>
    simp only [Loop.step]
    split_ifs
    · exact .same rfl rfl
    · exact hidle
  | next env w =>
    unfold Loop.step
    cases hp : l.state.phase with
    | draining =>
      cases hb : l.batch with
      | nil => exact hidle
      | cons msg rest =>
        cases msg with
        | execute origin part => exact .same rfl rfl
        | flush => exact .same rfl rfl
        | complete part reply =>
          obtain ⟨hothers, hid, -⟩ := completeFragment_frame l.state part reply w
          refine .of_open (k := part.cid) hid (fun j hj => (hothers j hj).1) fun hnone => ?_
          change (l.state.completeFragment part reply w).conns part.cid = none
          have hnote : (l.state.note part.cid (·.fragment part reply)).conns part.cid = none := hnone
          simp only [Shard.completeFragment, hnote]
    | _ => exact hidle
  | iterate due synced =>
    unfold Loop.step
    cases hp : l.state.phase with
    | draining =>
      cases hb : l.batch with
      | nil => cases due <;> exact .same rfl rfl
      | cons msg rest => exact hidle
    | _ => exact hidle

end Loops

namespace Reacting

variable {n : ℕ} {shardFor : Bytes → Fin n} {listen wake : Fin n → ℤ} {w : Reacting n}

/-- The kernel gives a new connection a descriptor that is not in use. -/
def Unused (listen wake : Fin n → ℤ) (w : Reacting n) : Happens n → Prop
  | .moves (i, .accept) fd => fd ≠ listen i ∧ fd ≠ wake i ∧
      ∀ cid < (w.server i).state.nextConnId, ((w.server i).state.conns cid).isSome →
      (w.sockets i).fds cid ≠ fd
  | _ => True

instance Unused.decidable (w : Reacting n) : DecidablePred (Unused listen wake w)
  | .moves (i, .accept) fd => inferInstanceAs (Decidable (fd ≠ listen i ∧ fd ≠ wake i ∧
      ∀ cid < (w.server i).state.nextConnId, ((w.server i).state.conns cid).isSome →
      (w.sockets i).fds cid ≠ fd))
  | .polls _ _ _ | .moves (_, .readable _ _ _) _ | .moves (_, .process _) _
  | .moves (_, .settle _) _ | .moves (_, .writable _ _) _ | .moves (_, .hangup _) _
  | .moves (_, .drain) _ | .moves (_, .next _ _) _ | .moves (_, .iterate _ _) _ =>
    inferInstanceAs (Decidable True)

/-- A run in which no descriptor is given while it is in use. -/
abbrev Fresh (shardFor : Bytes → Fin n) (listen wake : Fin n → ℤ) (w : Reacting n)
    (hs : List (Happens n)) : Prop :=
  Lib.RunOk (fun w h => (w.step shardFor h, ())) (Unused listen wake) w hs

/-- The invariant. -/
structure Sound (listen wake : Fin n → ℤ) (w : Reacting n) : Prop where
  ok : w.server.Ok
  watches : ∀ i, ∃ m, Watches (listen i) (wake i) (w.sockets i) (w.server i).state m

theorem Sound.boot (hne : ∀ i, listen i ≠ wake i) (db : Fin n → Keyspace) (aof : Fin n → Option Aof) :
    Sound listen wake (boot listen wake db aof) :=
  ⟨.boot db aof, fun i => Watches.start (hne i) fun _ => rfl⟩

/-- The step lemma: the invariant, and that a descriptor stays with its connection. -/
theorem Sound.step (hs : Sound listen wake w) (h : Happens n) (hunused : Unused listen wake w h) :
    Sound listen wake (w.step shardFor h) ∧ ∀ i,
      Ages (w.server i).state ((w.step shardFor h).server i).state ∧
      ∀ cid < (w.server i).state.nextConnId,
        ((w.step shardFor h).sockets i).fds cid = (w.sockets i).fds cid := by
  cases h with
  | polls i polled max =>
    refine ⟨⟨hs.ok, fun j => ?_⟩, fun j => ⟨.same rfl rfl, fun cid _ => ?_⟩⟩
    · obtain ⟨m, hm⟩ := hs.watches j
      refine ⟨m, ?_⟩
      by_cases hj : j = i
      · subst hj
        simp only [Reacting.step, Function.update_self]
        exact ⟨hm.registered.wait polled max, hm.listens, hm.wakes, hm.conns, hm.distinct,
          hm.nothingElse⟩
      · simpa only [Reacting.step, Function.update_of_ne hj] using hm
    · by_cases hj : j = i
      · subst hj
        simp only [Reacting.step, Function.update_self]
      · simp only [Reacting.step, Function.update_of_ne hj]
  | moves e fd =>
    obtain ⟨i, ev⟩ := e
    have hstate : ∀ j, (Server.step shardFor w.server (i, ev) j).state =
        if j = i then (Loop.step shardFor (List.finRange n) i (w.server i) ev).1.state else
        (w.server j).state := by
      intro j
      unfold Server.step
      rw [Lib.Net.deliver_state]
      by_cases hj : j = i
      · subst hj
        simp
      · simp [hj]
    refine ⟨⟨hs.ok.step (i, ev), fun j => ?_⟩, fun j => ?_⟩
    · obtain ⟨m, hm⟩ := hs.watches j
      simp only [Reacting.step, hstate]
      by_cases hj : j = i
      · subst hj
        rw [if_pos rfl, Function.update_self]
        refine watches_step shardFor (List.finRange n) j hm (hs.ok.accounted j) ev fd fun he hp => ?_
        subst he
        refine ⟨hunused.1, hunused.2.1, fun cid c hc =>
          hunused.2.2 cid ((hs.ok.accounted j).lt hc) (by rw [hc]; rfl)⟩
      · rw [if_neg hj, Function.update_of_ne hj]
        exact ⟨m, hm⟩
    · simp only [Reacting.step, hstate]
      by_cases hj : j = i
      · subst hj
        rw [if_pos rfl, Function.update_self]
        refine ⟨ages_step shardFor (List.finRange n) j ev, fun cid hlt => ?_⟩
        have hfinish : ∀ (k : ℕ) (c : Connection) (wr : Written),
          ((w.sockets j).finish k c wr).fds = (w.sockets j).fds := by
          intro k c wr
          unfold Sockets.finish
          dsimp only
          split_ifs <;> rfl
        cases ev with
        | accept =>
          simp only [Sockets.step]
          split_ifs
          · exact Function.update_of_ne hlt.ne _ _
          · rfl
        | hangup k =>
          simp only [Sockets.step]
          split_ifs <;> rfl
        | _ =>
          simp only [Sockets.step]
          split
          · rw [hfinish]
          · rfl
      · rw [if_neg hj, Function.update_of_ne hj]
        exact ⟨.same rfl rfl, fun _ _ => rfl⟩

/-- The run lemma. -/
theorem Sound.run (hs : Sound listen wake w) (hs' : List (Happens n))
    (hok : Fresh shardFor listen wake w hs') :
    Sound listen wake (w.run shardFor hs') ∧ ∀ i,
      Ages (w.server i).state ((w.run shardFor hs').server i).state ∧
      ∀ cid < (w.server i).state.nextConnId,
        ((w.run shardFor hs').sockets i).fds cid = (w.sockets i).fds cid := by
  induction hs' generalizing w with
  | nil => exact ⟨hs, fun i => ⟨.same rfl rfl, fun _ _ => rfl⟩⟩
  | cons h hs' ih =>
    obtain ⟨hsound, hstep⟩ := hs.step h hok.1
    obtain ⟨hend, hrun⟩ := ih hsound hok.2
    refine ⟨hend, fun i => ?_⟩
    obtain ⟨⟨hid, hclosed⟩, hfds⟩ := hstep i
    obtain ⟨⟨hid', hclosed'⟩, hfds'⟩ := hrun i
    refine ⟨⟨hid.trans hid', fun cid hlt hnone =>
      hclosed' cid (hlt.trans_le hid) (hclosed cid hlt hnone)⟩, fun cid hlt => ?_⟩
    exact (hfds' cid (hlt.trans_le hid)).trans (hfds cid hlt)

/-- In every run, an event of the reactor is that of the listening socket, of the waker or of a
connection that is open, and its token says which. If this connection is still there when the
event is handled, however much later, it is the one whose descriptor was ready, and an id that
was closed stays so. A connection that is neither read nor written is watched for writing exactly
while it has something to send. -/
theorem events_find_their_connection (shardFor : Bytes → Fin n) (listen wake : Fin n → ℤ)
    (hne : ∀ i, listen i ≠ wake i) (db : Fin n → Keyspace) (aof : Fin n → Option Aof)
    (hs₁ hs₂ : List (Happens n)) (hok : Fresh shardFor listen wake (boot listen wake db aof) hs₁)
    (hok' : Fresh shardFor listen wake ((boot listen wake db aof).run shardFor hs₁) hs₂) (i : Fin n)
    (hids : (((boot listen wake db aof).run shardFor hs₁).server i).state.nextConnId ≤ 2 ^ 62) :
    let w₁ := (boot listen wake db aof).run shardFor hs₁
    let w₂ := w₁.run shardFor hs₂
    let sh := (w₁.server i).state
    (∀ polled max, ∀ e ∈ ((w₁.sockets i).reactor.wait polled max).2.2,
      (decodeToken e.token = .listen ∧ e.fd = listen i) ∨
      (decodeToken e.token = .wake ∧ e.fd = wake i) ∨
      ∃ cid c, decodeToken e.token = .conn cid ∧ sh.conns cid = some c ∧
        (w₁.sockets i).fds cid = e.fd ∧ (w₂.sockets i).fds cid = e.fd) ∧
    (∀ cid < sh.nextConnId, sh.conns cid = none → (w₂.server i).state.conns cid = none) ∧
    ∀ cid c, sh.conns cid = some c → sh.phase ≠ .reading cid → sh.phase ≠ .writing cid →
      ∃ k p, (w₁.sockets i).reactor.index ((w₁.sockets i).fds cid) = some k ∧
        (w₁.sockets i).reactor.fds[k]? = some p ∧ p.fd = (w₁.sockets i).fds cid ∧
        p.events = if c.outSent < c.out.length then POLLIN ||| POLLOUT else POLLIN := by
  intro w₁ w₂ sh
  obtain ⟨hsound, -⟩ := (Sound.boot hne db aof).run hs₁ hok
  obtain ⟨-, hlater⟩ := hsound.run hs₂ hok'
  obtain ⟨m, hm⟩ := hsound.watches i
  have hacc := hsound.ok.accounted i
  refine ⟨fun polled max e he => ?_, (hlater i).1.closed, fun cid c hc hr hw => ?_⟩
  · obtain ⟨k, flags, hk, hmap, -⟩ := hm.registered.event he
    rcases hm.nothingElse e.fd (flags, e.token) hmap with hfd | hfd | ⟨cid, c, hc, hfd⟩
    · have htoken := (Prod.mk.inj (Option.some.inj (hmap.symm.trans (hfd ▸ hm.listens)))).2
      exact .inl ⟨by rw [htoken]; rfl, hfd⟩
    · have htoken := (Prod.mk.inj (Option.some.inj (hmap.symm.trans (hfd ▸ hm.wakes)))).2
      exact .inr (.inl ⟨by rw [htoken]; rfl, hfd⟩)
    · have hlt : cid < sh.nextConnId := hacc.lt hc
      obtain ⟨-, -, flags', hflags, -⟩ := hm.conns cid c hc
      rw [hfd, hmap] at hflags
      have htoken := (Prod.mk.inj (Option.some.inj hflags)).2
      refine .inr (.inr ⟨cid, c, ?_, hc, hfd, ((hlater i).2 cid hlt).trans hfd⟩)
      rw [htoken]
      exact decode_encode (hlt.trans_le hids)
  · obtain ⟨-, -, flags, hflags, hint⟩ := hm.conns cid c hc
    obtain rfl := hint hr hw
    have hindex : (w₁.sockets i).reactor.index ((w₁.sockets i).fds cid) ≠ none := fun hnone => by
      have := (hm.registered.registered _).2 hnone
      cases hflags.symm.trans this
    obtain ⟨k, hk⟩ := Option.ne_none_iff_exists'.1 hindex
    obtain ⟨p, hp, hfd⟩ := (hm.registered.index _ k).1 hk
    refine ⟨k, p, hk, hp, hfd, ?_⟩
    have hlt : k < (w₁.sockets i).reactor.tokens.length := by
      rw [← hm.registered.lengths]
      exact (List.getElem?_eq_some_iff.1 hp).1
    obtain ⟨flags', hkept, hevents⟩ := hm.registered.kept k p _ hp (List.getElem?_eq_getElem hlt)
    rw [hfd, hflags] at hkept
    obtain ⟨rfl, -⟩ := Prod.mk.inj (Option.some.inj hkept)
    rw [hevents, Connection.interest]
    split_ifs <;> rfl

/-- One shard: a connection on descriptor 7 asks for something and is hung up, and the next
connection has its descriptor. -/
def reused : List (Happens 1) × List (Happens 1) :=
  ([.moves (0, .accept) 7, .moves (0, .readable 1 (encodeMultibulk [ascii "PING"]) false) 0,
    .moves (0, .process (.quiet 0)) 0, .moves (0, .process (.quiet 0)) 0,
    .moves (0, .settle ⟨3, false⟩) 0, .polls 0 ⟨1, false, [0, 0, 4]⟩ 512],
   [.moves (0, .hangup 1) 0, .moves (0, .accept) 7])

theorem events_find_their_connection_reused :
    let w₁ :=
      (boot (fun _ => 4) (fun _ => 5) (fun _ => .empty) fun _ => none).run (fun _ => 0) reused.1
    let w₂ := w₁.run (fun _ => 0) reused.2
    (∀ polled max, ∀ e ∈ ((w₁.sockets 0).reactor.wait polled max).2.2, e.fd = 7 →
      ∃ cid, decodeToken e.token = .conn cid ∧ (w₁.sockets 0).fds cid = 7) ∧
    (w₂.server 0).state.conns 1 = none ∧ (w₂.sockets 0).fds 2 = 7 ∧
    ∃ k p, (w₁.sockets 0).reactor.index ((w₁.sockets 0).fds 1) = some k ∧
      (w₁.sockets 0).reactor.fds[k]? = some p ∧ p.events = POLLIN ||| POLLOUT := by
  have h := events_find_their_connection (fun _ => (0 : Fin 1)) (fun _ => 4) (fun _ => 5)
    (fun _ => by decide) (fun _ => .empty) (fun _ => none) reused.1 reused.2 (by decide +kernel)
    (by decide +kernel) 0 (by decide +kernel)
  refine ⟨fun polled max e he h7 => ?_, by rfl, by rfl, ?_⟩
  · rcases h.1 polled max e he with ⟨-, hfd⟩ | ⟨-, hfd⟩ | ⟨cid, c, hcid, -, hfd, -⟩
    · rw [h7] at hfd
      cases hfd
    · rw [h7] at hfd
      cases hfd
    · exact ⟨cid, hcid, hfd.trans h7⟩
  · obtain ⟨k, p, hk, hp, -, hevents⟩ := h.2.2 1 _ rfl (by decide +kernel) (by decide +kernel)
    exact ⟨k, p, hk, hp, hevents.trans (by decide +kernel)⟩

end Reacting

end BlazeKV
