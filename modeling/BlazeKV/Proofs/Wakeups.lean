import BlazeKV.Lib.Doorbell
import BlazeKV.Proofs.MpscFifo
import BlazeKV.Spec.Waker

/-! No wakeup is lost. The mailbox of a shard and its waker are a mailbox with a bell: the loop
reads the waker before it drains the mailbox, so what waits while the waker is silent has been
pushed by a thread that has still to write to it. -/

namespace BlazeKV

open Lib (Mail Mailbox Doorbell)

namespace Waker

/-- After a notification there is something to read, also when the write did not fit. -/
theorem pending_notify (w : Waker) : 0 < w.notify.pending := by
  unfold notify
  cases w.kind with
  | eventfd =>
    dsimp only
    split_ifs with hfits
    · exact Nat.succ_pos _
    · unfold kCounterMax at hfits
      omega
  | pipe capacity atLeast =>
    dsimp only
    split_ifs with hfits
    · exact Nat.add_pos_right _ (by decide)
    · omega

end Waker

namespace Wakeup

variable {ι μ : Type} [DecidableEq ι] {self : ι} {s s' : State ι μ} {es es' : List (Mail ι μ)}

/-- The loop is awake and has not taken the mailbox yet. -/
def State.searching (s : State ι μ) : Bool :=
  match s.spot with
  | .waiting => false
  | .handling _ => true
  | .reading => true
  | .draining => atRest s.queue.drain

/-- What is said of a mailbox with a bell. -/
def State.bell (s : State ι μ) (es : List (Mail ι μ)) : Doorbell ι μ :=
  ⟨Mail.queued es, s.owes, decide (0 < s.waker.pending), s.searching⟩

/-- The invariant. -/
structure Sound (s : State ι μ) (es : List (Mail ι μ)) : Prop where
  heard : (s.bell es).Heard
  idle : s.spot ≠ .draining → s.queue.drain = .idle
  rep : ∃ b stack taken left, Mailbox.empty.Run es b ∧ MpscQueue.Rep s.queue b stack taken left

theorem atRest_iff {d : MpscQueue.Drain} : atRest d = true ↔ d = .idle := by
  cases d <;> simp [atRest]

/-- The steps of a push leave the drain alone, and put in at most one message. -/
theorem push_step {q q' : MpscQueue.State ι μ} {a : MpscQueue.Action ι μ}
    (h : MpscQueue.step self q a = some (q', es'))
    (ha : a ≠ .drain) : q'.drain = q.drain ∧
    (es' = [] ∨ (∃ i v, es' = [.begun i v]) ∨ ∃ i v, es' = [.sent i v]) := by
  cases a with
  | call i v node =>
    simp only [MpscQueue.step] at h
    split_ifs at h
    obtain ⟨rfl, rfl⟩ := Prod.mk.inj (Option.some.inj h)
    exact ⟨rfl, .inr (.inl ⟨i, v, rfl⟩)⟩
  | load i =>
    simp only [MpscQueue.step] at h
    split at h
    · obtain ⟨rfl, rfl⟩ := Prod.mk.inj (Option.some.inj h)
      exact ⟨rfl, .inl rfl⟩
    · cases h
  | link i =>
    simp only [MpscQueue.step] at h
    split at h
    · next node head _ =>
      simp only [Option.bind_eq_bind, Option.bind_eq_some_iff] at h
      obtain ⟨n, -, h⟩ := h
      obtain ⟨rfl, rfl⟩ := Prod.mk.inj (Option.some.inj h)
      exact ⟨rfl, .inl rfl⟩
    · cases h
  | exchange i spurious =>
    simp only [MpscQueue.step] at h
    split at h
    · next node head _ =>
      split_ifs at h
      · simp only [Option.bind_eq_bind, Option.bind_eq_some_iff] at h
        obtain ⟨n, -, h⟩ := h
        obtain ⟨rfl, rfl⟩ := Prod.mk.inj (Option.some.inj h)
        exact ⟨rfl, .inr (.inr ⟨i, n.value, rfl⟩)⟩
      · obtain ⟨rfl, rfl⟩ := Prod.mk.inj (Option.some.inj h)
        exact ⟨rfl, .inl rfl⟩
    · cases h
  | drain => exact absurd rfl ha

/-- A step of the drain takes the queue when it begins, and leaves it alone from then on. -/
theorem drain_step {q q' : MpscQueue.State ι μ} (h : MpscQueue.step self q .drain = some (q', es')) :
    (q.drain = .idle ∧ (es' = [.taken] ∨ es' = [.taken, .emptied 0])) ∨
      (q.drain ≠ .idle ∧ (es' = [] ∨ (∃ v, es' = [.received v]) ∨ ∃ k, es' = [.emptied k])) := by
  simp only [MpscQueue.step] at h
  split_ifs at h
  unfold MpscQueue.State.consume at h
  split at h
  · next hd =>
    refine .inl ⟨hd, ?_⟩
    split_ifs at h
    · exact .inr (Prod.mk.inj (Option.some.inj h)).2.symm
    · exact .inl (Prod.mk.inj (Option.some.inj h)).2.symm
  · next hd =>
    exact .inr ⟨by simp [hd], .inl (Prod.mk.inj (Option.some.inj h)).2.symm⟩
  · next hd =>
    simp only [Option.bind_eq_bind, Option.bind_eq_some_iff] at h
    obtain ⟨n, -, h⟩ := h
    exact .inr ⟨by simp [hd], .inl (Prod.mk.inj (Option.some.inj h)).2.symm⟩
  · next hd =>
    exact .inr ⟨by simp [hd], .inr (.inr ⟨_, (Prod.mk.inj (Option.some.inj h)).2.symm⟩)⟩
  · next hd =>
    simp only [Option.bind_eq_bind, Option.bind_eq_some_iff] at h
    obtain ⟨n, -, h⟩ := h
    exact .inr ⟨by simp [hd], .inr (.inl ⟨_, (Prod.mk.inj (Option.some.inj h)).2.symm⟩)⟩
  · next hd =>
    exact .inr ⟨by simp [hd], .inl (Prod.mk.inj (Option.some.inj h)).2.symm⟩

/-- The step lemma: a step of the mailbox with its waker is one of a mailbox with a bell. -/
theorem bell_step {act : Action ι μ} (h : step self s act = some (s', es'))
    (hidle : s.spot ≠ .draining → s.queue.drain = .idle) :
    Doorbell.Step (s.bell es) (s'.bell (es ++ es')) ∧
    (s'.spot ≠ .draining → s'.queue.drain = .idle) := by
  cases act with
  | push a =>
    simp only [step] at h
    split_ifs at h with hmay
    obtain ⟨⟨q', es₁⟩, hq, hr⟩ := Option.map_eq_some_iff.1 h
    obtain ⟨rfl, rfl⟩ := Prod.mk.inj hr
    obtain ⟨hdrain, hes⟩ := push_step hq (by rintro rfl; cases hmay)
    refine ⟨?_, fun hs => hdrain.trans (hidle hs)⟩
    have hsearch : ∀ owes, ({ s with queue := q', owes := owes } : State ι μ).searching =
      s.searching := fun owes => by
      simp only [State.searching, hdrain]
    rcases hes with rfl | ⟨i, v, rfl⟩ | ⟨i, v, rfl⟩
    · simp only [State.bell, State.owed, sender, hsearch, List.append_nil]
      exact .stay _
    · simp only [State.bell, State.owed, sender, hsearch, Mail.queued_append, List.foldl_cons,
        List.foldl_nil, Mail.after]
      exact .stay _
    · simp only [State.bell, State.owed, sender, hsearch, Mail.queued_append, List.foldl_cons,
        List.foldl_nil, Mail.after]
      exact .sent (s.bell es) i v
  | notify i =>
    simp only [step] at h
    split_ifs at h
    obtain ⟨rfl, rfl⟩ := Prod.mk.inj (Option.some.inj h)
    refine ⟨?_, hidle⟩
    have hrung : decide (0 < s.waker.notify.pending) = true := decide_eq_true s.waker.pending_notify
    rw [List.append_nil]
    simp only [State.bell, hrung]
    exact .rings (s.bell es) i
  | wait woken =>
    simp only [step] at h
    split_ifs at h with hc
    obtain ⟨rfl, rfl⟩ := Prod.mk.inj (Option.some.inj h)
    rw [List.append_nil]
    exact ⟨.wakes (s.bell es), fun _ => hidle (by rw [hc.1]; simp)⟩
  | wake =>
    simp only [step] at h
    split_ifs at h with hc
    obtain ⟨rfl, rfl⟩ := Prod.mk.inj (Option.some.inj h)
    rw [List.append_nil]
    exact ⟨.wakes (s.bell es), fun _ => hidle (by rw [hc.1]; simp)⟩
  | read =>
    simp only [step] at h
    split_ifs at h with hc hmore
    all_goals
      obtain ⟨rfl, rfl⟩ := Prod.mk.inj (Option.some.inj h)
      rw [List.append_nil]
      have hsearch : s.searching = true := by rw [State.searching, hc]
      refine ⟨?_, fun _ => hidle (by rw [hc]; simp)⟩
      have hstep := Doorbell.Step.silenced (s.bell es) hsearch (decide (0 < s.waker.read.1.pending))
      simp only [State.bell, hsearch] at hstep ⊢
      exact hstep
  | handled =>
    simp only [step] at h
    split_ifs at h with hc
    obtain ⟨rfl, rfl⟩ := Prod.mk.inj (Option.some.inj h)
    rw [List.append_nil]
    refine ⟨?_, fun hs => absurd rfl hs⟩
    have hsearch : s.searching = true := by rw [State.searching, hc.1]
    have hsame : ({ s with spot := .draining } : State ι μ).searching = s.searching := by
      rw [hsearch, State.searching, hidle (by rw [hc.1]; simp)]
      rfl
    simp only [State.bell, hsame]
    exact .stay _
  | drain =>
    simp only [step] at h
    split_ifs at h with hc
    obtain ⟨⟨q', es₁⟩, hq, hr⟩ := Option.map_eq_some_iff.1 h
    obtain ⟨rfl, rfl⟩ := Prod.mk.inj hr
    have hquiet : ({ s with queue := q'
                            spot := if atRest q'.drain then .waiting else .draining } :
        State ι μ).searching = false := by
      cases hd : atRest q'.drain <;> simp [State.searching, hd]
    refine ⟨?_, fun hs => ?_⟩
    · rcases drain_step hq with ⟨-, hes⟩ | ⟨hd, hes⟩
      · have htaken : Mail.queued (es ++ es₁) = [] := by
          rcases hes with rfl | rfl <;> simp [Mail.queued_append, Mail.after]
        have hstep := Doorbell.Step.taken (s.bell es)
        simp only [State.bell] at hstep ⊢
        rw [htaken, hquiet]
        exact hstep
      · have hsame : Mail.queued (es ++ es₁) = Mail.queued es := by
          rcases hes with rfl | ⟨v, rfl⟩ | ⟨k, rfl⟩ <;> simp [Mail.queued_append, Mail.after]
        have hbefore : s.searching = false := by
          rw [State.searching, hc.1]
          exact Bool.eq_false_iff.2 fun hrest => hd (atRest_iff.1 hrest)
        simp only [State.bell]
        rw [hsame, hquiet, hbefore]
        exact .stay _
    · by_contra hd
      have hrest : atRest q'.drain = false := Bool.eq_false_iff.2 fun hrest => hd (atRest_iff.1 hrest)
      simp [hrest] at hs

theorem Sound.step {act : Action ι μ} (hs : Sound s es) (h : step self s act = some (s', es')) :
    Sound s' (es ++ es') := by
  obtain ⟨hbell, hidle⟩ : Doorbell.Step (s.bell es) (s'.bell (es ++ es')) ∧
      (s'.spot ≠ .draining → s'.queue.drain = .idle) := bell_step h hs.idle
  refine ⟨hbell.heard hs.heard, hidle, ?_⟩
  obtain ⟨b, stack, taken, left, hrun, hrep⟩ := hs.rep
  have hqueue : ∀ (a : MpscQueue.Action ι μ), MpscQueue.step self s.queue a = some (s'.queue, es') →
      ∃ b stack taken left, Mailbox.empty.Run (es ++ es') b ∧
      MpscQueue.Rep s'.queue b stack taken left := by
    intro a ha
    obtain ⟨b', stack', taken', left', hrun', hrep'⟩ := hrep.step ha
    exact ⟨b', stack', taken', left', hrun.append hrun', hrep'⟩
  have hkeep : s'.queue = s.queue → es' = [] →
      ∃ b stack taken left, Mailbox.empty.Run (es ++ es') b ∧
      MpscQueue.Rep s'.queue b stack taken left := by
    intro hq he
    rw [hq, he, List.append_nil]
    exact ⟨b, stack, taken, left, hrun, hrep⟩
  cases act with
  | push a =>
    simp only [Wakeup.step] at h
    split_ifs at h
    obtain ⟨r, hq, hr⟩ := Option.map_eq_some_iff.1 h
    obtain ⟨rfl, rfl⟩ := Prod.mk.inj hr
    exact hqueue a hq
  | drain =>
    simp only [Wakeup.step] at h
    split_ifs at h
    obtain ⟨r, hq, hr⟩ := Option.map_eq_some_iff.1 h
    obtain ⟨rfl, rfl⟩ := Prod.mk.inj hr
    exact hqueue .drain hq
  | _ =>
    simp only [Wakeup.step] at h
    split_ifs at h
    all_goals
      obtain ⟨rfl, rfl⟩ := Prod.mk.inj (Option.some.inj h)
      exact hkeep rfl rfl

theorem sound_init (kind : WakerKind) : Sound (init kind : State ι μ) [] :=
  ⟨fun _ => .inr fun _ he => absurd he List.not_mem_nil, fun _ => rfl, _, _, _, _, .nil _,
  MpscQueue.rep_init⟩

/-- The run lemma. -/
theorem Sound.run {acts : List (Action ι μ)} {os : List (List (Mail ι μ))} (hs : Sound s es)
    (h : Lib.run (Wakeup.step self) s acts = some (s', os)) : Sound s' (es ++ os.flatten) := by
  induction acts generalizing s es os with
  | nil =>
    obtain ⟨rfl, rfl⟩ := Prod.mk.inj (Option.some.inj h)
    rw [List.flatten_nil, List.append_nil]
    exact hs
  | cons act acts ih =>
    simp only [Lib.run, Option.bind_eq_bind, Option.bind_eq_some_iff] at h
    obtain ⟨⟨s₁, es₁⟩, h₁, ⟨s₂, os₂⟩, h₂, h₃⟩ := h
    obtain ⟨rfl, rfl⟩ := Prod.mk.inj (Option.some.inj h₃)
    rw [List.flatten_cons, ← List.append_assoc]
    exact ih (hs.step h₁) h₂

/-- In every run of posters and loop, when the loop stands in `wait` and there is nothing to read
from the waker, each closure that was pushed has been run, but for those whose posters have still
to write to the waker. Their writes leave something to read, and the loop may return for it. -/
theorem no_lost_wakeup {kind : WakerKind} {acts : List (Action ι μ)} {os : List (List (Mail ι μ))}
    (h : Lib.run (step self) (init kind) acts = some (s, os)) :
    (s.spot = .waiting → s.waker.pending = 0 →
      ∀ e ∈ (Mail.sends os.flatten).drop (Mail.receipts os.flatten).length, s.owes e.1 = true) ∧
    (s.spot = .waiting → (∀ i, s.owes i = false) →
      (Mail.sends os.flatten).map Prod.snd = Mail.receipts os.flatten ∨
      (step self s (.wait true)).isSome) ∧
    ∀ i, s.owes i = true → ∃ s', step self s (.notify i) = some (s', []) ∧ 0 < s'.waker.pending ∧
    s'.spot = s.spot := by
  have hs : Sound s os.flatten := by simpa using (sound_init kind).run h
  obtain ⟨b, stack, taken, left, hrun, hrep⟩ := hs.rep
  have hwait : s.spot = .waiting → s.waker.pending = 0 →
      ∀ e ∈ (Mail.sends os.flatten).drop (Mail.receipts os.flatten).length, s.owes e.1 = true := by
    intro hspot hsilent
    have hbatch : b.batch = [] := by
      have hdrains := hrep.inDrain
      rw [hs.idle (by rw [hspot]; simp)] at hdrains
      generalize b.batch = vs at hdrains
      cases hdrains
      rfl
    rw [hrun.unreceived hbatch]
    have hasleep : s.searching = false := by rw [State.searching, hspot]
    refine (hs.heard hasleep).resolve_left ?_
    simp [State.bell, hsilent]
  refine ⟨hwait, fun hspot hnone => ?_, fun i hi => ⟨_, if_pos hi, s.waker.pending_notify, rfl⟩⟩
  by_cases hsilent : s.waker.pending = 0
  · refine .inl ?_
    have hall : (Mail.sends os.flatten).drop (Mail.receipts os.flatten).length = [] := by
      refine List.eq_nil_iff_forall_not_mem.2 fun e he => ?_
      cases (hnone e.1).symm.trans (hwait hspot hsilent e he)
    have hheld : (Mail.sends os.flatten).map Prod.snd = Mail.receipts os.flatten ++ b.held := hrun.held
    rw [hheld, List.append_right_eq_self]
    have hlen := congrArg List.length hheld
    have hle := List.drop_eq_nil_iff.1 hall
    rw [List.length_map, List.length_append] at hlen
    exact List.length_eq_zero_iff.1 (by omega)
  · exact .inr (by simp [step, hspot, Nat.pos_of_ne_zero hsilent])

/-- A closure is pushed and its notification read, and another is pushed before the loop has
taken the mailbox: its poster writes to the waker when the loop is back in `wait`. -/
theorem no_lost_wakeup_between : ∃ s : State Bool ℕ,
    Lib.run (step true) (init .eventfd)
      [.push (.call false 7 0), .push (.load false), .push (.link false),
      .push (.exchange false false), .notify false,
        .wait true, .wake, .read, .push (.call false 9 1), .push (.load false), .push (.link false),
        .read, .handled,
        .push (.exchange false false), .drain, .drain, .drain, .drain, .drain, .drain, .drain,
        .drain, .drain] =
      some (s, [[.begun false 7], [], [], [.sent false 7], [], [], [], [], [.begun false 9], [], [],
      [], [], [.sent false 9],
        [.taken], [], [], [], [.received 7], [], [.received 9], [], [.emptied 2]]) ∧
      s.spot = .waiting ∧ ∃ s', step true s (.notify false) = some (s', []) ∧ 0 < s'.waker.pending ∧
      s'.spot = s.spot := by
  have h : Lib.run (step true) (init .eventfd : State Bool ℕ)
      [.push (.call false 7 0), .push (.load false), .push (.link false),
      .push (.exchange false false), .notify false,
        .wait true, .wake, .read, .push (.call false 9 1), .push (.load false), .push (.link false),
        .read, .handled,
        .push (.exchange false false), .drain, .drain, .drain, .drain, .drain, .drain, .drain,
        .drain, .drain] =
      some (_, [[.begun false 7], [], [], [.sent false 7], [], [], [], [], [.begun false 9], [], [],
      [], [], [.sent false 9],
        [.taken], [], [], [], [.received 7], [], [.received 9], [], [.emptied 2]]) := rfl
  exact ⟨_, h, rfl, (no_lost_wakeup h).2.2 false rfl⟩

end Wakeup

end BlazeKV
