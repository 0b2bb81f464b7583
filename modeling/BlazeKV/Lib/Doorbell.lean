import BlazeKV.Lib.Mailbox

/-! A mailbox with a bell. A sender puts its message into the queue and rings; the owner, once
it is awake, silences the bell and takes the queue. The owner may go to sleep while the bell is
silent: whatever waits then is of a sender that has still to ring. -/

namespace BlazeKV.Lib

/-- The messages in the queue with their senders, the senders that have put something in and
not rung yet, the bell, and whether the owner is awake and has still to take the queue. -/
structure Doorbell (ι μ : Type) where
  queue : List (ι × μ)
  owes : ι → Bool
  rung : Bool
  searching : Bool

namespace Doorbell

variable {ι μ : Type} [DecidableEq ι]

inductive Step : Doorbell ι μ → Doorbell ι μ → Prop
  | stay (d : Doorbell ι μ) : Step d d
  | sent (d : Doorbell ι μ) (i : ι) (v : μ) :
      Step d { d with queue := d.queue ++ [(i, v)], owes := Function.update d.owes i true }
  | rings (d : Doorbell ι μ) (i : ι) :
      Step d { d with owes := Function.update d.owes i false, rung := true }
  | wakes (d : Doorbell ι μ) : Step d { d with searching := true }
  | silenced (d : Doorbell ι μ) (h : d.searching = true) (rung : Bool) : Step d { d with rung := rung }
  | taken (d : Doorbell ι μ) : Step d { d with queue := [], searching := false }

/-- Unless the owner is about to take the queue, the bell has rung for all that is in it, or
its senders will ring. -/
def Heard (d : Doorbell ι μ) : Prop :=
  d.searching = false → d.rung = true ∨ ∀ e ∈ d.queue, d.owes e.1 = true

theorem Step.heard {d d' : Doorbell ι μ} (h : Step d d') (hd : d.Heard) : d'.Heard := by
  cases h with
  | stay => exact hd
  | sent i v =>
    refine fun hs => (hd hs).imp_right fun hall e he => ?_
    dsimp only
    by_cases hi : e.1 = i
    · rw [hi, Function.update_self]
    · rw [Function.update_of_ne hi]
      rcases List.mem_append.1 he with hold | hnew
      · exact hall e hold
      · rw [List.mem_singleton.1 hnew] at hi
        exact absurd rfl hi
  | rings i => exact fun _ => .inl rfl
  | wakes => exact fun hs => by cases hs
  | silenced h rung => exact fun hs => by cases h.symm.trans hs
  | taken => exact fun _ => .inr fun e he => absurd he List.not_mem_nil

end Doorbell

namespace Mail

variable {ι μ : Type}

/-- What an event leaves in the queue, with the senders. -/
def after (q : List (ι × μ)) : Mail ι μ → List (ι × μ)
  | .sent i v => q ++ [(i, v)]
  | .taken => []
  | _ => q

/-- What has been sent since the owner last took the queue. -/
def queued (es : List (Mail ι μ)) : List (ι × μ) := es.foldl after []

theorem queued_append (es es' : List (Mail ι μ)) :
    queued (es ++ es') = es'.foldl after (queued es) := List.foldl_append ..

/-- It is the end of all that has been sent. -/
theorem queued_suffix (es : List (Mail ι μ)) : queued es <:+ sends es := by
  induction es using List.reverseRecOn with
  | nil => exact List.suffix_refl _
  | append_singleton es e ih =>
    rw [queued_append, sends_append]
    cases e with
    | sent i v =>
      obtain ⟨t, ht⟩ := ih
      exact ⟨t, by simp [after, sends, ← ht]⟩
    | taken => exact List.nil_suffix
    | begun i v => simpa [after, sends] using ih
    | received v => simpa [after, sends] using ih
    | emptied n => simpa [after, sends] using ih

end Mail

namespace Mailbox

variable {ι μ : Type} [DecidableEq ι] {b b' : Mailbox ι μ} {es : List (Mail ι μ)}

theorem Run.after {q : List (ι × μ)} (h : Run b es b') (hq : b.queue = q.map Prod.snd) :
    b'.queue = (es.foldl Mail.after q).map Prod.snd := by
  induction h generalizing q with
  | nil => exact hq
  | cons he _ ih =>
    refine ih ?_
    cases he with
    | sent h => simp [Mail.after, hq]
    | taken h => rfl
    | begun h v => exact hq
    | received h => exact hq
    | emptied h => exact hq

/-- Once the owner has received its batch, what it has not received is in the queue. -/
theorem Run.unreceived (h : Run empty es b) (hbatch : b.batch = []) :
    (Mail.sends es).drop (Mail.receipts es).length = Mail.queued es := by
  obtain ⟨front, hfront⟩ := Mail.queued_suffix es
  have hheld := h.held
  have hqueue : b.queue = (Mail.queued es).map Prod.snd := h.after rfl
  rw [Actor.held, Actor.held, hbatch, hqueue, ← hfront, List.map_append] at hheld
  have hreceived : front.map Prod.snd = Mail.receipts es := by
    refine (List.append_cancel_right_eq _ ((Mail.queued es).map Prod.snd) _).mp ?_
    simpa [empty] using hheld
  have hlen : front.length = (Mail.receipts es).length := by rw [← hreceived, List.length_map]
  rw [← hlen, ← hfront, List.drop_left]

end Mailbox

end BlazeKV.Lib
